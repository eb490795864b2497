import CxlShm.WorldRun

/-! # WorldSteps — every call keeps the invariant

One lemma for each call of the machine: the invariant holds afterwards, and the data of the objects that stay is
as before.
-/

namespace CxlShm

open SlotCount Loop Transition

/-! ## §1 — what a call leaves alone -/

section Frames

variable {K : Users} {w : World} {m m' : Shm} {G G' : Nat → BlockLists} {H H' : ObjHeap} {u b x t q : Nat}

/-- The invariant after a call: RootRefs and queues are as before, or they are in order anyway. -/
theorem WorldOk.next (h : WorldOk K w G H) (hheap : HeapOk K m' G' H') {hs : Nat → Nat}
    (hroot : ∀ t, HeldBy K G' 0 t → (HeldBy K G 0 t ∧ hs t = w.handles t ∧ m'.word t = w.mem.word t ∧
      m'.word (t + 8) = w.mem.word (t + 8)) ∨ RootOk ⟨m', hs⟩ t)
    (hunnamed : ∀ t, ¬ HeldBy K G' 0 t → hs t = 0)
    (hring : ∀ q, HeldBy K G' 1 q → (HeldBy K G 1 q ∧ ∀ d < 192, m'.word (q + d) = w.mem.word (q + d)) ∨
      RingOk m' q) : WorldOk K ⟨m', hs⟩ G' H' := by
  refine ⟨hheap, fun t ht => ?_, hunnamed, fun q hq => ?_⟩
  · rcases hroot t ht with ⟨ht, hh, h₀, h₈⟩ | hok
    · exact (h.root t ht).congr h₀ h₈ hh
    · exact hok
  · rcases hring q hq with ⟨hq, hw⟩ | hok
    · exact (h.ring q hq).congr hw
    · exact hok

theorem WorldOk.held_of_named (h : WorldOk K w G H) (ht : w.handles t ≠ 0) : HeldBy K G 0 t := by
  by_contra hno
  exact ht (h.unnamed t hno)

/-- The object of a handle. -/
theorem WorldOk.pptr_obj (h : WorldOk K w G H) (ht : HeldBy K G 0 t) : w.mem.word t ∈ H.objs :=
  h.heap.exact.obj (ObjHeap.root_mem ((h.heap.view.root t).mpr (Or.inl ht))) (h.root t ht).pptr

theorem DataKept.refl : DataKept K none m m G G H H :=
  ⟨fun _ _ _ _ _ => rfl, fun _ _ _ _ _ _ _ _ _ => rfl, fun _ _ _ => rfl, fun _ _ _ hx => hx⟩

/-- A store into a RootRef or a queue. -/
theorem HeapOk.dataKept_store (h : HeapOk K m G H) (hx : HeldBy K G b x) (hb : b < 2) {d : Nat} (hd : d < binSize b)
    (v : Nat) : DataKept K none m (m.store (x + d) v) G G H H := by
  refine ⟨fun _ _ _ _ _ => rfl, fun c y e hc hy _ _ he _ => ?_, fun c hc _ => ?_, fun _ _ _ hy => hy⟩
  · exact Function.update_of_ne (h.pools.held_apart hy hx (Or.inl (by omega)) he hd) ..
  · have := hx.area
    exact Function.update_of_ne (by omega) ..

/-- Only words of the heap are written. -/
theorem ReleasedFrame.dataKept (hf : ReleasedFrame H m m') (h : HeapOk K m G H) (hemb : H'.emb = H.emb)
    (hindex : ∀ b x, x ∈ K.index → HeldBy K G b x → HeldBy K G' b x) : DataKept K none m m' G G' H H' := by
  refine ⟨fun _ _ _ _ _ => by rw [hemb], fun b x d hb hx _ hlo hd _ => ?_, fun c hc hextra => ?_, hindex⟩
  · exact hf.word _ (h.view.payload_not_touched h.pools hb hx hlo hd)
  · exact hf.word _ (h.view.below_not_touched hc hextra)

theorem DataKept.trans {m₁ : Shm} {G₁ : Nat → BlockLists} {H₁ : ObjHeap} (h : DataKept K none m m₁ G G₁ H H₁)
    (h' : DataKept K none m₁ m' G₁ G' H₁ H')
    (hmid : ∀ b x, 3 ≤ b → HeldBy K G b x → HeldBy K G' b x → HeldBy K G₁ b x) :
    DataKept K none m m' G G' H H' := by
  refine ⟨fun b x hb hx hx' => ?_, fun b x d hb hx hx' hlo hd _ => ?_, fun c hc hextra => ?_,
    fun b x hi hx => h'.index b x hi (h.index b x hi hx)⟩
  · rw [h'.emb b x hb (hmid b x hb hx hx') hx', h.emb b x hb hx (hmid b x hb hx hx')]
  · have hm := hmid b x hb hx hx'
    have hemb := h.emb b x hb hx hm
    rw [h'.word b x d hb hm hx' (by rw [hemb]; exact hlo) hd (by simp), h.word b x d hb hx hm hlo hd (by simp)]
  · rw [h'.below c hc hextra, h.below c hc hextra]

end Frames

/-! ## §2 — handles -/

section Handles

variable {K : Users} {w : World} {m' : Shm} {G : Nat → BlockLists} {H : ObjHeap} {u t size fuel : Nat}

/-- The count of a RootRef is set. -/
theorem WorldOk.setCount (h : WorldOk K w G H) (ht : HeldBy K G 0 t) {v n : Nat} (hv : v % 2 ^ 16 = n) (hn : n ≠ 0) :
    WorldOk K ⟨w.mem.setRootRefCnt t v, Function.update w.handles t n⟩ G H ∧
      DataKept K none w.mem (w.mem.setRootRefCnt t v) G G H H := by
  have hno := h.heap.view.second_not_touched h.heap.pools ht
  have hheap : HeapOk K (w.mem.setRootRefCnt t v) G H := h.heap.store ht (by decide) hno _
  refine ⟨h.next hheap (fun t' ht' => ?_) (fun t' ht' => ?_) fun q hq => ?_, h.heap.dataKept_store ht (by decide) (by decide) _⟩
  · by_cases htt : t' = t
    · right
      subst htt
      have hroot := h.root t' ht
      refine ⟨?_, ?_, ?_, ?_⟩
      · exact (inUse_setRootRefCnt w.mem t' v).trans hroot.inUse
      · show (w.mem.setRootRefCnt t' v).word t' ≠ 0
        rw [setRootRefCnt_word_of_ne _ _ _ (by omega)]
        exact hroot.pptr
      · show (w.mem.setRootRefCnt t' v).rootRefCnt t' = Function.update w.handles t' n t'
        rw [rootRefCnt_setRootRefCnt, hv, Function.update_self]
      · show Function.update w.handles t' n t' ≠ 0
        rwa [Function.update_self]
    · left
      have hne : ∀ d < 16, t' + d ≠ t + 8 := fun d hd =>
        h.heap.pools.held_apart ht' ht (Or.inr htt) hd (by decide)
      exact ⟨ht', Function.update_of_ne htt .., setRootRefCnt_word_of_ne _ _ _ (hne 0 (by decide)),
        setRootRefCnt_word_of_ne _ _ _ (hne 8 (by decide))⟩
  · have htt : t' ≠ t := by
      rintro rfl
      exact ht' ht
    rw [Function.update_of_ne htt]
    exact h.unnamed t' ht'
  · refine Or.inl ⟨hq, fun d hd => setRootRefCnt_word_of_ne _ _ _ ?_⟩
    have hsize : binSize 1 = 192 := rfl
    exact h.heap.pools.held_apart hq ht (Or.inl (by decide)) (by omega) (by decide)

/-- **A handle is copied.** -/
theorem WorldOk.copy (h : WorldOk K w G H) {r : CxlRef} (hr : w.handles r.tbr ≠ 0) (hroom : w.handles r.tbr + 1 < 2 ^ 16) :
    WorldOk K ⟨(r.copy w.mem).2, Function.update w.handles r.tbr (w.handles r.tbr + 1)⟩ G H ∧
      DataKept K none w.mem (r.copy w.mem).2 G G H H := by
  have ht := h.held_of_named hr
  have hcount := (h.root r.tbr ht).count
  have hcopy : (r.copy w.mem).2 = w.mem.setRootRefCnt r.tbr ((w.mem.rootRefCnt r.tbr + 1) % 2 ^ 16) :=
    if_pos ht.ne_zero
  rw [hcopy]
  exact h.setCount ht (by rw [hcount]; omega) (Nat.succ_ne_zero _)

/-- **The last handle is destroyed**: the RootRef is given back, and what it alone kept alive dies. -/
theorem WorldOk.destroyLast (h : WorldOk K w G H) (hu : u ∈ K.clients) (ht : HeldBy K G 0 t) (hlast : w.handles t = 1)
    {m₂ : Shm} (htest : CxlShm.testFree u fuel t (w.mem.setRootRefCnt t ((w.mem.rootRefCnt t + (2 ^ 16 - 1)) % 2 ^ 16)) = some m₂)
    (hfree : cxlFree u true t (m₂.setInUse t 0) = some m') :
    ∃ G' H', WorldOk K ⟨m', Function.update w.handles t (w.handles t - 1)⟩ G' H' ∧
      DataKept K none w.mem m' G G' H H' ∧ (∀ b x, HeldBy K G' b x → HeldBy K G b x) ∧
      ∀ a ∈ H'.slots, m'.word a ≠ 0 → a ∈ H.slots ∧ m'.word a = w.mem.word a ∧ a ≠ t := by
  have hno := h.heap.view.second_not_touched h.heap.pools ht
  have hslot : t ∈ H.roots := (h.heap.view.root t).mpr (Or.inl ht)
  have hword₁ : ∀ a, a ≠ t + 8 →
      (w.mem.setRootRefCnt t ((w.mem.rootRefCnt t + (2 ^ 16 - 1)) % 2 ^ 16)).word a = w.mem.word a :=
    fun a ha => setRootRefCnt_word_of_ne _ _ _ ha
  have h₁ : HeapOk K (w.mem.setRootRefCnt t ((w.mem.rootRefCnt t + (2 ^ 16 - 1)) % 2 ^ 16)) G H :=
    h.heap.store ht (by decide) hno _
  generalize w.mem.setRootRefCnt t ((w.mem.rootRefCnt t + (2 ^ 16 - 1)) % 2 ^ 16) = m₁ at *
  obtain ⟨G₂, hrel, hdrop, hframe⟩ := h₁.testFree hu hslot htest
  obtain ⟨H₂, h₂, hemb₂⟩ := hdrop.heapOk h₁.view hrel.exact h.heap.index
  have ht₂ : HeldBy K G₂ 0 t := (hdrop.held 0 t).mpr ⟨ht, fun hb => by omega⟩
  -- the RootRef is marked free
  have h₃ : HeapOk K (m₂.setInUse t 0) G₂ H₂ :=
    h₂.store ht₂ (by decide) (h₂.view.second_not_touched h₂.pools ht₂) _
  have hword₃ : ∀ a, a ≠ t + 8 → (m₂.setInUse t 0).word a = m₂.word a := fun a ha =>
    setInUse_word_of_ne m₂ t 0 ha
  have hempty : ∀ d < binSize 0, t + d ∈ H₂.slots → (m₂.setInUse t 0).word (t + d) = 0 := by
    intro d hd hs
    have hd0 := h₂.view.touches h₂.pools ht₂ hd (Or.inl hs)
    obtain rfl : d = 0 := by omega
    rw [hword₃ _ (by omega)]
    exact hrel.cleared
  obtain ⟨m₄, G', H', hrun, h', hback, hemb, -⟩ := h₃.free hu ht₂ (by decide) hempty
  obtain rfl := Option.some.inj (hfree.symm.trans hrun)
  have hsub : ∀ b x, HeldBy K G' b x → HeldBy K G b x ∧ x ≠ t := by
    intro b x hx
    obtain ⟨hx, hne⟩ := (hback.held b x).mp hx
    exact ⟨((hdrop.held b x).mp hx).1, hne⟩
  -- words of other blocks after the drop
  have hword : ∀ b x d, HeldBy K G' b x → d < binSize b → m'.word (x + d) = m₂.word (x + d) := by
    intro b x d hx hd
    obtain ⟨hx₂, hne⟩ := (hback.held b x).mp hx
    have hapart : ∀ e < 16, x + d ≠ t + e := fun e he => h₂.pools.held_apart hx₂ ht₂ (Or.inr hne) hd he
    rw [← hword₃ _ (hapart 8 (by decide))]
    by_contra hw
    obtain ⟨k, hk, hak⟩ := hback.word _ hw
    have hk2 : k < 2 := hk
    exact hapart (8 * k) (by omega) hak
  have hroots : ∀ a ∈ H.roots, a ≠ t → m₂.word a = m₁.word a := fun a ha hne => hrel.root ha hne
  -- a reference that is left was there before
  have hleft : ∀ a ∈ H'.slots, a ∈ H.slots ∧ a ≠ t ∧ a ≠ t + 8 ∧ m'.word a = m₂.word a := by
    intro a ha
    rcases h'.view.slot_cases ha with (ha | ⟨q, k, hq, hk, rfl⟩ | ha) | ⟨b, x, k, hb, hx, hni, hk, rfl, hlt⟩
    · obtain ⟨haG, hne⟩ := hsub 0 a ha
      have hne8 : a + 0 ≠ t + 8 := h.heap.pools.held_apart haG ht (Or.inr hne) (by decide) (by decide)
      exact ⟨ObjHeap.root_mem ((h.heap.view.root a).mpr (Or.inl haG)), hne, hne8, hword 0 a 0 ha (by decide)⟩
    · obtain ⟨hqG, -⟩ := hsub 1 q hq
      have hsize : binSize 1 = 192 := rfl
      have hk16 : k < 16 := hk
      have hslot : bufferSlot q k = q + (40 + 8 * k) := Nat.add_assoc ..
      have hapart : ∀ e < 16, bufferSlot q k ≠ t + e := by
        intro e he
        rw [hslot]
        exact h.heap.pools.held_apart hqG ht (Or.inl (by decide)) (by omega) he
      refine ⟨ObjHeap.root_mem ((h.heap.view.root _).mpr (Or.inr (Or.inl ⟨q, k, hqG, hk, rfl⟩))), hapart 0 (by decide),
        hapart 8 (by decide), ?_⟩
      rw [hslot]
      exact hword 1 q (40 + 8 * k) hq (by omega)
    · have hhi := K.below a ha
      have hlo := ht.area
      refine ⟨ObjHeap.root_mem ((h.heap.view.root a).mpr (Or.inr (Or.inr ha))), by omega, by omega, ?_⟩
      rw [← hword₃ a (by omega)]
      by_contra hw
      obtain ⟨k, -, hak⟩ := hback.word _ hw
      omega
    · obtain ⟨hxG, -⟩ := hsub b x hx
      rw [hemb, hemb₂] at hk
      have hapart : ∀ e < 16, x + (sizeofCxlObj + 8 * k) ≠ t + e := fun e he =>
        h.heap.pools.held_apart hxG ht (Or.inl (by omega)) hlt he
      refine ⟨?_, hapart 0 (by decide), hapart 8 (by decide), hword b x _ hx hlt⟩
      exact ObjHeap.mem_slots.mpr (Or.inr ⟨x, (h.heap.view.obj x).mpr ⟨hni, b, hb, hxG⟩, k, hk, (Nat.add_assoc ..).symm⟩)
  refine ⟨G', H', h.next h' (fun t' ht' => Or.inl ?_) (fun t' ht' => ?_) (fun q hq => Or.inl ?_), ?_,
    fun b x hx => (hsub b x hx).1, fun a ha hne => ?_⟩
  · obtain ⟨htG, hne⟩ := hsub 0 t' ht'
    have hne8 : ∀ d < 16, t' + d ≠ t + 8 := fun d hd => h.heap.pools.held_apart htG ht (Or.inr hne) hd (by decide)
    refine ⟨htG, Function.update_of_ne hne .., ?_, ?_⟩
    · have hfirst := hword 0 t' 0 ht' (binSize_pos 0)
      rw [Nat.add_zero] at hfirst
      rw [hfirst, hroots t' ((h₁.view.root t').mpr (Or.inl htG)) hne,
        hword₁ _ (show t' ≠ t + 8 from hne8 0 (by decide))]
    · rw [hword 0 t' 8 ht' (by decide), hframe.word _ (h₁.view.second_not_touched h₁.pools htG),
        hword₁ _ (hne8 8 (by decide))]
  · by_cases hne : t' = t
    · rw [hne, Function.update_self, hlast]
    · rw [Function.update_of_ne hne]
      apply h.unnamed
      intro htG
      apply ht'
      exact (hback.held 0 t').mpr ⟨(hdrop.held 0 t').mpr ⟨htG, fun hb => by omega⟩, hne⟩
  · obtain ⟨hqG, hne⟩ := hsub 1 q hq
    have hsize : binSize 1 = 192 := rfl
    refine ⟨hqG, fun d hd => ?_⟩
    have hne8 : q + d ≠ t + 8 := h.heap.pools.held_apart hqG ht (Or.inl (by decide)) (by omega) (by decide)
    rw [hword 1 q d hq (by omega), ← hword₁ _ hne8]
    by_cases htouch : H.Touches (q + d)
    · obtain ⟨k, hk, rfl⟩ : ∃ k < messageBufferSize, d = 40 + 8 * k := by
        have := h₁.view.touches h₁.pools hqG (by omega) htouch
        simpa using this
      have hroot : q + (40 + 8 * k) ∈ H.roots :=
        (h₁.view.root _).mpr (Or.inr (Or.inl ⟨q, k, hqG, hk, (Nat.add_assoc ..).symm⟩))
      refine hroots _ hroot ?_
      have hlt : 40 + 8 * k < 192 := hd
      exact h.heap.pools.held_apart hqG ht (Or.inl (by decide)) (by omega) (e := 0) (by decide)
    · exact hframe.word _ htouch
  · refine ⟨fun b x hb hx hx' => by rw [hemb, hemb₂], fun b x d hb hx hx' hlo hd _ => ?_, fun c hc hextra => ?_,
      fun b x hi hx => ?_⟩
    · have hne8 : x + d ≠ t + 8 := h.heap.pools.held_apart hx ht (Or.inl (by omega)) hd (by decide)
      rw [hword b x d hx' hd, hframe.word _ (h₁.view.payload_not_touched h₁.pools hb hx hlo hd), hword₁ _ hne8]
    · have hlo := ht.area
      have hfree : m'.word c = (m₂.setInUse t 0).word c := by
        by_contra hw
        obtain ⟨k, -, hak⟩ := hback.word _ hw
        omega
      rw [hfree, hword₃ _ (by omega), hframe.word _ (h₁.view.below_not_touched hc hextra), hword₁ _ (by omega)]
    · refine (hback.held b x).mpr ⟨(hdrop.held b x).mpr ⟨hx, fun _ hni => absurd hi hni⟩, ?_⟩
      exact h.heap.index_ne hi ht (by decide)
  · obtain ⟨haH, hat, hat8, hsame⟩ := hleft a ha
    rw [hsame] at hne ⊢
    rcases hrel.slot a haH with hslot' | ⟨hz, -⟩
    · exact ⟨haH, by rw [hslot', hword₁ a hat8], hat⟩
    · exact absurd hz hne

/-- **A handle is destroyed.** -/
theorem WorldOk.destroy (h : WorldOk K w G H) (hu : u ∈ K.clients) {r : CxlRef} (hr : w.handles r.tbr ≠ 0)
    (hrun : r.destroy fuel u w.mem = some m') :
    ∃ G' H', WorldOk K ⟨m', Function.update w.handles r.tbr (w.handles r.tbr - 1)⟩ G' H' ∧
      DataKept K none w.mem m' G G' H H' ∧ (∀ b x, HeldBy K G' b x → HeldBy K G b x) ∧
      ∀ a ∈ H'.slots, m'.word a ≠ 0 →
        a ∈ H.slots ∧ m'.word a = w.mem.word a ∧ (w.handles r.tbr = 1 → a ≠ r.tbr) := by
  have ht := h.held_of_named hr
  have hcount := (h.root r.tbr ht).count
  have hlt : w.mem.rootRefCnt r.tbr < 2 ^ 16 := Nat.mod_lt _ (by decide)
  have hdec : (w.mem.rootRefCnt r.tbr + (2 ^ 16 - 1)) % 2 ^ 16 % 2 ^ 16 = w.handles r.tbr - 1 := by omega
  unfold CxlRef.destroy at hrun
  rw [if_neg fun hc => ht.ne_zero hc.1] at hrun
  simp only [rootRefCnt_setRootRefCnt, hdec] at hrun
  by_cases hlast : w.handles r.tbr = 1
  · rw [if_neg (by omega), Option.bind_eq_some_iff] at hrun
    obtain ⟨m₂, htest, hfree⟩ := hrun
    obtain ⟨G', H', hok, hdata, hsub, hslots⟩ := h.destroyLast hu ht hlast htest hfree
    refine ⟨G', H', hok, hdata, hsub, fun a ha hne => ?_⟩
    obtain ⟨haH, hsame, hat⟩ := hslots a ha hne
    exact ⟨haH, hsame, fun _ => hat⟩
  · rw [if_pos (by omega)] at hrun
    obtain rfl := Option.some.inj hrun
    obtain ⟨hok, hdata⟩ := h.setCount ht hdec (by omega)
    refine ⟨G, H, hok, hdata, fun _ _ hx => hx, fun a ha _ => ⟨ha, ?_, fun h1 => absurd h1 hlast⟩⟩
    apply setRootRefCnt_word_of_ne
    rintro rfl
    exact h.heap.view.second_not_touched h.heap.pools ht (Or.inl ha)

end Handles

/-! ## §3 — new blocks -/

section New

variable {K : Users} {w : World} {m₁ m' : Shm} {G G' : Nat → BlockLists} {H H' : ObjHeap} {u b x t size fuel : Nat}

/-- The invariant after a RootRef or a queue `x` has been handed out. -/
theorem WorldOk.handed (h : WorldOk K w G H) (hheap : HeapOk K m' G' H') {hs : Nat → Nat}
    (hheld : ∀ c y, c < 2 → (HeldBy K G' c y ↔ HeldBy K G c y ∨ c = b ∧ y = x)) (hfresh : ∀ c, ¬ HeldBy K G c x)
    (hword : ∀ c y d, c < 2 → HeldBy K G c y → d < binSize c → m'.word (y + d) = w.mem.word (y + d))
    (hhs : ∀ t, t ≠ x → hs t = w.handles t) (hroot : b = 0 → RootOk ⟨m', hs⟩ x)
    (hqueue : b ≠ 0 → hs x = 0) (hring : b = 1 → RingOk m' x) : WorldOk K ⟨m', hs⟩ G' H' := by
  refine h.next hheap (fun t ht => ?_) (fun t ht => ?_) fun q hq => ?_
  · rcases (hheld 0 t (by decide)).mp ht with ht | ⟨rfl, rfl⟩
    · left
      have hne : t ≠ x := by
        rintro rfl
        exact hfresh 0 ht
      refine ⟨ht, hhs t hne, ?_, hword 0 t 8 (by decide) ht (by decide)⟩
      have hfirst := hword 0 t 0 (by decide) ht (binSize_pos 0)
      rwa [Nat.add_zero] at hfirst
    · exact Or.inr (hroot rfl)
  · have hno := mt (hheld 0 t (by decide)).mpr ht
    rw [not_or, not_and] at hno
    by_cases htx : t = x
    · rw [htx]
      exact hqueue fun hb => hno.2 hb.symm htx
    · rw [hhs t htx]
      exact h.unnamed t hno.1
  · rcases (hheld 1 q (by decide)).mp hq with hq | ⟨rfl, rfl⟩
    · exact Or.inl ⟨hq, fun d hd => hword 1 q d (by decide) hq hd⟩
    · exact Or.inr (hring rfl)

/-- A RootRef with one handle. -/
theorem RootOk.first {hs : Nat → Nat} (hinUse : m'.inUse t = 1) (hpptr : m'.word t ≠ 0) (hcount : m'.rootRefCnt t = 1) :
    RootOk ⟨m', Function.update hs t 1⟩ t := by
  refine ⟨hinUse, hpptr, ?_, ?_⟩
  · show m'.rootRefCnt t = Function.update hs t 1 t
    rw [hcount, Function.update_self]
  · show Function.update hs t 1 t ≠ 0
    rw [Function.update_self]
    exact Nat.one_ne_zero

/-- A RootRef that is the first handle of an object. -/
structure Acquired (K : Users) (m : Shm) (G : Nat → BlockLists) (H : ObjHeap) (t x : Nat) (m' : Shm)
    (G' : Nat → BlockLists) (H' : ObjHeap) : Prop where
  emb : H'.emb = H.emb
  objs : H'.objs = H.objs
  held : ∀ c y, HeldBy K G' c y ↔ HeldBy K G c y ∨ c = 0 ∧ y = t
  word : ∀ c y d, c < 2 → HeldBy K G c y → d < binSize c → m'.word (y + d) = m.word (y + d)
  pptr : m'.word t = x
  count : m'.refCnt x = m.refCnt x + 1

/-- **A RootRef is taken, and linked to an object**: `get_ref`, and the middle of `cxl_unwrap`. -/
theorem WorldOk.acquire (h : WorldOk K w G H) (hu : u ∈ K.clients)
    (halloc : threadBaseRefAlloc fuel u size w.mem = some (t, m₁)) (hx : x ∈ H.objs)
    (hroom : w.mem.refCnt x + 1 < 2 ^ 16)
    (hm' : (linkReference u t x m₁).setRootRefCnt t (((linkReference u t x m₁).rootRefCnt t + 1) % 2 ^ 16) = m') :
    ∃ G' H', WorldOk K ⟨m', Function.update w.handles t 1⟩ G' H' ∧ DataKept K none w.mem m' G G' H H' ∧
      Acquired K w.mem G H t x m' G' H' := by
  obtain ⟨L, H₁, h₁, hemb, hobjs, hg, -, hempty⟩ := h.heap.threadBaseRefAlloc hu halloc
  have ht : HeldBy K (Function.update G u L) 0 t := (hg.held 0 t).mpr (Or.inr ⟨rfl, rfl⟩)
  have hx₁ : x ∈ H₁.objs := by
    rw [hobjs]
    exact hx
  have hcnt : m₁.refCnt x = w.mem.refCnt x :=
    Shm.refCnt_of_header fun j hj => hg.touched h.heap.view (Or.inr ⟨x, hx, j, hj, rfl⟩) id
  have hslot : t ∈ H₁.slots := ObjHeap.root_mem ((h₁.view.root t).mpr (Or.inl ht))
  have h₂ : HeapOk K (linkReference u t x m₁) (Function.update G u L) H₁ :=
    h₁.link hu hslot hx₁ hempty.pptr (by rw [hcnt]; exact hroom)
  have hlinked : SlotLinked H₁ m₁ t x (linkReference u t x m₁) :=
    linkReference_linked (K.id_lt u hu) h₁.era hslot hx₁ (by rw [hcnt]; exact hroom)
  have hword₂ : ∀ a, a ≠ t → a ≠ x + 8 → (linkReference u t x m₁).word a = m₁.word a := fun a ha hax =>
    linkReference_word_of_ne ha hax
  have hsecond : (linkReference u t x m₁).word (t + 8) = m₁.word (t + 8) :=
    hword₂ _ (by omega) (h₁.header_apart hx₁ ht (by decide) (by decide) (j := 8) (by decide)).symm
  have hcount₂ : (linkReference u t x m₁).rootRefCnt t = 0 := by
    rw [Shm.rootRefCnt, hsecond]
    exact hempty.refCnt
  have hinUse₂ : (linkReference u t x m₁).inUse t = 1 := by
    rw [Shm.inUse, hsecond]
    exact hempty.inUse
  have hstored := hlinked.stored
  have hcount := hlinked.count
  rw [hcount₂] at hm'
  generalize linkReference u t x m₁ = m₂ at *
  have h₃ : HeapOk K (m₂.setRootRefCnt t ((0 + 1) % 2 ^ 16)) (Function.update G u L) H₁ :=
    h₂.store ht (by decide) (h₂.view.second_not_touched h₂.pools ht) _
  rw [hm'] at h₃
  have hword₃ : ∀ a, a ≠ t + 8 → m'.word a = m₂.word a := by
    rw [← hm']
    exact fun a ha => setRootRefCnt_word_of_ne _ _ _ ha
  have hpptr : m'.word t = x := (hword₃ t (by omega)).trans hstored
  have hword : ∀ c y d, c < 2 → HeldBy K G c y → d < binSize c → m'.word (y + d) = w.mem.word (y + d) := by
    intro c y d hc hy hd
    have hy₁ : HeldBy K (Function.update G u L) c y := (hg.held c y).mpr (Or.inl hy)
    rw [hword₃ _ (hg.apart hy hd (by decide)), hword₂ _ (hg.apart hy hd (binSize_pos 0)),
      hg.word c y d hy hd id]
    exact (h₁.header_apart hx₁ hy₁ hc hd (j := 8) (by decide)).symm
  refine ⟨_, H₁, ?_, ?_, hemb, hobjs, hg.held, hword, hpptr, ?_⟩
  · refine h.handed h₃ (fun c y _ => hg.held c y) hg.fresh hword (fun t' ht' => Function.update_of_ne ht' ..)
      (fun _ => RootOk.first ?_ ?_ ?_) (fun hb => absurd rfl hb) fun hb => by cases hb
    · rw [← hm', inUse_setRootRefCnt]
      exact hinUse₂
    · rw [hpptr]
      exact HeapExact.ne_zero hx
    · rw [← hm', rootRefCnt_setRootRefCnt]
      rfl
  · refine ⟨fun c y hc hy hy' => by rw [hemb], fun c y d hc hy hy' hlo hd _ => ?_, fun c hc _ => ?_,
      fun b y _ hy => (hg.held b y).mpr (Or.inl hy)⟩
    · have hno := h₁.view.payload_not_touched h₁.pools hc hy' (by rw [hemb]; exact hlo) hd
      rw [hword₃ _ (hg.apart hy hd (by decide)), hword₂ _ (hg.apart hy hd (binSize_pos 0)), hg.word c y d hy hd id]
      intro heq
      exact hno (Or.inr ⟨x, hx₁, 1, by decide, heq⟩)
    · have hlo := ht.area
      obtain ⟨b, -, hxb⟩ := h₁.held hx₁
      have hlox := hxb.area
      rw [hword₃ _ (by omega), hword₂ _ (by omega) (by omega), hg.below c hc]
  · rw [← hcnt, ← hcount]
    have hcxl : sizeofCxlObj = 24 := rfl
    refine Shm.refCnt_of_header fun j hj => hword₃ _ ?_
    exact h₁.header_apart hx₁ ht (by decide) (by decide) (by omega)

/-- **`get_ref`.** -/
theorem WorldOk.getRef (h : WorldOk K w G H) (hu : u ∈ K.clients) (hx : ObjectInHand K w.mem x)
    (hroom : w.mem.refCnt x + 1 < 2 ^ 16) {r : CxlRef} (hrun : getRef fuel u size x w.mem = some (r, m')) :
    ∃ G' H', WorldOk K ⟨m', Function.update w.handles r.tbr 1⟩ G' H' ∧ DataKept K none w.mem m' G G' H H' ∧
      Acquired K w.mem G H r.tbr x m' G' H' := by
  simp only [CxlShm.getRef, Option.bind_eq_bind, Option.bind_eq_some_iff] at hrun
  obtain ⟨⟨t, m₁⟩, halloc, hres⟩ := hrun
  simp only [Option.some.injEq, Prod.mk.injEq] at hres
  obtain ⟨rfl, hm'⟩ := hres
  exact h.acquire hu halloc (h.heap.objectInHand_iff.mp hx) hroom hm'

/-- **`cxl_malloc`**: the new object has the embedded references that were asked for, and one handle. -/
theorem WorldOk.cxlMalloc (h : WorldOk K w G H) (hu : u ∈ K.clients) {dataSize n : Nat}
    (hfits : dataSize + sizeofCxlObj < 2 ^ 64) (hslots : 8 * n ≤ dataSize) {r : CxlRef}
    (hrun : cxlMalloc fuel u size dataSize n w.mem = some (r, m')) :
    ∃ G' H', WorldOk K ⟨m'.zeroWords r.data n, Function.update w.handles r.tbr 1⟩ G' H' ∧
      DataKept K none w.mem (m'.zeroWords r.data n) G G' H H' ∧
      ∃ x, r.data = x + sizeofCxlObj ∧ HeldBy K G' (cxlPageQueue false ((dataSize + sizeofCxlObj) % 2 ^ 64)) x ∧
        H'.emb x = n ∧ (m'.zeroWords r.data n).word r.tbr = x ∧ (∀ b, ¬ HeldBy K G b x ∧ ¬ HeldBy K G b r.tbr) ∧
        ∀ a ∈ H'.slots, (m'.zeroWords r.data n).word a ≠ 0 →
          a = r.tbr ∨ a ∈ H.slots ∧ (m'.zeroWords r.data n).word a = w.mem.word a := by
  simp only [CxlShm.cxlMalloc, Option.bind_eq_bind, Option.bind_eq_some_iff] at hrun
  obtain ⟨⟨t, m₁⟩, halloc, hrun⟩ := hrun
  obtain ⟨L, H₁, h₁, hemb₁, -, hg₁, hheld, hempty⟩ := h.heap.threadBaseRefAlloc hu halloc
  have hbin := cxlPageQueue_object hfits
  have hlarge : 3 ≤ cxlPageQueue false ((dataSize + sizeofCxlObj) % 2 ^ 64) := by omega
  have hfit : sizeofCxlObj + 8 * n ≤ binSize (cxlPageQueue false ((dataSize + sizeofCxlObj) % 2 ^ 64)) := by
    have hcxl : sizeofCxlObj = 24 := rfl
    have hsize : binSize ((dataSize + 23) / 16 + 2) = 16 * ((dataSize + 23) / 16 + 2 - 1) := by
      unfold binSize
      rw [if_neg (by omega), if_neg (by omega)]
    rw [hbin, hsize]
    omega
  have ht : (Function.update G u L u).Held 0 t := by
    rw [Function.update_self]
    exact hheld
  obtain ⟨L₂, x, H₂, hr, h₂, hemb₂, hg₂, hpptr, hinUse, hcount⟩ := h₁.cxlRefAlloc hu ht hempty.pptr hlarge hfit hrun
  subst hr
  have hclear : ∀ k < n, (m'.zeroWords (x + sizeofCxlObj) n).word (x + (sizeofCxlObj + 8 * k)) = 0 := by
    intro k hk
    rw [← Nat.add_assoc]
    exact Shm.zeroWords_word_self hk
  generalize hm₂ : m'.zeroWords (x + sizeofCxlObj) n = m₂ at *
  have hold : ∀ c y, HeldBy K G c y → HeldBy K (Function.update G u L) c y := fun c y hy =>
    (hg₁.held c y).mpr (Or.inl hy)
  have hword : ∀ c y d, HeldBy K G c y → d < binSize c → m₂.word (y + d) = w.mem.word (y + d) := by
    intro c y d hy hd
    rw [hg₂.word c y d (hold c y hy) hd, hg₁.word c y d hy hd id]
    rintro ⟨e, he, heq⟩
    exact hg₁.apart hy hd he heq
  have hx : x ≠ 0 := ((hg₂.held _ x).mpr (Or.inr ⟨rfl, rfl⟩)).ne_zero
  have hheld₂ : ∀ c y, c < 2 → (HeldBy K (Function.update (Function.update G u L) u L₂) c y ↔
      HeldBy K G c y ∨ c = 0 ∧ y = t) := by
    intro c y hc
    rw [hg₂.held, hg₁.held, or_iff_left]
    rintro ⟨hcb, -⟩
    omega
  refine ⟨Function.update (Function.update G u L) u L₂, H₂, ?_, ⟨fun c y hc hy _ => ?_, fun c y d _ hy _ _ hd _ => ?_,
    fun c hc _ => (hg₂.below c hc).trans (hg₁.below c hc), fun c y _ hy => (hg₂.held c y).mpr (Or.inl (hold c y hy))⟩, x,
    rfl, (hg₂.held _ x).mpr (Or.inr ⟨rfl, rfl⟩), ?_, hpptr, fun b => ⟨fun hxG => hg₂.fresh b (hold b x hxG), hg₁.fresh b⟩,
    fun a ha hne => ?_⟩
  · refine h.handed h₂ hheld₂ hg₁.fresh (fun c y d _ => hword c y d) (fun t' ht' => Function.update_of_ne ht' ..)
      (fun _ => RootOk.first (hinUse.trans hempty.inUse) ?_ ?_) (fun hb => absurd rfl hb) fun hb => by cases hb
    · rw [hpptr]
      exact hx
    · rw [hcount, hempty.refCnt]
      rfl
  · have hne : y ≠ x := by
      rintro rfl
      exact hg₂.fresh c (hold c y hy)
    rw [hemb₂, Function.update_of_ne hne, hemb₁]
  · exact hword c y d hy hd
  · rw [hemb₂, Function.update_self]
  · rcases h₂.view.slot_cases ha with (ha | ⟨q, k, hq, hk, rfl⟩ | ha) | ⟨b, y, k, hb, hy, hni, hk, rfl, hlt⟩
    · rcases (hheld₂ 0 a (by decide)).mp ha with ha | ⟨-, ha⟩
      · exact Or.inr ⟨ObjHeap.root_mem ((h.heap.view.root a).mpr (Or.inl ha)), hword 0 a 0 ha (by decide)⟩
      · exact Or.inl ha
    · have hq := ((hheld₂ 1 q (by decide)).mp hq).resolve_right (by simp)
      have hsize : binSize 1 = 192 := rfl
      have hk16 : k < 16 := hk
      have hslot : bufferSlot q k = q + (40 + 8 * k) := Nat.add_assoc ..
      refine Or.inr ⟨ObjHeap.root_mem ((h.heap.view.root _).mpr (Or.inr (Or.inl ⟨q, k, hq, hk, rfl⟩))), ?_⟩
      rw [hslot]
      exact hword 1 q (40 + 8 * k) hq (by omega)
    · have hhi := K.below a ha
      refine Or.inr ⟨ObjHeap.root_mem ((h.heap.view.root a).mpr (Or.inr (Or.inr ha))), ?_⟩
      exact (hg₂.below a hhi).trans (hg₁.below a hhi)
    · have hyx : y ≠ x := by
        rintro rfl
        rw [hemb₂, Function.update_self] at hk
        exact hne (hclear k hk)
      have hyG : HeldBy K G b y := by
        rcases (hg₂.held b y).mp hy with hy | ⟨-, hy⟩
        · rcases (hg₁.held b y).mp hy with hy | ⟨hb0, -⟩
          · exact hy
          · omega
        · exact absurd hy hyx
      rw [hemb₂, Function.update_of_ne hyx, hemb₁] at hk
      refine Or.inr ⟨ObjHeap.mem_slots.mpr (Or.inr ⟨y, (h.heap.view.obj y).mpr ⟨hni, b, hb, hyG⟩, k, hk, ?_⟩),
        hword b y _ hyG hlt⟩
      exact (Nat.add_assoc ..).symm

/-- **`create_msg_queue`**: the new queue is empty. -/
theorem WorldOk.createMsgQueue (h : WorldOk K w G H) (hu : u ∈ K.clients) {q : Nat}
    (hrun : createMsgQueue fuel u size w.mem = some (q, m')) :
    ∃ G' H', WorldOk K ⟨m', w.handles⟩ G' H' ∧ DataKept K none w.mem m' G G' H H' ∧
      ∀ k y, HeldBy K G' k y ↔ HeldBy K G k y ∨ k = 1 ∧ y = q := by
  simp only [CxlShm.createMsgQueue, Option.bind_eq_bind, Option.bind_eq_some_iff] at hrun
  obtain ⟨⟨x, m₁⟩, halloc, hres⟩ := hrun
  simp only [Option.some.injEq, Prod.mk.injEq] at hres
  obtain ⟨rfl, hm'⟩ := hres
  obtain ⟨L, H₁, h₁, hemb, -, hg, hempty⟩ := h.heap.msgQueueAlloc hu halloc
  have hx : HeldBy K (Function.update G u L) 1 x := (hg.held 1 x).mpr (Or.inr ⟨rfl, rfl⟩)
  have h₂ : HeapOk K (m₁.store (x + 24) (m₁.tls u).senderQueue) (Function.update G u L) H₁ :=
    h₁.store hx (by decide) (h₁.view.field_not_touched h₁.pools hx (j := 3) (by decide)) _
  have hword : ∀ a, a ≠ x + 24 → m'.word a = m₁.word a := by
    rw [← hm']
    exact fun a ha => Function.update_of_ne ha ..
  have h₃ : HeapOk K m' (Function.update G u L) H₁ := by
    rw [← hm']
    refine h₂.quiet (h₂.pools.use (fun v p => ?_) rfl rfl fun _ _ => rfl) (fun _ _ => rfl) h₂.era rfl
    by_cases hv : v = u
    · subst hv
      cases p <;> simp [Shm.queue, Shm.setTls, Tls.queue]
    · simp [Shm.queue, Shm.setTls, hv]
  have hheld : ¬ HeldBy K G 0 x := hg.fresh 0
  refine ⟨Function.update G u L, H₁, ?_, ⟨fun c y _ _ _ => by rw [hemb], fun c y d _ hy _ _ hd _ => ?_, fun c hc _ => ?_,
    fun c y _ hy => (hg.held c y).mpr (Or.inl hy)⟩, hg.held⟩
  · refine h.handed h₃ (fun c y _ => hg.held c y) hg.fresh (fun c y d _ hy hd => ?_) (fun _ _ => rfl)
      (fun hb => by cases hb) (fun _ => h.unnamed x hheld) fun _ => ?_
    · rw [hword _ (hg.apart hy hd (by decide)), hg.word c y d hy hd id]
    · have hstart : m'.queueStart x = 0 := (hword x (by omega)).trans hempty.start
      have htail : m'.queueEnd x = 0 := (hword (x + 8) (by omega)).trans hempty.tail
      refine ⟨?_, ?_, fun k hk => ?_⟩
      · rw [hstart]
        decide
      · rw [htail]
        decide
      · have hne : bufferSlot x k ≠ x + 24 := by
          unfold bufferSlot
          omega
        rw [hword _ hne, hempty.entry k hk, Published, hstart, htail]
        simp
  · rw [hword _ (hg.apart hy hd (by decide)), hg.word c y d hy hd id]
  · have hlo := hx.area
    rw [hword _ (by omega), hg.below c hc]

end New

/-! ## §4 — references and data -/

section References

variable {K : Users} {w : World} {m m' : Shm} {G G' : Nat → BlockLists} {H H' : ObjHeap} {u a x o : Nat}

/-- The invariant after a call that hands out no RootRef and no queue, takes none back, and writes into none. -/
theorem WorldOk.specialKept (h : WorldOk K w G H) (hheap : HeapOk K m' G' H')
    (hheld : ∀ c y, c < 2 → (HeldBy K G' c y ↔ HeldBy K G c y))
    (hword : ∀ c y d, c < 2 → HeldBy K G c y → d < binSize c → m'.word (y + d) = w.mem.word (y + d)) :
    WorldOk K ⟨m', w.handles⟩ G' H' := by
  refine h.next hheap (fun t ht => Or.inl ?_) (fun t ht => h.unnamed t fun hG => ht ?_) fun q hq => Or.inl ?_
  · have ht := (hheld 0 t (by decide)).mp ht
    have hfirst := hword 0 t 0 (by decide) ht (binSize_pos 0)
    rw [Nat.add_zero] at hfirst
    exact ⟨ht, rfl, hfirst, hword 0 t 8 (by decide) ht (by decide)⟩
  · exact (hheld 0 t (by decide)).mpr hG
  · have hq := (hheld 1 q (by decide)).mp hq
    exact ⟨hq, fun d hd => hword 1 q d (by decide) hq hd⟩

/-- A link writes no payload. -/
theorem HeapOk.dataKept_link (h : HeapOk K m G H) (ha : a ∈ H.slots) (ho : o ∈ H.objs) :
    DataKept K none m (CxlShm.linkReference u a o m) G G H H := by
  have hword : ∀ c, ¬ H.Touches c → (CxlShm.linkReference u a o m).word c = m.word c := by
    intro c hc
    apply linkReference_word_of_ne
    · rintro rfl
      exact hc (Or.inl ha)
    · rintro rfl
      exact hc (Or.inr ⟨o, ho, 1, by decide, rfl⟩)
  exact ⟨fun _ _ _ _ _ => rfl, fun b y d hb hy _ hlo hd _ => hword _ (h.view.payload_not_touched h.pools hb hy hlo hd),
    fun c hc hextra => hword c (h.view.below_not_touched hc hextra), fun _ _ _ hy => hy⟩

/-- **`link_reference`** of an empty slot of the applications. -/
theorem WorldOk.linkReference (h : WorldOk K w G H) (hu : u ∈ K.clients) (ha : DataSlot K w.mem a)
    (hempty : w.mem.word a = 0) (hx : ObjectInHand K w.mem x) (hroom : w.mem.refCnt x + 1 < 2 ^ 16) :
    WorldOk K ⟨linkReference u a x w.mem, w.handles⟩ G H ∧
      DataKept K none w.mem (CxlShm.linkReference u a x w.mem) G G H H := by
  have hslot := h.heap.dataSlot_mem ha
  have hx := h.heap.objectInHand_iff.mp hx
  refine ⟨h.specialKept (h.heap.link hu hslot hx hempty hroom) (fun _ _ _ => Iff.rfl) fun c y d hc hy hd => ?_,
    h.heap.dataKept_link hslot hx⟩
  apply linkReference_word_of_ne
  · exact (h.heap.dataSlot_apart ha hy hc hd).symm
  · exact (h.heap.header_apart hx hy hc hd (j := 8) (by decide)).symm

/-- **`unlink_reference`** of a slot of the applications. -/
theorem WorldOk.unlinkReference (h : WorldOk K w G H) (hu : u ∈ K.clients) (ha : DataSlot K w.mem a)
    (hfull : w.mem.word a ≠ 0)
    (hlast : w.mem.refCnt (w.mem.word a) = 1 →
      ∀ k < w.mem.word (w.mem.word a + 16), w.mem.word (embeddedSlot (w.mem.word a) k) = 0)
    (hrun : unlinkReference u a (w.mem.word a) w.mem = some m') :
    ∃ G' H', WorldOk K ⟨m', w.handles⟩ G' H' ∧ DataKept K none w.mem m' G G' H H' := by
  have hslot := h.heap.dataSlot_mem ha
  have ho := h.heap.exact.obj hslot hfull
  rw [h.heap.emb_eq ho] at hlast
  obtain ⟨G', H', h', hemb, hun, hframe, hheld⟩ := h.heap.unlinkReference hu hslot hfull hlast hrun
  refine ⟨G', H', h.specialKept h' (fun c y hc => ?_) fun c y d hc hy hd => ?_,
    hframe.dataKept h.heap hemb fun b x hi hx => (hheld b x).mpr ⟨hx, fun _ hni => absurd hi hni⟩⟩
  · rw [hheld]
    exact and_iff_left fun hc' => by omega
  · exact hun.special_word hframe h.heap hy hc hd (h.heap.dataSlot_apart ha hy hc hd).symm

/-- **A word of an object's data is written.** -/
theorem WorldOk.write (h : WorldOk K w G H) (ha : PayloadWord K w.mem a) (v : Nat) :
    WorldOk K ⟨w.mem.store a v, w.handles⟩ G H ∧ DataKept K (some a) w.mem (w.mem.store a v) G G H H := by
  obtain ⟨b, x, d, hni, hb, hx, hlo, hd, -, rfl⟩ := ha
  have hx := h.heap.pools.inHand_iff.mp hx
  rw [h.heap.emb_eq ((h.heap.view.obj x).mpr ⟨hni, b, hb, hx⟩)] at hlo
  have hno := h.heap.view.payload_not_touched h.heap.pools hb hx (Or.inr hlo) hd
  refine ⟨h.specialKept (h.heap.store hx hd hno v) (fun _ _ _ => Iff.rfl) fun c y e hc hy he => ?_,
    fun _ _ _ _ _ => rfl, fun c y e _ _ _ _ _ hne => ?_, fun c hc _ => ?_, fun _ _ _ hy => hy⟩
  · exact Function.update_of_ne (h.heap.pools.held_apart hy hx (Or.inl (by omega)) he hd) ..
  · refine Function.update_of_ne (fun heq => hne ?_) ..
    rw [heq]
  · have := hx.area
    exact Function.update_of_ne (by omega) ..

end References

end CxlShm
