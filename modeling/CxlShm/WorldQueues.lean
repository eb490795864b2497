import CxlShm.WorldSteps

/-! # WorldQueues — sending and receiving keep the invariant

A reference is stored at the end of a queue, and taken from its start. In between the entry counts as one more
reference to the object.
-/

namespace CxlShm

open SlotCount Loop Transition

/-! ## §1 — the ring -/

section Ring

variable {m m' : Shm} {q : Nat}

/-- `sent_to` finds a queue with room for one more entry. -/
def RingRoom (m : Shm) (q : Nat) : Prop :=
  ¬ ((m.queueEnd q + 1) % 2 ^ 64 = m.queueStart q ∨
    (m.queueEnd q + (2 ^ 64 - m.queueStart q)) % 2 ^ 64 = messageBufferSize - 1)

theorem RingOk.room (h : RingOk m q) (hroom : RingRoom m q) :
    (m.queueEnd q + 1) % messageBufferSize ≠ m.queueStart q := by
  have hstart := h.start
  have htail := h.tail
  simp only [RingRoom, messageBufferSize] at hroom hstart htail ⊢
  omega

/-- The entry behind the last one is empty. -/
theorem RingOk.end_empty (h : RingOk m q) : m.word (bufferSlot q (m.queueEnd q)) = 0 := by
  by_contra hne
  have hpub := (h.entry _ h.tail).mp hne
  simp [Published] at hpub

/-- The first entry of a queue that is not empty. -/
theorem RingOk.start_full (h : RingOk m q) (hne : m.queueStart q ≠ m.queueEnd q) :
    m.word (bufferSlot q (m.queueStart q)) ≠ 0 := by
  apply (h.entry _ h.start).mpr
  have hstart := h.start
  have htail := h.tail
  simp only [Published, messageBufferSize] at hstart htail ⊢
  omega

/-- On a ring in order the test of `cxl_unwrap` is a comparison of the ends. -/
theorem RingOk.ringEmpty_iff (h : RingOk m q) : RingEmpty m q ↔ m.queueStart q = m.queueEnd q := by
  refine or_iff_left_of_imp fun hz => ?_
  by_contra hne
  exact h.start_full hne hz

/-- An entry is added. -/
theorem RingOk.push (h : RingOk m q) (hroom : RingRoom m q) (hstart : m'.queueStart q = m.queueStart q)
    (htail : m'.queueEnd q = (m.queueEnd q + 1) % messageBufferSize)
    (hslot : m'.word (bufferSlot q (m.queueEnd q)) ≠ 0)
    (hother : ∀ k < messageBufferSize, k ≠ m.queueEnd q → m'.word (bufferSlot q k) = m.word (bufferSlot q k)) :
    RingOk m' q := by
  have hroom := h.room hroom
  have hs := h.start
  have ht := h.tail
  refine ⟨?_, ?_, fun k hk => ?_⟩
  · rw [hstart]
    exact hs
  · rw [htail]
    exact Nat.mod_lt _ (by decide)
  · by_cases hke : k = m.queueEnd q
    · -- the new entry lies between the ends, as the ring was not full
      refine iff_of_true (hke ▸ hslot) ?_
      simp only [Published, hstart, htail, messageBufferSize] at hroom hs ht hk ⊢
      omega
    · rw [hother k hk hke, h.entry k hk]
      simp only [Published, hstart, htail, messageBufferSize] at hroom hs ht hk ⊢
      omega

/-- An entry is taken out. -/
theorem RingOk.pop (h : RingOk m q) (hne : m.queueStart q ≠ m.queueEnd q)
    (hstart : m'.queueStart q = (m.queueStart q + 1) % messageBufferSize) (htail : m'.queueEnd q = m.queueEnd q)
    (hslot : m'.word (bufferSlot q (m.queueStart q)) = 0)
    (hother : ∀ k < messageBufferSize, k ≠ m.queueStart q → m'.word (bufferSlot q k) = m.word (bufferSlot q k)) :
    RingOk m' q := by
  have hs := h.start
  have ht := h.tail
  refine ⟨?_, ?_, fun k hk => ?_⟩
  · rw [hstart]
    exact Nat.mod_lt _ (by decide)
  · rw [htail]
    exact ht
  · by_cases hks : k = m.queueStart q
    · refine iff_of_false (not_not.mpr (hks ▸ hslot)) ?_
      simp only [Published, hstart, htail, messageBufferSize] at hs ht hk ⊢
      omega
    · rw [hother k hk hks, h.entry k hk]
      simp only [Published, hstart, htail, messageBufferSize] at hs ht hk ⊢
      omega

end Ring

/-! ## §2 — sending -/

section Send

variable {K : Users} {w : World} {m m' : Shm} {G G' : Nat → BlockLists} {H H' : ObjHeap} {u q t k : Nat}

/-- An entry of a queue in use is a slot of the heap. -/
theorem HeapOk.bufferSlot_mem (h : HeapOk K m G H) (hq : HeldBy K G 1 q) (hk : k < messageBufferSize) :
    bufferSlot q k ∈ H.slots :=
  ObjHeap.root_mem ((h.view.root _).mpr (Or.inr (Or.inl ⟨q, k, hq, hk, rfl⟩)))

theorem bufferSlot_eq (q k : Nat) : bufferSlot q k = q + (40 + 8 * k) := Nat.add_assoc ..

/-- An entry of a queue lies in no other special block. -/
theorem HeapOk.bufferSlot_apart (h : HeapOk K m G H) (hq : HeldBy K G 1 q) (hk : k < messageBufferSize) {b x d : Nat}
    (hx : HeldBy K G b x) (hne : b ≠ 1 ∨ x ≠ q) (hd : d < binSize b) : x + d ≠ bufferSlot q k := by
  have hsize : binSize 1 = 192 := rfl
  simp only [messageBufferSize] at hk
  rw [bufferSlot_eq]
  exact h.pools.held_apart hx hq hne hd (by omega)

/-- **`sent_to`**: the queue gets one more entry, or the call fails and changes nothing. -/
theorem WorldOk.sentTo (h : WorldOk K w G H) (hu : u ∈ K.clients) (hq : InHand K w.mem 1 q) (ht : w.handles t ≠ 0)
    (hroom : w.mem.refCnt (w.mem.word t) + 1 < 2 ^ 16) :
    WorldOk K ⟨(sentTo u q t w.mem).2, w.handles⟩ G H ∧ DataKept K none w.mem (sentTo u q t w.mem).2 G G H H := by
  unfold CxlShm.sentTo
  simp only
  split
  case isTrue => exact ⟨h, DataKept.refl⟩
  case isFalse hfull =>
    have hq := h.heap.pools.inHand_iff.mp hq
    have ho := h.pptr_obj (h.held_of_named ht)
    have hring := h.ring q hq
    have hend := hring.tail
    have hslot := h.heap.bufferSlot_mem hq hend
    have h₁ : HeapOk K (CxlShm.linkReference u (bufferSlot q (w.mem.queueEnd q)) (w.mem.word t) w.mem) G H :=
      h.heap.link hu hslot ho hring.end_empty hroom
    have hdata := h.heap.dataKept_link (u := u) hslot ho
    have hlinked : SlotLinked H w.mem (bufferSlot q (w.mem.queueEnd q)) (w.mem.word t)
        (CxlShm.linkReference u (bufferSlot q (w.mem.queueEnd q)) (w.mem.word t) w.mem) :=
      linkReference_linked (K.id_lt u hu) h.heap.era hslot ho hroom
    have hword₁ : ∀ a, a ≠ bufferSlot q (w.mem.queueEnd q) → a ≠ w.mem.word t + 8 →
        (CxlShm.linkReference u (bufferSlot q (w.mem.queueEnd q)) (w.mem.word t) w.mem).word a = w.mem.word a :=
      fun a ha hao => linkReference_word_of_ne ha hao
    generalize CxlShm.linkReference u (bufferSlot q (w.mem.queueEnd q)) (w.mem.word t) w.mem = m₁ at *
    have hheader : ∀ b x d, HeldBy K G b x → b < 2 → d < binSize b → x + d ≠ w.mem.word t + 8 := fun b x d hx hb hd =>
      (h.heap.header_apart ho hx hb hd (j := 8) (by decide)).symm
    have hfield : ∀ d < 40, m₁.word (q + d) = w.mem.word (q + d) := by
      intro d hd
      have hsize : binSize 1 = 192 := rfl
      apply hword₁
      · rw [bufferSlot_eq]
        omega
      · exact hheader 1 q d hq (by decide) (by omega)
    have hstart : m₁.queueStart q = w.mem.queueStart q := hfield 0 (by decide)
    have htail : m₁.queueEnd q = w.mem.queueEnd q := hfield 8 (by decide)
    have h₂ : HeapOk K (m₁.store (q + 8) ((m₁.queueEnd q + 1) % messageBufferSize)) G H :=
      h₁.store hq (by decide) (h₁.view.field_not_touched h₁.pools hq (j := 1) (by decide)) _
    have hstore := h₁.dataKept_store hq (by decide) (d := 8) (by decide) ((m₁.queueEnd q + 1) % messageBufferSize)
    have hword₂ : ∀ a, a ≠ q + 8 → (m₁.store (q + 8) ((m₁.queueEnd q + 1) % messageBufferSize)).word a = m₁.word a :=
      fun a ha => Function.update_of_ne ha ..
    refine ⟨h.next h₂ (fun t' ht' => Or.inl ?_) h.unnamed fun q' hq' => ?_, hdata.trans hstore fun _ _ _ hy _ => hy⟩
    · have hkept : ∀ d < 16, (m₁.store (q + 8) ((m₁.queueEnd q + 1) % messageBufferSize)).word (t' + d) =
          w.mem.word (t' + d) := by
        intro d hd
        rw [hword₂ _ (h.heap.pools.held_apart ht' hq (Or.inl (by decide)) hd (by decide)), hword₁ _
          (h.heap.bufferSlot_apart hq hend ht' (Or.inl (by decide)) hd) (hheader 0 t' d ht' (by decide) hd)]
      exact ⟨ht', rfl, hkept 0 (by decide), hkept 8 (by decide)⟩
    · by_cases hqq : q' = q
      · right
        subst hqq
        refine hring.push hfull ?_ ?_ ?_ fun k hk hke => ?_
        · exact (hword₂ q' (by omega)).trans hstart
        · rw [Shm.queueEnd, Shm.store_word, Function.update_self, htail]
        · rw [hword₂ _ (by rw [bufferSlot_eq]; omega), hlinked.stored]
          exact HeapExact.ne_zero ho
        · have hlt : 40 + 8 * k < binSize 1 := by
            have hsize : binSize 1 = 192 := rfl
            simp only [messageBufferSize] at hk
            omega
          rw [hword₂ _ (by rw [bufferSlot_eq]; omega)]
          apply hword₁
          · rw [bufferSlot_eq, bufferSlot_eq]
            omega
          · rw [bufferSlot_eq]
            exact hheader 1 q' _ hq (by decide) hlt
      · left
        refine ⟨hq', fun d hd => ?_⟩
        rw [hword₂ _ (h.heap.pools.held_apart hq' hq (Or.inr hqq) hd (by decide)), hword₁ _
          (h.heap.bufferSlot_apart hq hend hq' (Or.inr hqq) hd) (hheader 1 q' d hq' (by decide) hd)]

end Send

/-! ## §3 — receiving -/

section Receive

variable {K : Users} {w : World} {m m₁ m' : Shm} {G G' : Nat → BlockLists} {H H' : ObjHeap} {u q t size fuel : Nat}

theorem attachReceiver_eraCell : (attachReceiver u q m).eraCell = m.eraCell := by
  unfold attachReceiver
  split <;> rfl

/-- Entering the receiver changes neither the heap nor a ring. -/
theorem WorldOk.attachReceiver (h : WorldOk K w G H) (hq : HeldBy K G 1 q) (u : Nat) :
    WorldOk K ⟨attachReceiver u q w.mem, w.handles⟩ G H ∧
      DataKept K none w.mem (CxlShm.attachReceiver u q w.mem) G G H H := by
  have hword : ∀ a, a ≠ q + 16 → a ≠ q + 32 → (CxlShm.attachReceiver u q w.mem).word a = w.mem.word a := by
    intro a h₁₆ h₃₂
    apply attachReceiver_word
    simp [h₁₆, h₃₂]
  have hapart : ∀ b x d, HeldBy K G b x → b ≠ 1 ∨ x ≠ q → d < binSize b →
      (CxlShm.attachReceiver u q w.mem).word (x + d) = w.mem.word (x + d) := fun b x d hx hne hd =>
    hword _ (h.heap.pools.held_apart hx hq hne hd (by decide)) (h.heap.pools.held_apart hx hq hne hd (by decide))
  have hheap : HeapOk K (CxlShm.attachReceiver u q w.mem) G H := by
    refine h.heap.quiet ?_ (fun a ha => hword a ?_ ?_) ?_ attachReceiver_sas
    · refine h.heap.pools.use (fun v p => ?_) attachReceiver_sas attachReceiver_segment fun y hy => ?_
      · unfold CxlShm.attachReceiver
        split
        · by_cases hv : v = u
          · subst hv
            cases p <;> simp [Shm.queue, Shm.setReceiverId, Shm.setTls, Tls.queue]
          · simp [Shm.queue, Shm.setReceiverId, Shm.setTls, hv]
        · rfl
      · exact hword _ (h.heap.pools.held_add_ne hq hy (by decide)) (h.heap.pools.held_add_ne hq hy (by decide))
    · rintro rfl
      exact h.heap.view.field_not_touched h.heap.pools hq (j := 2) (by decide) ha
    · rintro rfl
      exact h.heap.view.field_not_touched h.heap.pools hq (j := 4) (by decide) ha
    · intro i
      rw [attachReceiver_eraCell]
      exact h.heap.era i
  refine ⟨h.next hheap (fun t' ht' => Or.inl ?_) h.unnamed fun q' hq' => ?_, fun _ _ _ _ _ => rfl,
    fun b x d hb hx _ _ hd _ => hapart b x d hx (Or.inl (by omega)) hd, fun c hc _ => ?_, fun _ _ _ hx => hx⟩
  · exact ⟨ht', rfl, hapart 0 t' 0 ht' (Or.inl (by decide)) (by decide),
      hapart 0 t' 8 ht' (Or.inl (by decide)) (by decide)⟩
  · by_cases hqq : q' = q
    · right
      subst hqq
      refine (h.ring q' hq').of_entries (hword _ (by omega) (by omega)) (hword _ (by omega) (by omega)) fun k _ => ?_
      rw [bufferSlot_eq]
      exact hword _ (by omega) (by omega)
    · exact Or.inl ⟨hq', fun d hd => hapart 1 q' d hq' (Or.inr hqq) hd⟩
  · have := hq.area
    exact hword c (by omega) (by omega)

/-- The second half of `cxl_unwrap`: the entry is cleared, and the start moves on. -/
theorem WorldOk.dequeue (h : WorldOk K w G H) (hu : u ∈ K.clients) (hq : HeldBy K G 1 q)
    (hne : w.mem.queueStart q ≠ w.mem.queueEnd q)
    (hmore : w.mem.refCnt (w.mem.word (bufferSlot q (w.mem.queueStart q))) ≠ 1)
    (hrun : CxlShm.unlinkReference u (bufferSlot q (w.mem.queueStart q))
      (w.mem.word (bufferSlot q (w.mem.queueStart q))) w.mem = some m₁) :
    ∃ G' H', WorldOk K ⟨m₁.store q ((m₁.queueStart q + 1) % messageBufferSize), w.handles⟩ G' H' ∧
      DataKept K none w.mem (m₁.store q ((m₁.queueStart q + 1) % messageBufferSize)) G G' H H' := by
  have hring := h.ring q hq
  have hstart := hring.start
  have hslot := h.heap.bufferSlot_mem hq hstart
  obtain ⟨G', H', h₁, hemb, hun, hframe, hheld⟩ :=
    h.heap.unlinkReference hu hslot (hring.start_full hne) (fun hone => absurd hone hmore) hrun
  have hspecial : ∀ c y, c < 2 → (HeldBy K G' c y ↔ HeldBy K G c y) := by
    intro c y hc
    rw [hheld]
    exact and_iff_left fun hc' => by omega
  have hq₁ : HeldBy K G' 1 q := (hspecial 1 q (by decide)).mpr hq
  have hword₁ : ∀ b x d, b < 2 → HeldBy K G b x → d < binSize b → x + d ≠ bufferSlot q (w.mem.queueStart q) →
      m₁.word (x + d) = w.mem.word (x + d) := fun b x d hb hx hd hne => hun.special_word hframe h.heap hx hb hd hne
  have hfield : ∀ d < 40, m₁.word (q + d) = w.mem.word (q + d) := by
    intro d hd
    have hsize : binSize 1 = 192 := rfl
    refine hword₁ 1 q d (by decide) hq (by omega) ?_
    rw [bufferSlot_eq]
    omega
  have hs : m₁.queueStart q = w.mem.queueStart q := hfield 0 (by decide)
  have hno : ¬ H'.Touches (q + 0) := h₁.view.field_not_touched h₁.pools hq₁ (j := 0) (by decide)
  have h₂ : HeapOk K (m₁.store q ((m₁.queueStart q + 1) % messageBufferSize)) G' H' :=
    h₁.store hq₁ (d := 0) (by decide) hno _
  have hword₂ : ∀ a, a ≠ q → (m₁.store q ((m₁.queueStart q + 1) % messageBufferSize)).word a = m₁.word a :=
    fun a ha => Function.update_of_ne ha ..
  have hkept : ∀ b x d, b < 2 → HeldBy K G b x → b ≠ 1 ∨ x ≠ q → d < binSize b →
      (m₁.store q ((m₁.queueStart q + 1) % messageBufferSize)).word (x + d) = w.mem.word (x + d) := by
    intro b x d hb hx hne hd
    have hapart : x + d ≠ q + 0 := h.heap.pools.held_apart hx hq hne hd (by decide)
    rw [hword₂ _ hapart, hword₁ b x d hb hx hd (h.heap.bufferSlot_apart hq hstart hx hne hd)]
  refine ⟨G', H', h.next h₂ (fun t' ht' => Or.inl ?_) (fun t' ht' => h.unnamed t' fun hG => ht' ?_) fun q' hq' => ?_,
    ?_⟩
  · have ht' := (hspecial 0 t' (by decide)).mp ht'
    exact ⟨ht', rfl, hkept 0 t' 0 (by decide) ht' (Or.inl (by decide)) (by decide),
      hkept 0 t' 8 (by decide) ht' (Or.inl (by decide)) (by decide)⟩
  · exact (hspecial 0 t' (by decide)).mpr hG
  · have hq' := (hspecial 1 q' (by decide)).mp hq'
    by_cases hqq : q' = q
    · right
      subst hqq
      refine hring.pop hne ?_ ?_ ?_ fun k hk hks => ?_
      · rw [Shm.queueStart, Shm.store_word, Function.update_self, hs]
      · exact (hword₂ (q' + 8) (by omega)).trans (hfield 8 (by decide))
      · rw [hword₂ _ (by rw [bufferSlot_eq]; omega)]
        exact hun.cleared
      · have hlt : 40 + 8 * k < binSize 1 := by
          have hsize : binSize 1 = 192 := rfl
          simp only [messageBufferSize] at hk
          omega
        rw [hword₂ _ (by rw [bufferSlot_eq]; omega), bufferSlot_eq]
        refine hword₁ 1 q' _ (by decide) hq hlt ?_
        rw [bufferSlot_eq]
        omega
    · exact Or.inl ⟨hq', fun d hd => hkept 1 q' d (by decide) hq' (Or.inr hqq) hd⟩
  · refine ⟨fun b x _ _ _ => by rw [hemb], fun b x d hb hx hx' hlo hd _ => ?_, fun c hc hextra => ?_,
      fun b x hi hx => (hheld b x).mpr ⟨hx, fun _ hni => absurd hi hni⟩⟩
    · have hapart : x + d ≠ q + 0 := h.heap.pools.held_apart hx hq (Or.inl (by omega)) hd (by decide)
      rw [hword₂ _ hapart]
      exact hframe.word _ (h.heap.view.payload_not_touched h.heap.pools hb hx hlo hd)
    · have := hq.area
      rw [hword₂ _ (by omega)]
      exact hframe.word _ (h.heap.view.below_not_touched hc hextra)

/-- The rest of `cxl_unwrap`, on a queue with an entry. -/
theorem WorldOk.takeEntry (h : WorldOk K w G H) (hu : u ∈ K.clients) (hq : HeldBy K G 1 q)
    (hne : w.mem.queueStart q ≠ w.mem.queueEnd q)
    (hroom : w.mem.refCnt (w.mem.word (bufferSlot q (w.mem.queueStart q))) + 1 < 2 ^ 16) {m₂ m₄ m₅ : Shm} {t : Nat}
    (halloc : threadBaseRefAlloc fuel u size w.mem = some (t, m₂))
    (hm₄ : (CxlShm.linkReference u t (m₂.word (bufferSlot q (m₂.queueStart q))) m₂).setRootRefCnt t
      (((CxlShm.linkReference u t (m₂.word (bufferSlot q (m₂.queueStart q))) m₂).rootRefCnt t + 1) % 2 ^ 16) = m₄)
    (hrun : CxlShm.unlinkReference u (bufferSlot q (m₄.queueStart q)) (m₄.word (bufferSlot q (m₄.queueStart q))) m₄ =
      some m₅) :
    ∃ G' H', WorldOk K ⟨m₅.store q ((m₅.queueStart q + 1) % messageBufferSize), Function.update w.handles t 1⟩ G' H' ∧
      DataKept K none w.mem (m₅.store q ((m₅.queueStart q + 1) % messageBufferSize)) G G' H H' := by
  have hring := h.ring q hq
  have hslot := h.heap.bufferSlot_mem hq hring.start
  have hx := h.heap.exact.obj hslot (hring.start_full hne)
  have hpos := h.heap.exact.refCnt_pos hslot hx
  have hlt : 40 + 8 * w.mem.queueStart q < binSize 1 := by
    have hsize : binSize 1 = 192 := rfl
    have hstart := hring.start
    simp only [messageBufferSize] at hstart
    omega
  -- the RootRef lies apart from the queue
  obtain ⟨L, H₂, -, -, -, hg, -, -⟩ := h.heap.threadBaseRefAlloc hu halloc
  have hs₂ : m₂.queueStart q = w.mem.queueStart q := hg.word 1 q 0 hq (binSize_pos 1) id
  have hentry₂ : m₂.word (bufferSlot q (w.mem.queueStart q)) = w.mem.word (bufferSlot q (w.mem.queueStart q)) := by
    rw [bufferSlot_eq]
    exact hg.word 1 q _ hq hlt id
  rw [hs₂, hentry₂] at hm₄
  obtain ⟨G₄, H₄, h₄, hdata₄, hacq⟩ := h.acquire hu halloc hx hroom hm₄
  have hs₄ : m₄.queueStart q = w.mem.queueStart q := hacq.word 1 q 0 (by decide) hq (binSize_pos 1)
  have ht₄ : m₄.queueEnd q = w.mem.queueEnd q := hacq.word 1 q 8 (by decide) hq (by decide)
  have hentry₄ : m₄.word (bufferSlot q (m₄.queueStart q)) = w.mem.word (bufferSlot q (w.mem.queueStart q)) := by
    rw [hs₄, bufferSlot_eq]
    exact hacq.word 1 q _ (by decide) hq hlt
  have hne₄ : m₄.queueStart q ≠ m₄.queueEnd q := by rwa [hs₄, ht₄]
  have hmore : m₄.refCnt (m₄.word (bufferSlot q (m₄.queueStart q))) ≠ 1 := by
    rw [hentry₄, hacq.count]
    omega
  have hold : ∀ b x, HeldBy K G b x → HeldBy K G₄ b x := fun b x hx => (hacq.held b x).mpr (Or.inl hx)
  obtain ⟨G', H', h', hdata'⟩ := h₄.dequeue hu (hold 1 q hq) hne₄ hmore hrun
  exact ⟨G', H', h', hdata₄.trans hdata' fun b x _ hx _ => hold b x hx⟩

/-- **`cxl_unwrap`**: the first entry becomes a handle, or the queue is empty. -/
theorem WorldOk.cxlUnwrap (h : WorldOk K w G H) (hu : u ∈ K.clients) (hq : InHand K w.mem 1 q)
    (hroom : ¬ RingEmpty w.mem q → w.mem.refCnt (w.mem.word (bufferSlot q (w.mem.queueStart q))) + 1 < 2 ^ 16)
    {r : CxlRef} (hrun : cxlUnwrap fuel u size q w.mem = some (r, m')) :
    ∃ G' H', WorldOk K ⟨m', if r.tbr = 0 then w.handles else Function.update w.handles r.tbr 1⟩ G' H' ∧
      DataKept K none w.mem m' G G' H H' := by
  have hq := h.heap.pools.inHand_iff.mp hq
  obtain ⟨h₁, hdata₁⟩ := h.attachReceiver hq u
  have hempty_iff : RingEmpty (CxlShm.attachReceiver u q w.mem) q ↔ RingEmpty w.mem q := ringEmpty_attach
  have hword : ∀ a, a ≠ q + 16 → a ≠ q + 32 → (CxlShm.attachReceiver u q w.mem).word a = w.mem.word a := by
    intro a h₁₆ h₃₂
    apply attachReceiver_word
    simp [h₁₆, h₃₂]
  unfold CxlShm.cxlUnwrap at hrun
  simp only at hrun
  split at hrun
  case isTrue =>
    simp only [Option.some.injEq, Prod.mk.injEq] at hrun
    obtain ⟨rfl, rfl⟩ := hrun
    exact ⟨G, H, h₁, hdata₁⟩
  case isFalse hne =>
    have hroom := hroom (mt hempty_iff.mpr hne)
    have hring := h.ring q hq
    have hs : (CxlShm.attachReceiver u q w.mem).queueStart q = w.mem.queueStart q := hword q (by omega) (by omega)
    have hentry : (CxlShm.attachReceiver u q w.mem).word (bufferSlot q (w.mem.queueStart q)) =
        w.mem.word (bufferSlot q (w.mem.queueStart q)) := by
      rw [bufferSlot_eq]
      exact hword _ (by omega) (by omega)
    -- the header of the entry's object is no word of the queue
    have hx := h.heap.exact.obj (h.heap.bufferSlot_mem hq hring.start)
      (hring.start_full (mt hring.ringEmpty_iff.mpr (mt hempty_iff.mpr hne)))
    have hcnt : (CxlShm.attachReceiver u q w.mem).refCnt (w.mem.word (bufferSlot q (w.mem.queueStart q))) =
        w.mem.refCnt (w.mem.word (bufferSlot q (w.mem.queueStart q))) := by
      have hcxl : sizeofCxlObj = 24 := rfl
      refine Shm.refCnt_of_header fun j hj => hword _ ?_ ?_
      · exact h.heap.header_apart hx hq (by decide) (by decide) (by omega)
      · exact h.heap.header_apart hx hq (by decide) (by decide) (by omega)
    have hne₁ := mt (h₁.ring q hq).ringEmpty_iff.mpr hne
    simp only [Option.bind_eq_bind, Option.bind_eq_some_iff] at hrun
    obtain ⟨⟨t, m₂⟩, halloc, m₅, hunlink, hres⟩ := hrun
    simp only [Option.some.injEq, Prod.mk.injEq] at hres
    obtain ⟨rfl, rfl⟩ := hres
    obtain ⟨G', H', h', hdata'⟩ := h₁.takeEntry hu hq hne₁ (by rwa [hs, hentry, hcnt]) halloc rfl hunlink
    refine ⟨G', H', ?_, hdata₁.trans hdata' fun b x _ hx _ => hx⟩
    show WorldOk K ⟨_, if t = 0 then w.handles else Function.update w.handles t 1⟩ G' H'
    rw [if_neg (threadBaseRefAlloc_ne_zero halloc)]
    exact h'

/-- **An empty queue is freed.** -/
theorem WorldOk.freeQueue (h : WorldOk K w G H) (hu : u ∈ K.clients) (hq : InHand K w.mem 1 q)
    (hempty : w.mem.queueStart q = w.mem.queueEnd q) (hrun : cxlFree u true q w.mem = some m') :
    ∃ G' H', WorldOk K ⟨m', w.handles⟩ G' H' ∧ DataKept K none w.mem m' G G' H H' := by
  have hq := h.heap.pools.inHand_iff.mp hq
  have hsize : binSize 1 = 192 := rfl
  have hslots : ∀ d < binSize 1, q + d ∈ H.slots → w.mem.word (q + d) = 0 := by
    intro d hd hs
    obtain ⟨k, hk, rfl⟩ : ∃ k < messageBufferSize, d = 40 + 8 * k := by
      have htouch := h.heap.view.touches h.heap.pools hq hd (Or.inl hs)
      simpa using htouch
    rw [← bufferSlot_eq]
    by_contra hne
    have hpub := ((h.ring q hq).entry k hk).mp hne
    simp [Published, hempty] at hpub
  obtain ⟨m₁, G', H', hrun', h', hback, hemb, -⟩ := h.heap.free hu hq (by decide) hslots
  obtain rfl : m' = m₁ := Option.some.inj (hrun.symm.trans hrun')
  have hword : ∀ b x d, HeldBy K G b x → x ≠ q → d < binSize b → m'.word (x + d) = w.mem.word (x + d) := by
    intro b x d hx hne hd
    by_contra hw
    obtain ⟨k, hk, heq⟩ := hback.word _ hw
    have hk24 : k < 24 := hk
    exact h.heap.pools.held_apart hx hq (Or.inr hne) hd (by omega) heq
  refine ⟨G', H', h.next h' (fun t ht => Or.inl ?_) (fun t ht => h.unnamed t fun hG => ht ?_) fun q' hq' => Or.inl ?_,
    fun b x _ _ _ => by rw [hemb], fun b x d hb hx hx' _ hd _ => ?_, fun c hc _ => ?_, fun b x hi hx => ?_⟩
  · obtain ⟨ht, hne⟩ := (hback.held 0 t).mp ht
    exact ⟨ht, rfl, hword 0 t 0 ht hne (by decide), hword 0 t 8 ht hne (by decide)⟩
  · refine (hback.held 0 t).mpr ⟨hG, ?_⟩
    rintro rfl
    have hbin := h.heap.pools.held_unique hG hq
    omega
  · obtain ⟨hq', hne⟩ := (hback.held 1 q').mp hq'
    exact ⟨hq', fun d hd => hword 1 q' d hq' hne (by omega)⟩
  · exact hword b x d hx ((hback.held b x).mp hx').2 hd
  · have hlo := hq.area
    by_contra hw
    obtain ⟨k, -, hak⟩ := hback.word c hw
    omega
  · exact (hback.held b x).mpr ⟨hx, h.heap.index_ne hi hq (by decide)⟩

end Receive

end CxlShm
