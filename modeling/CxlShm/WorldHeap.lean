import CxlShm.WorldCalls

/-! # WorldHeap — the heap of references under the calls of all clients

The invariant of the heap and what keeps it: a reference is linked or given up, an object dies with what it
alone refers to, a block is handed out.
-/

namespace CxlShm

open SlotCount Loop Transition

/-! ## §1 — the invariant -/

/-- Counts equal references, and whatever is handed out is alive. -/
structure HeapOk (K : Users) (m : Shm) (G : Nat → BlockLists) (H : ObjHeap) : Prop where
  pools : Pools K m G
  view : View K G H
  exact : HeapExact H m
  live : ∀ o ∈ H.objs, m.refCnt o ≠ 0
  era : EraBounded m
  leaking : NoneLeaking m
  index : ∀ x ∈ K.index, ∃ b, 3 ≤ b ∧ HeldBy K G b x

section Touch

variable {K : Users} {m m' : Shm} {G : Nat → BlockLists} {H : ObjHeap} {b x d : Nat}

/-- Where in a block the heap has its words. -/
theorem View.touches (hv : View K G H) (h : Pools K m G) (hx : HeldBy K G b x) (hd : d < binSize b)
    (ht : H.Touches (x + d)) : b = 0 ∧ d = 0 ∨ (b = 1 ∧ ∃ k < messageBufferSize, d = 40 + 8 * k) ∨
      3 ≤ b ∧ x ∉ K.index ∧ d < sizeofCxlObj + 8 * H.emb x := by
  rcases ht with hs | ⟨o, ho, j, hj, heq⟩
  · rcases hv.slot_cases hs with (ha | ⟨q, k, hq, hk, heq⟩ | ha) | ⟨b', o, k, hb', ho, hni, hk, heq, hlt⟩
    · obtain ⟨hxd, rfl⟩ := h.apart hx.block ha.block hd (binSize_pos 0) rfl
      exact Or.inl ⟨rfl, by omega⟩
    · have hsize : binSize 1 = 192 := rfl
      simp only [messageBufferSize] at hk
      have heq' : x + d = q + (40 + 8 * k) := by
        unfold bufferSlot at heq
        omega
      obtain ⟨rfl, rfl⟩ := h.apart hx.block hq.block hd (by omega) heq'
      exact Or.inr (Or.inl ⟨rfl, k, hk, by omega⟩)
    · have hlo := K.below _ ha
      have := hx.area
      omega
    · obtain ⟨rfl, rfl⟩ := h.apart hx.block ho.block hd hlt heq
      exact Or.inr (Or.inr ⟨hb', hni, by omega⟩)
  · obtain ⟨hni, b', hb', ho⟩ := (hv.obj o).mp ho
    have hlarge := binSize_large hb'
    obtain ⟨rfl, rfl⟩ := h.apart hx.block ho.block hd (by omega) heq
    have hcxl : sizeofCxlObj = 24 := rfl
    exact Or.inr (Or.inr ⟨hb', hni, by omega⟩)

theorem View.listed_not_touched (hv : View K G H) (h : Pools K m G) (hx : ListedBy K G x) : ¬ H.Touches x := by
  rintro (hs | ⟨o, ho, j, hj, rfl⟩)
  · exact hv.slot_not_listed h hs hx
  · exact hv.header_not_listed h ho hj hx

/-- The count of a RootRef and the ends of a queue are no words of the heap. -/
theorem View.second_not_touched (hv : View K G H) (h : Pools K m G) (hx : HeldBy K G 0 x) : ¬ H.Touches (x + 8) := by
  intro ht
  have := hv.touches h hx (by decide) ht
  omega

theorem View.field_not_touched (hv : View K G H) (h : Pools K m G) (hx : HeldBy K G 1 x) {j : Nat} (hj : j < 5) :
    ¬ H.Touches (x + 8 * j) := by
  intro ht
  have hsize : binSize 1 = 192 := rfl
  have := hv.touches h hx (by omega) ht
  omega

/-- Nor are the words of an entry of the index, or those of an object behind its references. -/
theorem View.payload_not_touched (hv : View K G H) (h : Pools K m G) (hb : 3 ≤ b) (hx : HeldBy K G b x)
    (hlo : x ∈ K.index ∨ sizeofCxlObj + 8 * H.emb x ≤ d) (hd : d < binSize b) : ¬ H.Touches (x + d) := by
  intro ht
  rcases hv.touches h hx hd ht with h0 | ⟨h1, -⟩ | ⟨-, hni, hlt⟩
  · omega
  · omega
  · rcases hlo with hi | hlo
    · exact hni hi
    · omega

theorem View.below_not_touched (hv : View K G H) {a : Nat} (ha : a < segmentsAreaStart) (hextra : a ∉ K.extra) :
    ¬ H.Touches a := by
  rintro (hs | ⟨o, ho, j, hj, rfl⟩)
  · rcases hv.slot_cases hs with (hx | ⟨q, k, hq, hk, rfl⟩ | hx) | ⟨b, x, k, -, hx, -, -, rfl, -⟩
    · have := hx.area
      omega
    · have := hq.area
      unfold bufferSlot at ha
      omega
    · exact hextra hx
    · have := hx.area
      omega
  · obtain ⟨-, b, -, hx⟩ := (hv.obj o).mp ho
    have := hx.area
    omega

/-- Two views of the same objects. -/
theorem View.objs_eq {G' : Nat → BlockLists} {H' : ObjHeap} (hv' : View K G' H') (hv : View K G H)
    (h : ∀ k y, 3 ≤ k → (HeldBy K G' k y ↔ HeldBy K G k y)) : H'.objs = H.objs := by
  ext o
  rw [hv'.obj, hv.obj]
  constructor
  · rintro ⟨hni, k, hk, ho⟩
    exact ⟨hni, k, hk, (h k o hk).mp ho⟩
  · rintro ⟨hni, k, hk, ho⟩
    exact ⟨hni, k, hk, (h k o hk).mpr ho⟩

theorem HeapOk.held (h : HeapOk K m G H) {o : Nat} (ho : o ∈ H.objs) : ∃ b, 3 ≤ b ∧ HeldBy K G b o :=
  ((h.view.obj o).mp ho).2

/-- An entry of the index is no RootRef and no queue. -/
theorem HeapOk.index_ne (h : HeapOk K m G H) {t : Nat} (hx : x ∈ K.index) (ht : HeldBy K G b t) (hb : b < 3) : x ≠ t := by
  rintro rfl
  obtain ⟨k, hk, hx⟩ := h.index x hx
  have := h.pools.held_unique hx ht
  omega

/-- Stores to words that are not the heap's. -/
theorem HeapOk.quiet (h : HeapOk K m G H) (hp : Pools K m' G) (hw : ∀ a, H.Touches a → m'.word a = m.word a)
    (hera : EraBounded m') (hsas : m'.sas = m.sas) : HeapOk K m' G H := by
  have hcnt : ∀ o ∈ H.objs, m'.refCnt o = m.refCnt o := fun o ho =>
    Shm.refCnt_of_header fun j hj => hw _ (Or.inr ⟨o, ho, j, hj, rfl⟩)
  refine ⟨hp, h.view, ?_, fun o ho => ?_, hera, fun i => ?_, h.index⟩
  · exact h.exact.congr (fun a ha => hw a (Or.inl ha)) fun o ho j hj => hw _ (Or.inr ⟨o, ho, j, hj, rfl⟩)
  · rw [hcnt o ho]
    exact h.live o ho
  · rw [hsas]
    exact h.leaking i

end Touch

/-! ## §2 — a reference is linked -/

section Link

variable {K : Users} {m m' : Shm} {G : Nat → BlockLists} {H : ObjHeap} {u a o : Nat}

theorem learnEra_tls (tid info : Nat) (m : Shm) : (learnEra tid info m).tls = m.tls := by
  unfold learnEra
  split <;> rfl

/-- A call on references writes a line of its log, and nothing else of a thread-local state. -/
theorem commitRef_tls (tid : Nat) (c : RefCall) (info cur v : Nat) (m : Shm) :
    (∀ q, (commitRef tid c info cur m).queue v q = m.queue v q) ∧
      ((commitRef tid c info cur m).tls v).ends = (m.tls v).ends := by
  by_cases hv : v = tid
  · have htls : (commitRef tid c info cur m).tls tid =
        (m.tls tid).setRedo (cur % redoCachelineCnt) (c.line info cur) := Function.update_self ..
    rw [hv, htls]
    refine ⟨fun q => ?_, rfl⟩
    rw [Shm.queue, Shm.queue, htls]
    cases q <;> rfl
  · have htls : (commitRef tid c info cur m).tls v = m.tls v := Function.update_of_ne hv ..
    rw [htls]
    exact ⟨fun q => by rw [Shm.queue, Shm.queue, htls], rfl⟩

theorem linkReference_tls (tid ref refed v : Nat) (m : Shm) :
    (∀ q, (linkReference tid ref refed m).queue v q = m.queue v q) ∧
      ((linkReference tid ref refed m).tls v).ends = (m.tls v).ends := by
  have h := commitRef_tls tid ⟨.linkRef, ref, refed⟩ (m.refInfo refed) (m.era tid tid) v
    (learnEra tid (m.refInfo refed) m)
  simp only [Shm.queue, learnEra_tls] at h ⊢
  exact h

theorem unlinkStores_tls (tid ref refed v : Nat) (m : Shm) :
    (∀ q, (unlinkStores tid ref refed m).queue v q = m.queue v q) ∧
      ((unlinkStores tid ref refed m).tls v).ends = (m.tls v).ends := by
  have h := commitRef_tls tid ⟨.unlinkRef, ref, refed⟩ (m.refInfo refed)
    ((learnEra tid (m.refInfo refed) m).era tid tid) v (learnEra tid (m.refInfo refed) m)
  simp only [Shm.queue, learnEra_tls] at h ⊢
  exact h

theorem linkReference_segment (tid ref refed : Nat) (m : Shm) :
    (linkReference tid ref refed m).segment = m.segment :=
  learnEra_segment ..

theorem linkReference_sas (tid ref refed : Nat) (m : Shm) : (linkReference tid ref refed m).sas = m.sas :=
  learnEra_sas ..

theorem EraBounded.linkReference (h : EraBounded m) (tid ref refed : Nat) :
    EraBounded (linkReference tid ref refed m) := by
  have hlearn : EraBounded (CxlShm.learnEra tid (m.refInfo refed) m) := h.learnEra tid _
  exact hlearn.storeEra (Nat.mod_lt _ (by decide))

/-- The stores of a link add one reference. -/
theorem linkReference_linked (hu : u < 2 ^ 16) (hera : EraBounded m) (ha : a ∈ H.slots) (ho : o ∈ H.objs)
    (hroom : m.refCnt o + 1 < 2 ^ 16) : SlotLinked H m a o (linkReference u a o m) := by
  refine SlotLinked.of_stores ha ho ?_ (linkReference_word ..)
  have hown : m.era u u < 2 ^ 32 := hera _
  exact getRefCntFromInfo_pack hu hroom hown

/-- A link writes the slot and the stamp of the object. -/
theorem linkReference_word_of_ne {w : Nat} (ha : w ≠ a) (ho : w ≠ o + 8) :
    (linkReference u a o m).word w = m.word w := by
  rw [linkReference_word, Function.update_of_ne ha, Function.update_of_ne ho]

theorem unlinkStores_word_of_ne {w : Nat} (ha : w ≠ a) (ho : w ≠ o + 8) :
    (unlinkStores u a o m).word w = m.word w := by
  rw [unlinkStores_word, Function.update_of_ne ha, Function.update_of_ne ho]

/-- **Linking an empty slot to an object.** -/
theorem HeapOk.link (h : HeapOk K m G H) (hu : u ∈ K.clients) (ha : a ∈ H.slots) (ho : o ∈ H.objs)
    (hempty : m.word a = 0) (hroom : m.refCnt o + 1 < 2 ^ 16) : HeapOk K (linkReference u a o m) G H := by
  have hlinked := linkReference_linked (K.id_lt u hu) h.era ha ho hroom
  have hcount := hlinked.count
  refine ⟨?_, h.view, ?_, ?_, h.era.linkReference u a o, ?_, h.index⟩
  · refine h.pools.use (fun v q => (linkReference_tls u a o v m).1 q) (linkReference_sas ..)
      (linkReference_segment ..) fun y hy => ?_
    have hy' := h.view.listed_not_touched h.pools hy
    apply linkReference_word_of_ne
    · rintro rfl
      exact hy' (Or.inl ha)
    · rintro rfl
      exact hy' (Or.inr ⟨o, ho, 1, by decide, rfl⟩)
  · exact hlinked.exact h.exact ha ho (h.live o ho) hempty fun p hp hdead => absurd hdead (h.live p hp)
  · intro p hp
    by_cases hpo : p = o
    · rw [hpo, hcount]
      exact Nat.succ_ne_zero _
    · rw [hlinked.refCnt_of_ne hp hpo]
      exact h.live p hp
  · intro i
    rw [linkReference_sas]
    exact h.leaking i

end Link

/-! ## §3 — references are given up -/

/-- What is left of a heap while a drop goes on: what has died has gone back. -/
structure Dropping (K : Users) (G : Nat → BlockLists) (H : ObjHeap) (m' : Shm) (G' : Nat → BlockLists) : Prop where
  pools : Pools K m' G'
  held : ∀ k y, HeldBy K G' k y ↔ HeldBy K G k y ∧ (3 ≤ k → y ∉ K.index → m'.refCnt y ≠ 0)
  era : EraBounded m'
  leaking : NoneLeaking m'

/-- What a drop leaves alone. -/
structure ReleasedFrame (H : ObjHeap) (m m' : Shm) : Prop where
  word : ∀ w, ¬ H.Touches w → m'.word w = m.word w
  ends : ∀ v, (m'.tls v).ends = (m.tls v).ends

section Drop

variable {K : Users} {m m' : Shm} {G G' : Nat → BlockLists} {H : ObjHeap} {u a o : Nat}

theorem ReleasedFrame.refl (m : Shm) : ReleasedFrame H m m := ⟨fun _ _ => rfl, fun _ => rfl⟩

theorem ReleasedFrame.trans (m₁ m₂ m₃ : Shm) (h : ReleasedFrame H m₁ m₂) (h' : ReleasedFrame H m₂ m₃) : ReleasedFrame H m₁ m₃ := by
  refine ⟨fun w hw => ?_, fun v => ?_⟩
  · rw [h'.word w hw, h.word w hw]
  · rw [h'.ends v, h.ends v]

/-- A slot that refers to an object is in no free block: what has died refers to nothing. -/
theorem Dropping.slot_not_listed (h : Dropping K G H m' G') (hv : View K G H) (hx : HeapExact H m') (ha : a ∈ H.slots)
    (hw : m'.word a ≠ 0) : ¬ ListedBy K G' a := by
  intro hl
  rcases hv.slot_cases ha with (ha | ⟨q, k, hq, hk, rfl⟩ | ha) | ⟨b, x, k, hb, hx', hni, hk, rfl, hlt⟩
  · exact h.pools.held_not_listed ((h.held 0 a).mpr ⟨ha, by omega⟩) hl
  · have hsize : binSize 1 = 192 := rfl
    simp only [messageBufferSize] at hk
    have hq' := (h.held 1 q).mpr ⟨hq, by omega⟩
    have hne := h.pools.held_add_ne hq' hl (d := 40 + 8 * k) (by omega)
    unfold bufferSlot at hne
    omega
  · obtain ⟨k, w, -, hb⟩ := h.pools.listed_block hl
    have hlo := (pageBlocks_bounds hb.2).1
    have hhi := K.below a ha
    simp only [pageStart] at hlo
    omega
  · have ho := (hv.obj x).mpr ⟨hni, b, hb, hx'⟩
    have hslot : x + (sizeofCxlObj + 8 * k) = embeddedSlot x k := (Nat.add_assoc ..).symm
    have hlive : m'.refCnt x ≠ 0 := by
      intro hdead
      rw [hslot] at hw
      exact hw (hx.dead x ho hdead k hk)
    exact h.pools.held_add_ne ((h.held b x).mpr ⟨hx', fun _ _ => hlive⟩) hl hlt rfl

theorem Dropping.held_of_live (h : Dropping K G H m' G') (hv : View K G H) (ho : o ∈ H.objs)
    (hlive : m'.refCnt o ≠ 0) : ∃ b, 3 ≤ b ∧ HeldBy K G' b o := by
  obtain ⟨-, b, hb, hx⟩ := (hv.obj o).mp ho
  exact ⟨b, hb, (h.held b o).mpr ⟨hx, fun _ _ => hlive⟩⟩

/-- **One unlink during a drop.** -/
theorem unlinkReference_dropping (hv : View K G H) (hu : u ∈ K.clients) :
    UnlinkSpecOn H id (fun m' => ∃ G', Dropping K G H m' G') (ReleasedFrame H) (unlinkReference u) := by
  rintro m a hx ⟨G', h⟩ ha ho
  simp only [id] at hx ha ho ⊢
  have hpos := hx.refCnt_pos ha ho
  have hun : Unlinked H m a (unlinkStores u a (m.word a) m) :=
    unlinkStores_unlinked (K.id_lt u hu) h.era ha ho hpos
  obtain ⟨b, hb, hheld⟩ := h.held_of_live hv ho (by omega)
  have hlarge := binSize_large hb
  have hspecial : decide (b < 2) = false := decide_eq_false (by omega)
  have hframe : ReleasedFrame H m (unlinkStores u a (m.word a) m) := by
    refine ⟨fun w hw => unlinkStores_word_of_ne ?_ ?_, fun v => (unlinkStores_tls u a (m.word a) v m).2⟩
    · rintro rfl
      exact hw (Or.inl ha)
    · rintro rfl
      exact hw (Or.inr ⟨_, ho, 1, by decide, rfl⟩)
  -- the stores link no list
  have hpools : Pools K (unlinkStores u a (m.word a) m) G' := by
    refine h.pools.use (fun v q => (unlinkStores_tls u a (m.word a) v m).1 q) (unlinkStores_sas ..)
      (unlinkStores_segment ..) fun y hy => unlinkStores_word_of_ne ?_ ?_
    · rintro rfl
      exact h.slot_not_listed hv hx ha (HeapExact.ne_zero ho) hy
    · exact h.pools.held_add_ne hheld hy (by omega)
  have hera : EraBounded (unlinkStores u a (m.word a) m) := h.era.unlinkStores a (m.word a)
  have hleak : NoneLeaking (unlinkStores u a (m.word a) m) := by
    intro i
    rw [unlinkStores_sas]
    exact h.leaking i
  -- who is alive afterwards
  have hheld_iff : ∀ {m₂ : Shm} {G₂ : Nat → BlockLists}, Unlinked H m a m₂ →
      (∀ k y, HeldBy K G₂ k y ↔ HeldBy K G' k y ∧ (m₂.refCnt (m.word a) = 0 → y ≠ m.word a)) →
      ∀ k y, HeldBy K G₂ k y ↔ HeldBy K G k y ∧ (3 ≤ k → y ∉ K.index → m₂.refCnt y ≠ 0) := by
    intro m₂ G₂ hun₂ hG₂ k y
    rw [hG₂, h.held]
    have hobj : ∀ hy : HeldBy K G k y, 3 ≤ k → y ∉ K.index → y ∈ H.objs := fun hy hk hni =>
      (hv.obj y).mpr ⟨hni, k, hk, hy⟩
    have hnio : m.word a ∉ K.index := ((hv.obj _).mp ho).1
    constructor
    · rintro ⟨⟨hy, hlive⟩, hne⟩
      refine ⟨hy, fun hk hni hdead => ?_⟩
      by_cases hyo : y = m.word a
      · subst hyo
        exact hne hdead rfl
      · rw [hun₂.refCnt_of_ne (hobj hy hk hni) hyo] at hdead
        exact hlive hk hni hdead
    · rintro ⟨hy, hlive⟩
      refine ⟨⟨hy, fun hk hni hdead => ?_⟩, ?_⟩
      · by_cases hyo : y = m.word a
        · subst hyo
          omega
        · rw [← hun₂.refCnt_of_ne (hobj hy hk hni) hyo] at hdead
          exact hlive hk hni hdead
      · rintro hdead rfl
        by_cases hk : 3 ≤ k
        · exact hlive hk hnio hdead
        · have hy' : HeldBy K G' k (m.word a) := (h.held k _).mpr ⟨hy, fun hk' => absurd hk' hk⟩
          obtain rfl := h.pools.held_unique hheld hy'
          exact hk hb
  unfold unlinkReference
  by_cases hone : getRefCntFromInfo (m.refInfo (m.word a)) = 1
  · rw [if_pos hone]
    obtain ⟨m₂, G₂, hrun, hpools₂, hback⟩ := hpools.free hu hheld hleak
    rw [hspecial] at hrun
    have hwords : ∀ w, (∀ k < 3, w ≠ m.word a + 8 * k) → m₂.word w = (unlinkStores u a (m.word a) m).word w := by
      intro w hw
      by_contra hne
      obtain ⟨k, hk, hwk⟩ := hback.word w hne
      rw [hspecial] at hk
      exact hw k hk hwk
    have hzero : m₂.word (m.word a + 8) = 0 := hback.wiped 1 (by decide) (by rw [hspecial]; exact (by decide : 1 < 3))
    have hun₂ : Unlinked H m a m₂ := hun.wipe ha ho hone hwords hzero
    have hcount := hun₂.count
    have hone' : m.refCnt (m.word a) = 1 := hone
    refine ⟨m₂, hrun, hun₂, ⟨G₂, hpools₂, hheld_iff hun₂ fun k y => ?_, fun k => ?_, hback.leaking⟩, ?_⟩
    · rw [hback.held]
      exact and_congr_right fun _ => ⟨fun hy _ => hy, fun hy => hy (by omega)⟩
    · rw [hback.eraCell]
      exact hera k
    · refine ReleasedFrame.trans _ _ _ hframe ⟨fun w hw => hwords w ?_, hback.ends⟩
      rintro k hk rfl
      exact hw (Or.inr ⟨_, ho, k, hk, rfl⟩)
  · rw [if_neg hone]
    have hcount := hun.count
    have hone' : m.refCnt (m.word a) ≠ 1 := hone
    refine ⟨_, rfl, hun, ⟨G', hpools, hheld_iff hun fun k y => ?_, hera, hleak⟩, hframe⟩
    exact ⟨fun hy => ⟨hy, fun hdead => by omega⟩, fun hy => hy.1⟩

/-- What an area looks like once somebody has looked again. -/
theorem Reviewed.heapOk {H' : ObjHeap} (h : Reviewed H H' m m') (hx : HeapExact H m) (hp : Pools K m' G')
    (hv : View K G' H') (hlive : ∀ o ∈ H'.objs, m.refCnt o ≠ 0) (hera : EraBounded m') (hleak : NoneLeaking m')
    (hindex : ∀ x ∈ K.index, ∃ b, 3 ≤ b ∧ HeldBy K G' b x) : HeapOk K m' G' H' := by
  refine ⟨hp, hv, h.exact hx, fun o ho => ?_, hera, hleak, hindex⟩
  rw [Shm.refCnt_of_header (h.header o ho)]
  exact hlive o ho

/-- **When a drop is over**, what is handed out makes up an exact heap again. -/
theorem Dropping.heapOk (h : Dropping K G H m G') (hv : View K G H) (hx : HeapExact H m)
    (hindex : ∀ x ∈ K.index, ∃ b, 3 ≤ b ∧ HeldBy K G b x) :
    ∃ H', HeapOk K m G' H' ∧ H'.emb = H.emb := by
  obtain ⟨H', hv', hemb⟩ := h.pools.exists_view H.emb fun b x hb hx' => hv.fits b x hb ((h.held b x).mp hx').1
  have hobj : ∀ o, o ∈ H'.objs ↔ o ∈ H.objs ∧ m.refCnt o ≠ 0 := by
    intro o
    rw [hv'.obj, hv.obj]
    constructor
    · rintro ⟨hni, b, hb, ho⟩
      obtain ⟨ho, hlive⟩ := (h.held b o).mp ho
      exact ⟨⟨hni, b, hb, ho⟩, hlive hb hni⟩
    · rintro ⟨⟨hni, b, hb, ho⟩, hlive⟩
      exact ⟨hni, b, hb, (h.held b o).mpr ⟨ho, fun _ _ => hlive⟩⟩
  have hsmall : ∀ b x, b < 3 → (HeldBy K G' b x ↔ HeldBy K G b x) := by
    intro b x hb
    rw [h.held]
    exact ⟨fun hx => hx.1, fun hx => ⟨hx, fun hb' => by omega⟩⟩
  have hroot : ∀ a, a ∈ H'.roots ↔ a ∈ H.roots := by
    intro a
    rw [hv'.root, hv.root, IsRoot, IsRoot, hsmall 0 a (by decide)]
    simp only [hsmall 1 _ (by decide)]
  have hslots : ∀ a ∈ H'.slots, a ∈ H.slots := by
    intro a ha
    rcases ObjHeap.mem_slots.mp ha with hr | ⟨o, ho, k, hk, rfl⟩
    · exact ObjHeap.root_mem ((hroot a).mp hr)
    · rw [hemb] at hk
      exact ObjHeap.embeddedSlot_mem ((hobj o).mp ho).1 hk
  have hrev : Reviewed H H' m m := by
    refine ⟨fun o ho => ⟨((hobj o).mp ho).1, by rw [hemb]⟩, fun _ _ _ _ => rfl, fun _ _ _ => rfl, ?_, ?_, ?_⟩
    · exact fun a ha hno => absurd (hslots a ha) hno
    · -- only the slots of what has died have gone, and they are empty
      intro a ha hno hw
      rcases ObjHeap.mem_slots.mp ha with hr | ⟨o, ho, k, hk, rfl⟩
      · exact hno (ObjHeap.root_mem ((hroot a).mpr hr))
      · by_cases hdead : m.refCnt o = 0
        · rw [hx.dead o ho hdead k hk] at hw
          exact H'.zero_not_obj hw
        · exact hno (ObjHeap.embeddedSlot_mem ((hobj o).mpr ⟨ho, hdead⟩) (by rw [hemb]; exact hk))
    · intro o ho hno
      by_contra hlive
      exact hno ((hobj o).mpr ⟨ho, hlive⟩)
  refine ⟨H', hrev.heapOk hx h.pools hv' (fun o ho => ((hobj o).mp ho).2) h.era h.leaking fun x hx => ?_, hemb⟩
  obtain ⟨b, hb, hheld⟩ := hindex x hx
  exact ⟨b, hb, (h.held b x).mpr ⟨hheld, fun _ hni => absurd hx hni⟩⟩

theorem HeapOk.dropping (h : HeapOk K m G H) : Dropping K G H m G := by
  refine ⟨h.pools, fun k y => ⟨fun hy => ⟨hy, fun hk hni => ?_⟩, fun hy => hy.1⟩, h.era, h.leaking⟩
  exact h.live y ((h.view.obj y).mpr ⟨hni, k, hk, hy⟩)

/-- **`test_free` of a root** comes to an end, given fuel. -/
theorem HeapOk.testFree_returns (h : HeapOk K m G H) (hu : u ∈ K.clients) (ha : a ∈ H.roots) {fuel : Nat}
    (hfuel : H.objs.card + H.embBound < fuel) : ∃ m' G', testFree u fuel a m = some m' ∧ Released H m a m' ∧
      Dropping K G H m' G' ∧ ReleasedFrame H m m' := by
  obtain ⟨m', hrun, hrel, -, ⟨G', hdrop⟩, hframe⟩ := releaseOn_exact (unlinkReference_dropping h.view hu)
    ReleasedFrame.refl ReleasedFrame.trans hfuel h.exact ⟨G, h.dropping⟩ (Doomed.root ha)
  exact ⟨m', G', hrun, hrel, hdrop, hframe⟩

/-- **`test_free` of a root**, whatever the fuel. -/
theorem HeapOk.testFree (h : HeapOk K m G H) (hu : u ∈ K.clients) (ha : a ∈ H.roots) {fuel : Nat}
    (hrun : testFree u fuel a m = some m') : ∃ G', Released H m a m' ∧ Dropping K G H m' G' ∧ ReleasedFrame H m m' := by
  have hfuel : H.objs.card + H.embBound < fuel + (H.objs.card + H.embBound + 1) := by omega
  obtain ⟨m₁, G', hrun', hrel, hdrop, hframe⟩ := h.testFree_returns hu ha hfuel
  have hmore := releaseOn_mono (show fuel ≤ fuel + (H.objs.card + H.embBound + 1) by omega) hrun
  obtain rfl := Option.some.inj (hmore.symm.trans hrun')
  exact ⟨G', hrel, hdrop, hframe⟩

/-- **`unlink_reference`** of a slot, if what it alone keeps alive has no references of its own. -/
theorem HeapOk.unlinkReference (h : HeapOk K m G H) (hu : u ∈ K.clients) (ha : a ∈ H.slots) (hfull : m.word a ≠ 0)
    (hlast : m.refCnt (m.word a) = 1 → ∀ k < H.emb (m.word a), m.word (embeddedSlot (m.word a) k) = 0)
    (hrun : unlinkReference u a (m.word a) m = some m') :
    ∃ G' H', HeapOk K m' G' H' ∧ H'.emb = H.emb ∧ Unlinked H m a m' ∧ ReleasedFrame H m m' ∧
      ∀ k y, HeldBy K G' k y ↔ HeldBy K G k y ∧ (3 ≤ k → y ∉ K.index → m'.refCnt y ≠ 0) := by
  have ho : m.word a ∈ H.objs := h.exact.obj ha hfull
  obtain ⟨m₁, hrun', hun, ⟨G', hdrop⟩, hframe⟩ := unlinkReference_dropping h.view hu m a h.exact ⟨G, h.dropping⟩ ha ho
  obtain rfl : m' = m₁ := Option.some.inj (hrun.symm.trans hrun')
  obtain ⟨H', h', hemb⟩ := hdrop.heapOk h.view (hun.exact h.exact ha ho hlast) h.index
  exact ⟨G', H', h', hemb, hun, hframe, hdrop.held⟩

/-- A drop changes no word of a RootRef or of a queue but for the slot. -/
theorem Unlinked.special_word (hun : Unlinked H m a m') (hframe : ReleasedFrame H m m') (h : HeapOk K m G H) {b x d : Nat}
    (hx : HeldBy K G b x) (hb : b < 2) (hd : d < binSize b) (hne : x + d ≠ a) : m'.word (x + d) = m.word (x + d) := by
  by_cases htouch : H.Touches (x + d)
  · rcases htouch with hs | ⟨o, ho, j, hj, heq⟩
    · exact hun.slot _ hs hne
    · obtain ⟨c, hc, hoc⟩ := h.held ho
      have := binSize_large hc
      exact absurd heq (h.pools.held_apart hx hoc (Or.inl (by omega)) hd (by omega))
  · exact hframe.word _ htouch

end Drop

/-! ## §4 — a RootRef or a queue comes and goes -/

/-- A call of some client was handed the block `x` of bin `b`; of what was in use it has written `X` at most. -/
structure Grown (K : Users) (b x : Nat) (X : Nat → Prop) (m m' : Shm) (G G' : Nat → BlockLists) : Prop where
  pools : Pools K m' G'
  held : ∀ k y, HeldBy K G' k y ↔ HeldBy K G k y ∨ k = b ∧ y = x
  fresh : ∀ k, ¬ HeldBy K G k x
  word : ∀ k y d, HeldBy K G k y → d < binSize k → ¬ X (y + d) → m'.word (y + d) = m.word (y + d)
  below : ∀ a < segmentsAreaStart, m'.word a = m.word a
  era : EraBounded m'
  leaking : NoneLeaking m'
  ends : ∀ v, (m'.tls v).ends = (m.tls v).ends

section Special

variable {K : Users} {m m' : Shm} {G G' : Nat → BlockLists} {H : ObjHeap} {u b x : Nat} {X : Nat → Prop}

/-- Words of the heap that `X` leaves out are as before. -/
theorem Grown.touched (hg : Grown K b x X m m' G G') (hv : View K G H) {w : Nat} (ht : H.Touches w) (hX : ¬ X w) :
    m'.word w = m.word w := by
  rcases ht with hs | ⟨o, ho, j, hj, rfl⟩
  · rcases hv.slot_cases hs with (ha | ⟨q, k, hq, hk, rfl⟩ | ha) | ⟨b', o, k, -, ho, -, -, rfl, hlt⟩
    · exact hg.word 0 w 0 ha (binSize_pos 0) hX
    · have hsize : binSize 1 = 192 := rfl
      simp only [messageBufferSize] at hk
      have hslot : bufferSlot q k = q + (40 + 8 * k) := Nat.add_assoc ..
      rw [hslot] at hX ⊢
      exact hg.word 1 q _ hq (by omega) hX
    · exact hg.below w (K.below w ha)
    · exact hg.word b' o _ ho hlt hX
  · obtain ⟨-, b', hb', ho⟩ := (hv.obj o).mp ho
    have := binSize_large hb'
    exact hg.word b' o _ ho (by omega) hX

/-- A root is one of before, or it lies in the new block. -/
theorem Grown.isRoot (hg : Grown K b x X m m' G G') {a : Nat} : IsRoot K G' a ↔ IsRoot K G a ∨
    (b = 0 ∧ a = x) ∨ b = 1 ∧ ∃ k < messageBufferSize, a = bufferSlot x k := by
  rw [IsRoot, IsRoot, hg.held]
  constructor
  · rintro ((ha | ⟨rfl, rfl⟩) | ⟨q, k, hq, hk, rfl⟩ | ha)
    · exact Or.inl (Or.inl ha)
    · exact Or.inr (Or.inl ⟨rfl, rfl⟩)
    · rcases (hg.held 1 q).mp hq with hq | ⟨rfl, rfl⟩
      · exact Or.inl (Or.inr (Or.inl ⟨q, k, hq, hk, rfl⟩))
      · exact Or.inr (Or.inr ⟨rfl, k, hk, rfl⟩)
    · exact Or.inl (Or.inr (Or.inr ha))
  · rintro ((ha | ⟨q, k, hq, hk, rfl⟩ | ha) | ⟨rfl, rfl⟩ | ⟨rfl, k, hk, rfl⟩)
    · exact Or.inl (Or.inl ha)
    · exact Or.inr (Or.inl ⟨q, k, (hg.held 1 q).mpr (Or.inl hq), hk, rfl⟩)
    · exact Or.inr (Or.inr ha)
    · exact Or.inl (Or.inr ⟨rfl, rfl⟩)
    · exact Or.inr (Or.inl ⟨x, k, (hg.held 1 x).mpr (Or.inr ⟨rfl, rfl⟩), hk, rfl⟩)

/-- A block of before lies apart from the new one. -/
theorem Grown.apart (hg : Grown K b x X m m' G G') {c y d e : Nat} (hy : HeldBy K G c y) (hd : d < binSize c)
    (he : e < binSize b) : y + d ≠ x + e := by
  refine hg.pools.held_apart ((hg.held c y).mpr (Or.inl hy)) ((hg.held b x).mpr (Or.inr ⟨rfl, rfl⟩)) ?_ hd he
  by_contra hno
  rw [not_or, not_not, not_not] at hno
  exact hg.fresh c (hno.2 ▸ hy)

/-- **A RootRef or a queue is handed out**; it is empty. -/
theorem HeapOk.grow (h : HeapOk K m G H) (hg : Grown K b x (fun _ => False) m m' G G') (hb : b < 3)
    (hempty : ∀ a, (b = 0 ∧ a = x) ∨ (b = 1 ∧ ∃ k < messageBufferSize, a = bufferSlot x k) → m'.word a = 0) :
    ∃ H', HeapOk K m' G' H' ∧ H'.emb = H.emb ∧ H'.objs = H.objs := by
  have hlarge : ∀ k y, 3 ≤ k → (HeldBy K G' k y ↔ HeldBy K G k y) := by
    intro k y hk
    rw [hg.held]
    exact ⟨fun hy => hy.resolve_right fun he => by omega, Or.inl⟩
  obtain ⟨H', hv', hemb⟩ := hg.pools.exists_view H.emb fun k y hk hy => h.view.fits k y hk ((hlarge k y hk).mp hy)
  have hobj : H'.objs = H.objs := hv'.objs_eq h.view hlarge
  have hroot : ∀ a, a ∈ H'.roots ↔ a ∈ H.roots ∨
      (b = 0 ∧ a = x) ∨ b = 1 ∧ ∃ k < messageBufferSize, a = bufferSlot x k := by
    intro a
    rw [hv'.root, h.view.root, hg.isRoot]
  have hslot : ∀ a, a ∈ H'.slots ↔ a ∈ H.slots ∨
      (b = 0 ∧ a = x) ∨ b = 1 ∧ ∃ k < messageBufferSize, a = bufferSlot x k := by
    intro a
    rw [ObjHeap.mem_slots, ObjHeap.mem_slots, hroot, hobj, hemb]
    exact or_right_comm
  have hrev : Reviewed H H' m m' := by
    refine ⟨fun o ho => ⟨hobj ▸ ho, by rw [hemb]⟩, fun o ho j hj => ?_, fun a _ ha => ?_, fun a ha hno => ?_,
      fun a ha hno => absurd ((hslot a).mpr (Or.inl ha)) hno, fun o ho hno => absurd (hobj ▸ ho) hno⟩
    · exact hg.touched h.view (Or.inr ⟨o, hobj ▸ ho, j, hj, rfl⟩) not_false
    · exact hg.touched h.view (Or.inl ha) not_false
    · exact hempty a (((hslot a).mp ha).resolve_left hno)
  refine ⟨H', hrev.heapOk h.exact hg.pools hv' (fun o ho => ?_) hg.era hg.leaking (fun y hy => ?_), hemb, hobj⟩
  · rw [hobj] at ho
    exact h.live o ho
  · obtain ⟨k, hk, hy⟩ := h.index y hy
    exact ⟨k, hk, (hlarge k y hk).mpr hy⟩

/-- **A RootRef or a queue that refers to nothing is given back.** -/
theorem HeapOk.free (h : HeapOk K m G H) (hu : u ∈ K.clients) (hx : HeldBy K G b x) (hb : b < 3)
    (hempty : ∀ d < binSize b, x + d ∈ H.slots → m.word (x + d) = 0) : ∃ m' G' H',
      cxlFree u (decide (b < 2)) x m = some m' ∧ HeapOk K m' G' H' ∧ GivenBack K b x m m' G G' ∧
      H'.emb = H.emb ∧ H'.objs = H.objs := by
  obtain ⟨m', G', hrun, hp, hback⟩ := h.pools.free hu hx h.leaking
  have hlarge : ∀ k y, 3 ≤ k → (HeldBy K G' k y ↔ HeldBy K G k y) := by
    intro k y hk
    rw [hback.held]
    refine ⟨fun hy => hy.1, fun hy => ⟨hy, ?_⟩⟩
    rintro rfl
    have := h.pools.held_unique hx hy
    omega
  obtain ⟨H', hv', hemb⟩ := hp.exists_view H.emb fun k y hk hy => h.view.fits k y hk ((hlarge k y hk).mp hy)
  have hobj : H'.objs = H.objs := hv'.objs_eq h.view hlarge
  have hsub : ∀ a ∈ H'.slots, a ∈ H.slots ∧ ∀ d < binSize b, a ≠ x + d := by
    intro a ha
    have hin : ∀ k y e, HeldBy K G' k y → e < binSize k → ∀ d < binSize b, y + e ≠ x + d := by
      intro k y e hy he d hd
      obtain ⟨hy, hne⟩ := (hback.held k y).mp hy
      exact h.pools.held_apart hy hx (Or.inr hne) he hd
    rcases hv'.slot_cases ha with (hr | ⟨q, k, hq, hk, rfl⟩ | hr) | ⟨k, y, j, hk, hy, hni, hj, rfl, hlt⟩
    · refine ⟨ObjHeap.root_mem ((h.view.root a).mpr (Or.inl ((hback.held 0 a).mp hr).1)), fun d hd => ?_⟩
      exact hin 0 a 0 hr (binSize_pos 0) d hd
    · refine ⟨ObjHeap.root_mem ((h.view.root _).mpr (Or.inr (Or.inl ⟨q, k, ((hback.held 1 q).mp hq).1, hk, rfl⟩))),
        fun d hd => ?_⟩
      have hsize : binSize 1 = 192 := rfl
      simp only [messageBufferSize] at hk
      have hne := hin 1 q (40 + 8 * k) hq (by omega) d hd
      unfold bufferSlot
      omega
    · refine ⟨ObjHeap.root_mem ((h.view.root a).mpr (Or.inr (Or.inr hr))), fun d hd => ?_⟩
      have hlo := K.below a hr
      have := hx.area
      omega
    · refine ⟨?_, hin k y _ hy hlt⟩
      have hslot : y + (sizeofCxlObj + 8 * j) = embeddedSlot y j := (Nat.add_assoc ..).symm
      rw [hslot]
      rw [hemb] at hj
      exact ObjHeap.embeddedSlot_mem ((h.view.obj y).mpr ⟨hni, k, hk, (hlarge k y hk).mp hy⟩) hj
  have hword : ∀ a, (∀ d < binSize b, a ≠ x + d) → m'.word a = m.word a := by
    intro a ha
    by_contra hne
    obtain ⟨k, hk, rfl⟩ := hback.word a hne
    obtain ⟨w, hw, hxw⟩ := hx
    exact ha _ (wipedWords_lt ((h.pools w hw).held_ne_two hxw) hk) rfl
  have hrev : Reviewed H H' m m' := by
    refine ⟨fun o ho => ⟨hobj ▸ ho, by rw [hemb]⟩, fun o ho j hj => hword _ fun d hd => ?_,
      fun a ha _ => hword a (hsub a ha).2, fun a ha hno => absurd (hsub a ha).1 hno, fun a ha hno hw => ?_,
      fun o ho hno => absurd (hobj ▸ ho) hno⟩
    · obtain ⟨-, k, hk, hy⟩ := (hv'.obj o).mp ho
      have := binSize_large hk
      have hy' := (hlarge k o hk).mp hy
      exact h.pools.held_apart hy' hx (Or.inl (by omega)) (by omega) hd
    · -- a slot that has gone was empty
      have hz : m.word a = 0 := by
        by_cases hin : ∃ d < binSize b, a = x + d
        · obtain ⟨d, hd, rfl⟩ := hin
          exact hempty d hd ha
        · exfalso
          apply hno
          rcases ObjHeap.mem_slots.mp ha with hr | ⟨o, ho, k, hk, rfl⟩
          · apply ObjHeap.root_mem
            rw [hv'.root]
            rcases (h.view.root a).mp hr with hr | ⟨q, k, hq, hk, rfl⟩ | hr
            · refine Or.inl ((hback.held 0 a).mpr ⟨hr, ?_⟩)
              rintro rfl
              exact hin ⟨0, binSize_pos b, rfl⟩
            · refine Or.inr (Or.inl ⟨q, k, (hback.held 1 q).mpr ⟨hq, ?_⟩, hk, rfl⟩)
              rintro rfl
              obtain rfl := h.pools.held_unique hx hq
              have hsize : binSize 1 = 192 := rfl
              simp only [messageBufferSize] at hk
              exact hin ⟨40 + 8 * k, by omega, Nat.add_assoc ..⟩
            · exact Or.inr (Or.inr hr)
          · exact ObjHeap.embeddedSlot_mem (by rw [hobj]; exact ho) (by rw [hemb]; exact hk)
      rw [hz] at hw
      exact H'.zero_not_obj hw
  refine ⟨m', G', H', hrun, hrev.heapOk h.exact hp hv' (fun o ho => ?_) (fun k => ?_) hback.leaking (fun y hy => ?_),
    hback, hemb, hobj⟩
  · rw [hobj] at ho
    exact h.live o ho
  · rw [hback.eraCell]
    exact h.era k
  · obtain ⟨k, hk, hy⟩ := h.index y hy
    exact ⟨k, hk, (hlarge k y hk).mpr hy⟩

end Special

/-! ## §5 — what the allocator hands out -/

section Calls

variable {K : Users} {m m₁ m' : Shm} {G G' : Nat → BlockLists} {H : ObjHeap} {u b x t size fuel : Nat}

/-- **`thread_base_ref_alloc`.** -/
theorem HeapOk.threadBaseRefAlloc (h : HeapOk K m G H) (hu : u ∈ K.clients)
    (hrun : threadBaseRefAlloc fuel u size m = some (t, m')) :
    ∃ L H', HeapOk K m' (Function.update G u L) H' ∧ H'.emb = H.emb ∧ H'.objs = H.objs ∧
      Grown K 0 t (fun _ => False) m m' G (Function.update G u L) ∧ L.Held 0 t ∧ EmptyRootRef m' t := by
  obtain ⟨L, h', hout, hempty, hera⟩ := (h.pools u hu).threadBaseRefAlloc hrun
  have hk := threadBaseRefAlloc_others (h.pools u hu) hrun
  have hframe : CallFrame m m' := .threadBaseRefAlloc hrun
  have hfresh := h.pools.handOut_fresh hu h' hout hk
  have hg : Grown K 0 t (fun _ => False) m m' G (Function.update G u L) := by
    refine ⟨h.pools.handOut hu h' hout hk, fun k y => hout.heldBy hu, hfresh, fun k y d hy hd _ => ?_,
      fun a ha => hout.below ha, fun k => ?_, hframe.noneLeaking h.leaking, hframe.ends⟩
    · refine h.pools.handOut_word hu h' hout hk hy ?_ hd
      rw [List.mem_singleton]
      rintro rfl
      exact hfresh k hy
    · rw [hera]
      exact h.era k
  obtain ⟨H', h'', hemb, hobj⟩ := h.grow hg (by decide) (by
    rintro a (⟨-, rfl⟩ | ⟨h01, -⟩)
    · exact hempty.pptr
    · cases h01)
  exact ⟨L, H', h'', hemb, hobj, hg, (hout.held 0 t).mpr (Or.inr ⟨rfl, rfl⟩), hempty⟩

/-- What `block_to_msg_queue` leaves in the block. -/
structure EmptyQueue (m : Shm) (q : Nat) : Prop where
  start : m.queueStart q = 0
  tail : m.queueEnd q = 0
  entry : ∀ k < messageBufferSize, m.word (bufferSlot q k) = 0

/-- `block_to_msg_queue` writes words of its block. -/
theorem blockToMsgQueue_word {q v a : Nat} (ha : ∀ d < 192, a ≠ q + d) : (blockToMsgQueue q v m).word a = m.word a := by
  have hids : ((((popBlock q (pageOf q) m).setSenderId q v).setReceiverId q 0).word a) = m.word a := by
    have hne : a ≠ q + 16 := ha 16 (by decide)
    rw [Shm.setReceiverId, Shm.store_word, Function.update_of_ne hne, Shm.setSenderId, Shm.store_word,
      Function.update_of_ne hne]
    rfl
  have haq : a ≠ q := ha 0 (by decide)
  unfold blockToMsgQueue
  simp only
  rw [Shm.zeroWords_word_of_ne, Shm.store_word, Function.update_of_ne (ha 8 (by decide)), Shm.store_word,
    Function.update_of_ne haq, hids]
  intro k hk
  simp only [messageBufferSize] at hk
  rw [Nat.add_assoc]
  exact ha _ (by omega)

theorem blockToMsgQueue_empty (q v : Nat) (m : Shm) : EmptyQueue (blockToMsgQueue q v m) q := by
  refine ⟨?_, ?_, fun k hk => ?_⟩
  · have hstart : (blockToMsgQueue q v m).word q = 0 := by
      unfold blockToMsgQueue
      simp only
      rw [Shm.zeroWords_word_of_ne (by intro k hk; omega), Shm.store_word, Function.update_of_ne (by omega),
        Shm.store_word, Function.update_self]
    exact hstart
  · have hend : (blockToMsgQueue q v m).word (q + 8) = 0 := by
      unfold blockToMsgQueue
      simp only
      rw [Shm.zeroWords_word_of_ne (by intro k hk; omega), Shm.store_word, Function.update_self]
    exact hend
  · have hslot : bufferSlot q k = (q + 24) + 8 * (k + 2) := by
      unfold bufferSlot
      omega
    unfold blockToMsgQueue
    simp only
    rw [hslot, Shm.zeroWords_word_self (by omega)]

/-- **A block is taken from a page and filled.** -/
theorem HeapOk.take (h : HeapOk K m G H) (hu : u ∈ K.clients) {pg : Nat × Nat} (hb : b < cxlBinSize) (hb2 : b ≠ 2)
    (hrun : cxlPageMalloc fuel u size (.bin b) (cxlFindPage u (.bin b) m) m = some (x, pg, m₁))
    (hqueue : ∀ v q, m'.queue v q = m₁.queue v q) (hsas : m'.sas = m₁.sas) (hera : m'.eraCell = m₁.eraCell)
    (hseg : pageOf x = pg → m'.segment = (popBlock x pg m₁).segment)
    (hword : ∀ a, (∀ d < binSize b, a ≠ x + d) → m'.word a = m₁.word a) (hframe : CallFrame m m') :
    ∃ L, Grown K b x (fun _ => False) m m' G (Function.update G u L) := by
  have hpu := h.pools u hu
  obtain ⟨hk₁, hown⟩ := cxlPageMalloc_own hpu hb hb2 hrun
  obtain ⟨G₁, l, h₁, hre, hpg, hF⟩ := hpu.pageMalloc hb hb2 hrun
  obtain rfl : pageOf x = pg := h₁.inv.page_eq hpg (List.mem_append_left _ (by rw [hF]; exact List.mem_cons_self))
  -- the block comes off its list, and then it is written to
  obtain ⟨h₂, hout⟩ : Pool u (popBlock x (pageOf x) m₁) (G₁.pop (pageOf x)) ∧
      HandedOut b x [x] m (popBlock x (pageOf x) m₁) (G u) (G₁.pop (pageOf x)) :=
    Pool.handOut hpu.inv h₁ hre hpg hF List.mem_cons_self rfl rfl rfl fun a ha => absurd rfl ha
  have hk₂ : KeepsOthers u m (popBlock x (pageOf x) m₁) := hk₁.trans (.popBlock hown)
  have hpools₂ := h.pools.handOut hu h₂ hout hk₂
  have hfresh := h.pools.handOut_fresh hu h₂ hout hk₂
  have hheldBy : HeldBy K (Function.update G u (G₁.pop (pageOf x))) b x := (hout.heldBy hu).mpr (Or.inr ⟨rfl, rfl⟩)
  have hpools : Pools K m' (Function.update G u (G₁.pop (pageOf x))) := by
    refine hpools₂.use (fun v q => ?_) hsas (hseg rfl) fun z hz => hword z fun d hd => ?_
    · exact hqueue v q
    · exact hpools₂.held_add_ne hheldBy hz hd
  refine ⟨_, hpools, fun k z => hout.heldBy hu, hfresh, fun k z d hz hd _ => ?_, fun a ha => ?_, fun k => ?_,
    hframe.noneLeaking h.leaking, hframe.ends⟩
  · have hz' := (hout.heldBy hu (k := k) (y := z)).mpr (Or.inl hz)
    have hne : k ≠ b ∨ z ≠ x := by
      by_contra hno
      rw [not_or, not_not, not_not] at hno
      exact hfresh k (hno.2 ▸ hz)
    rw [hword _ fun e he => hpools₂.held_apart hz' hheldBy hne hd he]
    show (popBlock x (pageOf x) m₁).word (z + d) = m.word (z + d)
    refine h.pools.handOut_word hu h₂ hout hk₂ hz ?_ hd
    rw [List.mem_singleton]
    rintro rfl
    exact hfresh k hz
  · have hlo := hheldBy.area
    rw [hword a fun d hd => by omega]
    exact hout.below ha
  · rw [hera, hre.eraCell]
    exact h.era k

/-- **`msg_queue_alloc`.** -/
theorem HeapOk.msgQueueAlloc (h : HeapOk K m G H) (hu : u ∈ K.clients) {v : Nat}
    (hrun : msgQueueAlloc fuel u size v m = some (x, m')) :
    ∃ L H', HeapOk K m' (Function.update G u L) H' ∧ H'.emb = H.emb ∧ H'.objs = H.objs ∧
      Grown K 1 x (fun _ => False) m m' G (Function.update G u L) ∧ EmptyQueue m' x := by
  have hframe : CallFrame m m' := .msgQueueAlloc hrun
  simp only [CxlShm.msgQueueAlloc, Option.bind_eq_bind, Option.bind_eq_some_iff] at hrun
  obtain ⟨⟨y, pg, m₁⟩, hrun, hres⟩ := hrun
  simp only [Option.some.injEq, Prod.mk.injEq] at hres
  obtain ⟨rfl, rfl⟩ := hres
  have hbin : cxlPageQueue true sizeofMessageQueue = 1 := rfl
  rw [hbin] at hrun
  have hsize : binSize 1 = 192 := rfl
  obtain ⟨L, hg⟩ : ∃ L, Grown K 1 y (fun _ => False) m (blockToMsgQueue y v m₁) G (Function.update G u L) := by
    refine h.take hu (b := 1) (by decide) (by decide) hrun (fun _ _ => rfl) rfl rfl (fun hpg => ?_) (fun a ha => ?_) hframe
    · subst hpg
      rfl
    · exact blockToMsgQueue_word fun d hd => ha d (by omega)
  obtain ⟨H', h', hemb, hobj⟩ := h.grow hg (by decide) (by
    rintro a (⟨h10, -⟩ | ⟨-, k, hk, rfl⟩)
    · cases h10
    · exact (blockToMsgQueue_empty y v m₁).entry k hk)
  exact ⟨L, H', h', hemb, hobj, hg, blockToMsgQueue_empty y v m₁⟩

/-- **A new object** with its first reference, the RootRef `t`. -/
theorem HeapOk.newObject (h : HeapOk K m G H) (hg : Grown K b x (fun a => ∃ d < 16, a = t + d) m m' G G') (hb : 3 ≤ b)
    (ht : HeldBy K G 0 t) (hempty : m.word t = 0) (hstored : m'.word t = x) (hcount : m'.refCnt x = 1) {n : Nat}
    (hembedded : m'.word (x + 16) = n) (hslots : ∀ k < n, m'.word (embeddedSlot x k) = 0)
    (hfit : sizeofCxlObj + 8 * n ≤ binSize b) :
    ∃ H', HeapOk K m' G' H' ∧ H'.emb = Function.update H.emb x n := by
  have hfits : ∀ k y, 3 ≤ k → HeldBy K G' k y → sizeofCxlObj + 8 * Function.update H.emb x n y ≤ binSize k := by
    intro k y hk hy
    rcases (hg.held k y).mp hy with hy | ⟨rfl, rfl⟩
    · have hne : y ≠ x := fun he => hg.fresh k (he ▸ hy)
      rw [Function.update_of_ne hne]
      exact h.view.fits k y hk hy
    · rw [Function.update_self]
      exact hfit
  obtain ⟨H', hv', hemb⟩ := hg.pools.exists_view (Function.update H.emb x n) hfits
  have hobj : ∀ o, o ∈ H'.objs ↔ o ∈ H.objs ∨ o = x := by
    intro o
    rw [hv'.obj, h.view.obj]
    constructor
    · rintro ⟨hni, k, hk, ho⟩
      exact ((hg.held k o).mp ho).imp (fun ho => ⟨hni, k, hk, ho⟩) And.right
    · rintro (⟨hni, k, hk, ho⟩ | rfl)
      · exact ⟨hni, k, hk, (hg.held k o).mpr (Or.inl ho)⟩
      · refine ⟨fun hi => ?_, b, hb, (hg.held b o).mpr (Or.inr ⟨rfl, rfl⟩)⟩
        obtain ⟨k, -, ho⟩ := h.index o hi
        exact hg.fresh k ho
  have hfresh : x ∉ H.objs := by
    intro hx
    obtain ⟨-, k, -, hx⟩ := (h.view.obj x).mp hx
    exact hg.fresh k hx
  have hroots : H'.roots = H.roots := by
    ext a
    rw [hv'.root, h.view.root, hg.isRoot]
    refine ⟨fun ha => ha.resolve_right ?_, Or.inl⟩
    rintro (⟨rfl, -⟩ | ⟨rfl, -⟩) <;> omega
  have htslot : t ∈ H.slots := ObjHeap.root_mem ((h.view.root t).mpr (Or.inl ht))
  -- of the RootRef only its first word is one of the heap's
  have hsame : ∀ w, H.Touches w → w ≠ t → m'.word w = m.word w := by
    intro w hw hwt
    apply hg.touched h.view hw
    rintro ⟨d, hd, rfl⟩
    have := h.view.touches h.pools ht hd hw
    omega
  have hintro : Introduced H H' m t x m' := by
    refine ⟨hobj, hroots, fun o ho => ?_, hfresh, hstored, fun a ha hat => hsame a (Or.inl ha) hat, fun o ho j hj => ?_,
      hcount, ?_, fun k hk => ?_⟩
    · rw [hemb, Function.update_of_ne]
      rintro rfl
      exact hfresh ho
    · exact hsame _ (Or.inr ⟨o, ho, j, hj, rfl⟩) (ObjHeap.slot_ne_header htslot ho hj).symm
    · rw [hemb, Function.update_self]
      exact hembedded
    · rw [hemb, Function.update_self] at hk
      exact hslots k hk
  refine ⟨H', ⟨hg.pools, hv', ?_, fun o ho => ?_, hg.era, hg.leaking, fun y hy => ?_⟩, hemb⟩
  · exact hintro.exact h.exact htslot hempty fun p hp hdead => absurd hdead (h.live p hp)
  · rcases (hobj o).mp ho with ho | rfl
    · rw [Shm.refCnt_of_header (hintro.header o ho)]
      exact h.live o ho
    · rw [hcount]
      decide
  · obtain ⟨k, hk, hy⟩ := h.index y hy
    exact ⟨k, hk, (hg.held k y).mpr (Or.inl hy)⟩

/-- **`cxl_ref_alloc`** of an object whose embedded references the caller clears. -/
theorem HeapOk.cxlRefAlloc (h : HeapOk K m G H) (hu : u ∈ K.clients) (ht : (G u).Held 0 t) (hempty : m.word t = 0)
    {bs n : Nat} {r : CxlRef} (hlarge : 3 ≤ cxlPageQueue false bs)
    (hfit : sizeofCxlObj + 8 * n ≤ binSize (cxlPageQueue false bs))
    (hrun : cxlRefAlloc fuel u size t bs n m = some (r, m')) :
    ∃ L x H', r = ⟨t, x + sizeofCxlObj⟩ ∧ HeapOk K (m'.zeroWords (x + sizeofCxlObj) n) (Function.update G u L) H' ∧
      H'.emb = Function.update H.emb x n ∧
      Grown K (cxlPageQueue false bs) x (fun a => ∃ d < 16, a = t + d) m (m'.zeroWords (x + sizeofCxlObj) n) G
        (Function.update G u L) ∧
      (m'.zeroWords (x + sizeofCxlObj) n).word t = x ∧
      (m'.zeroWords (x + sizeofCxlObj) n).inUse t = m.inUse t ∧
      (m'.zeroWords (x + sizeofCxlObj) n).rootRefCnt t = (m.rootRefCnt t + 1) % 2 ^ 16 := by
  have hframe : CallFrame m m' := .cxlRefAlloc hrun
  have hk : KeepsOthers u m m' := cxlRefAlloc_others (h.pools u hu) hlarge hrun
  obtain ⟨L, x, h', -, hr, hout, hmade⟩ := (h.pools u hu).cxlRefAlloc ht hlarge hrun
  generalize hbin : cxlPageQueue false bs = b at *
  have hpools := h.pools.handOut hu h' hout hk
  have hheld : ∀ k y, HeldBy K (Function.update G u L) k y ↔ HeldBy K G k y ∨ k = b ∧ y = x := fun k y =>
    hout.heldBy hu
  have hx : HeldBy K (Function.update G u L) b x := (hheld b x).mpr (Or.inr ⟨rfl, rfl⟩)
  have hfresh := h.pools.handOut_fresh hu h' hout hk
  have htBy : HeldBy K G 0 t := ⟨u, hu, ht⟩
  have hlargeb := binSize_large hlarge
  -- the slots lie behind the header, inside the block
  have hzero : ∀ a, (∀ d < binSize b, sizeofCxlObj ≤ d → a ≠ x + d) →
      (m'.zeroWords (x + sizeofCxlObj) n).word a = m'.word a := by
    intro a ha
    refine Shm.zeroWords_word_of_ne fun k hkn => ?_
    rw [Nat.add_assoc]
    exact ha _ (by omega) (by omega)
  have hpools' : Pools K (m'.zeroWords (x + sizeofCxlObj) n) (Function.update G u L) := by
    refine hpools.use (fun _ _ => rfl) rfl rfl fun y hy => hzero y fun d hd _ => ?_
    exact hpools.held_add_ne hx hy hd
  have hout_of : ∀ k y d, HeldBy K G k y → d < binSize k →
      (m'.zeroWords (x + sizeofCxlObj) n).word (y + d) = m'.word (y + d) := by
    intro k y d hy hd
    refine hzero _ fun e he _ => hpools.held_apart ((hheld k y).mpr (Or.inl hy)) hx ?_ hd he
    by_contra hno
    rw [not_or, not_not, not_not] at hno
    exact hfresh k (hno.2 ▸ hy)
  have hg : Grown K b x (fun a => ∃ d < 16, a = t + d) m (m'.zeroWords (x + sizeofCxlObj) n) G
      (Function.update G u L) := by
    refine ⟨hpools', hheld, hfresh, fun k y d hy hd hX => ?_, fun a ha => ?_, fun k => ?_,
      hframe.noneLeaking h.leaking, hframe.ends⟩
    · rw [hout_of k y d hy hd]
      refine h.pools.handOut_word hu h' hout hk hy ?_ hd
      rw [List.mem_cons, List.mem_singleton]
      rintro (rfl | rfl)
      · obtain rfl := h.pools.held_unique htBy hy
        exact hX ⟨d, hd, rfl⟩
      · exact hfresh k hy
    · rw [hzero a fun d _ _ => by have := hx.area; omega]
      exact hout.below ha
    · have hera : (m'.zeroWords (x + sizeofCxlObj) n).eraCell = m'.eraCell := rfl
      rw [hera, hmade.era]
      exact h.era.storeEra (Nat.mod_lt _ (by decide)) k
  have hword_t : ∀ d < 16, (m'.zeroWords (x + sizeofCxlObj) n).word (t + d) = m'.word (t + d) := fun d hd =>
    hout_of 0 t d htBy hd
  have hheader : ∀ d < sizeofCxlObj, (m'.zeroWords (x + sizeofCxlObj) n).word (x + d) = m'.word (x + d) := by
    intro d hd
    exact hzero _ fun e _ he => by omega
  have hcount : (m'.zeroWords (x + sizeofCxlObj) n).refCnt x = 1 := by
    rw [Shm.refCnt, Shm.refInfo, hheader 8 (by decide)]
    have hinfo : m'.word (x + 8) = packRefInfo u 1 (m.era u u) := hmade.info
    rw [hinfo]
    exact getRefCntFromInfo_pack (K.id_lt u hu) (by decide) (h.era _)
  obtain ⟨H', h'', hemb⟩ := h.newObject hg hlarge htBy hempty ((hword_t 0 (by decide)).trans hmade.pptr) hcount
    ((hheader 16 (by decide)).trans hmade.embedded) (fun k hkn => Shm.zeroWords_word_self hkn) hfit
  refine ⟨L, x, H', hr, h'', hemb, hg, (hword_t 0 (by decide)).trans hmade.pptr, ?_, ?_⟩
  · rw [← hmade.inUse, Shm.inUse, Shm.inUse, hword_t 8 (by decide)]
  · rw [← hmade.refCnt, Shm.rootRefCnt, Shm.rootRefCnt, hword_t 8 (by decide)]

end Calls

end CxlShm
