import CxlShm.Release

/-! # HeapSteps — an exact heap gains and loses references

What the other operations do to an exact heap: a slot is linked, a new object comes with its first
slot, empty slots come into view, and what has died goes out of it.
-/

namespace CxlShm

open SlotCount

/-! ## §1 — a slot is linked -/

/-- What `link_reference` does to the empty slot at `a` and the object `o`. -/
structure SlotLinked (H : ObjHeap) (m : Shm) (a o : Nat) (m' : Shm) : Prop where
  stored : m'.word a = o
  slot : ∀ b ∈ H.slots, b ≠ a → m'.word b = m.word b
  other : ∀ p ∈ H.objs, p ≠ o → ∀ j < 3, m'.word (p + 8 * j) = m.word (p + 8 * j)
  count : m'.refCnt o = m.refCnt o + 1
  embedded : m'.word (o + 16) = m.word (o + 16)

section Link

variable {H : ObjHeap} {m m' : Shm} {a o : Nat}

theorem SlotLinked.refCnt_of_ne (h : SlotLinked H m a o m') {p : Nat} (hp : p ∈ H.objs) (hne : p ≠ o) :
    m'.refCnt p = m.refCnt p :=
  Shm.refCnt_of_header (h.other p hp hne)

/-- **Linking an empty slot to a live object keeps the heap exact.** -/
theorem SlotLinked.exact (h : SlotLinked H m a o m') (hx : HeapExact H m) (ha : a ∈ H.slots) (ho : o ∈ H.objs)
    (hlive : m.refCnt o ≠ 0) (hempty : m.word a = 0) (hout : ∀ p ∈ H.objs, m.refCnt p = 0 →
      ∀ k < H.emb p, a ≠ embeddedSlot p k) : HeapExact H m' := by
  have hcount := h.count
  have hslot : ∀ b ∈ H.slots, m'.word b = Function.update m.word a o b := by
    intro b hb
    by_cases hba : b = a
    · rw [hba, Function.update_self]
      exact h.stored
    · rw [Function.update_of_ne hba]
      exact h.slot b hb hba
  refine ⟨?_, ?_, ?_, ?_⟩
  · intro b hb
    by_cases hba : b = a
    · rw [hba, h.stored]
      exact Or.inr ho
    · rw [h.slot b hb hba]
      exact hx.target b hb
  · intro p hp hp'
    by_cases hpo : p = o
    · subst hpo
      rw [h.embedded]
      exact hx.embedded p hp hlive
    · rw [h.refCnt_of_ne hp hpo] at hp'
      have hsame : m'.word (p + 16) = m.word (p + 16) := h.other p hp hpo 2 (by decide)
      rw [hsame]
      exact hx.embedded p hp hp'
  · -- one store at `a`, which held nothing
    intro p hp
    have hupd := holding_update_mem m.word o p ha
    rw [← holding_congr p hslot, hempty, hit_ne (HeapExact.ne_zero hp).symm, ← hx.count p hp] at hupd
    by_cases hpo : p = o
    · rw [hpo] at hupd ⊢
      rw [hit_self] at hupd
      omega
    · rw [hit_ne (Ne.symm hpo)] at hupd
      rw [h.refCnt_of_ne hp hpo]
      omega
  · intro p hp hdead k hk
    by_cases hpo : p = o
    · subst hpo
      omega
    · rw [h.refCnt_of_ne hp hpo] at hdead
      rw [h.slot _ (ObjHeap.embeddedSlot_mem hp hk) (hout p hp hdead k hk).symm]
      exact hx.dead p hp hdead k hk

/-- The stores of `link_reference`: the new stamp, then the slot. -/
theorem SlotLinked.of_stores {v : Nat} (ha : a ∈ H.slots) (ho : o ∈ H.objs)
    (hv : getRefCntFromInfo v = m.refCnt o + 1)
    (hw : m'.word = Function.update (Function.update m.word (o + 8) v) a o) : SlotLinked H m a o m' := by
  have hne : ∀ p ∈ H.objs, ∀ j < 3, p + 8 * j ≠ a := fun p hp j hj => (ObjHeap.slot_ne_header ha hp hj).symm
  have hkeep : ∀ w, w ≠ a → w ≠ o + 8 → m'.word w = m.word w := by
    intro w hwa hwo
    rw [hw, Function.update_of_ne hwa, Function.update_of_ne hwo]
  refine ⟨?_, ?_, ?_, ?_, ?_⟩
  · rw [hw, Function.update_self]
  · intro b hb hba
    exact hkeep b hba (ObjHeap.slot_ne_header hb ho (j := 1) (by decide))
  · intro p hp hpo j hj
    exact hkeep _ (hne p hp j hj) (ObjHeap.header_apart (l := 1) hp ho hpo hj (by decide))
  · rw [← hv, Shm.refCnt, Shm.refInfo, hw, Function.update_of_ne (hne o ho 1 (by decide)), Function.update_self]
  · exact hkeep _ (hne o ho 2 (by decide)) (by omega)

end Link

/-! ## §2 — the heap is looked at again -/

section Change

variable {H H' : ObjHeap} {m m' : Shm}

/-- What is in both views is the same; what is new is empty, and what has gone referred to nothing
that is left. -/
structure Reviewed (H H' : ObjHeap) (m m' : Shm) : Prop where
  obj : ∀ o ∈ H'.objs, o ∈ H.objs ∧ H'.emb o = H.emb o
  header : ∀ o ∈ H'.objs, ∀ j < 3, m'.word (o + 8 * j) = m.word (o + 8 * j)
  slot : ∀ a ∈ H'.slots, a ∈ H.slots → m'.word a = m.word a
  new : ∀ a ∈ H'.slots, a ∉ H.slots → m'.word a = 0
  gone : ∀ a ∈ H.slots, a ∉ H'.slots → m.word a ∉ H'.objs
  left : ∀ o ∈ H.objs, o ∉ H'.objs → m.refCnt o = 0

/-- **A heap reviewed is exact.** -/
theorem Reviewed.exact (h : Reviewed H H' m m') (hx : HeapExact H m) : HeapExact H' m' := by
  have hcnt : ∀ o ∈ H'.objs, m'.refCnt o = m.refCnt o := fun o ho => Shm.refCnt_of_header (h.header o ho)
  refine ⟨?_, ?_, ?_, ?_⟩
  · intro a ha
    by_cases hold : a ∈ H.slots
    · rw [h.slot a ha hold]
      rcases hx.target a hold with hz | ho
      · exact Or.inl hz
      · by_contra hno
        rw [not_or] at hno
        have hpos := hx.refCnt_pos hold ho
        have := h.left _ ho hno.2
        omega
    · exact Or.inl (h.new a ha hold)
  · intro o ho hlive
    rw [hcnt o ho] at hlive
    obtain ⟨ho', hemb⟩ := h.obj o ho
    have hword : m'.word (o + 16) = m.word (o + 16) := h.header o ho 2 (by decide)
    rw [hword, hemb]
    exact hx.embedded o ho' hlive
  · intro o ho
    rw [hcnt o ho, hx.count o (h.obj o ho).1]
    -- both counts are those of the slots in both views
    have hold : holding (H.slots ∩ H'.slots) m.word o = holding H.slots m.word o := by
      apply holding_of_subset Finset.inter_subset_left
      intro a ha hnot hw
      have hgone := h.gone a ha fun ha' => hnot (Finset.mem_inter.mpr ⟨ha, ha'⟩)
      exact hgone (hw ▸ ho)
    have hnew : holding (H.slots ∩ H'.slots) m'.word o = holding H'.slots m'.word o := by
      apply holding_of_subset Finset.inter_subset_right
      intro a ha hnot hw
      have hz := h.new a ha fun ha' => hnot (Finset.mem_inter.mpr ⟨ha', ha⟩)
      exact HeapExact.ne_zero ho (hw.symm.trans hz)
    rw [← hold, ← hnew]
    apply holding_congr
    intro a ha
    obtain ⟨ha, ha'⟩ := Finset.mem_inter.mp ha
    exact (h.slot a ha' ha).symm
  · intro o ho hdead k hk
    rw [hcnt o ho] at hdead
    obtain ⟨ho', hemb⟩ := h.obj o ho
    rw [hemb] at hk
    have hz := hx.dead o ho' hdead k hk
    have hmem' : embeddedSlot o k ∈ H'.slots := ObjHeap.embeddedSlot_mem ho (by rw [hemb]; exact hk)
    rw [h.slot _ hmem' (ObjHeap.embeddedSlot_mem ho' hk)]
    exact hz

/-! ## §3 — a new object -/

/-- The object `x` comes into view, and the slot `a`, empty before, is its one reference. -/
structure Introduced (H H' : ObjHeap) (m : Shm) (a x : Nat) (m' : Shm) : Prop where
  obj : ∀ o, o ∈ H'.objs ↔ o ∈ H.objs ∨ o = x
  root : H'.roots = H.roots
  emb : ∀ o ∈ H.objs, H'.emb o = H.emb o
  fresh : x ∉ H.objs
  stored : m'.word a = x
  slot : ∀ b ∈ H.slots, b ≠ a → m'.word b = m.word b
  header : ∀ o ∈ H.objs, ∀ j < 3, m'.word (o + 8 * j) = m.word (o + 8 * j)
  count : m'.refCnt x = 1
  embedded : m'.word (x + 16) = H'.emb x
  empty : ∀ k < H'.emb x, m'.word (embeddedSlot x k) = 0

theorem Introduced.mem_slots {a x b : Nat} (h : Introduced H H' m a x m') :
    b ∈ H'.slots ↔ b ∈ H.slots ∨ ∃ k < H'.emb x, b = embeddedSlot x k := by
  rw [ObjHeap.mem_slots, ObjHeap.mem_slots, h.root]
  constructor
  · rintro (hr | ⟨o, ho, k, hk, rfl⟩)
    · exact Or.inl (Or.inl hr)
    · rcases (h.obj o).mp ho with ho | rfl
      · rw [h.emb o ho] at hk
        exact Or.inl (Or.inr ⟨o, ho, k, hk, rfl⟩)
      · exact Or.inr ⟨k, hk, rfl⟩
  · rintro ((hr | ⟨o, ho, k, hk, rfl⟩) | ⟨k, hk, rfl⟩)
    · exact Or.inl hr
    · exact Or.inr ⟨o, (h.obj o).mpr (Or.inl ho), k, by rw [h.emb o ho]; exact hk, rfl⟩
    · exact Or.inr ⟨x, (h.obj x).mpr (Or.inr rfl), k, hk, rfl⟩

/-- **A heap with a new object is exact.** -/
theorem Introduced.exact {a x : Nat} (h : Introduced H H' m a x m') (hx : HeapExact H m) (ha : a ∈ H.slots)
    (hempty : m.word a = 0) (hout : ∀ p ∈ H.objs, m.refCnt p = 0 → ∀ k < H.emb p, a ≠ embeddedSlot p k) :
    HeapExact H' m' := by
  have hcnt : ∀ o ∈ H.objs, m'.refCnt o = m.refCnt o := fun o ho => Shm.refCnt_of_header (h.header o ho)
  have hx0 : x ≠ 0 := HeapExact.ne_zero ((h.obj x).mpr (Or.inr rfl))
  have hsub : H.slots ⊆ H'.slots := fun b hb => h.mem_slots.mpr (Or.inl hb)
  have hslot : ∀ b ∈ H.slots, m'.word b = Function.update m.word a x b := by
    intro b hb
    by_cases hba : b = a
    · rw [hba, Function.update_self]
      exact h.stored
    · rw [Function.update_of_ne hba]
      exact h.slot b hb hba
  -- the slots of the new object hold nothing
  have hcount : ∀ o, o ≠ 0 → holding H'.slots m'.word o = holding H.slots (Function.update m.word a x) o := by
    intro o ho
    rw [← holding_congr o hslot]
    symm
    apply holding_of_subset hsub
    intro b hb hnot hw
    rcases h.mem_slots.mp hb with hb | ⟨k, hk, rfl⟩
    · exact hnot hb
    · exact ho (hw.symm.trans (h.empty k hk))
  refine ⟨?_, ?_, ?_, ?_⟩
  · intro b hb
    rcases h.mem_slots.mp hb with hb | ⟨k, hk, rfl⟩
    · by_cases hba : b = a
      · rw [hba, h.stored]
        exact Or.inr ((h.obj x).mpr (Or.inr rfl))
      · rw [h.slot b hb hba]
        exact (hx.target b hb).imp_right fun ho => (h.obj _).mpr (Or.inl ho)
    · exact Or.inl (h.empty k hk)
  · intro o ho hlive
    rcases (h.obj o).mp ho with ho | rfl
    · rw [hcnt o ho] at hlive
      have hword : m'.word (o + 16) = m.word (o + 16) := h.header o ho 2 (by decide)
      rw [hword, h.emb o ho]
      exact hx.embedded o ho hlive
    · exact h.embedded
  · intro o ho
    rw [hcount o (HeapExact.ne_zero ho)]
    have hupd := holding_update_mem m.word x o ha
    rw [hempty, hit_ne (HeapExact.ne_zero ho).symm, Nat.add_zero] at hupd
    rw [hupd]
    rcases (h.obj o).mp ho with ho | rfl
    · have hne : x ≠ o := fun he => h.fresh (he ▸ ho)
      rw [hit_ne hne, hcnt o ho, hx.count o ho, Nat.add_zero]
    · -- nothing referred to it before
      have hnone : holding H.slots m.word o = 0 := by
        rw [holding_eq_zero_iff]
        intro b hb hw
        rcases hx.target b hb with hz | hobj
        · exact hx0 (hw.symm.trans hz)
        · exact h.fresh (hw ▸ hobj)
      rw [hnone, hit_self, h.count]
  · intro o ho hdead k hk
    rcases (h.obj o).mp ho with ho | rfl
    · rw [hcnt o ho] at hdead
      rw [h.emb o ho] at hk
      have hmem := ObjHeap.embeddedSlot_mem (H := H) ho hk
      rw [h.slot _ hmem (hout o ho hdead k hk).symm]
      exact hx.dead o ho hdead k hk
    · exact h.empty k hk

end Change

end CxlShm
