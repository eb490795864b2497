import CxlShm.State
import CxlShm.Lib.SlotCount
import Mathlib.Data.Finset.Union
import Mathlib.Order.Lattice.Nat

/-! # Heap — objects, slots and counts

The picture the reference-counting results share: allocated objects with their embedded references,
the other words that refer to objects (RootRefs, queue entries, hash chains), and the equation between
the count of an object and the number of slots that point to it.
-/

namespace CxlShm

open SlotCount

/-- The offset of embedded reference `k` of the object at `o`. -/
def embeddedSlot (o k : Nat) : Nat := o + sizeofCxlObj + 8 * k

/-- A set of objects with their number of embedded references, and the slots outside them. -/
structure ObjHeap where
  objs : Finset Nat
  emb : Nat → Nat
  roots : Finset Nat
  root_outside : ∀ a ∈ roots, ∀ o ∈ objs, a < o ∨ embeddedSlot o (emb o) ≤ a
  objs_apart : ∀ o ∈ objs, ∀ o' ∈ objs, o ≠ o' →
    embeddedSlot o (emb o) ≤ o' ∨ embeddedSlot o' (emb o') ≤ o
  zero_not_obj : 0 ∉ objs

namespace ObjHeap

variable {H : ObjHeap}

def embedded (H : ObjHeap) (o : Nat) : Finset Nat := (Finset.range (H.emb o)).image (embeddedSlot o)

/-- Every slot, those of freed objects included. -/
def slots (H : ObjHeap) : Finset Nat := H.roots ∪ H.objs.biUnion H.embedded

/-- The slots that count: the roots and the embedded references of objects still alive. -/
def liveSlots (H : ObjHeap) (m : Shm) : Finset Nat :=
  H.roots ∪ (H.objs.filter fun o => m.refCnt o ≠ 0).biUnion H.embedded

/-! ## §1 — slots and headers lie apart -/

theorem mem_slots {a : Nat} : a ∈ H.slots ↔ a ∈ H.roots ∨
    ∃ o ∈ H.objs, ∃ k < H.emb o, a = embeddedSlot o k := by
  simp only [slots, embedded, Finset.mem_union, Finset.mem_biUnion, Finset.mem_image,
    Finset.mem_range]
  constructor
  · rintro (h | ⟨o, ho, k, hk, rfl⟩)
    · exact Or.inl h
    · exact Or.inr ⟨o, ho, k, hk, rfl⟩
  · rintro (h | ⟨o, ho, k, hk, rfl⟩)
    · exact Or.inl h
    · exact Or.inr ⟨o, ho, k, hk, rfl⟩

theorem root_mem {a : Nat} (ha : a ∈ H.roots) : a ∈ H.slots := mem_slots.mpr (Or.inl ha)

theorem embeddedSlot_mem {o k : Nat} (ho : o ∈ H.objs) (hk : k < H.emb o) :
    embeddedSlot o k ∈ H.slots :=
  mem_slots.mpr (Or.inr ⟨o, ho, k, hk, rfl⟩)

theorem embeddedSlot_inj {o o' k k' : Nat} (ho : o ∈ H.objs) (ho' : o' ∈ H.objs) (hk : k < H.emb o)
    (hk' : k' < H.emb o') (h : embeddedSlot o k = embeddedSlot o' k') : o = o' ∧ k = k' := by
  by_cases hoo : o = o'
  · subst hoo
    simp only [embeddedSlot] at h
    exact ⟨rfl, by omega⟩
  · have := H.objs_apart o ho o' ho' hoo
    simp only [embeddedSlot, sizeofCxlObj] at *
    omega

theorem root_ne_embeddedSlot {a o k : Nat} (ha : a ∈ H.roots) (ho : o ∈ H.objs)
    (hk : k < H.emb o) : a ≠ embeddedSlot o k := by
  have := H.root_outside a ha o ho
  simp only [embeddedSlot, sizeofCxlObj] at *
  omega

/-- No slot is a word of a header. -/
theorem slot_ne_header {a o j : Nat} (ha : a ∈ H.slots) (ho : o ∈ H.objs) (hj : j < 3) :
    a ≠ o + 8 * j := by
  rcases mem_slots.mp ha with hr | ⟨o', ho', k, hk, rfl⟩
  · have := H.root_outside a hr o ho
    simp only [embeddedSlot, sizeofCxlObj] at *
    omega
  · by_cases hoo : o = o'
    · simp only [embeddedSlot, sizeofCxlObj]
      omega
    · have := H.objs_apart o ho o' ho' hoo
      simp only [embeddedSlot, sizeofCxlObj] at *
      omega

theorem header_apart {o o' j l : Nat} (ho : o ∈ H.objs) (ho' : o' ∈ H.objs) (hoo : o ≠ o')
    (hj : j < 3) (hl : l < 3) : o + 8 * j ≠ o' + 8 * l := by
  have := H.objs_apart o ho o' ho' hoo
  simp only [embeddedSlot, sizeofCxlObj] at this
  omega

/-! ## §2 — what freed objects contribute -/

/-- If freed objects refer to nothing, their slots do not matter to the count. -/
theorem holding_liveSlots {m : Shm}
    (hrel : ∀ o ∈ H.objs, m.refCnt o = 0 → ∀ k < H.emb o, m.word (embeddedSlot o k) = 0) {o : Nat}
    (ho : o ∈ H.objs) : holding (H.liveSlots m) m.word o = holding H.slots m.word o := by
  have hne : o ≠ 0 := fun h0 => H.zero_not_obj (h0 ▸ ho)
  refine holding_of_subset ?_ ?_
  · refine Finset.union_subset_union_right ?_
    exact Finset.biUnion_subset_biUnion_of_subset_left _ (Finset.filter_subset _ _)
  · intro a ha hnot hw
    rcases mem_slots.mp ha with hroot | ⟨p, hp, k, hk, rfl⟩
    · exact hnot (Finset.mem_union_left _ hroot)
    · refine hnot (Finset.mem_union_right _ (Finset.mem_biUnion.mpr ⟨p, ?_, ?_⟩))
      · refine Finset.mem_filter.mpr ⟨hp, fun h0 => ?_⟩
        rw [hrel p hp h0 k hk] at hw
        exact hne hw.symm
      · exact Finset.mem_image.mpr ⟨k, Finset.mem_range.mpr hk, rfl⟩

end ObjHeap

/-- A store outside the stamp of an object leaves its count alone. -/
theorem store_refCnt_of_ne {m : Shm} {a v o : Nat} (h : o + 8 ≠ a) :
    (m.store a v).refCnt o = m.refCnt o := by
  unfold Shm.refCnt Shm.refInfo
  rw [Shm.store_word, Function.update_of_ne h]

end CxlShm
