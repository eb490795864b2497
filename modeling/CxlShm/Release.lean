import CxlShm.Heap
import CxlShm.Lib.Loop
import Mathlib.Data.Finset.Lattice.Fold

/-! # Release — dropping a slot and everything that dies with it

`test_free` and `recovery_test_free` are one recursion: a slot whose object has other references is
unlinked; the last reference first releases every embedded reference of the object. They differ in how
a slot is unlinked and in what they do with an object of count 0.

On a heap whose counts equal the number of slots the recursion ends, keeps the counts equal to the
slots, and clears nothing but its own slot and the slots of objects that die. Its activations form a
path: each holds the only slot on its object, so no object is met twice.
-/

namespace CxlShm

open SlotCount Loop

/-! ## §1 — the recursion -/

/-- `for(i=0; i<refed->embedded_ref_cnt; i++) body(slot i of refed)`; the bound is read each round. -/
def forEmbedded (body : Nat → Shm → Option Shm) (refed fuel : Nat) (m : Shm) : Option Shm :=
  (whileM (fun p : Nat × Shm => decide (p.1 < p.2.word (refed + 16)))
    (fun p => (body (embeddedSlot refed p.1) p.2).map fun m' => (p.1 + 1, m')) fuel (0, m)).map Prod.snd

/-- Release the slot at `a`. `zeroReturns`: an object of count 0 is left alone. -/
def releaseWith (zeroReturns : Bool) (unlink : Nat → Nat → Shm → Shm) :
    Nat → Nat → Shm → Option Shm
  | 0, _, _ => none
  | fuel + 1, a, m =>
    if m.word a = 0 then some m
    else if zeroReturns = true ∧ m.refCnt (m.word a) = 0 then some m
    else if m.refCnt (m.word a) ≠ 1 then some (unlink a (m.word a) m)
    else (forEmbedded (releaseWith zeroReturns unlink fuel) (m.word a) fuel m).map fun m' =>
      unlink a (m'.word a) m'

/-- What every unlink keeps, a release keeps. -/
theorem releaseWith_keeps {zeroReturns : Bool} {unlink : Nat → Nat → Shm → Shm} (Inv : Shm → Prop)
    (hunlink : ∀ a o m, Inv m → Inv (unlink a o m)) {fuel a : Nat} {m m' : Shm}
    (h : releaseWith zeroReturns unlink fuel a m = some m') (hm : Inv m) : Inv m' := by
  induction fuel generalizing a m m' with
  | zero => cases h
  | succ fuel ih =>
    rw [releaseWith] at h
    split at h
    · exact Option.some.inj h ▸ hm
    · split at h
      · exact Option.some.inj h ▸ hm
      · split at h
        · exact Option.some.inj h ▸ hunlink _ _ _ hm
        · -- the embedded references of the object first
          obtain ⟨m₁, hrun, rfl⟩ := Option.map_eq_some_iff.mp h
          apply hunlink
          obtain ⟨p, hloop, rfl⟩ := Option.map_eq_some_iff.mp hrun
          refine (whileM_some (fun p : Nat × Shm => Inv p.2) ?_ hloop hm).1
          rintro ⟨k, m₀⟩ p hm₀ - hbody
          obtain ⟨m₂, hrel, rfl⟩ := Option.map_eq_some_iff.mp hbody
          exact ih hrel hm₀

/-! ## §2 — exact heaps and what a release may change -/

/-- Counts equal slots; a freed object refers to nothing. -/
structure HeapExact (H : ObjHeap) (m : Shm) : Prop where
  target : ∀ a ∈ H.slots, m.word a = 0 ∨ m.word a ∈ H.objs
  embedded : ∀ o ∈ H.objs, m.refCnt o ≠ 0 → m.word (o + 16) = H.emb o
  count : ∀ o ∈ H.objs, m.refCnt o = holding H.slots m.word o
  dead : ∀ o ∈ H.objs, m.refCnt o = 0 → ∀ k < H.emb o, m.word (embeddedSlot o k) = 0

/-- Counts equal slots, whatever freed objects refer to. -/
structure HeapCounted (H : ObjHeap) (m : Shm) : Prop where
  target : ∀ a ∈ H.slots, m.word a = 0 ∨ m.word a ∈ H.objs
  embedded : ∀ o ∈ H.objs, m.refCnt o ≠ 0 → m.word (o + 16) = H.emb o
  count : ∀ o ∈ H.objs, m.refCnt o = holding H.slots m.word o

/-- The objects the slots in `A` lead to. -/
inductive Reaches (H : ObjHeap) (m : Shm) (A : Nat → Prop) : Nat → Prop
  | here {a : Nat} : A a → m.word a ∈ H.objs → Reaches H m A (m.word a)
  | child {o k : Nat} : Reaches H m A o → k < H.emb o → m.word (embeddedSlot o k) ∈ H.objs →
      Reaches H m A (m.word (embeddedSlot o k))

/-- Slots in `E`, and slots of objects that died and that `A` leads to, have been cleared; no other
slot has changed, and only the headers of objects `A` leads to. -/
structure Shrunk (H : ObjHeap) (m : Shm) (A E : Nat → Prop) (m' : Shm) : Prop where
  slot : ∀ b ∈ H.slots, m'.word b = m.word b ∨ (m'.word b = 0 ∧
    (E b ∨ ∃ o, Reaches H m A o ∧ m'.refCnt o = 0 ∧ ∃ k < H.emb o, b = embeddedSlot o k))
  header : ∀ o ∈ H.objs, ¬ Reaches H m A o → ∀ j < 3, m'.word (o + 8 * j) = m.word (o + 8 * j)
  mono : ∀ o ∈ H.objs, m'.refCnt o ≤ m.refCnt o

/-- What a release of the slot at `a` does. -/
structure Released (H : ObjHeap) (m : Shm) (a : Nat) (m' : Shm) : Prop
    extends Shrunk H m (· = a) (· = a) m' where
  exact : HeapExact H m'
  cleared : m'.word a = 0

/-- What `unlink` does to the slot at `a`. -/
structure Unlinked (H : ObjHeap) (m : Shm) (a : Nat) (m' : Shm) : Prop where
  cleared : m'.word a = 0
  slot : ∀ b ∈ H.slots, b ≠ a → m'.word b = m.word b
  other : ∀ o ∈ H.objs, o ≠ m.word a → ∀ j < 3, m'.word (o + 8 * j) = m.word (o + 8 * j)
  count : m'.refCnt (m.word a) = m.refCnt (m.word a) - 1
  embedded : m.refCnt (m.word a) ≠ 1 → m'.word (m.word a + 16) = m.word (m.word a + 16)

section Basics

variable {H : ObjHeap} {m m' : Shm} {A E : Nat → Prop}

theorem HeapExact.ne_zero {o : Nat} (ho : o ∈ H.objs) : o ≠ 0 := fun h => H.zero_not_obj (h ▸ ho)

theorem HeapExact.obj {a : Nat} (h : HeapExact H m) (ha : a ∈ H.slots) (hw : m.word a ≠ 0) :
    m.word a ∈ H.objs :=
  (h.target a ha).resolve_left hw

theorem HeapExact.counted (h : HeapExact H m) : HeapCounted H m := ⟨h.target, h.embedded, h.count⟩

/-- An object some slot holds is alive. -/
theorem HeapCounted.refCnt_pos {a : Nat} (h : HeapCounted H m) (ha : a ∈ H.slots)
    (ho : m.word a ∈ H.objs) : 0 < m.refCnt (m.word a) := by
  rw [h.count _ ho]
  exact holding_pos ha

theorem HeapExact.refCnt_pos {a : Nat} (h : HeapExact H m) (ha : a ∈ H.slots)
    (ho : m.word a ∈ H.objs) : 0 < m.refCnt (m.word a) :=
  h.counted.refCnt_pos ha ho

theorem Shm.refCnt_of_header {o : Nat} (h : ∀ j < 3, m'.word (o + 8 * j) = m.word (o + 8 * j)) :
    m'.refCnt o = m.refCnt o := by
  have h1 := h 1 (by decide)
  unfold Shm.refCnt Shm.refInfo
  rw [show o + 8 = o + 8 * 1 by omega, h1]

/-- Words that are neither slots nor headers do not matter. -/
theorem HeapExact.congr (h : HeapExact H m) (hs : ∀ a ∈ H.slots, m'.word a = m.word a)
    (hh : ∀ o ∈ H.objs, ∀ j < 3, m'.word (o + 8 * j) = m.word (o + 8 * j)) : HeapExact H m' := by
  have hcnt : ∀ o ∈ H.objs, m'.refCnt o = m.refCnt o := fun o ho => Shm.refCnt_of_header (hh o ho)
  refine ⟨?_, ?_, ?_, ?_⟩
  · intro a ha
    rw [hs a ha]
    exact h.target a ha
  · intro o ho hlive
    rw [hcnt o ho] at hlive
    exact (hh o ho 2 (by decide)).trans (h.embedded o ho hlive)
  · intro o ho
    rw [hcnt o ho, holding_congr o hs]
    exact h.count o ho
  · intro o ho hdead k hk
    rw [hcnt o ho] at hdead
    rw [hs _ (ObjHeap.embeddedSlot_mem ho hk)]
    exact h.dead o ho hdead k hk

theorem Reaches.mem {o : Nat} (h : Reaches H m A o) : o ∈ H.objs := by
  induction h with
  | here _ ho => exact ho
  | child _ _ ho _ => exact ho

/-- Clearing slots makes nothing new reachable. -/
theorem Reaches.mono {A' : Nat → Prop} {o : Nat} (h : Reaches H m' A' o)
    (hw : ∀ b ∈ H.slots, m'.word b = m.word b ∨ m'.word b = 0) (hA' : ∀ a, A' a → a ∈ H.slots)
    (hfrom : ∀ a, A' a → m.word a ∈ H.objs → Reaches H m A (m.word a)) : Reaches H m A o := by
  have keep : ∀ b ∈ H.slots, m'.word b ∈ H.objs → m'.word b = m.word b := by
    intro b hb ho
    rcases hw b hb with h | h
    · exact h
    · exact absurd h (HeapExact.ne_zero ho)
  induction h with
  | here ha ho =>
    have hsame := keep _ (hA' _ ha) ho
    rw [hsame] at ho ⊢
    exact hfrom _ ha ho
  | child hr hk ho ih =>
    have hsame := keep _ (ObjHeap.embeddedSlot_mem hr.mem hk) ho
    rw [hsame] at ho ⊢
    exact Reaches.child ih hk ho

theorem Shrunk.refl (A E : Nat → Prop) : Shrunk H m A E m :=
  ⟨fun _ _ => Or.inl rfl, fun _ _ _ _ _ => rfl, fun _ _ => Nat.le_refl _⟩

theorem Shrunk.word (h : Shrunk H m A E m') : ∀ b ∈ H.slots, m'.word b = m.word b ∨ m'.word b = 0 :=
  fun b hb => (h.slot b hb).imp_right And.left

theorem Shrunk.trans {A' E' F : Nat → Prop} {m₁ m₂ : Shm} (h₁ : Shrunk H m A E m₁)
    (h₂ : Shrunk H m₁ A' E' m₂) (hE : ∀ b, E b → F b) (hE' : ∀ b, E' b → F b)
    (hr : ∀ o, Reaches H m₁ A' o → Reaches H m A o) : Shrunk H m A F m₂ := by
  refine ⟨?_, ?_, ?_⟩
  · intro b hb
    rcases h₂.slot b hb with hsame | ⟨hz, he | ⟨o, ho, hdead, hk⟩⟩
    · rcases h₁.slot b hb with hsame' | ⟨hz, he | ⟨o, ho, hdead, hk⟩⟩
      · exact Or.inl (hsame.trans hsame')
      · exact Or.inr ⟨hsame.trans hz, Or.inl (hE b he)⟩
      · refine Or.inr ⟨hsame.trans hz, Or.inr ⟨o, ho, ?_, hk⟩⟩
        exact Nat.le_zero.mp (hdead ▸ h₂.mono o ho.mem)
    · exact Or.inr ⟨hz, Or.inl (hE' b he)⟩
    · exact Or.inr ⟨hz, Or.inr ⟨o, hr o ho, hdead, hk⟩⟩
  · intro o ho hn j hj
    rw [h₂.header o ho (fun h => hn (hr o h)) j hj, h₁.header o ho hn j hj]
  · intro o ho
    exact Nat.le_trans (h₂.mono o ho) (h₁.mono o ho)

/-- Words that are neither slots nor headers do not matter. -/
theorem Shrunk.congr {m₁ m₂ : Shm} (h : Shrunk H m A E m₁)
    (hs : ∀ a ∈ H.slots, m₂.word a = m₁.word a)
    (hh : ∀ o ∈ H.objs, ∀ j < 3, m₂.word (o + 8 * j) = m₁.word (o + 8 * j)) : Shrunk H m A E m₂ := by
  have hcnt : ∀ o ∈ H.objs, m₂.refCnt o = m₁.refCnt o := fun o ho => Shm.refCnt_of_header (hh o ho)
  refine ⟨?_, ?_, ?_⟩
  · intro b hb
    rw [hs b hb]
    rcases h.slot b hb with hsame | ⟨hz, he | ⟨o, hr, hdead, hk⟩⟩
    · exact Or.inl hsame
    · exact Or.inr ⟨hz, Or.inl he⟩
    · exact Or.inr ⟨hz, Or.inr ⟨o, hr, (hcnt o hr.mem).trans hdead, hk⟩⟩
  · intro o ho hn j hj
    rw [hh o ho j hj, h.header o ho hn j hj]
  · intro o ho
    rw [hcnt o ho]
    exact h.mono o ho

end Basics

/-! ## §3 — one unlink -/

section Unlink

variable {H : ObjHeap} {m m' : Shm} {a : Nat}

theorem Unlinked.refCnt_of_ne (h : Unlinked H m a m') {o : Nat} (ho : o ∈ H.objs)
    (hne : o ≠ m.word a) : m'.refCnt o = m.refCnt o :=
  Shm.refCnt_of_header (h.other o ho hne)

/-- Unlinking a slot keeps the counts equal to the slots. -/
theorem Unlinked.counted (h : Unlinked H m a m') (hx : HeapCounted H m) (ha : a ∈ H.slots)
    (ho : m.word a ∈ H.objs) : HeapCounted H m' := by
  have hpos := hx.refCnt_pos ha ho
  have hslot : ∀ b ∈ H.slots, m'.word b = Function.update m.word a 0 b := by
    intro b hb
    by_cases hba : b = a
    · rw [hba, Function.update_self]
      exact h.cleared
    · rw [Function.update_of_ne hba]
      exact h.slot b hb hba
  refine ⟨?_, ?_, ?_⟩
  · intro b hb
    by_cases hba : b = a
    · rw [hba]
      exact Or.inl h.cleared
    · rw [h.slot b hb hba]
      exact hx.target b hb
  · intro o ho' hlive
    by_cases hoo : o = m.word a
    · subst hoo
      have hcnt := h.count
      rw [h.embedded (by omega)]
      exact hx.embedded _ ho (by omega)
    · rw [h.refCnt_of_ne ho' hoo] at hlive
      have hw : m'.word (o + 16) = m.word (o + 16) := h.other o ho' hoo 2 (by decide)
      rw [hw]
      exact hx.embedded o ho' hlive
  · intro o ho'
    have hupd := holding_update_mem m.word 0 o ha
    rw [← holding_congr o hslot, hit_ne (HeapExact.ne_zero ho').symm, ← hx.count o ho'] at hupd
    by_cases hoo : o = m.word a
    · have hcnt := h.count
      rw [← hoo, hit_self] at hupd
      rw [← hoo] at hcnt
      omega
    · rw [hit_ne (Ne.symm hoo)] at hupd
      rw [h.refCnt_of_ne ho' hoo]
      omega

/-- Unlinking a slot keeps an exact heap exact, if the last reference goes after the children. -/
theorem Unlinked.exact (h : Unlinked H m a m') (hx : HeapExact H m) (ha : a ∈ H.slots)
    (ho : m.word a ∈ H.objs)
    (hlast : m.refCnt (m.word a) = 1 → ∀ k < H.emb (m.word a), m.word (embeddedSlot (m.word a) k) = 0) :
    HeapExact H m' := by
  have hcounted := h.counted hx.counted ha ho
  have hzero : ∀ b ∈ H.slots, m.word b = 0 → m'.word b = 0 := by
    intro b hb hz
    by_cases hba : b = a
    · rw [hba]
      exact h.cleared
    · rw [h.slot b hb hba]
      exact hz
  refine ⟨hcounted.target, hcounted.embedded, hcounted.count, ?_⟩
  intro o ho' hdead k hk
  apply hzero _ (ObjHeap.embeddedSlot_mem ho' hk)
  by_cases hoo : o = m.word a
  · subst hoo
    have hpos := hx.refCnt_pos ha ho
    have hcnt := h.count
    exact hlast (by omega) k hk
  · rw [h.refCnt_of_ne ho' hoo] at hdead
    exact hx.dead o ho' hdead k hk

theorem Unlinked.shrunk (h : Unlinked H m a m') (ho : m.word a ∈ H.objs) :
    Shrunk H m (· = a) (· = a) m' := by
  refine ⟨?_, ?_, ?_⟩
  · intro b hb
    by_cases hba : b = a
    · exact Or.inr ⟨hba ▸ h.cleared, Or.inl hba⟩
    · exact Or.inl (h.slot b hb hba)
  · intro o ho' hn j hj
    refine h.other o ho' ?_ j hj
    rintro rfl
    exact hn (Reaches.here rfl ho)
  · intro o ho'
    by_cases hoo : o = m.word a
    · have hcnt := h.count
      rw [hoo]
      omega
    · exact Nat.le_of_eq (h.refCnt_of_ne ho' hoo)

/-- The stores of an unlink: the new stamp, then the slot. -/
theorem Unlinked.of_stores {v : Nat} (ha : a ∈ H.slots) (ho : m.word a ∈ H.objs)
    (hv : getRefCntFromInfo v = m.refCnt (m.word a) - 1)
    (hw : m'.word = Function.update (Function.update m.word (m.word a + 8) v) a 0) :
    Unlinked H m a m' := by
  have hne : ∀ j < 3, a ≠ m.word a + 8 * j := fun j hj => ObjHeap.slot_ne_header ha ho hj
  have hkeep : ∀ w, w ≠ a → w ≠ m.word a + 8 → m'.word w = m.word w := by
    intro w hwa hwo
    rw [hw, Function.update_of_ne hwa, Function.update_of_ne hwo]
  refine ⟨?_, ?_, ?_, ?_, ?_⟩
  · rw [hw, Function.update_self]
  · intro b hb hba
    exact hkeep b hba (ObjHeap.slot_ne_header hb ho (j := 1) (by decide))
  · intro o ho' hoo j hj
    exact hkeep _ (ObjHeap.slot_ne_header ha ho' hj).symm
      (ObjHeap.header_apart (l := 1) ho' ho hoo hj (by decide))
  · rw [← hv, Shm.refCnt, Shm.refInfo, hw, Function.update_of_ne (hne 1 (by decide)).symm,
      Function.update_self]
  · intro _
    exact hkeep _ (hne 2 (by decide)).symm (by omega)

/-- The free of an object whose last slot has been unlinked. -/
theorem Unlinked.wipe {m'' : Shm} (h : Unlinked H m a m') (ha : a ∈ H.slots) (ho : m.word a ∈ H.objs)
    (hone : m.refCnt (m.word a) = 1)
    (hout : ∀ w, (∀ k < 3, w ≠ m.word a + 8 * k) → m''.word w = m'.word w)
    (hw : m''.word (m.word a + 8) = 0) : Unlinked H m a m'' := by
  refine ⟨?_, ?_, ?_, ?_, fun hn => absurd hone hn⟩
  · rw [hout a fun j hj => ObjHeap.slot_ne_header ha ho hj, h.cleared]
  · intro b hb hba
    rw [hout b fun j hj => ObjHeap.slot_ne_header hb ho hj]
    exact h.slot b hb hba
  · intro o ho' hoo j hj
    rw [hout _ fun l hl => ObjHeap.header_apart ho' ho hoo hj hl]
    exact h.other o ho' hoo j hj
  · rw [hone, Shm.refCnt, Shm.refInfo, hw]
    rfl

end Unlink

/-! ## §4 — the path of activations -/

section Paths

variable {H : ObjHeap} {m m' : Shm} {s : Nat} {D : Nat → Prop}

/-- `b` is an embedded slot of an object in `D`. -/
def ObjHeap.SlotIn (H : ObjHeap) (D : Nat → Prop) (b : Nat) : Prop :=
  ∃ o ∈ H.objs, D o ∧ ∃ k < H.emb o, b = embeddedSlot o k

/-- The objects in `D` may die with the slot `s`: an object all of whose slots are `s` or lie in `D` is
in `D`, and `s` is not a slot of one of them. -/
structure Doomed (H : ObjHeap) (s : Nat) (D : Nat → Prop) (m : Shm) : Prop where
  slot : s ∈ H.slots
  outside : ¬ H.SlotIn D s
  closed : ∀ o ∈ H.objs, m.refCnt o ≠ 0 →
    (∀ b ∈ H.slots, m.word b = o → b = s ∨ H.SlotIn D b) → D o

/-- Only objects in `D` have died. -/
def Died (H : ObjHeap) (D : Nat → Prop) (m m' : Shm) : Prop :=
  ∀ o ∈ H.objs, m.refCnt o ≠ 0 → m'.refCnt o = 0 → D o

theorem Doomed.root {a : Nat} (ha : a ∈ H.roots) : Doomed H a (fun _ => True) m := by
  refine ⟨ObjHeap.root_mem ha, ?_, fun _ _ _ _ => trivial⟩
  rintro ⟨o, ho, -, k, hk, heq⟩
  exact ObjHeap.root_ne_embeddedSlot ha ho hk heq

theorem Died.refl : Died H D m m := fun _ _ h h' => absurd h' h

theorem Died.trans {m₁ m₂ : Shm} (h : Died H D m m₁) (h' : Died H D m₁ m₂) : Died H D m m₂ := by
  intro o ho hlive hdead
  by_cases hmid : m₁.refCnt o = 0
  · exact h o ho hlive hmid
  · exact h' o ho hmid hdead

/-- A cleared slot of an object that is dead now belonged to one in `D`. -/
theorem Died.slotIn (h : Died H D m m') (hx : HeapExact H m) {o k : Nat} (ho : o ∈ H.objs)
    (hk : k < H.emb o) (hw : m.word (embeddedSlot o k) ≠ 0) (hdead : m'.refCnt o = 0) :
    H.SlotIn D (embeddedSlot o k) :=
  ⟨o, ho, h o ho (fun hz => hw (hx.dead o ho hz k hk)) hdead, k, hk, rfl⟩

theorem Doomed.shrink {A E : Nat → Prop} (h : Doomed H s D m) (hx : HeapExact H m)
    (hs : Shrunk H m A E m') (hdied : Died H D m m') (hE : ∀ b, E b → b = s ∨ H.SlotIn D b) :
    Doomed H s D m' := by
  refine ⟨h.slot, h.outside, ?_⟩
  intro o ho hlive hslots
  have hmono := hs.mono o ho
  apply h.closed o ho (by omega)
  intro b hb hw
  rcases hs.slot b hb with hsame | ⟨-, he | ⟨p, hr, hdead, k, hk, rfl⟩⟩
  · exact hslots b hb (hsame.trans hw)
  · exact hE b he
  · refine Or.inr (hdied.slotIn hx hr.mem hk ?_ hdead)
    rw [hw]
    exact HeapExact.ne_zero ho

/-- The slot `a` is released for the innermost activation of the path, or is the slot `s` the whole
release is about. -/
def Under (H : ObjHeap) (s : Nat) : List (Nat × Nat) → Nat → Prop
  | [], a => a = s
  | (_, o) :: _, a => ∃ k < H.emb o, a = embeddedSlot o k

/-- The activations that wait, innermost first: a slot and its object, which nobody else holds. -/
def Path (H : ObjHeap) (s : Nat) (m : Shm) : List (Nat × Nat) → Prop
  | [] => True
  | (b, o) :: rest => Under H s rest b ∧ m.word b = o ∧ o ∈ H.objs ∧ m.refCnt o = 1 ∧
      o ∉ rest.map Prod.snd ∧ Path H s m rest

theorem Path.obj {p : List (Nat × Nat)} (h : Path H s m p) : ∀ o ∈ p.map Prod.snd, o ∈ H.objs := by
  induction p with
  | nil => simp
  | cons so rest ih =>
    obtain ⟨-, -, ho, -, -, hrest⟩ := h
    intro o hmem
    rcases List.mem_cons.mp hmem with rfl | hmem
    · exact ho
    · exact ih hrest o hmem

theorem Path.nodup {p : List (Nat × Nat)} (h : Path H s m p) : (p.map Prod.snd).Nodup := by
  induction p with
  | nil => exact List.nodup_nil
  | cons so rest ih =>
    obtain ⟨-, -, -, -, hnot, hrest⟩ := h
    exact List.nodup_cons.mpr ⟨hnot, ih hrest⟩

/-- A path is no longer than there are objects. -/
theorem Path.length_le {p : List (Nat × Nat)} (h : Path H s m p) : p.length ≤ H.objs.card := by
  have hcard := List.toFinset_card_of_nodup h.nodup
  rw [List.length_map] at hcard
  rw [← hcard]
  refine Finset.card_le_card fun o ho => ?_
  exact h.obj o (List.mem_toFinset.mp ho)

theorem Under.mem_slots {p : List (Nat × Nat)} {a : Nat} (hs : s ∈ H.slots) (h : Path H s m p)
    (ha : Under H s p a) : a ∈ H.slots := by
  cases p with
  | nil =>
    have ha : a = s := ha
    exact ha ▸ hs
  | cons so rest =>
    obtain ⟨k, hk, rfl⟩ := ha
    exact ObjHeap.embeddedSlot_mem h.2.2.1 hk

/-- The objects that wait lose their only slot, so they are doomed. -/
theorem Path.doomed {p : List (Nat × Nat)} (h : Path H s m p) (hd : Doomed H s D m)
    (hx : HeapExact H m) : ∀ o ∈ p.map Prod.snd, D o := by
  induction p with
  | nil => simp
  | cons so rest ih =>
    obtain ⟨b, o⟩ := so
    obtain ⟨hu, hw, ho, hone, -, hrest⟩ := h
    intro o' hmem
    rcases List.mem_cons.mp hmem with rfl | hmem
    · have hhold := hx.count _ ho
      rw [hone] at hhold
      apply hd.closed o' ho (by rw [hone]; decide)
      intro b' hb' hw'
      have hbb : b' = b := eq_of_holding_eq_one hhold.symm hb' hw' (hu.mem_slots hd.slot hrest) hw
      subst hbb
      cases rest with
      | nil => exact Or.inl hu
      | cons so' rest =>
        obtain ⟨k, hk, hb⟩ := hu
        exact Or.inr ⟨so'.2, hrest.2.2.1, ih hrest so'.2 List.mem_cons_self, k, hk, hb⟩
    · exact ih hrest o' hmem

/-- An embedded slot of `o` is released by an activation of the path only if `o` waits on it. -/
theorem Path.embeddedSlot_notMem {p : List (Nat × Nat)} (h : Path H s m p) {o k : Nat}
    (ho : o ∈ H.objs) (hk : k < H.emb o) (hs : embeddedSlot o k ≠ s)
    (hnot : ∀ x ∈ (p.map Prod.snd).tail, x ≠ o) : embeddedSlot o k ∉ p.map Prod.fst := by
  induction p with
  | nil => simp
  | cons so rest ih =>
    obtain ⟨hu, -, -, -, -, hrest⟩ := h
    rw [List.map_cons, List.mem_cons]
    rintro (heq | hmem)
    · cases rest with
      | nil => exact hs (heq.trans hu)
      | cons so' rest =>
        obtain ⟨k', hk', hu⟩ := hu
        rw [hu] at heq
        have hoo := (ObjHeap.embeddedSlot_inj ho hrest.2.2.1 hk hk' heq).1
        exact hnot so'.2 (by simp) hoo.symm
    · refine ih hrest ?_ hmem
      intro x hx
      exact hnot x (by simpa using List.mem_of_mem_tail hx)

/-- The slot to be released next is not on the path. -/
theorem Under.notMem {p : List (Nat × Nat)} {a : Nat} (hd : Doomed H s D m) (hx : HeapExact H m)
    (h : Path H s m p) (ha : Under H s p a) : a ∉ p.map Prod.fst := by
  cases p with
  | nil => simp
  | cons so rest =>
    obtain ⟨k, hk, rfl⟩ := ha
    refine h.embeddedSlot_notMem h.2.2.1 hk ?_ ?_
    · rintro rfl
      exact hd.outside ⟨so.2, h.2.2.1, h.doomed hd hx so.2 List.mem_cons_self, k, hk, rfl⟩
    · rintro x hx rfl
      exact h.2.2.2.2.1 hx

/-- The activation for the last slot of an object extends the path. -/
theorem Path.cons {p : List (Nat × Nat)} {a : Nat} (h : Path H s m p) (hd : Doomed H s D m)
    (hx : HeapExact H m) (ha : Under H s p a) (ho : m.word a ∈ H.objs)
    (hone : m.refCnt (m.word a) = 1) : Path H s m ((a, m.word a) :: p) := by
  refine ⟨ha, rfl, ho, hone, ?_, h⟩
  have haway := ha.notMem hd hx h
  have hmem := ha.mem_slots hd.slot h
  have hhold := hx.count _ ho
  rw [hone] at hhold
  clear hone
  -- a second activation on the object would hold the same slot
  have key : ∀ q : List (Nat × Nat), Path H s m q → a ∉ q.map Prod.fst →
      m.word a ∉ q.map Prod.snd := by
    intro q hq hnot
    induction q with
    | nil => simp
    | cons so rest ih =>
      obtain ⟨hs, hw, -, -, -, hrest⟩ := hq
      rw [List.map_cons, List.mem_cons]
      rintro (heq | hin)
      · have hsame := eq_of_holding_eq_one hhold.symm hmem rfl (hs.mem_slots hd.slot hrest)
          (hw.trans heq.symm)
        exact hnot (by simp [hsame])
      · exact ih hrest (fun hin' => hnot (List.mem_cons_of_mem _ hin')) hin
  exact key p h haway

/-- **A release leaves the path below it standing.** A slot of the path could only be cleared with its
owner, and the owners are alive as long as the slots below them hold; `s` has no owner that dies. -/
theorem Path.kept {p : List (Nat × Nat)} {A E : Nat → Prop} (h : Path H s m p)
    (hd : Doomed H s D m) (hx : HeapExact H m) (hs : Shrunk H m A E m') (hdied : Died H D m m')
    (hE : ∀ b ∈ p.map Prod.fst, ¬ E b) (hx' : HeapExact H m') : Path H s m' p := by
  induction p with
  | nil => trivial
  | cons so rest ih =>
    obtain ⟨hu, hw, ho, hone, hnot, hrest⟩ := h
    have hrest' := ih hrest fun b hb => hE b (List.mem_cons_of_mem _ hb)
    have hmem := hu.mem_slots hd.slot hrest
    have hword : m'.word so.1 = so.2 := by
      rcases hs.slot _ hmem with hsame | ⟨-, he | ⟨o, hr, hdead, k, hk, heq⟩⟩
      · exact hsame.trans hw
      · exact absurd he (hE _ List.mem_cons_self)
      · cases rest with
        | nil =>
          have hu : so.1 = s := hu
          have hin := hdied.slotIn hx hr.mem hk
            (by rw [← heq, hw]; exact HeapExact.ne_zero ho) hdead
          rw [← heq, hu] at hin
          exact absurd hin hd.outside
        | cons so' rest =>
          obtain ⟨k', hk', hu⟩ := hu
          rw [hu] at heq
          obtain ⟨rfl, -⟩ := ObjHeap.embeddedSlot_inj hrest.2.2.1 hr.mem hk' hk heq
          rw [hrest'.2.2.2.1] at hdead
          cases hdead
    have hle := hs.mono _ ho
    have hpos := hx'.refCnt_pos hmem (by rw [hword]; exact ho)
    rw [hword] at hpos
    exact ⟨hu, hword, ho, by omega, hnot, hrest'⟩

end Paths

/-! ## §5 — the whole release

The recursion once more, over a state `σ` that carries more than the area, with an `unlink` that may
not return.
-/

section Whole

variable {σ : Type*} {area : σ → Shm}

/-- `forEmbedded` over `σ`. -/
def forEmbeddedOn (area : σ → Shm) (body : Nat → σ → Option σ) (refed fuel : Nat) (x : σ) : Option σ :=
  (whileM (fun p : Nat × σ => decide (p.1 < (area p.2).word (refed + 16)))
    (fun p => (body (embeddedSlot refed p.1) p.2).map fun x' => (p.1 + 1, x')) fuel (0, x)).map Prod.snd

/-- `releaseWith` over `σ`. -/
def releaseOn (area : σ → Shm) (zeroReturns : Bool) (unlink : Nat → Nat → σ → Option σ) :
    Nat → Nat → σ → Option σ
  | 0, _, _ => none
  | fuel + 1, a, x =>
    if (area x).word a = 0 then some x
    else if zeroReturns = true ∧ (area x).refCnt ((area x).word a) = 0 then some x
    else if (area x).refCnt ((area x).word a) ≠ 1 then unlink a ((area x).word a) x
    else (forEmbeddedOn area (releaseOn area zeroReturns unlink fuel) ((area x).word a) fuel x).bind
      fun x' => unlink a ((area x').word a) x'

theorem releaseWith_eq (zeroReturns : Bool) (unlink : Nat → Nat → Shm → Shm) (fuel : Nat) :
    releaseWith zeroReturns unlink fuel =
      releaseOn id zeroReturns (fun a o m => some (unlink a o m)) fuel := by
  induction fuel with
  | zero => rfl
  | succ fuel ih =>
    funext a m
    rw [releaseWith, releaseOn, ih]
    simp only [id, Option.map_eq_bind]
    rfl

/-- The recursion on the area alone, under one that carries more. -/
theorem releaseOn_area {zeroReturns : Bool} {unlink : Nat → Nat → σ → Option σ}
    {unlink' : Nat → Nat → Shm → Option Shm}
    (h : ∀ a o x, (unlink a o x).map area = unlink' a o (area x)) (fuel a : Nat) (x : σ) :
    (releaseOn area zeroReturns unlink fuel a x).map area =
      releaseOn id zeroReturns unlink' fuel a (area x) := by
  induction fuel generalizing a x with
  | zero => rfl
  | succ fuel ih =>
    have hchildren : ∀ o, (forEmbeddedOn area (releaseOn area zeroReturns unlink fuel) o fuel x).map area =
        forEmbeddedOn id (releaseOn id zeroReturns unlink' fuel) o fuel (area x) := by
      intro o
      have hbody : ∀ p : Nat × σ,
          ((releaseOn area zeroReturns unlink fuel (embeddedSlot o p.1) p.2).map
            fun x' => (p.1 + 1, x')).map (fun p => (p.1, area p.2)) =
          (releaseOn id zeroReturns unlink' fuel (embeddedSlot o p.1) (area p.2)).map
            fun m' => (p.1 + 1, m') := by
        intro p
        rw [← ih, Option.map_map, Option.map_map]
        rfl
      have hloop := whileM_map (fun p : Nat × σ => (p.1, area p.2))
        (fun p => decide (p.1 < p.2.word (o + 16)))
        (fun p => (releaseOn id zeroReturns unlink' fuel (embeddedSlot o p.1) p.2).map
          fun m' => (p.1 + 1, m')) (fun _ => rfl) hbody fuel (0, x)
      unfold forEmbeddedOn
      simp only [id]
      rw [← hloop, Option.map_map, Option.map_map]
      rfl
    rw [releaseOn, releaseOn]
    simp only [id]
    split
    · rfl
    · split
      · rfl
      · split
        · exact h ..
        · rw [← hchildren, Option.map_bind, Option.bind_map]
          exact congrArg _ (funext fun x' => h ..)

/-- A loop over references each of which leaves everything as it is. -/
theorem forEmbeddedOn_still {body : Nat → σ → Option σ} {o n fuel : Nat} {x : σ}
    (hn : (area x).word (o + 16) = n) (hbody : ∀ k < n, body (embeddedSlot o k) x = some x) (hf : n < fuel) :
    forEmbeddedOn area body o fuel x = some x := by
  have hend : ∀ p : Nat × σ, p = (n - 0, x) ∧ 0 ≤ n → decide (p.1 < (area p.2).word (o + 16)) = false := by
    rintro p ⟨rfl, -⟩
    simp [hn]
  have hround : ∀ j (p : Nat × σ), p = (n - (j + 1), x) ∧ j + 1 ≤ n →
      decide (p.1 < (area p.2).word (o + 16)) = true ∧ ∃ p',
        ((body (embeddedSlot o p.1) p.2).map fun x' => (p.1 + 1, x')) = some p' ∧ p' = (n - j, x) ∧ j ≤ n := by
    rintro j p ⟨rfl, hj⟩
    have hlt : n - (j + 1) < n := by omega
    refine ⟨by simpa [hn] using hlt, (n - j, x), ?_, rfl, by omega⟩
    rw [hbody _ hlt, Option.map_some, show n - (j + 1) + 1 = n - j by omega]
  obtain ⟨p, hrun, hp, -⟩ := whileM_rule (fun j (p : Nat × σ) => p = (n - j, x) ∧ j ≤ n) hend hround hf
    ⟨rfl, Nat.le_refl n⟩
  rw [Nat.sub_self] at hrun
  rw [forEmbeddedOn, hrun, hp]
  rfl

/-- **The last reference to an object that refers to nothing**: one unlink. -/
theorem releaseOn_leaf {zeroReturns : Bool} {unlink : Nat → Nat → σ → Option σ} {a o n fuel : Nat} {x : σ}
    (ha : (area x).word a = o) (ho : o ≠ 0) (hone : (area x).refCnt o = 1)
    (hn : (area x).word (o + 16) = n) (hz : ∀ k < n, (area x).word (embeddedSlot o k) = 0) (hf : n < fuel) :
    releaseOn area zeroReturns unlink (fuel + 1) a x = unlink a o x := by
  have hbody : ∀ k < n, releaseOn area zeroReturns unlink fuel (embeddedSlot o k) x = some x := by
    intro k hk
    obtain ⟨f, rfl⟩ := Nat.exists_eq_succ_of_ne_zero (Nat.ne_of_gt (Nat.zero_lt_of_lt hf))
    rw [releaseOn, if_pos (hz k hk)]
  rw [releaseOn, ha, if_neg ho, if_neg (by rw [hone]; simp), if_neg (by rw [hone]; simp),
    forEmbeddedOn_still hn hbody hf, Option.bind_some, ha]

/-- More fuel releases the same. -/
theorem releaseOn_mono {zeroReturns : Bool} {unlink : Nat → Nat → σ → Option σ} {fuel fuel' a : Nat}
    {x y : σ} (hle : fuel ≤ fuel') (h : releaseOn area zeroReturns unlink fuel a x = some y) :
    releaseOn area zeroReturns unlink fuel' a x = some y := by
  induction fuel generalizing fuel' a x y with
  | zero => cases h
  | succ fuel ih =>
    obtain ⟨f, rfl⟩ : ∃ f, fuel' = f + 1 := ⟨fuel' - 1, by omega⟩
    have hf : fuel ≤ f := Nat.le_of_succ_le_succ hle
    rw [releaseOn] at h ⊢
    split at h
    case isTrue hz => rwa [if_pos hz]
    case isFalse hz =>
      rw [if_neg hz]
      split at h
      case isTrue hd => rwa [if_pos hd]
      case isFalse hd =>
        rw [if_neg hd]
        split at h
        case isTrue hn => rwa [if_pos hn]
        case isFalse hn =>
          rw [if_neg hn]
          obtain ⟨x', hloop, hlast⟩ := Option.bind_eq_some_iff.mp h
          obtain ⟨p, hwhile, rfl⟩ := Option.map_eq_some_iff.mp hloop
          have hmono : forEmbeddedOn area (releaseOn area zeroReturns unlink f) ((area x).word a) f x =
              some p.2 := by
            rw [forEmbeddedOn, whileM_mono _ hf hwhile]
            · rfl
            · intro s s' hb
              obtain ⟨x₁, hb, hs⟩ := Option.map_eq_some_iff.mp hb
              rw [ih hf hb]
              exact congrArg some hs
          rw [hmono]
          exact hlast

variable {H : ObjHeap} {J : σ → Prop} {R : σ → σ → Prop} {unlink : Nat → Nat → σ → Option σ}

/-- `unlink` returns, does what it should on exact heaps that satisfy `J`, and keeps `J`; `R` is what
else it may be relied on for. -/
def UnlinkSpecOn (H : ObjHeap) (area : σ → Shm) (J : σ → Prop) (R : σ → σ → Prop)
    (unlink : Nat → Nat → σ → Option σ) : Prop :=
  ∀ x a, HeapExact H (area x) → J x → a ∈ H.slots → (area x).word a ∈ H.objs →
    ∃ y, unlink a ((area x).word a) x = some y ∧ Unlinked H (area x) a (area y) ∧ J y ∧ R x y

/-- `UnlinkSpecOn` for an `unlink` that always returns. -/
def UnlinkSpec (H : ObjHeap) (J : Shm → Prop) (R : Shm → Shm → Prop)
    (unlink : Nat → Nat → Shm → Shm) : Prop :=
  ∀ m a, HeapExact H m → J m → a ∈ H.slots → m.word a ∈ H.objs →
    Unlinked H m a (unlink a (m.word a) m) ∧ J (unlink a (m.word a) m) ∧ R m (unlink a (m.word a) m)

/-- A bound for the embedded references of one object. -/
def ObjHeap.embBound (H : ObjHeap) : Nat := H.objs.sup H.emb

theorem ObjHeap.emb_le {o : Nat} (ho : o ∈ H.objs) : H.emb o ≤ H.embBound :=
  Finset.le_sup ho

variable (hspec : UnlinkSpecOn H area J R unlink) (hrefl : ∀ x, R x x)
  (htrans : ∀ x y z, R x y → R y z → R x z)
include hspec hrefl htrans

omit hspec in
/-- The children of `o` are released one by one; `o` waits on top of the path `p`. -/
theorem forEmbedded_exact {D : Nat → Prop} {body : Nat → σ → Option σ} {x : σ}
    {p : List (Nat × Nat)} {a o s fuel : Nat} (hfuel : H.emb o < fuel) (hx : HeapExact H (area x))
    (hJ : J x) (hd : Doomed H s D (area x)) (hp : Path H s (area x) ((a, o) :: p))
    (hbody : ∀ y k, k < H.emb o → HeapExact H (area y) → J y → Doomed H s D (area y) →
      Path H s (area y) ((a, o) :: p) → ∃ z, body (embeddedSlot o k) y = some z ∧
        Released H (area y) (embeddedSlot o k) (area z) ∧ Died H D (area y) (area z) ∧ J z ∧ R y z) :
    ∃ y, forEmbeddedOn area body o fuel x = some y ∧ HeapExact H (area y) ∧
      Path H s (area y) ((a, o) :: p) ∧ (∀ k < H.emb o, (area y).word (embeddedSlot o k) = 0) ∧
      Shrunk H (area x) (· = a) (fun b => ∃ k < H.emb o, b = embeddedSlot o k) (area y) ∧
      Died H D (area x) (area y) ∧ J y ∧ R x y := by
  have ho := hp.2.2.1
  have hwa := hp.2.1
  have hDo : D o := hp.doomed hd hx o List.mem_cons_self
  let Inv : Nat → Nat × σ → Prop := fun n q => q.1 + n = H.emb o ∧ HeapExact H (area q.2) ∧
    Path H s (area q.2) ((a, o) :: p) ∧ (∀ k < q.1, (area q.2).word (embeddedSlot o k) = 0) ∧
    Shrunk H (area x) (· = a) (fun b => ∃ k < H.emb o, b = embeddedSlot o k) (area q.2) ∧
    Died H D (area x) (area q.2) ∧ J q.2 ∧ R x q.2
  have hbound : ∀ q : Nat × σ, HeapExact H (area q.2) → Path H s (area q.2) ((a, o) :: p) →
      (area q.2).word (o + 16) = H.emb o := by
    intro q hq hpq
    apply hq.embedded o ho
    rw [hpq.2.2.2.1]
    decide
  have hend : ∀ q, Inv 0 q → decide (q.1 < (area q.2).word (o + 16)) = false := by
    rintro q ⟨hi, hq, hpq, -⟩
    rw [hbound q hq hpq, decide_eq_false_iff_not]
    omega
  have hround : ∀ n q, Inv (n + 1) q → decide (q.1 < (area q.2).word (o + 16)) = true ∧ ∃ q',
      ((body (embeddedSlot o q.1) q.2).map fun x' => (q.1 + 1, x')) = some q' ∧ Inv n q' := by
    rintro n ⟨i, y⟩ ⟨hi, hq, hpq, hzero, hshr, hdied, hJi, hR⟩
    have hlt : i < H.emb o := by
      simp only at hi
      omega
    refine ⟨by rw [hbound _ hq hpq, decide_eq_true_iff]; exact hlt, ?_⟩
    have hdy : Doomed H s D (area y) := by
      apply hd.shrink hx hshr hdied
      rintro b ⟨k, hk, rfl⟩
      exact Or.inr ⟨o, ho, hDo, k, hk, rfl⟩
    obtain ⟨z, hrun, hrel, hdz, hJ', hR'⟩ := hbody y i hlt hq hJi hdy hpq
    refine ⟨(i + 1, z), by simp only [hrun, Option.map_some], ?_⟩
    have hunder : Under H s ((a, o) :: p) (embeddedSlot o i) := ⟨i, hlt, rfl⟩
    have hpath : Path H s (area z) ((a, o) :: p) := by
      refine hpq.kept hdy hq hrel.toShrunk hdz ?_ hrel.exact
      rintro b hb rfl
      exact hunder.notMem hdy hq hpq hb
    refine ⟨by simp only at hi ⊢; omega, hrel.exact, hpath, ?_, ?_, hdied.trans hdz, hJ',
      htrans _ _ _ hR hR'⟩
    · intro k hk
      rcases Nat.lt_succ_iff_lt_or_eq.mp hk with hk | rfl
      · have hmem := ObjHeap.embeddedSlot_mem (H := H) ho (Nat.lt_trans hk hlt)
        rcases hrel.word _ hmem with hsame | hz
        · exact hsame.trans (hzero k hk)
        · exact hz
      · exact hrel.cleared
    · refine hshr.trans hrel.toShrunk (fun _ h => h) ?_ ?_
      · rintro b rfl
        exact ⟨i, hlt, rfl⟩
      · intro o' hr
        refine hr.mono hshr.word ?_ ?_
        · rintro b rfl
          exact ObjHeap.embeddedSlot_mem ho hlt
        · rintro b rfl hchild
          have hroot : Reaches H (area x) (· = a) ((area x).word a) :=
            Reaches.here rfl (by rw [hwa]; exact ho)
          rw [hwa] at hroot
          exact Reaches.child hroot hlt hchild
  obtain ⟨⟨i, y⟩, hrun, hi, hq, hpq, hzero, hshr, hdied, hJ', hR⟩ := whileM_rule Inv hend hround hfuel
    (s := (0, x)) ⟨Nat.zero_add _, hx, hp, fun k hk => absurd hk (Nat.not_lt_zero k),
      Shrunk.refl _ _, Died.refl, hJ, hrefl x⟩
  refine ⟨y, ?_, hq, hpq, ?_, hshr, hdied, hJ', hR⟩
  · unfold forEmbeddedOn
    rw [hrun]
    rfl
  · intro k hk
    exact hzero k (by simp only at hi ⊢; omega)

/-- **A release ends and is exact**, whatever activations wait below it. The fuel covers one
activation for each object not on the path and one loop over embedded references. -/
theorem releaseOn_path {D : Nat → Prop} {zeroReturns : Bool} {fuel s : Nat} {p : List (Nat × Nat)}
    {x : σ} {a : Nat} (hfuel : H.objs.card + H.embBound + 1 ≤ fuel + p.length)
    (hx : HeapExact H (area x)) (hJ : J x) (hd : Doomed H s D (area x)) (hp : Path H s (area x) p)
    (ha : Under H s p a) :
    ∃ y, releaseOn area zeroReturns unlink fuel a x = some y ∧ Released H (area x) a (area y) ∧
      Died H D (area x) (area y) ∧ J y ∧ R x y := by
  induction fuel generalizing p x a with
  | zero =>
    have := hp.length_le
    omega
  | succ fuel ih =>
    have hmem := ha.mem_slots hd.slot hp
    unfold releaseOn
    by_cases hz : (area x).word a = 0
    · exact ⟨x, if_pos hz, ⟨Shrunk.refl _ _, hx, hz⟩, Died.refl, hJ, hrefl x⟩
    rw [if_neg hz]
    have ho := hx.obj hmem hz
    have hpos := hx.refCnt_pos hmem ho
    rw [if_neg (by omega : ¬ (zeroReturns = true ∧ (area x).refCnt ((area x).word a) = 0))]
    by_cases hone : (area x).refCnt ((area x).word a) = 1
    · rw [if_neg (not_not.mpr hone)]
      have hpath := hp.cons hd hx ha ho hone
      have hDo : D ((area x).word a) := hpath.doomed hd hx _ List.mem_cons_self
      have hlen := hpath.length_le
      have hemb := ObjHeap.emb_le (H := H) ho
      simp only [List.length_cons] at hlen
      obtain ⟨y, hrun, hx', hpath', hzero, hshr, hdied, hJ', hR⟩ := forEmbedded_exact hrefl htrans
        (by omega : H.emb ((area x).word a) < fuel) hx hJ hd hpath fun y k hk hx' hJ' hd' hp' =>
          ih (by simp only [List.length_cons]; omega) hx' hJ' hd' hp' ⟨k, hk, rfl⟩
      have hwa : (area y).word a = (area x).word a := hpath'.2.1
      have hone' : (area y).refCnt ((area y).word a) = 1 := by
        rw [hwa]
        exact hpath'.2.2.2.1
      obtain ⟨z, hrunz, hun, hJ'', hR'⟩ := hspec y a hx' hJ' hmem (by rw [hwa]; exact ho)
      have hcnt := hun.count
      have hdead : (area z).refCnt ((area x).word a) = 0 := by
        rw [← hwa]
        omega
      have hsh := hun.shrunk (by rw [hwa]; exact ho)
      have hfrom : ∀ o, Reaches H (area y) (· = a) o → Reaches H (area x) (· = a) o := fun o hr =>
        hr.mono hshr.word (fun _ hb => hb ▸ hmem) fun _ hb => Reaches.here hb
      refine ⟨z, by rw [hrun]; exact hrunz, ⟨?_, ?_, hun.cleared⟩, ?_, hJ'', htrans _ _ _ hR hR'⟩
      · refine ⟨?_, (hshr.trans hsh (F := fun _ => True) (fun _ _ => trivial) (fun _ _ => trivial)
          hfrom).header, fun o ho' => Nat.le_trans (hsh.mono o ho') (hshr.mono o ho')⟩
        -- the children's slots belong to an object that is dead now
        intro b hb
        rcases (hshr.trans hsh (F := fun b => b = a ∨ ∃ k < H.emb ((area x).word a),
          b = embeddedSlot ((area x).word a) k) (fun _ h => Or.inr h) (fun _ h => Or.inl h) hfrom).slot
          b hb with hsame | ⟨hz', (rfl | ⟨k, hk, rfl⟩) | hrest⟩
        · exact Or.inl hsame
        · exact Or.inr ⟨hz', Or.inl rfl⟩
        · exact Or.inr ⟨hz', Or.inr ⟨_, Reaches.here rfl ho, hdead, k, hk, rfl⟩⟩
        · exact Or.inr ⟨hz', Or.inr hrest⟩
      · exact hun.exact hx' hmem (by rw [hwa]; exact ho) fun _ => by rw [hwa]; exact hzero
      · refine hdied.trans fun o ho' hlive hd' => ?_
        by_cases hoo : o = (area y).word a
        · rw [hoo, hwa]
          exact hDo
        · rw [hun.refCnt_of_ne ho' hoo] at hd'
          exact absurd hd' hlive
    · rw [if_pos hone]
      obtain ⟨y, hrun, hun, hJ', hR⟩ := hspec x a hx hJ hmem ho
      refine ⟨y, hrun, ⟨hun.shrunk ho, hun.exact hx hmem ho fun h => absurd h hone, hun.cleared⟩,
        ?_, hJ', hR⟩
      intro o ho' hlive hdead
      by_cases hoo : o = (area x).word a
      · have hcnt := hun.count
        rw [hoo] at hdead
        omega
      · rw [hun.refCnt_of_ne ho' hoo] at hdead
        exact absurd hdead hlive

/-- **Releasing a slot** that lies outside what may die with it. -/
theorem releaseOn_exact {D : Nat → Prop} {zeroReturns : Bool} {fuel : Nat} {x : σ} {a : Nat}
    (hfuel : H.objs.card + H.embBound < fuel) (hx : HeapExact H (area x)) (hJ : J x)
    (hd : Doomed H a D (area x)) :
    ∃ y, releaseOn area zeroReturns unlink fuel a x = some y ∧ Released H (area x) a (area y) ∧
      Died H D (area x) (area y) ∧ J y ∧ R x y :=
  releaseOn_path hspec hrefl htrans (p := []) (by rw [List.length_nil]; omega) hx hJ hd trivial rfl

end Whole

/-- **Releasing a root.** -/
theorem releaseWith_exact {H : ObjHeap} {J : Shm → Prop} {R : Shm → Shm → Prop}
    {unlink : Nat → Nat → Shm → Shm} (hspec : UnlinkSpec H J R unlink) (hrefl : ∀ m, R m m)
    (htrans : ∀ m₁ m₂ m₃, R m₁ m₂ → R m₂ m₃ → R m₁ m₃) {zeroReturns : Bool} {fuel : Nat} {m : Shm}
    {a : Nat} (hfuel : H.objs.card + H.embBound < fuel) (hx : HeapExact H m) (hJ : J m)
    (ha : a ∈ H.roots) :
    ∃ m', releaseWith zeroReturns unlink fuel a m = some m' ∧ Released H m a m' ∧ J m' ∧ R m m' := by
  have hon : UnlinkSpecOn H id J R fun a o m => some (unlink a o m) := fun m b hx hJ hb ho =>
    ⟨_, rfl, hspec m b hx hJ hb ho⟩
  obtain ⟨m', hrun, hrel, -, hJ', hR⟩ := releaseOn_exact hon hrefl htrans hfuel hx hJ
    (Doomed.root (m := m) ha)
  rw [releaseWith_eq]
  exact ⟨m', hrun, hrel, hJ', hR⟩

/-- Other roots keep what they hold. -/
theorem Released.root {H : ObjHeap} {m m' : Shm} {a b : Nat} (h : Released H m a m')
    (hb : b ∈ H.roots) (hba : b ≠ a) : m'.word b = m.word b := by
  rcases h.slot b (ObjHeap.root_mem hb) with hsame | ⟨-, he | ⟨o, hr, -, k, hk, heq⟩⟩
  · exact hsame
  · exact absurd he hba
  · exact absurd heq (ObjHeap.root_ne_embeddedSlot hb hr.mem hk)

end CxlShm
