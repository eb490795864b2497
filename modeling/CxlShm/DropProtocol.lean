import CxlShm.RefStep
import CxlShm.Lib.Transition
import CxlShm.Heap
import Mathlib.Algebra.BigOperators.Fin
import Mathlib.Algebra.Order.BigOperators.Group.Finset

/-! # DropProtocol — `test_free` by any number of clients

Each client drops references it owns, one memory access at a time and in any order. `test_free`
recurses through embedded references, so a client is a stack of activations. A slot is written by the
client that drops it, so its loads of that slot are not steps of their own.

`test_free` decides on a load of the count ("above one: just unlink") that is separate from the
compare-exchange that takes the count down. `orphans` records the objects for which the two disagree
and a child is lost.
-/

namespace CxlShm

open Transition SlotCount

/-! ## §1 — the heap -/

/-- The fixed part of a run: the heap, the clients and the RootRef slots of each. -/
structure DropWorld extends ObjHeap where
  ids : Finset Nat
  rootsOf : Nat → Finset Nat
  ids_range : ∀ i ∈ ids, 0 < i ∧ i < maxThread
  roots_disjoint : ∀ i j a, a ∈ rootsOf i → a ∈ rootsOf j → i = j
  roots_eq : roots = ids.biUnion rootsOf

theorem DropWorld.mem_roots (W : DropWorld) {i a : Nat} (hi : i ∈ W.ids) (ha : a ∈ W.rootsOf i) :
    a ∈ W.roots := by
  rw [W.roots_eq]
  exact Finset.mem_biUnion.mpr ⟨i, hi, ha⟩

/-! ## §2 — `test_free` -/

/-- Where an activation of `test_free` stands. `deep` is set when the children have been released
first. -/
inductive DropPc
  | test
  | loadInfo
  | loop (refed k : Nat)
  | inChild (refed k : Nat)
  | unlink (c : RefCall) (pc : RefPc) (deep : Bool)
  deriving DecidableEq, Repr

/-- An activation `test_free(ref)`. -/
structure DropFrame where
  ref : Nat
  pc : DropPc
  deriving DecidableEq, Repr

def DropFrame.to (f : DropFrame) (pc : DropPc) : DropFrame := ⟨f.ref, pc⟩

/-- The top activation returns: its caller goes on with the next child. -/
def returned : List DropFrame → List DropFrame
  | [] => []
  | f :: rest =>
    match f.pc with
    | .inChild o k => f.to (.loop o (k + 1)) :: rest
    | _ => f :: rest

/-- The next access of a client whose stack has `f` on top. -/
def dropStep (tid : Nat) (spurious : Bool) (f : DropFrame) (rest : List DropFrame) (m : Shm) :
    List DropFrame × Shm :=
  match f.pc with
  | .test => if m.word f.ref = 0 then (returned rest, m) else (f.to .loadInfo :: rest, m)
  | .loadInfo =>
    -- `get_ref_cnt_from_info(ref_info)-1 > 0` is unsigned: it fails for the count 1 only
    if m.refCnt (m.word f.ref) = 1 then (f.to (.loop (m.word f.ref) 0) :: rest, m)
    else (f.to (.unlink ⟨.unlinkRef, f.ref, m.word f.ref⟩ .loadInfo false) :: rest, m)
  | .loop o k =>
    if k < m.word (o + 16) then (⟨embeddedSlot o k, .test⟩ :: f.to (.inChild o k) :: rest, m)
    else (f.to (.unlink ⟨.unlinkRef, f.ref, m.word f.ref⟩ .loadInfo true) :: rest, m)
  | .inChild _ _ => (f :: rest, m)
  | .unlink c pc deep =>
    (if (refStep tid spurious c pc m).1 = .done then returned rest
      else f.to (.unlink c (refStep tid spurious c pc m).1 deep) :: rest,
      (refStep tid spurious c pc m).2)

/-! ## §3 — the runs -/

structure DropSys where
  shm : Shm
  stack : Nat → List DropFrame
  orphans : Finset Nat

/-- The object still refers to another one. -/
def HasChild (m : Shm) (o : Nat) : Prop :=
  ∃ k, k < m.word (o + 16) ∧ m.word (embeddedSlot o k) ≠ 0

instance (m : Shm) (o : Nat) : Decidable (HasChild m o) := by
  unfold HasChild
  infer_instance

/-- This access is the compare-exchange of a `test_free` that saw a count above one, it takes the
count from 1 to 0, and the object still refers to another one. -/
def Orphans (spurious : Bool) (m : Shm) (f : DropFrame) : Prop :=
  match f.pc with
  | .unlink c pc deep =>
    casSucceeds spurious c m pc ∧ deep = false ∧ m.refCnt c.refed = 1 ∧ HasChild m c.refed
  | _ => False

instance (spurious : Bool) (m : Shm) (f : DropFrame) : Decidable (Orphans spurious m f) := by
  unfold Orphans
  split <;> infer_instance

/-- The object the activation unlinks. -/
def DropFrame.unlinks (f : DropFrame) : Nat :=
  match f.pc with
  | .unlink c _ _ => c.refed
  | _ => 0

inductive DropMove
  | drop (i a : Nat)
  | access (i : Nat) (spurious : Bool)
  | env (m : Shm)

/-- What the list bookkeeping at the end of `cxl_free` leaves alone: slots, the stamps and the number
of embedded references of objects, and the width of the eras. -/
structure DropWorld.Frame (W : DropWorld) (m m' : Shm) : Prop where
  slot : ∀ a ∈ W.slots, m'.word a = m.word a
  info : ∀ o ∈ W.objs, m'.refInfo o = m.refInfo o
  embedded : ∀ o ∈ W.objs, m'.word (o + 16) = m.word (o + 16)
  era : ∀ k, m'.eraCell k < 2 ^ 32

def DropMove.enabled (W : DropWorld) (s : DropSys) : DropMove → Prop
  | .drop i a => i ∈ W.ids ∧ a ∈ W.rootsOf i ∧ s.stack i = []
  | .access i _ => i ∈ W.ids
  | .env m => W.Frame s.shm m

def DropSys.access (s : DropSys) (i : Nat) (spurious : Bool) (f : DropFrame)
    (rest : List DropFrame) : DropSys where
  shm := (dropStep i spurious f rest s.shm).2
  stack := Function.update s.stack i (dropStep i spurious f rest s.shm).1
  orphans := if Orphans spurious s.shm f then insert f.unlinks s.orphans else s.orphans

def DropSys.next (s : DropSys) : DropMove → DropSys
  | .drop i a => { s with stack := Function.update s.stack i [⟨a, .test⟩] }
  | .access i spurious =>
    match s.stack i with
    | [] => s
    | f :: rest => s.access i spurious f rest
  | .env m => { s with shm := m }

def DropStep (W : DropWorld) (s s' : DropSys) : Prop :=
  ∃ mv : DropMove, mv.enabled W s ∧ s' = s.next mv

/-- A heap of allocated objects whose counts equal the number of slots pointing to each. -/
structure DropInit (W : DropWorld) (s : DropSys) : Prop where
  idle : ∀ i, s.stack i = []
  orphans : s.orphans = ∅
  era : ∀ k, s.shm.eraCell k < 2 ^ 32
  target : ∀ a ∈ W.slots, s.shm.word a = 0 ∨ s.shm.word a ∈ W.objs
  embedded : ∀ o ∈ W.objs, s.shm.word (o + 16) = W.emb o
  count : ∀ o ∈ W.objs, s.shm.refCnt o = holding W.slots s.shm.word o
  live : ∀ o ∈ W.objs, s.shm.refCnt o ≠ 0

def DropReach (W : DropWorld) : DropSys → Prop := Reach (DropInit W) (DropStep W) fun _ => True

theorem DropReach.next {W : DropWorld} {s : DropSys} (h : DropReach W s) (mv : DropMove)
    (hen : mv.enabled W s) : DropReach W (s.next mv) :=
  Reach.step h ⟨mv, hen, rfl⟩ trivial

/-- No child reference is lost: freed objects refer to nothing, and the count of every other object
is the number of RootRefs and of slots in live objects that point to it. -/
structure NothingLost (W : DropWorld) (m : Shm) : Prop where
  released : ∀ o ∈ W.objs, m.refCnt o = 0 → ∀ k < W.emb o, m.word (embeddedSlot o k) = 0
  count : ∀ o ∈ W.objs, m.refCnt o ≠ 0 → m.refCnt o = holding (W.liveSlots m) m.word o

end CxlShm
