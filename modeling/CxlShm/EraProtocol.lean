import CxlShm.RefStep
import CxlShm.Redo
import CxlShm.Lib.Transition
import CxlShm.Lib.SlotCount
import Mathlib.Algebra.BigOperators.Fin

/-! # EraProtocol — the era-based commit decision, over every interleaving

Any number of clients run `link_reference` and `unlink_reference` on shared objects, one memory
access at a time and in any order; `compare_exchange_weak` may fail spuriously. A client crashes by
taking no further step, so a crash point is any reachable state.

The invariant has two halves. *Freshness*: an era of client `c` is seen in a stamp or in a row of the
era matrix only after the compare-exchange that published it (`InfoOk`, `seen_lt`). *Observation*:
whoever overwrites a stamp of `c` has recorded its era first (`Seen`), so a committed operation whose
slot is not stored yet is either still on the object or in some row (`Observed`).
-/

namespace CxlShm

open Transition SlotCount

/-! ## §1 — the clients, the objects and the slots -/

/-- The fixed part of a run: client ids, object offsets and the slots each client owns. -/
structure RefWorld where
  ids : Finset Nat
  objs : Finset Nat
  slots : Nat → Finset Nat
  ids_range : ∀ i ∈ ids, 0 < i ∧ i < maxThread
  slots_disjoint : ∀ i j a, a ∈ slots i → a ∈ slots j → i = j
  header_not_slot : ∀ o ∈ objs, ∀ i, o ∉ slots i ∧ o + 8 ∉ slots i ∧ o + 16 ∉ slots i
  objs_apart : ∀ o ∈ objs, ∀ o' ∈ objs, o' ≠ o + 8
  zero_not_obj : 0 ∉ objs

/-- History of a client's last logged operation: the call, its era, and whether its
compare-exchange succeeded. -/
structure Logged where
  call : RefCall
  era : Nat
  committed : Bool
  deriving DecidableEq, Repr

/-- A state of the run. `logged`, `eras` and `net` are history: the last logged operation, the eras
used so far (not wrapped at 32 bits), and the successful link minus unlink compare-exchanges of a
client on an object, on top of the slots it started with. -/
structure EraSys where
  shm : Shm
  client : Nat → Option (RefCall × RefPc)
  logged : Nat → Option Logged
  eras : Nat → Nat
  net : Nat → Nat → Int

/-- What a successful compare-exchange adds to the count. -/
def RefCall.delta (c : RefCall) : Int :=
  match c.func with
  | .linkRef => 1
  | .unlinkRef => -1

inductive EraMove
  | call (i : Nat) (c : RefCall)
  | access (i : Nat) (spurious : Bool)
  | env (m : Shm)

/-- What the rest of the library may do meanwhile: everything but the slots, the stamps of the
objects, the era matrix and the logs. The list bookkeeping of `cxl_free` is of this kind. -/
structure RefWorld.Frame (W : RefWorld) (m m' : Shm) : Prop where
  eraCell : m'.eraCell = m.eraCell
  redo : ∀ i ∈ W.ids, (m'.tls i).redo = (m.tls i).redo
  slot : ∀ i ∈ W.ids, ∀ a ∈ W.slots i, m'.word a = m.word a
  info : ∀ o ∈ W.objs, m'.refInfo o = m.refInfo o

/-- When a move may happen. A slot is linked only when 0 and unlinked only when it holds the object;
`link_reference` reads the stamp of an object somebody references (`get_ref`, `sent_to` and
`cxl_unwrap` all take the offset from a live reference). -/
def EraMove.enabled (W : RefWorld) (s : EraSys) : EraMove → Prop
  | .call i c => i ∈ W.ids ∧ s.client i = none ∧ c.ref ∈ W.slots i ∧ c.refed ∈ W.objs ∧
      s.shm.word c.ref = c.before
  | .access i _ => i ∈ W.ids ∧ ∃ c pc, s.client i = some (c, pc) ∧
      (pc = .loadInfo → c.func = .linkRef → s.shm.refCnt c.refed ≠ 0)
  | .env m => W.Frame s.shm m

/-- The log history after an access at `pc`. -/
def logAfter (c : RefCall) (commit : Prop) [Decidable commit] (old : Option Logged) :
    RefPc → Option Logged
  | .storeRedo _ cur => some ⟨c, cur, false⟩
  | .cas _ cur => if commit then some ⟨c, cur, true⟩ else old
  | _ => old

/-- One access of client `i`, which stands at `pc` of the call `c`. -/
def EraSys.access (s : EraSys) (i : Nat) (spurious : Bool) (c : RefCall) (pc : RefPc) : EraSys where
  shm := (refStep i spurious c pc s.shm).2
  client := Function.update s.client i
    (if (refStep i spurious c pc s.shm).1 = .done then none
      else some (c, (refStep i spurious c pc s.shm).1))
  logged := Function.update s.logged i
    (logAfter c (casSucceeds spurious c s.shm pc) (s.logged i) pc)
  eras := match pc with
    | .bumpEra _ => Function.update s.eras i (s.eras i + 1)
    | _ => s.eras
  net := if casSucceeds spurious c s.shm pc then
      Function.update s.net i (Function.update (s.net i) c.refed (s.net i c.refed + c.delta))
    else s.net

def EraSys.next (s : EraSys) : EraMove → EraSys
  | .call i c => { s with client := Function.update s.client i (some (c, .loadInfo)) }
  | .access i spurious =>
    match s.client i with
    | none => s
    | some (c, pc) => s.access i spurious c pc
  | .env m => { s with shm := m }

def EraStep (W : RefWorld) (s s' : EraSys) : Prop :=
  ∃ mv : EraMove, mv.enabled W s ∧ s' = s.next mv

/-- Fewer than `2^32` eras per client and fewer than `2^16` references per object. -/
def EraRoom (W : RefWorld) (s : EraSys) : Prop :=
  (∀ i ∈ W.ids, s.eras i < 2 ^ 32) ∧ ∀ o ∈ W.objs, ∑ k ∈ W.ids, s.net k o < 2 ^ 16

/-- The start of a run: clients between operations with empty logs, `thread_init` done (so every
own era is positive), every stamp and every recorded era older than the current era of its client,
counts equal to the slots, the words below the era matrix zero. -/
structure EraInit (W : RefWorld) (s : EraSys) : Prop where
  idle : ∀ i, s.client i = none
  log : ∀ i ∈ W.ids, s.logged i = none ∧ ∀ k < redoCachelineCnt, s.shm.redo i k = RedoLog.zero
  era_eq : ∀ i ∈ W.ids, s.shm.era i i = s.eras i ∧ 0 < s.eras i
  below : ∀ k : Int, k < 0 → s.shm.eraCell k = 0
  stamp : ∀ o ∈ W.objs, getLcidFromInfo (s.shm.refInfo o) ≤ maxThread ∧
    (getLcidFromInfo (s.shm.refInfo o) ∈ W.ids →
      getLenumFromInfo (s.shm.refInfo o) < s.eras (getLcidFromInfo (s.shm.refInfo o)))
  seen : ∀ c ∈ W.ids, ∀ j, 0 < j → j < maxThread → j ≠ c → s.shm.era j c < s.eras c
  net : ∀ i ∈ W.ids, ∀ o ∈ W.objs, s.net i o = holding (W.slots i) s.shm.word o
  count : ∀ o ∈ W.objs, (s.shm.refCnt o : Int) = ∑ k ∈ W.ids, s.net k o

/-- The states of the runs of `W`. -/
def EraReach (W : RefWorld) : EraSys → Prop := Reach (EraInit W) (EraStep W) (EraRoom W)

theorem EraReach.next {W : RefWorld} {s : EraSys} (h : EraReach W s) (mv : EraMove)
    (hen : mv.enabled W s) (hroom : EraRoom W (s.next mv)) : EraReach W (s.next mv) :=
  Reach.step h ⟨mv, hen, rfl⟩ hroom

end CxlShm
