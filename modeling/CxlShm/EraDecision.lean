import CxlShm.EraCommit
import CxlShm.HashIndex

/-! # EraDecision — the commit decision and its two guards

The era invariant needs two facts about the callers of `link_reference`: it reads the stamp of an object
somebody references, and no stamp carries an era its client has still to use. `get_ref`, `sent_to` and
`cxl_unwrap` take the object from a live reference and meet both. `put` meets neither: it stamps its new
object with count 0 and its own current era, which `link_reference` then takes for its own.
-/

namespace CxlShm

open Transition SlotCount

/-! ## §1 — the runs without the guards -/

/-- A slot is linked only when 0 and unlinked only when it holds the object. -/
def EraMove.allowed (W : RefWorld) (s : EraSys) : EraMove → Prop
  | .call i c => i ∈ W.ids ∧ s.client i = none ∧ c.ref ∈ W.slots i ∧ c.refed ∈ W.objs ∧
      s.shm.word c.ref = c.before
  | .access i _ => i ∈ W.ids ∧ ∃ c pc, s.client i = some (c, pc)
  | .env m => W.Frame s.shm m

/-- If the move is the first load of a `link_reference`, the object has a reference. -/
def EraMove.Referenced (s : EraSys) : EraMove → Prop
  | .access i _ => ∀ c, s.client i = some (c, .loadInfo) → c.func = .linkRef → s.shm.refCnt c.refed ≠ 0
  | _ => True

/-- The start of a run: clients between operations with empty logs, `thread_init` done, every recorded
era older than the current era of its client, counts equal to the slots, the words below the era matrix
zero. The stamps may carry any era. -/
structure EraBegin (W : RefWorld) (s : EraSys) : Prop where
  idle : ∀ i, s.client i = none
  log : ∀ i ∈ W.ids, s.logged i = none ∧ ∀ k < redoCachelineCnt, s.shm.redo i k = RedoLog.zero
  era_eq : ∀ i ∈ W.ids, s.shm.era i i = s.eras i ∧ 0 < s.eras i
  below : ∀ k : Int, k < 0 → s.shm.eraCell k = 0
  lcid : ∀ o ∈ W.objs, getLcidFromInfo (s.shm.refInfo o) ≤ maxThread
  seen : ∀ c ∈ W.ids, ∀ j, 0 < j → j < maxThread → j ≠ c → s.shm.era j c < s.eras c
  net : ∀ i ∈ W.ids, ∀ o ∈ W.objs, s.net i o = holding (W.slots i) s.shm.word o
  count : ∀ o ∈ W.objs, (s.shm.refCnt o : Int) = ∑ k ∈ W.ids, s.net k o

/-- Every stamp carries an era its client has used up. -/
def StampsOlder (W : RefWorld) (s : EraSys) : Prop :=
  ∀ o ∈ W.objs, getLcidFromInfo (s.shm.refInfo o) ∈ W.ids →
    getLenumFromInfo (s.shm.refInfo o) < s.eras (getLcidFromInfo (s.shm.refInfo o))

/-- The states of all runs. -/
def CallReach (W : RefWorld) : EraSys → Prop :=
  Reach (EraBegin W) (fun s s' => ∃ mv : EraMove, mv.allowed W s ∧ s' = s.next mv) (EraRoom W)

/-- The states of the runs that start with used-up eras in the stamps and link only objects that have a
reference. -/
def ReferencedReach (W : RefWorld) : EraSys → Prop :=
  Reach (fun s => EraBegin W s ∧ StampsOlder W s)
    (fun s s' => ∃ mv : EraMove, mv.allowed W s ∧ mv.Referenced s ∧ s' = s.next mv) (EraRoom W)

section Guards

variable {W : RefWorld} {s s' : EraSys}

theorem EraMove.enabled_iff {mv : EraMove} : mv.enabled W s ↔ mv.allowed W s ∧ mv.Referenced s := by
  cases mv with
  | call i c => exact (and_iff_left trivial).symm
  | env m => exact (and_iff_left trivial).symm
  | access i spurious =>
    constructor
    · intro ⟨hi, c, pc, hc, hguard⟩
      refine ⟨⟨hi, c, pc, hc⟩, ?_⟩
      intro c' hc' hlink
      cases hc.symm.trans hc'
      exact hguard rfl hlink
    · intro ⟨⟨hi, c, pc, hc⟩, href⟩
      refine ⟨hi, c, pc, hc, ?_⟩
      intro hpc hlink
      exact href c (hpc ▸ hc) hlink

theorem eraInit_iff : EraInit W s ↔ EraBegin W s ∧ StampsOlder W s := by
  constructor
  · intro h
    refine ⟨⟨h.idle, h.log, h.era_eq, h.below, ?_, h.seen, h.net, h.count⟩, ?_⟩
    · exact fun o ho => (h.stamp o ho).1
    · exact fun o ho => (h.stamp o ho).2
  · intro ⟨h, hold⟩
    exact ⟨h.idle, h.log, h.era_eq, h.below, fun o ho => ⟨h.lcid o ho, hold o ho⟩, h.seen, h.net, h.count⟩

/-- The guarded runs are those of the era protocol. -/
theorem referencedReach_iff : ReferencedReach W s ↔ EraReach W s := by
  constructor
  · intro h
    induction h with
    | init hi hok => exact .init (eraInit_iff.mpr hi) hok
    | step _ hs hok ih =>
      obtain ⟨mv, hallowed, href, rfl⟩ := hs
      exact ih.next mv (EraMove.enabled_iff.mpr ⟨hallowed, href⟩) hok
  · intro h
    induction h with
    | init hi hok => exact .init (eraInit_iff.mp hi) hok
    | step _ hs hok ih =>
      obtain ⟨mv, hen, rfl⟩ := hs
      obtain ⟨hallowed, href⟩ := EraMove.enabled_iff.mp hen
      exact .step ih ⟨mv, hallowed, href, rfl⟩ hok

/-- They are runs. -/
theorem ReferencedReach.callReach (h : ReferencedReach W s) : CallReach W s := by
  induction h with
  | init hi hok => exact .init hi.1 hok
  | step _ hs hok ih =>
    obtain ⟨mv, hallowed, -, rfl⟩ := hs
    exact .step ih ⟨mv, hallowed, rfl⟩ hok

theorem CallReach.next (h : CallReach W s) (mv : EraMove) (hmv : mv.allowed W s)
    (hroom : EraRoom W (s.next mv)) : CallReach W (s.next mv) :=
  Reach.step h ⟨mv, hmv, rfl⟩ hroom

end Guards

/-! ## §2 — the decision -/

/-- **The era-based commit decision is exact** in every state of every run whose stamps carry used-up
eras at the start and whose calls of `link_reference` find the count of their object above 0. -/
theorem redoRefCnt_exact (W : RefWorld) (s : EraSys) (h : ReferencedReach W s) (i : Nat) (hi : i ∈ W.ids) :
    ReplayExact W s i := by
  have hreach : EraReach W s := referencedReach_iff.mp h
  exact hreach.replayExact hi

/-- The link crashes right after its compare-exchange, before the slot is stored; the replay stores
it. -/
theorem redoRefCnt_exact_window :
    (lonelyMoves.foldl EraSys.next lonelyStart).shm.word 134283264 = 0 ∧
      (redoRefCnt 1 (lonelyMoves.foldl EraSys.next lonelyStart).shm).word 134283264 = 134348800 := by
  refine ⟨by decide, ?_⟩
  have h := redoRefCnt_exact lonelyWorld _ (referencedReach_iff.mpr lonelyMoves_reach) 1 (by decide)
  exact (h.slot ⟨⟨.linkRef, 134283264, 134348800⟩, 1, true⟩ (by decide)).1.mpr rfl

/-! ## §3 — `put` crashes before its compare-exchange -/

/-- Client 1, in its first era, has the page (0, 1) of 48-byte blocks; nothing has been allocated. -/
def indexArea : Shm :=
  { Shm.zero with
    eraCell := fun k => if k = 0 then 1 else 0
    tls := Function.update Shm.zero.tls 1
      { Shm.zero.tls 1 with pages := fun i => if i = 4 then ⟨some (0, 1), some (0, 1), 48⟩ else ⟨none, none, 0⟩ }
    segment := fun i =>
      if i = 0 then
        ⟨1, 1, fun j => if j = 1 then ⟨pageStart (0, 1), 0, 48, 0, none, none, false⟩ else Page.zero⟩
      else Segment.zero }

/-- `put(8192, 7)` calls `link_reference` on its new object here. -/
def putArea : Shm := newEntry 1 8192 7 134283264 (0, 1) indexArea

theorem put_indexArea :
    put 1 1 (2 ^ 28) 8192 7 indexArea = some (linkReference 1 67174400 134283264 putArea) := by
  have hpage : cxlFindPage 1 (.bin (cxlPageQueue false (3 * 8 + sizeofCxlObj))) indexArea = some (0, 1) := by
    decide
  have hsearch : findEntry 8192 1 (putBucket 1 8192) indexArea = some (.vacant (putBucket 1 8192)) := rfl
  have hblock : (indexArea.page (0, 1)).free = pageStart (0, 1) := rfl
  simp only [put, hsearch, hpage, cxlPageMalloc, hblock, bind, Option.bind_some]
  rfl

/-- The bucket of the key is the one slot, the new object the one object. -/
def putWorld : RefWorld where
  ids := {1}
  objs := {134283264}
  slots := fun i => if i = 1 then {67174400} else ∅
  ids_range := lonelyWorld.ids_range
  slots_disjoint := by
    intro i j a hi hj
    split at hi <;> split at hj <;> simp_all
  header_not_slot := by
    intro o ho i
    rw [Finset.mem_singleton.mp ho]
    split <;> decide
  objs_apart := by decide
  zero_not_obj := by decide

def putStart : EraSys where
  shm := putArea
  client := fun _ => none
  logged := fun _ => none
  eras := fun _ => 1
  net := fun _ _ => 0

theorem putStart_begin : EraBegin putWorld putStart where
  idle := fun _ => rfl
  log := by
    intro i hi
    rw [Finset.mem_singleton.mp hi]
    exact ⟨rfl, fun _ _ => rfl⟩
  era_eq := by decide
  below := by
    intro k hk
    exact if_neg (by omega)
  lcid := by decide
  seen := by
    intro c hc j hj hj' hne
    rw [Finset.mem_singleton.mp hc] at *
    show (if Shm.eraIdx j 1 = 0 then 1 else 0) < 1
    rw [if_neg]
    · decide
    · simp only [Shm.eraIdx, maxThread] at *
      omega
  net := by decide
  count := by decide

/-- The call of `link_reference` up to its compare-exchange: the log line is stored. -/
def putMoves : List EraMove :=
  .call 1 ⟨.linkRef, 67174400, 134283264⟩ :: List.replicate 4 (.access 1 false)

theorem putMoves_reach : CallReach putWorld (putMoves.foldl EraSys.next putStart) := by
  have h0 : CallReach putWorld putStart := .init putStart_begin ⟨by decide, by decide⟩
  have h1 := h0.next (.call 1 ⟨.linkRef, 67174400, 134283264⟩)
    ⟨by decide, rfl, by decide, by decide, by decide⟩ ⟨by decide, by decide⟩
  have h2 := h1.next (.access 1 false) ⟨by decide, _, _, rfl⟩ ⟨by decide, by decide⟩
  have h3 := h2.next (.access 1 false) ⟨by decide, _, _, rfl⟩ ⟨by decide, by decide⟩
  have h4 := h3.next (.access 1 false) ⟨by decide, _, _, rfl⟩ ⟨by decide, by decide⟩
  exact h4.next (.access 1 false) ⟨by decide, _, _, rfl⟩ ⟨by decide, by decide⟩

/-- **An operation that has not committed is replayed.** The client crashes before its
compare-exchange; the new object carries its id and its current era, so the replay takes the line for
committed and stores the bucket, while the count of the object is still 0. -/
theorem redoRefCnt_not_exact :
    put 1 1 (2 ^ 28) 8192 7 indexArea = some (linkReference 1 67174400 134283264 putArea) ∧
    (putMoves.foldl EraSys.next putStart).logged 1 = some ⟨⟨.linkRef, 67174400, 134283264⟩, 1, false⟩ ∧
    (redoRefCnt 1 (putMoves.foldl EraSys.next putStart).shm).word 67174400 = 134283264 ∧
    (redoRefCnt 1 (putMoves.foldl EraSys.next putStart).shm).refCnt 134283264 = 0 ∧
    ¬ ∀ W s, CallReach W s → ∀ i ∈ W.ids, ReplayExact W s i := by
  have hlogged : (putMoves.foldl EraSys.next putStart).logged 1 =
      some ⟨⟨.linkRef, 67174400, 134283264⟩, 1, false⟩ := by decide
  have hstored : (redoRefCnt 1 (putMoves.foldl EraSys.next putStart).shm).word 67174400 = 134283264 := by
    decide
  refine ⟨put_indexArea, hlogged, hstored, by decide, ?_⟩
  intro h
  have hexact := h putWorld _ putMoves_reach 1 (by decide)
  have hcommitted := (hexact.slot _ hlogged).1.mp hstored
  exact absurd hcommitted (by decide)

end CxlShm
