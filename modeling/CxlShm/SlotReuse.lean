import CxlShm.RefStep
import CxlShm.Redo
import CxlShm.Lib.Transition

/-! # SlotReuse — thread-local slots claimed, crashed, recovered and claimed again

`thread_init` claims a slot of the thread-local vector by a compare-exchange on
`packed_machine_process_id` and then sets the queues of the slot; the monitor replays the log of a
crashed holder, collects its garbage, sets the queues again and stores 0 to the id. Neither touches
`tls->redo`: the only code that clears the log is the `memset` of `cxl_malloc_generic`, which the
first allocation of every holder runs because its page queues are empty.

`author` records which holder of the slot wrote each line, `cleared` whether the present holder has
been through that `memset`.
-/

namespace CxlShm

open Transition

/-! ## §1 — the machine -/

/-- Where the holder of a slot stands; `replayed` once the monitor has run `redo_ref_cnt` on it. -/
inductive HolderPc
  | free
  | resetQueues
  | bumpEra
  | idle
  | clearLog (k : Nat)
  | inCall (c : RefCall) (pc : RefPc)
  | replayed
  deriving DecidableEq, Repr

/-- The slot belongs to a client that may crash. -/
def HolderPc.held : HolderPc → Prop
  | .free => False
  | .replayed => False
  | _ => True

instance (pc : HolderPc) : Decidable pc.held := by
  cases pc <;> unfold HolderPc.held <;> infer_instance

/-- `gen`, `cleared` and `author` are history: how often the slot has been claimed, whether the
present holder has cleared the log, and which holder wrote each line. -/
structure SlotSys where
  shm : Shm
  pc : Nat → HolderPc
  gen : Nat → Nat
  cleared : Nat → Bool
  author : Nat → Nat → Nat

inductive SlotMove
  /-- the compare-exchange of `thread_init` succeeds -/
  | claim (i id : Nat)
  /-- the holder's next access -/
  | access (i : Nat) (spurious : Bool)
  /-- the holder enters `cxl_malloc_generic` -/
  | malloc (i : Nat)
  | call (i : Nat) (c : RefCall)
  /-- the monitor replays the slot -/
  | redo (i : Nat)
  /-- the monitor has collected and stores 0 to the id -/
  | release (i : Nat)
  | env (m : Shm)

/-- What everything else leaves alone, `recovery_garbage_collection` included: the logs and the
ids. -/
structure LogFrame (m m' : Shm) : Prop where
  redo : ∀ i k, m'.redo i k = m.redo i k
  id : ∀ i, (m'.tls i).packedMachineProcessId = (m.tls i).packedMachineProcessId

/-- A holder makes no reference operation before its first allocation: every handle comes from
`thread_base_ref_alloc`, and `put` allocates before it links. -/
def SlotMove.enabled (s : SlotSys) : SlotMove → Prop
  | .claim i id => id ≠ 0 ∧ s.pc i = .free ∧ (s.shm.tls i).packedMachineProcessId = 0
  | .access i _ => (s.pc i).held ∧ s.pc i ≠ .idle
  | .malloc i => s.pc i = .idle
  | .call i _ => s.pc i = .idle ∧ s.cleared i = true
  | .redo i => (s.pc i).held
  | .release i => s.pc i = .replayed
  | .env m => LogFrame s.shm m

def SlotSys.setPc (s : SlotSys) (i : Nat) (pc : HolderPc) : SlotSys :=
  { s with pc := Function.update s.pc i pc }

def authorAfter (i g : Nat) (author : Nat → Nat → Nat) : Option Nat → Nat → Nat → Nat
  | none => author
  | some k => Function.update author i (Function.update (author i) k g)

def SlotSys.access (s : SlotSys) (i : Nat) (spurious : Bool) : SlotSys :=
  match s.pc i with
  | .resetQueues =>
    { s.setPc i .bumpEra with shm := s.shm.setTls i (s.shm.tls i).resetQueues }
  | .bumpEra =>
    { s.setPc i .idle with shm := s.shm.storeEra i i ((s.shm.era i i + 1) % 2 ^ 32) }
  | .clearLog k =>
    { s.setPc i (if k + 1 < redoCachelineCnt then .clearLog (k + 1) else .idle) with
      shm := s.shm.storeRedo i k RedoLog.zero
      cleared := if k + 1 < redoCachelineCnt then s.cleared else Function.update s.cleared i true }
  | .inCall c pc =>
    { s.setPc i (if (refStep i spurious c pc s.shm).1 = .done then .idle
        else .inCall c (refStep i spurious c pc s.shm).1) with
      shm := (refStep i spurious c pc s.shm).2
      author := authorAfter i (s.gen i) s.author (writtenLine pc) }
  | _ => s

def SlotSys.next (s : SlotSys) : SlotMove → SlotSys
  | .claim i id =>
    { s.setPc i .resetQueues with
      shm := s.shm.setTls i ((s.shm.tls i).setId id)
      gen := Function.update s.gen i (s.gen i + 1)
      cleared := Function.update s.cleared i false }
  | .access i spurious => s.access i spurious
  | .malloc i => s.setPc i (.clearLog 0)
  | .call i c => s.setPc i (.inCall c .loadInfo)
  | .redo i => { s.setPc i .replayed with shm := redoRefCnt i s.shm }
  | .release i =>
    { s.setPc i .free with shm := s.shm.setTls i ((s.shm.tls i).resetQueues.setId 0) }
  | .env m => { s with shm := m }

def SlotStep (s s' : SlotSys) : Prop := ∃ mv : SlotMove, mv.enabled s ∧ s' = s.next mv

/-- Zeroed logs, no slot claimed. -/
structure SlotInit (s : SlotSys) : Prop where
  pc : ∀ i, s.pc i = .free
  redo : ∀ i k, s.shm.redo i k = RedoLog.zero
  author : ∀ i k, s.author i k ≤ s.gen i

def SlotReach : SlotSys → Prop := Reach SlotInit SlotStep fun _ => True

theorem SlotReach.next {s : SlotSys} (h : SlotReach s) (mv : SlotMove) (hen : mv.enabled s) :
    SlotReach (s.next mv) :=
  Reach.step h ⟨mv, hen, rfl⟩ trivial

/-! ## §2 — what the replay applies, and to whom the line belongs -/

/-- The replay of slot `i` would apply line `k`: it is the line chosen, and it passes the commit
test. -/
def Applies (m : Shm) (i k : Nat) : Prop :=
  k < redoCachelineCnt ∧ newestRedo m i = m.redo i k ∧ (m.redo i k).funcId ≠ none ∧
    needRedo m i (m.redo i k)

/-- The replay of slot `i` would apply a line that an earlier holder of the slot wrote. -/
def AppliesEarlier (s : SlotSys) (i : Nat) : Prop :=
  ∃ k, Applies s.shm i k ∧ s.author i k ≠ s.gen i

/-- The object of the line still carries its stamp, or the row of another client has reached its
era. -/
def LooksCommitted (m : Shm) (i : Nat) (l : RedoLog) : Prop :=
  (getLcidFromInfo (m.refInfo l.refed) = i ∧ getLenumFromInfo (m.refInfo l.refed) = l.curEra) ∨
    ∃ j < maxThread, j ≠ i ∧ l.curEra ≤ m.era j i

/-- The log of slot `i` names an operation with the largest era of the log, and that operation looks
committed. -/
def NamesCommitted (m : Shm) (i : Nat) : Prop :=
  ∃ k < redoCachelineCnt, (m.redo i k).funcId ≠ none ∧
    (∀ j < redoCachelineCnt, (m.redo i j).curEra ≤ (m.redo i k).curEra) ∧
    LooksCommitted m i (m.redo i k)

/-! ## §3 — the log under one access -/

theorem redo_setTls {m : Shm} {tid : Nat} {t : Tls} (ht : t.redo = (m.tls tid).redo) (i k : Nat) :
    (m.setTls tid t).redo i k = m.redo i k := by
  unfold Shm.redo Shm.setTls
  by_cases hi : i = tid
  · subst hi
    simp [ht]
  · simp [hi]

/-- Lines sit where their era puts them, so two lines that name an operation have different eras. -/
structure Placed (m : Shm) : Prop where
  idx : ∀ i k, k < redoCachelineCnt → (m.redo i k).funcId ≠ none →
    (m.redo i k).curEra % redoCachelineCnt = k
  zero : ∀ i k, (m.redo i k).funcId = none → m.redo i k = RedoLog.zero

theorem Placed.congr {m m' : Shm} (h : Placed m) (hr : ∀ i k, m'.redo i k = m.redo i k) :
    Placed m' := by
  refine ⟨?_, ?_⟩
  · intro i k hk
    rw [hr]
    exact h.idx i k hk
  · intro i k
    rw [hr]
    exact h.zero i k

theorem Placed.storeRedo {m : Shm} (h : Placed m) {tid k : Nat} {l : RedoLog}
    (hidx : l.funcId ≠ none → l.curEra % redoCachelineCnt = k)
    (hzero : l.funcId = none → l = RedoLog.zero) : Placed (m.storeRedo tid k l) := by
  refine ⟨?_, ?_⟩
  · intro i j hj
    by_cases hij : i = tid ∧ j = k
    · obtain ⟨rfl, rfl⟩ := hij
      rw [Shm.redo_storeRedo_self]
      exact hidx
    · rw [Shm.redo_storeRedo_of_ne _ _ (not_and_or.mp hij)]
      exact h.idx i j hj
  · intro i j
    by_cases hij : i = tid ∧ j = k
    · obtain ⟨rfl, rfl⟩ := hij
      rw [Shm.redo_storeRedo_self]
      exact hzero
    · rw [Shm.redo_storeRedo_of_ne _ _ (not_and_or.mp hij)]
      exact h.zero i j

/-- A line that names an operation and has the largest era is the line the replay chooses. -/
theorem Placed.newestRedo {m : Shm} (h : Placed m) {i k : Nat} (hk : k < redoCachelineCnt)
    (hf : (m.redo i k).funcId ≠ none)
    (hmax : ∀ j < redoCachelineCnt, (m.redo i j).curEra ≤ (m.redo i k).curEra) :
    newestRedo m i = m.redo i k := by
  obtain ⟨k', hk', heq⟩ := newestRedo_mem m i
  have hera : (m.redo i k').curEra = (m.redo i k).curEra := by
    apply Nat.le_antisymm (hmax k' hk')
    rw [← heq]
    exact curEra_le_newestRedo m i hk
  by_cases hf' : (m.redo i k').funcId = none
  · -- only cleared lines compete with era 0, and the scan starts on line 0
    have hz : (m.redo i k).curEra = 0 := by
      rw [← hera, h.zero i k' hf']
      rfl
    have hk0 : k = 0 := by
      rw [← h.idx i k hk hf, hz]
      rfl
    rw [hk0] at hmax ⊢
    exact newestRedo_eq_zero hmax
  · have : k' = k := by rw [← h.idx i k' hk' hf', hera, h.idx i k hk hf]
    rw [heq, this]

theorem needRedo_iff (m : Shm) (i : Nat) (l : RedoLog) : needRedo m i l ↔ LooksCommitted m i l := by
  unfold needRedo LooksCommitted
  rw [le_maxEra_iff]
  refine or_congr Iff.rfl ⟨?_, Or.inr⟩
  intro h
  rcases h with h0 | h
  · -- an era 0 is reached by every row
    refine ⟨if i = 0 then 1 else 0, ?_, ?_, by rw [h0]; exact Nat.zero_le _⟩
    · split <;> decide
    · split <;> omega
  · exact h

/-! ## §4 — the invariant -/

structure SlotInv (s : SlotSys) : Prop where
  placed : Placed s.shm
  author_le : ∀ i k, s.author i k ≤ s.gen i
  own : ∀ i k, k < redoCachelineCnt → (s.shm.redo i k).funcId ≠ none → s.cleared i = true →
    s.author i k = s.gen i
  earlier : ∀ i k, k < redoCachelineCnt → (s.shm.redo i k).funcId ≠ none → s.cleared i = false →
    (s.pc i).held → s.author i k < s.gen i
  clearing : ∀ i k, s.pc i = .clearLog k →
    k < redoCachelineCnt ∧ ∀ j < k, s.shm.redo i j = RedoLog.zero
  inCall : ∀ i c pc, s.pc i = .inCall c pc → s.cleared i = true

section Steps

variable {s : SlotSys} {i : Nat}

/-- Steps that leave the log, the history and every other slot alone. -/
theorem SlotInv.quiet (h : SlotInv s) (i : Nat) (m : Shm) (pc' : HolderPc)
    (hr : ∀ j k, m.redo j k = s.shm.redo j k)
    (hheld : pc'.held → (s.pc i).held)
    (hclear : ∀ k, pc' = .clearLog k → k = 0)
    (hcall : ∀ c pc, pc' = .inCall c pc → s.cleared i = true) :
    SlotInv { s.setPc i pc' with shm := m } := by
  have hpc : ∀ j, (s.setPc i pc').pc j = if j = i then pc' else s.pc j := by
    intro j
    simp [SlotSys.setPc, Function.update_apply]
  refine ⟨h.placed.congr hr, h.author_le, ?_, ?_, ?_, ?_⟩
  · intro j k hk hf
    rw [show ({ s.setPc i pc' with shm := m } : SlotSys).shm.redo j k = _ from hr j k] at hf
    exact h.own j k hk hf
  · intro j k hk hf hcl hh
    rw [show ({ s.setPc i pc' with shm := m } : SlotSys).shm.redo j k = _ from hr j k] at hf
    refine h.earlier j k hk hf hcl ?_
    have hh' : ((s.setPc i pc').pc j).held := hh
    rw [hpc] at hh'
    split at hh'
    · rename_i hji
      rw [hji]
      exact hheld hh'
    · exact hh'
  · intro j k hk
    have hk' : (s.setPc i pc').pc j = .clearLog k := hk
    rw [hpc] at hk'
    split at hk'
    · rw [hclear k hk']
      exact ⟨by decide, fun j hj => absurd hj (Nat.not_lt_zero j)⟩
    · refine ⟨(h.clearing j k hk').1, ?_⟩
      intro l hl
      rw [show ({ s.setPc i pc' with shm := m } : SlotSys).shm.redo j l = _ from hr j l]
      exact (h.clearing j k hk').2 l hl
  · intro j c pc hj
    have hj' : (s.setPc i pc').pc j = .inCall c pc := hj
    rw [hpc] at hj'
    split at hj'
    · rename_i hji
      rw [hji]
      exact hcall c pc hj'
    · exact h.inCall j c pc hj'

/-- A new holder takes the slot: every line is an earlier holder's from now on. -/
theorem SlotInv.claim (h : SlotInv s) (id : Nat) : SlotInv (s.next (.claim i id)) := by
  have hr : ∀ j k, (s.next (.claim i id)).shm.redo j k = s.shm.redo j k := redo_setTls rfl
  have hpc : ∀ j, (s.next (.claim i id)).pc j = if j = i then .resetQueues else s.pc j := by
    intro j
    simp [SlotSys.next, SlotSys.setPc, Function.update_apply]
  have hgen : ∀ j, (s.next (.claim i id)).gen j = if j = i then s.gen i + 1 else s.gen j := by
    intro j
    simp [SlotSys.next, Function.update_apply]
  have hcl : ∀ j, (s.next (.claim i id)).cleared j = if j = i then false else s.cleared j := by
    intro j
    simp [SlotSys.next, Function.update_apply]
  refine ⟨h.placed.congr hr, ?_, ?_, ?_, ?_, ?_⟩
  · intro j k
    have := h.author_le j k
    rw [hgen]
    show s.author j k ≤ _
    split
    · rename_i hji
      rw [hji] at this ⊢
      omega
    · exact this
  · intro j k hk hf hc
    rw [hr] at hf
    rw [hcl] at hc
    split at hc
    · exact absurd hc (by decide)
    · rename_i hji
      rw [hgen, if_neg hji]
      exact h.own j k hk hf hc
  · intro j k hk hf hc hh
    rw [hr] at hf
    rw [hcl] at hc
    rw [hpc] at hh
    rw [hgen]
    split
    · rename_i hji
      have := h.author_le i k
      rw [hji]
      show s.author i k < _
      omega
    · rename_i hji
      rw [if_neg hji] at hc hh
      exact h.earlier j k hk hf hc hh
  · intro j k hk
    rw [hpc] at hk
    split at hk
    · cases hk
    · refine ⟨(h.clearing j k hk).1, ?_⟩
      intro l hl
      rw [hr]
      exact (h.clearing j k hk).2 l hl
  · intro j c pc hj
    rw [hpc] at hj
    split at hj
    · cases hj
    · rename_i hji
      rw [hcl, if_neg hji]
      exact h.inCall j c pc hj

/-- One line of the `memset`; after the last one no line is left. -/
theorem SlotInv.clearLine (h : SlotInv s) {k : Nat} (hpc : s.pc i = .clearLog k) (spurious : Bool) :
    SlotInv (s.access i spurious) := by
  obtain ⟨hk, hzero⟩ := h.clearing i k hpc
  have hacc : s.access i spurious =
      { s.setPc i (if k + 1 < redoCachelineCnt then .clearLog (k + 1) else .idle) with
        shm := s.shm.storeRedo i k RedoLog.zero
        cleared := if k + 1 < redoCachelineCnt then s.cleared
          else Function.update s.cleared i true } := by
    unfold SlotSys.access
    rw [hpc]
  have hr : ∀ j l, (s.access i spurious).shm.redo j l =
      if j = i ∧ l = k then RedoLog.zero else s.shm.redo j l := by
    intro j l
    rw [hacc]
    show (s.shm.storeRedo i k RedoLog.zero).redo j l = _
    split
    · rename_i hjl
      rw [hjl.1, hjl.2, Shm.redo_storeRedo_self]
    · rename_i hjl
      exact Shm.redo_storeRedo_of_ne _ _ (not_and_or.mp hjl)
  -- a line that still names an operation is an old one
  have hold : ∀ j l, ((s.access i spurious).shm.redo j l).funcId ≠ none →
      ¬ (j = i ∧ l = k) ∧ (s.shm.redo j l).funcId ≠ none := by
    intro j l hf
    rw [hr] at hf
    split at hf
    · exact absurd rfl hf
    · rename_i hjl
      exact ⟨hjl, hf⟩
  have hpc' : ∀ j, j ≠ i → (s.access i spurious).pc j = s.pc j := by
    intro j hji
    rw [hacc]
    exact Function.update_of_ne hji ..
  have hself : (s.access i spurious).pc i =
      if k + 1 < redoCachelineCnt then .clearLog (k + 1) else .idle := by
    rw [hacc]
    simp [SlotSys.setPc]
  have hcl' : ∀ j, j ≠ i → (s.access i spurious).cleared j = s.cleared j := by
    intro j hji
    rw [hacc]
    show (if k + 1 < redoCachelineCnt then s.cleared else Function.update s.cleared i true) j = _
    split
    · rfl
    · exact Function.update_of_ne hji ..
  have hau : (s.access i spurious).author = s.author := by rw [hacc]; rfl
  have hge : (s.access i spurious).gen = s.gen := by rw [hacc]; rfl
  refine ⟨?_, ?_, ?_, ?_, ?_, ?_⟩
  · rw [hacc]
    exact h.placed.storeRedo (fun hf => absurd rfl hf) fun _ => rfl
  · rw [hau, hge]
    exact h.author_le
  · intro j l hl hf hc
    rw [hau, hge]
    obtain ⟨hjl, hf'⟩ := hold j l hf
    by_cases hji : j = i
    · subst hji
      by_cases hlast : k + 1 < redoCachelineCnt
      · rw [hacc] at hc
        simp only [hlast, if_true] at hc
        exact h.own j l hl hf' hc
      · -- the last line is cleared now, so is every other
        have hlk : l < k := by
          have : l ≠ k := fun hlk => hjl ⟨rfl, hlk⟩
          omega
        rw [hzero l hlk] at hf'
        exact absurd rfl hf'
    · rw [hcl' j hji] at hc
      exact h.own j l hl hf' hc
  · intro j l hl hf hc hh
    rw [hau, hge]
    obtain ⟨-, hf'⟩ := hold j l hf
    by_cases hji : j = i
    · subst hji
      have hc' : s.cleared j = false := by
        rw [hacc] at hc
        by_cases hlast : k + 1 < redoCachelineCnt
        · simpa only [hlast, if_true] using hc
        · simp [hlast] at hc
      exact h.earlier j l hl hf' hc' (by rw [hpc]; trivial)
    · rw [hcl' j hji] at hc
      rw [hpc' j hji] at hh
      exact h.earlier j l hl hf' hc hh
  · intro j l hl
    by_cases hji : j = i
    · subst hji
      rw [hself] at hl
      split at hl
      · rename_i hlast
        cases hl
        refine ⟨hlast, ?_⟩
        intro q hq
        rw [hr]
        split
        · rfl
        · rename_i hqk
          apply hzero
          have : q ≠ k := fun hqk' => hqk ⟨rfl, hqk'⟩
          omega
      · cases hl
    · rw [hpc' j hji] at hl
      refine ⟨(h.clearing j l hl).1, ?_⟩
      intro q hq
      rw [hr, if_neg fun hjq => hji hjq.1]
      exact (h.clearing j l hl).2 q hq
  · intro j c pc hj
    by_cases hji : j = i
    · subst hji
      rw [hself] at hj
      split at hj <;> cases hj
    · rw [hpc' j hji] at hj
      rw [hcl' j hji]
      exact h.inCall j c pc hj

/-- The store of a log line; its author is the present holder, which has cleared the log. -/
theorem SlotInv.writeLine (h : SlotInv s) {c : RefCall} {info cur : Nat}
    (hpc : s.pc i = .inCall c (.storeRedo info cur)) (spurious : Bool) :
    SlotInv (s.access i spurious) := by
  have hcleared := h.inCall i c _ hpc
  have hacc : s.access i spurious =
      { s.setPc i (.inCall c (.cas info cur)) with
        shm := s.shm.storeRedo i (cur % redoCachelineCnt) (c.line info cur)
        author := authorAfter i (s.gen i) s.author (some (cur % redoCachelineCnt)) } := by
    unfold SlotSys.access
    rw [hpc]
    rfl
  have hau : ∀ j k, (s.access i spurious).author j k =
      if j = i ∧ k = cur % redoCachelineCnt then s.gen i else s.author j k := by
    intro j k
    rw [hacc]
    show Function.update s.author i (Function.update (s.author i) _ (s.gen i)) j k = _
    by_cases hji : j = i
    · subst hji
      simp [Function.update_apply]
    · simp [hji]
  have hr : ∀ j k, ¬ (j = i ∧ k = cur % redoCachelineCnt) →
      (s.access i spurious).shm.redo j k = s.shm.redo j k := by
    intro j k hjk
    rw [hacc]
    exact Shm.redo_storeRedo_of_ne _ _ (not_and_or.mp hjk)
  have hge : (s.access i spurious).gen = s.gen := by rw [hacc]; rfl
  have hcl : (s.access i spurious).cleared = s.cleared := by rw [hacc]; rfl
  have hpc' : ∀ j, j ≠ i → (s.access i spurious).pc j = s.pc j := by
    intro j hji
    rw [hacc]
    exact Function.update_of_ne hji ..
  have hself : (s.access i spurious).pc i = .inCall c (.cas info cur) := by
    rw [hacc]
    simp [SlotSys.setPc]
  refine ⟨?_, ?_, ?_, ?_, ?_, ?_⟩
  · rw [hacc]
    exact h.placed.storeRedo (fun _ => rfl) fun hf => nomatch hf
  · intro j k
    rw [hau, hge]
    split
    · rename_i hjk
      rw [hjk.1]
    · exact h.author_le j k
  · intro j k hk hf hc
    rw [hau, hge]
    split
    · rename_i hjk
      rw [hjk.1]
    · rename_i hjk
      rw [hr j k hjk] at hf
      rw [hcl] at hc
      exact h.own j k hk hf hc
  · intro j k hk hf hc hh
    rw [hcl] at hc
    have hji : j ≠ i := by
      intro hji
      rw [hji, hcleared] at hc
      cases hc
    rw [hau, hge, if_neg fun hjk => hji hjk.1]
    rw [hr j k fun hjk => hji hjk.1] at hf
    rw [hpc' j hji] at hh
    exact h.earlier j k hk hf hc hh
  · intro j k hj
    have hji : j ≠ i := by
      intro hji
      rw [hji, hself] at hj
      cases hj
    rw [hpc' j hji] at hj
    refine ⟨(h.clearing j k hj).1, ?_⟩
    intro l hl
    rw [hr j l fun hjl => hji hjl.1]
    exact (h.clearing j k hj).2 l hl
  · intro j d pc hj
    rw [hcl]
    by_cases hji : j = i
    · rw [hji]
      exact hcleared
    · rw [hpc' j hji] at hj
      exact h.inCall j d pc hj

theorem SlotInv.access (h : SlotInv s) (spurious : Bool) : SlotInv (s.access i spurious) := by
  cases hpc : s.pc i with
  | resetQueues =>
    have := h.quiet i (s.shm.setTls i (s.shm.tls i).resetQueues) .bumpEra
      (redo_setTls rfl) (fun _ => by rw [hpc]; trivial) (fun _ hk => nomatch hk)
      (fun _ _ hc => nomatch hc)
    simpa only [SlotSys.access, hpc] using this
  | bumpEra =>
    have := h.quiet i (s.shm.storeEra i i ((s.shm.era i i + 1) % 2 ^ 32)) .idle
      (fun _ _ => rfl) (fun _ => by rw [hpc]; trivial) (fun _ hk => nomatch hk)
      (fun _ _ hc => nomatch hc)
    simpa only [SlotSys.access, hpc] using this
  | clearLog k => exact h.clearLine hpc spurious
  | inCall c pc =>
    rcases refStep_redo i spurious c pc s.shm with ⟨info, cur, rfl, -⟩ | ⟨hline, hr⟩
    · exact h.writeLine hpc spurious
    · have hheld : (s.pc i).held := by
        rw [hpc]
        trivial
      have hcleared := h.inCall i c pc hpc
      have := h.quiet i (refStep i spurious c pc s.shm).2
        (if (refStep i spurious c pc s.shm).1 = .done then .idle
          else .inCall c (refStep i spurious c pc s.shm).1) hr (fun _ => hheld)
        (fun k hk => by split at hk <;> cases hk) (fun _ _ _ => hcleared)
      simpa only [SlotSys.access, hpc, hline, authorAfter, SlotSys.setPc] using this
  | free => simpa only [SlotSys.access, hpc] using h
  | idle => simpa only [SlotSys.access, hpc] using h
  | replayed => simpa only [SlotSys.access, hpc] using h

theorem SlotInv.step (h : SlotInv s) (mv : SlotMove) (hen : mv.enabled s) : SlotInv (s.next mv) := by
  cases mv with
  | claim i id => exact h.claim id
  | access i spurious => exact h.access spurious
  | malloc i =>
    have hidle : s.pc i = .idle := hen
    exact h.quiet _ _ _ (fun _ _ => rfl) (fun _ => by rw [hidle]; trivial) (fun k hk => by cases hk; rfl)
      (fun _ _ hc => nomatch hc)
  | call i c =>
    obtain ⟨hidle, hcleared⟩ := hen
    exact h.quiet _ _ _ (fun _ _ => rfl) (fun _ => by rw [hidle]; trivial) (fun _ hk => nomatch hk)
      (fun _ _ _ => hcleared)
  | redo i =>
    refine h.quiet _ _ _ (fun j k => ?_) (fun hh => absurd hh id) (fun _ hk => nomatch hk)
      (fun _ _ hc => nomatch hc)
    unfold Shm.redo
    rw [redoRefCnt_tls]
  | release i =>
    exact h.quiet _ _ _ (redo_setTls rfl) (fun hh => absurd hh id) (fun _ hk => nomatch hk)
      (fun _ _ hc => nomatch hc)
  | env m =>
    have hr : ∀ j k, (s.next (.env m)).shm.redo j k = s.shm.redo j k := hen.redo
    refine ⟨h.placed.congr hr, h.author_le, ?_, ?_, ?_, h.inCall⟩
    · intro j k hk hf
      rw [hr] at hf
      exact h.own j k hk hf
    · intro j k hk hf
      rw [hr] at hf
      exact h.earlier j k hk hf
    · intro j k hj
      refine ⟨(h.clearing j k hj).1, ?_⟩
      intro l hl
      rw [hr]
      exact (h.clearing j k hj).2 l hl

end Steps

theorem SlotInit.inv {s : SlotSys} (h : SlotInit s) : SlotInv s := by
  have hf : ∀ i k, (s.shm.redo i k).funcId = none := by
    intro i k
    rw [h.redo]
    rfl
  refine ⟨⟨?_, fun i k _ => h.redo i k⟩, h.author, ?_, ?_, ?_, ?_⟩
  · intro i k _ hne
    exact absurd (hf i k) hne
  · intro i k _ hne
    exact absurd (hf i k) hne
  · intro i k _ hne
    exact absurd (hf i k) hne
  · intro i k hk
    rw [h.pc] at hk
    cases hk
  · intro i c pc hc
    rw [h.pc] at hc
    cases hc

theorem SlotReach.inv {s : SlotSys} (h : SlotReach s) : SlotInv s := by
  refine Reach.invariant ?_ ?_ h
  · intro s hi _
    exact hi.inv
  · rintro s _ hinv - ⟨mv, hen, rfl⟩ -
    exact hinv.step mv hen

/-! ## §5 — whose line a replay applies -/

/-- **Replay of a reused slot.** In every state of every run and for every slot a client holds, the
replay applies no line of an earlier holder exactly when the present holder has cleared the log
since its claim or the log names no operation that looks committed. -/
theorem replay_own_iff (s : SlotSys) (h : SlotReach s) (i : Nat) (hheld : (s.pc i).held) :
    ¬ AppliesEarlier s i ↔ s.cleared i = true ∨ ¬ NamesCommitted s.shm i := by
  have hinv := h.inv
  constructor
  · intro hno
    cases hc : s.cleared i with
    | true => exact Or.inl rfl
    | false =>
      right
      rintro ⟨k, hk, hf, hmax, hcom⟩
      apply hno
      refine ⟨k, ⟨hk, hinv.placed.newestRedo hk hf hmax, hf, (needRedo_iff _ _ _).mpr hcom⟩, ?_⟩
      exact Nat.ne_of_lt (hinv.earlier i k hk hf hc hheld)
  · rintro hor ⟨k, ⟨hk, hnew, hf, hneed⟩, hau⟩
    rcases hor with hc | hno
    · exact hau (hinv.own i k hk hf hc)
    · refine hno ⟨k, hk, hf, ?_, (needRedo_iff _ _ _).mp hneed⟩
      intro j hj
      rw [← hnew]
      exact curEra_le_newestRedo s.shm i hj

/-! ## §6 — a slot used twice -/

def SlotSys.accesses (s : SlotSys) (i : Nat) : Nat → SlotSys
  | 0 => s
  | n + 1 => (s.accesses i n).access i false

theorem SlotReach.accesses {s : SlotSys} (h : SlotReach s) (i n : Nat)
    (hen : ∀ k < n, ((s.accesses i k).pc i).held ∧ (s.accesses i k).pc i ≠ .idle) :
    SlotReach (s.accesses i n) := by
  induction n with
  | zero => exact h
  | succ n ih =>
    have hn := ih fun k hk => hen k (Nat.lt_succ_of_lt hk)
    exact hn.next (.access i false) (hen n (Nat.lt_succ_self n))

def reuseStart : SlotSys := ⟨Shm.zero, fun _ => .free, fun _ => 0, fun _ => false, fun _ _ => 0⟩

theorem reuseStart_reach : SlotReach reuseStart :=
  .init ⟨fun _ => rfl, fun _ _ => rfl, fun _ _ => Nat.le_refl 0⟩ trivial

/-- `thread_init` and the first `cxl_malloc_generic` of client `i`. -/
def SlotSys.register (s : SlotSys) (i id : Nat) : SlotSys :=
  ((((s.next (.claim i id)).accesses i 2).next (.malloc i)).accesses i redoCachelineCnt)

theorem SlotReach.register {s : SlotSys} (h : SlotReach s) (i id : Nat)
    (hclaim : (SlotMove.claim i id).enabled s)
    (hinit : ∀ k < 2, (((s.next (.claim i id)).accesses i k).pc i).held ∧
      ((s.next (.claim i id)).accesses i k).pc i ≠ .idle)
    (hidle : ((s.next (.claim i id)).accesses i 2).pc i = .idle)
    (hclear : ∀ k < redoCachelineCnt,
      (((((s.next (.claim i id)).accesses i 2).next (.malloc i)).accesses i k).pc i).held ∧
      ((((s.next (.claim i id)).accesses i 2).next (.malloc i)).accesses i k).pc i ≠ .idle) :
    SlotReach (s.register i id) := by
  have h1 := (h.next (.claim i id) hclaim).accesses i 2 hinit
  exact (h1.next (.malloc i) hidle).accesses i redoCachelineCnt hclear

/-- Two clients, each with a RootRef in its own segment that holds the first object of page (0, 2). -/
def sharedObject (m : Shm) : Shm :=
  ((m.store 201392128 134348800).store 268500992 134348800).store 134348808 (packRefInfo 2 2 1)

theorem sharedObject_frame (m : Shm) : LogFrame m (sharedObject m) := ⟨fun _ _ => rfl, fun _ => rfl⟩

def twoHolders : SlotSys :=
  let s := (reuseStart.register 1 7).register 2 8
  s.next (.env (sharedObject s.shm))

theorem twoHolders_reach : SlotReach twoHolders := by
  have h1 := reuseStart_reach.register 1 7 ⟨by decide, rfl, rfl⟩ (by decide) (by decide) (by decide)
  have h2 := h1.register 2 8 ⟨by decide, rfl, rfl⟩ (by decide) (by decide) (by decide)
  exact h2.next (.env (sharedObject ((reuseStart.register 1 7).register 2 8).shm))
    (sharedObject_frame _)

/-- Client 1 drops its slot. -/
def slotDropped : SlotSys := (twoHolders.next (.call 1 ⟨.unlinkRef, 201392128, 134348800⟩)).accesses 1 8

/-- It crashes; the monitor replays, collects and releases; another client claims the slot. -/
def slotReused : SlotSys := ((slotDropped.next (.redo 1)).next (.release 1)).next (.claim 1 9)

theorem slotReused_reach : SlotReach slotReused := by
  have hheld : (slotDropped.pc 1).held := by decide
  have hreplayed : (slotDropped.next (.redo 1)).pc 1 = .replayed := by decide
  have h1 := twoHolders_reach.next (.call 1 ⟨.unlinkRef, 201392128, 134348800⟩) ⟨by decide, by decide⟩
  have h2 : SlotReach slotDropped := h1.accesses 1 8 (by decide)
  have h3 := (h2.next (.redo 1) hheld).next (.release 1) hreplayed
  exact h3.next (.claim 1 9) ⟨by decide, by decide, by decide⟩

/-- The second holder of slot 1 goes through its first allocation, which clears the log, and links the
RootRef again. -/
def slotRelinked : SlotSys :=
  let s := ((slotReused.accesses 1 2).next (.malloc 1)).accesses 1 redoCachelineCnt
  (s.next (.call 1 ⟨.linkRef, 201392128, 134348800⟩)).accesses 1 7

theorem slotRelinked_reach : SlotReach slotRelinked := by
  have h1 : SlotReach (slotReused.accesses 1 2) := slotReused_reach.accesses 1 2 (by decide)
  have h2 := (h1.next (.malloc 1) (show (slotReused.accesses 1 2).pc 1 = .idle by decide)).accesses 1
    redoCachelineCnt (by decide)
  exact (h2.next (.call 1 ⟨.linkRef, 201392128, 134348800⟩) ⟨by decide, by decide⟩).accesses 1 7 (by decide)

/-- The slot has had two holders and its log names the link of the second one, which has committed;
the replay applies that line and no other. -/
theorem replay_own_iff_relinked : slotRelinked.gen 1 = 2 ∧ NamesCommitted slotRelinked.shm 1 ∧
    ¬ AppliesEarlier slotRelinked 1 := by
  refine ⟨by decide, ?_, (replay_own_iff slotRelinked slotRelinked_reach 1 (by decide)).mpr (Or.inl (by decide))⟩
  exact ⟨3, by decide, by decide, by decide, Or.inl (by decide)⟩

/-- **A stale line is applied.** The second holder of slot 1 crashes before its first allocation; the
newest line is the unlink of the first holder, and the object still carries its stamp. -/
theorem replay_not_own : ¬ ∀ s, SlotReach s → ∀ i, (s.pc i).held → ¬ AppliesEarlier s i := by
  intro h
  apply h slotReused slotReused_reach 1 (by decide)
  refine ⟨1, ⟨by decide, by decide, by decide, Or.inl (by decide)⟩, by decide⟩

end CxlShm
