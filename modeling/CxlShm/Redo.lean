import CxlShm.State
import CxlShm.Lib.FoldMax

/-! # Redo — `monitor::redo_ref_cnt`

The monitor's replay of the last logged reference operation of a crashed client: choose the line
with the largest era, decide from the object's stamp or from the era matrix whether that operation
committed, and if so store its result into the slot once more.
-/

namespace CxlShm

/-- The line with the largest `cur_era`; on equal eras the earlier line stays. -/
def newestRedo (m : Shm) (tid : Nat) : RedoLog :=
  FoldMax.pick RedoLog.curEra ((List.range' 1 (redoCachelineCnt - 1)).map (m.redo tid)) (m.redo tid 0)

/-- The running maximum of `era(j, tid)` over `j = 0 .. MAX_THREAD-1`, `j = tid` skipped. -/
def maxEra (m : Shm) (tid : Nat) : Nat :=
  FoldMax.maxSkip (fun j => m.era j tid) tid (List.range maxThread) 0

/-- Did the operation of this log line commit? -/
def needRedo (m : Shm) (tid : Nat) (l : RedoLog) : Prop :=
  (getLcidFromInfo (m.refInfo l.refed) = tid ∧ getLenumFromInfo (m.refInfo l.refed) = l.curEra) ∨
    l.curEra ≤ maxEra m tid

instance (m : Shm) (tid : Nat) (l : RedoLog) : Decidable (needRedo m tid l) := by
  unfold needRedo
  infer_instance

/-- The CAS loop that sets a segment's state, `thread_free` kept. -/
def Shm.setSegmentState (m : Shm) (i : Nat) (s : SegmentState) : Shm :=
  { m with sas := Function.update m.sas i { m.sas i with state := s } }

/-- `redo_ref_cnt(offset)` for the slot of client `tid`. -/
def redoRefCnt (tid : Nat) (m : Shm) : Shm :=
  let redo := newestRedo m tid
  match redo.funcId with
  | none => m
  | some .linkRef => if needRedo m tid redo then m.store redo.ref redo.refed else m
  | some .unlinkRef =>
    let m' := if needRedo m tid redo then m.store redo.ref 0 else m
    -- the count getter is applied to the 16-bit `saved_ref_cnt`, not to a `ref_info` word
    if getRefCntFromInfo redo.savedRefCnt = 1 then
      m'.setSegmentState (segmentIdx redo.refed) .potentialLeaking
    else m'

/-! ## What the replay writes -/

/-- Some row other than `tid`'s own has recorded an era of `tid` of at least `e`. -/
theorem le_maxEra_iff (m : Shm) (tid e : Nat) :
    e ≤ maxEra m tid ↔ e = 0 ∨ ∃ j < maxThread, j ≠ tid ∧ e ≤ m.era j tid := by
  unfold maxEra
  rw [FoldMax.le_maxSkip_iff]
  simp only [Nat.le_zero_eq, List.mem_range]

theorem newestRedo_mem (m : Shm) (tid : Nat) :
    ∃ k < redoCachelineCnt, newestRedo m tid = m.redo tid k := by
  unfold newestRedo
  rcases FoldMax.pick_mem RedoLog.curEra ((List.range' 1 (redoCachelineCnt - 1)).map (m.redo tid))
    (m.redo tid 0) with h | h
  · exact ⟨0, by decide, h⟩
  · obtain ⟨k, hk, heq⟩ := List.mem_map.mp h
    rw [List.mem_range'_1] at hk
    refine ⟨k, ?_, heq.symm⟩
    simp only [redoCachelineCnt] at *
    omega

theorem curEra_le_newestRedo (m : Shm) (tid : Nat) {k : Nat} (hk : k < redoCachelineCnt) :
    (m.redo tid k).curEra ≤ (newestRedo m tid).curEra := by
  obtain ⟨hacc, hl⟩ := FoldMax.le_key_pick RedoLog.curEra
    ((List.range' 1 (redoCachelineCnt - 1)).map (m.redo tid)) (m.redo tid 0)
  rcases Nat.eq_zero_or_pos k with rfl | hpos
  · exact hacc
  · apply hl
    refine List.mem_map.mpr ⟨k, ?_, rfl⟩
    rw [List.mem_range'_1]
    simp only [redoCachelineCnt] at *
    omega

/-- If no line is newer than line 0, the scan stays on it. -/
theorem newestRedo_eq_zero {m : Shm} {tid : Nat}
    (h : ∀ j < redoCachelineCnt, (m.redo tid j).curEra ≤ (m.redo tid 0).curEra) :
    newestRedo m tid = m.redo tid 0 := by
  apply FoldMax.pick_of_le
  intro l hl
  obtain ⟨j, hj, rfl⟩ := List.mem_map.mp hl
  rw [List.mem_range'_1] at hj
  apply h
  simp only [redoCachelineCnt] at *
  omega

/-- If one line is strictly newer than all others, the scan ends on it. -/
theorem newestRedo_eq {m : Shm} {tid k : Nat} (hk : k < redoCachelineCnt)
    (h : ∀ j < redoCachelineCnt, j ≠ k → (m.redo tid j).curEra < (m.redo tid k).curEra) :
    newestRedo m tid = m.redo tid k := by
  unfold newestRedo
  have hc : redoCachelineCnt = 8 := rfl
  apply FoldMax.pick_eq
  · by_cases h0 : k = 0
    · exact Or.inl (by rw [h0])
    · refine Or.inr (List.mem_map.mpr ⟨k, ?_, rfl⟩)
      rw [List.mem_range'_1]
      omega
  · intro hne
    refine h 0 (by omega) ?_
    rintro rfl
    exact hne rfl
  · intro l hl
    obtain ⟨j, hj, rfl⟩ := List.mem_map.mp hl
    rw [List.mem_range'_1] at hj
    by_cases hjk : j = k
    · exact Or.inl (by rw [hjk])
    · exact Or.inr (h j (by omega) hjk)

/-- A cleared log selects a cleared line. -/
theorem newestRedo_zero {m : Shm} {tid : Nat}
    (h : ∀ j < redoCachelineCnt, m.redo tid j = RedoLog.zero) : newestRedo m tid = RedoLog.zero := by
  obtain ⟨k, hk, heq⟩ := newestRedo_mem m tid
  rw [heq, h k hk]

@[simp] theorem Shm.setSegmentState_word (m : Shm) (i : Nat) (s : SegmentState) :
    (m.setSegmentState i s).word = m.word := rfl

@[simp] theorem Shm.setSegmentState_tls (m : Shm) (i : Nat) (s : SegmentState) :
    (m.setSegmentState i s).tls = m.tls := rfl

/-- The replay leaves the logs and the rest of the thread-local states alone. -/
@[simp] theorem redoRefCnt_tls (m : Shm) (tid : Nat) : (redoRefCnt tid m).tls = m.tls := by
  have hstore : ∀ (p : Prop) [Decidable p] (a v : Nat), (if p then m.store a v else m).tls = m.tls := by
    intro p _ a v
    split <;> rfl
  simp only [redoRefCnt]
  split
  · rfl
  · exact hstore ..
  · split
    · exact hstore ..
    · exact hstore ..

/-- The value the replay of line `l` stores. -/
def RedoLog.result (l : RedoLog) : Nat :=
  match l.funcId with
  | some .linkRef => l.refed
  | _ => 0

/-- **The words after the replay.** A line that passes the commit test gets its slot; nothing else
changes. -/
theorem redoRefCnt_word (m : Shm) (tid : Nat) :
    (redoRefCnt tid m).word =
      if (newestRedo m tid).funcId ≠ none ∧ needRedo m tid (newestRedo m tid) then
        Function.update m.word (newestRedo m tid).ref (newestRedo m tid).result
      else m.word := by
  unfold redoRefCnt RedoLog.result
  cases hf : (newestRedo m tid).funcId with
  | none => simp [hf]
  | some f =>
    by_cases hn : needRedo m tid (newestRedo m tid)
    · cases f
      · simp [hf, hn]
      · by_cases hc : getRefCntFromInfo (newestRedo m tid).savedRefCnt = 1 <;> simp [hf, hn, hc]
    · cases f
      · simp [hf, hn]
      · by_cases hc : getRefCntFromInfo (newestRedo m tid).savedRefCnt = 1 <;> simp [hf, hn, hc]

end CxlShm
