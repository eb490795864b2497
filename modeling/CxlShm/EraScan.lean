import CxlShm.Redo

/-! # EraScan — which observers the era scan of `redo_ref_cnt` consults

Ids count from 1, the loop `for(j=0; j<MAX_THREAD; j++)` counts from 0 and `era(j, id)` subtracts 1.
The scan therefore reads one word below the matrix, at `j = 0`, and never reads the row of the last
client, `j = MAX_THREAD`.
-/

namespace CxlShm

/-- The stamp of the object of line `l` is the one this very operation of client `tid` left. -/
def OwnStamp (m : Shm) (tid : Nat) (l : RedoLog) : Prop :=
  getLcidFromInfo (m.refInfo l.refed) = tid ∧ getLenumFromInfo (m.refInfo l.refed) = l.curEra

/-- Some other client `j` in `lo .. hi` has recorded an era of `tid` of at least the line's. -/
def ObservedBy (lo hi : Nat) (m : Shm) (tid : Nat) (l : RedoLog) : Prop :=
  ∃ j, lo ≤ j ∧ j ≤ hi ∧ j ≠ tid ∧ l.curEra ≤ m.era j tid

/-- Two areas with the same `MAX_THREAD × MAX_THREAD` era words. -/
def SameEras (m m' : Shm) : Prop :=
  ∀ i : Int, 0 ≤ i → i < maxThread * maxThread → m'.eraCell i = m.eraCell i

/-- What the scan is for: it answers whether another client has seen the operation, and it answers
from the era array. -/
structure ScanExact (m : Shm) (tid : Nat) (l : RedoLog) : Prop where
  observed : needRedo m tid l ↔ ObservedBy 1 maxThread m tid l
  array : ∀ m', SameEras m m' → ¬ OwnStamp m' tid l → (needRedo m' tid l ↔ needRedo m tid l)

section Cells

variable {tid j : Nat}

/-- The cells of the rows `1 .. MAX_THREAD` are in the array. -/
theorem eraIdx_array (ht : 1 ≤ tid) (ht' : tid ≤ maxThread) (hj : 1 ≤ j) (hj' : j ≤ maxThread) :
    0 ≤ Shm.eraIdx j tid ∧ Shm.eraIdx j tid < maxThread * maxThread := by
  unfold Shm.eraIdx
  simp only [maxThread] at *
  omega

/-- Row 0 lies below it. -/
theorem eraIdx_zero_neg (ht' : tid ≤ maxThread) : Shm.eraIdx 0 tid < 0 := by
  unfold Shm.eraIdx
  simp only [maxThread] at *
  omega

theorem SameEras.era {m m' : Shm} (h : SameEras m m') (ht : 1 ≤ tid) (ht' : tid ≤ maxThread)
    (hj : 1 ≤ j) (hj' : j ≤ maxThread) : m'.era j tid = m.era j tid := by
  obtain ⟨hlo, hhi⟩ := eraIdx_array ht ht' hj hj'
  exact h _ hlo hhi

theorem sameEras_storeEra_zero (m : Shm) (v : Nat) (ht' : tid ≤ maxThread) :
    SameEras m (m.storeEra 0 tid v) := by
  intro i hi _
  apply Function.update_of_ne
  rintro rfl
  exact absurd (eraIdx_zero_neg ht') (not_lt.mpr hi)

end Cells

/-- Client 1 crashed in a `link_reference` of era 5 to the object at offset 4096. -/
def crashedLink : RedoLog := ⟨some .linkRef, 0, 5, 8192, 4096, 0⟩

/-- Client `j` has made the next change of that object, and has recorded era 5 of client 1. -/
def overwrittenBy (j : Nat) : Shm :=
  (Shm.zero.store (4096 + 8) (packRefInfo j 1 1)).storeEra j 1 5

theorem not_ownStamp_overwrittenBy : ¬ OwnStamp (overwrittenBy 1024) 1 crashedLink ∧
    ¬ OwnStamp (overwrittenBy 2) 1 crashedLink := by
  constructor <;> exact fun h => absurd h.1 (by decide)

section Scan

variable {m : Shm} {tid : Nat} {l : RedoLog}

/-- **What the scan reads**: the rows `1 .. MAX_THREAD-1`, and the word in front of the matrix. -/
theorem needRedo_iff_rows (hown : ¬ OwnStamp m tid l) (ht : 1 ≤ tid) :
    needRedo m tid l ↔ ObservedBy 1 (maxThread - 1) m tid l ∨ l.curEra ≤ m.era 0 tid := by
  have hmax : needRedo m tid l ↔ l.curEra ≤ maxEra m tid := or_iff_right hown
  rw [hmax, le_maxEra_iff]
  constructor
  · intro h
    rcases h with h | ⟨j, hj, hne, hle⟩
    · refine Or.inr ?_
      rw [h]
      exact Nat.zero_le _
    · rcases Nat.eq_zero_or_pos j with rfl | hpos
      · exact Or.inr hle
      · exact Or.inl ⟨j, hpos, Nat.le_sub_one_of_lt hj, hne, hle⟩
  · intro h
    rcases h with ⟨j, hpos, hj, hne, hle⟩ | h
    · exact Or.inr ⟨j, by simp only [maxThread] at *; omega, hne, hle⟩
    · exact Or.inr ⟨0, by decide, by omega, h⟩

theorem ObservedBy.mono {hi hi' : Nat} (h : ObservedBy 1 hi m tid l) (hle : hi ≤ hi') :
    ObservedBy 1 hi' m tid l := by
  obtain ⟨j, hpos, hj, hrest⟩ := h
  exact ⟨j, hpos, hj.trans hle, hrest⟩

/-- An observer in the rows that are read shows in every area with the same era words. -/
theorem ObservedBy.same {m' : Shm} {hi : Nat} (h : ObservedBy 1 hi m tid l) (hs : SameEras m m')
    (ht : 1 ≤ tid) (ht' : tid ≤ maxThread) (hhi : hi ≤ maxThread) : ObservedBy 1 hi m' tid l := by
  obtain ⟨j, hpos, hj, hne, hle⟩ := h
  refine ⟨j, hpos, hj, hne, ?_⟩
  rw [hs.era ht ht' hpos (hj.trans hhi)]
  exact hle

/-- With an era of 0 any other row will do. -/
theorem observedBy_of_zero (h : l.curEra = 0) : ObservedBy 1 (maxThread - 1) m tid l := by
  by_cases h1 : tid = 1
  · exact ⟨2, by decide, by decide, by omega, h ▸ Nat.zero_le _⟩
  · exact ⟨1, by decide, by decide, fun he => h1 he.symm, h ▸ Nat.zero_le _⟩

/-- **When the era scan is exact.** For a stamp that is not its own, the replay's answer is right and
rests on the era array alone exactly when a client below the last has recorded the era. Otherwise
either the last client is missed or the word in front of the array decides. -/
theorem era_scan_exact_iff (hown : ¬ OwnStamp m tid l) (ht : 1 ≤ tid) (ht' : tid ≤ maxThread) :
    ScanExact m tid l ↔ ObservedBy 1 (maxThread - 1) m tid l := by
  constructor
  · intro h
    by_contra hno
    have hpos : 0 < l.curEra := Nat.pos_of_ne_zero fun h0 => hno (observedBy_of_zero h0)
    -- the word in front of the array answers both ways
    have hown' : ∀ v, ¬ OwnStamp (m.storeEra 0 tid v) tid l := fun _ => hown
    have hanswer : ∀ v, needRedo (m.storeEra 0 tid v) tid l ↔ needRedo m tid l := fun v =>
      h.array _ (sameEras_storeEra_zero m v ht') (hown' v)
    have hseen : ∀ v, ¬ ObservedBy 1 (maxThread - 1) (m.storeEra 0 tid v) tid l := by
      intro v hv
      apply hno
      obtain ⟨j, hj, hj', hne, hle⟩ := hv
      have hrow : j ≤ maxThread := hj'.trans (Nat.sub_le _ _)
      rw [(sameEras_storeEra_zero m v ht').era ht ht' hj hrow] at hle
      exact ⟨j, hj, hj', hne, hle⟩
    have hyes : needRedo (m.storeEra 0 tid l.curEra) tid l := by
      rw [needRedo_iff_rows (hown' _) ht, Shm.era_storeEra_self]
      exact Or.inr (Nat.le_refl _)
    have hno' : ¬ needRedo (m.storeEra 0 tid 0) tid l := by
      rw [needRedo_iff_rows (hown' _) ht, Shm.era_storeEra_self]
      rintro (hv | hv)
      · exact hseen 0 hv
      · omega
    exact hno' ((hanswer 0).mpr ((hanswer l.curEra).mp hyes))
  · intro h
    have hle : maxThread - 1 ≤ maxThread := Nat.sub_le _ _
    have hneed : needRedo m tid l := (needRedo_iff_rows hown ht).mpr (Or.inl h)
    refine ⟨⟨fun _ => h.mono hle, fun _ => hneed⟩, ?_⟩
    intro m' hs hown'
    have hneed' : needRedo m' tid l :=
      (needRedo_iff_rows hown' ht).mpr (Or.inl (h.same hs ht ht' hle))
    exact ⟨fun _ => hneed, fun _ => hneed'⟩

end Scan

/-- With client 2 as the observer the scan is exact. -/
theorem era_scan_exact_two : ScanExact (overwrittenBy 2) 1 crashedLink :=
  (era_scan_exact_iff not_ownStamp_overwrittenBy.2 (by decide) (by decide)).mpr
    ⟨2, by decide, by decide, by decide, by decide⟩

/-- **The last client is not asked**: client 1024 has recorded the era, and the replay says that the
link did not commit. -/
theorem era_scan_misses_last : ¬ OwnStamp (overwrittenBy 1024) 1 crashedLink ∧
    ObservedBy 1 maxThread (overwrittenBy 1024) 1 crashedLink ∧
      ¬ needRedo (overwrittenBy 1024) 1 crashedLink := by
  refine ⟨not_ownStamp_overwrittenBy.1, ⟨1024, by decide, by decide, by decide, by decide⟩, ?_⟩
  rw [needRedo_iff_rows not_ownStamp_overwrittenBy.1 (by decide)]
  rintro (⟨j, hj, hj', hne, hle⟩ | h)
  · -- every other row of the column is still 0
    have hcell : Shm.eraIdx j 1 ≠ Shm.eraIdx 1024 1 := by
      unfold Shm.eraIdx
      simp only [maxThread] at *
      omega
    have hzero : (overwrittenBy 1024).era j 1 = 0 := Shm.era_storeEra_of_ne _ _ hcell
    rw [hzero] at hle
    exact absurd hle (by decide)
  · exact absurd h (by decide)

end CxlShm
