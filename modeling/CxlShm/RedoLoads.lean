import CxlShm.Block
import CxlShm.EraMalloc

/-! # RedoLoads — `redo_ref_cnt` one load at a time

The monitor decides on the last operation of a crashed client with separate loads while the other
clients go on: the client id and the era of the object's stamp are two loads of `ref_info`, and each
row of the era matrix is loaded for the comparison and again for the assignment.

`was b` records that `need_redo`, computed in one instant, has been `b` since the first load, `torn`
that the two loads of `ref_info` passed the test together although `need_redo` was false by then.
-/

namespace CxlShm

open Transition SlotCount

/-! ## §1 — the machine -/

/-- Where the monitor stands in the decision. -/
inductive RedoPc
  | loadCid
  | loadEra (cid : Nat)
  | scan (j max : Nat)
  | rescan (j max : Nat)
  | decided (need : Bool)
  deriving DecidableEq, Repr

/-- The next load for client `i` and the line `l`. -/
def redoLoad (i : Nat) (l : RedoLog) (m : Shm) : RedoPc → RedoPc
  | .loadCid => .loadEra (getLcidFromInfo (m.refInfo l.refed))
  | .loadEra cid =>
    if cid = i ∧ getLenumFromInfo (m.refInfo l.refed) = l.curEra then .decided true else .scan 0 0
  | .scan j max =>
    if j < maxThread then
      if j ≠ i ∧ m.era j i > max then .rescan j max else .scan (j + 1) max
    else .decided (decide (l.curEra ≤ max))
  | .rescan j _ => .scan (j + 1) (m.era j i)
  | .decided b => .decided b

structure RedoSys where
  sys : EraSys
  pc : RedoPc
  was : Bool → Bool
  torn : Bool

inductive RedoMove
  | client (mv : EraMove)
  | load

/-- Client `i` has crashed: its program takes no step. The decision ends the run. -/
def RedoMove.enabled (W : RefWorld) (i : Nat) (s : RedoSys) : RedoMove → Prop
  | .client mv => mv.enabled W s.sys ∧ mv.runs ≠ some i ∧ ∀ b, s.pc ≠ .decided b
  | .load => ∀ b, s.pc ≠ .decided b

/-- The second load of `ref_info` passes the test together with the first, and `need_redo` is false. -/
def TornStamp (i : Nat) (l : RedoLog) (m : Shm) (pc : RedoPc) : Prop :=
  pc = .loadEra i ∧ getLenumFromInfo (m.refInfo l.refed) = l.curEra ∧ ¬ needRedo m i l

instance (i : Nat) (l : RedoLog) (m : Shm) (pc : RedoPc) : Decidable (TornStamp i l m pc) := by
  unfold TornStamp
  infer_instance

/-- `need_redo` in one instant is recorded. -/
def record (m : Shm) (i : Nat) (l : RedoLog) (was : Bool → Bool) (b : Bool) : Bool :=
  was b || decide (needRedo m i l) == b

def RedoSys.next (i : Nat) (l : RedoLog) (s : RedoSys) : RedoMove → RedoSys
  | .client mv => { s with sys := s.sys.next mv, was := record (s.sys.next mv).shm i l s.was }
  | .load =>
    { s with pc := redoLoad i l s.sys.shm s.pc, torn := s.torn || decide (TornStamp i l s.sys.shm s.pc) }

/-- Client `i` crashes in a state of a run, and `l` is the line the monitor chooses. -/
structure RedoInit (W : RefWorld) (i : Nat) (l : RedoLog) (s : RedoSys) : Prop where
  reach : EraReach W s.sys
  mem : i ∈ W.ids
  line : newestRedo s.sys.shm i = l
  func : l.funcId ≠ none
  pc : s.pc = .loadCid
  was : s.was = record s.sys.shm i l fun _ => false
  torn : s.torn = false

def RedoStep (W : RefWorld) (i : Nat) (l : RedoLog) (s s' : RedoSys) : Prop :=
  ∃ mv : RedoMove, mv.enabled W i s ∧ s' = s.next i l mv

def RedoReach (W : RefWorld) (i : Nat) (l : RedoLog) : RedoSys → Prop :=
  Reach (RedoInit W i l) (RedoStep W i l) fun s => EraRoom W s.sys

/-! ## §2 — what the survivors may change -/

/-- Rows of the matrix only grow in column `i`, and a stamp of `i` goes only after its era has been
recorded in a row. -/
structure Survives (W : RefWorld) (i : Nat) (m m' : Shm) : Prop where
  row : ∀ j, m.era j i ≤ m'.era j i
  info : ∀ o ∈ W.objs, m'.refInfo o = m.refInfo o ∨ (getLcidFromInfo (m.refInfo o) = i →
    ∃ j < maxThread, j ≠ i ∧ getLenumFromInfo (m.refInfo o) ≤ m'.era j i)

section Survivors

variable {W : RefWorld} {s : EraSys} {i : Nat}

theorem Survives.refl (m : Shm) : Survives W i m m := ⟨fun _ => Nat.le_refl _, fun _ _ => Or.inl rfl⟩

theorem Survives.of_words {m m' : Shm} (he : m'.eraCell = m.eraCell)
    (hi : ∀ o ∈ W.objs, m'.refInfo o = m.refInfo o) : Survives W i m m' := by
  refine ⟨fun j => ?_, fun o ho => Or.inl (hi o ho)⟩
  unfold Shm.era
  rw [he]

/-- **An access of another client.** -/
theorem EraInv.survives_access (h : EraInv W ∅ s) (hi : i ∈ W.ids) {j : Nat} (hj : j ∈ W.ids)
    (hji : j ≠ i) {c : RefCall} {pc : RefPc} (hcl : s.client j = some (c, pc)) (spurious : Bool) :
    Survives W i s.shm (refStep j spurious c pc s.shm).2 := by
  have hown := h.clients j hj
  unfold ClientOk at hown
  rw [hcl] at hown
  obtain ⟨href, hrefed, hat⟩ := hown
  have hcol := W.col hi
  cases pc with
  | loadInfo => cases hf : c.func <;> simp [refStep, hf, Survives.refl]
  | loadEra info => cases hf : c.func <;> simp [refStep, hf, Survives.refl]
  | loadEle info cur =>
    simp only [refStep]
    split <;> exact Survives.refl _
  | storeEle info cur =>
    obtain ⟨-, hok, -, -, hlt⟩ := hat
    refine ⟨fun k => ?_, fun _ _ => Or.inl rfl⟩
    show s.shm.era k i ≤ (s.shm.storeEra j _ _).era k i
    rw [era_storeEra hok.1 hcol]
    split
    · rename_i hki
      rw [hki.1, hki.2]
      exact Nat.le_of_lt (hlt (hki.2 ▸ hcol))
    · exact Nat.le_refl _
  | storeRedo info cur => exact Survives.of_words rfl fun _ _ => rfl
  | cas info cur =>
    obtain ⟨-, -, -, hseen, -⟩ := hat
    simp only [refStep]
    split
    · rename_i hok
      refine ⟨fun _ => Nat.le_refl _, fun o ho => ?_⟩
      by_cases hoo : o = c.refed
      · -- the stamp replaced is the one `j` has recorded
        refine Or.inr fun hid => ⟨j, (W.ids_range j hj).2, hji, ?_⟩
        rw [hoo, hok.1] at hid ⊢
        have := hseen (hid ▸ hcol)
        rwa [hid] at this
      · refine Or.inl (Function.update_of_ne ?_ ..)
        intro he
        exact hoo (Nat.add_right_cancel he)
    · exact Survives.refl _
  | storeRef info =>
    refine Survives.of_words rfl fun o ho => Function.update_of_ne ?_ ..
    intro he
    exact (W.header_not_slot o ho j).2.1 (he ▸ href)
  | bumpEra info =>
    refine ⟨fun k => ?_, fun _ _ => Or.inl rfl⟩
    show s.shm.era k i ≤ (s.shm.storeEra j j _).era k i
    rw [era_storeEra (Nat.le_of_lt (W.col hj).2) hcol, if_neg fun hki => hji hki.2.symm]
  | wipe k =>
    obtain ⟨-, -, hk, hdying⟩ := hat
    refine ⟨fun _ => Nat.le_refl _, fun o ho => ?_⟩
    by_cases hoo : o = c.refed
    · by_cases hk2 : k < 2
      · -- the stamp wiped is that of `j`
        refine Or.inr fun hid => absurd ?_ hji
        rw [← (hdying hk2).2, ← hoo]
        exact hid
      · refine Or.inl (Function.update_of_ne ?_ ..)
        omega
    · refine Or.inl (Function.update_of_ne ?_ ..)
      have h₁ := W.objs_apart o ho c.refed hrefed
      have h₂ := W.objs_apart c.refed hrefed o ho
      omega
  | done => exact Survives.refl _

theorem EraInv.survives (h : EraInv W ∅ s) (hi : i ∈ W.ids) {mv : EraMove} (hen : mv.enabled W s)
    (hruns : mv.runs ≠ some i) : Survives W i s.shm (s.next mv).shm := by
  cases mv with
  | call j c => exact Survives.refl _
  | access j spurious =>
    obtain ⟨hj, c, pc, hcl, -⟩ := hen
    have hji : j ≠ i := fun he => hruns (congrArg some he)
    have := h.survives_access hi hj hji hcl spurious
    simpa [EraSys.next, hcl, EraSys.access] using this
  | env m => exact Survives.of_words hen.eraCell hen.info

/-- The chosen line names an object of the run. -/
theorem EraInv.line_refed (h : EraInv W ∅ s) (hi : i ∈ W.ids)
    (hf : (CxlShm.newestRedo s.shm i).funcId ≠ none) :
    (CxlShm.newestRedo s.shm i).refed ∈ W.objs := by
  have hlog := h.log i hi
  unfold LogOk at hlog
  cases hl : s.logged i with
  | none =>
    rw [hl] at hlog
    exact absurd (by rw [newestRedo_zero hlog]; rfl) hf
  | some lg =>
    rw [hl] at hlog
    obtain ⟨info, hline⟩ := h.newestRedo hi hl
    rw [hline]
    exact hlog.1

/-! ## §3 — what has been seen -/

/-- A row from `j` on has reached the era of the line, or the maximum so far has. -/
def Caught (i : Nat) (l : RedoLog) (m : Shm) (j max : Nat) : Prop :=
  l.curEra ≤ max ∨ ∃ k, j ≤ k ∧ k < maxThread ∧ k ≠ i ∧ l.curEra ≤ m.era k i

variable {l : RedoLog} {m m' : Shm}

theorem Caught.mono {j max : Nat} (h : Caught i l m j max) (hs : Survives W i m m') :
    Caught i l m' j max :=
  h.imp_right fun ⟨k, hj, hk, hki, hle⟩ => ⟨k, hj, hk, hki, Nat.le_trans hle (hs.row k)⟩

theorem needRedo_iff_caught :
    needRedo m i l ↔ (getLcidFromInfo (m.refInfo l.refed) = i ∧
      getLenumFromInfo (m.refInfo l.refed) = l.curEra) ∨ Caught i l m 0 0 := by
  unfold needRedo Caught
  rw [le_maxEra_iff, Nat.le_zero]
  refine or_congr Iff.rfl (or_congr Iff.rfl ?_)
  constructor
  · rintro ⟨k, hk, hki, hle⟩
    exact ⟨k, Nat.zero_le _, hk, hki, hle⟩
  · rintro ⟨k, -, hk, hki, hle⟩
    exact ⟨k, hk, hki, hle⟩

/-- **A committed operation stays committed** whatever the survivors do. -/
theorem needRedo_mono (hs : Survives W i m m') (ho : l.refed ∈ W.objs) (h : needRedo m i l) :
    needRedo m' i l := by
  rw [needRedo_iff_caught] at h ⊢
  rcases h with ⟨hid, hen⟩ | hc
  · rcases hs.info _ ho with hsame | hrec
    · rw [hsame]
      exact Or.inl ⟨hid, hen⟩
    · obtain ⟨j, hj, hji, hle⟩ := hrec hid
      rw [hen] at hle
      exact Or.inr (Or.inr ⟨j, Nat.zero_le _, hj, hji, hle⟩)
  · exact Or.inr (hc.mono hs)

end Survivors

/-! ## §4 — the invariant -/

/-- What the monitor knows. It has met a row of at least the era of the line, or will, unless
`need_redo` has been false in some instant. -/
def RedoPc.Knows (i : Nat) (l : RedoLog) (s : RedoSys) : RedoPc → Prop
  | .loadCid => s.torn = false
  | .loadEra cid => s.torn = false ∧ (s.was false = true ∨ Caught i l s.sys.shm 0 0 ∨
      (cid = i ∧ getLcidFromInfo (s.sys.shm.refInfo l.refed) = i ∧
        getLenumFromInfo (s.sys.shm.refInfo l.refed) = l.curEra))
  | .scan j max => s.torn = false ∧ (s.was false = true ∨ Caught i l s.sys.shm j max) ∧
      (l.curEra ≤ max → s.was true = true)
  | .rescan j max => s.torn = false ∧ (s.was false = true ∨ Caught i l s.sys.shm j max) ∧
      j < maxThread ∧ j ≠ i ∧ max ≤ s.sys.shm.era j i
  | .decided b => s.was b = true ↔ s.torn = false

structure RedoInv (W : RefWorld) (i : Nat) (l : RedoLog) (s : RedoSys) : Prop where
  reach : EraReach W s.sys
  mem : i ∈ W.ids
  refed : l.refed ∈ W.objs
  now : (∀ b, s.pc ≠ .decided b) → s.was (decide (needRedo s.sys.shm i l)) = true
  stays : (∀ b, s.pc ≠ .decided b) → s.was true = true → needRedo s.sys.shm i l
  knows : s.pc.Knows i l s

section Steps

variable {W : RefWorld} {i : Nat} {l : RedoLog} {s : RedoSys}

theorem record_of_was {m : Shm} {was : Bool → Bool} {b : Bool} (h : was b = true) :
    record m i l was b = true := by
  simp [record, h]

theorem record_now (m : Shm) (was : Bool → Bool) :
    record m i l was (decide (needRedo m i l)) = true := by
  simp [record]

theorem record_true_iff {m : Shm} {was : Bool → Bool} :
    record m i l was true = true ↔ was true = true ∨ needRedo m i l := by
  simp [record]

theorem RedoInv.init (h : RedoInit W i l s) : RedoInv W i l s := by
  have hrefed := h.reach.inv.line_refed h.mem (by rw [h.line]; exact h.func)
  rw [h.line] at hrefed
  refine ⟨h.reach, h.mem, hrefed, ?_, ?_, ?_⟩
  · intro _
    rw [h.was]
    exact record_now _ _
  · intro _ hw
    rw [h.was, record_true_iff] at hw
    exact hw.resolve_left (by decide)
  · rw [h.pc]
    exact h.torn

/-- A step of a survivor. -/
theorem RedoInv.client (h : RedoInv W i l s) {mv : EraMove} (hen : mv.enabled W s.sys)
    (hruns : mv.runs ≠ some i) (hpc : ∀ b, s.pc ≠ .decided b) (hroom : EraRoom W (s.sys.next mv)) :
    RedoInv W i l (s.next i l (.client mv)) := by
  have hs := h.reach.inv.survives h.mem hen hruns
  have hwas : ∀ b, s.was b = true → (s.next i l (.client mv)).was b = true := fun b hb =>
    record_of_was hb
  have hcaught : ∀ j max, (s.was false = true ∨ Caught i l s.sys.shm j max) →
      (s.next i l (.client mv)).was false = true ∨ Caught i l (s.sys.next mv).shm j max :=
    fun j max hc => hc.imp (hwas false) fun hc => hc.mono hs
  refine ⟨h.reach.next mv hen hroom, h.mem, h.refed, ?_, ?_, ?_⟩
  · intro _
    exact record_now _ _
  · intro _ hw
    rcases record_true_iff.mp hw with hw | hw
    · exact needRedo_mono hs h.refed (h.stays hpc hw)
    · exact hw
  · have hk := h.knows
    show s.pc.Knows i l (s.next i l (.client mv))
    cases hp : s.pc with
    | loadCid =>
      rw [hp] at hk
      exact hk
    | loadEra cid =>
      rw [hp] at hk
      refine ⟨hk.1, ?_⟩
      rcases hk.2 with hw | hc | ⟨hcid, hid, hen'⟩
      · exact Or.inl (hwas false hw)
      · exact Or.inr (Or.inl (hc.mono hs))
      · rcases hs.info _ h.refed with hsame | hrec
        · refine Or.inr (Or.inr ⟨hcid, ?_⟩)
          show getLcidFromInfo ((s.sys.next mv).shm.refInfo l.refed) = i ∧
            getLenumFromInfo ((s.sys.next mv).shm.refInfo l.refed) = l.curEra
          rw [hsame]
          exact ⟨hid, hen'⟩
        · obtain ⟨j, hj, hji, hle⟩ := hrec hid
          rw [hen'] at hle
          exact Or.inr (Or.inl (Or.inr ⟨j, Nat.zero_le _, hj, hji, hle⟩))
    | scan j max =>
      rw [hp] at hk
      exact ⟨hk.1, hcaught j max hk.2.1, fun hle => hwas true (hk.2.2 hle)⟩
    | rescan j max =>
      rw [hp] at hk
      obtain ⟨htorn, hc, hj, hji, hmax⟩ := hk
      exact ⟨htorn, hcaught j max hc, hj, hji, Nat.le_trans hmax (hs.row j)⟩
    | decided b => exact absurd hp (hpc b)

/-- A load of the monitor. -/
theorem RedoInv.load (h : RedoInv W i l s) (hpc : ∀ b, s.pc ≠ .decided b) :
    RedoInv W i l (s.next i l .load) := by
  have hnow := h.now hpc
  have hstays := h.stays hpc
  refine ⟨h.reach, h.mem, h.refed, fun _ => hnow, fun _ => hstays, ?_⟩
  have hk := h.knows
  have hneed : needRedo s.sys.shm i l → s.was true = true := by
    intro hn
    rwa [decide_eq_true hn] at hnow
  have hnot : ¬ needRedo s.sys.shm i l → s.was false = true := by
    intro hn
    rwa [decide_eq_false hn] at hnow
  show (redoLoad i l s.sys.shm s.pc).Knows i l (s.next i l .load)
  -- away from the second load of `ref_info` nothing is torn
  have htorn : ∀ p : RedoPc, s.pc = p → p ≠ .loadEra i → (s.next i l .load).torn = s.torn := by
    rintro p rfl hp
    show (s.torn || decide (TornStamp i l s.sys.shm s.pc)) = s.torn
    rw [decide_eq_false fun ht => hp ht.1, Bool.or_false]
  cases hp : s.pc with
  | loadCid =>
    rw [hp] at hk
    refine ⟨(htorn _ hp nofun).trans hk, ?_⟩
    by_cases hn : needRedo s.sys.shm i l
    · right
      rcases needRedo_iff_caught.mp hn with ⟨hid, hen⟩ | hc
      · exact Or.inr ⟨hid, hid, hen⟩
      · exact Or.inl hc
    · exact Or.inl (hnot hn)
  | loadEra cid =>
    rw [hp] at hk
    obtain ⟨ht, hc⟩ := hk
    simp only [redoLoad]
    split
    · rename_i hpass
      have hiff : TornStamp i l s.sys.shm s.pc ↔ ¬ needRedo s.sys.shm i l :=
        ⟨fun h => h.2.2, fun h => ⟨by rw [hp, hpass.1], hpass.2, h⟩⟩
      show s.was true = true ↔ (s.torn || decide (TornStamp i l s.sys.shm s.pc)) = false
      rw [ht, Bool.false_or, decide_eq_false_iff_not, hiff, not_not]
      exact ⟨hstays, hneed⟩
    · rename_i hfail
      have hnt : (s.next i l .load).torn = false := by
        show (s.torn || decide (TornStamp i l s.sys.shm s.pc)) = false
        rw [ht, Bool.false_or, decide_eq_false_iff_not]
        rintro ⟨hcid, hen, -⟩
        rw [hp] at hcid
        exact hfail ⟨RedoPc.loadEra.inj hcid, hen⟩
      refine ⟨hnt, ?_, ?_⟩
      · rcases hc with hw | hc | ⟨hcid, -, hen⟩
        · exact Or.inl hw
        · exact Or.inr hc
        · exact absurd ⟨hcid, hen⟩ hfail
      · intro hle
        exact hneed (needRedo_iff_caught.mpr (Or.inr (Or.inl hle)))
  | scan j max =>
    rw [hp] at hk
    obtain ⟨ht, hc, hmax⟩ := hk
    have hnt := (htorn _ hp nofun).trans ht
    simp only [redoLoad]
    split
    · rename_i hj
      split
      · rename_i hgt
        exact ⟨hnt, hc, hj, hgt.1, Nat.le_of_lt hgt.2⟩
      · rename_i hle
        refine ⟨hnt, ?_, hmax⟩
        refine hc.imp id fun hc => ?_
        rcases hc with hc | ⟨k, hjk, hk, hki, hera⟩
        · exact Or.inl hc
        · -- row `j` is covered by the maximum so far
          by_cases hkj : k = j
          · subst hkj
            refine Or.inl (Nat.le_trans hera (Nat.le_of_not_lt fun hgt => hle ⟨hki, hgt⟩))
          · exact Or.inr ⟨k, by omega, hk, hki, hera⟩
    · rename_i hj
      show s.was (decide (l.curEra ≤ max)) = true ↔ _
      have hans : s.was (decide (l.curEra ≤ max)) = true := by
        by_cases hle : l.curEra ≤ max
        · rw [decide_eq_true hle]
          exact hmax hle
        · rw [decide_eq_false hle]
          rcases hc with hw | hle' | ⟨k, hjk, hk, -, -⟩
          · exact hw
          · exact absurd hle' hle
          · omega
      exact ⟨fun _ => hnt, fun _ => hans⟩
  | rescan j max =>
    rw [hp] at hk
    obtain ⟨ht, hc, hj, hji, hmax⟩ := hk
    refine ⟨(htorn _ hp nofun).trans ht, ?_, ?_⟩
    · refine hc.imp id fun hc => ?_
      rcases hc with hc | ⟨k, hjk, hk, hki, hera⟩
      · exact Or.inl (Nat.le_trans hc hmax)
      · by_cases hkj : k = j
        · subst hkj
          exact Or.inl hera
        · exact Or.inr ⟨k, by omega, hk, hki, hera⟩
    · intro hle
      exact hneed (needRedo_iff_caught.mpr (Or.inr (Or.inr ⟨j, Nat.zero_le _, hj, hji, hle⟩)))
  | decided b => exact absurd hp (hpc b)

/-- The invariant holds in every state of every run. -/
theorem RedoReach.inv (h : RedoReach W i l s) : RedoInv W i l s := by
  refine @Reach.invariant _ _ _ _ (fun s => RedoInv W i l s) ?_ ?_ _ h
  · intro s hi _
    exact RedoInv.init hi
  · rintro s s' hinv - ⟨mv, hen, rfl⟩ hroom
    cases mv with
    | client mv => exact hinv.client hen.1 hen.2.1 hen.2.2 hroom
    | load => exact hinv.load hen

end Steps

/-! ## §5 — a torn read -/

theorem tornWorld_ids : ∀ i ∈ ({1, 2} : Finset Nat), 0 < i ∧ i < maxThread := by decide

theorem tornWorld_objs_apart : ∀ o ∈ ({134348800} : Finset Nat), ∀ o' ∈ ({134348800} : Finset Nat), o' ≠ o + 8 := by decide

theorem tornWorld_zero : 0 ∉ ({134348800} : Finset Nat) := by decide

theorem tornWorld_slots_disjoint : ∀ i j a : Nat, a ∈ ({pageStart (i, 1), pageStart (i, 1) + 16} : Finset Nat) →
    a ∈ ({pageStart (j, 1), pageStart (j, 1) + 16} : Finset Nat) → i = j := by
  intro i j a hi hj
  simp only [Finset.mem_insert, Finset.mem_singleton, pageStart, segmentsAreaStart, segmentSize, pageSize] at hi hj
  omega

theorem tornWorld_header : ∀ o ∈ ({134348800} : Finset Nat), ∀ i : Nat, o ∉ ({pageStart (i, 1), pageStart (i, 1) + 16} : Finset Nat) ∧
    o + 8 ∉ ({pageStart (i, 1), pageStart (i, 1) + 16} : Finset Nat) ∧ o + 16 ∉ ({pageStart (i, 1), pageStart (i, 1) + 16} : Finset Nat) := by
  intro o ho i
  simp only [Finset.mem_singleton] at ho
  simp only [Finset.mem_insert, Finset.mem_singleton, pageStart, segmentsAreaStart, segmentSize, pageSize]
  omega

/-- Two clients, each with two RootRefs in its own segment, and an object in segment 0. -/
def tornWorld : RefWorld where
  ids := {1, 2}
  objs := {134348800}
  slots := fun i => {pageStart (i, 1), pageStart (i, 1) + 16}
  ids_range := tornWorld_ids
  slots_disjoint := tornWorld_slots_disjoint
  header_not_slot := tornWorld_header
  objs_apart := tornWorld_objs_apart
  zero_not_obj := tornWorld_zero

/-- The object carries a stamp of era 1 of client 1, which client 2 has recorded. Both clients are in
their second era. -/
def tornStart : EraSys where
  shm :=
    { Shm.zero with
      eraCell := fun k => if k = 0 ∨ k = 1025 then 2 else if k = 1024 then 1 else 0
      word := fun a => if a = 201392144 ∨ a = 268501008 then 134348800 else if a = 134348808 then packRefInfo 1 2 1 else 0 }
  client := fun _ => none
  logged := fun _ => none
  eras := fun _ => 2
  net := fun i o => if (i = 1 ∨ i = 2) ∧ o = 134348800 then 1 else 0

theorem tornStart_init : EraInit tornWorld tornStart where
  idle := fun _ => rfl
  log := fun _ _ => ⟨rfl, fun _ _ => rfl⟩
  era_eq := by decide
  below := by
    intro k hk
    show (if k = 0 ∨ k = 1025 then 2 else if k = 1024 then 1 else 0) = 0
    rw [if_neg (by omega), if_neg (by omega)]
  stamp := by decide
  seen := by
    intro c hc j hj hj' hne
    show (if Shm.eraIdx j c = 0 ∨ Shm.eraIdx j c = 1025 then 2
      else if Shm.eraIdx j c = 1024 then 1 else 0) < 2
    have hcc : c = 1 ∨ c = 2 := by simpa [tornWorld] using hc
    have h0 : ¬ (Shm.eraIdx j c = 0 ∨ Shm.eraIdx j c = 1025) := by
      simp only [Shm.eraIdx, maxThread] at *
      omega
    rw [if_neg h0]
    split <;> decide
  net := by decide
  count := by decide

/-- Client 1 crashes before its compare-exchange in a link, client 2 is about to do its own. -/
def tornMoves : List EraMove :=
  .call 1 ⟨.linkRef, 201392128, 134348800⟩ :: List.replicate 4 (.access 1 false) ++
    .call 2 ⟨.linkRef, 268500992, 134348800⟩ :: List.replicate 4 (.access 2 false)

theorem tornMoves_reach : EraReach tornWorld (tornMoves.foldl EraSys.next tornStart) := by
  have h0 : EraReach tornWorld tornStart := .init tornStart_init ⟨by decide, by decide⟩
  have h1 := h0.next (.call 1 ⟨.linkRef, 201392128, 134348800⟩)
    ⟨by decide, rfl, by decide, by decide, by decide⟩ ⟨by decide, by decide⟩
  have h2 := h1.next (.access 1 false) ⟨by decide, _, _, rfl, by decide⟩ ⟨by decide, by decide⟩
  have h3 := h2.next (.access 1 false) ⟨by decide, _, _, rfl, by decide⟩ ⟨by decide, by decide⟩
  have h4 := h3.next (.access 1 false) ⟨by decide, _, _, rfl, by decide⟩ ⟨by decide, by decide⟩
  have h5 := h4.next (.access 1 false) ⟨by decide, _, _, rfl, by decide⟩ ⟨by decide, by decide⟩
  have h6 := h5.next (.call 2 ⟨.linkRef, 268500992, 134348800⟩)
    ⟨by decide, rfl, by decide, by decide, by decide⟩ ⟨by decide, by decide⟩
  have h7 := h6.next (.access 2 false) ⟨by decide, _, _, rfl, by decide⟩ ⟨by decide, by decide⟩
  have h8 := h7.next (.access 2 false) ⟨by decide, _, _, rfl, by decide⟩ ⟨by decide, by decide⟩
  have h9 := h8.next (.access 2 false) ⟨by decide, _, _, rfl, by decide⟩ ⟨by decide, by decide⟩
  exact h9.next (.access 2 false) ⟨by decide, _, _, rfl, by decide⟩ ⟨by decide, by decide⟩

/-- The line client 1 has left. -/
def tornLine : RedoLog := ⟨some .linkRef, 2, 2, 201392128, 134348800, 0⟩

/-- The monitor starts on client 1. -/
def tornRedo : RedoSys where
  sys := tornMoves.foldl EraSys.next tornStart
  pc := .loadCid
  was := record (tornMoves.foldl EraSys.next tornStart).shm 1 tornLine fun _ => false
  torn := false

theorem tornRedo_reach : RedoReach tornWorld 1 tornLine tornRedo :=
  Reach.init ⟨tornMoves_reach, by decide, by decide, by decide, rfl, rfl, rfl⟩ ⟨by decide, by decide⟩

theorem RedoReach.load {W : RefWorld} {i : Nat} {l : RedoLog} {s : RedoSys} (h : RedoReach W i l s)
    (hpc : ∀ b, s.pc ≠ .decided b) : RedoReach W i l (s.next i l .load) :=
  Reach.step h ⟨.load, hpc, rfl⟩ h.ok

/-- While `need_redo` is false it has never been true, since it does not go back. -/
theorem RedoReach.not_was {W : RefWorld} {i : Nat} {l : RedoLog} {s : RedoSys}
    (h : RedoReach W i l s) (hpc : ∀ b, s.pc ≠ .decided b) (hn : ¬ needRedo s.sys.shm i l) :
    (s.next i l .load).was true = false := by
  apply Bool.eq_false_iff.mpr
  intro hwas
  exact hn (h.inv.stays hpc hwas)

/-! ## §6 — the decision -/

/-- **The loads of the decision amount to one instant** exactly when the two loads of `ref_info` were
not torn: the answer is then one that `need_redo`, computed in one instant between the first load and
the decision, has given. -/
theorem redo_instant_iff {W : RefWorld} {i : Nat} {l : RedoLog} {s : RedoSys} {b : Bool}
    (h : RedoReach W i l s) (hd : s.pc = .decided b) : s.was b = true ↔ s.torn = false := by
  have hk := h.inv.knows
  rw [hd] at hk
  exact hk

/-- Client 1 crashes right after its compare-exchange: both loads see its stamp. -/
theorem redo_instant_iff_window : ∃ s, RedoReach lonelyWorld 1 ⟨some .linkRef, 1, 1, 134283264, 134348800, 0⟩ s ∧
    s.pc = .decided true ∧ s.was true = true := by
  have h0 : RedoReach lonelyWorld 1 ⟨some .linkRef, 1, 1, 134283264, 134348800, 0⟩
      ⟨lonelyMoves.foldl EraSys.next lonelyStart, .loadCid,
        record (lonelyMoves.foldl EraSys.next lonelyStart).shm 1 ⟨some .linkRef, 1, 1, 134283264, 134348800, 0⟩
          fun _ => false, false⟩ :=
    Reach.init ⟨lonelyMoves_reach, by decide, by decide, by decide, rfl, rfl, rfl⟩
      ⟨by decide, by decide⟩
  have h1 := (h0.load nofun).load nofun
  exact ⟨_, h1, by decide, (redo_instant_iff h1 (b := true) (by decide)).mpr (by decide)⟩

/-- The first load sees the old stamp (1, era 1) of client 1; then client 2 installs its stamp
(2, era 2), and the second load reads the era of the line off it. The link of client 1, which has not
done its compare-exchange, is taken as committed. -/
theorem redo_torn : ∃ W i l s b, RedoReach W i l s ∧ s.pc = .decided b ∧ s.was b = false := by
  have h1 := tornRedo_reach.load (fun _ h => by cases h)
  have h2 : RedoReach tornWorld 1 tornLine ((tornRedo.next 1 tornLine .load).next 1 tornLine
      (.client (.access 2 false))) :=
    Reach.step h1 ⟨.client (.access 2 false), ⟨⟨by decide, _, _, rfl, by decide⟩, by decide, fun _ h => by cases h⟩, rfl⟩
      ⟨by decide, by decide⟩
  -- neither disjunct of `need_redo` holds by then
  have hnot : ¬ needRedo ((tornRedo.next 1 tornLine .load).next 1 tornLine
      (.client (.access 2 false))).sys.shm 1 tornLine := by
    apply not_or.mpr
    refine ⟨by decide, fun hle => ?_⟩
    rcases (le_maxEra_iff _ _ _).mp hle with h0 | ⟨j, hj, hne, hera⟩
    · exact absurd h0 (by decide)
    · apply absurd hera
      apply Nat.not_le_of_lt
      show (if Shm.eraIdx j 1 = 0 ∨ Shm.eraIdx j 1 = 1025 then 2
        else if Shm.eraIdx j 1 = 1024 then 1 else 0) < 2
      have h0 : ¬ (Shm.eraIdx j 1 = 0 ∨ Shm.eraIdx j 1 = 1025) := by
        simp only [Shm.eraIdx, maxThread] at *
        omega
      rw [if_neg h0]
      split <;> decide
  exact ⟨_, _, _, _, true, h2.load (fun _ h => by cases h), by decide, h2.not_was (fun _ h => by cases h) hnot⟩

end CxlShm
