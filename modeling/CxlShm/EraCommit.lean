import CxlShm.EraSteps

/-! # EraCommit — the replay decides exactly

The era invariant holds in every reachable state (`EraReach.inv`), and in a state where it holds
`redo_ref_cnt` gives the slot of the last logged operation its target value exactly when that
operation's compare-exchange succeeded.
-/

namespace CxlShm

open Transition SlotCount

/-! ## §1 — the invariant along a run -/

section Runs

variable {W : RefWorld} {lent : Finset Nat} {s s' : EraSys}

theorem EraInv.init (h : EraInit W s) : EraInv W ∅ s := by
  have hpub : ∀ k, s.pub k = s.eras k := fun k =>
    EraSys.pub_of_not_published fun d pc hd => by rw [h.idle k] at hd; cases hd
  refine ⟨?_, ?_, h.era_eq, ?_, ?_, ?_, ?_, h.count⟩
  · intro i hi
    unfold ClientOk
    rw [h.idle i]
    intro l hl
    rw [(h.log i hi).1] at hl
    cases hl
  · intro i hi
    unfold LogOk
    rw [(h.log i hi).1]
    exact (h.log i hi).2
  · intro k hk
    exact h.below k (by omega)
  · intro o ho
    refine ⟨(h.stamp o ho).1, fun hk => ?_⟩
    rw [hpub]
    exact (h.stamp o ho).2 hk
  · intro c hc j hj hjc
    rw [hpub]
    exact h.seen c hc j hj.1 hj.2 hjc
  · intro i hi o ho
    have hp : s.pend i o = 0 :=
      EraSys.pend_of_not_published (fun d pc hd => by rw [h.idle i] at hd; cases hd) o
    rw [hp, h.net i hi o ho, Int.add_zero]

theorem EraInv.call (h : EraInv W lent s) {i : Nat} {c : RefCall} (hidle : s.client i = none)
    (href : c.ref ∈ W.slots i) (hrefed : c.refed ∈ W.objs) (hbef : s.shm.word c.ref = c.before) :
    EraInv W lent (s.setClient i (some (c, .loadInfo))) := by
  refine h.silent ?_ ?_ ?_
  · intro d pc hd
    rw [hidle] at hd
    cases hd
  · intro d pc hd
    cases hd
    exact id
  · intro hi
    have hset := h.clients i hi
    unfold ClientOk at hset ⊢
    rw [hidle] at hset
    rw [show (s.setClient i (some (c, RefPc.loadInfo))).client i = some (c, .loadInfo) by
      simp [EraSys.setClient]]
    refine ⟨href, hrefed, hbef, fun l hl => Or.inr ?_⟩
    exact (hset l hl).congr (Nat.le_refl _) (fun _ _ => rfl) fun _ ho => ho

theorem EraInv.env (h : EraInv W lent s) {m : Shm} (hm : W.Frame s.shm m) :
    EraInv W lent { s with shm := m } := by
  have hera : ∀ x y, m.era x y = s.shm.era x y := by
    intro x y
    unfold Shm.era
    rw [hm.eraCell]
  have hrely : ∀ j ∈ W.ids, Rely W j s { s with shm := m } := by
    intro j hj
    exact ⟨rfl, rfl, rfl, hm.slot j hj, fun _ _ => Nat.le_refl _,
      fun x y _ => Nat.le_of_eq (hera x y).symm, fun y _ => hera j y,
      fun o ho => Or.inl (hm.info o ho)⟩
  have hredo : ∀ j ∈ W.ids, ∀ k, m.redo j k = s.shm.redo j k := by
    intro j hj k
    unfold Shm.redo
    rw [hm.redo j hj]
  refine ⟨?_, ?_, ?_, ?_, ?_, ?_, ?_, ?_⟩
  · intro j hj
    exact (h.clients j hj).stable (W.col hj) (hrely j hj) (h.log j hj).refed_mem
  · intro j hj
    have hl := h.log j hj
    unfold LogOk at *
    simp only [hredo j hj]
    exact hl
  · intro j hj
    show m.era j j = s.eras j ∧ 0 < s.eras j
    rw [hera]
    exact h.era_eq j hj
  · intro k hk
    show m.eraCell k = 0
    rw [hm.eraCell]
    exact h.below k hk
  · intro o ho
    show InfoOk W _ (m.refInfo o)
    rw [hm.info o ho]
    exact h.info o ho
  · intro k hk j hj hjk
    show m.era j k < s.pub k
    rw [hera]
    exact h.seen_lt k hk j hj hjk
  · intro j hj o ho
    show s.net j o = (holding (W.slots j) m.word o : Int) + s.pend j o
    rw [holding_congr o (hm.slot j hj)]
    exact h.acct j hj o ho
  · intro o ho
    show (getRefCntFromInfo (m.refInfo o) : Int) = _
    rw [hm.info o ho]
    exact h.count o ho

/-- Logging a new operation makes the last logged slot one's own again. -/
def lentAfter (i : Nat) (lent : Finset Nat) : RefPc → Finset Nat
  | .storeRedo _ _ => lent.erase i
  | _ => lent

/-- Every access of a client keeps the invariant. -/
theorem EraInv.access (h : EraInv W lent s) {i : Nat} {spurious : Bool} {c : RefCall} {pc : RefPc}
    (hi : i ∈ W.ids) (hcl : s.client i = some (c, pc))
    (hlive : pc = .loadInfo → c.func = .linkRef → s.shm.refCnt c.refed ≠ 0)
    (hroom : EraRoom W s) (hroom' : EraRoom W (s.access i spurious c pc)) :
    EraInv W (lentAfter i lent pc) (s.access i spurious c pc) := by
  have hown := h.clients i hi
  unfold ClientOk at hown
  rw [hcl] at hown
  obtain ⟨href, hrefed, hat⟩ := hown
  -- a silent step to `pc'`, from the clause of `pc'` in the present state
  have silent : ∀ pc', ¬ pc.published → ¬ pc'.published → AtPc W (i ∈ lent) s i c pc' →
      EraInv W lent (s.setClient i (some (c, pc'))) := by
    intro pc' hpc hpc' hat'
    have hold : ∀ d p, s.client i = some (d, p) → ¬ p.published := by
      intro d p hd
      rw [hcl] at hd
      cases hd
      exact hpc
    have hnew : ∀ d p, some (c, pc') = some (d, p) → ¬ p.published := by
      intro d p hd
      cases hd
      exact hpc'
    refine h.silent hold hnew fun _ => ?_
    unfold ClientOk
    rw [show (s.setClient i (some (c, pc'))).client i = some (c, pc') by simp [EraSys.setClient]]
    exact ⟨href, hrefed, AtPc.setClient (EraSys.pub_setClient hold hnew) hat'⟩
  cases pc with
  | loadInfo =>
    have hok := h.info _ hrefed
    cases hf : c.func with
    | linkRef =>
      have := silent (.loadEra (s.shm.refInfo c.refed)) id id
        ⟨hat, hok, fun _ => hlive rfl hf, fun hu => by rw [hf] at hu; cases hu⟩
      simpa [EraSys.access, EraSys.setClient, refStep, logAfter, lentAfter, casSucceeds, hf] using this
    | unlinkRef =>
      have := silent (.loadEle (s.shm.refInfo c.refed) 0) id id
        ⟨hat, hok, fun hl => (by rw [hf] at hl; cases hl), fun hl => (by rw [hf] at hl; cases hl)⟩
      simpa [EraSys.access, EraSys.setClient, refStep, logAfter, lentAfter, casSucceeds, hf] using this
  | loadEra info =>
    obtain ⟨hpend, hok, hlv, hseen⟩ := hat
    have hcur := (h.era_eq i hi).1
    cases hf : c.func with
    | linkRef =>
      have := silent (.loadEle info (s.shm.era i i)) id id ⟨hpend, hok, hlv, fun _ => hcur⟩
      simpa [EraSys.access, EraSys.setClient, refStep, logAfter, lentAfter, casSucceeds, hf] using this
    | unlinkRef =>
      have := silent (.storeRedo info (s.shm.era i i)) id id ⟨hpend, hok, hlv, hseen hf, hcur⟩
      simpa [EraSys.access, EraSys.setClient, refStep, logAfter, lentAfter, casSucceeds, hf] using this
  | loadEle info cur =>
    obtain ⟨hpend, hok, hlv, hcur⟩ := hat
    by_cases hgt : getLenumFromInfo info > s.shm.era i (getLcidFromInfo info)
    · have := silent (.storeEle info cur) id id ⟨hpend, hok, hlv, hcur, fun _ => hgt⟩
      simpa [EraSys.access, EraSys.setClient, refStep, logAfter, lentAfter, casSucceeds, hgt] using this
    · have hseen : Seen s i info := fun _ => Nat.le_of_not_lt hgt
      cases hf : c.func with
      | linkRef =>
        have := silent (.storeRedo info cur) id id ⟨hpend, hok, hlv, hseen, hcur hf⟩
        simpa [EraSys.access, EraSys.setClient, refStep, logAfter, lentAfter, casSucceeds, hgt,
          RefCall.afterEle, hf] using this
      | unlinkRef =>
        have := silent (.loadEra info) id id ⟨hpend, hok, hlv, fun _ => hseen⟩
        simpa [EraSys.access, EraSys.setClient, refStep, logAfter, lentAfter, casSucceeds, hgt,
          RefCall.afterEle, hf] using this
  | storeEle info cur =>
    refine h.storeEle hi hcl ?_
    have hnd : c.afterEle info cur ≠ .done := by
      unfold RefCall.afterEle
      cases c.func <;> simp
    simp [EraSys.access, EraSys.setClient, refStep, logAfter, casSucceeds, hnd]
  | storeRedo info cur =>
    refine h.storeRedo hi hcl ?_
    simp [EraSys.access, EraSys.setClient, refStep, logAfter, casSucceeds]
  | cas info cur =>
    obtain ⟨hbef, hlog, hlv, hseen, hcur⟩ := hat
    by_cases hok : s.shm.refInfo c.refed = info ∧ spurious = false
    · refine h.cas hi hcl hok.1 ?_ hroom hroom'
      simp [EraSys.access, EraSys.setClient, refStep, logAfter, casSucceeds, hok]
    · -- the loop starts over; the log keeps the failed attempt
      have := silent .loadInfo id id ⟨hbef, fun l hl => by
        rw [hlog] at hl
        cases hl
        exact Or.inl rfl⟩
      simpa [EraSys.access, EraSys.setClient, refStep, logAfter, lentAfter, casSucceeds, hok] using this
  | storeRef info =>
    refine h.storeRef hi hcl ?_
    simp [EraSys.access, EraSys.setClient, refStep, logAfter, casSucceeds]
  | bumpEra info =>
    refine h.bumpEra hi hcl rfl ?_ hroom'
    by_cases hfree : c.func = .unlinkRef ∧ getRefCntFromInfo info = 1
    · simp [EraSys.access, EraSys.setClient, refStep, logAfter, casSucceeds, hfree]
    · simp [EraSys.access, EraSys.setClient, refStep, logAfter, casSucceeds, hfree]
  | wipe k =>
    refine h.wipe hi hcl rfl ?_
    have h3 : sizeofCxlObj / 8 = 3 := rfl
    by_cases hk : k + 1 < 3
    · simp [EraSys.access, EraSys.setClient, refStep, logAfter, casSucceeds, h3, hk]
    · simp [EraSys.access, EraSys.setClient, refStep, logAfter, casSucceeds, h3, hk]
  | done => exact absurd hat id

theorem EraInv.step (h : EraInv W ∅ s) (hroom : EraRoom W s) (hs : EraStep W s s')
    (hroom' : EraRoom W s') : EraInv W ∅ s' := by
  obtain ⟨mv, hen, rfl⟩ := hs
  cases mv with
  | call i c =>
    obtain ⟨-, hidle, href, hrefed, hbef⟩ := hen
    exact h.call hidle href hrefed hbef
  | access i spurious =>
    obtain ⟨hi, c, pc, hcl, hlive⟩ := hen
    have hnext : s.next (.access i spurious) = s.access i spurious c pc := by
      simp [EraSys.next, hcl]
    rw [hnext] at hroom' ⊢
    have := h.access hi hcl hlive hroom hroom'
    have hnone : lentAfter i ∅ pc = ∅ := by cases pc <;> rfl
    rwa [hnone] at this
  | env m => exact h.env hen

/-- The era invariant holds in every state of every run. -/
theorem EraReach.inv (h : EraReach W s) : EraInv W ∅ s := by
  refine Reach.invariant ?_ ?_ h
  · intro _ hi _
    exact EraInv.init hi
  · intro _ _ hinv hroom hs hroom'
    exact hinv.step hroom hs hroom'

end Runs

/-! ## §2 — the commit test in a state of the run -/

section Decision

variable {W : RefWorld} {lent : Finset Nat} {p : Prop} {s : EraSys} {i : Nat}

theorem RefCall.line_result (c : RefCall) (info e : Nat) : (c.line info e).result = c.target := by
  unfold RedoLog.result RefCall.line RefCall.target
  cases c.func <;> rfl

/-- The word `era(0, i)` lies below the matrix and is zero. -/
theorem EraInv.era_zero (h : EraInv W lent s) (hi : i ∈ W.ids) : s.shm.era 0 i = 0 := by
  refine h.below _ ?_
  have := (W.ids_range i hi).2
  simp only [Shm.eraIdx, maxThread] at *
  omega

/-- The replay chooses the last logged operation. -/
theorem EraInv.newestRedo (h : EraInv W lent s) (hi : i ∈ W.ids) {l : Logged}
    (hl : s.logged i = some l) : ∃ info, newestRedo s.shm i = l.call.line info l.era := by
  have hlog := h.log i hi
  unfold LogOk at hlog
  rw [hl] at hlog
  obtain ⟨-, -, ⟨info, hline⟩, hother⟩ := hlog
  refine ⟨info, ?_⟩
  rw [← hline]
  refine newestRedo_eq (Nat.mod_lt _ (by decide)) ?_
  intro j hj hne
  rw [hline]
  exact hother j hj hne

/-- An era that is not published yet fails the commit test. -/
theorem EraInv.not_needRedo (h : EraInv W lent s) (hi : i ∈ W.ids) {c : RefCall} {info : Nat}
    (hrefed : c.refed ∈ W.objs) (hpub : s.pub i = s.eras i) :
    ¬ needRedo s.shm i (c.line info (s.eras i)) := by
  rintro (⟨hid, hen⟩ | hmax)
  · -- the stamp on the object
    have hok := (h.info _ hrefed).2 (hid ▸ hi)
    rw [show (c.line info (s.eras i)).refed = c.refed from rfl] at hid hen
    rw [hid, hpub, hen] at hok
    exact Nat.lt_irrefl _ hok
  · -- the rows of the era matrix
    rw [le_maxEra_iff] at hmax
    have hpos := (h.era_eq i hi).2
    rcases hmax with h0 | ⟨j, hj, hji, hle⟩
    · exact absurd h0 (Nat.pos_iff_ne_zero.mp hpos)
    · rcases Nat.eq_zero_or_pos j with hj0 | hj0
      · subst hj0
        rw [h.era_zero hi] at hle
        exact absurd (Nat.le_zero.mp hle) (Nat.pos_iff_ne_zero.mp hpos)
      · have hlt := h.seen_lt i hi j ⟨hj0, hj⟩ hji
        rw [hpub] at hlt
        exact absurd hle (Nat.not_le.mpr hlt)

/-- An observed era passes the commit test. -/
theorem ObservedAt.needRedo {c : RefCall} {info e : Nat} (h : ObservedAt s i c.refed e) :
    needRedo s.shm i (c.line info e) := by
  rcases h with ⟨hid, hen⟩ | ⟨j, hj, hji, hle⟩
  · exact Or.inl ⟨hid, hen⟩
  · exact Or.inr ((le_maxEra_iff _ _ _).mpr (Or.inr ⟨j, hj.2, hji, hle⟩))

/-- Where the last logged operation of a client can stand. -/
inductive LastOp (W : RefWorld) (p : Prop) (s : EraSys) (i : Nat) (l : Logged) : Prop
  /-- logged, compare-exchange not done: the slot is untouched -/
  | open (hera : l.era = s.eras i) (hc : l.committed = false) (hpub : s.pub i = s.eras i)
      (href : l.call.ref ∈ W.slots i) (hw : s.shm.word l.call.ref = l.call.before)
      (hp : ∀ o, s.pend i o = 0)
  /-- compare-exchange done, slot still to be stored -/
  | window (hera : l.era = s.eras i) (hc : l.committed = true) (ho : Observed s i l.call)
      (href : l.call.ref ∈ W.slots i) (hw : s.shm.word l.call.ref = l.call.before)
      (hp : ∀ o, s.pend i o = if l.call.refed = o then l.call.delta else 0)
  /-- slot stored -/
  | closed (hc : l.committed = true)
      (hw : ¬ p → l.call.ref ∈ W.slots i ∧ s.shm.word l.call.ref = l.call.target)
      (ho : l.call.func = .linkRef → ObservedAt s i l.call.refed l.era)
      (hp : ∀ o, s.pend i o = 0)

theorem Logged.Complete.closed {l : Logged} (h : l.Complete W p s i) (hp : ∀ o, s.pend i o = 0) :
    LastOp W p s i l := .closed h.committed h.slot h.observed hp

theorem Pending.lastOp {c : RefCall} {l : Logged} (h : Pending W p s i c) (href : c.ref ∈ W.slots i)
    (hl : s.logged i = some l) (hpub : s.pub i = s.eras i) (hp : ∀ o, s.pend i o = 0) :
    LastOp W p s i l := by
  rcases h.2 l hl with rfl | hcomplete
  · exact .open rfl rfl hpub href h.1 hp
  · exact hcomplete.closed hp

/-- What a client knows places its last logged operation. -/
theorem ClientOk.lastOp (h : ClientOk W p s i) {l : Logged} (hl : s.logged i = some l) :
    LastOp W p s i l := by
  unfold ClientOk at h
  cases hcl : s.client i with
  | none =>
    rw [hcl] at h
    have hp : ∀ o, s.pend i o = 0 := fun o => by
      unfold EraSys.pend
      rw [hcl]
    exact (h l hl).closed hp
  | some cp =>
    obtain ⟨c, pc⟩ := cp
    rw [hcl] at h
    obtain ⟨href, -, hat⟩ := h
    have hquiet : ¬ pc.published → s.pub i = s.eras i ∧ ∀ o, s.pend i o = 0 := by
      intro hpc
      have hold : ∀ d p, s.client i = some (d, p) → ¬ p.published := by
        intro d p hd
        rw [hcl] at hd
        cases hd
        exact hpc
      exact ⟨EraSys.pub_of_not_published hold, EraSys.pend_of_not_published hold⟩
    cases pc with
    | loadInfo => exact Pending.lastOp hat href hl (hquiet id).1 (hquiet id).2
    | loadEra info => exact hat.1.lastOp href hl (hquiet id).1 (hquiet id).2
    | loadEle info cur => exact hat.1.lastOp href hl (hquiet id).1 (hquiet id).2
    | storeEle info cur => exact hat.1.lastOp href hl (hquiet id).1 (hquiet id).2
    | storeRedo info cur => exact hat.1.lastOp href hl (hquiet id).1 (hquiet id).2
    | cas info cur =>
      obtain ⟨hbef, hlog, -⟩ := hat
      rw [hlog] at hl
      cases hl
      exact .open rfl rfl (hquiet id).1 href hbef (hquiet id).2
    | storeRef info =>
      obtain ⟨hbef, hlog, hobs, -⟩ := hat
      rw [hlog] at hl
      cases hl
      refine .window rfl rfl hobs href hbef fun o => ?_
      unfold EraSys.pend
      rw [hcl]
    | bumpEra info =>
      obtain ⟨htar, hlog, hobs, -⟩ := hat
      rw [hlog] at hl
      cases hl
      refine .closed rfl (fun _ => ⟨href, htar⟩) hobs fun o => ?_
      unfold EraSys.pend
      rw [hcl]
    | wipe k => exact (hat.1 l hl).closed (hquiet id).2
    | done => exact absurd hat id

/-- A client with an empty log has nothing pending. -/
theorem ClientOk.pend_of_logged_none (h : ClientOk W p s i) (hl : s.logged i = none) (o : Nat) :
    s.pend i o = 0 := by
  unfold EraSys.pend
  split
  · rename_i c info hcl
    unfold ClientOk at h
    rw [hcl] at h
    rw [h.2.2.2.1] at hl
    cases hl
  · rfl

/-! ## §3 — the replay -/

/-- The words after the replay, by where the last logged operation stands: an open one leaves every
word as it is, one in the window gets its slot, and one that is closed does so again if its slot is
still its own. -/
theorem EraInv.redo_word (h : EraInv W lent s) (hi : i ∈ W.ids) (hown : i ∉ lent) {l : Logged}
    (hl : s.logged i = some l) :
    (redoRefCnt i s.shm).word = if l.committed = true then
      Function.update s.shm.word l.call.ref l.call.target else s.shm.word := by
  obtain ⟨info, hnew⟩ := h.newestRedo hi hl
  have hlog := h.log i hi
  unfold LogOk at hlog
  rw [hl] at hlog
  rw [redoRefCnt_word, hnew, RefCall.line_result]
  rcases (h.clients i hi).lastOp hl with
    ⟨hera, hc, hpub, -, -, -⟩ | ⟨hera, hc, hobs, -, -, -⟩ | ⟨hc, hw, -, -⟩
  · rw [hera, hc, if_neg fun hn => h.not_needRedo hi hlog.1 hpub hn.2, if_neg (by decide)]
  · rw [hera, hc, if_pos ⟨by simp [RefCall.line], hobs.needRedo⟩, if_pos rfl]
    rfl
  · -- the slot holds the target already, so it does not matter what the test says
    have hsame : Function.update s.shm.word l.call.ref l.call.target = s.shm.word := by
      rw [← (hw hown).2]
      exact Function.update_eq_self ..
    rw [hc, if_pos rfl, hsame]
    split
    · exact hsame
    · rfl

end Decision

/-- Replaying client `i` leaves the slot of its last logged operation at the target value exactly when
the compare-exchange of that operation succeeded, unchanged otherwise, and touches no other word; the
slots of `i` that hold an object are then its net contribution to the count of that object. -/
structure ReplayExact (W : RefWorld) (s : EraSys) (i : Nat) : Prop where
  slot : ∀ l, s.logged i = some l →
    ((redoRefCnt i s.shm).word l.call.ref = l.call.target ↔ l.committed = true) ∧
    (l.committed = false → (redoRefCnt i s.shm).word l.call.ref = s.shm.word l.call.ref)
  other : ∀ a, (∀ l, s.logged i = some l → a ≠ l.call.ref) →
    (redoRefCnt i s.shm).word a = s.shm.word a
  net : ∀ o ∈ W.objs, (holding (W.slots i) (redoRefCnt i s.shm).word o : Int) = s.net i o ∧
    ((redoRefCnt i s.shm).refCnt o : Int) = ∑ k ∈ W.ids, s.net k o

/-- The replay is exact in every state of every run. -/
theorem EraReach.replayExact {W : RefWorld} {s : EraSys} (h : EraReach W s) {i : Nat} (hi : i ∈ W.ids) :
    ReplayExact W s i := by
  have hinv := h.inv
  have hclient := hinv.clients i hi
  cases hl : s.logged i with
  | none =>
    have hlog := hinv.log i hi
    unfold LogOk at hlog
    rw [hl] at hlog
    have hid : (redoRefCnt i s.shm).word = s.shm.word := by
      rw [redoRefCnt_word, newestRedo_zero hlog, if_neg (by simp [RedoLog.zero])]
    refine { slot := ?_, other := ?_, net := ?_ }
    · intro l hl'
      rw [hl] at hl'
      cases hl'
    · intro a _
      rw [hid]
    · intro o ho
      unfold Shm.refCnt Shm.refInfo
      rw [hid, hinv.acct i hi o ho, hclient.pend_of_logged_none hl, Int.add_zero]
      exact ⟨rfl, hinv.count o ho⟩
  | some l =>
    have hlog := hinv.log i hi
    unfold LogOk at hlog
    rw [hl] at hlog
    obtain ⟨hrefed, -⟩ := hlog
    have hown : i ∉ (∅ : Finset Nat) := Finset.notMem_empty i
    have hword := hinv.redo_word hi hown hl
    have hlast := hclient.lastOp hl
    have href : l.call.ref ∈ W.slots i := by
      rcases hlast with ⟨-, -, -, href, -, -⟩ | ⟨-, -, -, href, -, -⟩ | ⟨-, hw, -, -⟩
      · exact href
      · exact href
      · exact (hw hown).1
    refine { slot := ?_, other := ?_, net := ?_ }
    · intro l' hl'
      rw [hl] at hl'
      cases hl'
      rw [hword]
      rcases hlast with ⟨-, hc, -, -, hw, -⟩ | ⟨-, hc, -, -, -, -⟩ | ⟨hc, -, -, -⟩
      · rw [hc, if_neg (by decide), hw]
        have hne : l.call.refed ≠ 0 := fun h0 => W.zero_not_obj (h0 ▸ hrefed)
        refine ⟨⟨fun heq => ?_, fun hf => absurd hf (by decide)⟩, fun _ => rfl⟩
        unfold RefCall.before RefCall.target at heq
        cases hf : l.call.func <;> simp only [hf] at heq
        · exact absurd heq.symm hne
        · exact absurd heq hne
      · rw [hc, if_pos rfl, Function.update_self]
        exact ⟨⟨fun _ => rfl, fun _ => rfl⟩, fun hf => absurd hf (by decide)⟩
      · rw [hc, if_pos rfl, Function.update_self]
        exact ⟨⟨fun _ => rfl, fun _ => rfl⟩, fun hf => absurd hf (by decide)⟩
    · intro a ha
      rw [hword]
      split
      · exact Function.update_of_ne (ha l hl) ..
      · rfl
    · intro o ho
      have hinfo : (redoRefCnt i s.shm).refCnt o = s.shm.refCnt o := by
        unfold Shm.refCnt Shm.refInfo
        rw [hword]
        split
        · rw [Function.update_of_ne]
          intro heq
          exact (W.header_not_slot o ho i).2.1 (heq ▸ href)
        · rfl
      rw [hinfo, hinv.acct i hi o ho, hword]
      refine ⟨?_, hinv.count o ho⟩
      rcases hlast with ⟨-, hc, -, -, -, hp⟩ | ⟨-, hc, -, -, hw, hp⟩ | ⟨hc, hw, -, hp⟩
      · rw [hc, if_neg (by decide), hp, Int.add_zero]
      · rw [hc, if_pos rfl, hp]
        exact holding_store_target href hw ho
      · rw [hc, if_pos rfl, hp, ← (hw hown).2, Function.update_eq_self, Int.add_zero]

/-! ## §4 — one run with a crash in the window -/

/-- One client with two RootRefs at the start of page (0, 1) and the first object of page (0, 2). -/
def lonelyWorld : RefWorld where
  ids := {1}
  objs := {134348800}
  slots := fun i => if i = 1 then {134283264, 134283280} else ∅
  ids_range := by decide
  slots_disjoint := by
    intro i j a hi hj
    split at hi <;> split at hj <;> simp_all
  header_not_slot := by
    intro o ho i
    rw [Finset.mem_singleton.mp ho]
    split <;> decide
  objs_apart := by decide
  zero_not_obj := by decide

/-- The second RootRef holds the object, the first one is free, the client is in its first era. -/
def lonelyStart : EraSys where
  shm :=
    { Shm.zero with
      eraCell := fun k => if k = 0 then 1 else 0
      word := fun a => if a = 134283280 then 134348800 else if a = 134348808 then packRefInfo 1 1 0 else 0 }
  client := fun _ => none
  logged := fun _ => none
  eras := fun _ => 1
  net := fun i o => if i = 1 ∧ o = 134348800 then 1 else 0

theorem lonelyStart_init : EraInit lonelyWorld lonelyStart where
  idle := fun _ => rfl
  log := fun _ _ => ⟨rfl, fun _ _ => rfl⟩
  era_eq := by decide
  below := by
    intro k hk
    exact if_neg (by omega)
  stamp := by decide
  seen := by
    intro c hc j hj hj' hne
    rw [Finset.mem_singleton.mp hc] at *
    show (if Shm.eraIdx j 1 = 0 then 1 else 0) < 1
    rw [if_neg]
    · decide
    · simp only [Shm.eraIdx, maxThread] at *
      omega
  net := by decide
  count := by decide

/-- Client 1 links its first RootRef up to its compare-exchange. -/
def lonelyMoves : List EraMove :=
  .call 1 ⟨.linkRef, 134283264, 134348800⟩ :: List.replicate 5 (.access 1 false)

theorem lonelyMoves_reach : EraReach lonelyWorld (lonelyMoves.foldl EraSys.next lonelyStart) := by
  have h0 : EraReach lonelyWorld lonelyStart := .init lonelyStart_init ⟨by decide, by decide⟩
  have h1 := h0.next (.call 1 ⟨.linkRef, 134283264, 134348800⟩)
    ⟨by decide, rfl, by decide, by decide, by decide⟩ ⟨by decide, by decide⟩
  have h2 := h1.next (.access 1 false) ⟨by decide, _, _, rfl, by decide⟩ ⟨by decide, by decide⟩
  have h3 := h2.next (.access 1 false) ⟨by decide, _, _, rfl, by decide⟩ ⟨by decide, by decide⟩
  have h4 := h3.next (.access 1 false) ⟨by decide, _, _, rfl, by decide⟩ ⟨by decide, by decide⟩
  have h5 := h4.next (.access 1 false) ⟨by decide, _, _, rfl, by decide⟩ ⟨by decide, by decide⟩
  exact h5.next (.access 1 false) ⟨by decide, _, _, rfl, by decide⟩ ⟨by decide, by decide⟩

end CxlShm
