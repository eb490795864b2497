import CxlShm.EraProtocol
import Mathlib.Algebra.Order.BigOperators.Group.Finset

/-! # EraInvariant — the inductive invariant of the era protocol

`ClientOk` says what a client knows at each program counter, `Rely` what the steps of the other
clients leave alone, `EraInv` the global part. Each access of client `i` is checked once: it
re-establishes `ClientOk` for `i` (`own`), it keeps the `Rely` of every other client (`rely`), and it
keeps the global part.
-/

namespace CxlShm

open Transition SlotCount

/-! ## §1 — indices of the era matrix -/

theorem eraIdx_inj {x y x' y' : Nat} (hy : 0 < y) (hy' : 0 < y') (hm : y ≤ maxThread)
    (hm' : y' ≤ maxThread) (h : Shm.eraIdx x y = Shm.eraIdx x' y') : x = x' ∧ y = y' := by
  simp only [Shm.eraIdx, maxThread] at *
  omega

/-- Column 0 of a row is the last column of the row above: no scanned column. -/
theorem eraIdx_zero_ne {x x' y' : Nat} (hy' : 0 < y') (hm' : y' < maxThread) :
    Shm.eraIdx x 0 ≠ Shm.eraIdx x' y' := by
  simp only [Shm.eraIdx, maxThread] at *
  omega

/-! ## §2 — what a client knows -/

/-- Eras of client `i` that have been published: the current one counts from the compare-exchange
on. -/
def EraSys.pub (s : EraSys) (i : Nat) : Nat :=
  match s.client i with
  | some (_, .storeRef _) => s.eras i + 1
  | some (_, .bumpEra _) => s.eras i + 1
  | _ => s.eras i

/-- A stamp carries a client id and, for the clients of the run, a published era. -/
def InfoOk (W : RefWorld) (s : EraSys) (info : Nat) : Prop :=
  getLcidFromInfo info ≤ maxThread ∧
    (getLcidFromInfo info ∈ W.ids → getLenumFromInfo info < s.pub (getLcidFromInfo info))

/-- A column the monitor can scan. -/
def Col (y : Nat) : Prop := 0 < y ∧ y < maxThread

/-- Row `i` has recorded the era of this stamp. -/
def Seen (s : EraSys) (i info : Nat) : Prop :=
  Col (getLcidFromInfo info) → getLenumFromInfo info ≤ s.shm.era i (getLcidFromInfo info)

/-- Era `e` of `i` is still on the object or in the row of another client. -/
def ObservedAt (s : EraSys) (i o e : Nat) : Prop :=
  (getLcidFromInfo (s.shm.refInfo o) = i ∧ getLenumFromInfo (s.shm.refInfo o) = e) ∨
    ∃ j, Col j ∧ j ≠ i ∧ e ≤ s.shm.era j i

def Observed (s : EraSys) (i : Nat) (c : RefCall) : Prop := ObservedAt s i c.refed (s.eras i)

/-- An object whose count `i` took to 0: nobody else touches its stamp any more. -/
def Dying (s : EraSys) (i o : Nat) : Prop :=
  s.shm.refCnt o = 0 ∧ getLcidFromInfo (s.shm.refInfo o) = i

/-- A logged operation that is complete. `lent` says that its slot may have been handed to another
client since; else the slot holds what the operation put there. -/
structure Logged.Complete (l : Logged) (W : RefWorld) (lent : Prop) (s : EraSys) (i : Nat) : Prop where
  committed : l.committed = true
  era : l.era < s.eras i
  slot : ¬ lent → l.call.ref ∈ W.slots i ∧ s.shm.word l.call.ref = l.call.target
  observed : l.call.func = .linkRef → ObservedAt s i l.call.refed l.era

/-- No operation of `i` is half done. -/
def Settled (W : RefWorld) (lent : Prop) (s : EraSys) (i : Nat) : Prop :=
  ∀ l, s.logged i = some l → l.Complete W lent s i

/-- Before the compare-exchange: the slot is untouched, and the log holds a complete operation or a
failed attempt of this one. -/
def Pending (W : RefWorld) (lent : Prop) (s : EraSys) (i : Nat) (c : RefCall) : Prop :=
  s.shm.word c.ref = c.before ∧
    ∀ l, s.logged i = some l → l = ⟨c, s.eras i, false⟩ ∨ l.Complete W lent s i

/-- A link works on an object that was referenced when its stamp was read. -/
def Live (c : RefCall) (info : Nat) : Prop :=
  c.func = .linkRef → getRefCntFromInfo info ≠ 0

def AtPc (W : RefWorld) (lent : Prop) (s : EraSys) (i : Nat) (c : RefCall) : RefPc → Prop
  | .loadInfo => Pending W lent s i c
  | .loadEra info => Pending W lent s i c ∧ InfoOk W s info ∧ Live c info ∧
      (c.func = .unlinkRef → Seen s i info)
  | .loadEle info cur => Pending W lent s i c ∧ InfoOk W s info ∧ Live c info ∧
      (c.func = .linkRef → cur = s.eras i)
  | .storeEle info cur => Pending W lent s i c ∧ InfoOk W s info ∧ Live c info ∧
      (c.func = .linkRef → cur = s.eras i) ∧
      (Col (getLcidFromInfo info) → s.shm.era i (getLcidFromInfo info) < getLenumFromInfo info)
  | .storeRedo info cur => Pending W lent s i c ∧ InfoOk W s info ∧ Live c info ∧ Seen s i info ∧
      cur = s.eras i
  | .cas info cur => s.shm.word c.ref = c.before ∧ s.logged i = some ⟨c, s.eras i, false⟩ ∧
      Live c info ∧ Seen s i info ∧ cur = s.eras i
  | .storeRef info => s.shm.word c.ref = c.before ∧ s.logged i = some ⟨c, s.eras i, true⟩ ∧
      Observed s i c ∧ (c.func = .unlinkRef → getRefCntFromInfo info = 1 → Dying s i c.refed)
  | .bumpEra info => s.shm.word c.ref = c.target ∧ s.logged i = some ⟨c, s.eras i, true⟩ ∧
      (c.func = .linkRef → Observed s i c) ∧
      (c.func = .unlinkRef → getRefCntFromInfo info = 1 → Dying s i c.refed)
  | .wipe k => Settled W lent s i ∧ (∀ l, s.logged i = some l → l.call.func = .unlinkRef) ∧ k < 3 ∧
      (k < 2 → Dying s i c.refed)
  | .done => False

/-- The local part of the invariant for client `i`. -/
def ClientOk (W : RefWorld) (lent : Prop) (s : EraSys) (i : Nat) : Prop :=
  match s.client i with
  | none => Settled W lent s i
  | some (c, pc) => c.ref ∈ W.slots i ∧ c.refed ∈ W.objs ∧ AtPc W lent s i c pc

/-! ## §3 — what the other clients leave alone -/

/-- The effect on client `j` of a step of somebody else. An object's stamp changes only if its era
has been recorded by then, and never while `j` is freeing the object. -/
structure Rely (W : RefWorld) (j : Nat) (s s' : EraSys) : Prop where
  client : s'.client j = s.client j
  logged : s'.logged j = s.logged j
  eras : s'.eras j = s.eras j
  slot : ∀ a ∈ W.slots j, s'.shm.word a = s.shm.word a
  pub : ∀ k ∈ W.ids, s.pub k ≤ s'.pub k
  era : ∀ x y, Col y → s.shm.era x y ≤ s'.shm.era x y
  row : ∀ y, Col y → s'.shm.era j y = s.shm.era j y
  info : ∀ o ∈ W.objs, s'.shm.refInfo o = s.shm.refInfo o ∨
    ((getLcidFromInfo (s.shm.refInfo o) = j →
        ∃ k, Col k ∧ k ≠ j ∧ getLenumFromInfo (s.shm.refInfo o) ≤ s'.shm.era k j) ∧
      ¬ Dying s j o)

section Stability

variable {W : RefWorld} {lent : Prop} {s s' : EraSys} {j : Nat}

theorem InfoOk.mono {info : Nat} (h : InfoOk W s info) (hp : ∀ k ∈ W.ids, s.pub k ≤ s'.pub k) :
    InfoOk W s' info :=
  ⟨h.1, fun hk => Nat.lt_of_lt_of_le (h.2 hk) (hp _ hk)⟩

theorem Seen.mono {info : Nat} (h : Seen s j info)
    (he : ∀ x y, Col y → s.shm.era x y ≤ s'.shm.era x y) : Seen s' j info :=
  fun hc => Nat.le_trans (h hc) (he _ _ hc)

theorem ObservedAt.stable {o e : Nat} (hj : Col j) (hr : Rely W j s s') (ho : o ∈ W.objs)
    (h : ObservedAt s j o e) : ObservedAt s' j o e := by
  rcases h with ⟨hid, hen⟩ | ⟨k, hkc, hkj, hk⟩
  · rcases hr.info _ ho with hsame | ⟨hrec, -⟩
    · left
      rw [hsame]
      exact ⟨hid, hen⟩
    · -- the stamp was overwritten: whoever did it had recorded it
      obtain ⟨k, hkc, hkj, hk⟩ := hrec hid
      right
      refine ⟨k, hkc, hkj, ?_⟩
      rwa [hen] at hk
  · right
    exact ⟨k, hkc, hkj, Nat.le_trans hk (hr.era _ _ hj)⟩

theorem Observed.stable {c : RefCall} (hj : Col j) (hr : Rely W j s s') (ho : c.refed ∈ W.objs)
    (h : Observed s j c) : Observed s' j c := by
  unfold Observed at *
  rw [hr.eras]
  exact ObservedAt.stable hj hr ho h

theorem Dying.stable {o : Nat} (hr : Rely W j s s') (ho : o ∈ W.objs) (h : Dying s j o) :
    Dying s' j o := by
  rcases hr.info o ho with hsame | ⟨-, hno⟩
  · unfold Dying Shm.refCnt at *
    rw [hsame]
    exact h
  · exact absurd h hno

/-- The client's own accesses keep a complete operation complete if they keep its slot and what is
observed of it. -/
theorem Logged.Complete.congr {l : Logged} (h : l.Complete W lent s j) (he : s.eras j ≤ s'.eras j)
    (hw : ∀ a ∈ W.slots j, s'.shm.word a = s.shm.word a)
    (ho : l.call.func = .linkRef → ObservedAt s j l.call.refed l.era →
      ObservedAt s' j l.call.refed l.era) : l.Complete W lent s' j := by
  refine ⟨h.committed, Nat.lt_of_lt_of_le h.era he, ?_, fun hf => ho hf (h.observed hf)⟩
  intro hl
  obtain ⟨href, hword⟩ := h.slot hl
  rw [hw _ href]
  exact ⟨href, hword⟩

theorem Logged.Complete.stable {l : Logged} (hj : Col j) (hr : Rely W j s s')
    (ho : l.call.refed ∈ W.objs) (h : l.Complete W lent s j) : l.Complete W lent s' j := by
  refine ⟨h.committed, ?_, ?_, fun hf => (h.observed hf).stable hj hr ho⟩
  · rw [hr.eras]
    exact h.era
  · intro hl
    obtain ⟨href, hw⟩ := h.slot hl
    rw [hr.slot _ href]
    exact ⟨href, hw⟩

section Local

variable (hj : Col j) (hr : Rely W j s s')
  (hs : ∀ l, s.logged j = some l → l.call.refed ∈ W.objs)
include hj hr hs

theorem Settled.stable (h : Settled W lent s j) : Settled W lent s' j := by
  intro l hl
  rw [hr.logged] at hl
  exact (h l hl).stable hj hr (hs l hl)

theorem Pending.stable {c : RefCall} (hc : c.ref ∈ W.slots j) (h : Pending W lent s j c) :
    Pending W lent s' j c := by
  refine ⟨?_, ?_⟩
  · rw [hr.slot _ hc]
    exact h.1
  · intro l hl
    rw [hr.logged] at hl
    rcases h.2 l hl with h1 | h1
    · left
      rw [hr.eras]
      exact h1
    · exact Or.inr (h1.stable hj hr (hs l hl))

/-- **Stability.** What a client knows survives the steps of the others. -/
theorem ClientOk.stable (h : ClientOk W lent s j) : ClientOk W lent s' j := by
  unfold ClientOk at *
  rw [hr.client]
  cases hcl : s.client j with
  | none =>
    rw [hcl] at h
    exact Settled.stable hj hr hs h
  | some cp =>
    obtain ⟨c, pc⟩ := cp
    rw [hcl] at h
    obtain ⟨hc, ho, h⟩ := h
    refine ⟨hc, ho, ?_⟩
    cases pc with
    | loadInfo => exact Pending.stable hj hr hs hc h
    | loadEra info =>
      obtain ⟨h1, h2, h3, h4⟩ := h
      exact ⟨h1.stable hj hr hs hc, h2.mono hr.pub, h3, fun hf => (h4 hf).mono hr.era⟩
    | loadEle info cur =>
      obtain ⟨h1, h2, h3, h4⟩ := h
      refine ⟨h1.stable hj hr hs hc, h2.mono hr.pub, h3, ?_⟩
      rw [hr.eras]
      exact h4
    | storeEle info cur =>
      obtain ⟨h1, h2, h3, h4, h5⟩ := h
      refine ⟨h1.stable hj hr hs hc, h2.mono hr.pub, h3, ?_, ?_⟩
      · rw [hr.eras]
        exact h4
      · intro hcol
        rw [hr.row _ hcol]
        exact h5 hcol
    | storeRedo info cur =>
      obtain ⟨h1, h2, h3, h4, h5⟩ := h
      refine ⟨h1.stable hj hr hs hc, h2.mono hr.pub, h3, h4.mono hr.era, ?_⟩
      rw [hr.eras]
      exact h5
    | cas info cur =>
      obtain ⟨h1, h2, h3, h4, h5⟩ := h
      refine ⟨?_, ?_, h3, h4.mono hr.era, ?_⟩
      · rw [hr.slot _ hc]
        exact h1
      · rw [hr.logged, hr.eras]
        exact h2
      · rw [hr.eras]
        exact h5
    | storeRef info =>
      obtain ⟨h1, h2, h3, h4⟩ := h
      refine ⟨?_, ?_, h3.stable hj hr ho, fun hf hn => (h4 hf hn).stable hr ho⟩
      · rw [hr.slot _ hc]
        exact h1
      · rw [hr.logged, hr.eras]
        exact h2
    | bumpEra info =>
      obtain ⟨h1, h2, h3, h4⟩ := h
      refine ⟨?_, ?_, fun hf => (h3 hf).stable hj hr ho, fun hf hn => (h4 hf hn).stable hr ho⟩
      · rw [hr.slot _ hc]
        exact h1
      · rw [hr.logged, hr.eras]
        exact h2
    | wipe k =>
      obtain ⟨h1, h2, h3, h4⟩ := h
      refine ⟨h1.stable hj hr hs, ?_, h3, fun hk => (h4 hk).stable hr ho⟩
      rw [hr.logged]
      exact h2
    | done => exact h

end Local

end Stability

/-! ## §4 — the invariant -/

/-- A committed operation whose slot is not stored yet shows in the count before it shows in the
slots of its client. -/
def EraSys.pend (s : EraSys) (i o : Nat) : Int :=
  match s.client i with
  | some (c, .storeRef _) => if c.refed = o then c.delta else 0
  | _ => 0

/-- The log holds the last logged operation in its line and only older lines besides. -/
def LogOk (W : RefWorld) (s : EraSys) (i : Nat) : Prop :=
  match s.logged i with
  | none => ∀ k < redoCachelineCnt, s.shm.redo i k = RedoLog.zero
  | some l => l.call.refed ∈ W.objs ∧ 0 < l.era ∧
      (∃ info, s.shm.redo i (l.era % redoCachelineCnt) = l.call.line info l.era) ∧
      ∀ k < redoCachelineCnt, k ≠ l.era % redoCachelineCnt → (s.shm.redo i k).curEra < l.era

/-- `lent` holds the clients whose last logged slot may belong to somebody else by now. -/
structure EraInv (W : RefWorld) (lent : Finset Nat) (s : EraSys) : Prop where
  clients : ∀ i ∈ W.ids, ClientOk W (i ∈ lent) s i
  log : ∀ i ∈ W.ids, LogOk W s i
  era_eq : ∀ i ∈ W.ids, s.shm.era i i = s.eras i ∧ 0 < s.eras i
  below : ∀ k : Int, k < -1 → s.shm.eraCell k = 0
  info : ∀ o ∈ W.objs, InfoOk W s (s.shm.refInfo o)
  seen_lt : ∀ c ∈ W.ids, ∀ j, Col j → j ≠ c → s.shm.era j c < s.pub c
  acct : ∀ i ∈ W.ids, ∀ o ∈ W.objs,
    s.net i o = (holding (W.slots i) s.shm.word o : Int) + s.pend i o
  count : ∀ o ∈ W.objs, (s.shm.refCnt o : Int) = ∑ k ∈ W.ids, s.net k o

theorem RefWorld.col (W : RefWorld) {i : Nat} (hi : i ∈ W.ids) : Col i := W.ids_range i hi

theorem LogOk.refed_mem {W : RefWorld} {s : EraSys} {i : Nat} (h : LogOk W s i) :
    ∀ l, s.logged i = some l → l.call.refed ∈ W.objs := by
  intro l hl
  unfold LogOk at h
  rw [hl] at h
  exact h.1

section Counts

variable {W : RefWorld} {lent : Finset Nat} {s : EraSys}

/-- A client that is about to store to its slot still has the old value there. -/
theorem ClientOk.storeRef_before {i info : Nat} {c : RefCall} {p : Prop} (h : ClientOk W p s i)
    (hcl : s.client i = some (c, .storeRef info)) : c.ref ∈ W.slots i ∧ s.shm.word c.ref = c.before := by
  unfold ClientOk at h
  rw [hcl] at h
  exact ⟨h.1, h.2.2.1⟩

/-- Storing the target value moves the slots of the object by what the compare-exchange added. -/
theorem holding_store_target {i o : Nat} {c : RefCall} {w : Nat → Nat} (href : c.ref ∈ W.slots i)
    (hbef : w c.ref = c.before) (ho : o ∈ W.objs) :
    (holding (W.slots i) (Function.update w c.ref c.target) o : Int) =
      holding (W.slots i) w o + if c.refed = o then c.delta else 0 := by
  have h0 : hit 0 o = 0 := hit_ne fun h0 => W.zero_not_obj (h0 ▸ ho)
  have hupd := holding_update_mem w c.target o href
  rw [hbef] at hupd
  have hhit : hit c.refed o = if c.refed = o then 1 else 0 := rfl
  cases hf : c.func with
  | linkRef =>
    simp only [RefCall.before, RefCall.target, RefCall.delta, hf, h0, hhit] at hupd ⊢
    split at hupd
    · rename_i hro
      rw [if_pos hro]
      omega
    · rename_i hro
      rw [if_neg hro]
      omega
  | unlinkRef =>
    simp only [RefCall.before, RefCall.target, RefCall.delta, hf, h0, hhit] at hupd ⊢
    split at hupd
    · rename_i hro
      rw [if_pos hro]
      omega
    · rename_i hro
      rw [if_neg hro]
      omega

theorem EraInv.net_nonneg (h : EraInv W lent s) {i o : Nat} (hi : i ∈ W.ids) (ho : o ∈ W.objs) :
    0 ≤ s.net i o := by
  rw [h.acct i hi o ho]
  unfold EraSys.pend
  split
  · rename_i c info hcl
    split
    · rename_i hco
      obtain ⟨hmem, hbef⟩ := (h.clients i hi).storeRef_before hcl
      cases hf : c.func with
      | linkRef =>
        simp only [RefCall.delta, hf]
        omega
      | unlinkRef =>
        -- the slot still holds the object, so the one reference taken back is among the slots
        have hpos : 0 < holding (W.slots i) s.shm.word (s.shm.word c.ref) := holding_pos hmem
        rw [hbef, RefCall.before, hf] at hpos
        simp only [hco] at hpos
        simp only [RefCall.delta, hf]
        omega
    · omega
  · omega

/-- An object some slot holds, outside a half-done unlink, has a positive count. -/
theorem EraInv.refCnt_pos (h : EraInv W lent s) {i a : Nat} (hi : i ∈ W.ids) (ha : a ∈ W.slots i)
    (ho : s.shm.word a ∈ W.objs) (hp : s.pend i (s.shm.word a) = 0) :
    0 < s.shm.refCnt (s.shm.word a) := by
  have hle : s.net i (s.shm.word a) ≤ ∑ k ∈ W.ids, s.net k (s.shm.word a) :=
    Finset.single_le_sum (fun k hk => h.net_nonneg hk ho) hi
  have hpos : 0 < holding (W.slots i) s.shm.word (s.shm.word a) := holding_pos ha
  have hacct := h.acct i hi _ ho
  have hcount := h.count _ ho
  rw [hp] at hacct
  omega

end Counts

end CxlShm
