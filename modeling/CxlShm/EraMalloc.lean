import CxlShm.EraCommit

/-! # EraMalloc — allocations between the reference operations

`cxl_malloc` advances the era of its client as well: `block_to_cxlobj` takes the current era, adds 1
to it and stamps the block with the era it took. Its slow path starts with
`memset(tls->redo, 0, sizeof(tls->redo))`, which a crash can cut short.

The machine is that of `EraProtocol` with these steps added. While a client is inside the `memset` its
log is neither the old one nor empty; the era invariant is then that of the `view`, in which the
`memset` has not begun.
-/

namespace CxlShm

open Transition SlotCount

/-! ## §1 — the machine -/

/-- Where a client stands in `cxl_malloc`; `stamp` holds the era it took. -/
inductive MallocPc
  | idle
  | clearLog (k : Nat)
  | stamp (era : Nat)
  deriving DecidableEq, Repr

/-- `saved` is history: the log before the `memset` that is under way. -/
structure MallocSys where
  sys : EraSys
  malloc : Nat → MallocPc
  saved : Nat → Nat → RedoLog

inductive MallocMove
  | ref (mv : EraMove)
  /-- the client enters `cxl_malloc_generic` -/
  | generic (i : Nat)
  | clearLine (i : Nat)
  /-- `*era(thread_id, thread_id) += 1` in `block_to_cxlobj` -/
  | bump (i : Nat)
  /-- the block `o` gets its stamp, and the RootRef `a` its offset -/
  | stamp (i o a : Nat)

/-- The client whose program this move runs. -/
def EraMove.runs : EraMove → Option Nat
  | .call i _ => some i
  | .access i _ => some i
  | .env _ => none

/-- A client runs one library call at a time. The block comes from a free list: its header is wiped,
and nobody works on it. -/
def MallocMove.enabled (W : RefWorld) (s : MallocSys) : MallocMove → Prop
  | .ref mv => mv.enabled W s.sys ∧ ∀ i, mv.runs = some i → s.malloc i = .idle
  | .generic i => i ∈ W.ids ∧ s.sys.client i = none ∧ s.malloc i = .idle
  | .clearLine i => i ∈ W.ids ∧ ∃ k, s.malloc i = .clearLog k
  | .bump i => i ∈ W.ids ∧ s.sys.client i = none ∧ s.malloc i = .idle
  | .stamp i o a => i ∈ W.ids ∧ (∃ e, s.malloc i = .stamp e) ∧ o ∈ W.objs ∧ a ∈ W.slots i ∧
      s.sys.shm.word a = 0 ∧ s.sys.shm.refInfo o = 0 ∧
      ∀ j c pc, s.sys.client j = some (c, pc) → c.refed ≠ o

def MallocSys.setMalloc (s : MallocSys) (i : Nat) (pc : MallocPc) : MallocSys :=
  { s with malloc := Function.update s.malloc i pc }

/-- `*era(thread_id, thread_id) += 1`. -/
def EraSys.bump (s : EraSys) (i : Nat) : EraSys :=
  { s with
    shm := s.shm.storeEra i i ((s.shm.era i i + 1) % 2 ^ 32)
    eras := Function.update s.eras i (s.eras i + 1) }

/-- The new object `o` has the stamp `info` and is held by the slot `a`. -/
def EraSys.stamp (s : EraSys) (i o a info : Nat) : EraSys :=
  { s with
    shm := (s.shm.store a o).store (o + 8) info
    net := Function.update s.net i (Function.update (s.net i) o (s.net i o + 1)) }

def MallocSys.next (s : MallocSys) : MallocMove → MallocSys
  | .ref mv => { s with sys := s.sys.next mv }
  | .generic i =>
    { s.setMalloc i (.clearLog 0) with
      saved := Function.update s.saved i (s.sys.shm.redo i) }
  | .clearLine i =>
    match s.malloc i with
    | .clearLog k =>
      { s.setMalloc i (if k + 1 < redoCachelineCnt then .clearLog (k + 1) else .idle) with
        sys :=
          { s.sys with
            shm := s.sys.shm.storeRedo i k RedoLog.zero
            logged := if k + 1 < redoCachelineCnt then s.sys.logged
              else Function.update s.sys.logged i none } }
    | _ => s
  | .bump i =>
    { s.setMalloc i (.stamp (s.sys.shm.era i i)) with sys := s.sys.bump i }
  | .stamp i o a =>
    match s.malloc i with
    | .stamp e => { s.setMalloc i .idle with sys := s.sys.stamp i o a (packRefInfo i 1 e) }
    | _ => s

def MallocStep (W : RefWorld) (s s' : MallocSys) : Prop :=
  ∃ mv : MallocMove, mv.enabled W s ∧ s' = s.next mv

structure MallocInit (W : RefWorld) (s : MallocSys) : Prop where
  sys : EraInit W s.sys
  malloc : ∀ i, s.malloc i = .idle

/-- Runs of any length; fewer than `2^16` references per object. -/
def MallocReach (W : RefWorld) : MallocSys → Prop :=
  Reach (MallocInit W) (MallocStep W) fun s => ∀ o ∈ W.objs, ∑ k ∈ W.ids, s.sys.net k o < 2 ^ 16

/-- The runs in which no own era passes `2^32 - 1`. -/
def ShortReach (W : RefWorld) : MallocSys → Prop :=
  Reach (MallocInit W) (MallocStep W) fun s => EraRoom W s.sys

/-! ## §2 — the log before the memset -/

/-- The area with other redo logs. -/
def Shm.withLogs (m : Shm) (logs : Nat → Option (Nat → RedoLog)) : Shm :=
  { m with
    tls := fun i =>
      match logs i with
      | none => m.tls i
      | some log => { m.tls i with redo := log } }

section WithLogs

variable (m : Shm) (logs : Nat → Option (Nat → RedoLog))

@[simp] theorem withLogs_word : (m.withLogs logs).word = m.word := rfl
@[simp] theorem withLogs_eraCell : (m.withLogs logs).eraCell = m.eraCell := rfl
@[simp] theorem withLogs_era (x y : Nat) : (m.withLogs logs).era x y = m.era x y := rfl
@[simp] theorem withLogs_refInfo (o : Nat) : (m.withLogs logs).refInfo o = m.refInfo o := rfl
@[simp] theorem withLogs_refCnt (o : Nat) : (m.withLogs logs).refCnt o = m.refCnt o := rfl
theorem withLogs_store (a v : Nat) : (m.withLogs logs).store a v = (m.store a v).withLogs logs := rfl

variable {m logs}

theorem withLogs_redo_none {i : Nat} (h : logs i = none) (k : Nat) :
    (m.withLogs logs).redo i k = m.redo i k := by
  simp [Shm.withLogs, Shm.redo, h]

theorem withLogs_redo_some {i : Nat} {log : Nat → RedoLog} (h : logs i = some log) (k : Nat) :
    (m.withLogs logs).redo i k = log k := by
  simp [Shm.withLogs, Shm.redo, h]

theorem withLogs_storeRedo {i : Nat} (h : logs i = none) (k : Nat) (l : RedoLog) :
    (m.withLogs logs).storeRedo i k l = (m.storeRedo i k l).withLogs logs := by
  unfold Shm.withLogs Shm.storeRedo
  congr 1
  funext j
  by_cases hj : j = i
  · subst hj
    simp [h]
  · simp [hj]

/-- An access of a client whose log is the real one does not see the others. -/
theorem refStep_withLogs {i : Nat} (h : logs i = none) (spurious : Bool) (c : RefCall) (pc : RefPc) :
    refStep i spurious c pc (m.withLogs logs) =
      ((refStep i spurious c pc m).1, (refStep i spurious c pc m).2.withLogs logs) := by
  cases pc with
  | loadInfo => cases hf : c.func <;> simp [refStep, hf]
  | loadEra info => cases hf : c.func <;> simp [refStep, hf]
  | loadEle info cur =>
    by_cases hlt : getLenumFromInfo info > m.era i (getLcidFromInfo info)
    · simp [refStep, hlt]
    · simp [refStep, hlt]
  | storeRedo info cur => simp only [refStep, withLogs_storeRedo h]
  | cas info cur =>
    by_cases hsame : m.refInfo c.refed = info ∧ spurious = false
    · simp [refStep, hsame, withLogs_store]
    · simp [refStep, hsame]
  | storeEle info cur => rfl
  | storeRef info => rfl
  | bumpEra info => rfl
  | wipe k => rfl
  | done => rfl

theorem casSucceeds_withLogs (spurious : Bool) (c : RefCall) (pc : RefPc) :
    casSucceeds spurious c (m.withLogs logs) pc = casSucceeds spurious c m pc := by
  cases pc <;> rfl

end WithLogs

/-- The logs of the clients inside the `memset`, as they were before it. -/
def MallocSys.logs (s : MallocSys) (i : Nat) : Option (Nat → RedoLog) :=
  match s.malloc i with
  | .clearLog _ => some (s.saved i)
  | _ => none

/-- The state in which no `memset` has begun. -/
def MallocSys.view (s : MallocSys) : EraSys := { s.sys with shm := s.sys.shm.withLogs s.logs }

/-! ## §3 — the added steps keep the era invariant -/

section Steps

variable {W : RefWorld} {lent : Finset Nat} {s : EraSys} {i : Nat}

/-- What a client between two calls knows when its era, and only that, has moved on. -/
theorem EraInv.bump (h : EraInv W lent s) (hi : i ∈ W.ids) (hidle : s.client i = none)
    (hroom : s.eras i + 1 < 2 ^ 32) : EraInv W lent (s.bump i) := by
  have heras_self : (s.bump i).eras i = s.eras i + 1 := by simp [EraSys.bump]
  have heras_ne : ∀ j, j ≠ i → (s.bump i).eras j = s.eras j := by
    intro j hji
    simp [EraSys.bump, hji]
  have hwrap : (s.shm.era i i + 1) % 2 ^ 32 = s.eras i + 1 := by
    rw [(h.era_eq i hi).1]
    exact Nat.mod_eq_of_lt hroom
  have hera : ∀ y z, Col z → (s.bump i).shm.era y z =
      if y = i ∧ z = i then s.eras i + 1 else s.shm.era y z := by
    intro y z hz
    rw [← hwrap]
    exact era_storeEra (Nat.le_of_lt (W.ids_range i hi).2) hz
  have hmono : ∀ y z, Col z → s.shm.era y z ≤ (s.bump i).shm.era y z := by
    intro y z hz
    rw [hera y z hz]
    split
    · rename_i hyz
      rw [hyz.1, hyz.2, (h.era_eq i hi).1]
      exact Nat.le_succ _
    · exact Nat.le_refl _
  have hpub_self : (s.bump i).pub i = s.eras i + 1 ∧ s.pub i = s.eras i := by
    have hno : ∀ d pc, s.client i = some (d, pc) → ¬ pc.published := by
      intro d pc hd
      rw [hidle] at hd
      cases hd
    refine ⟨?_, EraSys.pub_of_not_published hno⟩
    rw [← heras_self]
    exact EraSys.pub_of_not_published hno
  have hpub : ∀ k, s.pub k ≤ (s.bump i).pub k := by
    intro k
    by_cases hki : k = i
    · subst hki
      omega
    · have : (s.bump i).pub k = s.pub k := EraSys.pub_congr rfl (heras_ne k hki)
      exact Nat.le_of_eq this.symm
  refine h.of_step (i := i) (fun _ _ => Iff.rfl) ?_ (fun _ _ _ _ => rfl) ?_ (fun hi => h.log i hi) ?_ ?_
    ?_ ?_ (fun j hj o ho => h.acct j hj o ho) h.count
  · intro j _ hji
    refine ⟨rfl, rfl, heras_ne j hji, fun _ _ => rfl, fun k _ => hpub k, fun y z hz => hmono y z hz, ?_,
      fun _ _ => Or.inl rfl⟩
    intro z hz
    rw [hera j z hz, if_neg fun hjz => hji hjz.1]
  · intro hi
    have hset := h.clients i hi
    unfold ClientOk at hset ⊢
    rw [hidle] at hset
    rw [show (s.bump i).client i = none from hidle]
    intro l hl
    refine (hset l hl).congr (by rw [heras_self]; exact Nat.le_succ _) (fun _ _ => rfl) fun _ ho => ?_
    rcases ho with hstamp | ⟨k, hk, hki, hle⟩
    · exact Or.inl hstamp
    · exact Or.inr ⟨k, hk, hki, Nat.le_trans hle (hmono k i (W.col hi))⟩
  · intro j hj
    by_cases hji : j = i
    · subst hji
      rw [hera j j (W.col hj), if_pos ⟨rfl, rfl⟩, heras_self]
      exact ⟨rfl, Nat.succ_pos _⟩
    · rw [hera j j (W.col hj), if_neg fun hjj => hji hjj.1, heras_ne j hji]
      exact h.era_eq j hj
  · intro k hk
    show Function.update s.shm.eraCell _ _ k = 0
    rw [Function.update_of_ne, h.below k hk]
    have := (W.ids_range i hi).1
    simp only [Shm.eraIdx, maxThread]
    omega
  · intro o ho
    exact (h.info o ho).mono fun k _ => hpub k
  · intro k hk j hj hjk
    rw [hera j k (W.col hk), if_neg fun hjk' => hjk (hjk'.1.trans hjk'.2.symm)]
    exact Nat.lt_of_lt_of_le (h.seen_lt k hk j hj hjk) (hpub k)

/-- A wiped block gets a stamp of an era its client has passed, and a slot that holds it. The slot may
be that of the last logged operation. -/
theorem EraInv.stamp (h : EraInv W lent s) (hi : i ∈ W.ids) {o a e : Nat} (hidle : s.client i = none)
    (ho : o ∈ W.objs) (ha : a ∈ W.slots i) (hfree : s.shm.word a = 0) (hwiped : s.shm.refInfo o = 0)
    (he : e < s.eras i) (he32 : e < 2 ^ 32) :
    EraInv W (insert i lent) (s.stamp i o a (packRefInfo i 1 e)) := by
  generalize hinfo : packRefInfo i 1 e = info
  have hi16 : i < 2 ^ 16 := Nat.lt_of_lt_of_le (W.ids_range i hi).2 (by decide)
  have hno : ∀ d pc, s.client i = some (d, pc) → ¬ pc.published := by
    intro d pc hd
    rw [hidle] at hd
    cases hd
  have hao : a ≠ o + 8 := by
    rintro rfl
    exact (W.header_not_slot o ho i).2.1 ha
  have hword : ∀ b, b ≠ a → b ≠ o + 8 → (s.stamp i o a info).shm.word b = s.shm.word b := by
    intro b hba hbo
    show Function.update (Function.update s.shm.word a o) (o + 8) _ b = _
    rw [Function.update_of_ne hbo, Function.update_of_ne hba]
  have hword_a : (s.stamp i o a info).shm.word a = o := by
    show Function.update (Function.update s.shm.word a o) (o + 8) _ a = _
    rw [Function.update_of_ne hao, Function.update_self]
  have hinfo_self : (s.stamp i o a info).shm.refInfo o = packRefInfo i 1 e := by
    rw [hinfo]
    exact Function.update_self ..
  have hinfo_ne : ∀ p ∈ W.objs, p ≠ o → (s.stamp i o a info).shm.refInfo p = s.shm.refInfo p := by
    intro p hp hpo
    refine hword _ ?_ (by omega)
    rintro rfl
    exact (W.header_not_slot p hp i).2.1 ha
  have hslot : ∀ j, ∀ b ∈ W.slots j, b ≠ a → (s.stamp i o a info).shm.word b = s.shm.word b := by
    intro j b hb hba
    refine hword b hba ?_
    rintro rfl
    exact (W.header_not_slot o ho j).2.1 hb
  have hslot_ne : ∀ j, j ≠ i → ∀ b ∈ W.slots j, (s.stamp i o a info).shm.word b = s.shm.word b := by
    intro j hji b hb
    refine hslot j b hb ?_
    rintro rfl
    exact hji (W.slots_disjoint j i _ hb ha)
  have hcnt0 : s.shm.refCnt o = 0 := by
    unfold Shm.refCnt
    rw [hwiped]
    rfl
  refine h.of_step (i := i) (fun j hji => by simp [hji]) ?_ (fun _ _ _ _ => rfl) ?_
    (fun hi => h.log i hi) h.era_eq h.below ?_ h.seen_lt ?_ ?_
  · intro j hj hji
    refine ⟨rfl, rfl, rfl, hslot_ne j hji, fun _ _ => Nat.le_refl _, fun _ _ _ => Nat.le_refl _,
      fun _ _ => rfl, ?_⟩
    intro p hp
    by_cases hpo : p = o
    · subst hpo
      right
      have hj0 : (0 : Nat) ≠ j := Nat.ne_of_lt (W.ids_range j hj).1
      unfold Dying
      rw [hwiped]
      exact ⟨fun h0 => absurd h0 hj0, fun hd => hj0 hd.2⟩
    · exact Or.inl (hinfo_ne p hp hpo)
  · intro hi
    have hset := h.clients i hi
    unfold ClientOk at hset ⊢
    rw [hidle] at hset
    rw [show (s.stamp i o a info).client i = none from hidle]
    intro l hl
    have hc := hset l hl
    refine ⟨hc.committed, hc.era, ?_, ?_⟩
    · intro hlent
      exact absurd (Finset.mem_insert_self i lent) hlent
    · intro hf
      rcases hc.observed hf with ⟨hid, hen⟩ | hrow
      · left
        by_cases hpo : l.call.refed = o
        · -- the block was wiped, so its stamp was nobody's
          rw [hpo, hwiped] at hid
          exact absurd hid (Nat.ne_of_lt (W.ids_range i hi).1)
        · rw [hinfo_ne _ ((h.log i hi).refed_mem l hl) hpo]
          exact ⟨hid, hen⟩
      · exact Or.inr hrow
  · intro p hp
    by_cases hpo : p = o
    · subst hpo
      rw [hinfo_self]
      unfold InfoOk
      rw [getLcidFromInfo_pack hi16 (by decide) he32, getLenumFromInfo_pack hi16 (by decide) he32]
      refine ⟨Nat.le_of_lt (W.ids_range i hi).2, fun _ => ?_⟩
      show e < s.pub i
      rw [EraSys.pub_of_not_published hno]
      exact he
    · rw [hinfo_ne p hp hpo]
      exact h.info p hp
  · intro j hj p hp
    have hnet : (s.stamp i o a info).net j p = s.net j p + if j = i ∧ p = o then 1 else 0 := by
      show Function.update s.net i _ j p = _
      by_cases hji : j = i
      · subst hji
        rw [Function.update_self]
        by_cases hpo : p = o
        · subst hpo
          rw [Function.update_self, if_pos ⟨rfl, rfl⟩]
        · rw [Function.update_of_ne hpo, if_neg fun hh => hpo hh.2, Int.add_zero]
      · rw [Function.update_of_ne hji, if_neg fun hh => hji hh.1, Int.add_zero]
    have hpend : (s.stamp i o a info).pend j p = s.pend j p := EraSys.pend_congr rfl
    rw [hnet, hpend, h.acct j hj p hp]
    by_cases hji : j = i
    · subst hji
      have hhold : holding (W.slots j) (s.stamp j o a info).shm.word p =
          holding (W.slots j) (Function.update s.shm.word a o) p := by
        refine holding_congr p fun b hb => ?_
        by_cases hba : b = a
        · rw [hba, hword_a, Function.update_self]
        · rw [hslot j b hb hba, Function.update_of_ne hba]
      have hupd := holding_update_mem s.shm.word o p ha
      have h0 : hit 0 p = 0 := hit_ne fun h0 => W.zero_not_obj (h0 ▸ hp)
      rw [hfree, h0] at hupd
      rw [hhold]
      by_cases hpo : p = o
      · rw [hpo] at hupd ⊢
        rw [hit_self] at hupd
        rw [if_pos ⟨rfl, rfl⟩]
        omega
      · rw [hit_ne (Ne.symm hpo)] at hupd
        rw [if_neg fun hh => hpo hh.2]
        omega
    · rw [if_neg fun hh => hji hh.1, Int.add_zero, holding_congr p (hslot_ne j hji)]
  · intro p hp
    have hsum : ∑ k ∈ W.ids, (s.stamp i o a info).net k p =
        (∑ k ∈ W.ids, s.net k p) + if o = p then 1 else 0 := sum_net_update s.net hi o p 1
    rw [hsum, ← h.count p hp]
    by_cases hpo : p = o
    · subst hpo
      unfold Shm.refCnt at hcnt0 ⊢
      rw [hinfo_self, getRefCntFromInfo_pack hi16 (by decide) he32, hcnt0, if_pos rfl]
      rfl
    · rw [if_neg (Ne.symm hpo), Int.add_zero]
      unfold Shm.refCnt
      rw [hinfo_ne p hp hpo]

/-- The log is empty, and no operation is logged. -/
theorem EraInv.clear (h : EraInv W lent s) (hidle : s.client i = none) {m : Shm}
    (hword : m.word = s.shm.word) (hera : m.eraCell = s.shm.eraCell)
    (hzero : ∀ k < redoCachelineCnt, m.redo i k = RedoLog.zero)
    (hredo : ∀ j, j ≠ i → ∀ k, m.redo j k = s.shm.redo j k) :
    EraInv W lent { s with shm := m, logged := Function.update s.logged i none } := by
  have hinfo : ∀ o, m.refInfo o = s.shm.refInfo o := fun o => congrFun hword _
  have hera' : ∀ x y, m.era x y = s.shm.era x y := fun x y => congrFun hera _
  refine h.of_step (i := i) (fun _ _ => Iff.rfl) ?_ (fun j _ hji => hredo j hji) ?_ ?_ ?_ ?_ ?_ ?_ ?_ ?_
  · intro j _ hji
    exact ⟨rfl, Function.update_of_ne hji .., rfl, fun a _ => congrFun hword a, fun _ _ => Nat.le_refl _,
      fun x y _ => Nat.le_of_eq (hera' x y).symm, fun y _ => hera' j y, fun o _ => Or.inl (hinfo o)⟩
  · intro _
    unfold ClientOk
    rw [show ({ s with shm := m, logged := Function.update s.logged i none } : EraSys).client i = none
      from hidle]
    intro l hl
    rw [show ({ s with shm := m, logged := Function.update s.logged i none } : EraSys).logged i = none
      from Function.update_self ..] at hl
    cases hl
  · intro _
    unfold LogOk
    rw [show ({ s with shm := m, logged := Function.update s.logged i none } : EraSys).logged i = none
      from Function.update_self ..]
    exact hzero
  · intro j hj
    show m.era j j = s.eras j ∧ 0 < s.eras j
    rw [hera']
    exact h.era_eq j hj
  · intro k hk
    show m.eraCell k = 0
    rw [hera]
    exact h.below k hk
  · intro o ho
    show InfoOk W _ (m.refInfo o)
    rw [hinfo]
    exact h.info o ho
  · intro k hk j hj hjk
    show m.era j k < s.pub k
    rw [hera']
    exact h.seen_lt k hk j hj hjk
  · intro j hj o ho
    show s.net j o = (holding (W.slots j) m.word o : Int) + s.pend j o
    rw [hword]
    exact h.acct j hj o ho
  · intro o ho
    show (m.refCnt o : Int) = ∑ k ∈ W.ids, s.net k o
    unfold Shm.refCnt
    rw [hinfo]
    exact h.count o ho

end Steps

/-! ## §4 — the invariant -/

structure MallocInv (W : RefWorld) (s : MallocSys) : Prop where
  view : ∃ lent, EraInv W lent s.view
  idle : ∀ i, s.malloc i ≠ .idle → i ∈ W.ids ∧ s.sys.client i = none
  clearing : ∀ i k, s.malloc i = .clearLog k →
    k < redoCachelineCnt ∧ ∀ j < k, s.sys.shm.redo i j = RedoLog.zero
  stamp : ∀ i e, s.malloc i = .stamp e → e < s.sys.eras i ∧ e < 2 ^ 32

section Runs

variable {W : RefWorld} {s : MallocSys}

theorem logs_of_idle {i : Nat} (h : s.malloc i = .idle) : s.logs i = none := by
  unfold MallocSys.logs
  rw [h]

theorem view_redo_clearing {i k : Nat} (h : s.malloc i = .clearLog k) (j : Nat) :
    s.view.shm.redo i j = s.saved i j := by
  apply withLogs_redo_some
  unfold MallocSys.logs
  rw [h]

theorem view_redo {i : Nat} (h : ∀ k, s.malloc i ≠ .clearLog k) (j : Nat) :
    s.view.shm.redo i j = s.sys.shm.redo i j := by
  apply withLogs_redo_none
  unfold MallocSys.logs
  cases hp : s.malloc i with
  | clearLog k => exact absurd hp (h k)
  | _ => rfl

/-- An access of a client that is not inside the `memset` is the same access in the view. -/
theorem view_access {i : Nat} (h : s.logs i = none) (spurious : Bool) (c : RefCall) (pc : RefPc) :
    ({ s with sys := s.sys.access i spurious c pc } : MallocSys).view =
      s.view.access i spurious c pc := by
  have hstep := refStep_withLogs (m := s.sys.shm) h spurious c pc
  have hcas : casSucceeds spurious c s.view.shm pc = casSucceeds spurious c s.sys.shm pc :=
    casSucceeds_withLogs ..
  unfold MallocSys.view EraSys.access
  simp only [MallocSys.view] at hcas
  simp only [hstep, hcas]
  rfl

/-- The moves of the reference operations. -/
theorem MallocInv.ref (h : MallocInv W s) (hroom : EraRoom W s.sys) {mv : EraMove}
    (hen : mv.enabled W s.sys) (hmove : ∀ i, mv.runs = some i → s.malloc i = .idle)
    (hroom' : EraRoom W (s.sys.next mv)) : MallocInv W (s.next (.ref mv)) := by
  obtain ⟨lent, hview⟩ := h.view
  cases mv with
  | call i c =>
    obtain ⟨-, hidle, href, hrefed, hbef⟩ := hen
    refine ⟨⟨lent, hview.call hidle href hrefed hbef⟩, ?_, h.clearing, h.stamp⟩
    intro j hj
    have hji : j ≠ i := by
      rintro rfl
      exact hj (hmove j rfl)
    refine ⟨(h.idle j hj).1, ?_⟩
    show Function.update s.sys.client i _ j = none
    rw [Function.update_of_ne hji]
    exact (h.idle j hj).2
  | access i spurious =>
    obtain ⟨hi, c, pc, hcl, hlive⟩ := hen
    have hidle := hmove i rfl
    have hnext : s.sys.next (.access i spurious) = s.sys.access i spurious c pc := by
      simp [EraSys.next, hcl]
    rw [hnext] at hroom'
    have hsys : s.next (.ref (.access i spurious)) = { s with sys := s.sys.access i spurious c pc } := by
      rw [← hnext]
      rfl
    have hv := view_access (logs_of_idle hidle) spurious c pc
    have hroomv : EraRoom W (s.view.access i spurious c pc) := by
      rw [← hv]
      exact hroom'
    have hacc := hview.access hi hcl hlive hroom hroomv
    rw [hsys]
    refine ⟨⟨_, by rw [hv]; exact hacc⟩, ?_, ?_, ?_⟩
    · intro j hj
      have hji : j ≠ i := by
        rintro rfl
        exact hj hidle
      refine ⟨(h.idle j hj).1, ?_⟩
      show Function.update s.sys.client i _ j = none
      rw [Function.update_of_ne hji]
      exact (h.idle j hj).2
    · intro j k hj
      have hji : j ≠ i := by
        rintro rfl
        rw [show ({ s with sys := s.sys.access j spurious c pc } : MallocSys).malloc j = s.malloc j
          from rfl, hidle] at hj
        cases hj
      refine ⟨(h.clearing j k hj).1, ?_⟩
      intro n hn
      rw [show ({ s with sys := s.sys.access i spurious c pc } : MallocSys).sys.shm.redo j n = _ from
        refStep_redo_of_ne hji spurious c pc s.sys.shm n]
      exact (h.clearing j k hj).2 n hn
    · intro j e hj
      refine ⟨Nat.lt_of_lt_of_le (h.stamp j e hj).1 ?_, (h.stamp j e hj).2⟩
      show s.sys.eras j ≤ (s.sys.access i spurious c pc).eras j
      unfold EraSys.access
      cases pc with
      | bumpEra info =>
        by_cases hji : j = i
        · simp [hji]
        · simp [hji]
      | _ => exact Nat.le_refl _
  | env m =>
    have hframe : W.Frame s.sys.shm m := hen
    have hlogs : (s.next (.ref (.env m))).logs = s.logs := rfl
    refine ⟨⟨lent, hview.env (m := m.withLogs s.logs) ?_⟩, h.idle, ?_, h.stamp⟩
    · refine ⟨hframe.eraCell, ?_, hframe.slot, hframe.info⟩
      intro i hi
      show (match s.logs i with | none => m.tls i | some log => { m.tls i with redo := log }).redo =
        (match s.logs i with
          | none => s.sys.shm.tls i
          | some log => { s.sys.shm.tls i with redo := log }).redo
      cases s.logs i with
      | none => exact hframe.redo i hi
      | some log => rfl
    · intro i k hi
      have hi' : s.malloc i = .clearLog k := hi
      have hid := (h.idle i (by rw [hi']; simp)).1
      refine ⟨(h.clearing i k hi).1, ?_⟩
      intro j hj
      show (m.tls i).redo j = _
      rw [hframe.redo i hid]
      exact (h.clearing i k hi).2 j hj

theorem setMalloc_malloc (i j : Nat) (pc : MallocPc) :
    (s.setMalloc i pc).malloc j = if j = i then pc else s.malloc j := by
  simp [MallocSys.setMalloc, Function.update_apply]

/-- The client enters the `memset`: the view keeps the log it had. -/
theorem MallocInv.generic (h : MallocInv W s) {i : Nat} (hi : i ∈ W.ids) (hcl : s.sys.client i = none)
    (hidle : s.malloc i = .idle) : MallocInv W (s.next (.generic i)) := by
  have hm : ∀ j, (s.next (.generic i)).malloc j = if j = i then .clearLog 0 else s.malloc j :=
    fun j => setMalloc_malloc i j _
  have hview : W.Frame s.view.shm (s.next (.generic i)).view.shm := by
    refine ⟨rfl, ?_, fun _ _ _ _ => rfl, fun _ _ => rfl⟩
    intro j _
    funext n
    show (s.next (.generic i)).view.shm.redo j n = s.view.shm.redo j n
    by_cases hj : j = i
    · subst hj
      rw [view_redo_clearing (k := 0) (by rw [hm, if_pos rfl]), view_redo (by rw [hidle]; exact nofun)]
      show Function.update s.saved j (s.sys.shm.redo j) j n = _
      rw [Function.update_self]
    · by_cases hp : ∃ k, s.malloc j = .clearLog k
      · obtain ⟨k, hp⟩ := hp
        rw [view_redo_clearing (k := k) (by rw [hm, if_neg hj, hp]), view_redo_clearing hp]
        show Function.update s.saved i (s.sys.shm.redo i) j n = _
        rw [Function.update_of_ne hj]
      · have hp' : ∀ k, s.malloc j ≠ .clearLog k := fun k hk => hp ⟨k, hk⟩
        rw [view_redo hp', view_redo (by rw [hm, if_neg hj]; exact hp')]
        rfl
  obtain ⟨lent, hinv⟩ := h.view
  refine ⟨⟨lent, hinv.env hview⟩, ?_, ?_, ?_⟩
  · intro j
    rw [hm]
    split
    · rename_i hj
      rw [hj]
      exact fun _ => ⟨hi, hcl⟩
    · exact h.idle j
  · intro j k
    rw [hm]
    split
    · rintro ⟨rfl⟩
      exact ⟨by decide, fun n hn => absurd hn (Nat.not_lt_zero n)⟩
    · exact h.clearing j k
  · intro j e
    rw [hm]
    split
    · exact nofun
    · exact h.stamp j e

/-- One line of the `memset`. The view sees nothing of it until the last line is cleared. -/
theorem MallocInv.clearLine (h : MallocInv W s) {i k : Nat} (hpc : s.malloc i = .clearLog k) :
    MallocInv W (s.next (.clearLine i)) := by
  obtain ⟨hi, hcl⟩ := h.idle i (by rw [hpc]; exact nofun)
  obtain ⟨hk, hzero⟩ := h.clearing i k hpc
  have hnext : s.next (.clearLine i) =
      { s.setMalloc i (if k + 1 < redoCachelineCnt then .clearLog (k + 1) else .idle) with
        sys :=
          { s.sys with
            shm := s.sys.shm.storeRedo i k RedoLog.zero
            logged := if k + 1 < redoCachelineCnt then s.sys.logged
              else Function.update s.sys.logged i none } } := by
    simp only [MallocSys.next, hpc]
  have hm : ∀ j, (s.next (.clearLine i)).malloc j =
      if j = i then (if k + 1 < redoCachelineCnt then .clearLog (k + 1) else .idle)
      else s.malloc j := by
    intro j
    rw [hnext]
    exact setMalloc_malloc i j _
  have hredo : ∀ j n, (s.next (.clearLine i)).sys.shm.redo j n =
      if j = i ∧ n = k then RedoLog.zero else s.sys.shm.redo j n := by
    intro j n
    rw [hnext]
    by_cases hjn : j = i ∧ n = k
    · rw [if_pos hjn, hjn.1, hjn.2]
      exact Shm.redo_storeRedo_self ..
    · rw [if_neg hjn]
      exact Shm.redo_storeRedo_of_ne _ _ (not_and_or.mp hjn)
  have hlines : ∀ n < k + 1, (s.next (.clearLine i)).sys.shm.redo i n = RedoLog.zero := by
    intro n hn
    rw [hredo]
    split
    · rfl
    · rename_i hnk
      apply hzero
      have : n ≠ k := fun heq => hnk ⟨rfl, heq⟩
      omega
  have hsys : (s.next (.clearLine i)).sys.client = s.sys.client ∧
      (s.next (.clearLine i)).sys.eras = s.sys.eras := by
    rw [hnext]
    exact ⟨rfl, rfl⟩
  -- the other clients' logs in the view
  have hother : ∀ j, j ≠ i → ∀ n, (s.next (.clearLine i)).view.shm.redo j n = s.view.shm.redo j n := by
    intro j hj n
    by_cases hp : ∃ k, s.malloc j = .clearLog k
    · obtain ⟨k', hp⟩ := hp
      rw [view_redo_clearing (k := k') (by rw [hm, if_neg hj, hp]), view_redo_clearing hp, hnext]
      rfl
    · have hp' : ∀ k, s.malloc j ≠ .clearLog k := fun k hk => hp ⟨k, hk⟩
      rw [view_redo hp', view_redo (by rw [hm, if_neg hj]; exact hp'), hredo, if_neg fun hh => hj hh.1]
  have hwords : (s.next (.clearLine i)).view.shm.word = s.view.shm.word ∧
      (s.next (.clearLine i)).view.shm.eraCell = s.view.shm.eraCell := by
    rw [hnext]
    exact ⟨rfl, rfl⟩
  obtain ⟨lent, hview⟩ := h.view
  refine ⟨⟨lent, ?_⟩, ?_, ?_, ?_⟩
  · by_cases hlast : k + 1 < redoCachelineCnt
    · have hframe : W.Frame s.view.shm (s.next (.clearLine i)).view.shm := by
        refine ⟨hwords.2, ?_, fun _ _ _ _ => by rw [hwords.1], fun _ _ => ?_⟩
        · intro j _
          funext n
          show (s.next (.clearLine i)).view.shm.redo j n = s.view.shm.redo j n
          by_cases hj : j = i
          · subst hj
            rw [view_redo_clearing hpc, view_redo_clearing (k := k + 1)
              (by rw [hm, if_pos rfl, if_pos hlast]), hnext]
            rfl
          · exact hother j hj n
        · unfold Shm.refInfo
          rw [hwords.1]
      have hsame : (s.next (.clearLine i)).view =
          { s.view with shm := (s.next (.clearLine i)).view.shm } := by
        rw [hnext, if_pos hlast, if_pos hlast]
        rfl
      rw [hsame]
      exact hview.env hframe
    · have hzeros : ∀ n < redoCachelineCnt, (s.next (.clearLine i)).view.shm.redo i n = RedoLog.zero := by
        intro n hn
        rw [view_redo (by rw [hm, if_pos rfl, if_neg hlast]; exact nofun)]
        exact hlines n (by omega)
      have hsame : (s.next (.clearLine i)).view = { s.view with
          shm := (s.next (.clearLine i)).view.shm
          logged := Function.update s.view.logged i none } := by
        rw [hnext, if_neg hlast, if_neg hlast]
        rfl
      rw [hsame]
      exact hview.clear hcl hwords.1 hwords.2 hzeros hother
  · intro j
    rw [hm, hsys.1]
    split
    · rename_i hj
      rw [hj]
      exact fun _ => ⟨hi, hcl⟩
    · exact h.idle j
  · intro j n
    rw [hm]
    by_cases hj : j = i
    · subst hj
      rw [if_pos rfl]
      split
      · rename_i hlast
        rintro ⟨rfl⟩
        exact ⟨hlast, hlines⟩
      · exact nofun
    · rw [if_neg hj]
      intro hjn
      refine ⟨(h.clearing j n hjn).1, ?_⟩
      intro l hl
      rw [hredo, if_neg fun hh => hj hh.1]
      exact (h.clearing j n hjn).2 l hl
  · intro j e
    rw [hm, hsys.2]
    split
    · split
      · exact nofun
      · exact nofun
    · exact h.stamp j e

/-- Leaving or entering the stamping of a block does not touch the saved logs. -/
theorem logs_of_setMalloc {i : Nat} {pc : MallocPc} {t : MallocSys}
    (hm : ∀ j, t.malloc j = if j = i then pc else s.malloc j) (hsaved : t.saved = s.saved)
    (hpc : ∀ k, pc ≠ .clearLog k) (hpc' : ∀ k, s.malloc i ≠ .clearLog k) : t.logs = s.logs := by
  funext j
  unfold MallocSys.logs
  rw [hm, hsaved]
  by_cases hj : j = i
  · subst hj
    rw [if_pos rfl]
    cases hp : s.malloc j with
    | clearLog k => exact absurd hp (hpc' k)
    | _ =>
      cases pc with
      | clearLog k => exact absurd rfl (hpc k)
      | _ => rfl
  · rw [if_neg hj]

theorem MallocInv.bump (h : MallocInv W s) {i : Nat} (hi : i ∈ W.ids) (hcl : s.sys.client i = none)
    (hidle : s.malloc i = .idle) (hroom : EraRoom W s.sys) (hroom' : EraRoom W (s.sys.bump i)) :
    MallocInv W (s.next (.bump i)) := by
  have hm : ∀ j, (s.next (.bump i)).malloc j =
      if j = i then .stamp (s.sys.shm.era i i) else s.malloc j := fun j => setMalloc_malloc i j _
  have hlogs : (s.next (.bump i)).logs = s.logs :=
    logs_of_setMalloc hm rfl (fun _ => nofun) (by rw [hidle]; exact nofun)
  have heras : (s.sys.bump i).eras i = s.sys.eras i + 1 := by simp [EraSys.bump]
  have hmono : ∀ j, s.sys.eras j ≤ (s.sys.bump i).eras j := by
    intro j
    by_cases hj : j = i
    · rw [hj, heras]
      exact Nat.le_succ _
    · exact Nat.le_of_eq (by simp [EraSys.bump, hj])
  obtain ⟨lent, hview⟩ := h.view
  have hera : s.sys.shm.era i i = s.sys.eras i := (hview.era_eq i hi).1
  refine ⟨⟨lent, ?_⟩, ?_, ?_, ?_⟩
  · have hbump := hview.bump hi hcl (by
      have := hroom'.1 i hi
      rwa [heras] at this)
    have hsame : (s.next (.bump i)).view = s.view.bump i := by
      unfold MallocSys.view
      rw [hlogs]
      rfl
    rw [hsame]
    exact hbump
  · intro j
    rw [hm]
    split
    · rename_i hj
      rw [hj]
      exact fun _ => ⟨hi, hcl⟩
    · exact h.idle j
  · intro j k
    rw [hm]
    split
    · exact nofun
    · exact h.clearing j k
  · intro j e
    rw [hm]
    split
    · rename_i hj
      rintro ⟨rfl⟩
      rw [hj, hera]
      refine ⟨?_, hroom.1 i hi⟩
      show s.sys.eras i < (s.sys.bump i).eras i
      rw [heras]
      exact Nat.lt_succ_self _
    · intro hj
      exact ⟨Nat.lt_of_lt_of_le (h.stamp j e hj).1 (hmono j), (h.stamp j e hj).2⟩

theorem stamp_withLogs (t : EraSys) (logs : Nat → Option (Nat → RedoLog)) (i o a info : Nat) :
    ({ t with shm := t.shm.withLogs logs } : EraSys).stamp i o a info =
      { t.stamp i o a info with shm := (t.stamp i o a info).shm.withLogs logs } := rfl

theorem MallocInv.stamped (h : MallocInv W s) {i o a e : Nat} (hpc : s.malloc i = .stamp e)
    (ho : o ∈ W.objs) (ha : a ∈ W.slots i) (hfree : s.sys.shm.word a = 0)
    (hwiped : s.sys.shm.refInfo o = 0) : MallocInv W (s.next (.stamp i o a)) := by
  obtain ⟨hi, hcl⟩ := h.idle i (by rw [hpc]; exact nofun)
  obtain ⟨he, he32⟩ := h.stamp i e hpc
  have hnext : s.next (.stamp i o a) = { s.setMalloc i .idle with sys := s.sys.stamp i o a (packRefInfo i 1 e) } := by
    simp only [MallocSys.next, hpc]
  have hm : ∀ j, (s.next (.stamp i o a)).malloc j = if j = i then .idle else s.malloc j := by
    intro j
    rw [hnext]
    exact setMalloc_malloc i j _
  have hlogs : (s.next (.stamp i o a)).logs = s.logs :=
    logs_of_setMalloc hm (by rw [hnext]; rfl) (fun _ => nofun) (by rw [hpc]; exact nofun)
  obtain ⟨lent, hview⟩ := h.view
  refine ⟨⟨insert i lent, ?_⟩, ?_, ?_, ?_⟩
  · have hstamp := hview.stamp hi hcl ho ha hfree hwiped he he32
    have hsame : (s.next (.stamp i o a)).view = s.view.stamp i o a (packRefInfo i 1 e) := by
      unfold MallocSys.view
      rw [hlogs, hnext]
      exact (stamp_withLogs s.sys s.logs i o a _).symm
    rw [hsame]
    exact hstamp
  · intro j
    rw [hm]
    split
    · exact fun hne => absurd rfl hne
    · intro hj
      rw [hnext]
      exact h.idle j hj
  · intro j k
    rw [hm]
    split
    · exact nofun
    · intro hj
      rw [hnext]
      exact h.clearing j k hj
  · intro j e'
    rw [hm]
    split
    · exact nofun
    · intro hj
      rw [hnext]
      exact h.stamp j e' hj

theorem MallocInv.step (h : MallocInv W s) (hroom : EraRoom W s.sys) (mv : MallocMove)
    (hen : mv.enabled W s) (hroom' : EraRoom W (s.next mv).sys) : MallocInv W (s.next mv) := by
  cases mv with
  | ref mv => exact h.ref hroom hen.1 hen.2 hroom'
  | generic i => exact h.generic hen.1 hen.2.1 hen.2.2
  | clearLine i =>
    obtain ⟨-, k, hpc⟩ := hen
    exact h.clearLine hpc
  | bump i => exact h.bump hen.1 hen.2.1 hen.2.2 hroom hroom'
  | stamp i o a =>
    obtain ⟨-, ⟨e, hpc⟩, ho, ha, hfree, hwiped, -⟩ := hen
    exact h.stamped hpc ho ha hfree hwiped

theorem ShortReach.inv (h : ShortReach W s) : MallocInv W s := by
  refine Reach.invariant ?_ ?_ h
  · intro s hi _
    have hidle : ∀ i, s.malloc i = .idle := hi.malloc
    have hframe : W.Frame s.sys.shm s.view.shm := by
      refine ⟨rfl, ?_, fun _ _ _ _ => rfl, fun _ _ => rfl⟩
      intro i _
      funext k
      exact view_redo (by rw [hidle]; exact nofun) k
    refine ⟨⟨∅, (EraInv.init hi.sys).env hframe⟩, ?_, ?_, ?_⟩
    · intro i hne
      exact absurd (hidle i) hne
    · intro i k hk
      rw [hidle] at hk
      cases hk
    · intro i e he
      rw [hidle] at he
      cases he
  · rintro s _ hinv hroom ⟨mv, hen, rfl⟩ hroom'
    exact hinv.step hroom mv hen hroom'

end Runs

/-! ## §5 — the line of the last operation -/

/-- The replay of client `i` chooses the line of the last link or unlink `i` has logged, and takes it
for committed only if its compare-exchange succeeded. -/
structure ReplaysLast (s : EraSys) (i : Nat) : Prop where
  line : ∀ l, s.logged i = some l → ∃ info, newestRedo s.shm i = l.call.line info l.era
  committed : ∀ l, s.logged i = some l → needRedo s.shm i (newestRedo s.shm i) → l.committed = true

theorem newestRedo_congr {m m' : Shm} {i : Nat} (h : ∀ k, m'.redo i k = m.redo i k) :
    newestRedo m' i = newestRedo m i := by
  unfold newestRedo
  rw [show m'.redo i = m.redo i from funext h]

theorem EraInv.replaysLast {W : RefWorld} {lent : Finset Nat} {s : EraSys} (h : EraInv W lent s)
    {i : Nat} (hi : i ∈ W.ids) : ReplaysLast s i := by
  refine ⟨fun l hl => h.newestRedo hi hl, ?_⟩
  intro l hl hneed
  rcases (h.clients i hi).lastOp hl with
    ⟨hera, -, hpub, -, -, -⟩ | ⟨-, hc, -, -, -, -⟩ | ⟨hc, -, -, -⟩
  · -- an open operation fails the test
    obtain ⟨info, hnew⟩ := h.newestRedo hi hl
    rw [hnew, hera] at hneed
    exact absurd hneed (h.not_needRedo hi ((h.log i hi).refed_mem l hl) hpub)
  · exact hc
  · exact hc

theorem MallocInv.replaysLast {W : RefWorld} {s : MallocSys} (h : MallocInv W s) {i : Nat}
    (hi : i ∈ W.ids) (hpc : ∀ k, s.malloc i ≠ .clearLog k) : ReplaysLast s.sys i := by
  obtain ⟨lent, hview⟩ := h.view
  obtain ⟨hline, hcom⟩ := hview.replaysLast hi
  have hnew : newestRedo s.view.shm i = newestRedo s.sys.shm i := newestRedo_congr (view_redo hpc)
  rw [hnew] at hcom
  refine ⟨?_, hcom⟩
  intro l hl
  rw [← hnew]
  exact hline l hl

/-! ## §6 — a run past the wrap, and a crash inside the memset -/

theorem pairWorld_ids : ∀ i ∈ ({1} : Finset Nat), 0 < i ∧ i < maxThread := by decide

theorem pairWorld_zero : 0 ∉ ({134348800, 134348832} : Finset Nat) := by decide

/-- One client with four RootRefs in page (0, 1) and two objects in page (0, 2). -/
def pairWorld : RefWorld where
  ids := {1}
  objs := {134348800, 134348832}
  slots := fun i => if i = 1 then {134283264, 134283280, 134283296, 134283312} else ∅
  ids_range := pairWorld_ids
  slots_disjoint := by
    intro i j a hi hj
    split at hi <;> split at hj <;> simp_all
  header_not_slot := by
    intro o ho i
    simp only [Finset.mem_insert, Finset.mem_singleton] at ho
    rcases ho with rfl | rfl
    · split <;> decide
    · split <;> decide
  objs_apart := by decide
  zero_not_obj := pairWorld_zero

def pairWords (a : Nat) : Nat :=
  if a = 134283280 then 134348800 else if a = 134283312 then 134348832
  else if a = 134348808 ∨ a = 134348840 then packRefInfo 1 1 0 else 0

def pairNet (i o : Nat) : Int := if i = 1 ∧ (o = 134348800 ∨ o = 134348832) then 1 else 0

/-- The second and the fourth RootRef hold the objects; the client is in era `e`, which earlier holders of its slot
have brought it to. -/
def pairStart (e : Nat) : MallocSys where
  sys :=
    { shm :=
        { Shm.zero with
          eraCell := fun k => if k = 0 then e else 0
          word := pairWords }
      client := fun _ => none
      logged := fun _ => none
      eras := fun _ => e
      net := pairNet }
  malloc := fun _ => .idle
  saved := fun _ _ => RedoLog.zero

theorem pairStart_init {e : Nat} (he : 0 < e) : MallocInit pairWorld (pairStart e) := by
  have hnet : ∀ i ∈ pairWorld.ids, ∀ o ∈ pairWorld.objs,
      pairNet i o = holding (pairWorld.slots i) pairWords o := by decide
  have hcount : ∀ o ∈ pairWorld.objs,
      (getRefCntFromInfo (pairWords (o + 8)) : Int) = ∑ k ∈ pairWorld.ids, pairNet k o := by decide
  have hstamp : ∀ o ∈ pairWorld.objs, getLcidFromInfo (pairWords (o + 8)) = 1 ∧
      getLenumFromInfo (pairWords (o + 8)) = 0 := by decide
  refine ⟨?_, fun _ => rfl⟩
  refine ⟨fun _ => rfl, fun _ _ => ⟨rfl, fun _ _ => rfl⟩, ?_, ?_, ?_, ?_, hnet, hcount⟩
  · intro i hi
    rw [Finset.mem_singleton.mp hi]
    exact ⟨rfl, he⟩
  · intro k hk
    exact if_neg (by omega)
  · intro o ho
    obtain ⟨hid, hen⟩ := hstamp o ho
    show getLcidFromInfo (pairWords (o + 8)) ≤ maxThread ∧ (getLcidFromInfo (pairWords (o + 8)) ∈ _ →
      getLenumFromInfo (pairWords (o + 8)) < e)
    rw [hid, hen]
    exact ⟨by decide, fun _ => he⟩
  · intro c hc j hj hj' hne
    rw [Finset.mem_singleton.mp hc] at *
    show (if Shm.eraIdx j 1 = 0 then e else 0) < e
    rw [if_neg]
    · exact he
    · simp only [Shm.eraIdx, maxThread] at *
      omega

/-- Client `i` may make the next access of its call. -/
def EraSys.canAccess (s : EraSys) (i : Nat) : Bool :=
  match s.client i with
  | none => false
  | some (c, pc) => pc ≠ .loadInfo || c.func ≠ .linkRef || s.shm.refCnt c.refed ≠ 0

def MallocSys.accesses (s : MallocSys) (i : Nat) : Nat → MallocSys
  | 0 => s
  | n + 1 => (s.accesses i n).next (.ref (.access i false))

section Runs

variable {W : RefWorld} {Ok : MallocSys → Prop} {s : MallocSys}

theorem reach_next (h : Reach (MallocInit W) (MallocStep W) Ok s) (mv : MallocMove)
    (hen : mv.enabled W s) (hok : Ok (s.next mv)) :
    Reach (MallocInit W) (MallocStep W) Ok (s.next mv) :=
  Reach.step h ⟨mv, hen, rfl⟩ hok

theorem reach_accesses (h : Reach (MallocInit W) (MallocStep W) Ok s) {i : Nat} (hi : i ∈ W.ids)
    (n : Nat)
    (hen : ∀ k < n, (s.accesses i k).sys.canAccess i = true ∧ (s.accesses i k).malloc i = .idle)
    (hok : ∀ k < n + 1, Ok (s.accesses i k)) :
    Reach (MallocInit W) (MallocStep W) Ok (s.accesses i n) := by
  induction n with
  | zero => exact h
  | succ n ih =>
    have hn := ih (fun k hk => hen k (Nat.lt_succ_of_lt hk)) fun k hk => hok k (Nat.lt_succ_of_lt hk)
    obtain ⟨hcan, hidle⟩ := hen n (Nat.lt_succ_self n)
    refine reach_next hn (.ref (.access i false)) ⟨⟨hi, ?_⟩, ?_⟩ (hok (n + 1) (Nat.lt_succ_self _))
    · unfold EraSys.canAccess at hcan
      cases hcl : (s.accesses i n).sys.client i with
      | none =>
        rw [hcl] at hcan
        cases hcan
      | some cp =>
        obtain ⟨c, pc⟩ := cp
        rw [hcl] at hcan
        refine ⟨c, pc, rfl, ?_⟩
        rintro rfl hf
        simpa [hf] using hcan
    · intro j hj
      cases hj
      exact hidle

end Runs

/-- Client 1 links its first RootRef to the first object, then makes `n` accesses of linking its third
one to the second object. -/
def pairRun (e n : Nat) : MallocSys :=
  ((((pairStart e).next (.ref (.call 1 ⟨.linkRef, 134283264, 134348800⟩))).accesses 1 7).next
    (.ref (.call 1 ⟨.linkRef, 134283296, 134348832⟩))).accesses 1 n

/-- The second operation of the wrapped run: its line is stored, its compare-exchange is not done. -/
def wrapped : MallocSys := pairRun (2 ^ 32 - 1) 4

/-- The second operation is complete, and the `memset` has cleared the first line. -/
def halfCleared : MallocSys := ((pairRun 7 7).next (.generic 1)).next (.clearLine 1)

theorem wrapped_reach : MallocReach pairWorld wrapped := by
  have h0 : MallocReach pairWorld (pairStart (2 ^ 32 - 1)) := .init (pairStart_init (by decide)) (by decide)
  have h1 := reach_next h0 (.ref (.call 1 ⟨.linkRef, 134283264, 134348800⟩))
    ⟨⟨by decide, rfl, by decide, by decide, by decide⟩, fun _ _ => rfl⟩ (by decide)
  have h2 := reach_accesses h1 (i := 1) (by decide) 7 (by decide) (by decide)
  have h3 := reach_next h2 (.ref (.call 1 ⟨.linkRef, 134283296, 134348832⟩))
    ⟨⟨by decide, by decide, by decide, by decide, by decide⟩, fun _ hi => by cases hi; decide⟩ (by decide)
  exact reach_accesses h3 (i := 1) (by decide) 4 (by decide) (by decide)

theorem halfCleared_reach : MallocReach pairWorld halfCleared := by
  have h0 : MallocReach pairWorld (pairStart 7) := .init (pairStart_init (by decide)) (by decide)
  have h1 := reach_next h0 (.ref (.call 1 ⟨.linkRef, 134283264, 134348800⟩))
    ⟨⟨by decide, rfl, by decide, by decide, by decide⟩, fun _ _ => rfl⟩ (by decide)
  have h2 := reach_accesses h1 (i := 1) (by decide) 7 (by decide) (by decide)
  have h3 := reach_next h2 (.ref (.call 1 ⟨.linkRef, 134283296, 134348832⟩))
    ⟨⟨by decide, by decide, by decide, by decide, by decide⟩, fun _ hi => by cases hi; decide⟩ (by decide)
  have h4 := reach_accesses h3 (i := 1) (by decide) 7 (by decide) (by decide)
  have h5 := reach_next h4 (.generic 1) ⟨by decide, by decide, by decide⟩ (by decide)
  exact reach_next h5 (.clearLine 1) ⟨by decide, 0, by decide⟩ (by decide)

/-- Client 1 is about to do its first compare-exchange. -/
def firstLink : MallocSys := ((pairStart 1).next (.ref (.call 1 ⟨.linkRef, 134283264, 134348800⟩))).accesses 1 4

theorem firstLink_reach : ShortReach pairWorld firstLink := by
  have h0 : ShortReach pairWorld (pairStart 1) :=
    .init (pairStart_init (by decide)) ⟨by decide, by decide⟩
  have h1 := reach_next h0 (.ref (.call 1 ⟨.linkRef, 134283264, 134348800⟩))
    ⟨⟨by decide, rfl, by decide, by decide, by decide⟩, fun _ _ => rfl⟩ ⟨by decide, by decide⟩
  refine reach_accesses h1 (i := 1) (by decide) 4 (by decide) fun k hk => ⟨?_, ?_⟩
  · revert k
    decide
  · revert k
    decide

/-! ## §7 — the choice of the line and the commit test -/

/-- **Short runs replay the last operation.** In every state of every run in which no own era passes
`2^32 - 1`, and for every client outside the `memset` of its log, the replay chooses the line of the
client's last link or unlink, and takes it for committed only if its compare-exchange succeeded. -/
theorem replaysLast_of_short (W : RefWorld) (s : MallocSys) (h : ShortReach W s) (i : Nat)
    (hi : i ∈ W.ids) (hpc : ∀ k, s.malloc i ≠ .clearLog k) : ReplaysLast s.sys i :=
  h.inv.replaysLast hi hpc

theorem replaysLast_of_short_first : ReplaysLast firstLink.sys 1 :=
  replaysLast_of_short pairWorld firstLink firstLink_reach 1 (by decide) fun _ => nofun

/-- **Past the wrap and inside the memset it replays another.** With the era wrapped to 0 the replay
chooses the line of the operation before, and its test passes although the last operation has not
committed; with the first line cleared it chooses the line of the operation before as well. -/
theorem replaysLast_fails :
    (MallocReach pairWorld wrapped ∧
      (¬ ∀ l, wrapped.sys.logged 1 = some l →
        ∃ info, newestRedo wrapped.sys.shm 1 = l.call.line info l.era) ∧
      ¬ ∀ l, wrapped.sys.logged 1 = some l →
        needRedo wrapped.sys.shm 1 (newestRedo wrapped.sys.shm 1) → l.committed = true) ∧
    MallocReach pairWorld halfCleared ∧ ¬ ReplaysLast halfCleared.sys 1 := by
  have hwrapped : wrapped.sys.logged 1 = some ⟨⟨.linkRef, 134283296, 134348832⟩, 0, false⟩ := by decide
  have hcleared : halfCleared.sys.logged 1 = some ⟨⟨.linkRef, 134283296, 134348832⟩, 8, true⟩ := by decide
  refine ⟨⟨wrapped_reach, ?_, ?_⟩, halfCleared_reach, ?_⟩
  · intro h
    obtain ⟨info, hline⟩ := h _ hwrapped
    have hera : (newestRedo wrapped.sys.shm 1).curEra = 0 := congrArg RedoLog.curEra hline
    exact absurd hera (by decide)
  · intro h
    exact absurd (h _ hwrapped (Or.inl (by decide))) (by decide)
  · intro h
    obtain ⟨info, hline⟩ := h.line _ hcleared
    have hera : (newestRedo halfCleared.sys.shm 1).curEra = 8 := congrArg RedoLog.curEra hline
    exact absurd hera (by decide)

end CxlShm
