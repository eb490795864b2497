import CxlShm.Cascade
import CxlShm.Lib.Transition

/-! # Counters — the packed counter over any run

`pack_ref_info` adds the id, the count and the era into one word, and no operation tests the count before it adds
one. Objects and slots come and go as the allocator and the applications like.
-/

namespace CxlShm

open Transition SlotCount

/-! ## §1 — the words published -/

/-- A `ref_info` word a call has published: who called, the count it replaced, whether it added a reference or took
one, the caller's era, and how many slots refer to the object afterwards. -/
structure InfoWord where
  info : Nat
  tid : Nat
  before : Nat
  added : Bool
  era : Nat
  left : Nat

/-- The three fields read back, and a count of 0 means that nobody refers to the object. -/
structure InfoWord.Exact (w : InfoWord) : Prop where
  lcid : getLcidFromInfo w.info = w.tid
  count : if w.added then getRefCntFromInfo w.info = w.before + 1 else getRefCntFromInfo w.info + 1 = w.before
  lenum : getLenumFromInfo w.info = w.era
  last : getRefCntFromInfo w.info = 0 → w.left = 0

/-- The area, the objects alive, the words that may refer to them, and the words published so far. -/
structure CounterSys where
  area : Shm
  objs : Finset Nat
  slots : Finset Nat
  published : List InfoWord

inductive CounterMove
  | make (tid tbr o n : Nat) (pg : Nat × Nat)
  | link (tid a o : Nat)
  | unlink (tid a : Nat) (m' : Shm)
  | recoveryUnlink (tid a : Nat)
  | env (m' : Shm) (slots' : Finset Nat)

namespace CounterSys

/-- A block for an object and a RootRef for it: their words are no slot and no header of another object. -/
structure NewBlock (s : CounterSys) (tbr o : Nat) : Prop where
  ne_zero : o ≠ 0
  apart : ∀ p ∈ s.objs, o + sizeofCxlObj ≤ p ∨ p + sizeofCxlObj ≤ o
  header : ∀ j < 3, o + 8 * j ∉ s.slots
  second : tbr + 8 ∉ s.slots
  second_apart : ∀ p ∈ s.objs, tbr + 8 ≠ p + 8

/-- Whatever else goes on: nothing is stored to a live `ref_info` or to a slot, and slots come and go empty. -/
structure EnvFrame (s : CounterSys) (m' : Shm) (slots' : Finset Nat) : Prop where
  era : EraBounded m'
  info : ∀ o ∈ s.objs, m'.refInfo o = s.area.refInfo o
  slot : ∀ a ∈ slots', (a ∈ s.slots ∧ m'.word a = s.area.word a) ∨ (a ∉ s.slots ∧ m'.word a = 0)
  gone : ∀ a ∈ s.slots, a ∉ slots' → s.area.word a = 0
  header : ∀ o ∈ s.objs, ∀ j < 3, o + 8 * j ∉ slots'

/-- What a call has published for the object `o` in the area `m`. -/
def note (s : CounterSys) (m : Shm) (tid o before : Nat) (added : Bool) (era : Nat) : InfoWord :=
  ⟨m.refInfo o, tid, before, added, era, holding s.slots m.word o⟩

/-- The objects alive once a reference to `o` is taken away. -/
def objsWithout (s : CounterSys) (o : Nat) : Finset Nat := if s.area.refCnt o = 1 then s.objs.erase o else s.objs

end CounterSys

/-- When a move may happen. `unlink_reference` is called on an object with at least one reference; `recovery_test_free`
makes sure of that. -/
def CounterMove.enabled (s : CounterSys) : CounterMove → Prop
  | .make tid tbr o _ _ => tid < 2 ^ 16 ∧ tbr ∈ s.slots ∧ s.area.word tbr = 0 ∧ s.NewBlock tbr o
  | .link tid a o => tid < 2 ^ 16 ∧ a ∈ s.slots ∧ s.area.word a = 0 ∧ o ∈ s.objs
  | .unlink tid a m' => tid < 2 ^ 16 ∧ a ∈ s.slots ∧ s.area.word a ∈ s.objs ∧ 0 < s.area.refCnt (s.area.word a) ∧
      unlinkReference tid a (s.area.word a) s.area = some m'
  | .recoveryUnlink tid a => tid < 2 ^ 16 ∧ a ∈ s.slots ∧ s.area.word a ∈ s.objs ∧
      0 < s.area.refCnt (s.area.word a)
  | .env m' slots' => s.EnvFrame m' slots'

def CounterSys.next (s : CounterSys) : CounterMove → CounterSys
  | .make tid tbr o n pg =>
    let m := blockToCxlobj tid o pg n (linkBlockToTbr o tbr s.area)
    { s with area := m, objs := insert o s.objs, published := s.note m tid o 0 true (s.area.era tid tid) :: s.published }
  | .link tid a o =>
    let m := linkReference tid a o s.area
    { s with
      area := m
      published := s.note m tid o (s.area.refCnt o) true (s.area.era tid tid) :: s.published }
  | .unlink tid a m' =>
    let o := s.area.word a
    { s with
      area := m'
      objs := s.objsWithout o
      published := s.note (unlinkStores tid a o s.area) tid o (s.area.refCnt o) false
        ((learnEra tid (s.area.refInfo o) s.area).era tid tid) :: s.published }
  | .recoveryUnlink tid a =>
    let o := s.area.word a
    { s with
      area := recoveryUnlinkReference tid a o s.area
      objs := s.objsWithout o
      published := s.note (recoveryUnlinkStores tid a o s.area) tid o (s.area.refCnt o) false
        (s.area.era tid tid) :: s.published }
  | .env m' slots' => { s with area := m', slots := slots' }

/-- No object, no slot, nothing published, and eras are 32-bit words. -/
structure CounterInit (s : CounterSys) : Prop where
  era : EraBounded s.area
  objs : s.objs = ∅
  slots : s.slots = ∅
  published : s.published = []

def CounterReach : CounterSys → Prop :=
  Reach CounterInit (fun s s' => ∃ mv : CounterMove, mv.enabled s ∧ s' = s.next mv) fun _ => True

/-- Every word published reads back, and an object whose count reads 0 has no reference. -/
structure CountersExact (s : CounterSys) : Prop where
  published : ∀ w ∈ s.published, w.Exact
  zero : ∀ o ∈ s.objs, s.area.refCnt o = 0 → ∀ a ∈ s.slots, s.area.word a ≠ o

/-- The object a reference is added to has fewer than 2^16 - 1 of them. -/
def CounterMove.Room (s : CounterSys) : CounterMove → Prop
  | .link _ _ o => s.area.refCnt o < 2 ^ 16 - 1
  | _ => True

/-- The runs that never add a reference to an object with 2^16 - 1 of them. -/
def CountersReach : CounterSys → Prop :=
  Reach CounterInit (fun s s' => ∃ mv : CounterMove, mv.enabled s ∧ mv.Room s ∧ s' = s.next mv) fun _ => True

/-! ## §2 — what a free leaves alone -/

section Frame

variable {tid b : Nat} {m m' : Shm}

theorem cxlPageFree_word {q : QueuePtr} {pg : Nat × Nat} (hrun : cxlPageFree tid q pg m = some m') :
    m'.word = m.word ∧ m'.eraCell = m.eraCell := by
  have hrel : Bookkeeping tid m (cxlPageRelease tid q pg m) := cxlPageRelease_keeps q pg
  unfold cxlPageFree at hrun
  simp only at hrun
  split at hrun
  · unfold cxlSegmentFree at hrun
    simp only at hrun
    split at hrun
    · have honly := OnlyLinks.removePages tid pg.1 segmentPages (cxlPageRelease tid q pg m)
      rw [← Option.some.inj hrun]
      exact ⟨honly.word.trans hrel.word, honly.eraCell.trans hrel.eraCell⟩
    · cases hrun
  · rw [← Option.some.inj hrun]
    exact ⟨hrel.word, hrel.eraCell⟩

/-- Of the words, `cxl_free` of an object changes its header only. -/
theorem cxlFree_outside (hrun : cxlFree tid false b m = some m') :
    (∀ w, (∀ k < 3, w ≠ b + 8 * k) → m'.word w = m.word w) ∧ m'.eraCell = m.eraCell := by
  have hzero : ∀ w, (∀ k < 3, w ≠ b + 8 * k) → (m.zeroWords b 3).word w = m.word w :=
    fun w hw => Shm.zeroWords_word_of_ne hw
  have hstore : ∀ v w, (∀ k < 3, w ≠ b + 8 * k) →
      Function.update (m.zeroWords b 3).word b v w = m.word w := by
    intro v w hw
    have hb : w ≠ b := hw 0 (by decide)
    rw [Function.update_of_ne hb]
    exact hzero w hw
  have hthree : sizeofCxlObj / 8 = 3 := rfl
  unfold cxlFree at hrun
  simp only [wipedWords, Bool.false_eq_true, if_false, hthree] at hrun
  split at hrun
  · have hword : (collectBlock b (m.zeroWords b 3)).word =
        Function.update (m.zeroWords b 3).word b ((m.zeroWords b 3).page (pageOf b)).localFree := rfl
    unfold freeLocal at hrun
    simp only at hrun
    split at hrun
    · obtain ⟨hsame, hera⟩ := cxlPageFree_word hrun
      refine ⟨fun w hw => ?_, hera⟩
      rw [hsame, hword]
      exact hstore _ w hw
    · rw [← Option.some.inj hrun]
      refine ⟨fun w hw => ?_, rfl⟩
      rw [hword]
      exact hstore _ w hw
  · split at hrun
    · rw [← Option.some.inj hrun]
      exact ⟨hzero, rfl⟩
    · rw [← Option.some.inj hrun]
      exact ⟨fun w hw => hstore _ w hw, rfl⟩

end Frame

/-! ## §3 — the invariant -/

/-- Counts are the numbers of slots, and slots and headers lie apart. -/
structure CounterInv (s : CounterSys) : Prop where
  era : EraBounded s.area
  zero : 0 ∉ s.objs
  apart : ∀ o ∈ s.objs, ∀ p ∈ s.objs, o ≠ p → o + sizeofCxlObj ≤ p ∨ p + sizeofCxlObj ≤ o
  header : ∀ o ∈ s.objs, ∀ j < 3, o + 8 * j ∉ s.slots
  target : ∀ a ∈ s.slots, s.area.word a = 0 ∨ s.area.word a ∈ s.objs
  count : ∀ o ∈ s.objs, s.area.refCnt o = holding s.slots s.area.word o
  live : ∀ o ∈ s.objs, 0 < s.area.refCnt o
  published : ∀ w ∈ s.published, w.Exact

namespace CounterInv

variable {s : CounterSys}

theorem exact (h : CounterInv s) : CountersExact s := by
  refine ⟨h.published, fun o ho hz => ?_⟩
  have := h.live o ho
  omega

theorem header_ne (h : CounterInv s) {o p j l : Nat} (ho : o ∈ s.objs) (hp : p ∈ s.objs) (hne : o ≠ p) (hj : j < 3)
    (hl : l < 3) : o + 8 * j ≠ p + 8 * l := by
  have := h.apart o ho p hp hne
  simp only [sizeofCxlObj] at this
  omega

theorem init (h : CounterInit s) : CounterInv s := by
  have hobj : ∀ o, o ∉ s.objs := fun o => by
    rw [h.objs]
    exact Finset.notMem_empty o
  refine ⟨h.era, hobj 0, fun o ho => absurd ho (hobj o), fun o ho => absurd ho (hobj o), fun a ha => ?_,
    fun o ho => absurd ho (hobj o), fun o ho => absurd ho (hobj o), fun w hw => ?_⟩
  · rw [h.slots] at ha
    exact absurd ha (Finset.notMem_empty a)
  · rw [h.published] at hw
    exact absurd hw List.not_mem_nil

/-- One call on the object `o` through the slot `a`: it stores the word `v` and then the slot, and what it does after
that stays in the header of an object nobody refers to any more. -/
structure Call (s : CounterSys) (a o x v : Nat) (m m' : Shm) (objs' : Finset Nat) : Prop where
  slot : a ∈ s.slots
  obj : o ∈ s.objs
  word : m.word = Function.update (Function.update s.area.word (o + 8) v) a x
  era : EraBounded m'
  objs : ∀ p, p ∈ objs' ↔ p ∈ s.objs ∧ (getRefCntFromInfo v = 0 → p ≠ o)
  after : ∀ w, m'.word w ≠ m.word w → getRefCntFromInfo v = 0 ∧ ∃ j < 3, w = o + 8 * j

namespace Call

variable {a o x v : Nat} {m m' : Shm} {objs' : Finset Nat}

theorem slot_word (hc : Call s a o x v m m' objs') (h : CounterInv s) {b : Nat} (hb : b ∈ s.slots) :
    m.word b = Function.update s.area.word a x b := by
  have hne : b ≠ o + 8 := fun he => h.header o hc.obj 1 (by decide) (he ▸ hb)
  rw [hc.word]
  by_cases hba : b = a
  · rw [hba, Function.update_self, Function.update_self]
  · rw [Function.update_of_ne hba, Function.update_of_ne hne, Function.update_of_ne hba]

theorem slot_word' (hc : Call s a o x v m m' objs') (h : CounterInv s) {b : Nat} (hb : b ∈ s.slots) :
    m'.word b = Function.update s.area.word a x b := by
  rw [← hc.slot_word h hb]
  by_contra hne
  obtain ⟨-, j, hj, rfl⟩ := hc.after b hne
  exact h.header o hc.obj j hj hb

theorem refInfo (hc : Call s a o x v m m' objs') (h : CounterInv s) : m.refInfo o = v := by
  have hne : o + 8 ≠ a := fun he => h.header o hc.obj 1 (by decide) (he ▸ hc.slot)
  rw [Shm.refInfo, hc.word, Function.update_of_ne hne, Function.update_self]

theorem refInfo_of_ne (hc : Call s a o x v m m' objs') (h : CounterInv s) {p : Nat} (hp : p ∈ s.objs) (hpo : p ≠ o) :
    m'.refInfo p = s.area.refInfo p := by
  have hne : p + 8 ≠ a := fun he => h.header p hp 1 (by decide) (he ▸ hc.slot)
  have hno : p + 8 ≠ o + 8 := by omega
  have hsame : m'.word (p + 8) = m.word (p + 8) := by
    by_contra hw
    obtain ⟨-, j, hj, he⟩ := hc.after _ hw
    exact h.header_ne hp hc.obj hpo (j := 1) (by decide) hj he
  rw [Shm.refInfo, hsame, hc.word, Function.update_of_ne hne, Function.update_of_ne hno]
  rfl

theorem refInfo_live (hc : Call s a o x v m m' objs') (h : CounterInv s) (ho : o ∈ objs') : m'.refInfo o = v := by
  have hlive : getRefCntFromInfo v ≠ 0 := fun hz => ((hc.objs o).mp ho).2 hz rfl
  have hsame : m'.word (o + 8) = m.word (o + 8) := by
    by_contra hw
    exact hlive (hc.after _ hw).1
  rw [Shm.refInfo, hsame]
  exact hc.refInfo h

/-- The call adds a reference, or takes one away. -/
def Counts (s : CounterSys) (a o x v : Nat) : Prop :=
  s.area.word a = 0 ∧ x = o ∧ getRefCntFromInfo v = s.area.refCnt o + 1 ∨
    s.area.word a = o ∧ x = 0 ∧ getRefCntFromInfo v + 1 = s.area.refCnt o

/-- The slots that refer to the object afterwards are as many as the word says. -/
theorem holding_obj (hc : Call s a o x v m m' objs') (h : CounterInv s) (hv : Counts s a o x v) :
    holding s.slots m.word o = getRefCntFromInfo v := by
  have hsame : holding s.slots m.word o = holding s.slots (Function.update s.area.word a x) o :=
    holding_congr o fun b hb => hc.slot_word h hb
  have hmove := holding_update_mem s.area.word x o hc.slot
  have hcount := h.count o hc.obj
  have hne : (0 : Nat) ≠ o := fun he => h.zero (he ▸ hc.obj)
  rw [hsame]
  rcases hv with ⟨hw, hx, hv⟩ | ⟨hw, hx, hv⟩
  · rw [hw, hx, hit_self, hit_ne hne] at hmove
    rw [hx]
    omega
  · rw [hw, hx, hit_self, hit_ne hne] at hmove
    rw [hx]
    omega

theorem holding_other (hc : Call s a o x v m m' objs') (h : CounterInv s) (hv : Counts s a o x v) {p : Nat}
    (hp : p ∈ s.objs) (hpo : p ≠ o) : holding s.slots m'.word p = holding s.slots s.area.word p := by
  have hsame : holding s.slots m'.word p = holding s.slots (Function.update s.area.word a x) p :=
    holding_congr p fun b hb => hc.slot_word' h hb
  have hmove := holding_update_mem s.area.word x p hc.slot
  have hne : (0 : Nat) ≠ p := fun he => h.zero (he ▸ hp)
  rw [hsame]
  rcases hv with ⟨hw, hx, -⟩ | ⟨hw, hx, -⟩
  · rw [hw, hx, hit_ne hne, hit_ne hpo.symm] at hmove
    rw [hx]
    omega
  · rw [hw, hx, hit_ne hne, hit_ne hpo.symm] at hmove
    rw [hx]
    omega

/-- **A call keeps the invariant.** -/
theorem inv (hc : Call s a o x v m m' objs') (h : CounterInv s) (hv : Counts s a o x v) {w : InfoWord}
    (hw : w.Exact) : CounterInv { s with area := m', objs := objs', published := w :: s.published } := by
  have hobj := hc.holding_obj h hv
  have hsub : ∀ p ∈ objs', p ∈ s.objs := fun p hp => ((hc.objs p).mp hp).1
  have hsame : holding s.slots m'.word o = holding s.slots m.word o :=
    holding_congr o fun b hb => (hc.slot_word' h hb).trans (hc.slot_word h hb).symm
  have hcnt : ∀ p ∈ objs', p ≠ o → m'.refCnt p = s.area.refCnt p := fun p hp hpo =>
    congrArg getRefCntFromInfo (hc.refInfo_of_ne h (hsub p hp) hpo)
  refine ⟨hc.era, fun hz => h.zero (hsub 0 hz), fun p hp q hq => h.apart p (hsub p hp) q (hsub q hq),
    fun p hp => h.header p (hsub p hp), fun b hb => ?_, fun p hp => ?_, fun p hp => ?_, fun w' hw' => ?_⟩
  · by_contra hno
    rw [not_or] at hno
    have hin : m'.word b ∈ s.objs := by
      have hword := hc.slot_word' h hb
      by_cases hba : b = a
      · rw [hba, Function.update_self] at hword
        rw [hba, hword] at hno
        rcases hv with ⟨-, hx, -⟩ | ⟨-, hx, -⟩
        · rw [hba, hword, hx]
          exact hc.obj
        · exact absurd hx hno.1
      · rw [Function.update_of_ne hba] at hword
        rw [hword] at hno ⊢
        exact (h.target b hb).resolve_left hno.1
    -- the object is gone although the slot refers to it
    have hgone : getRefCntFromInfo v = 0 ∧ m'.word b = o := by
      by_contra hk
      rw [not_and] at hk
      exact hno.2 ((hc.objs _).mpr ⟨hin, hk⟩)
    rw [hgone.1, ← hsame, holding_eq_zero_iff] at hobj
    exact hobj b hb hgone.2
  · by_cases hpo : p = o
    · subst hpo
      show m'.refCnt p = _
      rw [Shm.refCnt, hc.refInfo_live h hp, ← hobj, hsame]
    · show m'.refCnt p = _
      rw [hcnt p hp hpo, h.count p (hsub p hp)]
      exact (hc.holding_other h hv (hsub p hp) hpo).symm
  · by_cases hpo : p = o
    · subst hpo
      show 0 < m'.refCnt p
      rw [Shm.refCnt, hc.refInfo_live h hp]
      exact Nat.pos_of_ne_zero fun hz => ((hc.objs p).mp hp).2 hz rfl
    · show 0 < m'.refCnt p
      rw [hcnt p hp hpo]
      exact h.live p (hsub p hp)
  · rcases List.mem_cons.mp hw' with rfl | hold
    · exact hw
    · exact h.published w' hold

/-- What the call has published reads back. -/
theorem note_exact (hc : Call s a o x v m m' objs') (h : CounterInv s) (hv : Counts s a o x v) {tid era : Nat}
    {added : Bool} (hl : getLcidFromInfo v = tid) (he : getLenumFromInfo v = era)
    (hadd : added = true ↔ x = o) : (s.note m tid o (s.area.refCnt o) added era).Exact := by
  have hinfo : m.refInfo o = v := hc.refInfo h
  have hne : (0 : Nat) ≠ o := fun he => h.zero (he ▸ hc.obj)
  refine ⟨?_, ?_, ?_, fun hz => ?_⟩
  · show getLcidFromInfo (m.refInfo o) = tid
    rw [hinfo, hl]
  · show if added then getRefCntFromInfo (m.refInfo o) = s.area.refCnt o + 1
      else getRefCntFromInfo (m.refInfo o) + 1 = s.area.refCnt o
    rw [hinfo]
    rcases hv with ⟨-, hx, hv⟩ | ⟨-, hx, hv⟩
    · rw [if_pos (hadd.mpr hx)]
      exact hv
    · rw [if_neg (fun ht => hne (hx.symm.trans (hadd.mp ht)))]
      exact hv
  · show getLenumFromInfo (m.refInfo o) = era
    rw [hinfo, he]
  · show holding s.slots m.word o = 0
    have hz : getRefCntFromInfo (m.refInfo o) = 0 := hz
    rw [hinfo] at hz
    rw [hc.holding_obj h hv, hz]

end Call

/-! ## §4 — the moves -/

theorem link_call (h : CounterInv s) {tid a o : Nat} (ha : a ∈ s.slots) (ho : o ∈ s.objs)
    (htid : tid < 2 ^ 16) (hroom : s.area.refCnt o < 2 ^ 16 - 1) :
    Call s a o o (packRefInfo tid (s.area.refCnt o + 1) (s.area.era tid tid)) (linkReference tid a o s.area)
      (linkReference tid a o s.area) s.objs := by
  have hcnt : getRefCntFromInfo (packRefInfo tid (s.area.refCnt o + 1) (s.area.era tid tid)) =
      s.area.refCnt o + 1 := getRefCntFromInfo_pack htid (by omega) (h.era _)
  refine ⟨ha, ho, linkReference_word .., ?_, fun p => ?_, fun w hw => absurd rfl hw⟩
  · have hlearn : EraBounded (learnEra tid (s.area.refInfo o) s.area) := h.era.learnEra tid _
    exact hlearn.storeEra (Nat.mod_lt _ (by decide))
  · rw [hcnt]
    exact ⟨fun hp => ⟨hp, fun hz => absurd hz (Nat.succ_ne_zero _)⟩, fun hp => hp.1⟩

/-- The count one less, as the code forms it. -/
theorem count_pred {cnt : Nat} (hpos : 0 < cnt) (hlt : cnt < 2 ^ 16) : (cnt + (2 ^ 64 - 1)) % 2 ^ 64 = cnt - 1 := by
  omega

theorem mem_objsWithout (s : CounterSys) {o v : Nat} (hpos : 0 < s.area.refCnt o)
    (hv : getRefCntFromInfo v = s.area.refCnt o - 1) (p : Nat) :
    p ∈ s.objsWithout o ↔ p ∈ s.objs ∧ (getRefCntFromInfo v = 0 → p ≠ o) := by
  unfold CounterSys.objsWithout
  by_cases hone : s.area.refCnt o = 1
  · rw [if_pos hone, Finset.mem_erase, and_comm]
    constructor
    · exact fun hp => ⟨hp.1, fun _ => hp.2⟩
    · exact fun hp => ⟨hp.1, hp.2 (by omega)⟩
  · rw [if_neg hone]
    constructor
    · exact fun hp => ⟨hp, fun hz => by omega⟩
    · exact fun hp => hp.1

theorem unlink_call (h : CounterInv s) {tid a : Nat} {m' : Shm} (htid : tid < 2 ^ 16) (ha : a ∈ s.slots)
    (ho : s.area.word a ∈ s.objs) (hrun : unlinkReference tid a (s.area.word a) s.area = some m') :
    Call s a (s.area.word a) 0 (packRefInfo tid (s.area.refCnt (s.area.word a) - 1)
        ((learnEra tid (s.area.refInfo (s.area.word a)) s.area).era tid tid))
      (unlinkStores tid a (s.area.word a) s.area) m' (s.objsWithout (s.area.word a)) := by
  have hpos := h.live _ ho
  have hlt : s.area.refCnt (s.area.word a) < 2 ^ 16 := getRefCntFromInfo_lt _
  have hlearn : EraBounded (learnEra tid (s.area.refInfo (s.area.word a)) s.area) := h.era.learnEra tid _
  have hcnt : getRefCntFromInfo (packRefInfo tid (s.area.refCnt (s.area.word a) - 1)
      ((learnEra tid (s.area.refInfo (s.area.word a)) s.area).era tid tid)) = s.area.refCnt (s.area.word a) - 1 :=
    getRefCntFromInfo_pack htid (by omega) (hlearn _)
  have hstores : EraBounded (unlinkStores tid a (s.area.word a) s.area) :=
    hlearn.storeEra (Nat.mod_lt _ (by decide))
  have hword := unlinkStores_word tid a (s.area.word a) s.area
  simp only [RefCall.stamp, RefCall.newCnt] at hword
  rw [show getRefCntFromInfo (s.area.refInfo (s.area.word a)) = s.area.refCnt (s.area.word a) from rfl,
    count_pred hpos hlt] at hword
  refine ⟨ha, ho, hword, ?_, mem_objsWithout s hpos hcnt, ?_⟩
  · unfold unlinkReference at hrun
    split at hrun
    · intro k
      rw [(cxlFree_outside hrun).2]
      exact hstores k
    · rw [← Option.some.inj hrun]
      exact hstores
  · intro w hw
    unfold unlinkReference at hrun
    split at hrun
    case isTrue hone =>
      have hone : s.area.refCnt (s.area.word a) = 1 := hone
      refine ⟨by rw [hcnt, hone], ?_⟩
      by_contra hno
      exact hw ((cxlFree_outside hrun).1 w fun j hj he => hno ⟨j, hj, he⟩)
    case isFalse =>
      rw [← Option.some.inj hrun] at hw
      exact absurd rfl hw

theorem recoveryUnlink_call (h : CounterInv s) {tid a : Nat} (htid : tid < 2 ^ 16) (ha : a ∈ s.slots)
    (ho : s.area.word a ∈ s.objs) :
    Call s a (s.area.word a) 0 (packRefInfo tid (s.area.refCnt (s.area.word a) - 1) (s.area.era tid tid))
      (recoveryUnlinkStores tid a (s.area.word a) s.area) (recoveryUnlinkReference tid a (s.area.word a) s.area)
      (s.objsWithout (s.area.word a)) := by
  have hpos := h.live _ ho
  have hlt : s.area.refCnt (s.area.word a) < 2 ^ 16 := getRefCntFromInfo_lt _
  have hcnt : getRefCntFromInfo (packRefInfo tid (s.area.refCnt (s.area.word a) - 1) (s.area.era tid tid)) =
      s.area.refCnt (s.area.word a) - 1 := getRefCntFromInfo_pack htid (by omega) (h.era _)
  have hstores : EraBounded (recoveryUnlinkStores tid a (s.area.word a) s.area) := by
    have hlearn : EraBounded (learnEra tid (s.area.refInfo (s.area.word a)) s.area) := h.era.learnEra tid _
    exact hlearn.storeEra (Nat.mod_lt _ (by decide))
  have hword : (recoveryUnlinkStores tid a (s.area.word a) s.area).word = _ := recoveryUnlinkStores_word
  rw [show getRefCntFromInfo (s.area.refInfo (s.area.word a)) = s.area.refCnt (s.area.word a) from rfl,
    count_pred hpos hlt] at hword
  have hfreed := recoveryCxlFree_freed false tid (s.area.word a) (recoveryUnlinkStores tid a (s.area.word a) s.area)
  refine ⟨ha, ho, hword, ?_, mem_objsWithout s hpos hcnt, ?_⟩
  · rw [recoveryUnlinkReference_eq]
    split
    · intro k
      rw [hfreed.eraCell]
      exact hstores k
    · exact hstores
  · intro w hw
    rw [recoveryUnlinkReference_eq] at hw
    split at hw
    case isTrue hone =>
      have hone : s.area.refCnt (s.area.word a) = 1 := hone
      refine ⟨by rw [hcnt, hone], ?_⟩
      by_contra hno
      exact hw (hfreed.outside w fun j hj he => hno ⟨j, hj, he⟩)
    case isFalse => exact absurd rfl hw

/-- The words a new object and its RootRef get. -/
theorem make_word (h : CounterInv s) {tid tbr o n : Nat} {pg : Nat × Nat} (htbr : tbr ∈ s.slots)
    (hnew : s.NewBlock tbr o) :
    (∀ b ∈ s.slots, (blockToCxlobj tid o pg n (linkBlockToTbr o tbr s.area)).word b =
      Function.update s.area.word tbr o b) ∧
    (blockToCxlobj tid o pg n (linkBlockToTbr o tbr s.area)).refInfo o = packRefInfo tid 1 (s.area.era tid tid) ∧
    ∀ p ∈ s.objs, (blockToCxlobj tid o pg n (linkBlockToTbr o tbr s.area)).refInfo p = s.area.refInfo p := by
  have hword : ∀ w, (blockToCxlobj tid o pg n (linkBlockToTbr o tbr s.area)).word w =
      Function.update (Function.update (linkBlockToTbr o tbr s.area).word (o + 8)
        (packRefInfo tid 1 (s.area.era tid tid))) (o + 16) n w := fun _ => rfl
  have hlink : ∀ w, w ≠ tbr + 8 → (linkBlockToTbr o tbr s.area).word w = Function.update s.area.word tbr o w :=
    fun w hw => Function.update_of_ne hw ..
  refine ⟨fun b hb => ?_, ?_, fun p hp => ?_⟩
  · have h8 : b ≠ o + 8 := fun he => hnew.header 1 (by decide) (he ▸ hb)
    have h16 : b ≠ o + 16 := fun he => hnew.header 2 (by decide) (he ▸ hb)
    have h2 : b ≠ tbr + 8 := fun he => hnew.second (he ▸ hb)
    rw [hword, Function.update_of_ne h16, Function.update_of_ne h8, hlink b h2]
  · rw [Shm.refInfo, hword, Function.update_of_ne (by omega), Function.update_self]
  · have hap := hnew.apart p hp
    simp only [sizeofCxlObj] at hap
    have ht : p + 8 ≠ tbr := fun he => h.header p hp 1 (by decide) (he ▸ htbr)
    have h2 : p + 8 ≠ tbr + 8 := (hnew.second_apart p hp).symm
    rw [Shm.refInfo, hword, Function.update_of_ne (by omega), Function.update_of_ne (by omega), hlink _ h2,
      Function.update_of_ne ht]
    rfl

theorem make (h : CounterInv s) {tid tbr o n : Nat} {pg : Nat × Nat} (htid : tid < 2 ^ 16) (htbr : tbr ∈ s.slots)
    (hz : s.area.word tbr = 0) (hnew : s.NewBlock tbr o) : CounterInv (s.next (.make tid tbr o n pg)) := by
  obtain ⟨hslot, hinfo, hother⟩ := @CounterInv.make_word s h tid tbr o n pg htbr hnew
  have hera : EraBounded (blockToCxlobj tid o pg n (linkBlockToTbr o tbr s.area)) :=
    h.era.storeEra (Nat.mod_lt _ (by decide))
  have hown : s.area.era tid tid < 2 ^ 32 := h.era _
  have hone : getRefCntFromInfo (packRefInfo tid 1 (s.area.era tid tid)) = 1 :=
    getRefCntFromInfo_pack htid (by decide) hown
  have hnot : o ∉ s.objs := fun ho => by
    have := hnew.apart o ho
    simp only [sizeofCxlObj] at this
    omega
  -- nobody has referred to the block before
  have hnone : holding s.slots s.area.word o = 0 := by
    rw [holding_eq_zero_iff]
    rintro b hb rfl
    exact (h.target b hb).elim hnew.ne_zero hnot
  have hhold : holding s.slots (blockToCxlobj tid o pg n (linkBlockToTbr o tbr s.area)).word o = 1 := by
    have hmove := holding_update_mem s.area.word o o htbr
    rw [hz, hit_self, hit_ne hnew.ne_zero.symm, hnone] at hmove
    rw [holding_congr o hslot]
    exact hmove
  show CounterInv ⟨blockToCxlobj tid o pg n (linkBlockToTbr o tbr s.area), insert o s.objs, s.slots,
    s.note (blockToCxlobj tid o pg n (linkBlockToTbr o tbr s.area)) tid o 0 true (s.area.era tid tid) :: s.published⟩
  generalize blockToCxlobj tid o pg n (linkBlockToTbr o tbr s.area) = m at *
  have hcnt : ∀ p ∈ s.objs, m.refCnt p = s.area.refCnt p := fun p hp => congrArg getRefCntFromInfo (hother p hp)
  have hcnt' : m.refCnt o = 1 := (congrArg getRefCntFromInfo hinfo).trans hone
  refine ⟨hera, ?_, fun p hp q hq hne => ?_, fun p hp => ?_, fun b hb => ?_, fun p hp => ?_, fun p hp => ?_,
    fun w hw => ?_⟩
  · simp only [Finset.mem_insert, not_or]
    exact ⟨hnew.ne_zero.symm, h.zero⟩
  · simp only [Finset.mem_insert] at hp hq
    rcases hp with rfl | hp
    · rcases hq with rfl | hq
      · exact absurd rfl hne
      · exact hnew.apart q hq
    · rcases hq with rfl | hq
      · exact (hnew.apart p hp).symm
      · exact h.apart p hp q hq hne
  · simp only [Finset.mem_insert] at hp
    rcases hp with rfl | hp
    · exact hnew.header
    · exact h.header p hp
  · show m.word b = 0 ∨ m.word b ∈ insert o s.objs
    rw [hslot b hb]
    by_cases hbt : b = tbr
    · rw [hbt, Function.update_self]
      exact Or.inr (Finset.mem_insert_self o _)
    · rw [Function.update_of_ne hbt]
      exact (h.target b hb).imp_right fun hin => Finset.mem_insert_of_mem hin
  · simp only [Finset.mem_insert] at hp
    show m.refCnt p = holding s.slots m.word p
    rcases hp with rfl | hp
    · rw [hcnt', hhold]
    · have hne : p ≠ o := fun he => hnot (he ▸ hp)
      have hmove := holding_update_mem s.area.word o p htbr
      have hp0 : (0 : Nat) ≠ p := fun he => h.zero (he ▸ hp)
      rw [hz, hit_ne hne.symm, hit_ne hp0] at hmove
      rw [hcnt p hp, holding_congr p hslot]
      exact (h.count p hp).trans hmove.symm
  · simp only [Finset.mem_insert] at hp
    show 0 < m.refCnt p
    rcases hp with rfl | hp
    · rw [hcnt']
      exact Nat.one_pos
    · rw [hcnt p hp]
      exact h.live p hp
  · rcases List.mem_cons.mp hw with rfl | hold
    · refine ⟨?_, ?_, ?_, fun hzero => ?_⟩
      · show getLcidFromInfo (m.refInfo o) = tid
        rw [hinfo]
        exact getLcidFromInfo_pack htid (by decide) hown
      · exact hcnt'
      · show getLenumFromInfo (m.refInfo o) = s.area.era tid tid
        rw [hinfo]
        exact getLenumFromInfo_pack htid (by decide) hown
      · exact absurd (hcnt'.symm.trans hzero) (by decide)
    · exact h.published w hold

theorem env (h : CounterInv s) {m' : Shm} {slots' : Finset Nat} (hf : s.EnvFrame m' slots') :
    CounterInv (s.next (.env m' slots')) := by
  have hsame : ∀ p ∈ s.objs, holding slots' m'.word p = holding s.slots s.area.word p := by
    intro p hp
    have hp0 : (0 : Nat) ≠ p := fun he => h.zero (he ▸ hp)
    unfold holding
    congr 1
    ext a
    simp only [Finset.mem_filter]
    constructor
    · rintro ⟨ha, hw⟩
      rcases hf.slot a ha with ⟨hs, he⟩ | ⟨-, hz⟩
      · exact ⟨hs, he ▸ hw⟩
      · exact absurd (hz.symm.trans hw) hp0
    · rintro ⟨ha, hw⟩
      have hin : a ∈ slots' := by
        by_contra hno
        exact hp0 ((hf.gone a ha hno).symm.trans hw)
      rcases hf.slot a hin with ⟨-, he⟩ | ⟨hno, -⟩
      · exact ⟨hin, he.trans hw⟩
      · exact absurd ha hno
  refine ⟨hf.era, h.zero, h.apart, hf.header, fun a ha => ?_, fun p hp => ?_, fun p hp => ?_, h.published⟩
  · show m'.word a = 0 ∨ m'.word a ∈ s.objs
    rcases hf.slot a ha with ⟨hs, he⟩ | ⟨-, hz⟩
    · rw [he]
      exact h.target a hs
    · exact Or.inl hz
  · show getRefCntFromInfo (m'.refInfo p) = holding slots' m'.word p
    rw [hf.info p hp, hsame p hp]
    exact h.count p hp
  · show 0 < getRefCntFromInfo (m'.refInfo p)
    rw [hf.info p hp]
    exact h.live p hp

/-- **Every move with room keeps the invariant.** -/
theorem step (h : CounterInv s) {mv : CounterMove} (hen : mv.enabled s) (hroom : mv.Room s) :
    CounterInv (s.next mv) := by
  cases mv with
  | make tid tbr o n pg =>
    obtain ⟨htid, htbr, hz, hnew⟩ := hen
    exact h.make htid htbr hz hnew
  | link tid a o =>
    obtain ⟨htid, ha, hz, ho⟩ := hen
    have hroom : s.area.refCnt o < 2 ^ 16 - 1 := hroom
    have hown : s.area.era tid tid < 2 ^ 32 := h.era _
    have hlt : s.area.refCnt o + 1 < 2 ^ 16 := by omega
    have hc := h.link_call ha ho htid hroom
    have hv : Call.Counts s a o o (packRefInfo tid (s.area.refCnt o + 1) (s.area.era tid tid)) :=
      Or.inl ⟨hz, rfl, getRefCntFromInfo_pack htid hlt hown⟩
    apply hc.inv h hv
    apply hc.note_exact h hv
    · exact getLcidFromInfo_pack htid hlt hown
    · exact getLenumFromInfo_pack htid hlt hown
    · exact ⟨fun _ => rfl, fun _ => rfl⟩
  | unlink tid a m' =>
    obtain ⟨htid, ha, ho, hpos, hrun⟩ := hen
    have hlt : s.area.refCnt (s.area.word a) < 2 ^ 16 := getRefCntFromInfo_lt _
    have hlt' : s.area.refCnt (s.area.word a) - 1 < 2 ^ 16 := by omega
    have hlearn : EraBounded (learnEra tid (s.area.refInfo (s.area.word a)) s.area) := h.era.learnEra tid _
    have hc := h.unlink_call htid ha ho hrun
    have hcnt := getRefCntFromInfo_pack htid hlt' (hlearn (Shm.eraIdx tid tid))
    have hv : Call.Counts s a (s.area.word a) 0 (packRefInfo tid (s.area.refCnt (s.area.word a) - 1)
        ((learnEra tid (s.area.refInfo (s.area.word a)) s.area).era tid tid)) := by
      refine Or.inr ⟨rfl, rfl, ?_⟩
      rw [Shm.era, hcnt]
      omega
    apply hc.inv h hv
    apply hc.note_exact h hv
    · exact getLcidFromInfo_pack htid hlt' (hlearn _)
    · exact getLenumFromInfo_pack htid hlt' (hlearn _)
    · exact ⟨fun he => absurd he (by simp), fun he => absurd (he ▸ ho) h.zero⟩
  | recoveryUnlink tid a =>
    obtain ⟨htid, ha, ho, hpos⟩ := hen
    have hlt : s.area.refCnt (s.area.word a) < 2 ^ 16 := getRefCntFromInfo_lt _
    have hlt' : s.area.refCnt (s.area.word a) - 1 < 2 ^ 16 := by omega
    have hown : s.area.era tid tid < 2 ^ 32 := h.era _
    have hc := h.recoveryUnlink_call htid ha ho
    have hv : Call.Counts s a (s.area.word a) 0
        (packRefInfo tid (s.area.refCnt (s.area.word a) - 1) (s.area.era tid tid)) := by
      refine Or.inr ⟨rfl, rfl, ?_⟩
      rw [getRefCntFromInfo_pack htid hlt' hown]
      omega
    apply hc.inv h hv
    apply hc.note_exact h hv
    · exact getLcidFromInfo_pack htid hlt' hown
    · exact getLenumFromInfo_pack htid hlt' hown
    · exact ⟨fun he => absurd he (by simp), fun he => absurd (he ▸ ho) h.zero⟩
  | env m' slots' => exact h.env hen

end CounterInv

theorem CountersReach.inv {s : CounterSys} (h : CountersReach s) : CounterInv s := by
  refine @Reach.invariant _ _ _ _ (fun s => CounterInv s) ?_ ?_ _ h
  · exact fun s hi _ => .init hi
  · rintro s s' hinv - ⟨mv, hen, hroom, rfl⟩ -
    exact hinv.step hen hroom

/-- The reference that goes past 2^16 - 1 carries into the id, and the count reads 0. -/
theorem link_full {s : CounterSys} (h : CounterInv s) {tid a o : Nat} (ha : a ∈ s.slots) (ho : o ∈ s.objs) (hfull : s.area.refCnt o = 2 ^ 16 - 1) :
    ¬ CountersExact (s.next (.link tid a o)) := by
  intro hexact
  have hown : s.area.era tid tid < 2 ^ 32 := h.era _
  have hne : o + 8 ≠ a := fun he => h.header o ho 1 (by decide) (he ▸ ha)
  have hfull' : getRefCntFromInfo (s.area.refInfo o) = 2 ^ 16 - 1 := hfull
  have hinfo : (linkReference tid a o s.area).refInfo o = packRefInfo tid (2 ^ 16 - 1 + 1) (s.area.era tid tid) := by
    rw [Shm.refInfo, linkReference_word, Function.update_of_ne hne, Function.update_self, RefCall.stamp,
      RefCall.newCnt, hfull']
  have hcount := (hexact.published _ List.mem_cons_self).count
  have hread : getRefCntFromInfo ((linkReference tid a o s.area).refInfo o) = 0 := by
    rw [hinfo]
    simp only [getRefCntFromInfo, packRefInfo]
    omega
  have hadded : getRefCntFromInfo ((linkReference tid a o s.area).refInfo o) = s.area.refCnt o + 1 := hcount
  rw [hread] at hadded
  cases hadded

theorem CountersReach.forget {s : CounterSys} (h : CountersReach s) : CounterReach s := by
  induction h with
  | init hi hok => exact Reach.init hi hok
  | step _ hs hok ih =>
    obtain ⟨mv, hen, -, rfl⟩ := hs
    exact ih.step ⟨mv, hen, rfl⟩ hok

/-! ## §5 — as many references as the counter can hold -/

/-- The RootRefs of the pages (0, 1) to (0, 16). -/
def manySlots : Finset Nat := (Finset.range (2 ^ 16)).image fun i => 134283264 + 16 * i

theorem mem_manySlots {a : Nat} : a ∈ manySlots ↔ ∃ i < 2 ^ 16, a = 134283264 + 16 * i := by
  simp only [manySlots, Finset.mem_image, Finset.mem_range]
  constructor
  · rintro ⟨i, hi, rfl⟩
    exact ⟨i, hi, rfl⟩
  · rintro ⟨i, hi, rfl⟩
    exact ⟨i, hi, rfl⟩

def counterStart : CounterSys := ⟨Shm.zero, ∅, ∅, []⟩

theorem counterStart_init : CounterInit counterStart := ⟨fun _ => Nat.two_pow_pos 32, rfl, rfl, rfl⟩

theorem header_notMem_manySlots : ∀ j < 3, 135331840 + 8 * j ∉ manySlots := by
  intro j hj hm
  obtain ⟨i, hi, he⟩ := mem_manySlots.mp hm
  omega

/-- Client 1 has the object at the start of page (0, 17) and refers to it from the first `k + 1` slots. -/
theorem references_reached (k : Nat) (hk : k < 2 ^ 16 - 1) : ∃ s, CountersReach s ∧ s.slots = manySlots ∧
    135331840 ∈ s.objs ∧ s.area.refCnt 135331840 = k + 1 ∧ ∀ i, k < i → i < 2 ^ 16 → s.area.word (134283264 + 16 * i) = 0 := by
  induction k with
  | zero =>
    have h₀ : CountersReach counterStart := Reach.init counterStart_init trivial
    have hframe : counterStart.EnvFrame Shm.zero manySlots := by
      refine ⟨counterStart_init.era, ?_, fun a _ => Or.inr ⟨Finset.notMem_empty a, rfl⟩, ?_, ?_⟩
      · exact fun o ho => absurd ho (Finset.notMem_empty o)
      · exact fun a ha => absurd ha (Finset.notMem_empty a)
      · exact fun o ho => absurd ho (Finset.notMem_empty o)
    have h₁ : CountersReach (counterStart.next (.env Shm.zero manySlots)) :=
      Reach.step h₀ ⟨.env Shm.zero manySlots, hframe, trivial, rfl⟩ trivial
    have htbr : 134283264 ∈ (counterStart.next (.env Shm.zero manySlots)).slots := mem_manySlots.mpr ⟨0, by decide, rfl⟩
    have hnew : (counterStart.next (.env Shm.zero manySlots)).NewBlock 134283264 135331840 := by
      refine ⟨by decide, fun p hp => absurd hp (Finset.notMem_empty p), header_notMem_manySlots, ?_, ?_⟩
      · intro hm
        obtain ⟨i, hi, he⟩ := mem_manySlots.mp hm
        omega
      · exact fun p hp => absurd hp (Finset.notMem_empty p)
    have h₂ := Reach.step h₁ ⟨.make 1 134283264 135331840 0 (0, 0), ⟨by decide, htbr, rfl, hnew⟩, trivial, rfl⟩ trivial
    obtain ⟨hslot, hinfo, -⟩ := @CounterInv.make_word _ (CountersReach.inv h₁) 1 134283264 135331840 0 (0, 0) htbr hnew
    refine ⟨_, h₂, rfl, Finset.mem_insert_self .., ?_, fun i hi hi' => ?_⟩
    · exact (congrArg getRefCntFromInfo hinfo).trans (getRefCntFromInfo_pack (by decide) (by decide) (by decide))
    · refine (hslot _ (mem_manySlots.mpr ⟨i, hi', rfl⟩)).trans ?_
      exact Function.update_of_ne (by omega) ..
  | succ k ih =>
    obtain ⟨s, hs, hslots, ho, hcnt, hempty⟩ := ih (by omega)
    have ha : 134283264 + 16 * (k + 1) ∈ s.slots := by
      rw [hslots]
      exact mem_manySlots.mpr ⟨k + 1, by omega, rfl⟩
    have hroom : s.area.refCnt 135331840 < 2 ^ 16 - 1 := by omega
    have hz := hempty (k + 1) (Nat.lt_succ_self k) (by omega)
    have hnext := Reach.step hs ⟨.link 1 (134283264 + 16 * (k + 1)) 135331840, ⟨by decide, ha, hz, ho⟩, hroom, rfl⟩ trivial
    have hc := hs.inv.link_call ha ho (show 1 < 2 ^ 16 by decide) hroom
    refine ⟨_, hnext, hslots, ho, ?_, fun i hi hi' => ?_⟩
    · refine (congrArg getRefCntFromInfo (hc.refInfo_live hs.inv ho)).trans ?_
      have hown : s.area.era 1 1 < 2 ^ 32 := hs.inv.era _
      rw [getRefCntFromInfo_pack (by decide) (by omega) hown, hcnt]
    · have hb : 134283264 + 16 * i ∈ s.slots := by
        rw [hslots]
        exact mem_manySlots.mpr ⟨i, hi', rfl⟩
      refine (hc.slot_word' hs.inv hb).trans ?_
      rw [Function.update_of_ne (by omega)]
      exact hempty i (by omega) hi'

/-! ## §6 — every run -/

/-- **The counter is exact as long as it has room**: in every run with room for each reference that is added, and the
next move leaves it exact when it has room too, and only then. -/
theorem counters_exact_iff {s : CounterSys} (h : CountersReach s) :
    CountersExact s ∧ ∀ mv : CounterMove, mv.enabled s → (CountersExact (s.next mv) ↔ mv.Room s) := by
  refine ⟨h.inv.exact, fun mv hen => ⟨fun hexact => ?_, fun hroom => (h.inv.step hen hroom).exact⟩⟩
  by_contra hno
  cases mv with
  | link tid a o =>
    obtain ⟨-, ha, -, ho⟩ := hen
    have hlt : s.area.refCnt o < 2 ^ 16 := getRefCntFromInfo_lt _
    have hno : ¬ s.area.refCnt o < 2 ^ 16 - 1 := hno
    exact link_full h.inv ha ho (by omega) hexact
  | make tid tbr o n pg => exact hno trivial
  | unlink tid a m' => exact hno trivial
  | recoveryUnlink tid a => exact hno trivial
  | env m' slots' => exact hno trivial

/-- Three references to one object. -/
theorem counters_exact_three : ∃ s, s.area.refCnt 135331840 = 3 ∧ CountersExact s := by
  obtain ⟨s, hs, -, -, hcnt, -⟩ := references_reached 2 (by decide)
  exact ⟨s, hcnt, (counters_exact_iff hs).1⟩

/-- The object has 2^16 - 1 references, and one more is added. -/
theorem counters_exact_full : ∃ s, CounterReach s ∧ ¬ CountersExact s := by
  obtain ⟨s, hs, hslots, ho, hcnt, hempty⟩ := references_reached (2 ^ 16 - 2) (by decide)
  have ha : 134283264 + 16 * (2 ^ 16 - 1) ∈ s.slots := by
    rw [hslots]
    exact mem_manySlots.mpr ⟨2 ^ 16 - 1, by decide, rfl⟩
  have hz := hempty (2 ^ 16 - 1) (by decide) (by decide)
  refine ⟨_, Reach.step hs.forget ⟨.link 1 (134283264 + 16 * (2 ^ 16 - 1)) 135331840, ⟨by decide, ha, hz, ho⟩, rfl⟩ trivial, ?_⟩
  exact link_full hs.inv ha ho hcnt

end CxlShm
