import CxlShm.Counters

/-! # CallCount — exact counts while calls are in progress

Any number of clients run `link_reference` and `unlink_reference`, access by access, and the count of an object stays
the number of its references: what a slot refers to changes at the compare-exchange, and the word of the slot follows
with the store. A caller of `link_reference` holds on to a reference of the object meanwhile.
-/

namespace CxlShm

open SlotCount

/-! ## §1 — calls in progress -/

/-- The calls in progress, the slot each caller holds on to (0 for none), the objects alive, the blocks whose header is in
use, the slots, and what each slot refers to once the calls past their compare-exchange have stored. -/
structure Calls where
  call : Nat → Option (RefCall × RefPc)
  guard : Nat → Nat
  objs : Finset Nat
  blocks : Finset Nat
  slots : Finset Nat
  refs : Nat → Nat

/-- The call has not passed its compare-exchange. -/
def RefPc.early : RefPc → Prop
  | .storeRef _ => False
  | .bumpEra _ => False
  | .wipe _ => False
  | .done => False
  | _ => True

/-- The next access of the call stores to its slot. -/
def RefPc.storing : RefPc → Prop
  | .storeRef _ => True
  | _ => False

instance : DecidablePred RefPc.storing
  | .storeRef _ => instDecidableTrue
  | .loadInfo | .loadEra _ | .loadEle _ _ | .storeEle _ _ | .storeRedo _ _ | .cas _ _ | .bumpEra _ | .wipe _
  | .done => instDecidableFalse

/-- The era loaded is a 32-bit word. -/
def RefPc.EraOk : RefPc → Prop
  | .loadEle _ cur => cur < 2 ^ 32
  | .storeEle _ cur => cur < 2 ^ 32
  | .storeRedo _ cur => cur < 2 ^ 32
  | .cas _ cur => cur < 2 ^ 32
  | _ => True

/-- The call has taken the last reference of its object. -/
def RefCall.dying (c : RefCall) : RefPc → Prop
  | .storeRef info => c.func = .unlinkRef ∧ getRefCntFromInfo info = 1
  | .bumpEra info => c.func = .unlinkRef ∧ getRefCntFromInfo info = 1
  | .wipe _ => True
  | _ => False

namespace Calls

/-- A call on the slot is in progress. -/
def InCall (s : Calls) (a : Nat) : Prop := ∃ i c pc, s.call i = some (c, pc) ∧ c.ref = a

/-- Client `i` begins the call `c` and holds on to the slot `g`. -/
def start (s : Calls) (i : Nat) (c : RefCall) (g : Nat) : Calls :=
  { s with call := Function.update s.call i (some (c, .loadInfo)), guard := Function.update s.guard i g }

/-- Client `i` holds on to the slot `g`. -/
def hold (s : Calls) (i g : Nat) : Calls := { s with guard := Function.update s.guard i g }

/-- The next access of client `i`, which stands at `pc` of the call `c`. -/
def access (s : Calls) (m : Shm) (i : Nat) (spurious : Bool) (c : RefCall) (pc : RefPc) : Calls where
  call := Function.update s.call i
    (if (refStep i spurious c pc m).1 = .done then none else some (c, (refStep i spurious c pc m).1))
  guard := if (refStep i spurious c pc m).1 = .done then Function.update s.guard i 0 else s.guard
  objs := if casSucceeds spurious c m pc ∧ c.func = .unlinkRef ∧ m.refCnt c.refed = 1 then s.objs.erase c.refed
    else s.objs
  blocks := match pc with
    | .wipe _ => if (refStep i spurious c pc m).1 = .done then s.blocks.erase c.refed else s.blocks
    | _ => s.blocks
  slots := s.slots
  refs := if casSucceeds spurious c m pc then Function.update s.refs c.ref c.target else s.refs

end Calls

/-- The compare-exchange of this access adds a reference to an object that has fewer than 2^16 - 1. -/
def HasRoom (m : Shm) (spurious : Bool) (c : RefCall) (pc : RefPc) : Prop :=
  casSucceeds spurious c m pc → c.func = .linkRef → m.refCnt c.refed < 2 ^ 16 - 1

/-! ## §2 — the invariant -/

/-- What holds at `pc` of a call. -/
structure CallOk (s : Calls) (i : Nat) (c : RefCall) (pc : RefPc) : Prop where
  tid : i < 2 ^ 16
  slot : c.ref ∈ s.slots
  refed : c.refed ≠ 0
  era : pc.EraOk
  running : pc ≠ .done
  before : pc.early → s.refs c.ref = c.before
  guard : pc.early → c.func = .linkRef → s.guard i ≠ 0 ∧ s.refs (s.guard i) = c.refed
  after : ¬ pc.early → s.refs c.ref = c.target
  dying : c.dying pc → c.refed ∈ s.blocks ∧ c.refed ∉ s.objs
  wipe : ∀ k, pc = .wipe k → k < 3

/-- Counts are the numbers of references, and every slot has the word of its reference but for the stores to come. -/
structure CallInv (m : Shm) (s : Calls) : Prop where
  era : EraBounded m
  zero : 0 ∉ s.blocks
  sub : s.objs ⊆ s.blocks
  apart : ∀ o ∈ s.blocks, ∀ p ∈ s.blocks, o ≠ p → o + sizeofCxlObj ≤ p ∨ p + sizeofCxlObj ≤ o
  header : ∀ o ∈ s.blocks, ∀ j < 3, o + 8 * j ∉ s.slots
  target : ∀ a ∈ s.slots, s.refs a = 0 ∨ s.refs a ∈ s.objs
  count : ∀ o ∈ s.objs, m.refCnt o = holding s.slots s.refs o
  live : ∀ o ∈ s.objs, 0 < m.refCnt o
  settled : ∀ a ∈ s.slots, (∀ i c info, s.call i = some (c, .storeRef info) → c.ref ≠ a) → m.word a = s.refs a
  calls : ∀ i c pc, s.call i = some (c, pc) → CallOk s i c pc
  alone : ∀ i j c c' pc pc', s.call i = some (c, pc) → s.call j = some (c', pc') → c.ref = c'.ref → i = j
  once : ∀ i j c c' pc pc', s.call i = some (c, pc) → s.call j = some (c', pc') → c.dying pc → c'.dying pc' →
    c.refed = c'.refed → i = j
  guarded : ∀ i, s.guard i ≠ 0 → s.guard i ∈ s.slots ∧ s.refs (s.guard i) ≠ 0 ∧
    ∀ j c pc, s.call j = some (c, pc) → c.func = .unlinkRef → c.ref ≠ s.guard i

section Invariant

variable {m m' : Shm} {s : Calls} {i : Nat} {c : RefCall} {pc pc' : RefPc} {spurious : Bool}

/-- Nothing of it changes. -/
theorem CallInv.quiet (h : CallInv m s) (hera : EraBounded m') (hslot : ∀ a ∈ s.slots, m'.word a = m.word a)
    (hinfo : ∀ o ∈ s.objs, m'.refInfo o = m.refInfo o) : CallInv m' s := by
  have hcnt : ∀ o ∈ s.objs, m'.refCnt o = m.refCnt o := fun o ho => congrArg getRefCntFromInfo (hinfo o ho)
  refine { h with era := hera, count := fun o ho => ?_, live := fun o ho => ?_, settled := fun a ha hno => ?_ }
  · rw [hcnt o ho]
    exact h.count o ho
  · rw [hcnt o ho]
    exact h.live o ho
  · rw [hslot a ha]
    exact h.settled a ha hno

/-- The object of a call that has not passed its compare-exchange is alive. -/
theorem CallInv.refed_mem (h : CallInv m s) (hi : s.call i = some (c, pc)) (he : pc.early) : c.refed ∈ s.objs := by
  have hok := h.calls i c pc hi
  cases hf : c.func with
  | linkRef =>
    obtain ⟨hg, hrefs⟩ := hok.guard he hf
    obtain ⟨hslot, hne, -⟩ := h.guarded i hg
    rw [← hrefs]
    exact (h.target _ hslot).resolve_left hne
  | unlinkRef =>
    have hbefore : s.refs c.ref = c.refed := by
      rw [hok.before he, RefCall.before, hf]
    rw [← hbefore]
    refine (h.target _ hok.slot).resolve_left ?_
    rw [hbefore]
    exact hok.refed

/-- A slot nobody is about to store to. -/
theorem CallInv.word (h : CallInv m s) {a : Nat} (ha : a ∈ s.slots) (hno : ¬ s.InCall a) : m.word a = s.refs a := by
  apply h.settled a ha
  rintro i c info hi rfl
  exact hno ⟨i, c, _, hi, rfl⟩

theorem CallInv.header_ne (h : CallInv m s) {o p j l : Nat} (ho : o ∈ s.blocks) (hp : p ∈ s.blocks) (hne : o ≠ p)
    (hj : j < 3) (hl : l < 3) : o + 8 * j ≠ p + 8 * l := by
  have := h.apart o ho p hp hne
  simp only [sizeofCxlObj] at this
  omega

/-- A store to the header of a block that is being given up. -/
theorem CallInv.storeDead (h : CallInv m s) {o k v : Nat} (ho : o ∈ s.blocks) (hdead : o ∉ s.objs) (hk : k < 3) :
    CallInv (m.store (o + 8 * k) v) s := by
  refine h.quiet h.era (fun a ha => Function.update_of_ne ?_ ..) fun p hp => Function.update_of_ne ?_ ..
  · rintro rfl
    exact h.header o ho k hk ha
  · have hne : p ≠ o := fun he => hdead (he ▸ hp)
    exact h.header_ne (h.sub hp) ho hne (j := 1) (by decide) hk

/-- The store of a call to its slot. -/
theorem CallInv.storeSlot (h : CallInv m s) {info : Nat} (hi : s.call i = some (c, .storeRef info)) :
    CallInv (m.store c.ref c.target) s ∧ (m.store c.ref c.target).word c.ref = s.refs c.ref := by
  have hok := h.calls i c _ hi
  have htarget : s.refs c.ref = c.target := hok.after id
  have hinfo : ∀ o ∈ s.objs, (m.store c.ref c.target).refInfo o = m.refInfo o := by
    intro o ho
    refine Function.update_of_ne ?_ ..
    intro he
    exact h.header o (h.sub ho) 1 (by decide) (he ▸ hok.slot)
  have hcnt : ∀ o ∈ s.objs, (m.store c.ref c.target).refCnt o = m.refCnt o := fun o ho =>
    congrArg getRefCntFromInfo (hinfo o ho)
  have hself : (m.store c.ref c.target).word c.ref = s.refs c.ref := by
    rw [htarget]
    exact Function.update_self ..
  refine ⟨{ h with era := h.era, count := fun o ho => ?_, live := fun o ho => ?_, settled := fun a ha hno => ?_ }, hself⟩
  · rw [hcnt o ho]
    exact h.count o ho
  · rw [hcnt o ho]
    exact h.live o ho
  · have hne : a ≠ c.ref := (hno i c info hi).symm
    have hsame : (m.store c.ref c.target).word a = m.word a := Function.update_of_ne hne ..
    rw [hsame]
    exact h.settled a ha hno

/-- The slot of the call has its word, unless the store is the next access. -/
def StoreMade (m : Shm) (s : Calls) (c : RefCall) (pc : RefPc) : Prop :=
  (∀ info, pc ≠ .storeRef info) ∨ m.word c.ref = s.refs c.ref

theorem CallInv.word_of (h : CallInv m s) (hi : s.call i = some (c, pc)) (hs : StoreMade m s c pc) {a : Nat}
    (ha : a ∈ s.slots) (hno : ∀ j c' info, j ≠ i → s.call j = some (c', .storeRef info) → c'.ref ≠ a) :
    m.word a = s.refs a := by
  by_cases hac : a = c.ref
  · rcases hs with hne | hword
    · apply h.settled a ha
      intro j c' info hj
      by_cases hji : j = i
      · rw [hji, hi] at hj
        obtain ⟨rfl, rfl⟩ := Prod.mk.inj (Option.some.inj hj)
        exact absurd rfl (hne info)
      · exact hno j c' info hji hj
    · rw [hac]
      exact hword
  · apply h.settled a ha
    intro j c' info hj
    by_cases hji : j = i
    · rw [hji, hi] at hj
      obtain ⟨rfl, -⟩ := Prod.mk.inj (Option.some.inj hj)
      exact Ne.symm hac
    · exact hno j c' info hji hj

/-- The calls of a state in which client `i` stands elsewhere. -/
theorem Calls.update_some {s : Calls} {i j : Nat} {c c' : RefCall} {p p' : RefPc}
    (hj : Function.update s.call i (some (c, p)) j = some (c', p')) :
    j = i ∧ c' = c ∧ p' = p ∨ j ≠ i ∧ s.call j = some (c', p') := by
  by_cases hji : j = i
  · rw [hji, Function.update_self] at hj
    obtain ⟨rfl, rfl⟩ := Prod.mk.inj (Option.some.inj hj)
    exact Or.inl ⟨hji, rfl, rfl⟩
  · rw [Function.update_of_ne hji] at hj
    exact Or.inr ⟨hji, hj⟩

theorem Calls.update_none {s : Calls} {i j : Nat} {c : RefCall} {p : RefPc}
    (hj : Function.update s.call i none j = some (c, p)) : j ≠ i ∧ s.call j = some (c, p) := by
  by_cases hji : j = i
  · rw [hji, Function.update_self] at hj
    cases hj
  · rw [Function.update_of_ne hji] at hj
    exact ⟨hji, hj⟩

/-- A call goes on to `pc'`. -/
theorem CallInv.goOn (h : CallInv m s) (hi : s.call i = some (c, pc)) (hok : CallOk s i c pc')
    (hd : c.dying pc' → c.dying pc) (hs : StoreMade m s c pc) :
    CallInv m { s with call := Function.update s.call i (some (c, pc')) } := by
  -- a call of the new state is one of the old state on the same slot and object
  have hold : ∀ j c' p, Function.update s.call i (some (c, pc')) j = some (c', p) →
      ∃ p', s.call j = some (c', p') ∧ (c'.dying p → c'.dying p') := by
    intro j c' p hj
    rcases Calls.update_some hj with ⟨rfl, rfl, rfl⟩ | ⟨-, hj⟩
    · exact ⟨pc, hi, hd⟩
    · exact ⟨p, hj, id⟩
  refine { h with settled := fun a ha hno => ?_, calls := fun j c' p hj => ?_, alone := ?_, once := ?_, guarded := ?_ }
  · refine h.word_of hi hs ha fun j c' info hji hj => ?_
    exact hno j c' info ((Function.update_of_ne hji ..).trans hj)
  · rcases Calls.update_some hj with ⟨rfl, rfl, rfl⟩ | ⟨-, hj⟩
    · exact { hok with }
    · exact { h.calls j c' p hj with }
  · intro j k c' d p p' hj hk href
    obtain ⟨p₁, hj, -⟩ := hold j c' p hj
    obtain ⟨p₂, hk, -⟩ := hold k d p' hk
    exact h.alone j k c' d p₁ p₂ hj hk href
  · intro j k c' d p p' hj hk hdj hdk href
    obtain ⟨p₁, hj, hdj'⟩ := hold j c' p hj
    obtain ⟨p₂, hk, hdk'⟩ := hold k d p' hk
    exact h.once j k c' d p₁ p₂ hj hk (hdj' hdj) (hdk' hdk) href
  · intro j hg
    obtain ⟨hslot, hne, hno⟩ := h.guarded j hg
    refine ⟨hslot, hne, fun k c' p hk => ?_⟩
    obtain ⟨p', hk, -⟩ := hold k c' p hk
    exact hno k c' p' hk

/-- A call returns; `blocks'` is without its object if that has been given up. -/
theorem CallInv.finish (h : CallInv m s) (hi : s.call i = some (c, pc)) (hs : StoreMade m s c pc) {blocks' : Finset Nat}
    (hb : blocks' = s.blocks ∨ blocks' = s.blocks.erase c.refed ∧ c.dying pc) :
    CallInv m { s with call := Function.update s.call i none, guard := Function.update s.guard i 0, blocks := blocks' } := by
  have hsubset : blocks' ⊆ s.blocks := by
    rcases hb with rfl | ⟨rfl, -⟩
    · exact Finset.Subset.refl _
    · exact Finset.erase_subset ..
  have hkept : ∀ o ∈ s.blocks, (c.dying pc → o ≠ c.refed) → o ∈ blocks' := by
    intro o ho hne
    rcases hb with rfl | ⟨rfl, hd⟩
    · exact ho
    · exact Finset.mem_erase.mpr ⟨hne hd, ho⟩
  have hdead := (h.calls i c pc hi).dying
  refine { h with zero := fun hz => h.zero (hsubset hz), sub := fun o ho => ?_, apart := ?_, header := ?_, settled := ?_,
                  calls := ?_, alone := ?_, once := ?_, guarded := ?_ }
  · refine hkept o (h.sub ho) fun hd he => ?_
    rw [he] at ho
    exact (hdead hd).2 ho
  · exact fun o ho p hp => h.apart o (hsubset ho) p (hsubset hp)
  · exact fun o ho => h.header o (hsubset ho)
  · intro a ha hno
    refine h.word_of hi hs ha fun j c' info hji hj => ?_
    exact hno j c' info ((Function.update_of_ne hji ..).trans hj)
  · intro j c' p hj
    obtain ⟨hji, hj⟩ := Calls.update_none hj
    have hok := h.calls j c' p hj
    refine { hok with guard := fun he hf => ?_, dying := fun hd => ?_ }
    · show Function.update s.guard i 0 j ≠ 0 ∧ s.refs (Function.update s.guard i 0 j) = c'.refed
      rw [Function.update_of_ne hji]
      exact hok.guard he hf
    · refine ⟨hkept _ (hok.dying hd).1 fun hdi he => ?_, (hok.dying hd).2⟩
      exact hji (h.once j i c' c p pc hj hi hd hdi he)
  · intro j k c' d p p' hj hk href
    exact h.alone j k c' d p p' (Calls.update_none hj).2 (Calls.update_none hk).2 href
  · intro j k c' d p p' hj hk hdj hdk href
    exact h.once j k c' d p p' (Calls.update_none hj).2 (Calls.update_none hk).2 hdj hdk href
  · intro j hg
    have hg' : Function.update s.guard i 0 j ≠ 0 := hg
    show Function.update s.guard i 0 j ∈ s.slots ∧ s.refs (Function.update s.guard i 0 j) ≠ 0 ∧ _
    by_cases hji : j = i
    · rw [hji, Function.update_self] at hg'
      exact absurd rfl hg'
    · rw [Function.update_of_ne hji] at hg' ⊢
      obtain ⟨hslot, hne, hno⟩ := h.guarded j hg'
      refine ⟨hslot, hne, fun k c' p hk hf => ?_⟩
      show c'.ref ≠ Function.update s.guard i 0 j
      rw [Function.update_of_ne hji]
      exact hno k c' p (Calls.update_none hk).2 hf

/-! ## §3 — the compare-exchange -/

/-- Nobody holds on to the slot of a call that has not passed its compare-exchange. -/
theorem CallInv.guard_ne (h : CallInv m s) (hi : s.call i = some (c, pc)) (he : pc.early) {j : Nat} (hg : s.guard j ≠ 0) :
    s.guard j ≠ c.ref := by
  obtain ⟨-, hne, hno⟩ := h.guarded j hg
  intro heq
  cases hf : c.func with
  | linkRef =>
    have hbefore := (h.calls i c pc hi).before he
    rw [RefCall.before, hf] at hbefore
    rw [heq] at hne
    exact hne hbefore
  | unlinkRef => exact hno i c pc hi hf heq.symm

/-- What the compare-exchange does to the count and to the references of the object. -/
theorem CallInv.casCount (h : CallInv m s) {info cur : Nat} (hi : s.call i = some (c, .cas info cur))
    (hinfo : m.refInfo c.refed = info) (hroom : c.func = .linkRef → m.refCnt c.refed < 2 ^ 16 - 1) :
    getRefCntFromInfo (c.stamp i info cur) = holding s.slots (Function.update s.refs c.ref c.target) c.refed ∧
      (c.func = .unlinkRef → getRefCntFromInfo (c.stamp i info cur) + 1 = m.refCnt c.refed) := by
  have hok := h.calls i c _ hi
  have ho := h.refed_mem hi trivial
  have hcur : cur < 2 ^ 32 := hok.era
  have hcnt : getRefCntFromInfo info = m.refCnt c.refed := by rw [← hinfo]; rfl
  have hlt : m.refCnt c.refed < 2 ^ 16 := getRefCntFromInfo_lt _
  have hpos := h.live _ ho
  have hcount := h.count _ ho
  have hmove := holding_update_mem s.refs c.target c.refed hok.slot
  rw [hok.before trivial] at hmove
  have hzero : hit 0 c.refed = 0 := hit_ne (Ne.symm hok.refed)
  unfold RefCall.stamp RefCall.newCnt
  unfold RefCall.target RefCall.before at *
  rw [hcnt]
  cases hf : c.func with
  | linkRef =>
    have hroom := hroom hf
    simp only [hf, hit_self, hzero] at hmove ⊢
    rw [getRefCntFromInfo_pack hok.tid (by omega) hcur]
    exact ⟨by omega, fun he => by cases he⟩
  | unlinkRef =>
    simp only [hf, hit_self, hzero] at hmove ⊢
    rw [CounterInv.count_pred hpos hlt, getRefCntFromInfo_pack hok.tid (by omega) hcur]
    exact ⟨by omega, fun _ => by omega⟩

/-- **The compare-exchange of a call** that has room. -/
theorem CallInv.cas (h : CallInv m s) {info cur : Nat} (hi : s.call i = some (c, .cas info cur))
    (hinfo : m.refInfo c.refed = info) (hroom : c.func = .linkRef → m.refCnt c.refed < 2 ^ 16 - 1) :
    CallInv (m.store (c.refed + 8) (c.stamp i info cur))
      { s with
        call := Function.update s.call i (some (c, .storeRef info))
        objs := if c.func = .unlinkRef ∧ m.refCnt c.refed = 1 then s.objs.erase c.refed else s.objs
        refs := Function.update s.refs c.ref c.target } := by
  have hok := h.calls i c _ hi
  have ho := h.refed_mem hi trivial
  have hb := h.sub ho
  obtain ⟨hnew, hless⟩ := h.casCount hi hinfo hroom
  have hpos := h.live _ ho
  generalize hv : c.stamp i info cur = v at hnew hless ⊢
  have hself : (m.store (c.refed + 8) v).refInfo c.refed = v := Function.update_self ..
  have hother : ∀ p ∈ s.objs, p ≠ c.refed → (m.store (c.refed + 8) v).refInfo p = m.refInfo p := by
    intro p hp hne
    exact Function.update_of_ne (h.header_ne (h.sub hp) hb hne (j := 1) (l := 1) (by decide) (by decide)) ..
  have hslot : ∀ a ∈ s.slots, (m.store (c.refed + 8) v).word a = m.word a := by
    intro a ha
    refine Function.update_of_ne ?_ ..
    rintro rfl
    exact h.header _ hb 1 (by decide) ha
  have hsub : ∀ p, p ∈ (if c.func = .unlinkRef ∧ m.refCnt c.refed = 1 then s.objs.erase c.refed else s.objs) →
      p ∈ s.objs ∧ (c.func = .unlinkRef → m.refCnt c.refed = 1 → p ≠ c.refed) := by
    intro p hp
    split at hp
    case isTrue hlast => exact ⟨Finset.mem_of_mem_erase hp, fun _ _ => Finset.ne_of_mem_erase hp⟩
    case isFalse hlast => exact ⟨hp, fun hf h1 => absurd ⟨hf, h1⟩ hlast⟩
  have hguard : ∀ j, s.guard j ≠ 0 → Function.update s.refs c.ref c.target (s.guard j) = s.refs (s.guard j) := fun j hg =>
    Function.update_of_ne (h.guard_ne hi trivial hg) ..
  have hapart : ∀ j c' p, j ≠ i → s.call j = some (c', p) →
      Function.update s.refs c.ref c.target c'.ref = s.refs c'.ref := by
    intro j c' p hji hj
    apply Function.update_of_ne
    intro he
    exact hji (h.alone j i c' c p _ hj hi he)
  refine { era := h.era, zero := h.zero, sub := fun p hp => h.sub (hsub p hp).1, apart := h.apart, header := h.header,
           target := fun a ha => ?_, count := fun p hp => ?_, live := fun p hp => ?_, settled := fun a ha hno => ?_,
           calls := fun j c' p hj => ?_, alone := ?_, once := ?_, guarded := fun j hg => ?_ }
  · show Function.update s.refs c.ref c.target a = 0 ∨ Function.update s.refs c.ref c.target a ∈
      if c.func = .unlinkRef ∧ m.refCnt c.refed = 1 then s.objs.erase c.refed else s.objs
    by_cases hgone : c.func = .unlinkRef ∧ m.refCnt c.refed = 1
    · -- the last reference goes: nobody else refers to the object
      have hlast := hless hgone.1
      rw [hnew, hgone.2] at hlast
      have hnone := holding_eq_zero_iff.mp (Nat.succ.inj hlast) a ha
      by_cases hac : a = c.ref
      · rw [hac, Function.update_self]
        unfold RefCall.target
        rw [hgone.1]
        exact Or.inl rfl
      · rw [Function.update_of_ne hac] at hnone ⊢
        refine (h.target a ha).imp_right fun hin => ?_
        rw [if_pos hgone]
        exact Finset.mem_erase.mpr ⟨hnone, hin⟩
    · rw [if_neg hgone]
      by_cases hac : a = c.ref
      · rw [hac, Function.update_self]
        unfold RefCall.target
        split
        · exact Or.inr ho
        · exact Or.inl rfl
      · rw [Function.update_of_ne hac]
        exact h.target a ha
  · show getRefCntFromInfo ((m.store (c.refed + 8) v).refInfo p) = holding s.slots (Function.update s.refs c.ref c.target) p
    obtain ⟨hp, -⟩ := hsub p hp
    by_cases hpo : p = c.refed
    · rw [hpo, hself]
      exact hnew
    · have hmove := holding_update_mem s.refs c.target p hok.slot
      have hp0 : (0 : Nat) ≠ p := fun he => h.zero (h.sub (he ▸ hp))
      have hhits : hit (s.refs c.ref) p = 0 ∧ hit c.target p = 0 := by
        rw [hok.before trivial]
        unfold RefCall.before RefCall.target
        cases c.func with
        | linkRef => exact ⟨hit_ne hp0, hit_ne (Ne.symm hpo)⟩
        | unlinkRef => exact ⟨hit_ne (Ne.symm hpo), hit_ne hp0⟩
      rw [hhits.1, hhits.2] at hmove
      rw [hother p hp hpo]
      exact (h.count p hp).trans hmove.symm
  · show 0 < getRefCntFromInfo ((m.store (c.refed + 8) v).refInfo p)
    obtain ⟨hp, hkept⟩ := hsub p hp
    by_cases hpo : p = c.refed
    · rw [hpo, hself]
      cases hf : c.func with
      | linkRef =>
        -- the slot itself refers to the object now
        rw [hnew]
        have hpos := holding_pos (w := Function.update s.refs c.ref c.target) hok.slot
        rw [Function.update_self, RefCall.target, hf] at hpos
        rw [RefCall.target, hf]
        exact hpos
      | unlinkRef =>
        have hlast := hless hf
        have hmore : m.refCnt c.refed ≠ 1 := fun h1 => hkept hf h1 hpo
        omega
    · rw [hother p hp hpo]
      exact h.live p hp
  · have hac : a ≠ c.ref := (hno i c info (Function.update_self ..)).symm
    show (m.store (c.refed + 8) v).word a = Function.update s.refs c.ref c.target a
    rw [Function.update_of_ne hac, hslot a ha]
    apply h.settled a ha
    intro j c' info' hj
    have hji : j ≠ i := by
      rintro rfl
      rw [hi] at hj
      cases hj
    exact hno j c' info' ((Function.update_of_ne hji ..).trans hj)
  · rcases Calls.update_some hj with ⟨rfl, rfl, rfl⟩ | ⟨hji, hj⟩
    · refine ⟨hok.tid, hok.slot, hok.refed, trivial, by simp, fun he => he.elim, fun he => he.elim, fun _ => ?_,
        fun hd => ⟨hb, ?_⟩, fun k hk => by cases hk⟩
      · exact Function.update_self ..
      · have hone : m.refCnt c'.refed = 1 := by
          rw [Shm.refCnt, hinfo]
          exact hd.2
        simp only [if_pos (And.intro hd.1 hone)]
        exact Finset.notMem_erase _ _
    · have hokj := h.calls j c' p hj
      refine { hokj with before := fun he => ?_, guard := fun he hf => ?_, after := fun he => ?_, dying := fun hd => ?_ }
      · exact (hapart j c' p hji hj).trans (hokj.before he)
      · obtain ⟨hg, hrefs⟩ := hokj.guard he hf
        exact ⟨hg, (hguard j hg).trans hrefs⟩
      · exact (hapart j c' p hji hj).trans (hokj.after he)
      · exact ⟨(hokj.dying hd).1, fun hin => (hokj.dying hd).2 (hsub _ hin).1⟩
  · intro j k c' d p p' hj hk href
    rcases Calls.update_some hj with ⟨rfl, rfl, -⟩ | ⟨hji, hj'⟩ <;> rcases Calls.update_some hk with ⟨rfl, rfl, -⟩ | ⟨hki, hk'⟩
    · rfl
    · exact h.alone _ _ _ _ _ _ hi hk' href
    · exact h.alone _ _ _ _ _ _ hj' hi href
    · exact h.alone _ _ _ _ _ _ hj' hk' href
  · intro j k c' d p p' hj hk hdj hdk href
    rcases Calls.update_some hj with ⟨rfl, rfl, -⟩ | ⟨hji, hj'⟩ <;> rcases Calls.update_some hk with ⟨rfl, rfl, -⟩ | ⟨hki, hk'⟩
    · rfl
    · -- the object is alive before, so no other call has taken its last reference
      exact absurd ho (href ▸ ((h.calls _ _ _ hk').dying hdk).2)
    · exact absurd ho (href ▸ ((h.calls _ _ _ hj').dying hdj).2)
    · exact h.once _ _ _ _ _ _ hj' hk' hdj hdk href
  · obtain ⟨hslotj, hne, hno⟩ := h.guarded j hg
    refine ⟨hslotj, ?_, fun k c' p hk => ?_⟩
    · show Function.update s.refs c.ref c.target (s.guard j) ≠ 0
      rw [hguard j hg]
      exact hne
    · rcases Calls.update_some hk with ⟨rfl, rfl, rfl⟩ | ⟨-, hk⟩
      · exact hno _ _ _ hi
      · exact hno _ _ _ hk

/-! ## §4 — an access -/

theorem RefPc.early.not_dying (he : pc.early) : ¬ c.dying pc := by
  cases pc with
  | storeRef info => exact he.elim
  | bumpEra info => exact he.elim
  | wipe k => exact he.elim
  | _ => exact id

theorem Calls.access_goOn (hcas : ¬ casSucceeds spurious c m pc) (hdone : (refStep i spurious c pc m).1 ≠ .done) :
    s.access m i spurious c pc =
      { s with call := Function.update s.call i (some (c, (refStep i spurious c pc m).1)) } := by
  unfold Calls.access
  rw [if_neg hdone, if_neg hdone, if_neg hcas, if_neg fun hc => hcas hc.1]
  cases pc with
  | wipe k => rw [if_neg hdone]
  | _ => rfl

/-- Before the compare-exchange, and when it fails, a call stores to the era matrix and to the log only. -/
theorem refStep_early (he : pc.early) (hcas : ¬ casSucceeds spurious c m pc) (hera : EraBounded m) (hok : pc.EraOk) :
    (refStep i spurious c pc m).1.early ∧ (refStep i spurious c pc m).1.EraOk ∧
      (refStep i spurious c pc m).2.word = m.word ∧ EraBounded (refStep i spurious c pc m).2 := by
  have hafter : ∀ info cur, cur < 2 ^ 32 → (c.afterEle info cur).early ∧ (c.afterEle info cur).EraOk := by
    intro info cur hcur
    unfold RefCall.afterEle
    cases c.func with
    | linkRef => exact ⟨trivial, hcur⟩
    | unlinkRef => exact ⟨trivial, trivial⟩
  have hgo : ∀ pc' m', refStep i spurious c pc m = (pc', m') → pc'.early ∧ pc'.EraOk → m'.word = m.word → EraBounded m' →
      (refStep i spurious c pc m).1.early ∧ (refStep i spurious c pc m).1.EraOk ∧
        (refStep i spurious c pc m).2.word = m.word ∧ EraBounded (refStep i spurious c pc m).2 := by
    intro pc' m' heq hpc hword hera'
    rw [heq]
    exact ⟨hpc.1, hpc.2, hword, hera'⟩
  cases pc with
  | loadInfo =>
    cases hf : c.func with
    | linkRef => exact hgo (.loadEra (m.refInfo c.refed)) m (by simp only [refStep, hf]) ⟨trivial, trivial⟩ rfl hera
    | unlinkRef =>
      exact hgo (.loadEle (m.refInfo c.refed) 0) m (by simp only [refStep, hf]) ⟨trivial, Nat.two_pow_pos 32⟩ rfl hera
  | loadEra info =>
    have hown : m.era i i < 2 ^ 32 := hera _
    cases hf : c.func with
    | linkRef => exact hgo (.loadEle info (m.era i i)) m (by simp only [refStep, hf]) ⟨trivial, hown⟩ rfl hera
    | unlinkRef => exact hgo (.storeRedo info (m.era i i)) m (by simp only [refStep, hf]) ⟨trivial, hown⟩ rfl hera
  | loadEle info cur =>
    by_cases hele : getLenumFromInfo info > m.era i (getLcidFromInfo info)
    · exact hgo (.storeEle info cur) m (if_pos hele) ⟨trivial, hok⟩ rfl hera
    · exact hgo (c.afterEle info cur) m (if_neg hele) (hafter info cur hok) rfl hera
  | storeEle info cur => exact hgo _ _ rfl (hafter info cur hok) rfl (hera.storeEra (getLenumFromInfo_lt info))
  | storeRedo info cur => exact hgo _ _ rfl ⟨trivial, hok⟩ rfl hera
  | cas info cur => exact hgo .loadInfo m (if_neg hcas) ⟨trivial, trivial⟩ rfl hera
  | storeRef info => exact he.elim
  | bumpEra info => exact he.elim
  | wipe k => exact he.elim
  | done => exact he.elim

/-- An access after the compare-exchange. -/
theorem CallInv.accessLate (h : CallInv m s) (hi : s.call i = some (c, pc)) (hlate : ¬ pc.early) :
    CallInv (refStep i spurious c pc m).2 (s.access m i spurious c pc) := by
  have hok := h.calls i c pc hi
  have hafter := hok.after hlate
  cases pc with
  | storeRef info =>
    obtain ⟨hnext, hword⟩ := h.storeSlot hi
    have hne : (refStep i spurious c (.storeRef info) m).1 ≠ .done := by simp [refStep]
    rw [Calls.access_goOn id hne]
    have hgo : c.dying (.bumpEra info) → c.dying (.storeRef info) := id
    apply hnext.goOn hi ?_ hgo (Or.inr hword)
    exact { hok with era := trivial, running := by simp, before := fun he => he.elim,
                     guard := fun he => he.elim, after := fun _ => hafter, dying := hok.dying, wipe := fun k hk => by cases hk }
  | bumpEra info =>
    have hera : EraBounded (m.storeEra i i ((m.era i i + 1) % 2 ^ 32)) := h.era.storeEra (Nat.mod_lt _ (by decide))
    have hquiet : CallInv (m.storeEra i i ((m.era i i + 1) % 2 ^ 32)) s := h.quiet hera (fun _ _ => rfl) fun _ _ => rfl
    have hnotStore : ∀ info', RefPc.bumpEra info ≠ .storeRef info' := fun info' he => by cases he
    by_cases hlast : c.func = .unlinkRef ∧ getRefCntFromInfo info = 1
    · have hstep : refStep i spurious c (.bumpEra info) m = (.wipe 0, m.storeEra i i ((m.era i i + 1) % 2 ^ 32)) := by
        simp only [refStep, if_pos hlast]
      have hne : (refStep i spurious c (.bumpEra info) m).1 ≠ .done := by simp [hstep]
      rw [Calls.access_goOn id hne, hstep]
      apply hquiet.goOn hi ?_ (fun _ => hlast) (Or.inl hnotStore)
      refine { hok with era := trivial, running := by simp, before := fun he => he.elim, guard := fun he => he.elim,
                        after := fun _ => hafter, dying := fun _ => hok.dying hlast, wipe := fun k hk => ?_ }
      cases hk
      exact Nat.zero_lt_succ 2
    · have hstep : refStep i spurious c (.bumpEra info) m = (.done, m.storeEra i i ((m.era i i + 1) % 2 ^ 32)) := by
        simp only [refStep, if_neg hlast]
      unfold Calls.access
      rw [hstep]
      exact hquiet.finish hi (Or.inl hnotStore) (Or.inl rfl)
  | wipe k =>
    obtain ⟨hblock, hdead⟩ := hok.dying trivial
    have hnext : CallInv (m.store (c.refed + 8 * k) 0) s := h.storeDead hblock hdead (hok.wipe k rfl)
    have hnotStore : ∀ info', RefPc.wipe k ≠ .storeRef info' := fun info' he => by cases he
    by_cases hlast : k + 1 < sizeofCxlObj / 8
    · have hstep : refStep i spurious c (.wipe k) m = (.wipe (k + 1), m.store (c.refed + 8 * k) 0) := by
        simp only [refStep, if_pos hlast]
      have hne : (refStep i spurious c (.wipe k) m).1 ≠ .done := by simp [hstep]
      rw [Calls.access_goOn id hne, hstep]
      apply hnext.goOn hi ?_ (fun _ => trivial) (Or.inl hnotStore)
      refine { hok with running := by simp, before := fun he => he.elim, guard := fun he => he.elim,
                        after := fun _ => hafter, wipe := fun l hl => ?_ }
      cases hl
      exact hlast
    · -- the header is zero, and the block is no object's any more
      have hstep : refStep i spurious c (.wipe k) m = (.done, m.store (c.refed + 8 * k) 0) := by
        simp only [refStep, if_neg hlast]
      unfold Calls.access
      rw [hstep]
      exact hnext.finish hi (Or.inl hnotStore) (Or.inr ⟨rfl, trivial⟩)
  | done => exact absurd rfl hok.running
  | _ => exact absurd trivial hlate

/-- **An access of a call** that has room. -/
theorem CallInv.access (h : CallInv m s) (hi : s.call i = some (c, pc)) (hroom : HasRoom m spurious c pc) :
    CallInv (refStep i spurious c pc m).2 (s.access m i spurious c pc) := by
  have hok := h.calls i c pc hi
  by_cases hcas : casSucceeds spurious c m pc
  · cases pc with
    | cas info cur =>
      have hstep : refStep i spurious c (.cas info cur) m = (.storeRef info, m.store (c.refed + 8) (c.stamp i info cur)) :=
        if_pos hcas
      have hnext := h.cas hi hcas.1 (hroom hcas)
      rw [hstep]
      unfold Calls.access
      rw [hstep, if_neg (by simp), if_neg (by simp), if_pos hcas]
      simp only [hcas, true_and]
      exact hnext
    | _ => exact hcas.elim
  · by_cases he : pc.early
    · obtain ⟨hearly, heraOk, hword, hera⟩ := refStep_early (i := i) he hcas h.era hok.era
      have hne : (refStep i spurious c pc m).1 ≠ .done := by
        intro hd
        rw [hd] at hearly
        exact hearly.elim
      rw [Calls.access_goOn hcas hne]
      have hquiet : CallInv (refStep i spurious c pc m).2 s := by
        refine h.quiet hera (fun a _ => by rw [hword]) fun o _ => ?_
        rw [Shm.refInfo, hword]
        rfl
      have hnotStore : ∀ info, pc ≠ .storeRef info := by
        rintro info rfl
        exact he.elim
      refine hquiet.goOn hi ?_ (fun hd => absurd hd hearly.not_dying) (Or.inl hnotStore)
      refine { hok with era := heraOk, running := hne, before := fun _ => hok.before he, guard := fun _ => hok.guard he,
                        after := fun hn => absurd hearly hn, dying := fun hd => absurd hd hearly.not_dying,
                        wipe := fun k hk => ?_ }
      rw [hk] at hearly
      exact hearly.elim
    · exact h.accessLate hi he

/-- Of the words, an access of a call changes its slot and headers only. -/
theorem CallInv.access_word (h : CallInv m s) (hi : s.call i = some (c, pc)) {w : Nat} (hslot : pc.storing → w ≠ c.ref)
    (hheader : ∀ o ∈ s.blocks, ∀ j < 3, o + 8 * j ≠ w) : (refStep i spurious c pc m).2.word w = m.word w := by
  have hok := h.calls i c pc hi
  by_cases he : pc.early
  · by_cases hcas : casSucceeds spurious c m pc
    · cases pc with
      | cas info cur =>
        have hstep : (refStep i spurious c (.cas info cur) m).2 = m.store (c.refed + 8) (c.stamp i info cur) :=
          congrArg Prod.snd (if_pos hcas)
        rw [hstep]
        apply Function.update_of_ne
        exact (hheader c.refed (h.sub (h.refed_mem hi trivial)) 1 (by decide)).symm
      | _ => exact hcas.elim
    · rw [(refStep_early he hcas h.era hok.era).2.2.1]
  · cases pc with
    | storeRef info => exact Function.update_of_ne (hslot trivial) ..
    | bumpEra info => rfl
    | wipe k => exact Function.update_of_ne (hheader c.refed (hok.dying trivial).1 k (hok.wipe k rfl)).symm ..
    | done => exact absurd rfl hok.running
    | _ => exact absurd trivial he

theorem Calls.access_call_of_ne {j : Nat} (hji : j ≠ i) : (s.access m i spurious c pc).call j = s.call j :=
  Function.update_of_ne hji ..

theorem Calls.access_guard_of_ne {j : Nat} (hji : j ≠ i) : (s.access m i spurious c pc).guard j = s.guard j := by
  unfold Calls.access
  simp only
  split
  · exact Function.update_of_ne hji ..
  · rfl

theorem Calls.access_goes (hdone : (refStep i spurious c pc m).1 ≠ .done) :
    (s.access m i spurious c pc).call i = some (c, (refStep i spurious c pc m).1) ∧
      (s.access m i spurious c pc).guard i = s.guard i := by
  unfold Calls.access
  simp only [if_neg hdone, Function.update_self, and_self]

theorem Calls.access_returns (hdone : (refStep i spurious c pc m).1 = .done) :
    (s.access m i spurious c pc).call i = none ∧ (s.access m i spurious c pc).guard i = 0 := by
  unfold Calls.access
  simp only [if_pos hdone, Function.update_self, and_self]

/-- A call of the new state is one of the old state. -/
theorem Calls.access_old (hi : s.call i = some (c, pc)) {j : Nat} {c' : RefCall} {p : RefPc}
    (hj : (s.access m i spurious c pc).call j = some (c', p)) : ∃ p', s.call j = some (c', p') := by
  by_cases hji : j = i
  · rw [hji] at hj ⊢
    by_cases hdone : (refStep i spurious c pc m).1 = .done
    · rw [(Calls.access_returns hdone).1] at hj
      cases hj
    · rw [(Calls.access_goes hdone).1] at hj
      obtain ⟨rfl, rfl⟩ := Prod.mk.inj (Option.some.inj hj)
      exact ⟨pc, hi⟩
  · rw [Calls.access_call_of_ne hji] at hj
    exact ⟨p, hj⟩

theorem Calls.access_blocks : (s.access m i spurious c pc).blocks ⊆ s.blocks := by
  unfold Calls.access
  simp only
  split
  · split
    · exact Finset.erase_subset ..
    · exact Finset.Subset.refl _
  · exact Finset.Subset.refl _

theorem RefPc.ne_done {pc : RefPc} (h : pc.early ∨ pc.storing) : pc ≠ .done := by
  rintro rfl
  exact h.elim id id

/-- A call stays before its compare-exchange or comes to its store. -/
theorem refStep_early_pc (he : pc.early) :
    ((refStep i spurious c pc m).1.early ∨ (refStep i spurious c pc m).1.storing) ∧
      (refStep i spurious c pc m).1 ≠ .done := by
  have hgo : ∀ p, (refStep i spurious c pc m).1 = p → p.early ∨ p.storing →
      ((refStep i spurious c pc m).1.early ∨ (refStep i spurious c pc m).1.storing) ∧
        (refStep i spurious c pc m).1 ≠ .done := by
    rintro p rfl hp
    exact ⟨hp, RefPc.ne_done hp⟩
  apply hgo _ rfl
  cases pc with
  | loadInfo =>
    refine Or.inl ?_
    cases hf : c.func <;> simp only [refStep, hf] <;> trivial
  | loadEra info =>
    refine Or.inl ?_
    cases hf : c.func <;> simp only [refStep, hf] <;> trivial
  | loadEle info cur =>
    refine Or.inl ?_
    simp only [refStep]
    split
    · trivial
    · unfold RefCall.afterEle
      cases c.func <;> trivial
  | storeEle info cur =>
    refine Or.inl ?_
    simp only [refStep]
    unfold RefCall.afterEle
    cases c.func <;> trivial
  | storeRedo info cur => exact Or.inl trivial
  | cas info cur =>
    simp only [refStep]
    split
    · exact Or.inr trivial
    · exact Or.inl trivial
  | storeRef info => exact he.elim
  | bumpEra info => exact he.elim
  | wipe k => exact he.elim
  | done => exact he.elim

/-! ## §5 — calls begin, objects and slots come and go -/

/-- The slot refers to the object, and no call that takes a reference away is in progress on it. -/
structure Calls.Holds (s : Calls) (a o : Nat) : Prop where
  slot : a ∈ s.slots
  refs : s.refs a = o
  kept : ∀ j c pc, s.call j = some (c, pc) → c.func = .unlinkRef → c.ref ≠ a

/-- A client that is in no call holds on to a slot, or to none. -/
theorem CallInv.hold (h : CallInv m s) {g : Nat} (hfree : s.call i = none)
    (hg : g ≠ 0 → ∃ o, o ≠ 0 ∧ s.Holds g o) : CallInv m (s.hold i g) := by
  refine { h with calls := fun j c pc hj => ?_, guarded := fun j hne => ?_ }
  · have hji : j ≠ i := by
      rintro rfl
      rw [Calls.hold, hfree] at hj
      cases hj
    have hok := h.calls j c pc hj
    refine { hok with guard := fun he hf => ?_ }
    show Function.update s.guard i g j ≠ 0 ∧ s.refs (Function.update s.guard i g j) = c.refed
    rw [Function.update_of_ne hji]
    exact hok.guard he hf
  · have hne' : Function.update s.guard i g j ≠ 0 := hne
    show Function.update s.guard i g j ∈ s.slots ∧ s.refs (Function.update s.guard i g j) ≠ 0 ∧
      ∀ k c pc, s.call k = some (c, pc) → c.func = .unlinkRef → c.ref ≠ Function.update s.guard i g j
    by_cases hji : j = i
    · rw [hji, Function.update_self] at hne' ⊢
      obtain ⟨o, ho, hh⟩ := hg hne'
      exact ⟨hh.slot, hh.refs ▸ ho, hh.kept⟩
    · rw [Function.update_of_ne hji] at hne' ⊢
      exact h.guarded j hne'

/-- A call may begin: nobody else is at work on its slot, its object is at hand, and nobody holds on to a slot that is to
be cleared. -/
structure Calls.CanStart (s : Calls) (i : Nat) (c : RefCall) (g : Nat) : Prop where
  tid : i < 2 ^ 16
  free : s.call i = none
  slot : c.ref ∈ s.slots
  alone : ¬ s.InCall c.ref
  refed : c.refed ≠ 0
  before : s.refs c.ref = c.before
  guard : c.func = .linkRef → g ≠ 0 ∧ s.refs g = c.refed
  held : g ≠ 0 → (∃ o, o ≠ 0 ∧ s.Holds g o) ∧ (c.func = .unlinkRef → c.ref ≠ g)
  unguarded : c.func = .unlinkRef → ∀ j ≠ i, s.guard j ≠ 0 → c.ref ≠ s.guard j

/-- **A call begins.** -/
theorem CallInv.start (h : CallInv m s) {g : Nat} (hs : s.CanStart i c g) : CallInv m (s.start i c g) := by
  refine { h with settled := fun a ha hno => ?_, calls := fun j c' p hj => ?_, alone := ?_, once := ?_,
                  guarded := fun j hne => ?_ }
  · apply h.settled a ha
    intro j c' info hj
    have hji : j ≠ i := by
      rintro rfl
      rw [hs.free] at hj
      cases hj
    exact hno j c' info ((Function.update_of_ne hji ..).trans hj)
  · rcases Calls.update_some hj with ⟨rfl, rfl, rfl⟩ | ⟨hji, hj⟩
    · refine ⟨hs.tid, hs.slot, hs.refed, trivial, by simp, fun _ => hs.before, fun _ hf => ?_, fun hn => absurd trivial hn,
        fun hd => hd.elim, fun k hk => by cases hk⟩
      show Function.update s.guard j g j ≠ 0 ∧ s.refs (Function.update s.guard j g j) = c'.refed
      rw [Function.update_self]
      exact hs.guard hf
    · have hok := h.calls j c' p hj
      refine { hok with guard := fun he hf => ?_ }
      show Function.update s.guard i g j ≠ 0 ∧ s.refs (Function.update s.guard i g j) = c'.refed
      rw [Function.update_of_ne hji]
      exact hok.guard he hf
  · intro j k c' d p p' hj hk href
    rcases Calls.update_some hj with ⟨rfl, rfl, -⟩ | ⟨hji, hj'⟩ <;> rcases Calls.update_some hk with ⟨rfl, rfl, -⟩ | ⟨hki, hk'⟩
    · rfl
    · exact absurd ⟨k, d, p', hk', href.symm⟩ hs.alone
    · exact absurd ⟨j, c', p, hj', href⟩ hs.alone
    · exact h.alone _ _ _ _ _ _ hj' hk' href
  · intro j k c' d p p' hj hk hdj hdk href
    rcases Calls.update_some hj with ⟨-, -, rfl⟩ | ⟨-, hj'⟩
    · exact hdj.elim
    · rcases Calls.update_some hk with ⟨-, -, rfl⟩ | ⟨-, hk'⟩
      · exact hdk.elim
      · exact h.once _ _ _ _ _ _ hj' hk' hdj hdk href
  · have hg : Function.update s.guard i g j ≠ 0 := hne
    show Function.update s.guard i g j ∈ s.slots ∧ s.refs (Function.update s.guard i g j) ≠ 0 ∧
      ∀ k c' p, Function.update s.call i (some (c, .loadInfo)) k = some (c', p) → c'.func = .unlinkRef →
        c'.ref ≠ Function.update s.guard i g j
    by_cases hji : j = i
    · rw [hji, Function.update_self] at hg ⊢
      obtain ⟨⟨o, ho, hh⟩, hself⟩ := hs.held hg
      refine ⟨hh.slot, hh.refs ▸ ho, fun k c' p hk hf => ?_⟩
      rcases Calls.update_some hk with ⟨-, rfl, -⟩ | ⟨-, hk⟩
      · exact hself hf
      · exact hh.kept k c' p hk hf
    · rw [Function.update_of_ne hji] at hg ⊢
      obtain ⟨hslot, hrefs, hno⟩ := h.guarded j hg
      refine ⟨hslot, hrefs, fun k c' p hk hf => ?_⟩
      rcases Calls.update_some hk with ⟨-, rfl, -⟩ | ⟨-, hk⟩
      · exact hs.unguarded hf j hji hg
      · exact hno k c' p hk hf

/-- Whatever else goes on: nothing is stored to a live `ref_info` or to a slot, and slots come and go empty. -/
structure Calls.Frame (s : Calls) (m m' : Shm) (slots' : Finset Nat) : Prop where
  era : EraBounded m'
  info : ∀ o ∈ s.objs, m'.refInfo o = m.refInfo o
  slot : ∀ a ∈ slots', (a ∈ s.slots ∧ m'.word a = m.word a) ∨ (a ∉ s.slots ∧ m'.word a = 0)
  gone : ∀ a ∈ s.slots, a ∉ slots' → m.word a = 0 ∧ ¬ s.InCall a
  header : ∀ o ∈ s.blocks, ∀ j < 3, o + 8 * j ∉ slots'

/-- The slots are these now. -/
def Calls.withSlots (s : Calls) (slots' : Finset Nat) : Calls :=
  { s with slots := slots', refs := fun a => if a ∈ s.slots then s.refs a else 0 }

/-- **Everything else keeps the invariant.** -/
theorem CallInv.env (h : CallInv m s) {slots' : Finset Nat} (hf : s.Frame m m' slots') :
    CallInv m' (s.withSlots slots') := by
  have hrefs : ∀ a ∈ s.slots, (s.withSlots slots').refs a = s.refs a := fun a ha => if_pos ha
  have hnew : ∀ a, a ∉ s.slots → (s.withSlots slots').refs a = 0 := fun a ha => if_neg ha
  -- a slot that refers to something is not given up, nor is one of a call in progress
  have hkept : ∀ a ∈ s.slots, s.refs a ≠ 0 → a ∈ slots' := by
    intro a ha hne
    by_contra hno
    obtain ⟨hz, hcall⟩ := hf.gone a ha hno
    rw [h.word ha hcall] at hz
    exact hne hz
  have hbusy : ∀ j c pc, s.call j = some (c, pc) → c.ref ∈ slots' := by
    intro j c pc hj
    by_contra hno
    exact (hf.gone c.ref (h.calls j c pc hj).slot hno).2 ⟨j, c, pc, hj, rfl⟩
  have hsame : ∀ o ∈ s.objs, holding slots' (s.withSlots slots').refs o = holding s.slots s.refs o := by
    intro o ho
    have ho0 : (0 : Nat) ≠ o := fun he => h.zero (h.sub (he ▸ ho))
    unfold holding
    congr 1
    ext a
    simp only [Finset.mem_filter]
    constructor
    · rintro ⟨-, hr⟩
      by_cases has : a ∈ s.slots
      · exact ⟨has, (hrefs a has).symm.trans hr⟩
      · exact absurd ((hnew a has).symm.trans hr) ho0
    · rintro ⟨has, hr⟩
      exact ⟨hkept a has fun hz => ho0 (hz.symm.trans hr), (hrefs a has).trans hr⟩
  have hcnt : ∀ o ∈ s.objs, m'.refCnt o = m.refCnt o := fun o ho => congrArg getRefCntFromInfo (hf.info o ho)
  refine { h with era := hf.era, header := hf.header, target := fun a ha => ?_, count := fun o ho => ?_,
                  live := fun o ho => ?_, settled := fun a ha hno => ?_, calls := fun j c pc hj => ?_,
                  guarded := fun j hne => ?_ }
  · by_cases has : a ∈ s.slots
    · rw [hrefs a has]
      exact h.target a has
    · exact Or.inl (hnew a has)
  · rw [hcnt o ho]
    exact (h.count o ho).trans (hsame o ho).symm
  · rw [hcnt o ho]
    exact h.live o ho
  · rcases hf.slot a ha with ⟨has, hw⟩ | ⟨has, hw⟩
    · rw [hw, hrefs a has]
      exact h.settled a has hno
    · exact hw.trans (hnew a has).symm
  · have hok := h.calls j c pc hj
    refine { hok with slot := hbusy j c pc hj, before := fun he => ?_, guard := fun he hl => ?_, after := fun he => ?_ }
    · exact (hrefs _ hok.slot).trans (hok.before he)
    · obtain ⟨hg, hr⟩ := hok.guard he hl
      exact ⟨hg, (hrefs _ (h.guarded j hg).1).trans hr⟩
    · exact (hrefs _ hok.slot).trans (hok.after he)
  · obtain ⟨hslot, hr, hno⟩ := h.guarded j hne
    exact ⟨hkept _ hslot hr, fun hz => hr ((hrefs _ hslot).symm.trans hz), hno⟩

/-- A block for an object and a RootRef for it: their words are no slot and no header of another block. -/
structure Calls.NewBlock (s : Calls) (tbr o : Nat) : Prop where
  ne_zero : o ≠ 0
  apart : ∀ p ∈ s.blocks, o + sizeofCxlObj ≤ p ∨ p + sizeofCxlObj ≤ o
  header : ∀ j < 3, o + 8 * j ∉ s.slots ∧ o + 8 * j ≠ tbr
  root : tbr ∉ s.slots
  root_apart : ∀ p ∈ s.blocks, ∀ j < 3, p + 8 * j ≠ tbr

/-- The object `o` is alive, with the slot `tbr`. -/
def Calls.appear (s : Calls) (tbr o : Nat) : Calls :=
  { s with
    objs := insert o s.objs
    blocks := insert o s.blocks
    slots := insert tbr s.slots
    refs := Function.update s.refs tbr o }

/-- **A new object**, with the count 1 and its RootRef. -/
theorem CallInv.appear (h : CallInv m s) {tbr o : Nat} (hb : s.NewBlock tbr o) (hword : m.word tbr = o)
    (hone : m.refCnt o = 1) : CallInv m (s.appear tbr o) := by
  have hself : Function.update s.refs tbr o tbr = o := Function.update_self ..
  have hold : ∀ a ∈ s.slots, Function.update s.refs tbr o a = s.refs a := by
    intro a ha
    apply Function.update_of_ne
    rintro rfl
    exact hb.root ha
  have hnot : o ∉ s.blocks := fun ho => by
    have := hb.apart o ho
    simp only [sizeofCxlObj] at this
    omega
  have hother : ∀ p, holding (insert tbr s.slots) (Function.update s.refs tbr o) p = holding s.slots s.refs p + hit o p := by
    intro p
    rw [holding_erase_add _ p (Finset.mem_insert_self tbr s.slots), hself, Finset.erase_insert hb.root]
    rw [holding_congr p hold]
  have hnone : holding s.slots s.refs o = 0 := by
    rw [holding_eq_zero_iff]
    rintro a ha rfl
    exact (h.target a ha).elim hb.ne_zero fun hin => hnot (h.sub hin)
  refine { h with zero := ?_, sub := Finset.insert_subset_insert o h.sub, apart := ?_, header := ?_, target := ?_,
                  count := ?_, live := ?_, settled := ?_, calls := ?_, guarded := ?_ }
  · simp only [Calls.appear, Finset.mem_insert, not_or]
    exact ⟨hb.ne_zero.symm, h.zero⟩
  · intro p hp p' hp' hne
    rcases Finset.mem_insert.mp hp with rfl | hpb
    · rcases Finset.mem_insert.mp hp' with rfl | hpb'
      · exact absurd rfl hne
      · exact hb.apart p' hpb'
    · rcases Finset.mem_insert.mp hp' with rfl | hpb'
      · exact (hb.apart p hpb).symm
      · exact h.apart p hpb p' hpb' hne
  · intro p hp j hj hin
    rcases Finset.mem_insert.mp hp with rfl | hp
    · rcases Finset.mem_insert.mp hin with he | hin
      · exact (hb.header j hj).2 he
      · exact (hb.header j hj).1 hin
    · rcases Finset.mem_insert.mp hin with he | hin
      · exact hb.root_apart p hp j hj he
      · exact h.header p hp j hj hin
  · intro a ha
    show Function.update s.refs tbr o a = 0 ∨ Function.update s.refs tbr o a ∈ insert o s.objs
    rcases Finset.mem_insert.mp ha with rfl | ha
    · rw [hself]
      exact Or.inr (Finset.mem_insert_self o _)
    · rw [hold a ha]
      exact (h.target a ha).imp_right fun hin => Finset.mem_insert_of_mem hin
  · intro p hp
    show m.refCnt p = holding (insert tbr s.slots) (Function.update s.refs tbr o) p
    rw [hother p]
    rcases Finset.mem_insert.mp hp with rfl | hp
    · rw [hone, hnone, hit_self]
    · have hne : o ≠ p := fun he => hnot (he ▸ h.sub hp)
      rw [hit_ne hne]
      exact h.count p hp
  · intro p hp
    rcases Finset.mem_insert.mp hp with rfl | hp
    · rw [hone]
      exact Nat.one_pos
    · exact h.live p hp
  · intro a ha hno
    show m.word a = Function.update s.refs tbr o a
    rcases Finset.mem_insert.mp ha with rfl | ha
    · rw [hself]
      exact hword
    · rw [hold a ha]
      exact h.settled a ha hno
  · intro j c pc hj
    have hok := h.calls j c pc hj
    refine ⟨hok.tid, Finset.mem_insert_of_mem hok.slot, hok.refed, hok.era, hok.running, fun he => ?_, fun he hl => ?_,
      fun he => ?_, fun hd => ?_, hok.wipe⟩
    · exact (hold _ hok.slot).trans (hok.before he)
    · obtain ⟨hg, hr⟩ := hok.guard he hl
      exact ⟨hg, (hold _ (h.guarded j hg).1).trans hr⟩
    · exact (hold _ hok.slot).trans (hok.after he)
    · obtain ⟨hblock, hdead⟩ := hok.dying hd
      refine ⟨Finset.mem_insert_of_mem hblock, fun hin => ?_⟩
      rcases Finset.mem_insert.mp hin with he | hin
      · exact hnot (he ▸ hblock)
      · exact hdead hin
  · intro j hne
    obtain ⟨hslot, hr, hno⟩ := h.guarded j hne
    exact ⟨Finset.mem_insert_of_mem hslot, fun hz => hr ((hold _ hslot).symm.trans hz), hno⟩

end Invariant

end CxlShm
