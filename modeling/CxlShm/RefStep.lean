import CxlShm.State

/-! # RefStep — `link_reference` and `unlink_reference`, one memory access at a time

The two functions of `cxl_shm.cpp` as a program-counter machine: `refStep` performs the next load,
store or compare-exchange of a client. `link_reference` loads its own era before it looks at the
era-matrix cell, `unlink_reference` after; the rest of the loop is shared, so the two are one machine
with the function as a parameter.

`unlink_reference` ends with `cxl_free(false, refed)` when the count it replaced was 1. Its first
effect, the `memset` of the object header, is the `wipe` phase here; the list bookkeeping after it
touches no slot, no `ref_info` of an allocated object, no era and no log line.
-/

namespace CxlShm

/-- A call `link_reference(ref, refed)` or `unlink_reference(ref, refed)`; `ref` is the offset of the
slot, `refed` the offset of the object. -/
structure RefCall where
  func : RedoFuncId
  ref : Nat
  refed : Nat
  deriving DecidableEq, Repr

/-- What the slot holds once the operation is complete. -/
def RefCall.target (c : RefCall) : Nat :=
  match c.func with
  | .linkRef => c.refed
  | .unlinkRef => 0

/-- What the slot holds while the operation has not stored to it. -/
def RefCall.before (c : RefCall) : Nat :=
  match c.func with
  | .linkRef => 0
  | .unlinkRef => c.refed

/-- The count the compare-exchange installs. `ref_info_cnt` is 16 bits wide but the sum is formed in
`int` and converted to 64 bits, so neither direction wraps at 16 bits. -/
def RefCall.newCnt (c : RefCall) (cnt : Nat) : Nat :=
  match c.func with
  | .linkRef => cnt + 1
  | .unlinkRef => (cnt + (2 ^ 64 - 1)) % 2 ^ 64

/-- Where a client stands inside the call. `info` is the local `ref_info`, `cur` the local `cur_era`
(0 until loaded). -/
inductive RefPc
  | loadInfo
  | loadEra (info : Nat)
  | loadEle (info cur : Nat)
  | storeEle (info cur : Nat)
  | storeRedo (info cur : Nat)
  | cas (info cur : Nat)
  | storeRef (info : Nat)
  | bumpEra (info : Nat)
  | wipe (k : Nat)
  | done
  deriving DecidableEq, Repr

/-- After the test of the era-matrix cell: `link_reference` has its era already. -/
def RefCall.afterEle (c : RefCall) (info cur : Nat) : RefPc :=
  match c.func with
  | .linkRef => .storeRedo info cur
  | .unlinkRef => .loadEra info

/-- The line `redo_log{func, ref_info_cnt, cur_era, &_ref, _refed, 0}`. -/
def RefCall.line (c : RefCall) (info cur : Nat) : RedoLog :=
  ⟨some c.func, getRefCntFromInfo info, cur, c.ref, c.refed, 0⟩

/-- The stamp the compare-exchange installs. -/
def RefCall.stamp (c : RefCall) (tid info cur : Nat) : Nat :=
  packRefInfo tid (c.newCnt (getRefCntFromInfo info)) cur

/-- The next access of client `tid` inside the call `c`. `spurious` lets a
`compare_exchange_weak` fail although the words agree. -/
def refStep (tid : Nat) (spurious : Bool) (c : RefCall) : RefPc → Shm → RefPc × Shm
  | .loadInfo, m =>
    match c.func with
    | .linkRef => (.loadEra (m.refInfo c.refed), m)
    | .unlinkRef => (.loadEle (m.refInfo c.refed) 0, m)
  | .loadEra info, m =>
    match c.func with
    | .linkRef => (.loadEle info (m.era tid tid), m)
    | .unlinkRef => (.storeRedo info (m.era tid tid), m)
  | .loadEle info cur, m =>
    if getLenumFromInfo info > m.era tid (getLcidFromInfo info) then (.storeEle info cur, m)
    else (c.afterEle info cur, m)
  | .storeEle info cur, m =>
    (c.afterEle info cur, m.storeEra tid (getLcidFromInfo info) (getLenumFromInfo info))
  | .storeRedo info cur, m =>
    (.cas info cur, m.storeRedo tid (cur % redoCachelineCnt) (c.line info cur))
  | .cas info cur, m =>
    if m.refInfo c.refed = info ∧ spurious = false then
      (.storeRef info, m.store (c.refed + 8) (c.stamp tid info cur))
    else (.loadInfo, m)
  | .storeRef info, m => (.bumpEra info, m.store c.ref c.target)
  | .bumpEra info, m =>
    -- `get_ref_cnt_from_info(ref_info)-1 > 0` is unsigned: it fails for the count 1 only
    (if c.func = .unlinkRef ∧ getRefCntFromInfo info = 1 then .wipe 0 else .done,
      m.storeEra tid tid ((m.era tid tid + 1) % 2 ^ 32))
  | .wipe k, m =>
    (if k + 1 < sizeofCxlObj / 8 then .wipe (k + 1) else .done, m.store (c.refed + 8 * k) 0)
  | .done, m => (.done, m)

/-- The compare-exchange of this step succeeds. -/
def casSucceeds (spurious : Bool) (c : RefCall) (m : Shm) : RefPc → Prop
  | .cas info _ => m.refInfo c.refed = info ∧ spurious = false
  | _ => False

instance (spurious : Bool) (c : RefCall) (m : Shm) (pc : RefPc) :
    Decidable (casSucceeds spurious c m pc) := by
  cases pc <;> unfold casSucceeds <;> infer_instance

/-! ## What an access writes -/

/-- The line an access of a reference operation writes. -/
def writtenLine : RefPc → Option Nat
  | .storeRedo _ cur => some (cur % redoCachelineCnt)
  | _ => none

/-- An access of a reference operation writes at most one line, that of its own call. -/
theorem refStep_redo (i : Nat) (spurious : Bool) (c : RefCall) (pc : RefPc) (m : Shm) :
    (∃ info cur, pc = .storeRedo info cur ∧
      (refStep i spurious c pc m).2 = m.storeRedo i (cur % redoCachelineCnt) (c.line info cur)) ∨
    writtenLine pc = none ∧ ∀ j k, (refStep i spurious c pc m).2.redo j k = m.redo j k := by
  cases pc with
  | storeRedo info cur => exact Or.inl ⟨info, cur, rfl, rfl⟩
  | loadInfo => cases hf : c.func <;> simp [refStep, writtenLine, hf]
  | loadEra info => cases hf : c.func <;> simp [refStep, writtenLine, hf]
  | loadEle info cur =>
    refine Or.inr ⟨rfl, fun j k => ?_⟩
    simp only [refStep]
    split <;> rfl
  | cas info cur =>
    refine Or.inr ⟨rfl, fun j k => ?_⟩
    simp only [refStep]
    split <;> rfl
  | storeEle info cur => exact Or.inr ⟨rfl, fun _ _ => rfl⟩
  | storeRef info => exact Or.inr ⟨rfl, fun _ _ => rfl⟩
  | bumpEra info => exact Or.inr ⟨rfl, fun _ _ => rfl⟩
  | wipe k => exact Or.inr ⟨rfl, fun _ _ => rfl⟩
  | done => exact Or.inr ⟨rfl, fun _ _ => rfl⟩

/-- Everybody else's log stays. -/
theorem refStep_redo_of_ne {i j : Nat} (h : j ≠ i) (spurious : Bool) (c : RefCall) (pc : RefPc)
    (m : Shm) (k : Nat) : (refStep i spurious c pc m).2.redo j k = m.redo j k := by
  rcases refStep_redo i spurious c pc m with ⟨info, cur, rfl, heq⟩ | ⟨-, hr⟩
  · rw [heq]
    exact Shm.redo_storeRedo_of_ne _ _ (Or.inl h)
  · exact hr j k

theorem refStep_sas (i : Nat) (spurious : Bool) (c : RefCall) (pc : RefPc) (m : Shm) :
    (refStep i spurious c pc m).2.sas = m.sas := by
  cases pc with
  | loadInfo => cases hf : c.func <;> simp [refStep, hf]
  | loadEra info => cases hf : c.func <;> simp [refStep, hf]
  | loadEle info cur =>
    simp only [refStep]
    split <;> rfl
  | cas info cur =>
    simp only [refStep]
    split <;> rfl
  | _ => rfl

/-! ## A call that nobody interrupts -/

/-- `if(saw_era > *ele) *ele = saw_era`. -/
def learnEra (tid info : Nat) (m : Shm) : Shm :=
  if getLenumFromInfo info > m.era tid (getLcidFromInfo info) then
    m.storeEra tid (getLcidFromInfo info) (getLenumFromInfo info)
  else m

/-- What a call stores once it has its era: the log line, the stamp, the slot and the next era. -/
def commitRef (tid : Nat) (c : RefCall) (info curEra : Nat) (m : Shm) : Shm :=
  let m₁ := m.storeRedo tid (curEra % redoCachelineCnt) (c.line info curEra)
  let m₂ := (m₁.store (c.refed + 8) (c.stamp tid info curEra)).store c.ref c.target
  m₂.storeEra tid tid ((m₂.era tid tid + 1) % 2 ^ 32)

/-- `link_reference(_ref, _refed)`; the own era is read before the cell of the matrix is written. -/
def linkReference (tid ref refed : Nat) (m : Shm) : Shm :=
  commitRef tid ⟨.linkRef, ref, refed⟩ (m.refInfo refed) (m.era tid tid)
    (learnEra tid (m.refInfo refed) m)

/-- The stores of `unlink_reference(_ref, _refed)`, up to the free; here the own era is read after. -/
def unlinkStores (tid ref refed : Nat) (m : Shm) : Shm :=
  let m₁ := learnEra tid (m.refInfo refed) m
  commitRef tid ⟨.unlinkRef, ref, refed⟩ (m.refInfo refed) (m₁.era tid tid) m₁

/-- `n` accesses of client `tid` in a row. -/
def refAccesses (tid : Nat) (c : RefCall) (n : Nat) (s : RefPc × Shm) : RefPc × Shm :=
  (fun s => refStep tid false c s.1 s.2)^[n] s

/-- **`linkReference` is the run of its accesses.** -/
theorem refAccesses_link (tid ref refed : Nat) (m : Shm) :
    ∃ n, refAccesses tid ⟨.linkRef, ref, refed⟩ n (.loadInfo, m) =
      (.done, linkReference tid ref refed m) := by
  by_cases hele : getLenumFromInfo (m.refInfo refed) > m.era tid (getLcidFromInfo (m.refInfo refed))
  · refine ⟨8, ?_⟩
    simp [refAccesses, refStep, RefCall.afterEle, hele, linkReference, learnEra, commitRef]
  · refine ⟨7, ?_⟩
    simp [refAccesses, refStep, RefCall.afterEle, hele, linkReference, learnEra, commitRef]

/-- **`unlinkStores` is the run of its accesses** up to the free. -/
theorem refAccesses_unlink (tid ref refed : Nat) (m : Shm) :
    ∃ n, refAccesses tid ⟨.unlinkRef, ref, refed⟩ n (.loadInfo, m) =
      (if getRefCntFromInfo (m.refInfo refed) = 1 then .wipe 0 else .done,
        unlinkStores tid ref refed m) := by
  by_cases hele : getLenumFromInfo (m.refInfo refed) > m.era tid (getLcidFromInfo (m.refInfo refed))
  · refine ⟨8, ?_⟩
    simp [refAccesses, refStep, RefCall.afterEle, hele, unlinkStores, learnEra, commitRef]
  · refine ⟨7, ?_⟩
    simp [refAccesses, refStep, RefCall.afterEle, hele, unlinkStores, learnEra, commitRef]

@[simp] theorem learnEra_word (tid info : Nat) (m : Shm) : (learnEra tid info m).word = m.word := by
  unfold learnEra
  split <;> rfl

@[simp] theorem learnEra_segment (tid info : Nat) (m : Shm) :
    (learnEra tid info m).segment = m.segment := by
  unfold learnEra
  split <;> rfl

@[simp] theorem learnEra_sas (tid info : Nat) (m : Shm) : (learnEra tid info m).sas = m.sas := by
  unfold learnEra
  split <;> rfl

theorem linkReference_word (tid ref refed : Nat) (m : Shm) : (linkReference tid ref refed m).word =
    Function.update (Function.update m.word (refed + 8)
      (RefCall.stamp ⟨.linkRef, ref, refed⟩ tid (m.refInfo refed) (m.era tid tid))) ref refed := by
  unfold linkReference commitRef
  simp only [Shm.storeEra_word, Shm.store_word, Shm.storeRedo_word, learnEra_word, RefCall.target]

theorem unlinkStores_word (tid ref refed : Nat) (m : Shm) : (unlinkStores tid ref refed m).word =
    Function.update (Function.update m.word (refed + 8)
      (RefCall.stamp ⟨.unlinkRef, ref, refed⟩ tid (m.refInfo refed)
        ((learnEra tid (m.refInfo refed) m).era tid tid))) ref 0 := by
  unfold unlinkStores commitRef
  simp only [Shm.storeEra_word, Shm.store_word, Shm.storeRedo_word, learnEra_word, RefCall.target]

theorem unlinkStores_segment (tid ref refed : Nat) (m : Shm) :
    (unlinkStores tid ref refed m).segment = m.segment :=
  learnEra_segment ..

theorem unlinkStores_sas (tid ref refed : Nat) (m : Shm) :
    (unlinkStores tid ref refed m).sas = m.sas :=
  learnEra_sas ..

end CxlShm
