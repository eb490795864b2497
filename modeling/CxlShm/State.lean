import CxlShm.Layout
import Mathlib.Logic.Function.Basic

/-! # State — the shared area

One record for the mapped area. Metadata with a fixed place (era matrix, thread-local states,
segment allocation vector, segment headers) are typed fields; the words of the hash table and of
the blocks stay raw 64-bit words under their byte offset, because RootRefs, objects, queues and
free-list links overlay one another there.

Offsets of page metadata are the pair (segment, page); offset 0 is `none`.
-/

namespace CxlShm

/-! ## §1 — the records of `cxlmalloc-types.h` -/

/-- `enum redo_func_id`. -/
inductive RedoFuncId
  | linkRef
  | unlinkRef
  deriving DecidableEq, Repr

/-- `struct redo_log`; `func_id` 0 (a cleared line) is `none`. -/
structure RedoLog where
  funcId : Option RedoFuncId
  savedRefCnt : Nat
  curEra : Nat
  ref : Nat
  refed : Nat
  oldRefed : Nat
  deriving DecidableEq, Repr

/-- A line after `memset(tls->redo, 0, sizeof(tls->redo))`. -/
def RedoLog.zero : RedoLog := ⟨none, 0, 0, 0, 0, 0⟩

/-- The offset of a page's metadata: segment and page index, `none` for offset 0. -/
abbrev PagePtr := Option (Nat × Nat)

/-- `cxl_page_t`. -/
structure Page where
  free : Nat
  localFree : Nat
  blockSize : Nat
  used : Nat
  next : PagePtr
  prev : PagePtr
  isMsgQueuePage : Bool
  deriving DecidableEq, Repr

/-- A page's metadata after `memset(page, 0, sizeof(cxl_page_t))`. -/
def Page.zero : Page := ⟨0, 0, 0, 0, none, none, false⟩

/-- `cxl_segment_t`: the header at the start of a segment. -/
structure Segment where
  threadId : Nat
  used : Nat
  metaPage : Nat → Page

/-- A header after `memset(segment, 0, sizeof(cxl_segment_t))`. -/
def Segment.zero : Segment := ⟨0, 0, fun _ => Page.zero⟩

/-- `cxl_page_queue_t`. -/
structure PageQueue where
  first : PagePtr
  last : PagePtr
  blockSize : Nat
  deriving DecidableEq, Repr

/-- `cxl_thread_local_state_t`. -/
structure Tls where
  redo : Nat → RedoLog
  packedMachineProcessId : Nat
  pages : Nat → PageQueue
  freePage : PageQueue
  senderQueue : Nat
  receiverQueue : Nat

def Tls.setRedo (t : Tls) (k : Nat) (l : RedoLog) : Tls :=
  { t with redo := Function.update t.redo k l }

def Tls.setId (t : Tls) (id : Nat) : Tls := { t with packedMachineProcessId := id }

/-- The stores of `thread_init`, and of the end of `recovery_garbage_collection`, to the queues. -/
def Tls.resetQueues (t : Tls) : Tls :=
  { t with
    pages := fun i =>
      if i = 0 then ⟨none, none, sizeofRootRef⟩
      else if i = 1 then ⟨none, none, 16 * ((sizeofMessageQueue - 1) / 16) + 16⟩
      else ⟨none, none, 16 * (i - 1)⟩
    freePage := ⟨none, none, 0⟩
    senderQueue := 0
    receiverQueue := 0 }

/-- `enum segment_state`. -/
inductive SegmentState
  | normal
  | abandon
  | potentialLeaking
  deriving DecidableEq, Repr

/-- `cxl_segment_allocation_state_t`, the pair `info` flattened. -/
structure SegmentAllocationState where
  threadId : Nat
  ver : Nat
  state : SegmentState
  threadFree : Nat
  deriving DecidableEq, Repr

/-- The shared area. `eraCell` is the word at that distance from `era_start`, so negative indices
are the words below the matrix; `tls` is indexed by the thread id of its slot. -/
structure Shm where
  eraCell : Int → Nat
  tls : Nat → Tls
  sas : Nat → SegmentAllocationState
  segment : Nat → Segment
  word : Nat → Nat

/-- A freshly mapped area. -/
def Shm.zero : Shm where
  eraCell := fun _ => 0
  tls := fun _ => ⟨fun _ => RedoLog.zero, 0, fun _ => ⟨none, none, 0⟩, ⟨none, none, 0⟩, 0, 0⟩
  sas := fun _ => ⟨0, 0, .normal, 0⟩
  segment := fun _ => Segment.zero
  word := fun _ => 0

namespace Shm

/-! ## §2 — words and object headers -/

def store (m : Shm) (a v : Nat) : Shm := { m with word := Function.update m.word a v }

/-- `CXLObj::ref_info` of the object at `o`. -/
def refInfo (m : Shm) (o : Nat) : Nat := m.word (o + 8)

/-- The count field of the object at `o`. -/
def refCnt (m : Shm) (o : Nat) : Nat := getRefCntFromInfo (m.refInfo o)

@[simp] theorem store_eraCell (m : Shm) (a v : Nat) : (m.store a v).eraCell = m.eraCell := rfl
@[simp] theorem store_tls (m : Shm) (a v : Nat) : (m.store a v).tls = m.tls := rfl
@[simp] theorem store_word (m : Shm) (a v : Nat) :
    (m.store a v).word = Function.update m.word a v := rfl

/-! ## §3 — the era matrix -/

/-- `era(x, y)` counts ids from 1: the word at `(x-1)*MAX_THREAD + (y-1)`. -/
def eraIdx (x y : Nat) : Int := ((x : Int) - 1) * maxThread + ((y : Int) - 1)

def era (m : Shm) (x y : Nat) : Nat := m.eraCell (eraIdx x y)

def storeEra (m : Shm) (x y v : Nat) : Shm :=
  { m with eraCell := Function.update m.eraCell (eraIdx x y) v }

@[simp] theorem storeEra_word (m : Shm) (x y v : Nat) : (m.storeEra x y v).word = m.word := rfl
@[simp] theorem storeEra_tls (m : Shm) (x y v : Nat) : (m.storeEra x y v).tls = m.tls := rfl
@[simp] theorem storeEra_refInfo (m : Shm) (x y v o : Nat) :
    (m.storeEra x y v).refInfo o = m.refInfo o := rfl
@[simp] theorem store_era (m : Shm) (a v x y : Nat) : (m.store a v).era x y = m.era x y := rfl

@[simp] theorem era_storeEra_self (m : Shm) (x y v : Nat) : (m.storeEra x y v).era x y = v :=
  Function.update_self ..

theorem era_storeEra_of_ne (m : Shm) {x y x' y' : Nat} (v : Nat) (h : eraIdx x' y' ≠ eraIdx x y) :
    (m.storeEra x y v).era x' y' = m.era x' y' :=
  Function.update_of_ne h ..

/-! ## §4 — the thread-local state and the redo log of a client -/

def setTls (m : Shm) (tid : Nat) (t : Tls) : Shm :=
  { m with tls := Function.update m.tls tid t }

def redo (m : Shm) (tid k : Nat) : RedoLog := (m.tls tid).redo k

def storeRedo (m : Shm) (tid k : Nat) (l : RedoLog) : Shm :=
  { m with tls := Function.update m.tls tid ((m.tls tid).setRedo k l) }

@[simp] theorem storeRedo_word (m : Shm) (tid k : Nat) (l : RedoLog) :
    (m.storeRedo tid k l).word = m.word := rfl
@[simp] theorem storeRedo_eraCell (m : Shm) (tid k : Nat) (l : RedoLog) :
    (m.storeRedo tid k l).eraCell = m.eraCell := rfl
@[simp] theorem storeRedo_era (m : Shm) (tid k : Nat) (l : RedoLog) (x y : Nat) :
    (m.storeRedo tid k l).era x y = m.era x y := rfl
@[simp] theorem storeRedo_refInfo (m : Shm) (tid k : Nat) (l : RedoLog) (o : Nat) :
    (m.storeRedo tid k l).refInfo o = m.refInfo o := rfl
@[simp] theorem store_redo (m : Shm) (a v tid k : Nat) : (m.store a v).redo tid k = m.redo tid k :=
  rfl
@[simp] theorem storeEra_redo (m : Shm) (x y v tid k : Nat) :
    (m.storeEra x y v).redo tid k = m.redo tid k := rfl

@[simp] theorem redo_storeRedo_self (m : Shm) (tid k : Nat) (l : RedoLog) :
    (m.storeRedo tid k l).redo tid k = l := by
  simp [redo, storeRedo, Tls.setRedo]

theorem redo_storeRedo_of_ne (m : Shm) {tid k tid' k' : Nat} (l : RedoLog)
    (h : tid' ≠ tid ∨ k' ≠ k) : (m.storeRedo tid k l).redo tid' k' = m.redo tid' k' := by
  by_cases ht : tid' = tid
  · subst ht
    have hk : k' ≠ k := h.resolve_left fun hn => hn rfl
    simp [redo, storeRedo, Tls.setRedo, Function.update_of_ne hk]
  · simp [redo, storeRedo, Function.update_of_ne ht]

end Shm

end CxlShm
