import CxlShm.Block
import CxlShm.Redo
import CxlShm.Release

/-! # Recovery — `monitor::recovery_garbage_collection`

What the monitor does for a crashed client once its log is replayed: release its RootRefs, its queue
entries, look through its object pages, give its segments back and free its slot. Every function runs
on behalf of the crashed client `tid`.

A list or ring that never ends is the fuel running out; a page of block size 0 is the division by
zero it is in the source.
-/

namespace CxlShm

open Loop

/-! ## §1 — freeing a block and unlinking a slot -/

/-- `recovery_cxl_free(special, b)`. A block of the client's own segment is wiped and left where it
is; another goes to the `thread_free` list of its segment. -/
def recoveryCxlFree (special : Bool) (tid b : Nat) (m : Shm) : Shm :=
  let m' := m.zeroWords b (wipedWords special (m.page (pageOf b)).blockSize)
  if (m.segment (segmentIdx b)).threadId ≠ tid then m'.pushThreadFree (segmentIdx b) b else m'

/-- `recovery_unlink_reference(_ref, _refed)`: no log line, and the own era is read before the
era-matrix cell is written. -/
def recoveryUnlinkReference (tid ref refed : Nat) (m : Shm) : Shm :=
  let info := m.refInfo refed
  let curEra := m.era tid tid
  let m₁ := if getLenumFromInfo info > m.era tid (getLcidFromInfo info) then
      m.storeEra tid (getLcidFromInfo info) (getLenumFromInfo info)
    else m
  let m₂ := m₁.store (refed + 8)
    (packRefInfo tid ((getRefCntFromInfo info + (2 ^ 64 - 1)) % 2 ^ 64) curEra)
  let m₃ := m₂.store ref 0
  let m₄ := m₃.storeEra tid tid ((m₃.era tid tid + 1) % 2 ^ 32)
  if getRefCntFromInfo info = 1 then recoveryCxlFree false tid refed m₄ else m₄

/-- `recovery_test_free(_ref)`. -/
def recoveryTestFree (tid : Nat) : Nat → Nat → Shm → Option Shm :=
  releaseWith true (recoveryUnlinkReference tid)

/-! ## §2 — the pages of RootRefs -/

/-- One block of a RootRef page that starts at `start` and whose last block is `last`. A `cxl_malloc`
cut short leaves a RootRef that points to the head of a free list, or into its own page when the
block is free and the word is a free-list link. `in_use` is a `bool`, so any byte but 0 equals 1. -/
def recoveryRootRef (tid fuel start last : Nat) (m : Shm) (b : Nat) : Option Shm :=
  if m.inUse b ≠ 0 then
    let released :=
      if m.word b ≠ 0 ∧ m.word b ≠ (m.page (pageOf (m.word b))).free ∧
          ¬ (start ≤ m.word b ∧ m.word b ≤ last) then
        recoveryTestFree tid fuel b m
      else some m
    released.map fun m' => recoveryCxlFree true tid b (m'.setInUse b 0)
  else some m

/-- The offsets of the blocks of a page. -/
def pageBlocks (pg : Nat × Nat) (blockSize : Nat) : List Nat :=
  (List.range (pageSize / blockSize)).map (blockAt (pageStart pg) blockSize)

/-- A page of the queue of RootRef pages; `recovery_cxl_page_free` is a `memset` of its metadata. -/
def recoveryRootRefPage (tid fuel : Nat) (pg : Nat × Nat) (m : Shm) : Option Shm :=
  let bs := (m.page pg).blockSize
  if bs = 0 then none
  else ((pageBlocks pg bs).foldlM (recoveryRootRef tid fuel (pageStart pg)
    (blockAt (pageStart pg) bs (pageSize / bs - 1))) m).map fun m' => m'.setPage pg Page.zero

def recoveryRootRefPages (tid fuel : Nat) (m : Shm) : Option Shm :=
  walk (fun m pg => (m.page pg).next) (recoveryRootRefPage tid fuel) fuel ((m.tls tid).pages 0).first m

/-! ## §3 — the message queues -/

/-- `get_data_at_addr` of a link, `NULL` for 0. -/
def linkPtr (offset : Nat) : Option Nat := if offset = 0 then none else some offset

def releaseEntry (tid fuel q i : Nat) (m : Shm) : Option Shm :=
  if m.word (bufferSlot q i) ≠ 0 then recoveryTestFree tid fuel (bufferSlot q i) m else some m

/-- `while(i != stop) { release buffer[i]; i = (i + 1) % MESSAGE_BUFFER_SIZE; }`. -/
def scanRing (tid fuel q : Nat) (stop : Shm → Nat) (i : Nat) (m : Shm) : Option (Nat × Shm) :=
  whileM (fun p : Nat × Shm => decide (p.1 ≠ stop p.2))
    (fun p => (releaseEntry tid fuel q p.1 p.2).map fun m' => ((p.1 + 1) % messageBufferSize, m'))
    fuel (i, m)

/-- A queue the client sends on: the entries from `end` to `start` are not published (a `do … while`,
so an empty ring is gone round once); with no receiver attached the published ones go too. -/
def recoverySenderQueue (tid fuel q : Nat) (m : Shm) : Option Shm := do
  let i := m.queueEnd q
  let m₁ ← releaseEntry tid fuel q i m
  let (i₂, m₂) ← scanRing tid fuel q (fun m => m.queueStart q) ((i + 1) % messageBufferSize) m₁
  let m₃ ← if m₂.receiverId q = 0 then (scanRing tid fuel q (fun m => m.queueEnd q) i₂ m₂).map Prod.snd
    else some m₂
  some ((m₃.setSenderId q 0).setSegmentState (segmentIdx q) .abandon)

def recoverySenderQueues (tid fuel : Nat) (m : Shm) : Option Shm :=
  walk (fun m q => linkPtr (m.senderNext q)) (recoverySenderQueue tid fuel) fuel
    (linkPtr (m.tls tid).senderQueue) m

/-- A queue the client receives on: the published entries are released. -/
def recoveryReceiverQueue (tid fuel q : Nat) (m : Shm) : Option Shm :=
  (scanRing tid fuel q (fun m => m.queueEnd q) (m.queueStart q) m).map fun p =>
    p.2.setReceiverId q 0

def recoveryReceiverQueues (tid fuel : Nat) (m : Shm) : Option Shm :=
  walk (fun m q => linkPtr (m.receiverNext q)) (recoveryReceiverQueue tid fuel) fuel
    (linkPtr (m.tls tid).receiverQueue) m

/-! ## §4 — object pages and segments -/

/-- Some block of the page has a positive count. -/
def pageAlive (pg : Nat × Nat) (blockSize : Nat) (m : Shm) : Bool :=
  (pageBlocks pg blockSize).any fun b => decide (m.refCnt b > 0)

/-- An object page: the stamp at the head of the free list is cleared, then a live block anywhere
marks the segment, else the page is freed. -/
def recoveryObjPage (pg : Nat × Nat) (m : Shm) : Option Shm :=
  let m' := if (m.page pg).free ≠ 0 then m.store ((m.page pg).free + 8) 0 else m
  let bs := (m.page pg).blockSize
  if bs = 0 then none
  else if pageAlive pg bs m' then some (m'.setSegmentState pg.1 .abandon)
  else some (m'.setPage pg Page.zero)

def recoveryObjPages (tid fuel : Nat) (m : Shm) : Option Shm :=
  (List.range' 2 (cxlBinSize - 2)).foldlM (fun m i =>
    walk (fun m pg => (m.page pg).next) recoveryObjPage fuel ((m.tls tid).pages i).first m) m

/-- `recovery_cxl_segment_free`. -/
def recoveryCxlSegmentFree (i : Nat) (m : Shm) : Shm :=
  { m with
    segment := Function.update m.segment i Segment.zero
    sas := Function.update m.sas i { m.sas i with threadId := 0 } }

/-- Every segment of the client that is not marked goes back. -/
def recoverySegments (tid : Nat) (m : Shm) : Shm :=
  (List.range maxSegmentNum).foldl (fun m i =>
    if (m.sas i).threadId = tid ∧ (m.sas i).state ≠ .abandon then recoveryCxlSegmentFree i m else m) m

/-! ## §5 — the whole collection -/

/-- The queues of the slot are reset and its id is set to 0 (the loop of the source waits for `id`). -/
def recoveryTls (tid id : Nat) (m : Shm) : Option Shm :=
  if (m.tls tid).packedMachineProcessId = id then
    some (m.setTls tid ((m.tls tid).resetQueues.setId 0))
  else none

/-- `recovery_garbage_collection(offset, packed_machine_process_id)` for the slot of client `tid`. -/
def recoveryGarbageCollection (fuel tid id : Nat) (m : Shm) : Option Shm := do
  let m₁ ← recoveryRootRefPages tid fuel m
  let m₂ ← recoverySenderQueues tid fuel m₁
  let m₃ ← recoveryReceiverQueues tid fuel m₂
  let m₄ ← recoveryObjPages tid fuel m₃
  recoveryTls tid id (recoverySegments tid m₄)

end CxlShm
