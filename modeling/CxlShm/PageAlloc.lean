import CxlShm.PageQueue
import CxlShm.Recovery

/-! # PageAlloc — pages and segments of a client

`segment.cpp` and the page half of `page.cpp`: a page comes off the queue of free pages, which a new
segment fills, is cut into blocks and put on its bin; a released page goes back, and the segment with it
once none of its pages is in use. `none` stands for a call that does not return: a store through NULL,
a division by zero, a loop that waits for ever, or the fuel running out.
-/

namespace CxlShm

/-! ## §1 — `segment.cpp` -/

def Shm.setSegmentUsed (m : Shm) (i v : Nat) : Shm :=
  { m with segment := Function.update m.segment i { m.segment i with used := v } }

/-- The vector entry and header of a claimed segment, before its pages are queued. -/
def claimSegment (tid i : Nat) (m : Shm) : Shm :=
  { m with
    sas := Function.update m.sas i ⟨tid, 0, .normal, 0⟩
    segment := Function.update m.segment i { m.segment i with threadId := tid, used := 0 } }

/-- Pages `PAGES_PER_SEGMENT - 1` down to `j` are queued. -/
def pushPages (tid i : Nat) (pages : List Nat) (m : Shm) : Shm :=
  pages.foldr (fun j m => cxlPageQueuePush tid .freePage (i, j) m) m

/-- Page 0 holds the header. -/
@[irreducible] def segmentPages : List Nat := List.range' 1 (pagesPerSegment - 1)

/-- The search of `cxl_segment_alloc` from entry `i` on: the first one without an owner, unless its
segment would end past `size`. `rounds` bounds the search; a segment is longer than one byte. -/
def findUnowned (size : Nat) (m : Shm) : Nat → Nat → Option Nat
  | 0, _ => none
  | rounds + 1, i =>
    if segmentsAreaStart + (i + 1) * segmentSize > size then none
    else if (m.sas i).threadId = 0 then some i
    else findUnowned size m rounds (i + 1)

/-- `cxl_segment_alloc()`. -/
def cxlSegmentAlloc (tid size : Nat) (m : Shm) : Option (Nat × Shm) :=
  (findUnowned size m size 0).map fun i => (i, pushPages tid i segmentPages (claimSegment tid i m))

/-- `cxl_segment_page_alloc`; the NULL it returns when there is no segment left is `some (none, _)`. -/
def cxlSegmentPageAlloc (tid size : Nat) : Nat → Shm → Option (PagePtr × Shm)
  | 0, _ => none
  | fuel + 1, m =>
    match (m.queue tid .freePage).first with
    | none =>
      match cxlSegmentAlloc tid size m with
      | none => some (none, m)
      | some (_, m') => cxlSegmentPageAlloc tid size fuel m'
    | some page =>
      let m' := cxlPageQueueRemove tid .freePage page m
      some (some page, m'.setSegmentUsed page.1 (((m'.segment page.1).used + 1) % 2 ^ 32))

/-- `cxl_segment_free` up to the `memset` of the header. -/
def cxlSegmentClear (tid i : Nat) (m : Shm) : Shm :=
  let m' := segmentPages.foldl (fun m j => cxlPageQueueRemove tid .freePage (i, j) m) m
  { m' with segment := Function.update m'.segment i Segment.zero }

/-- `cxl_segment_free(segment)`: the last loop waits for the entry to hold the client's id. -/
def cxlSegmentFree (tid i : Nat) (m : Shm) : Option Shm :=
  let m' := cxlSegmentClear tid i m
  if (m'.sas i).threadId = tid then
    some { m' with sas := Function.update m'.sas i { m'.sas i with threadId := 0 } }
  else none

/-! ## §2 — `page.cpp` -/

/-- One round of the loop of `cxl_page_init`: `sizeof(block_size)` or `sizeof(CXLObj)` bytes are wiped,
then the link is set. -/
def initBlock (special : Bool) (start blockSize : Nat) (m : Shm) (i : Nat) : Shm :=
  let block := blockAt start blockSize i
  (m.zeroWords block (if special then 1 else sizeofCxlObj / 8)).store block
    (blockAt start blockSize (i + 1))

/-- `cxl_page_init(special, page, block_size)`, for a block size up to `PAGE_SIZE`. -/
def cxlPageInit (special : Bool) (blockSize : Nat) : PagePtr → Shm → Option Shm
  | none, _ => none
  | some pg, m =>
    let m₁ := m.setPage pg
      { m.page pg with
        localFree := 0, blockSize := blockSize % 2 ^ 32, used := 0, next := none, prev := none
        isMsgQueuePage := false }
    if blockSize = 0 then none
    else
      let start := pageStart pg
      let n := pageSize / blockSize
      let m₂ := (List.range (n - 1)).foldl (initBlock special start blockSize) m₁
      let m₃ := m₂.store (blockAt start blockSize (n - 1)) (m₂.page pg).free
      some (m₃.setPage pg { m₃.page pg with free := start })

/-- `pq == &tls->pages[0] || pq == &tls->pages[1]`. -/
def QueuePtr.special (q : QueuePtr) : Bool := decide (q = .bin 0 ∨ q = .bin 1)

/-- `cxl_page_fresh(pq)`. The page is not tested: without one `cxl_page_init` gets NULL. -/
def cxlPageFresh (fuel tid size : Nat) (pq : QueuePtr) (m : Shm) : Option ((Nat × Nat) × Shm) := do
  let (page, m₁) ← cxlSegmentPageAlloc tid size fuel m
  let m₂ ← cxlPageInit pq.special (m₁.queue tid pq).blockSize page m₁
  let pg ← page
  let m₃ := if pq = .bin 1 then m₂.setPage pg { m₂.page pg with isMsgQueuePage := true } else m₂
  some (pg, cxlPageQueuePush tid pq pg m₃)

/-- `cxl_page_free` up to the decrement of the segment's counter. -/
def cxlPageRelease (tid : Nat) (pq : QueuePtr) (pg : Nat × Nat) (m : Shm) : Shm :=
  let m₁ := cxlPageQueueRemove tid pq pg m
  let m₂ := m₁.setPage pg Page.zero
  let m₃ := cxlPageQueuePush tid .freePage pg m₂
  m₃.setSegmentUsed pg.1 (((m₃.segment pg.1).used + (2 ^ 32 - 1)) % 2 ^ 32)

/-- `cxl_page_free(page, pq)`. -/
def cxlPageFree (tid : Nat) (pq : QueuePtr) (pg : Nat × Nat) (m : Shm) : Option Shm :=
  let m' := cxlPageRelease tid pq pg m
  if (m'.segment pg.1).used = 0 then cxlSegmentFree tid pg.1 m' else some m'

end CxlShm
