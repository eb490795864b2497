import CxlShm.PageAlloc

/-! # Alloc — `alloc.cpp` and the blocks a client hands out

The slow path of `page.cpp` (collect what others have freed, look for a page with a free block, take a
fresh one), the conversion of a block into a RootRef, an object or a queue, and `cxl_free`. Each call is
one action here. `none` stands for a call that does not return, as in `PageAlloc`.
-/

namespace CxlShm

open Loop

/-! ## §1 — the slow path -/

/-- One block of a collected list goes to the `local_free` list of its page. -/
def collectBlock (b : Nat) (m : Shm) : Shm :=
  let p := pageOf b
  let m' := m.store b (m.page p).localFree
  m'.setPage p
    { m'.page p with localFree := b, used := ((m'.page p).used + (2 ^ 32 - 1)) % 2 ^ 32 }

/-- The exchange of the `thread_free` list of segment `i` for an empty one. -/
def takeThreadFree (i : Nat) (m : Shm) : Shm :=
  { m with sas := Function.update m.sas i { m.sas i with threadFree := 0 } }

/-- `cxl_thread_free_collect(page)`. -/
def cxlThreadFreeCollect (fuel : Nat) (page : Nat × Nat) (m : Shm) : Option Shm :=
  let head := (m.sas page.1).threadFree
  if head = 0 then some m
  else walk (fun m b => linkPtr (m.word b)) (fun b m => some (collectBlock b m)) fuel (linkPtr head)
    (takeThreadFree page.1 m)

/-- The end of `cxl_page_free_collect`: an empty free list takes over the local one. -/
def refillFree (page : Nat × Nat) (m : Shm) : Shm :=
  if (m.page page).localFree ≠ 0 ∧ (m.page page).free = 0 then
    m.setPage page { m.page page with free := (m.page page).localFree, localFree := 0 }
  else m

/-- `cxl_page_free_collect(page)`. -/
def cxlPageFreeCollect (fuel : Nat) (page : Nat × Nat) (m : Shm) : Option Shm :=
  (cxlThreadFreeCollect fuel page m).map (refillFree page)

/-- The loop of `cxl_page_queue_find_free_ex`; the link is read before the page is collected. -/
def findFree (fuel : Nat) : Nat → PagePtr → Shm → Option (PagePtr × Shm)
  | 0, _, _ => none
  | _ + 1, none, m => some (none, m)
  | rounds + 1, some page, m =>
    let next := (m.page page).next
    (cxlPageFreeCollect fuel page m).bind fun m' =>
      if (m'.page page).free ≠ 0 then some (some page, m') else findFree fuel rounds next m'

/-- `cxl_page_queue_find_free_ex(pq)`. -/
def cxlPageQueueFindFreeEx (fuel tid size : Nat) (pq : QueuePtr) (m : Shm) :
    Option ((Nat × Nat) × Shm) := do
  let (page, m') ← findFree fuel fuel (m.queue tid pq).first m
  match page with
  | some pg => some (pg, m')
  | none => cxlPageFresh fuel tid size pq m'

/-- `memset(tls->redo, 0, sizeof(tls->redo))`. -/
def Shm.clearRedo (m : Shm) (tid : Nat) : Shm :=
  m.setTls tid { m.tls tid with redo := fun _ => RedoLog.zero }

/-- `cxl_malloc_generic(pq, page)`: the block and the page it is on. `find_free_ex` does not return
NULL, so neither does this function. -/
def cxlMallocGeneric (fuel tid size : Nat) (pq : QueuePtr) (m : Shm) :
    Option (Nat × (Nat × Nat) × Shm) := do
  let (pg, m') ← cxlPageQueueFindFreeEx fuel tid size pq (m.clearRedo tid)
  some ((m'.page pg).free, pg, m')

/-! ## §2 — the head of a free list -/

/-- `cxl_find_page(pq)`: the first page of the queue if it has a free block. -/
def cxlFindPage (tid : Nat) (pq : QueuePtr) (m : Shm) : PagePtr :=
  (m.queue tid pq).first.filter fun pg => decide ((m.page pg).free ≠ 0)

/-- `cxl_page_malloc(pq, page)`. -/
def cxlPageMalloc (fuel tid size : Nat) (pq : QueuePtr) (page : PagePtr) (m : Shm) :
    Option (Nat × (Nat × Nat) × Shm) :=
  match page with
  | none => cxlMallocGeneric fuel tid size pq m
  | some pg => some ((m.page pg).free, pg, m)

/-- `page->used ++; page->free = b->next`. -/
def popBlock (b : Nat) (pg : Nat × Nat) (m : Shm) : Shm :=
  m.setPage pg { m.page pg with used := ((m.page pg).used + 1) % 2 ^ 32, free := m.word b }

/-- `RootRef::ref_cnt`, bits 16 to 31 of the second word. -/
def Shm.rootRefCnt (m : Shm) (b : Nat) : Nat := m.word (b + 8) / 2 ^ 16 % 2 ^ 16

def Shm.setRootRefCnt (m : Shm) (b v : Nat) : Shm :=
  m.store (b + 8) (m.word (b + 8) / 2 ^ 32 * 2 ^ 32 + v * 2 ^ 16 + m.word (b + 8) % 2 ^ 16)

/-- `block_to_tbr(b, page)`. -/
def blockToTbr (b : Nat) (pg : Nat × Nat) (m : Shm) : Shm :=
  (((popBlock b pg m).store b 0).setInUse b 1).setRootRefCnt b 0

/-- `link_block_to_tbr(b, tbr)`. -/
def linkBlockToTbr (b tbr : Nat) (m : Shm) : Shm :=
  let m' := m.store tbr b
  m'.setRootRefCnt tbr ((m'.rootRefCnt tbr + 1) % 2 ^ 16)

/-- `block_to_cxlobj(b, page, embedded_ref_cnt)`: the stamp is made with the era before it is
incremented. -/
def blockToCxlobj (tid b : Nat) (pg : Nat × Nat) (embeddedRefCnt : Nat) (m : Shm) : Shm :=
  let m₁ := popBlock b pg m
  let info := packRefInfo tid 1 (m₁.era tid tid)
  let m₂ := m₁.storeEra tid tid ((m₁.era tid tid + 1) % 2 ^ 32)
  (m₂.store (b + 8) info).store (b + 16) embeddedRefCnt

/-- `block_to_msg_queue(b, sender_id, receiver_id)`: the second id is not used. -/
def blockToMsgQueue (b senderId : Nat) (m : Shm) : Shm :=
  let m₁ := ((popBlock b (pageOf b) m).setSenderId b senderId).setReceiverId b 0
  ((m₁.store b 0).store (b + 8) 0).zeroWords (b + 24) (2 + messageBufferSize)

/-! ## §3 — `alloc.cpp` -/

/-- The bin `cxl_page_queue(special, size)` points to; from `CXL_BIN_SIZE` on it is past the array. -/
def cxlPageQueue (special : Bool) (size : Nat) : Nat :=
  if special ∧ size = 16 then 0
  else if special ∧ size = sizeofMessageQueue then 1
  else (size + (2 ^ 64 - 1)) % 2 ^ 64 / 16 + 2

/-- `CXLRef_s` without its pointer to the mapping. -/
structure CxlRef where
  tbr : Nat
  data : Nat
  deriving DecidableEq, Repr

/-- `thread_base_ref_alloc()`. -/
def threadBaseRefAlloc (fuel tid size : Nat) (m : Shm) : Option (Nat × Shm) := do
  let pq := QueuePtr.bin (cxlPageQueue true 16)
  let (block, pg, m') ← cxlPageMalloc fuel tid size pq (cxlFindPage tid pq m) m
  some (block, blockToTbr block pg m')

/-- `cxl_ref_alloc(ref, block_size, embedded_ref_cnt)`. A queue past the array is not followed. -/
def cxlRefAlloc (fuel tid size : Nat) (ref blockSize embeddedRefCnt : Nat) (m : Shm) :
    Option (CxlRef × Shm) := do
  let pq := QueuePtr.bin (cxlPageQueue false blockSize)
  if cxlPageQueue false blockSize < cxlBinSize then
    let (block, pg, m') ← cxlPageMalloc fuel tid size pq (cxlFindPage tid pq m) m
    some (⟨ref, block + sizeofCxlObj⟩, blockToCxlobj tid block pg embeddedRefCnt (linkBlockToTbr block ref m'))
  else none

/-- `cxl_malloc(data_size, embedded_ref_cnt)`. -/
def cxlMalloc (fuel tid size : Nat) (dataSize embeddedRefCnt : Nat) (m : Shm) : Option (CxlRef × Shm) := do
  let (tbr, m') ← threadBaseRefAlloc fuel tid size m
  cxlRefAlloc fuel tid size tbr ((dataSize + sizeofCxlObj) % 2 ^ 64) embeddedRefCnt m'

/-- `msg_queue_alloc(sender_id, receiver_id)`. -/
def msgQueueAlloc (fuel tid size : Nat) (senderId : Nat) (m : Shm) : Option (Nat × Shm) := do
  let pq := QueuePtr.bin (cxlPageQueue true sizeofMessageQueue)
  let (block, _, m') ← cxlPageMalloc fuel tid size pq (cxlFindPage tid pq m) m
  some (block, blockToMsgQueue block senderId m')

/-- The owner's branch of `cxl_free`, after the header has been wiped. -/
def freeLocal (tid : Nat) (special : Bool) (b : Nat) (m : Shm) : Option Shm :=
  let m' := collectBlock b m
  if (m'.page (pageOf b)).used = 0 then
    cxlPageFree tid (.bin (cxlPageQueue special (m'.page (pageOf b)).blockSize)) (pageOf b) m'
  else some m'

/-- `cxl_free(special, b)`. -/
def cxlFree (tid : Nat) (special : Bool) (b : Nat) (m : Shm) : Option Shm :=
  let m' := m.zeroWords b (wipedWords special (m.page (pageOf b)).blockSize)
  if (m'.segment (segmentIdx b)).threadId = tid then freeLocal tid special b m'
  else if (m'.sas (segmentIdx b)).state = .potentialLeaking then some m'
  else some (m'.pushThreadFree (segmentIdx b) b)

end CxlShm
