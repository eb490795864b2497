import CxlShm.Pool
import CxlShm.Cascade

/-! # OutOfSegments — requests that cannot be served

`cxl_segment_page_alloc` says that there is no page by returning NULL, and `cxl_page_fresh` hands the NULL to
`cxl_page_init`, which stores through it. No caller gets to see an empty block: a call that needs one does
not return.
-/

namespace CxlShm

open Transition Loop

/-! ## §1 — the requests -/

/-- `get_ref(offset)`. -/
def getRef (fuel tid size offset : Nat) (m : Shm) : Option (CxlRef × Shm) := do
  let (tbr, m₁) ← threadBaseRefAlloc fuel tid size m
  let m₂ := linkReference tid tbr offset m₁
  let m₃ := m₂.setRootRefCnt tbr ((m₂.rootRefCnt tbr + 1) % 2 ^ 16)
  some (⟨tbr, m₃.word tbr + sizeofCxlObj⟩, m₃)

/-- The start of `cxl_unwrap`: the first receiver puts the queue on its list. -/
def attachReceiver (tid q : Nat) (m : Shm) : Shm :=
  if m.receiverId q = 0 then
    let m₁ := m.store (q + 32) (m.tls tid).receiverQueue
    (m₁.setTls tid { m₁.tls tid with receiverQueue := q }).setReceiverId q tid
  else m

/-- `q->start == q->end || q->buffer[q->start] == 0`. -/
def RingEmpty (m : Shm) (q : Nat) : Prop :=
  m.queueStart q = m.queueEnd q ∨ m.word (bufferSlot q (m.queueStart q)) = 0

instance (m : Shm) (q : Nat) : Decidable (RingEmpty m q) := inferInstanceAs (Decidable (_ ∨ _))

/-- `cxl_unwrap(offset)`. -/
def cxlUnwrap (fuel tid size q : Nat) (m : Shm) : Option (CxlRef × Shm) :=
  let m₁ := attachReceiver tid q m
  if RingEmpty m₁ q then some (⟨0, 0⟩, m₁)
  else do
    let (tbr, m₂) ← threadBaseRefAlloc fuel tid size m₁
    let m₃ := linkReference tid tbr (m₂.word (bufferSlot q (m₂.queueStart q))) m₂
    let m₄ := m₃.setRootRefCnt tbr ((m₃.rootRefCnt tbr + 1) % 2 ^ 16)
    let slot := bufferSlot q (m₄.queueStart q)
    let m₅ ← unlinkReference tid slot (m₄.word slot) m₄
    let m₆ := m₅.store q ((m₅.queueStart q + 1) % messageBufferSize)
    some (⟨tbr, m₆.word tbr + sizeofCxlObj⟩, m₆)

/-- `create_msg_queue(dst_id)`: the queue goes on the sender's list without a test. -/
def createMsgQueue (fuel tid size : Nat) (m : Shm) : Option (Nat × Shm) := do
  let (q, m₁) ← msgQueueAlloc fuel tid size tid m
  let m₂ := m₁.store (q + 24) (m₁.tls tid).senderQueue
  some (q, m₂.setTls tid { m₂.tls tid with senderQueue := q })

/-- A call that may need blocks. -/
inductive Request
  | malloc (dataSize embeddedRefCnt : Nat)
  | getRef (offset : Nat)
  | unwrap (q : Nat)
  | createMsgQueue (dstId : Nat)
  deriving DecidableEq, Repr

/-- A handle, or the offset of a queue. -/
inductive Answer
  | ref (r : CxlRef)
  | offset (q : Nat)
  deriving DecidableEq, Repr

/-- The result that says that there was no memory. -/
def Answer.Empty : Answer → Prop
  | .ref r => r.tbr = 0 ∧ r.data = 0
  | .offset q => q = 0

def Request.call (fuel tid size : Nat) : Request → Shm → Option (Answer × Shm)
  | .malloc dataSize n, m => (cxlMalloc fuel tid size dataSize n m).map (Prod.map .ref id)
  | .getRef offset, m => (CxlShm.getRef fuel tid size offset m).map (Prod.map .ref id)
  | .unwrap q, m => (cxlUnwrap fuel tid size q m).map (Prod.map .ref id)
  | .createMsgQueue _, m => (CxlShm.createMsgQueue fuel tid size m).map (Prod.map .offset id)

/-- The bins a request takes a block from, in this order. -/
def Request.bins : Request → List Nat
  | .malloc dataSize _ => [0, cxlPageQueue false ((dataSize + sizeofCxlObj) % 2 ^ 64)]
  | .getRef _ => [0]
  | .unwrap _ => [0]
  | .createMsgQueue _ => [1]

/-! ## §2 — a shortage -/

/-- No block of a page on bin `b` is on a list. -/
def NoFreeBlock (tid : Nat) (m : Shm) (b : Nat) : Prop :=
  ∀ x, FreeBlock tid m x → ¬ OnQueue tid m (.bin b) (pageOf x)

/-- A bin of the request has no free block, and there is no segment to claim. -/
def Shortage (tid size : Nat) (req : Request) (m : Shm) : Prop :=
  (∃ b ∈ req.bins, NoFreeBlock tid m b) ∧ ¬ Claimable size m

/-- The words in which a receiver is entered: neither counts nor slots nor links of a free list. -/
def Request.ends : Request → List Nat
  | .unwrap q => [q + 16, q + 32]
  | _ => []

/-- Every count, slot, page list, page queue and RootRef is as before. -/
structure Intact (tid : Nat) (req : Request) (m m' : Shm) : Prop where
  segment : m'.segment = m.segment
  sas : m'.sas = m.sas
  queue : ∀ q, m'.queue tid q = m.queue tid q
  word : ∀ a, a ∉ req.ends → m'.word a = m.word a

/-- The call returns with an empty result and leaves the heap as it was. -/
def Reported (tid size : Nat) (req : Request) (m : Shm) : Prop :=
  ∃ fuel a m', req.call fuel tid size m = some (a, m') ∧ a.Empty ∧ Intact tid req m m'

/-- A receive from a ring without an entry: it needs no block. -/
def NeedsNothing (m : Shm) : Request → Prop
  | .unwrap q => RingEmpty m q
  | _ => False

/-! ## §3 — no block is at offset 0 -/

section Empty

variable {tid size fuel : Nat} {m m' : Shm} {b x : Nat} {pg : Nat × Nat}

theorem cxlPageInit_free {special : Bool} {bs : Nat} {m' : Shm}
    (h : cxlPageInit special bs (some pg) m = some m') : (m'.page pg).free = pageStart pg := by
  unfold cxlPageInit at h
  simp only at h
  split at h
  case isTrue => cases h
  case isFalse =>
    rw [← Option.some.inj h, Shm.page_setPage, if_pos rfl]

/-- A fresh page has a free block. -/
theorem cxlPageFresh_free (h : cxlPageFresh fuel tid size (.bin b) m = some (pg, m')) :
    (m'.page pg).free = pageStart pg := by
  simp only [cxlPageFresh, Option.bind_eq_bind, Option.bind_eq_some_iff] at h
  obtain ⟨⟨p, m₁⟩, -, m₂, hinit, page, hp, hres⟩ := h
  simp only at hinit hp
  subst hp
  simp only [Option.some.injEq, Prod.mk.injEq] at hres
  obtain ⟨rfl, rfl⟩ := hres
  have hfree := cxlPageInit_free hinit
  rw [((OnlyLinks.push _ tid (.bin b) page).free page).1]
  split
  · rw [Shm.page_setPage, if_pos rfl]
    exact hfree
  · exact hfree

theorem pageStart_ne_zero (pg : Nat × Nat) : pageStart pg ≠ 0 := by
  simp only [pageStart, segmentsAreaStart]
  omega

/-- The page `find_free_ex` returns has a free block. -/
theorem findFree_free {rounds : Nat} {p q : PagePtr} (h : findFree fuel rounds p m = some (q, m')) :
    ∀ pg, q = some pg → (m'.page pg).free ≠ 0 := by
  induction rounds generalizing p m with
  | zero => cases h
  | succ rounds ih =>
    cases p with
    | none =>
      simp only [findFree, Option.some.injEq, Prod.mk.injEq] at h
      obtain ⟨rfl, -⟩ := h
      exact fun _ hq => by cases hq
    | some page =>
      simp only [findFree, Option.bind_eq_some_iff] at h
      obtain ⟨m₁, -, h⟩ := h
      split at h
      case isTrue hfree =>
        simp only [Option.some.injEq, Prod.mk.injEq] at h
        obtain ⟨rfl, rfl⟩ := h
        intro pg hq
        obtain rfl := Option.some.inj hq
        exact hfree
      case isFalse => exact ih h

/-- **`cxl_page_malloc` never returns an empty block.** -/
theorem cxlPageMalloc_ne_zero
    (h : cxlPageMalloc fuel tid size (.bin b) (cxlFindPage tid (.bin b) m) m = some (x, pg, m')) : x ≠ 0 := by
  cases hfind : cxlFindPage tid (.bin b) m with
  | some page =>
    rw [hfind] at h
    simp only [cxlPageMalloc, Option.some.injEq, Prod.mk.injEq] at h
    obtain ⟨rfl, -, -⟩ := h
    simpa using (Option.filter_eq_some_iff.mp hfind).2
  | none =>
    rw [hfind] at h
    simp only [cxlPageMalloc, cxlMallocGeneric, cxlPageQueueFindFreeEx, Option.bind_eq_bind,
      Option.bind_eq_some_iff] at h
    obtain ⟨⟨page, m₁⟩, ⟨⟨p, m₂⟩, hfind, hpage⟩, hres⟩ := h
    simp only [Option.some.injEq, Prod.mk.injEq] at hres
    obtain ⟨rfl, rfl, rfl⟩ := hres
    cases p with
    | some q =>
      simp only [Option.some.injEq, Prod.mk.injEq] at hpage
      obtain ⟨rfl, rfl⟩ := hpage
      exact findFree_free hfind q rfl
    | none =>
      rw [cxlPageFresh_free hpage]
      exact pageStart_ne_zero page

theorem threadBaseRefAlloc_ne_zero {t : Nat} (h : threadBaseRefAlloc fuel tid size m = some (t, m')) :
    t ≠ 0 := by
  simp only [threadBaseRefAlloc, Option.bind_eq_bind, Option.bind_eq_some_iff] at h
  obtain ⟨⟨y, pg, m₁⟩, hrun, hres⟩ := h
  simp only [Option.some.injEq, Prod.mk.injEq] at hres
  obtain ⟨rfl, -⟩ := hres
  exact cxlPageMalloc_ne_zero hrun

end Empty

/-! ## §4 — a call that needs a block does not return -/

/-- What decides whether there is a page to be had is as before. -/
structure SameRoom (tid : Nat) (m m' : Shm) : Prop where
  freePage : m'.queue tid .freePage = m.queue tid .freePage
  owner : ∀ i, (m'.sas i).threadId = (m.sas i).threadId

section Never

variable {tid size fuel : Nat} {m m' : Shm} {G : BlockLists} {b x : Nat} {pg : Nat × Nat}

theorem SameRoom.claimable (h : SameRoom tid m m') (hno : ¬ Claimable size m) : ¬ Claimable size m' := by
  rintro ⟨i, hi, hle⟩
  exact hno ⟨i, (h.owner i).symm.trans hi, hle⟩

/-- What collecting changes: pages, words and the heads of the `thread_free` lists. -/
structure Collected (m m' : Shm) : Prop where
  tls : m'.tls = m.tls
  owner : ∀ i, (m'.sas i).threadId = (m.sas i).threadId

theorem cxlPageFreeCollect_keeps (h : cxlPageFreeCollect fuel pg m = some m') : Collected m m' := by
  unfold cxlPageFreeCollect cxlThreadFreeCollect at h
  rw [Option.map_eq_some_iff] at h
  obtain ⟨m₁, hrun, rfl⟩ := h
  have hcollect : Collected m m₁ := by
    simp only at hrun
    split at hrun
    case isTrue =>
      cases hrun
      exact ⟨rfl, fun _ => rfl⟩
    case isFalse =>
      refine walk_keeps (Collected m) ?_ hrun ⟨rfl, fun i => ?_⟩
      · intro x s s' hs hb
        obtain rfl := Option.some.inj hb
        exact ⟨hs.tls, hs.owner⟩
      · by_cases hi : i = pg.1 <;> simp [takeThreadFree, hi]
  unfold refillFree
  split
  · exact ⟨hcollect.tls, hcollect.owner⟩
  · exact hcollect

theorem findFree_keeps {rounds : Nat} {p q : PagePtr} (h : findFree fuel rounds p m = some (q, m')) :
    Collected m m' := by
  induction rounds generalizing p m with
  | zero => cases h
  | succ rounds ih =>
    cases p with
    | none =>
      simp only [findFree, Option.some.injEq, Prod.mk.injEq] at h
      obtain ⟨-, rfl⟩ := h
      exact ⟨rfl, fun _ => rfl⟩
    | some page =>
      simp only [findFree, Option.bind_eq_some_iff] at h
      obtain ⟨m₁, hcollect, h⟩ := h
      have h₁ := cxlPageFreeCollect_keeps hcollect
      split at h
      case isTrue =>
        simp only [Option.some.injEq, Prod.mk.injEq] at h
        obtain ⟨-, rfl⟩ := h
        exact h₁
      case isFalse =>
        have h₂ := ih h
        exact ⟨h₂.tls.trans h₁.tls, fun i => (h₂.owner i).trans (h₁.owner i)⟩

theorem findFree_room {rounds : Nat} {p q : PagePtr}
    (h : findFree fuel rounds p (m.clearRedo tid) = some (q, m')) : SameRoom tid m m' := by
  have hk := findFree_keeps h
  refine ⟨?_, hk.owner⟩
  rw [← queue_clearRedo m tid, Shm.queue, Shm.queue, hk.tls]

/-- **Without a page the NULL reaches `cxl_page_init`.** -/
theorem cxlPageFresh_none (hfree : (m.queue tid .freePage).first = none) (hno : ¬ Claimable size m) :
    cxlPageFresh fuel tid size (.bin b) m = none := by
  cases fuel with
  | zero => rfl
  | succ fuel =>
    rw [cxlPageFresh, cxlSegmentPageAlloc_full hfree (cxlSegmentAlloc_eq_none_iff.mpr hno)]
    rfl

/-- Without a page to be had, a block comes off the lists, and no page does. -/
theorem cxlPageMalloc_room (hfree : (m.queue tid .freePage).first = none) (hno : ¬ Claimable size m)
    (h : cxlPageMalloc fuel tid size (.bin b) (cxlFindPage tid (.bin b) m) m = some (x, pg, m')) :
    SameRoom tid m m' := by
  cases hfind : cxlFindPage tid (.bin b) m with
  | some page =>
    rw [hfind] at h
    simp only [cxlPageMalloc, Option.some.injEq, Prod.mk.injEq] at h
    obtain ⟨-, -, rfl⟩ := h
    exact ⟨rfl, fun _ => rfl⟩
  | none =>
    rw [hfind] at h
    simp only [cxlPageMalloc, cxlMallocGeneric, cxlPageQueueFindFreeEx, Option.bind_eq_bind,
      Option.bind_eq_some_iff] at h
    obtain ⟨⟨page, m₁⟩, ⟨⟨p, m₂⟩, hfind, hpage⟩, hres⟩ := h
    simp only [Option.some.injEq, Prod.mk.injEq] at hres
    obtain ⟨-, -, rfl⟩ := hres
    have hroom := findFree_room hfind
    cases p with
    | some q =>
      simp only [Option.some.injEq, Prod.mk.injEq] at hpage
      obtain ⟨-, rfl⟩ := hpage
      exact hroom
    | none =>
      simp only at hpage
      rw [cxlPageFresh_none (by rw [hroom.freePage]; exact hfree) (hroom.claimable hno)] at hpage
      cases hpage

theorem Pool.noFreeBlock_iff (h : Pool tid m G) :
    NoFreeBlock tid m b ↔ ∀ x, G.Listed x → pageOf x ∉ G.pages (.bin b) := by
  simp only [NoFreeBlock, h.freeBlock_iff, h.onQueue_iff]

/-- **A class without a block is not served.** -/
theorem Pool.pageMalloc_none (h : Pool tid m G) (hnone : NoFreeBlock tid m b)
    (hfree : G.pages .freePage = []) (hno : ¬ Claimable size m) (fuel : Nat) :
    cxlPageMalloc fuel tid size (.bin b) (cxlFindPage tid (.bin b) m) m = none := by
  have hnone := h.noFreeBlock_iff.mp hnone
  have hfirst : (m.queue tid .freePage).first = none := by
    rw [h.inv.account.queued.first, hfree]
    rfl
  -- a page with a free block would have it on its list
  have hlisted : ∀ m₁ G₁, BlocksInv tid m₁ G₁ → (∀ x, G₁.Listed x → pageOf x ∉ G.pages (.bin b)) →
      ∀ pg ∈ G₁.pages (.bin b), pg ∈ G.pages (.bin b) → (m₁.page pg).free = 0 := by
    intro m₁ G₁ h₁ hn pg hpg hpg'
    by_contra hne
    obtain ⟨l, hl⟩ := h₁.free_eq hpg hne
    have hmem : (m₁.page pg).free ∈ G₁.onPage pg := by
      rw [BlockLists.onPage, hl]
      exact List.mem_cons_self
    apply hn _ (Or.inl ⟨b, pg, hpg, hmem⟩)
    rw [h₁.page_eq hpg hmem]
    exact hpg'
  cases hfind : cxlFindPage tid (.bin b) m with
  | some page =>
    obtain ⟨hf, hne⟩ := Option.filter_eq_some_iff.mp hfind
    have hmem := h.inv.account.queued.first_mem hf
    exact absurd (hlisted m G h.inv hnone page hmem hmem) (by simpa using hne)
  | none =>
    simp only [cxlPageMalloc, cxlMallocGeneric, cxlPageQueueFindFreeEx, Option.bind_eq_bind]
    cases hrun : findFree fuel fuel ((m.clearRedo tid).queue tid (.bin b)).first (m.clearRedo tid) with
    | none => rfl
    | some r =>
      obtain ⟨p, m₁⟩ := r
      have hheads : ThreadHeads tid (m.clearRedo tid) G := h.heads
      obtain ⟨G₁, h₁, -, hre, hpages, hq⟩ := findFree_some h.inv.clearRedo hheads (fun pg hf =>
        h.inv.clearRedo.account.queued.first_mem hf) hrun
      have hroom := findFree_room hrun
      cases p with
      | some pg =>
        obtain ⟨hmem, hne⟩ := hq pg rfl
        have hmem' : pg ∈ G.pages (.bin b) := hpages ▸ hmem
        refine absurd (hlisted m₁ G₁ h₁ ?_ pg hmem hmem') hne
        intro x hx hpx
        obtain ⟨k, hk⟩ := h₁.listed_block hx
        have hk' : G.Block k x := (BlockLists.block_congr hpages).mp hk
        exact hnone x ((hre.listed k x hk').mp hx) hpx
      | none =>
        simp only [Option.bind_some]
        rw [cxlPageFresh_none (by rw [hroom.freePage]; exact hfirst) (hroom.claimable hno)]
        rfl

theorem Pool.rootRef_none (h : Pool tid m G) (hnone : NoFreeBlock tid m 0)
    (hfree : G.pages .freePage = []) (hno : ¬ Claimable size m) (fuel : Nat) :
    CxlShm.threadBaseRefAlloc fuel tid size m = none := by
  have hq : cxlPageQueue true 16 = 0 := rfl
  simp only [CxlShm.threadBaseRefAlloc, hq]
  rw [h.pageMalloc_none hnone hfree hno fuel]
  rfl

theorem threadBaseRefAlloc_room {t : Nat} (hfree : (m.queue tid .freePage).first = none)
    (hno : ¬ Claimable size m) (h : threadBaseRefAlloc fuel tid size m = some (t, m')) :
    SameRoom tid m m' := by
  simp only [threadBaseRefAlloc, Option.bind_eq_bind, Option.bind_eq_some_iff] at h
  obtain ⟨⟨y, pg, m₁⟩, hrun, hres⟩ := h
  simp only [Option.some.injEq, Prod.mk.injEq] at hres
  obtain ⟨-, rfl⟩ := hres
  have hroom := cxlPageMalloc_room hfree hno hrun
  exact ⟨hroom.freePage, hroom.owner⟩

/-- A RootRef handed out leaves the other bins as short as they were. -/
theorem Pool.short_after (h : Pool tid m G) {G' : BlockLists} (h' : Pool tid m' G') {t : Nat} {S : List Nat}
    (hout : HandedOut 0 t S m m' G G') (hb : b ≠ 0) (hnone : NoFreeBlock tid m b) : NoFreeBlock tid m' b := by
  have hnone := h.noFreeBlock_iff.mp hnone
  refine h'.noFreeBlock_iff.mpr fun x hx hpx => ?_
  obtain ⟨k, hk⟩ := h'.inv.listed_block hx
  obtain rfl : k = b := h'.inv.bin_unique hk.1 hpx
  have hpx' : pageOf x ∈ G.pages (.bin k) := hout.bins k hb ▸ hpx
  -- what has come to a list since would have been handed out before
  by_cases hl : G.Listed x
  · exact hnone x hl hpx'
  · have hheld := h.inv.held_iff.mpr ⟨⟨hpx', hk.2⟩, hl⟩
    exact (h'.inv.held_iff.mp ((hout.held k x).mpr (Or.inl hheld))).2 hx

theorem cxlPageQueue_ne_zero (blockSize : Nat) : cxlPageQueue false blockSize ≠ 0 := by
  simp [cxlPageQueue]

theorem Pool.refAlloc_none (h : Pool tid m G) {blockSize : Nat}
    (hnone : NoFreeBlock tid m (cxlPageQueue false blockSize)) (hfree : G.pages .freePage = [])
    (hno : ¬ Claimable size m) (fuel t n : Nat) :
    CxlShm.cxlRefAlloc fuel tid size t blockSize n m = none := by
  simp only [CxlShm.cxlRefAlloc]
  split
  · rw [h.pageMalloc_none hnone hfree hno]
    rfl
  · rfl

/-- **Short of a class, `cxl_malloc` does not return.** -/
theorem Pool.malloc_none (h : Pool tid m G) {blockSize : Nat}
    (hb : b = 0 ∨ b = cxlPageQueue false blockSize) (hnone : NoFreeBlock tid m b)
    (hfree : G.pages .freePage = []) (hno : ¬ Claimable size m) (fuel n : Nat) :
    ((CxlShm.threadBaseRefAlloc fuel tid size m).bind fun r =>
      CxlShm.cxlRefAlloc fuel tid size r.1 blockSize n r.2) = none := by
  cases href : CxlShm.threadBaseRefAlloc fuel tid size m with
  | none => exact Option.bind_none _
  | some r =>
    obtain ⟨t, m₁⟩ := r
    obtain ⟨G₁, h₁, hout, -⟩ := h.threadBaseRefAlloc href
    have hfirst : (m.queue tid .freePage).first = none := by
      rw [h.inv.account.queued.first, hfree]
      rfl
    have hroom := threadBaseRefAlloc_room hfirst hno href
    have hfree₁ : G₁.pages .freePage = [] := by
      rw [← hroom.freePage, h₁.inv.account.queued.first] at hfirst
      exact List.head?_eq_none_iff.mp hfirst
    rcases hb with hb | hb
    · rw [hb] at hnone
      rw [h.rootRef_none hnone hfree hno] at href
      cases href
    · rw [hb] at hnone
      have hnone₁ := h.short_after h₁ hout (cxlPageQueue_ne_zero blockSize) hnone
      rw [Option.bind_some]
      exact h₁.refAlloc_none hnone₁ hfree₁ (hroom.claimable hno) fuel t n

theorem Pool.msgQueue_none (h : Pool tid m G) (hnone : NoFreeBlock tid m 1)
    (hfree : G.pages .freePage = []) (hno : ¬ Claimable size m) (fuel senderId : Nat) :
    CxlShm.msgQueueAlloc fuel tid size senderId m = none := by
  have hq : cxlPageQueue true sizeofMessageQueue = 1 := rfl
  simp only [CxlShm.msgQueueAlloc, hq]
  rw [h.pageMalloc_none hnone hfree hno fuel]
  rfl

end Never

/-! ## §5 — the attachment of a receiver -/

section Attach

variable {tid : Nat} {m : Shm} {G : BlockLists} {q : Nat}

theorem attachReceiver_word {a : Nat} (ha : a ∉ [q + 16, q + 32]) :
    (attachReceiver tid q m).word a = m.word a := by
  simp only [List.mem_cons, List.not_mem_nil, or_false, not_or] at ha
  unfold attachReceiver
  split
  · simp [Shm.setReceiverId, Shm.setTls, ha.1, ha.2]
  · rfl

theorem attachReceiver_queue (p : QueuePtr) : (attachReceiver tid q m).queue tid p = m.queue tid p := by
  unfold attachReceiver
  split
  · cases p <;> simp [Shm.queue, Shm.setReceiverId, Shm.setTls, Tls.queue]
  · rfl

theorem attachReceiver_segment : (attachReceiver tid q m).segment = m.segment := by
  unfold attachReceiver
  split <;> rfl

theorem attachReceiver_sas : (attachReceiver tid q m).sas = m.sas := by
  unfold attachReceiver
  split <;> rfl

theorem ringEmpty_attach : RingEmpty (attachReceiver tid q m) q ↔ RingEmpty m q := by
  have hword : ∀ a, a ≠ q + 16 → a ≠ q + 32 → (attachReceiver tid q m).word a = m.word a := by
    intro a h₁ h₂
    apply attachReceiver_word
    simp [h₁, h₂]
  have hbuf : ∀ k, (attachReceiver tid q m).word (bufferSlot q k) = m.word (bufferSlot q k) := by
    intro k
    unfold bufferSlot
    exact hword _ (by omega) (by omega)
  simp only [RingEmpty, Shm.queueStart, Shm.queueEnd, hbuf, hword q (by omega) (by omega),
    hword (q + 8) (by omega) (by omega)]

/-- The attachment is a use of the queue's block. -/
theorem Pool.attach (h : Pool tid m G) (hq : ∀ x, FreeBlock tid m x → x ∉ [q + 16, q + 32]) :
    Pool tid (attachReceiver tid q m) G := by
  refine h.use ⟨attachReceiver_queue, fun i => ?_, fun i _ => ?_, fun i _ => ?_, fun i hi => ?_, ?_⟩
  · rw [attachReceiver_sas]
  · rw [attachReceiver_sas]
  · rw [attachReceiver_segment]
  · rw [attachReceiver_sas] at hi
    rw [attachReceiver_segment]
    exact h.inv.account.claimable i hi
  · exact fun x hx => attachReceiver_word (hq x hx)

end Attach

/-! ## §6 — what the callers see -/

section Callers

variable {tid size fuel : Nat} {m m' : Shm} {G : BlockLists} {req : Request}

theorem cxlRefAlloc_tbr {t blockSize n : Nat} {r : CxlRef}
    (h : cxlRefAlloc fuel tid size t blockSize n m = some (r, m')) : r.tbr = t := by
  unfold cxlRefAlloc at h
  simp only at h
  split at h
  case isFalse => cases h
  case isTrue =>
    simp only [Option.bind_eq_bind, Option.bind_eq_some_iff] at h
    obtain ⟨y, -, hres⟩ := h
    simp only [Option.some.injEq, Prod.mk.injEq] at hres
    rw [← hres.1]

theorem cxlMalloc_tbr {dataSize n : Nat} {r : CxlRef}
    (h : cxlMalloc fuel tid size dataSize n m = some (r, m')) : r.tbr ≠ 0 := by
  simp only [cxlMalloc, Option.bind_eq_bind, Option.bind_eq_some_iff] at h
  obtain ⟨⟨t, m₁⟩, href, hobj⟩ := h
  rw [cxlRefAlloc_tbr hobj]
  exact threadBaseRefAlloc_ne_zero href

theorem getRef_tbr {offset : Nat} {r : CxlRef} (h : getRef fuel tid size offset m = some (r, m')) :
    r.tbr ≠ 0 := by
  simp only [getRef, Option.bind_eq_bind, Option.bind_eq_some_iff] at h
  obtain ⟨⟨t, m₁⟩, href, hres⟩ := h
  simp only [Option.some.injEq, Prod.mk.injEq] at hres
  rw [← hres.1]
  exact threadBaseRefAlloc_ne_zero href

/-- A receive that returns an empty handle has found the ring empty. -/
theorem cxlUnwrap_tbr {q : Nat} {r : CxlRef} (h : cxlUnwrap fuel tid size q m = some (r, m'))
    (hz : r.tbr = 0) : RingEmpty m q := by
  unfold cxlUnwrap at h
  simp only at h
  split at h
  case isTrue hring => exact ringEmpty_attach.mp hring
  case isFalse =>
    simp only [Option.bind_eq_bind, Option.bind_eq_some_iff] at h
    obtain ⟨⟨t, m₁⟩, href, m₂, -, hres⟩ := h
    simp only [Option.some.injEq, Prod.mk.injEq] at hres
    rw [← hres.1] at hz
    exact absurd hz (threadBaseRefAlloc_ne_zero href)

theorem createMsgQueue_ne_zero {q : Nat} (h : createMsgQueue fuel tid size m = some (q, m')) : q ≠ 0 := by
  simp only [createMsgQueue, msgQueueAlloc, Option.bind_eq_bind, Option.bind_eq_some_iff] at h
  obtain ⟨⟨x, m₁⟩, ⟨⟨y, pg, m₂⟩, hrun, hq⟩, hres⟩ := h
  simp only [Option.some.injEq, Prod.mk.injEq] at hq hres
  rw [← hres.1, ← hq.1]
  exact cxlPageMalloc_ne_zero hrun

/-- **No call returns an empty result for want of memory.** -/
theorem Request.call_empty {a : Answer} (hrun : req.call fuel tid size m = some (a, m'))
    (hempty : a.Empty) : NeedsNothing m req := by
  cases req with
  | malloc dataSize n =>
    simp only [Request.call, Option.map_eq_some_iff] at hrun
    obtain ⟨⟨r, m₁⟩, hrun, hres⟩ := hrun
    obtain rfl := (Prod.mk.inj hres).1
    exact absurd hempty.1 (cxlMalloc_tbr hrun)
  | getRef offset =>
    simp only [Request.call, Option.map_eq_some_iff] at hrun
    obtain ⟨⟨r, m₁⟩, hrun, hres⟩ := hrun
    obtain rfl := (Prod.mk.inj hres).1
    exact absurd hempty.1 (getRef_tbr hrun)
  | unwrap q =>
    simp only [Request.call, Option.map_eq_some_iff] at hrun
    obtain ⟨⟨r, m₁⟩, hrun, hres⟩ := hrun
    obtain rfl := (Prod.mk.inj hres).1
    exact cxlUnwrap_tbr hrun hempty.1
  | createMsgQueue dstId =>
    simp only [Request.call, Option.map_eq_some_iff] at hrun
    obtain ⟨⟨q, m₁⟩, hrun, hres⟩ := hrun
    obtain rfl := (Prod.mk.inj hres).1
    exact absurd hempty (createMsgQueue_ne_zero hrun)

/-- A receive from an empty ring returns, and changes who the receiver is at most. -/
theorem NeedsNothing.reported (h : NeedsNothing m req) : Reported tid size req m := by
  cases req with
  | unwrap q =>
    have hring : RingEmpty (attachReceiver tid q m) q := ringEmpty_attach.mpr h
    refine ⟨0, .ref ⟨0, 0⟩, attachReceiver tid q m, ?_, ⟨rfl, rfl⟩, attachReceiver_segment,
      attachReceiver_sas, attachReceiver_queue, fun a ha => attachReceiver_word ha⟩
    simp only [Request.call, cxlUnwrap, if_pos hring]
    rfl
  | malloc dataSize n => exact h.elim
  | getRef offset => exact h.elim
  | createMsgQueue dstId => exact h.elim

/-- The queue a request names is not one of the client's free blocks. -/
def QueueTaken (tid : Nat) (m : Shm) (req : Request) : Prop := ∀ x, FreeBlock tid m x → x ∉ req.ends

/-- **Short of a bin, and without a page, a call that needs a block does not return.** -/
theorem Pool.call_none (h : Pool tid m G) (hs : Shortage tid size req m) (hfree : G.pages .freePage = [])
    (hneed : ¬ NeedsNothing m req) (hq : QueueTaken tid m req) (fuel : Nat) :
    req.call fuel tid size m = none := by
  obtain ⟨⟨b, hb, hnone⟩, hno⟩ := hs
  cases req with
  | malloc dataSize n =>
    have hb' : b = 0 ∨ b = cxlPageQueue false ((dataSize + sizeofCxlObj) % 2 ^ 64) := by
      simpa only [Request.bins, List.mem_cons, List.not_mem_nil, or_false] using hb
    have hmalloc : CxlShm.cxlMalloc fuel tid size dataSize n m = none :=
      h.malloc_none hb' hnone hfree hno fuel n
    rw [Request.call, hmalloc, Option.map_none]
  | getRef offset =>
    obtain rfl : b = 0 := List.mem_singleton.mp hb
    rw [Request.call, CxlShm.getRef, h.rootRef_none hnone hfree hno]
    rfl
  | unwrap q =>
    obtain rfl : b = 0 := List.mem_singleton.mp hb
    have h₁ := h.attach hq
    have hring : ¬ RingEmpty (attachReceiver tid q m) q := fun hr => hneed (ringEmpty_attach.mp hr)
    have hnone₁ : NoFreeBlock tid (attachReceiver tid q m) 0 :=
      h₁.noFreeBlock_iff.mpr (h.noFreeBlock_iff.mp hnone)
    have hno₁ : ¬ Claimable size (attachReceiver tid q m) := by
      rw [Claimable, attachReceiver_sas]
      exact hno
    simp only [Request.call, cxlUnwrap, if_neg hring]
    rw [h₁.rootRef_none hnone₁ hfree hno₁]
    rfl
  | createMsgQueue dstId =>
    obtain rfl : b = 1 := List.mem_singleton.mp hb
    rw [Request.call, CxlShm.createMsgQueue, h.msgQueue_none hnone hfree hno]
    rfl

end Callers

/-- **A shortage is reported to nobody but a receive that needs no block**; without a page left the other
calls do not return. -/
theorem shortage_reported_iff {tid size : Nat} {m : Shm} (hreach : PoolReach tid size m) (req : Request)
    (hs : Shortage tid size req m) : (Reported tid size req m ↔ NeedsNothing m req) ∧
      (¬ NeedsNothing m req → QueueTaken tid m req → (∀ pg, ¬ OnQueue tid m .freePage pg) →
        ∀ fuel, req.call fuel tid size m = none) := by
  refine ⟨⟨?_, NeedsNothing.reported⟩, ?_⟩
  · rintro ⟨fuel, a, m', hrun, hempty, -⟩
    exact Request.call_empty hrun hempty
  · intro hneed hq hpages
    obtain ⟨G, h⟩ := hreach.pool
    have hfree : G.pages .freePage = [] := by
      apply List.eq_nil_iff_forall_not_mem.mpr
      exact fun pg hpg => hpages pg (h.onQueue_iff.mpr hpg)
    exact h.call_none hs hfree hneed hq

/-- An area of 128 MiB ends where the first segment would begin. -/
theorem freshArea_short : PoolReach 1 (2 ^ 27) freshArea ∧ Shortage 1 (2 ^ 27) (.malloc 8 0) freshArea := by
  have h := Pool.init freshArea_init
  refine ⟨Reach.init freshArea_init trivial, ⟨0, List.mem_cons_self, ?_⟩, ?_⟩
  · apply h.noFreeBlock_iff.mpr
    exact fun x _ hpg => List.not_mem_nil hpg
  · rintro ⟨i, -, hle⟩
    simp only [segmentsAreaStart, segmentSize] at hle
    omega

theorem shortage_reported_first : Reported 1 (2 ^ 27) (.malloc 8 0) freshArea ↔ False :=
  (shortage_reported_iff freshArea_short.1 (.malloc 8 0) freshArea_short.2).1

/-- The first `cxl_malloc` there does not report the shortage. -/
theorem shortage_not_reported : PoolReach 1 (2 ^ 27) freshArea ∧
    Shortage 1 (2 ^ 27) (.malloc 8 0) freshArea ∧ ¬ Reported 1 (2 ^ 27) (.malloc 8 0) freshArea :=
  ⟨freshArea_short.1, freshArea_short.2, fun ⟨_, _, _, hrun, hempty, _⟩ => Request.call_empty hrun hempty⟩

end CxlShm
