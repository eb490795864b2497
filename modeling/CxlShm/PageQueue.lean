import CxlShm.Block
import CxlShm.Lib.DoublyLinked

/-! # PageQueue — `cxl_page_queue_push` and `cxl_page_queue_remove`

The queues of a client (one for each bin, one for its free pages) are linked through the metadata of
the pages, so one pair of links serves them all. Both functions are the list surgery of
`DoublyLinked` on what a queue sees of the area.
-/

namespace CxlShm

open DoublyLinked

/-! ## §1 — the queues of a client -/

/-- A `cxl_page_queue_t*` into the thread-local state: `tls->pages + i` or `&tls->free_page`. -/
inductive QueuePtr
  | bin (i : Nat)
  | freePage
  deriving DecidableEq, Repr

def Tls.queue (t : Tls) : QueuePtr → PageQueue
  | .bin i => t.pages i
  | .freePage => t.freePage

def Tls.setQueue (t : Tls) (q : QueuePtr) (pq : PageQueue) : Tls :=
  match q with
  | .bin i => { t with pages := Function.update t.pages i pq }
  | .freePage => { t with freePage := pq }

namespace Shm

def queue (m : Shm) (tid : Nat) (q : QueuePtr) : PageQueue := (m.tls tid).queue q

def setFirst (m : Shm) (tid : Nat) (q : QueuePtr) (p : PagePtr) : Shm :=
  m.setTls tid ((m.tls tid).setQueue q { m.queue tid q with first := p })

def setLast (m : Shm) (tid : Nat) (q : QueuePtr) (p : PagePtr) : Shm :=
  m.setTls tid ((m.tls tid).setQueue q { m.queue tid q with last := p })

def setNext (m : Shm) (pg : Nat × Nat) (p : PagePtr) : Shm :=
  m.setPage pg { m.page pg with next := p }

def setPrev (m : Shm) (pg : Nat × Nat) (p : PagePtr) : Shm :=
  m.setPage pg { m.page pg with prev := p }

/-- `if(p != NULL) p->next = v`. -/
def linkNext (m : Shm) (p v : PagePtr) : Shm :=
  match p with
  | some p => m.setNext p v
  | none => m

/-- `if(p != NULL) p->prev = v`. -/
def linkPrev (m : Shm) (p v : PagePtr) : Shm :=
  match p with
  | some p => m.setPrev p v
  | none => m

end Shm

/-- `pq->cxl_page_queue_push(page, start)`. A non-empty queue keeps its `last`. -/
def cxlPageQueuePush (tid : Nat) (pq : QueuePtr) (page : Nat × Nat) (m : Shm) : Shm :=
  let m₁ := m.setNext page (m.queue tid pq).first
  let m₂ := m₁.setPrev page none
  match (m₂.queue tid pq).first with
  | some firstPage => (m₂.setPrev firstPage (some page)).setFirst tid pq (some page)
  | none => (m₂.setFirst tid pq (some page)).setLast tid pq (some page)

/-- `pq->cxl_page_queue_remove(page, start)`. Both neighbours are looked up before the first store. -/
def cxlPageQueueRemove (tid : Nat) (pq : QueuePtr) (page : Nat × Nat) (m : Shm) : Shm :=
  let prevPage := (m.page page).prev
  let nextPage := (m.page page).next
  let m₁ := m.linkNext prevPage (m.page page).next
  let m₂ := m₁.linkPrev nextPage (m₁.page page).prev
  let m₃ := if (m₂.queue tid pq).last = some page then m₂.setLast tid pq (m₂.page page).prev else m₂
  let m₄ := if (m₃.queue tid pq).first = some page then m₃.setFirst tid pq (m₃.page page).next else m₃
  (m₄.setNext page none).setPrev page none

/-! ## §2 — what a queue sees -/

/-- The ends of a queue and the links of all pages. -/
def Shm.links (m : Shm) (tid : Nat) (q : QueuePtr) : Links (Nat × Nat) where
  first := (m.queue tid q).first
  last := (m.queue tid q).last
  next := fun pg => (m.page pg).next
  prev := fun pg => (m.page pg).prev

section Stores

variable (m : Shm) (tid : Nat) (q q' : QueuePtr) (pg pg' : Nat × Nat) (p : PagePtr)

@[simp] theorem Tls.queue_setQueue (t : Tls) (pq : PageQueue) :
    (t.setQueue q pq).queue q' = if q' = q then pq else t.queue q' := by
  cases q with
  | freePage => cases q' <;> simp [Tls.queue, Tls.setQueue]
  | bin i =>
    cases q' with
    | freePage => simp [Tls.queue, Tls.setQueue]
    | bin j => simp [Tls.queue, Tls.setQueue, Function.update_apply]

namespace Shm

@[simp] theorem queue_setFirst : (m.setFirst tid q p).queue tid q' =
    if q' = q then { m.queue tid q with first := p } else m.queue tid q' := by
  simp [queue, setFirst, setTls]

@[simp] theorem queue_setLast : (m.setLast tid q p).queue tid q' =
    if q' = q then { m.queue tid q with last := p } else m.queue tid q' := by
  simp [queue, setLast, setTls]

@[simp] theorem queue_setPage (d : Page) : (m.setPage pg d).queue tid q = m.queue tid q := rfl
@[simp] theorem queue_setNext : (m.setNext pg p).queue tid q = m.queue tid q := rfl
@[simp] theorem queue_setPrev : (m.setPrev pg p).queue tid q = m.queue tid q := rfl
@[simp] theorem page_setFirst : (m.setFirst tid q p).page pg = m.page pg := rfl
@[simp] theorem page_setLast : (m.setLast tid q p).page pg = m.page pg := rfl

@[simp] theorem page_setNext : (m.setNext pg p).page pg' =
    if pg' = pg then { m.page pg with next := p } else m.page pg' := page_setPage ..

@[simp] theorem page_setPrev : (m.setPrev pg p).page pg' =
    if pg' = pg then { m.page pg with prev := p } else m.page pg' := page_setPage ..

end Shm

end Stores

/-! ## §3 — the list surgery -/

section View

variable {m : Shm} {tid : Nat} {q q' : QueuePtr} {pg : Nat × Nat} {p : PagePtr}

theorem links_setNext : (m.setNext pg p).links tid q =
    { m.links tid q with next := Function.update (m.links tid q).next pg p } := by
  ext1
  case next =>
    funext pg'
    by_cases h : pg' = pg <;> simp [Shm.links, h]
  case prev =>
    funext pg'
    by_cases h : pg' = pg <;> simp [Shm.links, h]
  all_goals rfl

theorem links_setPrev : (m.setPrev pg p).links tid q =
    { m.links tid q with prev := Function.update (m.links tid q).prev pg p } := by
  ext1
  case next =>
    funext pg'
    by_cases h : pg' = pg <;> simp [Shm.links, h]
  case prev =>
    funext pg'
    by_cases h : pg' = pg <;> simp [Shm.links, h]
  all_goals rfl

theorem links_setFirst : (m.setFirst tid q p).links tid q' =
    if q' = q then { m.links tid q with first := p } else m.links tid q' := by
  by_cases h : q' = q <;> simp [Shm.links, h]

theorem links_setLast : (m.setLast tid q p).links tid q' =
    if q' = q then { m.links tid q with last := p } else m.links tid q' := by
  by_cases h : q' = q <;> simp [Shm.links, h]

theorem links_linkNext {v : PagePtr} : (m.linkNext p v).links tid q =
    { m.links tid q with next := relink (m.links tid q).next p v } := by
  cases p with
  | none => rfl
  | some p => exact links_setNext

theorem links_linkPrev {v : PagePtr} : (m.linkPrev p v).links tid q =
    { m.links tid q with prev := relink (m.links tid q).prev p v } := by
  cases p with
  | none => rfl
  | some p => exact links_setPrev

/-- `if(page_offset == last) last = page->prev`. -/
theorem links_dropLast :
    (if (m.queue tid q).last = some pg then m.setLast tid q (m.page pg).prev else m).links tid q =
      if (m.links tid q).last = some pg then { m.links tid q with last := (m.links tid q).prev pg }
      else m.links tid q := by
  have hiff : (m.queue tid q).last = (m.links tid q).last := rfl
  split <;> rename_i h
  · rw [if_pos (hiff ▸ h), links_setLast, if_pos rfl]
    rfl
  · rw [if_neg (hiff ▸ h)]

/-- `if(page_offset == first) first = page->next`. -/
theorem links_dropFirst :
    (if (m.queue tid q).first = some pg then m.setFirst tid q (m.page pg).next else m).links tid q =
      if (m.links tid q).first = some pg then { m.links tid q with first := (m.links tid q).next pg }
      else m.links tid q := by
  have hiff : (m.queue tid q).first = (m.links tid q).first := rfl
  split <;> rename_i h
  · rw [if_pos (hiff ▸ h), links_setFirst, if_pos rfl]
    rfl
  · rw [if_neg (hiff ▸ h)]

/-- **The push is the push of `DoublyLinked`.** -/
theorem links_cxlPageQueuePush :
    (cxlPageQueuePush tid q pg m).links tid q = (m.links tid q).push pg := by
  have hiff : (m.links tid q).first = (m.queue tid q).first := rfl
  cases hf : (m.queue tid q).first with
  | none =>
    simp only [cxlPageQueuePush, Shm.queue_setPrev, Shm.queue_setNext, hf, Links.push, hiff]
    rw [links_setLast, if_pos rfl, links_setFirst, if_pos rfl, links_setPrev, links_setNext]
  | some f =>
    simp only [cxlPageQueuePush, Shm.queue_setPrev, Shm.queue_setNext, hf, Links.push, hiff]
    rw [links_setFirst, if_pos rfl, links_setPrev, links_setPrev, links_setNext]

/-- **The removal is the removal of `DoublyLinked`.** -/
theorem links_cxlPageQueueRemove :
    (cxlPageQueueRemove tid q pg m).links tid q = (m.links tid q).remove pg := by
  unfold cxlPageQueueRemove
  simp only
  rw [links_setPrev, links_setNext, links_dropFirst, links_dropLast, links_linkPrev, links_linkNext]
  have hprev : ∀ p v, ((m.linkNext p v).page pg).prev = (m.page pg).prev := by
    intro p v
    cases p with
    | none => rfl
    | some p => by_cases hp : pg = p <;> simp [Shm.linkNext, hp]
  rw [hprev]
  rfl

/-! ## §4 — what the surgery leaves alone -/

/-- A page's metadata without its links. -/
def Page.body (d : Page) : Page := { d with next := none, prev := none }

/-- Only the links of pages and the ends of queue `q` of client `tid` may differ. -/
structure OnlyLinks (tid : Nat) (q : QueuePtr) (m m' : Shm) : Prop where
  eraCell : m'.eraCell = m.eraCell
  word : m'.word = m.word
  sas : m'.sas = m.sas
  owner : ∀ i, (m'.segment i).threadId = (m.segment i).threadId
  used : ∀ i, (m'.segment i).used = (m.segment i).used
  body : ∀ pg, (m'.page pg).body = (m.page pg).body
  others : ∀ u, u ≠ tid → m'.tls u = m.tls u
  own : { m'.tls tid with pages := (m.tls tid).pages, freePage := (m.tls tid).freePage } = m.tls tid
  queue : ∀ q', q' ≠ q → m'.queue tid q' = m.queue tid q'
  ownSize : (m'.queue tid q).blockSize = (m.queue tid q).blockSize

namespace OnlyLinks

variable {m₁ m₂ : Shm}

theorem refl (m : Shm) : OnlyLinks tid q m m :=
  ⟨rfl, rfl, rfl, fun _ => rfl, fun _ => rfl, fun _ => rfl, fun _ _ => rfl, rfl, fun _ _ => rfl, rfl⟩

theorem trans (h₁ : OnlyLinks tid q m m₁) (h₂ : OnlyLinks tid q m₁ m₂) : OnlyLinks tid q m m₂ where
  eraCell := h₂.eraCell.trans h₁.eraCell
  word := h₂.word.trans h₁.word
  sas := h₂.sas.trans h₁.sas
  owner i := (h₂.owner i).trans (h₁.owner i)
  used i := (h₂.used i).trans (h₁.used i)
  body pg := (h₂.body pg).trans (h₁.body pg)
  others u hu := (h₂.others u hu).trans (h₁.others u hu)
  own := by
    rw [← h₁.own, ← h₂.own]
  queue q' hq := (h₂.queue q' hq).trans (h₁.queue q' hq)
  ownSize := h₂.ownSize.trans h₁.ownSize

theorem setPage {d : Page} (hd : d.body = (m.page pg).body) : OnlyLinks tid q m (m.setPage pg d) where
  eraCell := rfl
  word := rfl
  sas := rfl
  owner := Shm.threadId_setPage m pg d
  used i := by
    by_cases hi : i = pg.1 <;> simp [Shm.setPage, Segment.setPage, hi]
  body pg' := by
    rw [Shm.page_setPage]
    by_cases hp : pg' = pg <;> simp [hp, hd]
  others _ _ := rfl
  own := rfl
  queue _ _ := rfl
  ownSize := rfl

theorem setQueue {pq : PageQueue} (hs : pq.blockSize = (m.queue tid q).blockSize) :
    OnlyLinks tid q m (m.setTls tid ((m.tls tid).setQueue q pq)) where
  eraCell := rfl
  word := rfl
  sas := rfl
  owner _ := rfl
  used _ := rfl
  body _ := rfl
  others u hu := by simp [Shm.setTls, hu]
  own := by cases q <;> simp [Shm.setTls, Tls.setQueue]
  queue q' hq := by simp [Shm.queue, Shm.setTls, hq]
  ownSize := by simpa [Shm.queue, Shm.setTls] using hs

section Primitives

variable (m : Shm) (tid : Nat) (q : QueuePtr) (pg : Nat × Nat) (p v : PagePtr)

theorem setNext : OnlyLinks tid q m (m.setNext pg p) := setPage rfl
theorem setPrev : OnlyLinks tid q m (m.setPrev pg p) := setPage rfl
theorem setFirst : OnlyLinks tid q m (m.setFirst tid q p) := setQueue rfl
theorem setLast : OnlyLinks tid q m (m.setLast tid q p) := setQueue rfl

theorem linkNext : OnlyLinks tid q m (m.linkNext p v) := by
  cases p with
  | none => exact refl m
  | some p => exact setNext ..

theorem linkPrev : OnlyLinks tid q m (m.linkPrev p v) := by
  cases p with
  | none => exact refl m
  | some p => exact setPrev ..

theorem ite {c : Prop} [Decidable c] {m₁ : Shm} (h : OnlyLinks tid q m m₁) :
    OnlyLinks tid q m (if c then m₁ else m) := by
  split
  · exact h
  · exact refl m

theorem push : OnlyLinks tid q m (cxlPageQueuePush tid q pg m) := by
  unfold cxlPageQueuePush
  simp only
  split
  · exact (((setNext ..).trans (setPrev ..)).trans (setPrev ..)).trans (setFirst ..)
  · exact (((setNext ..).trans (setPrev ..)).trans (setFirst ..)).trans (setLast ..)

theorem remove : OnlyLinks tid q m (cxlPageQueueRemove tid q pg m) := by
  unfold cxlPageQueueRemove
  apply trans _ (setPrev ..)
  apply trans _ (setNext ..)
  apply trans _ (ite _ _ _ (setFirst ..))
  apply trans _ (ite _ _ _ (setLast ..))
  exact (linkNext ..).trans (linkPrev ..)

end Primitives

end OnlyLinks

end View

end CxlShm
