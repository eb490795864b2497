import CxlShm.State

/-! # Block — pages, blocks and the records that overlay them

From an offset to its page, and the records the code lays over raw blocks: `RootRef`,
`cxl_message_queue_t` and the free-list link. Fields narrower than a word are read and written inside
their word.
-/

namespace CxlShm

/-! ## §1 — pages and blocks -/

/-- `cxl_ptr_page(p)`. -/
def pageOf (p : Nat) : Nat × Nat := (segmentIdx p, p % segmentSize / pageSize)

/-- `cxl_page_start(segment, page)`. -/
def pageStart (pg : Nat × Nat) : Nat := segmentsAreaStart + pg.1 * segmentSize + pg.2 * pageSize

/-- `cxl_page_block_at(page_start, block_size, i)`. -/
def blockAt (start blockSize i : Nat) : Nat := start + i * blockSize

/-- The words that `cxl_free` and `recovery_cxl_free` zero at the start of a block. -/
def wipedWords (special : Bool) (blockSize : Nat) : Nat :=
  if special then if blockSize = 16 then sizeofRootRef / 8 else sizeofMessageQueue / 8
  else sizeofCxlObj / 8

theorem wipedWords_pos (special : Bool) (bs : Nat) : 0 < wipedWords special bs := by
  unfold wipedWords
  split
  · split <;> decide
  · decide

/-- The offset of `buffer[k]` of the message queue at `q`. -/
def bufferSlot (q k : Nat) : Nat := q + 40 + 8 * k

def Segment.setPage (s : Segment) (k : Nat) (p : Page) : Segment :=
  { s with metaPage := Function.update s.metaPage k p }

namespace Shm

def page (m : Shm) (pg : Nat × Nat) : Page := (m.segment pg.1).metaPage pg.2

def setPage (m : Shm) (pg : Nat × Nat) (p : Page) : Shm :=
  { m with segment := Function.update m.segment pg.1 ((m.segment pg.1).setPage pg.2 p) }

/-- `memset(b, 0, 8 * n)`. -/
def zeroWords (m : Shm) (b n : Nat) : Shm :=
  { m with word := fun a => if ∃ k < n, a = b + 8 * k then 0 else m.word a }

/-- The CAS loop that pushes a block on the `thread_free` list of segment `i`. -/
def pushThreadFree (m : Shm) (i b : Nat) : Shm :=
  { m.store b (m.sas i).threadFree with
    sas := Function.update m.sas i { m.sas i with threadFree := b } }

/-! ## §2 — `RootRef` -/

/-- `RootRef::in_use`, the low byte of the second word. -/
def inUse (m : Shm) (b : Nat) : Nat := m.word (b + 8) % 2 ^ 8

def setInUse (m : Shm) (b v : Nat) : Shm := m.store (b + 8) (m.word (b + 8) / 2 ^ 8 * 2 ^ 8 + v)

/-! ## §3 — `cxl_message_queue_t` -/

def queueStart (m : Shm) (q : Nat) : Nat := m.word q
def queueEnd (m : Shm) (q : Nat) : Nat := m.word (q + 8)

/-- `sender_id` and `receiver_id` share a word, 16 bits each. -/
def senderId (m : Shm) (q : Nat) : Nat := m.word (q + 16) % 2 ^ 16
def receiverId (m : Shm) (q : Nat) : Nat := m.word (q + 16) / 2 ^ 16 % 2 ^ 16

def setSenderId (m : Shm) (q v : Nat) : Shm :=
  m.store (q + 16) (m.word (q + 16) / 2 ^ 16 * 2 ^ 16 + v)
def setReceiverId (m : Shm) (q v : Nat) : Shm :=
  m.store (q + 16) (m.word (q + 16) / 2 ^ 32 * 2 ^ 32 + v * 2 ^ 16 + m.word (q + 16) % 2 ^ 16)

def senderNext (m : Shm) (q : Nat) : Nat := m.word (q + 24)
def receiverNext (m : Shm) (q : Nat) : Nat := m.word (q + 32)

/-! ## §4 — what the writes leave alone -/

theorem zeroWords_word_of_ne {m : Shm} {b n a : Nat} (h : ∀ k < n, a ≠ b + 8 * k) :
    (m.zeroWords b n).word a = m.word a :=
  if_neg fun ⟨k, hk, hka⟩ => h k hk hka

theorem zeroWords_word_self {m : Shm} {b n k : Nat} (hk : k < n) :
    (m.zeroWords b n).word (b + 8 * k) = 0 :=
  if_pos ⟨k, hk, rfl⟩

theorem pushThreadFree_word_of_ne {m : Shm} {i b a : Nat} (h : a ≠ b) :
    (m.pushThreadFree i b).word a = m.word a :=
  Function.update_of_ne h ..

theorem page_setPage (m : Shm) (pg pg' : Nat × Nat) (p : Page) :
    (m.setPage pg p).page pg' = if pg' = pg then p else m.page pg' := by
  obtain ⟨i, j⟩ := pg
  obtain ⟨i', j'⟩ := pg'
  simp only [Shm.page, Shm.setPage, Segment.setPage, Prod.mk.injEq]
  by_cases hi : i' = i
  · subst hi
    by_cases hj : j' = j
    · simp [hj]
    · simp [hj]
  · simp [hi]

theorem threadId_setPage (m : Shm) (pg : Nat × Nat) (p : Page) (i : Nat) :
    ((m.setPage pg p).segment i).threadId = (m.segment i).threadId := by
  simp only [Shm.setPage, Segment.setPage]
  by_cases hi : i = pg.1
  · simp [hi]
  · simp [hi]

theorem used_setPage (m : Shm) (pg : Nat × Nat) (p : Page) (k : Nat) :
    ((m.setPage pg p).segment k).used = (m.segment k).used := by
  simp only [Shm.setPage, Segment.setPage]
  by_cases hk : k = pg.1
  · simp [hk]
  · simp [hk]

end Shm

end CxlShm
