import CxlShm.Recovery
import CxlShm.Lib.Transition

/-! # QueueEnds — who holds the ends of a message queue

A queue names its sender and its receiver in the block, and each of the two has the queue on a list
headed in its thread-local state. `create_msg_queue` and the attachment in `cxl_unwrap` update the two
places by separate stores, here one step each; a client may crash between any two of them, and
`recovery_garbage_collection` walks the lists of the crashed client link by link while the others go
on.

Everything else that happens to the shared area (sends, receives, allocation, the release of entries
by the monitor) is the move `env`, which leaves the words of the two ends alone.
-/

namespace CxlShm

open Transition Loop

/-! ## §1 — the ends of a queue in memory -/

/-- The 192 bytes of two queue blocks do not overlap. -/
def QueuesApart (q q' : Nat) : Prop := q + sizeofMessageQueue ≤ q' ∨ q' + sizeofMessageQueue ≤ q

theorem QueuesApart.symm {q q' : Nat} (h : QueuesApart q q') : QueuesApart q' q := h.elim Or.inr Or.inl

/-- A field of one block is not a field of another. -/
theorem QueuesApart.field_ne {q q' i j : Nat} (h : QueuesApart q q') (hi : i < sizeofMessageQueue)
    (hj : j < sizeofMessageQueue) : q' + j ≠ q + i := by
  unfold QueuesApart at h
  omega

/-- The three words of a queue that say who its ends are. -/
structure SameEnds (m m' : Shm) (q : Nat) : Prop where
  ids : m'.word (q + 16) = m.word (q + 16)
  senderNext : m'.senderNext q = m.senderNext q
  receiverNext : m'.receiverNext q = m.receiverNext q

section Ends

variable {m m' : Shm} {q q' v : Nat}

theorem SameEnds.refl (m : Shm) (q : Nat) : SameEnds m m q := ⟨rfl, rfl, rfl⟩

theorem SameEnds.senderId (h : SameEnds m m' q) : m'.senderId q = m.senderId q := by
  unfold Shm.senderId
  rw [h.ids]

theorem SameEnds.receiverId (h : SameEnds m m' q) : m'.receiverId q = m.receiverId q := by
  unfold Shm.receiverId
  rw [h.ids]

/-- A store to one block leaves the ends of the others. -/
theorem SameEnds.store {i : Nat} (h : QueuesApart q q') (hi : i < sizeofMessageQueue) :
    SameEnds m (m.store (q + i) v) q' := by
  have hne : ∀ j < sizeofMessageQueue, (m.store (q + i) v).word (q' + j) = m.word (q' + j) :=
    fun j hj => Function.update_of_ne (h.field_ne hi hj) ..
  exact ⟨hne 16 (by decide), hne 24 (by decide), hne 32 (by decide)⟩

/-- **A send or a receive leaves the ends alone.** Its stores to the queue go to `start`, `end` and
the buffer. -/
theorem SameEnds.ring (m : Shm) (q v : Nat) :
    SameEnds m (m.store q v) q ∧ SameEnds m (m.store (q + 8) v) q ∧
      ∀ k, SameEnds m (m.store (bufferSlot q k) v) q := by
  have hne : ∀ a j, q + j ≠ a → (m.store a v).word (q + j) = m.word (q + j) :=
    fun a j h => Function.update_of_ne h ..
  refine ⟨⟨hne _ 16 (by omega), hne _ 24 (by omega), hne _ 32 (by omega)⟩,
    ⟨hne _ 16 (by omega), hne _ 24 (by omega), hne _ 32 (by omega)⟩, fun k => ?_⟩
  unfold bufferSlot
  exact ⟨hne _ 16 (by omega), hne _ 24 (by omega), hne _ 32 (by omega)⟩

theorem SameEnds.setSenderId (h : QueuesApart q q') : SameEnds m (m.setSenderId q v) q' :=
  SameEnds.store h (by decide)

theorem setSenderId_senderId (hv : v < 2 ^ 16) : (m.setSenderId q v).senderId q = v := by
  simp only [Shm.senderId, Shm.setSenderId, Shm.store_word, Function.update_self]
  omega

theorem setSenderId_receiverId (hv : v < 2 ^ 16) :
    (m.setSenderId q v).receiverId q = m.receiverId q := by
  simp only [Shm.receiverId, Shm.setSenderId, Shm.store_word, Function.update_self]
  omega

theorem setReceiverId_receiverId (hv : v < 2 ^ 16) : (m.setReceiverId q v).receiverId q = v := by
  simp only [Shm.receiverId, Shm.setReceiverId, Shm.store_word, Function.update_self]
  omega

theorem setReceiverId_senderId : (m.setReceiverId q v).senderId q = m.senderId q := by
  simp only [Shm.senderId, Shm.setReceiverId, Shm.store_word, Function.update_self]
  omega

theorem setSenderId_next :
    (m.setSenderId q v).senderNext q = m.senderNext q ∧
      (m.setSenderId q v).receiverNext q = m.receiverNext q :=
  ⟨Function.update_of_ne (by omega) .., Function.update_of_ne (by omega) ..⟩

theorem setReceiverId_next :
    (m.setReceiverId q v).senderNext q = m.senderNext q ∧
      (m.setReceiverId q v).receiverNext q = m.receiverNext q :=
  ⟨Function.update_of_ne (by omega) .., Function.update_of_ne (by omega) ..⟩

end Ends

/-! ## §2 — the machine -/

/-- How far `block_to_msg_queue` and `create_msg_queue` have come with a block: not a queue, its
`sender_id` stored, its `receiver_id` too, put on the list of its sender. -/
inductive QueueStage
  | raw
  | named
  | cleared
  | linked
  deriving DecidableEq, Repr

/-- Where a client stands between two accesses. -/
inductive EndPc
  | unregistered
  | idle
  -- `block_to_msg_queue`, then `create_msg_queue`
  | storeSenderId (q : Nat)
  | storeReceiverZero (q : Nat)
  | clear (q k : Nat)
  | storeSenderNext (q : Nat)
  | storeSenderQueue (q : Nat)
  -- `cxl_unwrap`, up to the test of the ring
  | testReceiver (q : Nat)
  | storeReceiverNext (q : Nat)
  | storeReceiverQueue (q : Nat)
  | storeReceiverId (q : Nat)
  /-- `unlinked` is the block the crash leaves with a `sender_id` and on no list, `unnamed` the queue
  it leaves on the receiver list without a `receiver_id` -/
  | crashed (unlinked unnamed : Option Nat)
  deriving DecidableEq, Repr

/-- The block that carries the client's id as `sender_id` and is not on its list yet. -/
def EndPc.building : EndPc → Option Nat
  | .storeReceiverZero q => some q
  | .clear q _ => some q
  | .storeSenderNext q => some q
  | .storeSenderQueue q => some q
  | .crashed unlinked _ => unlinked
  | _ => none

/-- The queue that is on the client's receiver list and does not carry its id yet. -/
def EndPc.unnamed : EndPc → Option Nat
  | .storeReceiverId q => some q
  | .crashed _ unnamed => unnamed
  | _ => none

/-- The queue the client has found without a receiver and is attaching to. -/
def EndPc.attaching : EndPc → Option Nat
  | .storeReceiverNext q => some q
  | .storeReceiverQueue q => some q
  | .storeReceiverId q => some q
  | .crashed _ unnamed => unnamed
  | _ => none

theorem EndPc.attaching_of_unnamed {pc : EndPc} {q : Nat} (h : pc.unnamed = some q) :
    pc.attaching = some q := by
  cases pc with
  | storeReceiverId q' => exact h
  | crashed a b => exact h
  | _ => cases h

/-- The unlinked block lies in segment `i`, which is given back. -/
def EndPc.dropUnlinked (i : Nat) : EndPc → EndPc
  | .crashed (some q) b => if segmentIdx q = i then .crashed none b else .crashed (some q) b
  | pc => pc

/-- Queue `q` has been taken off the receiver list. -/
def EndPc.dropUnnamed (q : Nat) : EndPc → EndPc
  | .crashed a (some q') => if q' = q then .crashed a none else .crashed a (some q')
  | pc => pc

/-- Where the monitor stands in `recovery_garbage_collection` for a client. -/
inductive MonPc
  | idle
  | senders (t p : Nat)
  | storeSenderId (t q next : Nat)
  | markAbandon (t q next : Nat)
  | receivers (t p : Nat)
  | storeReceiverId (t q next : Nat)
  | objects (t : Nat)
  | segments (t i : Nat)
  | resetTls (t : Nat)
  | release (t : Nat)
  deriving DecidableEq, Repr

/-- The client under recovery. -/
def MonPc.client : MonPc → Option Nat
  | .idle => none
  | .senders t _ => some t
  | .storeSenderId t _ _ => some t
  | .markAbandon t _ _ => some t
  | .receivers t _ => some t
  | .storeReceiverId t _ _ => some t
  | .objects t => some t
  | .segments t _ => some t
  | .resetTls t => some t
  | .release t => some t

/-- The clients under their thread ids, the monitor, and how far each block has come. -/
structure EndSys where
  shm : Shm
  pc : Nat → EndPc
  mon : MonPc
  stage : Nat → QueueStage

/-- The words `block_to_msg_queue` zeroes after the two ids: `start`, `end`, `sender_next`,
`receiver_next` and the buffer. -/
def clearedWord (q k : Nat) : Nat := if k < 2 then q + 8 * k else q + 8 + 8 * k

/-- Their number. -/
def clearedWords : Nat := 4 + messageBufferSize

inductive EndMove
  | register (t : Nat)
  /-- `msg_queue_alloc` has found the block `q` -/
  | alloc (t q : Nat)
  /-- a call of `cxl_unwrap` on `q` -/
  | unwrap (t q : Nat)
  | access (t : Nat)
  | crash (t : Nat)
  | inspect (t : Nat)
  | monitor
  /-- the monitor looks through an object page of the client -/
  | objectPage (pg : Nat × Nat)
  | env (m : Shm)

/-- The block is a queue, or a client is about to make it one. -/
def EndSys.Handed (s : EndSys) (q : Nat) : Prop :=
  s.stage q ≠ .raw ∨ ∃ t, s.pc t = .storeSenderId q

/-- The owner and the state of a segment. -/
def Shm.owner (m : Shm) (i : Nat) : Nat := (m.sas i).threadId

def Shm.abandoned (m : Shm) (i : Nat) : Prop := (m.sas i).state = .abandon

def EndPc.moving : EndPc → Prop
  | .unregistered => False
  | .idle => False
  | .crashed _ _ => False
  | _ => True

/-- `check_tls` is a stub in the source; here it answers whether the client has crashed. -/
def EndMove.enabled (s : EndSys) : EndMove → Prop
  | .register t => 1 ≤ t ∧ t ≤ maxThread ∧ s.pc t = .unregistered
  | .alloc t q => s.pc t = .idle ∧ segmentsAreaStart ≤ q ∧ segmentIdx q < maxSegmentNum ∧
      s.shm.owner (segmentIdx q) = t ∧ ∀ q', s.Handed q' → QueuesApart q q'
  | .unwrap t q => s.pc t = .idle ∧ s.stage q = .linked
  | .access t => (s.pc t).moving
  | .crash t => s.pc t ≠ .unregistered ∧ ∀ a b, s.pc t ≠ .crashed a b
  | .inspect t => s.mon = .idle ∧ ∃ a b, s.pc t = .crashed a b
  | .monitor => s.mon ≠ .idle
  | .objectPage pg => ∃ t, s.mon = .objects t ∧ s.shm.owner pg.1 = t
  | .env m => (∀ q, s.Handed q → SameEnds s.shm m q ∧
        m.owner (segmentIdx q) = s.shm.owner (segmentIdx q) ∧
        (m.abandoned (segmentIdx q) ↔ s.shm.abandoned (segmentIdx q))) ∧
      ∀ t, (m.tls t).senderQueue = (s.shm.tls t).senderQueue ∧
        (m.tls t).receiverQueue = (s.shm.tls t).receiverQueue

def EndSys.setPc (s : EndSys) (t : Nat) (pc : EndPc) : EndSys :=
  { s with pc := Function.update s.pc t pc }

def EndSys.setStage (s : EndSys) (q : Nat) (st : QueueStage) : EndSys :=
  { s with stage := Function.update s.stage q st }

/-- The next access of client `t`. -/
def EndSys.access (s : EndSys) (t : Nat) : EndSys :=
  let tls := s.shm.tls t
  match s.pc t with
  | .storeSenderId q =>
    { (s.setPc t (.storeReceiverZero q)).setStage q .named with shm := s.shm.setSenderId q t }
  | .storeReceiverZero q =>
    { (s.setPc t (.clear q 0)).setStage q .cleared with shm := s.shm.setReceiverId q 0 }
  | .clear q k =>
    { s.setPc t (if k + 1 < clearedWords then .clear q (k + 1) else .storeSenderNext q) with
      shm := s.shm.store (clearedWord q k) 0 }
  | .storeSenderNext q =>
    { s.setPc t (.storeSenderQueue q) with shm := s.shm.store (q + 24) tls.senderQueue }
  | .storeSenderQueue q =>
    { (s.setPc t .idle).setStage q .linked with shm := s.shm.setTls t { tls with senderQueue := q } }
  | .testReceiver q => s.setPc t (if s.shm.receiverId q = 0 then .storeReceiverNext q else .idle)
  | .storeReceiverNext q =>
    { s.setPc t (.storeReceiverQueue q) with shm := s.shm.store (q + 32) tls.receiverQueue }
  | .storeReceiverQueue q =>
    { s.setPc t (.storeReceiverId q) with shm := s.shm.setTls t { tls with receiverQueue := q } }
  | .storeReceiverId q => { s.setPc t .idle with shm := s.shm.setReceiverId q t }
  | _ => s

/-- What `recovery_cxl_segment_free` makes of the blocks of segment `i`: its page headers are zeroed. -/
def EndSys.dropSegment (s : EndSys) (t i : Nat) : EndSys :=
  { s.setPc t ((s.pc t).dropUnlinked i) with
    shm := recoveryCxlSegmentFree i s.shm
    stage := fun q => if segmentIdx q = i then .raw else s.stage q }

/-- The next access of the monitor to the lists, the segments and the slot of a crashed client. -/
def EndSys.monitor (s : EndSys) : EndSys :=
  match s.mon with
  | .idle => s
  | .senders t p =>
    if p = 0 then { s with mon := .receivers t (s.shm.tls t).receiverQueue }
    else { s with mon := .storeSenderId t p (s.shm.senderNext p) }
  | .storeSenderId t q next => { s with mon := .markAbandon t q next, shm := s.shm.setSenderId q 0 }
  | .markAbandon t q next =>
    { s with mon := .senders t next, shm := s.shm.setSegmentState (segmentIdx q) .abandon }
  | .receivers t p =>
    if p = 0 then { s with mon := .objects t }
    else { s with mon := .storeReceiverId t p (s.shm.receiverNext p) }
  | .storeReceiverId t q next =>
    { s.setPc t ((s.pc t).dropUnnamed q) with
      mon := .receivers t next
      shm := s.shm.setReceiverId q 0 }
  | .objects t => { s with mon := .segments t 0 }
  | .segments t i =>
    if i < maxSegmentNum then
      if s.shm.owner i = t ∧ (s.shm.sas i).state ≠ .abandon then
        { s.dropSegment t i with mon := .segments t (i + 1) }
      else { s with mon := .segments t (i + 1) }
    else { s with mon := .resetTls t }
  | .resetTls t =>
    { s with mon := .release t, shm := s.shm.setTls t (s.shm.tls t).resetQueues }
  | .release t =>
    { s.setPc t .unregistered with
      mon := .idle
      shm := s.shm.setTls t ((s.shm.tls t).setId 0) }

def EndSys.next (s : EndSys) : EndMove → EndSys
  | .register t =>
    { s.setPc t .idle with shm := s.shm.setTls t (s.shm.tls t).resetQueues }
  | .alloc t q => s.setPc t (.storeSenderId q)
  | .unwrap t q => s.setPc t (.testReceiver q)
  | .access t => s.access t
  | .crash t => s.setPc t (.crashed (s.pc t).building (s.pc t).unnamed)
  | .inspect t => { s with mon := .senders t (s.shm.tls t).senderQueue }
  | .monitor => s.monitor
  | .objectPage pg =>
    if pageAlive pg (s.shm.page pg).blockSize s.shm then
      { s with shm := s.shm.setSegmentState pg.1 .abandon }
    else s
  | .env m => { s with shm := m }

/-- Nobody is registered and no block is a queue; the words of the area are arbitrary. -/
structure EndInit (s : EndSys) : Prop where
  pc : ∀ t, s.pc t = .unregistered
  mon : s.mon = .idle
  stage : ∀ q, s.stage q = .raw
  senders : ∀ t, (s.shm.tls t).senderQueue = 0
  receivers : ∀ t, (s.shm.tls t).receiverQueue = 0

def EndStep (s s' : EndSys) : Prop := ∃ mv : EndMove, mv.enabled s ∧ s' = s.next mv

def EndReach : EndSys → Prop := Reach EndInit EndStep fun _ => True

/-- What the move must not run into: an attachment to a queue another client is attaching to, a crash
between the store of `sender_id` and that of `sender_queue` that leaves the block in a segment which
recovery keeps, be it for another queue of the client or for a live object. -/
def Orderly (s : EndSys) : EndMove → Prop
  | .access t => ∀ q, s.pc t = .testReceiver q → s.shm.receiverId q = 0 →
      ∀ u, (s.pc u).attaching ≠ some q
  | .crash t => ∀ q, (s.pc t).building = some q → ¬ s.shm.abandoned (segmentIdx q) ∧
      ∀ q', s.stage q' = .linked → s.shm.senderId q' = t → segmentIdx q' ≠ segmentIdx q
  | .objectPage pg => pageAlive pg (s.shm.page pg).blockSize s.shm = true →
      ∀ q, s.stage q = .named ∨ s.stage q = .cleared → segmentIdx q ≠ pg.1
  | _ => True

def OrderlyStep (s s' : EndSys) : Prop :=
  ∃ mv : EndMove, mv.enabled s ∧ Orderly s mv ∧ s' = s.next mv

/-- The runs all of whose moves are orderly. -/
def OrderlyReach : EndSys → Prop := Reach EndInit OrderlyStep fun _ => True

/-- Block `q` is a queue in a claimed segment and one of its ends is client `t`. -/
def HasEnd (s : EndSys) (t q : Nat) : Prop :=
  s.shm.owner (segmentIdx q) ≠ 0 ∧
    (s.stage q ≠ .raw ∧ s.shm.senderId q = t ∨
      (s.stage q = .cleared ∨ s.stage q = .linked) ∧ s.shm.receiverId q = t)

end CxlShm
