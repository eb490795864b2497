import CxlShm.Recovery
import CxlShm.SlotReuse
import CxlShm.Lib.RingWindow

/-! # Ring — the ring of a message queue between its sender and its receivers

One queue, one live sender, and receivers one after the other: each attaches, receives and may crash
at any access, and the monitor replays its log and collects before the next one attaches. One step is
one access to the words of the queue; the remaining accesses of `link_reference` and
`unlink_reference`, like everything else that goes on, are the move `env`, which leaves those words
alone.
-/

namespace CxlShm

open Transition

/-! ## §1 — the machine -/

/-- Where the sender stands in `sent_to`. -/
inductive SendPc
  | idle
  /-- about to read `start` for the two halves of the test -/
  | testStart (o : Nat)
  | testFull (o : Nat)
  /-- in `link_reference`, up to its store to the buffer, and after it -/
  | link (o : Nat)
  | linked (o : Nat)
  | storeEnd (o : Nat)
  deriving DecidableEq, Repr

/-- Where the receiver stands in `cxl_unwrap`: `r` is its id, `a` the RootRef, `v` the entry read.
`crashed`, `scan` and `forget` are the monitor's steps on a receiver that has crashed. -/
inductive RecvPc
  | vacant
  | idle (r : Nat)
  | testReceiver (r : Nat)
  | storeReceiverNext (r : Nat)
  | storeReceiverQueue (r : Nat)
  | storeReceiverId (r : Nat)
  | testEmpty (r : Nat)
  | testEntry (r : Nat)
  | take (r : Nat)
  | hold (r a v : Nat)
  | release (r a v : Nat)
  | cleared (r a v : Nat)
  | storeStart (r a v : Nat)
  | crashed (r : Nat)
  | scan (r i : Nat)
  | forget (r : Nat)
  deriving DecidableEq, Repr

/-- The receiver is inside `cxl_unwrap`. -/
def RecvPc.running : RecvPc → Prop
  | .vacant => False
  | .idle _ => False
  | .crashed _ => False
  | .scan _ _ => False
  | .forget _ => False
  | _ => True

/-- The receiver, if there is one, is between two operations. -/
def RecvPc.between : RecvPc → Prop
  | .vacant => True
  | .idle _ => True
  | _ => False

/-- The monitor is at work on the receiver. -/
def RecvPc.inRecovery : RecvPc → Prop
  | .crashed _ => True
  | .scan _ _ => True
  | .forget _ => True
  | _ => False

/-- The client a crash takes down. -/
def RecvPc.client : RecvPc → Nat
  | .vacant => 0
  | .idle r => r
  | .testReceiver r => r
  | .storeReceiverNext r => r
  | .storeReceiverQueue r => r
  | .storeReceiverId r => r
  | .testEmpty r => r
  | .testEntry r => r
  | .take r => r
  | .hold r _ _ => r
  | .release r _ _ => r
  | .cleared r _ _ => r
  | .storeStart r _ _ => r
  | .crashed r => r
  | .scan r _ => r
  | .forget r => r

/-- `onList` says that the queue is on the receiver list of the present receiver. `sent`, `received`
and `base` are history: what has been linked into the buffer, what the present receiver has got, and
how many entries had been consumed when it took over. -/
structure RingSys where
  shm : Shm
  send : SendPc
  recv : RecvPc
  onList : Bool
  sent : List Nat
  received : List Nat
  base : Nat

inductive RingMove
  | send (o : Nat)
  | sender
  | unwrap (r : Nat)
  /-- `a` is the RootRef if this access takes an entry -/
  | receiver (a : Nat)
  | crash
  | monitor (fuel : Nat)
  | env (m : Shm)

/-- The words of the queue block are the same. -/
def SameQueue (q : Nat) (m m' : Shm) : Prop :=
  ∀ j < 5 + messageBufferSize, m'.word (q + 8 * j) = m.word (q + 8 * j)

/-- `start`, `end` and the buffer are the same. -/
structure SameRing (q : Nat) (m m' : Shm) : Prop where
  start : m'.queueStart q = m.queueStart q
  stop : m'.queueEnd q = m.queueEnd q
  buffer : ∀ k < messageBufferSize, m'.word (bufferSlot q k) = m.word (bufferSlot q k)

def RingMove.enabled (q : Nat) (s : RingSys) : RingMove → Prop
  | .send o => s.send = .idle ∧ o ≠ 0
  | .sender => s.send ≠ .idle
  | .unwrap r => s.recv = .vacant ∨ s.recv = .idle r
  | .receiver _ => s.recv.running
  | .crash => s.recv ≠ .vacant ∧ ¬ s.recv.inRecovery
  | .monitor fuel => s.recv.inRecovery ∧ ∀ r i, s.recv = .scan r i → i ≠ s.shm.queueEnd q →
      (releaseEntry r fuel q i s.shm).isSome
  | .env m => SameQueue q s.shm m

/-- The next access of `sent_to`. The sums and differences of the test are unsigned 64-bit. -/
def RingSys.sender (q : Nat) (s : RingSys) : RingSys :=
  match s.send with
  | .idle => s
  | .testStart o =>
    { s with send := if (s.shm.queueEnd q + 1) % 2 ^ 64 = s.shm.queueStart q then .idle
      else .testFull o }
  | .testFull o =>
    { s with send :=
        if (s.shm.queueEnd q + (2 ^ 64 - s.shm.queueStart q)) % 2 ^ 64 = messageBufferSize - 1 then .idle
        else .link o }
  | .link o =>
    { s with
      send := .linked o
      shm := s.shm.store (bufferSlot q (s.shm.queueEnd q)) o
      sent := s.sent ++ [o] }
  | .linked o => { s with send := .storeEnd o }
  | .storeEnd _ =>
    { s with
      send := .idle
      shm := s.shm.store (q + 8) ((s.shm.queueEnd q + 1) % messageBufferSize) }

/-- The next access of `cxl_unwrap`. A zero entry at `start` counts as an empty ring. -/
def RingSys.receiver (q a : Nat) (s : RingSys) : RingSys :=
  match s.recv with
  | .testReceiver r =>
    { s with recv := if s.shm.receiverId q = 0 then .storeReceiverNext r else .testEmpty r }
  | .storeReceiverNext r =>
    { s with
      recv := .storeReceiverQueue r
      shm := s.shm.store (q + 32) (s.shm.tls r).receiverQueue }
  | .storeReceiverQueue r =>
    { s with
      recv := .storeReceiverId r
      shm := s.shm.setTls r { s.shm.tls r with receiverQueue := q }
      onList := true }
  | .storeReceiverId r => { s with recv := .testEmpty r, shm := s.shm.setReceiverId q r }
  | .testEmpty r =>
    { s with recv := if s.shm.queueStart q = s.shm.queueEnd q then .idle r else .testEntry r }
  | .testEntry r =>
    { s with recv := if s.shm.word (bufferSlot q (s.shm.queueStart q)) = 0 then .idle r else .take r }
  | .take r => { s with recv := .hold r a (s.shm.word (bufferSlot q (s.shm.queueStart q))) }
  | .hold r a v => { s with recv := .release r a v }
  | .release r a v =>
    { s with recv := .cleared r a v, shm := s.shm.store (bufferSlot q (s.shm.queueStart q)) 0 }
  | .cleared r a v => { s with recv := .storeStart r a v }
  | .storeStart r _ v =>
    { s with
      recv := .idle r
      shm := s.shm.store q ((s.shm.queueStart q + 1) % messageBufferSize)
      received := s.received ++ [v] }
  | _ => s

/-- The queue is without a receiver again. -/
def RingSys.leave (s : RingSys) : RingSys :=
  { s with
    recv := .vacant
    onList := false
    received := []
    base := s.base + s.received.length }

/-- The monitor's next step: `redo_ref_cnt`, then the scan of the queue if the receiver has it on its
list, one round of the loop at a time, then the store to `receiver_id`. -/
def RingSys.monitor (q fuel : Nat) (s : RingSys) : RingSys :=
  match s.recv with
  | .crashed r =>
    if s.onList then
      { s with recv := .scan r (s.shm.queueStart q), shm := redoRefCnt r s.shm }
    else { s with shm := redoRefCnt r s.shm }.leave
  | .scan r i =>
    if i = s.shm.queueEnd q then { s with recv := .forget r }
    else
      { s with
        recv := .scan r ((i + 1) % messageBufferSize)
        shm := (releaseEntry r fuel q i s.shm).getD s.shm }
  | .forget _ => { s with shm := s.shm.setReceiverId q 0 }.leave
  | _ => s

def RingSys.next (q : Nat) (s : RingSys) : RingMove → RingSys
  | .send o => { s with send := .testStart o }
  | .sender => s.sender q
  | .unwrap r => { s with recv := .testReceiver r }
  | .receiver a => s.receiver q a
  | .crash => { s with recv := .crashed s.recv.client }
  | .monitor fuel => s.monitor q fuel
  | .env m => { s with shm := m }

/-- A queue as `block_to_msg_queue` leaves it. -/
structure RingInit (q : Nat) (s : RingSys) : Prop where
  buffer : ∀ k < messageBufferSize, s.shm.word (bufferSlot q k) = 0
  start : s.shm.queueStart q = 0
  stop : s.shm.queueEnd q = 0
  receiver : s.shm.receiverId q = 0
  send : s.send = .idle
  recv : s.recv = .vacant
  onList : s.onList = false
  sent : s.sent = []
  received : s.received = []
  base : s.base = 0

def RingStep (q : Nat) (s s' : RingSys) : Prop := ∃ mv : RingMove, mv.enabled q s ∧ s' = s.next q mv

def RingReach (q : Nat) : RingSys → Prop := Reach (RingInit q) (RingStep q) fun _ => True

theorem RingReach.next {q : Nat} {s : RingSys} (h : RingReach q s) (mv : RingMove)
    (hen : mv.enabled q s) : RingReach q (s.next q mv) :=
  Reach.step h ⟨mv, hen, rfl⟩ trivial

/-- The line the replay of client `r` applies, if any, names no word of the queue that holds something
else than the replay stores. -/
def ReplayAgrees (q r : Nat) (m : Shm) : Prop :=
  ∀ k, Applies m r k → ∀ j < 5 + messageBufferSize, (m.redo r k).ref = q + 8 * j →
    m.word (q + 8 * j) = (m.redo r k).result

/-- What the move must not run into: a replay that changes a word of the queue, a receiver's recovery
that finds entries in the ring. -/
def LeavesRing (q : Nat) (s : RingSys) : RingMove → Prop
  | .monitor _ => (∀ r, s.recv = .crashed r → ReplayAgrees q r s.shm) ∧
      ∀ r i, s.recv = .scan r i → i = s.shm.queueEnd q
  | _ => True

def LeavingStep (q : Nat) (s s' : RingSys) : Prop :=
  ∃ mv : RingMove, mv.enabled q s ∧ LeavesRing q s mv ∧ s' = s.next q mv

/-- The runs all of whose recoveries leave the ring as it is. -/
def LeavingReach (q : Nat) : RingSys → Prop := Reach (RingInit q) (LeavingStep q) fun _ => True

/-! ## §2 — what is in the ring -/

/-- Buffer entry `k` lies from `start` (inclusive) to `end` (exclusive), modulo the size. -/
def InRing (q : Nat) (m : Shm) (k : Nat) : Prop :=
  (k + messageBufferSize - m.queueStart q) % messageBufferSize <
    (m.queueEnd q + messageBufferSize - m.queueStart q) % messageBufferSize

instance (q : Nat) (m : Shm) (k : Nat) : Decidable (InRing q m k) := by
  unfold InRing
  infer_instance

/-- The number of entries from `start` to `end`. -/
def ringEntries (q : Nat) (m : Shm) : Nat :=
  (m.queueEnd q + messageBufferSize - m.queueStart q) % messageBufferSize

/-- Between operations the non-zero entries are those from `start` to `end`. -/
def RingFilled (q : Nat) (s : RingSys) : Prop :=
  s.send = .idle → s.recv.between →
    ∀ k < messageBufferSize, s.shm.word (bufferSlot q k) ≠ 0 ↔ InRing q s.shm k

/-- The queue works for its present receiver: the ring is filled from `start` to `end`, the receiver
gets what is sent since it took over, in order, finds every entry it looks at, and an empty ring
means that it has got everything. -/
structure RingUsable (q : Nat) (s : RingSys) : Prop where
  filled : RingFilled q s
  order : s.received <+: s.sent.drop s.base
  found : ∀ r, s.recv = .testEntry r → s.shm.word (bufferSlot q (s.shm.queueStart q)) ≠ 0
  drained : s.send = .idle → s.recv.between → s.shm.queueStart q = s.shm.queueEnd q →
    s.received = s.sent.drop s.base

end CxlShm
