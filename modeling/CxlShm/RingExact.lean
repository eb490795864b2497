import CxlShm.Ring
import CxlShm.QueueEnds
import Mathlib.Data.List.GetD
import Mathlib.Data.List.Infix

/-! # RingExact — when the ring stays usable

Positions that never wrap: `consumed` entries have left the ring and `published` have been made
visible, so `start` and `end` are their remainders and the buffer is the window on `sent` that begins
at `consumed`, or one further while an entry is cleared and `start` not yet advanced.
-/

namespace CxlShm

open Transition RingWindow

/-! ## §1 — the invariant -/

/-- `1` while an entry is linked and `end` not yet advanced. -/
def SendPc.unpublished : SendPc → Nat
  | .linked _ => 1
  | .storeEnd _ => 1
  | _ => 0

def RingSys.consumed (s : RingSys) : Nat := s.base + s.received.length

def RingSys.published (s : RingSys) : Nat := s.sent.length - s.send.unpublished

/-- How many entries from `start` on may be cleared: one while `cxl_unwrap` is about to advance
`start`, and after a crash there. -/
def RecvPc.Emptied (g : Nat) : RecvPc → Prop
  | .cleared _ _ _ => g = 1
  | .storeStart _ _ _ => g = 1
  | .crashed _ => g ≤ 1
  | .scan _ _ => g ≤ 1
  | _ => g = 0

/-- The entry at position `n`, 0 from the end of `sent` on. -/
def RingSys.entry (s : RingSys) (n : Nat) : Nat := s.sent.getD n 0

def bufferCell (q : Nat) (m : Shm) (k : Nat) : Nat := m.word (bufferSlot q k)

/-- What the words of the ring are. -/
structure RingWords (q : Nat) (s : RingSys) : Prop where
  start : s.shm.queueStart q = s.consumed % messageBufferSize
  stop : s.shm.queueEnd q = s.published % messageBufferSize
  unpublished : s.send.unpublished ≤ s.sent.length
  room : s.sent.length < s.consumed + messageBufferSize
  nonzero : 0 ∉ s.sent
  order : s.received <+: s.sent.drop s.base
  window : ∃ g, s.recv.Emptied g ∧ (g = 1 → s.onList = true) ∧ s.consumed + g ≤ s.published ∧
    Window messageBufferSize (bufferCell q s.shm) s.entry (s.consumed + g)

/-- What the sender knows: past the first half of the test the ring may be full only if `end` is the
last index, past the second it is not. -/
def SendPc.Knows (s : RingSys) : SendPc → Prop
  | .testStart o => o ≠ 0
  | .testFull o => o ≠ 0 ∧ (s.sent.length + 1 < s.consumed + messageBufferSize ∨
      s.published % messageBufferSize = messageBufferSize - 1)
  | .link o => o ≠ 0 ∧ s.sent.length + 1 < s.consumed + messageBufferSize
  | _ => True

/-- What the receiver knows about the entry at `start`. -/
def RecvPc.Knows (q : Nat) (s : RingSys) : RecvPc → Prop
  | .testEntry _ => s.consumed < s.published
  | .take _ => s.consumed < s.published
  | .hold _ _ v => s.consumed < s.published ∧ s.entry s.consumed = v
  | .release _ _ v => s.consumed < s.published ∧ s.entry s.consumed = v
  | .cleared _ _ v => s.consumed < s.published ∧ s.entry s.consumed = v
  | .storeStart _ _ v => s.consumed < s.published ∧ s.entry s.consumed = v
  | .scan _ i => i = s.shm.queueStart q
  | _ => True

/-- Where a receiver may stand that does not have the queue on its list. -/
def RecvPc.unlisted : RecvPc → Prop
  | .vacant => True
  | .testReceiver _ => True
  | .storeReceiverNext _ => True
  | .storeReceiverQueue _ => True
  | .crashed _ => True
  | _ => False

structure RingInv (q : Nat) (s : RingSys) : Prop extends RingWords q s where
  sending : s.send.Knows s
  receiving : s.recv.Knows q s
  listed : s.onList = false → s.recv.unlisted ∧ s.shm.receiverId q = 0

/-! ## §2 — what the positions say -/

section Positions

variable {q : Nat} {s : RingSys}

theorem RingWords.le (h : RingWords q s) : s.consumed ≤ s.published := by
  obtain ⟨g, -, -, hle, -⟩ := h.window
  omega

theorem RingWords.lt (h : RingWords q s) : s.published < s.consumed + messageBufferSize := by
  have hroom := h.room
  have hsub : s.published ≤ s.sent.length := Nat.sub_le _ _
  omega

/-- **The number of entries.** -/
theorem RingWords.ringEntries_eq (h : RingWords q s) :
    ringEntries q s.shm = s.published - s.consumed := by
  unfold ringEntries
  rw [h.start, h.stop]
  exact distance h.le h.lt

theorem RingWords.start_eq_stop_iff (h : RingWords q s) :
    s.shm.queueStart q = s.shm.queueEnd q ↔ s.consumed = s.published := by
  rw [h.start, h.stop]
  constructor
  · intro he
    exact eq_of_mod_eq (Nat.le_refl _) (Nat.lt_add_of_pos_right (by decide)) h.le h.lt he
  · intro he
    rw [he]

/-- **The full test.** The first half finds a full ring whose `end` is not the last index. -/
theorem RingWords.full_of_succ (h : RingWords q s)
    (he : (s.shm.queueEnd q + 1) % 2 ^ 64 = s.shm.queueStart q) :
    s.published + 1 = s.consumed + messageBufferSize := by
  have hle := h.le
  have hlt := h.lt
  rw [h.start, h.stop] at he
  simp only [messageBufferSize] at *
  omega

theorem RingWords.room_of_succ (h : RingWords q s)
    (he : (s.shm.queueEnd q + 1) % 2 ^ 64 ≠ s.shm.queueStart q) :
    s.published + 1 < s.consumed + messageBufferSize ∨
      s.published % messageBufferSize = messageBufferSize - 1 := by
  have hle := h.le
  have hlt := h.lt
  rw [h.start, h.stop] at he
  simp only [messageBufferSize] at *
  omega

/-- The second half finds a full ring whose `end` is the last index. -/
theorem RingWords.full_of_diff (h : RingWords q s)
    (he : (s.shm.queueEnd q + (2 ^ 64 - s.shm.queueStart q)) % 2 ^ 64 = messageBufferSize - 1) :
    s.published + 1 = s.consumed + messageBufferSize := by
  have hle := h.le
  have hlt := h.lt
  rw [h.start, h.stop] at he
  simp only [messageBufferSize] at *
  omega

theorem RingWords.room_of_diff (h : RingWords q s)
    (hk : s.published + 1 < s.consumed + messageBufferSize ∨
      s.published % messageBufferSize = messageBufferSize - 1)
    (he : (s.shm.queueEnd q + (2 ^ 64 - s.shm.queueStart q)) % 2 ^ 64 ≠ messageBufferSize - 1) :
    s.published + 1 < s.consumed + messageBufferSize := by
  have hle := h.le
  have hlt := h.lt
  rw [h.start, h.stop] at he
  simp only [messageBufferSize] at *
  omega

end Positions

/-! ## §3 — quiet steps -/

theorem queueStart_store_of_ne {m : Shm} {q a v : Nat} (h : q ≠ a) :
    (m.store a v).queueStart q = m.queueStart q :=
  Function.update_of_ne h ..

theorem queueEnd_store_of_ne {m : Shm} {q a v : Nat} (h : q + 8 ≠ a) :
    (m.store a v).queueEnd q = m.queueEnd q :=
  Function.update_of_ne h ..

theorem bufferCell_store_of_ne {m : Shm} {q a v : Nat} (h : ∀ k, bufferSlot q k ≠ a) (k : Nat) :
    bufferCell q (m.store a v) k = bufferCell q m k :=
  Function.update_of_ne (h k) ..

theorem bufferSlot_inj {q k l : Nat} (h : bufferSlot q k = bufferSlot q l) : k = l := by
  unfold bufferSlot at h
  omega

/-- A store to a buffer slot is a store to its cell. -/
theorem bufferCell_store (m : Shm) (q i v k : Nat) :
    bufferCell q (m.store (bufferSlot q i) v) k = Function.update (bufferCell q m) i v k := by
  unfold bufferCell
  by_cases hk : k = i
  · subst hk
    rw [Shm.store_word, Function.update_self, Function.update_self]
  · rw [Shm.store_word, Function.update_of_ne fun h => hk (bufferSlot_inj h), Function.update_of_ne hk]

theorem SameRing.refl (q : Nat) (m : Shm) : SameRing q m m := ⟨rfl, rfl, fun _ _ => rfl⟩

theorem SameQueue.sameRing {q : Nat} {m m' : Shm} (h : SameQueue q m m') : SameRing q m m' := by
  refine ⟨h 0 (by decide), h 1 (by decide), ?_⟩
  intro k hk
  have := h (5 + k) (by omega)
  rwa [show q + 8 * (5 + k) = bufferSlot q k by unfold bufferSlot; omega] at this

theorem SameQueue.receiverId {q : Nat} {m m' : Shm} (h : SameQueue q m m') :
    m'.receiverId q = m.receiverId q := by
  unfold Shm.receiverId
  rw [show q + 16 = q + 8 * 2 from rfl, h 2 (by decide)]

/-- The attachment stores nothing to the ring. -/
theorem SameRing.store_fields (q v : Nat) (m : Shm) {j : Nat} (hj : 16 ≤ j) (hj' : j < 40) :
    SameRing q m (m.store (q + j) v) := by
  refine ⟨queueStart_store_of_ne (by omega), queueEnd_store_of_ne (by omega), ?_⟩
  intro k _
  exact bufferCell_store_of_ne (fun k => by unfold bufferSlot; omega) k

section Quiet

variable {q : Nat} {s : RingSys}

/-- A step that leaves the ring and the history alone; the cleared entries may only be fewer. -/
theorem RingWords.quiet (h : RingWords q s) {s' : RingSys} (hm : SameRing q s.shm s'.shm)
    (hsent : s'.sent = s.sent) (hreceived : s'.received = s.received) (hbase : s'.base = s.base)
    (hsend : s'.send.unpublished = s.send.unpublished)
    (hrecv : ∀ g, s.recv.Emptied g → (g = 1 → s.onList = true) → s.consumed + g ≤ s.published →
      s'.recv.Emptied g ∧ (g = 1 → s'.onList = true)) : RingWords q s' := by
  have hc : s'.consumed = s.consumed := by
    unfold RingSys.consumed
    rw [hbase, hreceived]
  have hp : s'.published = s.published := by
    unfold RingSys.published
    rw [hsent, hsend]
  have he : s'.entry = s.entry := by
    unfold RingSys.entry
    rw [hsent]
  refine ⟨?_, ?_, ?_, ?_, ?_, ?_, ?_⟩
  · rw [hm.start, hc]
    exact h.start
  · rw [hm.stop, hp]
    exact h.stop
  · rw [hsend, hsent]
    exact h.unpublished
  · rw [hsent, hc]
    exact h.room
  · rw [hsent]
    exact h.nonzero
  · rw [hreceived, hsent, hbase]
    exact h.order
  · obtain ⟨g, hg, hlist, hle, hw⟩ := h.window
    obtain ⟨hg', hlist'⟩ := hrecv g hg hlist hle
    refine ⟨g, hg', hlist', ?_, ?_⟩
    · rw [hc, hp]
      exact hle
    · rw [hc, he]
      exact hw.congr hm.buffer fun _ _ _ => rfl

/-- What the sender knows outlasts every step of the others. -/
theorem SendPc.Knows.mono {p : SendPc} {s s' : RingSys} (h : p.Knows s) (hsent : s'.sent = s.sent)
    (hsend : s'.send = s.send) (hc : s.consumed ≤ s'.consumed) : p.Knows s' := by
  have hp : s'.published = s.published := by
    unfold RingSys.published
    rw [hsent, hsend]
  cases p with
  | testFull o =>
    refine ⟨h.1, ?_⟩
    rw [hsent, hp]
    exact h.2.imp (fun hlt => by omega) id
  | link o =>
    refine ⟨h.1, ?_⟩
    have := h.2
    rw [hsent]
    omega
  | _ => exact h

/-- What the receiver knows outlasts every step of the sender. -/
theorem RecvPc.Knows.mono {p : RecvPc} {s s' : RingSys} (h : p.Knows q s)
    (hstart : s'.shm.queueStart q = s.shm.queueStart q) (hc : s'.consumed = s.consumed)
    (hp : s.published ≤ s'.published) (he : ∀ n < s.published, s'.entry n = s.entry n) :
    p.Knows q s' := by
  have hkeep : ∀ v, (s.consumed < s.published ∧ s.entry s.consumed = v) →
      s'.consumed < s'.published ∧ s'.entry s'.consumed = v := by
    intro v hv
    rw [hc, he _ hv.1]
    exact ⟨Nat.lt_of_lt_of_le hv.1 hp, hv.2⟩
  cases p with
  | testEntry r => exact (Nat.lt_of_le_of_lt (Nat.le_of_eq hc) (Nat.lt_of_lt_of_le h hp))
  | take r => exact (Nat.lt_of_le_of_lt (Nat.le_of_eq hc) (Nat.lt_of_lt_of_le h hp))
  | hold r a v => exact hkeep v h
  | release r a v => exact hkeep v h
  | cleared r a v => exact hkeep v h
  | storeStart r a v => exact hkeep v h
  | scan r i => exact h.trans hstart.symm
  | _ => trivial

end Quiet

/-! ## §4 — the sender's steps -/

section Steps

variable {q : Nat} {s : RingSys}

theorem entry_append (l : List Nat) (o n : Nat) :
    (l ++ [o]).getD n 0 = Function.update (fun n => l.getD n 0) l.length o n := by
  by_cases hn : n = l.length
  · subst hn
    simp
  · rw [Function.update_of_ne hn]
    rcases Nat.lt_or_gt_of_ne hn with h | h
    · exact List.getD_append _ _ _ _ h
    · have hlen : (l ++ [o]).length ≤ n := by
        rw [List.length_append, List.length_singleton]
        exact h
      rw [List.getD_eq_default _ _ hlen, List.getD_eq_default _ _ (Nat.le_of_lt h)]

/-- The sender moves on without a store. -/
theorem RingInv.setSend (h : RingInv q s) {p : SendPc} (hp : p.unpublished = s.send.unpublished)
    (hk : p.Knows s) : RingInv q { s with send := p } := by
  have hpub : ({ s with send := p } : RingSys).published = s.published := by
    unfold RingSys.published
    rw [hp]
  refine ⟨h.quiet (SameRing.refl q s.shm) rfl rfl rfl hp fun g hg hl _ => ⟨hg, hl⟩, ?_, ?_, h.listed⟩
  · cases p with
    | testFull o =>
      refine ⟨hk.1, ?_⟩
      rw [hpub]
      exact hk.2
    | _ => exact hk
  · exact RecvPc.Knows.mono h.receiving rfl rfl (Nat.le_of_eq hpub.symm) fun _ _ => rfl

/-- **The entry is linked** at the position after the last one. -/
theorem RingInv.link (h : RingInv q s) {o : Nat} (hs : s.send = .link o) :
    RingInv q (s.sender q) := by
  obtain ⟨ho, hroom⟩ : SendPc.Knows s (.link o) := hs ▸ h.sending
  have hpub : s.published = s.sent.length := by
    unfold RingSys.published
    rw [hs]
    rfl
  have heq : s.sender q =
      { s with
        send := .linked o
        shm := s.shm.store (bufferSlot q (s.shm.queueEnd q)) o
        sent := s.sent ++ [o] } := by
    unfold RingSys.sender
    rw [hs]
  have hpub' : (s.sender q).published = s.published := by
    rw [heq, hpub]
    simp [RingSys.published, SendPc.unpublished]
  rw [heq] at hpub' ⊢
  have hlen : (s.sent ++ [o]).length = s.sent.length + 1 := by simp
  refine ⟨⟨?_, ?_, ?_, ?_, ?_, ?_, ?_⟩, trivial, ?_, ?_⟩
  · rw [queueStart_store_of_ne (by unfold bufferSlot; omega)]
    exact h.start
  · rw [queueEnd_store_of_ne (by unfold bufferSlot; omega), hpub']
    exact h.stop
  · show 1 ≤ (s.sent ++ [o]).length
    omega
  · show (s.sent ++ [o]).length < s.consumed + messageBufferSize
    omega
  · show 0 ∉ s.sent ++ [o]
    rw [List.mem_append, List.mem_singleton]
    exact not_or.mpr ⟨h.nonzero, ho.symm⟩
  · show s.received <+: (s.sent ++ [o]).drop s.base
    have hbase : s.base ≤ s.sent.length := by
      have := h.le
      unfold RingSys.consumed at this
      omega
    rw [List.drop_append_of_le_length hbase]
    exact h.order.trans (List.prefix_append _ _)
  · obtain ⟨g, hg, hl, hle, hw⟩ := h.window
    refine ⟨g, hg, hl, ?_, ?_⟩
    · rw [hpub']
      exact hle
    · have hfill := hw.fill (t := s.sent.length) (by omega)
        (show s.sent.length < s.consumed + g + messageBufferSize by omega) o fun k _ => rfl
      refine hfill.congr ?_ fun n _ _ => entry_append s.sent o n
      intro k _
      rw [bufferCell_store, h.stop, hpub]
  · refine RecvPc.Knows.mono h.receiving ?_ rfl (Nat.le_of_eq hpub'.symm) ?_
    · exact queueStart_store_of_ne (by unfold bufferSlot; omega)
    · intro n hn
      show (s.sent ++ [o]).getD n 0 = s.sent.getD n 0
      rw [entry_append, Function.update_of_ne (by omega)]
  · intro hl
    obtain ⟨hun, hid⟩ := h.listed hl
    refine ⟨hun, ?_⟩
    unfold Shm.receiverId
    rw [Shm.store_word, Function.update_of_ne (by unfold bufferSlot; omega)]
    exact hid

/-- **The entry is published.** -/
theorem RingInv.storeEnd (h : RingInv q s) {o : Nat} (hs : s.send = .storeEnd o) :
    RingInv q (s.sender q) := by
  have hun : s.send.unpublished = 1 := by
    rw [hs]
    rfl
  have hlen := h.unpublished
  have heq : s.sender q =
      { s with
        send := .idle
        shm := s.shm.store (q + 8) ((s.shm.queueEnd q + 1) % messageBufferSize) } := by
    unfold RingSys.sender
    rw [hs]
  have hpub : s.published + 1 = s.sent.length := by
    unfold RingSys.published
    omega
  rw [heq]
  have hcells : ∀ k < messageBufferSize,
      bufferCell q (s.shm.store (q + 8) ((s.shm.queueEnd q + 1) % messageBufferSize)) k =
        bufferCell q s.shm k :=
    fun k _ => bufferCell_store_of_ne (fun k => by unfold bufferSlot; omega) k
  refine ⟨⟨?_, ?_, Nat.zero_le _, h.room, h.nonzero, h.order, ?_⟩, trivial, ?_, ?_⟩
  · rw [queueStart_store_of_ne (by omega)]
    exact h.start
  · show Function.update s.shm.word (q + 8) _ (q + 8) = s.sent.length % messageBufferSize
    rw [Function.update_self, h.stop, mod_add_one, hpub]
  · obtain ⟨g, hg, hl, hle, hw⟩ := h.window
    refine ⟨g, hg, hl, ?_, hw.congr hcells fun _ _ _ => rfl⟩
    show s.consumed + g ≤ s.sent.length
    omega
  · refine RecvPc.Knows.mono h.receiving (queueStart_store_of_ne (by omega)) rfl ?_ fun _ _ => rfl
    show s.published ≤ s.sent.length
    omega
  · intro hl
    obtain ⟨hu, hid⟩ := h.listed hl
    refine ⟨hu, ?_⟩
    unfold Shm.receiverId
    rw [Shm.store_word, Function.update_of_ne (by omega)]
    exact hid

theorem RingInv.sender (h : RingInv q s) : RingInv q (s.sender q) := by
  have hk := h.sending
  cases hs : s.send with
  | idle =>
    unfold RingSys.sender
    rw [hs]
    exact h
  | testStart o =>
    rw [hs] at hk
    have hpub : s.published = s.sent.length := by
      unfold RingSys.published
      rw [hs]
      rfl
    unfold RingSys.sender
    rw [hs]
    simp only
    split
    · exact h.setSend (by rw [hs]; rfl) trivial
    · rename_i hne
      refine h.setSend (by rw [hs]; rfl) ⟨hk, ?_⟩
      have := h.room_of_succ hne
      rwa [← hpub]
  | testFull o =>
    rw [hs] at hk
    have hpub : s.published = s.sent.length := by
      unfold RingSys.published
      rw [hs]
      rfl
    unfold RingSys.sender
    rw [hs]
    simp only
    split
    · exact h.setSend (by rw [hs]; rfl) trivial
    · rename_i hne
      refine h.setSend (by rw [hs]; rfl) ⟨hk.1, ?_⟩
      have hroom := hk.2
      rw [← hpub] at hroom ⊢
      exact h.room_of_diff hroom hne
  | link o => exact h.link hs
  | linked o =>
    unfold RingSys.sender
    rw [hs]
    exact h.setSend (by rw [hs]; rfl) trivial
  | storeEnd o => exact h.storeEnd hs

/-! ## §5 — the receiver's steps -/

/-- The receiver moves on; the ring stays. -/
theorem RingInv.setRecv (h : RingInv q s) (hg : ∀ g, s.recv.Emptied g → g = 0) {m : Shm}
    (hm : SameRing q s.shm m) {p : RecvPc} (hp : ∀ g, g = 0 → p.Emptied g) {b : Bool}
    (hk : p.Knows q { s with shm := m, recv := p, onList := b })
    (hl : b = false → p.unlisted ∧ m.receiverId q = 0) :
    RingInv q { s with shm := m, recv := p, onList := b } := by
  refine ⟨h.quiet hm rfl rfl rfl rfl ?_, ?_, hk, hl⟩
  · intro g hgs _ _
    have hzero := hg g hgs
    exact ⟨hp g hzero, fun h1 => absurd (hzero.symm.trans h1) (by decide)⟩
  · exact SendPc.Knows.mono h.sending rfl rfl (Nat.le_refl _)

/-- The entry at `start` is what was sent at its position. -/
theorem RingInv.cell_start (h : RingInv q s) (hg : ∀ g, s.recv.Emptied g → g = 0) :
    bufferCell q s.shm (s.shm.queueStart q) = s.entry s.consumed := by
  obtain ⟨g, hgs, -, -, hw⟩ := h.window
  rw [hg g hgs, Nat.add_zero] at hw
  rw [h.start]
  exact hw s.consumed (Nat.le_refl _) (Nat.lt_add_of_pos_right (by decide))

/-- What was sent is not 0. -/
theorem RingWords.entry_ne_zero (h : RingWords q s) {n : Nat} (hn : n < s.sent.length) :
    s.entry n ≠ 0 := by
  intro hz
  unfold RingSys.entry at hz
  rw [List.getD_eq_getElem _ _ hn] at hz
  exact h.nonzero (hz ▸ List.getElem_mem hn)

/-- An attached receiver has the queue on its list. -/
theorem RingInv.onList (h : RingInv q s) (hr : ¬ s.recv.unlisted) : s.onList = true := by
  cases hl : s.onList with
  | true => rfl
  | false => exact absurd (h.listed hl).1 hr

/-- **The entry is cleared**: the window moves on before `start` does. -/
theorem RingInv.clear (h : RingInv q s) {r a v : Nat} (hs : s.recv = .release r a v) (b : Nat) :
    RingInv q (s.receiver q b) := by
  obtain ⟨hlt, hv⟩ : RecvPc.Knows q s (.release r a v) := hs ▸ h.receiving
  have hg : ∀ g, s.recv.Emptied g → g = 0 := by
    intro g hgs
    rw [hs] at hgs
    exact hgs
  have hl : s.onList = true := by
    refine h.onList ?_
    rw [hs]
    exact id
  have heq : s.receiver q b =
      { s with
        recv := .cleared r a v
        shm := s.shm.store (bufferSlot q (s.shm.queueStart q)) 0 } := by
    unfold RingSys.receiver
    rw [hs]
  rw [heq]
  refine ⟨⟨?_, ?_, h.unpublished, h.room, h.nonzero, h.order, ?_⟩, ?_, ⟨hlt, hv⟩, ?_⟩
  · rw [queueStart_store_of_ne (by unfold bufferSlot; omega)]
    exact h.start
  · rw [queueEnd_store_of_ne (by unfold bufferSlot; omega)]
    exact h.stop
  · obtain ⟨g, hgs, -, -, hw⟩ := h.window
    rw [hg g hgs, Nat.add_zero] at hw
    refine ⟨1, rfl, fun _ => hl, hlt, ?_⟩
    refine hw.advance (List.getD_eq_default _ _ (Nat.le_of_lt h.room)) fun k _ => ?_
    rw [bufferCell_store, h.start]
  · exact SendPc.Knows.mono h.sending rfl rfl (Nat.le_refl _)
  · intro hl'
    exact absurd (hl.symm.trans hl') (by decide)

/-- One more of a list that is a prefix. -/
theorem prefix_snoc {l l' : List Nat} {v : Nat} (h : l <+: l') (hlt : l.length < l'.length)
    (hv : l'.getD l.length 0 = v) : l ++ [v] <+: l' := by
  obtain ⟨r, rfl⟩ := h
  cases r with
  | nil => simp at hlt
  | cons x r =>
    rw [List.getD_append_right _ _ _ _ (Nat.le_refl _), Nat.sub_self, List.getD_cons_zero] at hv
    rw [hv]
    exact ⟨r, by simp⟩

/-- **The entry is consumed.** -/
theorem RingInv.consume (h : RingInv q s) {r a v : Nat} (hs : s.recv = .storeStart r a v) (b : Nat) :
    RingInv q (s.receiver q b) := by
  obtain ⟨hlt, hv⟩ : RecvPc.Knows q s (.storeStart r a v) := hs ▸ h.receiving
  have hl : s.onList = true := by
    refine h.onList ?_
    rw [hs]
    exact id
  have heq : s.receiver q b =
      { s with
        recv := .idle r
        shm := s.shm.store q ((s.shm.queueStart q + 1) % messageBufferSize)
        received := s.received ++ [v] } := by
    unfold RingSys.receiver
    rw [hs]
  have hc : (s.receiver q b).consumed = s.consumed + 1 := by
    rw [heq]
    simp only [RingSys.consumed, List.length_append, List.length_singleton]
    omega
  rw [heq] at hc ⊢
  have hpub : s.published ≤ s.sent.length := Nat.sub_le _ _
  have hroom := h.room
  refine ⟨⟨?_, ?_, h.unpublished, ?_, h.nonzero, ?_, ?_⟩, ?_, trivial, ?_⟩
  · rw [hc]
    show Function.update s.shm.word q _ q = _
    rw [Function.update_self, h.start, mod_add_one]
  · rw [queueEnd_store_of_ne (by omega)]
    exact h.stop
  · rw [hc]
    show s.sent.length < _
    omega
  · show s.received ++ [v] <+: s.sent.drop s.base
    unfold RingSys.consumed RingSys.entry at *
    refine prefix_snoc h.order ?_ ?_
    · rw [List.length_drop]
      omega
    · rw [← hv, List.getD_eq_getElem?_getD, List.getD_eq_getElem?_getD, List.getElem?_drop]
  · obtain ⟨g, hgs, -, hle, hw⟩ := h.window
    rw [hs] at hgs
    obtain rfl : g = 1 := hgs
    refine ⟨0, rfl, fun _ => hl, ?_, ?_⟩
    · rw [hc]
      exact hle
    · rw [hc]
      refine hw.congr (fun k _ => ?_) fun _ _ _ => rfl
      exact bufferCell_store_of_ne (fun k => by unfold bufferSlot; omega) k
  · refine SendPc.Knows.mono h.sending rfl rfl ?_
    rw [hc]
    exact Nat.le_succ _
  · intro hl'
    exact absurd (hl.symm.trans hl') (by decide)

/-- A receiver without the queue on its list finds `receiver_id` 0. -/
theorem RingInv.receiver (h : RingInv q s) (a : Nat) : RingInv q (s.receiver q a) := by
  have hk := h.receiving
  have hl := h.listed
  have hsame : SameRing q s.shm s.shm := SameRing.refl q s.shm
  -- away from the cleared entry the window starts at `consumed`
  have hstay : ∀ p : RecvPc, s.recv = p → (∀ g, p.Emptied g → g = 0) →
      ∀ g, s.recv.Emptied g → g = 0 := by
    rintro p rfl hp
    exact hp
  have hlisted : ∀ p : RecvPc, s.recv = p → ¬ p.unlisted → s.onList = true := by
    rintro p rfl hp
    exact h.onList hp
  cases hs : s.recv with
  | testReceiver r =>
    rw [hs] at hl
    unfold RingSys.receiver
    rw [hs]
    simp only
    split
    · rename_i hid
      exact h.setRecv (hstay _ hs fun _ => id) hsame (fun _ => id) trivial fun hb => ⟨trivial, hid⟩
    · rename_i hid
      exact h.setRecv (hstay _ hs fun _ => id) hsame (fun _ => id) trivial fun hb =>
        absurd (hl hb).2 hid
  | storeReceiverNext r =>
    rw [hs] at hl
    unfold RingSys.receiver
    rw [hs]
    refine h.setRecv (hstay _ hs fun _ => id) (SameRing.store_fields q _ _ (by decide) (by decide))
      (fun _ => id) trivial fun hb => ⟨trivial, ?_⟩
    unfold Shm.receiverId
    rw [Shm.store_word, Function.update_of_ne (by omega)]
    exact (hl hb).2
  | storeReceiverQueue r =>
    unfold RingSys.receiver
    rw [hs]
    exact h.setRecv (m := s.shm.setTls r _) (p := .storeReceiverId r) (b := true) (hstay _ hs fun _ => id)
      ⟨rfl, rfl, fun _ _ => rfl⟩ (fun _ => id) trivial fun hb => absurd hb (by decide)
  | storeReceiverId r =>
    have hon := hlisted _ hs id
    unfold RingSys.receiver
    rw [hs]
    refine h.setRecv (hstay _ hs fun _ => id) (SameRing.store_fields q _ _ (by decide) (by decide))
      (fun _ => id) trivial fun hb => ?_
    exact absurd (hon.symm.trans hb) (by decide)
  | testEmpty r =>
    have hon := hlisted _ hs id
    unfold RingSys.receiver
    rw [hs]
    simp only
    have hlb : ∀ p : RecvPc, s.onList = false → p.unlisted ∧ s.shm.receiverId q = 0 := fun _ hb =>
      absurd (hon.symm.trans hb) (by decide)
    split
    · exact h.setRecv (hstay _ hs fun _ => id) hsame (fun _ => id) trivial (hlb _)
    · rename_i hne
      refine h.setRecv (hstay _ hs fun _ => id) hsame (fun _ => id) ?_ (hlb _)
      exact Nat.lt_of_le_of_ne h.le fun he => hne (h.start_eq_stop_iff.mpr he)
  | testEntry r =>
    rw [hs] at hk
    have hon := hlisted _ hs id
    unfold RingSys.receiver
    rw [hs]
    simp only
    have hlb : ∀ p : RecvPc, s.onList = false → p.unlisted ∧ s.shm.receiverId q = 0 := fun _ hb =>
      absurd (hon.symm.trans hb) (by decide)
    split
    · exact h.setRecv (hstay _ hs fun _ => id) hsame (fun _ => id) trivial (hlb _)
    · exact h.setRecv (hstay _ hs fun _ => id) hsame (fun _ => id) hk (hlb _)
  | take r =>
    rw [hs] at hk
    have hon := hlisted _ hs id
    unfold RingSys.receiver
    rw [hs]
    refine h.setRecv (hstay _ hs fun _ => id) hsame (fun _ => id) ⟨hk, ?_⟩ fun hb => ?_
    · exact (h.cell_start (hstay _ hs fun _ => id)).symm
    · exact absurd (hon.symm.trans hb) (by decide)
  | hold r b v =>
    rw [hs] at hk
    have hon := hlisted _ hs id
    unfold RingSys.receiver
    rw [hs]
    refine h.setRecv (hstay _ hs fun _ => id) hsame (fun _ => id) hk fun hb => ?_
    exact absurd (hon.symm.trans hb) (by decide)
  | release r b v => exact h.clear hs a
  | cleared r b v =>
    rw [hs] at hk
    have hon := hlisted _ hs id
    unfold RingSys.receiver
    rw [hs]
    refine ⟨h.quiet hsame rfl rfl rfl rfl ?_, h.sending, hk, ?_⟩
    · intro g hg hlg _
      rw [hs] at hg
      exact ⟨hg, hlg⟩
    · intro hb
      exact absurd (hon.symm.trans hb) (by decide)
  | storeStart r b v => exact h.consume hs a
  | _ =>
    unfold RingSys.receiver
    rw [hs]
    exact h

/-! ## §6 — recovery -/

/-- The queue loses its receiver: what comes next starts where the receiver stopped. -/
theorem RingInv.leave (h : RingInv q s) (hg : ∀ g, s.recv.Emptied g → (g = 1 → s.onList = true) →
    s.consumed + g ≤ s.published → g = 0) {m : Shm} (hm : SameRing q s.shm m)
    (hid : m.receiverId q = 0) : RingInv q { s with shm := m }.leave := by
  have hc : ({ s with shm := m } : RingSys).leave.consumed = s.consumed := rfl
  refine ⟨⟨?_, ?_, h.unpublished, h.room, h.nonzero, List.nil_prefix, ?_⟩, ?_, trivial,
    fun _ => ⟨trivial, hid⟩⟩
  · rw [hc]
    exact hm.start.trans h.start
  · exact hm.stop.trans h.stop
  · obtain ⟨g, hgs, hl, hle, hw⟩ := h.window
    obtain rfl := hg g hgs hl hle
    refine ⟨0, rfl, nofun, ?_, ?_⟩
    · rw [hc]
      exact hle
    · rw [hc]
      exact hw.congr hm.buffer fun _ _ _ => rfl
  · exact SendPc.Knows.mono h.sending rfl rfl (Nat.le_of_eq hc.symm)

/-- A replay that agrees with the queue leaves its words alone. -/
theorem ReplayAgrees.sameQueue {r : Nat} {m : Shm} (h : ReplayAgrees q r m) :
    SameQueue q m (redoRefCnt r m) := by
  intro j hj
  rw [redoRefCnt_word]
  split
  · rename_i happ
    obtain ⟨k, hk, hline⟩ := newestRedo_mem m r
    rw [hline] at happ ⊢
    by_cases href : (m.redo r k).ref = q + 8 * j
    · rw [href, Function.update_self]
      exact (h k ⟨hk, hline, happ.1, happ.2⟩ j hj href).symm
    · exact Function.update_of_ne (Ne.symm href) ..
  · rfl

theorem RingInv.monitor (h : RingInv q s) (fuel : Nat)
    (hclean : LeavesRing q s (.monitor fuel)) : RingInv q (s.monitor q fuel) := by
  obtain ⟨hreplay, hscan⟩ := hclean
  cases hs : s.recv with
  | crashed r =>
    have hsame := (hreplay r hs).sameQueue
    unfold RingSys.monitor
    rw [hs]
    simp only
    split
    · rename_i hon
      refine ⟨h.quiet hsame.sameRing rfl rfl rfl rfl ?_, ?_, hsame.sameRing.start.symm, ?_⟩
      · intro g hg hl _
        rw [hs] at hg
        exact ⟨hg, hl⟩
      · exact SendPc.Knows.mono h.sending rfl rfl (Nat.le_refl _)
      · intro hb
        exact absurd (hon.symm.trans hb) (by decide)
    · rename_i hon
      refine h.leave ?_ hsame.sameRing ?_
      · intro g hg hl _
        rw [hs] at hg
        have hle : g ≤ 1 := hg
        have hne : g ≠ 1 := fun h1 => hon (hl h1)
        omega
      · rw [hsame.receiverId]
        exact (h.listed (Bool.eq_false_iff.mpr hon)).2
  | scan r i =>
    have hi := hscan r i hs
    have hk : RecvPc.Knows q s (.scan r i) := hs ▸ h.receiving
    have hempty : s.consumed = s.published := h.start_eq_stop_iff.mp (hk.symm.trans hi)
    unfold RingSys.monitor
    rw [hs]
    simp only [if_pos hi]
    refine ⟨h.quiet (SameRing.refl q s.shm) rfl rfl rfl rfl ?_, h.sending, trivial, ?_⟩
    · intro g _ hl hle
      exact ⟨show g = 0 by omega, hl⟩
    · intro hb
      refine absurd (h.listed hb).1 ?_
      rw [hs]
      exact id
  | forget r =>
    unfold RingSys.monitor
    rw [hs]
    refine h.leave ?_ (SameRing.store_fields q _ _ (by decide) (by decide))
      (setReceiverId_receiverId (by decide))
    intro g hg _ _
    rw [hs] at hg
    exact hg
  | _ =>
    unfold RingSys.monitor
    rw [hs]
    exact h

/-! ## §7 — the runs -/

theorem RingInv.init (h : RingInit q s) : RingInv q s := by
  have hc : s.consumed = 0 := by
    unfold RingSys.consumed
    rw [h.base, h.received]
    rfl
  have hp : s.published = 0 := by
    unfold RingSys.published
    rw [h.sent]
    exact Nat.zero_sub _
  refine ⟨⟨?_, ?_, ?_, ?_, ?_, ?_, ⟨0, ?_, nofun, ?_, ?_⟩⟩, ?_, ?_, ?_⟩
  · rw [hc]
    exact h.start
  · rw [hp]
    exact h.stop
  · rw [h.send]
    exact Nat.zero_le _
  · rw [h.sent, hc]
    decide
  · rw [h.sent]
    exact List.not_mem_nil
  · rw [h.received]
    exact List.nil_prefix
  · rw [h.recv]
    rfl
  · rw [hc]
    exact Nat.zero_le _
  · intro n _ _
    unfold RingSys.entry
    rw [h.sent]
    exact h.buffer _ (Nat.mod_lt _ (by decide))
  · rw [h.send]
    trivial
  · rw [h.recv]
    trivial
  · intro _
    rw [h.recv]
    exact ⟨trivial, h.receiver⟩

/-- **One step.** -/
theorem RingInv.next (h : RingInv q s) {mv : RingMove} (hen : mv.enabled q s)
    (hclean : LeavesRing q s mv) : RingInv q (s.next q mv) := by
  cases mv with
  | send o =>
    refine h.setSend ?_ hen.2
    rw [hen.1]
    rfl
  | sender => exact h.sender
  | unwrap r =>
    have hl := h.listed
    refine h.setRecv ?_ (SameRing.refl q s.shm) (fun _ => id) trivial fun hb => ⟨trivial, (hl hb).2⟩
    rcases hen with hs | hs
    · rw [hs]
      exact fun _ => id
    · rw [hs]
      exact fun _ => id
  | receiver a => exact h.receiver a
  | crash =>
    refine ⟨h.quiet (SameRing.refl q s.shm) rfl rfl rfl rfl ?_, h.sending, trivial, ?_⟩
    · intro g hg hl _
      refine ⟨?_, hl⟩
      show g ≤ 1
      cases hs : s.recv with
      | scan r i => exact absurd (by rw [hs]; trivial) hen.2
      | crashed r => exact absurd (by rw [hs]; trivial) hen.2
      | cleared r a v =>
        rw [hs] at hg
        exact Nat.le_of_eq hg
      | storeStart r a v =>
        rw [hs] at hg
        exact Nat.le_of_eq hg
      | _ =>
        rw [hs] at hg
        exact Nat.le_trans (Nat.le_of_eq hg) (Nat.zero_le _)
    · intro hb
      exact ⟨trivial, (h.listed hb).2⟩
  | monitor fuel => exact h.monitor fuel hclean
  | env m =>
    have hsame : SameQueue q s.shm m := hen
    refine ⟨h.quiet hsame.sameRing rfl rfl rfl rfl fun g hg hl _ => ⟨hg, hl⟩, h.sending, ?_, ?_⟩
    · exact RecvPc.Knows.mono h.receiving hsame.sameRing.start rfl (Nat.le_refl _) fun _ _ => rfl
    · intro hb
      exact ⟨(h.listed hb).1, hsame.receiverId.trans (h.listed hb).2⟩

/-- **Every run.** -/
theorem LeavingReach.inv (h : LeavingReach q s) : RingInv q s := by
  refine @Reach.invariant _ _ _ _ (fun s => RingInv q s) ?_ ?_ _ h
  · intro s hi _
    exact RingInv.init hi
  · rintro s s' hinv - ⟨mv, hen, hclean, rfl⟩ -
    exact hinv.next hen hclean

/-- The first entry of a ring that is not being consumed is not 0. -/
theorem RingInv.found (h : RingInv q s) (hg : ∀ g, s.recv.Emptied g → g = 0)
    (hlt : s.consumed < s.published) : s.shm.word (bufferSlot q (s.shm.queueStart q)) ≠ 0 := by
  have hcell := h.cell_start hg
  unfold bufferCell at hcell
  rw [hcell]
  exact h.entry_ne_zero (Nat.lt_of_lt_of_le hlt (Nat.sub_le _ _))

theorem RecvPc.between.emptied {p : RecvPc} (h : p.between) : ∀ g, p.Emptied g → g = 0 := by
  cases p with
  | vacant => exact fun _ => id
  | idle r => exact fun _ => id
  | _ => exact absurd h id

/-- The buffer between operations. -/
theorem RingInv.filled (h : RingInv q s) : RingFilled q s := by
  intro hsend hrecv k hk
  have hpub : s.published = s.sent.length := by
    unfold RingSys.published
    rw [hsend]
    rfl
  obtain ⟨g, hg, -, -, hw⟩ := h.window
  rw [hrecv.emptied g hg, Nat.add_zero] at hw
  obtain ⟨n, hn, hnN, hnk⟩ := exists_position s.consumed hk
  have hcell : s.shm.word (bufferSlot q k) = s.entry n := by
    rw [← hnk]
    exact hw n hn hnN
  have hpos : (k + messageBufferSize - s.shm.queueStart q) % messageBufferSize = n - s.consumed := by
    rw [← hnk, h.start]
    exact distance hn hnN
  have hnum := h.ringEntries_eq
  unfold ringEntries at hnum
  unfold InRing
  rw [hpos, hnum, hcell]
  constructor
  · intro hne
    have hlen : n < s.sent.length := by
      refine Nat.lt_of_not_le fun hge => hne ?_
      exact List.getD_eq_default _ _ hge
    omega
  · intro hlt
    exact h.entry_ne_zero (by omega)

/-! ## §8 — runs step by step -/

theorem LeavingReach.next (h : LeavingReach q s) (mv : RingMove) (hen : mv.enabled q s)
    (hl : LeavesRing q s mv) : LeavingReach q (s.next q mv) :=
  Reach.step h ⟨mv, hen, hl, rfl⟩ trivial

theorem LeavingReach.sender (h : LeavingReach q s) (hs : s.send ≠ .idle) :
    LeavingReach q (s.sender q) :=
  h.next .sender hs trivial

theorem LeavingReach.receiver (h : LeavingReach q s) (a : Nat) (hs : s.recv.running) :
    LeavingReach q (s.receiver q a) :=
  h.next (.receiver a) hs trivial

theorem LeavingReach.ringReach (h : LeavingReach q s) : RingReach q s := by
  induction h with
  | init hi hok => exact Reach.init hi hok
  | step _ hs hok ih =>
    obtain ⟨mv, hen, -, rfl⟩ := hs
    exact Reach.step ih ⟨mv, hen, rfl⟩ hok

theorem enabled_scan {r i fuel : Nat} (h : s.recv = .scan r i)
    (hsome : i ≠ s.shm.queueEnd q → (releaseEntry r fuel q i s.shm).isSome) :
    (RingMove.monitor fuel).enabled q s := by
  refine ⟨by rw [h]; trivial, ?_⟩
  intro r' i' h'
  obtain ⟨rfl, rfl⟩ := RecvPc.scan.inj (h.symm.trans h')
  exact hsome

theorem enabled_monitor {fuel : Nat} (h : s.recv.inRecovery) (hs : ∀ r i, s.recv ≠ .scan r i) :
    (RingMove.monitor fuel).enabled q s :=
  ⟨h, fun r i h' => absurd h' (hs r i)⟩

/-- A log that names no operation is replayed to no effect. -/
theorem replayAgrees_of_empty {m : Shm} {r : Nat} (h : ∀ k, (m.redo r k).funcId = none) :
    ReplayAgrees q r m :=
  fun k happ => absurd (h k) happ.2.2.1

/-- A queue at the start of a page, and an object of count 2 in the next page. -/
def sampleRing : RingSys where
  shm := Shm.zero.store (segmentsAreaStart + 2 * pageSize + 8) (packRefInfo 1 2 1)
  send := .idle
  recv := .vacant
  onList := false
  sent := []
  received := []
  base := 0

/-- Client 1 has sent the object and client 2 has attached and looked at `end`. -/
def sampleSent : RingSys :=
  [RingMove.send (segmentsAreaStart + 2 * pageSize), .sender, .sender, .sender, .sender, .sender,
    .unwrap 2, .receiver 0, .receiver 0, .receiver 0, .receiver 0, .receiver 0].foldl
    (fun s mv => s.next (segmentsAreaStart + pageSize) mv) sampleRing

theorem sampleSent_reach : LeavingReach (segmentsAreaStart + pageSize) sampleSent := by
  have hinit : RingInit (segmentsAreaStart + pageSize) sampleRing := by
    refine ⟨?_, rfl, rfl, rfl, rfl, rfl, rfl, rfl, rfl, rfl⟩
    decide
  have h₀ : LeavingReach (segmentsAreaStart + pageSize) sampleRing := Reach.init hinit trivial
  have h₁ := h₀.next (.send (segmentsAreaStart + 2 * pageSize)) ⟨rfl, by decide⟩ trivial
  have h₂ := ((h₁.sender (by decide)).sender (by decide)).sender (by decide)
  have h₃ := (h₂.sender (by decide)).sender (by decide)
  have h₄ := h₃.next (.unwrap 2) (Or.inl rfl) trivial
  have h₅ := ((h₄.receiver 0 trivial).receiver 0 trivial).receiver 0 trivial
  exact (h₅.receiver 0 trivial).receiver 0 trivial

/-- **A queue stays usable across receiver crashes** as long as no replay changes a word of the queue
and every receiver's recovery finds the ring empty. -/
theorem ring_usable {q : Nat} {s : RingSys} (h : LeavingReach q s) : RingUsable q s := by
  have hinv := h.inv
  refine ⟨hinv.filled, hinv.order, ?_, ?_⟩
  · intro r hr
    have hk : RecvPc.Knows q s (.testEntry r) := hr ▸ hinv.receiving
    refine hinv.found ?_ hk
    rw [hr]
    exact fun _ => id
  · intro hsend hrecv he
    have hc := hinv.start_eq_stop_iff.mp he
    have hpub : s.published = s.sent.length := by
      unfold RingSys.published
      rw [hsend]
      rfl
    refine hinv.order.eq_of_length ?_
    unfold RingSys.consumed at hc
    rw [List.length_drop]
    omega

/-- Client 2 receives the object and crashes; its recovery finds the ring empty. -/
theorem ring_usable_sample : ∃ s, s.received = [] ∧ s.base = 1 ∧ s.recv = .vacant ∧
    RingUsable (segmentsAreaStart + pageSize) s := by
  have h₁ := ((sampleSent_reach.receiver 0 trivial).receiver 7 trivial).receiver 0 trivial
  have h₂ := ((h₁.receiver 0 trivial).receiver 0 trivial).receiver 0 trivial
  have h₃ := h₂.next .crash ⟨by decide, id⟩ trivial
  have h₄ := h₃.next (.monitor 0) (enabled_monitor trivial nofun)
    ⟨fun r hr => RecvPc.crashed.inj hr ▸ replayAgrees_of_empty fun _ => rfl, nofun⟩
  have h₅ := h₄.next (.monitor 0) (enabled_scan (r := 2) (i := 1) rfl fun h => absurd rfl h)
    ⟨nofun, fun r i h => (RecvPc.scan.inj h).2.symm⟩
  have h₆ := h₅.next (.monitor 0) (enabled_monitor trivial nofun) ⟨nofun, nofun⟩
  exact ⟨_, rfl, rfl, rfl, ring_usable h₆⟩

/-- Client 2 crashes before it receives. Its recovery releases the entry and leaves `start` behind:
with both ends between operations, `start` is 0, `end` is 1 and entry 0 is 0. -/
theorem recovered_ring_stuck : ∃ q s, RingReach q s ∧ ¬ RingFilled q s := by
  have h₁ := sampleSent_reach.ringReach.next .crash ⟨by decide, id⟩
  have h₂ := h₁.next (.monitor 2) (enabled_monitor trivial nofun)
  have h₃ := h₂.next (.monitor 2) (enabled_scan (r := 2) (i := 0) rfl (by decide))
  have h₄ := h₃.next (.monitor 2) (enabled_scan (r := 2) (i := 1) rfl (by decide))
  have h₅ := h₄.next (.monitor 2) (enabled_monitor trivial nofun)
  refine ⟨_, _, h₅, fun h => ?_⟩
  exact absurd (h rfl trivial 0 (by decide)) (by decide)

end Steps

end CxlShm
