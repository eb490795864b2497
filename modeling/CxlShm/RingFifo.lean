import CxlShm.RingExact

/-! # RingFifo — a queue between two live clients

Without crashes the queue is a lossless first-in first-out channel at every access of its two ends: what has been
received is a prefix of what was sent, an entry is only stored into an empty slot, and each end turns back for the
right reason only.
-/

namespace CxlShm

open Transition

/-! ## §1 — runs without crashes -/

/-- The sender and the receiver stay alive. -/
def RingMove.steady : RingMove → Prop
  | .crash => False
  | .monitor _ => False
  | _ => True

def SteadyStep (q : Nat) (s s' : RingSys) : Prop := ∃ mv : RingMove, mv.enabled q s ∧ mv.steady ∧ s' = s.next q mv

def SteadyReach (q : Nat) : RingSys → Prop := Reach (RingInit q) (SteadyStep q) fun _ => True

section Steady

variable {q : Nat} {s : RingSys}

/-- No recovery takes part in such a run. -/
theorem SteadyReach.leaving (h : SteadyReach q s) : LeavingReach q s := by
  induction h with
  | init hi hok => exact Reach.init hi hok
  | step _ hs _ ih =>
    obtain ⟨mv, hen, hsteady, rfl⟩ := hs
    refine ih.next mv hen ?_
    cases mv with
    | monitor fuel => exact absurd hsteady id
    | _ => trivial

/-- An access of `sent_to` says nothing about what has been consumed. -/
theorem sender_base (s : RingSys) : (s.sender q).base = s.base := by
  unfold RingSys.sender
  cases s.send <;> rfl

theorem receiver_base (s : RingSys) (a : Nat) : (s.receiver q a).base = s.base := by
  unfold RingSys.receiver
  cases s.recv <;> rfl

theorem sender_recv (s : RingSys) : (s.sender q).recv = s.recv := by
  unfold RingSys.sender
  cases s.send <;> rfl

theorem receiver_live {a : Nat} (h : ¬ s.recv.inRecovery) : ¬ (s.receiver q a).recv.inRecovery := by
  unfold RingSys.receiver
  split
  case h_1 =>
    show ¬ RecvPc.inRecovery (if _ then _ else _)
    split <;> exact not_false
  case h_5 =>
    show ¬ RecvPc.inRecovery (if _ then _ else _)
    split <;> exact not_false
  case h_6 =>
    show ¬ RecvPc.inRecovery (if _ then _ else _)
    split <;> exact not_false
  case h_12 => exact h
  all_goals exact not_false

/-- The receiver that attached first is the only one. -/
theorem SteadyReach.base (h : SteadyReach q s) : s.base = 0 := by
  refine @Reach.invariant _ _ _ _ (fun s => s.base = 0) ?_ ?_ _ h
  · exact fun s hi _ => hi.base
  · rintro s s' hbase - ⟨mv, -, hsteady, rfl⟩ -
    cases mv with
    | send o => exact hbase
    | sender => exact (sender_base s).trans hbase
    | unwrap r => exact hbase
    | receiver a => exact (receiver_base s a).trans hbase
    | crash => exact absurd hsteady id
    | monitor fuel => exact absurd hsteady id
    | env m => exact hbase

/-- No receiver is down. -/
theorem SteadyReach.live (h : SteadyReach q s) : ¬ s.recv.inRecovery := by
  refine @Reach.invariant _ _ _ _ (fun s => ¬ s.recv.inRecovery) ?_ ?_ _ h
  · intro s hi _
    rw [hi.recv]
    exact id
  · rintro s s' hlive - ⟨mv, -, hsteady, rfl⟩ -
    cases mv with
    | send o => exact hlive
    | sender =>
      show ¬ (s.sender q).recv.inRecovery
      rw [sender_recv]
      exact hlive
    | unwrap r => exact id
    | receiver a => exact receiver_live hlive
    | crash => exact absurd hsteady id
    | monitor fuel => exact absurd hsteady id
    | env m => exact hlive

theorem SteadyReach.move (h : SteadyReach q s) (mv : RingMove) (hen : mv.enabled q s) (hs : mv.steady) :
    SteadyReach q (s.next q mv) :=
  Reach.step h ⟨mv, hen, hs, rfl⟩ trivial

theorem SteadyReach.sender (h : SteadyReach q s) (hs : s.send ≠ .idle) : SteadyReach q (s.sender q) :=
  h.move .sender hs trivial

theorem SteadyReach.receiver (h : SteadyReach q s) (hs : s.recv.running) : SteadyReach q (s.receiver q 0) :=
  h.move (.receiver 0) hs trivial

end Steady

/-! ## §2 — first in, first out -/

/-- The entry at `start` has been cleared, and `start` is about to move on. -/
def RecvPc.taken : RecvPc → Prop
  | .cleared _ _ _ => True
  | .storeStart _ _ _ => True
  | _ => False

/-- The queue as a channel: `sent` is what has been linked into the buffer. -/
structure RingFifo (q : Nat) (s : RingSys) : Prop where
  /-- nothing is lost, invented or put out of order -/
  order : s.received <+: s.sent
  /-- as many entries lie between the ends as have been sent and published, but not received -/
  entries : ringEntries q s.shm + s.received.length = s.published
  /-- and they are the next ones sent, in order; the first may have been cleared already -/
  contents : ∀ k < ringEntries q s.shm, (k = 0 → ¬ s.recv.taken) → s.sent[s.received.length + k]? =
    some (s.shm.word (bufferSlot q ((s.shm.queueStart q + k) % messageBufferSize)))
  /-- then the receiver has it -/
  held : ∀ r a v, s.recv = .cleared r a v ∨ s.recv = .storeStart r a v → s.sent[s.received.length]? = some v
  /-- an entry goes into an empty slot -/
  link : ∀ o, s.send = .link o → s.shm.word (bufferSlot q (s.shm.queueEnd q)) = 0
  /-- `sent_to` turns back only if the queue is full -/
  refused : ∀ o, s.send = .testStart o ∨ s.send = .testFull o → (s.sender q).send = .idle →
    ringEntries q s.shm = messageBufferSize - 1
  /-- `cxl_unwrap` turns back at its first test only if everything published has been received -/
  empty : ∀ r a, s.recv = .testEmpty r → (s.receiver q a).recv = .idle r → s.received.length = s.published
  /-- and never at its second -/
  found : ∀ r a, s.recv = .testEntry r → (s.receiver q a).recv = .take r
  /-- what it takes is the next entry sent -/
  next : ∀ r a, s.recv = .take r → ∃ v, (s.receiver q a).recv = .hold r a v ∧ s.sent[s.received.length]? = some v

section Fifo

variable {q : Nat} {s : RingSys}

/-- The slot behind the last entry is empty. -/
theorem RingInv.link_empty (h : RingInv q s) {o : Nat} (hs : s.send = .link o) :
    s.shm.word (bufferSlot q (s.shm.queueEnd q)) = 0 := by
  obtain ⟨ho, hroom⟩ : SendPc.Knows s (.link o) := hs ▸ h.sending
  have hpub : s.published = s.sent.length := by
    unfold RingSys.published
    rw [hs]
    rfl
  obtain ⟨g, -, -, hle, hw⟩ := h.window
  -- the position `published` is in the window, and nothing was sent there
  have hcell := hw s.published (by omega) (by omega)
  rw [h.stop]
  refine Eq.trans hcell ?_
  unfold RingSys.entry
  rw [hpub]
  exact List.getD_eq_default _ _ (Nat.le_refl _)

/-- The window of a live receiver starts at `start`, or behind it once that entry is cleared. -/
theorem RecvPc.Emptied.le {p : RecvPc} {g : Nat} (h : p.Emptied g) (hlive : ¬ p.inRecovery) :
    g ≤ 1 ∧ (¬ p.taken → g = 0) := by
  cases p <;> simp_all [RecvPc.Emptied, RecvPc.inRecovery, RecvPc.taken]

/-- Entry `k` from `start` on is the `k`-th one sent after those consumed. -/
theorem RingInv.contents (h : RingInv q s) (hlive : ¬ s.recv.inRecovery) {k : Nat}
    (hk : s.consumed + k < s.published) (htaken : k = 0 → ¬ s.recv.taken) :
    s.sent[s.consumed + k]? =
      some (s.shm.word (bufferSlot q ((s.shm.queueStart q + k) % messageBufferSize))) := by
  obtain ⟨g, hg, -, -, hw⟩ := h.window
  obtain ⟨hle, hzero⟩ := hg.le hlive
  have hlt := h.lt
  have hgk : g ≤ k := by
    rcases Nat.eq_zero_or_pos k with hk0 | hpos
    · rw [hzero (htaken hk0)]
      exact Nat.zero_le k
    · exact hle.trans hpos
  have hcell := hw (s.consumed + k) (by omega) (by omega)
  have hsent : s.consumed + k < s.sent.length := Nat.lt_of_lt_of_le hk (Nat.sub_le _ _)
  unfold RingSys.entry bufferCell at hcell
  rw [h.start, Nat.mod_add_mod, hcell, List.getD_eq_getElem _ _ hsent, List.getElem?_eq_getElem hsent]

/-- An entry that is published and not consumed has been sent. -/
theorem RingSys.sent_consumed (hlt : s.consumed < s.published) : s.sent[s.consumed]? = some (s.entry s.consumed) := by
  have hsent : s.consumed < s.sent.length := Nat.lt_of_lt_of_le hlt (Nat.sub_le _ _)
  rw [RingSys.entry, List.getD_eq_getElem _ _ hsent, List.getElem?_eq_getElem hsent]

/-- The receiver has loaded the entry before it cleared it. -/
theorem RingInv.held (h : RingInv q s) {r a v : Nat}
    (hs : s.recv = .cleared r a v ∨ s.recv = .storeStart r a v) : s.sent[s.consumed]? = some v := by
  have hk : s.consumed < s.published ∧ s.entry s.consumed = v := by
    rcases hs with hs | hs
    · have hk : RecvPc.Knows q s (.cleared r a v) := hs ▸ h.receiving
      exact hk
    · have hk : RecvPc.Knows q s (.storeStart r a v) := hs ▸ h.receiving
      exact hk
  obtain ⟨hlt, hentry⟩ := hk
  rw [← hentry]
  exact RingSys.sent_consumed hlt

/-- Both tests of `sent_to` find a full ring. -/
theorem RingInv.refused (h : RingInv q s) {o : Nat} (hs : s.send = .testStart o ∨ s.send = .testFull o)
    (hidle : (s.sender q).send = .idle) : s.published + 1 = s.consumed + messageBufferSize := by
  unfold RingSys.sender at hidle
  rcases hs with hs | hs
  · -- `end + 1 == start`
    simp only [hs] at hidle
    split at hidle
    case isTrue he => exact h.full_of_succ he
    case isFalse => cases hidle
  · -- `end - start == MESSAGE_BUFFER_SIZE - 1`
    simp only [hs] at hidle
    split at hidle
    case isTrue he => exact h.full_of_diff he
    case isFalse => cases hidle

/-- The first test of `cxl_unwrap` finds an empty ring. -/
theorem RingInv.empty (h : RingInv q s) {r a : Nat} (hs : s.recv = .testEmpty r)
    (hidle : (s.receiver q a).recv = .idle r) : s.consumed = s.published := by
  unfold RingSys.receiver at hidle
  simp only [hs] at hidle
  split at hidle
  case isTrue he => exact h.start_eq_stop_iff.mp he
  case isFalse => cases hidle

/-- What the invariant says of the queue as a channel. -/
theorem SteadyReach.fifo (h : SteadyReach q s) : RingFifo q s := by
  have hinv := h.leaving.inv
  have hbase := h.base
  have hconsumed : s.consumed = s.received.length := by
    unfold RingSys.consumed
    rw [hbase, Nat.zero_add]
  have hentries := hinv.ringEntries_eq
  have hle := hinv.le
  rw [hconsumed] at hentries hle
  have hstay : ∀ p : RecvPc, s.recv = p → (∀ g, p.Emptied g → g = 0) → ∀ g, s.recv.Emptied g → g = 0 := by
    rintro p rfl hp
    exact hp
  refine ⟨?_, by omega, fun k hk htaken => ?_, fun r a v hs => ?_, fun o => hinv.link_empty, fun o hs hidle => ?_,
    fun r a hs hidle => ?_, fun r a hs => ?_, fun r a hs => ?_⟩
  · have horder := hinv.order
    rwa [hbase, List.drop_zero] at horder
  · have hcontents := hinv.contents h.live (k := k) (by omega) htaken
    rwa [hconsumed] at hcontents
  · rw [← hconsumed]
    exact hinv.held hs
  · have hfull := hinv.refused hs hidle
    simp only [messageBufferSize] at hfull ⊢
    omega
  · rw [← hconsumed]
    exact hinv.empty hs hidle
  · have hk : RecvPc.Knows q s (.testEntry r) := hs ▸ hinv.receiving
    have hne := hinv.found (hstay _ hs fun _ => id) hk
    unfold RingSys.receiver
    simp only [hs]
    rw [if_neg hne]
  · have hk : RecvPc.Knows q s (.take r) := hs ▸ hinv.receiving
    have hcell := hinv.cell_start (hstay _ hs fun _ => id)
    refine ⟨bufferCell q s.shm (s.shm.queueStart q), ?_, ?_⟩
    · unfold RingSys.receiver
      simp only [hs]
      rfl
    · rw [hcell, ← hconsumed]
      exact RingSys.sent_consumed hk

/-- **A queue between two live clients is a lossless first-in first-out channel**, at every access of both. -/
theorem ring_fifo (h : SteadyReach q s) : RingFifo q s := h.fifo

/-- Client 1 has sent the object, and client 2 is about to take it. -/
theorem ring_fifo_sample : ∃ (s : RingSys), s.recv = .take 2 ∧ s.sent = [segmentsAreaStart + 2 * pageSize] ∧
    RingFifo (segmentsAreaStart + pageSize) s := by
  have hinit : RingInit (segmentsAreaStart + pageSize) sampleRing := by
    refine ⟨?_, rfl, rfl, rfl, rfl, rfl, rfl, rfl, rfl, rfl⟩
    decide
  have h₀ : SteadyReach (segmentsAreaStart + pageSize) sampleRing := Reach.init hinit trivial
  have h₁ := h₀.move (.send (segmentsAreaStart + 2 * pageSize)) ⟨rfl, by decide⟩ trivial
  have h₂ := ((h₁.sender (by decide)).sender (by decide)).sender (by decide)
  have h₃ := (h₂.sender (by decide)).sender (by decide)
  have h₄ := ((h₃.move (.unwrap 2) (Or.inl rfl) trivial).receiver trivial).receiver trivial
  have h₅ := ((h₄.receiver trivial).receiver trivial).receiver trivial
  exact ⟨_, rfl, rfl, ring_fifo (h₅.receiver trivial)⟩

end Fifo

end CxlShm
