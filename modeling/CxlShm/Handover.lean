import CxlShm.CallCount
import CxlShm.RingFifo

/-! # Handover — the objects that pass through a queue

The two ends of a queue and the reference counts of what passes through it, access by access: the calls of
`link_reference` and `unlink_reference` that `sent_to` and `cxl_unwrap` make are calls among those of all other clients,
on any objects. The sender is client `sid`.
-/

namespace CxlShm

open Transition

/-! ## §1 — the machine -/

/-- The queue, the calls in progress, and what the receiver has got and not dropped: the RootRef and the object. -/
structure HandSys where
  ring : RingSys
  calls : Calls
  kept : List (Nat × Nat)

inductive HandMove
  /-- the sender calls `sent_to` on the object that the slot `g` refers to -/
  | send (g : Nat)
  /-- an access of `sent_to` outside `link_reference` -/
  | sender
  | unwrap (r : Nat)
  /-- an access of `cxl_unwrap` outside its two calls; `a` is the RootRef if this access takes an entry -/
  | receiver (a : Nat)
  /-- client `i` begins a call and holds on to the slot `g` meanwhile -/
  | call (i : Nat) (c : RefCall) (g : Nat)
  /-- the next access of the call client `i` is in -/
  | access (i : Nat) (spurious : Bool)
  /-- an object and its RootRef are complete -/
  | appear (tbr o : Nat)
  | env (m : Shm) (slots : Finset Nat)

/-- The word is a slot of the buffer of the queue. -/
def IsEntry (q a : Nat) : Prop := ∃ k < messageBufferSize, a = bufferSlot q k

/-- `sent_to` goes on when its call, which goes from `pc` to `pc'`, has stored the entry, and when it returns. -/
def SendPc.follows (pc pc' : RefPc) : SendPc → Prop
  | .link _ => pc.storing
  | .linked _ => pc' = .done
  | _ => False

/-- `cxl_unwrap` goes on when its first call returns, when its second has cleared the entry, and when that returns. -/
def RecvPc.follows (i : Nat) (pc pc' : RefPc) : RecvPc → Prop
  | .hold r _ _ => r = i ∧ pc' = .done
  | .release r _ _ => r = i ∧ pc.storing
  | .cleared r _ _ => r = i ∧ pc' = .done
  | _ => False

instance (pc pc' : RefPc) : DecidablePred (SendPc.follows pc pc') := fun p => by
  cases p <;> unfold SendPc.follows <;> infer_instance

instance (i : Nat) (pc pc' : RefPc) : DecidablePred (RecvPc.follows i pc pc') := fun p => by
  cases p <;> unfold RecvPc.follows <;> infer_instance

/-- The RootRef of the `cxl_unwrap` in progress, 0 if it has none yet. -/
def RecvPc.root : RecvPc → Nat
  | .hold _ a _ => a
  | .release _ a _ => a
  | .cleared _ a _ => a
  | .storeStart _ a _ => a
  | _ => 0

namespace HandSys

/-- An access of `sent_to`. Past the full test it calls `link_reference(q->buffer[q->end], offset)`. -/
def sender (sid q : Nat) (s : HandSys) : HandSys :=
  let ring := s.ring.sender q
  { s with
    ring := ring
    calls := match ring.send with
      | .idle => s.calls.hold sid 0
      | .link o => s.calls.start sid ⟨.linkRef, bufferSlot q (ring.shm.queueEnd q), o⟩ (s.calls.guard sid)
      | _ => s.calls }

/-- An access of `cxl_unwrap`. It calls `link_reference(tbr->pptr, q->buffer[q->start])` and then
`unlink_reference(q->buffer[q->start], q->buffer[q->start])`. -/
def receiver (q a : Nat) (s : HandSys) : HandSys :=
  let entry := bufferSlot q (s.ring.shm.queueStart q)
  match s.ring.recv with
  | .take r =>
    { s with
      ring := s.ring.receiver q a
      calls := s.calls.start r ⟨.linkRef, a, s.ring.shm.word entry⟩ entry }
  | .release r b _ => { s with calls := s.calls.start r ⟨.unlinkRef, entry, s.ring.shm.word entry⟩ b }
  | .storeStart r b v =>
    { ring := s.ring.receiver q a
      calls := s.calls.hold r 0
      kept := (b, v) :: s.kept }
  | _ => { s with ring := s.ring.receiver q a }

/-- The next access of client `i`, which stands at `pc` of the call `c`. -/
def access (sid q i : Nat) (spurious : Bool) (c : RefCall) (pc : RefPc) (s : HandSys) : HandSys :=
  let next := refStep i spurious c pc s.ring.shm
  let calls := s.calls.access s.ring.shm i spurious c pc
  if i = sid ∧ s.ring.send.follows pc next.1 then
    { s with ring := { s.ring.sender q with shm := next.2 }, calls := calls }
  else if s.ring.recv.follows i pc next.1 then
    { s with
      ring := { s.ring.receiver q 0 with shm := next.2 }
      calls := if next.1 = .done then calls.hold i s.ring.recv.root else calls }
  else { s with ring := { s.ring with shm := next.2 }, calls := calls }

end HandSys

/-- A slot that refers to the object at rest: no call on it is in progress. -/
structure HandSys.Refers (q : Nat) (s : HandSys) (a o : Nat) : Prop where
  slot : a ∈ s.calls.slots
  entry : ¬ IsEntry q a
  word : s.ring.shm.word a = o
  ne_zero : o ≠ 0
  alone : ¬ s.calls.InCall a

/-- When a move may happen. The entries of the queue are for `sent_to` and `cxl_unwrap` only, `link_reference` is called
with a reference at hand, and nobody clears a slot that a client in a call holds on to. -/
def HandMove.enabled (sid q : Nat) (s : HandSys) : HandMove → Prop
  | .send g => s.ring.send = .idle ∧ s.calls.call sid = none ∧ s.Refers q g (s.ring.shm.word g) ∧ g ≠ 0
  | .sender => s.ring.send ≠ .idle ∧ s.calls.call sid = none
  | .unwrap r => (s.ring.recv = .vacant ∨ s.ring.recv = .idle r) ∧ r ≠ sid ∧ r < 2 ^ 16 ∧ s.calls.call r = none
  | .receiver a => s.ring.recv.running ∧ s.calls.call s.ring.recv.client = none ∧ ∀ r, s.ring.recv = .take r →
      a ∈ s.calls.slots ∧ a ≠ 0 ∧ ¬ IsEntry q a ∧ s.ring.shm.word a = 0 ∧ ¬ s.calls.InCall a
  | .call i c g => i < 2 ^ 16 ∧ s.calls.call i = none ∧ (i = sid → s.ring.send = .idle) ∧
      (s.ring.recv.running → i ≠ s.ring.recv.client) ∧ c.refed ≠ 0 ∧ c.ref ∈ s.calls.slots ∧ ¬ IsEntry q c.ref ∧
      ¬ s.calls.InCall c.ref ∧ s.ring.shm.word c.ref = c.before ∧
      match c.func with
      | .linkRef => s.Refers q g c.refed ∧ g ≠ 0
      | .unlinkRef => g = 0 ∧ ∀ j, s.calls.guard j ≠ 0 → c.ref ≠ s.calls.guard j
  | .access i _ => s.calls.call i ≠ none
  | .appear tbr o => s.calls.NewBlock tbr o ∧ s.ring.shm.word tbr = o ∧ s.ring.shm.refCnt o = 1 ∧
      (∀ l < 5, tbr ≠ q + 8 * l) ∧ ∀ j < 3, ∀ l < 5, o + 8 * j ≠ q + 8 * l
  | .env m slots => s.calls.Frame s.ring.shm m slots ∧ SameQueue q s.ring.shm m ∧
      (∀ a, IsEntry q a → a ∈ slots) ∧ ∀ l < 5, q + 8 * l ∉ slots

def HandSys.next (sid q : Nat) (s : HandSys) : HandMove → HandSys
  | .send g =>
    { s with ring := s.ring.next q (.send (s.ring.shm.word g)), calls := s.calls.hold sid g }
  | .sender => s.sender sid q
  | .unwrap r => { s with ring := s.ring.next q (.unwrap r) }
  | .receiver a => s.receiver q a
  | .call i c g =>
    { s with calls := s.calls.start i c g, kept := s.kept.filter fun p => p.1 ≠ c.ref }
  | .access i spurious =>
    match s.calls.call i with
    | none => s
    | some (c, pc) => s.access sid q i spurious c pc
  | .appear tbr o => { s with calls := s.calls.appear tbr o }
  | .env m slots => { s with ring := { s.ring with shm := m }, calls := s.calls.withSlots slots }

/-- A heap at rest: every count is the number of references, and no call is in progress. -/
structure AtRest (m : Shm) (s : Calls) : Prop where
  era : EraBounded m
  zero : 0 ∉ s.blocks
  sub : s.objs ⊆ s.blocks
  apart : ∀ o ∈ s.blocks, ∀ p ∈ s.blocks, o ≠ p → o + sizeofCxlObj ≤ p ∨ p + sizeofCxlObj ≤ o
  header : ∀ o ∈ s.blocks, ∀ j < 3, o + 8 * j ∉ s.slots
  word : ∀ a ∈ s.slots, m.word a = s.refs a ∧ (m.word a = 0 ∨ m.word a ∈ s.objs)
  count : ∀ o ∈ s.objs, m.refCnt o = SlotCount.holding s.slots m.word o ∧ 0 < m.refCnt o
  call : ∀ i, s.call i = none ∧ s.guard i = 0

/-- A new queue in a heap at rest. -/
structure HandInit (sid q : Nat) (s : HandSys) : Prop where
  ring : RingInit q s.ring
  rest : AtRest s.ring.shm s.calls
  sender : sid < 2 ^ 16
  entries : ∀ a, IsEntry q a → a ∈ s.calls.slots
  fields : ∀ l < 5, q + 8 * l ∉ s.calls.slots ∧ ∀ o ∈ s.calls.blocks, ∀ j < 3, o + 8 * j ≠ q + 8 * l
  kept : s.kept = []

/-- The compare-exchange of `link_reference` finds a count that meets `ok`. -/
def HandMove.Room (ok : Nat → Prop) (s : HandSys) : HandMove → Prop
  | .access i spurious => ∀ c pc, s.calls.call i = some (c, pc) → casSucceeds spurious c s.ring.shm pc →
      c.func = .linkRef → ok (s.ring.shm.refCnt c.refed)
  | _ => True

/-- The runs in which each `link_reference` finds a count that meets `ok`. -/
def HandReach (ok : Nat → Prop) (sid q : Nat) : HandSys → Prop :=
  Reach (HandInit sid q)
    (fun s s' => ∃ mv : HandMove, mv.enabled sid q s ∧ mv.Room ok s ∧ s' = s.next sid q mv) fun _ => True

/-- The queue is a lossless first-in first-out channel, and what passes through it has a reference throughout. -/
structure HandOver (q : Nat) (s : HandSys) : Prop where
  fifo : RingFifo q s.ring
  /-- from the moment it is linked into the buffer -/
  linked : ∀ n, s.ring.received.length ≤ n → (hn : n < s.ring.sent.length) → 0 < s.ring.shm.refCnt s.ring.sent[n]
  /-- while `cxl_unwrap` moves it to the RootRef -/
  moved : ∀ r a v, s.ring.recv = .release r a v ∨ s.ring.recv = .cleared r a v ∨ s.ring.recv = .storeStart r a v →
    s.ring.shm.word a = v ∧ 0 < s.ring.shm.refCnt v
  /-- until the receiver drops it -/
  kept : ∀ a v, (a, v) ∈ s.kept → s.ring.shm.word a = v ∧ 0 < s.ring.shm.refCnt v

/-! ## §2 — the invariant -/

section Calling

variable (sid q : Nat) (s : HandSys)

/-- What `sent_to` knows about its call and about the object it sends. -/
def SendPc.Calling : SendPc → Prop
  | .idle => True
  | .testStart o => s.calls.call sid = none ∧ s.calls.guard sid ≠ 0 ∧ s.Refers q (s.calls.guard sid) o
  | .testFull o => s.calls.call sid = none ∧ s.calls.guard sid ≠ 0 ∧ s.Refers q (s.calls.guard sid) o
  | .link o => ∃ pc, s.calls.call sid = some (⟨.linkRef, bufferSlot q (s.ring.shm.queueEnd q), o⟩, pc) ∧
      (pc.early ∨ pc.storing)
  | .linked o => ∃ info, s.calls.call sid =
      some (⟨.linkRef, bufferSlot q (s.ring.shm.queueEnd q), o⟩, .bumpEra info)
  | .storeEnd _ => s.calls.call sid = none

/-- The receiver holds on to its RootRef `a`, which refers to `v`. -/
structure HandSys.Rooted (r a v : Nat) : Prop where
  guard : s.calls.guard r = a
  ne_zero : a ≠ 0
  refers : s.Refers q a v

/-- What `cxl_unwrap` knows about its calls. -/
def RecvPc.Calling : RecvPc → Prop
  | .hold r a v => a ≠ 0 ∧ ¬ IsEntry q a ∧ ∃ pc, s.calls.call r = some (⟨.linkRef, a, v⟩, pc)
  | .release r a v => s.Rooted q r a v ∧ (s.calls.call r = none ∨
      ∃ pc, s.calls.call r = some (⟨.unlinkRef, bufferSlot q (s.ring.shm.queueStart q), v⟩, pc) ∧
        (pc.early ∨ pc.storing))
  | .cleared r a v => s.Rooted q r a v ∧ ∃ info, s.calls.call r =
      some (⟨.unlinkRef, bufferSlot q (s.ring.shm.queueStart q), v⟩, .bumpEra info)
  | .storeStart r a v => s.Rooted q r a v ∧ s.calls.call r = none
  | p => p.running → s.calls.call p.client = none

end Calling

/-- `sent_to` is in its call. -/
def SendPc.inCall : SendPc → Prop
  | .link _ => True
  | .linked _ => True
  | _ => False

/-- Client `i` is in the second call of `cxl_unwrap`. -/
def RecvPc.inUnlink (i : Nat) : RecvPc → Prop
  | .release r _ _ => r = i
  | .cleared r _ _ => r = i
  | _ => False

/-- The `cxl_unwrap` in progress has its RootRef. -/
def RecvPc.rooted : RecvPc → Prop
  | .hold _ _ _ => True
  | .release _ _ _ => True
  | .cleared _ _ _ => True
  | .storeStart _ _ _ => True
  | _ => False

/-- The buffer slots are the two ends' own. -/
structure HandInv (sid q : Nat) (s : HandSys) : Prop where
  ring : SteadyReach q s.ring
  calls : CallInv s.ring.shm s.calls
  sender : sid < 2 ^ 16
  entries : ∀ a, IsEntry q a → a ∈ s.calls.slots
  fields : ∀ l < 5, q + 8 * l ∉ s.calls.slots ∧ ∀ o ∈ s.calls.blocks, ∀ j < 3, o + 8 * j ≠ q + 8 * l
  sending : s.ring.send.Calling sid q s
  receiving : s.ring.recv.Calling q s
  client : s.ring.recv.running → s.ring.recv.client ≠ sid ∧ s.ring.recv.client < 2 ^ 16
  callers : ∀ i c pc, s.calls.call i = some (c, pc) → IsEntry q c.ref →
    i = sid ∧ s.ring.send.inCall ∨ s.ring.recv.inUnlink i
  guards : ∀ i, s.calls.guard i ≠ 0 → IsEntry q (s.calls.guard i) → ∃ a v, s.ring.recv = .hold i a v
  kept : ∀ a v, (a, v) ∈ s.kept → s.Refers q a v

section Frames

variable {sid q : Nat} {s s' : HandSys}

/-- A slot at rest stays so. -/
theorem HandSys.Refers.mono {a o : Nat} (h : s.Refers q a o) (hslot : a ∈ s'.calls.slots)
    (hword : s'.ring.shm.word a = s.ring.shm.word a)
    (hcall : ∀ i c pc, s'.calls.call i = some (c, pc) → c.ref = a → ∃ p, s.calls.call i = some (c, p)) :
    s'.Refers q a o := by
  refine ⟨hslot, h.entry, hword.trans h.word, h.ne_zero, ?_⟩
  rintro ⟨i, c, pc, hi, href⟩
  obtain ⟨p, hp⟩ := hcall i c pc hi href
  exact h.alone ⟨i, c, p, hp, href⟩

/-- A slot at rest stays so when a call begins on another slot. -/
theorem HandSys.Refers.start {a o i g : Nat} {c : RefCall} {ring' : RingSys} {kept' : List (Nat × Nat)}
    (h : s.Refers q a o) (hword : ring'.shm.word a = s.ring.shm.word a) (hne : c.ref ≠ a) :
    HandSys.Refers q ⟨ring', s.calls.start i c g, kept'⟩ a o := by
  refine h.mono h.slot hword fun j c' p hj href => ?_
  rcases Calls.update_some hj with ⟨-, rfl, -⟩ | ⟨-, hj⟩
  · exact absurd href hne
  · exact ⟨p, hj⟩

/-- What `sent_to` knows outlasts what others do. -/
theorem SendPc.Calling.mono {p : SendPc} (h : p.Calling sid q s)
    (hsame : p ≠ .idle → s'.calls.call sid = s.calls.call sid ∧ s'.calls.guard sid = s.calls.guard sid)
    (hrefers : ∀ o, s.calls.guard sid ≠ 0 → s.Refers q (s.calls.guard sid) o → s'.Refers q (s.calls.guard sid) o)
    (hend : s'.ring.shm.queueEnd q = s.ring.shm.queueEnd q) : p.Calling sid q s' := by
  cases p with
  | idle => trivial
  | testStart o =>
    obtain ⟨hcall, hguard⟩ := hsame (by simp)
    obtain ⟨hnone, hne, hr⟩ := h
    refine ⟨hcall.trans hnone, ?_, ?_⟩
    · rw [hguard]
      exact hne
    · rw [hguard]
      exact hrefers o hne hr
  | testFull o =>
    obtain ⟨hcall, hguard⟩ := hsame (by simp)
    obtain ⟨hnone, hne, hr⟩ := h
    refine ⟨hcall.trans hnone, ?_, ?_⟩
    · rw [hguard]
      exact hne
    · rw [hguard]
      exact hrefers o hne hr
  | link o =>
    obtain ⟨hcall, -⟩ := hsame (by simp)
    obtain ⟨pc, hpc, hphase⟩ := h
    refine ⟨pc, ?_, hphase⟩
    rw [hcall, hend]
    exact hpc
  | linked o =>
    obtain ⟨hcall, -⟩ := hsame (by simp)
    obtain ⟨info, hinfo⟩ := h
    refine ⟨info, ?_⟩
    rw [hcall, hend]
    exact hinfo
  | storeEnd o =>
    obtain ⟨hcall, -⟩ := hsame (by simp)
    exact hcall.trans h

theorem HandSys.Rooted.mono {r a v : Nat} (h : s.Rooted q r a v) (hguard : s'.calls.guard r = s.calls.guard r)
    (hrefers : s.calls.guard r ≠ 0 → s.Refers q (s.calls.guard r) v → s'.Refers q (s.calls.guard r) v) :
    s'.Rooted q r a v := by
  refine ⟨hguard.trans h.guard, h.ne_zero, ?_⟩
  have hr := hrefers
  rw [h.guard] at hr
  exact hr h.ne_zero h.refers

theorem RecvPc.Calling.of_not_rooted {p : RecvPc} (h : ¬ p.rooted) (hrun : p.running → s.calls.call p.client = none) :
    p.Calling q s := by
  cases p with
  | hold r a v => exact absurd trivial h
  | release r a v => exact absurd trivial h
  | cleared r a v => exact absurd trivial h
  | storeStart r a v => exact absurd trivial h
  | _ => exact hrun

theorem RecvPc.not_inUnlink {p : RecvPc} (h : ¬ p.rooted) (i : Nat) : ¬ p.inUnlink i := by
  cases p with
  | release r a v => exact absurd trivial h
  | cleared r a v => exact absurd trivial h
  | _ => exact id

/-- What `cxl_unwrap` knows outlasts what others do. -/
theorem RecvPc.Calling.mono {p : RecvPc} (h : p.Calling q s)
    (hsame : p.running → s'.calls.call p.client = s.calls.call p.client ∧
      s'.calls.guard p.client = s.calls.guard p.client)
    (hrefers : ∀ v, s.calls.guard p.client ≠ 0 → s.Refers q (s.calls.guard p.client) v →
      s'.Refers q (s.calls.guard p.client) v)
    (hstart : s'.ring.shm.queueStart q = s.ring.shm.queueStart q) : p.Calling q s' := by
  cases p with
  | hold r a v =>
    obtain ⟨hne, hentry, pc, hpc⟩ := h
    exact ⟨hne, hentry, pc, (hsame trivial).1.trans hpc⟩
  | release r a v =>
    obtain ⟨hroot, hcall⟩ := h
    obtain ⟨hc, hg⟩ := hsame trivial
    have hc : s'.calls.call r = s.calls.call r := hc
    refine ⟨hroot.mono hg (hrefers v), ?_⟩
    rw [hc, hstart]
    exact hcall
  | cleared r a v =>
    obtain ⟨hroot, hcall⟩ := h
    obtain ⟨hc, hg⟩ := hsame trivial
    have hc : s'.calls.call r = s.calls.call r := hc
    refine ⟨hroot.mono hg (hrefers v), ?_⟩
    rw [hc, hstart]
    exact hcall
  | storeStart r a v =>
    obtain ⟨hroot, hnone⟩ := h
    obtain ⟨hc, hg⟩ := hsame trivial
    exact ⟨hroot.mono hg (hrefers v), hc.trans hnone⟩
  | _ => exact fun hrun => (hsame hrun).1.trans (h hrun)

end Frames

/-! ## §3 — the slots of the buffer -/

section Entries

variable {sid q : Nat} {s : HandSys}

theorem HandInv.inv (h : HandInv sid q s) : RingInv q s.ring := h.ring.leaving.inv

theorem HandInv.start_entry (h : HandInv sid q s) : IsEntry q (bufferSlot q (s.ring.shm.queueStart q)) := by
  refine ⟨s.ring.shm.queueStart q, ?_, rfl⟩
  rw [h.inv.start]
  exact Nat.mod_lt _ (by decide)

theorem HandInv.end_entry (h : HandInv sid q s) : IsEntry q (bufferSlot q (s.ring.shm.queueEnd q)) := by
  refine ⟨s.ring.shm.queueEnd q, ?_, rfl⟩
  rw [h.inv.stop]
  exact Nat.mod_lt _ (by decide)

/-- A slot at rest is one to hold on to. -/
theorem HandSys.Refers.holds {a o : Nat} (hr : s.Refers q a o) (h : CallInv s.ring.shm s.calls) : s.calls.Holds a o := by
  refine ⟨hr.slot, ?_, fun j c pc hj _ he => ?_⟩
  · rw [← h.word hr.slot hr.alone]
    exact hr.word
  · exact hr.alone ⟨j, c, pc, hj, he⟩

/-- The two ends are apart while there is something to take. -/
theorem HandInv.start_ne_end (h : HandInv sid q s) (hlt : s.ring.consumed < s.ring.published) :
    bufferSlot q (s.ring.shm.queueStart q) ≠ bufferSlot q (s.ring.shm.queueEnd q) := by
  intro he
  have := h.inv.start_eq_stop_iff.mp (bufferSlot_inj he)
  omega

/-- Nobody is at work on the first entry, unless the receiver is. -/
theorem HandInv.start_alone (h : HandInv sid q s) (hlt : s.ring.consumed < s.ring.published)
    (hnone : ∀ i, s.ring.recv.inUnlink i → s.calls.call i = none) :
    ¬ s.calls.InCall (bufferSlot q (s.ring.shm.queueStart q)) := by
  rintro ⟨i, c, pc, hi, href⟩
  have hne := h.start_ne_end hlt
  have hsending := h.sending
  rcases h.callers i c pc hi (href ▸ h.start_entry) with ⟨rfl, hin⟩ | hin
  · cases hs : s.ring.send with
    | link o =>
      rw [hs] at hsending
      obtain ⟨p, hp, -⟩ := hsending
      rw [hi] at hp
      obtain ⟨rfl, -⟩ := Prod.mk.inj (Option.some.inj hp)
      exact hne href.symm
    | linked o =>
      rw [hs] at hsending
      obtain ⟨info, hp⟩ := hsending
      rw [hi] at hp
      obtain ⟨rfl, -⟩ := Prod.mk.inj (Option.some.inj hp)
      exact hne href.symm
    | _ =>
      rw [hs] at hin
      exact hin.elim
  · rw [hnone i hin] at hi
    cases hi

/-- The call of the receiver on the buffer is on the first entry, and there is one. -/
theorem HandInv.unlink_ref (h : HandInv sid q s) {i : Nat} {c : RefCall} {pc : RefPc} (hi : s.calls.call i = some (c, pc))
    (hin : s.ring.recv.inUnlink i) :
    c.ref = bufferSlot q (s.ring.shm.queueStart q) ∧ s.ring.consumed < s.ring.published := by
  have hreceiving := h.receiving
  have hknows := h.inv.receiving
  cases hr : s.ring.recv with
  | release r a v =>
    rw [hr] at hin hreceiving hknows
    obtain rfl : r = i := hin
    obtain ⟨-, hnone | ⟨p, hp, -⟩⟩ := hreceiving
    · rw [hnone] at hi
      cases hi
    · rw [hi] at hp
      obtain ⟨rfl, -⟩ := Prod.mk.inj (Option.some.inj hp)
      exact ⟨rfl, hknows.1⟩
  | cleared r a v =>
    rw [hr] at hin hreceiving hknows
    obtain rfl : r = i := hin
    obtain ⟨-, info, hp⟩ := hreceiving
    rw [hi] at hp
    obtain ⟨rfl, -⟩ := Prod.mk.inj (Option.some.inj hp)
    exact ⟨rfl, hknows.1⟩
  | _ =>
    rw [hr] at hin
    exact hin.elim

/-- Nobody is at work behind the last entry, unless the sender is. -/
theorem HandInv.end_alone (h : HandInv sid q s) (hnone : s.calls.call sid = none) :
    ¬ s.calls.InCall (bufferSlot q (s.ring.shm.queueEnd q)) := by
  rintro ⟨i, c, pc, hi, href⟩
  rcases h.callers i c pc hi (href ▸ h.end_entry) with ⟨rfl, -⟩ | hin
  · rw [hnone] at hi
    cases hi
  · obtain ⟨hstart, hlt⟩ := h.unlink_ref hi hin
    exact h.start_ne_end hlt (hstart.symm.trans href)

/-- A step of the queue that stores to its fields only. -/
theorem HandInv.fields_calls (h : HandInv sid q s) {m : Shm} (hera : EraBounded m)
    (hword : ∀ w, (∀ l < 5, w ≠ q + 8 * l) → m.word w = s.ring.shm.word w) : CallInv m s.calls := by
  refine h.calls.quiet hera (fun a ha => ?_) fun o ho => ?_
  · apply hword
    rintro l hl rfl
    exact (h.fields l hl).1 ha
  · apply hword
    rintro l hl he
    exact (h.fields l hl).2 o (h.calls.sub ho) 1 (by decide) he

theorem HandInv.fields_refers (h : HandInv sid q s) {ring' : RingSys} {calls' : Calls} {kept' : List (Nat × Nat)}
    (hword : ∀ w, (∀ l < 5, w ≠ q + 8 * l) → ring'.shm.word w = s.ring.shm.word w)
    (hslots : calls'.slots = s.calls.slots) (hcall : calls'.call = s.calls.call) {a o : Nat} (hr : s.Refers q a o) :
    HandSys.Refers q ⟨ring', calls', kept'⟩ a o := by
  refine hr.mono ?_ (hword a ?_) fun i c pc hi _ => ⟨pc, hcall ▸ hi⟩
  · show a ∈ calls'.slots
    rw [hslots]
    exact hr.slot
  · rintro l hl rfl
    exact (h.fields l hl).1 hr.slot

end Entries

/-! ## §4 — the accesses of the two ends -/

section Ends

variable {sid q : Nat} {s : HandSys}

theorem HandInv.send (h : HandInv sid q s) {g : Nat} (hidle : s.ring.send = .idle) (hnone : s.calls.call sid = none)
    (hg : s.Refers q g (s.ring.shm.word g)) (hne : g ≠ 0) : HandInv sid q (s.next sid q (.send g)) := by
  have hring : SteadyReach q (s.ring.next q (.send (s.ring.shm.word g))) := h.ring.move _ ⟨hidle, hg.ne_zero⟩ trivial
  have hself : Function.update s.calls.guard sid g sid = g := Function.update_self ..
  have hrefers : ∀ {a o}, s.Refers q a o → (s.next sid q (.send g)).Refers q a o := fun hr =>
    ⟨hr.slot, hr.entry, hr.word, hr.ne_zero, hr.alone⟩
  refine ⟨hring, h.calls.hold hnone fun _ => ⟨_, hg.ne_zero, hg.holds h.calls⟩, h.sender, h.entries, h.fields, ?_, ?_, h.client,
    fun i c pc hi he => ?_, fun i hi he => ?_, fun a v hv => hrefers (h.kept a v hv)⟩
  · refine ⟨hnone, ?_, ?_⟩
    · show Function.update s.calls.guard sid g sid ≠ 0
      rw [hself]
      exact hne
    · show (s.next sid q (.send g)).Refers q (Function.update s.calls.guard sid g sid) (s.ring.shm.word g)
      rw [hself]
      exact hrefers hg
  · refine RecvPc.Calling.mono h.receiving (fun hrun => ⟨rfl, ?_⟩) (fun v _ hr => hrefers hr) rfl
    exact Function.update_of_ne (h.client hrun).1 ..
  · rcases h.callers i c pc hi he with ⟨-, hin⟩ | hin
    · rw [hidle] at hin
      exact hin.elim
    · exact Or.inr hin
  · have hi : Function.update s.calls.guard sid g i ≠ 0 := hi
    have he : IsEntry q (Function.update s.calls.guard sid g i) := he
    by_cases his : i = sid
    · rw [his, hself] at he
      exact absurd he hg.entry
    · rw [Function.update_of_ne his] at hi he
      exact h.guards i hi he

/-- `sent_to` returns. -/
theorem HandInv.senderReturns (h : HandInv sid q s) {ring' : RingSys} (hring : SteadyReach q ring')
    (hsend : ring'.send = .idle) (hrecv : ring'.recv = s.ring.recv) (hnone : s.calls.call sid = none)
    (hera : ring'.shm.eraCell = s.ring.shm.eraCell) (hstart : ring'.shm.queueStart q = s.ring.shm.queueStart q)
    (hword : ∀ w, (∀ l < 5, w ≠ q + 8 * l) → ring'.shm.word w = s.ring.shm.word w)
    (hin : ¬ s.ring.send.inCall) : HandInv sid q { s with ring := ring', calls := s.calls.hold sid 0 } := by
  have hcalls : CallInv ring'.shm s.calls := by
    apply h.fields_calls ?_ hword
    unfold EraBounded
    rw [hera]
    exact h.calls.era
  have hrefers : ∀ {a o}, s.Refers q a o → HandSys.Refers q { s with ring := ring', calls := s.calls.hold sid 0 } a o := by
    intro a o hr
    apply h.fields_refers hword ?_ ?_ hr
    · rfl
    · rfl
  refine ⟨hring, hcalls.hold hnone fun hne => absurd rfl hne, h.sender, h.entries, h.fields, ?_, ?_, ?_,
    fun i c pc hi he => ?_, fun i hi he => ?_, fun a v hv => hrefers (h.kept a v hv)⟩
  · show ring'.send.Calling sid q _
    rw [hsend]
    trivial
  · show ring'.recv.Calling q _
    rw [hrecv]
    refine RecvPc.Calling.mono h.receiving (fun hrun => ⟨rfl, ?_⟩) (fun v _ hr => hrefers hr) hstart
    exact Function.update_of_ne (h.client hrun).1 ..
  · show ring'.recv.running → ring'.recv.client ≠ sid ∧ ring'.recv.client < 2 ^ 16
    rw [hrecv]
    exact h.client
  · show i = sid ∧ ring'.send.inCall ∨ ring'.recv.inUnlink i
    rw [hrecv]
    exact Or.inr ((h.callers i c pc hi he).resolve_left fun hs => hin hs.2)
  · have hi : Function.update s.calls.guard sid 0 i ≠ 0 := hi
    have he : IsEntry q (Function.update s.calls.guard sid 0 i) := he
    show ∃ a v, ring'.recv = .hold i a v
    by_cases his : i = sid
    · rw [his, Function.update_self] at hi
      exact absurd rfl hi
    · rw [Function.update_of_ne his] at hi he
      rw [hrecv]
      exact h.guards i hi he

/-- The second half of the full test comes next. -/
theorem HandInv.senderGoes (h : HandInv sid q s) {o : Nat} (hs : s.ring.send = .testStart o)
    (hring : SteadyReach q { s.ring with send := .testFull o }) :
    HandInv sid q { s with ring := { s.ring with send := .testFull o } } := by
  have hsending := h.sending
  rw [hs] at hsending
  have hrefers : ∀ {a o'}, s.Refers q a o' →
      HandSys.Refers q { s with ring := { s.ring with send := .testFull o } } a o' := fun hr =>
    ⟨hr.slot, hr.entry, hr.word, hr.ne_zero, hr.alone⟩
  refine ⟨hring, h.calls, h.sender, h.entries, h.fields, ⟨hsending.1, hsending.2.1, hrefers hsending.2.2⟩, ?_, h.client,
    fun i c pc hi he => ?_, h.guards, fun a v hv => hrefers (h.kept a v hv)⟩
  · exact RecvPc.Calling.mono h.receiving (fun _ => ⟨rfl, rfl⟩) (fun v _ hr => hrefers hr) rfl
  · rcases h.callers i c pc hi he with ⟨-, hin⟩ | hin
    · rw [hs] at hin
      exact hin.elim
    · exact Or.inr hin

/-- `sent_to` calls `link_reference` on the empty slot behind the last entry. -/
theorem HandInv.senderCalls (h : HandInv sid q s) {o : Nat} (hs : s.ring.send = .testFull o)
    (hring : SteadyReach q { s.ring with send := .link o }) :
    HandInv sid q
      { s with
        ring := { s.ring with send := .link o }
        calls := s.calls.start sid ⟨.linkRef, bufferSlot q (s.ring.shm.queueEnd q), o⟩ (s.calls.guard sid) } := by
  have hsending := h.sending
  rw [hs] at hsending
  obtain ⟨hnone, hne, hguard⟩ := hsending
  have halone := h.end_alone hnone
  have hempty : s.ring.shm.word (bufferSlot q (s.ring.shm.queueEnd q)) = 0 := hring.leaving.inv.link_empty rfl
  have hslot := h.entries _ h.end_entry
  have hcan : s.calls.CanStart sid ⟨.linkRef, bufferSlot q (s.ring.shm.queueEnd q), o⟩ (s.calls.guard sid) := by
    refine ⟨h.sender, hnone, hslot, halone, hguard.ne_zero, ?_, fun _ => ⟨hne, (hguard.holds h.calls).refs⟩, fun _ => ?_, ?_⟩
    · exact (h.calls.word hslot halone).symm.trans hempty
    · exact ⟨⟨o, hguard.ne_zero, hguard.holds h.calls⟩, fun hf => by cases hf⟩
    · exact fun hf => by cases hf
  have hsame : Function.update s.calls.guard sid (s.calls.guard sid) = s.calls.guard := Function.update_eq_self ..
  have hrefers : ∀ {a o'}, s.Refers q a o' → HandSys.Refers q
      { s with
        ring := { s.ring with send := .link o }
        calls := s.calls.start sid ⟨.linkRef, bufferSlot q (s.ring.shm.queueEnd q), o⟩ (s.calls.guard sid) } a o' := by
    intro a o' hr
    refine hr.start rfl ?_
    rintro rfl
    exact hr.entry h.end_entry
  refine ⟨hring, h.calls.start hcan, h.sender, h.entries, h.fields, ⟨.loadInfo, Function.update_self .., Or.inl trivial⟩, ?_,
    h.client, fun i c pc hi he => ?_, fun i hi he => ?_, fun a v hv => hrefers (h.kept a v hv)⟩
  · refine RecvPc.Calling.mono h.receiving (fun hrun => ⟨?_, congrFun hsame _⟩) (fun v _ hr => hrefers hr) rfl
    exact Function.update_of_ne (h.client hrun).1 ..
  · rcases Calls.update_some hi with ⟨his, -, -⟩ | ⟨his, hi⟩
    · exact Or.inl ⟨his, trivial⟩
    · exact Or.inr ((h.callers i c pc hi he).resolve_left fun hin => his hin.1)
  · have hi : Function.update s.calls.guard sid (s.calls.guard sid) i ≠ 0 := hi
    have he : IsEntry q (Function.update s.calls.guard sid (s.calls.guard sid) i) := he
    rw [hsame] at hi he
    exact h.guards i hi he

/-- The first half of the full test finds room. -/
theorem RingSys.sender_testFull {s : RingSys} {o : Nat} (hs : s.send = .testStart o)
    (hroom : ¬ (s.shm.queueEnd q + 1) % 2 ^ 64 = s.shm.queueStart q) :
    s.sender q = { s with send := .testFull o } := by
  unfold RingSys.sender
  rw [hs]
  simp only [if_neg hroom]

/-- So does the second. -/
theorem RingSys.sender_link {s : RingSys} {o : Nat} (hs : s.send = .testFull o)
    (hroom : ¬ (s.shm.queueEnd q + (2 ^ 64 - s.shm.queueStart q)) % 2 ^ 64 = messageBufferSize - 1) :
    s.sender q = { s with send := .link o } := by
  unfold RingSys.sender
  rw [hs]
  simp only [if_neg hroom]

/-- **An access of `sent_to`** outside its call. -/
theorem HandInv.sender_access (h : HandInv sid q s) (hbusy : s.ring.send ≠ .idle) (hnone : s.calls.call sid = none) :
    HandInv sid q (s.sender sid q) := by
  have hring := h.ring.sender hbusy
  have hsending := h.sending
  cases hs : s.ring.send with
  | idle => exact absurd hs hbusy
  | testStart o =>
    have hin : ¬ s.ring.send.inCall := by
      rw [hs]
      exact id
    by_cases hfull : (s.ring.shm.queueEnd q + 1) % 2 ^ 64 = s.ring.shm.queueStart q
    · have heq : s.ring.sender q = { s.ring with send := .idle } := by
        unfold RingSys.sender
        rw [hs]
        simp only [if_pos hfull]
      unfold HandSys.sender
      rw [heq] at hring ⊢
      exact h.senderReturns hring rfl rfl hnone rfl rfl (fun _ _ => rfl) hin
    · unfold HandSys.sender
      rw [RingSys.sender_testFull hs hfull] at hring ⊢
      exact h.senderGoes hs hring
  | testFull o =>
    have hin : ¬ s.ring.send.inCall := by
      rw [hs]
      exact id
    by_cases hfull : (s.ring.shm.queueEnd q + (2 ^ 64 - s.ring.shm.queueStart q)) % 2 ^ 64 = messageBufferSize - 1
    · have heq : s.ring.sender q = { s.ring with send := .idle } := by
        unfold RingSys.sender
        rw [hs]
        simp only [if_pos hfull]
      unfold HandSys.sender
      rw [heq] at hring ⊢
      exact h.senderReturns hring rfl rfl hnone rfl rfl (fun _ _ => rfl) hin
    · unfold HandSys.sender
      rw [RingSys.sender_link hs hfull] at hring ⊢
      exact h.senderCalls hs hring
  | link o =>
    rw [hs] at hsending
    obtain ⟨pc, hpc, -⟩ := hsending
    rw [hnone] at hpc
    cases hpc
  | linked o =>
    rw [hs] at hsending
    obtain ⟨info, hpc⟩ := hsending
    rw [hnone] at hpc
    cases hpc
  | storeEnd o =>
    have hin : ¬ s.ring.send.inCall := by
      rw [hs]
      exact id
    have heq : s.ring.sender q =
        { s.ring with
          send := .idle
          shm := s.ring.shm.store (q + 8) ((s.ring.shm.queueEnd q + 1) % messageBufferSize) } := by
      unfold RingSys.sender
      rw [hs]
    unfold HandSys.sender
    rw [heq] at hring ⊢
    refine h.senderReturns hring rfl rfl hnone rfl (queueStart_store_of_ne (by omega)) (fun w hw => ?_) hin
    exact Function.update_of_ne (hw 1 (by decide)) ..

/-- An access of `cxl_unwrap` before it takes an entry. -/
theorem HandInv.receiverGoes (h : HandInv sid q s) {ring' : RingSys} (hring : SteadyReach q ring')
    (hsend : ring'.send = s.ring.send) (hera : ring'.shm.eraCell = s.ring.shm.eraCell)
    (hend : ring'.shm.queueEnd q = s.ring.shm.queueEnd q)
    (hword : ∀ w, (∀ l < 5, w ≠ q + 8 * l) → ring'.shm.word w = s.ring.shm.word w)
    (hcalling : ring'.recv.Calling q { s with ring := ring' })
    (hclient : ring'.recv.running → ring'.recv.client ≠ sid ∧ ring'.recv.client < 2 ^ 16)
    (hroot : ¬ s.ring.recv.rooted) : HandInv sid q { s with ring := ring' } := by
  have hcalls : CallInv ring'.shm s.calls := by
    apply h.fields_calls ?_ hword
    unfold EraBounded
    rw [hera]
    exact h.calls.era
  have hrefers : ∀ {a o}, s.Refers q a o → HandSys.Refers q { s with ring := ring' } a o := by
    intro a o hr
    apply h.fields_refers hword ?_ ?_ hr
    · rfl
    · rfl
  refine ⟨hring, hcalls, h.sender, h.entries, h.fields, ?_, hcalling, hclient, fun i c pc hi he => ?_,
    fun i hi he => ?_, fun a v hv => hrefers (h.kept a v hv)⟩
  · show ring'.send.Calling sid q _
    rw [hsend]
    exact SendPc.Calling.mono h.sending (fun _ => ⟨rfl, rfl⟩) (fun o _ hr => hrefers hr) hend
  · show i = sid ∧ ring'.send.inCall ∨ ring'.recv.inUnlink i
    rw [hsend]
    exact Or.inl ((h.callers i c pc hi he).resolve_right (RecvPc.not_inUnlink hroot i))
  · obtain ⟨a, v, hr⟩ := h.guards i hi he
    rw [hr] at hroot
    exact absurd trivial hroot

/-- `cxl_unwrap` calls `link_reference` on the first entry. -/
theorem HandInv.receiverTakes (h : HandInv sid q s) {r a : Nat} (hr : s.ring.recv = .take r)
    (hnone : s.calls.call r = none) (ha : a ∈ s.calls.slots) (ha0 : a ≠ 0) (hentry : ¬ IsEntry q a)
    (hz : s.ring.shm.word a = 0) (halone : ¬ s.calls.InCall a) : HandInv sid q (s.receiver q a) := by
  have hring : SteadyReach q (s.ring.receiver q a) := h.ring.move (.receiver a) (by rw [RingMove.enabled, hr]; trivial) trivial
  obtain ⟨hclient, htid⟩ := h.client (by rw [hr]; trivial)
  rw [hr] at hclient htid
  have hlt : RecvPc.Knows q s.ring (.take r) := hr ▸ h.inv.receiving
  have hin : ∀ i, ¬ s.ring.recv.inUnlink i := by
    intro i
    rw [hr]
    exact id
  have hne : s.ring.shm.word (bufferSlot q (s.ring.shm.queueStart q)) ≠ 0 := by
    apply h.inv.found ?_ hlt
    rw [hr]
    exact fun g => id
  have hfirst := h.start_alone hlt fun i hi => absurd hi (hin i)
  have hslot := h.entries _ h.start_entry
  have hrefs := h.calls.word hslot hfirst
  have heq : s.receiver q a =
      { s with
        ring := { s.ring with recv := .hold r a (s.ring.shm.word (bufferSlot q (s.ring.shm.queueStart q))) }
        calls := s.calls.start r ⟨.linkRef, a, s.ring.shm.word (bufferSlot q (s.ring.shm.queueStart q))⟩
          (bufferSlot q (s.ring.shm.queueStart q)) } := by
    unfold HandSys.receiver RingSys.receiver
    simp only [hr]
  have hring' : s.ring.receiver q a =
      { s.ring with recv := .hold r a (s.ring.shm.word (bufferSlot q (s.ring.shm.queueStart q))) } := by
    unfold RingSys.receiver
    simp only [hr]
  rw [hring'] at hring
  rw [heq]
  generalize hv : s.ring.shm.word (bufferSlot q (s.ring.shm.queueStart q)) = v at *
  generalize hfront : bufferSlot q (s.ring.shm.queueStart q) = front at *
  have hfront0 : front ≠ 0 := by
    unfold bufferSlot at hfront
    omega
  have hcan : s.calls.CanStart r ⟨.linkRef, a, v⟩ front := by
    refine ⟨htid, hnone, ha, halone, hne, ?_, fun _ => ⟨hfront0, ?_⟩, fun _ => ⟨⟨v, hne, hslot, ?_, ?_⟩, ?_⟩, ?_⟩
    · exact (h.calls.word ha halone).symm.trans hz
    · exact hrefs.symm
    · exact hrefs.symm
    · exact fun j c pc hj _ he => hfirst ⟨j, c, pc, hj, he⟩
    · exact fun hf => by cases hf
    · exact fun hf => by cases hf
  have hrefers : ∀ {b o}, s.Refers q b o → HandSys.Refers q
      { s with ring := { s.ring with recv := .hold r a v }, calls := s.calls.start r ⟨.linkRef, a, v⟩ front } b o := by
    intro b o hb
    refine hb.start rfl ?_
    rintro rfl
    exact hb.ne_zero (hb.word.symm.trans hz)
  refine ⟨hring, h.calls.start hcan, h.sender, h.entries, h.fields, ?_, ⟨ha0, hentry, .loadInfo, Function.update_self ..⟩,
    fun _ => ⟨hclient, htid⟩, fun i c pc hi he => ?_, fun i hi he => ?_, fun b o hb => hrefers (h.kept b o hb)⟩
  · have hsid : sid ≠ r := Ne.symm hclient
    refine SendPc.Calling.mono h.sending (fun _ => ⟨?_, ?_⟩) (fun o _ hb => hrefers hb) rfl
    · exact Function.update_of_ne hsid ..
    · exact Function.update_of_ne hsid ..
  · rcases Calls.update_some hi with ⟨-, rfl, -⟩ | ⟨-, hi⟩
    · exact absurd he hentry
    · exact Or.inl ((h.callers i c pc hi he).resolve_right (hin i))
  · have hi : Function.update s.calls.guard r front i ≠ 0 := hi
    have he : IsEntry q (Function.update s.calls.guard r front i) := he
    by_cases hir : i = r
    · exact ⟨a, v, by rw [hir]⟩
    · rw [Function.update_of_ne hir] at hi he
      obtain ⟨b, u, hold⟩ := h.guards i hi he
      rw [hr] at hold
      cases hold

/-- `cxl_unwrap` calls `unlink_reference` on the first entry, and holds on to its RootRef. -/
theorem HandInv.receiverReleases (h : HandInv sid q s) {r b v : Nat} (hr : s.ring.recv = .release r b v)
    (hnone : s.calls.call r = none) (a : Nat) : HandInv sid q (s.receiver q a) := by
  obtain ⟨hclient, htid⟩ := h.client (by rw [hr]; trivial)
  have hreceiving := h.receiving
  rw [hr] at hreceiving hclient htid
  obtain ⟨hroot, -⟩ := hreceiving
  obtain ⟨hlt, hentry⟩ : RecvPc.Knows q s.ring (.release r b v) := hr ▸ h.inv.receiving
  have hsettled : ∀ g, s.ring.recv.Emptied g → g = 0 := by
    rw [hr]
    exact fun g => id
  have hword : s.ring.shm.word (bufferSlot q (s.ring.shm.queueStart q)) = v := (h.inv.cell_start hsettled).trans hentry
  have hfirst := h.start_alone hlt fun i hi => by
    rw [hr] at hi
    exact hi ▸ hnone
  have hslot := h.entries _ h.start_entry
  have hrefs := h.calls.word hslot hfirst
  have heq : s.receiver q a =
      { s with calls := s.calls.start r ⟨.unlinkRef, bufferSlot q (s.ring.shm.queueStart q), v⟩ b } := by
    unfold HandSys.receiver
    simp only [hr, hword]
  have hother : bufferSlot q (s.ring.shm.queueStart q) ≠ b := fun he => hroot.refers.entry (he ▸ h.start_entry)
  have hcan : s.calls.CanStart r ⟨.unlinkRef, bufferSlot q (s.ring.shm.queueStart q), v⟩ b := by
    refine ⟨htid, hnone, hslot, hfirst, hroot.refers.ne_zero, hrefs.symm.trans hword, ?_, fun _ => ?_, fun _ j hj hg he => ?_⟩
    · exact fun hf => by cases hf
    · exact ⟨⟨v, hroot.refers.ne_zero, hroot.refers.holds h.calls⟩, fun _ => hother⟩
    · obtain ⟨c, u, hold⟩ := h.guards j hg (he ▸ h.start_entry)
      rw [hr] at hold
      cases hold
  have hsame : Function.update s.calls.guard r b = s.calls.guard := by
    rw [← hroot.guard]
    exact Function.update_eq_self ..
  rw [heq]
  have hrefers : ∀ {c o}, s.Refers q c o → HandSys.Refers q
      { s with calls := s.calls.start r ⟨.unlinkRef, bufferSlot q (s.ring.shm.queueStart q), v⟩ b } c o := by
    intro c o hc
    refine hc.start rfl ?_
    rintro rfl
    exact hc.entry h.start_entry
  refine ⟨h.ring, h.calls.start hcan, h.sender, h.entries, h.fields, ?_, ?_, h.client, fun i c pc hi he => ?_,
    fun i hi he => ?_, fun c o hc => hrefers (h.kept c o hc)⟩
  · refine SendPc.Calling.mono h.sending (fun _ => ⟨?_, congrFun hsame _⟩) (fun o _ hc => hrefers hc) rfl
    exact Function.update_of_ne (Ne.symm hclient) ..
  · show s.ring.recv.Calling q _
    rw [hr]
    refine ⟨⟨Function.update_self .., hroot.ne_zero, hrefers hroot.refers⟩, Or.inr ⟨.loadInfo, ?_, Or.inl trivial⟩⟩
    exact Function.update_self ..
  · show i = sid ∧ s.ring.send.inCall ∨ s.ring.recv.inUnlink i
    rcases Calls.update_some hi with ⟨rfl, -, -⟩ | ⟨-, hi⟩
    · refine Or.inr ?_
      rw [hr]
      exact rfl
    · exact h.callers i c pc hi he
  · have hi : Function.update s.calls.guard r b i ≠ 0 := hi
    have he : IsEntry q (Function.update s.calls.guard r b i) := he
    rw [hsame] at hi he
    exact h.guards i hi he

/-- `cxl_unwrap` returns with the RootRef. -/
theorem HandInv.receiverReturns (h : HandInv sid q s) {r b v : Nat} (hr : s.ring.recv = .storeStart r b v) (a : Nat) :
    HandInv sid q (s.receiver q a) := by
  have hring : SteadyReach q (s.ring.receiver q a) := h.ring.move (.receiver a) (by rw [RingMove.enabled, hr]; trivial) trivial
  obtain ⟨hclient, -⟩ := h.client (by rw [hr]; trivial)
  have hreceiving := h.receiving
  rw [hr] at hreceiving hclient
  obtain ⟨hroot, hnone⟩ := hreceiving
  have hring' : s.ring.receiver q a =
      { s.ring with
        recv := .idle r
        shm := s.ring.shm.store q ((s.ring.shm.queueStart q + 1) % messageBufferSize)
        received := s.ring.received ++ [v] } := by
    unfold RingSys.receiver
    simp only [hr]
  have heq : s.receiver q a = ⟨s.ring.receiver q a, s.calls.hold r 0, (b, v) :: s.kept⟩ := by
    unfold HandSys.receiver
    simp only [hr]
  rw [heq]
  rw [hring'] at hring ⊢
  generalize (s.ring.shm.queueStart q + 1) % messageBufferSize = start at *
  have hword : ∀ w, (∀ l < 5, w ≠ q + 8 * l) → (s.ring.shm.store q start).word w = s.ring.shm.word w := by
    intro w hw
    exact Function.update_of_ne (hw 0 (by decide)) ..
  have hcalls : CallInv (s.ring.shm.store q start) s.calls := h.fields_calls h.calls.era hword
  have hrefers : ∀ {c o}, s.Refers q c o → HandSys.Refers q
      ⟨{ s.ring with
          recv := .idle r
          shm := s.ring.shm.store q start
          received := s.ring.received ++ [v] }, s.calls.hold r 0, (b, v) :: s.kept⟩ c o := by
    intro c o hc
    apply h.fields_refers hword ?_ ?_ hc
    · rfl
    · rfl
  refine ⟨hring, hcalls.hold hnone fun hne => absurd rfl hne, h.sender, h.entries, h.fields, ?_, fun hf => hf.elim,
    fun hf => hf.elim, fun i c pc hi he => ?_, fun i hi he => ?_, fun c o hc => ?_⟩
  · refine SendPc.Calling.mono h.sending (fun _ => ⟨rfl, ?_⟩) (fun o _ hc => hrefers hc) ?_
    · exact Function.update_of_ne (Ne.symm hclient) ..
    · exact queueEnd_store_of_ne (by omega)
  · refine Or.inl ((h.callers i c pc hi he).resolve_right fun hin => ?_)
    rw [hr] at hin
    exact hin
  · have hi : Function.update s.calls.guard r 0 i ≠ 0 := hi
    have he : IsEntry q (Function.update s.calls.guard r 0 i) := he
    by_cases hir : i = r
    · rw [hir, Function.update_self] at hi
      exact absurd rfl hi
    · rw [Function.update_of_ne hir] at hi he
      obtain ⟨c, u, hold⟩ := h.guards i hi he
      rw [hr] at hold
      cases hold
  · rcases List.mem_cons.mp hc with he | hc
    · obtain ⟨rfl, rfl⟩ := Prod.mk.inj he
      exact hrefers hroot.refers
    · exact hrefers (h.kept c o hc)

theorem HandInv.unwrap (h : HandInv sid q s) {r : Nat} (hr : s.ring.recv = .vacant ∨ s.ring.recv = .idle r) (hne : r ≠ sid)
    (htid : r < 2 ^ 16) (hnone : s.calls.call r = none) : HandInv sid q (s.next sid q (.unwrap r)) := by
  refine h.receiverGoes (h.ring.move (.unwrap r) hr trivial) rfl rfl rfl (fun _ _ => rfl) (fun _ => hnone)
    (fun _ => ⟨hne, htid⟩) ?_
  rcases hr with hr | hr
  · rw [hr]
    exact id
  · rw [hr]
    exact id

/-- What an access of `cxl_unwrap` up to the test of the entry does. -/
structure RingSys.Attaches (q : Nat) (s s' : RingSys) : Prop where
  send : s'.send = s.send
  era : s'.shm.eraCell = s.shm.eraCell
  stop : s'.shm.queueEnd q = s.shm.queueEnd q
  word : ∀ w, (∀ l < 5, w ≠ q + 8 * l) → s'.shm.word w = s.shm.word w
  unrooted : ¬ s'.recv.rooted
  client : s'.recv.running → s'.recv.client = s.recv.client

theorem receiver_attaches {s : RingSys} (a : Nat) (hroot : ¬ s.recv.rooted) (htake : ∀ r, s.recv ≠ .take r) :
    s.Attaches q (s.receiver q a) := by
  have hgoes : ∀ p, ¬ p.rooted → (p.running → p.client = s.recv.client) → s.Attaches q { s with recv := p } :=
    fun p hp hc => ⟨rfl, rfl, rfl, fun _ _ => rfl, hp, hc⟩
  unfold RingSys.receiver
  cases hr : s.recv with
  | testReceiver r =>
    rw [hr] at hgoes
    apply hgoes
    · split <;> exact id
    · split <;> exact fun _ => rfl
  | storeReceiverNext r =>
    refine ⟨rfl, rfl, queueEnd_store_of_ne (by omega), fun w hw => ?_, id, fun _ => by rw [hr]; rfl⟩
    exact Function.update_of_ne (hw 4 (by decide)) ..
  | storeReceiverQueue r => exact ⟨rfl, rfl, rfl, fun _ _ => rfl, id, fun _ => by rw [hr]; rfl⟩
  | storeReceiverId r =>
    refine ⟨rfl, rfl, queueEnd_store_of_ne (by omega), fun w hw => ?_, id, fun _ => by rw [hr]; rfl⟩
    exact Function.update_of_ne (hw 2 (by decide)) ..
  | testEmpty r =>
    rw [hr] at hgoes
    apply hgoes
    · split <;> exact id
    · split <;> exact fun _ => rfl
  | testEntry r =>
    rw [hr] at hgoes
    apply hgoes
    · split <;> exact id
    · split <;> exact fun _ => rfl
  | take r => exact absurd hr (htake r)
  | hold r b v => exact absurd (hr ▸ trivial) hroot
  | release r b v => exact absurd (hr ▸ trivial) hroot
  | cleared r b v => exact absurd (hr ▸ trivial) hroot
  | storeStart r b v => exact absurd (hr ▸ trivial) hroot
  | _ => exact ⟨rfl, rfl, rfl, fun _ _ => rfl, hroot, fun _ => rfl⟩

/-- **An access of `cxl_unwrap`** outside its two calls. -/
theorem HandInv.receiver_access (h : HandInv sid q s) {a : Nat} (hrun : s.ring.recv.running)
    (hnone : s.calls.call s.ring.recv.client = none) (ha : ∀ r, s.ring.recv = .take r →
      a ∈ s.calls.slots ∧ a ≠ 0 ∧ ¬ IsEntry q a ∧ s.ring.shm.word a = 0 ∧ ¬ s.calls.InCall a) :
    HandInv sid q (s.receiver q a) := by
  have hreceiving := h.receiving
  have hgoes : ¬ s.ring.recv.rooted → (∀ r, s.ring.recv ≠ .take r) → HandInv sid q { s with ring := s.ring.receiver q a } := by
    intro hroot htake
    have hstep : s.ring.Attaches q (s.ring.receiver q a) := receiver_attaches a hroot htake
    refine h.receiverGoes (h.ring.move (.receiver a) hrun trivial) hstep.send hstep.era hstep.stop hstep.word ?_ ?_ hroot
    · apply RecvPc.Calling.of_not_rooted hstep.unrooted
      intro hrun'
      rw [hstep.client hrun']
      exact hnone
    · intro hrun'
      rw [hstep.client hrun']
      exact h.client hrun
  have heq : ¬ s.ring.recv.rooted → (∀ r, s.ring.recv ≠ .take r) →
      s.receiver q a = { s with ring := s.ring.receiver q a } := by
    intro hroot htake
    unfold HandSys.receiver
    cases hr : s.ring.recv with
    | take r => exact absurd hr (htake r)
    | release r b v => exact absurd (hr ▸ trivial) hroot
    | storeStart r b v => exact absurd (hr ▸ trivial) hroot
    | _ => rfl
  cases hr : s.ring.recv with
  | take r =>
    rw [hr] at hnone
    obtain ⟨hslot, ha0, hentry, hz, halone⟩ := ha r hr
    exact h.receiverTakes hr hnone hslot ha0 hentry hz halone
  | hold r b v =>
    rw [hr] at hnone hreceiving
    obtain ⟨-, -, pc, hpc⟩ := hreceiving
    cases hnone.symm.trans hpc
  | release r b v =>
    rw [hr] at hnone
    exact h.receiverReleases hr hnone a
  | cleared r b v =>
    rw [hr] at hnone hreceiving
    obtain ⟨-, info, hpc⟩ := hreceiving
    cases hnone.symm.trans hpc
  | storeStart r b v => exact h.receiverReturns hr a
  | _ =>
    have hroot : ¬ s.ring.recv.rooted := by
      rw [hr]
      exact id
    have htake : ∀ r, s.ring.recv ≠ .take r := by
      intro r
      rw [hr]
      simp
    rw [heq hroot htake]
    exact hgoes hroot htake

end Ends

end CxlShm
