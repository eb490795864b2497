import CxlShm.QueueEnds

/-! # QueueInvariant — block ids and lists agree

The invariant has a part for each place that names an end: the sender lists, the receiver lists, the
blocks, the segments, and the monitor. The lists `S t` and `R t` are what is on the list of client `t`,
or what the monitor has left of it.
-/

namespace CxlShm

open Transition Loop

/-! ## §1 — the invariant -/

/-- What is left of the sender list under recovery. -/
def MonPc.senderCursor : MonPc → Option Nat
  | .senders _ p => linkPtr p
  | .storeSenderId _ q _ => some q
  | .markAbandon _ _ next => linkPtr next
  | _ => none

/-- What is left of the receiver list under recovery; `head` before the monitor has come to it. -/
def MonPc.receiverCursor (head : Option Nat) : MonPc → Option Nat
  | .receivers _ p => linkPtr p
  | .storeReceiverId _ q _ => some q
  | .objects _ => none
  | .segments _ _ => none
  | .resetTls _ => none
  | .release _ => none
  | _ => head

def EndSys.senderRoot (s : EndSys) (t : Nat) : Option Nat :=
  if s.mon.client = some t then s.mon.senderCursor else linkPtr (s.shm.tls t).senderQueue

def EndSys.receiverRoot (s : EndSys) (t : Nat) : Option Nat :=
  if s.mon.client = some t then s.mon.receiverCursor (linkPtr (s.shm.tls t).receiverQueue)
  else linkPtr (s.shm.tls t).receiverQueue

theorem EndSys.senderRoot_of_client {s : EndSys} {t : Nat} (h : s.mon.client = some t) :
    s.senderRoot t = s.mon.senderCursor :=
  if_pos h

theorem EndSys.senderRoot_of_ne {s : EndSys} {t : Nat} (h : s.mon.client ≠ some t) :
    s.senderRoot t = linkPtr (s.shm.tls t).senderQueue :=
  if_neg h

theorem EndSys.receiverRoot_of_client {s : EndSys} {t : Nat} (h : s.mon.client = some t) :
    s.receiverRoot t = s.mon.receiverCursor (linkPtr (s.shm.tls t).receiverQueue) :=
  if_pos h

theorem EndSys.receiverRoot_of_ne {s : EndSys} {t : Nat} (h : s.mon.client ≠ some t) :
    s.receiverRoot t = linkPtr (s.shm.tls t).receiverQueue :=
  if_neg h

/-- The queues that name `t` as sender are on its list, apart from the one it is building. -/
structure SenderInv (S : Nat → List Nat) (s : EndSys) : Prop where
  chain : ∀ t, Chained (fun q => linkPtr (s.shm.senderNext q)) (s.senderRoot t) (S t)
  nodup : ∀ t, (S t).Nodup
  mem : ∀ t, ∀ q ∈ S t, t ≠ 0 ∧ s.stage q = .linked ∧ s.shm.senderId q = t
  all : ∀ t q, s.stage q ≠ .raw → s.shm.senderId q = t → t ≠ 0 →
    q ∈ S t ∨ (s.pc t).building = some q
  built : ∀ t q, (s.pc t).building = some q →
    (s.stage q = .named ∨ s.stage q = .cleared) ∧ s.shm.senderId q = t
  next : ∀ t q, s.pc t = .storeSenderQueue q → s.shm.senderNext q = (s.shm.tls t).senderQueue

/-- The queues that name `t` as receiver are on its list. -/
structure ReceiverInv (R : Nat → List Nat) (s : EndSys) : Prop where
  chain : ∀ t, Chained (fun q => linkPtr (s.shm.receiverNext q)) (s.receiverRoot t) (R t)
  nodup : ∀ t, (R t).Nodup
  mem : ∀ t, ∀ q ∈ R t, t ≠ 0 ∧ s.stage q = .linked ∧
    (s.shm.receiverId q = t ∨ (s.pc t).unnamed = some q)
  all : ∀ t q, s.stage q = .cleared ∨ s.stage q = .linked → s.shm.receiverId q = t → t ≠ 0 → q ∈ R t
  fresh : ∀ q, s.stage q = .cleared → s.shm.receiverId q = 0
  attaching : ∀ t q, (s.pc t).attaching = some q → s.stage q = .linked ∧ s.shm.receiverId q = 0
  unique : ∀ t u q, (s.pc t).attaching = some q → (s.pc u).attaching = some q → t = u
  unnamed : ∀ t q, (s.pc t).unnamed = some q → q ∈ R t
  next : ∀ t q, s.pc t = .storeReceiverQueue q →
    s.shm.receiverNext q = (s.shm.tls t).receiverQueue

/-- `block_to_msg_queue` has stored both ids and `create_msg_queue` has not stored `sender_queue`. -/
def EndPc.clearing : EndPc → Option Nat
  | .clear q _ => some q
  | .storeSenderNext q => some q
  | .storeSenderQueue q => some q
  | _ => none

/-- Queue blocks do not overlap, and each stands where its builder does. -/
structure BlockInv (s : EndSys) : Prop where
  apart : ∀ q q', s.Handed q → s.Handed q' → q ≠ q' → QueuesApart q q'
  bound : ∀ q, s.Handed q → segmentsAreaStart ≤ q ∧ segmentIdx q < maxSegmentNum
  handed : ∀ t q, s.pc t = .storeSenderId q → s.stage q = .raw
  named : ∀ t q, s.pc t = .storeReceiverZero q → s.stage q = .named
  clearing : ∀ t q, (s.pc t).clearing = some q → s.stage q = .cleared
  words : ∀ t q k, s.pc t = .clear q k → k < clearedWords
  owned : ∀ q, s.stage q = .named ∨ s.stage q = .cleared → ∃ t, (s.pc t).building = some q
  testing : ∀ t q, s.pc t = .testReceiver q → s.stage q = .linked

/-- Nothing of client `t` keeps the segment of `q`: it is not marked, and no queue the monitor has
left to mark lies in it. -/
structure SegmentFree (S : Nat → List Nat) (s : EndSys) (t q : Nat) : Prop where
  unmarked : ¬ s.shm.abandoned (segmentIdx q)
  senders : ∀ q' ∈ S t, segmentIdx q' ≠ segmentIdx q
  marking : ∀ q' next, s.mon = .markAbandon t q' next → segmentIdx q' ≠ segmentIdx q

/-- Recovery keeps the segment of a linked queue and gives back that of a block left unlinked. -/
structure SegInv (S : Nat → List Nat) (s : EndSys) : Prop where
  mem : ∀ t, ∀ q ∈ S t, s.shm.owner (segmentIdx q) = t
  built : ∀ t q, (s.pc t).building = some q ∨ s.pc t = .storeSenderId q →
    s.shm.owner (segmentIdx q) = t
  marking : ∀ t q next, s.mon = .markAbandon t q next →
    s.stage q = .linked ∧ s.shm.owner (segmentIdx q) = t
  linked : ∀ q, s.stage q = .linked → s.shm.owner (segmentIdx q) ≠ 0 ∧
    (s.shm.abandoned (segmentIdx q) ∨ (∃ t, q ∈ S t) ∨ ∃ t next, s.mon = .markAbandon t q next)
  unlinked : ∀ t q b, s.pc t = .crashed (some q) b → SegmentFree S s t q

structure MonInv (s : EndSys) : Prop where
  client : ∀ t, s.mon.client = some t → ∃ a b, s.pc t = .crashed a b
  range : ∀ t, s.pc t ≠ .unregistered → 1 ≤ t ∧ t ≤ maxThread
  heads : ∀ t, s.pc t = .unregistered ∨ s.mon = .release t →
    (s.shm.tls t).senderQueue = 0 ∧ (s.shm.tls t).receiverQueue = 0
  senderNext : ∀ t q next, s.mon = .storeSenderId t q next → next = s.shm.senderNext q
  receiverNext : ∀ t q next, s.mon = .storeReceiverId t q next → next = s.shm.receiverNext q
  segments : ∀ t i q b, s.mon = .segments t i → s.pc t = .crashed (some q) b → i ≤ segmentIdx q
  late : ∀ t q b, s.mon = .resetTls t ∨ s.mon = .release t → s.pc t ≠ .crashed (some q) b

structure EndInv (S R : Nat → List Nat) (s : EndSys) : Prop where
  sender : SenderInv S s
  receiver : ReceiverInv R s
  block : BlockInv s
  seg : SegInv S s
  mon : MonInv s

/-! ## §2 — what each part depends on -/

theorem EndSys.setPc_pc (s : EndSys) (t u : Nat) (pc : EndPc) :
    (s.setPc t pc).pc u = if u = t then pc else s.pc u :=
  Function.update_apply ..

/-- A view of the program counters that the move of a client keeps. -/
theorem EndSys.setPc_view {α : Type*} (f : EndPc → α) {s : EndSys} {t : Nat} {pc : EndPc}
    (hf : f pc = f (s.pc t)) (u : Nat) : f ((s.setPc t pc).pc u) = f (s.pc u) := by
  rw [EndSys.setPc_pc]
  split
  · rename_i hut
    rw [hut, hf]
  · rfl

/-- A program counter the moving client is not at. -/
theorem EndSys.setPc_eq {s : EndSys} {t u : Nat} {pc x : EndPc} (h : (s.setPc t pc).pc u = x)
    (hne : pc ≠ x) : u ≠ t ∧ s.pc u = x := by
  rw [EndSys.setPc_pc] at h
  split at h
  · exact absurd h hne
  · rename_i hut
    exact ⟨hut, h⟩

/-- The same for what the program counter says. -/
theorem EndSys.setPc_some {α : Type*} (f : EndPc → Option α) {s : EndSys} {t u : Nat} {pc : EndPc}
    {x : α} (h : f ((s.setPc t pc).pc u) = some x) (hne : f pc = none) :
    u ≠ t ∧ f (s.pc u) = some x := by
  rw [EndSys.setPc_pc] at h
  split at h
  · rw [hne] at h
    cases h
  · rename_i hut
    exact ⟨hut, h⟩

theorem EndSys.setStage_stage (s : EndSys) (q q' : Nat) (st : QueueStage) :
    (s.setStage q st).stage q' = if q' = q then st else s.stage q' :=
  Function.update_apply ..

section Congr

variable {S R : Nat → List Nat} {s s' : EndSys}

theorem linked_ne_raw {q : Nat} (h : s.stage q = .linked) : s.stage q ≠ .raw := by
  rw [h]
  nofun

theorem SenderInv.built_ne_raw (h : SenderInv S s) {t q : Nat} (hq : (s.pc t).building = some q) :
    s.stage q ≠ .raw := by
  rcases (h.built t q hq).1 with hst | hst <;> rw [hst] <;> nofun

/-- A block being built is not linked. -/
theorem SenderInv.built_ne_linked (h : SenderInv S s) {t q : Nat}
    (hq : (s.pc t).building = some q) : s.stage q ≠ .linked := by
  rcases (h.built t q hq).1 with hst | hst <;> rw [hst] <;> nofun

theorem SenderInv.congr (h : SenderInv S s) (hraw : ∀ q, s'.stage q ≠ .raw → s.stage q ≠ .raw)
    (hlinked : ∀ q, s.stage q = .linked → s'.stage q = .linked)
    (hid : ∀ q, s.stage q ≠ .raw → s'.shm.senderId q = s.shm.senderId q)
    (hlink : ∀ q, s.stage q = .linked → s'.shm.senderNext q = s.shm.senderNext q)
    (hroot : ∀ t, s'.senderRoot t = s.senderRoot t)
    (hbuild : ∀ t q, s'.stage q ≠ .raw → (s.pc t).building = some q →
      (s'.pc t).building = some q)
    (hbuilt : ∀ t q, (s'.pc t).building = some q → (s.pc t).building = some q ∧
      (s'.stage q = .named ∨ s'.stage q = .cleared))
    (hnext : ∀ t q, s'.pc t = .storeSenderQueue q →
      s'.shm.senderNext q = (s'.shm.tls t).senderQueue) : SenderInv S s' := by
  refine ⟨?_, h.nodup, ?_, ?_, ?_, hnext⟩
  · intro t
    rw [hroot]
    refine (h.chain t).congr fun q hq => ?_
    simp only [hlink q (h.mem t q hq).2.1]
  · intro t q hq
    obtain ⟨ht, hst, hs⟩ := h.mem t q hq
    exact ⟨ht, hlinked q hst, (hid q (linked_ne_raw hst)).trans hs⟩
  · intro t q hst hs ht
    rcases h.all t q (hraw q hst) ((hid q (hraw q hst)).symm.trans hs) ht with hm | hb
    · exact Or.inl hm
    · exact Or.inr (hbuild t q hst hb)
  · intro t q hq
    obtain ⟨hq, hst⟩ := hbuilt t q hq
    exact ⟨hst, (hid q (h.built_ne_raw hq)).trans (h.built t q hq).2⟩

theorem ReceiverInv.congr (h : ReceiverInv R s)
    (hready : ∀ q, s'.stage q = .cleared ∨ s'.stage q = .linked →
      (s.stage q = .cleared ∨ s.stage q = .linked) ∨ s'.shm.receiverId q = 0)
    (hfresh : ∀ q, s'.stage q = .cleared → s'.shm.receiverId q = 0)
    (hlinked : ∀ q, s.stage q = .linked → s'.stage q = .linked)
    (hid : ∀ q, s.stage q = .cleared ∨ s.stage q = .linked →
      s'.shm.receiverId q = s.shm.receiverId q)
    (hlink : ∀ t, ∀ q ∈ R t, s'.shm.receiverNext q = s.shm.receiverNext q)
    (hroot : ∀ t, s'.receiverRoot t = s.receiverRoot t)
    (hattach : ∀ t q, (s'.pc t).attaching = some q → (s.pc t).attaching = some q)
    (hunnamed : ∀ t, (s'.pc t).unnamed = (s.pc t).unnamed)
    (hnext : ∀ t q, s'.pc t = .storeReceiverQueue q →
      s'.shm.receiverNext q = (s'.shm.tls t).receiverQueue) : ReceiverInv R s' := by
  refine ⟨?_, h.nodup, ?_, ?_, hfresh, ?_, ?_, ?_, hnext⟩
  · intro t
    rw [hroot]
    refine (h.chain t).congr fun q hq => ?_
    simp only [hlink t q hq]
  · intro t q hq
    obtain ⟨ht, hst, hr⟩ := h.mem t q hq
    rw [hunnamed, hid q (Or.inr hst)]
    exact ⟨ht, hlinked q hst, hr⟩
  · intro t q hst hr ht
    rcases hready q hst with hst' | h0
    · exact h.all t q hst' ((hid q hst').symm.trans hr) ht
    · exact absurd (hr.symm.trans h0) ht
  · intro t q hq
    obtain ⟨hst, hr⟩ := h.attaching t q (hattach t q hq)
    exact ⟨hlinked q hst, (hid q (Or.inr hst)).trans hr⟩
  · intro t u q ht hu
    exact h.unique t u q (hattach t q ht) (hattach u q hu)
  · intro t q hq
    rw [hunnamed] at hq
    exact h.unnamed t q hq

theorem BlockInv.congr (h : BlockInv s) (hstage : s'.stage = s.stage)
    (hhanded : ∀ t q, s'.pc t = .storeSenderId q → s.pc t = .storeSenderId q)
    (hnamed : ∀ t q, s'.pc t = .storeReceiverZero q → s.pc t = .storeReceiverZero q)
    (hclear : ∀ t q, (s'.pc t).clearing = some q → (s.pc t).clearing = some q)
    (hwords : ∀ t q k, s'.pc t = .clear q k → k < clearedWords)
    (hbuild : ∀ t, (s'.pc t).building = (s.pc t).building)
    (htest : ∀ t q, s'.pc t = .testReceiver q → s.stage q = .linked) : BlockInv s' := by
  have hh : ∀ q, s'.Handed q → s.Handed q := by
    rintro q (hq | ⟨t, ht⟩)
    · rw [hstage] at hq
      exact Or.inl hq
    · exact Or.inr ⟨t, hhanded t q ht⟩
  refine ⟨fun q q' hq hq' => h.apart q q' (hh q hq) (hh q' hq'), fun q hq => h.bound q (hh q hq),
    ?_, ?_, ?_, hwords, ?_, ?_⟩
  · intro t q hq
    rw [hstage]
    exact h.handed t q (hhanded t q hq)
  · intro t q hq
    rw [hstage]
    exact h.named t q (hnamed t q hq)
  · intro t q hq
    rw [hstage]
    exact h.clearing t q (hclear t q hq)
  · intro q hq
    rw [hstage] at hq
    obtain ⟨t, ht⟩ := h.owned q hq
    exact ⟨t, by rw [hbuild]; exact ht⟩
  · intro t q hq
    rw [hstage]
    exact htest t q hq

/-- Owner and mark of the segment of `q` stay. -/
def SameSeg (m m' : Shm) (q : Nat) : Prop :=
  m'.owner (segmentIdx q) = m.owner (segmentIdx q) ∧
    (m'.abandoned (segmentIdx q) ↔ m.abandoned (segmentIdx q))

theorem SameSeg.of_sas {m m' : Shm} (h : m'.sas = m.sas) (q : Nat) : SameSeg m m' q := by
  unfold SameSeg Shm.owner Shm.abandoned
  rw [h]
  exact ⟨rfl, Iff.rfl⟩

theorem SegInv.congr (h : SegInv S s) (hsend : SenderInv S s)
    (hlinked : ∀ q, s'.stage q = .linked ↔ s.stage q = .linked)
    (hseg : ∀ q, s.stage q = .linked ∨
      (∃ t, (s'.pc t).building = some q ∨ s'.pc t = .storeSenderId q) → SameSeg s.shm s'.shm q)
    (hbuild : ∀ t q, (s'.pc t).building = some q ∨ s'.pc t = .storeSenderId q →
      (s.pc t).building = some q ∨ s.pc t = .storeSenderId q)
    (hmark : ∀ t q next, s'.mon = .markAbandon t q next ↔ s.mon = .markAbandon t q next)
    (hcrash : ∀ t q b, s'.pc t = .crashed (some q) b → SegmentFree S s t q) : SegInv S s' := by
  refine ⟨?_, ?_, ?_, ?_, ?_⟩
  · intro t q hq
    rw [(hseg q (Or.inl (hsend.mem t q hq).2.1)).1]
    exact h.mem t q hq
  · intro t q hq
    rw [(hseg q (Or.inr ⟨t, hq⟩)).1]
    exact h.built t q (hbuild t q hq)
  · intro t q next hm
    rw [hmark] at hm
    obtain ⟨hst, hown⟩ := h.marking t q next hm
    exact ⟨(hlinked q).mpr hst, by rw [(hseg q (Or.inl hst)).1]; exact hown⟩
  · intro q hst
    rw [hlinked] at hst
    obtain ⟨hown, hkeep⟩ := hseg q (Or.inl hst)
    rw [hown, hkeep]
    simp only [hmark]
    exact h.linked q hst
  · intro t q b hc
    have hfree := hcrash t q b hc
    refine ⟨?_, hfree.senders, fun q' next hm => hfree.marking q' next ((hmark _ _ _).mp hm)⟩
    rw [(hseg q (Or.inr ⟨t, Or.inl (by rw [hc]; rfl)⟩)).2]
    exact hfree.unmarked

theorem MonInv.congr (h : MonInv s) (hmon : s'.mon = s.mon)
    (hcrash : ∀ t, s.mon.client = some t → s'.pc t = s.pc t)
    (hrange : ∀ t, s'.pc t ≠ .unregistered → 1 ≤ t ∧ t ≤ maxThread)
    (hheads : ∀ t, s'.pc t = .unregistered ∨ s.mon = .release t →
      (s'.shm.tls t).senderQueue = 0 ∧ (s'.shm.tls t).receiverQueue = 0)
    (hsender : ∀ t q next, s.mon = .storeSenderId t q next →
      s'.shm.senderNext q = s.shm.senderNext q)
    (hreceiver : ∀ t q next, s.mon = .storeReceiverId t q next →
      s'.shm.receiverNext q = s.shm.receiverNext q) : MonInv s' := by
  refine ⟨?_, hrange, ?_, ?_, ?_, ?_, ?_⟩
  · intro t ht
    rw [hmon] at ht
    rw [hcrash t ht]
    exact h.client t ht
  · intro t ht
    rw [hmon] at ht
    exact hheads t ht
  · intro t q next hm
    rw [hmon] at hm
    rw [hsender t q next hm]
    exact h.senderNext t q next hm
  · intro t q next hm
    rw [hmon] at hm
    rw [hreceiver t q next hm]
    exact h.receiverNext t q next hm
  · intro t i q b hm hc
    rw [hmon] at hm
    rw [hcrash t (by rw [hm]; rfl)] at hc
    exact h.segments t i q b hm hc
  · intro t q b hm
    rw [hmon] at hm
    have hcl : s.mon.client = some t := by rcases hm with hm | hm <;> rw [hm] <;> rfl
    rw [hcrash t hcl]
    exact h.late t q b hm

end Congr

/-! ## §3 — moves that touch no list -/

section Steps

variable {S R : Nat → List Nat} {s : EndSys} {t : Nat}

/-- What a memory leaves alone in a move of client `t` that touches no list: the ids of the queues,
the links of those on a list or about to be, the heads, the segments of the blocks. -/
structure KeepsLists (R : Nat → List Nat) (s : EndSys) (t : Nat) (m : Shm) : Prop where
  ids : ∀ q, s.stage q ≠ .raw →
    m.senderId q = s.shm.senderId q ∧ m.receiverId q = s.shm.receiverId q
  senders : ∀ q, s.stage q = .linked → m.senderNext q = s.shm.senderNext q
  receivers : ∀ u, ∀ q ∈ R u, m.receiverNext q = s.shm.receiverNext q
  linkingSender : ∀ u q, u ≠ t → s.pc u = .storeSenderQueue q →
    m.senderNext q = s.shm.senderNext q
  linkingReceiver : ∀ u q, u ≠ t → s.pc u = .storeReceiverQueue q →
    m.receiverNext q = s.shm.receiverNext q
  heads : ∀ u, (m.tls u).senderQueue = (s.shm.tls u).senderQueue ∧
    (m.tls u).receiverQueue = (s.shm.tls u).receiverQueue
  segs : ∀ q, s.Handed q → SameSeg s.shm m q

theorem KeepsLists.roots {m : Shm} (hk : KeepsLists R s t m) (s' : EndSys) (hm : s'.shm = m)
    (hmon : s'.mon = s.mon) (u : Nat) :
    s'.senderRoot u = s.senderRoot u ∧ s'.receiverRoot u = s.receiverRoot u := by
  unfold EndSys.senderRoot EndSys.receiverRoot
  rw [hm, hmon, (hk.heads u).1, (hk.heads u).2]
  exact ⟨rfl, rfl⟩

/-- A queue the monitor is at is linked. -/
theorem EndInv.monitored (h : EndInv S R s) {q next : Nat} :
    (s.mon = .storeSenderId t q next → q ∈ S t ∧ s.stage q = .linked) ∧
      (s.mon = .storeReceiverId t q next → q ∈ R t) := by
  constructor
  · intro hm
    have hc := h.sender.chain t
    rw [EndSys.senderRoot_of_client (by rw [hm]; rfl), hm] at hc
    have hq : q ∈ S t := List.mem_of_mem_head? hc.head.symm
    exact ⟨hq, (h.sender.mem t q hq).2.1⟩
  · intro hm
    have hc := h.receiver.chain t
    rw [EndSys.receiverRoot_of_client (by rw [hm]; rfl), hm] at hc
    exact List.mem_of_mem_head? hc.head.symm

/-- The program counters a quiet move may go to. -/
structure PcKeeps (S : Nat → List Nat) (s : EndSys) (t : Nat) (m : Shm) (pc : EndPc) : Prop where
  building : pc.building = (s.pc t).building
  unnamed : pc.unnamed = (s.pc t).unnamed
  attaching : ∀ q, pc.attaching = some q → (s.pc t).attaching = some q
  clearing : ∀ q, pc.clearing = some q → (s.pc t).clearing = some q
  fresh : ∀ q, pc ≠ .storeSenderId q ∧ pc ≠ .storeReceiverZero q
  words : ∀ q k, pc = .clear q k → k < clearedWords
  testing : ∀ q, pc = .testReceiver q → s.stage q = .linked
  senderNext : ∀ q, pc = .storeSenderQueue q → m.senderNext q = (m.tls t).senderQueue
  receiverNext : ∀ q, pc = .storeReceiverQueue q → m.receiverNext q = (m.tls t).receiverQueue
  crashed : ∀ q b, pc = .crashed (some q) b → SegmentFree S s t q
  registered : pc ≠ .unregistered ∧ 1 ≤ t ∧ t ≤ maxThread
  outside : s.mon.client ≠ some t

theorem EndInv.quiet (h : EndInv S R s) {m : Shm} {pc : EndPc} (hk : KeepsLists R s t m)
    (hpc : PcKeeps S s t m pc) : EndInv S R { s.setPc t pc with shm := m } := by
  have hbuilding := EndSys.setPc_view EndPc.building hpc.building
  have hroots := hk.roots { s.setPc t pc with shm := m } rfl rfl
  refine ⟨?_, ?_, ?_, ?_, ?_⟩
  · refine h.sender.congr (fun _ hq => hq) (fun _ hq => hq) (fun q hq => (hk.ids q hq).1)
      hk.senders (fun u => (hroots u).1) ?_ ?_ ?_
    · intro u q _ hq
      exact (hbuilding u).trans hq
    · intro u q hq
      have hq' := (hbuilding u).symm.trans hq
      exact ⟨hq', (h.sender.built u q hq').1⟩
    · intro u q
      show (s.setPc t pc).pc u = _ → _
      rw [EndSys.setPc_pc]
      split
      · rename_i hut
        rw [hut]
        exact hpc.senderNext q
      · rename_i hut
        intro hq
        show m.senderNext q = (m.tls u).senderQueue
        rw [hk.linkingSender u q hut hq, (hk.heads u).1]
        exact h.sender.next u q hq
  · refine h.receiver.congr (fun _ => Or.inl)
      (fun q (hq : s.stage q = .cleared) =>
        (hk.ids q (by rw [hq]; nofun)).2.trans (h.receiver.fresh q hq)) (fun _ hq => hq)
      (fun q hq => (hk.ids q ?_).2) hk.receivers (fun u => (hroots u).2) ?_
      (EndSys.setPc_view EndPc.unnamed hpc.unnamed) ?_
    · rcases hq with hq | hq <;> rw [hq] <;> nofun
    · intro u q
      show ((s.setPc t pc).pc u).attaching = _ → _
      rw [EndSys.setPc_pc]
      split
      · rename_i hut
        rw [hut]
        exact hpc.attaching q
      · exact id
    · intro u q
      show (s.setPc t pc).pc u = _ → _
      rw [EndSys.setPc_pc]
      split
      · rename_i hut
        rw [hut]
        exact hpc.receiverNext q
      · rename_i hut
        intro hq
        show m.receiverNext q = (m.tls u).receiverQueue
        rw [hk.linkingReceiver u q hut hq, (hk.heads u).2]
        exact h.receiver.next u q hq
  · refine h.block.congr rfl ?_ ?_ ?_ ?_ (hbuilding) ?_
    all_goals
      intro u
      simp only [EndSys.setPc_pc]
      split
    · intro q hq
      exact absurd hq (hpc.fresh q).1
    · intro q hq
      exact hq
    · intro q hq
      exact absurd hq (hpc.fresh q).2
    · intro q hq
      exact hq
    · rename_i hut
      rw [hut]
      exact hpc.clearing
    · intro q hq
      exact hq
    · exact hpc.words
    · exact h.block.words u
    · exact hpc.testing
    · exact h.block.testing u
  · have hback : ∀ u q, ((s.setPc t pc).pc u).building = some q ∨
        (s.setPc t pc).pc u = .storeSenderId q → (s.pc u).building = some q ∨
          s.pc u = .storeSenderId q := by
      intro u q hq
      rcases hq with hq | hq
      · exact Or.inl ((hbuilding u).symm.trans hq)
      · exact Or.inr (EndSys.setPc_eq hq (hpc.fresh q).1).2
    refine h.seg.congr h.sender (fun _ => Iff.rfl) (fun q hq => hk.segs q ?_) hback
      (fun _ _ _ => Iff.rfl) ?_
    · rcases hq with hq | ⟨u, hq⟩
      · exact Or.inl (linked_ne_raw hq)
      · rcases hback u q hq with hq | hq
        · exact Or.inl (h.sender.built_ne_raw hq)
        · exact Or.inr ⟨u, hq⟩
    · intro u q b
      show (s.setPc t pc).pc u = _ → _
      rw [EndSys.setPc_pc]
      split
      · rename_i hut
        rw [hut]
        exact hpc.crashed q b
      · exact h.seg.unlinked u q b
  · have hne : ∀ u, s.mon.client = some u → u ≠ t := by
      rintro u hu rfl
      exact hpc.outside hu
    refine h.mon.congr rfl ?_ ?_ ?_ ?_ ?_
    · intro u hu
      show (s.setPc t pc).pc u = _
      rw [EndSys.setPc_pc, if_neg (hne u hu)]
    · intro u
      show (s.setPc t pc).pc u ≠ _ → _
      rw [EndSys.setPc_pc]
      split
      · rename_i hut
        intro _
        rw [hut]
        exact hpc.registered.2
      · exact h.mon.range u
    · intro u
      show (s.setPc t pc).pc u = _ ∨ _ → (m.tls u).senderQueue = 0 ∧ (m.tls u).receiverQueue = 0
      rw [EndSys.setPc_pc, (hk.heads u).1, (hk.heads u).2]
      split
      · rename_i hut
        rintro (hp | hm)
        · exact absurd hp hpc.registered.1
        · exact h.mon.heads u (Or.inr hm)
      · exact h.mon.heads u
    · intro u q next hm
      exact hk.senders q (h.monitored.1 hm).2
    · intro u q next hm
      exact hk.receivers u q (h.monitored.2 hm)

/-- A client that has not crashed is not under recovery. -/
theorem EndInv.outside (h : EndInv S R s) (hpc : ∀ a b, s.pc t ≠ .crashed a b) :
    s.mon.client ≠ some t := by
  intro ht
  obtain ⟨a, b, hc⟩ := h.mon.client t ht
  exact hpc a b hc

/-- The memory stays. -/
theorem KeepsLists.refl : KeepsLists R s t s.shm :=
  ⟨fun _ _ => ⟨rfl, rfl⟩, fun _ _ => rfl, fun _ _ _ => rfl, fun _ _ _ _ => rfl, fun _ _ _ _ => rfl,
    fun _ => ⟨rfl, rfl⟩, fun q _ => SameSeg.of_sas rfl q⟩

/-- A store to a block that is being built, beside its ids. -/
theorem EndInv.keepsStore (h : EndInv S R s) {q i v : Nat} (hb : (s.pc t).building = some q)
    (hi : i < sizeofMessageQueue) (hne : i ≠ 16) : KeepsLists R s t (s.shm.store (q + i) v) := by
  have hq : s.Handed q := Or.inl (h.sender.built_ne_raw hb)
  have hends : ∀ q', s.stage q' ≠ .raw → q' ≠ q → SameEnds s.shm (s.shm.store (q + i) v) q' :=
    fun q' hq' hqq => SameEnds.store (h.block.apart q q' hq (Or.inl hq') hqq.symm) hi
  have hlinked : ∀ q', s.stage q' = .linked → SameEnds s.shm (s.shm.store (q + i) v) q' := by
    intro q' hq'
    refine hends q' (linked_ne_raw hq') ?_
    rintro rfl
    exact h.sender.built_ne_linked hb hq'
  refine ⟨?_, fun q' hq' => (hlinked q' hq').senderNext,
    fun u q' hq' => (hlinked q' (h.receiver.mem u q' hq').2.1).receiverNext, ?_, ?_,
    fun _ => ⟨rfl, rfl⟩, fun q' _ => SameSeg.of_sas rfl q'⟩
  · intro q' hq'
    by_cases hqq : q' = q
    · subst hqq
      have hids : (s.shm.store (q' + i) v).word (q' + 16) = s.shm.word (q' + 16) :=
        Function.update_of_ne (by omega) ..
      unfold Shm.senderId Shm.receiverId
      rw [hids]
      exact ⟨rfl, rfl⟩
    · exact ⟨(hends q' hq' hqq).senderId, (hends q' hq' hqq).receiverId⟩
  · intro u q' hut hp
    have hb' : (s.pc u).building = some q' := by rw [hp]; rfl
    refine (hends q' (h.sender.built_ne_raw hb') ?_).senderNext
    -- two clients do not build one block: it names its builder
    rintro rfl
    exact hut ((h.sender.built u q' hb').2.symm.trans (h.sender.built t q' hb).2)
  · intro u q' _ hp
    exact (hlinked q' (h.receiver.attaching u q' (by rw [hp]; rfl)).1).receiverNext

theorem clearedWord_eq {k : Nat} (hk : k < clearedWords) (q : Nat) :
    ∃ i < sizeofMessageQueue, i ≠ 16 ∧ clearedWord q k = q + i := by
  unfold clearedWords messageBufferSize at hk
  unfold clearedWord sizeofMessageQueue
  split
  · exact ⟨8 * k, by omega, by omega, rfl⟩
  · exact ⟨8 + 8 * k, by omega, by omega, by omega⟩

/-- `block_to_msg_queue` zeroes a word. -/
theorem EndInv.clear (h : EndInv S R s) {q k : Nat} (hpc : s.pc t = .clear q k) :
    EndInv S R (s.access t) := by
  have hb : (s.pc t).building = some q := by rw [hpc]; rfl
  have hout : s.mon.client ≠ some t := h.outside (by rw [hpc]; nofun)
  have hreg := h.mon.range t (by rw [hpc]; nofun)
  obtain ⟨i, hi, hne, hw⟩ := clearedWord_eq (h.block.words t q k hpc) q
  simp only [EndSys.access, hpc]
  rw [hw]
  refine h.quiet (h.keepsStore hb hi hne) ?_
  split
  · rename_i hk
    refine ⟨?_, ?_, nofun, ?_, fun _ => ⟨nofun, nofun⟩, ?_, nofun, nofun, nofun, nofun, ⟨nofun, hreg⟩, hout⟩
    · rw [hpc]; rfl
    · rw [hpc]; rfl
    · rw [hpc]; exact fun _ hq => hq
    · rintro _ _ ⟨⟩
      exact hk
  · refine ⟨?_, ?_, nofun, ?_, fun _ => ⟨nofun, nofun⟩, nofun, nofun, nofun, nofun, nofun, ⟨nofun, hreg⟩, hout⟩
    · rw [hpc]; rfl
    · rw [hpc]; rfl
    · rw [hpc]; exact fun _ hq => hq

/-- `q->sender_next = tls->sender_queue`. -/
theorem EndInv.storeSenderNext (h : EndInv S R s) {q : Nat} (hpc : s.pc t = .storeSenderNext q) :
    EndInv S R (s.access t) := by
  have hb : (s.pc t).building = some q := by rw [hpc]; rfl
  have hout : s.mon.client ≠ some t := h.outside (by rw [hpc]; nofun)
  have hreg := h.mon.range t (by rw [hpc]; nofun)
  simp only [EndSys.access, hpc]
  refine h.quiet (h.keepsStore hb (by decide) (by decide)) ?_
  refine ⟨?_, ?_, nofun, ?_, fun _ => ⟨nofun, nofun⟩, nofun, nofun, ?_, nofun, nofun, ⟨nofun, hreg⟩, hout⟩
  · rw [hpc]; rfl
  · rw [hpc]; rfl
  · rw [hpc]; exact fun _ hq => hq
  · rintro _ ⟨⟩
    exact Function.update_self ..

/-- The call of `cxl_unwrap`, and its way past the attachment. -/
theorem EndInv.quietPc (h : EndInv S R s) {pc : EndPc} (hpc : PcKeeps S s t s.shm pc) :
    EndInv S R (s.setPc t pc) :=
  h.quiet KeepsLists.refl hpc

theorem EndInv.unwrap (h : EndInv S R s) {q : Nat} (hpc : s.pc t = .idle)
    (hq : s.stage q = .linked) : EndInv S R (s.setPc t (.testReceiver q)) := by
  refine h.quietPc ⟨?_, ?_, nofun, nofun, fun _ => ⟨nofun, nofun⟩, nofun, ?_, nofun, nofun, nofun,
    ⟨nofun, h.mon.range t (by rw [hpc]; nofun)⟩, h.outside (by rw [hpc]; nofun)⟩
  · rw [hpc]; rfl
  · rw [hpc]; rfl
  · rintro _ ⟨⟩
    exact hq

/-- `thread_init` finds the lists empty and leaves them so. -/
theorem EndInv.register (h : EndInv S R s) (ht : 1 ≤ t ∧ t ≤ maxThread)
    (hpc : s.pc t = .unregistered) : EndInv S R
      { s.setPc t .idle with shm := s.shm.setTls t (s.shm.tls t).resetQueues } := by
  obtain ⟨hs, hr⟩ := h.mon.heads t (Or.inl hpc)
  have hheads : ∀ u, ((s.shm.setTls t (s.shm.tls t).resetQueues).tls u).senderQueue =
        (s.shm.tls u).senderQueue ∧
      ((s.shm.setTls t (s.shm.tls t).resetQueues).tls u).receiverQueue =
        (s.shm.tls u).receiverQueue := by
    intro u
    simp only [Shm.setTls, Function.update_apply]
    split
    · rename_i hut
      rw [hut, hs, hr]
      exact ⟨rfl, rfl⟩
    · exact ⟨rfl, rfl⟩
  refine h.quiet ⟨fun _ _ => ⟨rfl, rfl⟩, fun _ _ => rfl, fun _ _ _ => rfl, fun _ _ _ _ => rfl,
    fun _ _ _ _ => rfl, hheads, fun q _ => SameSeg.of_sas rfl q⟩ ?_
  refine ⟨?_, ?_, nofun, nofun, fun _ => ⟨nofun, nofun⟩, nofun, nofun, nofun, nofun, nofun, ⟨nofun, ht⟩,
    h.outside (by rw [hpc]; nofun)⟩
  · rw [hpc]; rfl
  · rw [hpc]; rfl

/-- A crash. The block it leaves unlinked must not lie in a segment that another queue of the client
keeps. -/
theorem EndInv.crash (h : EndInv S R s) (hpc : s.pc t ≠ .unregistered)
    (hlive : ∀ a b, s.pc t ≠ .crashed a b)
    (hord : Orderly s (.crash t)) :
    EndInv S R (s.setPc t (.crashed (s.pc t).building (s.pc t).unnamed)) := by
  have hout := h.outside hlive
  refine h.quietPc ⟨rfl, rfl, ?_, nofun, fun _ => ⟨nofun, nofun⟩, nofun, nofun, nofun, nofun, ?_,
    ⟨nofun, h.mon.range t hpc⟩, hout⟩
  · exact fun _ => EndPc.attaching_of_unnamed
  · rintro q b hq
    have hq : (s.pc t).building = some q := by injection hq
    obtain ⟨hun, hsole⟩ := hord q hq
    refine ⟨hun, ?_, ?_⟩
    · intro q' hq'
      obtain ⟨-, hst, hid⟩ := h.sender.mem t q' hq'
      exact hsole q' hst hid
    · intro q' next hm
      exact absurd (by rw [hm]; rfl) hout

end Steps

end CxlShm
