import CxlShm.State
import CxlShm.Lib.Transition
import Mathlib.Data.Set.Card

/-! # Registration — `thread_init` by any number of clients

A client scans the thread-local vector from its first slot and claims the first one whose
`packed_machine_process_id` it can exchange from 0 to its own id. A client may crash between any two
accesses; the monitor, which inspects the first MAX_THREAD slots, then stores 0 to the id of the slot
of a crashed client.

The scan has no upper bound, and 0 means both "free" and the id of machine 0 with a thread id that
truncates to 0. `WithinVector` says of a move that it takes neither of these ways out.
-/

namespace CxlShm

open Transition

/-! ## §1 — slots of the thread-local vector -/

/-- The offset of the slot of thread id `id`, counted from 1. -/
def tlsOffset (id : Nat) : Nat := threadLocalVecStart + (id - 1) * sizeofTls

/-- `(offset - THREAD_LOCAL_VEC_START) / sizeof(cxl_thread_local_state_t) + 1`. -/
def threadIdOf (offset : Nat) : Nat := (offset - threadLocalVecStart) / sizeofTls + 1

theorem threadIdOf_tlsOffset {id : Nat} (h : 0 < id) : threadIdOf (tlsOffset id) = id := by
  unfold threadIdOf tlsOffset
  rw [Nat.add_sub_cancel_left, Nat.mul_div_cancel _ (by decide), Nat.sub_add_cancel h]

def packMachineProcessId (machineId processId : Nat) : Nat := (machineId * 2 ^ 16 + processId) % 2 ^ 64

/-- The byte offset of `era(x, y)`. -/
def eraOffset (x y : Nat) : Int := eraArrayStart + 4 * Shm.eraIdx x y

/-! ## §2 — the machine -/

/-- What `get_mac` and `gettid` return to each client. -/
structure Clients where
  machineId : Nat → Nat
  gettid : Nat → Nat

/-- `process_id` keeps 16 bits of the thread id. -/
def Clients.tlsId (K : Clients) (c : Nat) : Nat :=
  packMachineProcessId (K.machineId c) (K.gettid c % 2 ^ 16)

/-- Where a client stands. The argument is the number of the slot its `offset` points to, counted
from 1: adding `sizeof(cxl_thread_local_state_t)` to the offset is the next number. -/
inductive RegPc
  | outside
  | scan (slot : Nat)
  | resetQueues (slot : Nat)
  | bumpEra (slot : Nat)
  | registered (slot : Nat)
  | crashed (slot : Nat)
  | gone
  deriving DecidableEq, Repr

/-- The slot the client has claimed. -/
def RegPc.claimed : RegPc → Option Nat
  | .resetQueues slot => some slot
  | .bumpEra slot => some slot
  | .registered slot => some slot
  | .crashed slot => some slot
  | _ => none

/-- The slot the client has claimed or tests next. -/
def RegPc.position : RegPc → Option Nat
  | .scan slot => some slot
  | pc => pc.claimed

/-- `monitor` is the slot under recovery and the id the monitor has loaded from it. -/
structure RegSys where
  shm : Shm
  pc : Nat → RegPc
  monitor : Option (Nat × Nat)

/-- The id word of a slot. -/
def RegSys.id (s : RegSys) (slot : Nat) : Nat := (s.shm.tls slot).packedMachineProcessId

inductive RegMove
  | init (c : Nat)
  | scan (c : Nat) (spurious : Bool)
  /-- the stores of `thread_init` after the claim -/
  | access (c : Nat)
  | crash (c : Nat)
  /-- the monitor finds the slot held by a crashed client -/
  | inspect (slot : Nat)
  /-- the monitor has replayed and collected, and exchanges the id by 0 -/
  | release (spurious : Bool)
  | env (m : Shm)

/-- `check_tls` is a stub in the source; here it answers whether the holders of the slot have
crashed. -/
def RegMove.enabled (s : RegSys) : RegMove → Prop
  | .init c => s.pc c = .outside
  | .scan c _ => ∃ slot, s.pc c = .scan slot
  | .access c => ∃ slot, s.pc c = .resetQueues slot ∨ s.pc c = .bumpEra slot
  | .crash c => s.pc c ≠ .outside ∧ s.pc c ≠ .gone
  | .inspect slot => 0 < slot ∧ slot ≤ maxThread ∧ s.monitor = none ∧ s.id slot ≠ 0 ∧
      ∀ c, (s.pc c).claimed = some slot → s.pc c = .crashed slot
  | .release _ => s.monitor ≠ none
  | .env m => ∀ i, (m.tls i).packedMachineProcessId = (s.shm.tls i).packedMachineProcessId

def RegSys.setPc (s : RegSys) (c : Nat) (pc : RegPc) : RegSys :=
  { s with pc := Function.update s.pc c pc }

def RegSys.setId (s : RegSys) (slot id : Nat) : RegSys :=
  { s with shm := s.shm.setTls slot ((s.shm.tls slot).setId id) }

def RegPc.crash : RegPc → RegPc
  | .resetQueues slot => .crashed slot
  | .bumpEra slot => .crashed slot
  | .registered slot => .crashed slot
  | .crashed slot => .crashed slot
  | _ => .gone

def RegSys.next (K : Clients) (s : RegSys) : RegMove → RegSys
  | .init c => s.setPc c (.scan 1)
  | .scan c spurious =>
    match s.pc c with
    | .scan slot =>
      if s.id slot = 0 ∧ spurious = false then
        (s.setId slot (K.tlsId c)).setPc c (.resetQueues slot)
      else s.setPc c (.scan (slot + 1))
    | _ => s
  | .access c =>
    match s.pc c with
    | .resetQueues slot =>
      { s.setPc c (.bumpEra slot) with shm := s.shm.setTls slot (s.shm.tls slot).resetQueues }
    | .bumpEra slot =>
      { s.setPc c (.registered slot) with
        shm := s.shm.storeEra slot slot ((s.shm.era slot slot + 1) % 2 ^ 32) }
    | _ => s
  | .crash c => s.setPc c (s.pc c).crash
  | .inspect slot => { s with monitor := some (slot, s.id slot) }
  | .release spurious =>
    match s.monitor with
    | some (slot, id) =>
      if s.id slot = id ∧ spurious = false then
        { s.setId slot 0 with
          pc := fun c => if s.pc c = .crashed slot then .gone else s.pc c
          monitor := none }
      else s
    | none => s
  | .env m => { s with shm := m }

structure RegInit (s : RegSys) : Prop where
  pc : ∀ c, s.pc c = .outside
  monitor : s.monitor = none
  free : ∀ i, (s.shm.tls i).packedMachineProcessId = 0

def RegStep (K : Clients) (s s' : RegSys) : Prop := ∃ mv : RegMove, mv.enabled s ∧ s' = s.next K mv

def RegReach (K : Clients) : RegSys → Prop := Reach RegInit (RegStep K) fun _ => True

/-- The client that enters has an id other than 0, and a scan that tests the last slot of the vector
claims it. -/
def WithinVector (K : Clients) (s : RegSys) : RegMove → Prop
  | .init c => K.tlsId c ≠ 0
  | .scan c spurious => s.pc c = .scan maxThread → s.id maxThread = 0 ∧ spurious = false
  | _ => True

def WithinStep (K : Clients) (s s' : RegSys) : Prop :=
  ∃ mv : RegMove, mv.enabled s ∧ WithinVector K s mv ∧ s' = s.next K mv

/-- The runs whose scans stay within the vector and whose clients have an id. -/
def WithinReach (K : Clients) : RegSys → Prop := Reach RegInit (WithinStep K) fun _ => True

/-! ## §3 — the invariant -/

/-- A slot of the vector. -/
def VecSlot (slot : Nat) : Prop := 1 ≤ slot ∧ slot ≤ maxThread

structure RegInv (K : Clients) (s : RegSys) : Prop where
  position : ∀ c a, (s.pc c).position = some a → VecSlot a ∧ K.tlsId c ≠ 0
  held : ∀ c a, (s.pc c).claimed = some a → s.id a = K.tlsId c
  apart : ∀ c d a, (s.pc c).claimed = some a → (s.pc d).claimed = some a → c = d
  monitor : ∀ a id, s.monitor = some (a, id) → VecSlot a ∧ s.id a = id ∧ id ≠ 0 ∧
    ∀ c, (s.pc c).claimed = some a → s.pc c = .crashed a

section Steps

variable {K : Clients} {s : RegSys}

theorem RegPc.position_of_claimed {pc : RegPc} {a : Nat} (h : pc.claimed = some a) :
    pc.position = some a := by
  cases pc with
  | scan slot => cases h
  | _ => exact h

/-- Steps that change no id, and let clients keep, give up or continue what they have. -/
theorem RegInv.quiet (h : RegInv K s) {s' : RegSys} (hid : ∀ a, s'.id a = s.id a)
    (hpos : ∀ c a, (s'.pc c).position = some a → VecSlot a ∧ K.tlsId c ≠ 0)
    (hheld : ∀ c a, (s'.pc c).claimed = some a → (s.pc c).claimed = some a)
    (hcrash : ∀ c a, s.pc c = .crashed a → (s'.pc c).claimed = some a → s'.pc c = .crashed a)
    (hmon : s'.monitor = s.monitor) : RegInv K s' := by
  refine ⟨hpos, ?_, ?_, ?_⟩
  · intro c a hc
    rw [hid]
    exact h.held c a (hheld c a hc)
  · intro c d a hc hd
    exact h.apart c d a (hheld c a hc) (hheld d a hd)
  · intro a id hm
    rw [hmon] at hm
    obtain ⟨hslot, hsame, hne, hcr⟩ := h.monitor a id hm
    refine ⟨hslot, by rw [hid]; exact hsame, hne, ?_⟩
    intro c hc
    exact hcrash c a (hcr c (hheld c a hc)) hc

theorem RegSys.setPc_pc (c d : Nat) (pc : RegPc) :
    (s.setPc c pc).pc d = if d = c then pc else s.pc d := by
  simp [RegSys.setPc, Function.update_apply]

/-- One client moves to a point where it has claimed no more than before. -/
theorem RegInv.setPc (h : RegInv K s) {c : Nat} {pc : RegPc} {m : Shm}
    (hm : ∀ i, (m.tls i).packedMachineProcessId = (s.shm.tls i).packedMachineProcessId)
    (hpos : ∀ a, pc.position = some a → VecSlot a ∧ K.tlsId c ≠ 0)
    (hheld : ∀ a, pc.claimed = some a → (s.pc c).claimed = some a)
    (hcrash : ∀ a, s.pc c = .crashed a → pc.claimed = some a → pc = .crashed a) :
    RegInv K { s.setPc c pc with shm := m } := by
  refine h.quiet (fun a => hm _) ?_ ?_ ?_ rfl
  · intro d a
    show ((s.setPc c pc).pc d).position = some a → _
    rw [RegSys.setPc_pc]
    split
    · rename_i hdc
      rw [hdc]
      exact hpos a
    · exact h.position d a
  · intro d a
    show ((s.setPc c pc).pc d).claimed = some a → _
    rw [RegSys.setPc_pc]
    split
    · rename_i hdc
      rw [hdc]
      exact hheld a
    · exact id
  · intro d a
    show _ → ((s.setPc c pc).pc d).claimed = some a → (s.setPc c pc).pc d = _
    rw [RegSys.setPc_pc]
    split
    · rename_i hdc
      rw [hdc]
      exact hcrash a
    · intro hd _
      exact hd

theorem tls_setTls_id {m : Shm} {i : Nat} {t : Tls}
    (ht : t.packedMachineProcessId = (m.tls i).packedMachineProcessId) (j : Nat) :
    ((m.setTls i t).tls j).packedMachineProcessId = (m.tls j).packedMachineProcessId := by
  unfold Shm.setTls
  by_cases hj : j = i
  · subst hj
    simpa using ht
  · simp [hj]

theorem tls_setTls_setId (m : Shm) (i id j : Nat) :
    ((m.setTls i ((m.tls i).setId id)).tls j).packedMachineProcessId =
      if j = i then id else (m.tls j).packedMachineProcessId := by
  unfold Shm.setTls Tls.setId
  by_cases hj : j = i
  · simp [hj]
  · simp [hj]

theorem RegSys.setId_id {a b id : Nat} :
    (s.setId a id).id b = if b = a then id else s.id b :=
  tls_setTls_setId s.shm a id b

/-- The compare-exchange claims a slot nobody holds: a held slot has the id of its holder, which is
not 0. -/
theorem RegInv.claim (h : RegInv K s) {c a : Nat} (hpc : s.pc c = .scan a) (hfree : s.id a = 0) :
    RegInv K ((s.setId a (K.tlsId c)).setPc c (.resetQueues a)) := by
  obtain ⟨hslot, hne⟩ := h.position c a (by rw [hpc]; rfl)
  have hnone : ∀ d b, (s.pc d).claimed = some b → b ≠ a := by
    intro d b hd hba
    obtain ⟨-, hned⟩ := h.position d b (RegPc.position_of_claimed hd)
    rw [← h.held d b hd, hba] at hned
    exact hned hfree
  have hpc' : ∀ d, ((s.setId a (K.tlsId c)).setPc c (.resetQueues a)).pc d =
      if d = c then .resetQueues a else s.pc d := fun d => RegSys.setPc_pc c d _
  have hid : ∀ b, ((s.setId a (K.tlsId c)).setPc c (.resetQueues a)).id b =
      if b = a then K.tlsId c else s.id b := fun _ => RegSys.setId_id
  have hold : ∀ b, b ≠ a → ((s.setId a (K.tlsId c)).setPc c (.resetQueues a)).id b = s.id b := by
    intro b hba
    rw [hid, if_neg hba]
  refine ⟨?_, ?_, ?_, ?_⟩
  · intro d b
    rw [hpc']
    split
    · rename_i hdc
      rintro ⟨rfl⟩
      rw [hdc]
      exact ⟨hslot, hne⟩
    · exact h.position d b
  · intro d b
    rw [hpc']
    split
    · rename_i hdc
      rintro ⟨rfl⟩
      rw [hid, if_pos rfl, hdc]
    · intro hd
      rw [hold b (hnone d b hd)]
      exact h.held d b hd
  · intro d e b
    rw [hpc', hpc']
    split
    · rename_i hdc
      rintro ⟨rfl⟩
      split
      · rename_i hec
        intro _
        rw [hdc, hec]
      · intro he
        exact absurd rfl (hnone e a he)
    · intro hd
      split
      · rintro ⟨rfl⟩
        exact absurd rfl (hnone d a hd)
      · exact h.apart d e b hd
  · intro b id hm
    obtain ⟨hb, hsame, hid0, hcr⟩ := h.monitor b id hm
    -- the slot under recovery has an id, the one just claimed had none
    have hba : b ≠ a := by
      rintro rfl
      exact hid0 (hsame.symm.trans hfree)
    refine ⟨hb, by rw [hold b hba]; exact hsame, hid0, ?_⟩
    intro d
    rw [hpc']
    split
    · rintro ⟨rfl⟩
      exact absurd rfl hba
    · exact hcr d

/-- The monitor frees the slot of a crashed client. -/
theorem RegInv.release (h : RegInv K s) {a id : Nat} (hm : s.monitor = some (a, id)) :
    RegInv K { s.setId a 0 with
      pc := fun c => if s.pc c = .crashed a then .gone else s.pc c
      monitor := none } := by
  obtain ⟨hslot, hsame, hid0, hcr⟩ := h.monitor a id hm
  have hkeep : ∀ c b, RegPc.claimed (if s.pc c = .crashed a then .gone else s.pc c) = some b →
      (s.pc c).claimed = some b ∧ b ≠ a := by
    intro c b
    split
    · intro hb
      cases hb
    · rename_i hne
      intro hb
      refine ⟨hb, ?_⟩
      rintro rfl
      exact hne (hcr c hb)
  refine ⟨?_, ?_, ?_, ?_⟩
  · intro c b
    show RegPc.position (if s.pc c = .crashed a then .gone else s.pc c) = some b → _
    split
    · intro hb
      cases hb
    · exact h.position c b
  · intro c b hc
    obtain ⟨hb, hba⟩ := hkeep c b hc
    show (s.setId a 0).id b = _
    rw [RegSys.setId_id, if_neg hba, h.held c b hb]
  · intro c d b hc hd
    exact h.apart c d b (hkeep c b hc).1 (hkeep d b hd).1
  · intro b id' hm'
    cases hm'

theorem RegInv.step (h : RegInv K s) (mv : RegMove) (hen : mv.enabled s) (hw : WithinVector K s mv) :
    RegInv K (s.next K mv) := by
  cases mv with
  | init c =>
    have hout : s.pc c = .outside := hen
    refine h.setPc (fun _ => rfl) ?_ (fun _ ha => nomatch ha) (fun a ha => ?_)
    · rintro a ⟨rfl⟩
      exact ⟨⟨by decide, by decide⟩, hw⟩
    · rw [hout] at ha
      cases ha
  | scan c spurious =>
    obtain ⟨a, hpc⟩ := hen
    obtain ⟨⟨hpos, hle⟩, hne⟩ := h.position c a (by rw [hpc]; rfl)
    simp only [RegSys.next, hpc]
    split
    · rename_i hfree
      exact h.claim hpc hfree.1
    · rename_i hfail
      refine h.setPc (fun _ => rfl) ?_ (fun _ ha => nomatch ha) (fun _ _ ha => nomatch ha)
      rintro b ⟨rfl⟩
      -- the last slot of the vector would have been claimed
      have hlast : a ≠ maxThread := by
        rintro rfl
        exact hfail (hw hpc)
      exact ⟨⟨by omega, by omega⟩, hne⟩
  | access c =>
    obtain ⟨a, hpc | hpc⟩ := hen
    · simp only [RegSys.next, hpc]
      refine h.setPc (tls_setTls_id rfl) ?_ ?_ ?_
      · rintro b ⟨rfl⟩
        exact h.position c a (by rw [hpc]; rfl)
      · rintro b ⟨rfl⟩
        rw [hpc]
        rfl
      · rw [hpc]
        intro b hb
        cases hb
    · simp only [RegSys.next, hpc]
      refine h.setPc (fun _ => rfl) ?_ ?_ ?_
      · rintro b ⟨rfl⟩
        exact h.position c a (by rw [hpc]; rfl)
      · rintro b ⟨rfl⟩
        rw [hpc]
        rfl
      · rw [hpc]
        intro b hb
        cases hb
  | crash c =>
    have hheld : ∀ a, (s.pc c).crash.claimed = some a → (s.pc c).claimed = some a := by
      intro a
      cases s.pc c <;> exact id
    have hpos : ∀ a, (s.pc c).crash.position = some a → (s.pc c).position = some a := by
      intro a
      cases s.pc c with
      | scan slot => exact fun hb => nomatch hb
      | _ => exact id
    refine h.setPc (fun _ => rfl) (fun a ha => h.position c a (hpos a ha)) hheld ?_
    intro a ha _
    rw [ha]
    rfl
  | inspect slot =>
    obtain ⟨hpos, hle, -, hne, hcr⟩ := hen
    refine ⟨h.position, h.held, h.apart, ?_⟩
    rintro b id ⟨rfl, rfl⟩
    exact ⟨⟨hpos, hle⟩, rfl, hne, hcr⟩
  | release spurious =>
    cases hm : s.monitor with
    | none => simpa only [RegSys.next, hm] using h
    | some p =>
      obtain ⟨a, id⟩ := p
      simp only [RegSys.next, hm]
      split
      · exact h.release hm
      · exact h
  | env m =>
    have hid : ∀ i, (m.tls i).packedMachineProcessId = (s.shm.tls i).packedMachineProcessId := hen
    exact h.quiet (fun a => hid _) h.position (fun _ _ hc => hc) (fun _ _ hc _ => hc) rfl

theorem WithinReach.inv (h : WithinReach K s) : RegInv K s := by
  refine Reach.invariant ?_ ?_ h
  · intro s hi _
    refine ⟨?_, ?_, ?_, ?_⟩
    · intro c a hc
      rw [hi.pc] at hc
      cases hc
    · intro c a hc
      rw [hi.pc] at hc
      cases hc
    · intro c d a hc
      rw [hi.pc] at hc
      cases hc
    · intro a id hm
      rw [hi.monitor] at hm
      cases hm
  · rintro s _ hinv - ⟨mv, hen, hw, rfl⟩ -
    exact hinv.step mv hen hw

end Steps

/-! ## §4 — ids and era cells of the registered clients -/

/-- Client `c` is registered on slot `a`. A crashed client counts until its slot is released. -/
def RegSys.Registered (s : RegSys) (c a : Nat) : Prop := (s.pc c).claimed = some a

/-- The `thread_id` that `thread_init` computes from the offset of its slot. -/
def threadId (slot : Nat) : Nat := threadIdOf (tlsOffset slot)

/-- No slot is shared, every thread id is in 1..MAX_THREAD, and the era cells of two registered
clients lie inside the era array and belong to that pair alone. -/
structure ExclusiveIds (s : RegSys) : Prop where
  apart : ∀ c d a b, c ≠ d → s.Registered c a → s.Registered d b →
    tlsOffset a ≠ tlsOffset b ∧ threadId a ≠ threadId b
  range : ∀ c a, s.Registered c a → 1 ≤ threadId a ∧ threadId a ≤ maxThread
  inside : ∀ c a d b, s.Registered c a → s.Registered d b →
    eraArrayStart ≤ eraOffset (threadId a) (threadId b) ∧
      eraOffset (threadId a) (threadId b) + 4 ≤ threadLocalVecStart
  own : ∀ c a d b c' a' d' b', s.Registered c a → s.Registered d b → s.Registered c' a' →
    s.Registered d' b' →
    eraOffset (threadId a) (threadId b) = eraOffset (threadId a') (threadId b') → c = c' ∧ d = d'

/-- The era matrix fills the array up to the thread-local vector. -/
theorem eraOffset_inside {x y : Nat} (hx : 1 ≤ x ∧ x ≤ maxThread) (hy : 1 ≤ y ∧ y ≤ maxThread) :
    eraArrayStart ≤ eraOffset x y ∧ eraOffset x y + 4 ≤ threadLocalVecStart := by
  simp only [eraOffset, Shm.eraIdx, maxThread, eraArrayStart, threadLocalVecStart] at *
  omega

theorem eraOffset_inj {x y x' y' : Nat} (hy : 1 ≤ y ∧ y ≤ maxThread) (hy' : 1 ≤ y' ∧ y' ≤ maxThread)
    (h : eraOffset x y = eraOffset x' y') : x = x' ∧ y = y' := by
  simp only [eraOffset, Shm.eraIdx, maxThread] at *
  omega

theorem RegInv.exclusiveIds {K : Clients} {s : RegSys} (h : RegInv K s) : ExclusiveIds s := by
  have hslot : ∀ c a, s.Registered c a → VecSlot a := fun c a hc =>
    (h.position c a (RegPc.position_of_claimed hc)).1
  have hid : ∀ c a, s.Registered c a → threadId a = a := fun c a hc =>
    threadIdOf_tlsOffset (hslot c a hc).1
  have hrange : ∀ c a, s.Registered c a → 1 ≤ threadId a ∧ threadId a ≤ maxThread := by
    intro c a hc
    rw [hid c a hc]
    exact hslot c a hc
  have hsame : ∀ c a c' a', s.Registered c a → s.Registered c' a' → threadId a = threadId a' →
      c = c' := by
    intro c a c' a' hc hc' heq
    rw [hid c a hc, hid c' a' hc'] at heq
    subst heq
    exact h.apart c c' a hc hc'
  refine ⟨?_, hrange, ?_, ?_⟩
  · intro c d a b hcd hc hd
    have hne : threadId a ≠ threadId b := fun heq => hcd (hsame c a d b hc hd heq)
    refine ⟨?_, hne⟩
    intro heq
    exact hne (congrArg threadIdOf heq)
  · intro c a d b hc hd
    exact eraOffset_inside (hrange c a hc) (hrange d b hd)
  · intro c a d b c' a' d' b' hc hd hc' hd' heq
    obtain ⟨hx, hy⟩ := eraOffset_inj (hrange d b hd) (hrange d' b' hd') heq
    exact ⟨hsame c a c' a' hc hc' hx, hsame d b d' b' hd hd' hy⟩

/-! ## §5 — how far a scan can get -/

/-- The clients that scan or have claimed a slot beyond slot `k`. -/
def RegSys.beyond (s : RegSys) (k : Nat) : Set Nat := {c | ∃ a, (s.pc c).position = some a ∧ k < a}

/-- At most MAX_THREAD clients are inside `thread_init` or registered. -/
def RegRoom (s : RegSys) : Prop := (s.beyond 0).encard ≤ maxThread

/-- Every client has an id, and no compare-exchange of a scan fails spuriously. -/
def StrongStep (K : Clients) (s s' : RegSys) : Prop :=
  ∃ mv : RegMove, mv.enabled s ∧ (∀ c, mv = .init c → K.tlsId c ≠ 0) ∧
    (∀ c, mv ≠ .scan c true) ∧ s' = s.next K mv

def RoomReach (K : Clients) : RegSys → Prop := Reach RegInit (StrongStep K) RegRoom

/-- Whoever has passed `k` slots leaves `k` clients behind. -/
structure Crowd (s : RegSys) : Prop where
  occupied : ∀ a, s.id a ≠ 0 → ∃ c, (s.pc c).claimed = some a
  behind : ∀ k, 0 < k → k < maxThread → (s.beyond k).encard + k ≤ maxThread
  last : ∀ c a, (s.pc c).position = some a → a ≤ maxThread

theorem RegSys.next_scan_free {K : Clients} {s : RegSys} {c a : Nat} (hpc : s.pc c = .scan a)
    (hfree : s.id a = 0) :
    s.next K (.scan c false) = (s.setId a (K.tlsId c)).setPc c (.resetQueues a) := by
  simp [RegSys.next, hpc, hfree]

theorem RegSys.next_scan_taken {K : Clients} {s : RegSys} {c a : Nat} (hpc : s.pc c = .scan a)
    (hbusy : s.id a ≠ 0) : s.next K (.scan c false) = s.setPc c (.scan (a + 1)) := by
  simp [RegSys.next, hpc, hbusy]

section Room

variable {K : Clients} {s s' : RegSys}

/-- Steps that free no held slot and move no client forward. -/
theorem Crowd.quiet (h : Crowd s)
    (hocc : ∀ a, s'.id a ≠ 0 → s.id a ≠ 0 ∧
      ∀ c, (s.pc c).claimed = some a → (s'.pc c).claimed = some a)
    (hpos : ∀ c a, (s'.pc c).position = some a → a = 1 ∨ (s.pc c).position = some a) : Crowd s' := by
  refine ⟨?_, ?_, ?_⟩
  · intro a ha
    obtain ⟨ha', hkeep⟩ := hocc a ha
    obtain ⟨c, hc⟩ := h.occupied a ha'
    exact ⟨c, hkeep c hc⟩
  · intro k hk hkm
    have hsub : s'.beyond k ⊆ s.beyond k := by
      rintro c ⟨a, hc, hka⟩
      rcases hpos c a hc with rfl | hc'
      · omega
      · exact ⟨a, hc', hka⟩
    exact le_trans (add_le_add (Set.encard_le_encard hsub) (le_refl _)) (h.behind k hk hkm)
  · intro c a hc
    rcases hpos c a hc with rfl | hc'
    · decide
    · exact h.last c a hc'

/-- **One failed test.** The client and the holder of the slot are both at slot `a`, so they are two
of the clients beyond slot `a - 1` that are not beyond slot `a`. -/
theorem Crowd.pass (h : Crowd s) (hroom : RegRoom s) {c a : Nat} (hpc : s.pc c = .scan a)
    (ha : 0 < a) (hheld : s.id a ≠ 0) : Crowd (s.setPc c (.scan (a + 1))) ∧ a < maxThread := by
  obtain ⟨d, hd⟩ := h.occupied a hheld
  have hdpos : (s.pc d).position = some a := RegPc.position_of_claimed hd
  have hcpos : (s.pc c).position = some a := by
    rw [hpc]
    rfl
  have hcd : c ≠ d := by
    rintro rfl
    rw [hpc] at hd
    cases hd
  have hnot : ∀ e, (s.pc e).position = some a → e ∉ s.beyond a := by
    rintro e he ⟨b, hb, hab⟩
    rw [he] at hb
    cases hb
    exact Nat.lt_irrefl _ hab
  have hbefore : (s.beyond (a - 1)).encard + (a - 1 : ℕ) ≤ maxThread := by
    rcases Nat.eq_zero_or_pos (a - 1) with h0 | hpos
    · rw [h0]
      simpa [RegRoom] using hroom
    · exact h.behind (a - 1) hpos (by have := h.last c a hcpos; omega)
  have htwo : (s.beyond a).encard + 2 ≤ (s.beyond (a - 1)).encard := by
    have hsub : insert c (insert d (s.beyond a)) ⊆ s.beyond (a - 1) := by
      intro e he
      rcases he with rfl | rfl | ⟨b, hb, hab⟩
      · exact ⟨a, hcpos, by omega⟩
      · exact ⟨a, hdpos, by omega⟩
      · exact ⟨b, hb, by omega⟩
    have hd' : d ∉ s.beyond a := hnot d hdpos
    have hc' : c ∉ insert d (s.beyond a) := by
      rintro (hcd' | hc)
      · exact hcd hcd'
      · exact hnot c hcpos hc
    have := Set.encard_le_encard hsub
    rw [Set.encard_insert_of_notMem hc', Set.encard_insert_of_notMem hd', add_assoc] at this
    exact this
  have hcount : (s.beyond a).encard + 1 + a ≤ maxThread := by
    obtain ⟨b, rfl⟩ := Nat.exists_eq_succ_of_ne_zero (Nat.pos_iff_ne_zero.mp ha)
    calc (s.beyond (b + 1)).encard + 1 + ((b + 1 : ℕ) : ℕ∞)
        = (s.beyond (b + 1)).encard + 2 + (b : ℕ∞) := by
          push_cast
          ring
      _ ≤ (s.beyond b).encard + (b : ℕ∞) := add_le_add htwo (le_refl _)
      _ ≤ maxThread := hbefore
  have hlt : a < maxThread := by
    have : ((1 + a : ℕ) : ℕ∞) ≤ (maxThread : ℕ∞) := by
      push_cast
      exact le_trans (add_le_add (le_add_left (le_refl _)) (le_refl _)) hcount
    have := Nat.cast_le.mp this
    omega
  have hpc' : ∀ e, (s.setPc c (.scan (a + 1))).pc e = if e = c then .scan (a + 1) else s.pc e :=
    fun e => RegSys.setPc_pc c e _
  refine ⟨⟨?_, ?_, ?_⟩, hlt⟩
  · intro b hb
    obtain ⟨e, he⟩ := h.occupied b hb
    refine ⟨e, ?_⟩
    rw [hpc', if_neg]
    · exact he
    · rintro rfl
      rw [hpc] at he
      cases he
  · intro k hk hkm
    by_cases hka : k = a
    · subst hka
      have hsub : (s.setPc c (.scan (k + 1))).beyond k ⊆ insert c (s.beyond k) := by
        rintro e ⟨b, hb, hkb⟩
        rw [hpc'] at hb
        split at hb
        · rename_i hec
          exact Or.inl hec
        · exact Or.inr ⟨b, hb, hkb⟩
      refine le_trans (add_le_add (Set.encard_le_encard hsub) (le_refl _)) ?_
      rwa [Set.encard_insert_of_notMem (hnot c hcpos)]
    · have hsub : (s.setPc c (.scan (a + 1))).beyond k ⊆ s.beyond k := by
        rintro e ⟨b, hb, hkb⟩
        rw [hpc'] at hb
        split at hb
        · rename_i hec
          cases hb
          exact ⟨a, hec ▸ hcpos, by omega⟩
        · exact ⟨b, hb, hkb⟩
      exact le_trans (add_le_add (Set.encard_le_encard hsub) (le_refl _)) (h.behind k hk hkm)
  · intro e b
    rw [hpc']
    split
    · rintro ⟨rfl⟩
      exact hlt
    · exact h.last e b

/-- A claimed slot stays occupied, and nobody moves forward. -/
theorem Crowd.claim (h : Crowd s) (id : Nat) {c a : Nat} (hpc : s.pc c = .scan a) :
    Crowd ((s.setId a id).setPc c (.resetQueues a)) := by
  have hpc' : ∀ e, ((s.setId a id).setPc c (.resetQueues a)).pc e =
      if e = c then .resetQueues a else s.pc e := fun e => RegSys.setPc_pc c e _
  have hsub : ∀ e b, (((s.setId a id).setPc c (.resetQueues a)).pc e).position = some b →
      (s.pc e).position = some b := by
    intro e b
    rw [hpc']
    split
    · rename_i hec
      rw [hec, hpc]
      exact fun hb => hb
    · exact fun hb => hb
  refine ⟨?_, ?_, fun e b hb => h.last e b (hsub e b hb)⟩
  · intro b hb
    by_cases hba : b = a
    · refine ⟨c, ?_⟩
      rw [hpc', if_pos rfl, hba]
      rfl
    · have hb' : s.id b ≠ 0 := by
        have hid : ((s.setId a id).setPc c (.resetQueues a)).id b = s.id b := by
          show (s.setId a id).id b = _
          rw [RegSys.setId_id, if_neg hba]
        rwa [hid] at hb
      obtain ⟨e, he⟩ := h.occupied b hb'
      refine ⟨e, ?_⟩
      rw [hpc', if_neg]
      · exact he
      · rintro rfl
        rw [hpc] at he
        cases he
  · intro k hk hkm
    have hsub' : ((s.setId a id).setPc c (.resetQueues a)).beyond k ⊆ s.beyond k := by
      rintro e ⟨b, hb, hkb⟩
      exact ⟨b, hsub e b hb, hkb⟩
    exact le_trans (add_le_add (Set.encard_le_encard hsub') (le_refl _)) (h.behind k hk hkm)

/-- Only the program counter of one client changes, and what it has claimed stays claimed. -/
theorem Crowd.setPc (h : Crowd s) {c : Nat} {pc : RegPc} {m : Shm}
    (hm : ∀ i, (m.tls i).packedMachineProcessId = (s.shm.tls i).packedMachineProcessId)
    (hheld : ∀ a, (s.pc c).claimed = some a → pc.claimed = some a)
    (hpos : ∀ a, pc.position = some a → a = 1 ∨ (s.pc c).position = some a) :
    Crowd { s.setPc c pc with shm := m } := by
  refine h.quiet ?_ ?_
  · intro a ha
    refine ⟨fun h0 => ha ((hm a).trans h0), ?_⟩
    intro e he
    show ((s.setPc c pc).pc e).claimed = some a
    rw [RegSys.setPc_pc]
    split
    · rename_i hec
      exact hheld a (hec ▸ he)
    · exact he
  · intro e a
    show ((s.setPc c pc).pc e).position = some a → _
    rw [RegSys.setPc_pc]
    split
    · rename_i hec
      rw [hec]
      exact hpos a
    · exact Or.inr

theorem Crowd.release (h : Crowd s) (a : Nat) :
    Crowd { s.setId a 0 with
      pc := fun c => if s.pc c = .crashed a then .gone else s.pc c
      monitor := none } := by
  refine h.quiet ?_ ?_
  · intro b hb
    have hb' : (s.setId a 0).id b ≠ 0 := hb
    rw [RegSys.setId_id] at hb'
    split at hb'
    · exact absurd rfl hb'
    · rename_i hba
      refine ⟨hb', ?_⟩
      intro c hc
      show RegPc.claimed (if s.pc c = .crashed a then .gone else s.pc c) = some b
      rw [if_neg]
      · exact hc
      · intro hcr
        rw [hcr] at hc
        cases hc
        exact hba rfl
  · intro c b
    show RegPc.position (if s.pc c = .crashed a then .gone else s.pc c) = some b → _
    split
    · intro hb
      cases hb
    · exact Or.inr

/-- One step of a run with room: it stays within the vector and keeps the order. -/
theorem Crowd.step (h : Crowd s) (hinv : RegInv K s) (hroom : RegRoom s) (mv : RegMove)
    (hen : mv.enabled s) (hid : ∀ c, mv = .init c → K.tlsId c ≠ 0) (hstrong : ∀ c, mv ≠ .scan c true) :
    WithinVector K s mv ∧ Crowd (s.next K mv) := by
  cases mv with
  | init c =>
    have hout : s.pc c = .outside := hen
    refine ⟨hid c rfl, h.setPc (fun _ => rfl) ?_ ?_⟩
    · rw [hout]
      intro a ha
      cases ha
    · rintro a ⟨rfl⟩
      exact Or.inl rfl
  | scan c spurious =>
    obtain ⟨a, hpc⟩ := hen
    have hns : spurious = false := by
      cases spurious with
      | false => rfl
      | true => exact absurd rfl (hstrong c)
    subst hns
    obtain ⟨⟨hpos, -⟩, -⟩ := hinv.position c a (by rw [hpc]; rfl)
    by_cases hfree : s.id a = 0
    · refine ⟨?_, ?_⟩
      · intro hlast
        rw [hpc] at hlast
        cases hlast
        exact ⟨hfree, rfl⟩
      · rw [RegSys.next_scan_free hpc hfree]
        exact h.claim _ hpc
    · obtain ⟨hcrowd, hlt⟩ := h.pass hroom hpc hpos hfree
      refine ⟨?_, ?_⟩
      · intro hlast
        rw [hpc] at hlast
        cases hlast
        exact absurd hlt (Nat.lt_irrefl _)
      · rw [RegSys.next_scan_taken hpc hfree]
        exact hcrowd
  | access c =>
    refine ⟨trivial, ?_⟩
    obtain ⟨a, hpc | hpc⟩ := hen
    · simp only [RegSys.next, hpc]
      refine h.setPc (tls_setTls_id rfl) ?_ ?_
      · rw [hpc]
        exact fun _ hb => hb
      · rw [hpc]
        exact fun _ hb => Or.inr hb
    · simp only [RegSys.next, hpc]
      refine h.setPc (fun _ => rfl) ?_ ?_
      · rw [hpc]
        exact fun _ hb => hb
      · rw [hpc]
        exact fun _ hb => Or.inr hb
  | crash c =>
    refine ⟨trivial, h.setPc (fun _ => rfl) ?_ ?_⟩
    · intro a
      cases s.pc c with
      | outside => exact fun hb => nomatch hb
      | scan slot => exact fun hb => nomatch hb
      | gone => exact fun hb => nomatch hb
      | _ => exact fun hb => hb
    · intro a
      cases s.pc c with
      | outside => exact fun hb => nomatch hb
      | scan slot => exact fun hb => nomatch hb
      | gone => exact fun hb => nomatch hb
      | _ => exact Or.inr
  | inspect slot =>
    exact ⟨trivial, h.quiet (fun _ ha => ⟨ha, fun _ hc => hc⟩) fun _ _ hc => Or.inr hc⟩
  | release spurious =>
    refine ⟨trivial, ?_⟩
    cases hm : s.monitor with
    | none => simpa only [RegSys.next, hm] using h
    | some p =>
      obtain ⟨a, id⟩ := p
      simp only [RegSys.next, hm]
      split
      · exact h.release a
      · exact h
  | env m =>
    have hsame : ∀ i, (m.tls i).packedMachineProcessId = (s.shm.tls i).packedMachineProcessId := hen
    refine ⟨trivial, h.quiet ?_ fun _ _ hc => Or.inr hc⟩
    intro a ha
    exact ⟨fun h0 => ha ((hsame a).trans h0), fun _ hc => hc⟩

theorem RegInit.crowd (h : RegInit s) : Crowd s := by
  have hnone : ∀ c a, (s.pc c).position ≠ some a := by
    intro c a hc
    rw [h.pc] at hc
    cases hc
  refine ⟨?_, ?_, fun c a hc => absurd hc (hnone c a)⟩
  · intro a ha
    exact absurd (h.free a) ha
  · intro k _ hkm
    have hempty : s.beyond k = ∅ := by
      apply Set.eq_empty_of_forall_notMem
      rintro c ⟨a, hc, -⟩
      exact hnone c a hc
    rw [hempty, Set.encard_empty, zero_add]
    exact Nat.cast_le.mpr (Nat.le_of_lt hkm)

/-- **With room for everybody no scan leaves the vector.** If at most MAX_THREAD clients are inside at
any time, compare-exchanges do not fail spuriously and every client has an id, the run stays within
the vector. -/
theorem RoomReach.within (h : RoomReach K s) : WithinReach K s ∧ Crowd s := by
  refine @Reach.invariant _ _ _ _ (fun s => WithinReach K s ∧ Crowd s) ?_ ?_ _ h
  · intro s hi _
    exact ⟨.init hi trivial, hi.crowd⟩
  · rintro s _ ⟨hreach, hcrowd⟩ hroom ⟨mv, hen, hid, hstrong, rfl⟩ -
    obtain ⟨hw, hnext⟩ := hcrowd.step hreach.inv hroom mv hen hid hstrong
    exact ⟨.step hreach ⟨mv, hen, hw, rfl⟩ trivial, hnext⟩

end Room

theorem RoomReach.exclusiveIds {K : Clients} {s : RegSys} (h : RoomReach K s) : ExclusiveIds s :=
  h.within.1.inv.exclusiveIds

/-! ## §6 — runs that leave the vector -/

def emptyArea : RegSys := ⟨Shm.zero, fun _ => .outside, none⟩

theorem emptyArea_init : RegInit emptyArea := ⟨fun _ => rfl, rfl, fun _ => rfl⟩

theorem RegReach.next {K : Clients} {s : RegSys} (h : RegReach K s) (mv : RegMove)
    (hen : mv.enabled s) : RegReach K (s.next K mv) :=
  Reach.step h ⟨mv, hen, rfl⟩ trivial

/-- Machine id 0 and thread ids whose low 16 bits are 0: every packed id is 0. -/
def zeroClients : Clients := ⟨fun _ => 0, fun c => (c + 1) * 2 ^ 16⟩

/-- Machine id 1 and thread ids from 1. -/
def manyClients : Clients := ⟨fun _ => 1, fun c => c + 1⟩

/-- Two clients claim the first slot. -/
def sharedSlot : RegSys :=
  [RegMove.init 0, .scan 0 false, .init 1, .scan 1 false].foldl (RegSys.next zeroClients) emptyArea

theorem sharedSlot_reach : RegReach zeroClients sharedSlot := by
  have h0 : RegReach zeroClients emptyArea := .init emptyArea_init trivial
  have h1 := h0.next (.init 0) rfl
  have h2 := h1.next (.scan 0 false) ⟨1, rfl⟩
  have h3 := h2.next (.init 1) rfl
  exact h3.next (.scan 1 false) ⟨1, rfl⟩

/-- The first `n` clients hold the first `n` slots. -/
structure Filled (n : Nat) (s : RegSys) : Prop where
  pc : ∀ c, s.pc c = if c < n then .resetQueues (c + 1) else .outside
  taken : ∀ a, 0 < a → a ≤ n → s.id a ≠ 0
  free : ∀ a, n < a → s.id a = 0

/-- A scan passes the slots that are taken. -/
theorem RegReach.pass {K : Clients} {s : RegSys} (h : RegReach K s) {c n : Nat}
    (hpc : s.pc c = .scan 1) (htaken : ∀ a, 0 < a → a ≤ n → s.id a ≠ 0) :
    RegReach K (s.setPc c (.scan (n + 1))) := by
  induction n with
  | zero =>
    have hsame : s.setPc c (.scan 1) = s := by
      unfold RegSys.setPc
      rw [← hpc, Function.update_eq_self]
    rwa [Nat.zero_add, hsame]
  | succ n ih =>
    have hn := ih fun a ha hle => htaken a ha (Nat.le_succ_of_le hle)
    have hat : (s.setPc c (.scan (n + 1))).pc c = .scan (n + 1) := by simp [RegSys.setPc]
    have hnext := hn.next (.scan c false) ⟨n + 1, hat⟩
    have hbusy : (s.setPc c (.scan (n + 1))).id (n + 1) ≠ 0 := htaken _ (Nat.succ_pos n) (le_refl _)
    rw [RegSys.next_scan_taken hat hbusy] at hnext
    simpa only [RegSys.setPc, Function.update_idem] using hnext

theorem Filled.exists {K : Clients} (hK : ∀ c, K.tlsId c ≠ 0) (n : Nat) :
    ∃ s, RegReach K s ∧ Filled n s := by
  induction n with
  | zero =>
    refine ⟨emptyArea, .init emptyArea_init trivial, fun _ => rfl, ?_, fun _ _ => rfl⟩
    intro a ha hle
    omega
  | succ n ih =>
    obtain ⟨s, hs, hfill⟩ := ih
    have hout : s.pc n = .outside := by
      rw [hfill.pc, if_neg (Nat.lt_irrefl n)]
    have h1 := hs.next (.init n) hout
    have hpc1 : (s.next K (.init n)).pc n = .scan 1 := by simp [RegSys.next, RegSys.setPc]
    have h2 := h1.pass hpc1 hfill.taken
    have hpc2 : ((s.next K (.init n)).setPc n (.scan (n + 1))).pc n = .scan (n + 1) := by
      simp [RegSys.setPc]
    have hfree : ((s.next K (.init n)).setPc n (.scan (n + 1))).id (n + 1) = 0 :=
      hfill.free (n + 1) (Nat.lt_succ_self n)
    have h3 := h2.next (.scan n false) ⟨n + 1, hpc2⟩
    rw [RegSys.next_scan_free hpc2 hfree] at h3
    refine ⟨_, h3, ?_, ?_, ?_⟩
    · intro c
      show Function.update (Function.update (Function.update s.pc n _) n _) n _ c = _
      rw [Function.update_idem, Function.update_idem, Function.update_apply]
      by_cases hc : c = n
      · rw [if_pos hc, if_pos (by omega), hc]
      · rw [if_neg hc, hfill.pc]
        split
        · rw [if_pos (by omega)]
        · rw [if_neg (by omega)]
    · intro a ha hle
      show (RegSys.setId _ (n + 1) (K.tlsId n)).id a ≠ 0
      rw [RegSys.setId_id]
      split
      · exact hK n
      · exact hfill.taken a ha (by omega)
    · intro a ha
      show (RegSys.setId _ (n + 1) (K.tlsId n)).id a = 0
      rw [RegSys.setId_id, if_neg (by omega)]
      exact hfill.free a (by omega)

theorem manyClients_tlsId (c : Nat) : manyClients.tlsId c ≠ 0 := by
  show (1 * 2 ^ 16 + (c + 1) % 2 ^ 16) % 2 ^ 64 ≠ 0
  omega

/-! ## §7 — registration -/

/-- **Registration is exclusive within the vector.** In every state of every run in which each client
has an id other than 0 and no scan fails on the last slot, registered clients have different slots
and thread ids, every thread id is in 1..MAX_THREAD, and the era cells are inside the array and each
pair's own. -/
theorem registration_exclusive (K : Clients) (s : RegSys) (h : WithinReach K s) : ExclusiveIds s :=
  h.inv.exclusiveIds

/-- Two clients register one after the other. -/
theorem registration_exclusive_two :
    ExclusiveIds ([RegMove.init 0, .scan 0 false, .init 1, .scan 1 false, .scan 1 false].foldl
      (RegSys.next manyClients) emptyArea) := by
  apply registration_exclusive manyClients
  have h0 : WithinReach manyClients emptyArea := .init emptyArea_init trivial
  have h1 := Reach.step h0 ⟨.init 0, rfl, manyClients_tlsId 0, rfl⟩ trivial
  have h2 := Reach.step h1 ⟨.scan 0 false, ⟨1, rfl⟩, fun hl => absurd hl (by decide), rfl⟩ trivial
  have h3 := Reach.step h2 ⟨.init 1, rfl, manyClients_tlsId 1, rfl⟩ trivial
  have h4 := Reach.step h3 ⟨.scan 1 false, ⟨1, rfl⟩, fun hl => absurd hl (by decide), rfl⟩ trivial
  exact Reach.step h4 ⟨.scan 1 false, ⟨2, rfl⟩, fun hl => absurd hl (by decide), rfl⟩ trivial

/-- **It is not beyond.** Two clients whose packed id is 0 share the first slot; with 1025 clients
inside, the last one gets the thread id 1025. -/
theorem registration_not_exclusive :
    (¬ ∀ s, RegReach zeroClients s → ExclusiveIds s) ∧
      ¬ ∀ s, RegReach manyClients s → ExclusiveIds s := by
  constructor
  · intro h
    have hshared := (h sharedSlot sharedSlot_reach).apart 0 1 1 1 (by decide) rfl rfl
    exact hshared.1 rfl
  · intro h
    obtain ⟨s, hs, hfill⟩ := Filled.exists manyClients_tlsId (maxThread + 1)
    have hreg : s.Registered maxThread (maxThread + 1) := by
      unfold RegSys.Registered
      rw [hfill.pc, if_pos (Nat.lt_succ_self _)]
      rfl
    have hrange := ((h s hs).range _ _ hreg).2
    rw [threadId, threadIdOf_tlsOffset (Nat.succ_pos _)] at hrange
    exact absurd hrange (by decide)

end CxlShm
