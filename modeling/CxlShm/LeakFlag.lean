import CxlShm.SlotReuse
import CxlShm.Block

/-! # LeakFlag — a free that a crash cuts short

`unlink_reference` hands a block whose count it took from 1 to 0 to `cxl_free`, which wipes the
header and pushes the block on `local_free` of its page or on `thread_free` of its segment. Between
the compare-exchange and the push no list holds the block. `redo_ref_cnt` is to set the segment to
POTENTIAL_LEAKING then, by the count saved in the log line; this file runs `cxl_free` up to the push,
on top of the slots of `SlotReuse`.
-/

namespace CxlShm

open Transition

/-! ## §1 — `cxl_free` after the `memset` -/

/-- Where a client stands in `cxl_free(false, b)`; `state` and `head` are the local `info`. -/
inductive FreePc
  | owner
  | localNext
  | localHead
  | localUsed
  | firstLoad
  | loadInfo
  | storeNext (state : SegmentState) (head : Nat)
  | cas (state : SegmentState) (head : Nat)
  | done
  deriving DecidableEq, Repr

/-- The block is on no list yet. -/
def FreePc.unpushed : FreePc → Prop
  | .localUsed => False
  | .done => False
  | _ => True

/-- The next access of client `tid` in `cxl_free` of the block `b`, up to the push and the store to
`used`; `cxl_page_free` of a page that has become empty follows it. -/
def freeStep (tid : Nat) (spurious : Bool) (b : Nat) : FreePc → Shm → FreePc × Shm
  | .owner, m =>
    (if (m.segment (segmentIdx b)).threadId = tid then .localNext else .firstLoad, m)
  | .localNext, m => (.localHead, m.store b (m.page (pageOf b)).localFree)
  | .localHead, m => (.localUsed, m.setPage (pageOf b) { m.page (pageOf b) with localFree := b })
  | .localUsed, m =>
    (.done, m.setPage (pageOf b)
      { m.page (pageOf b) with used := ((m.page (pageOf b)).used + (2 ^ 32 - 1)) % 2 ^ 32 })
  | .firstLoad, m => (.loadInfo, m)
  | .loadInfo, m =>
    (if (m.sas (segmentIdx b)).state = .potentialLeaking then .done
      else .storeNext (m.sas (segmentIdx b)).state (m.sas (segmentIdx b)).threadFree, m)
  | .storeNext state head, m => (.cas state head, m.store b head)
  | .cas state head, m =>
    if (m.sas (segmentIdx b)).state = state ∧ (m.sas (segmentIdx b)).threadFree = head ∧
        spurious = false then
      (.done, { m with
        sas := Function.update m.sas (segmentIdx b) { m.sas (segmentIdx b) with threadFree := b } })
    else (.loadInfo, m)
  | .done, m => (.done, m)

/-! ## §2 — the machine -/

/-- The slots of `SlotReuse`, and for each holder the block it is freeing. -/
structure FreeSys where
  slots : SlotSys
  freeing : Nat → Option (Nat × FreePc)

inductive FreeMove
  | slot (mv : SlotMove)
  /-- the holder's next access in `cxl_free` -/
  | free (i : Nat) (spurious : Bool)

/-- The holder whose program this move runs. -/
def SlotMove.runs : SlotMove → Option Nat
  | .access i _ => some i
  | .malloc i => some i
  | .call i _ => some i
  | _ => none

/-- Nothing else in the library sets a segment to POTENTIAL_LEAKING: `cxl_segment_alloc` and the
segment scan store NORMAL, the two collectors ABANDON, the free lists keep the state. -/
def FlagFrame (m m' : Shm) : Prop :=
  ∀ k, (m'.sas k).state = .potentialLeaking → (m.sas k).state = .potentialLeaking

def FreeMove.enabled (s : FreeSys) : FreeMove → Prop
  | .slot mv => mv.enabled s.slots ∧ (∀ i, mv.runs = some i → s.freeing i = none) ∧
      ∀ m, mv = .env m → FlagFrame s.slots.shm m
  | .free i _ => s.slots.pc i = .idle ∧ s.freeing i ≠ none

/-- The last word of the `memset` enters the rest of `cxl_free`. -/
def FreeSys.entered (s : FreeSys) : SlotMove → Nat → Option (Nat × FreePc)
  | .access i _ =>
    match s.slots.pc i with
    | .inCall c (.wipe k) =>
      if k + 1 < sizeofCxlObj / 8 then s.freeing
      else Function.update s.freeing i (some (c.refed, .owner))
    | _ => s.freeing
  | .claim i _ => Function.update s.freeing i none
  | _ => s.freeing

def FreeSys.next (s : FreeSys) : FreeMove → FreeSys
  | .slot mv => ⟨s.slots.next mv, s.entered mv⟩
  | .free i spurious =>
    match s.freeing i with
    | none => s
    | some (b, pc) =>
      ⟨{ s.slots with shm := (freeStep i spurious b pc s.slots.shm).2 },
        Function.update s.freeing i
          (if (freeStep i spurious b pc s.slots.shm).1 = .done then none
            else some (b, (freeStep i spurious b pc s.slots.shm).1))⟩

def FreeStep (s s' : FreeSys) : Prop := ∃ mv : FreeMove, mv.enabled s ∧ s' = s.next mv

structure FreeInit (s : FreeSys) : Prop where
  slots : SlotInit s.slots
  freeing : ∀ i, s.freeing i = none
  state : ∀ k, (s.slots.shm.sas k).state = .normal

def FreeReach : FreeSys → Prop := Reach FreeInit FreeStep fun _ => True

theorem FreeReach.next {s : FreeSys} (h : FreeReach s) (mv : FreeMove) (hen : mv.enabled s) :
    FreeReach (s.next mv) :=
  Reach.step h ⟨mv, hen, rfl⟩ trivial

/-! ## §3 — what the accesses leave alone -/

theorem freeStep_tls (i : Nat) (spurious : Bool) (b : Nat) (pc : FreePc) (m : Shm) :
    (freeStep i spurious b pc m).2.tls = m.tls := by
  cases pc with
  | cas state head =>
    simp only [freeStep]
    split <;> rfl
  | _ => rfl

theorem freeStep_state (i : Nat) (spurious : Bool) (b : Nat) (pc : FreePc) (m : Shm) (k : Nat) :
    ((freeStep i spurious b pc m).2.sas k).state = (m.sas k).state := by
  cases pc with
  | cas state head =>
    simp only [freeStep]
    split
    · by_cases hk : k = segmentIdx b
      · simp [hk]
      · simp [hk]
    · rfl
  | _ => rfl

/-- The frees of this file are moves of the environment of `SlotReuse`. -/
theorem FreeReach.slots {s : FreeSys} (h : FreeReach s) : SlotReach s.slots := by
  refine @Reach.invariant _ _ _ _ (fun s : FreeSys => SlotReach s.slots) ?_ ?_ _ h
  · intro s hi _
    exact .init hi.slots trivial
  · rintro s _ hs - ⟨mv, hen, rfl⟩ -
    cases mv with
    | slot mv => exact hs.next mv hen.1
    | free i spurious =>
      cases hf : s.freeing i with
      | none => simpa only [FreeSys.next, hf] using hs
      | some bp =>
        obtain ⟨b, pc⟩ := bp
        have htls := freeStep_tls i spurious b pc s.slots.shm
        have := hs.next (.env (freeStep i spurious b pc s.slots.shm).2)
          ⟨fun j k => by unfold Shm.redo; rw [htls], fun j => by rw [htls]⟩
        simpa only [FreeSys.next, hf, SlotSys.next] using this

/-! ## §4 — no segment is ever flagged -/

/-- **The replay flags nothing.** The count field is read off the 16-bit `saved_ref_cnt`, where it is
0. -/
theorem redoRefCnt_sas {m : Shm} {i : Nat} (h : (newestRedo m i).savedRefCnt < 2 ^ 16) :
    (redoRefCnt i m).sas = m.sas := by
  have hcnt : getRefCntFromInfo (newestRedo m i).savedRefCnt ≠ 1 := by
    rw [getRefCntFromInfo_of_lt h]
    decide
  unfold redoRefCnt
  cases hf : (newestRedo m i).funcId with
  | none => simp [hf]
  | some f =>
    cases f with
    | linkRef =>
      simp only [hf]
      split <;> rfl
    | unlinkRef =>
      simp only [hf, if_neg hcnt]
      split <;> rfl

/-- The log holds 16-bit counts, and no segment is flagged. -/
structure FlagInv (m : Shm) : Prop where
  saved : ∀ i k, (m.redo i k).savedRefCnt < 2 ^ 16
  state : ∀ k, (m.sas k).state ≠ .potentialLeaking

theorem FlagInv.congr {m m' : Shm} (h : FlagInv m) (hr : ∀ i k, m'.redo i k = m.redo i k)
    (hs : FlagFrame m m') : FlagInv m' := by
  refine ⟨?_, fun k hk => h.state k (hs k hk)⟩
  intro i k
  rw [hr]
  exact h.saved i k

theorem FlagInv.storeRedo {m : Shm} (h : FlagInv m) (i k : Nat) {l : RedoLog}
    (hl : l.savedRefCnt < 2 ^ 16) : FlagInv (m.storeRedo i k l) := by
  refine ⟨?_, h.state⟩
  intro j n
  by_cases hjn : j = i ∧ n = k
  · obtain ⟨rfl, rfl⟩ := hjn
    rw [Shm.redo_storeRedo_self]
    exact hl
  · rw [Shm.redo_storeRedo_of_ne _ _ (not_and_or.mp hjn)]
    exact h.saved j n

theorem FlagInv.refStep {m : Shm} (h : FlagInv m) (i : Nat) (spurious : Bool) (c : RefCall)
    (pc : RefPc) : FlagInv (refStep i spurious c pc m).2 := by
  rcases refStep_redo i spurious c pc m with ⟨info, cur, rfl, heq⟩ | ⟨-, hr⟩
  · rw [heq]
    exact h.storeRedo i _ (getRefCntFromInfo_lt info)
  · refine h.congr hr ?_
    intro k hk
    rwa [refStep_sas] at hk

theorem FlagInv.access {s : SlotSys} (h : FlagInv s.shm) (i : Nat) (spurious : Bool) :
    FlagInv (s.access i spurious).shm := by
  cases hpc : s.pc i with
  | resetQueues =>
    simp only [SlotSys.access, hpc]
    exact h.congr (redo_setTls rfl) fun _ hk => hk
  | bumpEra =>
    simp only [SlotSys.access, hpc]
    exact h.congr (fun _ _ => rfl) fun _ hk => hk
  | clearLog k =>
    simp only [SlotSys.access, hpc]
    exact h.storeRedo i k (by decide)
  | inCall c pc =>
    simp only [SlotSys.access, hpc]
    exact h.refStep i spurious c pc
  | free => simpa only [SlotSys.access, hpc] using h
  | idle => simpa only [SlotSys.access, hpc] using h
  | replayed => simpa only [SlotSys.access, hpc] using h

theorem FlagInv.redo {m : Shm} (h : FlagInv m) (i : Nat) : FlagInv (redoRefCnt i m) := by
  obtain ⟨k, -, hnew⟩ := newestRedo_mem m i
  have hsaved : (newestRedo m i).savedRefCnt < 2 ^ 16 := by
    rw [hnew]
    exact h.saved i k
  refine h.congr ?_ ?_
  · intro j k
    unfold Shm.redo
    rw [redoRefCnt_tls]
  · intro k hk
    rwa [redoRefCnt_sas hsaved] at hk

theorem FlagInv.step {s : FreeSys} (h : FlagInv s.slots.shm) (mv : FreeMove) (hen : mv.enabled s) :
    FlagInv (s.next mv).slots.shm := by
  cases mv with
  | slot mv =>
    cases mv with
    | access i spurious => exact h.access i spurious
    | redo i => exact h.redo i
    | env m => exact h.congr hen.1.redo (hen.2.2 m rfl)
    | claim i id => exact h.congr (redo_setTls rfl) fun _ hk => hk
    | release i => exact h.congr (redo_setTls rfl) fun _ hk => hk
    | malloc i => exact h
    | call i c => exact h
  | free i spurious =>
    cases hf : s.freeing i with
    | none => simpa only [FreeSys.next, hf] using h
    | some bp =>
      obtain ⟨b, pc⟩ := bp
      simp only [FreeSys.next, hf]
      refine h.congr ?_ ?_
      · intro j k
        unfold Shm.redo
        rw [freeStep_tls]
      · intro k hk
        rwa [freeStep_state] at hk

theorem FreeReach.flagInv {s : FreeSys} (h : FreeReach s) : FlagInv s.slots.shm := by
  refine @Reach.invariant _ _ _ _ (fun s : FreeSys => FlagInv s.slots.shm) ?_ ?_ _ h
  · intro s hi _
    refine ⟨?_, ?_⟩
    · intro i k
      rw [hi.slots.redo]
      decide
    · intro k
      rw [hi.state]
      decide
  · rintro s _ hinv - ⟨mv, hen, rfl⟩ -
    exact hinv.step mv hen

/-- The exit of the push loop that the flag guards is never taken: every remote free pushes. -/
theorem freeStep_loadInfo {s : FreeSys} (h : FreeReach s) (i : Nat) (spurious : Bool) (b : Nat) :
    (freeStep i spurious b .loadInfo s.slots.shm).1 =
      .storeNext (s.slots.shm.sas (segmentIdx b)).state (s.slots.shm.sas (segmentIdx b)).threadFree :=
  if_neg (h.flagInv.state _)

/-! ## §5 — the block of a free that is cut short -/

/-- Client `i` has taken the count from 1 to 0 in the call `c`, and the block is on no list. -/
def CutShort (s : FreeSys) (i : Nat) (c : RefCall) : Prop :=
  c.func = .unlinkRef ∧
    ((∃ info, getRefCntFromInfo info = 1 ∧
        (s.slots.pc i = .inCall c (.storeRef info) ∨ s.slots.pc i = .inCall c (.bumpEra info))) ∨
      (∃ k, s.slots.pc i = .inCall c (.wipe k)) ∨
      s.slots.pc i = .idle ∧ ∃ pc : FreePc, pc.unpushed ∧ s.freeing i = some (c.refed, pc))

/-- The newest line of slot `i` is that of the call `c`. -/
def NewestIs (m : Shm) (i : Nat) (c : RefCall) : Prop :=
  (newestRedo m i).funcId = some c.func ∧ (newestRedo m i).ref = c.ref ∧
    (newestRedo m i).refed = c.refed

/-! ## §6 — one free cut short -/

def FreeSys.accesses (s : FreeSys) (i : Nat) : Nat → FreeSys
  | 0 => s
  | n + 1 => (s.accesses i n).next (.slot (.access i false))

theorem FreeReach.slot {s : FreeSys} (h : FreeReach s) (mv : SlotMove) (hen : mv.enabled s.slots)
    (henv : ∀ m, mv ≠ .env m) (hfree : ∀ i, mv.runs = some i → s.freeing i = none) :
    FreeReach (s.next (.slot mv)) :=
  h.next (.slot mv) ⟨hen, hfree, fun m hm => absurd hm (henv m)⟩

theorem FreeReach.accesses {s : FreeSys} (h : FreeReach s) (i n : Nat)
    (hen : ∀ k < n, (((s.accesses i k).slots.pc i).held ∧ (s.accesses i k).slots.pc i ≠ .idle) ∧
      (s.accesses i k).freeing i = none) : FreeReach (s.accesses i n) := by
  induction n with
  | zero => exact h
  | succ n ih =>
    obtain ⟨hpc, hfree⟩ := hen n (Nat.lt_succ_self n)
    have hn := ih fun k hk => hen k (Nat.lt_succ_of_lt hk)
    refine hn.slot (.access i false) hpc (fun _ => nofun) ?_
    intro j hj
    cases hj
    exact hfree

/-- Nobody has been here. -/
def soleStart : FreeSys := ⟨reuseStart, fun _ => none⟩

/-- What the rest of `cxl_malloc` and a `link_reference` leave: segment 0 is client 1's, and the object at
the first block of its page 1 is held once, by the slot at the first block of page 2. -/
def withSoleObject (m : Shm) : Shm :=
  { (m.store (pageStart (0, 2)) (pageStart (0, 1))).store (pageStart (0, 1) + 8) (packRefInfo 1 1 0) with
    segment := Function.update m.segment 0 { m.segment 0 with threadId := 1 }
    sas := Function.update m.sas 0 { m.sas 0 with threadId := 1 } }

def soleDrop : RefCall := ⟨.unlinkRef, pageStart (0, 2), pageStart (0, 1)⟩

/-- Client 1 registers, allocates once and is idle. -/
def soleRegistered : FreeSys :=
  (((soleStart.next (.slot (.claim 1 7))).accesses 1 2).next (.slot (.malloc 1))).accesses 1
    redoCachelineCnt

def soleObject : FreeSys := soleRegistered.next (.slot (.env (withSoleObject soleRegistered.slots.shm)))

/-- It drops the slot, finds in `cxl_free` that the segment is its own and crashes before the push. -/
def soleCrashed : FreeSys :=
  ((soleObject.next (.slot (.call 1 soleDrop))).accesses 1 10).next (.free 1 false)

theorem withSoleObject_frame (m : Shm) : LogFrame m (withSoleObject m) ∧ FlagFrame m (withSoleObject m) := by
  refine ⟨⟨fun _ _ => rfl, fun _ => rfl⟩, ?_⟩
  intro k hk
  by_cases h0 : k = 0
  · subst h0
    simpa [withSoleObject] using hk
  · simpa [withSoleObject, h0] using hk

theorem soleCrashed_reach : FreeReach soleCrashed := by
  have h0 : FreeReach soleStart :=
    .init ⟨⟨fun _ => rfl, fun _ _ => rfl, fun _ _ => Nat.le_refl 0⟩, fun _ => rfl, fun _ => rfl⟩ trivial
  have h1 := h0.slot (.claim 1 7) ⟨by decide, rfl, rfl⟩ (fun _ => nofun) (fun _ hi => by cases hi)
  have h2 := h1.accesses 1 2 (by decide)
  have hidle : ((soleStart.next (.slot (.claim 1 7))).accesses 1 2).slots.pc 1 = .idle := by decide
  have h3 := h2.slot (.malloc 1) hidle (fun _ => nofun) (fun _ hi => by cases hi; decide)
  have h4 : FreeReach soleRegistered := h3.accesses 1 redoCachelineCnt (by decide)
  obtain ⟨hlog, hflag⟩ := withSoleObject_frame soleRegistered.slots.shm
  have h5 : FreeReach soleObject := by
    apply h4.next (.slot (.env (withSoleObject soleRegistered.slots.shm)))
    refine ⟨hlog, ?_, ?_⟩
    · intro _ hi
      cases hi
    intro m hm
    cases hm
    exact hflag
  have h6 := h5.slot (.call 1 soleDrop) ⟨by decide, by decide⟩ (fun _ => nofun)
    (fun _ hi => by cases hi; decide)
  have h7 := h6.accesses 1 10 (by decide)
  exact h7.next (.free 1 false) ⟨by decide, by decide⟩

/-- The free is local: the next access would have been the first of the push on `local_free`. -/
theorem soleCrashed_cutShort : CutShort soleCrashed 1 soleDrop :=
  ⟨rfl, Or.inr (Or.inr ⟨by decide, .localNext, trivial, by decide⟩)⟩

theorem soleCrashed_newestIs : NewestIs soleCrashed.slots.shm 1 soleDrop :=
  ⟨by decide, by decide, by decide⟩

/-! ## §7 — the segment after the replay -/

/-- **A lost block is never flagged.** In every run, whenever client `i` crashes between the
compare-exchange and the push, with that unlink its newest line, the segment of the block is not in
the state POTENTIAL_LEAKING after the replay. -/
theorem cutShort_not_flagged (s : FreeSys) (h : FreeReach s) (i : Nat) (c : RefCall)
    (_ : CutShort s i c) (_ : NewestIs s.slots.shm i c) :
    ((redoRefCnt i s.slots.shm).sas (segmentIdx c.refed)).state ≠ .potentialLeaking :=
  (h.flagInv.redo i).state _

/-- The object is lost with its segment in the state NORMAL. -/
theorem cutShort_not_flagged_sole :
    ((redoRefCnt 1 soleCrashed.slots.shm).sas (segmentIdx soleDrop.refed)).state ≠
      .potentialLeaking :=
  cutShort_not_flagged soleCrashed soleCrashed_reach 1 soleDrop soleCrashed_cutShort
    soleCrashed_newestIs

/-- **The flag is missing.** -/
theorem cutShort_flagged_fails :
    ¬ ∀ s, FreeReach s → ∀ i c, CutShort s i c → NewestIs s.slots.shm i c →
      ((redoRefCnt i s.slots.shm).sas (segmentIdx c.refed)).state = .potentialLeaking := by
  intro h
  have hflag := h soleCrashed soleCrashed_reach 1 soleDrop soleCrashed_cutShort soleCrashed_newestIs
  exact (soleCrashed_reach.flagInv.redo 1).state _ hflag

end CxlShm
