import CxlShm.Block
import CxlShm.DropSteps

/-! # DropExact — when concurrent drops lose no child

The invariant holds in every run. Once all drops are complete it turns the question into one about the
freed objects: nothing is lost exactly when no compare-exchange of a `test_free` that had seen a count
above one took the count of an object with children to 0.
-/

namespace CxlShm

open Transition SlotCount

/-! ## §1 — one access -/

section Access

variable {W : DropWorld} {s : DropSys} {i : Nat} {f : DropFrame} {rest : List DropFrame}

theorem storeEra_width {m : Shm} (h : ∀ k, m.eraCell k < 2 ^ 32) (x y : Nat) {v : Nat}
    (hv : v < 2 ^ 32) : ∀ k, (m.storeEra x y v).eraCell k < 2 ^ 32 := by
  intro k
  show Function.update m.eraCell (Shm.eraIdx x y) v k < 2 ^ 32
  by_cases hk : k = Shm.eraIdx x y
  · rw [hk, Function.update_self]
    exact hv
  · rw [Function.update_of_ne hk]
    exact h k

theorem not_orphans {spurious : Bool} {m : Shm} {c : RefCall} {pc : RefPc} {deep : Bool}
    (hpc : f.pc = .unlink c pc deep) (h : ¬ casSucceeds spurious c m pc) :
    ¬ Orphans spurious m f := by
  unfold Orphans
  rw [hpc]
  exact fun ho => h ho.1

/-- One access inside `unlink_reference`. -/
theorem DropInv.unlink (h : DropInv W s) (hi : i ∈ W.ids) (hst : s.stack i = f :: rest)
    {c : RefCall} {pc : RefPc} {deep : Bool} (hpc : f.pc = .unlink c pc deep) (spurious : Bool) :
    DropInv W ⟨(refStep i spurious c pc s.shm).2,
      Function.update s.stack i (f.to (.unlink c (refStep i spurious c pc s.shm).1 deep) :: rest),
      if Orphans spurious s.shm f then insert f.unlinks s.orphans else s.orphans⟩ := by
  have hok := h.frame i hi f (by rw [hst]; exact List.mem_cons_self)
  unfold FrameOk at hok
  rw [hpc] at hok
  obtain ⟨hfunc, href, hobj, hat⟩ := hok
  have hquiet : ∀ (pc' : RefPc) (m : Shm), refStep i spurious c pc s.shm = (pc', m) →
      ¬ casSucceeds spurious c s.shm pc → m.word = s.shm.word → (∀ k, m.eraCell k < 2 ^ 32) →
      (∀ info, pc ≠ .storeRef info) → (∀ info, pc' ≠ .storeRef info) →
      UnlinkOk W s.shm f.ref c deep pc' →
      DropInv W ⟨(refStep i spurious c pc s.shm).2,
        Function.update s.stack i (f.to (.unlink c (refStep i spurious c pc s.shm).1 deep) :: rest),
        if Orphans spurious s.shm f then insert f.unlinks s.orphans else s.orphans⟩ := by
    intro pc' m hstep hcas hword hera hnp hnp' hok'
    rw [hstep, if_neg (not_orphans hpc hcas)]
    refine h.quiet hi hst _ m hword hera ?_ ⟨hfunc, href, hobj, hok'⟩
    have h1 : f.pending = none := by
      unfold DropFrame.pending
      rw [hpc]
      cases pc with
      | storeRef info => exact absurd rfl (hnp info)
      | _ => rfl
    rw [h1]
    show DropFrame.pending ⟨f.ref, .unlink c pc' deep⟩ = none
    cases pc' with
    | storeRef info => exact absurd rfl (hnp' info)
    | _ => rfl
  cases pc with
  | loadInfo =>
    exact hquiet (.loadEle (s.shm.refInfo c.refed) 0) s.shm (by simp [refStep, hfunc]) id rfl h.era
      (fun _ h => by cases h) (fun _ h => by cases h) hat
  | loadEra info =>
    exact hquiet (.storeRedo info (s.shm.era i i)) s.shm (by simp [refStep, hfunc]) id rfl h.era
      (fun _ h => by cases h) (fun _ h => by cases h) ⟨hat, h.era _⟩
  | loadEle info cur =>
    by_cases hgt : getLenumFromInfo info > s.shm.era i (getLcidFromInfo info)
    · exact hquiet (.storeEle info cur) s.shm (by simp [refStep, hgt]) id rfl h.era
        (fun _ h => by cases h) (fun _ h => by cases h) hat
    · exact hquiet (.loadEra info) s.shm (by simp [refStep, hgt, RefCall.afterEle, hfunc]) id rfl
        h.era (fun _ h => by cases h) (fun _ h => by cases h) hat
  | storeEle info cur =>
    exact hquiet (.loadEra info) (s.shm.storeEra i (getLcidFromInfo info) (getLenumFromInfo info))
      (by simp only [refStep, RefCall.afterEle, hfunc]) id rfl
      (storeEra_width h.era _ _ (Nat.mod_lt _ (by decide))) (fun _ h => by cases h) (fun _ h => by cases h) hat
  | storeRedo info cur =>
    exact hquiet (.cas info cur) _ rfl id rfl h.era (fun _ h => by cases h) (fun _ h => by cases h) hat
  | cas info cur =>
    by_cases hsame : s.shm.refInfo c.refed = info ∧ spurious = false
    · have hstep : refStep i spurious c (.cas info cur) s.shm =
          (.storeRef info, s.shm.store (c.refed + 8) (c.stamp i info cur)) := by
        simp only [refStep, if_pos hsame]
      rw [hstep]
      exact h.cas hi hst hpc hsame.1 hsame.2
    · exact hquiet .loadInfo s.shm (by simp only [refStep, if_neg hsame]) hsame rfl h.era
        (fun _ h => by cases h) (fun _ h => by cases h) hat.1
  | storeRef info =>
    rw [if_neg (not_orphans hpc id)]
    exact h.storeRef hi hst hpc
  | bumpEra info =>
    by_cases hfree : getRefCntFromInfo info = 1
    · exact hquiet (.wipe 0) (s.shm.storeEra i i ((s.shm.era i i + 1) % 2 ^ 32)) (by simp only [refStep, hfunc, hfree, and_self, if_true]) id rfl
        (storeEra_width h.era _ _ (Nat.mod_lt _ (by decide))) (fun _ h => by cases h) (fun _ h => by cases h)
        ⟨hat.1, hat.2 hfree, by decide⟩
    · exact hquiet .done (s.shm.storeEra i i ((s.shm.era i i + 1) % 2 ^ 32)) (by simp only [refStep, hfree, and_false, if_false]) id rfl
        (storeEra_width h.era _ _ (Nat.mod_lt _ (by decide))) (fun _ h => by cases h) (fun _ h => by cases h) hat.1
  | wipe k =>
    rw [if_neg (not_orphans hpc id)]
    exact h.wipe hi hst hpc rfl
  | done =>
    exact hquiet .done s.shm rfl id rfl h.era (fun _ h => by cases h) (fun _ h => by cases h) hat

theorem DropInv.access (h : DropInv W s) (hi : i ∈ W.ids) (hst : s.stack i = f :: rest)
    (spurious : Bool) : DropInv W (s.access i spurious f rest) := by
  have hf : f ∈ s.stack i := by
    rw [hst]
    exact List.mem_cons_self
  have hok := h.frame i hi f hf
  have hslot := h.ref_mem hi hf
  unfold FrameOk at hok
  -- outside `unlink_reference` nothing is orphaned
  have hno : (∀ c pc deep, f.pc ≠ .unlink c pc deep) → ¬ Orphans spurious s.shm f := by
    intro hne ho
    unfold Orphans at ho
    split at ho
    · rename_i c pc deep hpc
      exact hne c pc deep hpc
    · exact ho
  unfold DropSys.access
  cases hpc : f.pc with
  | test =>
    rw [if_neg (hno fun _ _ _ => by rw [hpc]; simp)]
    have hp : f.pending = none := by simp [DropFrame.pending, hpc]
    by_cases h0 : s.shm.word f.ref = 0
    · have := h.pop hi hst h0 hp
      simpa only [dropStep, hpc, if_pos h0] using this
    · have := h.quiet hi hst .loadInfo s.shm rfl h.era (by rw [hp]; rfl) h0
      simpa only [dropStep, hpc, if_neg h0] using this
  | loadInfo =>
    rw [if_neg (hno fun _ _ _ => by rw [hpc]; simp)]
    rw [hpc] at hok
    have hp : f.pending = none := by simp [DropFrame.pending, hpc]
    have hobj := (h.target _ hslot).resolve_left hok
    by_cases h1 : s.shm.refCnt (s.shm.word f.ref) = 1
    · have := h.quiet hi hst (.loop (s.shm.word f.ref) 0) s.shm rfl h.era (by rw [hp]; rfl)
        ⟨rfl, hobj, h1, fun j _ hj => absurd hj (Nat.not_lt_zero j)⟩
      simpa only [dropStep, hpc, if_pos h1] using this
    · have := h.quiet hi hst (.unlink ⟨.unlinkRef, f.ref, s.shm.word f.ref⟩ .loadInfo false) s.shm
        rfl h.era (by rw [hp]; rfl) ⟨rfl, rfl, hobj, rfl, fun hd => by cases hd⟩
      simpa only [dropStep, hpc, if_neg h1] using this
  | loop o k =>
    rw [if_neg (hno fun _ _ _ => by rw [hpc]; simp)]
    rw [hpc] at hok
    have hp : f.pending = none := by simp [DropFrame.pending, hpc]
    obtain ⟨hword, hobj, hone, hrel⟩ := hok
    have hemb := h.embedded o hobj (by omega)
    by_cases hk : k < s.shm.word (o + 16)
    · have := h.push hi hst hpc (by rw [← hemb]; exact hk)
      simpa only [dropStep, hpc, if_pos hk] using this
    · have hall : Torn W s.shm f.ref o (W.emb o) :=
        ⟨hword, hobj, hone, fun j hj _ => hrel j hj (by omega)⟩
      have := h.quiet hi hst (.unlink ⟨.unlinkRef, f.ref, s.shm.word f.ref⟩ .loadInfo true) s.shm
        rfl h.era (by rw [hp]; rfl)
        ⟨rfl, rfl, by rw [hword]; exact hobj, rfl, fun _ => by rw [hword]; exact hall⟩
      simpa only [dropStep, hpc, if_neg hk] using this
  | inChild o k =>
    rw [if_neg (hno fun _ _ _ => by rw [hpc]; simp)]
    have hsame : Function.update s.stack i (f :: rest) = s.stack := by
      rw [← hst, Function.update_eq_self]
    simpa only [dropStep, hpc, hsame] using h
  | unlink c pc deep =>
    have hstep := h.unlink hi hst hpc spurious
    by_cases hdone : (refStep i spurious c pc s.shm).1 = .done
    · have hok' := hstep.frame i hi (f.to (.unlink c (refStep i spurious c pc s.shm).1 deep))
        (by simp)
      unfold FrameOk at hok'
      obtain ⟨-, -, -, hzero⟩ := hok'
      rw [hdone] at hzero
      have := hstep.pop hi (Function.update_self ..) hzero (by rw [hdone]; rfl)
      simpa only [dropStep, hpc, hdone, if_true, Function.update_idem] using this
    · simpa only [dropStep, hpc, hdone, if_false] using hstep

/-- A client starts to drop one of its RootRefs. -/
theorem DropInv.drop (h : DropInv W s) (hi : i ∈ W.ids) {a : Nat} (ha : a ∈ W.rootsOf i)
    (hidle : s.stack i = []) :
    DropInv W { s with stack := Function.update s.stack i [⟨a, .test⟩] } := by
  refine h.restack hi _ ?_ ha (List.nodup_singleton a) ?_ ?_
  · intro g hg
    rw [List.mem_singleton.mp hg]
    trivial
  · intro j hj hij g hg e he
    rw [List.mem_singleton.mp hg]
    rcases (h.linked j hj).caller he with hroot | ⟨b, hb, o, k, hpc, href⟩
    · rintro rfl
      exact hij (W.roots_disjoint i j _ ha hroot)
    · have hok := h.frame j hj b hb
      unfold FrameOk at hok
      rw [hpc] at hok
      rw [href]
      exact ObjHeap.root_ne_embeddedSlot (W.mem_roots hi ha) hok.1.obj hok.2
  · rw [hidle]
    rfl

theorem DropInv.env (h : DropInv W s) {m : Shm} (hm : W.Frame s.shm m) :
    DropInv W { s with shm := m } := by
  have hcnt : ∀ o ∈ W.objs, m.refCnt o = s.shm.refCnt o := by
    intro o ho
    unfold Shm.refCnt
    rw [hm.info o ho]
  refine ⟨?_, h.linked, h.nodup, h.apart, ?_, ?_, ?_, hm.era, ?_, ?_⟩
  · intro i hi f hf
    refine (h.frame i hi f hf).spared ⟨hm.slot _ (h.ref_mem hi hf), ?_, ?_, ?_⟩
    · intro a ha h0
      rw [hm.slot a ha, h0]
    · intro o ho h0
      rw [hcnt o ho, h0]
    · intro o ho _ _ h1
      rw [hcnt o ho, h1]
  · intro o ho
    rw [hcnt o ho, holding_congr o hm.slot]
    exact h.count o ho
  · intro o ho hne
    rw [hcnt o ho] at hne
    rw [hm.embedded o ho]
    exact h.embedded o ho hne
  · intro a ha
    rw [hm.slot a ha]
    exact h.target a ha
  · intro o ho h0 hno k hk
    rw [hcnt o ho] at h0
    rw [hm.slot _ (ObjHeap.embeddedSlot_mem ho hk)]
    exact h.dead o ho h0 hno k hk
  · intro o ho
    obtain ⟨hobj, h0, k, hk, hne⟩ := h.orphan o ho
    refine ⟨hobj, by rw [hcnt o hobj, h0], k, hk, ?_⟩
    rw [hm.slot _ (ObjHeap.embeddedSlot_mem hobj hk)]
    exact hne

theorem DropInv.step (h : DropInv W s) (mv : DropMove) (hen : mv.enabled W s) :
    DropInv W (s.next mv) := by
  cases mv with
  | drop i a => exact h.drop hen.1 hen.2.1 hen.2.2
  | access i spurious =>
    cases hst : s.stack i with
    | nil => simpa only [DropSys.next, hst] using h
    | cons f rest => simpa only [DropSys.next, hst] using h.access hen hst spurious
  | env m => exact h.env hen

end Access

/-! ## §2 — whole runs -/

theorem DropInit.inv {W : DropWorld} {s : DropSys} (h : DropInit W s) : DropInv W s := by
  have hnone : ∀ i f, f ∉ s.stack i := by
    intro i f
    rw [h.idle]
    exact List.not_mem_nil
  refine ⟨fun i _ f hf => absurd hf (hnone i f), ?_, ?_, ?_, ?_, ?_, h.target, h.era, ?_, ?_⟩
  · intro i _
    rw [h.idle]
    trivial
  · intro i _
    rw [h.idle]
    exact List.nodup_nil
  · intro i _ j _ _ f hf
    exact absurd hf (hnone i f)
  · intro o ho
    have : holding W.ids (fun i => pendingOf (s.stack i)) (some o) = 0 := by
      rw [holding_eq_zero_iff]
      intro i _
      rw [h.idle]
      nofun
    rw [this, Nat.add_zero]
    exact h.count o ho
  · intro o ho _
    exact h.embedded o ho
  · intro o ho h0
    exact absurd h0 (h.live o ho)
  · intro o ho
    rw [h.orphans] at ho
    exact absurd ho (Finset.notMem_empty o)

theorem DropReach.inv {W : DropWorld} {s : DropSys} (h : DropReach W s) : DropInv W s := by
  refine Reach.invariant ?_ ?_ h
  · intro _ hi _
    exact hi.inv
  · rintro s _ hinv - ⟨mv, hen, rfl⟩ -
    exact hinv.step mv hen

/-- With no drop in progress every slot counts. -/
theorem DropInv.count_idle {W : DropWorld} {s : DropSys} (h : DropInv W s)
    (hidle : ∀ i ∈ W.ids, s.stack i = []) {o : Nat} (ho : o ∈ W.objs) :
    s.shm.refCnt o = holding W.slots s.shm.word o := by
  have hzero : holding W.ids (fun i => pendingOf (s.stack i)) (some o) = 0 := by
    rw [holding_eq_zero_iff]
    intro i hi
    rw [hidle i hi]
    nofun
  have := h.count o ho
  omega

/-- **Concurrent drops.** In every run, once all drops are complete: no child reference is lost
exactly when no compare-exchange of a `test_free` that saw a count above one took the count of an
object that still had a child to 0. -/
theorem nothingLost_iff (W : DropWorld) (s : DropSys) (h : DropReach W s)
    (hidle : ∀ i ∈ W.ids, s.stack i = []) : NothingLost W s.shm ↔ s.orphans = ∅ := by
  have hinv := h.inv
  constructor
  · intro hlost
    rw [Finset.eq_empty_iff_forall_notMem]
    intro o ho
    obtain ⟨hobj, h0, k, hk, hne⟩ := hinv.orphan o ho
    exact hne (hlost.released o hobj h0 k hk)
  · intro hnone
    have hrel : ∀ o ∈ W.objs, s.shm.refCnt o = 0 → ∀ k < W.emb o,
        s.shm.word (embeddedSlot o k) = 0 := by
      intro o ho h0
      apply hinv.dead o ho h0
      rw [hnone]
      exact Finset.notMem_empty o
    refine ⟨hrel, ?_⟩
    intro o ho _
    rw [ObjHeap.holding_liveSlots hrel ho]
    exact hinv.count_idle hidle ho

/-! ## §3 — a parent held twice -/

/-- Clients 1 and 2 hold an object of page (0, 2) in a RootRef of their own segment; its one child is
the block after it. -/
def sharedParent : DropWorld where
  objs := {134348800, 134348832}
  emb := fun o => if o = 134348800 then 1 else 0
  roots := {201392128, 268500992}
  root_outside := by decide
  objs_apart := by decide
  zero_not_obj := by decide
  ids := {1, 2}
  rootsOf := fun i => if i = 1 ∨ i = 2 then {pageStart (i, 1)} else ∅
  ids_range := by decide
  roots_disjoint := by
    intro i j a hi hj
    split at hi
    · split at hj
      · rw [Finset.mem_singleton] at hi hj
        simp only [pageStart, segmentsAreaStart, segmentSize, pageSize] at hi hj
        omega
      · exact absurd hj (Finset.notMem_empty a)
    · exact absurd hi (Finset.notMem_empty a)
  roots_eq := by decide

def sharedParentStart : DropSys where
  shm :=
    { Shm.zero with
      word := fun a =>
        if a = 201392128 ∨ a = 268500992 then 134348800
        else if a = 134348808 then packRefInfo 1 2 0
        else if a = 134348816 then 1
        else if a = 134348824 then 134348832
        else if a = 134348840 then packRefInfo 1 1 0
        else 0 }
  stack := fun _ => []
  orphans := ∅

theorem sharedParentStart_reach : DropReach sharedParent sharedParentStart := by
  refine .init ⟨fun _ => rfl, rfl, fun _ => Nat.two_pow_pos 32, by decide, by decide, by decide,
    by decide⟩ trivial

def DropSys.accesses (s : DropSys) (i : Nat) : Nat → DropSys
  | 0 => s
  | n + 1 => (s.accesses i n).next (.access i false)

theorem DropReach.accesses {W : DropWorld} {s : DropSys} (h : DropReach W s) {i : Nat}
    (hi : i ∈ W.ids) (n : Nat) : DropReach W (s.accesses i n) := by
  induction n with
  | zero => exact h
  | succ n ih => exact ih.next (.access i false) hi

/-- One drop after the other: the second one sees the count 1 and releases the child. -/
def droppedInTurn : DropSys :=
  ((((sharedParentStart.next (.drop 1 201392128)).accesses 1 9).next (.drop 2 268500992)).accesses 2 30)

theorem droppedInTurn_reach : DropReach sharedParent droppedInTurn := by
  have h1 := sharedParentStart_reach.next (.drop 1 201392128) ⟨by decide, by decide, rfl⟩
  have h2 := (h1.accesses (i := 1) (by decide) 9).next (.drop 2 268500992) ⟨by decide, by decide, rfl⟩
  exact h2.accesses (by decide) 30

theorem nothingLost_iff_inTurn : NothingLost sharedParent droppedInTurn.shm :=
  (nothingLost_iff sharedParent droppedInTurn droppedInTurn_reach (by decide)).mpr (by decide)

/-- Both clients read the count 2 before either compare-exchange. -/
def droppedAtOnce : DropSys :=
  let s := ((sharedParentStart.next (.drop 1 201392128)).accesses 1 2).next (.drop 2 268500992)
  ((s.accesses 2 2).accesses 1 7).accesses 2 11

theorem droppedAtOnce_reach : DropReach sharedParent droppedAtOnce := by
  have h1 := sharedParentStart_reach.next (.drop 1 201392128) ⟨by decide, by decide, rfl⟩
  have h2 := (h1.accesses (i := 1) (by decide) 2).next (.drop 2 268500992) ⟨by decide, by decide, rfl⟩
  exact ((h2.accesses (by decide) 2).accesses (by decide) 7).accesses (by decide) 11

/-- **A child is lost.** Neither client releases the child; the parent is freed with its reference to
it, and the child keeps the count 1 for good. -/
theorem drops_lose_child : ¬ ∀ W s, DropReach W s → (∀ i ∈ W.ids, s.stack i = []) →
    NothingLost W s.shm := by
  intro h
  have hlost := h sharedParent droppedAtOnce droppedAtOnce_reach (by decide)
  have hchild := hlost.released 134348800 (by decide) (by decide) 0 (by decide)
  exact absurd hchild (by decide)

end CxlShm
