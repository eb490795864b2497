import CxlShm.RecoveryExact
import CxlShm.SegmentScan

/-! # Monitor — `monitor::single_recovery_loop`

One pass of the monitor: every registered client is taken for crashed, its log is replayed and what it had is
collected; then the segments are gone through. `check_recovery` is the test of the area after a pass.
-/

namespace CxlShm

open Loop

/-! ## §1 — the code -/

/-- `check_tls(id)`. -/
def checkTls (id : Nat) : Bool := decide (id ≠ 0)

/-- The slot of client `tid` in the first loop. -/
def recoverClient (fuel : Nat) (m : Shm) (tid : Nat) : Option Shm :=
  let id := (m.tls tid).packedMachineProcessId
  if checkTls id then recoveryGarbageCollection fuel tid id (redoRefCnt tid m) else some m

/-- The thread ids of the slots. -/
def slotIds : List Nat := List.range' 1 maxThread

def recoverClients (fuel : Nat) (m : Shm) : Option Shm := slotIds.foldlM (recoverClient fuel) m

/-- `single_recovery_loop()`. -/
def singleRecoveryLoop (fuel : Nat) (m : Shm) : Option Shm := (recoverClients fuel m).map scanSegments

/-- The first `n` rounds of `recovery_loop()`. -/
def recoveryLoop (fuel : Nat) : Nat → Shm → Option Shm
  | 0, m => some m
  | n + 1, m => (singleRecoveryLoop fuel m).bind (recoveryLoop fuel n)

/-- `check_recovery()`. -/
def checkRecovery (m : Shm) : Bool :=
  slotIds.all (fun t => (m.tls t).packedMachineProcessId = 0) &&
    (List.range maxSegmentNum).all fun i => (m.sas i).threadId = 0

/-! ## §2 — what the recovery of one client leaves alone -/

/-- Other clients' slots stay; metadata of a page stays, or is wiped if it is one of the pages `P` or of a segment of
the client; and the only segments to change hands are the client's own, which nobody has then. -/
structure RecoveryFrame (tid : Nat) (P : Nat × Nat → Prop) (m m' : Shm) : Prop where
  tls : ∀ u, u ≠ tid → m'.tls u = m.tls u
  page : ∀ pg, m'.page pg = m.page pg ∨ m'.page pg = Page.zero ∧ (P pg ∨ (m.sas pg.1).threadId = tid)
  owner : ∀ i, (m'.sas i).threadId = (m.sas i).threadId ∨ (m.sas i).threadId = tid ∧ (m'.sas i).threadId = 0
  header : ∀ i, (m'.segment i).threadId = (m.segment i).threadId ∨ (m.sas i).threadId = tid

section Frame

variable {tid fuel a b i : Nat} {m m₁ m' : Shm} {pg : Nat × Nat} {P : Nat × Nat → Prop}

theorem RecoveryFrame.refl : RecoveryFrame tid P m m :=
  ⟨fun _ _ => rfl, fun _ => Or.inl rfl, fun _ => Or.inl rfl, fun _ => Or.inl rfl⟩

/-- Stores to words and marks on segments. -/
theorem RecoveryFrame.of_same (h : RecoveryFrame tid P m m₁) (htls : m'.tls = m₁.tls) (hseg : m'.segment = m₁.segment)
    (hown : ∀ i, (m'.sas i).threadId = (m₁.sas i).threadId) : RecoveryFrame tid P m m' := by
  refine ⟨fun u hu => ?_, fun pg => ?_, fun i => ?_, fun i => ?_⟩
  · rw [htls]
    exact h.tls u hu
  · rw [Shm.page, hseg]
    exact h.page pg
  · rw [hown]
    exact h.owner i
  · rw [hseg]
    exact h.header i

theorem RecoveryFrame.mark (h : RecoveryFrame tid P m m₁) {st : SegmentState} :
    RecoveryFrame tid P m (m₁.setSegmentState i st) := by
  refine h.of_same rfl rfl fun k => ?_
  simp only [Shm.setSegmentState]
  by_cases hk : k = i
  · rw [hk, Function.update_self]
  · rw [Function.update_of_ne hk]

theorem RecoveryFrame.freePage (h : RecoveryFrame tid P m m₁) (hpg : P pg) :
    RecoveryFrame tid P m (m₁.setPage pg Page.zero) := by
  refine ⟨h.tls, fun pg' => ?_, h.owner, fun i => ?_⟩
  · rw [Shm.page_setPage]
    split
    case isTrue he => exact Or.inr ⟨rfl, Or.inl (he ▸ hpg)⟩
    case isFalse => exact h.page pg'
  · rw [Shm.threadId_setPage]
    exact h.header i

theorem RecoveryFrame.recoveryCxlFree (h : RecoveryFrame tid P m m₁) (special : Bool) (u b : Nat) :
    RecoveryFrame tid P m (recoveryCxlFree special u b m₁) := by
  unfold CxlShm.recoveryCxlFree
  simp only
  split
  · refine h.of_same rfl rfl fun k => ?_
    simp only [Shm.pushThreadFree]
    by_cases hk : k = segmentIdx b
    · rw [hk, Function.update_self]
      rfl
    · rw [Function.update_of_ne hk]
      rfl
  · exact h.of_same rfl rfl fun _ => rfl

theorem RecoveryFrame.recoveryUnlinkReference (h : RecoveryFrame tid P m m₁) (u ref refed : Nat) :
    RecoveryFrame tid P m (recoveryUnlinkReference u ref refed m₁) := by
  have hstores : RecoveryFrame tid P m (recoveryUnlinkStores u ref refed m₁) :=
    h.of_same recoveryUnlinkStores_tls recoveryUnlinkStores_segment fun _ => by rw [recoveryUnlinkStores_sas]
  rw [recoveryUnlinkReference_eq]
  split
  · exact hstores.recoveryCxlFree _ _ _
  · exact hstores

theorem RecoveryFrame.recoveryTestFree (h : RecoveryFrame tid P m m₁) {u : Nat}
    (hrun : recoveryTestFree u fuel a m₁ = some m') : RecoveryFrame tid P m m' :=
  releaseWith_keeps (RecoveryFrame tid P m) (fun a o _ hm => hm.recoveryUnlinkReference u a o) hrun h

/-- One page of RootRefs. -/
theorem RecoveryFrame.rootRefPage (h : RecoveryFrame tid P m m₁) (hpg : P pg)
    (hrun : recoveryRootRefPage tid fuel pg m₁ = some m') : RecoveryFrame tid P m m' := by
  unfold recoveryRootRefPage at hrun
  simp only at hrun
  split at hrun
  · cases hrun
  · obtain ⟨m₂, hfold, rfl⟩ := Option.map_eq_some_iff.mp hrun
    refine RecoveryFrame.freePage ?_ hpg
    refine foldlM_keeps (RecoveryFrame tid P m) (fun m₃ b m₄ h₃ hstep => ?_) hfold h
    unfold recoveryRootRef at hstep
    simp only at hstep
    split at hstep
    · obtain ⟨m₅, hrel, rfl⟩ := Option.map_eq_some_iff.mp hstep
      have h₅ : RecoveryFrame tid P m m₅ := by
        split at hrel
        · exact h₃.recoveryTestFree hrel
        · exact Option.some.inj hrel ▸ h₃
      apply RecoveryFrame.recoveryCxlFree
      exact h₅.of_same rfl rfl fun _ => rfl
    · exact Option.some.inj hstep ▸ h₃

theorem RecoveryFrame.releaseEntry (h : RecoveryFrame tid P m m₁) {u q k : Nat}
    (hrun : releaseEntry u fuel q k m₁ = some m') : RecoveryFrame tid P m m' := by
  unfold CxlShm.releaseEntry at hrun
  split at hrun
  · exact h.recoveryTestFree hrun
  · exact Option.some.inj hrun ▸ h

theorem RecoveryFrame.scanRing (h : RecoveryFrame tid P m m₁) {u q k : Nat} {stop : Shm → Nat} {p : Nat × Shm}
    (hrun : scanRing u fuel q stop k m₁ = some p) : RecoveryFrame tid P m p.2 := by
  refine (whileM_some (fun p : Nat × Shm => RecoveryFrame tid P m p.2) ?_ hrun h).1
  rintro ⟨j, m₂⟩ p' h₂ - hstep
  obtain ⟨m₃, hrel, rfl⟩ := Option.map_eq_some_iff.mp hstep
  exact h₂.releaseEntry hrel

theorem RecoveryFrame.senderQueue (h : RecoveryFrame tid P m m₁) {u q : Nat}
    (hrun : recoverySenderQueue u fuel q m₁ = some m') : RecoveryFrame tid P m m' := by
  simp only [recoverySenderQueue, bind, Option.bind_eq_some_iff] at hrun
  obtain ⟨m₂, hrel, ⟨i₂, m₃⟩, hscan, hrun⟩ := hrun
  have h₃ := (h.releaseEntry hrel).scanRing hscan
  have hlast : ∀ m₄, RecoveryFrame tid P m m₄ →
      RecoveryFrame tid P m ((m₄.setSenderId q 0).setSegmentState (segmentIdx q) .abandon) := by
    intro m₄ h₄
    have h₅ : RecoveryFrame tid P m (m₄.setSenderId q 0) := h₄.of_same rfl rfl fun _ => rfl
    exact h₅.mark
  split at hrun
  · obtain ⟨m₄, hmap, hrun⟩ := Option.bind_eq_some_iff.mp hrun
    obtain ⟨p, hp, rfl⟩ := Option.map_eq_some_iff.mp hmap
    exact Option.some.inj hrun ▸ hlast _ (h₃.scanRing hp)
  · exact Option.some.inj hrun ▸ hlast _ h₃

theorem RecoveryFrame.receiverQueue (h : RecoveryFrame tid P m m₁) {u q : Nat}
    (hrun : recoveryReceiverQueue u fuel q m₁ = some m') : RecoveryFrame tid P m m' := by
  obtain ⟨p, hscan, rfl⟩ := Option.map_eq_some_iff.mp hrun
  exact (h.scanRing hscan).of_same rfl rfl fun _ => rfl

theorem RecoveryFrame.objPage (h : RecoveryFrame tid P m m₁) (hpg : P pg) (hrun : recoveryObjPage pg m₁ = some m') :
    RecoveryFrame tid P m m' := by
  unfold recoveryObjPage at hrun
  simp only at hrun
  have hclear : RecoveryFrame tid P m (if (m₁.page pg).free ≠ 0 then m₁.store ((m₁.page pg).free + 8) 0 else m₁) := by
    split
    · exact h.of_same rfl rfl fun _ => rfl
    · exact h
  generalize (if (m₁.page pg).free ≠ 0 then m₁.store ((m₁.page pg).free + 8) 0 else m₁) = m₂ at hrun hclear
  split at hrun
  · cases hrun
  · split at hrun
    · exact Option.some.inj hrun ▸ hclear.mark
    · exact Option.some.inj hrun ▸ hclear.freePage hpg

theorem RecoveryFrame.segmentFree (h : RecoveryFrame tid P m m₁) (hi : (m₁.sas i).threadId = tid) :
    RecoveryFrame tid P m (recoveryCxlSegmentFree i m₁) := by
  have hown : (m.sas i).threadId = tid := by
    rcases h.owner i with he | ⟨he, -⟩
    · exact he ▸ hi
    · exact he
  refine ⟨h.tls, fun pg' => ?_, fun k => ?_, fun k => ?_⟩
  · by_cases hk : pg'.1 = i
    · right
      rw [Shm.page, recoveryCxlSegmentFree]
      simp only [hk, Function.update_self]
      exact ⟨rfl, Or.inr hown⟩
    · have hpage : (recoveryCxlSegmentFree i m₁).page pg' = m₁.page pg' := by
        simp only [Shm.page, recoveryCxlSegmentFree, Function.update_of_ne hk]
      rw [hpage]
      exact h.page pg'
  · by_cases hk : k = i
    · subst hk
      refine Or.inr ⟨hown, ?_⟩
      simp only [recoveryCxlSegmentFree, Function.update_self]
    · have hsas : (recoveryCxlSegmentFree i m₁).sas k = m₁.sas k := Function.update_of_ne hk ..
      rw [hsas]
      exact h.owner k
  · by_cases hk : k = i
    · exact Or.inr (hk ▸ hown)
    · have hseg : (recoveryCxlSegmentFree i m₁).segment k = m₁.segment k := Function.update_of_ne hk ..
      rw [hseg]
      exact h.header k

theorem RecoveryFrame.segments (h : RecoveryFrame tid P m m₁) : RecoveryFrame tid P m (recoverySegments tid m₁) := by
  unfold recoverySegments
  generalize List.range maxSegmentNum = l
  induction l generalizing m₁ with
  | nil => exact h
  | cons i l ih =>
    rw [List.foldl_cons]
    apply ih
    split
    case isTrue hi => exact h.segmentFree hi.1
    case isFalse => exact h

theorem RecoveryFrame.senderQueues (h : RecoveryFrame tid P m m₁) {u : Nat}
    (hrun : recoverySenderQueues u fuel m₁ = some m') : RecoveryFrame tid P m m' :=
  walk_keeps (RecoveryFrame tid P m) (fun _ _ _ h₂ hq => h₂.senderQueue hq) hrun h

theorem RecoveryFrame.receiverQueues (h : RecoveryFrame tid P m m₁) {u : Nat}
    (hrun : recoveryReceiverQueues u fuel m₁ = some m') : RecoveryFrame tid P m m' :=
  walk_keeps (RecoveryFrame tid P m) (fun _ _ _ h₂ hq => h₂.receiverQueue hq) hrun h

theorem RecoveryFrame.resetTls (h : RecoveryFrame tid P m m₁) {id : Nat} (hrun : recoveryTls tid id m₁ = some m') :
    RecoveryFrame tid P m m' ∧ (m'.tls tid).packedMachineProcessId = 0 := by
  unfold recoveryTls at hrun
  split at hrun
  · rw [← Option.some.inj hrun]
    refine ⟨⟨fun u hu => ?_, h.page, h.owner, h.header⟩, ?_⟩
    · exact (Function.update_of_ne hu ..).trans (h.tls u hu)
    · simp only [Shm.setTls, Function.update_self, Tls.setId]
  · cases hrun

/-- **The recovery of a client, in whatever state**: the other slots stay, and its own is free. -/
theorem recoveryGarbageCollection_frame {id : Nat} (hrun : recoveryGarbageCollection fuel tid id m = some m') :
    RecoveryFrame tid (fun _ => True) m m' ∧ (m'.tls tid).packedMachineProcessId = 0 := by
  simp only [recoveryGarbageCollection, bind, Option.bind_eq_some_iff] at hrun
  obtain ⟨mA, hA, mB, hB, mC, hC, mD, hD, hend⟩ := hrun
  have fA : RecoveryFrame tid (fun _ => True) m mA :=
    walk_keeps (RecoveryFrame tid _ m) (fun _ _ _ h₂ hp => h₂.rootRefPage trivial hp) hA .refl
  have fC := (fA.senderQueues hB).receiverQueues hC
  have fD : RecoveryFrame tid (fun _ => True) m mD := by
    unfold recoveryObjPages at hD
    refine foldlM_keeps (RecoveryFrame tid _ m) (fun m₂ i m₃ h₂ hstep => ?_) hD fC
    exact walk_keeps (RecoveryFrame tid _ m) (fun _ _ _ h₃ hp => h₃.objPage trivial hp) hstep h₂
  exact fD.segments.resetTls hend

theorem redoRefCnt_frame (tid : Nat) (m : Shm) : RecoveryFrame tid P m (redoRefCnt tid m) := by
  unfold redoRefCnt
  simp only
  split
  · exact .refl
  · split
    · exact RecoveryFrame.refl.of_same rfl rfl fun _ => rfl
    · exact .refl
  · have hstore : RecoveryFrame tid P m
        (if needRedo m tid (newestRedo m tid) then m.store (newestRedo m tid).ref 0 else m) := by
      split
      · exact RecoveryFrame.refl.of_same rfl rfl fun _ => rfl
      · exact .refl
    split
    · exact hstore.mark
    · exact hstore

end Frame

/-! ## §3 — a pass of the monitor -/

section Pass

variable {fuel t u i : Nat} {m m₁ m' : Shm} {l : List Nat}

/-- What one slot leaves of the ids and the metadata. -/
structure SlotDone (m m' : Shm) (t : Nat) : Prop where
  own : (m'.tls t).packedMachineProcessId = 0
  tls : ∀ u, u ≠ t → m'.tls u = m.tls u
  page : ∀ pg, m'.page pg = m.page pg ∨ m'.page pg = Page.zero

theorem recoverClient_done (hrun : recoverClient fuel m t = some m') : SlotDone m m' t := by
  unfold recoverClient at hrun
  simp only at hrun
  split at hrun
  case isTrue =>
    obtain ⟨hframe, hown⟩ := recoveryGarbageCollection_frame hrun
    have hredo : RecoveryFrame t (fun _ => True) m (redoRefCnt t m) := redoRefCnt_frame t m
    refine ⟨hown, fun u hu => (hframe.tls u hu).trans (hredo.tls u hu), fun pg => ?_⟩
    rcases hframe.page pg with he | ⟨he, -⟩
    · rw [he]
      exact (hredo.page pg).imp_right And.left
    · exact Or.inr he
  case isFalse hid =>
    rw [← Option.some.inj hrun]
    exact ⟨by simpa [checkTls] using hid, fun _ _ => rfl, fun _ => Or.inl rfl⟩

/-- The first loop frees every slot. -/
theorem recoverClients_done (hrun : recoverClients fuel m = some m') :
    (∀ t, 1 ≤ t → t ≤ maxThread → (m'.tls t).packedMachineProcessId = 0) ∧
      ∀ pg, m'.page pg = m.page pg ∨ m'.page pg = Page.zero := by
  have hgo : ∀ (l : List Nat) (m₁ : Shm), l.foldlM (recoverClient fuel) m₁ = some m' →
      (∀ pg, m₁.page pg = m.page pg ∨ m₁.page pg = Page.zero) →
      (∀ t, 1 ≤ t → t ≤ maxThread → t ∈ l ∨ (m₁.tls t).packedMachineProcessId = 0) →
      (∀ t, 1 ≤ t → t ≤ maxThread → (m'.tls t).packedMachineProcessId = 0) ∧
        ∀ pg, m'.page pg = m.page pg ∨ m'.page pg = Page.zero := by
    intro l
    induction l with
    | nil =>
      intro m₁ hrun hpage hid
      obtain rfl := Option.some.inj hrun
      exact ⟨fun t h₁ h₂ => (hid t h₁ h₂).resolve_left List.not_mem_nil, hpage⟩
    | cons u l ih =>
      intro m₁ hrun hpage hid
      rw [List.foldlM_cons] at hrun
      obtain ⟨m₂, hstep, hrest⟩ := Option.bind_eq_some_iff.mp hrun
      have hdone := recoverClient_done hstep
      refine ih m₂ hrest (fun pg => ?_) fun t h₁ h₂ => ?_
      · rcases hdone.page pg with he | he
        · rw [he]
          exact hpage pg
        · exact Or.inr he
      · by_cases htu : t = u
        · exact Or.inr (htu ▸ hdone.own)
        · rw [hdone.tls t htu]
          exact (hid t h₁ h₂).imp_left fun hmem => (List.mem_cons.mp hmem).resolve_left htu
  refine hgo slotIds m hrun (fun _ => Or.inl rfl) fun t h₁ h₂ => Or.inl ?_
  rw [slotIds, List.mem_range'_1]
  omega

theorem RoomyPages.of_pages (hroom : RoomyPages m) (hpage : ∀ pg, m'.page pg = m.page pg ∨ m'.page pg = Page.zero) :
    RoomyPages m' := by
  intro pg hpg hbs
  rcases hpage pg with he | he
  · rw [he] at hbs ⊢
    exact hroom pg hpg hbs
  · rw [he] at hbs
    exact absurd rfl hbs

theorem checkRecovery_iff : checkRecovery m = true ↔
    (∀ t, 1 ≤ t → t ≤ maxThread → (m.tls t).packedMachineProcessId = 0) ∧
      ∀ i < maxSegmentNum, (m.sas i).threadId = 0 := by
  unfold checkRecovery
  rw [Bool.and_eq_true, List.all_eq_true, List.all_eq_true]
  simp only [decide_eq_true_eq, List.mem_range, slotIds, List.mem_range'_1]
  refine and_congr_left fun _ => ⟨fun h t h₁ h₂ => h t ⟨h₁, by omega⟩, fun h t ht => h t ht.1 (by omega)⟩

/-- The first loop passes over free slots. -/
theorem recoverClient_idle (hl : ∀ t ∈ l, (m.tls t).packedMachineProcessId = 0) :
    l.foldlM (recoverClient fuel) m = some m := by
  induction l with
  | nil => rfl
  | cons t l ih =>
    have hskip : recoverClient fuel m t = some m := by
      simp [recoverClient, checkTls, hl t List.mem_cons_self]
    rw [List.foldlM_cons, hskip]
    exact ih fun u hu => hl u (List.mem_cons_of_mem _ hu)

/-- Between passes, with nobody registering: every slot is free, and what is claimed has been gone through. -/
structure PassedOver (m : Shm) : Prop where
  free : ∀ t, 1 ≤ t → t ≤ maxThread → (m.tls t).packedMachineProcessId = 0
  roomy : RoomyPages m
  swept : ∃ m₀, RoomyPages m₀ ∧ Swept m₀ m

theorem PassedOver.pass (h : PassedOver m) (fuel : Nat) :
    singleRecoveryLoop fuel m = some (scanSegments m) ∧ PassedOver (scanSegments m) ∧ (scanSegments m).sas = m.sas := by
  have hswept := scanSegments_swept h.roomy
  have hidle : recoverClients fuel m = some m := by
    apply recoverClient_idle
    intro t ht
    rw [slotIds, List.mem_range'_1] at ht
    exact h.free t ht.1 (by omega)
  obtain ⟨m₀, hroom₀, hswept₀⟩ := h.swept
  refine ⟨?_, ⟨fun t h₁ h₂ => ?_, hswept.scanned.roomy h.roomy, m, h.roomy, hswept⟩, hswept₀.again hswept hroom₀⟩
  · rw [singleRecoveryLoop, hidle]
    rfl
  · rw [hswept.scanned.tls]
    exact h.free t h₁ h₂

theorem PassedOver.passes (h : PassedOver m) (fuel n : Nat) : ∃ m', recoveryLoop fuel n m = some m' ∧ m'.sas = m.sas := by
  induction n generalizing m with
  | zero => exact ⟨m, rfl, rfl⟩
  | succ n ih =>
    obtain ⟨hrun, hset, hsas⟩ := h.pass fuel
    obtain ⟨m', hrest, hsas'⟩ := ih hset
    refine ⟨m', ?_, hsas'.trans hsas⟩
    rw [recoveryLoop, hrun]
    exact hrest

/-- **A pass of the monitor**: all slots are free afterwards, the segments given back are those in which the recovery
of the clients left nothing alive, `check_recovery` says whether that is all of them, and further passes give nothing
more back. -/
theorem singleRecoveryLoop_exact (hroom : RoomyPages m) (hrun : singleRecoveryLoop fuel m = some m') :
    ∃ m₁, recoverClients fuel m = some m₁ ∧ Swept m₁ m' ∧
      (∀ t, 1 ≤ t → t ≤ maxThread → (m'.tls t).packedMachineProcessId = 0) ∧
      (checkRecovery m' = true ↔ ∀ i < maxSegmentNum, (m₁.sas i).threadId ≠ 0 → ¬ LiveSegment m₁ i) ∧
      ∀ fuel' n, ∃ m'', recoveryLoop fuel' n m' = some m'' ∧ m''.sas = m'.sas := by
  obtain ⟨m₁, hclients, rfl⟩ := Option.map_eq_some_iff.mp hrun
  obtain ⟨hid, hpage⟩ := recoverClients_done hclients
  have hroom₁ := hroom.of_pages hpage
  have hswept := scanSegments_swept hroom₁
  have hid' : ∀ t, 1 ≤ t → t ≤ maxThread → ((scanSegments m₁).tls t).packedMachineProcessId = 0 := by
    rw [hswept.scanned.tls]
    exact hid
  refine ⟨m₁, hclients, hswept, hid', checkRecovery_iff.trans ⟨fun h i hi hown hlive => ?_, fun h => ⟨hid', ?_⟩⟩, ?_⟩
  · exact (hswept.claimed_iff hi).mpr ⟨hown, hlive⟩ (h.2 i hi)
  · intro i hi
    by_contra hn
    obtain ⟨hown, hlive⟩ := (hswept.claimed_iff hi).mp hn
    exact h i hi hown hlive
  · have hset : PassedOver (scanSegments m₁) := ⟨hid', hswept.scanned.roomy hroom₁, m₁, hroom₁, hswept⟩
    exact fun fuel' n => hset.passes fuel' n

/-- Client 1 has crashed with an object it shares with client 2. -/
theorem singleRecoveryLoop_exact_shared : ∃ m' m₁, singleRecoveryLoop 40 sharedCrash = some m' ∧
    recoverClients 40 sharedCrash = some m₁ ∧ Swept m₁ m' ∧ (m'.tls 1).packedMachineProcessId = 0 := by
  obtain ⟨m₂, hgc, -⟩ := sharedCrash_crashed.recovered (show sharedWorld.fuelBound < 40 by decide)
  have hredo : redoRefCnt 1 sharedCrash = sharedCrash := rfl
  have hfirst : recoverClient 40 sharedCrash 1 = some m₂ := by
    rw [← hgc, recoverClient, hredo]
    rfl
  have hdone := recoverClient_done hfirst
  have hclients : recoverClients 40 sharedCrash = some m₂ := by
    rw [recoverClients, slotIds, maxThread, List.range'_succ, List.foldlM_cons, hfirst]
    apply recoverClient_idle
    intro t ht
    have hne : t ≠ 1 := by
      have := (List.mem_range'_1.mp ht).1
      omega
    rw [hdone.tls t hne]
    exact if_neg hne
  have hroom : RoomyPages sharedCrash := by
    have hfirst : ∀ j, (sharedPage j).Roomy := by
      intro j
      unfold sharedPage
      split
      · exact fun _ => show sizeofRootRef ≤ 16 by decide
      · split
        · exact fun _ => show sizeofRootRef ≤ 32 by decide
        · split
          · exact fun _ => show sizeofMessageQueue ≤ 192 by decide
          · exact fun hbs => absurd rfl hbs
    rintro ⟨i, j⟩ -
    show ((if i = 0 then ⟨1, 3, sharedPage⟩ else if i = 1 then ⟨2, 1, fun _ => Page.zero⟩ else Segment.zero :
      Segment).metaPage j).Roomy
    split
    · exact hfirst j
    · split
      · exact fun hbs => absurd rfl hbs
      · exact fun hbs => absurd rfl hbs
  have hrun : singleRecoveryLoop 40 sharedCrash = some (scanSegments m₂) := by
    rw [singleRecoveryLoop, hclients]
    rfl
  obtain ⟨m₁, hm₁, hswept, hid, -⟩ := singleRecoveryLoop_exact hroom hrun
  exact ⟨_, m₁, hrun, hm₁, hswept, hid 1 (by decide) (by decide)⟩

end Pass

end CxlShm
