import CxlShm.RecoveryRoots
import CxlShm.RecoveryQueues

/-! # RecoveryExact — recovery of one crashed client

The object pages and segments of the client, and the whole of `recovery_garbage_collection`: counts
equal the remaining slots, nothing of the client is left in a slot, and no segment with a live object
or a queue is given back.
-/

namespace CxlShm

open SlotCount Loop

variable {W : CrashWorld} {tid id fuel : Nat} {m₀ m : Shm}

/-! ## §1 — the object pages -/

def bins : List Nat := List.range' 2 (cxlBinSize - 2)

/-- The stamp at the head of a page's free list. -/
def HeadStamp (W : CrashWorld) (m : Shm) (w : Nat) : Prop :=
  ∃ i ∈ bins, ∃ pg ∈ W.binPages i, (m.page pg).free ≠ 0 ∧ w = (m.page pg).free + 8

/-- A live object lies on the page. -/
def Inhabited (W : CrashWorld) (m₀ m : Shm) (pg : Nat × Nat) : Prop :=
  ∃ o ∈ W.objs, o ∈ pageBlocks pg (m₀.page pg).blockSize ∧ m.refCnt o ≠ 0

/-- Stage invariant with the pages `left` to go. -/
structure PageInv (W : CrashWorld) (m₀ : Shm) (left : List (Nat × Nat)) (m : Shm) : Prop where
  heap : ∀ w, W.Touches w → m.word w = m₀.word w
  era : EraBounded m
  kept : Kept W (HeadStamp W m₀) m₀ m
  page : ∀ pg ∈ left, m.page pg = m₀.page pg
  done : ∀ i ∈ bins, ∀ pg ∈ W.binPages i, pg ∉ left → Inhabited W m₀ m pg →
    (m.sas pg.1).state = .abandon

theorem Shm.refCnt_of_touches (h : ∀ w, W.Touches w → m.word w = m₀.word w) {o : Nat}
    (ho : o ∈ W.objs) : m.refCnt o = m₀.refCnt o :=
  Shm.refCnt_of_header fun j hj => h _ (Or.inr ⟨o, ho, j, hj, rfl⟩)

/-- **One object page.** -/
theorem PageInv.page_step {i : Nat} {pg : Nat × Nat} {left : List (Nat × Nat)}
    (h : PageInv W m₀ (pg :: left) m) (hi : i ∈ bins) (hpg : pg ∈ W.binPages i) (hnot : pg ∉ left)
    (hsize : (m₀.page pg).blockSize ≠ 0)
    (hhead : (m₀.page pg).free ≠ 0 → ¬ W.Touches ((m₀.page pg).free + 8)) :
    ∃ m', recoveryObjPage pg m = some m' ∧ PageInv W m₀ left m' := by
  have hpage := h.page pg List.mem_cons_self
  -- the store to the head of the free list
  let m₁ := if (m.page pg).free ≠ 0 then m.store ((m.page pg).free + 8) 0 else m
  have hm₁ : PageInv W m₀ (pg :: left) m₁ := by
    by_cases hf : (m.page pg).free ≠ 0
    · have hm : m₁ = m.store ((m.page pg).free + 8) 0 := if_pos hf
      rw [hm]
      rw [hpage] at hf ⊢
      have hheap : ∀ w, W.Touches w → (m.store ((m₀.page pg).free + 8) 0).word w = m.word w := by
        intro w hw
        refine Function.update_of_ne ?_ ..
        rintro rfl
        exact hhead hf hw
      refine ⟨fun w hw => (hheap w hw).trans (h.heap w hw), h.era, ?_, h.page, ?_⟩
      · refine h.kept.trans (Y := HeadStamp W m₀) ?_ (fun _ h => h) fun _ h => h
        refine Kept.write rfl (fun _ => rfl) (fun _ => Or.inl rfl) (fun _ => rfl) ?_ fun w _ => hheap w
        intro w hw
        refine Function.update_of_ne ?_ ..
        rintro rfl
        exact hw ⟨i, hi, pg, hpg, hf, rfl⟩
      · intro i' hi' pg' hpg' hn hin
        refine h.done i' hi' pg' hpg' hn ?_
        obtain ⟨o, ho, hb, hc⟩ := hin
        exact ⟨o, ho, hb, by rwa [Shm.refCnt_of_touches hheap ho] at hc⟩
    · have hm : m₁ = m := if_neg hf
      rw [hm]
      exact h
  have hp₁ := hm₁.page pg List.mem_cons_self
  have hleft : ∀ {i' : Nat} {pg' : Nat × Nat}, i' ∈ bins → pg' ∈ W.binPages i' → pg' ∉ left →
      pg' ≠ pg → Inhabited W m₀ m₁ pg' → (m₁.sas pg'.1).state = .abandon := by
    intro i' pg' hi' hpg' hn hne hin
    exact hm₁.done i' hi' pg' hpg' (by simp [hne, hn]) hin
  unfold recoveryObjPage
  simp only [hpage, if_neg hsize]
  by_cases halive : pageAlive pg (m₀.page pg).blockSize m₁ = true
  · refine ⟨m₁.setSegmentState pg.1 .abandon, ?_, ?_⟩
    · rw [← hpage] at halive ⊢
      exact if_pos halive
    · have hkept : Kept W (HeadStamp W m₀) m₁ (m₁.setSegmentState pg.1 .abandon) := Kept.setAbandon
      refine ⟨hm₁.heap, hm₁.era, hm₁.kept.trans hkept (fun _ h => h) fun _ h => h,
        fun p hp => hm₁.page p (List.mem_cons_of_mem _ hp), ?_⟩
      intro i' hi' pg' hpg' hn hin
      by_cases hne : pg' = pg
      · subst hne
        simp [Shm.setSegmentState]
      · exact hkept.abandon (hleft hi' hpg' hn hne hin)
  · refine ⟨m₁.setPage pg Page.zero, ?_, ?_⟩
    · rw [← hpage] at halive ⊢
      exact if_neg halive
    · refine ⟨hm₁.heap, hm₁.era, ?_, ?_, ?_⟩
      · exact hm₁.kept.trans Kept.setPage (fun _ h => h) fun _ h => h
      · intro p hp
        have hne : p ≠ pg := fun he => hnot (he ▸ hp)
        rw [Shm.page_setPage, if_neg hne]
        exact hm₁.page p (List.mem_cons_of_mem _ hp)
      · intro i' hi' pg' hpg' hn hin
        by_cases hne : pg' = pg
        · -- a page with a live object is alive
          subst hne
          obtain ⟨o, -, hb, hc⟩ := hin
          refine absurd ?_ halive
          exact List.any_eq_true.mpr ⟨o, hb, decide_eq_true (Nat.pos_of_ne_zero hc)⟩
        · exact hleft hi' hpg' hn hne hin

/-- The object pages of the bins `l`. -/
def binList (W : CrashWorld) (l : List Nat) : List (Nat × Nat) := l.flatMap W.binPages

/-- **The object pages.** -/
theorem recoveryObjPages_exact (tid fuel : Nat) (hera : EraBounded m₀)
    (hc : ∀ i ∈ bins, Chained (fun pg => (m₀.page pg).next) ((m₀.tls tid).pages i).first (W.binPages i))
    (hsize : ∀ i ∈ bins, ∀ pg ∈ W.binPages i, (m₀.page pg).blockSize ≠ 0)
    (hhead : ∀ i ∈ bins, ∀ pg ∈ W.binPages i, (m₀.page pg).free ≠ 0 →
      ¬ W.Touches ((m₀.page pg).free + 8))
    (hlen : ∀ i ∈ bins, (W.binPages i).length < fuel) :
    ∃ m', recoveryObjPages tid fuel m₀ = some m' ∧ PageInv W m₀ [] m' := by
  have hnd : (binList W bins).Nodup := (List.nodup_append'.mp W.pages_nodup).2.1
  obtain ⟨m', hrun, -, -, hinv⟩ := foldlM_rule (l := bins) (s := m₀)
    (f := fun m i => walk (fun m pg => (m.page pg).next) recoveryObjPage fuel
      ((m.tls tid).pages i).first m)
    (fun l s => (∀ i ∈ l, i ∈ bins) ∧ (binList W l).Nodup ∧ PageInv W m₀ (binList W l) s)
    (by
      rintro i l s ⟨hsub, hnd, hs⟩
      have hi := hsub i List.mem_cons_self
      have hsplit : binList W (i :: l) = W.binPages i ++ binList W l := List.flatMap_cons
      rw [hsplit] at hnd hs
      have hchain : Chained (fun pg => (s.page pg).next) ((s.tls tid).pages i).first (W.binPages i) := by
        rw [hs.kept.tls]
        refine (hc i hi).congr fun pg hpg => ?_
        rw [hs.page pg (List.mem_append_left _ hpg)]
      -- the pages of one bin
      obtain ⟨s', hrun, -, -, hinv⟩ := walk_chain (s := s) (l := W.binPages i)
        (fun m pg => (m.page pg).next) (recoveryObjPage)
        (fun r t => (∀ pg ∈ r, pg ∈ W.binPages i) ∧ (r ++ binList W l).Nodup ∧
          PageInv W m₀ (r ++ binList W l) t)
        (by
          rintro pg r t ⟨hin, hnd', ht⟩
          rw [List.cons_append] at hnd' ht
          obtain ⟨hnot, hnd'⟩ := List.nodup_cons.mp hnd'
          have hpg := hin pg List.mem_cons_self
          obtain ⟨t', ht', hinv⟩ := ht.page_step hi hpg hnot (hsize i hi pg hpg) (hhead i hi pg hpg)
          refine ⟨t', ht', ⟨fun p hp => hin p (List.mem_cons_of_mem _ hp), hnd', hinv⟩, ?_⟩
          intro p hp
          rw [hinv.page p (List.mem_append_left _ hp),
            ht.page p (List.mem_cons_of_mem _ (List.mem_append_left _ hp))])
        (hlen i hi) hchain ⟨fun _ h => h, hnd, hs⟩
      refine ⟨s', hrun, fun j hj => hsub j (List.mem_cons_of_mem _ hj), (List.nodup_append'.mp hnd).2.1,
        hinv⟩)
    ⟨fun _ h => h, hnd, fun _ _ => rfl, hera, Kept.refl, fun _ _ => rfl, fun i hi pg hpg hn =>
      absurd (List.mem_flatMap.mpr ⟨i, hi, hpg⟩) hn⟩
  exact ⟨m', hrun, hinv⟩

/-! ## §2 — the segments -/

/-- What giving segments back leaves alone. -/
structure SegmentInv (tid : Nat) (m m' : Shm) : Prop where
  word : m'.word = m.word
  tls : m'.tls = m.tls
  eraCell : m'.eraCell = m.eraCell
  kept : ∀ i, (m.sas i).threadId ≠ tid ∨ (m.sas i).state = .abandon →
    m'.sas i = m.sas i ∧ m'.segment i = m.segment i

theorem recoverySegments_inv (tid : Nat) (m : Shm) : SegmentInv tid m (recoverySegments tid m) := by
  unfold recoverySegments
  generalize List.range maxSegmentNum = l
  induction l generalizing m with
  | nil => exact ⟨rfl, rfl, rfl, fun _ _ => ⟨rfl, rfl⟩⟩
  | cons j l ih =>
    rw [List.foldl_cons]
    have h := ih (if (m.sas j).threadId = tid ∧ (m.sas j).state ≠ .abandon then
      recoveryCxlSegmentFree j m else m)
    split at h
    case isTrue hj =>
      rw [if_pos hj]
      refine ⟨h.word, h.tls, h.eraCell, fun i hi => ?_⟩
      have hij : i ≠ j := by
        rintro rfl
        rcases hi with hi | hi
        · exact hi hj.1
        · exact hj.2 hi
      have hsas : (recoveryCxlSegmentFree j m).sas i = m.sas i := Function.update_of_ne hij ..
      have hseg : (recoveryCxlSegmentFree j m).segment i = m.segment i := Function.update_of_ne hij ..
      obtain ⟨h₁, h₂⟩ := h.kept i (by rw [hsas]; exact hi)
      exact ⟨h₁.trans hsas, h₂.trans hseg⟩
    case isFalse hj =>
      rw [if_neg hj]
      exact h

/-! ## §3 — the whole collection -/

namespace CrashWorld

/-- The slots that are left: those of everybody else, the entries of the queues, and the embedded
references of live objects. -/
def remaining (W : CrashWorld) (m : Shm) : Finset Nat :=
  W.others ∪ W.queues.biUnion queueEntries ∪ (W.objs.filter fun o => m.refCnt o ≠ 0).biUnion W.embedded

/-- Enough for every recursion, ring and list of the collection. -/
def fuelBound (W : CrashWorld) : Nat :=
  W.objs.card + W.embBound + messageBufferSize + W.rootPages.length + W.senders.length +
    W.receivers.length + (binList W bins).length

theorem binPages_length_le (W : CrashWorld) {i : Nat} (hi : i ∈ bins) :
    (W.binPages i).length ≤ (binList W bins).length := by
  unfold binList
  obtain ⟨l₁, l₂, hl⟩ := List.append_of_mem hi
  rw [hl, List.flatMap_append, List.flatMap_cons, List.length_append, List.length_append]
  omega

/-- The slots recovery releases: the RootRefs of the client, the entries it has not published and those
nobody is attached to receive, and the entries published to it. -/
def Dropped (W : CrashWorld) (m : Shm) (a : Nat) : Prop :=
  a ∈ W.rootRefs ∨
  (∃ q ∈ W.senders, ∃ k < messageBufferSize, a = bufferSlot q k ∧ SenderDrops m q k) ∨
  ∃ q ∈ W.receivers, ∃ k < messageBufferSize, a = bufferSlot q k ∧ Published m q k

/-- An entry published to a receiver that is attached and has not crashed is not dropped. -/
theorem not_dropped_published {W : CrashWorld} {m : Shm} {q k : Nat} (hq : q ∈ W.queues) (hn : q ∉ W.receivers)
    (hr : m.receiverId q ≠ 0) (hk : k < messageBufferSize) (hp : Published m q k) :
    ¬ W.Dropped m (bufferSlot q k) := by
  rintro (hroot | ⟨q', hq', k', hk', he, hd⟩ | ⟨q', hq', k', hk', he, -⟩)
  · -- a RootRef lies in a page of RootRefs, a queue does not
    obtain ⟨pg, hpg, hb⟩ := W.rootRef_block _ (Finset.mem_union_left _ hroot)
    have hbounds := pageBlocks_bounds hb
    have hapart := W.rootPage_queue pg hpg q hq
    simp only [Apart, bufferSlot, messageQueueFields, messageBufferSize] at *
    omega
  · obtain ⟨rfl, rfl⟩ := bufferSlot_inj hq (W.senders_mem q' hq').1 hk hk' he
    rcases hd with hd | hd
    · exact hd hp
    · exact hr hd
  · obtain ⟨rfl, -⟩ := bufferSlot_inj hq (W.receivers_mem q' hq').1 hk hk' he
    exact hn hq'

end CrashWorld

/-- What recovery of the client `tid` leaves. Every slot but the dropped ones keeps its word, and so does
every entry published to a survivor. -/
structure Recovered (W : CrashWorld) (tid : Nat) (m m' : Shm) : Prop where
  exact : HeapExact W.toObjHeap m'
  count : ∀ o ∈ W.objs, m'.refCnt o = holding (W.remaining m') m'.word o
  rootRef : ∀ pg ∈ W.rootPages, ∀ b ∈ pageBlocks pg 16, m'.inUse b = 0
  rootRef_zero : ∀ b ∈ W.rootRefs, m'.word b = 0
  sent : ∀ q ∈ W.queues, m.senderId q = tid → ∀ k < messageBufferSize, SenderDrops m q k →
    m'.word (bufferSlot q k) = 0
  received : ∀ q ∈ W.queues, m.receiverId q = tid → ∀ k < messageBufferSize, Published m q k →
    m'.word (bufferSlot q k) = 0
  survivor : ∀ a ∈ W.roots, ¬ W.Dropped m a → m'.word a = m.word a
  published : ∀ q ∈ W.queues, q ∉ W.receivers → m.receiverId q ≠ 0 → ∀ k < messageBufferSize,
    Published m q k → m'.word (bufferSlot q k) = m.word (bufferSlot q k)
  objSegment : ∀ o ∈ W.objs, m'.refCnt o ≠ 0 →
    (m'.sas (segmentIdx o)).threadId = (m.sas (segmentIdx o)).threadId
  queueSegment : ∀ q ∈ W.queues, (m'.sas (segmentIdx q)).threadId = (m.sas (segmentIdx q)).threadId
  slotId : (m'.tls tid).packedMachineProcessId = 0

/-- Counting the remaining slots instead of all of them. -/
theorem HeapExact.holding_remaining (h : HeapExact W.toObjHeap m) (hz : ∀ b ∈ W.rootRefs, m.word b = 0)
    {o : Nat} (ho : o ∈ W.objs) : m.refCnt o = holding (W.remaining m) m.word o := by
  have hne : (0 : Nat) ≠ o := (HeapExact.ne_zero ho).symm
  rw [h.count o ho, ← ObjHeap.holding_liveSlots h.dead ho]
  symm
  refine holding_of_subset ?_ ?_
  · refine Finset.union_subset_union_left ?_
    intro a ha
    rcases Finset.mem_union.mp ha with ha | ha
    · exact CrashWorld.other_mem ha
    · obtain ⟨q, hq, hk⟩ := Finset.mem_biUnion.mp ha
      obtain ⟨k, hlt, rfl⟩ := mem_queueEntries.mp hk
      exact CrashWorld.entry_mem hq hlt
  · intro a ha hnot hw
    rcases Finset.mem_union.mp ha with hr | he
    · rcases CrashWorld.root_cases hr with hr | ⟨q, hq, k, hk, rfl⟩ | hoth
      · rw [hz a hr] at hw
        exact hne hw
      · refine hnot (Finset.mem_union_left _ (Finset.mem_union_right _ ?_))
        exact Finset.mem_biUnion.mpr ⟨q, hq, mem_queueEntries.mpr ⟨k, hk, rfl⟩⟩
      · exact hnot (Finset.mem_union_left _ (Finset.mem_union_left _ hoth))
    · exact hnot (Finset.mem_union_right _ he)

/-- The entries recovery drops are told from the fields of the queue. -/
theorem Kept.senderDrops {X : Nat → Prop} (hk : Kept W X m₀ m) {q : Nat}
    (hq : q ∈ W.queues) (hX : ∀ j < 5, ¬ X (q + 8 * j)) (k : Nat) :
    (SenderDrops m q k ↔ SenderDrops m₀ q k) ∧ (Published m q k ↔ Published m₀ q k) := by
  have hw : ∀ j < 5, m.word (q + 8 * j) = m₀.word (q + 8 * j) := fun j hj =>
    hk.word _ (CrashWorld.queueWord_not_touches hq hj) (hX j hj)
  have h0 : m.queueStart q = m₀.queueStart q := hw 0 (by decide)
  have h1 : m.queueEnd q = m₀.queueEnd q := hw 1 (by decide)
  have h2 : m.receiverId q = m₀.receiverId q := by
    unfold Shm.receiverId
    rw [hw 2 (by decide)]
  unfold SenderDrops Published
  rw [h0, h1, h2]
  exact ⟨Iff.rfl, Iff.rfl⟩

theorem recoveryGarbageCollection_eq {mA mB mC mD : Shm}
    (hA : recoveryRootRefPages tid fuel m = some mA) (hB : recoverySenderQueues tid fuel mA = some mB)
    (hC : recoveryReceiverQueues tid fuel mB = some mC) (hD : recoveryObjPages tid fuel mC = some mD) :
    recoveryGarbageCollection fuel tid id m = recoveryTls tid id (recoverySegments tid mD) := by
  unfold recoveryGarbageCollection
  rw [hA, Option.bind_eq_bind, Option.bind_some, hB, Option.bind_some, hC, Option.bind_some, hD,
    Option.bind_some]

theorem RootInv.queueWord {left : List Nat} {pages : List (Nat × Nat)} (h : RootInv W m₀ left pages m) {q j : Nat}
    (hq : q ∈ W.queues) (hj : j < 5) : m.word (q + 8 * j) = m₀.word (q + 8 * j) :=
  h.kept.word _ (CrashWorld.queueWord_not_touches hq hj) (CrashWorld.queueWord_not_inRootPage hq hj)

theorem RootInv.queueStart {left : List Nat} {pages : List (Nat × Nat)} (h : RootInv W m₀ left pages m) {q : Nat}
    (hq : q ∈ W.queues) : m.queueStart q = m₀.queueStart q :=
  h.queueWord (j := 0) hq (by decide)

theorem RootInv.queueEnd {left : List Nat} {pages : List (Nat × Nat)} (h : RootInv W m₀ left pages m) {q : Nat}
    (hq : q ∈ W.queues) : m.queueEnd q = m₀.queueEnd q :=
  h.queueWord (j := 1) hq (by decide)

/-- The entries recovery drops are the same after the RootRefs. -/
theorem RootInv.dropped {left : List Nat} {pages : List (Nat × Nat)} (h : RootInv W m₀ left pages m) {q : Nat}
    (hq : q ∈ W.queues) (k : Nat) :
    (SenderDrops m q k ↔ SenderDrops m₀ q k) ∧ (Published m q k ↔ Published m₀ q k) :=
  h.kept.senderDrops hq (fun _ hj => CrashWorld.queueWord_not_inRootPage hq hj) k

/-- The areas between the stages of `recovery_garbage_collection`, from the crash up to the segments. -/
structure Stages (W : CrashWorld) (tid : Nat) (m mA mB mC mD mE : Shm) : Prop where
  rootRefs : RootInv W m [] [] mA
  senders : SendInv W mA [] mB
  receivers : ReceiveInv W mB [] mC
  objPages : PageInv W mC [] mD
  segments : SegmentInv tid mD mE

section Stages

variable {mA mB mC mD mE : Shm}

/-- The metadata of the object pages are as the crash left them. -/
theorem objPage_kept (hA : RootInv W m [] [] mA) (hB : SendInv W mA [] mB) (hC : ReceiveInv W mB [] mC) {i : Nat}
    (hi : i ∈ bins) {pg : Nat × Nat} (hpg : pg ∈ W.binPages i) : mC.page pg = m.page pg := by
  have hnot : pg ∉ W.rootPages := fun hr => (List.nodup_append'.mp W.pages_nodup).2.2 hr
    (List.mem_flatMap.mpr ⟨i, hi, hpg⟩)
  have hseg : mC.segment = mA.segment := hC.segment.trans hB.segment
  unfold Shm.page
  rw [hseg]
  exact hA.page pg (Or.inl hnot)

/-- **Every stage ends**, with its invariant. -/
theorem Crashed.stages (hc : Crashed W tid id m) (hfuel : W.fuelBound < fuel) :
    ∃ mA mB mC mD mE, Stages W tid m mA mB mC mD mE ∧
      recoveryGarbageCollection fuel tid id m = some (mE.setTls tid ((mE.tls tid).resetQueues.setId 0)) := by
  have hf : W.objs.card + W.embBound < fuel := by unfold CrashWorld.fuelBound at hfuel; omega
  have hring : messageBufferSize < fuel := by unfold CrashWorld.fuelBound at hfuel; omega
  have hidX : ∀ w, QueueIds W w → QueueIds W w := fun _ h => h
  obtain ⟨mA, hrunA, hA⟩ := recoveryRootRefPages_exact hc hf
    (by unfold CrashWorld.fuelBound at hfuel; omega)
  have hringA : ∀ q ∈ W.queues, mA.queueStart q < messageBufferSize ∧
      mA.queueEnd q < messageBufferSize := by
    intro q hq
    rw [hA.queueStart hq, hA.queueEnd hq]
    exact hc.ring q hq
  -- queues it sends on
  have hchainB : Chained (fun q => linkPtr (mA.senderNext q)) (linkPtr (mA.tls tid).senderQueue)
      W.senders := by
    rw [hA.kept.tls]
    refine hc.senderChain.congr fun q hq => ?_
    rw [show mA.senderNext q = m.senderNext q from hA.queueWord (j := 3) (W.senders_mem q hq).1 (by decide)]
  obtain ⟨mB, hrunB, hB⟩ := recoverySenderQueues_exact hc.tid_lt hf hring hA.exact hA.era hchainB hringA
    (by unfold CrashWorld.fuelBound at hfuel; omega)
  -- queues it receives on
  have hchainC : Chained (fun q => linkPtr (mB.receiverNext q)) (linkPtr (mB.tls tid).receiverQueue)
      W.receivers := by
    rw [hB.kept.tls, hA.kept.tls]
    refine hc.receiverChain.congr fun q hq => ?_
    have hqm := (W.receivers_mem q hq).1
    rw [hB.kept.receiverNext hqm hidX,
      show mA.receiverNext q = m.receiverNext q from hA.queueWord (j := 4) hqm (by decide)]
  have hringB : ∀ q ∈ W.queues, mB.queueStart q < messageBufferSize ∧
      mB.queueEnd q < messageBufferSize := by
    intro q hq
    rw [hB.kept.queueStart hq hidX, hB.kept.queueEnd hq hidX]
    exact hringA q hq
  obtain ⟨mC, hrunC, hC⟩ := recoveryReceiverQueues_exact hc.tid_lt hf hring hB.exact hB.era hchainC hringB
    (by unfold CrashWorld.fuelBound at hfuel; omega)
  -- object pages
  have hpageC : ∀ i ∈ bins, ∀ pg ∈ W.binPages i, mC.page pg = m.page pg := fun i hi pg hpg =>
    objPage_kept hA hB hC hi hpg
  have htlsC : mC.tls = m.tls := by rw [hC.kept.tls, hB.kept.tls, hA.kept.tls]
  have hchainD : ∀ i ∈ bins, Chained (fun pg => (mC.page pg).next) ((mC.tls tid).pages i).first (W.binPages i) := by
    intro i hi
    rw [htlsC]
    refine (hc.binChain i hi).congr fun pg hpg => ?_
    rw [hpageC i hi pg hpg]
  obtain ⟨mD, hrunD, hD⟩ := recoveryObjPages_exact tid fuel hC.era hchainD
    (fun i hi pg hpg => by rw [hpageC i hi pg hpg]; exact hc.binSize i hi pg hpg)
    (fun i hi pg hpg => by rw [hpageC i hi pg hpg]; exact fun h0 => (hc.freeHead i hi pg hpg h0).1)
    (fun i hi => by
      have := W.binPages_length_le hi
      unfold CrashWorld.fuelBound at hfuel
      omega)
  -- segments and the slot
  have hE := recoverySegments_inv tid mD
  refine ⟨mA, mB, mC, mD, recoverySegments tid mD, ⟨hA, hB, hC, hD, hE⟩, ?_⟩
  have hslot : ((recoverySegments tid mD).tls tid).packedMachineProcessId = id := by
    rw [hE.tls, hD.kept.tls, htlsC]
    exact hc.slotId
  rw [recoveryGarbageCollection_eq hrunA hrunB hrunC hrunD]
  exact if_pos hslot

namespace Stages

variable (h : Stages W tid m mA mB mC mD mE)
include h

/-- The last two stages write nothing of the heap. -/
theorem word {w : Nat} (hw : W.Touches w) : mE.word w = mC.word w := by
  rw [h.segments.word]
  exact h.objPages.heap w hw

theorem root {a : Nat} (ha : a ∈ W.roots) : mE.word a = mC.word a :=
  h.word (Or.inl (ObjHeap.root_mem ha))

theorem queues : Kept W (QueueIds W) mA mC :=
  h.senders.kept.trans h.receivers.kept (fun _ h => h) fun _ h => h

theorem released : Kept W (fun w => W.InRootPage w ∨ QueueIds W w) m mC :=
  h.rootRefs.kept.trans h.queues (fun _ h => Or.inl h) fun _ h => Or.inr h

theorem marked : Kept W (fun w => (W.InRootPage w ∨ QueueIds W w) ∨ HeadStamp W mC w) m mD :=
  h.released.trans h.objPages.kept (fun _ h => Or.inl h) fun _ h => Or.inr h

/-- The RootRefs of the client are cleared. -/
theorem rootRef_zero {b : Nat} (hb : b ∈ W.rootRefs) : mE.word b = 0 := by
  have hmem := CrashWorld.rootRef_mem hb
  obtain ⟨pg, hpg, hin⟩ := W.rootRef_block b (Finset.mem_union_left _ hb)
  rw [h.root hmem]
  exact h.queues.zero hmem ((h.rootRefs.done b (CrashWorld.mem_blocks.mpr ⟨pg, hpg, hin⟩) List.not_mem_nil).2 hb)

/-- And free: no later stage writes their second words. -/
theorem inUse (hc : Crashed W tid id m) {b : Nat} (hb : b ∈ W.blocks W.rootPages) : mE.inUse b = 0 := by
  have hin : W.InRootPage (b + 8) := CrashWorld.block_inRootPage (fun _ h => h) hb (by decide)
  have hsame : mE.word (b + 8) = mA.word (b + 8) := by
    rw [h.segments.word]
    refine (h.queues.trans h.objPages.kept (Z := fun w => QueueIds W w ∨ HeadStamp W mC w) (fun _ h => Or.inl h)
      fun _ h => Or.inr h).word _ (CrashWorld.inUse_not_touches hb) ?_
    rintro (⟨q, hq, he⟩ | ⟨i, hi, p, hp, hne, he⟩)
    · exact CrashWorld.queueWord_not_inRootPage (j := 2) hq (by decide) (by rw [← he]; exact hin)
    · rw [objPage_kept h.rootRefs h.senders h.receivers hi hp] at hne he
      exact (hc.freeHead i hi p hp hne).2 (by rw [← he]; exact hin)
  unfold Shm.inUse
  rw [hsame]
  exact (h.rootRefs.done b hb List.not_mem_nil).1

/-- The slots that are not dropped keep their words, stage by stage. -/
theorem kept_of_not_dropped {a : Nat} (ha : a ∈ W.roots) (hn : ¬ W.Dropped m a) : mE.word a = m.word a := by
  have hrootA : mA.word a = m.word a := h.rootRefs.root a ha fun hr => hn (Or.inl hr)
  have hrootB : mB.word a = mA.word a := by
    refine h.senders.root a ha fun q hq k hk he hd => ?_
    exact hn (Or.inr (Or.inl ⟨q, hq, k, hk, he, (h.rootRefs.dropped (W.senders_mem q hq).1 k).1.mp hd⟩))
  have hrootC : mC.word a = mB.word a := by
    refine h.receivers.root a ha fun q hq k hk he hp => ?_
    have hqm := (W.receivers_mem q hq).1
    have hp : Published m q k :=
      (h.rootRefs.dropped hqm k).2.mp ((h.senders.kept.published hqm (fun _ h => h) k).mp hp)
    exact hn (Or.inr (Or.inr ⟨q, hq, k, hk, he, hp⟩))
  rw [h.root ha, hrootC, hrootB, hrootA]

/-- A segment that is marked, or somebody else's, keeps its owner. -/
theorem owner {i : Nat} (hi : (m.sas i).threadId = tid → (mD.sas i).state = .abandon) :
    (mE.sas i).threadId = (m.sas i).threadId := by
  have hid := h.marked.threadId i
  by_cases ht : (m.sas i).threadId = tid
  · rw [(h.segments.kept i (Or.inr (hi ht))).1, hid]
  · rw [(h.segments.kept i (Or.inl (by rw [hid]; exact ht))).1, hid]

theorem refCnt {o : Nat} (ho : o ∈ W.objs) : mE.refCnt o = mC.refCnt o :=
  Shm.refCnt_of_touches (fun _ hw => h.word hw) ho

/-- The segment of a live object is marked, or was never the client's. -/
theorem objSegment (hc : Crashed W tid id m) {o : Nat} (ho : o ∈ W.objs) (hlive : mE.refCnt o ≠ 0) :
    (mE.sas (segmentIdx o)).threadId = (m.sas (segmentIdx o)).threadId := by
  apply h.owner
  intro ht
  have hlive' : mC.refCnt o ≠ 0 := by
    rw [← h.refCnt ho]
    exact hlive
  have hle : mC.refCnt o ≤ m.refCnt o := h.released.shrunk.mono o ho
  rcases hc.objPage o ho (by omega) ht with hab | ⟨i, hi, pg, hpg, hb⟩
  · exact h.marked.abandon hab
  · have hpglt := W.page_lt pg (List.mem_append_right _ (List.mem_flatMap.mpr ⟨i, hi, hpg⟩))
    have hof := pageOf_block hpglt (Nat.pos_of_ne_zero (hc.binSize i hi pg hpg)) hb
    have hseg : segmentIdx o = pg.1 := congrArg Prod.fst hof
    rw [hseg]
    refine h.objPages.done i hi pg hpg List.not_mem_nil ⟨o, ho, ?_, ?_⟩
    · rw [objPage_kept h.rootRefs h.senders h.receivers hi hpg]
      exact hb
    · rw [Shm.refCnt_of_touches h.objPages.heap ho]
      exact hlive'

theorem queueSegment (hc : Crashed W tid id m) {q : Nat} (hq : q ∈ W.queues) :
    (mE.sas (segmentIdx q)).threadId = (m.sas (segmentIdx q)).threadId := by
  apply h.owner
  intro ht
  rcases hc.queueSegment q hq ht with hab | hs
  · exact h.marked.abandon hab
  · have hsent := (h.senders.done q (hc.sending q hq hs) List.not_mem_nil).1
    exact h.objPages.kept.abandon (h.receivers.kept.abandon hsent)

end Stages

end Stages

/-- The stages put together. -/
theorem Crashed.recovered (hc : Crashed W tid id m) (hfuel : W.fuelBound < fuel) :
    ∃ m', recoveryGarbageCollection fuel tid id m = some m' ∧ Recovered W tid m m' := by
  obtain ⟨mA, mB, mC, mD, mE, h, hrun⟩ := hc.stages hfuel
  have hx : HeapExact W.toObjHeap mE := h.receivers.exact.write fun _ hw => h.word hw
  have hzero : ∀ b ∈ W.rootRefs, mE.word b = 0 := fun b hb => h.rootRef_zero hb
  have hkeep : ∀ a ∈ W.roots, ¬ W.Dropped m a → mE.word a = m.word a := fun a ha hn => h.kept_of_not_dropped ha hn
  refine ⟨_, hrun, ?_⟩
  -- the last store is to the slot of the client
  refine ⟨hx.write fun _ _ => rfl, ?_, ?_, hzero, ?_, ?_, hkeep, ?_, ?_, ?_, ?_⟩
  · intro o ho
    exact hx.holding_remaining hzero ho
  · intro pg hpg b hb
    exact h.inUse hc (CrashWorld.mem_blocks.mpr ⟨pg, hpg, hb⟩)
  · intro q hq hs k hk hd
    have hmem := CrashWorld.entry_mem hq hk
    show mE.word _ = 0
    rw [h.root hmem]
    exact h.receivers.kept.zero hmem ((h.senders.done q (hc.sending q hq hs) List.not_mem_nil).2 k hk
      ((h.rootRefs.dropped hq k).1.mpr hd))
  · intro q hq hr k hk hp
    have hmem := CrashWorld.entry_mem hq hk
    show mE.word _ = 0
    rw [h.root hmem]
    exact h.receivers.done q (hc.receiving q hq hr) List.not_mem_nil k hk
      ((h.senders.kept.published hq (fun _ h => h) k).mpr ((h.rootRefs.dropped hq k).2.mpr hp))
  · intro q hq hn hr k hk hp
    exact hkeep _ (CrashWorld.entry_mem hq hk) (CrashWorld.not_dropped_published hq hn hr hk hp)
  · exact fun o ho hlive => h.objSegment hc ho hlive
  · exact fun q hq => h.queueSegment hc hq
  · simp [Shm.setTls, Tls.setId]

/-- **Recovery of one crashed client** ends; it leaves counts equal to the remaining slots, no RootRef
and no unpublished entry of the client, and every segment with a live object or a queue claimed. -/
theorem recoveryGarbageCollection_exact (hc : Crashed W tid id m) (hfuel : W.fuelBound < fuel) :
    ∃ m', recoveryGarbageCollection fuel tid id m = some m' ∧ Recovered W tid m m' :=
  hc.recovered hfuel

/-! ## §4 — a crash with a shared object, a queue and an allocation cut short

Client 1 owns segment 0 with a page of RootRefs, a page of 32-byte objects and a page of queues. Its first
RootRef holds an object that a RootRef of client 2, in segment 1, holds too; its second one holds a parent
with one child; its third one was cut short and points to the head of the free list of the objects. It sends
on a queue that client 2 receives on: the first entry is published, the second one is stored only.
-/

/-- The first RootRef of client 1, the shared object, the RootRef of client 2, and the queue. -/
def ownRef : Nat := 134283264
def sharedObj : Nat := 134348800
def otherRef : Nat := 201392128
def sharedQueue : Nat := 134414336

/-- The objects after the shared one: parent and child, and what the two entries of the queue hold. -/
def parentObj : Nat := sharedObj + 32
def childObj : Nat := sharedObj + 64
def sentObj : Nat := sharedObj + 96
def unsentObj : Nat := sharedObj + 128

instance (a n b k : Nat) : Decidable (Apart a n b k) := inferInstanceAs (Decidable (_ ∨ _))

def sharedHeap : ObjHeap where
  objs := {sharedObj, parentObj, childObj, sentObj, unsentObj}
  emb := fun o => if o = parentObj then 1 else 0
  roots := {ownRef, ownRef + 16} ∪ queueEntries sharedQueue ∪ {otherRef}
  root_outside := by decide
  objs_apart := by decide
  zero_not_obj := by decide

def sharedWorld : CrashWorld where
  toObjHeap := sharedHeap
  rootPages := [(0, 1)]
  binPages := fun i => if i = 3 then [(0, 2)] else []
  rootRefs := {ownRef, ownRef + 16}
  unfinished := {ownRef + 32}
  queues := {sharedQueue}
  senders := [sharedQueue]
  receivers := []
  others := {otherRef}
  roots_eq := by
    rw [Finset.singleton_biUnion]
    rfl
  pages_nodup := by decide
  objs_area := by decide
  page_lt := by decide
  rootRef_block := by
    have hblock : ∀ i < 4096, ownRef + i * 16 ∈ pageBlocks (0, 1) 16 := fun i hi =>
      mem_pageBlocks.mpr ⟨i, hi, rfl⟩
    intro b hb
    refine ⟨(0, 1), List.mem_singleton_self _, ?_⟩
    simp only [Finset.mem_union, Finset.mem_insert, Finset.mem_singleton] at hb
    rcases hb with (rfl | rfl) | rfl
    · exact hblock 0 (by decide)
    · exact hblock 1 (by decide)
    · exact hblock 2 (by decide)
  unfinished_apart := by decide
  rootPage_obj := by decide
  rootPage_queue := by decide
  rootPage_other := by decide
  queue_obj := by decide
  queue_other := by decide
  queues_apart := by
    intro q hq q' hq' hne
    rw [Finset.mem_singleton] at hq hq'
    exact absurd (hq.trans hq'.symm) hne
  senders_mem := by decide
  senders_nodup := List.nodup_singleton _
  receivers_mem := by
    intro q hq
    exact absurd hq List.not_mem_nil
  receivers_nodup := List.nodup_nil

/-- The words of the area that are not 0. -/
def sharedTable : List (Nat × Nat) :=
  [(ownRef, sharedObj), (ownRef + 8, 2 ^ 16 + 1),
   (ownRef + 16, parentObj), (ownRef + 24, 2 ^ 16 + 1),
   (ownRef + 32, sharedObj + 160), (ownRef + 40, 1),
   (otherRef, sharedObj), (otherRef + 8, 2 ^ 16 + 1),
   (sharedObj + 8, packRefInfo 2 2 1),
   (parentObj + 8, packRefInfo 1 1 2), (parentObj + 16, 1), (parentObj + 24, childObj),
   (childObj + 8, packRefInfo 1 1 3), (sentObj + 8, packRefInfo 1 1 4), (unsentObj + 8, packRefInfo 1 1 5),
   (sharedQueue + 8, 1), (sharedQueue + 16, 2 * 2 ^ 16 + 1),
   (sharedQueue + 40, sentObj), (sharedQueue + 48, unsentObj)]

def sharedWords (a : Nat) : Nat := (sharedTable.lookup a).getD 0

/-- The pages of segment 0. -/
def sharedPage (j : Nat) : Page :=
  if j = 1 then ⟨ownRef + 48, 0, 16, 3, none, none, false⟩
  else if j = 2 then ⟨sharedObj + 160, 0, 32, 5, none, none, false⟩
  else if j = 3 then ⟨sharedQueue + 192, 0, 192, 1, none, none, true⟩
  else Page.zero

def sharedCrash : Shm where
  eraCell := fun k => if k = 0 then 6 else if k = 1025 then 2 else 0
  tls := fun i =>
    { Shm.zero.tls 0 with
      packedMachineProcessId := if i = 1 then 7 else 0
      pages := fun k =>
        if i = 1 ∧ k = 0 then ⟨some (0, 1), some (0, 1), 16⟩
        else if i = 1 ∧ k = 1 then ⟨some (0, 3), some (0, 3), 192⟩
        else if i = 1 ∧ k = 3 then ⟨some (0, 2), some (0, 2), 32⟩
        else ⟨none, none, 0⟩
      senderQueue := if i = 1 then sharedQueue else 0
      receiverQueue := if i = 2 then sharedQueue else 0 }
  sas := fun i => ⟨if i = 0 then 1 else if i = 1 then 2 else 0, 0, .normal, 0⟩
  segment := fun i =>
    if i = 0 then ⟨1, 3, sharedPage⟩ else if i = 1 then ⟨2, 1, fun _ => Page.zero⟩ else Segment.zero
  word := sharedWords

/-- The heap reaches from the shared object to the last one, besides its roots. -/
theorem sharedWorld_touches {w : Nat} (h : sharedWorld.Touches w) :
    w ∈ sharedHeap.roots ∨ (sharedObj ≤ w ∧ w < sharedObj + 160) := by
  have hbound : ∀ o ∈ sharedHeap.objs, sharedObj ≤ o ∧ o + 32 ≤ sharedObj + 160 := by decide
  have hemb : ∀ o ∈ sharedHeap.objs, sharedHeap.emb o ≤ 1 := by decide
  rcases h with hs | ⟨o, ho, j, hj, rfl⟩
  · rcases ObjHeap.mem_slots.mp hs with hr | ⟨o, ho, k, hk, rfl⟩
    · exact Or.inl hr
    · have hk : k < sharedHeap.emb o := hk
      have h₁ := hbound o ho
      have h₂ := hemb o ho
      simp only [embeddedSlot, sizeofCxlObj]
      omega
  · have h₁ := hbound o ho
    omega

/-- Past the third RootRef nothing of the page is in use. -/
theorem sharedWords_unused {i : Nat} (hi : 3 ≤ i) (hlt : i < 4096) : sharedWords (ownRef + i * 16 + 8) = 0 := by
  have hkeys : ∀ p ∈ sharedTable, p.1 < ownRef + 48 ∨ ownRef + 65536 ≤ p.1 := by decide
  have hnone : sharedTable.lookup (ownRef + i * 16 + 8) = none := by
    rw [List.lookup_eq_none_iff]
    intro p hp
    have hkey := hkeys p hp
    have hne : ownRef + i * 16 + 8 ≠ p.1 := by omega
    exact bne_iff_ne.mpr hne
  rw [sharedWords, hnone]
  rfl

theorem sharedCrash_inUse : ∀ b ∈ sharedWorld.blocks sharedWorld.rootPages,
    sharedCrash.inUse b ≠ 0 ↔ b ∈ sharedWorld.rootRefs ∪ sharedWorld.unfinished := by
  intro b hb
  obtain ⟨pg, hpg, hb⟩ := CrashWorld.mem_blocks.mp hb
  rw [List.mem_singleton.mp hpg] at hb
  obtain ⟨i, hi, rfl⟩ := mem_pageBlocks.mp hb
  have hlt : i < 4096 := hi
  show sharedWords (ownRef + i * 16 + 8) % 2 ^ 8 ≠ 0 ↔
    ownRef + i * 16 ∈ ({ownRef, ownRef + 16} ∪ {ownRef + 32} : Finset Nat)
  have hmem : ownRef + i * 16 ∈ ({ownRef, ownRef + 16} ∪ {ownRef + 32} : Finset Nat) ↔ i < 3 := by
    simp only [Finset.mem_union, Finset.mem_insert, Finset.mem_singleton]
    omega
  rw [hmem]
  rcases Nat.lt_or_ge i 3 with h3 | h3
  · have hused : ∀ i < 3, sharedWords (ownRef + i * 16 + 8) % 2 ^ 8 ≠ 0 := by decide
    exact ⟨fun _ => h3, fun _ => hused i h3⟩
  · rw [sharedWords_unused h3 hlt]
    exact ⟨fun h => absurd rfl h, fun h => absurd h (Nat.not_lt_of_le h3)⟩

theorem sharedCrash_freeHead : ∀ i ∈ List.range' 2 (cxlBinSize - 2), ∀ pg ∈ sharedWorld.binPages i,
    (sharedCrash.page pg).free ≠ 0 → ¬ sharedWorld.Touches ((sharedCrash.page pg).free + 8) ∧
      ¬ sharedWorld.InRootPage ((sharedCrash.page pg).free + 8) := by
  intro i hi pg hpg _
  have hpg' : pg = (0, 2) := by
    change pg ∈ (if i = 3 then [(0, 2)] else []) at hpg
    split at hpg
    · exact List.mem_singleton.mp hpg
    · exact absurd hpg List.not_mem_nil
  subst hpg'
  refine ⟨fun ht => ?_, ?_⟩
  · rcases sharedWorld_touches ht with hr | ⟨-, hlt⟩
    · exact absurd hr (by decide)
    · exact absurd hlt (by decide)
  · rintro ⟨pg, hpg, hlo, hhi⟩
    rw [List.mem_singleton.mp hpg] at hlo hhi
    revert hhi
    decide

theorem sharedCrash_crashed : Crashed sharedWorld 1 7 sharedCrash where
  exact := by
    refine ⟨?_, ?_, ?_, ?_⟩
    · decide
    · decide
    · decide
    · decide
  era := by
    intro k
    show (if k = 0 then 6 else if k = 1025 then 2 else 0) < 2 ^ 32
    split
    · decide
    · split <;> decide
  tid_lt := by decide
  slotId := rfl
  rootChain := ⟨rfl, rfl⟩
  rootSize := by decide
  rootOwner := by decide
  inUse := sharedCrash_inUse
  cutShort := by
    intro b hb
    rw [Finset.mem_singleton.mp hb]
    exact Or.inr (Or.inr (Or.inl ⟨by decide, by decide⟩))
  allocated := by decide
  binChain := by
    intro i hi
    by_cases h3 : i = 3
    · subst h3
      exact ⟨rfl, rfl⟩
    · have hnil : sharedWorld.binPages i = [] := if_neg h3
      have h2 : 2 ≤ i := (List.mem_range'_1.mp hi).1
      have h0 : i ≠ 0 := by omega
      have h1 : i ≠ 1 := by omega
      rw [hnil]
      show ((sharedCrash.tls 1).pages i).first = none
      simp [sharedCrash, h0, h1, h3]
  binSize := by decide
  freeHead := sharedCrash_freeHead
  senderChain := ⟨rfl, rfl⟩
  receiverChain := rfl
  ring := by decide
  sending := by
    intro q hq _
    rw [Finset.mem_singleton.mp hq]
    exact List.mem_singleton_self _
  receiving := by decide
  objPage := by
    have hblock : ∀ i < 2048, sharedObj + i * 32 ∈ pageBlocks (0, 2) 32 := fun i hi =>
      mem_pageBlocks.mpr ⟨i, hi, rfl⟩
    intro o ho _ _
    refine Or.inr ⟨3, by decide, (0, 2), by decide, ?_⟩
    change o ∈ ({sharedObj, parentObj, childObj, sentObj, unsentObj} : Finset Nat) at ho
    simp only [Finset.mem_insert, Finset.mem_singleton] at ho
    rcases ho with rfl | rfl | rfl | rfl | rfl
    · exact hblock 0 (by decide)
    · exact hblock 1 (by decide)
    · exact hblock 2 (by decide)
    · exact hblock 3 (by decide)
    · exact hblock 4 (by decide)
  queueSegment := by decide

/-- The entry published to client 2 stays, the one stored only is gone, and so are the RootRefs; the shared
object keeps the reference of client 2. -/
theorem recoveryGarbageCollection_exact_shared :
    ∃ m', recoveryGarbageCollection 40 1 7 sharedCrash = some m' ∧ Recovered sharedWorld 1 sharedCrash m' ∧
      m'.word (bufferSlot sharedQueue 0) = sentObj ∧ m'.word (bufferSlot sharedQueue 1) = 0 ∧
      m'.word otherRef = sharedObj := by
  obtain ⟨m', hrun, h⟩ := recoveryGarbageCollection_exact sharedCrash_crashed (show sharedWorld.fuelBound < 40 by decide)
  refine ⟨m', hrun, h, ?_, ?_, ?_⟩
  · exact h.published sharedQueue (by decide) (by decide) (by decide) 0 (by decide) (by unfold Published; decide)
  · exact h.sent sharedQueue (by decide) (by decide) 1 (by decide) (Or.inl (by unfold Published; decide))
  · refine h.survivor otherRef (by decide) ?_
    rintro (hr | ⟨q, hq, k, hk, he, -⟩ | ⟨q, hq, -⟩)
    · exact absurd hr (by decide)
    · rw [List.mem_singleton.mp hq] at he
      revert k
      decide
    · exact absurd hq List.not_mem_nil

end CxlShm
