import CxlShm.SizeClass

/-! # Clients — several clients in one area

What the allocator does for one client it does in its own thread-local state, in the segments it owns and in
those nobody owns. The lists of the other clients stay in order, so the pictures of all clients hold at once.
-/

namespace CxlShm

open Loop DoublyLinked Transition

/-! ## §1 — what is another client's -/

/-- Segment `i` has an owner, and it is not `tid`. -/
def OthersSegment (tid : Nat) (m : Shm) (i : Nat) : Prop :=
  (m.sas i).threadId ≠ 0 ∧ (m.sas i).threadId ≠ tid

/-- The thread-local states and the segments of the others are as before, and no segment has come to them. -/
structure KeepsOthers (tid : Nat) (m m' : Shm) : Prop where
  tls : ∀ u, u ≠ tid → m'.tls u = m.tls u
  sas : ∀ i, OthersSegment tid m i → m'.sas i = m.sas i
  segment : ∀ i, OthersSegment tid m i → m'.segment i = m.segment i
  gained : ∀ i, OthersSegment tid m' i → OthersSegment tid m i

namespace KeepsOthers

variable {tid : Nat} {m m₁ m' : Shm} {L : QueuePtr → List (Nat × Nat)} {q : QueuePtr} {pg : Nat × Nat}
  {out : PagePtr}

theorem refl (m : Shm) : KeepsOthers tid m m := ⟨fun _ _ => rfl, fun _ _ => rfl, fun _ _ => rfl, fun _ h => h⟩

theorem trans (h : KeepsOthers tid m m₁) (h' : KeepsOthers tid m₁ m') : KeepsOthers tid m m' := by
  have hstays : ∀ i, OthersSegment tid m i → OthersSegment tid m₁ i := by
    intro i hi
    rw [OthersSegment, h.sas i hi]
    exact hi
  refine ⟨?_, ?_, ?_, ?_⟩
  · exact fun u hu => (h'.tls u hu).trans (h.tls u hu)
  · exact fun i hi => (h'.sas i (hstays i hi)).trans (h.sas i hi)
  · exact fun i hi => (h'.segment i (hstays i hi)).trans (h.segment i hi)
  · exact fun i hi => h.gained i (h'.gained i hi)

/-- Stores to words and eras, and to the own thread-local state. -/
theorem of_same (htls : ∀ u, u ≠ tid → m'.tls u = m.tls u) (hsas : m'.sas = m.sas)
    (hseg : m'.segment = m.segment) : KeepsOthers tid m m' := by
  refine ⟨htls, fun i _ => ?_, fun i _ => ?_, fun i hi => ?_⟩
  · rw [hsas]
  · rw [hseg]
  · rwa [OthersSegment, hsas] at hi

theorem of_links (h : OnlyLinks tid q m m')
    (hseg : ∀ i, OthersSegment tid m i → m'.segment i = m.segment i) : KeepsOthers tid m m' := by
  refine ⟨h.others, fun i _ => ?_, hseg, fun i hi => ?_⟩
  · rw [h.sas]
  · rwa [OthersSegment, h.sas] at hi

/-- The header of one segment is rewritten. -/
theorem of_header {i : Nat} (hi : ¬ OthersSegment tid m i) (htls : m'.tls = m.tls) (hsas : m'.sas = m.sas)
    (hseg : ∀ k, k ≠ i → m'.segment k = m.segment k) : KeepsOthers tid m m' := by
  refine ⟨fun u _ => by rw [htls], fun k _ => by rw [hsas], fun k hk => ?_, fun k hk => ?_⟩
  · apply hseg
    rintro rfl
    exact hi hk
  · rwa [OthersSegment, hsas] at hk

theorem setPage (d : Page) (hpg : ¬ OthersSegment tid m pg.1) : KeepsOthers tid m (m.setPage pg d) :=
  of_header hpg rfl rfl fun k hk => by simp [Shm.setPage, hk]

theorem setSegmentUsed {i : Nat} (v : Nat) (hi : ¬ OthersSegment tid m i) :
    KeepsOthers tid m (m.setSegmentUsed i v) :=
  of_header hi rfl rfl fun k hk => by simp [Shm.setSegmentUsed, hk]

end KeepsOthers

section Frames

variable {tid size fuel : Nat} {m m₁ m' : Shm} {L : QueuePtr → List (Nat × Nat)} {q : QueuePtr}
  {pg : Nat × Nat} {out : PagePtr} {G : BlockLists} {b x : Nat}

/-- No page of another client's segment is on a queue of `tid`. -/
theorem AccountInv.not_others (h : AccountInv tid m L out) {i : Nat} (hi : OthersSegment tid m i) (j : Nat) :
    (i, j) ∉ L q := fun hm => hi.2 (h.owned hm).1

theorem AccountInv.own (h : AccountInv tid m L out) (hpg : pg ∈ L q) : ¬ OthersSegment tid m pg.1 :=
  fun hi => hi.2 (h.owned hpg).1

theorem AccountInv.remove_keeps (h : AccountInv tid m L out) (hpg : pg ∈ L q) :
    KeepsOthers tid m (cxlPageQueueRemove tid q pg m) :=
  .of_links (OnlyLinks.remove m tid q pg) fun _ hi => h.queued.remove_segment hpg (h.not_others hi)

theorem AccountInv.push_keeps (h : AccountInv tid m L out) (hpg : ¬ OthersSegment tid m pg.1) :
    KeepsOthers tid m (cxlPageQueuePush tid q pg m) := by
  refine .of_links (OnlyLinks.push m tid q pg) fun i hi => ?_
  apply h.queued.push_segment
  · rintro rfl
    exact hpg hi
  · exact h.not_others hi

/-! ## §2 — pages and segments -/

theorem KeepsOthers.claimSegment {i : Nat} (hi : (m.sas i).threadId = 0) :
    KeepsOthers tid m (claimSegment tid i m) := by
  have hne : ∀ k, OthersSegment tid m k → k ≠ i := by
    rintro k hk rfl
    exact hk.1 hi
  refine ⟨fun _ _ => rfl, fun k hk => ?_, fun k hk => ?_, fun k hk => ?_⟩
  · exact Function.update_of_ne (hne k hk) ..
  · exact Function.update_of_ne (hne k hk) ..
  · have hki : k ≠ i := by
      rintro rfl
      apply hk.2
      rw [claimSegment_owner, if_pos rfl]
    rwa [OthersSegment, claimSegment_owner, if_neg hki] at hk

theorem AccountInv.claim_keeps (h : AccountInv tid m L out) {i : Nat} (hi : (m.sas i).threadId = 0) :
    KeepsOthers tid m (pushPages tid i segmentPages (CxlShm.claimSegment tid i m)) := by
  have hclaim : KeepsOthers tid m (CxlShm.claimSegment tid i m) := .claimSegment hi
  have hqueued : Queued tid (CxlShm.claimSegment tid i m) L :=
    h.queued.congr (fun _ => rfl) (fun _ y _ => by rw [claimSegment_page]) fun _ y _ => by
      rw [claimSegment_page]
  refine hclaim.trans (.of_links (OnlyLinks.pushPages ..) fun k hk => ?_)
  apply hqueued.pushPages_segment segmentPages_nodup
  · exact fun j _ q => h.unowned hi j
  · rintro rfl
    apply hk.2
    rw [claimSegment_owner, if_pos rfl]
  · exact h.not_others (hclaim.gained k hk)

/-- **A page is looked for.** -/
theorem cxlSegmentPageAlloc_others (h : AccountInv tid m L none) {p : PagePtr}
    (hrun : cxlSegmentPageAlloc tid size fuel m = some (p, m')) : KeepsOthers tid m m' := by
  induction fuel generalizing m L with
  | zero => exact absurd hrun (by simp [cxlSegmentPageAlloc])
  | succ fuel ih =>
    cases hf : (m.queue tid .freePage).first with
    | none =>
      cases ha : cxlSegmentAlloc tid size m with
      | none =>
        rw [cxlSegmentPageAlloc_full hf ha] at hrun
        simp only [Option.some.injEq, Prod.mk.injEq] at hrun
        rw [← hrun.2]
        exact .refl m
      | some r =>
        obtain ⟨i, m₁⟩ := r
        rw [cxlSegmentPageAlloc_new hf ha] at hrun
        obtain ⟨hi, rfl⟩ := cxlSegmentAlloc_some ha
        exact (h.claim_keeps hi).trans (ih (h.claim hi) hrun)
    | some page =>
      rw [cxlSegmentPageAlloc_free hf] at hrun
      simp only [Option.some.injEq, Prod.mk.injEq] at hrun
      rw [← hrun.2]
      have hpg : page ∈ L .freePage := h.queued.first_mem hf
      have hrem := h.remove_keeps hpg
      exact hrem.trans (.setSegmentUsed _ fun hi => h.own hpg (hrem.gained _ hi))

theorem cxlPageFresh_others (h : AccountInv tid m L none)
    (hrun : cxlPageFresh fuel tid size (.bin b) m = some (pg, m')) : KeepsOthers tid m m' := by
  cases halloc : cxlSegmentPageAlloc tid size fuel m with
  | none =>
    rw [cxlPageFresh, halloc] at hrun
    simp at hrun
  | some r =>
    obtain ⟨p, m₁⟩ := r
    cases p with
    | none =>
      rw [cxlPageFresh, halloc] at hrun
      simp [cxlPageInit] at hrun
    | some page =>
      obtain ⟨L₁, h₁, -⟩ := cxlSegmentPageAlloc_some h halloc
      rw [cxlPageFresh_eq halloc (h₁.size b)] at hrun
      simp only [Option.some.injEq, Prod.mk.injEq] at hrun
      obtain ⟨rfl, rfl⟩ := hrun
      have hown : ¬ OthersSegment tid m₁ page.1 := fun hi => hi.2 ((h₁.mem page).mp (Or.inr rfl)).1
      have hcut : AccountInv tid (cutPage b page m₁) L₁ (some page) := (h₁.setHeld _).words _
      have hset : KeepsOthers tid m₁ (m₁.setPage page (binPage b page)) := .setPage _ hown
      have hwords : KeepsOthers tid m₁ (cutPage b page m₁) := hset.trans (.of_same (fun _ _ => rfl) rfl rfl)
      exact ((cxlSegmentPageAlloc_others h halloc).trans hwords).trans (hcut.push_keeps hown)

theorem AccountInv.release_keeps (h : AccountInv tid m L none) {i : Nat} (hi : (m.sas i).threadId = tid)
    (hz : (m.segment i).used = 0) : KeepsOthers tid m (releaseSegment tid i m) := by
  have honly := OnlyLinks.removePages tid i segmentPages m
  have hne : ∀ k, OthersSegment tid m k → k ≠ i := by
    rintro k hk rfl
    exact hk.2 hi
  refine ⟨honly.others, fun k hk => ?_, fun k hk => ?_, fun k hk => ?_⟩
  · rw [← congrFun (cxlSegmentClear_sas tid i m) k]
    exact Function.update_of_ne (hne k hk) ..
  · have hseg : (releaseSegment tid i m).segment k = (cxlSegmentClear tid i m).segment k := rfl
    rw [hseg, cxlSegmentClear_segment, if_neg (hne k hk)]
    exact h.queued.removePages_segment segmentPages_nodup (fun j hj => h.all_free hi hz hj) (h.not_others hk)
  · rw [OthersSegment, releaseSegment_owner] at hk
    by_cases hki : k = i
    · rw [if_pos hki] at hk
      exact absurd rfl hk.1
    · rwa [if_neg hki] at hk

/-- **A page is given back**, and its segment perhaps. -/
theorem AccountInv.freePage_keeps (h : AccountInv tid m L none) (hpg : pg ∈ L (.bin b))
    (hrun : cxlPageFree tid (.bin b) pg m = some m') : KeepsOthers tid m m' := by
  have hown := h.own hpg
  have hrem := h.remove_keeps hpg
  have hout := h.withdraw hpg
  have hown₁ : ¬ OthersSegment tid (cxlPageQueueRemove tid (.bin b) pg m) pg.1 := fun hi =>
    hown (hrem.gained _ hi)
  have hset : KeepsOthers tid m ((cxlPageQueueRemove tid (.bin b) pg m).setPage pg Page.zero) :=
    hrem.trans (.setPage _ hown₁)
  have hpush : KeepsOthers tid m (cxlPageQueuePush tid .freePage pg
      ((cxlPageQueueRemove tid (.bin b) pg m).setPage pg Page.zero)) :=
    hset.trans ((hout.setHeld Page.zero).push_keeps fun hi => hown (hset.gained _ hi))
  have hrel : KeepsOthers tid m (cxlPageRelease tid (.bin b) pg m) :=
    hpush.trans (.setSegmentUsed _ fun hi => hown (hpush.gained _ hi))
  obtain ⟨L₁, h₁, hfree, -⟩ := h.releasePage hpg
  have hi := (h₁.owned hfree).1
  simp only [cxlPageFree] at hrun
  split at hrun
  case isTrue hz =>
    rw [cxlSegmentFree_eq hi] at hrun
    obtain rfl := Option.some.inj hrun
    exact hrel.trans (h₁.release_keeps hi hz)
  case isFalse =>
    obtain rfl := Option.some.inj hrun
    exact hrel

/-! ## §3 — blocks -/

theorem KeepsOthers.collectBlock (hx : ¬ OthersSegment tid m (pageOf x).1) :
    KeepsOthers tid m (collectBlock x m) := by
  have hstore : KeepsOthers tid m (m.store x (m.page (pageOf x)).localFree) := .of_same (fun _ _ => rfl) rfl rfl
  exact hstore.trans (.setPage _ hx)

theorem cxlThreadFreeCollect_others (h : BlocksInv tid m G) (hh : ThreadHeads tid m G)
    (hpg : pg ∈ G.pages (.bin b)) (hrun : cxlThreadFreeCollect fuel pg m = some m') : KeepsOthers tid m m' := by
  have hown := (h.account.owned hpg).1
  unfold cxlThreadFreeCollect at hrun
  simp only at hrun
  split at hrun
  case isTrue =>
    cases hrun
    exact .refl m
  case isFalse =>
    have htake : KeepsOthers tid m (takeThreadFree pg.1 m) := by
      have hne : ∀ k, OthersSegment tid m k → k ≠ pg.1 := by
        rintro k hk rfl
        exact hk.2 hown
      refine ⟨fun _ _ => rfl, fun k hk => Function.update_of_ne (hne k hk) .., fun _ _ => rfl, fun k hk => ?_⟩
      by_cases hki : k = pg.1
      · subst hki
        simp [OthersSegment, takeThreadFree, hown] at hk
      · simpa [OthersSegment, takeThreadFree, hki] using hk
    -- every block of the list is in the segment
    rw [hh _ hown] at hrun
    refine (walk_some (fun l s => Chained (blockNext s) l.head? l ∧ l.Nodup ∧ (∀ y ∈ l, (pageOf y).1 = pg.1) ∧
        KeepsOthers tid m s) ?_ hrun ⟨?_, (h.segment pg.1).nodup, ?_, htake⟩).2.2.2
    · rintro y l s s' ⟨hchain, hnd, hin, hkeeps⟩ hb
      obtain rfl := Option.some.inj hb
      obtain ⟨hyl, hnd⟩ := List.nodup_cons.mp hnd
      have hword : ∀ z, z ≠ y → (CxlShm.collectBlock y s).word z = s.word z := fun z hz =>
        Function.update_of_ne hz ..
      refine ⟨hchain.2.head, ?_, hnd, fun z hz => hin z (List.mem_cons_of_mem _ hz), ?_⟩
      · have hrest := hchain.2
        rw [hrest.head] at hrest
        apply hrest.congr
        intro z hz
        refine congrArg linkPtr (hword z ?_)
        rintro rfl
        exact hyl hz
      · refine hkeeps.trans (.collectBlock fun hi => ?_)
        rw [hin y List.mem_cons_self] at hi
        exact (hkeeps.gained _ hi).2 hown
    · exact (h.segment pg.1).chain
    · exact fun y hy => ((h.segment pg.1).blocks y hy).1

theorem cxlPageFreeCollect_others (h : BlocksInv tid m G) (hh : ThreadHeads tid m G)
    (hpg : pg ∈ G.pages (.bin b)) (hrun : cxlPageFreeCollect fuel pg m = some m') : KeepsOthers tid m m' := by
  have hown := (h.account.owned hpg).1
  unfold cxlPageFreeCollect at hrun
  rw [Option.map_eq_some_iff] at hrun
  obtain ⟨m₁, hrun, rfl⟩ := hrun
  have hcollect := cxlThreadFreeCollect_others h hh hpg hrun
  unfold refillFree
  split
  · exact hcollect.trans (.setPage _ fun hi => (hcollect.gained _ hi).2 hown)
  · exact hcollect

theorem findFree_others (h : BlocksInv tid m G) (hh : ThreadHeads tid m G) {rounds : Nat} {p q : PagePtr}
    (hp : ∀ pg, p = some pg → pg ∈ G.pages (.bin b)) (hrun : findFree fuel rounds p m = some (q, m')) :
    KeepsOthers tid m m' := by
  induction rounds generalizing p m G with
  | zero => cases hrun
  | succ rounds ih =>
    cases p with
    | none =>
      simp only [findFree, Option.some.injEq, Prod.mk.injEq] at hrun
      rw [← hrun.2]
      exact .refl m
    | some pg =>
      have hpg := hp pg rfl
      simp only [findFree, Option.bind_eq_some_iff] at hrun
      obtain ⟨m₁, hcollect, hrun⟩ := hrun
      have hkeeps := cxlPageFreeCollect_others h hh hpg hcollect
      obtain ⟨G₁, h₁, hh₁, -, hpages⟩ := cxlPageFreeCollect_some h hh hpg hcollect
      split at hrun
      case isTrue =>
        simp only [Option.some.injEq, Prod.mk.injEq] at hrun
        rw [← hrun.2]
        exact hkeeps
      case isFalse =>
        refine hkeeps.trans (ih h₁ hh₁ (fun pg' hn => ?_) hrun)
        rw [hpages]
        exact (h.account.queued.listed (.bin b)).next_mem hpg hn

theorem KeepsOthers.clearRedo (m : Shm) : KeepsOthers tid m (m.clearRedo tid) :=
  .of_same (fun _ hu => Function.update_of_ne hu ..) rfl rfl

/-- **A block is looked for.** -/
theorem cxlPageMalloc_others (h : BlocksInv tid m G) (hh : ThreadHeads tid m G)
    (hrun : cxlPageMalloc fuel tid size (.bin b) (cxlFindPage tid (.bin b) m) m = some (x, pg, m')) :
    KeepsOthers tid m m' := by
  cases hfind : cxlFindPage tid (.bin b) m with
  | some page =>
    rw [hfind] at hrun
    simp only [cxlPageMalloc, Option.some.injEq, Prod.mk.injEq] at hrun
    rw [← hrun.2.2]
    exact .refl m
  | none =>
    rw [hfind] at hrun
    simp only [cxlPageMalloc, cxlMallocGeneric, cxlPageQueueFindFreeEx, Option.bind_eq_bind,
      Option.bind_eq_some_iff] at hrun
    obtain ⟨⟨page, m₁⟩, ⟨⟨p, m₂⟩, hfree, hpage⟩, hres⟩ := hrun
    simp only [Option.some.injEq, Prod.mk.injEq] at hres
    obtain ⟨-, -, rfl⟩ := hres
    have hheads : ThreadHeads tid (m.clearRedo tid) G := hh
    have hfirst : ∀ pg, ((m.clearRedo tid).queue tid (.bin b)).first = some pg → pg ∈ G.pages (.bin b) :=
      fun pg hf => h.clearRedo.account.queued.first_mem hf
    have hkeeps := (KeepsOthers.clearRedo m).trans (findFree_others h.clearRedo hheads hfirst hfree)
    cases p with
    | some q =>
      simp only [Option.some.injEq, Prod.mk.injEq] at hpage
      obtain ⟨-, rfl⟩ := hpage
      exact hkeeps
    | none =>
      obtain ⟨G₂, h₂, -⟩ := findFree_some h.clearRedo hheads hfirst hfree
      exact hkeeps.trans (cxlPageFresh_others h₂.account hpage)

theorem KeepsOthers.popBlock (hpg : ¬ OthersSegment tid m pg.1) : KeepsOthers tid m (popBlock x pg m) :=
  .setPage _ hpg

/-- The page a block is found on is the client's own. -/
theorem cxlPageMalloc_own (h : Pool tid m G) (hb : b < cxlBinSize) (hb2 : b ≠ 2)
    (hrun : cxlPageMalloc fuel tid size (.bin b) (cxlFindPage tid (.bin b) m) m = some (x, pg, m')) :
    KeepsOthers tid m m' ∧ ¬ OthersSegment tid m' pg.1 := by
  obtain ⟨G', l, h', -, hpg, -⟩ := h.pageMalloc hb hb2 hrun
  exact ⟨cxlPageMalloc_others h.inv h.heads hrun, h'.inv.account.own hpg⟩

theorem threadBaseRefAlloc_others (h : Pool tid m G)
    (hrun : threadBaseRefAlloc fuel tid size m = some (x, m')) : KeepsOthers tid m m' := by
  simp only [threadBaseRefAlloc, Option.bind_eq_bind, Option.bind_eq_some_iff] at hrun
  obtain ⟨⟨y, pg, m₁⟩, hrun, hres⟩ := hrun
  simp only [Option.some.injEq, Prod.mk.injEq] at hres
  obtain ⟨rfl, rfl⟩ := hres
  obtain ⟨hkeeps, hpg⟩ := cxlPageMalloc_own (b := 0) h (by decide) (by decide) hrun
  have hpop : KeepsOthers tid m (CxlShm.popBlock y pg m₁) := hkeeps.trans (.popBlock hpg)
  exact hpop.trans (.of_same (fun _ _ => rfl) rfl rfl)

/-- **`cxl_malloc` leaves the other clients alone.** -/
theorem cxlMalloc_others (h : Pool tid m G) {dataSize n : Nat} {r : CxlRef}
    (hfits : dataSize + sizeofCxlObj < 2 ^ 64)
    (hrun : cxlMalloc fuel tid size dataSize n m = some (r, m')) : KeepsOthers tid m m' := by
  simp only [cxlMalloc, Option.bind_eq_bind, Option.bind_eq_some_iff] at hrun
  obtain ⟨⟨t, m₁⟩, href, hobj⟩ := hrun
  have hkeeps := threadBaseRefAlloc_others h href
  obtain ⟨G₁, h₁, -⟩ := h.threadBaseRefAlloc href
  simp only [cxlRefAlloc] at hobj
  split at hobj
  case isFalse => cases hobj
  case isTrue hb =>
    simp only [Option.bind_eq_bind, Option.bind_eq_some_iff] at hobj
    obtain ⟨⟨y, pg, m₂⟩, hrun, hres⟩ := hobj
    simp only [Option.some.injEq, Prod.mk.injEq] at hres
    obtain ⟨-, rfl⟩ := hres
    have hb2 : cxlPageQueue false ((dataSize + sizeofCxlObj) % 2 ^ 64) ≠ 2 := by
      rw [cxlPageQueue_object hfits]
      omega
    obtain ⟨hkeeps₂, hpg⟩ := cxlPageMalloc_own h₁ hb hb2 hrun
    have hlink : KeepsOthers tid m₂ (linkBlockToTbr y t m₂) := .of_same (fun _ _ => rfl) rfl rfl
    have hpop : KeepsOthers tid m₂ (CxlShm.popBlock y pg (linkBlockToTbr y t m₂)) := hlink.trans (.popBlock hpg)
    exact ((hkeeps.trans hkeeps₂).trans hpop).trans (.of_same (fun _ _ => rfl) rfl rfl)

/-- The block wiped and on the local list of its page. -/
def putBack (special : Bool) (x : Nat) (m : Shm) : Shm :=
  collectBlock x (m.zeroWords x (wipedWords special (m.page (pageOf x)).blockSize))

theorem BlocksInv.putBack (h : BlocksInv tid m G) (hb2 : b ≠ 2) (hx : G.Held b x) :
    BlocksInv tid (putBack (decide (b < 2)) x m) (G.toLocal x) := by
  have hsize := (h.page b _ hx.block.1).size
  apply BlocksInv.toLocal _ hx
  apply h.words
  intro y hy
  refine Shm.zeroWords_word_of_ne fun k hk => h.held_add_ne hx hy (wipedWords_lt hb2 ?_)
  rwa [hsize] at hk

/-- The two ways out of `cxl_free` for the owner: blocks of the page are still in use, or it goes back. -/
theorem cxlFree_own_cases (h : BlocksInv tid m G) (hb2 : b ≠ 2) (hx : G.Held b x)
    (hrun : cxlFree tid (decide (b < 2)) x m = some m') :
    (((putBack (decide (b < 2)) x m).page (pageOf x)).used ≠ 0 ∧ m' = putBack (decide (b < 2)) x m) ∨
      (((putBack (decide (b < 2)) x m).page (pageOf x)).used = 0 ∧
        cxlPageFree tid (.bin b) (pageOf x) (putBack (decide (b < 2)) x m) = some m') := by
  have hpg := hx.block.1
  have hown : (m.segment (segmentIdx x)).threadId = tid := h.account.header _ (h.account.owned hpg).1
  have hsize := ((h.putBack hb2 hx).page b _ hpg).size
  unfold cxlFree at hrun
  simp only at hrun
  rw [if_pos (show ((m.zeroWords x (wipedWords (decide (b < 2)) (m.page (pageOf x)).blockSize)).segment
    (segmentIdx x)).threadId = tid from hown)] at hrun
  unfold freeLocal at hrun
  simp only at hrun
  split at hrun
  case isTrue hz =>
    refine Or.inr ⟨hz, ?_⟩
    have hbin : cxlPageQueue (decide (b < 2))
        ((CxlShm.putBack (decide (b < 2)) x m).page (pageOf x)).blockSize = b := by
      rw [hsize]
      exact cxlPageQueue_binSize (h.bin_lt hpg)
    rw [← hrun]
    exact congrArg (fun k => cxlPageFree tid (.bin k) (pageOf x) (CxlShm.putBack (decide (b < 2)) x m)) hbin.symm
  case isFalse hz => exact Or.inl ⟨hz, (Option.some.inj hrun).symm⟩

/-- **A client frees a block of its own.** -/
theorem cxlFree_own_others (h : BlocksInv tid m G) (hb2 : b ≠ 2) (hx : G.Held b x)
    (hrun : cxlFree tid (decide (b < 2)) x m = some m') : KeepsOthers tid m m' := by
  have hpg := hx.block.1
  have hzero : KeepsOthers tid m (m.zeroWords x (wipedWords (decide (b < 2)) (m.page (pageOf x)).blockSize)) :=
    .of_same (fun _ _ => rfl) rfl rfl
  have hback : KeepsOthers tid m (CxlShm.putBack (decide (b < 2)) x m) :=
    hzero.trans (.collectBlock (h.account.own hpg))
  rcases cxlFree_own_cases h hb2 hx hrun with ⟨-, rfl⟩ | ⟨-, hfree⟩
  · exact hback
  · exact hback.trans ((h.putBack hb2 hx).account.freePage_keeps hpg hfree)

end Frames

/-! ## §4 — what the others see -/

section Frame

variable {tid u : Nat} {m m' : Shm} {G : BlockLists}

/-- A byte of a block lies in the segment of the block. -/
theorem BlocksInv.segmentIdx_block (h : BlocksInv tid m G) {b x d : Nat} (hx : G.Block b x)
    (hd : d < binSize b) : segmentIdx (x + d) = segmentIdx x := by
  have hpage := (mem_segmentPages.mp (h.account.owned hx.1).2).2
  exact congrArg Prod.fst (pageOf_in_block hpage hx.2 hd)

/-- **A client's call is a use of the area for every other client** whose free blocks it does not write to. -/
theorem KeepsOthers.useFrame (hk : KeepsOthers tid m m') (hu : u ≠ tid) (hu0 : u ≠ 0)
    (hclaim : ∀ i, (m'.sas i).threadId = 0 → m'.segment i = Segment.zero)
    (hword : ∀ x, FreeBlock u m x → m'.word x = m.word x) : UseFrame u m m' := by
  have hothers : ∀ i, (m.sas i).threadId = u → OthersSegment tid m i := by
    rintro i rfl
    exact ⟨hu0, hu⟩
  refine ⟨fun q => ?_, fun i => ⟨fun hi => ?_, fun hi => ?_⟩, fun i hi => ?_, fun i hi => ?_, hclaim, hword⟩
  · rw [Shm.queue, Shm.queue, hk.tls u hu]
  · have hi' : OthersSegment tid m i := hk.gained i ⟨by rw [hi]; exact hu0, by rw [hi]; exact hu⟩
    rwa [hk.sas i hi'] at hi
  · rw [hk.sas i (hothers i hi)]
    exact hi
  · rw [hk.sas i (hothers i hi)]
  · exact hk.segment i (hothers i hi)

/-- What lies in no segment of another client is not in another client's free blocks. -/
theorem Pool.freeBlock_word (h : Pool u m G) (hu : u ≠ tid) (hu0 : u ≠ 0)
    (hword : ∀ a, m'.word a ≠ m.word a → ¬ OthersSegment tid m (segmentIdx a)) {x : Nat}
    (hx : FreeBlock u m x) : m'.word x = m.word x := by
  by_contra hne
  obtain ⟨b, hb⟩ := h.inv.listed_block (h.freeBlock_iff.mp hx)
  have hown : (m.sas (segmentIdx x)).threadId = u := (h.inv.account.owned hb.1).1
  apply hword x hne
  rw [OthersSegment, hown]
  exact ⟨hu0, hu⟩

end Frame

end CxlShm
