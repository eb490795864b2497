import CxlShm.BlockLists
import CxlShm.Cascade

/-! # LocalFree — what a client's free does to segments, pages and counters

`cxl_free` of an object, told apart by the owner of its segment. In a segment of another client the block is
wiped and goes to the `thread_free` list unless the segment is marked; in a segment of its own it goes to the
`local_free` list of its page, the page goes back with its last block and the segment with its last page.
While the counters cover what is alive, nothing goes back with an object alive in it.
-/

namespace CxlShm

/-- The segment is another client's, or nobody's: its header does not name `tid`. -/
def Foreign (m : Shm) (tid i : Nat) : Prop := (m.segment i).threadId ≠ tid

/-- The header of the segment names `tid`. -/
def Owned (m : Shm) (tid i : Nat) : Prop := (m.segment i).threadId = tid

/-! ## §1 — segments and their owners -/

section Free

variable {tid : Nat} {m m' : Shm}

/-- Segments other than `i` keep their entry in the vector, and no header comes to name `tid`. -/
structure SegmentsKept (tid i : Nat) (m m' : Shm) : Prop where
  sas : ∀ k, k ≠ i → m'.sas k = m.sas k
  foreign : ∀ k, Foreign m tid k → Foreign m' tid k

/-- `memset` of the header of the segment leaves no owner in it. -/
theorem releaseSegment_segments (htid : tid ≠ 0) (i : Nat) : SegmentsKept tid i m (releaseSegment tid i m) := by
  have honly := OnlyLinks.removePages tid i segmentPages m
  refine ⟨?_, ?_⟩
  · intro k hk
    simp only [releaseSegment, cxlSegmentClear_sas, Function.update_of_ne hk]
  · intro k hk
    have hseg : (releaseSegment tid i m).segment k = (cxlSegmentClear tid i m).segment k := rfl
    unfold Foreign
    rw [hseg, cxlSegmentClear_segment]
    split
    · exact htid.symm
    · rw [honly.owner]
      exact hk

theorem SegmentsKept.trans {i : Nat} {m₁ m₂ : Shm} (h : SegmentsKept tid i m m₁)
    (h' : SegmentsKept tid i m₁ m₂) : SegmentsKept tid i m m₂ :=
  ⟨fun k hk => (h'.sas k hk).trans (h.sas k hk), fun k hk => h'.foreign k (h.foreign k hk)⟩

theorem cxlPageFree_segments (htid : tid ≠ 0) {q : QueuePtr} {pg : Nat × Nat}
    (h : cxlPageFree tid q pg m = some m') (hi : (m.sas pg.1).threadId = tid) :
    SegmentsKept tid pg.1 m m' := by
  have hrel : SegmentsKept tid pg.1 m (cxlPageRelease tid q pg m) := by
    refine ⟨fun k _ => by rw [cxlPageRelease_sas], fun k hk => ?_⟩
    unfold Foreign
    rw [cxlPageRelease_owner]
    exact hk
  unfold cxlPageFree at h
  simp only at h
  split at h
  · rw [cxlSegmentFree_eq (by rw [cxlPageRelease_sas]; exact hi)] at h
    obtain rfl := Option.some.inj h
    exact hrel.trans (releaseSegment_segments htid _)
  · obtain rfl := Option.some.inj h
    exact hrel

/-- A free in another client's segment: the block is wiped, and goes to its list unless marked. -/
theorem cxlFree_foreign {b : Nat} (hf : Foreign m tid (segmentIdx b)) : cxlFree tid false b m =
    some (if (m.sas (segmentIdx b)).state = .potentialLeaking then m.zeroWords b 3
      else (m.zeroWords b 3).pushThreadFree (segmentIdx b) b) := by
  unfold cxlFree
  simp only [wipedWords, Bool.false_eq_true, if_false]
  rw [if_neg (show ¬ ((m.zeroWords b _).segment (segmentIdx b)).threadId = tid from hf)]
  show (if (m.sas (segmentIdx b)).state = .potentialLeaking then _ else _) = _
  split <;> rfl

/-- What a free in another client's segment leaves: `thread_free` of a marked segment stays as it was. -/
structure ForeignFreed (b : Nat) (m m' : Shm) : Prop where
  segment : m'.segment = m.segment
  sas : ∀ k, k ≠ segmentIdx b → m'.sas k = m.sas k
  state : (m'.sas (segmentIdx b)).state = (m.sas (segmentIdx b)).state
  marked : (m.sas (segmentIdx b)).state = .potentialLeaking →
    (m'.sas (segmentIdx b)).threadFree = (m.sas (segmentIdx b)).threadFree ∧ m'.word b = 0
  pushed : (m.sas (segmentIdx b)).state ≠ .potentialLeaking →
    (m'.sas (segmentIdx b)).threadFree = b ∧ m'.word b = (m.sas (segmentIdx b)).threadFree

theorem pushThreadFree_freed (b : Nat) (m : Shm) :
    (∀ k, k ≠ segmentIdx b → (((m.zeroWords b 3).pushThreadFree (segmentIdx b) b).sas k) = m.sas k) ∧
      (((m.zeroWords b 3).pushThreadFree (segmentIdx b) b).sas (segmentIdx b)).state =
        (m.sas (segmentIdx b)).state ∧
      (((m.zeroWords b 3).pushThreadFree (segmentIdx b) b).sas (segmentIdx b)).threadFree = b ∧
      ((m.zeroWords b 3).pushThreadFree (segmentIdx b) b).word b = (m.sas (segmentIdx b)).threadFree := by
  refine ⟨fun k hk => Function.update_of_ne hk .., ?_, ?_, Function.update_self ..⟩
  · simp only [Shm.pushThreadFree, Function.update_self]
    rfl
  · simp only [Shm.pushThreadFree, Function.update_self]

theorem cxlFree_foreignFreed {b : Nat} (hf : Foreign m tid (segmentIdx b))
    (hrun : cxlFree tid false b m = some m') : ForeignFreed b m m' := by
  rw [cxlFree_foreign hf] at hrun
  obtain rfl := Option.some.inj hrun
  obtain ⟨hsas, hstate, hhead, hlink⟩ := pushThreadFree_freed b m
  by_cases hmark : (m.sas (segmentIdx b)).state = .potentialLeaking
  · rw [if_pos hmark]
    refine ⟨rfl, fun _ _ => rfl, rfl, fun _ => ⟨rfl, ?_⟩, fun h => absurd hmark h⟩
    exact Shm.zeroWords_word_self (k := 0) (by decide)
  · rw [if_neg hmark]
    exact ⟨rfl, hsas, hstate, fun h => absurd h hmark, fun _ => ⟨hhead, hlink⟩⟩

/-- A free reads no word. -/
theorem ForeignFreed.congr {b : Nat} {m₁ : Shm} (h : ForeignFreed b m m') (hseg : m.segment = m₁.segment)
    (hsas : m.sas = m₁.sas) : ForeignFreed b m₁ m' := by
  obtain ⟨e, t, s, g, w⟩ := m
  obtain ⟨e₁, t₁, s₁, g₁, w₁⟩ := m₁
  subst hseg hsas
  exact ⟨h.segment, h.sas, h.state, h.marked, h.pushed⟩

/-- **A free** touches the allocation state of the block's segment only. -/
theorem cxlFree_segments (htid : tid ≠ 0) (h : OwnHeaders tid m) {b : Nat}
    (hrun : cxlFree tid false b m = some m') : SegmentsKept tid (segmentIdx b) m m' := by
  by_cases hown : Foreign m tid (segmentIdx b)
  · rw [cxlFree_foreign hown] at hrun
    obtain rfl := Option.some.inj hrun
    split
    · exact ⟨fun _ _ => rfl, fun _ hk => hk⟩
    · exact ⟨fun k hk => Function.update_of_ne hk .., fun _ hk => hk⟩
  · have hown : (m.segment (segmentIdx b)).threadId = tid := not_not.mp hown
    have hcollect : SegmentsKept tid (segmentIdx b) m (collectBlock b (m.zeroWords b 3)) := by
      refine ⟨fun _ _ => rfl, fun k hk hk' => hk ?_⟩
      rw [← hk']
      exact (Shm.threadId_setPage ..).symm
    unfold cxlFree at hrun
    simp only [wipedWords, Bool.false_eq_true, if_false] at hrun
    rw [if_pos (show ((m.zeroWords b _).segment (segmentIdx b)).threadId = tid from hown)] at hrun
    unfold freeLocal at hrun
    simp only at hrun
    split at hrun
    · exact hcollect.trans (cxlPageFree_segments htid hrun (h _ hown))
    · obtain rfl := Option.some.inj hrun
      exact hcollect

end Free

/-! ## §2 — a free in a page of the client's own -/

section Local

variable {tid b : Nat} {m m' : Shm}

/-- The free list and the counter of a page. -/
def SameCounts (p p' : Page) : Prop := p'.localFree = p.localFree ∧ p'.used = p.used

theorem SameCounts.of_body {p p' : Page} (h : p'.body = p.body) : SameCounts p p' := by
  simp only [Page.body, Page.mk.injEq] at h
  exact ⟨h.2.1, h.2.2.2.1⟩

/-- The block is the head of the local list of its page, which counts one block less. A page that counted one
block only is given back, and with it a segment that counted one page only; nothing else changes. -/
structure LocalFreed (tid b : Nat) (m m' : Shm) : Prop where
  word : m'.word b = (m.page (pageOf b)).localFree
  page : (m.page (pageOf b)).used ≠ 1 → (m'.page (pageOf b)).localFree = b ∧
    (m'.page (pageOf b)).used + 1 = (m.page (pageOf b)).used
  others : ∀ pg, pg ≠ pageOf b → (pg.1 ≠ segmentIdx b ∨ (m.page (pageOf b)).used ≠ 1 ∨
    (m.segment (segmentIdx b)).used ≠ 1) → SameCounts (m.page pg) (m'.page pg)
  owner : (m.page (pageOf b)).used ≠ 1 ∨ (m.segment (segmentIdx b)).used ≠ 1 →
    (m'.segment (segmentIdx b)).threadId = tid
  full : (m.page (pageOf b)).used ≠ 1 → (m'.segment (segmentIdx b)).used = (m.segment (segmentIdx b)).used
  last : (m.page (pageOf b)).used = 1 → (m.segment (segmentIdx b)).used ≠ 1 →
    (m'.segment (segmentIdx b)).used + 1 = (m.segment (segmentIdx b)).used
  segment : ∀ k, k ≠ segmentIdx b → (m'.segment k).threadId = (m.segment k).threadId ∧
    (m'.segment k).used = (m.segment k).used

theorem collectBlock_page (b : Nat) (m : Shm) (pg : Nat × Nat) : (collectBlock b (m.zeroWords b 3)).page pg =
    if pg = pageOf b then
      { m.page pg with localFree := b, used := ((m.page pg).used + (2 ^ 32 - 1)) % 2 ^ 32 }
    else m.page pg := by
  unfold collectBlock
  simp only
  rw [Shm.page_setPage]
  split
  case isTrue h =>
    subst h
    rfl
  case isFalse => rfl

theorem cxlPageRelease_used (q : QueuePtr) (pg : Nat × Nat) (k : Nat) :
    ((cxlPageRelease tid q pg m).segment k).used =
      if k = pg.1 then ((m.segment k).used + (2 ^ 32 - 1)) % 2 ^ 32 else (m.segment k).used := by
  have hrem := OnlyLinks.remove m tid q pg
  have hpush := OnlyLinks.push ((cxlPageQueueRemove tid q pg m).setPage pg Page.zero) tid .freePage pg
  have hsame : ∀ i, ((cxlPageQueuePush tid .freePage pg ((cxlPageQueueRemove tid q pg m).setPage pg
      Page.zero)).segment i).used = (m.segment i).used := by
    intro i
    rw [hpush.used, Shm.used_setPage, hrem.used]
  rw [cxlPageRelease, setSegmentUsed_used, hsame, hsame]
  split
  case isTrue h => rw [h]
  case isFalse => rfl

/-- The header of a segment that is not given back. -/
theorem releaseSegment_header {i k : Nat} (hk : k ≠ i) :
    ((releaseSegment tid i m).segment k).threadId = (m.segment k).threadId ∧
      ((releaseSegment tid i m).segment k).used = (m.segment k).used := by
  have honly := OnlyLinks.removePages tid i segmentPages m
  have hseg : (releaseSegment tid i m).segment k = (cxlSegmentClear tid i m).segment k := rfl
  rw [hseg, cxlSegmentClear_segment, if_neg hk]
  exact ⟨honly.owner k, honly.used k⟩

/-- A page goes back: no other page changes, unless the whole segment goes back. -/
structure PageReturned (tid : Nat) (pg : Nat × Nat) (m m' : Shm) : Prop where
  word : m'.word = m.word
  others : ∀ pg', pg' ≠ pg → (pg'.1 ≠ pg.1 ∨ (m.segment pg.1).used ≠ 1) → SameCounts (m.page pg') (m'.page pg')
  header : (m.segment pg.1).used ≠ 1 → (m'.segment pg.1).threadId = tid ∧
    (m'.segment pg.1).used + 1 = (m.segment pg.1).used
  segment : ∀ k, k ≠ pg.1 → (m'.segment k).threadId = (m.segment k).threadId ∧
    (m'.segment k).used = (m.segment k).used

theorem cxlPageFree_returned {q : QueuePtr} {pg : Nat × Nat} (hsas : (m.sas pg.1).threadId = tid)
    (hown : (m.segment pg.1).threadId = tid)
    (hseg : 0 < (m.segment pg.1).used ∧ (m.segment pg.1).used < 2 ^ 32)
    (hrun : cxlPageFree tid q pg m = some m') : PageReturned tid pg m m' := by
  have hword : (cxlPageRelease tid q pg m).word = m.word := (cxlPageRelease_keeps q pg).word
  have hpage : ∀ pg', pg' ≠ pg → SameCounts (m.page pg') ((cxlPageRelease tid q pg m).page pg') :=
    fun pg' hne => SameCounts.of_body (cxlPageRelease_page q hne)
  have hused : ∀ k, ((cxlPageRelease tid q pg m).segment k).used =
      if k = pg.1 then ((m.segment k).used + (2 ^ 32 - 1)) % 2 ^ 32 else (m.segment k).used :=
    cxlPageRelease_used q pg
  have hself : ((cxlPageRelease tid q pg m).segment pg.1).used + 1 = (m.segment pg.1).used := by
    rw [hused, if_pos rfl]
    omega
  have hrest : ∀ k, k ≠ pg.1 → ((cxlPageRelease tid q pg m).segment k).threadId = (m.segment k).threadId ∧
      ((cxlPageRelease tid q pg m).segment k).used = (m.segment k).used := by
    intro k hk
    refine ⟨cxlPageRelease_owner q pg k, ?_⟩
    rw [hused, if_neg hk]
  unfold cxlPageFree at hrun
  simp only at hrun
  split at hrun
  case isFalse hz =>
    obtain rfl := Option.some.inj hrun
    refine ⟨hword, fun pg' hne _ => hpage pg' hne, fun _ => ⟨?_, hself⟩, hrest⟩
    exact (cxlPageRelease_owner q pg pg.1).trans hown
  case isTrue hz =>
    -- the segment goes back as well
    have hlast : (m.segment pg.1).used = 1 := by omega
    rw [cxlSegmentFree_eq (by rw [cxlPageRelease_sas]; exact hsas)] at hrun
    obtain rfl := Option.some.inj hrun
    refine ⟨?_, ?_, fun h => absurd hlast h, ?_⟩
    · have hkeeps : (releaseSegment tid pg.1 (cxlPageRelease tid q pg m)).word = (cxlPageRelease tid q pg m).word :=
        (releaseSegment_keeps pg.1).word
      rw [hkeeps, hword]
    · intro pg' hne hor
      have hseg : pg'.1 ≠ pg.1 := hor.resolve_right fun h => h hlast
      have hbody := SameCounts.of_body (cxlSegmentClear_page tid (cxlPageRelease tid q pg m) hseg)
      exact ⟨hbody.1.trans (hpage pg' hne).1, hbody.2.trans (hpage pg' hne).2⟩
    · intro k hk
      have hheader : ((releaseSegment tid pg.1 (cxlPageRelease tid q pg m)).segment k).threadId =
            ((cxlPageRelease tid q pg m).segment k).threadId ∧
          ((releaseSegment tid pg.1 (cxlPageRelease tid q pg m)).segment k).used =
            ((cxlPageRelease tid q pg m).segment k).used := releaseSegment_header hk
      obtain ⟨h₁, h₂⟩ := hheader
      exact ⟨h₁.trans (hrest k hk).1, h₂.trans (hrest k hk).2⟩

theorem cxlFree_ownPage (hown : (m.segment (segmentIdx b)).threadId = tid) : cxlFree tid false b m =
    if ((collectBlock b (m.zeroWords b 3)).page (pageOf b)).used = 0 then
      cxlPageFree tid (.bin (cxlPageQueue false ((collectBlock b (m.zeroWords b 3)).page (pageOf b)).blockSize))
        (pageOf b) (collectBlock b (m.zeroWords b 3))
    else some (collectBlock b (m.zeroWords b 3)) :=
  if_pos hown

/-- **A free in a segment of the client's own**, the two counters being positive. -/
theorem cxlFree_local (hheaders : OwnHeaders tid m) (hown : (m.segment (segmentIdx b)).threadId = tid)
    (hused : 0 < (m.page (pageOf b)).used ∧ (m.page (pageOf b)).used < 2 ^ 32)
    (hseg : 0 < (m.segment (segmentIdx b)).used ∧ (m.segment (segmentIdx b)).used < 2 ^ 32)
    (hrun : cxlFree tid false b m = some m') : LocalFreed tid b m m' := by
  rw [cxlFree_ownPage hown] at hrun
  have hpage := collectBlock_page b m
  have howner : ∀ k, ((collectBlock b (m.zeroWords b 3)).segment k).threadId = (m.segment k).threadId :=
    fun k => Shm.threadId_setPage ..
  have hcount : ∀ k, ((collectBlock b (m.zeroWords b 3)).segment k).used = (m.segment k).used :=
    fun k => Shm.used_setPage ..
  have hsas : ((collectBlock b (m.zeroWords b 3)).sas (segmentIdx b)).threadId = tid := hheaders _ hown
  have hword : (collectBlock b (m.zeroWords b 3)).word b = (m.page (pageOf b)).localFree :=
    Function.update_self ..
  have hself := hpage (pageOf b)
  rw [if_pos rfl] at hself
  have hafter : ((collectBlock b (m.zeroWords b 3)).page (pageOf b)).used + 1 = (m.page (pageOf b)).used := by
    rw [hself]
    show ((m.page (pageOf b)).used + (2 ^ 32 - 1)) % 2 ^ 32 + 1 = (m.page (pageOf b)).used
    omega
  have hsame : ∀ pg, pg ≠ pageOf b → SameCounts (m.page pg) ((collectBlock b (m.zeroWords b 3)).page pg) := by
    intro pg hpg
    rw [hpage, if_neg hpg]
    exact ⟨rfl, rfl⟩
  generalize collectBlock b (m.zeroWords b 3) = c at *
  split at hrun
  case isFalse hz =>
    obtain rfl := Option.some.inj hrun
    have hmore : (m.page (pageOf b)).used ≠ 1 := by omega
    refine ⟨hword, fun _ => ⟨by rw [hself], hafter⟩, fun pg hpg _ => hsame pg hpg, ?_, ?_, ?_, ?_⟩
    · exact fun _ => (howner _).trans hown
    · exact fun _ => hcount _
    · exact fun h => absurd h hmore
    · exact fun k _ => ⟨howner k, hcount k⟩
  case isTrue hz =>
    have hone : (m.page (pageOf b)).used = 1 := by omega
    have hret : PageReturned tid (pageOf b) c m' := by
      refine cxlPageFree_returned hsas ((howner _).trans hown) ?_ hrun
      rw [hcount]
      exact hseg
    have hidx : (pageOf b).1 = segmentIdx b := rfl
    refine ⟨?_, fun h => absurd hone h, ?_, ?_, fun h => absurd hone h, ?_, ?_⟩
    · rw [hret.word]
      exact hword
    · intro pg hpg hor
      have hkept := hret.others pg hpg (by rw [hcount, hidx]; exact hor.imp_right (·.resolve_left fun h => h hone))
      exact ⟨hkept.1.trans (hsame pg hpg).1, hkept.2.trans (hsame pg hpg).2⟩
    · intro hor
      have hmany := hor.resolve_left fun h => h hone
      exact (hret.header (by rw [hcount]; exact hmany)).1
    · intro _ hmany
      have hcnt := (hret.header (by rw [hcount]; exact hmany)).2
      rw [hcount] at hcnt
      exact hcnt
    · intro k hk
      obtain ⟨h₁, h₂⟩ := hret.segment k hk
      exact ⟨h₁.trans (howner k), h₂.trans (hcount k)⟩

/-- A free depends on the metadata only. -/
theorem LocalFreed.congr {m₁ : Shm} (h : LocalFreed tid b m m') (hseg : m.segment = m₁.segment) :
    LocalFreed tid b m₁ m' := by
  obtain ⟨e, t, s, g, w⟩ := m
  obtain ⟨e₁, t₁, s₁, g₁, w₁⟩ := m₁
  subst hseg
  exact ⟨h.word, h.page, h.others, h.owner, h.full, h.last, h.segment⟩

/-- **What the log of frees stands for**: an object is written down when `unlink_reference` drops its last
reference; its header is wiped, and its block is pushed on the list of its segment or of its page. -/
theorem unlinkFreeing_logged {ref refed : Nat} {x y : Freeing} (hal : Alone tid x.area)
    (hrun : unlinkFreeing tid ref refed x = some y) :
    (x.area.refCnt refed ≠ 1 ∧ y.freed = x.freed ∧ y.area = unlinkStores tid ref refed x.area) ∨
    (x.area.refCnt refed = 1 ∧ y.freed = refed :: x.freed ∧
      HeaderWiped refed (unlinkStores tid ref refed x.area) y.area ∧
      (Foreign x.area tid (segmentIdx refed) → ForeignFreed refed x.area y.area) ∧
      (Owned x.area tid (segmentIdx refed) →
        0 < (x.area.page (pageOf refed)).used ∧ (x.area.page (pageOf refed)).used < 2 ^ 32 →
        0 < (x.area.segment (segmentIdx refed)).used ∧ (x.area.segment (segmentIdx refed)).used < 2 ^ 32 →
        LocalFreed tid refed x.area y.area)) := by
  unfold unlinkFreeing unlinkReference at hrun
  obtain ⟨m', hfree, rfl⟩ := Option.map_eq_some_iff.mp hrun
  have hheaders := (hal.unlinkStores ref refed).headers
  have hsegment := unlinkStores_segment tid ref refed x.area
  by_cases hone : x.area.refCnt refed = 1
  case neg =>
    rw [if_neg (show ¬ getRefCntFromInfo (x.area.refInfo refed) = 1 from hone)] at hfree
    exact Or.inl ⟨hone, if_neg hone, (Option.some.inj hfree).symm⟩
  case pos =>
    rw [if_pos (show getRefCntFromInfo (x.area.refInfo refed) = 1 from hone)] at hfree
    obtain ⟨m₁, hrun', hwiped, -⟩ := cxlFree_wiped hheaders refed
    obtain rfl := Option.some.inj (hrun'.symm.trans hfree)
    refine Or.inr ⟨hone, if_pos hone, hwiped, fun hf => ?_, fun hown hpage hseg => ?_⟩
    · have hf' : Foreign (unlinkStores tid ref refed x.area) tid (segmentIdx refed) := by
        unfold Foreign
        rw [hsegment]
        exact hf
      exact (cxlFree_foreignFreed hf' hfree).congr hsegment (unlinkStores_sas ..)
    · have hlocal : LocalFreed tid refed (unlinkStores tid ref refed x.area) m₁ := by
        apply cxlFree_local hheaders _ _ _ hfree
        · rw [hsegment]
          exact hown
        · rw [Shm.page, hsegment]
          exact hpage
        · rw [hsegment]
          exact hseg
      exact hlocal.congr hsegment

end Local

/-! ## §3 — counters that cover what is alive -/

/-- The objects alive in a page. -/
def livingIn (H : ObjHeap) (m : Shm) (pg : Nat × Nat) : Finset Nat :=
  H.objs.filter fun o => pageOf o = pg ∧ m.refCnt o ≠ 0

/-- The pages of segment `i` with an object alive. -/
def livingPages (H : ObjHeap) (m : Shm) (i : Nat) : Finset (Nat × Nat) :=
  (H.objs.filter fun o => segmentIdx o = i ∧ m.refCnt o ≠ 0).image pageOf

/-- Around every object alive in a segment of `own`: the header of its segment names the client, and the
counters of its page and segment are at least the objects and pages alive in them. -/
structure CountersCover (H : ObjHeap) (own : Nat → Prop) (tid : Nat) (m : Shm) : Prop where
  owner : ∀ o ∈ H.objs, m.refCnt o ≠ 0 → own (segmentIdx o) → (m.segment (segmentIdx o)).threadId = tid
  page : ∀ o ∈ H.objs, m.refCnt o ≠ 0 → own (segmentIdx o) →
    (livingIn H m (pageOf o)).card ≤ (m.page (pageOf o)).used ∧ (m.page (pageOf o)).used < 2 ^ 32
  segment : ∀ o ∈ H.objs, m.refCnt o ≠ 0 → own (segmentIdx o) →
    (livingPages H m (segmentIdx o)).card ≤ (m.segment (segmentIdx o)).used ∧
      (m.segment (segmentIdx o)).used < 2 ^ 32

section Cover

variable {H : ObjHeap} {own : Nat → Prop} {tid o p i : Nat} {pg : Nat × Nat} {m m' : Shm}

theorem mem_livingIn : p ∈ livingIn H m pg ↔ p ∈ H.objs ∧ pageOf p = pg ∧ m.refCnt p ≠ 0 :=
  Finset.mem_filter

theorem mem_livingPages : pg ∈ livingPages H m i ↔
    ∃ p ∈ H.objs, segmentIdx p = i ∧ m.refCnt p ≠ 0 ∧ pageOf p = pg := by
  simp only [livingPages, Finset.mem_image, Finset.mem_filter, and_assoc]

theorem livingIn_mono (hlive : ∀ p ∈ H.objs, m'.refCnt p ≠ 0 → m.refCnt p ≠ 0) :
    livingIn H m' pg ⊆ livingIn H m pg := by
  intro p hp
  obtain ⟨ho, hpg, hne⟩ := mem_livingIn.mp hp
  exact mem_livingIn.mpr ⟨ho, hpg, hlive p ho hne⟩

theorem livingPages_mono (hlive : ∀ p ∈ H.objs, m'.refCnt p ≠ 0 → m.refCnt p ≠ 0) :
    livingPages H m' i ⊆ livingPages H m i := by
  intro pg hpg
  obtain ⟨p, ho, hi, hne, rfl⟩ := mem_livingPages.mp hpg
  exact mem_livingPages.mpr ⟨p, ho, hi, hlive p ho hne, rfl⟩

/-- What the metadata does not change is covered as before. -/
theorem CountersCover.mono (h : CountersCover H own tid m) (hseg : m'.segment = m.segment)
    (hlive : ∀ p ∈ H.objs, m'.refCnt p ≠ 0 → m.refCnt p ≠ 0) : CountersCover H own tid m' := by
  refine ⟨?_, ?_, ?_⟩
  · intro p hp hne hown
    rw [hseg]
    exact h.owner p hp (hlive p hp hne) hown
  · intro p hp hne hown
    obtain ⟨hle, hlt⟩ := h.page p hp (hlive p hp hne) hown
    have hsame : m'.page (pageOf p) = m.page (pageOf p) := by
      unfold Shm.page
      rw [hseg]
    rw [hsame]
    exact ⟨(Finset.card_le_card (livingIn_mono hlive)).trans hle, hlt⟩
  · intro p hp hne hown
    obtain ⟨hle, hlt⟩ := h.segment p hp (hlive p hp hne) hown
    rw [hseg]
    exact ⟨(Finset.card_le_card (livingPages_mono hlive)).trans hle, hlt⟩

/-- Both counters are positive where an object lives. -/
theorem CountersCover.pos (h : CountersCover H own tid m) (ho : o ∈ H.objs) (hlive : m.refCnt o ≠ 0)
    (hown : own (segmentIdx o)) :
    (0 < (m.page (pageOf o)).used ∧ (m.page (pageOf o)).used < 2 ^ 32) ∧
      0 < (m.segment (segmentIdx o)).used ∧ (m.segment (segmentIdx o)).used < 2 ^ 32 := by
  obtain ⟨hle, hlt⟩ := h.page o ho hlive hown
  obtain ⟨hle', hlt'⟩ := h.segment o ho hlive hown
  have hpos : 0 < (livingIn H m (pageOf o)).card :=
    Finset.card_pos.mpr ⟨o, mem_livingIn.mpr ⟨ho, rfl, hlive⟩⟩
  have hpos' : 0 < (livingPages H m (segmentIdx o)).card :=
    Finset.card_pos.mpr ⟨pageOf o, mem_livingPages.mpr ⟨o, ho, rfl, hlive, rfl⟩⟩
  exact ⟨⟨Nat.lt_of_lt_of_le hpos hle, hlt⟩, Nat.lt_of_lt_of_le hpos' hle', hlt'⟩

/-- Two objects alive in one page. -/
theorem CountersCover.page_two (h : CountersCover H own tid m) (ho : o ∈ H.objs) (hlive : m.refCnt o ≠ 0)
    (hown : own (segmentIdx o)) (hp : p ∈ H.objs) (hplive : m.refCnt p ≠ 0) (hpage : pageOf p = pageOf o)
    (hne : p ≠ o) : (m.page (pageOf o)).used ≠ 1 := by
  have htwo : 1 < (livingIn H m (pageOf o)).card :=
    Finset.one_lt_card.mpr ⟨p, mem_livingIn.mpr ⟨hp, hpage, hplive⟩, o, mem_livingIn.mpr ⟨ho, rfl, hlive⟩, hne⟩
  have hle := (h.page o ho hlive hown).1
  omega

/-- Two objects alive in two pages of one segment. -/
theorem CountersCover.segment_two (h : CountersCover H own tid m) (ho : o ∈ H.objs) (hlive : m.refCnt o ≠ 0)
    (hown : own (segmentIdx o)) (hp : p ∈ H.objs) (hplive : m.refCnt p ≠ 0)
    (hseg : segmentIdx p = segmentIdx o) (hne : pageOf p ≠ pageOf o) :
    (m.segment (segmentIdx o)).used ≠ 1 := by
  have htwo : 1 < (livingPages H m (segmentIdx o)).card :=
    Finset.one_lt_card.mpr ⟨pageOf p, mem_livingPages.mpr ⟨p, hp, hseg, hplive, rfl⟩, pageOf o,
      mem_livingPages.mpr ⟨o, ho, rfl, hlive, rfl⟩, hne⟩
  have hle := (h.segment o ho hlive hown).1
  omega

/-- The free of `o` leaves the page of another object alive. -/
theorem CountersCover.others (h : CountersCover H own tid m) (hfree : LocalFreed tid o m m') (ho : o ∈ H.objs)
    (hlive : m.refCnt o ≠ 0) (hown : own (segmentIdx o)) (hp : p ∈ H.objs) (hplive : m.refCnt p ≠ 0)
    (hne : pageOf p ≠ pageOf o) : SameCounts (m.page (pageOf p)) (m'.page (pageOf p)) := by
  apply hfree.others _ hne
  by_cases hseg : segmentIdx p = segmentIdx o
  · exact Or.inr (Or.inr (h.segment_two ho hlive hown hp hplive hseg hne))
  · exact Or.inl hseg

/-- **The counters cover what is alive after a free** in a segment of the client's own. -/
theorem CountersCover.free (h : CountersCover H own tid m) (hfree : LocalFreed tid o m m') (ho : o ∈ H.objs)
    (hlive : m.refCnt o ≠ 0) (hown : own (segmentIdx o)) (hdead : m'.refCnt o = 0)
    (hmono : ∀ p ∈ H.objs, m'.refCnt p ≠ 0 → m.refCnt p ≠ 0) : CountersCover H own tid m' := by
  have hne : ∀ p, m'.refCnt p ≠ 0 → p ≠ o := by
    rintro p hp rfl
    exact hp hdead
  refine ⟨?_, ?_, ?_⟩
  · intro p hp hplive hpown
    have hpm := hmono p hp hplive
    by_cases hseg : segmentIdx p = segmentIdx o
    · rw [hseg]
      apply hfree.owner
      by_cases hpage : pageOf p = pageOf o
      · exact Or.inl (h.page_two ho hlive hown hp hpm hpage (hne p hplive))
      · exact Or.inr (h.segment_two ho hlive hown hp hpm hseg hpage)
    · rw [(hfree.segment _ hseg).1]
      exact h.owner p hp hpm hpown
  · intro p hp hplive hpown
    have hpm := hmono p hp hplive
    by_cases hpage : pageOf p = pageOf o
    · -- the freed object is no longer among the living of the page
      have hmore := h.page_two ho hlive hown hp hpm hpage (hne p hplive)
      obtain ⟨hle, hlt⟩ := h.page o ho hlive hown
      obtain ⟨-, hused⟩ := hfree.page hmore
      have hsub : livingIn H m' (pageOf o) ⊆ (livingIn H m (pageOf o)).erase o := by
        intro q hq
        refine Finset.mem_erase.mpr ⟨?_, livingIn_mono hmono hq⟩
        exact hne q (mem_livingIn.mp hq).2.2
      have hcard := Finset.card_le_card hsub
      rw [Finset.card_erase_of_mem (mem_livingIn.mpr ⟨ho, rfl, hlive⟩)] at hcard
      rw [hpage]
      omega
    · obtain ⟨hle, hlt⟩ := h.page p hp hpm hpown
      rw [(h.others hfree ho hlive hown hp hpm hpage).2]
      exact ⟨(Finset.card_le_card (livingIn_mono hmono)).trans hle, hlt⟩
  · intro p hp hplive hpown
    have hpm := hmono p hp hplive
    by_cases hseg : segmentIdx p = segmentIdx o
    case neg =>
      obtain ⟨hle, hlt⟩ := h.segment p hp hpm hpown
      rw [(hfree.segment _ hseg).2]
      exact ⟨(Finset.card_le_card (livingPages_mono hmono)).trans hle, hlt⟩
    case pos =>
      rw [hseg]
      obtain ⟨hle, hlt⟩ := h.segment o ho hlive hown
      by_cases hone : (m.page (pageOf o)).used = 1
      · -- nothing else was alive in the page of the freed object
        have hlone : ∀ q ∈ H.objs, m'.refCnt q ≠ 0 → pageOf q ≠ pageOf o := fun q hq hqlive hqpage =>
          h.page_two ho hlive hown hq (hmono q hq hqlive) hqpage (hne q hqlive) hone
        have hmany := h.segment_two ho hlive hown hp hpm hseg (hlone p hp hplive)
        have hused := hfree.last hone hmany
        have hsub : livingPages H m' (segmentIdx o) ⊆ (livingPages H m (segmentIdx o)).erase (pageOf o) := by
          intro pg hpg
          obtain ⟨q, hq, -, hqlive, rfl⟩ := mem_livingPages.mp hpg
          exact Finset.mem_erase.mpr ⟨hlone q hq hqlive, livingPages_mono hmono hpg⟩
        have hcard := Finset.card_le_card hsub
        rw [Finset.card_erase_of_mem (mem_livingPages.mpr ⟨o, ho, rfl, hlive, rfl⟩)] at hcard
        omega
      · rw [hfree.full hone]
        exact ⟨(Finset.card_le_card (livingPages_mono hmono)).trans hle, hlt⟩

end Cover

end CxlShm
