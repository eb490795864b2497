import CxlShm.PageLists
import CxlShm.Lib.Transition

/-! # SegmentAccount — pages and segments over the runs of a client

A client takes fresh pages, uses their blocks and releases them, while the others do what they like
with what is theirs. In every state each page of each of its segments is free or on one bin, the header
counts the latter, and a segment that is given back leaves no trace in the queues.
-/

namespace CxlShm

open DoublyLinked Transition

/-! ## §1 — what the calls keep -/

section Calls

variable {tid size : Nat} {m m' : Shm} {L : QueuePtr → List (Nat × Nat)} {q : QueuePtr} {pg : Nat × Nat}
  {out : PagePtr}

theorem findUnowned_some {rounds i k : Nat} (h : findUnowned size m rounds i = some k) :
    (m.sas k).threadId = 0 ∧ segmentsAreaStart + (k + 1) * segmentSize ≤ size := by
  induction rounds generalizing i with
  | zero => simp [findUnowned] at h
  | succ rounds ih =>
    unfold findUnowned at h
    split at h
    · simp at h
    · rename_i hle
      split at h
      · rename_i hi
        obtain rfl := Option.some.inj h
        exact ⟨hi, Nat.le_of_not_lt hle⟩
      · exact ih h

theorem cxlSegmentAlloc_some {i : Nat} (hrun : cxlSegmentAlloc tid size m = some (i, m')) :
    (m.sas i).threadId = 0 ∧ m' = pushPages tid i segmentPages (claimSegment tid i m) := by
  unfold cxlSegmentAlloc at hrun
  obtain ⟨k, hk, he⟩ := Option.map_eq_some_iff.mp hrun
  obtain ⟨rfl, rfl⟩ := Prod.mk.inj he
  exact ⟨(findUnowned_some hk).1, rfl⟩

theorem findUnowned_isSome {rounds i k : Nat} (hik : i ≤ k) (hk : k < i + rounds)
    (hown : (m.sas k).threadId = 0) (hsize : segmentsAreaStart + (k + 1) * segmentSize ≤ size) :
    (findUnowned size m rounds i).isSome := by
  induction rounds generalizing i with
  | zero => omega
  | succ rounds ih =>
    have hle : (i + 1) * segmentSize ≤ (k + 1) * segmentSize :=
      Nat.mul_le_mul_right _ (Nat.succ_le_succ hik)
    rw [findUnowned, if_neg (by omega)]
    split
    · rfl
    · rename_i hi
      have hne : i ≠ k := fun he => hi (he ▸ hown)
      exact ih (by omega) (by omega)

/-- There is a segment to claim. -/
def Claimable (size : Nat) (m : Shm) : Prop :=
  ∃ i, (m.sas i).threadId = 0 ∧ segmentsAreaStart + (i + 1) * segmentSize ≤ size

theorem cxlSegmentAlloc_eq_none_iff : cxlSegmentAlloc tid size m = none ↔ ¬ Claimable size m := by
  rw [cxlSegmentAlloc, Option.map_eq_none_iff]
  constructor
  · rintro hnone ⟨k, hk, hsize⟩
    have hlt : k < 0 + size := by
      simp only [segmentSize] at hsize
      omega
    have hsome := findUnowned_isSome (Nat.zero_le k) hlt hk hsize
    rw [hnone] at hsome
    exact absurd hsome (by simp)
  · intro hn
    cases hf : findUnowned size m size 0 with
    | none => rfl
    | some k => exact absurd ⟨k, findUnowned_some hf⟩ hn

/-! The three ways through `cxl_segment_page_alloc`. -/

theorem cxlSegmentPageAlloc_free {fuel : Nat} (hf : (m.queue tid .freePage).first = some pg) :
    cxlSegmentPageAlloc tid size (fuel + 1) m = some (some pg,
      (cxlPageQueueRemove tid .freePage pg m).setSegmentUsed pg.1
        ((((cxlPageQueueRemove tid .freePage pg m).segment pg.1).used + 1) % 2 ^ 32)) := by
  simp only [cxlSegmentPageAlloc, hf]

theorem cxlSegmentPageAlloc_new {fuel i : Nat} (hf : (m.queue tid .freePage).first = none)
    (ha : cxlSegmentAlloc tid size m = some (i, m')) :
    cxlSegmentPageAlloc tid size (fuel + 1) m = cxlSegmentPageAlloc tid size fuel m' := by
  simp only [cxlSegmentPageAlloc, hf, ha]

theorem cxlSegmentPageAlloc_full {fuel : Nat} (hf : (m.queue tid .freePage).first = none)
    (ha : cxlSegmentAlloc tid size m = none) :
    cxlSegmentPageAlloc tid size (fuel + 1) m = some (none, m) := by
  simp only [cxlSegmentPageAlloc, hf, ha]

/-- **A page is found**, in a new segment if there is no free page. -/
theorem cxlSegmentPageAlloc_some (h : AccountInv tid m L none) {fuel : Nat}
    (hrun : cxlSegmentPageAlloc tid size fuel m = some (some pg, m')) :
    ∃ L', AccountInv tid m' L' (some pg) ∧ (∀ b, L' (.bin b) = L (.bin b)) ∧
      (m'.page pg).free = 0 := by
  induction fuel generalizing m L with
  | zero => exact absurd hrun (by simp [cxlSegmentPageAlloc])
  | succ fuel ih =>
    cases hf : (m.queue tid .freePage).first with
    | none =>
      cases ha : cxlSegmentAlloc tid size m with
      | none =>
        rw [cxlSegmentPageAlloc_full hf ha] at hrun
        simp at hrun
      | some p =>
        obtain ⟨i, m₁⟩ := p
        rw [cxlSegmentPageAlloc_new hf ha] at hrun
        obtain ⟨hi, rfl⟩ := cxlSegmentAlloc_some ha
        obtain ⟨L', hinv, hbins, hfree⟩ := ih (h.claim hi) hrun
        refine ⟨L', hinv, fun b => ?_, hfree⟩
        rw [hbins, Function.update_of_ne (by simp)]
    | some page =>
      rw [cxlSegmentPageAlloc_free hf] at hrun
      simp only [Option.some.injEq, Prod.mk.injEq] at hrun
      obtain ⟨rfl, rfl⟩ := hrun
      have hpg : page ∈ L .freePage := h.queued.first_mem hf
      refine ⟨_, h.take hpg, fun b => Function.update_of_ne (by simp) _ _, ?_⟩
      rw [setSegmentUsed_page, ((OnlyLinks.remove m tid .freePage page).free page).1]
      exact (h.clean page hpg).1

theorem cxlSegmentPageAlloc_word {fuel : Nat} {p : PagePtr}
    (hrun : cxlSegmentPageAlloc tid size fuel m = some (p, m')) : m'.word = m.word := by
  induction fuel generalizing m with
  | zero => exact absurd hrun (by simp [cxlSegmentPageAlloc])
  | succ fuel ih =>
    cases hf : (m.queue tid .freePage).first with
    | none =>
      cases ha : cxlSegmentAlloc tid size m with
      | none =>
        rw [cxlSegmentPageAlloc_full hf ha] at hrun
        simp only [Option.some.injEq, Prod.mk.injEq] at hrun
        rw [hrun.2]
      | some r =>
        rw [cxlSegmentPageAlloc_new hf ha] at hrun
        obtain ⟨-, hm₁⟩ := cxlSegmentAlloc_some ha
        rw [ih hrun, hm₁, (OnlyLinks.pushPages ..).word]
        rfl
    | some page =>
      rw [cxlSegmentPageAlloc_free hf] at hrun
      simp only [Option.some.injEq, Prod.mk.injEq] at hrun
      rw [← hrun.2]
      exact (OnlyLinks.remove m tid .freePage page).word

/-! `cxl_page_init` writes the words of the page and its metadata. -/

theorem foldl_initBlock_setPage (special : Bool) (start bs : Nat) (d : Page) (js : List Nat) (m : Shm) :
    js.foldl (initBlock special start bs) (m.setPage pg d) =
      (js.foldl (initBlock special start bs) m).setPage pg d := by
  induction js generalizing m with
  | nil => rfl
  | cons j js ih => exact ih (initBlock special start bs m j)

theorem foldl_initBlock_eq (special : Bool) (start bs : Nat) (js : List Nat) (m : Shm) :
    js.foldl (initBlock special start bs) m =
      { m with word := (js.foldl (initBlock special start bs) m).word } := by
  induction js generalizing m with
  | nil => rfl
  | cons j js ih =>
    rw [List.foldl_cons, ih]
    rfl

/-- The words after `cxl_page_init`. -/
def initWords (special : Bool) (bs : Nat) (pg : Nat × Nat) (m : Shm) : Nat → Nat :=
  (((List.range (pageSize / bs - 1)).foldl (initBlock special (pageStart pg) bs) m).store
    (blockAt (pageStart pg) bs (pageSize / bs - 1)) (m.page pg).free).word

/-- The metadata after `cxl_page_init`. -/
def freshPage (bs : Nat) (pg : Nat × Nat) : Page := ⟨pageStart pg, 0, bs % 2 ^ 32, 0, none, none, false⟩

theorem cxlPageInit_eq (special : Bool) (m : Shm) (pg : Nat × Nat) {bs : Nat} (hbs : bs ≠ 0) :
    cxlPageInit special bs (some pg) m =
      some { m.setPage pg (freshPage bs pg) with word := initWords special bs pg m } := by
  have hpage : ∀ (w : Nat → Nat) (d : Page), (({ m with word := w } : Shm).setPage pg d).page pg = d := by
    intro w d
    rw [Shm.page_setPage, if_pos rfl]
  have hstore : ∀ (m : Shm) (a v : Nat), (m.store a v).page pg = m.page pg := fun _ _ _ => rfl
  have hset : ∀ (w : Nat → Nat) (d d' : Page) (a v : Nat),
      ((({ m with word := w } : Shm).setPage pg d).store a v).setPage pg d' =
        { m.setPage pg d' with word := Function.update w a v } := by
    intro w d d' a v
    simp [Shm.setPage, Segment.setPage, Shm.store]
  simp only [cxlPageInit, if_neg hbs, foldl_initBlock_setPage]
  rw [foldl_initBlock_eq, hset, hstore, hpage]
  rfl

theorem binSize_ne_zero (b : Nat) : binSize b ≠ 0 := by
  unfold binSize
  split
  · decide
  · split
    · decide
    · omega

theorem binSize_lt {b : Nat} (hb : b < cxlBinSize) : binSize b < 2 ^ 32 := by
  simp only [binSize, sizeofRootRef, sizeofMessageQueue, cxlBinSize] at *
  split
  · omega
  · split <;> omega

/-- The page as `cxl_page_fresh` puts it on bin `b`, but for its links. -/
def binPage (b : Nat) (pg : Nat × Nat) : Page :=
  { freshPage (binSize b) pg with isMsgQueuePage := decide (b = 1) }

/-- The state in which the page has been cut into blocks. -/
def cutPage (b : Nat) (pg : Nat × Nat) (m : Shm) : Shm :=
  { m.setPage pg (binPage b pg) with word := initWords (QueuePtr.bin b).special (binSize b) pg m }

theorem cxlPageFresh_eq {fuel b : Nat} {m₁ : Shm}
    (halloc : cxlSegmentPageAlloc tid size fuel m = some (some pg, m₁))
    (hs : (m₁.queue tid (.bin b)).blockSize = binSize b) : cxlPageFresh fuel tid size (.bin b) m =
      some (pg, cxlPageQueuePush tid (.bin b) pg (cutPage b pg m₁)) := by
  have hinit := cxlPageInit_eq (QueuePtr.bin b).special m₁ pg (binSize_ne_zero b)
  have hset : ∀ w : Nat → Nat, ({ m₁.setPage pg (freshPage (binSize b) pg) with word := w } : Shm).page pg =
      freshPage (binSize b) pg := by
    intro w
    exact (Shm.page_setPage m₁ pg pg _).trans (if_pos rfl)
  simp only [cxlPageFresh, halloc, Option.bind_eq_bind, Option.bind_some, hs, hinit, hset]
  by_cases hb : b = 1
  · subst hb
    rw [if_pos rfl]
    simp [cutPage, binPage, Shm.setPage, Segment.setPage]
  · rw [if_neg (by simpa using hb)]
    simp [cutPage, binPage, freshPage, hb]

/-- **A fresh page goes on its bin**; `m₁` is the state when it is cut into blocks. -/
theorem cxlPageFresh_some (h : AccountInv tid m L none) {b fuel : Nat} (hb : b < cxlBinSize)
    (hrun : cxlPageFresh fuel tid size (.bin b) m = some (pg, m')) :
    ∃ L' m₁, AccountInv tid m' L' none ∧ L' (.bin b) = pg :: L (.bin b) ∧
      (∀ k, k ≠ b → L' (.bin k) = L (.bin k)) ∧ m₁.word = m.word ∧ (m₁.page pg).free = 0 ∧
      m'.word = initWords (QueuePtr.bin b).special (binSize b) pg m₁ ∧
      (m'.page pg).body = binPage b pg := by
  cases halloc : cxlSegmentPageAlloc tid size fuel m with
  | none =>
    rw [cxlPageFresh, halloc] at hrun
    simp at hrun
  | some r =>
    obtain ⟨p, m₁⟩ := r
    cases p with
    | none =>
      rw [cxlPageFresh, halloc] at hrun
      simp [cxlPageInit] at hrun
    | some page =>
      obtain ⟨L₁, h₁, hbins, hfree⟩ := cxlSegmentPageAlloc_some h halloc
      rw [cxlPageFresh_eq halloc (h₁.size b)] at hrun
      simp only [Option.some.injEq, Prod.mk.injEq] at hrun
      obtain ⟨rfl, rfl⟩ := hrun
      have hcut : AccountInv tid (cutPage b page m₁) L₁ (some page) := (h₁.setHeld _).words _
      have honly := OnlyLinks.push (cutPage b page m₁) tid (.bin b) page
      refine ⟨_, m₁, hcut.put hb, ?_, ?_, cxlSegmentPageAlloc_word halloc, hfree, ?_, ?_⟩
      · rw [Function.update_self, hbins]
      · intro k hk
        rw [Function.update_of_ne (by simpa using hk), hbins]
      · exact honly.word
      · rw [honly.body]
        exact congrArg Page.body ((Shm.page_setPage m₁ page page _).trans (if_pos rfl))

/-- **A page is to be had** if there is a free one or a segment to claim. -/
theorem cxlPageFresh_returns (h : AccountInv tid m L none) {b fuel : Nat}
    (hc : L .freePage ≠ [] ∨ Claimable size m) :
    ∃ pg m', cxlPageFresh (fuel + 2) tid size (.bin b) m = some (pg, m') := by
  have hpage : ∃ pg m₁, cxlSegmentPageAlloc tid size (fuel + 2) m = some (some pg, m₁) := by
    cases hf : (m.queue tid .freePage).first with
    | some page => exact ⟨_, _, cxlSegmentPageAlloc_free hf⟩
    | none =>
      have hempty : L .freePage = [] := by
        have hhead := h.queued.first .freePage
        rw [hf] at hhead
        exact List.head?_eq_none_iff.mp hhead.symm
      have hsome : cxlSegmentAlloc tid size m ≠ none := fun hn =>
        cxlSegmentAlloc_eq_none_iff.mp hn (hc.resolve_left fun hne => hne hempty)
      obtain ⟨⟨i, m₁⟩, ha⟩ := Option.ne_none_iff_exists'.mp hsome
      obtain ⟨hi, rfl⟩ := cxlSegmentAlloc_some ha
      rw [cxlSegmentPageAlloc_new hf ha]
      -- the new segment has filled the queue
      have hfirst := (h.claim hi).queued.first .freePage
      have hone : segmentPages.head? = some 1 := by
        unfold segmentPages
        rfl
      rw [Function.update_self, List.head?_append, List.head?_map, hone, Option.map_some,
        Option.some_or] at hfirst
      exact ⟨_, _, cxlSegmentPageAlloc_free hfirst⟩
  obtain ⟨pg, m₁, halloc⟩ := hpage
  obtain ⟨L₁, h₁, -⟩ := cxlSegmentPageAlloc_some h halloc
  exact ⟨_, _, cxlPageFresh_eq halloc (h₁.size b)⟩

/-- The lists without the pages of segment `i`. -/
def withoutSegment (L : QueuePtr → List (Nat × Nat)) (i : Nat) : QueuePtr → List (Nat × Nat) :=
  Function.update L .freePage ((L .freePage).diff (segmentPages.map (Prod.mk i)))

/-- No page of the segment is in use. -/
theorem AccountInv.all_free (h : AccountInv tid m L out) {i : Nat} (hi : (m.sas i).threadId = tid)
    (hz : (m.segment i).used = 0) {j : Nat} (hj : j ∈ segmentPages) : (i, j) ∈ L .freePage := by
  rw [h.used i hi, Finset.card_eq_zero] at hz
  by_contra hn
  have hmem : j ∈ pagesInUse (L .freePage) i := mem_pagesInUse.mpr ⟨hj, hn⟩
  rw [hz] at hmem
  exact Finset.notMem_empty j hmem

theorem mem_withoutSegment (h : AccountInv tid m L none) {i : Nat} (hi : (m.sas i).threadId = tid)
    (hz : (m.segment i).used = 0) {y : Nat × Nat} :
    y ∈ withoutSegment L i q ↔ y ∈ L q ∧ y.1 ≠ i := by
  have hnd := (h.queued.listed .freePage).nodup
  cases q with
  | freePage =>
    rw [withoutSegment, Function.update_self, hnd.mem_sdiff_iff, mem_newPages]
    constructor
    · rintro ⟨hm, hn⟩
      exact ⟨hm, fun he => hn ⟨he, (h.owned hm).2⟩⟩
    · rintro ⟨hm, hn⟩
      exact ⟨hm, fun hc => hn hc.1⟩
  | bin b =>
    rw [withoutSegment, Function.update_of_ne (by simp)]
    constructor
    · intro hm
      refine ⟨hm, ?_⟩
      rintro rfl
      -- a page of the segment on a bin would be on two queues
      have hfree := h.all_free hi hz (h.owned hm).2
      exact absurd (h.queued.apart _ _ y hm hfree) (by simp)
    · exact fun hc => hc.1

/-- **A segment without pages in use is wiped**, and its pages have left the queue. -/
theorem AccountInv.clear (h : AccountInv tid m L none) {i : Nat} (hi : (m.sas i).threadId = tid)
    (hz : (m.segment i).used = 0) : Queued tid (cxlSegmentClear tid i m) (withoutSegment L i) := by
  have hrem := h.queued.removePages segmentPages_nodup fun j hj => h.all_free hi hz hj
  refine hrem.congr (fun _ => rfl) ?_ ?_
  · intro q y hy
    have hne := ((mem_withoutSegment h hi hz).mp hy).2
    simp [Shm.page, cxlSegmentClear, hne]
  · intro q y hy
    have hne := ((mem_withoutSegment h hi hz).mp hy).2
    simp [Shm.page, cxlSegmentClear, hne]

theorem cxlSegmentClear_segment (tid i k : Nat) (m : Shm) : (cxlSegmentClear tid i m).segment k =
    if k = i then Segment.zero
    else (segmentPages.foldl (fun m j => cxlPageQueueRemove tid .freePage (i, j) m) m).segment k := by
  by_cases hk : k = i <;> simp [cxlSegmentClear, hk]

theorem cxlSegmentClear_sas (tid i : Nat) (m : Shm) : (cxlSegmentClear tid i m).sas = m.sas :=
  (OnlyLinks.removePages tid i segmentPages m).sas

theorem cxlSegmentClear_page (tid : Nat) (m : Shm) {i : Nat} {y : Nat × Nat} (hy : y.1 ≠ i) :
    ((cxlSegmentClear tid i m).page y).body = (m.page y).body := by
  have honly := OnlyLinks.removePages tid i segmentPages m
  rw [← honly.body y]
  simp [Shm.page, cxlSegmentClear, hy]

/-- The state `cxl_segment_free` leaves. -/
def releaseSegment (tid i : Nat) (m : Shm) : Shm :=
  { cxlSegmentClear tid i m with
    sas := Function.update (cxlSegmentClear tid i m).sas i
      { (cxlSegmentClear tid i m).sas i with threadId := 0 } }

theorem cxlSegmentFree_eq {i : Nat} (hi : (m.sas i).threadId = tid) :
    cxlSegmentFree tid i m = some (releaseSegment tid i m) := by
  rw [cxlSegmentFree, if_pos]
  · rfl
  · rw [cxlSegmentClear_sas, hi]

theorem releaseSegment_owner (tid i : Nat) (m : Shm) (k : Nat) :
    ((releaseSegment tid i m).sas k).threadId = if k = i then 0 else (m.sas k).threadId := by
  simp only [releaseSegment, cxlSegmentClear_sas]
  by_cases hk : k = i <;> simp [hk]

/-- **The segment goes back.** -/
theorem AccountInv.release (h : AccountInv tid m L none) {i : Nat} (hi : (m.sas i).threadId = tid)
    (hz : (m.segment i).used = 0) : AccountInv tid (releaseSegment tid i m) (withoutSegment L i) none := by
  have honly := OnlyLinks.removePages tid i segmentPages m
  have hmem : ∀ {q y}, y ∈ withoutSegment L i q ↔ y ∈ L q ∧ y.1 ≠ i := mem_withoutSegment h hi hz
  have hseg : ∀ k, k ≠ i → (releaseSegment tid i m).segment k =
      (segmentPages.foldl (fun m j => cxlPageQueueRemove tid .freePage (i, j) m) m).segment k :=
    fun k hk => (cxlSegmentClear_segment tid i k m).trans (if_neg hk)
  have howner : ∀ k, ((releaseSegment tid i m).sas k).threadId = tid →
      k ≠ i ∧ (m.sas k).threadId = tid := by
    intro k hk
    rw [releaseSegment_owner] at hk
    by_cases hki : k = i
    · rw [if_pos hki] at hk
      exact absurd hk.symm h.tid_ne
    · rw [if_neg hki] at hk
      exact ⟨hki, hk⟩
  refine ⟨(h.clear hi hz).congr (fun _ => rfl) (fun _ _ _ => rfl) (fun _ _ _ => rfl), h.tid_ne, ?_,
    fun _ hy => absurd hy (by simp), ?_, ?_, ?_, ?_, ?_, ?_⟩
  · intro k hk
    exact List.eq_nil_iff_forall_not_mem.mpr fun y hy => by
      have hm := (hmem.mp hy).1
      rw [h.beyond k hk] at hm
      exact List.not_mem_nil hm
  · intro y
    have hy := h.mem y
    simp only [reduceCtorEq, or_false, hmem, releaseSegment_owner] at hy ⊢
    by_cases hyi : y.1 = i
    · simp [hyi, Ne.symm h.tid_ne]
    · simp [hyi, hy]
  · intro y hy
    obtain ⟨hm, hne⟩ := hmem.mp hy
    have hbody := cxlSegmentClear_page tid m hne
    simp only [Page.body, Page.mk.injEq] at hbody
    have hclean := h.clean y hm
    exact ⟨hbody.1.trans hclean.1, hbody.2.1.trans hclean.2⟩
  · intro k hk
    obtain ⟨hki, hown⟩ := howner k hk
    have hsame : pagesInUse (withoutSegment L i .freePage) k = pagesInUse (L .freePage) k := by
      ext j
      simp [mem_pagesInUse, hmem, hki]
    rw [hseg k hki, honly.used, hsame, h.used k hown]
  · intro k hk
    obtain ⟨hki, hown⟩ := howner k hk
    rw [hseg k hki, honly.owner, h.header k hown]
  · intro k hk
    by_cases hki : k = i
    · exact (cxlSegmentClear_segment tid i k m).trans (if_pos hki)
    · rw [releaseSegment_owner, if_neg hki] at hk
      rw [hseg k hki]
      exact (h.queued.removePages_segment segmentPages_nodup (fun j hj => h.all_free hi hz hj)
        (h.unowned hk)).trans (h.claimable k hk)
  · intro k
    exact (honly.size _).trans (h.size k)

/-- **The page goes back**, still short of the test for an empty segment. -/
theorem AccountInv.releasePage (h : AccountInv tid m L none) {b : Nat} (hpg : pg ∈ L (.bin b)) :
    ∃ L', AccountInv tid (cxlPageRelease tid (.bin b) pg m) L' none ∧ pg ∈ L' .freePage ∧
      L' (.bin b) = (L (.bin b)).erase pg ∧ ∀ k, k ≠ b → L' (.bin k) = L (.bin k) := by
  have hout := (h.withdraw hpg).setHeld Page.zero
  have hclean : (((cxlPageQueueRemove tid (.bin b) pg m).setPage pg Page.zero).page pg).free = 0 ∧
      (((cxlPageQueueRemove tid (.bin b) pg m).setPage pg Page.zero).page pg).localFree = 0 := by
    rw [Shm.page_setPage, if_pos rfl]
    exact ⟨rfl, rfl⟩
  refine ⟨_, hout.giveBack hclean, ?_, ?_, ?_⟩
  · simp
  · simp
  · intro k hk
    rw [Function.update_of_ne (by simp), Function.update_of_ne (by simpa using hk)]

/-- A page release returns. -/
theorem AccountInv.freePage (h : AccountInv tid m L none) {b : Nat} (hpg : pg ∈ L (.bin b)) :
    ∃ m' L', cxlPageFree tid (.bin b) pg m = some m' ∧ AccountInv tid m' L' none := by
  obtain ⟨L₁, h₁, hfree, -⟩ := h.releasePage hpg
  by_cases hz : ((cxlPageRelease tid (.bin b) pg m).segment pg.1).used = 0
  · have hown := (h₁.owned hfree).1
    refine ⟨_, _, ?_, h₁.release hown hz⟩
    simp only [cxlPageFree, if_pos hz]
    exact cxlSegmentFree_eq hown
  · refine ⟨_, L₁, ?_, h₁⟩
    simp only [cxlPageFree, if_neg hz]

end Calls

/-! ## §2 — the machine -/

/-- The page is on a queue, and the links of the queue spell a list. -/
def OnQueue (tid : Nat) (m : Shm) (q : QueuePtr) (pg : Nat × Nat) : Prop :=
  ∃ l, Listed (m.links tid q) l ∧ pg ∈ l

/-- What the other clients leave alone: what belongs to `tid`; and they give a segment back wiped. -/
structure OthersFrame (tid : Nat) (m m' : Shm) : Prop where
  tls : m'.tls tid = m.tls tid
  owner : ∀ i, (m'.sas i).threadId = tid ↔ (m.sas i).threadId = tid
  segment : ∀ i, (m.sas i).threadId = tid → m'.segment i = m.segment i
  claimable : ∀ i, (m'.sas i).threadId = 0 → m'.segment i = Segment.zero

/-- A step of client `tid` in an area of `size` bytes. `use` stands for all that is done with the blocks
of a page in use: they are handed out and come back. -/
inductive PageStep (tid size : Nat) : Shm → Shm → Prop
  | fresh {m m' : Shm} (b fuel : Nat) (pg : Nat × Nat) (hb : b < cxlBinSize)
      (hrun : cxlPageFresh fuel tid size (.bin b) m = some (pg, m')) : PageStep tid size m m'
  | free {m m' : Shm} (b : Nat) (pg : Nat × Nat) (hb : b < cxlBinSize) (hpg : OnQueue tid m (.bin b) pg)
      (hrun : cxlPageFree tid (.bin b) pg m = some m') : PageStep tid size m m'
  | use {m : Shm} (b : Nat) (pg : Nat × Nat) (free localFree used : Nat) (w : Nat → Nat)
      (hpg : OnQueue tid m (.bin b) pg) : PageStep tid size m
        { m.setPage pg { m.page pg with free := free, localFree := localFree, used := used } with
          word := w }
  | others {m m' : Shm} (h : OthersFrame tid m m') : PageStep tid size m m'

/-- `thread_init` has run, and the id has not been used before. -/
structure PageInit (tid : Nat) (m : Shm) : Prop where
  tid_ne : tid ≠ 0
  queues : ∃ t, m.tls tid = Tls.resetQueues t
  unowned : ∀ i, (m.sas i).threadId ≠ tid
  claimable : ∀ i, (m.sas i).threadId = 0 → m.segment i = Segment.zero

def PageReach (tid size : Nat) : Shm → Prop := Reach (PageInit tid) (PageStep tid size) fun _ => True

/-! ## §3 — every run -/

section Runs

variable {tid size : Nat} {m m' : Shm} {L : QueuePtr → List (Nat × Nat)} {q : QueuePtr} {pg : Nat × Nat}

theorem AccountInv.onQueue_iff (h : AccountInv tid m L none) : OnQueue tid m q pg ↔ pg ∈ L q := by
  constructor
  · rintro ⟨l, hl, hm⟩
    rwa [(h.queued.listed q).unique hl]
  · exact fun hm => ⟨L q, h.queued.listed q, hm⟩

theorem AccountInv.init (h : PageInit tid m) : AccountInv tid m (fun _ => []) none := by
  obtain ⟨t, ht⟩ := h.queues
  have hempty : ∀ q, (m.queue tid q).first = none ∧ (m.queue tid q).last = none := by
    intro q
    rw [Shm.queue, ht]
    cases q with
    | freePage => exact ⟨rfl, rfl⟩
    | bin i =>
      simp only [Tls.queue, Tls.resetQueues]
      split
      · exact ⟨rfl, rfl⟩
      · split <;> exact ⟨rfl, rfl⟩
  refine ⟨⟨fun q => Listed.empty (hempty q).1 (hempty q).2, fun _ _ _ hm => ?_⟩, h.tid_ne,
    fun _ _ => rfl, fun _ hy => absurd hy (by simp), fun pg => ?_, fun _ hm => ?_,
    fun i hi => absurd hi (h.unowned i), fun i hi => absurd hi (h.unowned i), h.claimable, fun i => ?_⟩
  · exact absurd hm List.not_mem_nil
  · simp [h.unowned pg.1]
  · exact absurd hm List.not_mem_nil
  · rw [Shm.queue, ht]
    simp only [Tls.queue, Tls.resetQueues, binSize]
    split
    · rfl
    · split <;> rfl

/-- The blocks of a page in use are used. -/
theorem AccountInv.use (h : AccountInv tid m L none) {b : Nat} (hpg : pg ∈ L (.bin b))
    (free localFree used : Nat) (w : Nat → Nat) : AccountInv tid
      { m.setPage pg { m.page pg with free := free, localFree := localFree, used := used } with
        word := w } L none := by
  apply AccountInv.words
  have hpage : ∀ y, ((m.setPage pg { m.page pg with
      free := free, localFree := localFree, used := used }).page y).next = (m.page y).next ∧
      ((m.setPage pg { m.page pg with
        free := free, localFree := localFree, used := used }).page y).prev = (m.page y).prev := by
    intro y
    rw [Shm.page_setPage]
    by_cases hy : y = pg <;> simp [hy]
  have hown := (h.owned hpg).1
  refine h.congr (fun _ => rfl) (fun _ y _ => (hpage y).1) (fun _ y _ => (hpage y).2) ?_ ?_
    (fun _ => Iff.rfl) ?_
  · intro y hy
    have hne : y ≠ pg := by
      rintro rfl
      exact absurd (h.queued.apart _ _ y hy hpg) (by simp)
    rw [Shm.page_setPage, if_neg hne]
    exact ⟨rfl, rfl⟩
  · intro i _
    refine ⟨?_, Shm.threadId_setPage ..⟩
    by_cases hi : i = pg.1 <;> simp [Shm.setPage, Segment.setPage, hi]
  · intro k hk
    have hki : k ≠ pg.1 := fun he => h.tid_ne (by rw [← hown, ← he]; exact hk)
    rw [← h.claimable k hk]
    simp [Shm.setPage, hki]

theorem AccountInv.others (h : AccountInv tid m L none) (hf : OthersFrame tid m m') :
    AccountInv tid m' L none := by
  have hpage : ∀ q, ∀ y ∈ L q, m'.page y = m.page y := fun q y hy => by
    rw [Shm.page, Shm.page, hf.segment _ (h.owned hy).1]
  refine h.congr (fun q => ?_) (fun q y hy => by rw [hpage q y hy]) (fun q y hy => by rw [hpage q y hy])
    (fun y hy => by rw [hpage _ y hy]; exact ⟨rfl, rfl⟩)
    (fun i hi => by rw [hf.segment i hi]; exact ⟨rfl, rfl⟩) hf.owner hf.claimable
  rw [Shm.queue, Shm.queue, hf.tls]

/-- **One step keeps the account.** -/
theorem AccountInv.step (h : AccountInv tid m L none) (hs : PageStep tid size m m') :
    ∃ L', AccountInv tid m' L' none := by
  cases hs with
  | fresh b fuel pg hb hrun =>
    obtain ⟨L', m₁, h', -⟩ := cxlPageFresh_some h hb hrun
    exact ⟨L', h'⟩
  | free b pg hb hpg hrun =>
    obtain ⟨m₁, L', hrun', h'⟩ := h.freePage (h.onQueue_iff.mp hpg)
    obtain rfl := Option.some.inj (hrun.symm.trans hrun')
    exact ⟨L', h'⟩
  | use b pg free localFree used w hpg => exact ⟨L, h.use (h.onQueue_iff.mp hpg) free localFree used w⟩
  | others hf => exact ⟨L, h.others hf⟩

theorem PageReach.inv (h : PageReach tid size m) : ∃ L, AccountInv tid m L none := by
  refine @Reach.invariant _ _ _ _ (fun m => ∃ L, AccountInv tid m L none) ?_ ?_ _ h
  · intro m hi _
    exact ⟨_, AccountInv.init hi⟩
  · rintro m m' ⟨L, hinv⟩ - hs -
    exact hinv.step hs

/-! ## §4 — the account -/

/-- The page is on the queue of free pages only, with no block listed, or on exactly one bin only. -/
def PlacedOnce (tid : Nat) (m : Shm) (pg : Nat × Nat) : Prop :=
  (OnQueue tid m .freePage pg ∧ (m.page pg).free = 0 ∧ (m.page pg).localFree = 0 ∧
      ∀ b, ¬ OnQueue tid m (.bin b) pg) ∨
    (¬ OnQueue tid m .freePage pg ∧ ∃! b, b < cxlBinSize ∧ OnQueue tid m (.bin b) pg)

/-- **Segment accounting is exact.** -/
structure Accounted (tid : Nat) (m : Shm) : Prop where
  listed : ∀ q, ∃ l, Listed (m.links tid q) l
  page : ∀ i, (m.sas i).threadId = tid → ∀ j ∈ segmentPages, PlacedOnce tid m (i, j)
  used : ∀ i, (m.sas i).threadId = tid → ∃ inUse : Finset Nat,
    (∀ j, j ∈ inUse ↔ j ∈ segmentPages ∧ ¬ OnQueue tid m .freePage (i, j)) ∧
      (m.segment i).used = inUse.card

/-- No field of a queue of the client, and no link of a page on one, names a page of segment `i`. -/
def NoLink (tid : Nat) (m : Shm) (i : Nat) : Prop :=
  ∀ q p, ((m.queue tid q).first = some p ∨ (m.queue tid q).last = some p ∨
    ∃ y, OnQueue tid m q y ∧ ((m.page y).next = some p ∨ (m.page y).prev = some p)) → p.1 ≠ i

/-- The release of a page runs `cxl_segment_free` on a segment none of whose pages is in use, which wipes
the header while the entry is still the client's and leaves no link to the segment. -/
structure SegmentGiven (tid : Nat) (b : Nat) (pg : Nat × Nat) (m : Shm) : Prop where
  allFree : ∀ j ∈ segmentPages, OnQueue tid (cxlPageRelease tid (.bin b) pg m) .freePage (pg.1, j)
  wiped : (cxlSegmentClear tid pg.1 (cxlPageRelease tid (.bin b) pg m)).segment pg.1 = Segment.zero
  unclaimed : ((cxlSegmentClear tid pg.1 (cxlPageRelease tid (.bin b) pg m)).sas pg.1).threadId = tid
  returns : ∃ m', cxlPageFree tid (.bin b) pg m = some m' ∧ (m'.sas pg.1).threadId = 0 ∧
    m'.segment pg.1 = Segment.zero ∧ NoLink tid m' pg.1

theorem AccountInv.accounted (h : AccountInv tid m L none) : Accounted tid m where
  listed q := ⟨L q, h.queued.listed q⟩
  page i hi j hj := by
    have hq : ∃ q, (i, j) ∈ L q := by simpa using (h.mem (i, j)).mpr ⟨hi, hj⟩
    obtain ⟨q, hm⟩ := hq
    simp only [PlacedOnce, h.onQueue_iff]
    cases q with
    | freePage =>
      refine Or.inl ⟨hm, (h.clean _ hm).1, (h.clean _ hm).2, fun b hb => ?_⟩
      exact absurd (h.queued.apart _ _ _ hm hb) (by simp)
    | bin b =>
      refine Or.inr ⟨fun hf => ?_, b, ⟨?_, hm⟩, ?_⟩
      · exact absurd (h.queued.apart _ _ _ hm hf) (by simp)
      · by_contra hb
        rw [h.beyond b (Nat.le_of_not_lt hb)] at hm
        exact List.not_mem_nil hm
      · rintro b' ⟨-, hb'⟩
        simpa using h.queued.apart _ _ _ hb' hm
  used i hi := by
    refine ⟨pagesInUse (L .freePage) i, fun j => ?_, h.used i hi⟩
    rw [mem_pagesInUse, h.onQueue_iff]

theorem AccountInv.noLink (h : AccountInv tid m L none) {i : Nat} (hi : ∀ q, ∀ y ∈ L q, y.1 ≠ i) :
    NoLink tid m i := by
  rintro q p (hf | hl | ⟨y, hy, hn | hp⟩)
  · exact hi q p (h.queued.first_mem hf)
  · exact hi q p ((h.queued.listed q).last_mem hl)
  · exact hi q p ((h.queued.listed q).next_mem (h.onQueue_iff.mp hy) hn)
  · exact hi q p ((h.queued.listed q).prev_mem (h.onQueue_iff.mp hy) hp)

theorem AccountInv.segmentGiven (h : AccountInv tid m L none) {b : Nat} (hpg : pg ∈ L (.bin b))
    (hz : ((cxlPageRelease tid (.bin b) pg m).segment pg.1).used = 0) : SegmentGiven tid b pg m := by
  obtain ⟨L₁, h₁, hfree, -⟩ := h.releasePage hpg
  have hown := (h₁.owned hfree).1
  have h₂ := h₁.release hown hz
  refine ⟨fun j hj => h₁.onQueue_iff.mpr (h₁.all_free hown hz hj), ?_, ?_,
    releaseSegment tid pg.1 (cxlPageRelease tid (.bin b) pg m), ?_, ?_, ?_, ?_⟩
  · rw [cxlSegmentClear_segment, if_pos rfl]
  · rw [cxlSegmentClear_sas, hown]
  · simp only [cxlPageFree, if_pos hz]
    exact cxlSegmentFree_eq hown
  · rw [releaseSegment_owner, if_pos rfl]
  · exact (cxlSegmentClear_segment tid pg.1 pg.1 _).trans (if_pos rfl)
  · exact h₂.noLink fun q y hy => ((mem_withoutSegment h₁ hown hz).mp hy).2

/-- The only page in use is the last of its segment. -/
theorem AccountInv.releasePage_used (h : AccountInv tid m L none) {b : Nat} (hbin : L (.bin b) = [pg])
    (hbins : ∀ k, k ≠ b → L (.bin k) = []) :
    ((cxlPageRelease tid (.bin b) pg m).segment pg.1).used = 0 := by
  have hpg : pg ∈ L (.bin b) := by
    rw [hbin]
    exact List.mem_cons_self
  obtain ⟨L₁, h₁, hfree, herase, hrest⟩ := h.releasePage hpg
  have hown := (h₁.owned hfree).1
  rw [h₁.used pg.1 hown, Finset.card_eq_zero, Finset.eq_empty_iff_forall_notMem]
  intro j hj
  obtain ⟨hseg, hnot⟩ := mem_pagesInUse.mp hj
  have hq : ∃ q, (pg.1, j) ∈ L₁ q := by simpa using (h₁.mem (pg.1, j)).mpr ⟨hown, hseg⟩
  obtain ⟨q, hq⟩ := hq
  cases q with
  | freePage => exact hnot hq
  | bin k =>
    -- every bin is empty now
    have hnil : L₁ (.bin k) = [] := by
      by_cases hk : k = b
      · rw [hk, herase, hbin, List.erase_cons_head]
      · rw [hrest k hk, hbins k hk]
    rw [hnil] at hq
    exact List.not_mem_nil hq

theorem PageReach.step (h : PageReach tid size m) (hs : PageStep tid size m m') : PageReach tid size m' :=
  Reach.step h hs trivial

/-- In every state of every run the account is right, and every release of a page that empties its
segment gives the segment back without a trace. -/
theorem segments_accounted (h : PageReach tid size m) : Accounted tid m ∧
    ∀ b < cxlBinSize, ∀ pg, OnQueue tid m (.bin b) pg →
      ((cxlPageRelease tid (.bin b) pg m).segment pg.1).used = 0 → SegmentGiven tid b pg m := by
  obtain ⟨L, hinv⟩ := h.inv
  exact ⟨hinv.accounted, fun b _ pg hpg hz => hinv.segmentGiven (hinv.onQueue_iff.mp hpg) hz⟩

end Runs

/-- A zeroed area in which client 1 has just run `thread_init`. -/
def freshArea : Shm := Shm.zero.setTls 1 ((Shm.zero.tls 1).resetQueues)

theorem freshArea_init : PageInit 1 freshArea where
  tid_ne := by decide
  queues := ⟨Shm.zero.tls 1, rfl⟩
  unowned _ := by simp [freshArea, Shm.setTls, Shm.zero]
  claimable _ _ := rfl

/-- Client 1 takes its first page of 32-byte blocks in an area with room for one segment, and gives it back: the
segment goes with it. -/
theorem segments_accounted_first : ∃ m pg m', PageReach 1 (2 ^ 27 + 2 ^ 26) m ∧ OnQueue 1 m (.bin 3) pg ∧
    Accounted 1 m ∧ SegmentGiven 1 3 pg m ∧ cxlPageFree 1 (.bin 3) pg m = some m' ∧ (m'.sas pg.1).threadId = 0 ∧
    Accounted 1 m' := by
  have h₀ : PageReach 1 (2 ^ 27 + 2 ^ 26) freshArea := Reach.init freshArea_init trivial
  have hinv := AccountInv.init freshArea_init
  have hret : ∃ pg m, cxlPageFresh 2 1 (2 ^ 27 + 2 ^ 26) (.bin 3) freshArea = some (pg, m) :=
    cxlPageFresh_returns hinv (Or.inr ⟨0, rfl, by decide⟩)
  obtain ⟨pg, m, hrun⟩ := hret
  have h₁ := h₀.step (.fresh 3 2 pg (by decide) hrun)
  obtain ⟨L, -, hinv', hbin, hbins, -⟩ := cxlPageFresh_some hinv (by decide) hrun
  have hpg : OnQueue 1 m (.bin 3) pg := by
    apply hinv'.onQueue_iff.mpr
    rw [hbin]
    exact List.mem_cons_self
  obtain ⟨hacc, hrelease⟩ := segments_accounted h₁
  have hgiven : SegmentGiven 1 3 pg m :=
    hrelease 3 (by decide) pg hpg (hinv'.releasePage_used hbin hbins)
  obtain ⟨m', hfree, hzero, -, -⟩ := hgiven.returns
  have h₂ := h₁.step (.free 3 pg (by decide) hpg hfree)
  exact ⟨m, pg, m', h₁, hpg, hacc, hgiven, hfree, hzero, (segments_accounted h₂).1⟩

end CxlShm
