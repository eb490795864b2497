import CxlShm.PageAlloc
import Mathlib.Data.Finset.Card
import Mathlib.Order.Interval.Finset.Nat

/-! # PageLists — where the pages of a client are

`Queued` says that the queues of a client are lists that share no page. `AccountInv` adds what the lists
are about: every page of every segment the client owns is on one of them, the header of the segment
counts those that are not free, and an entry of the allocation vector without an owner has a zeroed
segment behind it. `out` is the page a call has in its hands.
-/

namespace CxlShm

open DoublyLinked

/-! ## §1 — the queues as lists -/

/-- The queues of client `tid` spell the lists `L`, which share no page. -/
structure Queued (tid : Nat) (m : Shm) (L : QueuePtr → List (Nat × Nat)) : Prop where
  listed : ∀ q, Listed (m.links tid q) (L q)
  apart : ∀ q q' pg, pg ∈ L q → pg ∈ L q' → q = q'

section Lists

variable {tid : Nat} {m m' : Shm} {L : QueuePtr → List (Nat × Nat)} {q : QueuePtr} {pg : Nat × Nat}

theorem Queued.congr (h : Queued tid m L) (hq : ∀ q, m'.queue tid q = m.queue tid q)
    (hn : ∀ q, ∀ pg ∈ L q, (m'.page pg).next = (m.page pg).next)
    (hp : ∀ q, ∀ pg ∈ L q, (m'.page pg).prev = (m.page pg).prev) : Queued tid m' L := by
  refine ⟨fun q => ?_, h.apart⟩
  apply (h.listed q).congr
  · exact congrArg PageQueue.first (hq q)
  · exact congrArg PageQueue.last (hq q)
  · exact hn q
  · exact hp q

theorem Queued.first (h : Queued tid m L) (q : QueuePtr) : (m.queue tid q).first = (L q).head? :=
  (h.listed q).first_eq

theorem Queued.first_mem (h : Queued tid m L) (hf : (m.queue tid q).first = some pg) : pg ∈ L q :=
  (h.listed q).first_mem hf

theorem mem_update_cons {q' : QueuePtr} {y : Nat × Nat} :
    y ∈ Function.update L q (pg :: L q) q' ↔ q' = q ∧ y = pg ∨ y ∈ L q' := by
  by_cases hq : q' = q
  · subst hq
    simp
  · simp [hq]

theorem mem_update_erase {q' : QueuePtr} {y : Nat × Nat} (hnd : (L q).Nodup) :
    y ∈ Function.update L q ((L q).erase pg) q' ↔ ¬ (q' = q ∧ y = pg) ∧ y ∈ L q' := by
  by_cases hq : q' = q
  · subst hq
    simp [hnd.mem_erase_iff]
  · simp [hq]

theorem page_ext {d d' : Page} (hb : d'.body = d.body) (hn : d'.next = d.next)
    (hp : d'.prev = d.prev) : d' = d := by
  cases d
  cases d'
  simp only [Page.body, Page.mk.injEq] at *
  simp_all

/-- Pages that are not on the queue keep their metadata. -/
theorem Queued.push_page (h : Queued tid m L) {y : Nat × Nat} (hy : y ≠ pg) (hn : y ∉ L q) :
    (cxlPageQueuePush tid q pg m).page y = m.page y := by
  have hlinks : (cxlPageQueuePush tid q pg m).links tid q = (m.links tid q).push pg :=
    links_cxlPageQueuePush
  have hfirst : (m.links tid q).first ≠ some y := fun hf => hn ((h.listed q).first_mem hf)
  apply page_ext ((OnlyLinks.push m tid q pg).body y)
  · calc ((cxlPageQueuePush tid q pg m).page y).next
        = ((m.links tid q).push pg).next y := by rw [← hlinks]; rfl
      _ = (m.page y).next := Listed.push_next_of_ne hy
  · calc ((cxlPageQueuePush tid q pg m).page y).prev
        = ((m.links tid q).push pg).prev y := by rw [← hlinks]; rfl
      _ = (m.page y).prev := Listed.push_prev_of_ne hy hfirst

theorem Queued.remove_page (h : Queued tid m L) (hpg : pg ∈ L q) {y : Nat × Nat} (hn : y ∉ L q) :
    (cxlPageQueueRemove tid q pg m).page y = m.page y := by
  have hlinks : (cxlPageQueueRemove tid q pg m).links tid q = (m.links tid q).remove pg :=
    links_cxlPageQueueRemove
  apply page_ext ((OnlyLinks.remove m tid q pg).body y)
  · calc ((cxlPageQueueRemove tid q pg m).page y).next
        = ((m.links tid q).remove pg).next y := by rw [← hlinks]; rfl
      _ = (m.page y).next := (h.listed q).remove_next_of_not_mem hpg hn
  · calc ((cxlPageQueueRemove tid q pg m).page y).prev
        = ((m.links tid q).remove pg).prev y := by rw [← hlinks]; rfl
      _ = (m.page y).prev := (h.listed q).remove_prev_of_not_mem hpg hn

/-- A page that is on no queue goes to the front of one. -/
theorem Queued.push (h : Queued tid m L) (hpg : ∀ q', pg ∉ L q') :
    Queued tid (cxlPageQueuePush tid q pg m) (Function.update L q (pg :: L q)) := by
  have hlinks : (cxlPageQueuePush tid q pg m).links tid q = (m.links tid q).push pg :=
    links_cxlPageQueuePush
  have honly := OnlyLinks.push m tid q pg
  refine ⟨fun q' => ?_, ?_⟩
  · by_cases hq : q' = q
    · subst hq
      rw [hlinks, Function.update_self]
      exact (h.listed q').push (hpg q')
    · rw [Function.update_of_ne hq]
      have hpage : ∀ y ∈ L q', (cxlPageQueuePush tid q pg m).page y = m.page y := fun y hy =>
        h.push_page (fun he => hpg q' (he ▸ hy)) fun hm => hq (h.apart q' q y hy hm)
      apply (h.listed q').congr
      · exact congrArg PageQueue.first (honly.queue q' hq)
      · exact congrArg PageQueue.last (honly.queue q' hq)
      · exact fun y hy => congrArg Page.next (hpage y hy)
      · exact fun y hy => congrArg Page.prev (hpage y hy)
  · intro q₁ q₂ y h₁ h₂
    rcases mem_update_cons.mp h₁ with ⟨he₁, hy₁⟩ | hm₁
    · rcases mem_update_cons.mp h₂ with ⟨he₂, -⟩ | hm₂
      · exact he₁.trans he₂.symm
      · exact absurd (hy₁ ▸ hm₂) (hpg q₂)
    · rcases mem_update_cons.mp h₂ with ⟨-, hy₂⟩ | hm₂
      · exact absurd (hy₂ ▸ hm₁) (hpg q₁)
      · exact h.apart q₁ q₂ y hm₁ hm₂

/-- A page is taken off its queue. -/
theorem Queued.remove (h : Queued tid m L) (hpg : pg ∈ L q) :
    Queued tid (cxlPageQueueRemove tid q pg m) (Function.update L q ((L q).erase pg)) := by
  have hlinks : (cxlPageQueueRemove tid q pg m).links tid q = (m.links tid q).remove pg :=
    links_cxlPageQueueRemove
  have honly := OnlyLinks.remove m tid q pg
  have hlist := h.listed q
  refine ⟨fun q' => ?_, ?_⟩
  · by_cases hq : q' = q
    · subst hq
      rw [hlinks, Function.update_self]
      exact hlist.remove hpg
    · rw [Function.update_of_ne hq]
      have hpage : ∀ y ∈ L q', (cxlPageQueueRemove tid q pg m).page y = m.page y := fun y hy =>
        h.remove_page hpg fun hm => hq (h.apart q' q y hy hm)
      apply (h.listed q').congr
      · exact congrArg PageQueue.first (honly.queue q' hq)
      · exact congrArg PageQueue.last (honly.queue q' hq)
      · exact fun y hy => congrArg Page.next (hpage y hy)
      · exact fun y hy => congrArg Page.prev (hpage y hy)
  · intro q₁ q₂ y h₁ h₂
    exact h.apart q₁ q₂ y ((mem_update_erase hlist.nodup).mp h₁).2
      ((mem_update_erase hlist.nodup).mp h₂).2

/-- The pages of a new segment are queued as free. -/
theorem Queued.pushPages (h : Queued tid m L) {i : Nat} {js : List Nat} (hnd : js.Nodup)
    (hpg : ∀ j ∈ js, ∀ q, (i, j) ∉ L q) : Queued tid (pushPages tid i js m)
      (Function.update L .freePage (js.map (Prod.mk i) ++ L .freePage)) := by
  induction js with
  | nil => simpa [CxlShm.pushPages] using h
  | cons j js ih =>
    obtain ⟨hj, hnd⟩ := List.nodup_cons.mp hnd
    have hih := ih hnd fun k hk => hpg k (List.mem_cons_of_mem _ hk)
    have hfree : ∀ q, (i, j) ∉ Function.update L .freePage (js.map (Prod.mk i) ++ L .freePage) q := by
      intro q hm
      by_cases hq : q = .freePage
      · subst hq
        simp [hj, hpg j List.mem_cons_self] at hm
      · rw [Function.update_of_ne hq] at hm
        exact hpg j List.mem_cons_self q hm
    simpa [CxlShm.pushPages] using hih.push (q := .freePage) hfree

theorem Queued.pushPages_page (h : Queued tid m L) {i : Nat} {js : List Nat} (hnd : js.Nodup)
    (hpg : ∀ j ∈ js, ∀ q, (i, j) ∉ L q) {y : Nat × Nat} (hi : y.1 ≠ i) (hn : y ∉ L .freePage) :
    (CxlShm.pushPages tid i js m).page y = m.page y := by
  induction js with
  | nil => rfl
  | cons j js ih =>
    obtain ⟨-, hnd'⟩ := List.nodup_cons.mp hnd
    have hpg' : ∀ k ∈ js, ∀ q, (i, k) ∉ L q := fun k hk => hpg k (List.mem_cons_of_mem _ hk)
    rw [← ih hnd' hpg']
    apply (h.pushPages hnd' hpg').push_page
    · exact fun he => hi (congrArg Prod.fst he)
    · simp only [Function.update_self, List.mem_append, List.mem_map, not_or]
      refine ⟨?_, hn⟩
      rintro ⟨k, -, rfl⟩
      exact hi rfl

theorem segment_ext {s s' : Segment} (ht : s'.threadId = s.threadId) (hu : s'.used = s.used)
    (hp : ∀ j, s'.metaPage j = s.metaPage j) : s' = s := by
  cases s
  cases s'
  simp only at *
  rw [ht, hu, funext hp]

theorem OnlyLinks.pushPages (tid i : Nat) (js : List Nat) (m : Shm) :
    OnlyLinks tid .freePage m (pushPages tid i js m) := by
  induction js with
  | nil => exact OnlyLinks.refl m
  | cons j js ih => exact ih.trans (OnlyLinks.push ..)

theorem OnlyLinks.removePages (tid i : Nat) (js : List Nat) (m : Shm) : OnlyLinks tid .freePage m
    (js.foldl (fun m j => cxlPageQueueRemove tid .freePage (i, j) m) m) := by
  induction js generalizing m with
  | nil => exact OnlyLinks.refl m
  | cons j js ih => exact (OnlyLinks.remove ..).trans (ih _)

/-! A segment without a page on the queue keeps its header. -/

theorem Queued.push_segment (h : Queued tid m L) {k : Nat} (hk : pg.1 ≠ k) (hn : ∀ j, (k, j) ∉ L q) :
    (cxlPageQueuePush tid q pg m).segment k = m.segment k := by
  have honly := OnlyLinks.push m tid q pg
  refine segment_ext (honly.owner k) (honly.used k) fun j => ?_
  exact h.push_page (y := (k, j)) (fun he => hk (congrArg Prod.fst he).symm) (hn j)

theorem Queued.remove_segment (h : Queued tid m L) (hpg : pg ∈ L q) {k : Nat}
    (hn : ∀ j, (k, j) ∉ L q) : (cxlPageQueueRemove tid q pg m).segment k = m.segment k := by
  have honly := OnlyLinks.remove m tid q pg
  refine segment_ext (honly.owner k) (honly.used k) fun j => ?_
  exact h.remove_page (y := (k, j)) hpg (hn j)

theorem Queued.pushPages_segment (h : Queued tid m L) {i k : Nat} {js : List Nat} (hnd : js.Nodup)
    (hpg : ∀ j ∈ js, ∀ q, (i, j) ∉ L q) (hk : k ≠ i) (hn : ∀ j, (k, j) ∉ L .freePage) :
    (CxlShm.pushPages tid i js m).segment k = m.segment k := by
  have honly := OnlyLinks.pushPages tid i js m
  refine segment_ext (honly.owner k) (honly.used k) fun j => ?_
  exact h.pushPages_page (y := (k, j)) hnd hpg hk (hn j)

/-- The pages of a segment are taken out of the queue of free pages. -/
theorem Queued.removePages (h : Queued tid m L) {i : Nat} {js : List Nat} (hnd : js.Nodup)
    (hpg : ∀ j ∈ js, (i, j) ∈ L .freePage) :
    Queued tid (js.foldl (fun m j => cxlPageQueueRemove tid .freePage (i, j) m) m)
      (Function.update L .freePage ((L .freePage).diff (js.map (Prod.mk i)))) := by
  induction js generalizing m L with
  | nil => simpa using h
  | cons j js ih =>
    obtain ⟨hj, hnd⟩ := List.nodup_cons.mp hnd
    have hrem := h.remove (hpg j List.mem_cons_self)
    have hih := ih hrem hnd fun k hk => ?_
    · simpa using hih
    · have hne : (i, k) ≠ (i, j) := fun he => hj ((Prod.mk.inj he).2 ▸ hk)
      simp [(h.listed .freePage).nodup.mem_erase_iff, hne, hpg k (List.mem_cons_of_mem _ hk)]

theorem Queued.removePages_segment (h : Queued tid m L) {i k : Nat} {js : List Nat} (hnd : js.Nodup)
    (hpg : ∀ j ∈ js, (i, j) ∈ L .freePage) (hn : ∀ j, (k, j) ∉ L .freePage) :
    (js.foldl (fun m j => cxlPageQueueRemove tid .freePage (i, j) m) m).segment k = m.segment k := by
  induction js generalizing m L with
  | nil => rfl
  | cons j js ih =>
    obtain ⟨hj, hnd⟩ := List.nodup_cons.mp hnd
    have hmem := hpg j List.mem_cons_self
    have hnd' := (h.listed .freePage).nodup
    rw [List.foldl_cons, ih (h.remove hmem) hnd, h.remove_segment hmem hn]
    · intro k' hk'
      have hne : (i, k') ≠ (i, j) := fun he => hj ((Prod.mk.inj he).2 ▸ hk')
      simp [hnd'.mem_erase_iff, hne, hpg k' (List.mem_cons_of_mem _ hk')]
    · intro j' hm
      rw [Function.update_self] at hm
      exact hn j' (List.mem_of_mem_erase hm)

end Lists

/-! ## §2 — the invariant -/

theorem mem_segmentPages {j : Nat} : j ∈ segmentPages ↔ 1 ≤ j ∧ j < pagesPerSegment := by
  unfold segmentPages
  simp only [List.mem_range'_1, pagesPerSegment]

theorem segmentPages_nodup : segmentPages.Nodup := by
  unfold segmentPages
  exact List.nodup_range'

/-- The pages of segment `i` that are not on the queue of free pages. -/
def pagesInUse (free : List (Nat × Nat)) (i : Nat) : Finset Nat :=
  (Finset.Ico 1 pagesPerSegment).filter fun j => (i, j) ∉ free

theorem mem_pagesInUse {free : List (Nat × Nat)} {i j : Nat} :
    j ∈ pagesInUse free i ↔ j ∈ segmentPages ∧ (i, j) ∉ free := by
  simp [pagesInUse, mem_segmentPages]

theorem card_pagesInUse_lt (free : List (Nat × Nat)) (i : Nat) :
    (pagesInUse free i).card < pagesPerSegment := by
  have hle : (pagesInUse free i).card ≤ (Finset.Ico 1 pagesPerSegment).card := Finset.card_filter_le ..
  simp only [Nat.card_Ico, pagesPerSegment] at *
  omega

theorem card_pagesInUse_cons {free : List (Nat × Nat)} {pg : Nat × Nat} (h : pg ∉ free)
    (hpg : pg.2 ∈ segmentPages) (i : Nat) : (pagesInUse free i).card =
      (pagesInUse (pg :: free) i).card + if i = pg.1 then 1 else 0 := by
  obtain ⟨k, j⟩ := pg
  by_cases hi : i = k
  · subst hi
    have hins : pagesInUse free i = insert j (pagesInUse ((i, j) :: free) i) := by
      ext j'
      by_cases hj : j' = j
      · subst hj
        simp [mem_pagesInUse, h, hpg]
      · simp [mem_pagesInUse, hj]
    rw [hins, Finset.card_insert_of_notMem (by simp [mem_pagesInUse])]
    simp
  · have hsame : pagesInUse ((k, j) :: free) i = pagesInUse free i := by
      ext j'
      simp [mem_pagesInUse, hi]
    simp [hsame, hi]

theorem card_pagesInUse_erase {free : List (Nat × Nat)} {pg : Nat × Nat} (hnd : free.Nodup)
    (h : pg ∈ free) (hpg : pg.2 ∈ segmentPages) (i : Nat) : (pagesInUse (free.erase pg) i).card =
      (pagesInUse free i).card + if i = pg.1 then 1 else 0 := by
  have hsame : pagesInUse (pg :: free.erase pg) i = pagesInUse free i := by
    ext j
    have hperm := (List.perm_cons_erase h).mem_iff (a := (i, j))
    simp [mem_pagesInUse, hperm]
  rw [card_pagesInUse_cons (hnd.not_mem_erase) hpg, hsame]

/-- The block sizes of the bins. -/
def binSize (i : Nat) : Nat :=
  if i = 0 then sizeofRootRef
  else if i = 1 then 16 * ((sizeofMessageQueue - 1) / 16) + 16
  else 16 * (i - 1)

/-- **Segment accounting**, with page `out` in the hands of a call. -/
structure AccountInv (tid : Nat) (m : Shm) (L : QueuePtr → List (Nat × Nat)) (out : PagePtr) : Prop where
  queued : Queued tid m L
  tid_ne : tid ≠ 0
  beyond : ∀ i, cxlBinSize ≤ i → L (.bin i) = []
  held : ∀ pg, out = some pg → ∀ q, pg ∉ L q
  mem : ∀ pg, ((∃ q, pg ∈ L q) ∨ out = some pg) ↔ (m.sas pg.1).threadId = tid ∧ pg.2 ∈ segmentPages
  clean : ∀ pg ∈ L .freePage, (m.page pg).free = 0 ∧ (m.page pg).localFree = 0
  used : ∀ i, (m.sas i).threadId = tid → (m.segment i).used = (pagesInUse (L .freePage) i).card
  header : ∀ i, (m.sas i).threadId = tid → (m.segment i).threadId = tid
  claimable : ∀ i, (m.sas i).threadId = 0 → m.segment i = Segment.zero
  size : ∀ i, (m.queue tid (.bin i)).blockSize = binSize i

section Invariant

variable {tid : Nat} {m m' : Shm} {L : QueuePtr → List (Nat × Nat)} {q : QueuePtr} {pg : Nat × Nat}
  {out : PagePtr}

/-- What others do, and what is done to the words and to pages in use. -/
theorem AccountInv.congr (h : AccountInv tid m L out) (hq : ∀ q, m'.queue tid q = m.queue tid q)
    (hn : ∀ q, ∀ pg ∈ L q, (m'.page pg).next = (m.page pg).next)
    (hp : ∀ q, ∀ pg ∈ L q, (m'.page pg).prev = (m.page pg).prev)
    (hf : ∀ pg ∈ L .freePage, (m'.page pg).free = (m.page pg).free ∧
      (m'.page pg).localFree = (m.page pg).localFree)
    (hs : ∀ i, (m.sas i).threadId = tid → (m'.segment i).used = (m.segment i).used ∧
      (m'.segment i).threadId = (m.segment i).threadId)
    (howner : ∀ i, (m'.sas i).threadId = tid ↔ (m.sas i).threadId = tid)
    (hclaim : ∀ i, (m'.sas i).threadId = 0 → m'.segment i = Segment.zero) : AccountInv tid m' L out where
  queued := h.queued.congr hq hn hp
  tid_ne := h.tid_ne
  beyond := h.beyond
  held := h.held
  mem pg := by rw [h.mem, howner]
  clean pg hpg := by
    rw [(hf pg hpg).1, (hf pg hpg).2]
    exact h.clean pg hpg
  used i hi := by
    have hi := (howner i).mp hi
    rw [(hs i hi).1, h.used i hi]
  header i hi := by
    have hi := (howner i).mp hi
    rw [(hs i hi).2, h.header i hi]
  claimable := hclaim
  size i := by rw [hq, h.size]

theorem AccountInv.words (h : AccountInv tid m L out) (w : Nat → Nat) :
    AccountInv tid { m with word := w } L out :=
  h.congr (fun _ => rfl) (fun _ _ _ => rfl) (fun _ _ _ => rfl) (fun _ _ => ⟨rfl, rfl⟩)
    (fun _ _ => ⟨rfl, rfl⟩) (fun _ => Iff.rfl) h.claimable

/-- A page of the client is in one of its segments. -/
theorem AccountInv.owned (h : AccountInv tid m L out) (hpg : pg ∈ L q) :
    (m.sas pg.1).threadId = tid ∧ pg.2 ∈ segmentPages := (h.mem pg).mp (Or.inl ⟨q, hpg⟩)

theorem AccountInv.unowned (h : AccountInv tid m L out) {k : Nat} (hk : (m.sas k).threadId = 0) (j : Nat) :
    (k, j) ∉ L q := fun hm => h.tid_ne ((h.owned hm).1.symm.trans hk)

/-! ## §3 — a segment comes and a page is taken -/

theorem OnlyLinks.free (h : OnlyLinks tid q m m') (pg : Nat × Nat) :
    (m'.page pg).free = (m.page pg).free ∧ (m'.page pg).localFree = (m.page pg).localFree := by
  have hbody := h.body pg
  simp only [Page.body, Page.mk.injEq] at hbody
  exact ⟨hbody.1, hbody.2.1⟩

theorem OnlyLinks.size (h : OnlyLinks tid q m m') (q' : QueuePtr) :
    (m'.queue tid q').blockSize = (m.queue tid q').blockSize := by
  by_cases hq : q' = q
  · rw [hq, h.ownSize]
  · rw [h.queue q' hq]

theorem mem_newPages {i : Nat} :
    pg ∈ segmentPages.map (Prod.mk i) ↔ pg.1 = i ∧ pg.2 ∈ segmentPages := by
  simp only [List.mem_map]
  constructor
  · rintro ⟨j, hj, rfl⟩
    exact ⟨rfl, hj⟩
  · rintro ⟨rfl, hj⟩
    exact ⟨pg.2, hj, rfl⟩

theorem mem_update_append {l : List (Nat × Nat)} {q' : QueuePtr} :
    pg ∈ Function.update L q (l ++ L q) q' ↔ q' = q ∧ pg ∈ l ∨ pg ∈ L q' := by
  by_cases hq : q' = q
  · subst hq
    simp
  · simp [hq]

@[simp] theorem claimSegment_page (tid i : Nat) (m : Shm) (pg : Nat × Nat) :
    (claimSegment tid i m).page pg = m.page pg := by
  by_cases hp : pg.1 = i <;> simp [Shm.page, claimSegment, hp]

theorem claimSegment_owner (tid i : Nat) (m : Shm) (k : Nat) :
    ((claimSegment tid i m).sas k).threadId = if k = i then tid else (m.sas k).threadId := by
  by_cases hk : k = i <;> simp [claimSegment, hk]

/-- **A segment is claimed** and its pages are queued. -/
theorem AccountInv.claim (h : AccountInv tid m L out) {i : Nat} (hi : (m.sas i).threadId = 0) :
    AccountInv tid (CxlShm.pushPages tid i segmentPages (claimSegment tid i m))
      (Function.update L .freePage (segmentPages.map (Prod.mk i) ++ L .freePage)) out := by
  have hzero := h.claimable i hi
  have hout_of : ∀ pg : Nat × Nat, (m.sas pg.1).threadId = tid → pg.1 ≠ i := fun pg hown hp =>
    h.tid_ne (by rw [← hown, hp, hi])
  have hnew : ∀ pg : Nat × Nat, pg.1 = i → ∀ q, pg ∉ L q := fun pg hp q hm => hout_of pg (h.owned hm).1 hp
  have hclaimed : Queued tid (claimSegment tid i m) L :=
    h.queued.congr (fun _ => rfl) (fun _ pg _ => by rw [claimSegment_page]) fun _ pg _ => by
      rw [claimSegment_page]
  have honly := OnlyLinks.pushPages tid i segmentPages (claimSegment tid i m)
  have hbin : ∀ k, Function.update L .freePage (segmentPages.map (Prod.mk i) ++ L .freePage) (.bin k) =
      L (.bin k) := fun k => Function.update_of_ne (by simp) _ _
  refine ⟨hclaimed.pushPages segmentPages_nodup fun j _ q => hnew (i, j) rfl q, h.tid_ne, ?_, ?_, ?_, ?_,
    ?_, ?_, ?_, ?_⟩
  · intro k hk
    rw [hbin, h.beyond k hk]
  · intro pg hout q hm
    rcases mem_update_append.mp hm with ⟨-, hm⟩ | hm
    · exact hout_of pg ((h.mem pg).mp (Or.inr hout)).1 (mem_newPages.mp hm).1
    · exact h.held pg hout q hm
  · intro pg
    rw [honly.sas, claimSegment_owner]
    simp only [mem_update_append, mem_newPages]
    by_cases hp : pg.1 = i
    · have hnot : ¬ ((∃ q, pg ∈ L q) ∨ out = some pg) := fun hc => hout_of pg ((h.mem pg).mp hc).1 hp
      have hnot' : out ≠ some pg := fun he => hnot (Or.inr he)
      simp [hp, hnew pg hp, hnot']
    · rw [if_neg hp, ← h.mem]
      simp [hp]
  · intro pg hm
    rw [(honly.free pg).1, (honly.free pg).2, claimSegment_page]
    rcases mem_update_append.mp hm with ⟨-, hm⟩ | hm
    · have hpage : m.page pg = Page.zero := by
        rw [Shm.page, (mem_newPages.mp hm).1, hzero]
        rfl
      rw [hpage]
      exact ⟨rfl, rfl⟩
    · exact h.clean pg hm
  · intro k hk
    rw [honly.sas, claimSegment_owner] at hk
    rw [honly.used, Function.update_self]
    by_cases hki : k = i
    · -- all pages of the new segment are free
      subst hki
      have hempty : pagesInUse (segmentPages.map (Prod.mk k) ++ L .freePage) k = ∅ := by
        ext j
        simp only [mem_pagesInUse, List.mem_append, mem_newPages, Finset.notMem_empty, iff_false]
        rintro ⟨hj, hn⟩
        exact hn (Or.inl ⟨trivial, hj⟩)
      rw [hempty]
      simp [claimSegment]
    · rw [if_neg hki] at hk
      have hsame : pagesInUse (segmentPages.map (Prod.mk i) ++ L .freePage) k =
          pagesInUse (L .freePage) k := by
        ext j
        simp [mem_pagesInUse, Ne.symm hki]
      rw [hsame, ← h.used k hk]
      simp [claimSegment, hki]
  · intro k hk
    rw [honly.sas, claimSegment_owner] at hk
    rw [honly.owner]
    by_cases hki : k = i
    · simp [claimSegment, hki]
    · rw [if_neg hki] at hk
      simpa [claimSegment, hki] using h.header k hk
  · intro k hk
    rw [honly.sas, claimSegment_owner] at hk
    by_cases hki : k = i
    · rw [if_pos hki] at hk
      exact absurd hk h.tid_ne
    · rw [if_neg hki] at hk
      have hsame : (claimSegment tid i m).segment k = m.segment k := by simp [claimSegment, hki]
      rw [← h.claimable k hk, ← hsame]
      exact hclaimed.pushPages_segment segmentPages_nodup (fun j _ q => hnew (i, j) rfl q) hki
        (h.unowned hk)
  · intro k
    rw [honly.size]
    exact h.size k

@[simp] theorem setSegmentUsed_page (m : Shm) (i v : Nat) (pg : Nat × Nat) :
    (m.setSegmentUsed i v).page pg = m.page pg := by
  by_cases hp : pg.1 = i <;> simp [Shm.page, Shm.setSegmentUsed, hp]

theorem setSegmentUsed_owner (m : Shm) (i v k : Nat) :
    ((m.setSegmentUsed i v).segment k).threadId = (m.segment k).threadId := by
  by_cases hk : k = i <;> simp [Shm.setSegmentUsed, hk]

theorem setSegmentUsed_used (m : Shm) (i v k : Nat) :
    ((m.setSegmentUsed i v).segment k).used = if k = i then v else (m.segment k).used := by
  by_cases hk : k = i <;> simp [Shm.setSegmentUsed, hk]

theorem Queued.setSegmentUsed (h : Queued tid m L) (i v : Nat) : Queued tid (m.setSegmentUsed i v) L :=
  h.congr (fun _ => rfl) (fun _ _ _ => by rw [setSegmentUsed_page])
    fun _ _ _ => by rw [setSegmentUsed_page]

/-- Where the pages are after one of them has left its queue. -/
theorem mem_held (h : AccountInv tid m L none) (hpg : pg ∈ L q) (y : Nat × Nat) :
    ((∃ q', y ∈ Function.update L q ((L q).erase pg) q') ∨ some pg = some y) ↔ ∃ q', y ∈ L q' := by
  have hnd := (h.queued.listed q).nodup
  simp only [mem_update_erase hnd]
  constructor
  · rintro (⟨q', -, hm⟩ | he)
    · exact ⟨q', hm⟩
    · exact ⟨q, Option.some.inj he ▸ hpg⟩
  · rintro ⟨q', hm⟩
    by_cases hy : y = pg
    · exact Or.inr (congrArg some hy.symm)
    · exact Or.inl ⟨q', fun hc => hy hc.2, hm⟩

/-- **A free page is taken.** -/
theorem AccountInv.take (h : AccountInv tid m L none) (hpg : pg ∈ L .freePage) :
    AccountInv tid ((cxlPageQueueRemove tid .freePage pg m).setSegmentUsed pg.1
      ((((cxlPageQueueRemove tid .freePage pg m).segment pg.1).used + 1) % 2 ^ 32))
      (Function.update L .freePage ((L .freePage).erase pg)) (some pg) := by
  have honly := OnlyLinks.remove m tid .freePage pg
  have hnd := (h.queued.listed .freePage).nodup
  obtain ⟨hown, hrange⟩ := h.owned hpg
  have hbin : ∀ k, Function.update L .freePage ((L .freePage).erase pg) (.bin k) = L (.bin k) :=
    fun k => Function.update_of_ne (by simp) _ _
  refine ⟨(h.queued.remove hpg).setSegmentUsed _ _, h.tid_ne, ?_, ?_, ?_, ?_, ?_, ?_, ?_, ?_⟩
  · intro k hk
    rw [hbin, h.beyond k hk]
  · intro y hy q hm
    obtain ⟨hne, hm⟩ := (mem_update_erase hnd).mp hm
    have hy := Option.some.inj hy
    exact hne ⟨h.queued.apart _ _ _ hm (hy ▸ hpg), hy.symm⟩
  · intro y
    rw [mem_held h hpg]
    have hy := h.mem y
    simp only [reduceCtorEq, or_false] at hy
    rw [hy]
    exact Iff.of_eq (by rw [← honly.sas]; rfl)
  · intro y hy
    rw [setSegmentUsed_page, (honly.free y).1, (honly.free y).2]
    exact h.clean y ((mem_update_erase hnd).mp hy).2
  · intro k hk
    have hk : (m.sas k).threadId = tid := by rwa [← honly.sas]
    rw [setSegmentUsed_used, honly.used, honly.used, Function.update_self,
      card_pagesInUse_erase hnd hpg hrange, ← h.used k hk]
    have hlt := card_pagesInUse_lt (L .freePage) pg.1
    rw [← h.used pg.1 hown, pagesPerSegment] at hlt
    by_cases hki : k = pg.1
    · rw [if_pos hki, if_pos hki, hki]
      omega
    · rw [if_neg hki, if_neg hki, Nat.add_zero]
  · intro k hk
    have hk : (m.sas k).threadId = tid := by rwa [← honly.sas]
    rw [setSegmentUsed_owner, honly.owner, h.header k hk]
  · intro k hk
    have hk : (m.sas k).threadId = 0 := by rwa [← honly.sas]
    have hki : k ≠ pg.1 := fun he => h.tid_ne (by rw [← hown, ← he, hk])
    rw [← h.claimable k hk, ← h.queued.remove_segment hpg (h.unowned hk)]
    simp [Shm.setSegmentUsed, hki]
  · intro k
    exact (honly.size _).trans (h.size k)

/-- A page in use is taken off its bin. -/
theorem AccountInv.withdraw (h : AccountInv tid m L none) {b : Nat} (hpg : pg ∈ L (.bin b)) :
    AccountInv tid (cxlPageQueueRemove tid (.bin b) pg m)
      (Function.update L (.bin b) ((L (.bin b)).erase pg)) (some pg) := by
  have honly := OnlyLinks.remove m tid (.bin b) pg
  have hnd := (h.queued.listed (.bin b)).nodup
  have hfree : Function.update L (.bin b) ((L (.bin b)).erase pg) .freePage = L .freePage :=
    Function.update_of_ne (by simp) _ _
  refine ⟨h.queued.remove hpg, h.tid_ne, ?_, ?_, ?_, ?_, ?_, ?_, ?_, ?_⟩
  · intro k hk
    have hkb : k ≠ b := by
      rintro rfl
      rw [h.beyond k hk] at hpg
      exact List.not_mem_nil hpg
    rw [Function.update_of_ne (by simpa using hkb), h.beyond k hk]
  · intro y hy q hm
    obtain ⟨hne, hm⟩ := (mem_update_erase hnd).mp hm
    have hy := Option.some.inj hy
    exact hne ⟨h.queued.apart _ _ _ hm (hy ▸ hpg), hy.symm⟩
  · intro y
    rw [mem_held h hpg, honly.sas, ← h.mem y]
    simp
  · intro y hy
    rw [hfree] at hy
    rw [(honly.free y).1, (honly.free y).2]
    exact h.clean y hy
  · intro k hk
    rw [honly.sas] at hk
    rw [honly.used, hfree, h.used k hk]
  · intro k hk
    rw [honly.sas] at hk
    rw [honly.owner, h.header k hk]
  · intro k hk
    rw [honly.sas] at hk
    rw [h.queued.remove_segment hpg (h.unowned hk), h.claimable k hk]
  · intro k
    rw [honly.size, h.size k]

/-- Where the pages are after the page in hand has been queued. -/
theorem mem_queued (y : Nat × Nat) : ((∃ q', y ∈ Function.update L q (pg :: L q) q') ∨ none = some y) ↔
    ((∃ q', y ∈ L q') ∨ some pg = some y) := by
  simp only [mem_update_cons, reduceCtorEq, or_false, Option.some.injEq]
  constructor
  · rintro ⟨q', ⟨-, hy⟩ | hm⟩
    · exact Or.inr hy.symm
    · exact Or.inl ⟨q', hm⟩
  · rintro (⟨q', hm⟩ | hy)
    · exact ⟨q', Or.inr hm⟩
    · exact ⟨q, Or.inl ⟨rfl, hy.symm⟩⟩

/-- The page in hand is put on a bin. -/
theorem AccountInv.put (h : AccountInv tid m L (some pg)) {b : Nat} (hb : b < cxlBinSize) :
    AccountInv tid (cxlPageQueuePush tid (.bin b) pg m)
      (Function.update L (.bin b) (pg :: L (.bin b))) none := by
  have honly := OnlyLinks.push m tid (.bin b) pg
  have hown := ((h.mem pg).mp (Or.inr rfl)).1
  have hfree : Function.update L (.bin b) (pg :: L (.bin b)) .freePage = L .freePage :=
    Function.update_of_ne (by simp) _ _
  refine ⟨h.queued.push (h.held pg rfl), h.tid_ne, ?_, fun _ hy => absurd hy (by simp), ?_, ?_, ?_, ?_, ?_,
    ?_⟩
  · intro k hk
    have hkb : k ≠ b := by omega
    rw [Function.update_of_ne (by simpa using hkb), h.beyond k hk]
  · intro y
    rw [mem_queued, honly.sas, h.mem y]
  · intro y hy
    rw [hfree] at hy
    rw [(honly.free y).1, (honly.free y).2]
    exact h.clean y hy
  · intro k hk
    rw [honly.sas] at hk
    rw [honly.used, hfree, h.used k hk]
  · intro k hk
    rw [honly.sas] at hk
    rw [honly.owner, h.header k hk]
  · intro k hk
    rw [honly.sas] at hk
    have hki : pg.1 ≠ k := fun he => h.tid_ne (by rw [← hown, he, hk])
    rw [h.queued.push_segment hki (h.unowned hk), h.claimable k hk]
  · intro k
    rw [honly.size, h.size k]

/-- **The page in hand becomes free.** -/
theorem AccountInv.giveBack (h : AccountInv tid m L (some pg))
    (hclean : (m.page pg).free = 0 ∧ (m.page pg).localFree = 0) :
    AccountInv tid ((cxlPageQueuePush tid .freePage pg m).setSegmentUsed pg.1
      ((((cxlPageQueuePush tid .freePage pg m).segment pg.1).used + (2 ^ 32 - 1)) % 2 ^ 32))
      (Function.update L .freePage (pg :: L .freePage)) none := by
  have honly := OnlyLinks.push m tid .freePage pg
  have hpg := h.held pg rfl .freePage
  obtain ⟨hown, hrange⟩ := (h.mem pg).mp (Or.inr rfl)
  have hbin : ∀ k, Function.update L .freePage (pg :: L .freePage) (.bin k) = L (.bin k) :=
    fun k => Function.update_of_ne (by simp) _ _
  refine ⟨(h.queued.push (h.held pg rfl)).setSegmentUsed _ _, h.tid_ne, ?_,
    fun _ hy => absurd hy (by simp), ?_, ?_, ?_, ?_, ?_, ?_⟩
  · intro k hk
    rw [hbin, h.beyond k hk]
  · intro y
    rw [mem_queued, h.mem y]
    exact Iff.of_eq (by rw [← honly.sas]; rfl)
  · intro y hy
    rw [setSegmentUsed_page, (honly.free y).1, (honly.free y).2]
    rcases mem_update_cons.mp hy with ⟨-, rfl⟩ | hm
    · exact hclean
    · exact h.clean y hm
  · intro k hk
    have hk : (m.sas k).threadId = tid := by rwa [← honly.sas]
    have hcard := card_pagesInUse_cons hpg hrange k
    rw [← h.used k hk] at hcard
    rw [setSegmentUsed_used, honly.used, honly.used, Function.update_self]
    have hlt := card_pagesInUse_lt (pg :: L .freePage) k
    rw [pagesPerSegment] at hlt
    by_cases hki : k = pg.1
    · rw [if_pos hki] at hcard
      rw [if_pos hki, ← hki]
      omega
    · rw [if_neg hki] at hcard
      rw [if_neg hki]
      omega
  · intro k hk
    have hk : (m.sas k).threadId = tid := by rwa [← honly.sas]
    rw [setSegmentUsed_owner, honly.owner, h.header k hk]
  · intro k hk
    have hk : (m.sas k).threadId = 0 := by rwa [← honly.sas]
    have hki : pg.1 ≠ k := fun he => h.tid_ne (by rw [← hown, he, hk])
    rw [← h.claimable k hk, ← h.queued.push_segment (q := .freePage) hki (h.unowned hk)]
    simp [Shm.setSegmentUsed, Ne.symm hki]
  · intro k
    exact (honly.size _).trans (h.size k)

/-- The metadata of the page in hand is rewritten. -/
theorem AccountInv.setHeld (h : AccountInv tid m L (some pg)) (d : Page) :
    AccountInv tid (m.setPage pg d) L (some pg) := by
  have hpage : ∀ q, ∀ y ∈ L q, (m.setPage pg d).page y = m.page y := by
    intro q y hy
    rw [Shm.page_setPage, if_neg]
    exact fun he => h.held pg rfl q (he ▸ hy)
  have hown := ((h.mem pg).mp (Or.inr rfl)).1
  have honly : ∀ i, ((m.setPage pg d).segment i).used = (m.segment i).used := by
    intro i
    by_cases hi : i = pg.1 <;> simp [Shm.setPage, Segment.setPage, hi]
  refine h.congr (fun _ => rfl) ?_ ?_ ?_ ?_ ?_ ?_
  · exact fun q y hy => congrArg Page.next (hpage q y hy)
  · exact fun q y hy => congrArg Page.prev (hpage q y hy)
  · exact fun y hy => by rw [hpage _ y hy]; exact ⟨rfl, rfl⟩
  · exact fun i _ => ⟨honly i, Shm.threadId_setPage ..⟩
  · exact fun _ => Iff.rfl
  · intro k hk
    have hki : k ≠ pg.1 := fun he => h.tid_ne (by rw [← hown, ← he]; exact hk)
    rw [← h.claimable k hk]
    simp [Shm.setPage, hki]

end Invariant

end CxlShm
