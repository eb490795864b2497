import CxlShm.Clients

/-! # Idle — a client gives back what it does not use

Where nobody else frees a client's blocks, a page stays on a bin as long as a block of it is handed out, and a
segment stays with the client as long as a page of it is on a bin. A client that has freed all its blocks owns
no segment.
-/

namespace CxlShm

open Loop DoublyLinked Transition

/-! ## §1 — what is kept, and why -/

/-- Every page on a bin has a block handed out, every segment of the client a page on a bin, and nobody has
freed a block for the client. -/
structure Busy (tid : Nat) (m : Shm) : Prop where
  thread : ∀ i, (m.sas i).threadId = tid → (m.sas i).threadFree = 0
  page : ∀ b pg, OnQueue tid m (.bin b) pg → ∃ x, HeldBlock tid m b x ∧ pageOf x = pg
  segment : ∀ i, (m.sas i).threadId = tid → ∃ b j, OnQueue tid m (.bin b) (i, j)

/-- A search for a block of bin `b` has brought page `pg` at most, and the segment of that page. -/
structure Fetched (tid b : Nat) (pg : Nat × Nat) (m m' : Shm) : Prop where
  page : ∀ k p, OnQueue tid m' (.bin k) p → OnQueue tid m (.bin k) p ∨ k = b ∧ p = pg
  segment : ∀ i, (m'.sas i).threadId = tid → (m.sas i).threadId = tid ∨ i = pg.1
  thread : ∀ i, (m'.sas i).threadFree = 0 ∨ m'.sas i = m.sas i

section Fetch

variable {tid size fuel : Nat} {m m₁ m' : Shm} {L : QueuePtr → List (Nat × Nat)} {G G' : BlockLists}
  {pg : Nat × Nat} {b x : Nat}

/-- The queue of free pages starts with page 1 of a segment just claimed. -/
theorem AccountInv.claim_first {out : PagePtr} (h : AccountInv tid m L out) {i : Nat}
    (hi : (m.sas i).threadId = 0) :
    ((pushPages tid i segmentPages (claimSegment tid i m)).queue tid .freePage).first = some (i, 1) := by
  have hfirst := (h.claim hi).queued.first .freePage
  have hone : segmentPages.head? = some 1 := by
    unfold segmentPages
    rfl
  rwa [Function.update_self, List.head?_append, List.head?_map, hone] at hfirst

/-- **One segment at most comes to the client**, and the page is in it. -/
theorem cxlSegmentPageAlloc_gained (h : AccountInv tid m L none)
    (hrun : cxlSegmentPageAlloc tid size fuel m = some (some pg, m')) {i : Nat}
    (hi : (m'.sas i).threadId = tid) : (m.sas i).threadId = tid ∨ i = pg.1 := by
  have hfree : ∀ (s : Shm) (page : Nat × Nat) (v : Nat),
      ((cxlPageQueueRemove tid .freePage page s).setSegmentUsed page.1 v).sas = s.sas := fun s page _ =>
    (OnlyLinks.remove s tid .freePage page).sas
  cases fuel with
  | zero => exact absurd hrun (by simp [cxlSegmentPageAlloc])
  | succ fuel =>
    cases hf : (m.queue tid .freePage).first with
    | some page =>
      rw [cxlSegmentPageAlloc_free hf] at hrun
      simp only [Option.some.injEq, Prod.mk.injEq] at hrun
      rw [← hrun.2, hfree] at hi
      exact Or.inl hi
    | none =>
      cases ha : cxlSegmentAlloc tid size m with
      | none =>
        rw [cxlSegmentPageAlloc_full hf ha] at hrun
        simp at hrun
      | some r =>
        obtain ⟨k, m₁⟩ := r
        rw [cxlSegmentPageAlloc_new hf ha] at hrun
        obtain ⟨hk, rfl⟩ := cxlSegmentAlloc_some ha
        cases fuel with
        | zero => exact absurd hrun (by simp [cxlSegmentPageAlloc])
        | succ fuel =>
          rw [cxlSegmentPageAlloc_free (h.claim_first hk)] at hrun
          simp only [Option.some.injEq, Prod.mk.injEq] at hrun
          obtain ⟨rfl, rfl⟩ := hrun
          rw [hfree, (OnlyLinks.pushPages ..).sas, claimSegment_owner] at hi
          by_cases hik : i = k
          · exact Or.inr hik
          · rw [if_neg hik] at hi
            exact Or.inl hi

/-- What collecting does to the allocation vector. -/
def ListsTaken (m m' : Shm) : Prop := ∀ i, m'.sas i = m.sas i ∨ m'.sas i = { m.sas i with threadFree := 0 }

theorem cxlPageFreeCollect_taken (hrun : cxlPageFreeCollect fuel pg m = some m') : ListsTaken m m' := by
  unfold cxlPageFreeCollect cxlThreadFreeCollect at hrun
  rw [Option.map_eq_some_iff] at hrun
  obtain ⟨m₁, hrun, rfl⟩ := hrun
  have hcollect : ListsTaken m m₁ := by
    simp only at hrun
    split at hrun
    case isTrue =>
      cases hrun
      exact fun _ => Or.inl rfl
    case isFalse =>
      apply walk_keeps (ListsTaken m) _ hrun
      · intro i
        by_cases hi : i = pg.1
        · exact Or.inr (by simp [takeThreadFree, hi])
        · exact Or.inl (Function.update_of_ne hi ..)
      · intro y s s' hs hb
        obtain rfl := Option.some.inj hb
        exact hs
  unfold refillFree
  split <;> exact hcollect

theorem findFree_taken {rounds : Nat} {p q : PagePtr} (hrun : findFree fuel rounds p m = some (q, m')) :
    ListsTaken m m' := by
  induction rounds generalizing p m with
  | zero => cases hrun
  | succ rounds ih =>
    cases p with
    | none =>
      simp only [findFree, Option.some.injEq, Prod.mk.injEq] at hrun
      obtain ⟨-, rfl⟩ := hrun
      exact fun _ => Or.inl rfl
    | some page =>
      simp only [findFree, Option.bind_eq_some_iff] at hrun
      obtain ⟨m₁, hcollect, hrun⟩ := hrun
      have h₁ := cxlPageFreeCollect_taken hcollect
      split at hrun
      case isTrue =>
        simp only [Option.some.injEq, Prod.mk.injEq] at hrun
        obtain ⟨-, rfl⟩ := hrun
        exact h₁
      case isFalse =>
        intro i
        rcases ih hrun i with h₂ | h₂
        · rw [h₂]
          exact h₁ i
        · rw [h₂]
          rcases h₁ i with h₁ | h₁
          · exact Or.inr (by rw [h₁])
          · exact Or.inr (by rw [h₁])

theorem cxlPageFresh_fetched (h : AccountInv tid m L none) (hb : b < cxlBinSize)
    (hrun : cxlPageFresh fuel tid size (.bin b) m = some (pg, m')) : Fetched tid b pg m m' := by
  obtain ⟨L', -, h', hbin, hbins, -⟩ := cxlPageFresh_some h hb hrun
  have htaken := cxlPageFresh_taken (G := ⟨L, fun _ => [], fun _ => [], fun _ => []⟩) h hrun
  refine ⟨fun k p hp => ?_, fun i hi => ?_, fun i => ?_⟩
  · have hp := h'.onQueue_iff.mp hp
    by_cases hk : k = b
    · subst hk
      rw [hbin] at hp
      rcases List.mem_cons.mp hp with rfl | hp
      · exact Or.inr ⟨rfl, rfl⟩
      · exact Or.inl (h.onQueue_iff.mpr hp)
    · rw [hbins k hk] at hp
      exact Or.inl (h.onQueue_iff.mpr hp)
  · cases halloc : cxlSegmentPageAlloc tid size fuel m with
    | none =>
      rw [cxlPageFresh, halloc] at hrun
      simp at hrun
    | some r =>
      obtain ⟨p, m₁⟩ := r
      cases p with
      | none =>
        rw [cxlPageFresh, halloc] at hrun
        simp [cxlPageInit] at hrun
      | some page =>
        obtain ⟨L₁, h₁, -⟩ := cxlSegmentPageAlloc_some h halloc
        rw [cxlPageFresh_eq halloc (h₁.size b)] at hrun
        simp only [Option.some.injEq, Prod.mk.injEq] at hrun
        obtain ⟨rfl, rfl⟩ := hrun
        rw [(OnlyLinks.push (cutPage b page m₁) tid (.bin b) page).sas] at hi
        exact cxlSegmentPageAlloc_gained h halloc hi
  · rcases htaken.sas i with hs | ⟨-, hs⟩
    · exact Or.inr hs
    · exact Or.inl (by rw [hs])

/-- **A search brings one page at most.** -/
theorem cxlPageMalloc_fetched (h : BlocksInv tid m G) (hh : ThreadHeads tid m G) (hb : b < cxlBinSize)
    (hrun : cxlPageMalloc fuel tid size (.bin b) (cxlFindPage tid (.bin b) m) m = some (x, pg, m')) :
    Fetched tid b pg m m' := by
  cases hfind : cxlFindPage tid (.bin b) m with
  | some page =>
    rw [hfind] at hrun
    simp only [cxlPageMalloc, Option.some.injEq, Prod.mk.injEq] at hrun
    rw [← hrun.2.2]
    exact ⟨fun _ _ hp => Or.inl hp, fun _ hi => Or.inl hi, fun _ => Or.inr rfl⟩
  | none =>
    rw [hfind] at hrun
    simp only [cxlPageMalloc, cxlMallocGeneric, cxlPageQueueFindFreeEx, Option.bind_eq_bind,
      Option.bind_eq_some_iff] at hrun
    obtain ⟨⟨page, m₁⟩, ⟨⟨p, m₂⟩, hfree, hpage⟩, hres⟩ := hrun
    simp only [Option.some.injEq, Prod.mk.injEq] at hres
    obtain ⟨-, rfl, rfl⟩ := hres
    have hheads : ThreadHeads tid (m.clearRedo tid) G := hh
    obtain ⟨G₂, h₂, -, -, hpages, -⟩ := findFree_some h.clearRedo hheads (fun pg hf =>
      h.clearRedo.account.queued.first_mem hf) hfree
    have htaken : ListsTaken (m.clearRedo tid) m₂ := findFree_taken hfree
    have htaken : ListsTaken m m₂ := htaken
    have hqueue : ∀ k p, OnQueue tid m₂ (.bin k) p → OnQueue tid m (.bin k) p := by
      intro k p hp
      have hp := h₂.account.onQueue_iff.mp hp
      rw [hpages] at hp
      exact h.account.onQueue_iff.mpr hp
    have hown : ∀ i, (m₂.sas i).threadId = (m.sas i).threadId := by
      intro i
      rcases htaken i with hs | hs <;> rw [hs]
    have hthread : ∀ i, (m₂.sas i).threadFree = 0 ∨ m₂.sas i = m.sas i := by
      intro i
      rcases htaken i with hs | hs
      · exact Or.inr hs
      · exact Or.inl (by rw [hs])
    cases p with
    | some q =>
      simp only [Option.some.injEq, Prod.mk.injEq] at hpage
      obtain ⟨rfl, rfl⟩ := hpage
      exact ⟨fun k p hp => Or.inl (hqueue k p hp), fun i hi => Or.inl ((hown i).symm.trans hi), hthread⟩
    | none =>
      have hfetch := cxlPageFresh_fetched h₂.account hb hpage
      refine ⟨fun k p hp => (hfetch.page k p hp).imp_left (hqueue k p), fun i hi => ?_, fun i => ?_⟩
      · rw [← hown]
        exact hfetch.segment i hi
      · rcases hfetch.thread i with hz | hs
        · exact Or.inl hz
        · rw [hs]
          exact hthread i

/-- The stores to a block that has been found touch no queue and no entry. -/
theorem Fetched.then (h : Fetched tid b pg m m₁) (h₁ : Pool tid m₁ G) (h' : Pool tid m' G')
    (hpages : G'.pages = G.pages) (hsas : m'.sas = m₁.sas) : Fetched tid b pg m m' := by
  refine ⟨fun k p hp => ?_, fun i hi => ?_, fun i => ?_⟩
  · apply h.page k p
    rw [h₁.onQueue_iff, ← hpages]
    exact h'.onQueue_iff.mp hp
  · rw [hsas] at hi
    exact h.segment i hi
  · rw [hsas]
    exact h.thread i

/-- **A block is handed out.** -/
theorem Busy.handOut (hb : Busy tid m) (h : Pool tid m G) (h' : Pool tid m' G') {S : List Nat}
    (hf : Fetched tid b pg m m') (hout : HandedOut b x S m m' G G') (hx : pageOf x = pg) : Busy tid m' := by
  have hheld : ∀ k y, HeldBlock tid m k y → HeldBlock tid m' k y := fun k y hy =>
    h'.heldBlock_iff.mpr ((hout.held k y).mpr (Or.inl (h.heldBlock_iff.mp hy)))
  have hnew : HeldBlock tid m' b x := h'.heldBlock_iff.mpr ((hout.held b x).mpr (Or.inr ⟨rfl, rfl⟩))
  refine ⟨fun i hi => ?_, fun k p hp => ?_, fun i hi => ?_⟩
  · rcases hf.thread i with hz | hs
    · exact hz
    · rw [hs] at hi ⊢
      exact hb.thread i hi
  · rcases hf.page k p hp with hp | ⟨rfl, rfl⟩
    · obtain ⟨y, hy, hyp⟩ := hb.page k p hp
      exact ⟨y, hheld k y hy, hyp⟩
    · exact ⟨x, hnew, hx⟩
  · rcases hf.segment i hi with hi | rfl
    · obtain ⟨k, j, hp⟩ := hb.segment i hi
      obtain ⟨y, hy, hyp⟩ := hb.page k _ hp
      refine ⟨k, j, ?_⟩
      rw [← hyp]
      exact (hheld k y hy).1
    · refine ⟨b, pg.2, ?_⟩
      have hpage := hnew.1
      rwa [hx] at hpage

theorem Busy.threadBaseRefAlloc (hb : Busy tid m) (h : Pool tid m G)
    (hrun : threadBaseRefAlloc fuel tid size m = some (x, m')) : Busy tid m' := by
  simp only [CxlShm.threadBaseRefAlloc, Option.bind_eq_bind, Option.bind_eq_some_iff] at hrun
  obtain ⟨⟨y, pg, m₁⟩, hrun, hres⟩ := hrun
  simp only [Option.some.injEq, Prod.mk.injEq] at hres
  obtain ⟨rfl, rfl⟩ := hres
  have hfetch : Fetched tid 0 pg m m₁ := cxlPageMalloc_fetched h.inv h.heads (by decide) hrun
  obtain ⟨G₁, l, h₁, hre, hpg, hF⟩ := h.pageMalloc (b := 0) (by decide) (by decide) hrun
  obtain ⟨h', hout⟩ := h.rootRef_of h₁ hre hpg hF
  refine hb.handOut h h' (hfetch.then h₁ h' rfl rfl) hout ?_
  exact h₁.inv.page_eq hpg (List.mem_append_left _ (by rw [hF]; exact List.mem_cons_self))

/-- **`cxl_malloc`.** -/
theorem Busy.cxlMalloc (hb : Busy tid m) (h : Pool tid m G) {dataSize n : Nat} {r : CxlRef}
    (hfits : dataSize + sizeofCxlObj < 2 ^ 64) (hrun : cxlMalloc fuel tid size dataSize n m = some (r, m')) :
    Busy tid m' := by
  simp only [CxlShm.cxlMalloc, Option.bind_eq_bind, Option.bind_eq_some_iff] at hrun
  obtain ⟨⟨t, m₁⟩, href, hobj⟩ := hrun
  have hb₁ := hb.threadBaseRefAlloc h href
  obtain ⟨G₁, h₁, hout₁, -⟩ := h.threadBaseRefAlloc href
  have ht : G₁.Held 0 t := (hout₁.held 0 t).mpr (Or.inr ⟨rfl, rfl⟩)
  have hlarge : 3 ≤ cxlPageQueue false ((dataSize + sizeofCxlObj) % 2 ^ 64) := by
    rw [cxlPageQueue_object hfits]
    omega
  simp only [CxlShm.cxlRefAlloc] at hobj
  split at hobj
  case isFalse => cases hobj
  case isTrue hbin =>
    simp only [Option.bind_eq_bind, Option.bind_eq_some_iff] at hobj
    obtain ⟨⟨y, pg, m₂⟩, hrun, hres⟩ := hobj
    simp only [Option.some.injEq, Prod.mk.injEq] at hres
    obtain ⟨-, rfl⟩ := hres
    have hfetch := cxlPageMalloc_fetched h₁.inv h₁.heads hbin hrun
    obtain ⟨G₂, l, h₂, hre, hpg, hF⟩ := h₁.pageMalloc hbin (by omega) hrun
    obtain ⟨⟨h', hout⟩, -⟩ := h₁.object_of h₂ hlarge hre hpg hF ht n
    refine hb₁.handOut h₁ h' (hfetch.then h₂ h' rfl rfl) hout ?_
    exact h₂.inv.page_eq hpg (List.mem_append_left _ (by rw [hF]; exact List.mem_cons_self))

end Fetch

/-! ## §2 — freeing -/

section Free

variable {tid : Nat} {m m' : Shm} {G G' : BlockLists} {pg : Nat × Nat} {b x : Nat}

/-- A page with blocks in use, none of them freed by others, has one handed out. -/
theorem BlocksInv.exists_held (h : BlocksInv tid m G) (hpg : pg ∈ G.pages (.bin b))
    (hused : (m.page pg).used ≠ 0) (hthread : G.threadFree pg.1 = []) : ∃ y, G.Held b y ∧ pageOf y = pg := by
  have hok := h.page b pg hpg
  have hlt : (G.onPage pg).length < (pageBlocks pg (binSize b)).length := by
    rw [pageBlocks_length, ← hok.used]
    omega
  have hmissing : ∃ y ∈ pageBlocks pg (binSize b), y ∉ G.onPage pg := by
    by_contra hall
    push Not at hall
    have hle := (List.subperm_of_subset (pageBlocks_nodup (binSize_pos b)) hall).length_le
    omega
  obtain ⟨y, hy, hn⟩ := hmissing
  have hpage := h.pageOf_eq hpg hy
  refine ⟨y, ⟨h.block_of_mem hpg hy, ?_, ?_⟩, hpage⟩
  · rwa [hpage]
  · rw [hpage, hthread]
    exact List.not_mem_nil

/-- A segment that stays with the client after the release of a page has another page in use. -/
theorem AccountInv.freePage_segment {L : QueuePtr → List (Nat × Nat)} (h : AccountInv tid m L none)
    (hpg : pg ∈ L (.bin b)) (hrun : cxlPageFree tid (.bin b) pg m = some m')
    (hi : (m'.sas pg.1).threadId = tid) : ∃ k j, OnQueue tid m' (.bin k) (pg.1, j) := by
  obtain ⟨L₁, h₁, hfree, -⟩ := h.releasePage hpg
  have hown := (h₁.owned hfree).1
  simp only [cxlPageFree] at hrun
  split at hrun
  case isTrue =>
    rw [cxlSegmentFree_eq hown] at hrun
    obtain rfl := Option.some.inj hrun
    rw [releaseSegment_owner, if_pos rfl] at hi
    exact absurd hi.symm h.tid_ne
  case isFalse hused =>
    obtain rfl := Option.some.inj hrun
    rw [h₁.used _ hown, Finset.card_eq_zero] at hused
    obtain ⟨j, hj⟩ := Finset.nonempty_iff_ne_empty.mpr hused
    obtain ⟨hjs, hn⟩ := mem_pagesInUse.mp hj
    obtain ⟨q, hq⟩ := ((h₁.mem (pg.1, j)).mpr ⟨hown, hjs⟩).resolve_right (by simp)
    cases q with
    | freePage => exact absurd hq hn
    | bin k => exact ⟨k, j, h₁.onQueue_iff.mpr hq⟩

/-- **`cxl_free` of a block of the client's own.** -/
theorem Busy.cxlFree_own (hb : Busy tid m) (h : Pool tid m G) (hb2 : b ≠ 2) (hx : G.Held b x)
    (hrun : cxlFree tid (decide (b < 2)) x m = some m') : Busy tid m' := by
  have hpg := hx.block.1
  obtain ⟨m₁, G', hrun', h', hheads', htaken, hempty⟩ := CxlShm.cxlFree_own h.inv h.heads hb2 hx
  obtain rfl := Option.some.inj (hrun.symm.trans hrun')
  have hpool' : Pool tid m' G' := ⟨h', hheads', hempty 2 h.small⟩
  have hback := h.inv.putBack hb2 hx
  have hheld : ∀ k y, HeldBlock tid m k y → pageOf y ≠ pageOf x → HeldBlock tid m' k y := by
    intro k y hy hne
    refine hpool'.heldBlock_iff.mpr ((htaken.held k y).mpr ⟨h.heldBlock_iff.mp hy, ?_⟩)
    rintro rfl
    exact hne rfl
  have hthread : ∀ i, (m.sas i).threadId = tid → G.threadFree i = [] := by
    intro i hi
    have hhead := h.heads i hi
    rw [hb.thread i hi] at hhead
    exact List.head?_eq_none_iff.mp hhead.symm
  rcases cxlFree_own_cases h.inv hb2 hx hrun with ⟨hused, rfl⟩ | ⟨hz, hfree⟩
  · -- the page stays, with a block handed out
    refine ⟨fun i hi => hb.thread i hi, fun k p hp => ?_, fun i hi => ?_⟩
    · have hp := hback.account.onQueue_iff.mp hp
      by_cases hpp : p = pageOf x
      · subst hpp
        obtain rfl : b = k := h.inv.bin_unique hpg hp
        obtain ⟨y, hy, hyp⟩ := hback.exists_held hpg hused (hthread _ (h.inv.account.owned hpg).1)
        refine ⟨y, hpool'.heldBlock_iff.mpr ((htaken.held b y).mpr ?_), hyp⟩
        exact (h.inv.toLocal_held hx).mp hy
      · obtain ⟨y, hy, hyp⟩ := hb.page k p (h.onQueue_iff.mpr hp)
        exact ⟨y, hheld k y hy (by rwa [hyp]), hyp⟩
    · obtain ⟨k, j, hp⟩ := hb.segment i hi
      exact ⟨k, j, hback.account.onQueue_iff.mpr (h.onQueue_iff.mp hp)⟩
  · -- the page goes
    obtain ⟨m₂, L', hrun₂, hacc, hbin, hbins, hgiven⟩ := hback.account.freePage_bins hpg
    obtain rfl := Option.some.inj (hfree.symm.trans hrun₂)
    have hnd := (h.inv.account.queued.listed (.bin b)).nodup
    have hmem : ∀ k p, p ∈ L' (.bin k) ↔ p ∈ G.pages (.bin k) ∧ p ≠ pageOf x := by
      intro k p
      by_cases hkb : k = b
      · subst hkb
        rw [hbin]
        exact hnd.mem_erase_iff.trans and_comm
      · rw [hbins k hkb]
        refine ⟨fun hp => ⟨hp, ?_⟩, And.left⟩
        rintro rfl
        exact hkb (h.inv.bin_unique hp hpg)
    have hsas : ∀ i, (m'.sas i).threadId = tid → m'.sas i = m.sas i := by
      intro i hi
      rcases hgiven.sas i with hs | ⟨-, hz⟩
      · exact hs
      · exact absurd (hi.symm.trans hz) h.inv.account.tid_ne
    refine ⟨fun i hi => ?_, fun k p hp => ?_, fun i hi => ?_⟩
    · have hs := hsas i hi
      rw [hs] at hi ⊢
      exact hb.thread i hi
    · obtain ⟨hp, hne⟩ := (hmem k p).mp (hacc.onQueue_iff.mp hp)
      obtain ⟨y, hy, hyp⟩ := hb.page k p (h.onQueue_iff.mpr hp)
      exact ⟨y, hheld k y hy (by rwa [hyp]), hyp⟩
    · by_cases hix : i = (pageOf x).1
      · subst hix
        exact hback.account.freePage_segment hpg hfree hi
      · rw [hsas i hi] at hi
        obtain ⟨k, j, hp⟩ := hb.segment i hi
        refine ⟨k, j, hacc.onQueue_iff.mpr ((hmem k _).mpr ⟨h.onQueue_iff.mp hp, ?_⟩)⟩
        rintro he
        exact hix (congrArg Prod.fst he)

end Free

/-! ## §3 — a client without blocks -/

section Nothing

variable {tid : Nat} {m : Shm} {G : BlockLists}

/-- No page and no block. -/
def BlockLists.empty : BlockLists := ⟨fun _ => [], fun _ => [], fun _ => [], fun _ => []⟩

/-- **A client that holds no block owns no segment.** -/
theorem Busy.unowned (hb : Busy tid m) (hnone : ∀ b x, ¬ HeldBlock tid m b x) (i : Nat) :
    (m.sas i).threadId ≠ tid := by
  intro hi
  obtain ⟨b, j, hp⟩ := hb.segment i hi
  obtain ⟨x, hx, -⟩ := hb.page b _ hp
  exact hnone b x hx

/-- A client that owns no segment has nothing on its queues. -/
theorem Pool.of_unowned (h : Pool tid m G) (hno : ∀ i, (m.sas i).threadId ≠ tid) :
    Pool tid m BlockLists.empty := by
  have hpages : G.pages = BlockLists.empty.pages := by
    funext q
    apply List.eq_nil_iff_forall_not_mem.mpr
    exact fun pg hpg => hno _ (h.inv.account.owned hpg).1
  refine ⟨⟨?_, ?_, ?_, fun _ _ => rfl⟩, fun i hi => absurd hi (hno i), rfl⟩
  · rw [← hpages]
    exact h.inv.account
  · exact fun _ _ hpg => absurd hpg List.not_mem_nil
  · exact fun _ => ⟨rfl, List.nodup_nil, fun _ hx => absurd hx List.not_mem_nil⟩

theorem Busy.empty (h : Pool tid m BlockLists.empty) : Busy tid m := by
  have hnone : ∀ q pg, ¬ OnQueue tid m q pg := fun q pg hp => List.not_mem_nil (h.onQueue_iff.mp hp)
  have hno : ∀ i, (m.sas i).threadId ≠ tid := by
    intro i hi
    have hone : 1 ∈ segmentPages := mem_segmentPages.mpr ⟨Nat.le_refl 1, by decide⟩
    obtain ⟨q, hq⟩ := ((h.inv.account.mem (i, 1)).mpr ⟨hi, hone⟩).resolve_right (by simp)
    exact List.not_mem_nil hq
  exact ⟨fun i hi => absurd hi (hno i), fun b pg hp => absurd hp (hnone _ _), fun i hi => absurd hi (hno i)⟩

end Nothing

end CxlShm
