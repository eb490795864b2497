import CxlShm.LocalFree
import CxlShm.WorldExact

/-! # WorldBlocks — the blocks of a page, and blocks in use lie apart

While the clients are at work, the blocks of each page are shared out between the two lists of the page, the
`thread_free` list of its segment, and those that are in use; and blocks in use lie apart.
-/

namespace CxlShm

open SlotCount Loop Transition

/-! ## §1 — where the blocks of a page are -/

/-- The blocks of a page: on its free list, on its local free list, given back by others, in use. -/
structure BlocksSplit (K : Users) (m : Shm) (b : Nat) (pg : Nat × Nat) (free loc thread held : List Nat) : Prop where
  split : (free ++ loc ++ thread ++ held).Perm (pageBlocks pg (binSize b))
  freeList : Chained (blockNext m) (linkPtr (m.page pg).free) free
  localList : Chained (blockNext m) (linkPtr (m.page pg).localFree) loc
  threadList : ∀ x, x ∈ thread ↔ pageOf x = pg ∧ OnList m (m.sas pg.1).threadFree x
  inUse : ∀ x, x ∈ held ↔ pageOf x = pg ∧ InHand K m b x
  used : (m.page pg).used = thread.length + held.length

section Split

variable {K : Users} {m : Shm} {G : Nat → BlockLists} {u b x : Nat} {pg : Nat × Nat}

/-- What the clients have of a page is what its owner says. -/
theorem Pools.held_iff_own (h : Pools K m G) (hu : u ∈ K.clients) (hpg : pg ∈ (G u).pages (.bin b)) (hx : pageOf x = pg) :
    InHand K m b x ↔ (G u).Held b x := by
  rw [h.inHand_iff]
  constructor
  · rintro ⟨w, hw, hxw⟩
    -- the segment has one owner
    have hown := h.block_owner hw hxw.block (binSize_pos b)
    have hseg : segmentIdx x = pg.1 := congrArg Prod.fst hx
    rw [(h w hw).inv.segmentIdx_block hxw.block (binSize_pos b), hseg, ((h u hu).inv.account.owned hpg).1] at hown
    rwa [hown]
  · exact fun hxu => ⟨u, hu, hxu⟩

/-- The lists of a client split the blocks of its pages. -/
theorem Pools.blocksSplit (h : Pools K m G) (hu : u ∈ K.clients) (hpg : pg ∈ (G u).pages (.bin b)) :
    ∃ thread held, BlocksSplit K m b pg ((G u).free pg) ((G u).localFree pg) thread held := by
  classical
  have hinv := (h u hu).inv
  have hok := hinv.page b pg hpg
  have hseg := hinv.segment pg.1
  have hblock : ∀ {x}, x ∈ pageBlocks pg (binSize b) → pageOf x = pg := fun hx => hinv.pageOf_eq hpg hx
  have hthread_block : ∀ {x}, x ∈ (G u).threadFree pg.1 → pageOf x = pg → x ∈ pageBlocks pg (binSize b) := by
    intro x hx hpage
    obtain ⟨-, k, hk⟩ := hseg.blocks x hx
    obtain rfl : b = k := hinv.bin_unique hpg (hpage ▸ hk.1)
    exact hpage ▸ hk.2
  have honlist : ∀ x, OnList m (m.sas pg.1).threadFree x ↔ x ∈ (G u).threadFree pg.1 := by
    intro x
    apply onList_iff
    rw [(h u hu).heads _ (hinv.account.owned hpg).1]
    exact hseg.chain
  have hheld : ∀ x, pageOf x = pg → ((G u).Held b x ↔ x ∈ pageBlocks pg (binSize b) ∧ x ∉ (G u).onPage pg ∧
      x ∉ (G u).threadFree pg.1) := by
    rintro x rfl
    constructor
    · exact fun hx => ⟨hx.block.2, hx.page, hx.thread⟩
    · exact fun ⟨hx, hn, ht⟩ => ⟨⟨hpg, hx⟩, hn, ht⟩
  have hnodup : (pageBlocks pg (binSize b)).Nodup := pageBlocks_nodup (binSize_pos b)
  refine ⟨((G u).threadFree pg.1).filter fun x => pageOf x = pg,
    (pageBlocks pg (binSize b)).filter fun x => (G u).Held b x, ?_⟩
  have hperm : ((G u).free pg ++ (G u).localFree pg ++ ((G u).threadFree pg.1).filter (fun x => pageOf x = pg) ++
      (pageBlocks pg (binSize b)).filter fun x => (G u).Held b x).Perm (pageBlocks pg (binSize b)) := by
    rw [List.perm_ext_iff_of_nodup ?_ hnodup]
    · intro x
      simp only [List.mem_append, List.mem_filter, decide_eq_true_eq]
      constructor
      · rintro (((hx | hx) | ⟨hx, hpage⟩) | ⟨hx, -⟩)
        · exact hok.blocks x (List.mem_append_left _ hx)
        · exact hok.blocks x (List.mem_append_right _ hx)
        · exact hthread_block hx hpage
        · exact hx
      · intro hx
        -- on no list of the page and not given back by others: in use
        by_cases hl : x ∈ (G u).onPage pg
        · exact Or.inl (Or.inl (List.mem_append.mp hl))
        · by_cases ht : x ∈ (G u).threadFree pg.1
          · exact Or.inl (Or.inr ⟨ht, hblock hx⟩)
          · exact Or.inr ⟨hx, (hheld x (hblock hx)).mpr ⟨hx, hl, ht⟩⟩
    · refine List.nodup_append'.mpr ⟨List.nodup_append'.mpr ⟨hok.nodup, hseg.nodup.filter _, ?_⟩, hnodup.filter _, ?_⟩
      · exact fun x hx hx' => hok.apart x hx (List.mem_filter.mp hx').1
      · intro x hx hx'
        have hx' := (hheld x (hblock (List.mem_filter.mp hx').1)).mp (by simpa using (List.mem_filter.mp hx').2)
        rcases List.mem_append.mp hx with hx | hx
        · exact hx'.2.1 hx
        · exact hx'.2.2 (List.mem_filter.mp hx).1
  refine ⟨hperm, hok.free, hok.localFree, fun x => ?_, fun x => ?_, ?_⟩
  · rw [List.mem_filter, honlist, decide_eq_true_eq, and_comm]
  · rw [List.mem_filter, decide_eq_true_eq]
    constructor
    · rintro ⟨hx, hxu⟩
      exact ⟨hblock hx, (h.held_iff_own hu hpg (hblock hx)).mpr hxu⟩
    · rintro ⟨hpage, hx⟩
      have hxu := (h.held_iff_own hu hpg hpage).mp hx
      exact ⟨((hheld x hpage).mp hxu).1, hxu⟩
  · have hlength := hperm.length_eq
    have hused := hok.used
    rw [pageBlocks_length, List.length_append, List.length_append] at hlength
    unfold BlockLists.onPage at hused
    omega

end Split

/-! ## §2 — the counters cover what is alive -/

section Cover

variable {K : Users} {m : Shm} {G : Nat → BlockLists} {H : ObjHeap} {u o p : Nat}

/-- An object in a segment whose header names `u` is a block of `u`. -/
theorem HeapOk.held_own (h : HeapOk K m G H) (ho : o ∈ H.objs) (hown : Owned m u (segmentIdx o)) :
    ∃ b, u ∈ K.clients ∧ (G u).Held b o := by
  obtain ⟨-, b, -, w, hw, hheld⟩ := (h.view.obj o).mp ho
  have haccount := (h.pools w hw).inv.account
  have hhead := haccount.header _ (haccount.owned hheld.block.1).1
  obtain rfl : w = u := hhead.symm.trans hown
  exact ⟨b, hw, hheld⟩

/-- The objects alive in a page are among its blocks in use, which its counter counts. -/
theorem HeapOk.living_le (h : HeapOk K m G H) (ho : o ∈ H.objs) (hown : Owned m u (segmentIdx o)) :
    (livingIn H m (pageOf o)).card ≤ (m.page (pageOf o)).used ∧ (m.page (pageOf o)).used < 2 ^ 32 := by
  obtain ⟨b, hu, hheld⟩ := h.held_own ho hown
  obtain ⟨thread, held, hsplit⟩ := h.pools.blocksSplit hu hheld.block.1
  constructor
  · have hsub : livingIn H m (pageOf o) ⊆ held.toFinset := by
      intro p hp
      obtain ⟨hp, hpage, -⟩ := mem_livingIn.mp hp
      have hpown : Owned m u (segmentIdx p) := by
        rw [show segmentIdx p = segmentIdx o from congrArg Prod.fst hpage]
        exact hown
      obtain ⟨k, -, hk⟩ := h.held_own hp hpown
      obtain rfl : b = k := (h.pools u hu).inv.bin_unique hheld.block.1 (hpage ▸ hk.block.1)
      exact List.mem_toFinset.mpr ((hsplit.inUse p).mpr ⟨hpage, h.pools.inHand_iff.mpr ⟨u, hu, hk⟩⟩)
    calc (livingIn H m (pageOf o)).card
        ≤ held.toFinset.card := Finset.card_le_card hsub
      _ ≤ held.length := List.toFinset_card_le held
      _ ≤ (m.page (pageOf o)).used := by
        rw [hsplit.used]
        exact Nat.le_add_left ..
  · have hok := (h.pools u hu).inv.page b _ hheld.block.1
    have hlt := pageSize_div_lt (binSize b)
    have hused := hok.used
    omega

/-- The pages with an object alive are among those in use, which the header counts. -/
theorem HeapOk.livingPages_le (h : HeapOk K m G H) (ho : o ∈ H.objs) (hown : Owned m u (segmentIdx o)) :
    (livingPages H m (segmentIdx o)).card ≤ (m.segment (segmentIdx o)).used ∧
      (m.segment (segmentIdx o)).used < 2 ^ 32 := by
  obtain ⟨b, hu, hheld⟩ := h.held_own ho hown
  have haccount := (h.pools u hu).inv.account
  have hused := haccount.used _ (haccount.owned hheld.block.1).1
  rw [show (pageOf o).1 = segmentIdx o from rfl] at hused
  have hlt := card_pagesInUse_lt ((G u).pages .freePage) (segmentIdx o)
  rw [hused]
  constructor
  · have hsub : (livingPages H m (segmentIdx o)).image Prod.snd ⊆
        pagesInUse ((G u).pages .freePage) (segmentIdx o) := by
      intro j hj
      obtain ⟨pg, hpg, rfl⟩ := Finset.mem_image.mp hj
      obtain ⟨p, hp, hseg, -, rfl⟩ := mem_livingPages.mp hpg
      have hpown : Owned m u (segmentIdx p) := by
        rw [hseg]
        exact hown
      obtain ⟨k, -, hk⟩ := h.held_own hp hpown
      refine mem_pagesInUse.mpr ⟨(haccount.owned hk.block.1).2, fun hfree => ?_⟩
      -- a page is on one queue
      rw [← hseg] at hfree
      have hq : QueuePtr.freePage = .bin k := haccount.queued.apart _ _ _ hfree hk.block.1
      cases hq
    have hinj : Set.InjOn Prod.snd (livingPages H m (segmentIdx o) : Set (Nat × Nat)) := by
      intro pg hpg pg' hpg' he
      obtain ⟨p, -, hseg, -, rfl⟩ := mem_livingPages.mp hpg
      obtain ⟨p', -, hseg', -, rfl⟩ := mem_livingPages.mp hpg'
      exact Prod.ext (hseg.trans hseg'.symm) he
    rw [← Finset.card_image_of_injOn hinj]
    exact Finset.card_le_card hsub
  · unfold pagesPerSegment at hlt
    omega

/-- **The counters cover what is alive** in the segments of every client. -/
theorem HeapOk.countersCover (h : HeapOk K m G H) : CountersCover H (Owned m u) u m :=
  ⟨fun _ _ _ hown => hown, fun _ ho _ hown => h.living_le ho hown, fun _ ho _ hown => h.livingPages_le ho hown⟩

end Cover

/-! ## §3 — over all runs -/

section Runs

variable {K : Users} {w : World} {size u b c x y : Nat} {pg : Nat × Nat}

/-- In every state of every run the counters cover what is alive. -/
theorem WorldReach.countersCover (h : WorldReach K size w) (u : Nat) :
    ∃ H, HeapExact H w.mem ∧ (∀ o, o ∈ H.objs ↔ ObjectInHand K w.mem o) ∧
      CountersCover H (Owned w.mem u) u w.mem := by
  obtain ⟨G, H, hok⟩ := h.ok
  exact ⟨H, hok.heap.exact, fun o => hok.heap.objectInHand_iff.symm, hok.heap.countersCover⟩

/-- **Blocks are conserved**: in every state of every run the three lists of a page on a bin are disjoint, have blocks of
the page only, and its counter counts the blocks that are not on the first two. In use is, by definition, what is on
no list. -/
theorem blocks_conserved (h : WorldReach K size w) (hu : u ∈ K.clients) (hpg : OnQueue u w.mem (.bin b) pg) :
    ∃ free loc thread held, BlocksSplit K w.mem b pg free loc thread held := by
  obtain ⟨G, H, hok⟩ := h.ok
  have hpg := (hok.heap.pools u hu).onQueue_iff.mp hpg
  obtain ⟨thread, held, hsplit⟩ := hok.heap.pools.blocksSplit hu hpg
  exact ⟨_, _, thread, held, hsplit⟩

theorem blocks_conserved_solo : ∃ (w : World) (pg : Nat × Nat), OnQueue 1 w.mem (.bin 35) pg ∧
    ∃ free loc thread held, BlocksSplit soloUsers w.mem 35 pg free loc thread held := by
  obtain ⟨w, t, x, h⟩ := exists_soloObject
  obtain ⟨u, hu, hx⟩ := h.inHand
  obtain rfl := Finset.mem_singleton.mp hu
  exact ⟨w, _, hx.1, blocks_conserved h.reach hu hx.1⟩

/-- **Blocks in use lie apart**: two different ones have no byte in common, and they lie behind the header of the
area. -/
theorem inHand_apart (h : WorldReach K size w) (hx : InHand K w.mem b x) (hy : InHand K w.mem c y)
    (hne : b ≠ c ∨ x ≠ y) : segmentsAreaStart ≤ x ∧ (x + binSize b ≤ y ∨ y + binSize c ≤ x) := by
  obtain ⟨G, H, hok⟩ := h.ok
  have hx := hok.heap.pools.inHand_iff.mp hx
  have hy := hok.heap.pools.inHand_iff.mp hy
  refine ⟨hx.area, ?_⟩
  by_contra hno
  rw [not_or, not_le, not_le] at hno
  rcases Nat.le_total x y with hxy | hyx
  · obtain ⟨d, rfl⟩ := Nat.exists_eq_add_of_le hxy
    have hapart := hok.heap.pools.held_apart hx hy hne (d := d) (by omega) (binSize_pos c)
    exact hapart (by omega)
  · obtain ⟨d, rfl⟩ := Nat.exists_eq_add_of_le hyx
    have hapart := hok.heap.pools.held_apart hx hy hne (binSize_pos b) (e := d) (by omega)
    exact hapart (by omega)

theorem inHand_apart_solo : ∃ (w : World) (t x : Nat), InHand soloUsers w.mem 0 t ∧ InHand soloUsers w.mem 35 x ∧
    segmentsAreaStart ≤ t ∧ (t + binSize 0 ≤ x ∨ x + binSize 35 ≤ t) := by
  obtain ⟨w, t, x, h⟩ := exists_soloObject
  obtain ⟨G, H, hok⟩ := h.reach.ok
  have hnamed : w.handles t ≠ 0 := by
    rw [h.named]
    decide
  have ht : InHand soloUsers w.mem 0 t := hok.heap.pools.inHand_iff.mpr (hok.held_of_named hnamed)
  exact ⟨w, t, x, ht, h.inHand, inHand_apart h.reach ht h.inHand (Or.inl (by decide))⟩

end Runs

end CxlShm
