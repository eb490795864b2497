import CxlShm.Pool

/-! # SizeClass — from a request to its block and back

A request selects a bin, the bin serves it from a block of a page, and the address of the block leads back to
the page and the bin. The bins reach up to blocks of 1024 bytes, and the size of the header is added without
a test.
-/

namespace CxlShm

open Transition

/-! ## §1 — there and back -/

/-- The bin `cxl_malloc(data_size, _)` takes the block of its object from. -/
def objectBin (dataSize : Nat) : Nat := cxlPageQueue false ((dataSize + sizeofCxlObj) % 2 ^ 64)

/-- The block of the object a handle refers to. -/
def CxlRef.block (r : CxlRef) : Nat := r.data - sizeofCxlObj

/-- The handle has its bytes inside a block that is large enough, and the block leads back to the page and
the bin it came from. -/
structure WellServed (tid : Nat) (m : Shm) (dataSize : Nat) (r : CxlRef) : Prop where
  header : sizeofCxlObj ≤ r.data
  block : r.block ∈ pageBlocks (pageOf r.block) (m.page (pageOf r.block)).blockSize
  large : dataSize + sizeofCxlObj ≤ (m.page (pageOf r.block)).blockSize
  queued : OnQueue tid m (.bin (objectBin dataSize)) (pageOf r.block)
  table : (m.queue tid (.bin (objectBin dataSize))).blockSize = (m.page (pageOf r.block)).blockSize
  recovered : ∀ d < (m.page (pageOf r.block)).blockSize, pageOf (r.block + d) = pageOf r.block
  bin : cxlPageQueue false (m.page (pageOf r.block)).blockSize = objectBin dataSize

/-- Every request of this size, in every reachable state of every client, selects one of the bins and is
served well. -/
def SizeServed (dataSize : Nat) : Prop :=
  objectBin dataSize < cxlBinSize ∧
    ∀ (tid size : Nat) (m : Shm), PoolReach tid size m → ∀ (fuel n : Nat) (r : CxlRef) (m' : Shm),
      cxlMalloc fuel tid size dataSize n m = some (r, m') → WellServed tid m' dataSize r

/-- Any address of a block leads to its page, and the block size to the bin. -/
def BlocksLeadBack : Prop :=
  ∀ b < cxlBinSize, cxlPageQueue (decide (b < 2)) (binSize b) = b ∧
    ∀ i, ∀ j < pagesPerSegment, ∀ k < pageSize / binSize b, ∀ d < binSize b,
      pageOf (blockAt (pageStart (i, j)) (binSize b) k + d) = (i, j)

theorem pageOf_in_block {pg : Nat × Nat} (hpg : pg.2 < pagesPerSegment) {bs x d : Nat}
    (hx : x ∈ pageBlocks pg bs) (hd : d < bs) : pageOf (x + d) = pg := by
  obtain ⟨hlo, hhi⟩ := pageBlocks_bounds hx
  obtain ⟨e, rfl⟩ := Nat.exists_eq_add_of_le hlo
  rw [Nat.add_assoc]
  exact pageOf_offset hpg (by omega)

theorem blocksLeadBack : BlocksLeadBack := by
  intro b hb
  refine ⟨cxlPageQueue_binSize hb, fun i j hj k hk d hd => ?_⟩
  exact pageOf_in_block hj (mem_pageBlocks.mpr ⟨k, hk, rfl⟩) hd

/-! ## §2 — up to 1000 bytes -/

section Served

variable {tid size fuel : Nat} {m m' : Shm} {G : BlockLists} {dataSize n : Nat} {r : CxlRef}

theorem objectBin_of_le (h : dataSize ≤ 1000) : objectBin dataSize = (dataSize + 23) / 16 + 2 := by
  apply cxlPageQueue_object
  simp only [sizeofCxlObj]
  omega

/-- The block size of the bin is the request with its header, rounded up. -/
theorem binSize_objectBin (h : dataSize ≤ 1000) :
    dataSize + sizeofCxlObj ≤ binSize (objectBin dataSize) := by
  rw [objectBin_of_le h]
  unfold binSize
  rw [if_neg (by omega), if_neg (by omega)]
  simp only [sizeofCxlObj]
  omega

theorem Pool.wellServed (h : Pool tid m G) (hle : dataSize ≤ 1000)
    (hrun : CxlShm.cxlMalloc fuel tid size dataSize n m = some (r, m')) : WellServed tid m' dataSize r := by
  have hfits : dataSize + sizeofCxlObj < 2 ^ 64 := by
    simp only [sizeofCxlObj]
    omega
  obtain ⟨G', t, x, b, h', hb, hlt, rfl, hmade⟩ := h.cxlMalloc hfits hrun
  rw [← objectBin_of_le hle] at hb
  have hx : G'.Held b x := (hmade.held b x).mpr (Or.inr ⟨rfl, rfl⟩)
  have hblock : CxlRef.block ⟨t, x + sizeofCxlObj⟩ = x := Nat.add_sub_cancel ..
  have hsize := (h'.inv.page b _ hx.block.1).size
  have hlarge := binSize_objectBin hle
  have hpage := (mem_segmentPages.mp (h'.inv.account.owned hx.block.1).2).2
  have hbin := cxlPageQueue_binSize hlt
  rw [decide_eq_false (by rw [hb, objectBin_of_le hle]; omega)] at hbin
  rw [hb] at hsize hx hbin
  refine ⟨Nat.le_add_left .., ?_, ?_, ?_, ?_, ?_, ?_⟩
  · rw [hblock, hsize]
    exact hx.block.2
  · rw [hblock, hsize]
    exact hlarge
  · rw [hblock]
    exact h'.onQueue_iff.mpr hx.block.1
  · rw [hblock, hsize]
    exact h'.inv.account.size _
  · rw [hblock, hsize]
    exact fun d hd => pageOf_in_block hpage hx.block.2 hd
  · rw [hblock, hsize]
    exact hbin

end Served

/-! ## §3 — past 1000 bytes -/

theorem blockToCxlobj_page (tid b : Nat) (pg : Nat × Nat) (n : Nat) (m : Shm) :
    ((blockToCxlobj tid b pg n m).page pg).blockSize = (m.page pg).blockSize := by
  have hpop : (blockToCxlobj tid b pg n m).page pg = (popBlock b pg m).page pg := rfl
  rw [hpop, popBlock, Shm.page_setPage, if_pos rfl]

theorem linkBlockToTbr_page (b t : Nat) (pg : Nat × Nat) (m : Shm) : (linkBlockToTbr b t m).page pg = m.page pg := rfl

/-- The first request of a client: the RootRef and the object get a fresh page each. -/
theorem Pool.cxlMalloc_first {tid size : Nat} {m : Shm} {G : BlockLists} (h : Pool tid m G)
    (hempty : ∀ k, G.pages (.bin k) = []) (hroom : G.pages .freePage ≠ [] ∨ Claimable size m) {dataSize : Nat} (n : Nat)
    (hb : objectBin dataSize < cxlBinSize) (h0 : objectBin dataSize ≠ 0) : ∃ t m₁ pg m₂ m',
      CxlShm.threadBaseRefAlloc 2 tid size m = some (t, m₁) ∧
      cxlPageFresh 2 tid size (.bin (objectBin dataSize)) (m₁.clearRedo tid) = some (pg, m₂) ∧
      CxlShm.cxlMalloc 2 tid size dataSize n m = some (⟨t, pageStart pg + sizeofCxlObj⟩, m') ∧
      pageOf (pageStart pg) = pg ∧ (m'.page pg).blockSize = binSize (objectBin dataSize) := by
  obtain ⟨t, pg, L, m₁, href, h₁, -, hbin, hbins⟩ := h.rootRef_first (hempty 0) hroom
  -- the RootRef has taken one page of the segment
  have hmem : pg ∈ L (.bin 0) := by
    rw [hbin]
    exact List.mem_cons_self
  have hleft : L .freePage ≠ [] := by
    apply h₁.room (h₁.inv.account.owned hmem).1 (l := [pg])
    · intro k p hp
      have hp' : p ∈ L (.bin k) := hp
      by_cases hk : k = 0
      · subst hk
        rwa [hbin] at hp'
      · rw [hbins k hk, hempty] at hp'
        exact absurd hp' List.not_mem_nil
    · simp only [List.length_singleton, pagesPerSegment]
      omega
  have hroom₁ : L .freePage ≠ [] ∨ Claimable size m₁ := Or.inl hleft
  have hnone : L (.bin (objectBin dataSize)) = [] := by
    rw [hbins _ h0, hempty]
  obtain ⟨pg', m₂, hfresh, hrun⟩ := cxlPageMalloc_first h₁.inv.account hnone hroom₁
  obtain ⟨L', -, h₂, hbin', -, -, -, -, hbody⟩ := cxlPageFresh_some h₁.inv.clearRedo.account hb hfresh
  have hfree : (m₂.page pg').free = pageStart pg' := congrArg Page.free hbody
  have hsize : (m₂.page pg').blockSize = binSize (objectBin dataSize) :=
    (congrArg Page.blockSize hbody).trans (Nat.mod_eq_of_lt (binSize_lt hb))
  have hmem' : pg' ∈ L' (.bin (objectBin dataSize)) := by
    rw [hbin']
    exact List.mem_cons_self
  have hpage : pageOf (pageStart pg') = pg' :=
    pageOf_offset (d := 0) (mem_segmentPages.mp (h₂.owned hmem').2).2 (by decide)
  refine ⟨t, m₁, pg', m₂, blockToCxlobj tid (pageStart pg') pg' n (linkBlockToTbr (pageStart pg') t m₂), href, hfresh,
    ?_, hpage, ?_⟩
  case refine_2 => rw [blockToCxlobj_page, linkBlockToTbr_page, hsize]
  have hsel : cxlPageQueue false ((dataSize + sizeofCxlObj) % 2 ^ 64) = objectBin dataSize := rfl
  simp only [CxlShm.cxlMalloc, href, Option.bind_eq_bind, Option.bind_some, CxlShm.cxlRefAlloc, hsel, if_pos hb, hrun, hfree]

/-- In a fresh area every bin serves a first request, whatever size has selected it. -/
theorem cxlMalloc_fresh {dataSize : Nat} (n : Nat) (hb : objectBin dataSize < cxlBinSize)
    (h0 : objectBin dataSize ≠ 0) : ∃ r m', cxlMalloc 2 1 (2 ^ 27 + 2 ^ 26) dataSize n freshArea = some (r, m') ∧
      (m'.page (pageOf r.block)).blockSize = binSize (objectBin dataSize) := by
  have hroom : Claimable (2 ^ 27 + 2 ^ 26) freshArea := ⟨0, rfl, by decide⟩
  obtain ⟨t, m₁, pg, m₂, m', -, -, hrun, hpage, hsize⟩ :=
    (Pool.init freshArea_init).cxlMalloc_first (fun _ => rfl) (Or.inr hroom) n hb h0
  refine ⟨⟨t, pageStart pg + sizeofCxlObj⟩, m', hrun, ?_⟩
  have hblock : CxlRef.block ⟨t, pageStart pg + sizeofCxlObj⟩ = pageStart pg := Nat.add_sub_cancel ..
  rw [hblock, hpage, hsize]

/-- A request of more than 1000 bytes selects a queue past the bins, or so small a one that the sum has
wrapped. -/
theorem objectBin_of_gt {dataSize : Nat} (hlt : dataSize < 2 ^ 64) (h : 1000 < dataSize)
    (hb : objectBin dataSize < cxlBinSize) : 2 ≤ objectBin dataSize ∧ objectBin dataSize ≤ 3 := by
  simp only [objectBin, cxlPageQueue, Bool.false_eq_true, false_and, if_false, sizeofCxlObj, cxlBinSize] at hb ⊢
  omega

/-- **Requests are served up to 1000 bytes.** -/
theorem sizeServed_iff {dataSize : Nat} (hlt : dataSize < 2 ^ 64) :
    BlocksLeadBack ∧ (SizeServed dataSize ↔ dataSize ≤ 1000) := by
  refine ⟨blocksLeadBack, ?_, ?_⟩
  · rintro ⟨hb, hserved⟩
    by_contra hgt
    obtain ⟨hlo, hhi⟩ := objectBin_of_gt hlt (by omega) hb
    -- the sum has wrapped, and the block is one of 16 or 32 bytes
    obtain ⟨r, m', hrun, hsize⟩ := cxlMalloc_fresh 0 hb (by omega)
    have hlarge := (hserved 1 _ _ (Reach.init freshArea_init trivial) 2 0 r m' hrun).large
    have hbounds := (binSize_bounds hb).2
    rw [hsize] at hlarge
    simp only [sizeofCxlObj] at hlarge
    omega
  · intro hle
    refine ⟨?_, ?_⟩
    · rw [objectBin_of_le hle]
      simp only [cxlBinSize]
      omega
    · intro tid size m hreach fuel n r m' hrun
      obtain ⟨G, h⟩ := hreach.pool
      exact h.wellServed hle hrun

theorem sizeServed_largest : SizeServed 1000 := (sizeServed_iff (by decide)).2.mpr (Nat.le_refl 1000)

/-- A request of 1001 bytes selects `pages[66]`, one past the array: the queue of free pages, with block size 0. -/
theorem sizeServed_past_bins : ¬ SizeServed 1001 := by
  intro h
  have hb := h.1
  simp [objectBin, cxlPageQueue, sizeofCxlObj, cxlBinSize] at hb

end CxlShm
