import CxlShm.Handle

/-! # Reuse — a client without blocks

What a client without blocks allocates and drops again leaves it without blocks, and the next request of the same
size gets the same block.
-/

namespace CxlShm

open Transition

/-! ## §1 — one object -/

section Made

variable {tid size fuel : Nat} {m m' : Shm} {G : BlockLists}

/-- `cxl_malloc` consumes one era of the client. -/
theorem Pool.cxlMalloc_era (h : Pool tid m G) {dataSize n : Nat} {r : CxlRef}
    (hfits : dataSize + sizeofCxlObj < 2 ^ 64) (hrun : CxlShm.cxlMalloc fuel tid size dataSize n m = some (r, m')) :
    m'.eraCell = (m.storeEra tid tid ((m.era tid tid + 1) % 2 ^ 32)).eraCell := by
  simp only [CxlShm.cxlMalloc, Option.bind_eq_bind, Option.bind_eq_some_iff] at hrun
  obtain ⟨⟨t, m₁⟩, href, hobj⟩ := hrun
  obtain ⟨G₁, h₁, hout, -, hera⟩ := h.threadBaseRefAlloc href
  have ht : G₁.Held 0 t := (hout.held 0 t).mpr (Or.inr ⟨rfl, rfl⟩)
  have hlarge : 3 ≤ cxlPageQueue false ((dataSize + sizeofCxlObj) % 2 ^ 64) := by
    rw [cxlPageQueue_object hfits]
    omega
  obtain ⟨_, _, _, _, _, _, hmade⟩ := h₁.cxlRefAlloc ht hlarge hobj
  rw [hmade.era]
  simp only [Shm.storeEra, Shm.era, hera]

/-- A client without blocks: nothing on its queues, and eras in bounds. -/
structure Unused (tid : Nat) (m : Shm) : Prop where
  pool : Pool tid m BlockLists.empty
  era : EraBounded m

theorem not_held_empty {b x : Nat} : ¬ BlockLists.empty.Held b x := fun h => List.not_mem_nil h.block.1

/-- What `cxl_malloc` has made for a client without blocks: a handle counted once, and its object. -/
structure FirstObject (tid : Nat) (m : Shm) (r : CxlRef) (G : BlockLists) (t x b n : Nat) : Prop where
  pool : Pool tid m G
  era : EraBounded m
  handle : r = ⟨t, x + sizeofCxlObj⟩
  root : G.Held 0 t
  object : G.Held b x
  count : m.rootRefCnt t = 1
  pptr : m.word t = x
  one : m.refCnt x = 1
  embedded : m.word (x + 16) = n
  only : ∀ k y, G.Held k y → y = x ∨ y = t
  busy : Busy tid m

theorem FirstObject.leaf {r : CxlRef} {t x b n : Nat} (h : FirstObject tid m r G t x b n)
    (hslots : ∀ k < n, m.word (embeddedSlot x k) = 0) : Leaf m t x n := ⟨h.pptr, h.one, h.embedded, hslots⟩

theorem Unused.firstObject (h : Unused tid m) (htid : tid < 2 ^ 16) {dataSize n : Nat} {r : CxlRef}
    (hfits : dataSize + sizeofCxlObj < 2 ^ 64)
    (hrun : CxlShm.cxlMalloc fuel tid size dataSize n m = some (r, m')) :
    ∃ G t x, FirstObject tid m' r G t x ((dataSize + 23) / 16 + 2) n := by
  obtain ⟨G, t, x, b, h', rfl, -, hr, hmade⟩ := h.pool.cxlMalloc hfits hrun
  have hera : EraBounded m' := by
    intro k
    rw [h.pool.cxlMalloc_era hfits hrun]
    exact h.era.storeEra (Nat.mod_lt _ (by decide)) k
  refine ⟨G, t, x, h', hera, hr, (hmade.held 0 t).mpr (Or.inl (Or.inr ⟨rfl, rfl⟩)),
    (hmade.held _ x).mpr (Or.inr ⟨rfl, rfl⟩), hmade.refCnt, hmade.pptr, ?_, hmade.embedded, fun k y hy => ?_,
    (Busy.empty h.pool).cxlMalloc h.pool hfits hrun⟩
  · rw [Shm.refCnt, hmade.info]
    exact getRefCntFromInfo_pack htid (by decide) (h.era _)
  · rcases (hmade.held k y).mp hy with (hold | ⟨-, hnew⟩) | ⟨-, hnew⟩
    · exact absurd hold not_held_empty
    · exact Or.inr hnew
    · exact Or.inl hnew

/-- Payload behind the header is the application's to write. -/
theorem FirstObject.store {r : CxlRef} {t x b n d : Nat} (h : FirstObject tid m r G t x b n) (hb : 3 ≤ b)
    (hlo : sizeofCxlObj ≤ d) (hd : d < binSize b) (v : Nat) : FirstObject tid (m.store (x + d) v) r G t x b n := by
  have hapart := h.pool.root_object_ne h.root h.object hb
  have hlarge := binSize_large hb
  have hpool : Pool tid (m.store (x + d) v) G := h.pool.store h.object hd v
  have hword : ∀ a, a ≠ x + d → (m.store (x + d) v).word a = m.word a := fun a ha => Function.update_of_ne ha ..
  simp only [sizeofCxlObj] at hlo
  refine ⟨hpool, h.era, h.handle, h.root, h.object, ?_, ?_, ?_, ?_, h.only, h.busy.congr h.pool hpool rfl⟩
  · rw [Shm.rootRefCnt, hword _ (hapart 8 d (by decide) hd)]
    exact h.count
  · rw [hword t (hapart 0 d (by decide) hd)]
    exact h.pptr
  · rw [Shm.refCnt, Shm.refInfo, hword _ (by omega)]
    exact h.one
  · rw [hword _ (by omega)]
    exact h.embedded

/-- **Dropped**: the client is without blocks again. -/
theorem FirstObject.dropped {r : CxlRef} {t x b n : Nat} (h : FirstObject tid m r G t x b n) (hb : 3 ≤ b)
    (hfit : sizeofCxlObj + 8 * n ≤ binSize b) (hslots : ∀ k < n, m.word (embeddedSlot x k) = 0)
    (hrun : CxlRef.destroy fuel tid r m = some m') : Unused tid m' ∧ KeepsOthers tid m m' ∧
      ∀ d, sizeofCxlObj ≤ d → d < binSize b → m'.word (x + d) = m.word (x + d) := by
  rw [h.handle] at hrun
  obtain ⟨G₂, h₂, hlast⟩ := h.pool.destroy_last h.root h.object hb hfit h.count (h.leaf hslots) hrun
  -- nothing is handed out any more
  have hnone : ∀ k y, ¬ HeldBlock tid m' k y := by
    intro k y hy
    obtain ⟨hheld, hyx, hyt⟩ := (hlast.held k y).mp (h₂.heldBlock_iff.mp hy)
    exact (h.only k y hheld).elim hyx hyt
  refine ⟨⟨h₂.of_unowned ((hlast.busy h.busy).unowned hnone), hlast.era h.era⟩, hlast.others, ?_⟩
  intro d hlo hd
  by_contra hne
  rcases hlast.word _ hne with ⟨e, he, heq⟩ | ⟨e, he, heq⟩
  · exact h.pool.root_object_ne h.root h.object hb e d he hd heq.symm
  · omega

/-- Another client without blocks sees nothing of it. -/
theorem Unused.others {u : Nat} (hu : Unused u m) (hne : u ≠ tid) (h : Unused tid m')
    (hkeeps : KeepsOthers tid m m') : Unused u m' := by
  have hframe : UseFrame u m m' := by
    apply hkeeps.useFrame hne hu.pool.inv.account.tid_ne h.pool.inv.account.claimable
    intro x hx
    obtain ⟨b, hb⟩ := hu.pool.inv.listed_block (hu.pool.freeBlock_iff.mp hx)
    exact absurd hb.1 List.not_mem_nil
  exact ⟨hu.pool.use hframe, h.era⟩

end Made

/-! ## §2 — the steps of a destruction -/

section Steps

variable {tid size fuel n b t x : Nat} {m m' : Shm} {G : BlockLists}

/-- A store to a block handed out is a use of it. -/
theorem Pool.storeUse (h : Pool tid m G) (hx : G.Held b x) {d : Nat} (hd : d < binSize b) (v : Nat) :
    UseFrame tid m (m.store (x + d) v) := by
  refine ⟨fun _ => rfl, fun _ => Iff.rfl, fun _ _ => rfl, fun _ _ => rfl, h.inv.account.claimable, fun y hy => ?_⟩
  exact Function.update_of_ne (h.inv.held_add_ne hx (h.freeBlock_iff.mp hy) hd) ..

/-- The destruction of the last handle is a run of stores and frees. -/
theorem PoolReach.destroy (hreach : PoolReach tid size m) (h : Pool tid m G) (ht : G.Held 0 t) (hx : G.Held b x)
    (hb : 3 ≤ b) (hfit : sizeofCxlObj + 8 * n ≤ binSize b) (hone : m.rootRefCnt t = 1) (hleaf : Leaf m t x n)
    {data : Nat} (hrun : CxlRef.destroy fuel tid ⟨t, data⟩ m = some m') : PoolReach tid size m' := by
  have ht0 : t ≠ 0 := block_ne_zero ht.block.2
  have hx0 : x ≠ 0 := block_ne_zero hx.block.2
  have htx : t ≠ x := h.root_object_ne ht hx hb 0 0 (by decide) (Nat.lt_of_lt_of_le (by decide) (binSize_large hb))
  have hcnt : (m.setRootRefCnt t ((1 + (2 ^ 16 - 1)) % 2 ^ 16)).rootRefCnt t = 0 := rootRefCnt_setRootRefCnt ..
  unfold CxlRef.destroy at hrun
  simp only at hrun
  rw [if_neg (fun hc => ht0 hc.1), hone, if_neg (fun hc => hc hcnt), Option.bind_eq_some_iff] at hrun
  obtain ⟨m₂, htest, hfree⟩ := hrun
  have h₁ : Pool tid (m.setRootRefCnt t ((1 + (2 ^ 16 - 1)) % 2 ^ 16)) G := h.store ht (by decide) _
  have hleaf₁ := hleaf.setRootRefCnt h ht hx hb hfit ((1 + (2 ^ 16 - 1)) % 2 ^ 16)
  -- the count, the unlink, and the object
  have huse₁ : UseFrame tid m (m.setRootRefCnt t ((1 + (2 ^ 16 - 1)) % 2 ^ 16)) := h.storeUse ht (by decide) _
  have hreach₁ := Reach.step hreach (PoolStep.use huse₁) trivial
  have hreach₂ := Reach.step hreach₁ (PoolStep.use (h₁.unlinkUse ht hx hb)) trivial
  have hpool₂ := h₁.use (h₁.unlinkUse ht hx hb)
  have hobj := testFree_leaf_some hx0 hleaf₁ htest
  rw [← decide_eq_false (show ¬ b < 2 by omega)] at hobj
  have hreach₃ := Reach.step hreach₂ (PoolStep.free b x (hpool₂.heldBlock_iff.mpr hx) hobj) trivial
  -- and the RootRef
  obtain ⟨m₂', G₂, hrun₂, hinv₂, hheads₂, htaken₂, hempty₂⟩ := cxlFree_own hpool₂.inv hpool₂.heads (by omega) hx
  obtain rfl := Option.some.inj (hobj.symm.trans hrun₂)
  have hpool₃ : Pool tid m₂ G₂ := ⟨hinv₂, hheads₂, hempty₂ 2 hpool₂.small⟩
  have ht₂ : G₂.Held 0 t := (htaken₂.held 0 t).mpr ⟨ht, htx⟩
  have huse₃ : UseFrame tid m₂ (m₂.setInUse t 0) := hpool₃.storeUse ht₂ (by decide) _
  have hpool₄ := hpool₃.use huse₃
  have hreach₄ := Reach.step hreach₃ (PoolStep.use huse₃) trivial
  exact Reach.step hreach₄ (PoolStep.free 0 t (hpool₄.heldBlock_iff.mpr ht₂) hfree) trivial

end Steps

/-! ## §3 — the same block again -/

section SameBlock

variable {tid size fuel b : Nat} {m m' : Shm} {G : BlockLists} {pg p : Nat × Nat}

/-- A free page is taken before a segment is claimed. -/
theorem cxlPageFresh_page (hf : (m.queue tid .freePage).first = some p)
    (hrun : cxlPageFresh fuel tid size (.bin b) m = some (pg, m')) : pg = p := by
  cases fuel with
  | zero => cases hrun
  | succ fuel =>
    rw [cxlPageFresh, cxlSegmentPageAlloc_free hf] at hrun
    simp only [Option.bind_eq_bind, Option.bind_some, Option.bind_eq_some_iff] at hrun
    obtain ⟨m₂, -, hres⟩ := hrun
    simp only [Option.some.injEq, Prod.mk.injEq] at hres
    exact hres.1.symm

theorem findUnowned_first {rounds : Nat} (hr : 0 < rounds) (h0 : (m.sas 0).threadId = 0)
    (hsize : segmentsAreaStart + segmentSize ≤ size) : findUnowned size m rounds 0 = some 0 := by
  obtain ⟨r, rfl⟩ := Nat.exists_eq_succ_of_ne_zero (Nat.ne_of_gt hr)
  rw [findUnowned, if_neg (by omega), if_pos h0]

theorem segmentPages_two : ∃ l, segmentPages = 1 :: 2 :: l := by
  have hrange : ∀ n, List.range' 1 (n + 2) = 1 :: 2 :: List.range' 3 n := fun _ => rfl
  have hlen : pagesPerSegment - 1 = 1021 + 2 := rfl
  refine ⟨List.range' 3 1021, ?_⟩
  rw [segmentPages, hlen, hrange]

/-- The segment just claimed gives its first page; the second is next. -/
theorem AccountInv.claim_second {i : Nat} (h : AccountInv tid m (fun _ => []) none) (hi : (m.sas i).threadId = 0) :
    ∃ m₁ L, cxlSegmentPageAlloc tid size 1 (pushPages tid i segmentPages (claimSegment tid i m)) =
      some (some (i, 1), m₁) ∧ AccountInv tid m₁ L (some (i, 1)) ∧ (L .freePage).head? = some (i, 2) := by
  have hclaim := h.claim hi
  have hfirst := h.claim_first hi
  have hone := hclaim.take (hclaim.queued.first_mem hfirst)
  obtain ⟨l, hl⟩ := segmentPages_two
  have hhead : ((segmentPages.map (Prod.mk i) ++ []).erase (i, 1)).head? = some (i, 2) := by
    rw [hl, List.append_nil, List.map_cons, List.erase_cons_head, List.map_cons, List.head?_cons]
  rw [Function.update_self] at hone
  refine ⟨_, _, cxlSegmentPageAlloc_free hfirst, hone, ?_⟩
  rw [Function.update_self]
  exact hhead

/-- A client without pages claims segment 0 and takes its first page; the second is next. -/
theorem cxlSegmentPageAlloc_claims (h : AccountInv tid m (fun _ => []) none) (h0 : (m.sas 0).threadId = 0)
    (hsize : segmentsAreaStart + segmentSize ≤ size) : ∃ m₁ L, cxlSegmentPageAlloc tid size 2 m =
      some (some (0, 1), m₁) ∧ AccountInv tid m₁ L (some (0, 1)) ∧ (L .freePage).head? = some (0, 2) := by
  have hfirst : (m.queue tid .freePage).first = none := h.queued.first .freePage
  have hpos : 0 < size := by
    simp only [segmentsAreaStart] at hsize
    omega
  have hseg : cxlSegmentAlloc tid size m = some (0, pushPages tid 0 segmentPages (claimSegment tid 0 m)) := by
    rw [cxlSegmentAlloc, findUnowned_first hpos h0 hsize, Option.map_some]
  rw [cxlSegmentPageAlloc_new hfirst hseg]
  exact h.claim_second h0

theorem cxlPageFresh_claims (h : AccountInv tid m (fun _ => []) none) (hb : b < cxlBinSize)
    (h0 : (m.sas 0).threadId = 0) (hsize : segmentsAreaStart + segmentSize ≤ size)
    (hrun : cxlPageFresh 2 tid size (.bin b) m = some (pg, m')) :
    pg = (0, 1) ∧ (m'.queue tid .freePage).first = some (0, 2) := by
  obtain ⟨m₁, L, halloc, hone, hhead⟩ := cxlSegmentPageAlloc_claims h h0 hsize
  rw [cxlPageFresh_eq halloc (hone.size b)] at hrun
  simp only [Option.some.injEq, Prod.mk.injEq] at hrun
  obtain ⟨rfl, rfl⟩ := hrun
  have hcut := (hone.setHeld (binPage b (0, 1))).words
    (initWords (QueuePtr.bin b).special (binSize b) (0, 1) m₁)
  have hput := (hcut.put hb).queued.first .freePage
  rw [Function.update_of_ne (by simp), hhead] at hput
  exact ⟨rfl, hput⟩

theorem blockToTbr_queue (x : Nat) (q : QueuePtr) :
    (blockToTbr x pg m).queue tid q = m.queue tid q := rfl

/-- The first RootRef of a client takes page 1 of segment 0; page 2 is next. -/
theorem Unused.rootRef_claims (h : Unused tid m) (h0 : (m.sas 0).threadId = 0)
    (hsize : segmentsAreaStart + segmentSize ≤ size) {t : Nat}
    (hrun : threadBaseRefAlloc 2 tid size m = some (t, m')) :
    (m'.queue tid .freePage).first = some (0, 2) := by
  have hroom : Claimable size m := ⟨0, h0, hsize⟩
  obtain ⟨pg, m₁, hfresh, hpage⟩ := cxlPageMalloc_first (b := 0) h.pool.inv.account rfl (Or.inr hroom)
  have hsel : cxlPageQueue true 16 = 0 := rfl
  simp only [threadBaseRefAlloc, hsel, hpage, Option.bind_eq_bind, Option.bind_some, Option.some.injEq,
    Prod.mk.injEq] at hrun
  rw [← hrun.2, blockToTbr_queue]
  exact (cxlPageFresh_claims h.pool.inv.clearRedo.account (by decide) h0 hsize hfresh).2

theorem pageOf_start (hpg : pg.2 < pagesPerSegment) : pageOf (pageStart pg) = pg :=
  pageOf_offset (d := 0) hpg (by decide)

/-- **The object of a client without blocks** is the first block of page 2, every time. -/
theorem Unused.cxlMalloc_place (h : Unused tid m) (h0 : (m.sas 0).threadId = 0)
    (hsize : segmentsAreaStart + segmentSize ≤ size) {dataSize : Nat} (n : Nat) (hb : objectBin dataSize < cxlBinSize)
    (hne : objectBin dataSize ≠ 0) :
    ∃ t m', CxlShm.cxlMalloc 2 tid size dataSize n m = some (⟨t, pageStart (0, 2) + sizeofCxlObj⟩, m') := by
  have hroom : Claimable size m := ⟨0, h0, hsize⟩
  obtain ⟨t, m₁, pg, m₂, m₃, href, hfresh, hrun, -⟩ :=
    h.pool.cxlMalloc_first (fun _ => rfl) (Or.inr hroom) n hb hne
  have hnext : ((m₁.clearRedo tid).queue tid .freePage).first = some (0, 2) := by
    rw [queue_clearRedo]
    exact h.rootRef_claims h0 hsize href
  obtain rfl := cxlPageFresh_page hnext hfresh
  exact ⟨t, m₃, hrun⟩

/-- The owner of segment 0 has given it back. -/
theorem Unused.segment_back (h : Unused tid m') (h0 : (m.sas 0).threadId = 0) (hkeeps : KeepsOthers tid m m') :
    (m'.sas 0).threadId = 0 := by
  by_contra hne
  by_cases hown : (m'.sas 0).threadId = tid
  · obtain ⟨q, hq⟩ := ((h.pool.inv.account.mem (0, 1)).mpr ⟨hown, mem_segmentPages.mpr ⟨by decide, by decide⟩⟩).resolve_right
      (by simp)
    exact List.not_mem_nil hq
  · exact (hkeeps.gained 0 ⟨hne, hown⟩).1 h0

end SameBlock

end CxlShm
