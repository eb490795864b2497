import CxlShm.QueueEnds
import CxlShm.WorldExact

/-! # WorldRequests — the law of the counts, and the requests it holds for

Counts are exact, blocks go back when nothing refers to them, and the system leaves the data alone, over whole runs in
which nobody asks for more than 1000 bytes. A request whose sum with the header wraps gets a block too short for its
data, and what the system writes behind the block it writes into the data.
-/

namespace CxlShm

open Transition

/-! ## §1 — any request -/

/-- `cxl_malloc(data_size, n)` of an admitted size has made the object `x` in its bin, and the caller has cleared the
embedded references. -/
def Requested (ok : Nat → Prop) (K : Users) (size dataSize n x : Nat) (w w' : World) : Prop :=
  ∃ u ∈ K.clients, ∃ fuel r m', ok dataSize ∧ dataSize < 2 ^ 64 ∧ 8 * n ≤ dataSize ∧
    cxlMalloc fuel u size dataSize n w.mem = some (r, m') ∧ r.data = x + sizeofCxlObj ∧
    w' = ⟨m'.zeroWords r.data n, Function.update w.handles r.tbr 1⟩

section Fitting

variable {K : Users} {w w' : World} {size u b x : Nat} {G G' : BlockLists}

/-- The block of a request has room for its data, and its header says how many references it has. -/
theorem Requested.room {ok : Nat → Prop} (hle : ∀ d, ok d → d ≤ 1000) (hreach : WorldReach K size w) {dataSize n : Nat}
    (h : Requested ok K size dataSize n x w w') (hb : 3 ≤ b) (hx : InHand K w'.mem b x) :
    sizeofCxlObj + dataSize ≤ binSize b ∧ w'.mem.word (x + 16) = n := by
  obtain ⟨u, hu, fuel, r, m', hok, -, hslots, hrun, hdata, rfl⟩ := h
  have hbytes := hle dataSize hok
  have hfits : dataSize + sizeofCxlObj < 2 ^ 64 := by
    simp only [sizeofCxlObj]
    omega
  obtain ⟨G, H, hw⟩ := hreach.ok
  obtain ⟨G', H', hw', -, y, hy, hheld, hemb, -⟩ := hw.cxlMalloc hu hfits hslots hrun
  obtain rfl : y = x := Nat.add_right_cancel (hy.symm.trans hdata)
  have hxG := hw'.heap.pools.inHand_iff.mp hx
  obtain rfl := hw'.heap.pools.held_unique hheld hxG
  have hni : y ∉ K.index := by
    rw [hreach.index]
    exact Finset.notMem_empty y
  refine ⟨?_, ?_⟩
  · rw [Nat.add_comm]
    exact binSize_objectBin hbytes
  · rw [hw'.heap.emb_eq ((hw'.heap.view.obj y).mpr ⟨hni, _, hb, hxG⟩), hemb]

end Fitting

/-! ## §4 — a request that wraps -/

/-- A client has asked for 2^64 - 1 bytes and has got the 32 bytes at the start of page 2; the pages it has not used are
as they were. -/
structure Wrapped (t : Nat) (m : Shm) (G : BlockLists) : Prop where
  run : cxlMalloc 2 1 (2 ^ 27 + 2 ^ 26) 8 0 freshArea = some (⟨t, pageStart (0, 2) + sizeofCxlObj⟩, m)
  first : FirstObject 1 m ⟨t, pageStart (0, 2) + sizeofCxlObj⟩ G t (pageStart (0, 2)) 3 0
  rootRef : pageOf t = (0, 1)
  clean : ∀ pg d, OnQueue 1 m .freePage pg → d < pageSize → m.word (pageStart pg + d) = 0

/-- A new queue names its sender. -/
theorem createMsgQueue_senderId {fuel tid size q : Nat} {m m' : Shm} (htid : tid < 2 ^ 16)
    (hrun : createMsgQueue fuel tid size m = some (q, m')) : m'.senderId q = tid := by
  simp only [createMsgQueue, msgQueueAlloc, Option.bind_eq_bind, Option.bind_eq_some_iff] at hrun
  obtain ⟨⟨x, m₁⟩, ⟨⟨y, pg, m₂⟩, -, hq⟩, hres⟩ := hrun
  simp only [Option.some.injEq, Prod.mk.injEq] at hq hres
  obtain ⟨⟨rfl, rfl⟩, rfl, rfl⟩ := And.intro hq hres
  have hids : (blockToMsgQueue y tid m₂).senderId y = tid := by
    unfold Shm.senderId blockToMsgQueue
    simp only
    rw [Shm.zeroWords_word_of_ne (fun k _ => by omega), Shm.store_word, Function.update_of_ne (by omega), Shm.store_word,
      Function.update_of_ne (by omega)]
    exact setReceiverId_senderId.trans (setSenderId_senderId htid)
  generalize blockToMsgQueue y tid m₂ = m₃ at *
  have hword : ∀ (v : Nat) (s : Tls), ((m₃.store (y + 24) v).setTls tid s).word (y + 16) = m₃.word (y + 16) := by
    intro v s
    exact Function.update_of_ne (by omega) ..
  unfold Shm.senderId at hids ⊢
  rw [hword, hids]

section WrappedRun

variable {t : Nat} {m : Shm} {G : BlockLists}

/-- The pages of the RootRef and of the object are the only ones in use. -/
theorem Wrapped.bins (h : Wrapped t m G) {k : Nat} {pg : Nat × Nat} (hpg : pg ∈ G.pages (.bin k)) :
    k = 0 ∧ pg = (0, 1) ∨ k = 3 ∧ pg = (0, 2) := by
  obtain ⟨y, hy, rfl⟩ := h.first.busy.page k pg (h.first.pool.onQueue_iff.mpr hpg)
  have hheld := h.first.pool.heldBlock_iff.mp hy
  rcases h.first.only k y hheld with rfl | rfl
  · refine Or.inr ⟨h.first.pool.inv.bin_unique hpg h.first.object.block.1, ?_⟩
    exact pageOf_start (by decide)
  · exact Or.inl ⟨h.first.pool.inv.bin_unique hpg h.first.root.block.1, h.rootRef⟩

theorem Wrapped.segment (h : Wrapped t m G) {i : Nat} (hi : (m.sas i).threadId = 1) : i = 0 := by
  obtain ⟨k, j, hpg⟩ := h.first.busy.segment i hi
  rcases h.bins (h.first.pool.onQueue_iff.mp hpg) with ⟨-, he⟩ | ⟨-, he⟩
  · exact congrArg Prod.fst he
  · exact congrArg Prod.fst he

/-- A free page of the client is behind the one of the object, in the same segment. -/
theorem Wrapped.freePage (h : Wrapped t m G) {pg : Nat × Nat} (hpg : pg ∈ G.pages .freePage) :
    pg.1 = 0 ∧ 3 ≤ pg.2 ∧ pg.2 < pagesPerSegment := by
  have hown := h.first.pool.inv.account.owned hpg
  have hj := mem_segmentPages.mp hown.2
  have hfirst := h.segment hown.1
  have hne : ∀ k, pg ∉ G.pages (.bin k) := fun k hk =>
    absurd (h.first.pool.inv.account.queued.apart _ _ pg hk hpg) (by simp)
  have hroot : pg ≠ (0, 1) := by
    rintro rfl
    apply hne 0
    rw [← h.rootRef]
    exact h.first.root.block.1
  have hobj : pg ≠ (0, 2) := by
    rintro rfl
    apply hne 3
    have hstart : pageOf (pageStart (0, 2)) = (0, 2) := pageOf_start (show 2 < pagesPerSegment by decide)
    rw [← hstart]
    exact h.first.object.block.1
  obtain ⟨i, j⟩ := pg
  simp only at hj hfirst
  subst hfirst
  refine ⟨rfl, ?_, hj.2⟩
  by_contra hlt
  obtain rfl | rfl : j = 1 ∨ j = 2 := by omega
  · exact hroot rfl
  · exact hobj rfl

/-- The first free page is within reach of 2^64 - 1 bytes. -/
theorem Wrapped.distance (h : Wrapped t m G) {pg : Nat × Nat} (hpg : pg ∈ G.pages .freePage) :
    ∃ d, pageStart pg + 16 = pageStart (0, 2) + d ∧ pageSize ≤ d ∧ d < 2 ^ 26 ∧ 8 ∣ d := by
  obtain ⟨hseg, hlo, hhi⟩ := h.freePage hpg
  refine ⟨(pg.2 - 2) * pageSize + 16, ?_, ?_, ?_, ?_⟩
  · unfold pageStart
    rw [hseg]
    simp only [pageSize]
    omega
  · simp only [pageSize]
    omega
  · simp only [pageSize, pagesPerSegment] at hhi ⊢
    omega
  · simp only [pageSize]
    omega

/-- The client creates a queue: its block is on the first free page. -/
theorem Wrapped.queue (h : Wrapped t m G) : ∃ pg m', createMsgQueue 2 1 (2 ^ 27 + 2 ^ 26) m = some (pageStart pg, m') ∧
    pg ∈ G.pages .freePage ∧ m'.senderId (pageStart pg) = 1 := by
  have hpool := h.first.pool
  have hempty : G.pages (.bin 1) = [] := by
    apply List.eq_nil_iff_forall_not_mem.mpr
    intro pg hpg
    rcases h.bins hpg with ⟨hk, -⟩ | ⟨hk, -⟩ <;> omega
  have hroom : G.pages .freePage ≠ [] := by
    apply hpool.room (i := 0) (l := [(0, 1), (0, 2)])
    · have hown := (hpool.inv.account.owned h.first.root.block.1).1
      rwa [h.rootRef] at hown
    · intro k pg hpg
      rcases h.bins hpg with ⟨-, rfl⟩ | ⟨-, rfl⟩ <;> simp
    · decide
  obtain ⟨p, l, hp⟩ := List.exists_cons_of_ne_nil hroom
  have hfirst : ((m.clearRedo 1).queue 1 .freePage).first = some p := by
    rw [queue_clearRedo, hpool.inv.account.queued.first, hp]
    rfl
  obtain ⟨pg, m₁, hfresh, hpage⟩ := @cxlPageMalloc_first 1 (2 ^ 27 + 2 ^ 26) m 1 G.pages hpool.inv.account hempty (Or.inl hroom)
  obtain rfl := cxlPageFresh_page hfirst hfresh
  obtain ⟨-, -, -, -, -, -, -, -, hbody⟩ := cxlPageFresh_some hpool.inv.clearRedo.account (by decide) hfresh
  have hfree : (m₁.page pg).free = pageStart pg := congrArg Page.free hbody
  have hsel : cxlPageQueue true sizeofMessageQueue = 1 := rfl
  obtain ⟨m', hrun⟩ : ∃ m', createMsgQueue 2 1 (2 ^ 27 + 2 ^ 26) m = some (pageStart pg, m') := by
    simp only [createMsgQueue, msgQueueAlloc, hsel, hpage, hfree, Option.bind_eq_bind, Option.bind_some,
      Option.some.injEq, Prod.mk.injEq, true_and, exists_eq']
  refine ⟨pg, m', hrun, ?_, createMsgQueue_senderId (by decide) hrun⟩
  rw [hp]
  exact List.mem_cons_self

end WrappedRun

end CxlShm
