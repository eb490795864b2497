import CxlShm.Alloc
import CxlShm.PageFresh

/-! # BlockLists — where the blocks of a client are

The blocks of the pages on a client's bins are on the free list of their page, on its local free list, on
the `thread_free` list of their segment, or handed out. `BlockLists` is this picture, `BlocksInv` says that
an area shows it; each section below is one thing the allocator does with a block.
-/

namespace CxlShm

open Loop DoublyLinked

/-! ## §1 — the picture -/

/-- The pages of the queues and the blocks of the lists. -/
structure BlockLists where
  pages : QueuePtr → List (Nat × Nat)
  free : Nat × Nat → List Nat
  localFree : Nat × Nat → List Nat
  threadFree : Nat → List Nat

/-- `b->next`. -/
def blockNext (m : Shm) (o : Nat) : Option Nat := linkPtr (m.word o)

namespace BlockLists

variable (G : BlockLists)

/-- The blocks on the two lists of a page. -/
def onPage (pg : Nat × Nat) : List Nat := G.free pg ++ G.localFree pg

/-- `x` is a block of a page on bin `b`. -/
def Block (b x : Nat) : Prop :=
  pageOf x ∈ G.pages (.bin b) ∧ x ∈ pageBlocks (pageOf x) (binSize b)

/-- `x` is on a list. -/
def Listed (x : Nat) : Prop :=
  (∃ b pg, pg ∈ G.pages (.bin b) ∧ x ∈ G.onPage pg) ∨ ∃ i, x ∈ G.threadFree i

/-- `x` is a block of bin `b` on no list: it is handed out. -/
structure Held (b x : Nat) : Prop where
  block : G.Block b x
  page : x ∉ G.onPage (pageOf x)
  thread : x ∉ G.threadFree (pageOf x).1

end BlockLists

/-- What the metadata of a page on bin `b` and the links in its blocks say. -/
structure PageOk (m : Shm) (G : BlockLists) (b : Nat) (pg : Nat × Nat) : Prop where
  size : (m.page pg).blockSize = binSize b
  free : Chained (blockNext m) (linkPtr (m.page pg).free) (G.free pg)
  localFree : Chained (blockNext m) (linkPtr (m.page pg).localFree) (G.localFree pg)
  blocks : ∀ x ∈ G.onPage pg, x ∈ pageBlocks pg (binSize b)
  nodup : (G.onPage pg).Nodup
  apart : ∀ x ∈ G.onPage pg, x ∉ G.threadFree pg.1
  used : (m.page pg).used + (G.onPage pg).length = pageSize / binSize b

/-- What the links of the `thread_free` list of segment `i` say. -/
structure SegmentOk (m : Shm) (G : BlockLists) (i : Nat) : Prop where
  chain : Chained (blockNext m) (G.threadFree i).head? (G.threadFree i)
  nodup : (G.threadFree i).Nodup
  blocks : ∀ x ∈ G.threadFree i, (pageOf x).1 = i ∧ ∃ b, G.Block b x

/-- **The block invariant.** -/
structure BlocksInv (tid : Nat) (m : Shm) (G : BlockLists) : Prop where
  account : AccountInv tid m G.pages none
  page : ∀ b, ∀ pg ∈ G.pages (.bin b), PageOk m G b pg
  segment : ∀ i, SegmentOk m G i
  unowned : ∀ i, (m.sas i).threadId ≠ tid → G.threadFree i = []

/-- The vector names the heads of the `thread_free` lists. -/
def ThreadHeads (tid : Nat) (m : Shm) (G : BlockLists) : Prop :=
  ∀ i, (m.sas i).threadId = tid → linkPtr (m.sas i).threadFree = (G.threadFree i).head?

/-! ## §2 — blocks and pages -/

theorem linkPtr_of_ne {a : Nat} (h : a ≠ 0) : linkPtr a = some a := if_neg h

theorem linkPtr_zero : linkPtr 0 = none := rfl

theorem block_ne_zero {pg : Nat × Nat} {bs x : Nat} (h : x ∈ pageBlocks pg bs) : x ≠ 0 := by
  have := (pageBlocks_bounds h).1
  simp only [pageStart, segmentsAreaStart] at this
  omega

theorem pageBlocks_length (pg : Nat × Nat) (bs : Nat) : (pageBlocks pg bs).length = pageSize / bs := by
  simp [pageBlocks]

section Basics

variable {tid : Nat} {m m' : Shm} {G G' : BlockLists} {b x : Nat} {pg : Nat × Nat}

theorem binSize_pos (b : Nat) : 0 < binSize b := Nat.pos_of_ne_zero (binSize_ne_zero b)

namespace BlocksInv

/-- A block lies in its page. -/
theorem pageOf_eq (h : BlocksInv tid m G) (hpg : pg ∈ G.pages (.bin b)) (hx : x ∈ pageBlocks pg (binSize b)) :
    pageOf x = pg :=
  pageOf_block (mem_segmentPages.mp (h.account.owned hpg).2).2 (binSize_pos b) hx

theorem block_of_mem (h : BlocksInv tid m G) (hpg : pg ∈ G.pages (.bin b))
    (hx : x ∈ pageBlocks pg (binSize b)) : G.Block b x := by
  rw [BlockLists.Block, h.pageOf_eq hpg hx]
  exact ⟨hpg, hx⟩

theorem block_onPage (h : BlocksInv tid m G) (hpg : pg ∈ G.pages (.bin b)) (hx : x ∈ G.onPage pg) :
    G.Block b x :=
  h.block_of_mem hpg ((h.page b pg hpg).blocks x hx)

/-- A block listed on a page is one of that page. -/
theorem page_eq (h : BlocksInv tid m G) (hpg : pg ∈ G.pages (.bin b)) (hx : x ∈ G.onPage pg) :
    pageOf x = pg :=
  h.pageOf_eq hpg ((h.page b pg hpg).blocks x hx)

theorem bin_lt (h : BlocksInv tid m G) (hpg : pg ∈ G.pages (.bin b)) : b < cxlBinSize := by
  by_contra hb
  rw [h.account.beyond b (by omega)] at hpg
  exact List.not_mem_nil hpg

theorem bin_unique (h : BlocksInv tid m G) {b' : Nat} (hpg : pg ∈ G.pages (.bin b))
    (hpg' : pg ∈ G.pages (.bin b')) : b = b' := by
  simpa using h.account.queued.apart _ _ pg hpg hpg'

/-- What is handed out is on no list. -/
theorem held_iff (h : BlocksInv tid m G) : G.Held b x ↔ G.Block b x ∧ ¬ G.Listed x := by
  constructor
  · intro hx
    refine ⟨hx.block, ?_⟩
    rintro (⟨b', pg, hpg, hm⟩ | ⟨i, hm⟩)
    · exact hx.page (h.page_eq hpg hm ▸ hm)
    · exact hx.thread (((h.segment i).blocks x hm).1 ▸ hm)
  · rintro ⟨hb, hn⟩
    exact ⟨hb, fun hm => hn (Or.inl ⟨b, _, hb.1, hm⟩), fun hm => hn (Or.inr ⟨_, hm⟩)⟩

theorem listed_block (h : BlocksInv tid m G) (hx : G.Listed x) : ∃ b, G.Block b x := by
  rcases hx with ⟨b, pg, hpg, hm⟩ | ⟨i, hm⟩
  · exact ⟨b, h.block_onPage hpg hm⟩
  · exact ((h.segment i).blocks x hm).2

/-- Where a word of a block is not its first one, it is no block's first. -/
theorem block_add_ne (h : BlocksInv tid m G) {b' y d : Nat} (hx : G.Block b x) (hy : G.Block b' y)
    (hd : 0 < d) (hdb : d < binSize b) : x + d ≠ y := by
  intro he
  have hbx := pageBlocks_bounds hx.2
  have hpage : pageOf y = pageOf x := by
    rw [← he]
    obtain ⟨e, hxe⟩ := Nat.exists_eq_add_of_le hbx.1
    have hlt := (mem_segmentPages.mp (h.account.owned hx.1).2).2
    conv_lhs => rw [hxe, Nat.add_assoc]
    exact pageOf_offset hlt (by omega)
  obtain ⟨i, hi, hxi⟩ := mem_pageBlocks.mp hx.2
  obtain ⟨j, hj, hyj⟩ := mem_pageBlocks.mp hy.2
  rw [hpage] at hyj
  obtain rfl : b = b' := h.bin_unique hx.1 (hpage ▸ hy.1)
  rw [hxi, hyj] at he
  have hne : blockAt (pageStart (pageOf x)) (binSize b) i + d ≠
      blockAt (pageStart (pageOf x)) (binSize b) j := blockAt_add_ne hd hdb
  exact hne he

/-- No list is linked through a block that is handed out. -/
theorem held_add_ne (h : BlocksInv tid m G) {y d : Nat} (hx : G.Held b x) (hy : G.Listed y)
    (hd : d < binSize b) : y ≠ x + d := by
  rcases Nat.eq_zero_or_pos d with rfl | hpos
  · rintro rfl
    exact (h.held_iff.mp hx).2 hy
  · obtain ⟨b', hb'⟩ := h.listed_block hy
    exact (h.block_add_ne hx.block hb' hpos hd).symm

end BlocksInv

/-! ## §3 — what does not matter -/

theorem PageOk.congr (h : PageOk m G b pg) (hbody : (m'.page pg).body = (m.page pg).body)
    (hw : ∀ x ∈ G.onPage pg, m'.word x = m.word x) (hf : G'.free pg = G.free pg)
    (hl : G'.localFree pg = G.localFree pg) (ha : ∀ x ∈ G.onPage pg, x ∉ G'.threadFree pg.1) :
    PageOk m' G' b pg := by
  simp only [Page.body, Page.mk.injEq] at hbody
  obtain ⟨hfree, hlocal, hsize, hused, -⟩ := hbody
  have hpage : G'.onPage pg = G.onPage pg := by rw [BlockLists.onPage, BlockLists.onPage, hf, hl]
  have hnext : ∀ x ∈ G.onPage pg, blockNext m' x = blockNext m x := fun x hx =>
    congrArg linkPtr (hw x hx)
  refine ⟨hsize.trans h.size, ?_, ?_, ?_, ?_, ?_, ?_⟩
  · rw [hfree, hf]
    exact h.free.congr fun x hx => hnext x (List.mem_append_left _ hx)
  · rw [hlocal, hl]
    exact h.localFree.congr fun x hx => hnext x (List.mem_append_right _ hx)
  · rw [hpage]
    exact h.blocks
  · rw [hpage]
    exact h.nodup
  · rw [hpage]
    exact ha
  · rw [hpage, hused, h.used]

theorem SegmentOk.congr {i : Nat} (h : SegmentOk m G i) (ht : G'.threadFree i = G.threadFree i)
    (hw : ∀ x ∈ G.threadFree i, m'.word x = m.word x)
    (hb : ∀ x ∈ G.threadFree i, ∀ b, G.Block b x → G'.Block b x) : SegmentOk m' G' i := by
  refine ⟨?_, ?_, ?_⟩
  · rw [ht]
    exact h.chain.congr fun x hx => congrArg linkPtr (hw x hx)
  · rw [ht]
    exact h.nodup
  · rw [ht]
    intro x hx
    obtain ⟨hi, b, hbx⟩ := h.blocks x hx
    exact ⟨hi, b, hb x hx b hbx⟩

/-- Stores to words that link no list, and to what is neither a page's nor a segment's own. -/
theorem BlocksInv.congr (h : BlocksInv tid m G) (hacc : AccountInv tid m' G.pages none)
    (hbody : ∀ b, ∀ pg ∈ G.pages (.bin b), (m'.page pg).body = (m.page pg).body)
    (hown : ∀ i, (m'.sas i).threadId = tid ↔ (m.sas i).threadId = tid)
    (hw : ∀ x, G.Listed x → m'.word x = m.word x) : BlocksInv tid m' G := by
  refine ⟨hacc, ?_, ?_, ?_⟩
  · intro b pg hpg
    have hok := h.page b pg hpg
    exact hok.congr (hbody b pg hpg) (fun x hx => hw x (Or.inl ⟨b, pg, hpg, hx⟩)) rfl rfl hok.apart
  · intro i
    exact (h.segment i).congr rfl (fun x hx => hw x (Or.inr ⟨i, hx⟩)) fun _ _ _ hb => hb
  · intro i hi
    exact h.unowned i fun ht => hi ((hown i).mpr ht)

theorem BlocksInv.words (h : BlocksInv tid m G) (w : Nat → Nat) (hw : ∀ x, G.Listed x → w x = m.word x) :
    BlocksInv tid { m with word := w } G :=
  h.congr (h.account.words w) (fun _ _ _ => rfl) (fun _ => Iff.rfl) hw

end Basics

/-! ## §4 — a block changes its list -/

section Moves

variable {tid : Nat} {m : Shm} {G : BlockLists} {b i x : Nat} {l : List Nat} {pg : Nat × Nat}

theorem pageSize_div_lt (bs : Nat) : pageSize / bs < 2 ^ 32 :=
  Nat.lt_of_le_of_lt (Nat.div_le_self ..) (by decide)

/-- A page with a block handed out has it counted. -/
theorem BlocksInv.used_pos (h : BlocksInv tid m G) (hx : G.Held b x) : 0 < (m.page (pageOf x)).used := by
  have hok := h.page b _ hx.block.1
  have hnd : (x :: G.onPage (pageOf x)).Nodup := List.nodup_cons.mpr ⟨hx.page, hok.nodup⟩
  have hsub : x :: G.onPage (pageOf x) ⊆ pageBlocks (pageOf x) (binSize b) := by
    intro y hy
    rcases List.mem_cons.mp hy with rfl | hy
    · exact hx.block.2
    · exact hok.blocks y hy
  have hle := (List.subperm_of_subset hnd hsub).length_le
  rw [pageBlocks_length, List.length_cons] at hle
  have := hok.used
  omega

/-- The state in which the lists of page `pg` are others, and the words are `w`. -/
def withPage (pg : Nat × Nat) (free localFree used : Nat) (w : Nat → Nat) (m : Shm) : Shm :=
  { m.setPage pg { m.page pg with free := free, localFree := localFree, used := used } with word := w }

theorem withPage_page (free localFree used : Nat) (w : Nat → Nat) (pg : Nat × Nat) {p : Nat × Nat} :
    (withPage pg free localFree used w m).page p = if p = pg then
      { m.page pg with free := free, localFree := localFree, used := used } else m.page p :=
  Shm.page_setPage ..

/-- **One page changes its lists.** -/
theorem BlocksInv.onePage (h : BlocksInv tid m G) (hpg : pg ∈ G.pages (.bin b)) (G' : BlockLists)
    (free localFree used : Nat) (w : Nat → Nat) (hpages : G'.pages = G.pages)
    (hthread : G'.threadFree = G.threadFree) (hfree : ∀ p, p ≠ pg → G'.free p = G.free p)
    (hlocal : ∀ p, p ≠ pg → G'.localFree p = G.localFree p)
    (hw : ∀ x, G.Listed x → x ∉ G.onPage pg → w x = m.word x)
    (hok : PageOk (withPage pg free localFree used w m) G' b pg) :
    BlocksInv tid (withPage pg free localFree used w m) G' := by
  refine ⟨?_, ?_, ?_, ?_⟩
  · rw [hpages]
    exact h.account.use hpg free localFree used w
  · intro b' p hp
    rw [hpages] at hp
    by_cases hpp : p = pg
    · subst hpp
      obtain rfl : b = b' := h.bin_unique hpg hp
      exact hok
    · have hok' := h.page b' p hp
      refine hok'.congr ?_ ?_ (hfree p hpp) (hlocal p hpp) ?_
      · rw [withPage_page, if_neg hpp]
      · intro x hx
        refine hw x (Or.inl ⟨b', p, hp, hx⟩) fun hx' => hpp ?_
        rw [← h.page_eq hp hx, h.page_eq hpg hx']
      · rw [hthread]
        exact hok'.apart
  · intro k
    refine (h.segment k).congr (by rw [hthread]) ?_ ?_
    · intro x hx
      refine hw x (Or.inr ⟨k, hx⟩) fun hx' => (h.page b pg hpg).apart x hx' ?_
      rw [← h.page_eq hpg hx', ((h.segment k).blocks x hx).1]
      exact hx
    · intro x _ b hb
      rw [BlockLists.Block, hpages]
      exact hb
  · rw [hthread]
    exact h.unowned

/-- The first block of a `thread_free` list is taken off it. -/
theorem BlocksInv.takeThread (h : BlocksInv tid m G) (hT : G.threadFree i = x :: l) :
    BlocksInv tid m { G with threadFree := Function.update G.threadFree i l } ∧
      ∃ b, BlockLists.Held { G with threadFree := Function.update G.threadFree i l } b x := by
  have hseg := h.segment i
  have hchain := hseg.chain
  have hnd := hseg.nodup
  rw [hT] at hchain hnd
  obtain ⟨hxl, hnd⟩ := List.nodup_cons.mp hnd
  have hsub : ∀ k, ∀ y ∈ Function.update G.threadFree i l k, y ∈ G.threadFree k := by
    intro k y hy
    by_cases hk : k = i
    · subst hk
      rw [Function.update_self] at hy
      rw [hT]
      exact List.mem_cons_of_mem _ hy
    · rwa [Function.update_of_ne hk] at hy
  have hmem : x ∈ G.threadFree i := by
    rw [hT]
    exact List.mem_cons_self
  obtain ⟨hxi, b, hb⟩ := hseg.blocks x hmem
  refine ⟨⟨h.account, ?_, ?_, ?_⟩, b, hb, ?_, ?_⟩
  · intro b' pg hpg
    have hok := h.page b' pg hpg
    exact hok.congr rfl (fun _ _ => rfl) rfl rfl fun y hy hm => hok.apart y hy (hsub _ y hm)
  · intro k
    by_cases hk : k = i
    · subst hk
      refine ⟨?_, ?_, ?_⟩
      · simp only [Function.update_self]
        exact hchain.2.head ▸ hchain.2
      · simpa only [Function.update_self] using hnd
      · intro y hy
        exact hseg.blocks y (hsub k y hy)
    · exact (h.segment k).congr (Function.update_of_ne hk ..) (fun _ _ => rfl) fun _ _ _ hb => hb
  · intro k hk
    have hki : k ≠ i := by
      rintro rfl
      rw [h.unowned k hk] at hT
      cases hT
    exact (Function.update_of_ne hki ..).trans (h.unowned k hk)
  · intro hm
    have hap := (h.page b _ hb.1).apart x hm
    rw [hxi] at hap
    exact hap hmem
  · simpa only [hxi, Function.update_self] using hxl

/-- The lists after `x` has gone to the local list of its page. -/
def BlockLists.toLocal (G : BlockLists) (x : Nat) : BlockLists :=
  { G with localFree := Function.update G.localFree (pageOf x) (x :: G.localFree (pageOf x)) }

theorem BlockLists.toLocal_onPage (G : BlockLists) (x : Nat) :
    (G.toLocal x).onPage (pageOf x) = G.free (pageOf x) ++ x :: G.localFree (pageOf x) := by
  simp [BlockLists.onPage, BlockLists.toLocal]

/-- **A block goes to the local free list.** -/
theorem BlocksInv.toLocal (h : BlocksInv tid m G) (hx : G.Held b x) :
    BlocksInv tid (collectBlock x m) (G.toLocal x) := by
  have hok := h.page b _ hx.block.1
  have hpos := h.used_pos hx
  have hword : ∀ y, y ≠ x →
      Function.update m.word x (m.page (pageOf x)).localFree y = m.word y := fun y hy =>
    Function.update_of_ne hy ..
  have hnext : ∀ y ∈ G.onPage (pageOf x), blockNext (collectBlock x m) y = blockNext m y := by
    intro y hy
    refine congrArg linkPtr (hword y ?_)
    rintro rfl
    exact hx.page hy
  have hself : (collectBlock x m).page (pageOf x) = { m.page (pageOf x) with
      localFree := x, used := ((m.page (pageOf x)).used + (2 ^ 32 - 1)) % 2 ^ 32 } :=
    (Shm.page_setPage ..).trans (if_pos rfl)
  refine h.onePage hx.block.1 (G.toLocal x) (m.page (pageOf x)).free x
    (((m.page (pageOf x)).used + (2 ^ 32 - 1)) % 2 ^ 32)
    (Function.update m.word x (m.page (pageOf x)).localFree) rfl rfl (fun _ _ => rfl)
    (fun p hp => Function.update_of_ne hp ..) ?_ (show PageOk (collectBlock x m) _ _ _ from ?_)
  · intro y hy _
    apply hword
    rintro rfl
    exact (h.held_iff.mp hx).2 hy
  · refine ⟨?_, ?_, ?_, ?_, ?_, ?_, ?_⟩
    · rw [hself]
      exact hok.size
    · rw [hself]
      exact hok.free.congr fun y hy => hnext y (List.mem_append_left _ hy)
    · rw [hself]
      simp only [BlockLists.toLocal, Function.update_self]
      refine ⟨linkPtr_of_ne (block_ne_zero hx.block.2), ?_⟩
      have hlink : blockNext (collectBlock x m) x = linkPtr (m.page (pageOf x)).localFree :=
        congrArg linkPtr (Function.update_self ..)
      rw [hlink]
      exact hok.localFree.congr fun y hy => hnext y (List.mem_append_right _ hy)
    · rw [BlockLists.toLocal_onPage]
      intro y hy
      rcases List.mem_cons.mp (List.perm_middle.mem_iff.mp hy) with rfl | hy
      · exact hx.block.2
      · exact hok.blocks y hy
    · rw [BlockLists.toLocal_onPage, List.nodup_middle]
      exact List.nodup_cons.mpr ⟨hx.page, hok.nodup⟩
    · rw [BlockLists.toLocal_onPage]
      intro y hy
      rcases List.mem_cons.mp (List.perm_middle.mem_iff.mp hy) with rfl | hy
      · exact hx.thread
      · exact hok.apart y hy
    · have hused := hok.used
      have hlt := pageSize_div_lt (binSize b)
      rw [BlockLists.toLocal_onPage, hself]
      simp only [BlockLists.onPage, List.length_append, List.length_cons] at hused ⊢
      omega

/-- The lists after an empty free list has taken over the local one. -/
def BlockLists.refill (G : BlockLists) (pg : Nat × Nat) : BlockLists :=
  if G.free pg = [] then
    { G with
      free := Function.update G.free pg (G.localFree pg)
      localFree := Function.update G.localFree pg [] }
  else G

theorem BlockLists.refill_pages (G : BlockLists) (pg : Nat × Nat) : (G.refill pg).pages = G.pages := by
  unfold BlockLists.refill
  split <;> rfl

theorem BlockLists.refill_threadFree (G : BlockLists) (pg : Nat × Nat) :
    (G.refill pg).threadFree = G.threadFree := by
  unfold BlockLists.refill
  split <;> rfl

theorem BlockLists.refill_onPage (G : BlockLists) (pg p : Nat × Nat) :
    (G.refill pg).onPage p = G.onPage p := by
  unfold BlockLists.refill
  split
  case isTrue hf =>
    by_cases hp : p = pg
    · subst hp
      simp [BlockLists.onPage, hf]
    · simp [BlockLists.onPage, hp]
  case isFalse => rfl

theorem chained_linkPtr {next : Nat → Option Nat} {a : Nat} (h : Chained next (linkPtr a) l) :
    a = 0 ↔ l = [] := by
  have hhead := h.head
  constructor
  · rintro rfl
    exact List.head?_eq_none_iff.mp hhead.symm
  · rintro rfl
    by_contra ha
    rw [linkPtr_of_ne ha] at hhead
    cases hhead

/-- **The end of `cxl_page_free_collect`.** -/
theorem BlocksInv.refill (h : BlocksInv tid m G) (hpg : pg ∈ G.pages (.bin b)) :
    BlocksInv tid (refillFree pg m) (G.refill pg) := by
  have hok := h.page b pg hpg
  have hfree := chained_linkPtr hok.free
  have hlocal := chained_linkPtr hok.localFree
  by_cases hz : (m.page pg).free = 0
  · have hf := hfree.mp hz
    by_cases hlz : (m.page pg).localFree = 0
    · -- nothing on either list
      have hsame : G.refill pg = G := by
        have hl := hlocal.mp hlz
        rw [BlockLists.refill, if_pos hf, hl, ← hf, Function.update_eq_self, hf, ← hl,
          Function.update_eq_self]
      rw [refillFree, if_neg fun hc => hc.1 hlz, hsame]
      exact h
    · have hlist := BlockLists.refill_onPage G pg pg
      rw [refillFree, if_pos ⟨hlz, hz⟩]
      rw [BlockLists.refill, if_pos hf] at hlist ⊢
      refine h.onePage hpg _ (m.page pg).localFree 0 (m.page pg).used m.word rfl rfl
        (fun p hp => Function.update_of_ne hp ..)
        (fun p hp => Function.update_of_ne hp ..) (fun _ _ _ => rfl) ?_
      have hself := (withPage_page (m := m) (m.page pg).localFree 0 (m.page pg).used m.word pg).trans
        (if_pos rfl)
      refine ⟨?_, ?_, ?_, ?_, ?_, ?_, ?_⟩
      · rw [hself]
        exact hok.size
      · rw [hself]
        simp only [Function.update_self]
        exact hok.localFree
      · rw [hself]
        simp only [Function.update_self]
        rfl
      · rw [hlist]
        exact hok.blocks
      · rw [hlist]
        exact hok.nodup
      · rw [hlist]
        exact hok.apart
      · rw [hlist, hself]
        exact hok.used
  · have hf : G.free pg ≠ [] := fun hf => hz (hfree.mpr hf)
    rw [refillFree, if_neg fun hc => hz hc.2, BlockLists.refill, if_neg hf]
    exact h

/-- The lists after the head of the free list of `pg` has been handed out. -/
def BlockLists.pop (G : BlockLists) (pg : Nat × Nat) : BlockLists :=
  { G with free := Function.update G.free pg (G.free pg).tail }

/-- **The head of a free list is handed out.** -/
theorem BlocksInv.pop (h : BlocksInv tid m G) (hpg : pg ∈ G.pages (.bin b)) (hF : G.free pg = x :: l) :
    BlocksInv tid (popBlock x pg m) (G.pop pg) ∧ (G.pop pg).Held b x := by
  have hok := h.page b pg hpg
  have hmem : x ∈ G.onPage pg := by
    rw [BlockLists.onPage, hF]
    exact List.mem_cons_self
  have hold : G.onPage pg = x :: (G.pop pg).onPage pg := by
    simp [BlockLists.onPage, BlockLists.pop, hF]
  have hxp := h.page_eq hpg hmem
  have hnd := hok.nodup
  rw [hold] at hnd
  obtain ⟨hx, hnd⟩ := List.nodup_cons.mp hnd
  have hsub : ∀ y ∈ (G.pop pg).onPage pg, y ∈ G.onPage pg := by
    intro y hy
    rw [hold]
    exact List.mem_cons_of_mem _ hy
  refine ⟨h.onePage hpg (G.pop pg) (m.word x) (m.page pg).localFree
    (((m.page pg).used + 1) % 2 ^ 32) m.word rfl rfl
    (fun p hp => Function.update_of_ne hp ..) (fun _ _ => rfl) (fun _ _ _ => rfl) ?_, ?_⟩
  · have hself := (withPage_page (m := m) (m.word x) (m.page pg).localFree
      (((m.page pg).used + 1) % 2 ^ 32) m.word pg).trans (if_pos rfl)
    have hchain := hok.free
    rw [hF] at hchain
    refine ⟨?_, ?_, ?_, ?_, hnd, ?_, ?_⟩
    · rw [hself]
      exact hok.size
    · rw [hself]
      simp only [BlockLists.pop, Function.update_self, hF, List.tail_cons]
      exact hchain.2
    · rw [hself]
      exact hok.localFree
    · exact fun y hy => hok.blocks y (hsub y hy)
    · exact fun y hy => hok.apart y (hsub y hy)
    · have hused := hok.used
      have hlt := pageSize_div_lt (binSize b)
      rw [hold, List.length_cons] at hused
      rw [hself]
      simp only
      omega
  · refine ⟨h.block_onPage hpg hmem, ?_, ?_⟩
    · rw [hxp]
      exact hx
    · rw [hxp]
      exact hok.apart x hmem

/-- The lists after `x` has been pushed on the list of its segment. -/
def BlockLists.toThread (G : BlockLists) (x : Nat) : BlockLists :=
  { G with threadFree := Function.update G.threadFree (pageOf x).1 (x :: G.threadFree (pageOf x).1) }

/-- **Another client frees a block.** -/
theorem BlocksInv.toThread (h : BlocksInv tid m G) (hh : ThreadHeads tid m G) (hx : G.Held b x) :
    BlocksInv tid (m.pushThreadFree (segmentIdx x) x) (G.toThread x) ∧
      ThreadHeads tid (m.pushThreadFree (segmentIdx x) x) (G.toThread x) := by
  have hown := (h.account.owned hx.block.1).1
  have hunlisted := (h.held_iff.mp hx).2
  have hword : ∀ y, y ≠ x → (m.pushThreadFree (segmentIdx x) x).word y = m.word y := fun y hy =>
    Shm.pushThreadFree_word_of_ne hy
  have hthread : ∀ k, (G.toThread x).threadFree k =
      if k = (pageOf x).1 then x :: G.threadFree (pageOf x).1 else G.threadFree k := by
    intro k
    by_cases hk : k = (pageOf x).1 <;> simp [BlockLists.toThread, hk]
  have hsas : ∀ k, ((m.pushThreadFree (segmentIdx x) x).sas k).threadId = (m.sas k).threadId := by
    intro k
    by_cases hk : k = segmentIdx x <;> simp [Shm.pushThreadFree, hk]
  refine ⟨⟨?_, ?_, ?_, ?_⟩, ?_⟩
  · refine h.account.congr (fun _ => rfl) (fun _ _ _ => rfl) (fun _ _ _ => rfl) (fun _ _ => ⟨rfl, rfl⟩)
      (fun _ _ => ⟨rfl, rfl⟩) (fun k => by rw [hsas]) ?_
    intro k hk
    rw [hsas] at hk
    exact h.account.claimable k hk
  · intro b' pg hpg
    have hok := h.page b' pg hpg
    have hne : ∀ y ∈ G.onPage pg, y ≠ x := by
      rintro y hy rfl
      exact hunlisted (Or.inl ⟨b', pg, hpg, hy⟩)
    refine hok.congr rfl (fun y hy => hword y (hne y hy)) rfl rfl ?_
    intro y hy
    rw [hthread]
    split
    case isTrue hk =>
      rw [List.mem_cons, not_or, ← hk]
      exact ⟨hne y hy, hok.apart y hy⟩
    case isFalse => exact hok.apart y hy
  · intro k
    have hseg := h.segment k
    have hne : ∀ y ∈ G.threadFree k, y ≠ x := by
      rintro y hy rfl
      exact hunlisted (Or.inr ⟨k, hy⟩)
    by_cases hk : k = (pageOf x).1
    · subst hk
      refine ⟨?_, ?_, ?_⟩
      · rw [hthread, if_pos rfl]
        refine ⟨rfl, ?_⟩
        have hlink : blockNext (m.pushThreadFree (segmentIdx x) x) x =
            linkPtr (m.sas (pageOf x).1).threadFree :=
          congrArg linkPtr (Function.update_self ..)
        rw [hlink, hh _ hown]
        exact hseg.chain.congr fun y hy => congrArg linkPtr (hword y (hne y hy))
      · rw [hthread, if_pos rfl]
        exact List.nodup_cons.mpr ⟨hx.thread, hseg.nodup⟩
      · rw [hthread, if_pos rfl]
        intro y hy
        rcases List.mem_cons.mp hy with rfl | hy
        · exact ⟨rfl, b, hx.block⟩
        · exact hseg.blocks y hy
    · refine hseg.congr ?_ (fun y hy => hword y (hne y hy)) fun _ _ _ hb => hb
      rw [hthread, if_neg hk]
  · intro k hk
    rw [hsas] at hk
    have hki : k ≠ (pageOf x).1 := by
      rintro rfl
      exact hk hown
    rw [hthread, if_neg hki]
    exact h.unowned k hk
  · intro k hk
    rw [hsas] at hk
    rw [hthread]
    by_cases hki : k = (pageOf x).1
    · rw [if_pos hki]
      have hk' : k = segmentIdx x := hki
      simp only [Shm.pushThreadFree, hk', Function.update_self, List.head?_cons]
      exact linkPtr_of_ne (block_ne_zero hx.block.2)
    · rw [if_neg hki]
      have hk' : k ≠ segmentIdx x := hki
      simp only [Shm.pushThreadFree, Function.update_of_ne hk']
      exact hh k hk

end Moves

/-! ## §5 — a page comes -/

/-- What taking a page leaves alone: eras, the metadata of other pages but for their links, and the
vector but for a claimed entry. -/
structure PageTaken (tid : Nat) (out : PagePtr) (m m' : Shm) : Prop where
  eraCell : m'.eraCell = m.eraCell
  body : ∀ y, some y ≠ out → (m'.page y).body = (m.page y).body
  sas : ∀ i, m'.sas i = m.sas i ∨ (m.sas i).threadId = 0 ∧ m'.sas i = ⟨tid, 0, .normal, 0⟩

section Fresh

variable {tid size fuel : Nat} {m m' : Shm} {G : BlockLists} {b : Nat} {pg : Nat × Nat}

theorem cxlSegmentPageAlloc_taken {p : PagePtr} (htid : tid ≠ 0)
    (hrun : cxlSegmentPageAlloc tid size fuel m = some (p, m')) : PageTaken tid none m m' := by
  induction fuel generalizing m with
  | zero => exact absurd hrun (by simp [cxlSegmentPageAlloc])
  | succ fuel ih =>
    cases hf : (m.queue tid .freePage).first with
    | none =>
      cases ha : cxlSegmentAlloc tid size m with
      | none =>
        rw [cxlSegmentPageAlloc_full hf ha] at hrun
        simp only [Option.some.injEq, Prod.mk.injEq] at hrun
        rw [← hrun.2]
        exact ⟨rfl, fun _ _ => rfl, fun _ => Or.inl rfl⟩
      | some r =>
        obtain ⟨i, m₁⟩ := r
        rw [cxlSegmentPageAlloc_new hf ha] at hrun
        obtain ⟨hi, rfl⟩ := cxlSegmentAlloc_some ha
        have honly := OnlyLinks.pushPages tid i segmentPages (claimSegment tid i m)
        have hrest := ih hrun
        refine ⟨hrest.eraCell.trans honly.eraCell, fun y hy => ?_, fun k => ?_⟩
        · rw [hrest.body y hy, honly.body, claimSegment_page]
        · have hk := hrest.sas k
          rw [honly.sas] at hk
          by_cases hki : k = i
          · subst hki
            have hclaimed : (claimSegment tid k m).sas k = ⟨tid, 0, .normal, 0⟩ :=
              Function.update_self ..
            rw [hclaimed] at hk
            exact Or.inr ⟨hi, hk.resolve_right fun hc => htid hc.1⟩
          · have hother : (claimSegment tid i m).sas k = m.sas k := Function.update_of_ne hki ..
            rwa [hother] at hk
    | some page =>
      rw [cxlSegmentPageAlloc_free hf] at hrun
      simp only [Option.some.injEq, Prod.mk.injEq] at hrun
      have honly := OnlyLinks.remove m tid .freePage page
      rw [← hrun.2]
      refine ⟨honly.eraCell, fun y _ => ?_, fun k => Or.inl ?_⟩
      · rw [setSegmentUsed_page, honly.body]
      · exact congrFun honly.sas k

theorem cxlPageFresh_taken (h : AccountInv tid m G.pages none)
    (hrun : cxlPageFresh fuel tid size (.bin b) m = some (pg, m')) : PageTaken tid (some pg) m m' := by
  cases halloc : cxlSegmentPageAlloc tid size fuel m with
  | none =>
    rw [cxlPageFresh, halloc] at hrun
    simp at hrun
  | some r =>
    obtain ⟨p, m₁⟩ := r
    cases p with
    | none =>
      rw [cxlPageFresh, halloc] at hrun
      simp [cxlPageInit] at hrun
    | some page =>
      obtain ⟨L₁, h₁, -⟩ := cxlSegmentPageAlloc_some h halloc
      have htaken := cxlSegmentPageAlloc_taken h.tid_ne halloc
      rw [cxlPageFresh_eq halloc (h₁.size b)] at hrun
      simp only [Option.some.injEq, Prod.mk.injEq] at hrun
      obtain ⟨rfl, rfl⟩ := hrun
      have honly := OnlyLinks.push (cutPage b page m₁) tid (.bin b) page
      refine ⟨honly.eraCell.trans htaken.eraCell, fun y hy => ?_, fun k => ?_⟩
      · have hcut : (cutPage b page m₁).page y = m₁.page y :=
          (Shm.page_setPage m₁ page y _).trans (if_neg fun he => hy (congrArg some he))
        rw [honly.body, hcut, htaken.body y (by simp)]
      · rw [honly.sas]
        exact htaken.sas k

/-- The words `cxl_page_init` writes lie in the headers of the page's blocks. -/
theorem initWords_other {special : Bool} {bs a : Nat} (m : Shm) (hn : 0 < pageSize / bs)
    (ha : ∀ i < pageSize / bs, ∀ k < initWiped special, a ≠ blockAt (pageStart pg) bs i + 8 * k) :
    initWords special bs pg m a = m.word a := by
  rw [initWords_apply, if_neg, foldl_initBlock_other]
  · exact fun i hi => ha i (by omega)
  · exact ha (pageSize / bs - 1) (by omega) 0 (initWiped_pos special)

theorem initWiped_le (special : Bool) : initWiped special ≤ 3 := by
  cases special <;> simp [initWiped, sizeofCxlObj]

/-- They lie in the page. -/
theorem initWords_outside {special : Bool} {a : Nat} (m : Shm) (hb : b < cxlBinSize)
    (hpg : pg.2 < pagesPerSegment) (ha : pageOf a ≠ pg) :
    initWords special (binSize b) pg m a = m.word a := by
  obtain ⟨hlo, hhi⟩ := binSize_bounds hb
  have hle : binSize b ≤ pageSize := Nat.le_trans hhi (by decide)
  have hn : 0 < pageSize / binSize b := Nat.div_pos hle (binSize_pos b)
  have hin : ∀ d < pageSize, a ≠ pageStart pg + d := by
    rintro d hd rfl
    exact ha (pageOf_offset hpg hd)
  rw [initWords_apply, if_neg, foldl_initBlock_other]
  · intro i hi k hk
    have hk3 := initWiped_le special
    have hlast : (i + 1) * binSize b + binSize b ≤ pageSize := by
      have := Nat.le_trans (Nat.mul_le_mul_right (binSize b) (show i + 2 ≤ pageSize / binSize b by omega))
        (Nat.div_mul_le_self pageSize (binSize b))
      rwa [show i + 2 = i + 1 + 1 from rfl, Nat.add_mul (i + 1), Nat.one_mul] at this
    rw [Nat.add_mul, Nat.one_mul] at hlast
    rw [blockAt, Nat.add_assoc]
    exact hin _ (by omega)
  · have hlast : (pageSize / binSize b - 1) * binSize b + binSize b ≤ pageSize := by
      have := Nat.div_mul_le_self pageSize (binSize b)
      rwa [show pageSize / binSize b = pageSize / binSize b - 1 + 1 by omega, Nat.add_mul,
        Nat.one_mul] at this
    exact hin _ (by omega)

/-- The lists after page `pg` has come to bin `b`; `L` are the queues then. -/
def BlockLists.fresh (G : BlockLists) (L : QueuePtr → List (Nat × Nat)) (b : Nat) (pg : Nat × Nat) :
    BlockLists where
  pages := L
  free := Function.update G.free pg (pageBlocks pg (binSize b))
  localFree := Function.update G.localFree pg []
  threadFree := G.threadFree

/-- **A fresh page has all of its blocks on its free list.** -/
theorem BlocksInv.fresh (h : BlocksInv tid m G) (hh : ThreadHeads tid m G) (hb : b < cxlBinSize)
    (hrun : cxlPageFresh fuel tid size (.bin b) m = some (pg, m')) :
    ∃ L, BlocksInv tid m' (G.fresh L b pg) ∧ ThreadHeads tid m' (G.fresh L b pg) ∧
      L (.bin b) = pg :: G.pages (.bin b) ∧ (∀ k, k ≠ b → L (.bin k) = G.pages (.bin k)) ∧
      ∀ k, pg ∉ G.pages (.bin k) := by
  obtain ⟨L, m₁, hacc, hbin, hbins, hword₁, hfree₁, hword, hbody⟩ := cxlPageFresh_some h.account hb hrun
  have htaken := cxlPageFresh_taken h.account hrun
  obtain ⟨hlo, hhi⟩ := binSize_bounds hb
  have hle : binSize b ≤ pageSize := Nat.le_trans hhi (by decide)
  have hmem : pg ∈ L (.bin b) := by
    rw [hbin]
    exact List.mem_cons_self
  have hlt : pg.2 < pagesPerSegment := (mem_segmentPages.mp (hacc.owned hmem).2).2
  have hnew : ∀ k, pg ∉ G.pages (.bin k) := by
    intro k hk
    by_cases hkb : k = b
    · subst hkb
      have hnd := (hacc.queued.listed (.bin k)).nodup
      rw [hbin] at hnd
      exact (List.nodup_cons.mp hnd).1 hk
    · rw [← hbins k hkb] at hk
      exact hkb (by simpa using hacc.queued.apart _ _ pg hk hmem)
  have hold : ∀ k p, p ∈ L (.bin k) → p ≠ pg → p ∈ G.pages (.bin k) := by
    intro k p hp hne
    by_cases hkb : k = b
    · subst hkb
      rw [hbin] at hp
      exact (List.mem_cons.mp hp).resolve_left hne
    · rwa [hbins k hkb] at hp
  have hblock : ∀ k x, G.Block k x → pageOf x ∈ L (.bin k) := by
    intro k x hx
    by_cases hkb : k = b
    · subst hkb
      rw [hbin]
      exact List.mem_cons_of_mem _ hx.1
    · rw [hbins k hkb]
      exact hx.1
  have hout : ∀ x, G.Listed x → pageOf x ≠ pg := by
    rintro x hx rfl
    obtain ⟨k, hk⟩ := h.listed_block hx
    exact hnew k hk.1
  have hw : ∀ x, G.Listed x → m'.word x = m.word x := by
    intro x hx
    rw [hword, initWords_outside m₁ hb hlt (hout x hx), hword₁]
  simp only [Page.body, binPage, freshPage, Page.mk.injEq] at hbody
  obtain ⟨hfree, hlocal, hsize, hused, -⟩ := hbody
  have honpage : (G.fresh L b pg).onPage pg = pageBlocks pg (binSize b) := by
    simp [BlockLists.onPage, BlockLists.fresh]
  refine ⟨L, ⟨hacc, ?_, ?_, ?_⟩, ?_, hbin, hbins, hnew⟩
  · intro k p hp
    by_cases hpp : p = pg
    · subst hpp
      obtain rfl : k = b := by simpa using hacc.queued.apart _ _ p hp hmem
      refine ⟨?_, ?_, ?_, ?_, ?_, ?_, ?_⟩
      · rw [hsize, Nat.mod_eq_of_lt (binSize_lt hb)]
      · rw [hfree]
        simp only [BlockLists.fresh, Function.update_self]
        have hchain : Chained (fun o => linkPtr (initWords (QueuePtr.bin k).special (binSize k) p m₁ o))
            (linkPtr (pageStart p)) (pageBlocks p (binSize k)) :=
          initWords_chained (binSize_pos k) hle hfree₁
        rw [← hword] at hchain
        exact hchain
      · rw [hlocal]
        simp only [BlockLists.fresh, Function.update_self]
        rfl
      · rw [honpage]
        exact fun x hx => hx
      · rw [honpage]
        exact pageBlocks_nodup (binSize_pos k)
      · rw [honpage]
        intro x hx ht
        exact hout x (Or.inr ⟨_, ht⟩) (pageOf_block hlt (binSize_pos k) hx)
      · rw [honpage, pageBlocks_length, hused, Nat.zero_add]
    · have hp' := hold k p hp hpp
      have hok := h.page k p hp'
      refine hok.congr (htaken.body p (by simpa using hpp)) ?_ (Function.update_of_ne hpp ..)
        (Function.update_of_ne hpp ..) hok.apart
      exact fun x hx => hw x (Or.inl ⟨k, p, hp', hx⟩)
  · intro k
    refine (h.segment k).congr rfl (fun x hx => hw x (Or.inr ⟨k, hx⟩)) ?_
    exact fun x _ k' hk' => ⟨hblock k' x hk', hk'.2⟩
  · intro k hk
    apply h.unowned k
    intro ht
    rcases htaken.sas k with hs | ⟨h0, -⟩
    · rw [hs] at hk
      exact hk ht
    · exact h.account.tid_ne (ht.symm.trans h0)
  · intro k hk
    rcases htaken.sas k with hs | ⟨h0, hs⟩
    · rw [hs] at hk ⊢
      exact hh k hk
    · have hempty : G.threadFree k = [] := h.unowned k fun ht => h.account.tid_ne (ht.symm.trans h0)
      rw [hs]
      simp only [BlockLists.fresh, hempty]
      rfl

end Fresh

/-! ## §6 — a page goes -/

section Release

variable {tid : Nat} {m : Shm} {G : BlockLists} {b : Nat} {pg : Nat × Nat}

/-- What giving a page back leaves alone. -/
structure PageGiven (tid : Nat) (pg : Nat × Nat) (m m' : Shm) : Prop where
  eraCell : m'.eraCell = m.eraCell
  word : m'.word = m.word
  sas : ∀ i, m'.sas i = m.sas i ∨ (m.sas i).threadId = tid ∧ (m'.sas i).threadId = 0
  body : ∀ y, y ≠ pg → (m'.sas y.1).threadId = tid → (m'.page y).body = (m.page y).body

theorem cxlPageRelease_page (q : QueuePtr) {y : Nat × Nat}
    (hy : y ≠ pg) : ((cxlPageRelease tid q pg m).page y).body = (m.page y).body := by
  have hrem := OnlyLinks.remove m tid q pg
  have hpush := OnlyLinks.push ((cxlPageQueueRemove tid q pg m).setPage pg Page.zero) tid .freePage pg
  rw [cxlPageRelease, setSegmentUsed_page, hpush.body, Shm.page_setPage, if_neg hy, hrem.body]

/-- **The page goes back**, with its segment if that has become empty. -/
theorem AccountInv.freePage_bins {L : QueuePtr → List (Nat × Nat)} (h : AccountInv tid m L none)
    (hpg : pg ∈ L (.bin b)) : ∃ m' L', cxlPageFree tid (.bin b) pg m = some m' ∧
      AccountInv tid m' L' none ∧ L' (.bin b) = (L (.bin b)).erase pg ∧
      (∀ k, k ≠ b → L' (.bin k) = L (.bin k)) ∧ PageGiven tid pg m m' := by
  obtain ⟨L₁, h₁, hfree, hbin, hbins⟩ := h.releasePage hpg
  have hrem := OnlyLinks.remove m tid (.bin b) pg
  have hpush := OnlyLinks.push ((cxlPageQueueRemove tid (.bin b) pg m).setPage pg Page.zero) tid
    .freePage pg
  have hera : (cxlPageRelease tid (.bin b) pg m).eraCell = m.eraCell :=
    hpush.eraCell.trans hrem.eraCell
  have hword : (cxlPageRelease tid (.bin b) pg m).word = m.word := hpush.word.trans hrem.word
  have hsas : (cxlPageRelease tid (.bin b) pg m).sas = m.sas := hpush.sas.trans hrem.sas
  by_cases hz : ((cxlPageRelease tid (.bin b) pg m).segment pg.1).used = 0
  · have hown := (h₁.owned hfree).1
    have honly := OnlyLinks.removePages tid pg.1 segmentPages (cxlPageRelease tid (.bin b) pg m)
    refine ⟨releaseSegment tid pg.1 (cxlPageRelease tid (.bin b) pg m), withoutSegment L₁ pg.1, ?_,
      h₁.release hown hz, ?_, ?_, ?_⟩
    · simp only [cxlPageFree, if_pos hz]
      exact cxlSegmentFree_eq hown
    · rw [withoutSegment, Function.update_of_ne (by simp), hbin]
    · intro k hk
      rw [withoutSegment, Function.update_of_ne (by simp), hbins k hk]
    · refine ⟨honly.eraCell.trans hera, honly.word.trans hword, ?_, ?_⟩
      · intro i
        by_cases hi : i = pg.1
        · subst hi
          rw [releaseSegment_owner, if_pos rfl]
          rw [hsas] at hown
          exact Or.inr ⟨hown, rfl⟩
        · left
          simp only [releaseSegment, cxlSegmentClear_sas, Function.update_of_ne hi, hsas]
      · intro y hy hyown
        have hyi : y.1 ≠ pg.1 := by
          intro he
          rw [releaseSegment_owner, if_pos he] at hyown
          exact h.tid_ne hyown.symm
        exact (cxlSegmentClear_page tid _ hyi).trans (cxlPageRelease_page (.bin b) hy)
  · refine ⟨_, L₁, by simp only [cxlPageFree, if_neg hz], h₁, hbin, hbins, hera, hword,
      fun i => Or.inl (by rw [hsas]), ?_⟩
    exact fun y hy _ => cxlPageRelease_page (.bin b) hy

/-- A page that counts no block in use has them all on its lists, so none is on the list of the segment. -/
theorem BlocksInv.all_listed (h : BlocksInv tid m G) (hpg : pg ∈ G.pages (.bin b))
    (hz : (m.page pg).used = 0) : ∀ x ∈ pageBlocks pg (binSize b), x ∈ G.onPage pg := by
  have hok := h.page b pg hpg
  have hlen := hok.used
  rw [hz, Nat.zero_add, ← pageBlocks_length pg (binSize b)] at hlen
  have hperm := (List.subperm_of_subset hok.nodup hok.blocks).perm_of_length_le (Nat.le_of_eq hlen.symm)
  exact fun x hx => hperm.mem_iff.mpr hx

/-- **A page all of whose blocks are listed goes back.** -/
theorem BlocksInv.release (h : BlocksInv tid m G) (hh : ThreadHeads tid m G)
    (hpg : pg ∈ G.pages (.bin b)) (hz : (m.page pg).used = 0) :
    ∃ m' L, cxlPageFree tid (.bin b) pg m = some m' ∧ BlocksInv tid m' { G with pages := L } ∧
      ThreadHeads tid m' { G with pages := L } ∧ L (.bin b) = (G.pages (.bin b)).erase pg ∧
      (∀ k, k ≠ b → L (.bin k) = G.pages (.bin k)) ∧ PageGiven tid pg m m' := by
  obtain ⟨m', L, hrun, hacc, hbin, hbins, hgiven⟩ := h.account.freePage_bins hpg
  have hok := h.page b pg hpg
  have hnd := (h.account.queued.listed (.bin b)).nodup
  have hmem : ∀ k p, p ∈ L (.bin k) ↔ p ∈ G.pages (.bin k) ∧ p ≠ pg := by
    intro k p
    by_cases hkb : k = b
    · subst hkb
      rw [hbin, hnd.mem_erase_iff]
      exact and_comm
    · rw [hbins k hkb]
      refine ⟨fun hp => ⟨hp, ?_⟩, And.left⟩
      rintro rfl
      exact hkb (h.bin_unique hp hpg)
  have hall := h.all_listed hpg hz
  have hthread : ∀ i, ∀ x ∈ G.threadFree i, ∀ k, G.Block k x → pageOf x ∈ L (.bin k) := by
    intro i x hx k hk
    refine (hmem k _).mpr ⟨hk.1, fun hp => ?_⟩
    have hkb : k = b := h.bin_unique hk.1 (hp ▸ hpg)
    subst hkb
    have hxp := hall x (hp ▸ hk.2)
    refine hok.apart x hxp ?_
    rw [← hp, ((h.segment i).blocks x hx).1]
    exact hx
  have hcase : ∀ i, (m'.sas i).threadId ≠ tid → G.threadFree i = [] := by
    intro i hi
    by_contra hne
    obtain ⟨x, hx⟩ := List.exists_mem_of_ne_nil _ hne
    obtain ⟨hxi, k, hk⟩ := (h.segment i).blocks x hx
    have hown := (hacc.owned (hthread i x hx k hk)).1
    rw [hxi] at hown
    exact hi hown
  refine ⟨m', L, hrun, ⟨hacc, ?_, ?_, hcase⟩, ?_, hbin, hbins, hgiven⟩
  · intro k p hp
    obtain ⟨hp', hne⟩ := (hmem k p).mp hp
    have hok' := h.page k p hp'
    refine hok'.congr (hgiven.body p hne (hacc.owned hp).1) (fun x _ => ?_) rfl rfl hok'.apart
    rw [hgiven.word]
  · intro k
    refine (h.segment k).congr rfl (fun x _ => by rw [hgiven.word]) ?_
    exact fun x hx k' hk' => ⟨hthread k x hx k' hk', hk'.2⟩
  · intro i hi
    rcases hgiven.sas i with hs | ⟨-, h0⟩
    · rw [hs] at hi ⊢
      exact hh i hi
    · exact absurd (hi.symm.trans h0) hacc.tid_ne

end Release

end CxlShm
