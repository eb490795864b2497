import CxlShm.BlockLists

/-! # AllocRun — the slow path and the block lists

What `cxl_page_malloc` and `cxl_free` do to the lists of `BlockLists`: the first hands nothing out and takes
nothing back, it finds a page with a free block; the second takes one block back.
-/

namespace CxlShm

open Loop DoublyLinked Transition

/-! ## §1 — collecting -/

/-- From the lists `G` to the lists `G'` no block has been handed out or taken back, and pages have come to
bin `b` at most; the words that have changed are header words of listed blocks. -/
structure Reshuffled (b : Nat) (m m' : Shm) (G G' : BlockLists) : Prop where
  block : ∀ k x, G.Block k x → G'.Block k x
  listed : ∀ k x, G.Block k x → (G'.Listed x ↔ G.Listed x)
  fresh : ∀ k x, G'.Block k x → ¬ G'.Listed x → G.Block k x
  word : ∀ a, m'.word a ≠ m.word a →
    ∃ k x d, G'.Block k x ∧ G'.Listed x ∧ a = x + d ∧ d < sizeofCxlObj ∧ d < binSize k
  eraCell : m'.eraCell = m.eraCell
  bins : ∀ k, k ≠ b → G'.pages (.bin k) = G.pages (.bin k)

section Collect

variable {tid size fuel : Nat} {m m' m'' : Shm} {G G' G'' : BlockLists} {b i x : Nat} {pg : Nat × Nat}

theorem Reshuffled.refl (m : Shm) (G : BlockLists) : Reshuffled b m m G G :=
  ⟨fun _ _ h => h, fun _ _ _ => Iff.rfl, fun _ _ h _ => h, fun _ h => absurd rfl h, rfl, fun _ _ => rfl⟩

theorem Reshuffled.trans (h : Reshuffled b m m' G G') (h' : Reshuffled b m' m'' G' G'') :
    Reshuffled b m m'' G G'' := by
  refine ⟨fun b x hx => h'.block b x (h.block b x hx), ?_, ?_, ?_, h'.eraCell.trans h.eraCell,
    fun k hk => (h'.bins k hk).trans (h.bins k hk)⟩
  · intro b x hx
    rw [h'.listed b x (h.block b x hx), h.listed b x hx]
  · intro b x hx hn
    have hx' := h'.fresh b x hx hn
    exact h.fresh b x hx' fun hl => hn ((h'.listed b x hx').mpr hl)
  · intro a ha
    by_cases hsame : m''.word a = m'.word a
    · rw [hsame] at ha
      obtain ⟨b, x, d, hx, hl, hrest⟩ := h.word a ha
      exact ⟨b, x, d, h'.block b x hx, (h'.listed b x hx).mpr hl, hrest⟩
    · exact h'.word a hsame

/-- What is handed out stays handed out. -/
theorem Reshuffled.held (h : Reshuffled b m m' G G') (hinv : BlocksInv tid m G) (hinv' : BlocksInv tid m' G')
    {k : Nat} (hx : G.Held k x) : G'.Held k x := by
  obtain ⟨hb, hn⟩ := hinv.held_iff.mp hx
  exact hinv'.held_iff.mpr ⟨h.block k x hb, fun hl => hn ((h.listed k x hb).mp hl)⟩

/-- The lists while the list of segment `i` is being collected: `l` is still to come. -/
structure Collecting (tid i : Nat) (m₀ : Shm) (G₀ : BlockLists) (l : List Nat) (m : Shm)
    (G : BlockLists) : Prop where
  inv : BlocksInv tid m G
  todo : G.threadFree i = l
  pages : G.pages = G₀.pages
  sas : m.sas = m₀.sas
  others : ∀ k, k ≠ i → G.threadFree k = G₀.threadFree k
  listed : ∀ x, G.Listed x ↔ G₀.Listed x
  word : ∀ a, m.word a ≠ m₀.word a → G.Listed a
  eraCell : m.eraCell = m₀.eraCell

theorem BlockLists.toLocal_listed (hpg : ∃ b, pageOf x ∈ G.pages (.bin b)) {y : Nat} :
    (G.toLocal x).Listed y ↔ y = x ∨ G.Listed y := by
  have hpage : ∀ p, y ∈ (G.toLocal x).onPage p ↔ p = pageOf x ∧ y = x ∨ y ∈ G.onPage p := by
    intro p
    by_cases hp : p = pageOf x
    · subst hp
      rw [BlockLists.toLocal_onPage, List.perm_middle.mem_iff, List.mem_cons]
      simp [BlockLists.onPage]
    · simp [BlockLists.onPage, BlockLists.toLocal, hp]
  simp only [BlockLists.Listed, hpage]
  constructor
  · rintro (⟨b, p, hp, ⟨-, rfl⟩ | hy⟩ | ⟨i, hy⟩)
    · exact Or.inl rfl
    · exact Or.inr (Or.inl ⟨b, p, hp, hy⟩)
    · exact Or.inr (Or.inr ⟨i, hy⟩)
  · rintro (rfl | ⟨b, p, hp, hy⟩ | ⟨i, hy⟩)
    · obtain ⟨b, hb⟩ := hpg
      exact Or.inl ⟨b, _, hb, Or.inl ⟨rfl, rfl⟩⟩
    · exact Or.inl ⟨b, p, hp, Or.inr hy⟩
    · exact Or.inr ⟨i, hy⟩

theorem BlockLists.takeThread_listed {l : List Nat} (hT : G.threadFree i = x :: l) {y : Nat} :
    G.Listed y ↔ y = x ∨
      BlockLists.Listed { G with threadFree := Function.update G.threadFree i l } y := by
  have hmem : ∀ k, y ∈ G.threadFree k ↔ k = i ∧ y = x ∨ y ∈ Function.update G.threadFree i l k := by
    intro k
    by_cases hk : k = i
    · subst hk
      simp [hT]
    · simp [hk]
  simp only [BlockLists.Listed, hmem, BlockLists.onPage]
  constructor
  · rintro (h | ⟨k, ⟨-, rfl⟩ | hy⟩)
    · exact Or.inr (Or.inl h)
    · exact Or.inl rfl
    · exact Or.inr (Or.inr ⟨k, hy⟩)
  · rintro (rfl | h | ⟨k, hy⟩)
    · exact Or.inr ⟨i, Or.inl ⟨rfl, rfl⟩⟩
    · exact Or.inl h
    · exact Or.inr ⟨k, Or.inr hy⟩

/-- One block is collected. -/
theorem Collecting.next {m₀ : Shm} {G₀ : BlockLists} {l : List Nat}
    (h : Collecting tid i m₀ G₀ (x :: l) m G) : blockNext m x = l.head? ∧
      ∃ G', Collecting tid i m₀ G₀ l (collectBlock x m) G' := by
  have hchain := (h.inv.segment i).chain
  rw [h.todo] at hchain
  obtain ⟨hinv, b, hx⟩ := h.inv.takeThread h.todo
  have hlisted : ∀ y, (BlockLists.toLocal
      { G with threadFree := Function.update G.threadFree i l } x).Listed y ↔ G.Listed y := by
    intro y
    rw [BlockLists.toLocal_listed ⟨b, hx.block.1⟩, ← BlockLists.takeThread_listed h.todo]
  refine ⟨hchain.2.head, _, hinv.toLocal hx, ?_, h.pages, h.sas, ?_, ?_, ?_, h.eraCell⟩
  · simp [BlockLists.toLocal]
  · intro k hk
    exact (Function.update_of_ne hk ..).trans (h.others k hk)
  · intro y
    rw [hlisted, h.listed]
  · intro a ha
    rw [hlisted]
    by_cases hax : a = x
    · rw [hax, BlockLists.takeThread_listed h.todo]
      exact Or.inl rfl
    · apply h.word a
      have hsame : (collectBlock x m).word a = m.word a := Function.update_of_ne hax ..
      rwa [hsame] at ha

/-- **`cxl_thread_free_collect`** moves the list of the segment to the local lists of its pages. -/
theorem cxlThreadFreeCollect_some (h : BlocksInv tid m G) (hh : ThreadHeads tid m G)
    (hpg : pg ∈ G.pages (.bin b)) (hrun : cxlThreadFreeCollect fuel pg m = some m') :
    ∃ G', BlocksInv tid m' G' ∧ ThreadHeads tid m' G' ∧ G'.pages = G.pages ∧
      (∀ y, G'.Listed y ↔ G.Listed y) ∧ (∀ a, m'.word a ≠ m.word a → G'.Listed a) ∧
      m'.eraCell = m.eraCell := by
  have hown := (h.account.owned hpg).1
  unfold cxlThreadFreeCollect at hrun
  simp only at hrun
  split at hrun
  case isTrue hz =>
    cases hrun
    exact ⟨G, h, hh, rfl, fun _ => Iff.rfl, fun _ hne => absurd rfl hne, rfl⟩
  case isFalse hz =>
    have hsas : ∀ k, ((takeThreadFree pg.1 m).sas k).threadId = (m.sas k).threadId := by
      intro k
      by_cases hk : k = pg.1 <;> simp [takeThreadFree, hk]
    have hacc : AccountInv tid (takeThreadFree pg.1 m) G.pages none := by
      refine h.account.congr (fun _ => rfl) (fun _ _ _ => rfl) (fun _ _ _ => rfl) (fun _ _ => ⟨rfl, rfl⟩)
        (fun _ _ => ⟨rfl, rfl⟩) (fun k => by rw [hsas]) ?_
      intro k hk
      rw [hsas] at hk
      exact h.account.claimable k hk
    have hstart : Collecting tid pg.1 (takeThreadFree pg.1 m) G (G.threadFree pg.1)
        (takeThreadFree pg.1 m) G :=
      ⟨h.congr hacc (fun _ _ _ => rfl) (fun k => by rw [hsas]) fun _ _ => rfl, rfl, rfl, rfl,
        fun _ _ => rfl, fun _ => Iff.rfl, fun _ hne => absurd rfl hne, rfl⟩
    rw [hh _ hown] at hrun
    obtain ⟨G', hend⟩ := walk_some
      (fun l s => ∃ G', Collecting tid pg.1 (takeThreadFree pg.1 m) G l s G')
      (fun x l s s' ⟨G', hs⟩ hb => by
        obtain rfl := Option.some.inj hb
        exact hs.next) hrun ⟨G, hstart⟩
    refine ⟨G', hend.inv, ?_, hend.pages, hend.listed, hend.word, hend.eraCell⟩
    intro k hk
    rw [hend.sas] at hk ⊢
    by_cases hki : k = pg.1
    · subst hki
      rw [hend.todo]
      simp [takeThreadFree, linkPtr]
    · have hother : (takeThreadFree pg.1 m).sas k = m.sas k := Function.update_of_ne hki ..
      rw [hother] at hk ⊢
      rw [hend.others k hki]
      exact hh k hk

theorem BlockLists.listed_congr (hp : G'.pages = G.pages) (ht : G'.threadFree = G.threadFree)
    (ho : ∀ p, G'.onPage p = G.onPage p) {y : Nat} : G'.Listed y ↔ G.Listed y := by
  simp only [BlockLists.Listed, hp, ht, ho]

theorem BlockLists.block_congr (hp : G'.pages = G.pages) {y : Nat} : G'.Block b y ↔ G.Block b y := by
  simp only [BlockLists.Block, hp]

/-- **`cxl_page_free_collect`.** The page has a block on its free list then, or none on either. -/
theorem cxlPageFreeCollect_some (h : BlocksInv tid m G) (hh : ThreadHeads tid m G)
    (hpg : pg ∈ G.pages (.bin b)) (hrun : cxlPageFreeCollect fuel pg m = some m') :
    ∃ G', BlocksInv tid m' G' ∧ ThreadHeads tid m' G' ∧ Reshuffled b m m' G G' ∧
      G'.pages = G.pages := by
  unfold cxlPageFreeCollect at hrun
  rw [Option.map_eq_some_iff] at hrun
  obtain ⟨m₁, hrun, rfl⟩ := hrun
  obtain ⟨G₁, h₁, hh₁, hpages, hlisted, hword, hera⟩ := cxlThreadFreeCollect_some h hh hpg hrun
  have hsas : (refillFree pg m₁).sas = m₁.sas := by
    unfold refillFree
    split <;> rfl
  have hw : (refillFree pg m₁).word = m₁.word := by
    unfold refillFree
    split <;> rfl
  have he : (refillFree pg m₁).eraCell = m₁.eraCell := by
    unfold refillFree
    split <;> rfl
  have hmem : pg ∈ G₁.pages (.bin b) := by
    rw [hpages]
    exact hpg
  have h₂ := h₁.refill hmem
  have hpages₂ : (G₁.refill pg).pages = G.pages := (BlockLists.refill_pages G₁ pg).trans hpages
  have hlisted₂ : ∀ y, (G₁.refill pg).Listed y ↔ G.Listed y := fun y =>
    (BlockLists.listed_congr (BlockLists.refill_pages G₁ pg) (BlockLists.refill_threadFree G₁ pg)
      (BlockLists.refill_onPage G₁ pg)).trans (hlisted y)
  refine ⟨G₁.refill pg, h₂, ?_, ⟨?_, fun _ y _ => hlisted₂ y, ?_, ?_, he.trans hera, ?_⟩, hpages₂⟩
  · intro k hk
    rw [hsas] at hk ⊢
    rw [BlockLists.refill_threadFree]
    exact hh₁ k hk
  · exact fun b y hy => (BlockLists.block_congr hpages₂).mpr hy
  · exact fun b y hy _ => (BlockLists.block_congr hpages₂).mp hy
  · intro a ha
    rw [hw] at ha
    have hl := (hlisted₂ a).mpr ((hlisted a).mp (hword a ha))
    obtain ⟨b', hb'⟩ := h₂.listed_block hl
    exact ⟨b', a, 0, hb', hl, rfl, by decide, binSize_pos b'⟩
  · exact fun k _ => by rw [hpages₂]

/-- **The loop of `cxl_page_queue_find_free_ex`.** -/
theorem findFree_some (h : BlocksInv tid m G) (hh : ThreadHeads tid m G) {rounds : Nat} {p q : PagePtr}
    (hp : ∀ pg, p = some pg → pg ∈ G.pages (.bin b)) (hrun : findFree fuel rounds p m = some (q, m')) :
    ∃ G', BlocksInv tid m' G' ∧ ThreadHeads tid m' G' ∧ Reshuffled b m m' G G' ∧ G'.pages = G.pages ∧
      ∀ pg, q = some pg → pg ∈ G'.pages (.bin b) ∧ (m'.page pg).free ≠ 0 := by
  induction rounds generalizing p m G with
  | zero => cases hrun
  | succ rounds ih =>
    cases p with
    | none =>
      simp only [findFree, Option.some.injEq, Prod.mk.injEq] at hrun
      obtain ⟨rfl, rfl⟩ := hrun
      exact ⟨G, h, hh, Reshuffled.refl m G, rfl, fun _ hq => by cases hq⟩
    | some pg =>
      have hpg := hp pg rfl
      simp only [findFree, Option.bind_eq_some_iff] at hrun
      obtain ⟨m₁, hcollect, hrun⟩ := hrun
      obtain ⟨G₁, h₁, hh₁, hre, hpages⟩ := cxlPageFreeCollect_some h hh hpg hcollect
      split at hrun
      case isTrue hfree =>
        simp only [Option.some.injEq, Prod.mk.injEq] at hrun
        obtain ⟨rfl, rfl⟩ := hrun
        refine ⟨G₁, h₁, hh₁, hre, hpages, ?_⟩
        rintro pg' hq
        obtain rfl := Option.some.inj hq
        rw [hpages]
        exact ⟨hpg, hfree⟩
      case isFalse =>
        -- the link was read before, and leads to a page of the bin
        have hnext : ∀ pg', (m.page pg).next = some pg' → pg' ∈ G₁.pages (.bin b) := by
          intro pg' hn
          rw [hpages]
          exact (h.account.queued.listed (.bin b)).next_mem hpg hn
        obtain ⟨G₂, h₂, hh₂, hre₂, hpages₂, hq⟩ := ih h₁ hh₁ hnext hrun
        exact ⟨G₂, h₂, hh₂, hre.trans hre₂, hpages₂.trans hpages, hq⟩

end Collect

/-! ## §2 — taking a block -/

section Take

variable {tid size fuel : Nat} {m m' : Shm} {G : BlockLists} {b x : Nat} {pg : Nat × Nat}

theorem binSize_large {b : Nat} (hb : 3 ≤ b) : 32 ≤ binSize b := by
  unfold binSize
  rw [if_neg (by omega), if_neg (by omega)]
  omega

/-- A fresh page hands nothing out. -/
theorem cxlPageFresh_reshuffled (h : BlocksInv tid m G) (hh : ThreadHeads tid m G) (hb : b < cxlBinSize)
    (hb2 : b ≠ 2) (hrun : cxlPageFresh fuel tid size (.bin b) m = some (pg, m')) :
    ∃ L, BlocksInv tid m' (G.fresh L b pg) ∧ ThreadHeads tid m' (G.fresh L b pg) ∧
      Reshuffled b m m' G (G.fresh L b pg) ∧ L (.bin b) = pg :: G.pages (.bin b) := by
  obtain ⟨L, h', hh', hbin, hbins, hnew⟩ := h.fresh hh hb hrun
  obtain ⟨L₁, m₁, -, -, -, hword₁, -, hword, -⟩ := cxlPageFresh_some h.account hb hrun
  obtain ⟨hlo, hhi⟩ := binSize_bounds hb
  have hn : 0 < pageSize / binSize b := Nat.div_pos (Nat.le_trans hhi (by decide)) (binSize_pos b)
  have hmem : pg ∈ L (.bin b) := by
    rw [hbin]
    exact List.mem_cons_self
  have hpages : ∀ k p, p ∈ L (.bin k) ↔ k = b ∧ p = pg ∨ p ∈ G.pages (.bin k) := by
    intro k p
    by_cases hkb : k = b
    · subst hkb
      simp [hbin]
    · simp [hbins k hkb, hkb]
  have honpage : ∀ p, p ≠ pg → (G.fresh L b pg).onPage p = G.onPage p := by
    intro p hp
    simp [BlockLists.onPage, BlockLists.fresh, hp]
  have hself : (G.fresh L b pg).onPage pg = pageBlocks pg (binSize b) := by
    simp [BlockLists.onPage, BlockLists.fresh]
  have hlisted : ∀ y, y ∈ pageBlocks pg (binSize b) → (G.fresh L b pg).Listed y := fun y hy =>
    Or.inl ⟨b, pg, hmem, by rw [hself]; exact hy⟩
  have hpageOf : ∀ y ∈ pageBlocks pg (binSize b), pageOf y = pg := fun y hy => h'.pageOf_eq hmem hy
  refine ⟨L, h', hh', ⟨?_, ?_, ?_, ?_, (cxlPageFresh_taken h.account hrun).eraCell, hbins⟩, hbin⟩
  · exact fun k y hy => ⟨(hpages k _).mpr (Or.inr hy.1), hy.2⟩
  · intro k y hy
    have hne : pageOf y ≠ pg := by
      rintro hp
      exact hnew k (hp ▸ hy.1)
    constructor
    · rintro (⟨k', p, hp, hyp⟩ | ht)
      · have hpp := h'.page_eq hp hyp
        have hpne : p ≠ pg := hpp ▸ hne
        rw [honpage p hpne] at hyp
        exact Or.inl ⟨k', p, ((hpages k' p).mp hp).resolve_left fun hc => hpne hc.2, hyp⟩
      · exact Or.inr ht
    · rintro (⟨k', p, hp, hyp⟩ | ht)
      · have hpne : p ≠ pg := fun hc => hnew k' (hc ▸ hp)
        exact Or.inl ⟨k', p, (hpages k' p).mpr (Or.inr hp), by rw [honpage p hpne]; exact hyp⟩
      · exact Or.inr ht
  · intro k y hy hunlisted
    refine ⟨((hpages k _).mp hy.1).resolve_left ?_, hy.2⟩
    rintro ⟨rfl, hp⟩
    exact hunlisted (hlisted y (hp ▸ hy.2))
  · intro a ha
    rw [hword] at ha
    by_contra hno
    refine ha ?_
    rw [← hword₁]
    apply initWords_other m₁ hn
    intro i hi k hk hak
    have hblock : blockAt (pageStart pg) (binSize b) i ∈ pageBlocks pg (binSize b) :=
      mem_pageBlocks.mpr ⟨i, hi, rfl⟩
    have hk3 := Nat.lt_of_lt_of_le hk (initWiped_le _)
    refine hno ⟨b, _, 8 * k, h'.block_of_mem hmem hblock, hlisted _ hblock, hak, ?_, ?_⟩
    · simp only [sizeofCxlObj]
      omega
    · by_cases hsp : b < 2
      · have hcases : b = 0 ∨ b = 1 := by omega
        have hspecial : (QueuePtr.bin b).special = true := by simpa [QueuePtr.special] using hcases
        rw [hspecial] at hk
        simp only [initWiped, if_true] at hk
        omega
      · have := binSize_large (b := b) (by omega)
        omega

/-- A fresh page has all its blocks free, from the start of the page on. -/
theorem BlockLists.fresh_free (G : BlockLists) (L : QueuePtr → List (Nat × Nat)) (hb : b < cxlBinSize)
    (pg : Nat × Nat) : ∃ l, (G.fresh L b pg).free pg = pageStart pg :: l := by
  obtain ⟨-, hhi⟩ := binSize_bounds hb
  have hn : 0 < pageSize / binSize b := Nat.div_pos (Nat.le_trans hhi (by decide)) (binSize_pos b)
  obtain ⟨n, hn⟩ := Nat.exists_eq_succ_of_ne_zero (Nat.ne_of_gt hn)
  refine ⟨(List.range n).map (blockAt (pageStart pg) (binSize b) ∘ Nat.succ), ?_⟩
  have hself : (G.fresh L b pg).free pg = pageBlocks pg (binSize b) := Function.update_self ..
  rw [hself, pageBlocks, hn, List.range_succ_eq_map, List.map_cons, List.map_map]
  simp [blockAt]

theorem BlocksInv.free_eq (h : BlocksInv tid m G) (hpg : pg ∈ G.pages (.bin b))
    (hfree : (m.page pg).free ≠ 0) : ∃ l, G.free pg = (m.page pg).free :: l := by
  have hhead := (h.page b pg hpg).free.head
  rw [linkPtr_of_ne hfree] at hhead
  exact List.head?_eq_some_iff.mp hhead.symm

theorem BlocksInv.free_ne_zero (h : BlocksInv tid m G) (hpg : pg ∈ G.pages (.bin b))
    (hne : G.free pg ≠ []) : (m.page pg).free ≠ 0 := fun hz =>
  hne ((chained_linkPtr (h.page b pg hpg).free).mp hz)

theorem cxlPageQueueFindFreeEx_some (h : BlocksInv tid m G) (hh : ThreadHeads tid m G)
    (hb : b < cxlBinSize) (hb2 : b ≠ 2)
    (hrun : cxlPageQueueFindFreeEx fuel tid size (.bin b) m = some (pg, m')) :
    ∃ G', BlocksInv tid m' G' ∧ ThreadHeads tid m' G' ∧ Reshuffled b m m' G G' ∧ pg ∈ G'.pages (.bin b) ∧
      (m'.page pg).free ≠ 0 := by
  unfold cxlPageQueueFindFreeEx at hrun
  simp only [Option.bind_eq_bind, Option.bind_eq_some_iff] at hrun
  obtain ⟨⟨p, m₁⟩, hfind, hrun⟩ := hrun
  have hfirst : ∀ pg, (m.queue tid (.bin b)).first = some pg → pg ∈ G.pages (.bin b) := fun pg hf =>
    h.account.queued.first_mem hf
  obtain ⟨G₁, h₁, hh₁, hre, -, hq⟩ := findFree_some h hh hfirst hfind
  cases p with
  | some page =>
    simp only [Option.some.injEq, Prod.mk.injEq] at hrun
    obtain ⟨rfl, rfl⟩ := hrun
    obtain ⟨hmem, hfree⟩ := hq page rfl
    exact ⟨G₁, h₁, hh₁, hre, hmem, hfree⟩
  | none =>
    obtain ⟨L, h₂, hh₂, hre₂, hbin⟩ := cxlPageFresh_reshuffled h₁ hh₁ hb hb2 hrun
    obtain ⟨l, hl⟩ := G₁.fresh_free L hb pg
    have hmem : pg ∈ L (.bin b) := by
      rw [hbin]
      exact List.mem_cons_self
    exact ⟨_, h₂, hh₂, hre.trans hre₂, hmem, h₂.free_ne_zero hmem (by rw [hl]; simp)⟩

theorem queue_clearRedo (m : Shm) (tid : Nat) (q : QueuePtr) :
    (m.clearRedo tid).queue tid q = m.queue tid q := by
  cases q <;> simp [Shm.queue, Shm.clearRedo, Shm.setTls, Tls.queue]

theorem BlocksInv.clearRedo (h : BlocksInv tid m G) : BlocksInv tid (m.clearRedo tid) G := by
  refine h.congr ?_ (fun _ _ _ => rfl) (fun _ => Iff.rfl) fun _ _ => rfl
  exact h.account.congr (fun q => queue_clearRedo m tid q) (fun _ _ _ => rfl) (fun _ _ _ => rfl)
    (fun _ _ => ⟨rfl, rfl⟩) (fun _ _ => ⟨rfl, rfl⟩) (fun _ => Iff.rfl) h.account.claimable

/-- **`cxl_page_malloc` finds the head of a free list of the bin.** -/
theorem cxlPageMalloc_some (h : BlocksInv tid m G) (hh : ThreadHeads tid m G) (hb : b < cxlBinSize)
    (hb2 : b ≠ 2)
    (hrun : cxlPageMalloc fuel tid size (.bin b) (cxlFindPage tid (.bin b) m) m = some (x, pg, m')) :
    ∃ G' l, BlocksInv tid m' G' ∧ ThreadHeads tid m' G' ∧ Reshuffled b m m' G G' ∧
      pg ∈ G'.pages (.bin b) ∧ G'.free pg = x :: l := by
  cases hfind : cxlFindPage tid (.bin b) m with
  | some page =>
    rw [hfind] at hrun
    simp only [cxlPageMalloc, Option.some.injEq, Prod.mk.injEq] at hrun
    obtain ⟨rfl, rfl, rfl⟩ := hrun
    obtain ⟨hfirst, hfree⟩ := Option.filter_eq_some_iff.mp hfind
    have hmem := h.account.queued.first_mem hfirst
    obtain ⟨l, hl⟩ := h.free_eq hmem (by simpa using hfree)
    exact ⟨G, l, h, hh, Reshuffled.refl m G, hmem, hl⟩
  | none =>
    rw [hfind] at hrun
    simp only [cxlPageMalloc, cxlMallocGeneric, Option.bind_eq_bind, Option.bind_eq_some_iff] at hrun
    obtain ⟨⟨page, m₁⟩, hex, hrun⟩ := hrun
    simp only [Option.some.injEq, Prod.mk.injEq] at hrun
    obtain ⟨rfl, rfl, rfl⟩ := hrun
    obtain ⟨G', h', hh', hre, hmem, hfree⟩ := cxlPageQueueFindFreeEx_some h.clearRedo hh hb hb2 hex
    obtain ⟨l, hl⟩ := h'.free_eq hmem hfree
    have hclear : Reshuffled b m (m.clearRedo tid) G G :=
      ⟨fun _ _ h => h, fun _ _ _ => Iff.rfl, fun _ _ h _ => h, fun _ h => absurd rfl h, rfl, fun _ _ => rfl⟩
    exact ⟨G', l, h', hh', hclear.trans hre, hmem, hl⟩

end Take

/-! ## §3 — freeing a block -/

/-- From `G` to `G'` the block `x` of bin `b` has been taken back, and only the words it is wiped in have
changed. -/
structure TakenBack (b x : Nat) (m m' : Shm) (G G' : BlockLists) : Prop where
  held : ∀ k y, G'.Held k y ↔ G.Held k y ∧ y ≠ x
  word : ∀ a, m'.word a ≠ m.word a → ∃ k < wipedWords (decide (b < 2)) (binSize b), a = x + 8 * k
  eraCell : m'.eraCell = m.eraCell

section Free

variable {tid : Nat} {m m' : Shm} {G : BlockLists} {b x : Nat} {pg : Nat × Nat}

/-- **`cxl_page_queue(special, size)` finds the bin of a block size.** -/
theorem cxlPageQueue_binSize (hb : b < cxlBinSize) : cxlPageQueue (decide (b < 2)) (binSize b) = b := by
  rcases Nat.lt_or_ge b 2 with hsp | hsp
  · have hcases : b = 0 ∨ b = 1 := by omega
    rcases hcases with rfl | rfl <;> decide
  · have hsize : binSize b = 16 * (b - 1) := by
      unfold binSize
      rw [if_neg (by omega), if_neg (by omega)]
    simp only [cxlBinSize] at hb
    simp only [cxlPageQueue, hsize, decide_eq_true_eq]
    rw [if_neg (by omega), if_neg (by omega)]
    omega

theorem wipedWords_lt (hb2 : b ≠ 2) {k : Nat} (hk : k < wipedWords (decide (b < 2)) (binSize b)) :
    8 * k < binSize b := by
  rcases Nat.lt_or_ge b 2 with hsp | hsp
  · have hcases : b = 0 ∨ b = 1 := by omega
    rcases hcases with rfl | rfl
    · have hk2 : k < 2 := hk
      have hsize : binSize 0 = 16 := rfl
      omega
    · have hk24 : k < 24 := hk
      have hsize : binSize 1 = 192 := rfl
      omega
  · have hlarge := binSize_large (b := b) (by omega)
    have hlocal : ¬ decide (b < 2) = true := by
      rw [decide_eq_true_eq]
      omega
    have hk3 : k < 3 := by
      rw [wipedWords, if_neg hlocal] at hk
      exact hk
    omega

/-- The block goes to the local list. -/
theorem BlocksInv.toLocal_held (h : BlocksInv tid m G) (hx : G.Held b x) {k y : Nat} :
    (G.toLocal x).Held k y ↔ G.Held k y ∧ y ≠ x := by
  rw [(h.toLocal hx).held_iff, h.held_iff, BlockLists.toLocal_listed ⟨b, hx.block.1⟩, not_or]
  exact ⟨fun ⟨hb, hne, hn⟩ => ⟨⟨hb, hn⟩, hne⟩, fun ⟨⟨hb, hn⟩, hne⟩ => ⟨hb, hne, hn⟩⟩

/-- A page without blocks handed out leaves its bin. -/
theorem BlocksInv.release_held (h : BlocksInv tid m G) (hpg : pg ∈ G.pages (.bin b))
    (hz : (m.page pg).used = 0) {L : QueuePtr → List (Nat × Nat)} (hbin : L (.bin b) = (G.pages (.bin b)).erase pg)
    (hbins : ∀ k, k ≠ b → L (.bin k) = G.pages (.bin k)) {k y : Nat} :
    BlockLists.Held { G with pages := L } k y ↔ G.Held k y := by
  have hnd := (h.account.queued.listed (.bin b)).nodup
  have hmem : ∀ k p, p ∈ L (.bin k) ↔ p ∈ G.pages (.bin k) ∧ p ≠ pg := by
    intro k p
    by_cases hkb : k = b
    · subst hkb
      rw [hbin, hnd.mem_erase_iff]
      exact and_comm
    · rw [hbins k hkb]
      refine ⟨fun hp => ⟨hp, ?_⟩, And.left⟩
      rintro rfl
      exact hkb (h.bin_unique hp hpg)
  constructor
  · exact fun hy => ⟨⟨((hmem k _).mp hy.block.1).1, hy.block.2⟩, hy.page, hy.thread⟩
  · intro hy
    refine ⟨⟨(hmem k _).mpr ⟨hy.block.1, fun hp => ?_⟩, hy.block.2⟩, hy.page, hy.thread⟩
    obtain rfl : k = b := h.bin_unique hy.block.1 (hp ▸ hpg)
    have hlisted := h.all_listed hpg hz y (hp ▸ hy.block.2)
    exact hy.page (hp ▸ hlisted)

/-- **`cxl_free` of a block of the client's own returns it to its page.** -/
theorem cxlFree_own (h : BlocksInv tid m G) (hh : ThreadHeads tid m G) (hb2 : b ≠ 2) (hx : G.Held b x) :
    ∃ m' G', cxlFree tid (decide (b < 2)) x m = some m' ∧ BlocksInv tid m' G' ∧ ThreadHeads tid m' G' ∧
      TakenBack b x m m' G G' ∧ ∀ k, G.pages (.bin k) = [] → G'.pages (.bin k) = [] := by
  have hpg := hx.block.1
  have hsize := (h.page b _ hpg).size
  have hown := h.account.header _ (h.account.owned hpg).1
  -- the header is wiped
  have h₁ : BlocksInv tid (m.zeroWords x (wipedWords (decide (b < 2)) (m.page (pageOf x)).blockSize)) G := by
    apply h.words
    intro y hy
    refine Shm.zeroWords_word_of_ne fun k hk => h.held_add_ne hx hy (wipedWords_lt hb2 ?_)
    rwa [hsize] at hk
  have hwiped : ∀ a, (m.zeroWords x (wipedWords (decide (b < 2)) (m.page (pageOf x)).blockSize)).word a ≠
      m.word a → ∃ k < wipedWords (decide (b < 2)) (binSize b), a = x + 8 * k := by
    intro a ha
    by_contra hno
    refine ha (Shm.zeroWords_word_of_ne fun k hk hak => hno ⟨k, ?_, hak⟩)
    rwa [hsize] at hk
  unfold cxlFree
  simp only
  rw [if_pos (show ((m.zeroWords x (wipedWords (decide (b < 2)) (m.page (pageOf x)).blockSize)).segment
    (segmentIdx x)).threadId = tid from hown)]
  have hera : (m.zeroWords x (wipedWords (decide (b < 2)) (m.page (pageOf x)).blockSize)).eraCell =
    m.eraCell := rfl
  have hsas : (m.zeroWords x (wipedWords (decide (b < 2)) (m.page (pageOf x)).blockSize)).sas =
    m.sas := rfl
  generalize m.zeroWords x (wipedWords (decide (b < 2)) (m.page (pageOf x)).blockSize) = m₁ at *
  -- the block is on the local list, and the page perhaps without a block in use
  have h₂ := h₁.toLocal hx
  have hh₂ : ThreadHeads tid (collectBlock x m₁) (G.toLocal x) := by
    intro i hi
    have hsame : (collectBlock x m₁).sas = m.sas := hsas
    rw [hsame] at hi ⊢
    exact hh i hi
  have hword : ∀ a, (collectBlock x m₁).word a ≠ m.word a →
      ∃ k < wipedWords (decide (b < 2)) (binSize b), a = x + 8 * k := by
    intro a ha
    by_cases hax : a = x
    · exact ⟨0, wipedWords_pos .., hax⟩
    · apply hwiped a
      have hsame : (collectBlock x m₁).word a = m₁.word a := Function.update_of_ne hax ..
      rwa [hsame] at ha
  have hheld : ∀ k y, (G.toLocal x).Held k y ↔ G.Held k y ∧ y ≠ x := fun k y => h₁.toLocal_held hx
  have hsize₂ := (h₂.page b _ hpg).size
  unfold freeLocal
  simp only
  split
  case isFalse => exact ⟨_, _, rfl, h₂, hh₂, ⟨hheld, hword, hera⟩, fun _ hk => hk⟩
  case isTrue hz =>
    rw [hsize₂, cxlPageQueue_binSize (h.bin_lt hpg)]
    obtain ⟨m', L, hrun, h₃, hh₃, hbin, hbins, hgiven⟩ := h₂.release hh₂ hpg hz
    refine ⟨m', _, hrun, h₃, hh₃, ⟨?_, ?_, hgiven.eraCell.trans hera⟩, ?_⟩
    · intro k y
      rw [h₂.release_held hpg hz hbin hbins, hheld]
    · intro a ha
      rw [hgiven.word] at ha
      exact hword a ha
    · intro k hk
      have hkb : k ≠ b := by
        rintro rfl
        rw [hk] at hpg
        exact List.not_mem_nil hpg
      exact (hbins k hkb).trans hk

end Free

end CxlShm
