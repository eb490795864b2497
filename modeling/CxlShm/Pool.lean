import CxlShm.AllocRun

/-! # Pool — a client's allocator over whole runs

Whole calls hand blocks out, and the machine is made of them: blocks are taken and freed, other clients free,
and everybody writes what the lists do not need.
-/

namespace CxlShm

open Loop DoublyLinked Transition

/-! ## §1 — handing a block out -/

/-- The lists of a client between two calls; the blocks of bin 2 would be shorter than a header. -/
structure Pool (tid : Nat) (m : Shm) (G : BlockLists) : Prop where
  inv : BlocksInv tid m G
  heads : ThreadHeads tid m G
  small : G.pages (.bin 2) = []

/-- From `G` to `G'` the block `x` of bin `b` has been handed out; the words that have changed are header
words of listed blocks and of those in `S`. -/
structure HandedOut (b x : Nat) (S : List Nat) (m m' : Shm) (G G' : BlockLists) : Prop where
  block : ∀ k y, G.Block k y → G'.Block k y
  held : ∀ k y, G'.Held k y ↔ G.Held k y ∨ k = b ∧ y = x
  fresh : ∀ k, ¬ G.Held k x
  word : ∀ a, m'.word a ≠ m.word a →
    ∃ k y d, G'.Block k y ∧ (G'.Listed y ∨ y ∈ S) ∧ a = y + d ∧ d < sizeofCxlObj ∧ d < binSize k
  bins : ∀ k, k ≠ b → G'.pages (.bin k) = G.pages (.bin k)

section HandOut

variable {tid size fuel : Nat} {m m' : Shm} {G G' : BlockLists} {b x : Nat} {pg : Nat × Nat}

/-- Blocks lie apart. -/
theorem BlocksInv.block_inj (h : BlocksInv tid m G) {b' y d e : Nat} (hx : G.Block b x)
    (hy : G.Block b' y) (hd : d < binSize b) (he : e < binSize b') (heq : x + d = y + e) : x = y := by
  rcases Nat.lt_trichotomy x y with hlt | hxy | hlt
  · exact absurd (show x + (d - e) = y by omega) (h.block_add_ne hx hy (by omega) (by omega))
  · exact hxy
  · exact absurd (show y + (e - d) = x by omega) (h.block_add_ne hy hx (by omega) (by omega))

theorem Reshuffled.held_iff (h : Reshuffled b m m' G G') (hinv : BlocksInv tid m G)
    (hinv' : BlocksInv tid m' G') {k y : Nat} : G'.Held k y ↔ G.Held k y := by
  refine ⟨fun hy => ?_, h.held hinv hinv'⟩
  obtain ⟨hb, hn⟩ := hinv'.held_iff.mp hy
  have hb' := h.fresh k y hb hn
  exact hinv.held_iff.mpr ⟨hb', fun hl => hn ((h.listed k y hb').mpr hl)⟩

/-- Stores to words that link no list. -/
theorem Pool.touch (h : Pool tid m G) (hseg : m'.segment = m.segment) (htls : m'.tls = m.tls)
    (hsas : m'.sas = m.sas) (hw : ∀ y, G.Listed y → m'.word y = m.word y) : Pool tid m' G := by
  have hpage : ∀ pg, m'.page pg = m.page pg := fun pg => by rw [Shm.page, Shm.page, hseg]
  have hacc : AccountInv tid m' G.pages none := by
    refine h.inv.account.congr (fun q => ?_) (fun _ y _ => by rw [hpage]) (fun _ y _ => by rw [hpage])
      (fun y _ => by rw [hpage]; exact ⟨rfl, rfl⟩) (fun i _ => by rw [hseg]; exact ⟨rfl, rfl⟩)
      (fun i => by rw [hsas]) (fun i hi => ?_)
    · rw [Shm.queue, Shm.queue, htls]
    · rw [hsas] at hi
      rw [hseg]
      exact h.inv.account.claimable i hi
  refine ⟨h.inv.congr hacc (fun _ y _ => by rw [hpage]) (fun i => by rw [hsas]) hw, ?_, h.small⟩
  intro i hi
  rw [hsas] at hi ⊢
  exact h.heads i hi

theorem BlocksInv.pop_listed (h : BlocksInv tid m G) (hpg : pg ∈ G.pages (.bin b)) {l : List Nat}
    (hF : G.free pg = x :: l) {y : Nat} : (G.pop pg).Listed y ↔ G.Listed y ∧ y ≠ x := by
  obtain ⟨hpop, hheld⟩ := h.pop hpg hF
  have hxl := (hpop.held_iff.mp hheld).2
  have hself : ∀ y, y ∈ G.onPage pg ↔ y = x ∨ y ∈ (G.pop pg).onPage pg := by
    intro y
    simp [BlockLists.onPage, BlockLists.pop, hF]
  have hother : ∀ p, p ≠ pg → (G.pop pg).onPage p = G.onPage p := by
    intro p hp
    simp [BlockLists.onPage, BlockLists.pop, hp]
  constructor
  · intro hy
    refine ⟨?_, fun he => hxl (he ▸ hy)⟩
    rcases hy with ⟨k, p, hp, hyp⟩ | ⟨i, hy⟩
    · left
      refine ⟨k, p, hp, ?_⟩
      by_cases hpp : p = pg
      · subst hpp
        exact (hself y).mpr (Or.inr hyp)
      · rwa [hother p hpp] at hyp
    · exact Or.inr ⟨i, hy⟩
  · rintro ⟨⟨k, p, hp, hyp⟩ | ⟨i, hy⟩, hne⟩
    · left
      refine ⟨k, p, hp, ?_⟩
      by_cases hpp : p = pg
      · subst hpp
        exact ((hself y).mp hyp).resolve_left hne
      · rwa [hother p hpp]
    · exact Or.inr ⟨i, hy⟩

/-- The head of a free list comes off it. -/
theorem Pool.pop (h : Pool tid m G) (hpg : pg ∈ G.pages (.bin b)) {l : List Nat}
    (hF : G.free pg = x :: l) : Pool tid (popBlock x pg m) (G.pop pg) ∧
      HandedOut b x [] m (popBlock x pg m) G (G.pop pg) := by
  obtain ⟨hpop, hheld⟩ := h.inv.pop hpg hF
  have hlisted : G.Listed x := Or.inl ⟨b, pg, hpg, List.mem_append_left _ (by rw [hF]; exact List.mem_cons_self)⟩
  refine ⟨⟨hpop, h.heads, h.small⟩, fun k y hy => hy, ?_, ?_, fun _ ha => absurd rfl ha, fun _ _ => rfl⟩
  · intro k y
    rw [hpop.held_iff, h.inv.held_iff, h.inv.pop_listed hpg hF]
    constructor
    · rintro ⟨hb, hn⟩
      by_cases hyx : y = x
      · subst hyx
        exact Or.inr ⟨h.inv.bin_unique hb.1 hheld.block.1, rfl⟩
      · exact Or.inl ⟨hb, fun hl => hn ⟨hl, hyx⟩⟩
    · rintro (⟨hb, hn⟩ | ⟨rfl, rfl⟩)
      · exact ⟨hb, fun hl => hn hl.1⟩
      · exact ⟨hheld.block, fun hl => hl.2 rfl⟩
  · exact fun k hk => (h.inv.held_iff.mp hk).2 hlisted

/-- **A block is found, taken off its list and written to.** -/
theorem Pool.handOut {m₁ : Shm} {G₁ : BlockLists} (hinv : BlocksInv tid m G) (h : Pool tid m₁ G₁)
    (hre : Reshuffled b m m₁ G G₁) (hpg : pg ∈ G₁.pages (.bin b)) {l : List Nat} (hF : G₁.free pg = x :: l)
    {S : List Nat} (hS : x ∈ S) (hseg : m'.segment = (popBlock x pg m₁).segment) (htls : m'.tls = m₁.tls)
    (hsas : m'.sas = m₁.sas) (hw : ∀ a, m'.word a ≠ m₁.word a →
      ∃ k y d, (G₁.pop pg).Held k y ∧ y ∈ S ∧ a = y + d ∧ d < sizeofCxlObj ∧ d < binSize k) :
    Pool tid m' (G₁.pop pg) ∧ HandedOut b x S m m' G (G₁.pop pg) := by
  obtain ⟨hpop, hout⟩ := h.pop hpg hF
  have hkeep : ∀ y, (G₁.pop pg).Listed y → m'.word y = m₁.word y := by
    intro y hy
    by_contra hne
    obtain ⟨k, y', d, hheld, -, hyd, -, hd⟩ := hw y hne
    exact hpop.inv.held_add_ne hheld hy hd hyd
  refine ⟨hpop.touch hseg htls hsas hkeep, fun k y hy => hout.block k y (hre.block k y hy), ?_, ?_, ?_,
    hre.bins⟩
  · intro k y
    rw [hout.held, hre.held_iff hinv h.inv]
  · exact fun k hk => hout.fresh k ((hre.held_iff hinv h.inv).mpr hk)
  · intro a ha
    by_cases hsame : m'.word a = m₁.word a
    · rw [hsame] at ha
      obtain ⟨k, y, d, hblock, hl, had, hd⟩ := hre.word a ha
      by_cases hyx : y = x
      · exact ⟨k, y, d, hout.block k y hblock, Or.inr (hyx ▸ hS), had, hd⟩
      · refine ⟨k, y, d, hout.block k y hblock, Or.inl ?_, had, hd⟩
        exact (h.inv.pop_listed hpg hF).mpr ⟨hl, hyx⟩
    · obtain ⟨k, y, d, hheld, hy, had, hd⟩ := hw a hsame
      exact ⟨k, y, d, hheld.block, Or.inr hy, had, hd⟩

theorem Pool.pageMalloc (h : Pool tid m G) (hb : b < cxlBinSize) (hb2 : b ≠ 2)
    (hrun : cxlPageMalloc fuel tid size (.bin b) (cxlFindPage tid (.bin b) m) m = some (x, pg, m')) :
    ∃ G' l, Pool tid m' G' ∧ Reshuffled b m m' G G' ∧ pg ∈ G'.pages (.bin b) ∧ G'.free pg = x :: l := by
  obtain ⟨G', l, h', hh', hre, hpg, hF⟩ := cxlPageMalloc_some h.inv h.heads hb hb2 hrun
  exact ⟨G', l, ⟨h', hh', (hre.bins 2 (Ne.symm hb2)).trans h.small⟩, hre, hpg, hF⟩

theorem blockToTbr_word (m : Shm) (a : Nat) (h₀ : a ≠ x) (h₁ : a ≠ x + 8) :
    (blockToTbr x pg m).word a = m.word a := by
  simp [blockToTbr, Shm.setRootRefCnt, Shm.setInUse, popBlock, Shm.setPage, h₀, h₁]

/-- What `block_to_tbr` leaves in the block. -/
structure EmptyRootRef (m : Shm) (x : Nat) : Prop where
  pptr : m.word x = 0
  inUse : m.inUse x = 1
  refCnt : m.rootRefCnt x = 0

theorem blockToTbr_empty (m : Shm) : EmptyRootRef (blockToTbr x pg m) x := by
  -- the second word: `in_use` is set first, then `ref_cnt` above it is cleared
  have hsecond : ∃ w, (blockToTbr x pg m).word (x + 8) =
      (w / 2 ^ 8 * 2 ^ 8 + 1) / 2 ^ 32 * 2 ^ 32 + 0 * 2 ^ 16 + (w / 2 ^ 8 * 2 ^ 8 + 1) % 2 ^ 16 := by
    refine ⟨m.word (x + 8), ?_⟩
    simp [blockToTbr, Shm.setRootRefCnt, Shm.setInUse, popBlock, Shm.setPage]
  obtain ⟨w, hw⟩ := hsecond
  refine ⟨?_, ?_, ?_⟩
  · simp [blockToTbr, Shm.setRootRefCnt, Shm.setInUse]
  · rw [Shm.inUse, hw]
    omega
  · rw [Shm.rootRefCnt, hw]
    omega

/-- The block found on bin 0 becomes a RootRef. -/
theorem Pool.rootRef_of {m₁ : Shm} {G₁ : BlockLists} (h : Pool tid m G) (h₁ : Pool tid m₁ G₁)
    (hre : Reshuffled 0 m m₁ G G₁) (hpg : pg ∈ G₁.pages (.bin 0)) {l : List Nat} (hF : G₁.free pg = x :: l) :
    Pool tid (blockToTbr x pg m₁) (G₁.pop pg) ∧
      HandedOut 0 x [x] m (blockToTbr x pg m₁) G (G₁.pop pg) := by
  have hheld := (h₁.inv.pop hpg hF).2
  refine Pool.handOut h.inv h₁ hre hpg hF List.mem_cons_self rfl rfl rfl ?_
  intro a ha
  by_cases h₀ : a = x
  · exact ⟨0, x, 0, hheld, List.mem_cons_self, h₀, by decide, by decide⟩
  · by_cases h₈ : a = x + 8
    · exact ⟨0, x, 8, hheld, List.mem_cons_self, h₈, by decide, by decide⟩
    · exact absurd (blockToTbr_word m₁ a h₀ h₈) ha

/-- **`thread_base_ref_alloc`** hands out a block of bin 0. -/
theorem Pool.threadBaseRefAlloc (h : Pool tid m G)
    (hrun : threadBaseRefAlloc fuel tid size m = some (x, m')) :
    ∃ G', Pool tid m' G' ∧ HandedOut 0 x [x] m m' G G' ∧ EmptyRootRef m' x ∧ m'.eraCell = m.eraCell := by
  simp only [CxlShm.threadBaseRefAlloc, Option.bind_eq_bind, Option.bind_eq_some_iff] at hrun
  obtain ⟨⟨y, pg, m₁⟩, hrun, hres⟩ := hrun
  simp only [Option.some.injEq, Prod.mk.injEq] at hres
  obtain ⟨rfl, rfl⟩ := hres
  obtain ⟨G₁, l, h₁, hre, hpg, hF⟩ := h.pageMalloc (b := 0) (by decide) (by decide) hrun
  obtain ⟨h', hout⟩ := h.rootRef_of h₁ hre hpg hF
  exact ⟨_, h', hout, blockToTbr_empty m₁, hre.eraCell⟩

/-- What is handed out is not written to while a block is looked for. -/
theorem Reshuffled.held_word (h : Reshuffled b m m' G G') (hinv : BlocksInv tid m G)
    (hinv' : BlocksInv tid m' G') {k : Nat} (hx : G.Held k x) {d : Nat} (hd : d < binSize k) :
    m'.word (x + d) = m.word (x + d) := by
  by_contra hne
  obtain ⟨l, y, e, hy, hl, heq, -, he⟩ := h.word _ hne
  have hx' := h.held hinv hinv' hx
  obtain rfl : x = y := hinv'.block_inj hx'.block hy hd he heq
  exact (hinv'.held_iff.mp hx').2 hl

/-- The stores of `link_block_to_tbr` and `block_to_cxlobj`; of the second word of the RootRef only the count
changes. -/
theorem objectMade_words (tid n : Nat) (m : Shm) (ref : Nat) :
    (blockToCxlobj tid x pg n (linkBlockToTbr x ref m)).word =
      Function.update (Function.update (Function.update (Function.update m.word ref x) (ref + 8)
        (m.word (ref + 8) / 2 ^ 32 * 2 ^ 32 + (m.rootRefCnt ref + 1) % 2 ^ 16 * 2 ^ 16 +
          m.word (ref + 8) % 2 ^ 16)) (x + 8) (packRefInfo tid 1 (m.era tid tid))) (x + 16) n := by
  have hsecond : (m.store ref x).word (ref + 8) = m.word (ref + 8) := Function.update_of_ne (by omega) ..
  unfold blockToCxlobj linkBlockToTbr Shm.setRootRefCnt Shm.rootRefCnt
  simp only [hsecond]
  rfl

theorem objectMade_word (tid n : Nat) (m : Shm) {ref a : Nat} (ha : a ∉ [ref, ref + 8, x + 8, x + 16]) :
    (blockToCxlobj tid x pg n (linkBlockToTbr x ref m)).word a = m.word a := by
  simp only [List.mem_cons, List.not_mem_nil, or_false, not_or] at ha
  obtain ⟨h₀, h₁, h₂, h₃⟩ := ha
  rw [objectMade_words, Function.update_of_ne h₃, Function.update_of_ne h₂, Function.update_of_ne h₁,
    Function.update_of_ne h₀]

/-- The RootRef at `ref` refers to a new object at `x` with `n` embedded references. -/
structure ObjectMade (tid x n ref : Nat) (m m' : Shm) : Prop where
  pptr : m'.word ref = x
  inUse : m'.inUse ref = m.inUse ref
  refCnt : m'.rootRefCnt ref = (m.rootRefCnt ref + 1) % 2 ^ 16
  info : m'.refInfo x = packRefInfo tid 1 (m.era tid tid)
  embedded : m'.word (x + 16) = n
  era : m'.eraCell = (m.storeEra tid tid ((m.era tid tid + 1) % 2 ^ 32)).eraCell

theorem objectMade (tid n : Nat) (m : Shm) {ref : Nat} (h₀ : ref ≠ x + 8) (h₁ : ref ≠ x + 16)
    (h₂ : ref + 8 ≠ x + 8) (h₃ : ref + 8 ≠ x + 16) :
    ObjectMade tid x n ref m (blockToCxlobj tid x pg n (linkBlockToTbr x ref m)) := by
  have hsecond : (blockToCxlobj tid x pg n (linkBlockToTbr x ref m)).word (ref + 8) =
      m.word (ref + 8) / 2 ^ 32 * 2 ^ 32 + (m.rootRefCnt ref + 1) % 2 ^ 16 * 2 ^ 16 +
        m.word (ref + 8) % 2 ^ 16 := by
    rw [objectMade_words, Function.update_of_ne h₃, Function.update_of_ne h₂, Function.update_self]
  refine ⟨?_, ?_, ?_, ?_, ?_, rfl⟩
  · rw [objectMade_words, Function.update_of_ne h₁, Function.update_of_ne h₀,
      Function.update_of_ne (by omega), Function.update_self]
  · rw [Shm.inUse, Shm.inUse, hsecond]
    omega
  · rw [Shm.rootRefCnt, hsecond]
    omega
  · rw [Shm.refInfo, objectMade_words, Function.update_of_ne (by omega), Function.update_self]
  · rw [objectMade_words, Function.update_self]

/-- The block found on a bin becomes an object, and the RootRef refers to it. -/
theorem Pool.object_of {m₁ : Shm} {G₁ : BlockLists} (h : Pool tid m G) (h₁ : Pool tid m₁ G₁) (hlarge : 3 ≤ b)
    (hre : Reshuffled b m m₁ G G₁) (hpg : pg ∈ G₁.pages (.bin b)) {l : List Nat} (hF : G₁.free pg = x :: l)
    {ref : Nat} (href : G.Held 0 ref) (n : Nat) :
    (Pool tid (blockToCxlobj tid x pg n (linkBlockToTbr x ref m₁)) (G₁.pop pg) ∧
      HandedOut b x [ref, x] m (blockToCxlobj tid x pg n (linkBlockToTbr x ref m₁)) G (G₁.pop pg)) ∧
      ObjectMade tid x n ref m (blockToCxlobj tid x pg n (linkBlockToTbr x ref m₁)) := by
  have hsize := binSize_large hlarge
  have href₁ := hre.held h.inv h₁.inv href
  obtain ⟨hpop, hout⟩ := h₁.pop hpg hF
  have href' : (G₁.pop pg).Held 0 ref := (hout.held 0 ref).mpr (Or.inl href₁)
  have hx' : (G₁.pop pg).Held b x := (hout.held b x).mpr (Or.inr ⟨rfl, rfl⟩)
  have hapart : ∀ d e, d < 16 → e < binSize b → ref + d ≠ x + e := by
    rintro d e hd he heq
    obtain rfl : ref = x := hpop.inv.block_inj href'.block hx'.block hd he heq
    exact hout.fresh 0 href₁
  have hsame : ∀ d, d < 16 → m₁.word (ref + d) = m.word (ref + d) := fun d hd =>
    hre.held_word h.inv h₁.inv href hd
  have hwords : ∀ a, (blockToCxlobj tid x pg n (linkBlockToTbr x ref m₁)).word a ≠ m₁.word a →
      ∃ k z d, (G₁.pop pg).Held k z ∧ z ∈ [ref, x] ∧ a = z + d ∧ d < sizeofCxlObj ∧ d < binSize k := by
    intro a ha
    have hmem : a ∈ [ref, ref + 8, x + 8, x + 16] := by
      by_contra hno
      exact ha (objectMade_word tid n m₁ hno)
    simp only [List.mem_cons, List.not_mem_nil, or_false] at hmem
    rcases hmem with rfl | rfl | rfl | rfl
    · exact ⟨0, a, 0, href', by simp, rfl, by decide, by decide⟩
    · exact ⟨0, ref, 8, href', by simp, rfl, by decide, by decide⟩
    · exact ⟨b, x, 8, hx', by simp, rfl, by decide, by omega⟩
    · exact ⟨b, x, 16, hx', by simp, rfl, by decide, by omega⟩
  have hseg : (blockToCxlobj tid x pg n (linkBlockToTbr x ref m₁)).segment = (popBlock x pg m₁).segment := by
    have hx₀ : x ≠ ref := fun he => hapart 0 0 (by decide) (by omega) he.symm
    have hx₈ : x ≠ ref + 8 := fun he => hapart 8 0 (by decide) (by omega) he.symm
    simp [blockToCxlobj, linkBlockToTbr, Shm.setRootRefCnt, popBlock, Shm.setPage, Shm.storeEra, hx₀, hx₈,
      Shm.store, Shm.page]
  have hmade : ObjectMade tid x n ref m₁ (blockToCxlobj tid x pg n (linkBlockToTbr x ref m₁)) :=
    objectMade tid n m₁ (hapart 0 8 (by decide) (by omega)) (hapart 0 16 (by decide) (by omega))
      (hapart 8 8 (by decide) (by omega)) (hapart 8 16 (by decide) (by omega))
  have hera : m₁.era tid tid = m.era tid tid := congrFun hre.eraCell _
  refine ⟨Pool.handOut h.inv h₁ hre hpg hF (by simp) hseg rfl rfl hwords, hmade.pptr, ?_, ?_, ?_,
    hmade.embedded, ?_⟩
  · rw [hmade.inUse, Shm.inUse, Shm.inUse, hsame 8 (by decide)]
  · rw [hmade.refCnt, Shm.rootRefCnt, Shm.rootRefCnt, hsame 8 (by decide)]
  · rw [hmade.info, hera]
  · rw [hmade.era, hera]
    simp only [Shm.storeEra, hre.eraCell]

/-- **`cxl_ref_alloc`** hands out a block of the bin of the size and links the RootRef to it. -/
theorem Pool.cxlRefAlloc (h : Pool tid m G) {ref blockSize n : Nat} {r : CxlRef} (href : G.Held 0 ref)
    (hlarge : 3 ≤ cxlPageQueue false blockSize)
    (hrun : cxlRefAlloc fuel tid size ref blockSize n m = some (r, m')) :
    ∃ G' x, Pool tid m' G' ∧ cxlPageQueue false blockSize < cxlBinSize ∧ r = ⟨ref, x + sizeofCxlObj⟩ ∧
      HandedOut (cxlPageQueue false blockSize) x [ref, x] m m' G G' ∧ ObjectMade tid x n ref m m' := by
  simp only [CxlShm.cxlRefAlloc] at hrun
  split at hrun
  case isFalse => cases hrun
  case isTrue hb =>
    generalize cxlPageQueue false blockSize = b at *
    simp only [Option.bind_eq_bind, Option.bind_eq_some_iff] at hrun
    obtain ⟨⟨x, pg, m₁⟩, hrun, hres⟩ := hrun
    simp only [Option.some.injEq, Prod.mk.injEq] at hres
    obtain ⟨rfl, rfl⟩ := hres
    obtain ⟨G₁, l, h₁, hre, hpg, hF⟩ := h.pageMalloc hb (by omega) hrun
    obtain ⟨⟨h', hout⟩, hmade⟩ := h.object_of h₁ hlarge hre hpg hF href n
    exact ⟨_, x, h', hb, rfl, hout, hmade⟩

/-- What was on a list still is, but for the block handed out. -/
theorem HandedOut.stays {S : List Nat} (h : HandedOut b x S m m' G G') (hinv : BlocksInv tid m G)
    (hinv' : BlocksInv tid m' G') {k y : Nat} (hy : G.Block k y) (hl : G.Listed y) :
    G'.Listed y ∨ y = x := by
  by_cases hl' : G'.Listed y
  · exact Or.inl hl'
  · rcases (h.held k y).mp (hinv'.held_iff.mpr ⟨h.block k y hy, hl'⟩) with hheld | ⟨-, hyx⟩
    · exact absurd hl (hinv.held_iff.mp hheld).2
    · exact Or.inr hyx

theorem cxlPageQueue_object {dataSize : Nat} (hfits : dataSize + sizeofCxlObj < 2 ^ 64) :
    cxlPageQueue false ((dataSize + sizeofCxlObj) % 2 ^ 64) = (dataSize + 23) / 16 + 2 := by
  rw [Nat.mod_eq_of_lt hfits]
  simp only [cxlPageQueue, Bool.false_eq_true, false_and, if_false, sizeofCxlObj] at hfits ⊢
  omega

/-- From `G` to `G'` a RootRef `t` and an object `x` of bin `b` with `n` embedded references have been handed
out, and the RootRef refers to the object. -/
structure Malloced (tid b t x n : Nat) (m m' : Shm) (G G' : BlockLists) : Prop where
  block : ∀ k y, G.Block k y → G'.Block k y
  held : ∀ k y, G'.Held k y ↔ (G.Held k y ∨ k = 0 ∧ y = t) ∨ k = b ∧ y = x
  freshRef : ∀ k, ¬ G.Held k t
  freshObj : ∀ k, ¬ G.Held k x
  word : ∀ a, m'.word a ≠ m.word a →
    ∃ k y d, G'.Block k y ∧ (G'.Listed y ∨ y ∈ [t, x]) ∧ a = y + d ∧ d < sizeofCxlObj ∧ d < binSize k
  pptr : m'.word t = x
  inUse : m'.inUse t = 1
  refCnt : m'.rootRefCnt t = 1
  info : m'.refInfo x = packRefInfo tid 1 (m.era tid tid)
  embedded : m'.word (x + 16) = n

/-- **`cxl_malloc`.** -/
theorem Pool.cxlMalloc (h : Pool tid m G) {dataSize n : Nat} {r : CxlRef}
    (hfits : dataSize + sizeofCxlObj < 2 ^ 64)
    (hrun : cxlMalloc fuel tid size dataSize n m = some (r, m')) :
    ∃ G' t x b, Pool tid m' G' ∧ b = (dataSize + 23) / 16 + 2 ∧ b < cxlBinSize ∧
      r = ⟨t, x + sizeofCxlObj⟩ ∧ Malloced tid b t x n m m' G G' := by
  simp only [CxlShm.cxlMalloc, Option.bind_eq_bind, Option.bind_eq_some_iff] at hrun
  obtain ⟨⟨t, m₁⟩, href, hobj⟩ := hrun
  obtain ⟨G₁, h₁, hout, hempty, hera⟩ := h.threadBaseRefAlloc href
  have ht : G₁.Held 0 t := (hout.held 0 t).mpr (Or.inr ⟨rfl, rfl⟩)
  have hbin := cxlPageQueue_object hfits
  have hlarge : 3 ≤ cxlPageQueue false ((dataSize + sizeofCxlObj) % 2 ^ 64) := by
    rw [hbin]
    omega
  obtain ⟨G', x, h', hb, rfl, hout', hmade⟩ := h₁.cxlRefAlloc ht hlarge hobj
  rw [hbin] at hb hout'
  refine ⟨G', t, x, _, h', rfl, hb, rfl, fun k y hy => hout'.block k y (hout.block k y hy), ?_, hout.fresh,
    ?_, ?_, hmade.pptr, ?_, ?_, ?_, hmade.embedded⟩
  · intro k y
    rw [hout'.held, hout.held]
  · exact fun k hk => hout'.fresh k ((hout.held k x).mpr (Or.inl hk))
  · intro a ha
    by_cases hsame : m'.word a = m₁.word a
    · rw [hsame] at ha
      obtain ⟨k, y, d, hy, hl, had, hd, hdk⟩ := hout.word a ha
      refine ⟨k, y, d, hout'.block k y hy, ?_, had, hd, hdk⟩
      rcases hl with hl | hl
      · exact (hout'.stays h₁.inv h'.inv hy hl).imp_right fun hyx => by simp [hyx]
      · exact Or.inr (by simpa using Or.inl hl)
    · obtain ⟨k, y, d, hy, hl, hrest⟩ := hout'.word a hsame
      exact ⟨k, y, d, hy, hl, hrest⟩
  · rw [hmade.inUse, hempty.inUse]
  · rw [hmade.refCnt, hempty.refCnt]
    rfl
  · rw [hmade.info]
    exact congrArg (packRefInfo tid 1) (congrFun hera _)

/-- **`msg_queue_alloc`** hands out a block of bin 1. -/
theorem Pool.msgQueueAlloc (h : Pool tid m G) {senderId : Nat}
    (hrun : msgQueueAlloc fuel tid size senderId m = some (x, m')) :
    ∃ G', Pool tid m' G' ∧ G'.Held 1 x := by
  simp only [CxlShm.msgQueueAlloc, Option.bind_eq_bind, Option.bind_eq_some_iff] at hrun
  obtain ⟨⟨y, pg, m₁⟩, hrun, hres⟩ := hrun
  simp only [Option.some.injEq, Prod.mk.injEq] at hres
  obtain ⟨rfl, rfl⟩ := hres
  obtain ⟨G₁, l, h₁, -, hpg, hF⟩ := h.pageMalloc (b := 1) (by decide) (by decide) hrun
  obtain ⟨hpop, -⟩ := h₁.pop hpg hF
  have hheld := (h₁.inv.pop hpg hF).2
  have hpage : pageOf y = pg := h₁.inv.page_eq hpg (List.mem_append_left _ (by rw [hF]; exact List.mem_cons_self))
  refine ⟨_, show Pool tid (blockToMsgQueue y senderId m₁) _ from hpop.touch ?_ rfl rfl ?_, hheld⟩
  · rw [← hpage]
    rfl
  · intro z hz
    -- the words of the queue are those of the block
    have hne : ∀ d, d < 192 → z ≠ y + d := fun d hd => hpop.inv.held_add_ne hheld hz hd
    have hzy : z ≠ y := hne 0 (by decide)
    have hids : ∀ m' : Shm, m'.word z = m₁.word z →
        ((m'.setSenderId y senderId).setReceiverId y 0).word z = m₁.word z := by
      intro m' hsame
      simp [Shm.setReceiverId, Shm.setSenderId, hne 16 (by decide), hsame]
    unfold blockToMsgQueue
    simp only
    rw [Shm.zeroWords_word_of_ne, Shm.store_word, Function.update_of_ne (hne 8 (by decide)), Shm.store_word,
      Function.update_of_ne hzy,
      hids (popBlock y (pageOf y) m₁) rfl]
    · rfl
    · intro k hk
      simp only [messageBufferSize] at hk
      rw [Nat.add_assoc]
      exact hne _ (by omega)

end HandOut

/-! ## §2 — the machine -/

/-- The block is on the list with that head. -/
def OnList (m : Shm) (head x : Nat) : Prop := ∃ l, Chained (blockNext m) (linkPtr head) l ∧ x ∈ l

/-- The block is on a list of the client: one of a page on its bins, or one others have filled. -/
def FreeBlock (tid : Nat) (m : Shm) (x : Nat) : Prop :=
  (∃ b pg, OnQueue tid m (.bin b) pg ∧ (OnList m (m.page pg).free x ∨ OnList m (m.page pg).localFree x)) ∨
    ∃ i, (m.sas i).threadId = tid ∧ OnList m (m.sas i).threadFree x

/-- The block is one of a page on bin `b` of the client, and handed out. -/
def HeldBlock (tid : Nat) (m : Shm) (b x : Nat) : Prop :=
  OnQueue tid m (.bin b) (pageOf x) ∧ x ∈ pageBlocks (pageOf x) (m.page (pageOf x)).blockSize ∧
    ¬ FreeBlock tid m x

/-- What is done with blocks handed out, and what the other clients do: the queues, pages and segments of
`tid` and the links in its free blocks stay, and a segment given back is wiped. -/
structure UseFrame (tid : Nat) (m m' : Shm) : Prop where
  queue : ∀ q, m'.queue tid q = m.queue tid q
  owner : ∀ i, (m'.sas i).threadId = tid ↔ (m.sas i).threadId = tid
  threadFree : ∀ i, (m.sas i).threadId = tid → (m'.sas i).threadFree = (m.sas i).threadFree
  segment : ∀ i, (m.sas i).threadId = tid → m'.segment i = m.segment i
  claimable : ∀ i, (m'.sas i).threadId = 0 → m'.segment i = Segment.zero
  word : ∀ x, FreeBlock tid m x → m'.word x = m.word x

/-- A step of client `tid` in an area of `size` bytes. `remote` is the push of a block another client
frees. -/
inductive PoolStep (tid size : Nat) : Shm → Shm → Prop
  | malloc {m m' : Shm} (fuel dataSize n : Nat) (r : CxlRef) (hfits : dataSize + sizeofCxlObj < 2 ^ 64)
      (hrun : cxlMalloc fuel tid size dataSize n m = some (r, m')) : PoolStep tid size m m'
  | rootRef {m m' : Shm} (fuel tbr : Nat) (hrun : threadBaseRefAlloc fuel tid size m = some (tbr, m')) :
      PoolStep tid size m m'
  | msgQueue {m m' : Shm} (fuel senderId q : Nat)
      (hrun : msgQueueAlloc fuel tid size senderId m = some (q, m')) : PoolStep tid size m m'
  | free {m m' : Shm} (b x : Nat) (hx : HeldBlock tid m b x)
      (hrun : cxlFree tid (decide (b < 2)) x m = some m') : PoolStep tid size m m'
  | remote {m : Shm} (b x : Nat) (hx : HeldBlock tid m b x) :
      PoolStep tid size m (m.pushThreadFree (segmentIdx x) x)
  | use {m m' : Shm} (h : UseFrame tid m m') : PoolStep tid size m m'

/-- The states of a client whose id has not been used before. -/
def PoolReach (tid size : Nat) : Shm → Prop := Reach (PageInit tid) (PoolStep tid size) fun _ => True

section Machine

variable {tid size : Nat} {m m' : Shm} {G : BlockLists} {b x : Nat}

theorem Pool.onQueue_iff (h : Pool tid m G) {q : QueuePtr} {pg : Nat × Nat} :
    OnQueue tid m q pg ↔ pg ∈ G.pages q := h.inv.account.onQueue_iff

theorem onList_iff {head : Nat} {l : List Nat} (h : Chained (blockNext m) (linkPtr head) l) :
    OnList m head x ↔ x ∈ l := by
  constructor
  · rintro ⟨l', hl', hx⟩
    rwa [chained_unique h hl']
  · exact fun hx => ⟨l, h, hx⟩

theorem Pool.freeBlock_iff (h : Pool tid m G) : FreeBlock tid m x ↔ G.Listed x := by
  have hpage : ∀ b pg, pg ∈ G.pages (.bin b) →
      (OnList m (m.page pg).free x ∨ OnList m (m.page pg).localFree x ↔ x ∈ G.onPage pg) := by
    intro b pg hpg
    have hok := h.inv.page b pg hpg
    rw [onList_iff hok.free, onList_iff hok.localFree, BlockLists.onPage, List.mem_append]
  have hseg : ∀ i, (m.sas i).threadId = tid → (OnList m (m.sas i).threadFree x ↔ x ∈ G.threadFree i) := by
    intro i hi
    apply onList_iff
    rw [h.heads i hi]
    exact (h.inv.segment i).chain
  constructor
  · rintro (⟨b, pg, hpg, hl⟩ | ⟨i, hi, hl⟩)
    · have hpg' := h.onQueue_iff.mp hpg
      exact Or.inl ⟨b, pg, hpg', (hpage b pg hpg').mp hl⟩
    · exact Or.inr ⟨i, (hseg i hi).mp hl⟩
  · rintro (⟨b, pg, hpg, hl⟩ | ⟨i, hl⟩)
    · exact Or.inl ⟨b, pg, h.onQueue_iff.mpr hpg, (hpage b pg hpg).mpr hl⟩
    · have hi : (m.sas i).threadId = tid := by
        by_contra hne
        rw [h.inv.unowned i hne] at hl
        exact List.not_mem_nil hl
      exact Or.inr ⟨i, hi, (hseg i hi).mpr hl⟩

theorem Pool.heldBlock_iff (h : Pool tid m G) : HeldBlock tid m b x ↔ G.Held b x := by
  rw [HeldBlock, h.freeBlock_iff, h.onQueue_iff, h.inv.held_iff, BlockLists.Block, and_assoc]
  constructor
  · rintro ⟨hpg, hx, hl⟩
    rw [(h.inv.page b _ hpg).size] at hx
    exact ⟨hpg, hx, hl⟩
  · rintro ⟨hpg, hx, hl⟩
    rw [(h.inv.page b _ hpg).size]
    exact ⟨hpg, hx, hl⟩

/-- What is done with blocks handed out keeps the lists. -/
theorem Pool.use (h : Pool tid m G) (hf : UseFrame tid m m') : Pool tid m' G := by
  have hpage : ∀ q, ∀ y ∈ G.pages q, m'.page y = m.page y := fun q y hy => by
    rw [Shm.page, Shm.page, hf.segment _ (h.inv.account.owned hy).1]
  have hacc : AccountInv tid m' G.pages none :=
    h.inv.account.congr hf.queue (fun q y hy => by rw [hpage q y hy]) (fun q y hy => by rw [hpage q y hy])
      (fun y hy => by rw [hpage _ y hy]; exact ⟨rfl, rfl⟩)
      (fun i hi => by rw [hf.segment i hi]; exact ⟨rfl, rfl⟩) hf.owner hf.claimable
  refine ⟨h.inv.congr hacc (fun b y hy => by rw [hpage _ y hy]) hf.owner ?_, ?_, h.small⟩
  · exact fun y hy => hf.word y (h.freeBlock_iff.mpr hy)
  · intro i hi
    have hi' := (hf.owner i).mp hi
    rw [hf.threadFree i hi']
    exact h.heads i hi'

theorem Pool.init (h : PageInit tid m) : Pool tid m ⟨fun _ => [], fun _ => [], fun _ => [], fun _ => []⟩ := by
  refine ⟨⟨AccountInv.init h, ?_, ?_, fun _ _ => rfl⟩, ?_, rfl⟩
  · exact fun _ _ hpg => absurd hpg List.not_mem_nil
  · exact fun _ => ⟨rfl, List.nodup_nil, fun _ hx => absurd hx List.not_mem_nil⟩
  · exact fun i hi => absurd hi (h.unowned i)

/-- **One step keeps the lists.** -/
theorem Pool.step (h : Pool tid m G) (hs : PoolStep tid size m m') : ∃ G', Pool tid m' G' := by
  cases hs with
  | malloc fuel dataSize n r hfits hrun =>
    obtain ⟨G', _, _, _, h', -⟩ := h.cxlMalloc hfits hrun
    exact ⟨G', h'⟩
  | rootRef fuel tbr hrun =>
    obtain ⟨G', h', -⟩ := h.threadBaseRefAlloc hrun
    exact ⟨G', h'⟩
  | msgQueue fuel senderId q hrun =>
    obtain ⟨G', h', -⟩ := h.msgQueueAlloc hrun
    exact ⟨G', h'⟩
  | free b x hx hrun =>
    have hheld := h.heldBlock_iff.mp hx
    have hb2 : b ≠ 2 := by
      rintro rfl
      have hpg := hheld.block.1
      rw [h.small] at hpg
      exact List.not_mem_nil hpg
    obtain ⟨m₁, G', hrun', h', hh', -, hempty⟩ := cxlFree_own h.inv h.heads hb2 hheld
    obtain rfl := Option.some.inj (hrun.symm.trans hrun')
    exact ⟨G', h', hh', hempty 2 h.small⟩
  | remote b x hx =>
    obtain ⟨h', hh'⟩ := h.inv.toThread h.heads (h.heldBlock_iff.mp hx)
    exact ⟨_, h', hh', h.small⟩
  | use hf => exact ⟨G, h.use hf⟩

/-- **In every reachable state the lists are in order.** -/
theorem PoolReach.pool (h : PoolReach tid size m) : ∃ G, Pool tid m G := by
  refine @Reach.invariant _ _ _ _ (fun m => ∃ G, Pool tid m G) ?_ ?_ _ h
  · exact fun m hi _ => ⟨_, Pool.init hi⟩
  · rintro m m' ⟨G, hG⟩ - hs -
    exact hG.step hs

end Machine

/-! ## §3 — calls that return -/

section Returns

variable {tid size : Nat} {m m' : Shm} {G : BlockLists} {b x : Nat} {pg : Nat × Nat}

/-- With few pages on its bins, a client that owns a segment has a free page. -/
theorem Pool.room (h : Pool tid m G) {i : Nat} (hi : (m.sas i).threadId = tid) {l : List (Nat × Nat)}
    (hl : ∀ k, ∀ p ∈ G.pages (.bin k), p ∈ l) (hlen : l.length < pagesPerSegment - 1) :
    G.pages .freePage ≠ [] := by
  intro hnone
  have hsub : segmentPages.map (Prod.mk i) ⊆ l := by
    intro p hp
    obtain ⟨j, hj, rfl⟩ := List.mem_map.mp hp
    obtain ⟨q, hq⟩ := ((h.inv.account.mem (i, j)).mpr ⟨hi, hj⟩).resolve_right (by simp)
    cases q with
    | freePage =>
      rw [hnone] at hq
      exact absurd hq List.not_mem_nil
    | bin k => exact hl k _ hq
  have hnd : (segmentPages.map (Prod.mk i)).Nodup :=
    segmentPages_nodup.map fun _ _ he => (Prod.mk.inj he).2
  have hle := (List.subperm_of_subset hnd hsub).length_le
  rw [List.length_map, segmentPages, List.length_range'] at hle
  omega

/-- **The first page of a bin** is a fresh one, and its first block is handed out. -/
theorem cxlPageMalloc_first {L : QueuePtr → List (Nat × Nat)} (h : AccountInv tid m L none)
    (hempty : L (.bin b) = []) (hroom : L .freePage ≠ [] ∨ Claimable size m) : ∃ pg m',
      cxlPageFresh 2 tid size (.bin b) (m.clearRedo tid) = some (pg, m') ∧
      cxlPageMalloc 2 tid size (.bin b) (cxlFindPage tid (.bin b) m) m =
        some ((m'.page pg).free, pg, m') := by
  have hclear : AccountInv tid (m.clearRedo tid) L none :=
    h.congr (fun q => queue_clearRedo m tid q) (fun _ _ _ => rfl) (fun _ _ _ => rfl)
      (fun _ _ => ⟨rfl, rfl⟩) (fun _ _ => ⟨rfl, rfl⟩) (fun _ => Iff.rfl) h.claimable
  obtain ⟨pg, m', hrun⟩ : ∃ pg m', cxlPageFresh (0 + 2) tid size (.bin b) (m.clearRedo tid) = some (pg, m') :=
    cxlPageFresh_returns hclear hroom
  have hfirst : (m.queue tid (.bin b)).first = none := by
    rw [h.queued.first, hempty]
    rfl
  refine ⟨pg, m', hrun, ?_⟩
  simp only [cxlFindPage, hfirst, Option.filter_none, cxlPageMalloc, cxlMallocGeneric,
    cxlPageQueueFindFreeEx, queue_clearRedo, findFree, Option.bind_eq_bind, Option.bind_some, hrun]

/-- The first RootRef of a client: its page comes to bin 0, and to no other. -/
theorem Pool.rootRef_first (h : Pool tid m G) (hempty : G.pages (.bin 0) = [])
    (hroom : G.pages .freePage ≠ [] ∨ Claimable size m) : ∃ t pg L m',
      CxlShm.threadBaseRefAlloc 2 tid size m = some (t, m') ∧ Pool tid m' ((G.fresh L 0 pg).pop pg) ∧
      HandedOut 0 t [t] m m' G ((G.fresh L 0 pg).pop pg) ∧ L (.bin 0) = [pg] ∧
      ∀ k, k ≠ 0 → L (.bin k) = G.pages (.bin k) := by
  obtain ⟨pg, m₁, hfresh, hrun⟩ := cxlPageMalloc_first (b := 0) h.inv.account hempty hroom
  have hheads : ThreadHeads tid (m.clearRedo tid) G := h.heads
  obtain ⟨L, h₁, hh₁, hre, hbin⟩ := cxlPageFresh_reshuffled h.inv.clearRedo hheads (by decide) (by decide) hfresh
  have hre' : Reshuffled 0 m m₁ G (G.fresh L 0 pg) := ⟨hre.block, hre.listed, hre.fresh, hre.word, hre.eraCell, hre.bins⟩
  have hpool : Pool tid m₁ (G.fresh L 0 pg) := ⟨h₁, hh₁, (hre.bins 2 (by decide)).trans h.small⟩
  have hmem : pg ∈ L (.bin 0) := by
    rw [hbin]
    exact List.mem_cons_self
  obtain ⟨l, hl⟩ := G.fresh_free L (b := 0) (by decide) pg
  have hfree : (m₁.page pg).free = pageStart pg := by
    obtain ⟨l', hl'⟩ := h₁.free_eq hmem (h₁.free_ne_zero hmem (by rw [hl]; simp))
    rw [hl] at hl'
    exact (List.cons.inj hl').1.symm
  obtain ⟨h', hout⟩ := h.rootRef_of hpool hre' hmem hl
  rw [hempty] at hbin
  refine ⟨_, pg, L, _, ?_, h', hout, hbin, hre.bins⟩
  simp only [CxlShm.threadBaseRefAlloc]
  have hq : cxlPageQueue true 16 = 0 := rfl
  rw [hq, hrun, hfree]
  rfl

end Returns

end CxlShm
