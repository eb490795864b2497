import CxlShm.IndexRun

/-! # IndexPut — `put` keeps the area in order

A pair with a new key takes a block of its own, which no handle names, and links it to the end of a chain. For
everybody else it is one more block that is in use.
-/

namespace CxlShm

open SlotCount Loop Transition AppendChain

/-! ## §1 — the block of a new entry -/

section Entry

variable {K : Users} {m m₁ m' : Shm} {G G' : Nat → BlockLists} {H : ObjHeap} {u b x e key value size fuel : Nat}
  {pg : Nat × Nat}

theorem mem_index_withEntries {E : Finset Nat} : x ∈ (K.withEntries E).index ↔ x ∈ K.index ∨ x ∈ E := Finset.mem_union

/-- **A block is handed out to the index**: the heap of the others has no more objects than before. -/
theorem HeapOk.growEntry (h : HeapOk K m G H) (hg : Grown K b x (fun _ => False) m m' G G') (hb : 3 ≤ b) :
    ∃ H', HeapOk (K.withEntries {x}) m' G' H' := by
  have hfresh : ∀ k y, HeldBy K G k y → y ≠ x := by
    rintro k y hy rfl
    exact hg.fresh k hy
  have hpools : Pools (K.withEntries {x}) m' G' := hg.pools
  have hlarge : sizeofCxlObj ≤ binSize b := by
    have := binSize_large hb
    have hcxl : sizeofCxlObj = 24 := rfl
    omega
  obtain ⟨H', hv', hemb⟩ := hpools.exists_view (Function.update H.emb x 0) fun k y hk hy => by
    rcases (hg.held k y).mp hy with hy | ⟨rfl, rfl⟩
    · rw [Function.update_of_ne (hfresh k y hy)]
      exact h.view.fits k y hk hy
    · rw [Function.update_self]
      exact hlarge
  have hobj : ∀ o, o ∈ H'.objs ↔ o ∈ H.objs := by
    intro o
    rw [hv'.obj, h.view.obj, IsObject, IsObject, mem_index_withEntries, Finset.mem_singleton, not_or]
    constructor
    · rintro ⟨⟨hni, hox⟩, k, hk, ho⟩
      exact ⟨hni, k, hk, ((hg.held k o).mp ho).resolve_right fun he => hox he.2⟩
    · rintro ⟨hni, k, hk, ho⟩
      exact ⟨⟨hni, hfresh k o ho⟩, k, hk, (hg.held k o).mpr (Or.inl ho)⟩
  have hembo : ∀ o ∈ H.objs, H'.emb o = H.emb o := by
    intro o ho
    obtain ⟨k, -, ho⟩ := h.held ho
    rw [hemb, Function.update_of_ne (hfresh k o ho)]
  have hroot : ∀ a, a ∈ H'.roots ↔ a ∈ H.roots := by
    intro a
    have hsame : IsRoot (K.withEntries {x}) G' a ↔ IsRoot K G' a := Iff.rfl
    rw [hv'.root, h.view.root, hsame, hg.isRoot]
    exact or_iff_left fun hno => by omega
  have hslot : ∀ a, a ∈ H'.slots ↔ a ∈ H.slots := by
    intro a
    rw [ObjHeap.mem_slots, ObjHeap.mem_slots, hroot]
    refine or_congr_right ⟨?_, ?_⟩
    · rintro ⟨o, ho, k, hk, rfl⟩
      have ho := (hobj o).mp ho
      exact ⟨o, ho, k, hembo o ho ▸ hk, rfl⟩
    · rintro ⟨o, ho, k, hk, rfl⟩
      exact ⟨o, (hobj o).mpr ho, k, (hembo o ho).symm ▸ hk, rfl⟩
  have hrev : Reviewed H H' m m' := by
    refine ⟨fun o ho => ⟨(hobj o).mp ho, hembo o ((hobj o).mp ho)⟩, fun o ho j hj => ?_, fun a _ ha => ?_,
      fun a ha hno => absurd ((hslot a).mp ha) hno, fun a ha hno => absurd ((hslot a).mpr ha) hno,
      fun o ho hno => absurd ((hobj o).mpr ho) hno⟩
    · exact hg.touched h.view (Or.inr ⟨o, (hobj o).mp ho, j, hj, rfl⟩) not_false
    · exact hg.touched h.view (Or.inl ha) not_false
  refine ⟨H', hrev.heapOk h.exact hpools hv' (fun o ho => h.live o ((hobj o).mp ho)) hg.era hg.leaking fun y hy => ?_⟩
  rcases mem_index_withEntries.mp hy with hy | hy
  · obtain ⟨k, hk, hheld⟩ := h.index y hy
    exact ⟨k, hk, (hg.held k y).mpr (Or.inl hheld)⟩
  · rw [Finset.mem_singleton.mp hy]
    exact ⟨b, hb, (hg.held b x).mpr (Or.inr ⟨rfl, rfl⟩)⟩

/-- The words of the block that a new entry fills. -/
theorem newEntry_word {a : Nat} (ha : ∀ d < 48, a ≠ x + d) : (newEntry u key value x pg m).word a = m.word a := by
  have h₁ : a ≠ x + 8 := ha 8 (by omega)
  have h₂ : a ≠ x + 16 := ha 16 (by omega)
  have h₃ : a ≠ x + sizeofCxlObj := ha 24 (by omega)
  have h₄ : a ≠ x + sizeofCxlObj + 8 := ha 32 (by omega)
  have h₅ : a ≠ x + sizeofCxlObj + 16 := ha 40 (by omega)
  simp only [newEntry, Shm.store_word]
  rw [Function.update_of_ne h₅, Function.update_of_ne h₄, Function.update_of_ne h₃, Function.update_of_ne h₂,
    Function.update_of_ne h₁]
  rfl

/-- The block before it is linked: a pair, and no count yet. -/
structure EntryFilled (u key value : Nat) (m : Shm) (x : Nat) : Prop where
  key : entryKey m x = key
  value : entryValue m x = value
  link : m.word (entryLink x) = 0
  embedded : m.word (x + 16) = 0
  info : m.refInfo x = packRefInfo u 0 (m.era u u)

theorem newEntry_filled (u key value x : Nat) (pg : Nat × Nat) (m : Shm) :
    EntryFilled u key value (newEntry u key value x pg m) x := by
  have hcxl : sizeofCxlObj = 24 := rfl
  refine ⟨?_, ?_, Function.update_self .., ?_, ?_⟩
  · show (newEntry u key value x pg m).word (x + sizeofCxlObj) = key
    simp only [newEntry, Shm.store_word]
    rw [Function.update_of_ne (by omega), Function.update_of_ne (by omega), Function.update_self]
  · show (newEntry u key value x pg m).word (x + sizeofCxlObj + 8) = value
    simp only [newEntry, Shm.store_word]
    rw [Function.update_of_ne (by omega), Function.update_self]
  · simp only [newEntry, Shm.store_word]
    rw [Function.update_of_ne (by omega), Function.update_of_ne (by omega), Function.update_of_ne (by omega),
      Function.update_self]
  · show (newEntry u key value x pg m).word (x + 8) = packRefInfo u 0 (m.era u u)
    simp only [newEntry, Shm.store_word]
    rw [Function.update_of_ne (by omega), Function.update_of_ne (by omega), Function.update_of_ne (by omega),
      Function.update_of_ne (by omega), Function.update_self]
    rfl

/-- **The block of a new entry is taken**: for the heap it is nothing but a block in use. -/
theorem HeapOk.newEntry (h : HeapOk K m G H) (hu : u ∈ K.clients)
    (hrun : cxlPageMalloc fuel u size (.bin 4) (cxlFindPage u (.bin 4) m) m = some (x, pg, m₁)) :
    ∃ L H', HeapOk (K.withEntries {x}) (newEntry u key value x pg m₁) (Function.update G u L) H' ∧
      Grown K 4 x (fun _ => False) m (CxlShm.newEntry u key value x pg m₁) G (Function.update G u L) := by
  obtain ⟨L, hg⟩ : ∃ L, Grown K 4 x (fun _ => False) m (CxlShm.newEntry u key value x pg m₁) G (Function.update G u L) := by
    refine h.take hu (b := 4) (by decide) (by decide) hrun (fun _ _ => rfl) rfl rfl (fun _ => rfl) (fun a ha => ?_) ?_
    · exact newEntry_word ha
    · have hframe : CallFrame m m₁ := .cxlPageMalloc hrun
      exact hframe.trans (.of_same rfl rfl)
  obtain ⟨H', h'⟩ := h.growEntry hg (by decide)
  exact ⟨L, H', h', hg⟩

end Entry

/-! ## §2 — the entry is linked -/

section Link

variable {K : Users} {w : World} {m m₁ m' : Shm} {G G' : Nat → BlockLists} {H : ObjHeap} {chain : Nat → List Nat}
  {map : Nat → Option Nat} {u x e a key value size fuel : Nat} {pg : Nat × Nat}

theorem IsBucket.area (h : IsBucket e) : InHashArea e := by
  obtain ⟨key, hkey, rfl⟩ := h
  exact (getBucket_inHashArea_iff key).mpr hkey

theorem entryLink_eq (x : Nat) : entryLink x = x + 40 := rfl

/-- A link lies below the segments, or in the block of an entry. -/
theorem IndexOk.link_cases (h : IndexOk K m G chain map) (ha : IsLink K a) :
    (a < segmentsAreaStart ∧ a ∉ K.extra) ∨ ∃ x ∈ K.index, HeldBy K G 4 x ∧ a = x + 40 := by
  rcases ha with hb | ⟨x, hx, rfl⟩
  · exact Or.inl ⟨hb.area.lt, fun hextra => h.apart a hextra hb.area⟩
  · exact Or.inr ⟨x, hx, h.held x hx, rfl⟩

/-- A link lies in no other block in use, and at one place in the block of its entry. -/
theorem IndexOk.link_apart (h : IndexOk K m G chain map) (hp : Pools K m₁ G) (ha : IsLink K a) {b y d : Nat}
    (hy : HeldBy K G b y) (hd : d < binSize b) (hne : y ∉ K.index ∨ d ≠ 40) : y + d ≠ a := by
  have hsize : binSize 4 = 48 := rfl
  rcases h.link_cases ha with ⟨hlt, -⟩ | ⟨x, hx, hheld, rfl⟩
  · have := hy.area
    omega
  · intro heq
    obtain ⟨rfl, -⟩ := hp.apart hy.block hheld.block hd (by omega) heq
    rcases hne with hne | hne
    · exact hne hx
    · omega

/-- The heap of the others has no word in a link, and no list runs through one. -/
theorem HeapOk.link_quiet (h : HeapOk K m G H)
    (ha : (a < segmentsAreaStart ∧ a ∉ K.extra) ∨ ∃ x ∈ K.index, HeldBy K G 4 x ∧ a = x + 40) :
    ¬ H.Touches a ∧ ¬ ListedBy K G a := by
  have hsize : binSize 4 = 48 := rfl
  rcases ha with ⟨hlt, hextra⟩ | ⟨x, hx, hheld, rfl⟩
  · refine ⟨h.view.below_not_touched hlt hextra, fun hl => ?_⟩
    obtain ⟨k, v, -, hb⟩ := h.pools.listed_block hl
    have hlo := (pageBlocks_bounds hb.2).1
    simp only [pageStart] at hlo
    omega
  · refine ⟨h.view.payload_not_touched h.pools (by decide) hheld (Or.inl hx) (by omega), fun hl => ?_⟩
    exact h.pools.held_add_ne hheld hl (d := 40) (by omega) rfl

/-- A link and a stamp that are not the heap's. -/
theorem HeapOk.linkQuiet (h : HeapOk K m G H) (he : ¬ H.Touches e) (hel : ¬ ListedBy K G e) (hx : ¬ H.Touches (x + 8))
    (hxl : ¬ ListedBy K G (x + 8)) : HeapOk K (linkReference u e x m) G H := by
  have hword : ∀ a, a ≠ e → a ≠ x + 8 → (linkReference u e x m).word a = m.word a := fun a ha hax =>
    linkReference_word_of_ne ha hax
  refine h.quiet ?_ (fun a ha => hword a ?_ ?_) (h.era.linkReference u e x) (linkReference_sas ..)
  · refine h.pools.use (fun v q => (linkReference_tls u e x v m).1 q) (linkReference_sas ..)
      (linkReference_segment ..) fun y hy => hword y ?_ ?_
    · rintro rfl
      exact hel hy
    · rintro rfl
      exact hxl hy
  · rintro rfl
    exact he ha
  · rintro rfl
    exact hx ha

/-- What `put` of a new key has done: the block `x` is an entry, and the link `e` leads to it. -/
structure EntryPut (K : Users) (e x key value : Nat) (m m' : Shm) (G G' : Nat → BlockLists) : Prop where
  held : ∀ k y, HeldBy K G' k y ↔ HeldBy K G k y ∨ k = 4 ∧ y = x
  fresh : ∀ k, ¬ HeldBy K G k x
  word : ∀ k y d, HeldBy K G k y → d < binSize k → y + d ≠ e → m'.word (y + d) = m.word (y + d)
  below : ∀ a < segmentsAreaStart, a ≠ e → m'.word a = m.word a
  linked : m'.word e = x
  key : entryKey m' x = key
  value : entryValue m' x = value
  link : m'.word (entryLink x) = 0
  embedded : m'.word (x + 16) = 0
  count : m'.refCnt x = 1

/-- **`put` of a new key** keeps the invariant of the area. -/
theorem WorldOk.putNew (h : WorldOk K w G H) (hi : IndexOk K w.mem G chain map) (hu : u ∈ K.clients) (he : IsLink K e)
    (hrun : cxlPageMalloc fuel u size (.bin 4) (cxlFindPage u (.bin 4) w.mem) w.mem = some (x, pg, m₁))
    (hm' : CxlShm.linkReference u e x (newEntry u key value x pg m₁) = m') :
    ∃ G' H', WorldOk (K.withEntries {x}) ⟨m', w.handles⟩ G' H' ∧ EntryPut K e x key value w.mem m' G G' := by
  obtain ⟨L, H₂, h₂, hg⟩ : ∃ L H₂, HeapOk (K.withEntries {x}) (newEntry u key value x pg m₁) (Function.update G u L) H₂ ∧
      Grown K 4 x (fun _ => False) w.mem (newEntry u key value x pg m₁) G (Function.update G u L) := h.heap.newEntry hu hrun
  have hfill := newEntry_filled u key value x pg m₁
  have hinfo : (newEntry u key value x pg m₁).refInfo x =
      packRefInfo u 0 ((newEntry u key value x pg m₁).era u u) := hfill.info
  have hera₂ : (newEntry u key value x pg m₁).era u u < 2 ^ 32 := h₂.era _
  generalize newEntry u key value x pg m₁ = m₂ at *
  generalize Function.update G u L = G₂ at *
  have hsize : binSize 4 = 48 := rfl
  have hx : HeldBy K G₂ 4 x := (hg.held 4 x).mpr (Or.inr ⟨rfl, rfl⟩)
  have hxi : x ∈ (K.withEntries {x}).index := mem_index_withEntries.mpr (Or.inr (Finset.mem_singleton_self x))
  -- the link lies in no block that is new
  have hex : ∀ d < 48, e ≠ x + d := by
    intro d hd
    rcases hi.link_cases he with ⟨hlt, -⟩ | ⟨y, -, hy, rfl⟩
    · have := hx.area
      omega
    · exact hg.apart hy (by omega) (by omega)
  have hequiet : ¬ H₂.Touches e ∧ ¬ ListedBy K G₂ e := by
    refine h₂.link_quiet ((hi.link_cases he).imp_right ?_)
    rintro ⟨y, hy, hheld, rfl⟩
    exact ⟨y, mem_index_withEntries.mpr (Or.inl hy), (hg.held 4 y).mpr (Or.inl hheld), rfl⟩
  have h₃ : HeapOk (K.withEntries {x}) m' G₂ H₂ := by
    rw [← hm']
    refine h₂.linkQuiet hequiet.1 hequiet.2 ?_ fun hl => ?_
    · exact h₂.view.payload_not_touched h₂.pools (by decide) hx (Or.inl hxi) (by omega)
    · exact hg.pools.held_add_ne hx hl (d := 8) (by omega) rfl
  have hword : ∀ a, a ≠ e → a ≠ x + 8 → m'.word a = m₂.word a := by
    rw [← hm']
    exact fun a ha hax => linkReference_word_of_ne ha hax
  have hkept : ∀ k y d, HeldBy K G k y → d < binSize k → y + d ≠ e → m'.word (y + d) = w.mem.word (y + d) := by
    intro k y d hy hd hne
    rw [hword _ hne (hg.apart hy hd (by omega)), hg.word k y d hy hd id]
  have hnew : ∀ d < 48, d ≠ 8 → m'.word (x + d) = m₂.word (x + d) := fun d hd h8 =>
    hword _ (hex d hd).symm (by omega)
  have hspecial : ∀ c y d, c < 2 → HeldBy K G c y → d < binSize c → y + d ≠ e := by
    intro c y d hc hy hd
    refine hi.link_apart h.heap.pools he hy hd (Or.inl fun hyi => ?_)
    exact h.heap.index_ne hyi hy (by omega) rfl
  refine ⟨G₂, H₂, ?_, hg.held, hg.fresh, hkept, fun a ha hne => ?_, ?_, ?_, ?_, ?_, ?_, ?_⟩
  · refine ⟨h₃, fun t ht => ?_, fun t ht => h.unnamed t fun hG => ht ((hg.held 0 t).mpr (Or.inl hG)), fun q hq => ?_⟩
    · have ht : HeldBy K G 0 t := ((hg.held 0 t).mp ht).resolve_right fun hno => by omega
      refine (h.root t ht).congr ?_ ?_ rfl
      · exact hkept 0 t 0 ht (binSize_pos 0) (hspecial 0 t 0 (by decide) ht (binSize_pos 0))
      · exact hkept 0 t 8 ht (by decide) (hspecial 0 t 8 (by decide) ht (by decide))
    · have hq : HeldBy K G 1 q := ((hg.held 1 q).mp hq).resolve_right fun hno => by omega
      have hqsize : binSize 1 = 192 := rfl
      exact (h.ring q hq).congr fun d hd => hkept 1 q d hq (by omega) (hspecial 1 q d (by decide) hq (by omega))
  · have := hx.area
    rw [hword a hne (by omega), hg.below a ha]
  · rw [← hm', linkReference_word]
    exact Function.update_self ..
  · exact (hnew 24 (by omega) (by omega)).trans hfill.key
  · exact (hnew 32 (by omega) (by omega)).trans hfill.value
  · exact (hnew 40 (by omega) (by omega)).trans hfill.link
  · exact (hnew 16 (by omega) (by omega)).trans hfill.embedded
  · have hstamp : m'.refInfo x = packRefInfo u (getRefCntFromInfo (m₂.refInfo x) + 1) (m₂.era u u) := by
      rw [← hm', Shm.refInfo, linkReference_word, Function.update_of_ne (hex 8 (by omega)).symm, Function.update_self]
      rfl
    have hzero : getRefCntFromInfo (m₂.refInfo x) = 0 := by
      rw [hinfo]
      exact getRefCntFromInfo_pack (K.id_lt u hu) (Nat.two_pow_pos 16) hera₂
    rw [Shm.refCnt, hstamp, hzero]
    exact getRefCntFromInfo_pack (K.id_lt u hu) (Nat.one_lt_two_pow (by omega)) hera₂

end Link

end CxlShm
