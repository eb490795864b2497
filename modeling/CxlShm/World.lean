import CxlShm.Handle
import CxlShm.HeapSteps

/-! # World — all clients in one area

The lists of every client, and the heap of references that the blocks handed out make up: the objects,
the RootRefs, the entries of the message queues, and the words outside the segments that refer to
objects.
-/

namespace CxlShm

open SlotCount Loop Transition

/-! ## §1 — the clients and their blocks -/

/-- The clients by their thread ids, the words outside the segments that refer to objects, and the blocks that are
entries of the hash index: no handle names them. -/
structure Users where
  clients : Finset Nat
  extra : Finset Nat
  index : Finset Nat
  id_pos : ∀ u ∈ clients, u ≠ 0
  id_lt : ∀ u ∈ clients, u < 2 ^ 16
  below : ∀ a ∈ extra, a < segmentsAreaStart

/-- The lists of every client are in order. -/
def Pools (K : Users) (m : Shm) (G : Nat → BlockLists) : Prop := ∀ u ∈ K.clients, Pool u m (G u)

/-- `x` is a block of bin `b` of some client. -/
def BlockOf (K : Users) (G : Nat → BlockLists) (b x : Nat) : Prop := ∃ u ∈ K.clients, (G u).Block b x

/-- Some client has handed out its block `x` of bin `b`. -/
def HeldBy (K : Users) (G : Nat → BlockLists) (b x : Nat) : Prop := ∃ u ∈ K.clients, (G u).Held b x

/-- `x` is on a list of some client. -/
def ListedBy (K : Users) (G : Nat → BlockLists) (x : Nat) : Prop := ∃ u ∈ K.clients, (G u).Listed x

section Blocks

variable {K : Users} {m m' : Shm} {G : Nat → BlockLists} {u b k x y d e : Nat}

theorem HeldBy.block (h : HeldBy K G b x) : BlockOf K G b x := h.imp fun _ h => ⟨h.1, h.2.block⟩

theorem HeldBy.ne_zero (h : HeldBy K G b x) : x ≠ 0 := by
  obtain ⟨u, -, h⟩ := h
  exact block_ne_zero h.block.2

theorem Pools.block_owner (h : Pools K m G) (hu : u ∈ K.clients) (hx : (G u).Block b x) (hd : d < binSize b) :
    (m.sas (segmentIdx (x + d))).threadId = u := by
  rw [(h u hu).inv.segmentIdx_block hx hd]
  exact ((h u hu).inv.account.owned hx.1).1

/-- Blocks of all clients lie apart. -/
theorem Pools.apart (h : Pools K m G) (hx : BlockOf K G b x) (hy : BlockOf K G k y) (hd : d < binSize b)
    (he : e < binSize k) (heq : x + d = y + e) : x = y ∧ b = k := by
  obtain ⟨u, hu, hx⟩ := hx
  obtain ⟨w, hw, hy⟩ := hy
  have hown := h.block_owner hu hx hd
  rw [heq, h.block_owner hw hy he] at hown
  subst hown
  obtain rfl := (h w hw).inv.block_inj hx hy hd he heq
  exact ⟨rfl, (h w hw).inv.bin_unique hx.1 hy.1⟩

theorem Pools.listed_block (h : Pools K m G) (hx : ListedBy K G x) : ∃ b, BlockOf K G b x := by
  obtain ⟨u, hu, hx⟩ := hx
  obtain ⟨b, hb⟩ := (h u hu).inv.listed_block hx
  exact ⟨b, u, hu, hb⟩

/-- What is handed out is on nobody's list. -/
theorem Pools.held_not_listed (h : Pools K m G) (hx : HeldBy K G b x) : ¬ ListedBy K G x := by
  rintro ⟨w, hw, hl⟩
  obtain ⟨u, hu, hx⟩ := hx
  obtain ⟨k, hk⟩ := (h w hw).inv.listed_block hl
  have hown := h.block_owner hu hx.block (binSize_pos b)
  rw [Nat.add_zero] at hown
  have hown' := h.block_owner hw hk (binSize_pos k)
  rw [Nat.add_zero, hown] at hown'
  subst hown'
  exact ((h u hu).inv.held_iff.mp hx).2 hl

/-- No list is linked through a block that is handed out. -/
theorem Pools.held_add_ne (h : Pools K m G) (hx : HeldBy K G b x) (hy : ListedBy K G y) (hd : d < binSize b) :
    y ≠ x + d := by
  intro heq
  obtain ⟨k, hk⟩ := h.listed_block hy
  obtain ⟨rfl, -⟩ := h.apart hx.block hk hd (binSize_pos k) (by rw [Nat.add_zero, heq])
  exact h.held_not_listed hx hy

/-- A block is in one bin, and handed out by one client. -/
theorem Pools.held_unique (h : Pools K m G) (hx : HeldBy K G b x) (hy : HeldBy K G k x) : b = k :=
  (h.apart hx.block hy.block (binSize_pos b) (binSize_pos k) rfl).2

theorem Pools.held_apart (h : Pools K m G) (hx : HeldBy K G b x) (hy : HeldBy K G k y) (hne : b ≠ k ∨ x ≠ y)
    (hd : d < binSize b) (he : e < binSize k) : x + d ≠ y + e := by
  intro heq
  obtain ⟨hxy, hbk⟩ := h.apart hx.block hy.block hd he heq
  exact hne.elim (fun hn => hn hbk) fun hn => hn hxy

/-- Blocks are in the segments. -/
theorem HeldBy.area (h : HeldBy K G b x) : segmentsAreaStart ≤ x := by
  obtain ⟨u, -, h⟩ := h
  have := (pageBlocks_bounds h.block.2).1
  simp only [pageStart] at this
  omega

/-! ## §2 — what a call leaves in order -/

/-- Stores to words that link no list, and to logs and eras. -/
theorem Pools.use (h : Pools K m G) (hqueue : ∀ u q, m'.queue u q = m.queue u q) (hsas : m'.sas = m.sas)
    (hseg : m'.segment = m.segment) (hw : ∀ y, ListedBy K G y → m'.word y = m.word y) : Pools K m' G := by
  intro u hu
  refine (h u hu).use ⟨hqueue u, fun i => by rw [hsas], fun i _ => by rw [hsas], fun i _ => by rw [hseg], ?_, ?_⟩
  · intro i hi
    rw [hsas] at hi
    rw [hseg]
    exact (h u hu).inv.account.claimable i hi
  · exact fun y hy => hw y ⟨u, hu, (h u hu).freeBlock_iff.mp hy⟩

/-- A call of client `u` that brings its lists to `L` and writes in no segment of another client. -/
theorem Pools.act (h : Pools K m G) (hu : u ∈ K.clients) {L : BlockLists} (h' : Pool u m' L)
    (hk : KeepsOthers u m m') (hw : ∀ a, m'.word a ≠ m.word a → ¬ OthersSegment u m (segmentIdx a)) :
    Pools K m' (Function.update G u L) := by
  intro w hwm
  by_cases hwu : w = u
  · subst hwu
    rw [Function.update_self]
    exact h'
  · rw [Function.update_of_ne hwu]
    refine (h w hwm).use (hk.useFrame hwu (K.id_pos w hwm) h'.inv.account.claimable fun x hx => ?_)
    exact (h w hwm).freeBlock_word hwu (K.id_pos w hwm) hw hx

/-- What a client owns after a call is in nobody else's segment before. -/
theorem KeepsOthers.own_after (h : KeepsOthers u m m') {i : Nat} (hi : (m'.sas i).threadId = u) :
    ¬ OthersSegment u m i := by
  intro ho
  rw [h.sas i ho] at hi
  exact ho.2 hi

theorem heldBy_update {L : BlockLists} (hu : u ∈ K.clients) {P : Prop} (hL : L.Held k y ↔ (G u).Held k y ∨ P) :
    HeldBy K (Function.update G u L) k y ↔ HeldBy K G k y ∨ P := by
  constructor
  · rintro ⟨w, hw, h⟩
    by_cases hwu : w = u
    · subst hwu
      rw [Function.update_self] at h
      exact (hL.mp h).imp_left fun h => ⟨w, hw, h⟩
    · rw [Function.update_of_ne hwu] at h
      exact Or.inl ⟨w, hw, h⟩
  · rintro (⟨w, hw, h⟩ | hP)
    · by_cases hwu : w = u
      · subst hwu
        exact ⟨w, hw, by rw [Function.update_self]; exact hL.mpr (Or.inl h)⟩
      · exact ⟨w, hw, by rwa [Function.update_of_ne hwu]⟩
    · exact ⟨u, hu, by rw [Function.update_self]; exact hL.mpr (Or.inr hP)⟩

end Blocks

/-! ## §3 — the heap they make up -/

/-- The words that refer to objects and lie in none. -/
def IsRoot (K : Users) (G : Nat → BlockLists) (a : Nat) : Prop :=
  HeldBy K G 0 a ∨ (∃ q k, HeldBy K G 1 q ∧ k < messageBufferSize ∧ a = bufferSlot q k) ∨ a ∈ K.extra

/-- The blocks handed out from the bins of objects, but for those of the index. -/
def IsObject (K : Users) (G : Nat → BlockLists) (x : Nat) : Prop := x ∉ K.index ∧ ∃ b, 3 ≤ b ∧ HeldBy K G b x

/-- The heap shows what is handed out. -/
structure View (K : Users) (G : Nat → BlockLists) (H : ObjHeap) : Prop where
  obj : ∀ x, x ∈ H.objs ↔ IsObject K G x
  root : ∀ a, a ∈ H.roots ↔ IsRoot K G a
  fits : ∀ b x, 3 ≤ b → HeldBy K G b x → sizeofCxlObj + 8 * H.emb x ≤ binSize b

section Views

variable {K : Users} {m : Shm} {G : Nat → BlockLists}

theorem IsObject.ne_zero {x : Nat} (h : IsObject K G x) : x ≠ 0 := by
  obtain ⟨-, b, -, h⟩ := h
  exact h.ne_zero

/-- A root lies in no object. -/
theorem IsRoot.outside (h : Pools K m G) {a b x d : Nat} (ha : IsRoot K G a) (hb : 3 ≤ b) (hx : HeldBy K G b x)
    (hd : d < binSize b) : a ≠ x + d := by
  rcases ha with ha | ⟨q, k, hq, hk, rfl⟩ | ha
  · have hne : a + 0 ≠ x + d := h.held_apart ha hx (Or.inl (by omega)) (by decide) hd
    exact hne
  · have hsize : binSize 1 = 192 := rfl
    simp only [messageBufferSize] at hk
    have hne := h.held_apart hq hx (Or.inl (by omega)) (d := 40 + 8 * k) (by omega) hd
    unfold bufferSlot
    omega
  · have hlo := K.below a ha
    have := hx.area
    omega

theorem exists_interval_ne {a x n : Nat} (h : ∀ d < n, a ≠ x + d) : a < x ∨ x + n ≤ a := by
  by_contra hno
  exact h (a - x) (by omega) (by omega)

/-- **What is handed out makes up a heap**, if the embedded references fit in the blocks. -/
theorem Pools.exists_view (h : Pools K m G) (emb : Nat → Nat)
    (hfit : ∀ b x, 3 ≤ b → HeldBy K G b x → sizeofCxlObj + 8 * emb x ≤ binSize b) :
    ∃ H, View K G H ∧ H.emb = emb := by
  classical
  -- every block of every client
  let blocks : Finset Nat := K.clients.biUnion fun u => (Finset.range cxlBinSize).biUnion fun b =>
    ((G u).pages (.bin b)).toFinset.biUnion fun pg => (pageBlocks pg (binSize b)).toFinset
  have hblocks : ∀ b x, HeldBy K G b x → x ∈ blocks := by
    rintro b x ⟨u, hu, hx⟩
    have hb := (h u hu).inv.bin_lt hx.block.1
    simp only [blocks, Finset.mem_biUnion, Finset.mem_range, List.mem_toFinset]
    exact ⟨u, hu, b, hb, _, hx.block.1, hx.block.2⟩
  let entries : Finset Nat := blocks.biUnion fun q => (Finset.range messageBufferSize).image (bufferSlot q)
  have hslotx : ∀ x k, embeddedSlot x k = x + (sizeofCxlObj + 8 * k) := fun x k => Nat.add_assoc ..
  refine ⟨⟨blocks.filter (IsObject K G), emb, (blocks ∪ entries ∪ K.extra).filter (IsRoot K G), ?_, ?_, ?_⟩,
    ⟨?_, ?_, hfit⟩, rfl⟩
  · intro a ha o ho
    obtain ⟨-, -, b, hb, hx⟩ := Finset.mem_filter.mp ho
    have hroot := (Finset.mem_filter.mp ha).2
    rw [hslotx]
    have hlen := hfit b o hb hx
    exact exists_interval_ne fun d hd => hroot.outside h hb hx (by omega)
  · intro o ho o' ho' hne
    obtain ⟨-, -, b, hb, hx⟩ := Finset.mem_filter.mp ho
    obtain ⟨-, -, b', hb', hx'⟩ := Finset.mem_filter.mp ho'
    have hlen := hfit b o hb hx
    have hlen' := hfit b' o' hb' hx'
    rw [hslotx, hslotx]
    by_contra hno
    rw [not_or] at hno
    rcases Nat.lt_or_ge o o' with hlt | hge
    · have := h.held_apart hx hx' (Or.inr hne) (d := o' - o) (e := 0) (by omega) (binSize_pos b')
      omega
    · have := h.held_apart hx hx' (Or.inr hne) (d := 0) (e := o - o') (binSize_pos b) (by omega)
      omega
  · intro h0
    exact (Finset.mem_filter.mp h0).2.ne_zero rfl
  · intro x
    refine ⟨fun hx => (Finset.mem_filter.mp hx).2, fun hx => Finset.mem_filter.mpr ⟨?_, hx⟩⟩
    obtain ⟨-, b, -, hx⟩ := hx
    exact hblocks b x hx
  · intro a
    refine ⟨fun ha => (Finset.mem_filter.mp ha).2, fun ha => Finset.mem_filter.mpr ⟨?_, ha⟩⟩
    rcases ha with ha | ⟨q, k, hq, hk, rfl⟩ | ha
    · exact Finset.mem_union_left _ (Finset.mem_union_left _ (hblocks 0 a ha))
    · refine Finset.mem_union_left _ (Finset.mem_union_right _ ?_)
      exact Finset.mem_biUnion.mpr ⟨q, hblocks 1 q hq,
        Finset.mem_image.mpr ⟨k, Finset.mem_range.mpr hk, rfl⟩⟩
    · exact Finset.mem_union_right _ ha

/-- The words of a view that a call may write: slots and headers. -/
theorem View.slot_cases {H : ObjHeap} (hv : View K G H) {a : Nat} (ha : a ∈ H.slots) :
    IsRoot K G a ∨ ∃ b x k, 3 ≤ b ∧ HeldBy K G b x ∧ x ∉ K.index ∧ k < H.emb x ∧ a = x + (sizeofCxlObj + 8 * k) ∧
      sizeofCxlObj + 8 * k < binSize b := by
  rcases ObjHeap.mem_slots.mp ha with hr | ⟨x, hx, k, hk, rfl⟩
  · exact Or.inl ((hv.root a).mp hr)
  · obtain ⟨hni, b, hb, hx⟩ := (hv.obj x).mp hx
    have := hv.fits b x hb hx
    exact Or.inr ⟨b, x, k, hb, hx, hni, hk, Nat.add_assoc .., by omega⟩

/-- No list is linked through a slot. -/
theorem View.slot_not_listed {H : ObjHeap} (hv : View K G H) (h : Pools K m G) {a : Nat} (ha : a ∈ H.slots) :
    ¬ ListedBy K G a := by
  intro hl
  rcases hv.slot_cases ha with (ha | ⟨q, k, hq, hk, rfl⟩ | ha) | ⟨b, x, k, -, hx, -, -, rfl, hlt⟩
  · exact h.held_not_listed ha hl
  · have hsize : binSize 1 = 192 := rfl
    simp only [messageBufferSize] at hk
    have hne := h.held_add_ne hq hl (d := 40 + 8 * k) (by omega)
    unfold bufferSlot at hne
    omega
  · obtain ⟨k, u, -, hb⟩ := h.listed_block hl
    have hlo := (pageBlocks_bounds hb.2).1
    have hhi := K.below a ha
    simp only [pageStart] at hlo
    omega
  · exact h.held_add_ne hx hl hlt rfl

/-- No list is linked through a header. -/
theorem View.header_not_listed {H : ObjHeap} (hv : View K G H) (h : Pools K m G) {o j : Nat} (ho : o ∈ H.objs)
    (hj : j < 3) : ¬ ListedBy K G (o + 8 * j) := by
  intro hl
  obtain ⟨-, b, hb, hx⟩ := (hv.obj o).mp ho
  have := binSize_large hb
  exact h.held_add_ne hx hl (by omega) rfl

end Views

end CxlShm
