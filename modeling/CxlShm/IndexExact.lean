import CxlShm.IndexPut

/-! # IndexExact — the index is a finite map

In every state of every run the chains spell the map that the calls of `put` make up. A look-up, whatever happens
between its loads, answers what the map says at its last load; run alone it comes to an end.
-/

namespace CxlShm

open SlotCount Loop Transition AppendChain

/-! ## §1 — searching a chain -/

/-- Where the search for a key ends on the chain `l` with the last link `f`. -/
def chainSearch (m : Shm) (key : Nat) (l : List Nat) (f : Nat) : Search :=
  match l.find? fun x => decide (entryKey m x = key) with
  | some x => .found (x + sizeofCxlObj)
  | none => .vacant f

section Search

variable {m : Shm} {key fuel n e f : Nat} {l : List Nat} {s : Search}

theorem findEntry_succ_of_ne (hz : m.word e ≠ 0) : findEntry key (fuel + 1) e m =
    if m.word (m.word e + sizeofCxlObj) = key then some (.found (m.word e + sizeofCxlObj))
    else findEntry key fuel (m.word e + sizeofCxlObj + 16) m := by
  rw [findEntry, if_neg hz]

theorem findEntry_mono (h : findEntry key fuel e m = some s) (hle : fuel ≤ n) : findEntry key n e m = some s := by
  induction fuel generalizing e n with
  | zero => cases h
  | succ fuel ih =>
    obtain ⟨n, rfl⟩ := Nat.exists_eq_succ_of_ne_zero (show n ≠ 0 by omega)
    by_cases hz : m.word e = 0
    · rw [findEntry, if_pos hz] at h ⊢
      exact h
    · rw [findEntry_succ_of_ne hz] at h ⊢
      by_cases hk : m.word (m.word e + sizeofCxlObj) = key
      · rw [if_pos hk] at h ⊢
        exact h
      · rw [if_neg hk] at h ⊢
        exact ih h (by omega)

/-- **The search walks down the chain**: with fuel for all its nodes it comes to an end. -/
theorem findEntry_chain (h : Leads 0 entryLink m.word e l f) (hf : m.word f = 0) (hfuel : l.length < fuel) :
    findEntry key fuel e m = some (chainSearch m key l f) := by
  induction l generalizing e fuel with
  | nil =>
    obtain rfl : f = e := h
    obtain ⟨n, rfl⟩ := Nat.exists_eq_succ_of_ne_zero (show fuel ≠ 0 by omega)
    rw [findEntry, if_pos hf]
    rfl
  | cons x l ih =>
    obtain ⟨hx, hread, hrest⟩ := h
    rw [List.length_cons] at hfuel
    obtain ⟨n, rfl⟩ := Nat.exists_eq_succ_of_ne_zero (show fuel ≠ 0 by omega)
    rw [findEntry_succ_of_ne (hread ▸ hx), hread, chainSearch, List.find?_cons]
    by_cases hk : entryKey m x = key
    · have hkey : m.word (x + sizeofCxlObj) = key := hk
      rw [if_pos hkey, decide_eq_true hk]
    · have hkey : m.word (x + sizeofCxlObj) ≠ key := hk
      rw [if_neg hkey, decide_eq_false hk]
      exact ih hrest (by omega)

theorem findEntry_eq (h : Leads 0 entryLink m.word e l f) (hf : m.word f = 0) (hrun : findEntry key fuel e m = some s) :
    s = chainSearch m key l f := by
  have hmore := findEntry_mono hrun (show fuel ≤ fuel + (l.length + 1) by omega)
  rw [findEntry_chain h hf (by omega)] at hmore
  exact (Option.some.inj hmore).symm

/-- What the search says is the value in the map of the chain. -/
theorem chainSearch_result : (chainSearch m key l f).result m = lookup (entryKey m) (entryValue m) l key := by
  unfold chainSearch lookup
  cases l.find? fun x => decide (entryKey m x = key) with
  | none => rfl
  | some x => rfl

end Search

/-! ## §2 — what the calls do to the index -/

section Steps

variable {K : Users} {w w' : World} {m m' : Shm} {G G' : Nat → BlockLists} {H : ObjHeap} {chain : Nat → List Nat}
  {map map' : Nat → Option Nat} {u x e f a key value size fuel : Nat} {l : List Nat}

theorem IndexOk.mem (h : IndexOk K m G chain map) (he : IsBucket e) (hx : x ∈ chain e) : x ∈ K.index :=
  (h.entry x).mpr ⟨e, he, hx⟩

/-- The entries that lead anywhere from a bucket. -/
theorem IndexOk.leads_mem (h : IndexOk K m G chain map) (he : IsBucket e) (hl : Leads 0 entryLink m.word e l f)
    (hx : x ∈ l) : x ∈ chain e := by
  obtain ⟨g, hg, hend⟩ := h.path e he
  exact (hl.isPrefix hg hend).subset hx

theorem IndexOk.link_end (h : IndexOk K m G chain map) (he : IsBucket e) (hl : Leads 0 entryLink m.word e l f) :
    IsLink K f := by
  rcases hl.end_cases with rfl | ⟨x, hx, rfl⟩
  · exact Or.inl he
  · exact Or.inr ⟨x, h.mem he (h.leads_mem he hl hx), rfl⟩

theorem LinksKept.leads (hk : LinksKept K m m') (h : IndexOk K m G chain map) (he : IsBucket e)
    (hl : Leads 0 entryLink m.word e l f) : Leads 0 entryLink m'.word e l f := by
  apply hl.congr
  rintro a (rfl | ⟨x, hx, rfl⟩) hne
  · exact hk.link a (Or.inl he) hne
  · exact hk.link _ (Or.inr ⟨x, h.mem he (h.leads_mem he hl hx), rfl⟩) hne

/-- Calls that write no word of the index but values. -/
theorem IndexOk.keep (h : IndexOk K m G chain map) (hbucket : ∀ e, IsBucket e → m'.word e = m.word e)
    (hword : ∀ x ∈ K.index, ∀ d < 48, d ≠ 32 → m'.word (x + d) = m.word (x + d))
    (hheld : ∀ x ∈ K.index, HeldBy K G' 4 x)
    (hmap : ∀ key, key / 2 ^ 56 < 64 →
      map' key = lookup (entryKey m) (entryValue m') (chain (getBucket key)) key) :
    IndexOk K m' G' chain map' ∧ LinksKept K m m' := by
  have hkey : ∀ x ∈ K.index, entryKey m' x = entryKey m x := fun x hx => hword x hx 24 (by omega) (by omega)
  have hlink : ∀ a, IsLink K a → m'.word a = m.word a := by
    rintro a (hb | ⟨x, hx, rfl⟩)
    · exact hbucket a hb
    · exact hword x hx 40 (by omega) (by omega)
  have hkept : LinksKept K m m' := ⟨fun a ha _ => hlink a ha, hkey⟩
  refine ⟨⟨h.apart, hheld, fun e he => ?_, h.entry, fun e he x hx => ?_, fun e he => ?_, fun key hk => ?_, fun x hx => ?_,
    fun x hx => ?_⟩, hkept⟩
  · obtain ⟨f, hl, hf⟩ := h.path e he
    exact ⟨f, hkept.leads h he hl, (hlink f (h.link_end he hl)).trans hf⟩
  · rw [hkey x (h.mem he hx)]
    exact h.home e he x hx
  · rw [List.map_congr_left fun x hx => hkey x (h.mem he hx)]
    exact h.nodup e he
  · rw [hmap key hk, lookup_congr (fun x hx => hkey x (h.mem ⟨key, hk, rfl⟩ hx)) fun _ _ => rfl]
  · have hstamp : m'.word (x + 8) = m.word (x + 8) := hword x hx 8 (by omega) (by omega)
    rw [Shm.refCnt, Shm.refInfo, hstamp]
    exact h.count x hx
  · exact (hword x hx 16 (by omega) (by omega)).trans (h.embedded x hx)

/-- **The calls on objects, handles and queues do not touch the index.** -/
theorem WorldStep.index (hs : WorldStep K size w w') (h : WorldOk K w G H) (hi : IndexOk K w.mem G chain map) :
    ∃ G' H', WorldOk K w' G' H' ∧ IndexOk K w'.mem G' chain map ∧ LinksKept K w.mem w'.mem := by
  obtain ⟨G', H', h', a, hdata, hwrite⟩ := hs.keeps h
  have hsize : binSize 4 = 48 := rfl
  have hheld : ∀ x ∈ K.index, HeldBy K G' 4 x := fun x hx => hdata.index 4 x hx (hi.held x hx)
  have hword : ∀ x ∈ K.index, ∀ d < 48, w'.mem.word (x + d) = w.mem.word (x + d) := by
    intro x hx d hd
    refine hdata.word 4 x d (by decide) (hi.held x hx) (hheld x hx) (Or.inl hx) (by omega) fun ha => ?_
    -- the applications write data of objects
    obtain ⟨b, y, d', hy, -, hheldy, -, hd', -, heq⟩ := (hwrite _ ha).1
    have hheldy := h.heap.pools.inHand_iff.mp hheldy
    obtain ⟨rfl, -⟩ := h.heap.pools.apart (hi.held x hx).block hheldy.block (by omega) hd' heq
    exact hy hx
  refine ⟨G', H', h', ?_⟩
  apply hi.keep
  · exact fun e he => hdata.below e he.area.lt fun hextra => hi.apart e hextra he.area
  · exact fun x hx d hd _ => hword x hx d hd
  · exact hheld
  · intro key hk
    rw [hi.map key hk, lookup_congr (fun _ _ => rfl) fun x hx => ?_]
    exact (hword x (hi.mem ⟨key, hk, rfl⟩ hx) 32 (by omega)).symm

/-- **`put` of a key that is there** stores its value. -/
theorem WorldOk.putFound (h : WorldOk K w G H) (hi : IndexOk K w.mem G chain map) (hkey : key / 2 ^ 56 < 64)
    (hx : x ∈ chain (getBucket key)) (hxk : entryKey w.mem x = key) (value : Nat) :
    WorldOk K ⟨w.mem.store (x + sizeofCxlObj + 8) value, w.handles⟩ G H ∧
      IndexOk K (w.mem.store (x + sizeofCxlObj + 8) value) G chain (Function.update map key (some value)) ∧
      LinksKept K w.mem (w.mem.store (x + sizeofCxlObj + 8) value) := by
  have hb : IsBucket (getBucket key) := ⟨key, hkey, rfl⟩
  have hsize : binSize 4 = 48 := rfl
  have hheld := hi.held x (hi.mem hb hx)
  have heq : x + sizeofCxlObj + 8 = x + 32 := rfl
  rw [heq]
  have hno := h.heap.view.payload_not_touched h.heap.pools (by decide) hheld (Or.inl (hi.mem hb hx))
    (show 32 < binSize 4 by omega)
  have hother : ∀ k y d, HeldBy K G k y → d < binSize k → k ≠ 4 ∨ y ≠ x →
      (w.mem.store (x + 32) value).word (y + d) = w.mem.word (y + d) := fun k y d hy hd hne =>
    Function.update_of_ne (h.heap.pools.held_apart hy hheld hne hd (by omega)) ..
  have hself : ∀ d, d ≠ 32 → (w.mem.store (x + 32) value).word (x + d) = w.mem.word (x + d) := fun d hd =>
    Function.update_of_ne (by omega) ..
  refine ⟨?_, ?_⟩
  · refine h.specialKept (h.heap.store hheld (by omega) hno value) (fun _ _ _ => Iff.rfl) fun c y d hc hy hd => ?_
    exact hother c y d hy hd (Or.inl (by omega))
  · refine hi.keep (fun e he => ?_) (fun y hy d hd hne => ?_) hi.held fun k hk => ?_
    · have hlt := he.area.lt
      have := hheld.area
      exact Function.update_of_ne (by omega) ..
    · by_cases hyx : y = x
      · subst hyx
        exact hself d hne
      · exact hother 4 y d (hi.held y hy) (by omega) (Or.inr hyx)
    · have hvalue : ∀ y ∈ K.index, y ≠ x → entryValue (w.mem.store (x + 32) value) y = entryValue w.mem y := fun y hy hyx =>
        hother 4 y 32 (hi.held y hy) (by omega) (Or.inr hyx)
      by_cases hbucket : getBucket k = getBucket key
      · rw [hbucket, lookup_store (hi.nodup _ hb) hx (Function.update_self ..) fun y hy hyx => hvalue y (hi.mem hb hy) hyx, hxk]
        by_cases hkk : k = key
        · rw [hkk, Function.update_self, Function.update_self]
        · rw [Function.update_of_ne hkk, Function.update_of_ne hkk, hi.map k hk, hbucket]
      · have hkk : k ≠ key := fun hkk => hbucket (congrArg getBucket hkk)
        have hbk : IsBucket (getBucket k) := ⟨k, hk, rfl⟩
        rw [Function.update_of_ne hkk, hi.map k hk, lookup_congr (fun _ _ => rfl) fun y hy => ?_]
        -- the chains of two buckets share no entry
        refine (hvalue y (hi.mem hbk hy) ?_).symm
        rintro rfl
        exact hbucket ((hi.home _ hbk y hy).symm.trans (hi.home _ hb y hx))

/-- Chains of two buckets end at two links. -/
theorem IndexOk.ends_differ (h : IndexOk K m G chain map) {e' f' : Nat} {l' : List Nat} (he : IsBucket e) (he' : IsBucket e')
    (hne : e' ≠ e) (hl : Leads 0 entryLink m.word e l f) (hl' : Leads 0 entryLink m.word e' l' f') : f' ≠ f := by
  have harea : ∀ {e l f}, IsBucket e → Leads 0 entryLink m.word e l f → ∀ x ∈ l, segmentsAreaStart ≤ entryLink x := by
    intro e l f he hl x hx
    have := (h.held x (h.mem he (h.leads_mem he hl hx))).area
    exact this.trans (by rw [entryLink_eq]; omega)
  have hlt := he.area.lt
  have hlt' := he'.area.lt
  rintro rfl
  rcases hl.end_cases with hfe | ⟨x, hx, hfx⟩ <;> rcases hl'.end_cases with hfe' | ⟨y, hy, hfy⟩
  · exact hne (hfe'.symm.trans hfe)
  · have := harea he' hl' y hy
    omega
  · have := harea he hl x hx
    omega
  · have hxy : x = y := by
      rw [entryLink_eq] at hfx hfy
      omega
    subst hxy
    exact hne ((h.home e' he' x (h.leads_mem he' hl' hy)).symm.trans (h.home e he x (h.leads_mem he hl hx)))

/-- **Every entry is held by one link.** -/
theorem IndexOk.existsUnique_link (h : IndexOk K m G chain map) (hx : x ∈ K.index) (hx0 : x ≠ 0) :
    ∃! a, IsLink K a ∧ m.word a = x := by
  have hcells : ∀ e, IsBucket e → ∀ y ∈ chain e, ∃! a, a ∈ e :: (chain e).map entryLink ∧ m.word a = y := by
    intro e he y hy
    obtain ⟨f, hl, hf⟩ := h.path e he
    exact hl.existsUnique_cell hf (h.nodup e he).of_map hy
  -- a link is a cell of some chain, and what it holds is on that chain
  have hlink : ∀ a, IsLink K a → m.word a = x → ∃ e, IsBucket e ∧ x ∈ chain e ∧ a ∈ e :: (chain e).map entryLink := by
    intro a ha hax
    obtain ⟨e, he, hcell⟩ : ∃ e, IsBucket e ∧ a ∈ e :: (chain e).map entryLink := by
      rcases ha with hb | ⟨y, hy, rfl⟩
      · exact ⟨a, hb, List.mem_cons_self⟩
      · obtain ⟨e, he, hye⟩ := (h.entry y).mp hy
        exact ⟨e, he, List.mem_cons_of_mem _ (List.mem_map_of_mem hye)⟩
    obtain ⟨f, hl, hf⟩ := h.path e he
    obtain ⟨c, hc, hmap⟩ := hl.cells
    refine ⟨e, he, ?_, hcell⟩
    rw [hc, List.mem_append, List.mem_singleton] at hcell
    have hac : a ∈ c := by
      apply hcell.resolve_right
      rintro rfl
      exact hx0 (hax.symm.trans hf)
    rw [← hmap]
    exact List.mem_map.mpr ⟨a, hac, hax⟩
  obtain ⟨e, he, hxe⟩ := (h.entry x).mp hx
  obtain ⟨a, ⟨ha, hax⟩, hunique⟩ := hcells e he x hxe
  refine ⟨a, ⟨?_, hax⟩, ?_⟩
  · rcases List.mem_cons.mp ha with rfl | ha
    · exact Or.inl he
    · obtain ⟨y, hy, rfl⟩ := List.mem_map.mp ha
      exact Or.inr ⟨y, h.mem he hy, rfl⟩
  · rintro b ⟨hb, hbx⟩
    obtain ⟨e', he', hxe', hcell⟩ := hlink b hb hbx
    obtain rfl : e' = e := (h.home e' he' x hxe').symm.trans (h.home e he x hxe)
    exact hunique b ⟨hcell, hbx⟩

/-- **`put` of a new key** appends an entry to the chain of its bucket. -/
theorem EntryPut.index (hput : EntryPut K f x key value m m' G G') (h : IndexOk K m G chain map) (hp : Pools K m G)
    (hkey : key / 2 ^ 56 < 64) (hl : Leads 0 entryLink m.word (getBucket key) (chain (getBucket key)) f)
    (hf : m.word f = 0) (hnew : ∀ y ∈ chain (getBucket key), entryKey m y ≠ key) :
    IndexOk (K.withEntries {x}) m' G'
        (Function.update chain (getBucket key) (chain (getBucket key) ++ [x])) (Function.update map key (some value)) ∧
      LinksKept K m m' := by
  have hb : IsBucket (getBucket key) := ⟨key, hkey, rfl⟩
  have hlink := h.link_end hb hl
  have hsize : binSize 4 = 48 := rfl
  have hfresh : ∀ y ∈ K.index, y ≠ x := by
    rintro y hy rfl
    exact hput.fresh 4 (h.held y hy)
  have hx0 : x ≠ 0 := ((hput.held 4 x).mpr (Or.inr ⟨rfl, rfl⟩)).ne_zero
  -- the words of the old entries but for the link
  have hword : ∀ y ∈ K.index, ∀ d < 48, y + d ≠ f → m'.word (y + d) = m.word (y + d) := fun y hy d hd hne =>
    hput.word 4 y d (h.held y hy) (by omega) hne
  have hfield : ∀ y ∈ K.index, ∀ d < 48, d ≠ 40 → m'.word (y + d) = m.word (y + d) := fun y hy d hd h40 =>
    hword y hy d hd (h.link_apart hp hlink (h.held y hy) (by omega) (Or.inr h40))
  have hkeys : ∀ y ∈ K.index, entryKey m' y = entryKey m y := fun y hy => hfield y hy 24 (by omega) (by omega)
  have hvalues : ∀ y ∈ K.index, entryValue m' y = entryValue m y := fun y hy => hfield y hy 32 (by omega) (by omega)
  have hlinks : ∀ a, IsLink K a → a ≠ f → m'.word a = m.word a := by
    rintro a (hba | ⟨y, hy, rfl⟩) hne
    · exact hput.below a hba.area.lt hne
    · exact hword y hy 40 (by omega) hne
  have hkept : LinksKept K m m' := by
    refine ⟨fun a ha hne => hlinks a ha ?_, hkeys⟩
    rintro rfl
    exact hne hf
  have hchain : ∀ e, IsBucket e → e ≠ getBucket key →
      Function.update chain (getBucket key) (chain (getBucket key) ++ [x]) e = chain e := fun e _ hne =>
    Function.update_of_ne hne ..
  have hself : Function.update chain (getBucket key) (chain (getBucket key) ++ [x]) (getBucket key) =
      chain (getBucket key) ++ [x] := Function.update_self ..
  refine ⟨⟨h.apart, fun y hy => ?_, fun e he => ?_, fun y => ?_, fun e he y hy => ?_, fun e he => ?_, fun k hk => ?_,
    fun y hy => ?_, fun y hy => ?_⟩, hkept⟩
  · rcases mem_index_withEntries.mp hy with hy | hy
    · exact (hput.held 4 y).mpr (Or.inl (h.held y hy))
    · exact (hput.held 4 y).mpr (Or.inr ⟨rfl, Finset.mem_singleton.mp hy⟩)
  · by_cases hne : e = getBucket key
    · rw [hne, hself]
      exact ⟨entryLink x, (hkept.leads h hb hl).snoc hput.linked hx0, hput.link⟩
    · rw [hchain e he hne]
      obtain ⟨g, hg, hend⟩ := h.path e he
      have hgf : g ≠ f := h.ends_differ hb he hne hl hg
      exact ⟨g, hkept.leads h he hg, (hlinks g (h.link_end he hg) hgf).trans hend⟩
  · rw [mem_index_withEntries, Finset.mem_singleton, h.entry]
    constructor
    · rintro (⟨e, he, hy⟩ | rfl)
      · by_cases hne : e = getBucket key
        · subst hne
          exact ⟨_, he, by rw [hself]; exact List.mem_append_left _ hy⟩
        · exact ⟨e, he, by rwa [hchain e he hne]⟩
      · exact ⟨_, hb, by rw [hself]; exact List.mem_append_right _ List.mem_cons_self⟩
    · rintro ⟨e, he, hy⟩
      by_cases hne : e = getBucket key
      · rw [hne, hself, List.mem_append, List.mem_singleton] at hy
        exact hy.imp_left fun hy => ⟨_, hb, hy⟩
      · rw [hchain e he hne] at hy
        exact Or.inl ⟨e, he, hy⟩
  · by_cases hne : e = getBucket key
    · rw [hne, hself, List.mem_append, List.mem_singleton] at hy
      rw [hne]
      rcases hy with hy | rfl
      · rw [hkeys y (h.mem hb hy)]
        exact h.home _ hb y hy
      · rw [hput.key]
    · rw [hchain e he hne] at hy
      rw [hkeys y (h.mem he hy)]
      exact h.home e he y hy
  · by_cases hne : e = getBucket key
    · rw [hne, hself, List.map_append, List.map_congr_left fun y hy => hkeys y (h.mem hb hy)]
      refine List.nodup_append'.mpr ⟨h.nodup _ hb, List.nodup_singleton _, ?_⟩
      intro k hk hkx
      obtain rfl : k = entryKey m' x := List.mem_singleton.mp hkx
      obtain ⟨y, hy, hyk⟩ := List.mem_map.mp hk
      exact hnew y hy (hyk.trans hput.key)
    · rw [hchain e he hne, List.map_congr_left fun y hy => hkeys y (h.mem he hy)]
      exact h.nodup e he
  · by_cases hne : getBucket k = getBucket key
    · have hold : lookup (entryKey m') (entryValue m') (chain (getBucket key)) =
          lookup (entryKey m) (entryValue m) (chain (getBucket key)) :=
        lookup_congr (fun y hy => hkeys y (h.mem hb hy)) fun y hy => hvalues y (h.mem hb hy)
      rw [hne, hself, lookup_append fun y hy => ?_, hold, hput.key, hput.value]
      · by_cases hkk : k = key
        · rw [hkk, Function.update_self, Function.update_self]
        · rw [Function.update_of_ne hkk, Function.update_of_ne hkk, h.map k hk, hne]
      · rw [hput.key, hkeys y (h.mem hb hy)]
        exact hnew y hy
    · have hkk : k ≠ key := fun hkk => hne (congrArg getBucket hkk)
      have hbk : IsBucket (getBucket k) := ⟨k, hk, rfl⟩
      rw [Function.update_of_ne hkk, hchain _ hbk hne, h.map k hk]
      exact congrFun (lookup_congr (fun y hy => hkeys y (h.mem hbk hy)) fun y hy => hvalues y (h.mem hbk hy)).symm k
  · rcases mem_index_withEntries.mp hy with hy | hy
    · have hstamp := hfield y hy 8 (by omega) (by omega)
      rw [Shm.refCnt, Shm.refInfo, hstamp]
      exact h.count y hy
    · rw [Finset.mem_singleton.mp hy]
      exact hput.count
  · rcases mem_index_withEntries.mp hy with hy | hy
    · exact (hfield y hy 16 (by omega) (by omega)).trans (h.embedded y hy)
    · rw [Finset.mem_singleton.mp hy]
      exact hput.embedded

theorem putBucket_eq (hkey : key / 2 ^ 56 = u - 1) : putBucket u key = getBucket key := by
  unfold putBucket getBucket
  rw [hkey]

theorem Users.withEntries_empty : K.withEntries ∅ = K := by
  unfold Users.withEntries
  rw [Finset.union_empty]

/-- **`put`** keeps the area and the index in order. -/
theorem WorldOk.put (h : WorldOk K w G H) (hi : IndexOk K w.mem G chain map) (hu : u ∈ K.clients) (hid : u ≤ 64)
    (hkey : key / 2 ^ 56 = u - 1) (hrun : put fuel u size key value w.mem = some m') :
    ∃ G' H' chain', WorldOk (K.withEntries (putEntries fuel u key w.mem m')) ⟨m', w.handles⟩ G' H' ∧
      IndexOk (K.withEntries (putEntries fuel u key w.mem m')) m' G' chain' (Function.update map key (some value)) ∧
      LinksKept K w.mem m' := by
  have hpos : u ≠ 0 := K.id_pos u hu
  have hkey' : key / 2 ^ 56 < 64 := by omega
  have hb : IsBucket (getBucket key) := ⟨key, hkey', rfl⟩
  obtain ⟨f, hl, hf⟩ := hi.path _ hb
  simp only [CxlShm.put, Option.bind_eq_bind, Option.bind_eq_some_iff] at hrun
  obtain ⟨s, hsearch, hrun⟩ := hrun
  unfold putEntries
  rw [hsearch]
  rw [putBucket_eq hkey] at hsearch
  have hs := findEntry_eq hl hf hsearch
  unfold chainSearch at hs
  cases hfind : (chain (getBucket key)).find? fun x => decide (entryKey w.mem x = key) with
  | some x =>
    rw [hfind] at hs
    subst hs
    obtain rfl := Option.some.inj hrun
    have hx := List.mem_of_find?_eq_some hfind
    have hxk : entryKey w.mem x = key := by simpa using List.find?_some hfind
    obtain ⟨hok, hindex, hkept⟩ := h.putFound hi hkey' hx hxk value
    show ∃ G' H' chain', WorldOk (K.withEntries ∅) _ G' H' ∧ IndexOk (K.withEntries ∅) _ G' chain' _ ∧ _
    rw [Users.withEntries_empty]
    exact ⟨G, H, chain, hok, hindex, hkept⟩
  | none =>
    rw [hfind] at hs
    subst hs
    simp only [Option.bind_eq_some_iff] at hrun
    obtain ⟨⟨x, pg, m₁⟩, hpage, hres⟩ := hrun
    have hbin : cxlPageQueue false (3 * 8 + sizeofCxlObj) = 4 := rfl
    rw [hbin] at hpage
    obtain ⟨G', H', h', hput⟩ := h.putNew hi hu (hi.link_end hb hl) hpage (Option.some.inj hres)
    have hnew : ∀ y ∈ chain (getBucket key), entryKey w.mem y ≠ key := by simpa using hfind
    obtain ⟨hindex, hkept⟩ := hput.index hi h.heap.pools hkey' hl hf hnew
    show ∃ G' H' chain', WorldOk (K.withEntries {m'.word f}) _ G' H' ∧ IndexOk (K.withEntries {m'.word f}) _ G' chain' _ ∧ _
    rw [hput.linked]
    exact ⟨G', H', _, h', hindex, hkept⟩

end Steps

/-! ## §3 — look-ups in progress -/

section Gets

variable {K : Users} {m m' : Shm} {G : Nat → BlockLists} {chain : Nat → List Nat} {map : Nat → Option Nat} {g : Getting}
  {key : Nat} {r : Option Nat}

/-- Nothing a look-up has found out is undone. -/
theorem GetOk.keep (h : GetOk m g) (hi : IndexOk K m G chain map) (hk : LinksKept K m m') : GetOk m' g := by
  have hkeys : ∀ {key l e}, IsBucket (getBucket key) → Leads 0 entryLink m.word (getBucket key) l e → ∀ x ∈ l,
      entryKey m' x = entryKey m x := fun hb hl x hx => hk.key x (hi.mem hb (hi.leads_mem hb hl hx))
  cases g with
  | idle => trivial
  | test key entry =>
    obtain ⟨hkey, l, hl, hno⟩ := h
    have hb : IsBucket (getBucket key) := ⟨key, hkey, rfl⟩
    refine ⟨hkey, l, hk.leads hi hb hl, fun x hx => ?_⟩
    rw [hkeys hb hl x hx]
    exact hno x hx
  | follow key entry =>
    obtain ⟨hkey, hne, l, hl, hno⟩ := h
    have hb : IsBucket (getBucket key) := ⟨key, hkey, rfl⟩
    refine ⟨hkey, ?_, l, hk.leads hi hb hl, fun x hx => ?_⟩
    · rw [hk.link entry (hi.link_end hb hl) hne]
      exact hne
    · rw [hkeys hb hl x hx]
      exact hno x hx
  | compare key obj =>
    obtain ⟨hkey, l, hl, hno⟩ := h
    have hb : IsBucket (getBucket key) := ⟨key, hkey, rfl⟩
    refine ⟨hkey, l, hk.leads hi hb hl, fun x hx => ?_⟩
    rw [hkeys hb hl x (List.mem_append_left _ hx)]
    exact hno x hx
  | value key obj =>
    obtain ⟨hkey, ⟨l, hl⟩, hobj⟩ := h
    have hb : IsBucket (getBucket key) := ⟨key, hkey, rfl⟩
    refine ⟨hkey, ⟨l, hk.leads hi hb hl⟩, ?_⟩
    rw [hkeys hb hl obj (List.mem_append_right _ List.mem_cons_self)]
    exact hobj
  | done key r => trivial

/-- One load finds out more. -/
theorem GetOk.step (h : GetOk m g) : GetOk m (getStep m g) := by
  cases g with
  | idle => trivial
  | test key entry =>
    obtain ⟨hkey, l, hl, hno⟩ := h
    simp only [getStep]
    split
    case isTrue => trivial
    case isFalse hne => exact ⟨hkey, hne, l, hl, hno⟩
  | follow key entry =>
    obtain ⟨hkey, hne, l, hl, hno⟩ := h
    exact ⟨hkey, l, hl.snoc rfl hne, hno⟩
  | compare key obj =>
    obtain ⟨hkey, l, hl, hno⟩ := h
    simp only [getStep]
    split
    case isTrue hk => exact ⟨hkey, ⟨l, hl⟩, hk⟩
    case isFalse hk =>
      refine ⟨hkey, l ++ [obj], hl, fun x hx => ?_⟩
      rcases List.mem_append.mp hx with hx | hx
      · exact hno x hx
      · rw [List.mem_singleton.mp hx]
        exact hk
  | value key obj => trivial
  | done key r => trivial

/-- **The last load answers for that moment.** -/
theorem GetOk.answer (h : GetOk m g) (hi : IndexOk K m G chain map) (hrun : ∀ key r, g ≠ .done key r)
    (hlast : getStep m g = .done key r) : r = map key := by
  cases g with
  | idle => cases hlast
  | test k entry =>
    obtain ⟨hkey, l, hl, hno⟩ := h
    simp only [getStep] at hlast
    split at hlast
    case isFalse => cases hlast
    case isTrue hz =>
      obtain ⟨rfl, rfl⟩ := Getting.done.inj hlast
      have hb : IsBucket (getBucket k) := ⟨k, hkey, rfl⟩
      obtain ⟨f, hf, hend⟩ := hi.path _ hb
      -- what has been passed is the whole chain
      obtain rfl := hl.unique hz hf hend
      rw [hi.map k hkey]
      exact (lookup_eq_none_iff.mpr hno).symm
  | follow k entry => cases hlast
  | compare k obj =>
    simp only [getStep] at hlast
    split at hlast <;> cases hlast
  | value k obj =>
    obtain ⟨hkey, ⟨l, hl⟩, rfl⟩ := h
    obtain ⟨rfl, rfl⟩ := Getting.done.inj hlast
    have hb : IsBucket (getBucket (entryKey m obj)) := ⟨_, hkey, rfl⟩
    have hobj := hi.leads_mem hb hl (List.mem_append_right _ List.mem_cons_self)
    rw [hi.map _ hkey]
    show some (entryValue m obj) = _
    exact (lookup_of_mem (hi.nodup _ hb) hobj).symm
  | done k r' => exact absurd rfl (hrun k r')

end Gets

/-! ## §4 — over all runs -/

section Runs

variable {K : Users} {s s' : IndexWorld} {size key i x : Nat} {r : Option Nat}

/-- The invariant of the area with the index. -/
def IndexWorld.Ok (s : IndexWorld) : Prop := ∃ G H chain, WorldOk s.users s.world G H ∧
  IndexOk s.users s.world.mem G chain s.map ∧ ∀ i, GetOk s.world.mem (s.gets i)

theorem IndexWorld.Fresh.ok (h : s.Fresh K) : s.Ok := by
  obtain ⟨G, H, hok, -⟩ := h.world.ok
  have hempty : s.users.index = ∅ := by
    rw [h.users]
    exact h.world.index
  have hno : ∀ x, x ∉ s.users.index := fun x => by
    rw [hempty]
    exact Finset.notMem_empty x
  rw [← h.users] at hok
  refine ⟨G, H, fun _ => [], hok, ⟨?_, fun x hx => absurd hx (hno x), fun e he => ⟨e, rfl, h.area e he.area⟩, fun x => ?_,
    fun _ _ x hx => absurd hx List.not_mem_nil, fun _ _ => List.nodup_nil, fun key _ => h.map key,
    fun x hx => absurd hx (hno x), fun x hx => absurd hx (hno x)⟩, fun i => ?_⟩
  · rw [h.users]
    exact h.apart
  · refine iff_of_false (hno x) ?_
    rintro ⟨e, -, hx⟩
    exact List.not_mem_nil hx
  · rw [h.gets]
    trivial

/-- **Every step keeps the invariant.** -/
theorem IndexStep.keeps (hs : IndexStep size s s') (h : s.Ok) : s'.Ok := by
  obtain ⟨G, H, chain, hok, hi, hgets⟩ := h
  cases hs with
  | call w hstep =>
    obtain ⟨G', H', hok', hi', hkept⟩ := hstep.index hok hi
    exact ⟨G', H', chain, hok', hi', fun i => (hgets i).keep hi hkept⟩
  | put u fuel key value hu hid hkey hrun =>
    obtain ⟨G', H', chain', hok', hi', hkept⟩ := hok.put hi hu hid hkey hrun
    exact ⟨G', H', chain', hok', hi', fun i => (hgets i).keep hi hkept⟩
  | get i key hkey =>
    refine ⟨G, H, chain, hok, hi, fun j => ?_⟩
    show GetOk s.world.mem (Function.update s.gets i _ j)
    by_cases hj : j = i
    · rw [hj, Function.update_self]
      exact ⟨hkey, [], rfl, fun x hx => absurd hx List.not_mem_nil⟩
    · rw [Function.update_of_ne hj]
      exact hgets j
  | load i =>
    refine ⟨G, H, chain, hok, hi, fun j => ?_⟩
    show GetOk s.world.mem (Function.update s.gets i _ j)
    by_cases hj : j = i
    · rw [hj, Function.update_self]
      exact (hgets i).step
    · rw [Function.update_of_ne hj]
      exact hgets j

/-- **The invariant holds in every state of every run.** -/
theorem IndexReach.ok (h : IndexReach K size s) : s.Ok :=
  @Reach.invariant _ _ _ _ IndexWorld.Ok (fun _ hi _ => hi.ok) (fun _ _ hk _ hs _ => hs.keeps hk) _ h

/-- Loads that nobody disturbs. -/
theorem IndexReach.loads (h : IndexReach K size s) (i n : Nat) :
    IndexReach K size { s with gets := Function.update s.gets i ((getStep s.world.mem)^[n] (s.gets i)) } := by
  induction n with
  | zero =>
    rw [Function.iterate_zero_apply, Function.update_eq_self]
    exact h
  | succ n ih =>
    have hstep := Reach.step ih (.load i) trivial
    simp only [Function.update_self, Function.update_idem] at hstep
    rw [Function.iterate_succ_apply']
    exact hstep

/-- Client 1 has put the value 7 under the key 5, and nobody looks anything up. -/
structure SoloEntry (s : IndexWorld) (x : Nat) : Prop where
  reach : IndexReach soloUsers (2 ^ 27 + 2 ^ 26) s
  map : s.map 5 = some 7
  entry : x ∈ s.users.index

theorem exists_soloEntry : ∃ s x, SoloEntry s x := by
  have hinit : IndexWorld.Fresh soloUsers ⟨soloUsers, soloStart, fun _ => .idle, fun _ => none⟩ := by
    refine ⟨rfl, soloStart_fresh, fun a ha => ?_, fun _ _ => rfl, fun _ => rfl, fun _ => rfl⟩
    obtain rfl : a = 8 := Finset.mem_singleton.mp ha
    unfold InHashArea hashTableStart
    omega
  have hstart : IndexReach soloUsers (2 ^ 27 + 2 ^ 26) ⟨soloUsers, soloStart, fun _ => .idle, fun _ => none⟩ :=
    Reach.init hinit trivial
  have hroom : Claimable (2 ^ 27 + 2 ^ 26) freshArea := ⟨0, rfl, by decide⟩
  obtain ⟨pg, m₁, -, hpage⟩ := cxlPageMalloc_first (b := 4) freshArea_unused.pool.inv.account rfl (Or.inr hroom)
  have hsearch : findEntry 5 2 (putBucket 1 5) freshArea = some (.vacant (putBucket 1 5)) := rfl
  have hbin : cxlPageQueue false (3 * 8 + sizeofCxlObj) = 4 := rfl
  obtain ⟨m', hrun⟩ : ∃ m', put 2 1 (2 ^ 27 + 2 ^ 26) 5 7 freshArea = some m' := by
    rw [put, hsearch, hbin]
    simp only [Option.bind_eq_bind, Option.bind_some, hpage]
    exact ⟨_, rfl⟩
  have hput := Reach.step hstart (.put 1 2 5 7 (Finset.mem_singleton_self 1) (by decide) (by decide) hrun) trivial
  refine ⟨_, m'.word (putBucket 1 5), hput, ?_, ?_⟩
  · show Function.update (fun _ => none) 5 (some 7) 5 = some 7
    rw [Function.update_self]
  · apply mem_index_withEntries.mpr
    exact Or.inr (Finset.mem_singleton_self _)

/-- **The index is a finite map**: in every state a look-up that runs alone comes to an end, with what the latest `put`
of the key stored, or with nothing if there was none. -/
theorem index_refines_map (h : IndexReach K size s) (hkey : key / 2 ^ 56 < 64) :
    ∃ n, ∀ fuel ≥ n, get fuel key s.world.mem = some (s.map key) := by
  obtain ⟨G, H, chain, hok, hi, -⟩ := h.ok
  obtain ⟨f, hl, hf⟩ := hi.path _ ⟨key, hkey, rfl⟩
  refine ⟨(chain (getBucket key)).length + 1, fun fuel hfuel => ?_⟩
  have hsearch : findEntry key fuel (getBucket key) s.world.mem =
      some (chainSearch s.world.mem key (chain (getBucket key)) f) := findEntry_chain hl hf (by omega)
  have hresult : (chainSearch s.world.mem key (chain (getBucket key)) f).result s.world.mem =
      lookup (entryKey s.world.mem) (entryValue s.world.mem) (chain (getBucket key)) key := chainSearch_result
  unfold get
  rw [hsearch, Option.map_some, hi.map key hkey, ← hresult]
  cases chainSearch s.world.mem key (chain (getBucket key)) f <;> rfl

theorem index_refines_map_solo : ∃ s : IndexWorld, s.map 5 = some 7 ∧
    ∃ n, ∀ fuel ≥ n, get fuel 5 s.world.mem = some (s.map 5) := by
  obtain ⟨s, x, h⟩ := exists_soloEntry
  exact ⟨s, h.map, index_refines_map h.reach (by decide)⟩

/-- **Look-ups are linearizable**: whatever happened between its loads, a look-up answers what the map says at its last
load. -/
theorem get_linearizable (h : IndexReach K size s) (hrun : ∀ key r, s.gets i ≠ .done key r)
    (hlast : getStep s.world.mem (s.gets i) = .done key r) : r = s.map key := by
  obtain ⟨G, H, chain, hok, hi, hgets⟩ := h.ok
  exact (hgets i).answer hi hrun hlast

theorem get_linearizable_solo : ∃ (s : IndexWorld) (r : Option Nat), getStep s.world.mem (s.gets 0) = .done 5 r ∧
    s.map 5 = some 7 ∧ r = s.map 5 := by
  obtain ⟨s, x, h⟩ := exists_soloEntry
  have hbegin := Reach.step h.reach (.get 0 5 (by decide)) trivial
  obtain ⟨n, hn⟩ : ∃ n, ∀ fuel ≥ n, get fuel 5 s.world.mem = some (s.map 5) := index_refines_map h.reach (by decide)
  -- the load before the look-up is over
  have hdone : ∃ k, (getStep s.world.mem)^[k] (.test 5 (getBucket 5)) = .done 5 (s.map 5) := get_iterate (hn n (Nat.le_refl n))
  classical
  obtain ⟨k, hk⟩ : ∃ k, Nat.find hdone = k + 1 := by
    apply Nat.exists_eq_succ_of_ne_zero
    intro h0
    have hspec := Nat.find_spec hdone
    rw [h0] at hspec
    cases hspec
  have hlast := Nat.find_spec hdone
  rw [hk, Function.iterate_succ_apply'] at hlast
  have hreach := IndexReach.loads hbegin 0 k
  simp only [Function.update_self, Function.update_idem] at hreach
  generalize hgets : Function.update s.gets 0 ((getStep s.world.mem)^[k] (.test 5 (getBucket 5))) = gets at hreach
  have hself : gets 0 = (getStep s.world.mem)^[k] (.test 5 (getBucket 5)) := by
    rw [← hgets, Function.update_self]
  have hstep : getStep s.world.mem (gets 0) = .done 5 (s.map 5) := by
    rw [hself]
    exact hlast
  refine ⟨⟨s.users, s.world, gets, s.map⟩, s.map 5, hstep, h.map, get_linearizable hreach (fun key r hr => ?_) hstep⟩
  have hr : (getStep s.world.mem)^[k] (.test 5 (getBucket 5)) = .done key r := hself.symm.trans hr
  rw [hr] at hlast
  exact Nat.find_min hdone (show k < Nat.find hdone by omega) (hr.trans hlast)

/-- **Every entry is kept by one link**: its block is in use and is nobody's object, its count is 1, and of all words
that refer to blocks only one link of the index refers to it. -/
theorem index_entry_exact (h : IndexReach K size s) (hx : x ∈ s.users.index) :
    InHand s.users s.world.mem 4 x ∧ s.world.mem.refCnt x = 1 ∧
      (∃! a, IsLink s.users a ∧ s.world.mem.word a = x) ∧
      ∀ a, RefWord s.users s.world.mem a → s.world.mem.word a ≠ x := by
  obtain ⟨G, H, chain, hok, hi, -⟩ := h.ok
  have hx0 : x ≠ 0 := (hi.held x hx).ne_zero
  refine ⟨hok.heap.pools.inHand_iff.mpr (hi.held x hx), hi.count x hx, hi.existsUnique_link hx hx0, fun a ha hax => ?_⟩
  have hobj := hok.heap.exact.obj (hok.heap.refWord_iff.mp ha) (by rwa [hax])
  rw [hax] at hobj
  exact ((hok.heap.view.obj x).mp hobj).1 hx

theorem index_entry_exact_solo : ∃ (s : IndexWorld) (x : Nat), x ∈ s.users.index ∧
    InHand s.users s.world.mem 4 x ∧ s.world.mem.refCnt x = 1 ∧
      (∃! a, IsLink s.users a ∧ s.world.mem.word a = x) ∧
      ∀ a, RefWord s.users s.world.mem a → s.world.mem.word a ≠ x := by
  obtain ⟨s, x, h⟩ := exists_soloEntry
  exact ⟨s, x, h.entry, index_entry_exact h.reach h.entry⟩

end Runs

end CxlShm
