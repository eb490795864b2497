import CxlShm.DropInvariant

/-! # DropSteps — every access of `test_free` keeps the invariant

`Effect` is what one access of an activation does to the area, as far as the other activations and the
global clauses are concerned. The accesses that write are the compare-exchange, the store to the slot
and the `memset` of the header; the others move only the stack or the era matrix.
-/

namespace CxlShm

open Transition SlotCount

section Steps

variable {W : DropWorld} {s : DropSys} {i : Nat} {f : DropFrame} {rest : List DropFrame}

/-! ## §1 — gluing the parts -/

/-- What an access of the activation `f` may do to the area. -/
structure Effect (W : DropWorld) (s : DropSys) (f : DropFrame) (m : Shm) : Prop where
  slot : ∀ a ∈ W.slots, a ≠ f.ref → m.word a = s.shm.word a
  own : m.word f.ref = s.shm.word f.ref ∨ m.word f.ref = 0
  dead : ∀ o ∈ W.objs, s.shm.refCnt o = 0 → m.refCnt o = 0
  one : ∀ o ∈ W.objs, s.shm.refCnt o = 1 →
    (∃ j ∈ W.ids, ∃ g ∈ s.stack j, g ≠ f ∧ g.pending = none ∧ s.shm.word g.ref = o) → m.refCnt o = 1
  embedded : ∀ o ∈ W.objs, m.refCnt o ≠ 0 → m.word (o + 16) = s.shm.word (o + 16)
  era : ∀ k, m.eraCell k < 2 ^ 32

theorem Effect.zero {m : Shm} (he : Effect W s f m) :
    ∀ a ∈ W.slots, s.shm.word a = 0 → m.word a = 0 := by
  intro a ha h0
  by_cases haf : a = f.ref
  · subst haf
    rcases he.own with h | h
    · rw [h, h0]
    · exact h
  · rw [he.slot a ha haf, h0]

theorem Effect.spared (h : DropInv W s) {m : Shm} (he : Effect W s f m) (hi : i ∈ W.ids)
    (hf : f ∈ s.stack i) {j : Nat} (hj : j ∈ W.ids) {g : DropFrame} (hg : g ∈ s.stack j)
    (hgf : g ≠ f) : Spared W g s.shm m := by
  refine ⟨?_, he.zero, he.dead, ?_⟩
  · apply he.slot _ (h.ref_mem hj hg)
    intro href
    exact hgf (h.frame_eq hj hi hg hf href).2
  · intro o ho hp hw hone
    exact he.one o ho hone ⟨j, hj, g, hg, hgf, hp, hw⟩

theorem pendingOf_update (st : Nat → List DropFrame) (l : List DropFrame) :
    (fun j => pendingOf (Function.update st i l j)) =
      Function.update (fun j => pendingOf (st j)) i (pendingOf l) := by
  funext j
  by_cases hji : j = i
  · subst hji
    simp
  · simp [hji]

/-- An orphan has no activation on its slots. -/
theorem DropInv.orphan_slot_free (h : DropInv W s) (hi : i ∈ W.ids) (hf : f ∈ s.stack i) {o k : Nat}
    (ho : o ∈ s.orphans) (hk : k < W.emb o) : embeddedSlot o k ≠ f.ref := by
  obtain ⟨hobj, hdead, -⟩ := h.orphan o ho
  intro heq
  rcases (h.linked i hi).caller hf with hroot | ⟨g, hg, o', k', hpc, href⟩
  · exact ObjHeap.root_ne_embeddedSlot (W.mem_roots hi hroot) hobj hk heq.symm
  · have hok := h.frame i hi g hg
    unfold FrameOk at hok
    rw [hpc] at hok
    obtain ⟨rfl, -⟩ := ObjHeap.embeddedSlot_inj hobj hok.1.obj hk hok.2 (heq.trans href)
    rw [hok.1.one] at hdead
    cases hdead

/-- **The step rule.** The top activation moves to `pc` and the area to `m`. -/
theorem DropInv.replace (h : DropInv W s) (hi : i ∈ W.ids) (hst : s.stack i = f :: rest)
    (pc : DropPc) (m : Shm) (orphans : Finset Nat) (he : Effect W s f m)
    (hown : FrameOk W m (f.to pc))
    (hcount : ∀ o ∈ W.objs, m.refCnt o +
      holding W.ids (Function.update (fun j => pendingOf (s.stack j)) i (f.to pc).pending) (some o) =
        holding W.slots m.word o)
    (hsub : s.orphans ⊆ orphans)
    (hdead : ∀ o ∈ W.objs, s.shm.refCnt o ≠ 0 → m.refCnt o = 0 → o ∉ orphans →
      ∀ k < W.emb o, m.word (embeddedSlot o k) = 0)
    (horphan : ∀ o ∈ orphans, o ∉ s.orphans → o ∈ W.objs ∧ m.refCnt o = 0 ∧
      ∃ k < W.emb o, m.word (embeddedSlot o k) ≠ 0) :
    DropInv W ⟨m, Function.update s.stack i (f.to pc :: rest), orphans⟩ := by
  have hf : f ∈ s.stack i := by
    rw [hst]
    exact List.mem_cons_self
  have hmem : ∀ j ∈ W.ids, ∀ g ∈ Function.update s.stack i (f.to pc :: rest) j,
      (j = i ∧ g = f.to pc) ∨ (g ∈ s.stack j ∧ g ≠ f) := by
    intro j hj g hg
    by_cases hji : j = i
    · subst hji
      rw [Function.update_self] at hg
      rcases List.mem_cons.mp hg with rfl | hg
      · exact Or.inl ⟨rfl, rfl⟩
      · refine Or.inr ⟨by rw [hst]; exact List.mem_cons_of_mem _ hg, ?_⟩
        intro hgf
        rw [hgf] at hg
        have hnd := h.nodup j hj
        rw [hst, List.map_cons, List.nodup_cons] at hnd
        exact hnd.1 (List.mem_map_of_mem hg)
    · rw [Function.update_of_ne hji] at hg
      refine Or.inr ⟨hg, ?_⟩
      rintro rfl
      exact h.apart j hj i hi hji g hg g hf rfl
  have href : ∀ j, (Function.update s.stack i (f.to pc :: rest) j).map DropFrame.ref =
      (s.stack j).map DropFrame.ref := by
    intro j
    by_cases hji : j = i
    · subst hji
      rw [Function.update_self, hst]
      rfl
    · rw [Function.update_of_ne hji]
  refine ⟨?_, ?_, ?_, ?_, ?_, ?_, ?_, he.era, ?_, ?_⟩
  · intro j hj g hg
    rcases hmem j hj g hg with ⟨rfl, rfl⟩ | ⟨hg, hgf⟩
    · exact hown
    · exact (h.frame j hj g hg).spared (he.spared h hi hf hj hg hgf)
  · intro j hj
    show Linked W j (Function.update s.stack i (f.to pc :: rest) j)
    by_cases hji : j = i
    · subst hji
      have hl := h.linked j hj
      rw [hst] at hl
      rw [Function.update_self]
      exact hl.to pc
    · rw [Function.update_of_ne hji]
      exact h.linked j hj
  · intro j hj
    show ((Function.update s.stack i (f.to pc :: rest) j).map DropFrame.ref).Nodup
    rw [href]
    exact h.nodup j hj
  · intro j hj k hk hjk g hg e he' heq
    have hgr : g.ref ∈ (s.stack j).map DropFrame.ref := by
      rw [← href j]
      exact List.mem_map_of_mem hg
    have her : e.ref ∈ (s.stack k).map DropFrame.ref := by
      rw [← href k]
      exact List.mem_map_of_mem he'
    obtain ⟨g', hg', hgr⟩ := List.mem_map.mp hgr
    obtain ⟨e', he', her⟩ := List.mem_map.mp her
    exact h.apart j hj k hk hjk g' hg' e' he' (by rw [hgr, her, heq])
  · intro o ho
    show m.refCnt o + holding W.ids
      (fun j => pendingOf (Function.update s.stack i (f.to pc :: rest) j)) (some o) = _
    rw [pendingOf_update]
    exact hcount o ho
  · intro o ho hne
    show m.word (o + 16) = _
    rw [he.embedded o ho hne]
    exact h.embedded o ho fun h0 => hne (he.dead o ho h0)
  · intro a ha
    show m.word a = 0 ∨ m.word a ∈ W.objs
    by_cases haf : a = f.ref
    · subst haf
      rcases he.own with hw | hw
      · rw [hw]
        exact h.target _ ha
      · exact Or.inl hw
    · rw [he.slot a ha haf]
      exact h.target a ha
  · intro o ho h0 hno k hk
    by_cases hold : s.shm.refCnt o = 0
    · exact he.zero _ (ObjHeap.embeddedSlot_mem ho hk)
        (h.dead o ho hold (fun hin => hno (hsub hin)) k hk)
    · exact hdead o ho hold h0 hno k hk
  · intro o ho
    by_cases hold : o ∈ s.orphans
    · -- nobody drops a slot of an object that is already lost
      obtain ⟨hobj, h0, k, hk, hne⟩ := h.orphan o hold
      refine ⟨hobj, he.dead o hobj h0, k, hk, ?_⟩
      show m.word (embeddedSlot o k) ≠ 0
      rw [he.slot _ (ObjHeap.embeddedSlot_mem hobj hk) (h.orphan_slot_free hi hf hold hk)]
      exact hne
    · exact horphan o ho hold

/-- An access that changes neither a word nor what is pending. -/
theorem DropInv.quiet (h : DropInv W s) (hi : i ∈ W.ids) (hst : s.stack i = f :: rest) (pc : DropPc)
    (m : Shm) (hword : m.word = s.shm.word) (hera : ∀ k, m.eraCell k < 2 ^ 32)
    (hp : (f.to pc).pending = f.pending) (hown : FrameOk W s.shm (f.to pc)) :
    DropInv W ⟨m, Function.update s.stack i (f.to pc :: rest), s.orphans⟩ := by
  have hcnt : ∀ o, m.refCnt o = s.shm.refCnt o := by
    intro o
    unfold Shm.refCnt Shm.refInfo
    rw [hword]
  refine h.replace hi hst pc m s.orphans ?_ ?_ ?_ (fun _ ho => ho) ?_ ?_
  · refine ⟨fun a _ _ => by rw [hword], Or.inl (by rw [hword]), ?_, ?_, ?_, hera⟩
    · intro o _ h0
      rw [hcnt, h0]
    · intro o _ h1 _
      rw [hcnt, h1]
    · intro o _ _
      rw [hword]
  · refine hown.spared ⟨by rw [hword], fun a _ h0 => by rw [hword, h0], ?_, ?_⟩
    · intro o _ h0
      rw [hcnt, h0]
    · intro o _ _ _ h1
      rw [hcnt, h1]
  · intro o ho
    have hsame : Function.update (fun j => pendingOf (s.stack j)) i (f.to pc).pending =
        fun j => pendingOf (s.stack j) := by
      rw [hp]
      have : f.pending = (fun j => pendingOf (s.stack j)) i := by
        simp only [hst]
        rfl
      rw [this, Function.update_eq_self]
    rw [hsame, hcnt, hword]
    exact h.count o ho
  · intro o _ hne h0
    rw [hcnt] at h0
    exact absurd h0 hne
  · intro o ho hno
    exact absurd ho hno

/-- The stack of one client changes, the area does not. -/
theorem DropInv.restack (h : DropInv W s) (hi : i ∈ W.ids) (st : List DropFrame)
    (hframe : ∀ g ∈ st, FrameOk W s.shm g) (hlinked : Linked W i st)
    (hnodup : (st.map DropFrame.ref).Nodup)
    (hapart : ∀ j ∈ W.ids, i ≠ j → ∀ g ∈ st, ∀ e ∈ s.stack j, g.ref ≠ e.ref)
    (hp : pendingOf st = pendingOf (s.stack i)) :
    DropInv W ⟨s.shm, Function.update s.stack i st, s.orphans⟩ := by
  refine ⟨?_, ?_, ?_, ?_, ?_, h.embedded, h.target, h.era, h.dead, h.orphan⟩
  · intro j hj
    show ∀ g ∈ Function.update s.stack i st j, _
    by_cases hji : j = i
    · subst hji
      rw [Function.update_self]
      exact hframe
    · rw [Function.update_of_ne hji]
      exact h.frame j hj
  · intro j hj
    show Linked W j (Function.update s.stack i st j)
    by_cases hji : j = i
    · subst hji
      rw [Function.update_self]
      exact hlinked
    · rw [Function.update_of_ne hji]
      exact h.linked j hj
  · intro j hj
    show ((Function.update s.stack i st j).map DropFrame.ref).Nodup
    by_cases hji : j = i
    · subst hji
      rw [Function.update_self]
      exact hnodup
    · rw [Function.update_of_ne hji]
      exact h.nodup j hj
  · intro j hj k hk hjk g hg e he
    change g ∈ Function.update s.stack i st j at hg
    change e ∈ Function.update s.stack i st k at he
    by_cases hji : j = i
    · subst hji
      rw [Function.update_self] at hg
      rw [Function.update_of_ne (Ne.symm hjk)] at he
      exact hapart k hk hjk g hg e he
    · rw [Function.update_of_ne hji] at hg
      by_cases hki : k = i
      · subst hki
        rw [Function.update_self] at he
        exact (hapart j hj (Ne.symm hji) e he g hg).symm
      · rw [Function.update_of_ne hki] at he
        exact h.apart j hj k hk hjk g hg e he
  · intro o ho
    show s.shm.refCnt o + holding W.ids
      (fun j => pendingOf (Function.update s.stack i st j)) (some o) = _
    rw [pendingOf_update, hp, Function.update_eq_self i (fun j => pendingOf (s.stack j))]
    exact h.count o ho

/-! ## §2 — calls and returns -/

/-- An activation that has emptied its slot returns. -/
theorem DropInv.pop (h : DropInv W s) (hi : i ∈ W.ids) (hst : s.stack i = f :: rest)
    (hzero : s.shm.word f.ref = 0) (hp : f.pending = none) :
    DropInv W ⟨s.shm, Function.update s.stack i (returned rest), s.orphans⟩ := by
  have hl := h.linked i hi
  have hnd := h.nodup i hi
  have hfr := h.frame i hi
  have hap := h.apart i hi
  rw [hst] at hl hnd hfr hap
  cases rest with
  | nil =>
    refine h.restack hi [] (fun g hg => absurd hg List.not_mem_nil) trivial List.nodup_nil ?_ ?_
    · intro _ _ _ g hg
      exact absurd hg List.not_mem_nil
    · rw [hst]
      exact hp.symm
  | cons g rest =>
    obtain ⟨⟨o, k, hpc, href⟩, hl⟩ := hl
    have hret : returned (g :: rest) = g.to (.loop o (k + 1)) :: rest := by
      simp only [returned, hpc]
    rw [hret]
    have hok := hfr g (List.mem_cons_of_mem _ List.mem_cons_self)
    unfold FrameOk at hok
    rw [hpc] at hok
    obtain ⟨htorn, hk⟩ := hok
    refine h.restack hi _ ?_ (hl.to _) ?_ ?_ ?_
    · intro e he
      rcases List.mem_cons.mp he with rfl | he
      · -- the child just returned is released too
        refine ⟨htorn.word, htorn.obj, htorn.one, ?_⟩
        intro j hj hjk
        by_cases hjk' : j = k
        · rw [hjk', ← href, hzero]
        · exact htorn.released j hj (by omega)
      · exact hfr e (List.mem_cons_of_mem _ (List.mem_cons_of_mem _ he))
    · rw [List.map_cons] at hnd
      exact hnd.of_cons
    · intro j hj hij e he
      rcases List.mem_cons.mp he with rfl | he
      · exact hap j hj hij g (List.mem_cons_of_mem _ List.mem_cons_self)
      · exact hap j hj hij e (List.mem_cons_of_mem _ (List.mem_cons_of_mem _ he))
    · rw [hst]
      exact hp.symm

/-- The recursive call on child `k` of an object of which this activation is the last holder. -/
theorem DropInv.push (h : DropInv W s) (hi : i ∈ W.ids) (hst : s.stack i = f :: rest) {o k : Nat}
    (hpc : f.pc = .loop o k) (hk : k < W.emb o) :
    DropInv W ⟨s.shm, Function.update s.stack i
      (⟨embeddedSlot o k, .test⟩ :: f.to (.inChild o k) :: rest), s.orphans⟩ := by
  have hf : f ∈ s.stack i := by
    rw [hst]
    exact List.mem_cons_self
  have hp : f.pending = none := by simp [DropFrame.pending, hpc]
  have htorn := h.frame i hi f hf
  unfold FrameOk at htorn
  rw [hpc] at htorn
  -- an activation on that slot would be called by another last holder of `o`
  have hfree : ∀ j ∈ W.ids, ∀ g ∈ s.stack j, g.ref ≠ embeddedSlot o k := by
    intro j hj g hg heq
    rcases (h.linked j hj).caller hg with hroot | ⟨e, he, o', k', hepc, href⟩
    · exact ObjHeap.root_ne_embeddedSlot (W.mem_roots hj hroot) htorn.obj hk heq
    · have hok := h.frame j hj e he
      unfold FrameOk at hok
      rw [hepc] at hok
      obtain ⟨rfl, rfl⟩ :=
        ObjHeap.embeddedSlot_inj htorn.obj hok.1.obj hk hok.2 (heq.symm.trans href)
      have hep : e.pending = none := by simp [DropFrame.pending, hepc]
      obtain ⟨-, rfl⟩ := h.sole hi hj hf he hp hep htorn.word hok.1.word htorn.obj htorn.one
      rw [hpc] at hepc
      cases hepc
  have hl := h.linked i hi
  have hnd := h.nodup i hi
  rw [hst] at hl hnd
  refine h.restack hi _ ?_ ⟨⟨o, k, rfl, rfl⟩, hl.to _⟩ ?_ ?_ ?_
  · intro g hg
    rcases List.mem_cons.mp hg with rfl | hg
    · trivial
    · rcases List.mem_cons.mp hg with rfl | hg
      · exact ⟨htorn, hk⟩
      · exact h.frame i hi g (by rw [hst]; exact List.mem_cons_of_mem _ hg)
  · rw [List.map_cons, List.nodup_cons]
    refine ⟨?_, hnd⟩
    intro hmem
    have hmem' : embeddedSlot o k ∈ (s.stack i).map DropFrame.ref := by
      rw [hst]
      exact hmem
    obtain ⟨g, hg, href⟩ := List.mem_map.mp hmem'
    exact hfree i hi g hg href
  · intro j hj hij g hg e he
    rcases List.mem_cons.mp hg with rfl | hg
    · exact (hfree j hj e he).symm
    · rcases List.mem_cons.mp hg with rfl | hg
      · exact h.apart i hi j hj hij f hf e he
      · exact h.apart i hi j hj hij g (by rw [hst]; exact List.mem_cons_of_mem _ hg) e he
  · rw [hst]
    exact hp.symm

/-! ## §3 — the accesses that write -/

theorem Orphans.unlinks_eq {spurious : Bool} {m : Shm} {c : RefCall} {pc : RefPc} {deep : Bool}
    (hpc : f.pc = .unlink c pc deep) (h : Orphans spurious m f) :
    f.unlinks = c.refed ∧ m.refCnt c.refed = 1 ∧ HasChild m c.refed := by
  unfold Orphans at h
  rw [hpc] at h
  refine ⟨?_, h.2.2.1, h.2.2.2⟩
  unfold DropFrame.unlinks
  rw [hpc]

/-- The successful compare-exchange: the count goes down by one, the slot is pending from here on. -/
theorem DropInv.cas (h : DropInv W s) (hi : i ∈ W.ids) (hst : s.stack i = f :: rest) {c : RefCall}
    {info cur : Nat} {deep spurious : Bool} (hpc : f.pc = .unlink c (.cas info cur) deep)
    (hsame : s.shm.refInfo c.refed = info) (hsp : spurious = false) :
    DropInv W ⟨s.shm.store (c.refed + 8) (c.stamp i info cur),
      Function.update s.stack i (f.to (.unlink c (.storeRef info) deep) :: rest),
      if Orphans spurious s.shm f then insert f.unlinks s.orphans else s.orphans⟩ := by
  have hf : f ∈ s.stack i := by
    rw [hst]
    exact List.mem_cons_self
  have hp : f.pending = none := by simp [DropFrame.pending, hpc]
  have hok := h.frame i hi f hf
  unfold FrameOk at hok
  rw [hpc] at hok
  obtain ⟨hfunc, href, hobj, ⟨hword, hdeep⟩, hcur⟩ := hok
  have hpos := h.refCnt_pos hi hf hp hword hobj
  have hinfo : getRefCntFromInfo info = s.shm.refCnt c.refed := by
    rw [← hsame]
    rfl
  -- the count after the exchange
  have hnew : (s.shm.store (c.refed + 8) (c.stamp i info cur)).refCnt c.refed =
      s.shm.refCnt c.refed - 1 := by
    have hlt := getRefCntFromInfo_lt info
    have hcnt : c.newCnt (getRefCntFromInfo info) = s.shm.refCnt c.refed - 1 := by
      unfold RefCall.newCnt
      rw [hfunc, hinfo]
      rw [hinfo] at hlt
      show (s.shm.refCnt c.refed + (2 ^ 64 - 1)) % 2 ^ 64 = _
      omega
    have hid : i < 2 ^ 16 := by
      have := (W.ids_range i hi).2
      simp only [maxThread] at this
      omega
    unfold Shm.refCnt Shm.refInfo
    rw [Shm.store_word, Function.update_self]
    unfold RefCall.stamp
    rw [getRefCntFromInfo_pack hid (by rw [hcnt, ← hinfo]; omega) hcur, hcnt]
    rfl
  have hother : ∀ o ∈ W.objs, o ≠ c.refed →
      (s.shm.store (c.refed + 8) (c.stamp i info cur)).refCnt o = s.shm.refCnt o := by
    intro o ho hne
    exact store_refCnt_of_ne (ObjHeap.header_apart ho hobj hne (j := 1) (l := 1) (by decide) (by decide))
  have hslot : ∀ a ∈ W.slots,
      (s.shm.store (c.refed + 8) (c.stamp i info cur)).word a = s.shm.word a := by
    intro a ha
    exact Function.update_of_ne (ObjHeap.slot_ne_header ha hobj (j := 1) (by decide)) ..
  refine h.replace hi hst _ _ _ ?_ ?_ ?_ ?_ ?_ ?_
  · refine ⟨fun a ha _ => hslot a ha, Or.inl (hslot _ (h.ref_mem hi hf)), ?_, ?_, ?_, h.era⟩
    · intro o ho h0
      by_cases hoc : o = c.refed
      · rw [hoc] at h0
        omega
      · rw [hother o ho hoc, h0]
    · rintro o ho hone ⟨j, hj, g, hg, hgf, hgp, hgw⟩
      by_cases hoc : o = c.refed
      · -- two activations would hold an object of count 1
        rw [hoc] at hgw hone
        exact absurd (h.sole hi hj hf hg hp hgp hword hgw hobj hone).2.symm hgf
      · rw [hother o ho hoc, hone]
    · intro o ho _
      refine Function.update_of_ne ?_ ..
      by_cases hoc : o = c.refed
      · omega
      · exact ObjHeap.header_apart ho hobj hoc (j := 2) (l := 1) (by decide) (by decide)
  · refine ⟨hfunc, href, hobj, (hslot _ (h.ref_mem hi hf)).trans hword, ?_⟩
    · intro h1
      rw [hnew, ← hinfo, h1]
  · intro o ho
    have hpend := holding_update_mem (fun j => pendingOf (s.stack j)) (some c.refed) (some o) hi
    have hnone : pendingOf (s.stack i) = none := by
      rw [hst]
      exact hp
    have hcount := h.count o ho
    have hslots : holding W.slots (s.shm.store (c.refed + 8) (c.stamp i info cur)).word o =
        holding W.slots s.shm.word o := holding_congr o hslot
    have hpc' : (f.to (.unlink c (.storeRef info) deep)).pending = some c.refed := rfl
    rw [hpc', hslots]
    simp only [hnone] at hpend
    rw [hit_ne (by simp)] at hpend
    by_cases hoc : o = c.refed
    · subst hoc
      rw [hit_self] at hpend
      rw [hnew]
      omega
    · rw [hit_ne (by simpa using Ne.symm hoc)] at hpend
      rw [hother o ho hoc]
      omega
  · intro o ho
    split
    · exact Finset.mem_insert_of_mem ho
    · exact ho
  · intro o ho hne h0 hno k hk
    have hoc : o = c.refed := by
      by_contra hoc
      rw [hother o ho hoc] at h0
      exact hne h0
    subst hoc
    have hone : s.shm.refCnt c.refed = 1 := by omega
    rw [hslot _ (ObjHeap.embeddedSlot_mem ho hk)]
    cases hd : deep with
    | true => exact (hdeep hd).released k hk hk
    | false =>
      -- not recorded as an orphan: there was no child left
      by_contra hchild
      apply hno
      have hor : Orphans spurious s.shm f := by
        unfold Orphans
        rw [hpc]
        refine ⟨⟨hsame, hsp⟩, hd, hone, k, ?_, hchild⟩
        rw [h.embedded _ ho hne]
        exact hk
      rw [if_pos hor, (hor.unlinks_eq hpc).1]
      exact Finset.mem_insert_self ..
  · intro o ho hno
    split at ho
    · rename_i hor
      obtain ⟨hun, hone, k, hk, hne⟩ := hor.unlinks_eq hpc
      rw [hun] at ho
      rcases Finset.mem_insert.mp ho with rfl | ho
      · rw [h.embedded _ hobj (by omega)] at hk
        refine ⟨hobj, by rw [hnew, hone], k, hk, ?_⟩
        rw [hslot _ (ObjHeap.embeddedSlot_mem hobj hk)]
        exact hne
      · exact absurd ho hno
    · exact absurd ho hno

/-- `_ref = 0`: the slot of the activation is emptied and stops being pending. -/
theorem DropInv.storeRef (h : DropInv W s) (hi : i ∈ W.ids) (hst : s.stack i = f :: rest)
    {c : RefCall} {info : Nat} {deep : Bool} (hpc : f.pc = .unlink c (.storeRef info) deep) :
    DropInv W ⟨s.shm.store c.ref c.target,
      Function.update s.stack i (f.to (.unlink c (.bumpEra info) deep) :: rest), s.orphans⟩ := by
  have hf : f ∈ s.stack i := by
    rw [hst]
    exact List.mem_cons_self
  have hp : f.pending = some c.refed := by simp [DropFrame.pending, hpc]
  have hok := h.frame i hi f hf
  unfold FrameOk at hok
  rw [hpc] at hok
  obtain ⟨hfunc, href, hobj, hword, hdead⟩ := hok
  have hslots := h.ref_mem hi hf
  have htar : c.target = 0 := by
    unfold RefCall.target
    rw [hfunc]
  rw [href, htar]
  have hcnt : ∀ o ∈ W.objs, (s.shm.store f.ref 0).refCnt o = s.shm.refCnt o := by
    intro o ho
    exact store_refCnt_of_ne (ObjHeap.slot_ne_header hslots ho (j := 1) (by decide)).symm
  refine h.replace hi hst _ _ _ ?_ ?_ ?_ (fun _ ho => ho) ?_ ?_
  · refine ⟨fun a _ ha => Function.update_of_ne ha .., Or.inr (Function.update_self ..), ?_, ?_, ?_,
      h.era⟩
    · intro o ho h0
      rw [hcnt o ho, h0]
    · intro o ho h1 _
      rw [hcnt o ho, h1]
    · intro o ho _
      exact Function.update_of_ne (ObjHeap.slot_ne_header hslots ho (j := 2) (by decide)).symm ..
  · refine ⟨hfunc, href, hobj, Function.update_self .., ?_⟩
    intro h1
    rw [hcnt _ hobj]
    exact hdead h1
  · intro o ho
    have hpend := holding_update_mem (fun j => pendingOf (s.stack j)) none (some o) hi
    have hsome : pendingOf (s.stack i) = some c.refed := by
      rw [hst]
      exact hp
    have hslot := holding_update_mem s.shm.word 0 o hslots
    have hcount := h.count o ho
    have h0 : hit 0 o = 0 := hit_ne fun h0 => W.zero_not_obj (h0 ▸ ho)
    have hpc' : (f.to (.unlink c (.bumpEra info) deep)).pending = none := rfl
    rw [hpc', hcnt o ho, Shm.store_word]
    simp only [hsome] at hpend
    rw [hit_ne (by simp : (none : Option Nat) ≠ some o)] at hpend
    rw [hword, h0] at hslot
    by_cases hoc : o = c.refed
    · subst hoc
      rw [hit_self] at hpend hslot
      omega
    · rw [hit_ne (by simpa using Ne.symm hoc)] at hpend
      rw [hit_ne (Ne.symm hoc)] at hslot
      omega
  · intro o ho hne h0
    rw [hcnt o ho] at h0
    exact absurd h0 hne
  · intro o ho hno
    exact absurd ho hno

/-- One word of the header of a freed object. -/
theorem DropInv.wipe (h : DropInv W s) (hi : i ∈ W.ids) (hst : s.stack i = f :: rest)
    {c : RefCall} {k : Nat} {deep : Bool} (hpc : f.pc = .unlink c (.wipe k) deep) {pc : RefPc}
    (hpc' : pc = if k + 1 < 3 then .wipe (k + 1) else .done) :
    DropInv W ⟨s.shm.store (c.refed + 8 * k) 0,
      Function.update s.stack i (f.to (.unlink c pc deep) :: rest), s.orphans⟩ := by
  have hf : f ∈ s.stack i := by
    rw [hst]
    exact List.mem_cons_self
  have hok := h.frame i hi f hf
  unfold FrameOk at hok
  rw [hpc] at hok
  obtain ⟨hfunc, href, hobj, hword, hdead, hk⟩ := hok
  have hslot : ∀ a ∈ W.slots, (s.shm.store (c.refed + 8 * k) 0).word a = s.shm.word a := by
    intro a ha
    exact Function.update_of_ne (ObjHeap.slot_ne_header ha hobj hk) ..
  have hcnt : ∀ o ∈ W.objs, (s.shm.store (c.refed + 8 * k) 0).refCnt o = s.shm.refCnt o := by
    intro o ho
    by_cases hoc : o = c.refed
    · subst hoc
      rw [hdead]
      by_cases hk1 : k = 1
      · subst hk1
        unfold Shm.refCnt Shm.refInfo
        rw [Shm.store_word, Function.update_self]
        rfl
      · rw [store_refCnt_of_ne (by omega), hdead]
    · exact store_refCnt_of_ne (ObjHeap.header_apart ho hobj hoc (j := 1) (by decide) hk)
  have hpend : (f.to (.unlink c pc deep)).pending = f.pending := by
    have hnone : f.pending = none := by simp [DropFrame.pending, hpc]
    rw [hpc', hnone]
    by_cases hlt : k + 1 < 3
    · rw [if_pos hlt]
      rfl
    · rw [if_neg hlt]
      rfl
  refine h.replace hi hst _ _ _ ?_ ?_ ?_ (fun _ ho => ho) ?_ ?_
  · refine ⟨fun a ha _ => hslot a ha, Or.inl (hslot _ (h.ref_mem hi hf)), ?_, ?_, ?_, h.era⟩
    · intro o ho h0
      rw [hcnt o ho, h0]
    · intro o ho h1 _
      rw [hcnt o ho, h1]
    · intro o ho hne
      refine Function.update_of_ne ?_ ..
      have hoc : o ≠ c.refed := by
        rintro rfl
        rw [hcnt _ ho] at hne
        exact hne hdead
      exact ObjHeap.header_apart ho hobj hoc (j := 2) (by decide) hk
  · have hword' : (s.shm.store (c.refed + 8 * k) 0).word f.ref = 0 := by
      rw [hslot _ (h.ref_mem hi hf)]
      exact hword
    refine ⟨hfunc, href, hobj, ?_⟩
    rw [hpc']
    split
    · rename_i hlt
      exact ⟨hword', by rw [hcnt _ hobj]; exact hdead, hlt⟩
    · exact hword'
  · intro o ho
    have hsame : Function.update (fun j => pendingOf (s.stack j)) i (f.to (.unlink c pc deep)).pending =
        fun j => pendingOf (s.stack j) := by
      rw [hpend]
      have : f.pending = (fun j => pendingOf (s.stack j)) i := by
        simp only [hst]
        rfl
      rw [this, Function.update_eq_self]
    rw [hsame, hcnt o ho, holding_congr o hslot]
    exact h.count o ho
  · intro o ho hne h0
    rw [hcnt o ho] at h0
    exact absurd h0 hne
  · intro o ho hno
    exact absurd ho hno

end Steps

end CxlShm
