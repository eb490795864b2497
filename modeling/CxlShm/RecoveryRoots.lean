import CxlShm.RecoveryState

/-! # RecoveryRoots — the RootRef pages of the crashed client

Every RootRef in use is released and wiped, the pages are zeroed, and nothing else is written outside
the heap.
-/

namespace CxlShm

open SlotCount Loop

variable {W : CrashWorld} {tid id fuel : Nat} {m₀ m : Shm}

/-- Stage invariant with the blocks `left` and the pages `pages` to go. -/
structure RootInv (W : CrashWorld) (m₀ : Shm) (left : List Nat) (pages : List (Nat × Nat)) (m : Shm) :
    Prop where
  exact : HeapExact W.toObjHeap m
  era : EraBounded m
  kept : Kept W W.InRootPage m₀ m
  page : ∀ pg, pg ∉ W.rootPages ∨ pg ∈ pages → m.page pg = m₀.page pg
  todo : ∀ b ∈ left, m.word b = m₀.word b ∧ m.word (b + 8) = m₀.word (b + 8)
  done : ∀ b ∈ W.blocks W.rootPages, b ∉ left → m.inUse b = 0 ∧ (b ∈ W.rootRefs → m.word b = 0)
  root : ∀ a ∈ W.roots, a ∉ W.rootRefs → m.word a = m₀.word a

section Block

variable (hc : Crashed W tid id m₀)
include hc

/-- Setting `in_use` to 0 and wiping a RootRef. -/
theorem recoveryRootRef_wipe {left : List Nat} {pages : List (Nat × Nat)} {pg : Nat × Nat} {b : Nat}
    (hpg : pg ∈ pages) (hpgs : ∀ p ∈ pages, p ∈ W.rootPages) (hb : b ∈ pageBlocks pg 16)
    (hleft : ∀ b' ∈ left, b' ∈ W.blocks W.rootPages) (hnot : b ∉ left)
    (hx : HeapExact W.toObjHeap m) (hera : EraBounded m) (hkept : Kept W W.InRootPage m₀ m)
    (hpage : ∀ p, p ∉ W.rootPages ∨ p ∈ pages → m.page p = m₀.page p)
    (hzero : b ∈ W.rootRefs → m.word b = 0)
    (hl : ∀ b' ∈ left, m.word b' = m₀.word b' ∧ m.word (b' + 8) = m₀.word (b' + 8))
    (hdone : ∀ b' ∈ W.blocks W.rootPages, b' ∉ b :: left →
      m.inUse b' = 0 ∧ (b' ∈ W.rootRefs → m.word b' = 0))
    (hroots : ∀ a ∈ W.roots, a ∉ W.rootRefs → m.word a = m₀.word a) :
    RootInv W m₀ left pages (recoveryCxlFree true tid b (m.setInUse b 0)) := by
  have hroot := hpgs pg hpg
  have hblk : b ∈ W.blocks W.rootPages := CrashWorld.mem_blocks.mpr ⟨pg, hroot, hb⟩
  have hof : pageOf b = pg :=
    pageOf_block (W.page_lt pg (List.mem_append_left _ hroot)) (by decide) hb
  have hseg : segmentIdx b = pg.1 := congrArg Prod.fst hof
  have hsize : ((m.setInUse b 0).page (pageOf b)).blockSize = 16 := by
    rw [hof]
    show (m.page pg).blockSize = 16
    rw [hpage pg (Or.inr hpg)]
    exact hc.rootSize pg hroot
  have hown : ((m.setInUse b 0).segment (segmentIdx b)).threadId = tid := by
    rw [hseg]
    show (m.segment pg.1).threadId = tid
    rw [hkept.owner]
    exact hc.rootOwner pg hroot
  have hf := recoveryCxlFree_freed true tid b (m.setInUse b 0)
  rw [hsize, show wipedWords true 16 = 2 from rfl] at hf
  -- the words of the block are zero, all others are as before
  have hw0 : (recoveryCxlFree true tid b (m.setInUse b 0)).word b = 0 := hf.head hown
  have hw8 : (recoveryCxlFree true tid b (m.setInUse b 0)).word (b + 8) = 0 :=
    hf.wiped 1 (by decide) (by decide)
  have hother : ∀ w, w ≠ b → w ≠ b + 8 →
      (recoveryCxlFree true tid b (m.setInUse b 0)).word w = m.word w := by
    intro w h0 h8
    have hout := hf.outside w fun k hk => by
      rcases Nat.lt_succ_iff_lt_or_eq.mp hk with hk | rfl
      · rw [Nat.lt_one_iff.mp hk]
        exact h0
      · exact h8
    rw [hout]
    exact Function.update_of_ne h8 ..
  have hin0 : W.InRootPage b := CrashWorld.block_inRootPage (d := 0) (fun _ h => h) hblk (by decide)
  have hin8 : W.InRootPage (b + 8) := CrashWorld.block_inRootPage (fun _ h => h) hblk (by decide)
  have hheap : ∀ w, W.Touches w → (recoveryCxlFree true tid b (m.setInUse b 0)).word w = m.word w := by
    intro w hw
    by_cases h0 : w = b
    · subst h0
      rw [hw0, hzero (CrashWorld.touches_rootPage hin0 hw)]
    · refine hother w h0 ?_
      rintro rfl
      exact CrashWorld.inUse_not_touches hblk hw
  have hne : ∀ b' ∈ W.blocks W.rootPages, b' ≠ b → b' ≠ b + 8 ∧ b' + 8 ≠ b := by
    intro b' hb' _
    obtain ⟨pg', -, hb'⟩ := CrashWorld.mem_blocks.mp hb'
    have h₁ := rootRef_aligned hb
    have h₂ := rootRef_aligned hb'
    omega
  have hkeep : ∀ b' ∈ W.blocks W.rootPages, b' ≠ b →
      (recoveryCxlFree true tid b (m.setInUse b 0)).word b' = m.word b' ∧
      (recoveryCxlFree true tid b (m.setInUse b 0)).word (b' + 8) = m.word (b' + 8) := by
    intro b' hb' hbb
    obtain ⟨h₁, h₂⟩ := hne b' hb' hbb
    exact ⟨hother b' hbb h₁, hother (b' + 8) h₂ (by omega)⟩
  refine ⟨hx.write hheap, ?_, ?_, ?_, ?_, ?_, ?_⟩
  · intro k
    rw [hf.eraCell]
    exact hera k
  · refine hkept.trans (Y := W.InRootPage) ?_ (fun _ h => h) fun _ h => h
    refine Kept.write hf.tls hf.threadId (fun i => Or.inl (hf.state i)) ?_ ?_ fun w _ hw => hheap w hw
    · intro i
      rw [hf.segment]
      rfl
    · intro w hw
      apply hother
      · rintro rfl
        exact hw hin0
      · rintro rfl
        exact hw hin8
  · intro p hp
    rw [← hpage p hp]
    unfold Shm.page
    rw [hf.segment]
    rfl
  · intro b' hb'
    have hbb : b' ≠ b := fun h => hnot (h ▸ hb')
    obtain ⟨h₁, h₂⟩ := hkeep b' (hleft b' hb') hbb
    rw [h₁, h₂]
    exact hl b' hb'
  · intro b' hb' hn
    by_cases hbb : b' = b
    · subst hbb
      refine ⟨?_, fun _ => hw0⟩
      rw [Shm.inUse, hw8, Nat.zero_mod]
    · obtain ⟨h₁, h₂⟩ := hkeep b' hb' hbb
      have := hdone b' hb' (by simp [hbb, hn])
      unfold Shm.inUse at *
      rw [h₁, h₂]
      exact this
  · intro a ha hnr
    rw [hheap a (Or.inl (ObjHeap.root_mem ha))]
    exact hroots a ha hnr

/-- **One block of a RootRef page.** -/
theorem RootInv.block (hfuel : W.objs.card + W.embBound < fuel) {b : Nat} {left : List Nat}
    {pages : List (Nat × Nat)} {pg : Nat × Nat} (h : RootInv W m₀ (b :: left) pages m)
    (hpg : pg ∈ pages) (hpgs : ∀ p ∈ pages, p ∈ W.rootPages) (hb : b ∈ pageBlocks pg 16)
    (hleft : ∀ b' ∈ left, b' ∈ W.blocks W.rootPages) (hnot : b ∉ left) :
    ∃ m', recoveryRootRef tid fuel (pageStart pg) (blockAt (pageStart pg) 16 (pageSize / 16 - 1)) m b =
      some m' ∧ RootInv W m₀ left pages m' := by
  have hroot := hpgs pg hpg
  have hblk : b ∈ W.blocks W.rootPages := CrashWorld.mem_blocks.mpr ⟨pg, hroot, hb⟩
  obtain ⟨hwb, hwb8⟩ := h.todo b List.mem_cons_self
  have huse : m.inUse b = m₀.inUse b := by
    unfold Shm.inUse
    rw [hwb8]
  have htodo : ∀ b' ∈ left, m.word b' = m₀.word b' ∧ m.word (b' + 8) = m₀.word (b' + 8) :=
    fun b' hb' => h.todo b' (List.mem_cons_of_mem _ hb')
  -- without a release, the block is wiped as it stands
  have wipe : (b ∈ W.rootRefs → m.word b = 0) →
      RootInv W m₀ left pages (recoveryCxlFree true tid b (m.setInUse b 0)) := fun hz =>
    recoveryRootRef_wipe hc hpg hpgs hb hleft hnot h.exact h.era h.kept h.page hz htodo h.done h.root
  by_cases hin : m.inUse b ≠ 0
  case neg =>
    refine ⟨m, if_neg hin, h.exact, h.era, h.kept, h.page, htodo, ?_, h.root⟩
    intro b' hb' hn
    by_cases hbb : b' = b
    · subst hbb
      refine ⟨not_not.mp hin, fun hr => absurd ?_ hin⟩
      rw [huse]
      exact (hc.inUse _ hblk).mpr (Finset.mem_union_left _ hr)
    · exact h.done b' hb' (by simp [hbb, hn])
  unfold recoveryRootRef
  rw [if_pos hin]
  rw [huse] at hin
  rcases Finset.mem_union.mp ((hc.inUse b hblk).mp hin) with hr | hun
  · -- a RootRef that counts
    have hmem := CrashWorld.rootRef_mem hr
    by_cases hz : m.word b = 0
    · refine ⟨_, ?_, wipe fun _ => hz⟩
      rw [if_neg (fun hcond => hcond.1 hz)]
      rfl
    have ho := h.exact.obj (ObjHeap.root_mem hmem) hz
    have hfree : m.word b ≠ (m.page (pageOf (m.word b))).free := by
      by_cases hp : pageOf (m.word b) ∉ W.rootPages ∨ pageOf (m.word b) ∈ pages
      · rw [h.page _ hp]
        exact (hc.allocated _ ho).symm
      · -- no object lies in a RootRef page
        push Not at hp
        exfalso
        have hap := W.rootPage_obj _ hp.1 _ ho
        have harea := W.objs_area _ ho
        have hlt := W.page_lt _ (List.mem_append_left _ hp.1)
        simp only [Apart, pageOf, pageStart, segmentIdx, segmentsAreaStart, segmentSize, pageSize,
          pagesPerSegment, sizeofCxlObj] at *
        omega
    have hpage : ¬ (pageStart pg ≤ m.word b ∧
        m.word b ≤ blockAt (pageStart pg) 16 (pageSize / 16 - 1)) := by
      rintro ⟨hlo, hhi⟩
      have hap := W.rootPage_obj pg hroot _ ho
      simp only [Apart, blockAt, pageSize, sizeofCxlObj] at *
      omega
    rw [if_pos ⟨hz, hfree, hpage⟩]
    obtain ⟨m', hrun, hrel, hera', hframe⟩ := recoveryTestFree_exact hc.tid_lt hfuel h.exact h.era hmem
    refine ⟨_, by rw [hrun]; rfl, ?_⟩
    have hsame : ∀ b' ∈ W.blocks W.rootPages, b' ≠ b →
        m'.word b' = m.word b' ∧ m'.word (b' + 8) = m.word (b' + 8) := by
      intro b' hb' hbb
      refine ⟨?_, hframe.word _ (CrashWorld.inUse_not_touches hb')⟩
      by_cases hr' : b' ∈ W.rootRefs
      · exact hrel.root (CrashWorld.rootRef_mem hr') hbb
      · refine hframe.word _ fun ht => hr' ?_
        exact CrashWorld.touches_rootPage (CrashWorld.block_inRootPage (d := 0) (fun _ h => h) hb'
          (by decide)) ht
    refine recoveryRootRef_wipe hc hpg hpgs hb hleft hnot hrel.exact hera' ?_ ?_ (fun _ => hrel.cleared)
      ?_ ?_ ?_
    · exact h.kept.trans (Kept.release (X := W.InRootPage) (Or.inl hr) hrel hframe) (fun _ h => h)
        fun _ h => h
    · intro p hp
      rw [← h.page p hp]
      unfold Shm.page
      rw [hframe.segment]
    · intro b' hb'
      obtain ⟨h₁, h₂⟩ := hsame b' (hleft b' hb') fun he => hnot (he ▸ hb')
      rw [h₁, h₂]
      exact htodo b' hb'
    · intro b' hb' hn
      obtain ⟨h₁, h₂⟩ := hsame b' hb' fun he => hn (he ▸ List.mem_cons_self)
      have := h.done b' hb' hn
      unfold Shm.inUse at *
      rw [h₁, h₂]
      exact this
    · intro a ha hnr
      rw [hrel.root ha fun he => hnr (he ▸ hr)]
      exact h.root a ha hnr
  · -- a RootRef whose allocation was cut short
    have hnr : b ∉ W.rootRefs := fun hr => Finset.disjoint_left.mp W.unfinished_apart hr hun
    have hdone := wipe fun hr => absurd hr hnr
    by_cases hcond : m.word b ≠ 0 ∧ m.word b ≠ (m.page (pageOf (m.word b))).free ∧
        ¬ (pageStart pg ≤ m.word b ∧ m.word b ≤ blockAt (pageStart pg) 16 (pageSize / 16 - 1))
    · rw [if_pos hcond]
      obtain ⟨hz, hfree, hpage⟩ := hcond
      rw [hwb] at hz hfree hpage
      have hcnt : m.refCnt (m.word b) = 0 := by
        rcases hc.cutShort b hun with h0 | ⟨pg', hpg', hb', hlo, hhi⟩ | ⟨hp, he⟩ | ⟨h0, ht, hr⟩
        · exact absurd h0 hz
        · have e₁ := pageOf_block (W.page_lt pg (List.mem_append_left _ hroot)) (by decide) hb
          have e₂ := pageOf_block (W.page_lt pg' (List.mem_append_left _ hpg')) (by decide) hb'
          rw [← e₂, e₁] at hlo hhi
          exact absurd ⟨hlo, hhi⟩ hpage
        · rw [h.page _ (Or.inl hp)] at hfree
          exact absurd he hfree
        · rw [hwb]
          unfold Shm.refCnt Shm.refInfo at h0 ⊢
          rw [h.kept.word _ ht hr]
          exact h0
      refine ⟨_, ?_, hdone⟩
      obtain ⟨f, rfl⟩ : ∃ f, fuel = f + 1 := ⟨fuel - 1, by omega⟩
      rw [recoveryTestFree, releaseWith, if_neg (by rw [hwb]; exact hz), if_pos ⟨rfl, hcnt⟩]
      rfl
    · rw [if_neg hcond]
      exact ⟨_, rfl, hdone⟩

/-- **One RootRef page.** -/
theorem RootInv.page_step (hfuel : W.objs.card + W.embBound < fuel) {pg : Nat × Nat}
    {rest : List (Nat × Nat)} (hsub : ∀ p ∈ pg :: rest, p ∈ W.rootPages) (hnd : (pg :: rest).Nodup)
    (h : RootInv W m₀ (W.blocks (pg :: rest)) (pg :: rest) m) :
    ∃ m', recoveryRootRefPage tid fuel pg m = some m' ∧ RootInv W m₀ (W.blocks rest) rest m' ∧
      ∀ p ∈ rest, m'.page p = m.page p := by
  have hpg := hsub pg List.mem_cons_self
  have hlt : ∀ p ∈ pg :: rest, p.2 < pagesPerSegment := fun p hp =>
    W.page_lt p (List.mem_append_left _ (hsub p hp))
  have hsize : (m.page pg).blockSize = 16 := by
    rw [h.page pg (Or.inr List.mem_cons_self)]
    exact hc.rootSize pg hpg
  have hblocks : W.blocks (pg :: rest) = pageBlocks pg 16 ++ W.blocks rest := List.flatMap_cons
  have hnodup := W.blocks_nodup hnd hlt
  rw [hblocks] at h hnodup
  have hall : ∀ b ∈ pageBlocks pg 16 ++ W.blocks rest, b ∈ W.blocks W.rootPages := by
    intro b hb
    rw [← hblocks] at hb
    obtain ⟨p, hp, hb⟩ := CrashWorld.mem_blocks.mp hb
    exact CrashWorld.mem_blocks.mpr ⟨p, hsub p hp, hb⟩
  -- the blocks one after the other
  obtain ⟨m₁, hrun, -, hsub₁, hinv⟩ := foldlM_rule (l := pageBlocks pg 16) (s := m)
    (f := recoveryRootRef tid fuel (pageStart pg) (blockAt (pageStart pg) 16 (pageSize / 16 - 1)))
    (fun l s => (l ++ W.blocks rest).Nodup ∧ (∀ b ∈ l, b ∈ pageBlocks pg 16) ∧
      RootInv W m₀ (l ++ W.blocks rest) (pg :: rest) s)
    (by
      rintro b l s ⟨hnd', hin, hs⟩
      rw [List.cons_append] at hnd' hs
      obtain ⟨hnot, hnd'⟩ := List.nodup_cons.mp hnd'
      have hleft : ∀ b' ∈ l ++ W.blocks rest, b' ∈ W.blocks W.rootPages := by
        intro b' hb'
        apply hall
        rcases List.mem_append.mp hb' with hb' | hb'
        · exact List.mem_append_left _ (hin b' (List.mem_cons_of_mem _ hb'))
        · exact List.mem_append_right _ hb'
      obtain ⟨s', hs', hinv⟩ := hs.block hc hfuel List.mem_cons_self hsub (hin b List.mem_cons_self)
        hleft hnot
      exact ⟨s', hs', hnd', fun b' hb' => hin b' (List.mem_cons_of_mem _ hb'), hinv⟩)
    ⟨hnodup, fun _ hb => hb, h⟩
  rw [List.nil_append] at hinv
  obtain ⟨hnot, -⟩ := List.nodup_cons.mp hnd
  refine ⟨m₁.setPage pg Page.zero, ?_, ?_, ?_⟩
  · unfold recoveryRootRefPage
    rw [hsize, if_neg (by decide), hrun]
    rfl
  · refine ⟨hinv.exact.write fun _ _ => rfl, hinv.era, ?_, ?_, hinv.todo, hinv.done, hinv.root⟩
    · exact hinv.kept.trans Kept.setPage (fun _ h => h) fun _ h => h
    · intro p hp
      rw [Shm.page_setPage, if_neg]
      · exact hinv.page p (hp.imp_right (List.mem_cons_of_mem _))
      · rintro rfl
        rcases hp with hp | hp
        · exact hp hpg
        · exact hnot hp
  · intro p hp
    have hpp : p ≠ pg := fun he => hnot (he ▸ hp)
    rw [Shm.page_setPage, if_neg hpp, hinv.page p (Or.inr (List.mem_cons_of_mem _ hp)),
      h.page p (Or.inr (List.mem_cons_of_mem _ hp))]

/-- **The RootRef pages.** -/
theorem recoveryRootRefPages_exact (hfuel : W.objs.card + W.embBound < fuel)
    (hpages : W.rootPages.length < fuel) :
    ∃ m', recoveryRootRefPages tid fuel m₀ = some m' ∧ RootInv W m₀ [] [] m' := by
  have hnd : W.rootPages.Nodup := (List.nodup_append'.mp W.pages_nodup).1
  obtain ⟨m', hrun, -, -, hinv⟩ := walk_chain (s := m₀) (l := W.rootPages)
    (fun m pg => (m.page pg).next) (recoveryRootRefPage tid fuel)
    (fun l s => (∀ p ∈ l, p ∈ W.rootPages) ∧ l.Nodup ∧ RootInv W m₀ (W.blocks l) l s)
    (by
      rintro pg l s ⟨hsub, hnd, hs⟩
      obtain ⟨s', hs', hinv, hkeep⟩ := hs.page_step hc hfuel hsub hnd
      refine ⟨s', hs', ⟨fun p hp => hsub p (List.mem_cons_of_mem _ hp), (List.nodup_cons.mp hnd).2,
        hinv⟩, ?_⟩
      intro p hp
      rw [hkeep p hp])
    hpages hc.rootChain ⟨fun _ hp => hp, hnd, hc.exact, hc.era, Kept.refl, fun _ _ => rfl,
      fun _ _ => ⟨rfl, rfl⟩, fun b hb hn => absurd hb hn, fun _ _ _ => rfl⟩
  exact ⟨m', hrun, hinv⟩

end Block

end CxlShm
