import CxlShm.RecoveryTwins

/-! # RecoveryAgree — the monitor's release beside the client's own

`test_free` run by client `tid` and `recovery_test_free` run for it, from one area. They agree on every word,
on the eras and on the lists of other clients' segments, unless one of three things happens: an object dies in
a segment marked `POTENTIAL_LEAKING`, which `cxl_free` drops and `recovery_cxl_free` pushes; an object dies in
a page of the client's own whose local list is not empty, or two die there, since `recovery_cxl_free` does not
link them; or a stamp is ahead of the client's era, which `recovery_unlink_reference` reads too early.
-/

namespace CxlShm

open SlotCount Loop

/-! ## §1 — the property -/

/-- From the area `m`, the client's release ended in `c` and the monitor's in `r`, and they agree. -/
structure SameRelease (tid : Nat) (m c r : Shm) : Prop where
  word : ∀ w, r.word w = c.word w
  era : r.eraCell = c.eraCell
  threadFree : ∀ i, Foreign m tid i → (r.sas i).threadFree = (c.sas i).threadFree
  state : ∀ i, Foreign m tid i → (r.sas i).state = (c.sas i).state

/-- No object dies in a marked segment of another client. -/
def Unmarked (H : ObjHeap) (tid : Nat) (m : Shm) (s : Nat) : Prop :=
  ∀ o, Cascade H m s o → Foreign m tid (segmentIdx o) → (m.sas (segmentIdx o)).state ≠ .potentialLeaking

/-- An object that dies in a segment of the client's own is the only one of its page, and the local list of
the page is empty. -/
def LocalHeads (H : ObjHeap) (tid : Nat) (m : Shm) (s : Nat) : Prop :=
  ∀ o, Cascade H m s o → Owned m tid (segmentIdx o) →
    (m.page (pageOf o)).localFree = 0 ∧ ∀ p, Cascade H m s p → pageOf p = pageOf o → p = o

/-! ## §2 — one unlink on both sides -/

section Step

variable {H : ObjHeap} {tid a : Nat} {m : Shm} {x : Twin}

/-- The monitor's unlink is exact as well. -/
theorem Twins.monitor_unlinked (h : Twins H tid m x) (htid : tid < 2 ^ 16) (ha : a ∈ H.slots)
    (ho : x.client.word a ∈ H.objs) :
    Unlinked H x.monitor a (recoveryUnlinkReference tid a (x.client.word a) x.monitor) ∧
      EraBounded (recoveryUnlinkReference tid a (x.client.word a) x.monitor) ∧
      ReleaseFrame H x.monitor (recoveryUnlinkReference tid a (x.client.word a) x.monitor) := by
  have hslot := h.slot ha
  have hpos := h.counted.refCnt_pos ha ho
  rw [← hslot] at ho ⊢
  apply recoveryUnlinkReference_unlinked htid h.bounded ha ho
  rw [h.count _ ho, hslot]
  exact hpos

/-- The two tests for the last reference have one outcome. -/
theorem Twins.last_iff (h : Twins H tid m x) (ho : x.client.word a ∈ H.objs) :
    getRefCntFromInfo (x.monitor.refInfo (x.client.word a)) = 1 ↔ x.client.refCnt (x.client.word a) = 1 := by
  rw [← h.count _ ho]
  rfl

/-- The stores of both unlinks leave the first words of objects. -/
theorem Twins.stores_first (ha : a ∈ H.slots) (ho : x.client.word a ∈ H.objs) {p : Nat} (hp : p ∈ H.objs) :
    (unlinkStores tid a (x.client.word a) x.client).word p = x.client.word p ∧
      (recoveryUnlinkStores tid a (x.client.word a) x.monitor).word p = x.monitor.word p :=
  ⟨firstWord_kept ha ho (unlinkStores_word ..) hp, firstWord_kept ha ho recoveryUnlinkStores_word hp⟩

/-- **An unlink of one of several references** keeps the two runs together. -/
theorem Twins.unlink_some (h : Twins H tid m x) (hl : Lists H tid m x) (htid : tid < 2 ^ 16)
    (ha : a ∈ H.slots) (ho : x.client.word a ∈ H.objs) (hone : x.client.refCnt (x.client.word a) ≠ 1) :
    Twins H tid m ⟨unlinkStores tid a (x.client.word a) x.client,
        recoveryUnlinkStores tid a (x.client.word a) x.monitor⟩ ∧
      Lists H tid m ⟨unlinkStores tid a (x.client.word a) x.client,
        recoveryUnlinkStores tid a (x.client.word a) x.monitor⟩ := by
  have hpos := h.counted.refCnt_pos ha ho
  have hun := unlinkStores_unlinked htid h.alone.era ha ho hpos
  obtain ⟨hun', hbound', -⟩ := h.monitor_unlinked htid ha ho
  rw [recoveryUnlinkReference_eq, if_neg (fun he => hone ((h.last_iff ho).mp he))] at hun' hbound'
  -- nothing dies
  have hdead : ∀ p ∈ H.objs, ((unlinkStores tid a (x.client.word a) x.client).refCnt p = 0 ↔
      x.client.refCnt p = 0) := by
    intro p hp
    by_cases hpo : p = x.client.word a
    · have hcnt := hun.count
      rw [hpo]
      omega
    · rw [hun.refCnt_of_ne hp hpo]
  constructor
  · refine h.unlink ha ho hun hun' (h.alone.unlinkStores _ _) hbound' (fun w hw => h.stores_word ho hw) ?_ ?_
      ?_ recoveryUnlinkStores_segment ?_ ?_
    · intro hs
      obtain ⟨hc, hr⟩ := hs.stores_refInfo ha ho
      apply hs.unlink h.alone.era htid ha ho hpos hun _ rfl rfl ⟨Or.inl hc, hr.trans hc.symm⟩
      exact fun p hp hpo => recoveryUnlinkStores_refInfo ha hp hpo
    · exact h.cover.mono (unlinkStores_segment ..) fun p hp hne hz => hne ((hdead p hp).mpr hz)
    · intro i hi
      unfold Foreign
      rw [unlinkStores_segment]
      exact hi
    · intro i _
      rw [unlinkStores_sas]
    · intro i
      rw [recoveryUnlinkStores_sas]
  · apply hl.keep (unlinkStores_sas ..) recoveryUnlinkStores_sas (unlinkStores_segment ..) _ hdead
    exact fun p hp => Twins.stores_first ha ho hp

theorem recoveryCxlFree_foreign {r : Shm} {o : Nat} (h : Foreign r tid (segmentIdx o)) :
    recoveryCxlFree false tid o r = (r.zeroWords o 3).pushThreadFree (segmentIdx o) o := by
  simp only [recoveryCxlFree]
  rw [if_pos (show (r.segment (segmentIdx o)).threadId ≠ tid from h)]
  rfl

theorem recoveryCxlFree_sas_of_ne {r : Shm} {o i : Nat} (h : i ≠ segmentIdx o) :
    (recoveryCxlFree false tid o r).sas i = r.sas i := by
  simp only [recoveryCxlFree]
  split
  · exact Function.update_of_ne h ..
  · rfl

/-- The object held by slot `a` loses its last reference, and both runs free it: what they store. -/
structure FreedTwin (H : ObjHeap) (tid : Nat) (a : Nat) (x : Twin) (c' r' : Shm) : Prop where
  dies : Dies H (x.client.word a) x.client c'
  first : ∀ p ∈ H.objs, p ≠ x.client.word a → r'.word p = x.monitor.word p
  unlinked : Unlinked H x.client a c'
  alone : Alone tid c'
  eraCell : c'.eraCell = (unlinkStores tid a (x.client.word a) x.client).eraCell
  eraCell' : r'.eraCell = (recoveryUnlinkStores tid a (x.client.word a) x.monitor).eraCell
  word : ∀ w, ¬ HeadWord H w → r'.word w = c'.word w
  refInfo : c'.refInfo (x.client.word a) = 0 ∧ r'.refInfo (x.client.word a) = 0
  stamp : ∀ p ∈ H.objs, p ≠ x.client.word a → r'.refInfo p = x.monitor.refInfo p
  segment : r'.segment = x.monitor.segment
  state : ∀ i, (r'.sas i).state = (x.monitor.sas i).state

theorem Twins.freed (h : Twins H tid m x) (htid : tid < 2 ^ 16) (ha : a ∈ H.slots)
    (ho : x.client.word a ∈ H.objs) (hone : x.client.refCnt (x.client.word a) = 1) {c' : Shm}
    (hrun : cxlFree tid false (x.client.word a) (unlinkStores tid a (x.client.word a) x.client) = some c') :
    FreedTwin H tid a x c' (recoveryCxlFree false tid (x.client.word a)
      (recoveryUnlinkStores tid a (x.client.word a) x.monitor)) := by
  have hpos := h.counted.refCnt_pos ha ho
  have hstores := unlinkStores_unlinked htid h.alone.era ha ho hpos
  have hal := h.alone.unlinkStores a (x.client.word a)
  obtain ⟨c'', hrun', hwiped, hown⟩ := cxlFree_wiped hal.headers (x.client.word a)
  obtain rfl : c'' = c' := Option.some.inj (hrun'.symm.trans hrun)
  have hfreed := recoveryCxlFree_freed false tid (x.client.word a)
    (recoveryUnlinkStores tid a (x.client.word a) x.monitor)
  rw [show wipedWords false _ = 3 from rfl] at hfreed
  have hun := hstores.wipe ha ho hone hwiped.outside (hwiped.wiped 1 (by decide) (by decide))
  have hcnt := hun.count
  -- the header of another object lies apart from the freed one
  have hout : ∀ p ∈ H.objs, p ≠ x.client.word a → ∀ j < 3, ∀ k < 3, p + 8 * j ≠ x.client.word a + 8 * k :=
    fun p hp hpo j hj k hk => ObjHeap.header_apart hp ho hpo hj hk
  refine ⟨⟨ho, Nat.ne_of_gt hpos, by omega, ?_, fun p hp hpo => hun.refCnt_of_ne hp hpo⟩, ?_, hun, ⟨?_, hown⟩,
    hwiped.eraCell, hfreed.eraCell, ?_, ?_, ?_, ?_, ?_⟩
  · intro p hp hpo
    rw [hwiped.outside p (hout p hp hpo 0 (by decide))]
    exact (Twins.stores_first ha ho hp).1
  · intro p hp hpo
    rw [hfreed.outside p (hout p hp hpo 0 (by decide))]
    exact (Twins.stores_first ha ho hp).2
  · intro k
    rw [hwiped.eraCell]
    exact hal.era k
  · intro w hw
    by_cases hin : ∃ k < 3, w = x.client.word a + 8 * k
    · obtain ⟨k, hk, rfl⟩ := hin
      rcases Nat.eq_zero_or_pos k with rfl | hk0
      · exact absurd ⟨_, ho, Or.inl rfl⟩ hw
      · rw [hwiped.wiped k hk0 hk, hfreed.wiped k hk0 hk]
    · have hout : ∀ k < 3, w ≠ x.client.word a + 8 * k := fun k hk he => hin ⟨k, hk, he⟩
      rw [hwiped.outside w hout, hfreed.outside w hout]
      exact h.stores_word ho hw
  · exact ⟨hwiped.wiped 1 (by decide) (by decide), hfreed.wiped 1 (by decide) (by decide)⟩
  · intro p hp hpo
    rw [Shm.refInfo, hfreed.outside (p + 8) (hout p hp hpo 1 (by decide))]
    exact recoveryUnlinkStores_refInfo ha hp hpo
  · rw [hfreed.segment]
    exact recoveryUnlinkStores_segment
  · intro i
    rw [hfreed.state, recoveryUnlinkStores_sas]

section Last

variable {c' r' : Shm}

/-- What stays of the agreement once both have freed the object. -/
theorem Twins.free (h : Twins H tid m x) (hf : FreedTwin H tid a x c' r') (htid : tid < 2 ^ 16)
    (ha : a ∈ H.slots) (hrun : recoveryUnlinkReference tid a (x.client.word a) x.monitor = r')
    (hcover : CountersCover H (Owned m tid) tid c')
    (hforeign : ∀ i, Foreign x.client tid i → Foreign c' tid i)
    (hclient : ∀ i, Foreign m tid i → (c'.sas i).state = (x.client.sas i).state) :
    Twins H tid m ⟨c', r'⟩ := by
  have ho := hf.dies.mem
  have hpos := h.counted.refCnt_pos ha ho
  obtain ⟨hun', hbound', -⟩ := h.monitor_unlinked htid ha ho
  rw [hrun] at hun' hbound'
  obtain ⟨hc, hr⟩ := hf.refInfo
  refine h.unlink ha ho hf.unlinked hun' hf.alone hbound' hf.word ?_ hcover hforeign hf.segment hclient hf.state
  intro hs
  exact hs.unlink h.alone.era htid ha ho hpos hf.unlinked hf.stamp hf.eraCell hf.eraCell'
    ⟨Or.inr hc, hr.trans hc.symm⟩

/-- The lists, from the one of the segment and the page in which the object dies. -/
theorem Lists.free (hl : Lists H tid m x) (hf : FreedTwin H tid a x c' r')
    (hm : m.refCnt (x.client.word a) ≠ 0)
    (hclient : ∀ k, k ≠ segmentIdx (x.client.word a) → c'.sas k = x.client.sas k)
    (hmonitor : ∀ k, k ≠ segmentIdx (x.client.word a) → r'.sas k = x.monitor.sas k)
    (hforeign : Foreign m tid (segmentIdx (x.client.word a)) →
      ListSame H m (segmentIdx (x.client.word a)) ⟨c', r'⟩ ∨
        ListTorn H m (segmentIdx (x.client.word a)) ⟨c', r'⟩)
    (hown : Owned m tid (segmentIdx (x.client.word a)) →
      r'.word (x.client.word a) = 0 ∧ LocalList H m (pageOf (x.client.word a)) c')
    (hpage : ∀ p ∈ H.objs, Owned m tid (segmentIdx p) → c'.refCnt p ≠ 0 →
      pageOf p ≠ pageOf (x.client.word a) →
      (c'.page (pageOf p)).localFree = (x.client.page (pageOf p)).localFree) : Lists H tid m ⟨c', r'⟩ := by
  have hword : ∀ p ∈ H.objs, p ≠ x.client.word a →
      c'.word p = x.client.word p ∧ r'.word p = x.monitor.word p := fun p hp hpo =>
    ⟨hf.dies.word p hp hpo, hf.first p hp hpo⟩
  have hdead : ∀ p ∈ H.objs, p ≠ x.client.word a → (c'.refCnt p = 0 ↔ x.client.refCnt p = 0) := by
    intro p hp hpo
    rw [hf.dies.count p hp hpo]
  refine ⟨?_, ?_, ?_, ?_⟩
  · intro i hi
    by_cases hio : i = segmentIdx (x.client.word a)
    · subst hio
      exact hforeign hi
    · -- the dead object is not one of this segment
      have hne : ∀ p ∈ H.objs, segmentIdx p = i → p ≠ x.client.word a := fun p _ hpi he => hio (hpi ▸ he ▸ rfl)
      rcases hl.foreign i hi with hsame | htorn
      · apply Or.inl
        apply hsame.keep (hclient i hio) (hmonitor i hio)
        · exact fun p hp hpi => hword p hp (hne p hp hpi)
        · exact fun p hp hpi => hdead p hp (hne p hp hpi)
      · apply Or.inr
        apply htorn.keep (hclient i hio) (hmonitor i hio)
        · exact fun p hp hpi => hword p hp (hne p hp hpi)
        · exact fun p hp hpi => hdead p hp (hne p hp hpi)
  · intro p hp hpown hg
    have hpo : p ≠ x.client.word a := by
      rintro rfl
      exact hg ⟨hm, hf.dies.after⟩
    rw [(hword p hp hpo).1, (hword p hp hpo).2]
    exact hl.alive p hp hpown fun hg' => hg ⟨hg'.1, (hdead p hp hpo).mpr hg'.2⟩
  · intro p hp hpown hg
    by_cases hpo : p = x.client.word a
    · subst hpo
      exact (hown hpown).1
    · rw [(hword p hp hpo).2]
      exact hl.gone p hp hpown ⟨hg.1, (hdead p hp hpo).mp hg.2⟩
  · intro pg hpg
    by_cases hpgo : pg = pageOf (x.client.word a)
    · subst hpgo
      exact (hown hpg).2
    · have hne : ∀ p ∈ H.objs, pageOf p = pg → p ≠ x.client.word a := fun p _ hp he => hpgo (hp ▸ he ▸ rfl)
      apply (hl.page pg hpg).keep
      · exact fun p hp hpp => (hword p hp (hne p hp hpp)).1
      · exact fun p hp hpp => hdead p hp (hne p hp hpp)
      · rintro ⟨p, hp, rfl, hlive⟩
        exact hpage p hp hpg hlive hpgo

/-- **The last reference to an object of another client**: wiped in both, and pushed unless marked. -/
theorem Twins.unlink_foreign (h : Twins H tid m x) (hl : Lists H tid m x) (htid : tid < 2 ^ 16)
    (ha : a ∈ H.slots) (ho : x.client.word a ∈ H.objs) (hone : x.client.refCnt (x.client.word a) = 1)
    (hfr : Foreign m tid (segmentIdx (x.client.word a)))
    (hrun : cxlFree tid false (x.client.word a) (unlinkStores tid a (x.client.word a) x.client) = some c')
    (hrun' : recoveryUnlinkReference tid a (x.client.word a) x.monitor = r') :
    Twins H tid m ⟨c', r'⟩ ∧ Lists H tid m ⟨c', r'⟩ := by
  have hf := h.freed htid ha ho hone hrun
  rw [recoveryUnlinkReference_eq, if_pos ((h.last_iff ho).mpr hone)] at hrun'
  rw [hrun'] at hf
  have hlive : m.refCnt (x.client.word a) ≠ 0 := by
    have hmono := h.mono _ ho
    omega
  have hfc : Foreign (unlinkStores tid a (x.client.word a) x.client) tid (segmentIdx (x.client.word a)) := by
    unfold Foreign
    rw [unlinkStores_segment]
    exact h.foreign _ hfr
  have hfm : Foreign (recoveryUnlinkStores tid a (x.client.word a) x.monitor) tid
      (segmentIdx (x.client.word a)) := by
    unfold Foreign
    rw [recoveryUnlinkStores_segment, h.headers]
    exact hfr
  have hstate := h.clientState _ hfr
  have hfree : ForeignFreed (x.client.word a) x.client c' :=
    (cxlFree_foreignFreed hfc hrun).congr (unlinkStores_segment ..) (unlinkStores_sas ..)
  constructor
  · apply h.free hf htid ha
    · rw [recoveryUnlinkReference_eq, if_pos ((h.last_iff ho).mpr hone), hrun']
    · exact h.cover.mono hfree.segment hf.dies.mono
    · intro i hi
      unfold Foreign
      rw [hfree.segment]
      exact hi
    · intro i _
      by_cases hio : i = segmentIdx (x.client.word a)
      · subst hio
        exact hfree.state
      · rw [hfree.sas i hio]
  · apply hl.free hf hlive hfree.sas
    · intro k hk
      rw [← hrun', recoveryCxlFree_sas_of_ne hk, recoveryUnlinkStores_sas]
    · intro _
      apply list_free (hl.foreign _ hfr) hf.dies rfl hlive hf.first
      · intro hmark
        exact hfree.marked (hstate.trans hmark)
      · intro hmark
        exact hfree.pushed fun he => hmark (hstate.symm.trans he)
      · rw [← hrun', recoveryCxlFree_foreign hfm]
        obtain ⟨-, -, hhead, hlink⟩ := pushThreadFree_freed (x.client.word a)
          (recoveryUnlinkStores tid a (x.client.word a) x.monitor)
        rw [recoveryUnlinkStores_sas] at hlink
        exact ⟨hhead, hlink⟩
    · exact fun hown => absurd hown hfr
    · intro p _ _ _ _
      rw [Shm.page, hfree.segment]
      rfl

/-- **The last reference to an object of the client's own**: the client links the wiped block into its page. -/
theorem Twins.unlink_own (h : Twins H tid m x) (hl : Lists H tid m x) (htid : tid < 2 ^ 16) (htid0 : tid ≠ 0)
    (ha : a ∈ H.slots) (ho : x.client.word a ∈ H.objs) (hone : x.client.refCnt (x.client.word a) = 1)
    (hown : Owned m tid (segmentIdx (x.client.word a)))
    (hrun : cxlFree tid false (x.client.word a) (unlinkStores tid a (x.client.word a) x.client) = some c')
    (hrun' : recoveryUnlinkReference tid a (x.client.word a) x.monitor = r') :
    Twins H tid m ⟨c', r'⟩ ∧ Lists H tid m ⟨c', r'⟩ := by
  have hf := h.freed htid ha ho hone hrun
  rw [recoveryUnlinkReference_eq, if_pos ((h.last_iff ho).mpr hone)] at hrun'
  rw [hrun'] at hf
  have hlive : m.refCnt (x.client.word a) ≠ 0 := by
    have hmono := h.mono _ ho
    omega
  have hal := (h.alone.unlinkStores a (x.client.word a)).headers
  have hsegment := unlinkStores_segment tid a (x.client.word a) x.client
  have hsas := unlinkStores_sas tid a (x.client.word a) x.client
  have hfree : LocalFreed tid (x.client.word a) x.client c' := by
    obtain ⟨hpage, hseg⟩ := h.cover.pos ho hf.dies.before hown
    have hhead := h.cover.owner _ ho hf.dies.before hown
    rw [← hsegment] at hhead hseg
    refine (cxlFree_local hal hhead ?_ hseg hrun).congr hsegment
    rw [Shm.page, hsegment]
    exact hpage
  have hkept := cxlFree_segments htid0 hal hrun
  constructor
  · apply h.free hf htid ha
    · rw [recoveryUnlinkReference_eq, if_pos ((h.last_iff ho).mpr hone), hrun']
    · exact h.cover.free hfree ho hf.dies.before hown hf.dies.after hf.dies.mono
    · intro i hi
      apply hkept.foreign
      unfold Foreign
      rw [hsegment]
      exact hi
    · intro i hi
      have hio : i ≠ segmentIdx (x.client.word a) := fun he => hi (he ▸ hown)
      rw [hkept.sas i hio, hsas]
  · apply hl.free hf hlive
    · intro k hk
      rw [hkept.sas k hk, hsas]
    · intro k hk
      rw [← hrun', recoveryCxlFree_sas_of_ne hk, recoveryUnlinkStores_sas]
    · exact fun hfr => absurd hown hfr
    · intro _
      have hheaders : (recoveryUnlinkStores tid a (x.client.word a) x.monitor).segment = m.segment :=
        recoveryUnlinkStores_segment.trans h.headers
      have hmonitor := recoveryCxlFree_freed false tid (x.client.word a)
        (recoveryUnlinkStores tid a (x.client.word a) x.monitor)
      rw [hrun', hheaders] at hmonitor
      refine ⟨hmonitor.head hown, (hl.page _ hown).free hf.dies hlive hfree.word ?_⟩
      rintro ⟨p, hp, hpage, hplive⟩
      have hpo : p ≠ x.client.word a := fun he => hplive (he ▸ hf.dies.after)
      have hmore := h.cover.page_two ho hf.dies.before hown hp (hf.dies.mono p hp hplive) hpage hpo
      exact (hfree.page hmore).1
    · intro p hp hpown hplive hne
      exact (h.cover.others hfree ho hf.dies.before hown hp (hf.dies.mono p hp hplive) hne).1

end Last

/-- One unlink on both sides. -/
theorem Twins.step (h : Twins H tid m x) (hl : Lists H tid m x) (htid : tid < 2 ^ 16)
    (htid0 : tid ≠ 0) (ha : a ∈ H.slots) (ho : x.client.word a ∈ H.objs) {c' : Shm}
    (hrun : unlinkReference tid a (x.client.word a) x.client = some c') :
    Twins H tid m ⟨c', recoveryUnlinkReference tid a (x.client.word a) x.monitor⟩ ∧
      Lists H tid m ⟨c', recoveryUnlinkReference tid a (x.client.word a) x.monitor⟩ := by
  unfold unlinkReference at hrun
  split at hrun
  case isTrue hone =>
    by_cases hown : Owned m tid (segmentIdx (x.client.word a))
    · exact h.unlink_own hl htid htid0 ha ho hone hown hrun rfl
    · exact h.unlink_foreign hl htid ha ho hone hown hrun rfl
  case isFalse hone =>
    obtain rfl := Option.some.inj hrun
    rw [recoveryUnlinkReference_eq, if_neg fun he => hone ((h.last_iff ho).mp he)]
    exact h.unlink_some hl htid ha ho hone

/-- Both runs start in the same area. -/
theorem Twins.start (hx : HeapExact H m) (hal : Alone tid m) (hcover : CountersCover H (Owned m tid) tid m) :
    Twins H tid m ⟨m, m⟩ ∧ Lists H tid m ⟨m, m⟩ := by
  have hnone : ∀ o, ¬ Gone m m o := fun o hg => hg.1 hg.2
  constructor
  · exact ⟨hx.counted, hal, hal.era, fun _ _ => rfl, fun _ _ => rfl, fun hera => ⟨hera, rfl, fun _ _ => rfl⟩,
      fun _ _ => Nat.le_refl _, hcover, fun _ hi => hi, rfl, fun _ _ => rfl, fun _ => rfl⟩
  · refine ⟨?_, fun _ _ _ _ => rfl, fun o _ _ hg => absurd hg (hnone o), ?_⟩
    · exact fun i _ => Or.inl ⟨rfl, fun _ _ _ => rfl, fun _ => ⟨rfl, fun o _ _ => hnone o⟩⟩
    · exact fun pg _ => Or.inl ⟨fun o _ _ => hnone o, fun _ => rfl⟩

end Step

/-! ## §3 — the whole release -/

variable {H : ObjHeap} {tid : Nat} {m : Shm}

/-- Where an object that has died is linked alike, its segment is not marked and its page held no other
block. -/
theorem SameRelease.clean {s : Nat} {y : Twin} (h : SameRelease tid m y.client y.monitor)
    (hl : Lists H tid m y) (hdead : ∀ o ∈ H.objs, (Cascade H m s o ↔ Gone m y.client o)) :
    Unmarked H tid m s ∧ LocalHeads H tid m s := by
  constructor
  · intro o hc hi hmark
    have hgone := (hdead o hc.1.1).mp hc
    rcases hl.foreign _ hi with hlist | htorn
    · exact (hlist.marked hmark).2 o hc.1.1 rfl hgone
    · -- the two lists start at different blocks, or the same block is linked differently
      have hfree := h.threadFree _ hi
      rw [htorn.kept] at hfree
      have hne : (m.sas (segmentIdx o)).threadFree ≠ 0 := by
        rw [← hfree]
        exact htorn.pushed
      obtain ⟨p, -, -, -, hzero, hlink⟩ := htorn.link hne
      exact hlink ((h.word p).trans hzero)
  · intro o hc hown
    have ho := hc.1.1
    have hgone := (hdead o ho).mp hc
    rcases hl.page (pageOf o) hown with hnone | ⟨q, hone⟩ | htorn
    · exact absurd hgone (hnone.none o ho rfl)
    · refine ⟨hone.empty, fun p hp hpage => ?_⟩
      have hp' := hone.only p hp.1.1 hpage ((hdead p hp.1.1).mp hp)
      rw [hp', hone.only o ho rfl hgone]
    · -- a dead object is linked by the client and not by the monitor
      obtain ⟨q, hq, hpage, hg, hne⟩ := htorn.link
      have hqown : Owned m tid (segmentIdx q) := by
        rw [show segmentIdx q = segmentIdx o from congrArg Prod.fst hpage]
        exact hown
      rw [← h.word q, hl.gone q hq hqown hg] at hne
      exact absurd rfl hne

end CxlShm
