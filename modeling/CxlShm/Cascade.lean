import CxlShm.Alloc
import CxlShm.RecoveryUnlink
import CxlShm.RefStep
import CxlShm.SegmentAccount

/-! # Cascade — `test_free` without interference

One client drops a slot while nobody else acts. `unlink_reference` is then the run of its accesses, and
`test_free` is the recursion of `Release` with the frees written down: it ends, and frees the least set of
objects that lose every slot.
-/

namespace CxlShm

open SlotCount Loop

/-! ## §1 — the two functions -/

/-- `unlink_reference(_ref, _refed)`. -/
def unlinkReference (tid ref refed : Nat) (m : Shm) : Option Shm :=
  if getRefCntFromInfo (m.refInfo refed) = 1 then cxlFree tid false refed (unlinkStores tid ref refed m)
  else some (unlinkStores tid ref refed m)

/-- `test_free(_ref)`. -/
def testFree (tid : Nat) : Nat → Nat → Shm → Option Shm :=
  releaseOn id false (unlinkReference tid)

/-- The area, and the blocks passed to `cxl_free` so far, the latest first. -/
structure Freeing where
  area : Shm
  freed : List Nat

/-- `unlink_reference`, its call of `cxl_free` written down. -/
def unlinkFreeing (tid ref refed : Nat) (x : Freeing) : Option Freeing :=
  (unlinkReference tid ref refed x.area).map fun m' =>
    ⟨m', if getRefCntFromInfo (x.area.refInfo refed) = 1 then refed :: x.freed else x.freed⟩

/-- `test_free`, its calls of `cxl_free` written down. -/
def testFreeing (tid : Nat) : Nat → Nat → Freeing → Option Freeing :=
  releaseOn Freeing.area false (unlinkFreeing tid)

/-- Writing the frees down changes nothing else. -/
theorem testFreeing_area (tid fuel a : Nat) (x : Freeing) :
    (testFreeing tid fuel a x).map Freeing.area = testFree tid fuel a x.area := by
  apply releaseOn_area
  intro a o x
  rw [unlinkFreeing, Option.map_map]
  exact Option.map_id'

/-! ## §2 — what `cxl_free` touches -/

/-- A segment whose header names the client is the client's in the allocation vector. -/
def OwnHeaders (tid : Nat) (m : Shm) : Prop :=
  ∀ i, (m.segment i).threadId = tid → (m.sas i).threadId = tid

/-- The account every owner keeps of its segments gives it. -/
theorem OwnHeaders.of_accounts {tid : Nat} {m : Shm} (htid : tid ≠ 0)
    (hacc : ∀ i, (m.sas i).threadId ≠ 0 → ∃ L, AccountInv (m.sas i).threadId m L none)
    (hfree : ∀ i, (m.sas i).threadId = 0 → m.segment i = Segment.zero) : OwnHeaders tid m := by
  intro i hi
  by_cases hz : (m.sas i).threadId = 0
  · rw [hfree i hz] at hi
    exact absurd hi.symm htid
  · obtain ⟨L, h⟩ := hacc i hz
    rw [← h.header i rfl, hi]

/-- The words and eras a freed object's block leaves alone. -/
structure HeaderWiped (b : Nat) (m m' : Shm) : Prop where
  eraCell : m'.eraCell = m.eraCell
  outside : ∀ w, (∀ k < 3, w ≠ b + 8 * k) → m'.word w = m.word w
  wiped : ∀ k, 0 < k → k < 3 → m'.word (b + 8 * k) = 0

section Free

variable {tid : Nat} {m : Shm}

/-- What the allocator's bookkeeping leaves alone. -/
structure Bookkeeping (tid : Nat) (m m' : Shm) : Prop where
  eraCell : m'.eraCell = m.eraCell
  word : m'.word = m.word
  own : OwnHeaders tid m → OwnHeaders tid m'

theorem cxlPageRelease_sas (q : QueuePtr) (pg : Nat × Nat) : (cxlPageRelease tid q pg m).sas = m.sas :=
  (OnlyLinks.push ((cxlPageQueueRemove tid q pg m).setPage pg Page.zero) tid .freePage pg).sas.trans
    (OnlyLinks.remove m tid q pg).sas

theorem cxlPageRelease_owner (q : QueuePtr) (pg : Nat × Nat) (i : Nat) :
    ((cxlPageRelease tid q pg m).segment i).threadId = (m.segment i).threadId := by
  have hrem := OnlyLinks.remove m tid q pg
  have hpush := OnlyLinks.push ((cxlPageQueueRemove tid q pg m).setPage pg Page.zero) tid .freePage pg
  rw [cxlPageRelease, setSegmentUsed_owner, hpush.owner, Shm.threadId_setPage, hrem.owner]

theorem cxlPageRelease_keeps (q : QueuePtr) (pg : Nat × Nat) :
    Bookkeeping tid m (cxlPageRelease tid q pg m) := by
  have hrem := OnlyLinks.remove m tid q pg
  have hpush := OnlyLinks.push ((cxlPageQueueRemove tid q pg m).setPage pg Page.zero) tid .freePage pg
  refine ⟨hpush.eraCell.trans hrem.eraCell, hpush.word.trans hrem.word, ?_⟩
  intro h i hi
  rw [cxlPageRelease_owner] at hi
  rw [cxlPageRelease_sas]
  exact h i hi

theorem releaseSegment_keeps (i : Nat) : Bookkeeping tid m (releaseSegment tid i m) := by
  have honly := OnlyLinks.removePages tid i segmentPages m
  refine ⟨honly.eraCell, honly.word, fun h k hk => ?_⟩
  have hseg : (releaseSegment tid i m).segment k = (cxlSegmentClear tid i m).segment k := rfl
  rw [hseg, cxlSegmentClear_segment] at hk
  rw [releaseSegment_owner]
  by_cases hki : k = i
  · rw [if_pos hki] at hk ⊢
    exact hk
  · rw [if_neg hki, honly.owner] at hk
    rw [if_neg hki]
    exact h k hk

/-- A page release returns: the vector names the client, so `cxl_segment_free` does not wait. -/
theorem cxlPageFree_keeps (h : OwnHeaders tid m) (q : QueuePtr) {pg : Nat × Nat}
    (hpg : (m.segment pg.1).threadId = tid) :
    ∃ m', cxlPageFree tid q pg m = some m' ∧ Bookkeeping tid m m' := by
  have hk : Bookkeeping tid m (cxlPageRelease tid q pg m) := cxlPageRelease_keeps q pg
  unfold cxlPageFree
  simp only
  split
  · have hi : ((cxlPageRelease tid q pg m).sas pg.1).threadId = tid := by
      rw [cxlPageRelease_sas]
      exact h pg.1 hpg
    have hk' : Bookkeeping tid (cxlPageRelease tid q pg m) _ := releaseSegment_keeps pg.1
    refine ⟨_, cxlSegmentFree_eq hi, hk'.eraCell.trans hk.eraCell, hk'.word.trans hk.word, ?_⟩
    exact fun h => hk'.own (hk.own h)
  · exact ⟨_, rfl, hk⟩

/-- **`cxl_free` of an object returns**, and of the words it changes the header only. -/
theorem cxlFree_wiped (h : OwnHeaders tid m) (b : Nat) :
    ∃ m', cxlFree tid false b m = some m' ∧ HeaderWiped b m m' ∧ OwnHeaders tid m' := by
  have hzero : ∀ w, (∀ k < 3, w ≠ b + 8 * k) → (m.zeroWords b 3).word w = m.word w :=
    fun w hw => Shm.zeroWords_word_of_ne hw
  have hwiped : ∀ v k, 0 < k → k < 3 →
      Function.update (m.zeroWords b 3).word b v (b + 8 * k) = 0 := by
    intro v k hk hk3
    rw [Function.update_of_ne (by omega)]
    exact Shm.zeroWords_word_self hk3
  have hstore : ∀ v w, (∀ k < 3, w ≠ b + 8 * k) →
      Function.update (m.zeroWords b 3).word b v w = m.word w := by
    intro v w hw
    have hb : w ≠ b := hw 0 (by decide)
    rw [Function.update_of_ne hb]
    exact hzero w hw
  unfold cxlFree
  simp only [wipedWords, Bool.false_eq_true, if_false]
  split
  case isTrue hown =>
    -- the block goes to the local list of its page
    have hcollect : OwnHeaders tid (collectBlock b (m.zeroWords b 3)) := by
      intro i hi
      apply h i
      rw [← hi]
      exact (Shm.threadId_setPage ..).symm
    have hword : (collectBlock b (m.zeroWords b 3)).word =
        Function.update (m.zeroWords b 3).word b ((m.zeroWords b 3).page (pageOf b)).localFree := rfl
    have hwipe : HeaderWiped b m (collectBlock b (m.zeroWords b 3)) :=
      ⟨rfl, fun w hw => by rw [hword]; exact hstore _ w hw, fun k hk hk3 => by
        rw [hword]; exact hwiped _ k hk hk3⟩
    unfold freeLocal
    simp only
    split
    · have hpg : ((collectBlock b (m.zeroWords b 3)).segment (pageOf b).1).threadId = tid :=
        (Shm.threadId_setPage ..).trans hown
      obtain ⟨m', hrun, hk⟩ := cxlPageFree_keeps hcollect
        (.bin (cxlPageQueue false ((collectBlock b (m.zeroWords b 3)).page (pageOf b)).blockSize)) hpg
      refine ⟨m', hrun, ⟨hk.eraCell.trans hwipe.eraCell, ?_, ?_⟩, hk.own hcollect⟩
      · intro w hw
        rw [hk.word]
        exact hwipe.outside w hw
      · intro k hk0 hk3
        rw [hk.word]
        exact hwipe.wiped k hk0 hk3
    · exact ⟨_, rfl, hwipe, hcollect⟩
  case isFalse =>
    split
    · refine ⟨_, rfl, ⟨rfl, hzero, fun k hk hk3 => ?_⟩, h⟩
      exact Shm.zeroWords_word_self hk3
    · refine ⟨_, rfl, ⟨rfl, fun w hw => hstore _ w hw, fun k hk hk3 => hwiped _ k hk hk3⟩, ?_⟩
      intro i hi
      have hi := h i hi
      by_cases hib : i = segmentIdx b
      · simpa [Shm.pushThreadFree, hib, Shm.zeroWords] using hib ▸ hi
      · simpa [Shm.pushThreadFree, hib, Shm.zeroWords] using hi

end Free

/-! ## §3 — one unlink -/

variable {H : ObjHeap} {tid : Nat}

/-- What the client needs to unlink alone: eras are 32-bit words, and its headers agree with the vector. -/
structure Alone (tid : Nat) (m : Shm) : Prop where
  era : EraBounded m
  headers : OwnHeaders tid m

theorem EraBounded.learnEra {m : Shm} (h : EraBounded m) (tid info : Nat) :
    EraBounded (learnEra tid info m) := by
  unfold CxlShm.learnEra
  split
  · exact h.storeEra (getLenumFromInfo_lt _)
  · exact h

theorem Alone.unlinkStores {m : Shm} (h : Alone tid m) (a o : Nat) :
    Alone tid (unlinkStores tid a o m) := by
  refine ⟨?_, ?_⟩
  · have hlearn : EraBounded (CxlShm.learnEra tid (m.refInfo o) m) := h.era.learnEra tid _
    exact hlearn.storeEra (Nat.mod_lt _ (by decide))
  · intro i hi
    rw [unlinkStores_segment] at hi
    rw [unlinkStores_sas]
    exact h.headers i hi

/-- The stores of an unlink take one reference away. -/
theorem unlinkStores_unlinked (htid : tid < 2 ^ 16) {m : Shm} {a : Nat} (hera : EraBounded m)
    (ha : a ∈ H.slots) (ho : m.word a ∈ H.objs) (hpos : 0 < m.refCnt (m.word a)) :
    Unlinked H m a (unlinkStores tid a (m.word a) m) := by
  have hlt := getRefCntFromInfo_lt (m.refInfo (m.word a))
  have hown : (learnEra tid (m.refInfo (m.word a)) m).era tid tid < 2 ^ 32 := hera.learnEra tid _ _
  have hstamp : getRefCntFromInfo (RefCall.stamp ⟨.unlinkRef, a, m.word a⟩ tid (m.refInfo (m.word a))
      ((learnEra tid (m.refInfo (m.word a)) m).era tid tid)) = m.refCnt (m.word a) - 1 := by
    unfold Shm.refCnt at hpos ⊢
    simp only [RefCall.stamp, RefCall.newCnt]
    rw [getRefCntFromInfo_pack htid (by omega) hown]
    omega
  exact Unlinked.of_stores ha ho hstamp (unlinkStores_word ..)

/-- **One unlink is exact**, the count of its object being positive. -/
theorem unlinkReference_unlinked (htid : tid < 2 ^ 16) {m : Shm} {a : Nat} (hal : Alone tid m)
    (ha : a ∈ H.slots) (ho : m.word a ∈ H.objs) (hpos : 0 < m.refCnt (m.word a)) :
    ∃ m', unlinkReference tid a (m.word a) m = some m' ∧ Unlinked H m a m' ∧ Alone tid m' := by
  have hun := unlinkStores_unlinked htid hal.era ha ho hpos
  have hal' := hal.unlinkStores a (m.word a)
  unfold unlinkReference
  split
  case isTrue hone =>
    obtain ⟨m', hrun, hw, hown⟩ := cxlFree_wiped hal'.headers (m.word a)
    refine ⟨m', hrun, ?_, ?_, hown⟩
    · exact hun.wipe ha ho hone hw.outside (hw.wiped 1 (by decide) (by decide))
    · intro k
      rw [hw.eraCell]
      exact hal'.era k
  case isFalse => exact ⟨_, rfl, hun, hal'⟩

theorem unlinkReference_spec (htid : tid < 2 ^ 16) {m : Shm} {a : Nat} (hx : HeapExact H m)
    (hal : Alone tid m) (ha : a ∈ H.slots) (ho : m.word a ∈ H.objs) :
    ∃ m', unlinkReference tid a (m.word a) m = some m' ∧ Unlinked H m a m' ∧ Alone tid m' :=
  unlinkReference_unlinked htid hal ha ho (hx.refCnt_pos ha ho)

/-- Between two points of a release: the objects freed since, and counts have only gone down. -/
structure FreedSince (H : ObjHeap) (x y : Freeing) (l : List Nat) : Prop where
  freed : y.freed = l ++ x.freed
  nodup : l.Nodup
  mem : ∀ o, o ∈ l ↔ o ∈ H.objs ∧ x.area.refCnt o ≠ 0 ∧ y.area.refCnt o = 0
  mono : ∀ o ∈ H.objs, y.area.refCnt o ≤ x.area.refCnt o

theorem FreedSince.refl (x : Freeing) : FreedSince H x x [] := by
  refine ⟨rfl, List.nodup_nil, ?_, fun _ _ => Nat.le_refl _⟩
  intro o
  simp only [List.not_mem_nil, false_iff]
  rintro ⟨-, hlive, hdead⟩
  exact hlive hdead

/-- What is freed in the second part was alive after the first. -/
theorem FreedSince.trans {x y z : Freeing} {l l' : List Nat} (h : FreedSince H x y l)
    (h' : FreedSince H y z l') : FreedSince H x z (l' ++ l) := by
  refine ⟨?_, ?_, ?_, ?_⟩
  · rw [h'.freed, h.freed, List.append_assoc]
  · apply List.nodup_append.mpr
    refine ⟨h'.nodup, h.nodup, ?_⟩
    rintro o ho' o' ho rfl
    exact ((h'.mem o).mp ho').2.1 ((h.mem o).mp ho).2.2
  · intro o
    rw [List.mem_append, h'.mem, h.mem]
    constructor
    · rintro (⟨ho, hlive, hdead⟩ | ⟨ho, hlive, hdead⟩)
      · have := h.mono o ho
        exact ⟨ho, by omega, hdead⟩
      · have := h'.mono o ho
        exact ⟨ho, hlive, by omega⟩
    · rintro ⟨ho, hlive, hdead⟩
      by_cases hmid : y.area.refCnt o = 0
      · exact Or.inr ⟨ho, hlive, hmid⟩
      · exact Or.inl ⟨ho, hmid, hdead⟩
  · intro o ho
    exact Nat.le_trans (h'.mono o ho) (h.mono o ho)

theorem unlinkFreeing_spec (htid : tid < 2 ^ 16) :
    UnlinkSpecOn H Freeing.area (fun x => Alone tid x.area) (fun x y => ∃ l, FreedSince H x y l)
      (unlinkFreeing tid) := by
  intro x a hx hal ha ho
  have hpos := hx.refCnt_pos ha ho
  obtain ⟨m', hrun, hun, hal'⟩ := unlinkReference_spec htid hx hal ha ho
  have hcnt := hun.count
  have hmono : ∀ o ∈ H.objs, m'.refCnt o ≤ x.area.refCnt o := by
    intro o ho'
    by_cases hoo : o = x.area.word a
    · rw [hoo]
      omega
    · exact Nat.le_of_eq (hun.refCnt_of_ne ho' hoo)
  refine ⟨_, by rw [unlinkFreeing, hrun]; rfl, hun, hal', ?_⟩
  by_cases hone : x.area.refCnt (x.area.word a) = 1
  · refine ⟨[x.area.word a], if_pos hone, List.nodup_singleton _, ?_, hmono⟩
    intro o
    rw [List.mem_singleton]
    constructor
    · rintro rfl
      exact ⟨ho, by omega, by simp only; omega⟩
    · rintro ⟨ho', hlive, hdead⟩
      by_contra hoo
      exact hlive ((hun.refCnt_of_ne ho' hoo).symm.trans hdead)
  · refine ⟨[], if_neg hone, List.nodup_nil, ?_, hmono⟩
    intro o
    simp only [List.not_mem_nil, false_iff]
    rintro ⟨ho', hlive, hdead⟩
    by_cases hoo : o = x.area.word a
    · subst hoo
      omega
    · exact hlive ((hun.refCnt_of_ne ho' hoo).symm.trans hdead)

/-! ## §4 — the cascade -/

/-- The object is alive. -/
def Allocated (H : ObjHeap) (m : Shm) (o : Nat) : Prop := o ∈ H.objs ∧ m.refCnt o ≠ 0

/-- `F` has every live object all of whose slots are `s` or lie in objects of `F`. -/
def LosesAll (H : ObjHeap) (m : Shm) (s : Nat) (F : Nat → Prop) : Prop :=
  ∀ o, Allocated H m o → (∀ b ∈ H.slots, m.word b = o → b = s ∨ H.SlotIn F b) → F o

/-- The least set of live objects that lose every slot with `s`. -/
def Cascade (H : ObjHeap) (m : Shm) (s o : Nat) : Prop :=
  Allocated H m o ∧ ∀ F, LosesAll H m s F → F o

theorem Cascade.losesAll (H : ObjHeap) (m : Shm) (s : Nat) : LosesAll H m s (Cascade H m s) := by
  intro o ho hslots
  refine ⟨ho, fun F hF => hF o ho fun b hb hw => ?_⟩
  rcases hslots b hb hw with hs | ⟨p, hp, hc, hk⟩
  · exact Or.inl hs
  · exact Or.inr ⟨p, hp, hc.2 F hF, hk⟩

theorem Cascade.doomed {m : Shm} {s : Nat} (hs : s ∈ H.slots) (hout : ¬ H.SlotIn (Cascade H m s) s) :
    Doomed H s (Cascade H m s) m :=
  ⟨hs, hout, fun o ho hlive => Cascade.losesAll H m s o ⟨ho, hlive⟩⟩

/-- What has died loses all its slots: the others still hold what they held. -/
theorem Released.losesAll {m m' : Shm} {s : Nat} (h : Released H m s m') :
    LosesAll H m s fun o => m'.refCnt o = 0 := by
  intro o ho hslots
  rw [h.exact.count o ho.1, holding_eq_zero_iff]
  intro b hb hw
  have hne : m'.word b ≠ 0 := by
    rw [hw]
    exact HeapExact.ne_zero ho.1
  rcases h.word b hb with hsame | hz
  · rcases hslots b hb (hsame.symm.trans hw) with rfl | ⟨p, hp, hdead, k, hk, rfl⟩
    · exact hne h.cleared
    · exact hne (h.exact.dead p hp hdead k hk)
  · exact hne hz

/-- **Cascading release is exact and ends.** -/
theorem testFree_cascade {H : ObjHeap} {tid fuel s : Nat} {m : Shm} (htid : tid < 2 ^ 16)
    (hfuel : H.objs.card + H.embBound < fuel) (hx : HeapExact H m) (hal : Alone tid m)
    (hs : s ∈ H.slots) (hout : ¬ H.SlotIn (Cascade H m s) s) :
    ∃ m' l, testFree tid fuel s m = some m' ∧ testFreeing tid fuel s ⟨m, []⟩ = some ⟨m', l⟩ ∧
      l.Nodup ∧ (∀ o, o ∈ l ↔ Cascade H m s o) ∧
      m'.word s = 0 ∧ (∀ o ∈ l, ∀ k < H.emb o, m'.word (embeddedSlot o k) = 0) ∧
      (∀ o, Allocated H m o → o ∉ l → m'.refCnt o = holding H.slots m'.word o ∧ m'.refCnt o ≠ 0) ∧
      (∀ b ∈ H.slots, b ≠ s → ¬ H.SlotIn (Cascade H m s) b → m'.word b = m.word b) := by
  obtain ⟨⟨m', l⟩, hrun, hrel, hdied, -, l', hl⟩ := releaseOn_exact (σ := Freeing) (x := ⟨m, []⟩)
    (unlinkFreeing_spec (H := H) htid) (fun x => ⟨[], FreedSince.refl x⟩)
    (fun x y z ⟨_, h⟩ ⟨_, h'⟩ => ⟨_, h.trans h'⟩) hfuel hx hal (Cascade.doomed hs hout)
  have hll : l = l' := hl.freed.trans (List.append_nil _)
  subst hll
  have hmem : ∀ o, o ∈ l ↔ Cascade H m s o := by
    intro o
    rw [hl.mem]
    constructor
    · rintro ⟨ho, hlive, hdead⟩
      exact hdied o ho hlive hdead
    · rintro ⟨ho, hleast⟩
      exact ⟨ho.1, ho.2, hleast _ hrel.losesAll⟩
  have harea := testFreeing_area tid fuel s ⟨m, []⟩
  refine ⟨m', l, ?_, hrun, hl.nodup, hmem, hrel.cleared, ?_, ?_, ?_⟩
  · rw [← harea]
    exact congrArg (Option.map Freeing.area) hrun
  · intro o ho k hk
    obtain ⟨ho, -, hdead⟩ := (hl.mem o).mp ho
    exact hrel.exact.dead o ho hdead k hk
  · intro o ho hnot
    refine ⟨hrel.exact.count o ho.1, fun hdead => hnot ?_⟩
    exact (hl.mem o).mpr ⟨ho.1, ho.2, hdead⟩
  · intro b hb hbs hnot
    rcases hrel.slot b hb with hsame | ⟨-, he | ⟨o, hr, hdead, k, hk, rfl⟩⟩
    · exact hsame
    · exact absurd he hbs
    · by_cases hz : m.word (embeddedSlot o k) = 0
      · rcases hrel.word _ hb with hsame | hz'
        · exact hsame
        · exact hz'.trans hz.symm
      · exact absurd (hdied.slotIn hx hr.mem hk hz hdead) hnot

theorem twiceHeap_zero : 0 ∉ ({134348800, 134348848} : Finset Nat) := by decide

/-- A RootRef in page (0, 1) holds an object of page (0, 2) that refers twice to the one after it. -/
def twiceHeap : ObjHeap where
  objs := {134348800, 134348848}
  emb := fun o => if o = 134348800 then 2 else 0
  roots := {134283264}
  root_outside := by decide
  objs_apart := by decide
  zero_not_obj := twiceHeap_zero

def twiceArea : Shm :=
  { Shm.zero with
    word := fun a =>
      if a = 134283264 then 134348800
      else if a = 134348808 then packRefInfo 1 1 1
      else if a = 134348816 then 2
      else if a = 134348824 ∨ a = 134348832 then 134348848
      else if a = 134348856 then packRefInfo 1 2 1
      else 0 }

theorem testFree_cascade_twice : ∃ (m' : Shm) (l : List Nat), testFree 1 6 134283264 twiceArea = some m' ∧ l.Nodup ∧
    (∀ o, o ∈ l ↔ Cascade twiceHeap twiceArea 134283264 o) ∧ m'.word 134283264 = 0 := by
  have hexact : HeapExact twiceHeap twiceArea := by
    refine ⟨?_, ?_, ?_, ?_⟩
    · decide
    · decide
    · decide
    · decide
  have halone : Alone 1 twiceArea :=
    ⟨fun _ => Nat.two_pow_pos 32, fun i hi => absurd (show (0 : Nat) = 1 from hi) (by decide)⟩
  have hroot : 134283264 ∈ twiceHeap.roots := by decide
  have hout : ¬ twiceHeap.SlotIn (Cascade twiceHeap twiceArea 134283264) 134283264 := by
    rintro ⟨o, ho, -, k, hk, heq⟩
    exact ObjHeap.root_ne_embeddedSlot hroot ho hk heq
  obtain ⟨m', l, hrun, -, hnd, hmem, hzero, -⟩ := testFree_cascade (s := 134283264)
    (by decide : 1 < 2 ^ 16) (by decide : _ < 6) hexact halone (ObjHeap.root_mem hroot) hout
  exact ⟨m', l, hrun, hnd, hmem, hzero⟩

end CxlShm
