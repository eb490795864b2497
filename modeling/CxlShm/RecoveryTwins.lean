import CxlShm.EraCommit
import CxlShm.LocalFree

/-! # RecoveryTwins — the client's release and the monitor's, side by side

`test_free` run by client `tid` and `recovery_test_free` run for it, one unlink at a time from one area.
Slots, counts and the freed headers stay the same, and so do stamps and eras while no stamp of the client is
ahead of its era. The lists differ in two ways, told segment by segment and page by page: the monitor pushes
where the client tests for `POTENTIAL_LEAKING`, and the client links its own blocks where the monitor only
wipes them.
-/

namespace CxlShm

open SlotCount Loop

/-! ## §1 — the eras of a release -/

/-- No stamp of the client is newer than its own era, and the 32 bits do not run out while its slots are
unlinked. -/
structure EraAhead (H : ObjHeap) (tid : Nat) (m : Shm) : Prop where
  stamp : ∀ o ∈ H.objs, getLcidFromInfo (m.refInfo o) = tid →
    getLenumFromInfo (m.refInfo o) ≤ m.era tid tid
  room : m.era tid tid + (H.slots.filter fun a => m.word a ≠ 0).card < 2 ^ 32

/-- Every run of reference operations keeps a client's stamps behind its own era, also when the client
has stopped inside an operation. -/
theorem EraReach.eraAhead {W : RefWorld} {s : EraSys} (h : EraReach W s) {tid : Nat} (hi : tid ∈ W.ids)
    {H : ObjHeap} (hobjs : ∀ o ∈ H.objs, o ∈ W.objs)
    (hroom : s.shm.era tid tid + (H.slots.filter fun a => s.shm.word a ≠ 0).card < 2 ^ 32) :
    EraAhead H tid s.shm := by
  refine ⟨fun o ho hc => ?_, hroom⟩
  have hlt := (h.inv.info o (hobjs o ho)).2 (hc ▸ hi)
  have hpub : s.pub tid ≤ s.eras tid + 1 := by
    unfold EraSys.pub
    split <;> omega
  rw [hc] at hlt
  rw [(h.inv.era_eq tid hi).1]
  omega

/-! ## §2 — the stores of one unlink -/

section Stores

variable {tid : Nat} {m m' c r : Shm} {H : ObjHeap}

theorem learnEra_congr (h : m'.eraCell = m.eraCell) (info : Nat) :
    (learnEra tid info m').eraCell = (learnEra tid info m).eraCell := by
  unfold learnEra Shm.era
  rw [h]
  split
  · simp only [Shm.storeEra, h]
  · exact h

/-- Learning of an era leaves the own one, unless an own stamp is newer. -/
theorem learnEra_own {info : Nat}
    (h : getLcidFromInfo info = tid → getLenumFromInfo info ≤ m.era tid tid) :
    (learnEra tid info m).era tid tid = m.era tid tid := by
  unfold learnEra
  split
  case isFalse => rfl
  case isTrue hnew =>
    by_cases hc : getLcidFromInfo info = tid
    · have hle := h hc
      rw [hc] at hnew
      omega
    · apply Shm.era_storeEra_of_ne
      unfold Shm.eraIdx
      omega

theorem unlinkStores_eraCell (a o : Nat) : (unlinkStores tid a o c).eraCell =
    ((learnEra tid (c.refInfo o) c).storeEra tid tid
      (((learnEra tid (c.refInfo o) c).era tid tid + 1) % 2 ^ 32)).eraCell := rfl

theorem recoveryUnlinkStores_eraCell (a o : Nat) : (recoveryUnlinkStores tid a o r).eraCell =
    ((learnEra tid (r.refInfo o) r).storeEra tid tid
      (((learnEra tid (r.refInfo o) r).era tid tid + 1) % 2 ^ 32)).eraCell := rfl

/-- The own era after the stores. -/
theorem EraAhead.unlinkStores_era (h : EraAhead H tid c) {a : Nat} (ha : a ∈ H.slots)
    (ho : c.word a ∈ H.objs) :
    (unlinkStores tid a (c.word a) c).era tid tid = c.era tid tid + 1 := by
  have hown := learnEra_own (h.stamp _ ho)
  have hmem : a ∈ H.slots.filter fun b => c.word b ≠ 0 :=
    Finset.mem_filter.mpr ⟨ha, HeapExact.ne_zero ho⟩
  have hcard := Finset.card_pos.mpr ⟨a, hmem⟩
  have hroom := h.room
  show (unlinkStores tid a (c.word a) c).eraCell _ = _
  rw [unlinkStores_eraCell]
  show ((learnEra tid (c.refInfo (c.word a)) c).storeEra tid tid _).era tid tid = _
  rw [Shm.era_storeEra_self, hown]
  omega

/-- The stamp both write. -/
def unlinkStamp (tid : Nat) (c : Shm) (o : Nat) : Nat :=
  packRefInfo tid ((getRefCntFromInfo (c.refInfo o) + (2 ^ 64 - 1)) % 2 ^ 64) (c.era tid tid)

theorem unlinkStamp_lenum (hbound : EraBounded c) (htid : tid < 2 ^ 16) {o : Nat}
    (hpos : 0 < c.refCnt o) : getLenumFromInfo (unlinkStamp tid c o) = c.era tid tid := by
  have hlt := getRefCntFromInfo_lt (c.refInfo o)
  unfold Shm.refCnt at hpos
  unfold unlinkStamp
  rw [getLenumFromInfo_pack htid (by omega) (show c.era tid tid < 2 ^ 32 from hbound _)]

theorem EraAhead.unlinkStores_word (h : EraAhead H tid c) {a o : Nat} (ho : o ∈ H.objs) :
    (unlinkStores tid a o c).word =
      Function.update (Function.update c.word (o + 8) (unlinkStamp tid c o)) a 0 := by
  rw [CxlShm.unlinkStores_word, learnEra_own (h.stamp o ho)]
  rfl

theorem recoveryUnlinkStores_word_of (hera : r.eraCell = c.eraCell) {a o : Nat}
    (hinfo : r.refInfo o = c.refInfo o) : (recoveryUnlinkStores tid a o r).word =
      Function.update (Function.update r.word (o + 8) (unlinkStamp tid c o)) a 0 := by
  rw [recoveryUnlinkStores_word, hinfo, Shm.era, hera]
  rfl

end Stores

/-! ## §3 — the two runs -/

/-- The area of the client's run and that of the monitor's. -/
structure Twin where
  client : Shm
  monitor : Shm

variable {H : ObjHeap} {tid : Nat} {m : Shm}

/-- The words of a header that may differ: the link of a freed block, and the stamp. -/
def HeadWord (H : ObjHeap) (w : Nat) : Prop := ∃ o ∈ H.objs, w = o ∨ w = o + 8

/-- Stamps and eras agree. -/
structure SameStamps (H : ObjHeap) (tid : Nat) (x : Twin) : Prop where
  ahead : EraAhead H tid x.client
  era : x.monitor.eraCell = x.client.eraCell
  refInfo : ∀ o ∈ H.objs, x.monitor.refInfo o = x.client.refInfo o

/-- Both runs started in `m`, and everything but links, stamps and lists agrees; stamps agree as well if none
is ahead in `m`. -/
structure Twins (H : ObjHeap) (tid : Nat) (m : Shm) (x : Twin) : Prop where
  counted : HeapCounted H x.client
  alone : Alone tid x.client
  bounded : EraBounded x.monitor
  word : ∀ w, ¬ HeadWord H w → x.monitor.word w = x.client.word w
  count : ∀ o ∈ H.objs, x.monitor.refCnt o = x.client.refCnt o
  stamps : EraAhead H tid m → SameStamps H tid x
  mono : ∀ o ∈ H.objs, x.client.refCnt o ≤ m.refCnt o
  cover : CountersCover H (Owned m tid) tid x.client
  foreign : ∀ i, Foreign m tid i → Foreign x.client tid i
  headers : x.monitor.segment = m.segment
  clientState : ∀ i, Foreign m tid i → (x.client.sas i).state = (m.sas i).state
  monitorState : ∀ i, (x.monitor.sas i).state = (m.sas i).state

section Twins

variable {x y : Twin} {a : Nat}

/-- Words 1 and 2 of a header are first words of no object. -/
theorem header_notMem {o j : Nat} (ho : o ∈ H.objs) (hj : 0 < j) (hj' : j < 3) : o + 8 * j ∉ H.objs := by
  intro hmem
  have hne : o ≠ o + 8 * j := by omega
  exact ObjHeap.header_apart (l := 0) ho hmem hne hj' (by decide) rfl

theorem slot_notMem (ha : a ∈ H.slots) : a ∉ H.objs := fun hmem =>
  ObjHeap.slot_ne_header (j := 0) ha hmem (by decide) rfl

theorem slot_not_headWord (ha : a ∈ H.slots) : ¬ HeadWord H a := by
  rintro ⟨o, ho, rfl | rfl⟩
  · exact slot_notMem ha ho
  · exact ObjHeap.slot_ne_header (j := 1) ha ho (by decide) rfl

theorem Twins.slot (h : Twins H tid m x) (ha : a ∈ H.slots) : x.monitor.word a = x.client.word a :=
  h.word _ (slot_not_headWord ha)

/-- The own era moves on with every unlink, and a slot has been cleared for it. -/
theorem EraAhead.unlink {c c' : Shm} (h : EraAhead H tid c) (hun : Unlinked H c a c') (ha : a ∈ H.slots)
    (ho : c.word a ∈ H.objs) (hera : c'.eraCell = (unlinkStores tid a (c.word a) c).eraCell)
    (hbound : EraBounded c) (htid : tid < 2 ^ 16) (hpos : 0 < c.refCnt (c.word a))
    (hinfo : c'.refInfo (c.word a) = unlinkStamp tid c (c.word a) ∨ c'.refInfo (c.word a) = 0) :
    EraAhead H tid c' := by
  have hown : c'.era tid tid = c.era tid tid + 1 := by
    rw [← h.unlinkStores_era ha ho, Shm.era, hera]
    rfl
  refine ⟨?_, ?_⟩
  · intro p hp hc
    rw [hown]
    by_cases hpo : p = c.word a
    · subst hpo
      rcases hinfo with hs | hz
      · rw [hs, unlinkStamp_lenum hbound htid hpos]
        exact Nat.le_succ _
      · rw [hz, getLenumFromInfo_zero]
        exact Nat.zero_le _
    · have hsame : c'.refInfo p = c.refInfo p := hun.other p hp hpo 1 (by decide)
      rw [hsame] at hc ⊢
      exact (h.stamp p hp hc).trans (Nat.le_succ _)
  · rw [hown]
    have herase : (H.slots.filter fun b => c'.word b ≠ 0) = (H.slots.filter fun b => c.word b ≠ 0).erase a := by
      ext b
      simp only [Finset.mem_filter, Finset.mem_erase]
      by_cases hba : b = a
      · subst hba
        simp [hun.cleared]
      · constructor
        · rintro ⟨hb, hw⟩
          rw [hun.slot b hb hba] at hw
          exact ⟨hba, hb, hw⟩
        · rintro ⟨-, hb, hw⟩
          rw [hun.slot b hb hba]
          exact ⟨hb, hw⟩
    have hmem : a ∈ H.slots.filter fun b => c.word b ≠ 0 :=
      Finset.mem_filter.mpr ⟨ha, HeapExact.ne_zero ho⟩
    have hpos := Finset.card_pos.mpr ⟨a, hmem⟩
    have hroom := h.room
    rw [herase, Finset.card_erase_of_mem hmem]
    omega

/-- Stamps and eras after one unlink of the pair. `hinfo` is the stamp of the object in both runs: the new one,
or 0 in a freed header. -/
theorem SameStamps.unlink (h : SameStamps H tid x) (hbound : EraBounded x.client) (htid : tid < 2 ^ 16)
    (ha : a ∈ H.slots) (ho : x.client.word a ∈ H.objs) (hpos : 0 < x.client.refCnt (x.client.word a))
    (hun : Unlinked H x.client a y.client)
    (hother : ∀ p ∈ H.objs, p ≠ x.client.word a → y.monitor.refInfo p = x.monitor.refInfo p)
    (hera : y.client.eraCell = (unlinkStores tid a (x.client.word a) x.client).eraCell)
    (hera' : y.monitor.eraCell = (recoveryUnlinkStores tid a (x.client.word a) x.monitor).eraCell)
    (hinfo : (y.client.refInfo (x.client.word a) = unlinkStamp tid x.client (x.client.word a) ∨
        y.client.refInfo (x.client.word a) = 0) ∧
      y.monitor.refInfo (x.client.word a) = y.client.refInfo (x.client.word a)) : SameStamps H tid y := by
  refine ⟨h.ahead.unlink hun ha ho hera hbound htid hpos hinfo.1, ?_, ?_⟩
  · rw [hera, hera', recoveryUnlinkStores_eraCell, unlinkStores_eraCell, h.refInfo _ ho]
    have hlearn := @learnEra_congr tid _ _ h.era (x.client.refInfo (x.client.word a))
    simp only [Shm.storeEra, Shm.era, hlearn]
  · intro p hp
    by_cases hpo : p = x.client.word a
    · subst hpo
      exact hinfo.2
    · have hsame : y.client.refInfo p = x.client.refInfo p := hun.other p hp hpo 1 (by decide)
      rw [hother p hp hpo, hsame]
      exact h.refInfo p hp

/-- What one unlink of the pair leaves of the agreement. -/
theorem Twins.unlink (h : Twins H tid m x) (ha : a ∈ H.slots) (ho : x.client.word a ∈ H.objs)
    (hun : Unlinked H x.client a y.client) (hun' : Unlinked H x.monitor a y.monitor)
    (hal : Alone tid y.client) (hbound : EraBounded y.monitor)
    (hword : ∀ w, ¬ HeadWord H w → y.monitor.word w = y.client.word w)
    (hstamps : SameStamps H tid x → SameStamps H tid y)
    (hcover : CountersCover H (Owned m tid) tid y.client)
    (hforeign : ∀ i, Foreign x.client tid i → Foreign y.client tid i)
    (hheaders : y.monitor.segment = x.monitor.segment)
    (hclient : ∀ i, Foreign m tid i → (y.client.sas i).state = (x.client.sas i).state)
    (hmonitor : ∀ i, (y.monitor.sas i).state = (x.monitor.sas i).state) : Twins H tid m y := by
  refine ⟨hun.counted h.counted ha ho, hal, hbound, hword, ?_, fun hm => hstamps (h.stamps hm), ?_, hcover,
    ?_, hheaders.trans h.headers, ?_, ?_⟩
  · intro p hp
    have hslot := h.slot ha
    by_cases hpo : p = x.client.word a
    · have hc := hun.count
      have hr := hun'.count
      rw [hslot, h.count _ ho] at hr
      rw [hpo, hc, hr]
    · rw [hun.refCnt_of_ne hp hpo, hun'.refCnt_of_ne hp (by rw [hslot]; exact hpo)]
      exact h.count p hp
  · intro o ho'
    exact ((hun.shrunk ho).mono o ho').trans (h.mono o ho')
  · exact fun i hi => hforeign i (h.foreign i hi)
  · exact fun i hi => (hclient i hi).trans (h.clientState i hi)
  · exact fun i => (hmonitor i).trans (h.monitorState i)

/-- The stores of an unlink leave the first words of objects alone. -/
theorem firstWord_kept {v : Nat} {w w' : Nat → Nat} {o : Nat} (ha : a ∈ H.slots) (ho : o ∈ H.objs)
    (hw : w' = Function.update (Function.update w (o + 8) v) a 0) {p : Nat} (hp : p ∈ H.objs) :
    w' p = w p := by
  have hpa : p ≠ a := fun he => slot_notMem ha (he ▸ hp)
  have hpo : p ≠ o + 8 := fun he => header_notMem (j := 1) ho (by decide) (by decide) (he ▸ hp)
  rw [hw, Function.update_of_ne hpa, Function.update_of_ne hpo]

/-- The stores of both unlinks agree outside links and stamps. -/
theorem Twins.stores_word (h : Twins H tid m x) (ho : x.client.word a ∈ H.objs) {w : Nat}
    (hw : ¬ HeadWord H w) : (recoveryUnlinkStores tid a (x.client.word a) x.monitor).word w =
      (unlinkStores tid a (x.client.word a) x.client).word w := by
  have hwo : w ≠ x.client.word a + 8 := fun he => hw ⟨_, ho, Or.inr he⟩
  rw [recoveryUnlinkStores_word, unlinkStores_word]
  by_cases hwa : w = a
  · rw [hwa, Function.update_self, Function.update_self]
  · rw [Function.update_of_ne hwa, Function.update_of_ne hwo, Function.update_of_ne hwa,
      Function.update_of_ne hwo]
    exact h.word w hw

/-- The stamp the client's stores leave. -/
theorem SameStamps.stores_refInfo (h : SameStamps H tid x) (ha : a ∈ H.slots)
    (ho : x.client.word a ∈ H.objs) :
    (unlinkStores tid a (x.client.word a) x.client).refInfo (x.client.word a) =
        unlinkStamp tid x.client (x.client.word a) ∧
      (recoveryUnlinkStores tid a (x.client.word a) x.monitor).refInfo (x.client.word a) =
        unlinkStamp tid x.client (x.client.word a) := by
  have hne : x.client.word a + 8 ≠ a := (ObjHeap.slot_ne_header (j := 1) ha ho (by decide)).symm
  refine ⟨?_, ?_⟩
  · rw [Shm.refInfo, h.ahead.unlinkStores_word ho, Function.update_of_ne hne, Function.update_self]
  · rw [Shm.refInfo, recoveryUnlinkStores_word_of h.era (h.refInfo _ ho), Function.update_of_ne hne,
      Function.update_self]

/-- The stamps of other objects stay. -/
theorem recoveryUnlinkStores_refInfo {r : Shm} {o p : Nat} (ha : a ∈ H.slots) (hp : p ∈ H.objs)
    (hpo : p ≠ o) : (recoveryUnlinkStores tid a o r).refInfo p = r.refInfo p := by
  have hpa : p + 8 ≠ a := (ObjHeap.slot_ne_header (j := 1) ha hp (by decide)).symm
  rw [Shm.refInfo, recoveryUnlinkStores_word, Function.update_of_ne hpa, Function.update_of_ne (by omega)]
  rfl

end Twins

/-! ## §4 — the lists of other clients' segments -/

/-- The object was alive in `m` and has died. -/
def Gone (m c : Shm) (o : Nat) : Prop := m.refCnt o ≠ 0 ∧ c.refCnt o = 0

/-- `o` dies, and no other object is touched. -/
structure Dies (H : ObjHeap) (o : Nat) (c c' : Shm) : Prop where
  mem : o ∈ H.objs
  before : c.refCnt o ≠ 0
  after : c'.refCnt o = 0
  word : ∀ p ∈ H.objs, p ≠ o → c'.word p = c.word p
  count : ∀ p ∈ H.objs, p ≠ o → c'.refCnt p = c.refCnt p

theorem Dies.mono {c c' : Shm} {o : Nat} (h : Dies H o c c') :
    ∀ p ∈ H.objs, c'.refCnt p ≠ 0 → c.refCnt p ≠ 0 := by
  intro p hp hlive
  have hne : p ≠ o := fun he => hlive (he ▸ h.after)
  rw [← h.count p hp hne]
  exact hlive

/-- The list of segment `i` is the same in both; if the segment is marked, none of its objects has
died. -/
structure ListSame (H : ObjHeap) (m : Shm) (i : Nat) (x : Twin) : Prop where
  head : (x.monitor.sas i).threadFree = (x.client.sas i).threadFree
  link : ∀ o ∈ H.objs, segmentIdx o = i → x.monitor.word o = x.client.word o
  marked : (m.sas i).state = .potentialLeaking → (x.client.sas i).threadFree = (m.sas i).threadFree ∧
    ∀ o ∈ H.objs, segmentIdx o = i → ¬ Gone m x.client o

/-- An object of the marked segment `i` has died: the client's list is as it was, the monitor's is not
empty, and if it was not empty to begin with some object is linked by the monitor only. -/
structure ListTorn (H : ObjHeap) (m : Shm) (i : Nat) (x : Twin) : Prop where
  marked : (m.sas i).state = .potentialLeaking
  dead : ∃ o ∈ H.objs, segmentIdx o = i ∧ Gone m x.client o
  kept : (x.client.sas i).threadFree = (m.sas i).threadFree
  pushed : (x.monitor.sas i).threadFree ≠ 0
  link : (m.sas i).threadFree ≠ 0 → ∃ p ∈ H.objs, segmentIdx p = i ∧ x.client.refCnt p = 0 ∧
    x.client.word p = 0 ∧ x.monitor.word p ≠ 0

section Lists

variable {x y : Twin} {i o : Nat}

/-- An unlink that does not touch the list of segment `i` and kills no object in it. -/
theorem ListSame.keep (h : ListSame H m i x) (hclient : y.client.sas i = x.client.sas i)
    (hmonitor : y.monitor.sas i = x.monitor.sas i)
    (hlink : ∀ o ∈ H.objs, segmentIdx o = i → y.client.word o = x.client.word o ∧
      y.monitor.word o = x.monitor.word o)
    (hdead : ∀ o ∈ H.objs, segmentIdx o = i → (y.client.refCnt o = 0 ↔ x.client.refCnt o = 0)) :
    ListSame H m i y := by
  refine ⟨?_, ?_, ?_⟩
  · rw [hclient, hmonitor]
    exact h.head
  · intro o ho hi
    rw [(hlink o ho hi).1, (hlink o ho hi).2]
    exact h.link o ho hi
  · intro hm
    obtain ⟨hkept, hlives⟩ := h.marked hm
    rw [hclient]
    exact ⟨hkept, fun o ho hi hg => hlives o ho hi ⟨hg.1, (hdead o ho hi).mp hg.2⟩⟩

theorem ListTorn.keep (h : ListTorn H m i x) (hclient : y.client.sas i = x.client.sas i)
    (hmonitor : y.monitor.sas i = x.monitor.sas i)
    (hlink : ∀ o ∈ H.objs, segmentIdx o = i → y.client.word o = x.client.word o ∧
      y.monitor.word o = x.monitor.word o)
    (hdead : ∀ o ∈ H.objs, segmentIdx o = i → (y.client.refCnt o = 0 ↔ x.client.refCnt o = 0)) :
    ListTorn H m i y := by
  refine ⟨h.marked, ?_, ?_, ?_, ?_⟩
  · obtain ⟨o, ho, hi, hlive, hz⟩ := h.dead
    exact ⟨o, ho, hi, hlive, (hdead o ho hi).mpr hz⟩
  · rw [hclient]
    exact h.kept
  · rw [hmonitor]
    exact h.pushed
  · intro hne
    obtain ⟨p, hp, hi, hz, hc, hr⟩ := h.link hne
    rw [← (hlink p hp hi).1] at hc
    rw [← (hlink p hp hi).2] at hr
    exact ⟨p, hp, hi, (hdead p hp hi).mpr hz, hc, hr⟩

/-- The list of the segment in which an object dies. -/
theorem list_free (h : ListSame H m i x ∨ ListTorn H m i x) (hdies : Dies H o x.client y.client)
    (hi : segmentIdx o = i) (hm : m.refCnt o ≠ 0)
    (hother : ∀ p ∈ H.objs, p ≠ o → y.monitor.word p = x.monitor.word p)
    (hclient : (m.sas i).state = .potentialLeaking →
      (y.client.sas i).threadFree = (x.client.sas i).threadFree ∧ y.client.word o = 0)
    (hclient' : (m.sas i).state ≠ .potentialLeaking →
      (y.client.sas i).threadFree = o ∧ y.client.word o = (x.client.sas i).threadFree)
    (hmonitor : (y.monitor.sas i).threadFree = o ∧ y.monitor.word o = (x.monitor.sas i).threadFree) :
    ListSame H m i y ∨ ListTorn H m i y := by
  have hgone : Gone m y.client o := ⟨hm, hdies.after⟩
  by_cases hmark : (m.sas i).state = .potentialLeaking
  case pos =>
    -- the client drops the block, the monitor pushes it
    obtain ⟨hsas, hword⟩ := hclient hmark
    refine Or.inr ⟨hmark, ⟨o, hdies.mem, hi, hgone⟩, ?_, ?_, fun hne => ⟨o, hdies.mem, hi, hgone.2, hword, ?_⟩⟩
    · rw [hsas]
      rcases h with hsame | htorn
      · exact (hsame.marked hmark).1
      · exact htorn.kept
    · rw [hmonitor.1]
      exact HeapExact.ne_zero hdies.mem
    · rw [hmonitor.2]
      rcases h with hsame | htorn
      · rw [hsame.head, (hsame.marked hmark).1]
        exact hne
      · exact htorn.pushed
  case neg =>
    have hsame : ListSame H m i x := h.resolve_right fun htorn => hmark htorn.marked
    obtain ⟨hhead, hword⟩ := hclient' hmark
    refine Or.inl ⟨?_, ?_, fun hmark' => absurd hmark' hmark⟩
    · rw [hmonitor.1, hhead]
    · intro p hp hpi
      by_cases hpo : p = o
      · rw [hpo, hmonitor.2, hword]
        exact hsame.head
      · rw [hdies.word p hp hpo, hother p hp hpo]
        exact hsame.link p hp hpi

end Lists

/-! ## §5 — the pages of the client's own -/

/-- Some object of the page is alive. -/
def Lives (H : ObjHeap) (pg : Nat × Nat) (c : Shm) : Prop := ∃ o ∈ H.objs, pageOf o = pg ∧ c.refCnt o ≠ 0

/-- No object of the page has died. -/
structure PageIntact (H : ObjHeap) (m : Shm) (pg : Nat × Nat) (c : Shm) : Prop where
  none : ∀ o ∈ H.objs, pageOf o = pg → ¬ Gone m c o
  head : Lives H pg c → (c.page pg).localFree = (m.page pg).localFree

/-- Only `q` has died, and the local list was empty: the wiped block is the whole of it. -/
structure PageOne (H : ObjHeap) (m : Shm) (pg : Nat × Nat) (c : Shm) (q : Nat) : Prop where
  mem : q ∈ H.objs
  page : pageOf q = pg
  gone : Gone m c q
  only : ∀ o ∈ H.objs, pageOf o = pg → Gone m c o → o = q
  empty : (m.page pg).localFree = 0
  link : c.word q = 0
  head : Lives H pg c → (c.page pg).localFree = q

/-- A dead object of the page is linked to another block: the list was not empty, or two have died. -/
structure PageTorn (H : ObjHeap) (m : Shm) (pg : Nat × Nat) (c : Shm) : Prop where
  link : ∃ q ∈ H.objs, pageOf q = pg ∧ Gone m c q ∧ c.word q ≠ 0
  cause : (m.page pg).localFree = 0 → ∃ q ∈ H.objs, ∃ p ∈ H.objs, pageOf q = pg ∧ pageOf p = pg ∧
    Gone m c q ∧ Gone m c p ∧ q ≠ p
  head : Lives H pg c → (c.page pg).localFree ≠ 0

/-- The local list of a page, in the client's run. -/
def LocalList (H : ObjHeap) (m : Shm) (pg : Nat × Nat) (c : Shm) : Prop :=
  PageIntact H m pg c ∨ (∃ q, PageOne H m pg c q) ∨ PageTorn H m pg c

section Pages

variable {c c' : Shm} {pg : Nat × Nat} {o : Nat}

/-- An unlink that kills no object of the page and leaves its list while something lives in it. -/
theorem LocalList.keep (h : LocalList H m pg c)
    (hword : ∀ o ∈ H.objs, pageOf o = pg → c'.word o = c.word o)
    (hdead : ∀ o ∈ H.objs, pageOf o = pg → (c'.refCnt o = 0 ↔ c.refCnt o = 0))
    (hhead : Lives H pg c' → (c'.page pg).localFree = (c.page pg).localFree) : LocalList H m pg c' := by
  have hgone : ∀ o ∈ H.objs, pageOf o = pg → (Gone m c' o ↔ Gone m c o) := fun o ho hp =>
    and_congr_right fun _ => hdead o ho hp
  have hlives : Lives H pg c' → Lives H pg c := by
    rintro ⟨o, ho, hp, hne⟩
    exact ⟨o, ho, hp, fun hz => hne ((hdead o ho hp).mpr hz)⟩
  rcases h with hnone | ⟨q, hone⟩ | htorn
  · refine Or.inl ⟨fun o ho hp hg => hnone.none o ho hp ((hgone o ho hp).mp hg), fun hl => ?_⟩
    rw [hhead hl]
    exact hnone.head (hlives hl)
  · refine Or.inr (Or.inl ⟨q, hone.mem, hone.page, ?_, ?_, hone.empty, ?_, fun hl => ?_⟩)
    · exact (hgone q hone.mem hone.page).mpr hone.gone
    · exact fun o ho hp hg => hone.only o ho hp ((hgone o ho hp).mp hg)
    · rw [hword q hone.mem hone.page]
      exact hone.link
    · rw [hhead hl]
      exact hone.head (hlives hl)
  · refine Or.inr (Or.inr ⟨?_, fun hz => ?_, fun hl => ?_⟩)
    · obtain ⟨q, hq, hp, hg, hne⟩ := htorn.link
      exact ⟨q, hq, hp, (hgone q hq hp).mpr hg, by rw [hword q hq hp]; exact hne⟩
    · obtain ⟨q, hq, p, hp, hqp, hpp, hgq, hgp, hne⟩ := htorn.cause hz
      exact ⟨q, hq, p, hp, hqp, hpp, (hgone q hq hqp).mpr hgq, (hgone p hp hpp).mpr hgp, hne⟩
    · rw [hhead hl]
      exact htorn.head (hlives hl)

/-- **A death in a page of the client's own**: the dead object heads its list, linked to what was there. -/
theorem LocalList.free (h : LocalList H m (pageOf o) c) (hdies : Dies H o c c') (hm : m.refCnt o ≠ 0)
    (hlink : c'.word o = (c.page (pageOf o)).localFree)
    (hhead : Lives H (pageOf o) c' → (c'.page (pageOf o)).localFree = o) : LocalList H m (pageOf o) c' := by
  have hgone : Gone m c' o := ⟨hm, hdies.after⟩
  have hlives : Lives H (pageOf o) c := ⟨o, hdies.mem, rfl, hdies.before⟩
  have hstays : ∀ p ∈ H.objs, Gone m c p → Gone m c' p := by
    intro p hp hg
    refine ⟨hg.1, ?_⟩
    by_contra hne
    exact hdies.mono p hp hne hg.2
  have hne0 : Lives H (pageOf o) c' → (c'.page (pageOf o)).localFree ≠ 0 := by
    intro hl
    rw [hhead hl]
    exact HeapExact.ne_zero hdies.mem
  rcases h with hnone | ⟨q, hone⟩ | htorn
  · -- the first death of the page
    rw [hnone.head hlives] at hlink
    by_cases hz : (m.page (pageOf o)).localFree = 0
    · refine Or.inr (Or.inl ⟨o, hdies.mem, rfl, hgone, ?_, hz, hlink.trans hz, hhead⟩)
      intro p hp hpage hg
      by_contra hpo
      rw [Gone, hdies.count p hp hpo] at hg
      exact hnone.none p hp hpage hg
    · refine Or.inr (Or.inr ⟨⟨o, hdies.mem, rfl, hgone, ?_⟩, fun hz' => absurd hz' hz, hne0⟩)
      rw [hlink]
      exact hz
  · -- the second death: the block is linked to the first
    have hqo : q ≠ o := fun he => hdies.before (he ▸ hone.gone.2)
    rw [hone.head hlives] at hlink
    refine Or.inr (Or.inr ⟨⟨o, hdies.mem, rfl, hgone, ?_⟩, fun _ => ?_, hne0⟩)
    · rw [hlink]
      exact HeapExact.ne_zero hone.mem
    · exact ⟨q, hone.mem, o, hdies.mem, hone.page, rfl, hstays q hone.mem hone.gone, hgone, hqo⟩
  · obtain ⟨q, hq, hpage, hg, hne⟩ := htorn.link
    have hqo : q ≠ o := fun he => hdies.before (he ▸ hg.2)
    refine Or.inr (Or.inr ⟨⟨q, hq, hpage, hstays q hq hg, ?_⟩, fun hz => ?_, hne0⟩)
    · rw [hdies.word q hq hqo]
      exact hne
    · obtain ⟨p, hp, p', hp', hpage, hpage', hg, hg', hpp⟩ := htorn.cause hz
      exact ⟨p, hp, p', hp', hpage, hpage', hstays p hp hg, hstays p' hp' hg', hpp⟩

end Pages

/-- Where the two runs stand with the lists: segment by segment for those of others, page by page for those of
the client itself, whose dead objects the monitor leaves without a link. -/
structure Lists (H : ObjHeap) (tid : Nat) (m : Shm) (x : Twin) : Prop where
  foreign : ∀ i, Foreign m tid i → ListSame H m i x ∨ ListTorn H m i x
  alive : ∀ o ∈ H.objs, Owned m tid (segmentIdx o) → ¬ Gone m x.client o →
    x.monitor.word o = x.client.word o
  gone : ∀ o ∈ H.objs, Owned m tid (segmentIdx o) → Gone m x.client o → x.monitor.word o = 0
  page : ∀ pg : Nat × Nat, Owned m tid pg.1 → LocalList H m pg x.client

/-- An unlink that kills nothing and stores in no first word. -/
theorem Lists.keep {x y : Twin} (h : Lists H tid m x) (hclient : y.client.sas = x.client.sas)
    (hmonitor : y.monitor.sas = x.monitor.sas) (hsegment : y.client.segment = x.client.segment)
    (hlink : ∀ o ∈ H.objs, y.client.word o = x.client.word o ∧ y.monitor.word o = x.monitor.word o)
    (hdead : ∀ o ∈ H.objs, (y.client.refCnt o = 0 ↔ x.client.refCnt o = 0)) : Lists H tid m y := by
  have hgone : ∀ o ∈ H.objs, (Gone m y.client o ↔ Gone m x.client o) := fun o ho =>
    and_congr_right fun _ => hdead o ho
  refine ⟨?_, ?_, ?_, ?_⟩
  · intro i hi
    have hc := congrFun hclient i
    have hr := congrFun hmonitor i
    rcases h.foreign i hi with hsame | htorn
    · exact Or.inl (hsame.keep hc hr (fun o ho _ => hlink o ho) fun o ho _ => hdead o ho)
    · exact Or.inr (htorn.keep hc hr (fun o ho _ => hlink o ho) fun o ho _ => hdead o ho)
  · intro o ho hown hg
    rw [(hlink o ho).1, (hlink o ho).2]
    exact h.alive o ho hown fun hg' => hg ((hgone o ho).mpr hg')
  · intro o ho hown hg
    rw [(hlink o ho).2]
    exact h.gone o ho hown ((hgone o ho).mp hg)
  · intro pg hown
    apply (h.page pg hown).keep (fun o ho _ => (hlink o ho).1) fun o ho _ => hdead o ho
    intro _
    rw [Shm.page, hsegment]
    rfl

end CxlShm
