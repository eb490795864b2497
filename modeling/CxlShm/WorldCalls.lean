import CxlShm.Counters
import CxlShm.World

/-! # WorldCalls — what one call does to everybody's lists

A block is handed out by one client or given back to the client it belongs to, whoever frees it; nobody
else's lists change.
-/

namespace CxlShm

open SlotCount Loop Transition

/-! ## §1 — what every call leaves alone -/

/-- The heads of the queue lists of a client, and the id of its slot. -/
def Tls.ends (t : Tls) : Nat × Nat × Nat := (t.senderQueue, t.receiverQueue, t.packedMachineProcessId)

/-- The entries of the vector but for their owners: a call leaves them, makes them normal, or takes the list of
freed blocks. It leaves the heads of the queue lists. -/
structure CallFrame (m m' : Shm) : Prop where
  state : ∀ i, (m'.sas i).state = (m.sas i).state ∨ (m'.sas i).state = .normal
  threadFree : ∀ i, (m'.sas i).threadFree = (m.sas i).threadFree ∨ (m'.sas i).threadFree = 0
  ends : ∀ v, (m'.tls v).ends = (m.tls v).ends

namespace CallFrame

variable {tid size fuel : Nat} {m m₁ m' : Shm} {q : QueuePtr} {pg : Nat × Nat} {p : PagePtr}

theorem of_sas (h : m'.sas = m.sas) (htls : ∀ v, (m'.tls v).ends = (m.tls v).ends) : CallFrame m m' :=
  ⟨fun i => Or.inl (by rw [h]), fun i => Or.inl (by rw [h]), htls⟩

theorem of_same (h : m'.sas = m.sas) (htls : m'.tls = m.tls) : CallFrame m m' :=
  of_sas h fun v => by rw [htls]

theorem of_links (h : OnlyLinks tid q m m') : CallFrame m m' := by
  refine of_sas h.sas fun v => ?_
  by_cases hv : v = tid
  · rw [hv, ← h.own]
    rfl
  · rw [h.others v hv]

theorem trans (h : CallFrame m m₁) (h' : CallFrame m₁ m') : CallFrame m m' := by
  refine ⟨fun i => ?_, fun i => ?_, fun v => (h'.ends v).trans (h.ends v)⟩
  · rcases h'.state i with hs | hs
    · rw [hs]
      exact h.state i
    · exact Or.inr hs
  · rcases h'.threadFree i with hs | hs
    · rw [hs]
      exact h.threadFree i
    · exact Or.inr hs

/-- One entry is written. -/
theorem of_update {i : Nat} {e : SegmentAllocationState} (hsas : m'.sas = Function.update m.sas i e)
    (hs : e.state = (m.sas i).state ∨ e.state = .normal)
    (ht : e.threadFree = (m.sas i).threadFree ∨ e.threadFree = 0) (htls : m'.tls = m.tls) : CallFrame m m' := by
  refine ⟨fun k => ?_, fun k => ?_, fun v => by rw [htls]⟩
  · by_cases hk : k = i
    · rw [hsas, hk, Function.update_self]
      exact hs
    · exact Or.inl (by rw [hsas, Function.update_of_ne hk])
  · by_cases hk : k = i
    · rw [hsas, hk, Function.update_self]
      exact ht
    · exact Or.inl (by rw [hsas, Function.update_of_ne hk])

theorem cxlSegmentPageAlloc (h : cxlSegmentPageAlloc tid size fuel m = some (p, m')) : CallFrame m m' := by
  induction fuel generalizing m with
  | zero => exact absurd h (by simp [CxlShm.cxlSegmentPageAlloc])
  | succ fuel ih =>
    cases hf : (m.queue tid .freePage).first with
    | none =>
      cases ha : cxlSegmentAlloc tid size m with
      | none =>
        rw [cxlSegmentPageAlloc_full hf ha] at h
        simp only [Option.some.injEq, Prod.mk.injEq] at h
        rw [← h.2]
        exact of_same rfl rfl
      | some r =>
        obtain ⟨i, m₁⟩ := r
        rw [cxlSegmentPageAlloc_new hf ha] at h
        obtain ⟨-, rfl⟩ := cxlSegmentAlloc_some ha
        have hclaim : CallFrame m (claimSegment tid i m) := of_update rfl (Or.inr rfl) (Or.inr rfl) rfl
        have hpages : CallFrame (claimSegment tid i m) (pushPages tid i segmentPages (claimSegment tid i m)) :=
          of_links (OnlyLinks.pushPages ..)
        exact (hclaim.trans hpages).trans (ih h)
    | some page =>
      rw [cxlSegmentPageAlloc_free hf] at h
      simp only [Option.some.injEq, Prod.mk.injEq] at h
      rw [← h.2]
      exact (of_links (OnlyLinks.remove m tid .freePage page)).trans (of_same rfl rfl)

theorem cxlPageInit {special : Bool} {bs : Nat} (h : cxlPageInit special bs p m = some m') : CallFrame m m' := by
  cases p with
  | none => cases h
  | some page =>
    by_cases hbs : bs = 0
    · simp [CxlShm.cxlPageInit, hbs] at h
    · rw [cxlPageInit_eq special m page hbs] at h
      obtain rfl := Option.some.inj h
      exact of_same rfl rfl

theorem cxlPageFresh (h : cxlPageFresh fuel tid size q m = some (pg, m')) : CallFrame m m' := by
  simp only [CxlShm.cxlPageFresh, Option.bind_eq_bind, Option.bind_eq_some_iff] at h
  obtain ⟨⟨page, m₁⟩, halloc, m₂, hinit, pg', -, hres⟩ := h
  simp only [Option.some.injEq, Prod.mk.injEq] at hres
  obtain ⟨rfl, rfl⟩ := hres
  refine ((cxlSegmentPageAlloc halloc).trans (cxlPageInit hinit)).trans (.trans ?_ (of_links (OnlyLinks.push ..)))
  split
  · exact of_same rfl rfl
  · exact of_same rfl rfl

theorem cxlPageFreeCollect (h : cxlPageFreeCollect fuel pg m = some m') : CallFrame m m' := by
  unfold CxlShm.cxlPageFreeCollect cxlThreadFreeCollect at h
  rw [Option.map_eq_some_iff] at h
  obtain ⟨m₁, hrun, rfl⟩ := h
  have hcollect : CallFrame m m₁ := by
    simp only at hrun
    split at hrun
    case isTrue =>
      obtain rfl := Option.some.inj hrun
      exact of_same rfl rfl
    case isFalse =>
      refine walk_keeps (CallFrame m) ?_ hrun ?_
      · intro x s s' hs hb
        obtain rfl := Option.some.inj hb
        exact hs.trans (of_same rfl rfl)
      · exact of_update rfl (Or.inl rfl) (Or.inr rfl) rfl
  refine hcollect.trans ?_
  unfold refillFree
  split
  · exact of_same rfl rfl
  · exact of_same rfl rfl

theorem findFree {rounds : Nat} {r : PagePtr} (h : findFree fuel rounds p m = some (r, m')) :
    CallFrame m m' := by
  induction rounds generalizing p m with
  | zero => cases h
  | succ rounds ih =>
    cases p with
    | none =>
      simp only [CxlShm.findFree, Option.some.injEq, Prod.mk.injEq] at h
      rw [← h.2]
      exact of_same rfl rfl
    | some page =>
      simp only [CxlShm.findFree, Option.bind_eq_some_iff] at h
      obtain ⟨m₁, hcollect, h⟩ := h
      have hfirst := cxlPageFreeCollect hcollect
      split at h
      case isTrue =>
        simp only [Option.some.injEq, Prod.mk.injEq] at h
        rw [← h.2]
        exact hfirst
      case isFalse => exact hfirst.trans (ih h)

theorem cxlPageMalloc {x : Nat} (h : cxlPageMalloc fuel tid size q p m = some (x, pg, m')) :
    CallFrame m m' := by
  cases p with
  | some page =>
    simp only [CxlShm.cxlPageMalloc, Option.some.injEq, Prod.mk.injEq] at h
    rw [← h.2.2]
    exact of_same rfl rfl
  | none =>
    simp only [CxlShm.cxlPageMalloc, cxlMallocGeneric, cxlPageQueueFindFreeEx, Option.bind_eq_bind,
      Option.bind_eq_some_iff] at h
    obtain ⟨⟨page, m₁⟩, ⟨⟨r, m₂⟩, hfree, hpage⟩, hres⟩ := h
    simp only [Option.some.injEq, Prod.mk.injEq] at hres
    obtain ⟨-, -, rfl⟩ := hres
    have hclear : CallFrame m (m.clearRedo tid) := by
      refine of_sas rfl fun v => ?_
      by_cases hv : v = tid
      · have hown : (m.clearRedo tid).tls tid = { m.tls tid with redo := fun _ => RedoLog.zero } :=
          Function.update_self ..
        rw [hv, hown]
        rfl
      · exact congrArg Tls.ends (Function.update_of_ne hv ..)
    have hfound := hclear.trans (findFree hfree)
    cases r with
    | some page' =>
      simp only [Option.some.injEq, Prod.mk.injEq] at hpage
      rw [← hpage.2]
      exact hfound
    | none => exact hfound.trans (cxlPageFresh hpage)

theorem threadBaseRefAlloc {t : Nat} (h : threadBaseRefAlloc fuel tid size m = some (t, m')) :
    CallFrame m m' := by
  simp only [CxlShm.threadBaseRefAlloc, Option.bind_eq_bind, Option.bind_eq_some_iff] at h
  obtain ⟨⟨x, pg, m₁⟩, hrun, hres⟩ := h
  simp only [Option.some.injEq, Prod.mk.injEq] at hres
  rw [← hres.2]
  exact (cxlPageMalloc hrun).trans (of_same rfl rfl)

theorem cxlRefAlloc {ref bs n : Nat} {r : CxlRef} (h : cxlRefAlloc fuel tid size ref bs n m = some (r, m')) :
    CallFrame m m' := by
  simp only [CxlShm.cxlRefAlloc] at h
  split at h
  · simp only [Option.bind_eq_bind, Option.bind_eq_some_iff] at h
    obtain ⟨⟨x, pg, m₁⟩, hrun, hres⟩ := h
    simp only [Option.some.injEq, Prod.mk.injEq] at hres
    rw [← hres.2]
    exact (cxlPageMalloc hrun).trans (of_same rfl rfl)
  · cases h

theorem msgQueueAlloc {senderId x : Nat} (h : msgQueueAlloc fuel tid size senderId m = some (x, m')) :
    CallFrame m m' := by
  simp only [CxlShm.msgQueueAlloc, Option.bind_eq_bind, Option.bind_eq_some_iff] at h
  obtain ⟨⟨x, pg, m₁⟩, hrun, hres⟩ := h
  simp only [Option.some.injEq, Prod.mk.injEq] at hres
  rw [← hres.2]
  exact (cxlPageMalloc hrun).trans (of_same rfl rfl)

theorem cxlPageFree (h : cxlPageFree tid q pg m = some m') : CallFrame m m' := by
  have hremove : CallFrame m (cxlPageQueueRemove tid q pg m) := of_links (OnlyLinks.remove ..)
  have hset : CallFrame m ((cxlPageQueueRemove tid q pg m).setPage pg Page.zero) := hremove.trans (of_same rfl rfl)
  have hpush := hset.trans (of_links (OnlyLinks.push _ tid .freePage pg))
  have hrel : CallFrame m (cxlPageRelease tid q pg m) := hpush.trans (of_same rfl rfl)
  simp only [CxlShm.cxlPageFree, cxlSegmentFree] at h
  split at h
  · split at h
    · obtain rfl := Option.some.inj h
      have hpages := hrel.trans (of_links (OnlyLinks.removePages tid pg.1 segmentPages _))
      have hclear : CallFrame m (cxlSegmentClear tid pg.1 (cxlPageRelease tid q pg m)) :=
        hpages.trans (of_same rfl rfl)
      exact hclear.trans (of_update rfl (Or.inl rfl) (Or.inl rfl) rfl)
    · cases h
  · obtain rfl := Option.some.inj h
    exact hrel

end CallFrame

theorem cxlRefAlloc_others {tid size fuel ref bs n : Nat} {m m' : Shm} {L : BlockLists} {r : CxlRef} (h : Pool tid m L)
    (hlarge : 3 ≤ cxlPageQueue false bs) (hrun : cxlRefAlloc fuel tid size ref bs n m = some (r, m')) :
    KeepsOthers tid m m' := by
  simp only [cxlRefAlloc] at hrun
  split at hrun
  case isFalse => cases hrun
  case isTrue hb =>
    simp only [Option.bind_eq_bind, Option.bind_eq_some_iff] at hrun
    obtain ⟨⟨y, pg, m₁⟩, hrun, hres⟩ := hrun
    simp only [Option.some.injEq, Prod.mk.injEq] at hres
    obtain ⟨-, rfl⟩ := hres
    obtain ⟨hkeeps, hpg⟩ := cxlPageMalloc_own h hb (by omega) hrun
    have hlink : KeepsOthers tid m₁ (linkBlockToTbr y ref m₁) := .of_same (fun _ _ => rfl) rfl rfl
    have hpop : KeepsOthers tid m₁ (popBlock y pg (linkBlockToTbr y ref m₁)) := hlink.trans (.popBlock hpg)
    exact (hkeeps.trans hpop).trans (.of_same (fun _ _ => rfl) rfl rfl)

/-! ## §2 — a block is handed out -/

section HandOut

variable {K : Users} {m m' : Shm} {G : Nat → BlockLists} {L : BlockLists} {u b x k y d : Nat} {S : List Nat}

/-- What changes while a client is handed a block lies in segments of its own. -/
theorem HandedOut.own (hout : HandedOut b x S m m' (G u) L) (h' : Pool u m' L) (hk : KeepsOthers u m m') {a : Nat}
    (ha : m'.word a ≠ m.word a) : ¬ OthersSegment u m (segmentIdx a) := by
  obtain ⟨k, y, d, hy, -, rfl, -, hd⟩ := hout.word a ha
  apply hk.own_after
  rw [h'.inv.segmentIdx_block hy hd]
  exact (h'.inv.account.owned hy.1).1

/-- **One client is handed a block**: the lists of all clients stay in order. -/
theorem Pools.handOut (h : Pools K m G) (hu : u ∈ K.clients) (h' : Pool u m' L)
    (hout : HandedOut b x S m m' (G u) L) (hk : KeepsOthers u m m') : Pools K m' (Function.update G u L) :=
  h.act hu h' hk fun _ ha => hout.own h' hk ha

theorem HandedOut.heldBy (hout : HandedOut b x S m m' (G u) L) (hu : u ∈ K.clients) :
    HeldBy K (Function.update G u L) k y ↔ HeldBy K G k y ∨ k = b ∧ y = x :=
  heldBy_update hu (hout.held k y)

/-- The block was nobody's. -/
theorem Pools.handOut_fresh (h : Pools K m G) (hu : u ∈ K.clients) (h' : Pool u m' L)
    (hout : HandedOut b x S m m' (G u) L) (hk : KeepsOthers u m m') (k : Nat) : ¬ HeldBy K G k x := by
  rintro ⟨w, hw, hx⟩
  have hpools := h.handOut hu h' hout hk
  by_cases hwu : w = u
  · subst hwu
    exact hout.fresh k hx
  · -- both clients would own the segment of the block
    have hx' : (Function.update G u L u).Block b x := by
      rw [Function.update_self]
      exact ((hout.held b x).mpr (Or.inr ⟨rfl, rfl⟩)).block
    have hxw : (Function.update G u L w).Block k x := by
      rw [Function.update_of_ne hwu]
      exact hx.block
    have hown := hpools.block_owner hu hx' (binSize_pos b)
    have hown' := hpools.block_owner hw hxw (binSize_pos k)
    exact hwu (hown'.symm.trans hown)

/-- Blocks in use stay as they are, but for those in `S`. -/
theorem Pools.handOut_word (h : Pools K m G) (hu : u ∈ K.clients) (h' : Pool u m' L)
    (hout : HandedOut b x S m m' (G u) L) (hk : KeepsOthers u m m') (hy : HeldBy K G k y) (hyS : y ∉ S)
    (hd : d < binSize k) : m'.word (y + d) = m.word (y + d) := by
  by_contra hne
  obtain ⟨j, z, e, hz, hl, heq, -, he⟩ := hout.word _ hne
  have hpools := h.handOut hu h' hout hk
  have hy' : HeldBy K (Function.update G u L) k y := (hout.heldBy hu).mpr (Or.inl hy)
  have hz' : BlockOf K (Function.update G u L) j z := ⟨u, hu, by rwa [Function.update_self]⟩
  obtain ⟨rfl, -⟩ := hpools.apart hy'.block hz' hd he heq
  rcases hl with hl | hl
  · exact hpools.held_not_listed hy' ⟨u, hu, by rwa [Function.update_self]⟩
  · exact hyS hl

/-- Nothing below the segments is written. -/
theorem HandedOut.below (hout : HandedOut b x S m m' (G u) L) {a : Nat} (ha : a < segmentsAreaStart) :
    m'.word a = m.word a := by
  by_contra hne
  obtain ⟨k, y, d, hy, -, rfl, -, -⟩ := hout.word a hne
  have hlo := (pageBlocks_bounds hy.2).1
  simp only [pageStart] at hlo
  omega

end HandOut

/-! ## §3 — a block is given back -/

/-- No segment is marked POTENTIAL_LEAKING. -/
def NoneLeaking (m : Shm) : Prop := ∀ i, (m.sas i).state ≠ .potentialLeaking

/-- The block `x` of bin `b` has gone back to its owner. -/
structure GivenBack (K : Users) (b x : Nat) (m m' : Shm) (G G' : Nat → BlockLists) : Prop where
  held : ∀ k y, HeldBy K G' k y ↔ HeldBy K G k y ∧ y ≠ x
  word : ∀ a, m'.word a ≠ m.word a → ∃ k < wipedWords (decide (b < 2)) (binSize b), a = x + 8 * k
  wiped : ∀ k, 0 < k → k < wipedWords (decide (b < 2)) (binSize b) → m'.word (x + 8 * k) = 0
  eraCell : m'.eraCell = m.eraCell
  leaking : NoneLeaking m'
  ends : ∀ v, (m'.tls v).ends = (m.tls v).ends

section Free

variable {K : Users} {m m' : Shm} {G : Nat → BlockLists} {L : BlockLists} {u w b x k y : Nat}

theorem CallFrame.noneLeaking (h : CallFrame m m') (hm : NoneLeaking m) : NoneLeaking m' := by
  intro i hi
  rcases h.state i with hs | hs
  · exact hm i (hs.symm.trans hi)
  · rw [hs] at hi
    cases hi

theorem Pool.held_ne_two (h : Pool u m L) (hx : L.Held b x) : b ≠ 2 := by
  rintro rfl
  have hpg := hx.block.1
  rw [h.small] at hpg
  exact List.not_mem_nil hpg

theorem heldBy_update_gone (hu : u ∈ K.clients) (hL : L.Held k y ↔ (G u).Held k y ∧ y ≠ x)
    (hother : ∀ w ∈ K.clients, w ≠ u → (G w).Held k y → y ≠ x) :
    HeldBy K (Function.update G u L) k y ↔ HeldBy K G k y ∧ y ≠ x := by
  constructor
  · rintro ⟨w, hw, h⟩
    by_cases hwu : w = u
    · subst hwu
      rw [Function.update_self] at h
      exact (hL.mp h).imp_left fun h => ⟨w, hw, h⟩
    · rw [Function.update_of_ne hwu] at h
      exact ⟨⟨w, hw, h⟩, hother w hw hwu h⟩
  · rintro ⟨⟨w, hw, h⟩, hne⟩
    by_cases hwu : w = u
    · subst hwu
      exact ⟨w, hw, by rw [Function.update_self]; exact hL.mpr ⟨h, hne⟩⟩
    · exact ⟨w, hw, by rwa [Function.update_of_ne hwu]⟩

/-- A block has one owner. -/
theorem Pools.held_owner (h : Pools K m G) (hu : u ∈ K.clients) (hw : w ∈ K.clients) (hx : (G u).Held b x)
    (hy : (G w).Held k x) : w = u := by
  have hown := h.block_owner hu hx.block (binSize_pos b)
  have hown' := h.block_owner hw hy.block (binSize_pos k)
  exact hown'.symm.trans hown

theorem BlocksInv.toThread_held (h : BlocksInv u m L) (h' : BlocksInv u m' (L.toThread x)) :
    (L.toThread x).Held k y ↔ L.Held k y ∧ y ≠ x := by
  have hlisted : (L.toThread x).Listed y ↔ L.Listed y ∨ y = x := by
    have hthread : (∃ i, y ∈ (L.toThread x).threadFree i) ↔ (∃ i, y ∈ L.threadFree i) ∨ y = x := by
      constructor
      · rintro ⟨i, hy⟩
        by_cases hi : i = (pageOf x).1
        · subst hi
          simp only [BlockLists.toThread, Function.update_self, List.mem_cons] at hy
          exact hy.elim Or.inr fun hy => Or.inl ⟨_, hy⟩
        · simp only [BlockLists.toThread, Function.update_of_ne hi] at hy
          exact Or.inl ⟨i, hy⟩
      · rintro (⟨i, hy⟩ | rfl)
        · refine ⟨i, ?_⟩
          by_cases hi : i = (pageOf x).1
          · subst hi
            simp only [BlockLists.toThread, Function.update_self]
            exact List.mem_cons_of_mem _ hy
          · simp only [BlockLists.toThread, Function.update_of_ne hi]
            exact hy
        · refine ⟨(pageOf y).1, ?_⟩
          simp only [BlockLists.toThread, Function.update_self]
          exact List.mem_cons_self
    rw [BlockLists.Listed, hthread, ← or_assoc]
    rfl
  rw [h'.held_iff, h.held_iff, hlisted, not_or, ← and_assoc]
  rfl

/-- The owner of a block frees it. -/
theorem Pools.freeOwn (h : Pools K m G) (hu : u ∈ K.clients) (hx : (G u).Held b x) (hleak : NoneLeaking m) :
    ∃ m' G', cxlFree u (decide (b < 2)) x m = some m' ∧ Pools K m' G' ∧ GivenBack K b x m m' G G' := by
  have hb2 := (h u hu).held_ne_two hx
  obtain ⟨m', L, hrun, hinv, hheads, htaken, hempty⟩ := cxlFree_own (h u hu).inv (h u hu).heads hb2 hx
  have hk := cxlFree_own_others (h u hu).inv hb2 hx hrun
  have hwords : ∀ a, m'.word a ≠ m.word a → ¬ OthersSegment u m (segmentIdx a) := by
    intro a ha
    obtain ⟨k, hk, rfl⟩ := htaken.word a ha
    have hown := h.block_owner hu hx.block (wipedWords_lt hb2 hk)
    exact fun ho => ho.2 hown
  have hframe : CallFrame m m' := by
    rcases cxlFree_own_cases (h u hu).inv hb2 hx hrun with ⟨-, rfl⟩ | ⟨-, hfree⟩
    · exact .of_same rfl rfl
    · have hback : CallFrame m (CxlShm.putBack (decide (b < 2)) x m) := .of_same rfl rfl
      exact hback.trans (.cxlPageFree hfree)
  refine ⟨m', _, hrun, h.act hu ⟨hinv, hheads, hempty 2 (h u hu).small⟩ hk hwords, ?_, htaken.word, ?_,
    htaken.eraCell, hframe.noneLeaking hleak, hframe.ends⟩
  · intro k y
    apply heldBy_update_gone hu (htaken.held k y)
    rintro w hw hwu hy rfl
    exact hwu (h.held_owner hu hw hx hy)
  · intro k hpos hk
    have hback : (CxlShm.putBack (decide (b < 2)) x m).word (x + 8 * k) = 0 := by
      have hne : x + 8 * k ≠ x := by omega
      rw [← ((h u hu).inv.page b _ hx.block.1).size] at hk
      exact (Function.update_of_ne hne ..).trans (Shm.zeroWords_word_self hk)
    rcases cxlFree_own_cases (h u hu).inv hb2 hx hrun with ⟨-, rfl⟩ | ⟨-, hfree⟩
    · exact hback
    · rw [(cxlPageFree_word hfree).1]
      exact hback

/-- Another client frees a block: it goes to the list of its segment. -/
theorem Pools.freeRemote (h : Pools K m G) (hw : w ∈ K.clients) (hwu : w ≠ u) (hx : (G w).Held b x)
    (hleak : NoneLeaking m) :
    ∃ m' G', cxlFree u (decide (b < 2)) x m = some m' ∧ Pools K m' G' ∧ GivenBack K b x m m' G G' := by
  have hb2 := (h w hw).held_ne_two hx
  have hpg := hx.block.1
  have hsize := ((h w hw).inv.page b _ hpg).size
  have hown := (h w hw).inv.account.owned hpg
  have hheader : (m.segment (segmentIdx x)).threadId = w := (h w hw).inv.account.header _ hown.1
  let m₁ := m.zeroWords x (wipedWords (decide (b < 2)) (m.page (pageOf x)).blockSize)
  have hrun : cxlFree u (decide (b < 2)) x m = some (m₁.pushThreadFree (segmentIdx x) x) := by
    unfold cxlFree
    simp only
    rw [if_neg, if_neg]
    · exact hleak _
    · exact fun he => hwu (hheader.symm.trans he)
  -- the header is wiped, and then the first word is the link
  have hword₁ : ∀ a, m₁.word a ≠ m.word a → ∃ k < wipedWords (decide (b < 2)) (binSize b), a = x + 8 * k := by
    intro a ha
    by_contra hno
    apply ha
    apply Shm.zeroWords_word_of_ne
    intro k hk he
    rw [hsize] at hk
    exact hno ⟨k, hk, he⟩
  have hword : ∀ a, (m₁.pushThreadFree (segmentIdx x) x).word a ≠ m.word a →
      ∃ k < wipedWords (decide (b < 2)) (binSize b), a = x + 8 * k := by
    intro a ha
    by_cases hax : a = x
    · exact ⟨0, wipedWords_pos .., hax⟩
    · rw [Shm.pushThreadFree_word_of_ne hax] at ha
      exact hword₁ a ha
  have h₁ : Pool w m₁ (G w) := by
    refine (h w hw).touch rfl rfl rfl fun y hy => ?_
    by_contra hne
    obtain ⟨k, hk, rfl⟩ := hword₁ y hne
    exact (h w hw).inv.held_add_ne hx hy (wipedWords_lt hb2 hk) rfl
  obtain ⟨hinv, hheads⟩ := h₁.inv.toThread h₁.heads hx
  have hsas : (m₁.pushThreadFree (segmentIdx x) x).sas =
      Function.update m.sas (segmentIdx x) { m.sas (segmentIdx x) with threadFree := x } := rfl
  have hkeeps : KeepsOthers w m (m₁.pushThreadFree (segmentIdx x) x) := by
    refine ⟨fun _ _ => rfl, fun i hi => ?_, fun _ _ => rfl, fun i hi => ?_⟩
    · rw [hsas, Function.update_of_ne]
      rintro rfl
      exact hi.2 hown.1
    · by_cases hix : i = segmentIdx x
      · rw [OthersSegment, hsas, hix, Function.update_self] at hi
        exact absurd hown.1 hi.2
      · rwa [OthersSegment, hsas, Function.update_of_ne hix] at hi
  refine ⟨_, Function.update G w ((G w).toThread x), hrun, ?_, ?_, hword, ?_, rfl, ?_, fun _ => rfl⟩
  · refine h.act hw ⟨hinv, hheads, (h w hw).small⟩ hkeeps fun a ha => ?_
    obtain ⟨k, hk, rfl⟩ := hword a ha
    have howner := h.block_owner hw hx.block (wipedWords_lt hb2 hk)
    exact fun ho => ho.2 howner
  · intro k y
    apply heldBy_update_gone hw (h₁.inv.toThread_held hinv)
    rintro v hv hvw hy rfl
    exact hvw (h.held_owner hw hv hx hy)
  · intro k hpos hk
    rw [← hsize] at hk
    rw [Shm.pushThreadFree_word_of_ne (by omega)]
    exact Shm.zeroWords_word_self hk
  · intro i
    rw [hsas]
    by_cases hix : i = segmentIdx x
    · rw [hix, Function.update_self]
      exact hleak _
    · rw [Function.update_of_ne hix]
      exact hleak i

/-- **Any client frees a block**: it comes back to its owner, and nothing but its first words changes. -/
theorem Pools.free (h : Pools K m G) (hu : u ∈ K.clients) (hx : HeldBy K G b x) (hleak : NoneLeaking m) :
    ∃ m' G', cxlFree u (decide (b < 2)) x m = some m' ∧ Pools K m' G' ∧ GivenBack K b x m m' G G' := by
  obtain ⟨w, hw, hx⟩ := hx
  by_cases hwu : w = u
  · subst hwu
    exact h.freeOwn hw hx hleak
  · exact h.freeRemote hw hwu hx hleak

end Free

end CxlShm
