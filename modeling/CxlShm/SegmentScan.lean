import CxlShm.PageFresh
import CxlShm.RecoveryState

/-! # SegmentScan — the segments after a recovery

The second half of `monitor::single_recovery_loop`: every claimed segment is gone through page by page until a
page holds something alive. A segment in which nothing is alive is given back.
-/

namespace CxlShm

/-! ## §1 — the code -/

/-- The test on a block: the two ids of a message queue, or the count of an object. -/
def aliveBlock (queue : Bool) (m : Shm) (b : Nat) : Bool :=
  if queue then decide (m.receiverId b ≠ 0 ∨ m.senderId b ≠ 0) else decide (m.refCnt b > 0)

/-- `while(block <= last_block)`: the first block alive ends the loop, the queues before it are wiped. -/
def scanBlocks (queue : Bool) : List Nat → Shm → Bool × Shm
  | [], m => (false, m)
  | b :: l, m =>
    if aliveBlock queue m b then (true, m)
    else scanBlocks queue l (if queue then m.zeroWords b (sizeofMessageQueue / 8) else m)

/-- A page without a block alive is freed. -/
def scanPage (pg : Nat × Nat) (m : Shm) : Bool × Shm :=
  let bs := (m.page pg).blockSize
  if bs = 0 then (false, m)
  else
    let r := scanBlocks (m.page pg).isMsgQueuePage (pageBlocks pg bs) m
    if r.1 then r else (false, r.2.setPage pg Page.zero)

/-- The pages of segment `i`, up to the first with a block alive. -/
def scanPages (i : Nat) : List Nat → Shm → Bool × Shm
  | [], m => (false, m)
  | j :: l, m =>
    let r := scanPage (i, j) m
    if r.1 then r else scanPages i l r.2

/-- The header is wiped, `info` set to `{NORMAL, 0}` and the owner to 0. -/
def giveBack (i : Nat) (m : Shm) : Shm :=
  { m with
    segment := Function.update m.segment i Segment.zero
    sas := Function.update m.sas i { m.sas i with threadId := 0, state := .normal, threadFree := 0 } }

def scanSegment (m : Shm) (i : Nat) : Shm :=
  if (m.sas i).threadId = 0 then m
  else
    let r := scanPages i (List.range pagesPerSegment) m
    if r.1 then r.2 else giveBack i r.2

/-- The loop over the segment allocation vector. -/
def scanSegments (m : Shm) : Shm := (List.range maxSegmentNum).foldl scanSegment m

/-! ## §2 — what is alive -/

def LivePage (m : Shm) (pg : Nat × Nat) : Prop :=
  ∃ b ∈ pageBlocks pg (m.page pg).blockSize, aliveBlock (m.page pg).isMsgQueuePage m b = true

def LiveSegment (m : Shm) (i : Nat) : Prop := ∃ j < pagesPerSegment, LivePage m (i, j)

/-- The records laid over the blocks of a page fit into them. -/
def Page.Roomy (p : Page) : Prop :=
  p.blockSize ≠ 0 → (if p.isMsgQueuePage then sizeofMessageQueue else sizeofRootRef) ≤ p.blockSize

def RoomyPages (m : Shm) : Prop := ∀ pg : Nat × Nat, pg.2 < pagesPerSegment → (m.page pg).Roomy

/-- A word of a queue that is not alive, in a page of a claimed segment. -/
def DeadQueueWord (m : Shm) (a : Nat) : Prop :=
  ∃ pg : Nat × Nat, ∃ q, (m.sas pg.1).threadId ≠ 0 ∧ pg.2 < pagesPerSegment ∧ (m.page pg).isMsgQueuePage = true ∧
    q ∈ pageBlocks pg (m.page pg).blockSize ∧ aliveBlock true m q = false ∧ ∃ k < sizeofMessageQueue / 8, a = q + 8 * k

/-- What the scan does to the area, wherever it stands: only what is dead is lost. -/
structure Scanned (m m' : Shm) : Prop where
  word : ∀ a, m'.word a = m.word a ∨ m'.word a = 0 ∧ DeadQueueWord m a
  page : ∀ pg, pg.2 < pagesPerSegment → m'.page pg = m.page pg ∨ m'.page pg = Page.zero ∧ ¬ LivePage m pg
  header : ∀ i, ((m'.segment i).threadId = (m.segment i).threadId ∧ (m'.segment i).used = (m.segment i).used) ∨
    m'.segment i = Segment.zero ∧ ¬ LiveSegment m i
  tls : m'.tls = m.tls
  era : m'.eraCell = m.eraCell

section Alive

variable {m m' m₁ : Shm} {pg pg' : Nat × Nat} {b b' bs d e i a : Nat} {queue : Bool}

/-- Blocks of two pages, or of one page, lie apart. -/
theorem page_block_inj (hpg : pg.2 < pagesPerSegment) (hpg' : pg'.2 < pagesPerSegment) {bs' : Nat}
    (hsame : pg = pg' → bs = bs') (hb : b ∈ pageBlocks pg bs) (hb' : b' ∈ pageBlocks pg' bs') (hd : d < bs)
    (he : e < bs') (heq : b + d = b' + e) : pg = pg' ∧ b = b' := by
  obtain ⟨hlo, hhi⟩ := pageBlocks_bounds hb
  obtain ⟨hlo', hhi'⟩ := pageBlocks_bounds hb'
  have hpage : pageOf (pageStart pg + (b - pageStart pg + d)) = pageOf (pageStart pg' + (b' - pageStart pg' + e)) := by
    rw [← Nat.add_assoc, ← Nat.add_assoc, Nat.add_sub_cancel' hlo, Nat.add_sub_cancel' hlo', heq]
  rw [pageOf_offset hpg (by omega), pageOf_offset hpg' (by omega)] at hpage
  subst hpage
  obtain rfl := hsame rfl
  refine ⟨rfl, ?_⟩
  -- of two different blocks the lower one ends first
  obtain ⟨n, -, rfl⟩ := mem_pageBlocks.mp hb
  obtain ⟨n', -, rfl⟩ := mem_pageBlocks.mp hb'
  rcases Nat.lt_trichotomy n n' with hlt | rfl | hlt
  · have hle : (n + 1) * bs ≤ n' * bs := Nat.mul_le_mul_right bs hlt
    rw [Nat.add_mul, Nat.one_mul] at hle
    omega
  · rfl
  · have hle : (n' + 1) * bs ≤ n * bs := Nat.mul_le_mul_right bs hlt
    rw [Nat.add_mul, Nat.one_mul] at hle
    omega

/-- The test reads one word. -/
theorem aliveBlock_congr (h : m'.word (b + if queue then 16 else 8) = m.word (b + if queue then 16 else 8)) :
    aliveBlock queue m' b = aliveBlock queue m b := by
  cases queue with
  | true =>
    have h : m'.word (b + 16) = m.word (b + 16) := h
    have hr : m'.receiverId b = m.receiverId b := by rw [Shm.receiverId, Shm.receiverId, h]
    have hs : m'.senderId b = m.senderId b := by rw [Shm.senderId, Shm.senderId, h]
    rw [aliveBlock, aliveBlock, if_pos rfl, if_pos rfl, hr, hs]
  | false =>
    have h : m'.word (b + 8) = m.word (b + 8) := h
    have hc : m'.refCnt b = m.refCnt b := by rw [Shm.refCnt, Shm.refCnt, Shm.refInfo, Shm.refInfo, h]
    rw [aliveBlock, aliveBlock, if_neg Bool.false_ne_true, if_neg Bool.false_ne_true, hc]

theorem aliveBlock_of_zero (h : m.word (b + 16) = 0) : aliveBlock true m b = false := by
  simp [aliveBlock, Shm.receiverId, Shm.senderId, h]

theorem Scanned.refl : Scanned m m :=
  ⟨fun _ => Or.inl rfl, fun _ _ => Or.inl rfl, fun _ => Or.inl ⟨rfl, rfl⟩, rfl, rfl⟩

/-- **The scan does not change what it looks for**: a block is alive after any part of it exactly if it was before. -/
theorem Scanned.alive (h : Scanned m m') (hroom : RoomyPages m) (hpg : pg.2 < pagesPerSegment)
    (hb : b ∈ pageBlocks pg (m.page pg).blockSize) :
    aliveBlock (m.page pg).isMsgQueuePage m' b = aliveBlock (m.page pg).isMsgQueuePage m b := by
  have hbs : (m.page pg).blockSize ≠ 0 := by
    intro hz
    rw [hz] at hb
    exact List.not_mem_nil hb
  have hfit := hroom pg hpg hbs
  rcases h.word (b + if (m.page pg).isMsgQueuePage then 16 else 8) with hw | ⟨hw, pg', q, -, hpg', hqueue, hq, hdead, k, hk, hk'⟩
  · exact aliveBlock_congr hw
  · have hbs' : (m.page pg').blockSize ≠ 0 := by
      intro hz
      rw [hz] at hq
      exact List.not_mem_nil hq
    have hfit' := hroom pg' hpg' hbs'
    rw [hqueue, if_pos rfl] at hfit'
    have hsize : sizeofMessageQueue = 192 := rfl
    have hroot : sizeofRootRef = 16 := rfl
    -- the word that was wiped is the block's own
    have hin : (if (m.page pg).isMsgQueuePage then 16 else 8) < (m.page pg).blockSize := by
      split at hfit
      case isTrue hflag =>
        rw [if_pos hflag]
        omega
      case isFalse hflag =>
        rw [if_neg hflag]
        omega
    obtain ⟨rfl, rfl⟩ := page_block_inj hpg hpg' (fun he => by rw [he]) hb hq hin (by omega) hk'
    rw [hqueue] at hw ⊢
    rw [hdead]
    exact aliveBlock_of_zero hw

theorem Scanned.livePage (h : Scanned m m') (hroom : RoomyPages m) (hpg : pg.2 < pagesPerSegment)
    (hpage : m'.page pg = m.page pg) : LivePage m' pg ↔ LivePage m pg := by
  unfold LivePage
  rw [hpage]
  exact exists_congr fun b => and_congr_right fun hb => by rw [h.alive hroom hpg hb]

/-- What is alive is what it was. -/
theorem Scanned.page_of_live (h : Scanned m m') (hpg : pg.2 < pagesPerSegment) (hlive : LivePage m pg) :
    m'.page pg = m.page pg :=
  (h.page pg hpg).resolve_right fun hn => hn.2 hlive

end Alive

/-! ## §3 — from the blocks to the segment -/

section Pages

variable {m m₁ : Shm} {pg pg' : Nat × Nat} {i j : Nat} {l : List Nat}

/-- Part of a page has been gone through. -/
structure BlocksDone (m m₁ : Shm) (queue : Bool) (l : List Nat) (r : Bool × Shm) : Prop where
  scanned : Scanned m r.2
  found : r.1 = true ↔ ∃ b ∈ l, aliveBlock queue m b = true
  segment : r.2.segment = m₁.segment
  sas : r.2.sas = m₁.sas

/-- A queue that is not alive is wiped. -/
theorem Scanned.wipe (h : Scanned m m₁) (hown : (m.sas pg.1).threadId ≠ 0) (hpg : pg.2 < pagesPerSegment)
    (hqueue : (m.page pg).isMsgQueuePage = true) {q : Nat} (hq : q ∈ pageBlocks pg (m.page pg).blockSize)
    (hdead : aliveBlock true m q = false) : Scanned m (m₁.zeroWords q (sizeofMessageQueue / 8)) := by
  refine ⟨fun a => ?_, h.page, h.header, h.tls, h.era⟩
  by_cases ha : ∃ k < sizeofMessageQueue / 8, a = q + 8 * k
  · obtain ⟨k, hk, rfl⟩ := ha
    exact Or.inr ⟨Shm.zeroWords_word_self hk, pg, q, hown, hpg, hqueue, hq, hdead, k, hk, rfl⟩
  · rw [Shm.zeroWords_word_of_ne fun k hk hka => ha ⟨k, hk, hka⟩]
    exact h.word a

theorem scanBlocks_spec (hroom : RoomyPages m) (hown : (m.sas pg.1).threadId ≠ 0) (hpg : pg.2 < pagesPerSegment)
    (hl : ∀ b ∈ l, b ∈ pageBlocks pg (m.page pg).blockSize) (h : Scanned m m₁) :
    BlocksDone m m₁ (m.page pg).isMsgQueuePage l (scanBlocks (m.page pg).isMsgQueuePage l m₁) := by
  induction l generalizing m₁ with
  | nil => exact ⟨h, by simp [scanBlocks], rfl, rfl⟩
  | cons b l ih =>
    have hb := hl b List.mem_cons_self
    have hl := fun x hx => hl x (List.mem_cons_of_mem _ hx)
    have halive := h.alive hroom hpg hb
    rw [scanBlocks, halive]
    cases hab : aliveBlock (m.page pg).isMsgQueuePage m b with
    | true =>
      rw [if_pos rfl]
      exact ⟨h, iff_of_true rfl ⟨b, List.mem_cons_self, hab⟩, rfl, rfl⟩
    | false =>
      rw [if_neg Bool.false_ne_true]
      have hrest : ∀ (m₂ : Shm) (r : Bool × Shm), m₂.segment = m₁.segment → m₂.sas = m₁.sas →
          BlocksDone m m₂ (m.page pg).isMsgQueuePage l r → BlocksDone m m₁ (m.page pg).isMsgQueuePage (b :: l) r := by
        intro m₂ r hseg hsas hr
        refine ⟨hr.scanned, hr.found.trans ?_, hr.segment.trans hseg, hr.sas.trans hsas⟩
        simp [hab]
      split
      case isTrue hqueue =>
        have hdead : aliveBlock true m b = false := hqueue ▸ hab
        exact hrest (m₁.zeroWords b (sizeofMessageQueue / 8)) _ rfl rfl (ih hl (h.wipe hown hpg hqueue hb hdead))
      case isFalse => exact hrest m₁ _ rfl rfl (ih hl h)

/-- A page has been gone through. -/
structure PageDone (m m₁ : Shm) (pg : Nat × Nat) (r : Bool × Shm) : Prop where
  scanned : Scanned m r.2
  found : r.1 = true ↔ LivePage m pg
  other : ∀ pg', pg' ≠ pg → r.2.page pg' = m₁.page pg'
  sas : r.2.sas = m₁.sas
  header : ∀ k, (r.2.segment k).threadId = (m₁.segment k).threadId ∧ (r.2.segment k).used = (m₁.segment k).used

/-- A page in which nothing is alive is freed. -/
theorem Scanned.freePage (h : Scanned m m₁) (hdead : ¬ LivePage m pg) : Scanned m (m₁.setPage pg Page.zero) := by
  refine ⟨h.word, fun pg' hpg' => ?_, fun k => ?_, h.tls, h.era⟩
  · rw [Shm.page_setPage]
    split
    case isTrue he => exact Or.inr ⟨rfl, he ▸ hdead⟩
    case isFalse => exact h.page pg' hpg'
  · rcases h.header k with hk | ⟨hk, hlive⟩
    · left
      rw [Shm.threadId_setPage, Shm.used_setPage]
      exact hk
    · right
      refine ⟨?_, hlive⟩
      by_cases hki : k = pg.1
      · subst hki
        have hzero : (Segment.zero).setPage pg.2 Page.zero = Segment.zero := by
          simp [Segment.setPage, Segment.zero]
        simp only [Shm.setPage, Function.update_self]
        rw [hk, hzero]
      · simp only [Shm.setPage, Function.update_of_ne hki]
        exact hk

theorem scanPage_spec (hroom : RoomyPages m) (hown : (m.sas pg.1).threadId ≠ 0) (hpg : pg.2 < pagesPerSegment)
    (h : Scanned m m₁) (hpage : m₁.page pg = m.page pg) : PageDone m m₁ pg (scanPage pg m₁) := by
  unfold scanPage
  simp only [hpage]
  by_cases hbs : (m.page pg).blockSize = 0
  · rw [if_pos hbs]
    refine ⟨h, iff_of_false Bool.false_ne_true ?_, fun _ _ => rfl, rfl, fun _ => ⟨rfl, rfl⟩⟩
    rintro ⟨b, hb, -⟩
    rw [hbs] at hb
    exact List.not_mem_nil hb
  · rw [if_neg hbs]
    have hr := scanBlocks_spec hroom hown hpg (fun b hb => hb) h
    have hpages : ∀ pg', (scanBlocks (m.page pg).isMsgQueuePage (pageBlocks pg (m.page pg).blockSize) m₁).2.page pg' =
        m₁.page pg' := fun pg' => congrArg (fun seg : Nat → Segment => (seg pg'.1).metaPage pg'.2) hr.segment
    split
    case isTrue hlive =>
      refine ⟨hr.scanned, hr.found, fun pg' _ => hpages pg', hr.sas, fun k => ?_⟩
      rw [hr.segment]
      exact ⟨rfl, rfl⟩
    case isFalse hdead =>
      have hdead : ¬ LivePage m pg := fun hlive => hdead (hr.found.mpr hlive)
      refine ⟨hr.scanned.freePage hdead, iff_of_false Bool.false_ne_true hdead, fun pg' hne => ?_, hr.sas, fun k => ?_⟩
      · rw [Shm.page_setPage, if_neg hne, hpages]
      · rw [Shm.threadId_setPage, Shm.used_setPage, hr.segment]
        exact ⟨rfl, rfl⟩

/-- The pages `l` of segment `i` have been gone through. -/
structure PagesDone (m m₁ : Shm) (i : Nat) (l : List Nat) (r : Bool × Shm) : Prop where
  scanned : Scanned m r.2
  found : r.1 = true ↔ ∃ j ∈ l, LivePage m (i, j)
  other : ∀ pg, pg.1 ≠ i → r.2.page pg = m₁.page pg
  sas : r.2.sas = m₁.sas
  header : ∀ k, (r.2.segment k).threadId = (m₁.segment k).threadId ∧ (r.2.segment k).used = (m₁.segment k).used

theorem scanPages_spec (hroom : RoomyPages m) (hown : (m.sas i).threadId ≠ 0) (hl : ∀ j ∈ l, j < pagesPerSegment)
    (hnodup : l.Nodup) (h : Scanned m m₁) (hpage : ∀ j ∈ l, m₁.page (i, j) = m.page (i, j)) :
    PagesDone m m₁ i l (scanPages i l m₁) := by
  induction l generalizing m₁ with
  | nil => exact ⟨h, by simp [scanPages], fun _ _ => rfl, rfl, fun _ => ⟨rfl, rfl⟩⟩
  | cons j l ih =>
    obtain ⟨hj, hnodup⟩ := List.nodup_cons.mp hnodup
    have hr : PageDone m m₁ (i, j) (scanPage (i, j) m₁) :=
      scanPage_spec hroom hown (hl j List.mem_cons_self) h (hpage j List.mem_cons_self)
    rw [scanPages]
    split
    case isTrue hlive =>
      refine ⟨hr.scanned, iff_of_true hlive ⟨j, List.mem_cons_self, hr.found.mp hlive⟩, fun pg hpg => ?_, hr.sas, hr.header⟩
      apply hr.other
      rintro rfl
      exact hpg rfl
    case isFalse hdead =>
      have hdead : ¬ LivePage m (i, j) := fun hlive => hdead (hr.found.mpr hlive)
      have hrest := ih (fun k hk => hl k (List.mem_cons_of_mem _ hk)) hnodup hr.scanned fun k hk => by
        rw [hr.other (i, k) fun he => hj ((Prod.mk.inj he).2 ▸ hk)]
        exact hpage k (List.mem_cons_of_mem _ hk)
      refine ⟨hrest.scanned, hrest.found.trans ?_, fun pg hpg => ?_, hrest.sas.trans hr.sas, fun k => ?_⟩
      · simp [hdead]
      · rw [hrest.other pg hpg, hr.other pg]
        rintro rfl
        exact hpg rfl
      · obtain ⟨ht, hu⟩ := hrest.header k
        exact ⟨ht.trans (hr.header k).1, hu.trans (hr.header k).2⟩

end Pages

/-! ## §4 — all segments -/

section Segments

variable {m m' m₁ : Shm} {i j : Nat} {l : List Nat}

/-- The entry of the allocation vector after a segment is given back. -/
def SegmentAllocationState.released (s : SegmentAllocationState) : SegmentAllocationState :=
  { s with threadId := 0, state := .normal, threadFree := 0 }

/-- What becomes of segment `i` when it is its turn. -/
structure Decided (m m' : Shm) (i : Nat) : Prop where
  kept : LiveSegment m i → m'.sas i = m.sas i ∧ (m'.segment i).threadId = (m.segment i).threadId ∧
    (m'.segment i).used = (m.segment i).used
  released : ¬ LiveSegment m i → m'.sas i = (m.sas i).released ∧ m'.segment i = Segment.zero

/-- Segment `i` is as in `m`. -/
def Untouched (m m' : Shm) (i : Nat) : Prop := m'.sas i = m.sas i ∧ m'.segment i = m.segment i

theorem Untouched.page (h : Untouched m m' i) (j : Nat) : m'.page (i, j) = m.page (i, j) := by
  rw [Shm.page, Shm.page, h.2]

theorem Scanned.giveBack (h : Scanned m m₁) (hdead : ¬ LiveSegment m i) : Scanned m (giveBack i m₁) := by
  have hseg : ∀ k, k ≠ i → (CxlShm.giveBack i m₁).segment k = m₁.segment k := fun k hk => Function.update_of_ne hk ..
  have hself : (CxlShm.giveBack i m₁).segment i = Segment.zero := Function.update_self ..
  refine ⟨h.word, fun pg hpg => ?_, fun k => ?_, h.tls, h.era⟩
  · by_cases hi : pg.1 = i
    · right
      rw [Shm.page, hi, hself]
      refine ⟨rfl, fun hlive => hdead ⟨pg.2, hpg, ?_⟩⟩
      rwa [← hi]
    · rw [Shm.page, hseg _ hi]
      exact h.page pg hpg
  · by_cases hk : k = i
    · rw [hk, hself]
      exact Or.inr ⟨rfl, hdead⟩
    · rw [hseg k hk]
      exact h.header k

theorem Untouched.of_pages (hsas : m'.sas i = m.sas i) (hid : (m'.segment i).threadId = (m.segment i).threadId)
    (hused : (m'.segment i).used = (m.segment i).used) (hpage : ∀ j, m'.page (i, j) = m.page (i, j)) :
    Untouched m m' i := by
  refine ⟨hsas, ?_⟩
  cases hs : m'.segment i with
  | mk id used pages =>
    cases hs' : m.segment i with
    | mk id' used' pages' =>
      rw [hs, hs'] at hid hused
      have hpages : pages = pages' := by
        funext j
        have hj := hpage j
        rw [Shm.page, Shm.page, hs, hs'] at hj
        exact hj
      rw [show id = id' from hid, show used = used' from hused, hpages]

/-- **One segment**: it is kept exactly if something in it is alive, and no other segment is touched. -/
theorem scanSegment_spec (hroom : RoomyPages m) (hown : (m.sas i).threadId ≠ 0) (h : Scanned m m₁)
    (hi : Untouched m m₁ i) : Scanned m (scanSegment m₁ i) ∧ Decided m (scanSegment m₁ i) i ∧
      ∀ k, k ≠ i → Untouched m₁ (scanSegment m₁ i) k := by
  have hr := scanPages_spec hroom hown (fun j hj => List.mem_range.mp hj) List.nodup_range h fun j _ => hi.page j
  have hfound : (scanPages i (List.range pagesPerSegment) m₁).1 = true ↔ LiveSegment m i := by
    rw [hr.found]
    simp only [List.mem_range, LiveSegment]
  rw [scanSegment, if_neg (by rw [hi.1]; exact hown)]
  generalize scanPages i (List.range pagesPerSegment) m₁ = r at hr hfound
  have hother : ∀ k, k ≠ i → Untouched m₁ r.2 k := fun k hk =>
    .of_pages (congrFun hr.sas k) (hr.header k).1 (hr.header k).2 fun j => hr.other (k, j) hk
  simp only
  split
  case isTrue hlive =>
    refine ⟨hr.scanned, ⟨fun _ => ?_, fun hdead => absurd (hfound.mp hlive) hdead⟩, hother⟩
    rw [hr.sas, hi.1, (hr.header i).1, (hr.header i).2, hi.2]
    exact ⟨rfl, rfl, rfl⟩
  case isFalse hdead =>
    have hdead : ¬ LiveSegment m i := fun hlive => hdead (hfound.mpr hlive)
    refine ⟨hr.scanned.giveBack hdead, ⟨fun hlive => absurd hlive hdead, fun _ => ⟨?_, Function.update_self ..⟩⟩,
      fun k hk => ?_⟩
    · simp only [giveBack, Function.update_self]
      rw [hr.sas, hi.1]
      rfl
    · have hseg : (giveBack i r.2).segment k = r.2.segment k := Function.update_of_ne hk ..
      have hsas : (giveBack i r.2).sas k = r.2.sas k := Function.update_of_ne hk ..
      exact ⟨hsas.trans (hother k hk).1, hseg.trans (hother k hk).2⟩

/-- What the whole scan does. -/
structure Swept (m m' : Shm) : Prop where
  scanned : Scanned m m'
  claimed : ∀ i < maxSegmentNum, (m.sas i).threadId ≠ 0 → Decided m m' i
  free : ∀ i, (m.sas i).threadId = 0 ∨ maxSegmentNum ≤ i → Untouched m m' i

/-- The segments `l` are still to come. -/
structure SweepInv (m : Shm) (l : List Nat) (m₁ : Shm) : Prop where
  scanned : Scanned m m₁
  left : ∀ i ∈ l, Untouched m m₁ i
  claimed : ∀ i < maxSegmentNum, i ∉ l → (m.sas i).threadId ≠ 0 → Decided m m₁ i
  free : ∀ i, (m.sas i).threadId = 0 ∨ maxSegmentNum ≤ i → Untouched m m₁ i

theorem Decided.congr {m₂ : Shm} (h : Decided m m₁ i) (hi : Untouched m₁ m₂ i) : Decided m m₂ i := by
  refine ⟨fun hlive => ?_, fun hdead => ?_⟩
  · rw [hi.1, hi.2]
    exact h.kept hlive
  · rw [hi.1, hi.2]
    exact h.released hdead

theorem SweepInv.segment (hroom : RoomyPages m) (hi : i < maxSegmentNum) (hnot : i ∉ l) (h : SweepInv m (i :: l) m₁) :
    SweepInv m l (scanSegment m₁ i) := by
  have hui := h.left i List.mem_cons_self
  by_cases hown : (m.sas i).threadId = 0
  · -- a segment nobody has is passed over
    have hskip : scanSegment m₁ i = m₁ := by rw [scanSegment, if_pos (by rw [hui.1]; exact hown)]
    rw [hskip]
    refine ⟨h.scanned, fun k hk => h.left k (List.mem_cons_of_mem _ hk), fun k hk hkl hk' => ?_, h.free⟩
    apply h.claimed k hk _ hk'
    intro hmem
    rcases List.mem_cons.mp hmem with rfl | hmem
    · exact hk' hown
    · exact hkl hmem
  · obtain ⟨hsc, hdec, hother⟩ := scanSegment_spec hroom hown h.scanned hui
    have htrans : ∀ k, k ≠ i → Untouched m m₁ k → Untouched m (scanSegment m₁ i) k := fun k hk hu =>
      ⟨(hother k hk).1.trans hu.1, (hother k hk).2.trans hu.2⟩
    refine ⟨hsc, fun k hk => ?_, fun k hk hkl hk' => ?_, fun k hk => ?_⟩
    · apply htrans k _ (h.left k (List.mem_cons_of_mem _ hk))
      rintro rfl
      exact hnot hk
    · by_cases hki : k = i
      · rw [hki]
        exact hdec
      · refine (h.claimed k hk ?_ hk').congr (hother k hki)
        exact fun hmem => hkl ((List.mem_cons.mp hmem).resolve_left hki)
    · apply htrans k _ (h.free k hk)
      rintro rfl
      rcases hk with hk | hk
      · exact hown hk
      · omega

/-- **The scan gives back exactly the segments in which nothing is alive**, and loses nothing that is. -/
theorem scanSegments_swept (hroom : RoomyPages m) : Swept m (scanSegments m) := by
  have hrun : ∀ (l : List Nat) (m₁ : Shm), (∀ i ∈ l, i < maxSegmentNum) → l.Nodup → SweepInv m l m₁ →
      SweepInv m [] (l.foldl scanSegment m₁) := by
    intro l
    induction l with
    | nil => exact fun _ _ _ h => h
    | cons i l ih =>
      intro m₁ hlt hnodup h
      obtain ⟨hnot, hnodup⟩ := List.nodup_cons.mp hnodup
      apply ih _ (fun k hk => hlt k (List.mem_cons_of_mem _ hk)) hnodup
      exact h.segment hroom (hlt i List.mem_cons_self) hnot
  have hstart : SweepInv m (List.range maxSegmentNum) m := by
    refine ⟨.refl, fun _ _ => ⟨rfl, rfl⟩, fun i hi hnot => ?_, fun _ _ => ⟨rfl, rfl⟩⟩
    exact absurd (List.mem_range.mpr hi) hnot
  have hend := hrun _ m (fun i hi => List.mem_range.mp hi) List.nodup_range hstart
  exact ⟨hend.scanned, fun i hi hown => hend.claimed i hi List.not_mem_nil hown, hend.free⟩

theorem Swept.claimed_iff (h : Swept m m') (hi : i < maxSegmentNum) :
    (m'.sas i).threadId ≠ 0 ↔ (m.sas i).threadId ≠ 0 ∧ LiveSegment m i := by
  by_cases hown : (m.sas i).threadId = 0
  · rw [(h.free i (Or.inl hown)).1]
    exact ⟨fun hn => absurd hown hn, fun hn => hn.1⟩
  · have hdec := h.claimed i hi hown
    by_cases hlive : LiveSegment m i
    · rw [(hdec.kept hlive).1]
      exact ⟨fun hn => ⟨hn, hlive⟩, fun hn => hn.1⟩
    · rw [(hdec.released hlive).1]
      exact ⟨fun hn => absurd rfl hn, fun hn => absurd hn.2 hlive⟩

theorem not_livePage_zero {pg : Nat × Nat} (h : (m.page pg).blockSize = 0) : ¬ LivePage m pg := by
  rintro ⟨b, hb, -⟩
  rw [h] at hb
  exact List.not_mem_nil hb

/-- The scan leaves the same pages alive. -/
theorem Scanned.livePage_iff (h : Scanned m m') (hroom : RoomyPages m) {pg : Nat × Nat} (hpg : pg.2 < pagesPerSegment) :
    LivePage m' pg ↔ LivePage m pg := by
  rcases h.page pg hpg with hpage | ⟨hpage, hdead⟩
  · exact h.livePage hroom hpg hpage
  · refine iff_of_false (not_livePage_zero ?_) hdead
    rw [hpage]
    rfl

/-- No word of a block alive is written. -/
theorem Scanned.live_word (h : Scanned m m') (hroom : RoomyPages m) {pg : Nat × Nat} {b d : Nat}
    (hpg : pg.2 < pagesPerSegment) (hb : b ∈ pageBlocks pg (m.page pg).blockSize)
    (hlive : aliveBlock (m.page pg).isMsgQueuePage m b = true) (hd : d < (m.page pg).blockSize) :
    m'.word (b + d) = m.word (b + d) := by
  rcases h.word (b + d) with hw | ⟨-, pg', q, -, hpg', hqueue, hq, hdead, k, hk, hk'⟩
  · exact hw
  · have hbs' : (m.page pg').blockSize ≠ 0 := by
      intro hz
      rw [hz] at hq
      exact List.not_mem_nil hq
    have hfit' := hroom pg' hpg' hbs'
    rw [hqueue, if_pos rfl] at hfit'
    have hsize : sizeofMessageQueue = 192 := rfl
    obtain ⟨rfl, rfl⟩ := page_block_inj hpg hpg' (fun he => by rw [he]) hb hq hd (by omega) hk'
    rw [hqueue, hdead] at hlive
    cases hlive

theorem Scanned.roomy (h : Scanned m m') (hroom : RoomyPages m) : RoomyPages m' := by
  intro pg hpg hbs
  rcases h.page pg hpg with hpage | ⟨hpage, -⟩
  · rw [hpage] at hbs ⊢
    exact hroom pg hpg hbs
  · rw [hpage] at hbs
    exact absurd rfl hbs

/-- One scan is enough. -/
theorem Swept.again {m'' : Shm} (h : Swept m m') (h' : Swept m' m'') (hroom : RoomyPages m) : m''.sas = m'.sas := by
  funext i
  by_cases hi : maxSegmentNum ≤ i
  · exact (h'.free i (Or.inr hi)).1
  · by_cases hown : (m'.sas i).threadId = 0
    · exact (h'.free i (Or.inl hown)).1
    · obtain ⟨-, j, hj, hlive⟩ := (h.claimed_iff (Nat.lt_of_not_le hi)).mp hown
      refine ((h'.claimed i (Nat.lt_of_not_le hi) hown).kept ⟨j, hj, ?_⟩).1
      exact (h.scanned.livePage_iff hroom hj).mpr hlive

/-- **The segment scan is exact**: a segment stays claimed exactly if something in it is alive, no word of what is
alive is written, and a second scan gives nothing more back. -/
theorem scanSegments_exact (hroom : RoomyPages m) : Swept m (scanSegments m) ∧
    (∀ i < maxSegmentNum, ((scanSegments m).sas i).threadId ≠ 0 ↔ (m.sas i).threadId ≠ 0 ∧ LiveSegment m i) ∧
    (∀ pg : Nat × Nat, pg.2 < pagesPerSegment → ∀ b ∈ pageBlocks pg (m.page pg).blockSize,
      aliveBlock (m.page pg).isMsgQueuePage m b = true → (scanSegments m).page pg = m.page pg ∧
        ∀ d < (m.page pg).blockSize, (scanSegments m).word (b + d) = m.word (b + d)) ∧
    (scanSegments (scanSegments m)).sas = (scanSegments m).sas := by
  have hs := scanSegments_swept hroom
  refine ⟨hs, fun i hi => hs.claimed_iff hi, fun pg hpg b hb hlive => ⟨?_, fun d hd => ?_⟩, ?_⟩
  · exact hs.scanned.page_of_live hpg ⟨b, hb, hlive⟩
  · exact hs.scanned.live_word hroom hpg hb hlive hd
  · exact hs.again (scanSegments_swept (hs.scanned.roomy hroom)) hroom

/-- Page 1 of four segments: objects in segments 0 and 1, message queues in segments 2 and 3. -/
def halfDeadPage (i : Nat) : Page :=
  if i < 2 then ⟨pageStart (i, 1), 0, 32, 0, none, none, false⟩
  else ⟨pageStart (i, 1), 0, sizeofMessageQueue, 0, none, none, true⟩

/-- The first object of segment 0 is held, the first queue of segment 2 has a receiver, and the first queue
of segment 3 still has an old `start`. -/
def halfDeadArea : Shm :=
  { Shm.zero with
    sas := fun i => if i < 4 then ⟨i + 1, 0, .abandon, 0⟩ else ⟨0, 0, .normal, 0⟩
    segment := fun i => if i < 4 then ⟨i + 1, 1, fun j => if j = 1 then halfDeadPage i else Page.zero⟩
      else Segment.zero
    word := fun a => if a = pageStart (0, 1) + 8 then 2 ^ 32
      else if a = pageStart (2, 1) + 16 then 2 ^ 16
      else if a = pageStart (3, 1) then 5 else 0 }

theorem halfDeadArea_page (pg : Nat × Nat) :
    halfDeadArea.page pg = if pg.1 < 4 ∧ pg.2 = 1 then halfDeadPage pg.1 else Page.zero := by
  simp only [Shm.page, halfDeadArea]
  by_cases h₁ : pg.1 < 4
  · by_cases h₂ : pg.2 = 1
    · simp [h₁, h₂]
    · simp [h₁, h₂]
  · simp [h₁, Segment.zero]

theorem halfDeadArea_roomy : RoomyPages halfDeadArea := by
  intro pg _
  rw [halfDeadArea_page]
  split
  · unfold halfDeadPage
    split
    · exact fun _ => show sizeofRootRef ≤ 32 by decide
    · exact fun _ => Nat.le_refl sizeofMessageQueue
  · exact fun hbs => absurd rfl hbs

/-- Only the first blocks of segments 0 and 2 are alive. -/
theorem halfDeadArea_live {i : Nat} (h : LiveSegment halfDeadArea i) : i = 0 ∨ i = 2 := by
  obtain ⟨j, -, b, hb, hlive⟩ := h
  rw [halfDeadArea_page] at hb hlive
  split at hb
  case isFalse => exact absurd hb List.not_mem_nil
  case isTrue hj =>
    rw [if_pos hj] at hlive
    obtain ⟨hi, rfl⟩ : i < 4 ∧ j = 1 := hj
    have hlo : pageStart (i, 1) ≤ b := (pageBlocks_bounds hb).1
    have hhi : b ≤ pageStart (i, 1) + pageSize := Nat.le_of_add_right_le (pageBlocks_bounds hb).2
    by_contra hn
    have hfar : ∀ d ≤ 16, b + d ≠ pageStart (0, 1) + 8 ∧ b + d ≠ pageStart (2, 1) + 16 ∧
        (0 < d → b + d ≠ pageStart (3, 1)) := by
      simp only [pageStart, segmentsAreaStart, segmentSize, pageSize] at hlo hhi ⊢
      omega
    have hword : ∀ d ≤ 16, 0 < d → halfDeadArea.word (b + d) = 0 := by
      intro d hd hpos
      obtain ⟨h0, h2, h3⟩ := hfar d hd
      simp only [halfDeadArea]
      rw [if_neg h0, if_neg h2, if_neg (h3 hpos)]
    have hdead := And.intro (hword 8 (by decide) (by decide)) (hword 16 (by decide) (by decide))
    simp [aliveBlock, Shm.receiverId, Shm.senderId, Shm.refCnt, Shm.refInfo, hdead, getRefCntFromInfo] at hlive

theorem scanSegments_exact_half : ((scanSegments halfDeadArea).sas 0).threadId ≠ 0 ∧
    ((scanSegments halfDeadArea).sas 1).threadId = 0 ∧ ((scanSegments halfDeadArea).sas 2).threadId ≠ 0 ∧
    ((scanSegments halfDeadArea).sas 3).threadId = 0 := by
  obtain ⟨-, hclaimed, -⟩ := scanSegments_exact halfDeadArea_roomy
  have hdead : ∀ i < maxSegmentNum, ¬ (i = 0 ∨ i = 2) → ((scanSegments halfDeadArea).sas i).threadId = 0 := by
    intro i hi hn
    by_contra hown
    exact hn (halfDeadArea_live ((hclaimed i hi).mp hown).2)
  have hfirst : ∀ i, 0 < pageSize / (halfDeadPage i).blockSize →
      pageStart (i, 1) ∈ pageBlocks (i, 1) (halfDeadPage i).blockSize := by
    intro i hpos
    exact mem_pageBlocks.mpr ⟨0, hpos, by simp⟩
  refine ⟨?_, hdead 1 (by decide) (by decide), ?_, hdead 3 (by decide) (by decide)⟩
  · refine (hclaimed 0 (by decide)).mpr ⟨by decide, 1, by decide, pageStart (0, 1), ?_, by decide⟩
    rw [halfDeadArea_page, if_pos (by decide)]
    exact hfirst 0 (by decide)
  · refine (hclaimed 2 (by decide)).mpr ⟨by decide, 1, by decide, pageStart (2, 1), ?_, by decide⟩
    rw [halfDeadArea_page, if_pos (by decide)]
    exact hfirst 2 (by decide)

end Segments

end CxlShm
