import CxlShm.SegmentAccount
import CxlShm.RecoveryState

/-! # PageFresh — what a fresh page contains

The loop of `cxl_page_init` links the blocks of a page and wipes some of their words; the rest is
whatever the page held before. The three scans of recovery look at words of both kinds.
-/

namespace CxlShm

open Loop Transition

/-! ## §1 — the words after the loop -/

theorem blockAt_succ (start bs i : Nat) : blockAt start bs (i + 1) = blockAt start bs i + bs := by
  simp only [blockAt, Nat.add_mul, Nat.one_mul, Nat.add_assoc]

theorem blockAt_le (start bs : Nat) {i j : Nat} (h : i ≤ j) : blockAt start bs i ≤ blockAt start bs j :=
  Nat.add_le_add_left (Nat.mul_le_mul_right bs h) _

theorem blockAt_lt (start : Nat) {bs i j : Nat} (hbs : 0 < bs) (h : i < j) :
    blockAt start bs i < blockAt start bs j :=
  Nat.add_lt_add_left (Nat.mul_lt_mul_of_pos_right h hbs) _

/-- Within its block a word other than the first belongs to no other block. -/
theorem blockAt_add_ne {start bs i j d : Nat} (hd : 0 < d) (hdb : d < bs) :
    blockAt start bs i + d ≠ blockAt start bs j := by
  intro he
  rcases Nat.lt_or_ge i j with h | h
  · have := blockAt_le start bs (Nat.succ_le_of_lt h)
    rw [Nat.succ_eq_add_one, blockAt_succ] at this
    omega
  · have := blockAt_le start bs h
    omega

section Words

variable {special : Bool} {start bs : Nat}

/-- How many words of a block a round wipes. -/
def initWiped (special : Bool) : Nat := if special then 1 else sizeofCxlObj / 8

theorem initWiped_pos (special : Bool) : 0 < initWiped special := by
  cases special <;> simp [initWiped, sizeofCxlObj]

theorem initBlock_word (special : Bool) (start bs : Nat) (m : Shm) (i a : Nat) :
    (initBlock special start bs m i).word a =
      if a = blockAt start bs i then blockAt start bs (i + 1)
      else if ∃ k < initWiped special, a = blockAt start bs i + 8 * k then 0 else m.word a := by
  simp only [initBlock, Shm.store_word, Function.update_apply]
  rfl

/-- Words that no round writes. -/
theorem foldl_initBlock_other (m : Shm) {n a : Nat}
    (ha : ∀ i < n, ∀ k < initWiped special, a ≠ blockAt start bs i + 8 * k) :
    ((List.range n).foldl (initBlock special start bs) m).word a = m.word a := by
  induction n with
  | zero => rfl
  | succ n ih =>
    have hlast := ha n (Nat.lt_succ_self n)
    rw [List.range_succ, List.foldl_append, List.foldl_cons, List.foldl_nil, initBlock_word,
      if_neg (by simpa using hlast 0 (initWiped_pos special)), if_neg]
    · exact ih fun i hi => ha i (Nat.lt_succ_of_lt hi)
    · rintro ⟨k, hk, he⟩
      exact hlast k hk he

/-- The first `n` blocks are linked to their successors. -/
theorem foldl_initBlock_link (m : Shm) (hbs : 0 < bs) {n i : Nat} (hi : i < n) :
    ((List.range n).foldl (initBlock special start bs) m).word (blockAt start bs i) =
      blockAt start bs (i + 1) := by
  induction n with
  | zero => omega
  | succ n ih =>
    rw [List.range_succ, List.foldl_append, List.foldl_cons, List.foldl_nil, initBlock_word]
    by_cases hin : i = n
    · rw [if_pos (by rw [hin]), hin]
    · -- later blocks lie above
      have hlt := blockAt_lt start hbs (show i < n by omega)
      rw [if_neg (Nat.ne_of_lt hlt), if_neg]
      · exact ih (by omega)
      · rintro ⟨k, -, he⟩
        omega

/-- The count word of a linked block is wiped. -/
theorem foldl_initBlock_wiped (m : Shm) (hbs : 16 ≤ bs) {n i : Nat} (hi : i < n) :
    ((List.range n).foldl (initBlock false start bs) m).word (blockAt start bs i + 8) = 0 := by
  induction n with
  | zero => omega
  | succ n ih =>
    rw [List.range_succ, List.foldl_append, List.foldl_cons, List.foldl_nil, initBlock_word]
    by_cases hin : i = n
    · subst hin
      rw [if_neg (by omega), if_pos ⟨1, by decide, rfl⟩]
    · have hle : blockAt start bs (i + 1) ≤ blockAt start bs n :=
        Nat.add_le_add_left (Nat.mul_le_mul_right bs (by omega)) _
      have hsucc := blockAt_succ start bs i
      rw [if_neg (by omega), if_neg]
      · exact ih (by omega)
      · rintro ⟨k, -, he⟩
        omega

end Words

/-! ## §2 — the words of a fresh page -/

section Fresh

variable {special : Bool} {bs i : Nat} {pg : Nat × Nat} {m : Shm}

theorem initWords_apply (special : Bool) (bs : Nat) (pg : Nat × Nat) (m : Shm) (a : Nat) :
    initWords special bs pg m a =
      if a = blockAt (pageStart pg) bs (pageSize / bs - 1) then (m.page pg).free
      else ((List.range (pageSize / bs - 1)).foldl (initBlock special (pageStart pg) bs) m).word a := by
  simp only [initWords, Shm.store_word, Function.update_apply]

theorem initWords_link (hbs : 0 < bs) (hi : i < pageSize / bs - 1) :
    initWords special bs pg m (blockAt (pageStart pg) bs i) = blockAt (pageStart pg) bs (i + 1) := by
  rw [initWords_apply, if_neg (Nat.ne_of_lt (blockAt_lt _ hbs hi)), foldl_initBlock_link m hbs hi]

/-- **The free list of a fresh page is all of its blocks.** -/
theorem initWords_chained (hbs : 0 < bs) (hle : bs ≤ pageSize) (hfree : (m.page pg).free = 0) :
    Chained (fun o => linkPtr (initWords special bs pg m o)) (linkPtr (pageStart pg))
      (pageBlocks pg bs) := by
  have hn : 0 < pageSize / bs := Nat.div_pos hle hbs
  have hpos : ∀ i, blockAt (pageStart pg) bs i ≠ 0 := by
    intro i
    simp only [blockAt, pageStart, segmentsAreaStart]
    omega
  have hlink : ∀ i, 0 ≤ i → i < 0 + (pageSize / bs - 1) →
      linkPtr (initWords special bs pg m (blockAt (pageStart pg) bs i)) =
        some (blockAt (pageStart pg) bs (i + 1)) := by
    intro i _ hi
    rw [initWords_link hbs (by omega), linkPtr, if_neg (hpos _)]
  have hlast : linkPtr (initWords special bs pg m (blockAt (pageStart pg) bs (0 + (pageSize / bs - 1)))) =
      none := by
    rw [Nat.zero_add, initWords_apply, if_pos rfl, hfree, linkPtr, if_pos rfl]
  have hchain : Chained (fun o => linkPtr (initWords special bs pg m o))
      (some (blockAt (pageStart pg) bs 0))
      ((List.range' 0 (pageSize / bs - 1 + 1)).map (blockAt (pageStart pg) bs)) :=
    chained_sequence hlink hlast
  have hfirst : blockAt (pageStart pg) bs 0 = pageStart pg := by simp [blockAt]
  rw [hfirst, Nat.sub_add_cancel hn] at hchain
  have hptr : linkPtr (pageStart pg) = some (pageStart pg) := by
    rw [linkPtr, if_neg (hfirst ▸ hpos 0)]
  rwa [hptr, pageBlocks, List.range_eq_range']

/-- A special page keeps every word but the links. -/
theorem initWords_special {d : Nat} (hd : 0 < d) (hdb : d < bs) :
    initWords true bs pg m (blockAt (pageStart pg) bs i + d) =
      m.word (blockAt (pageStart pg) bs i + d) := by
  rw [initWords_apply, if_neg (blockAt_add_ne hd hdb), foldl_initBlock_other]
  intro j _ k hk
  have hk0 : k = 0 := by simpa [initWiped] using hk
  simpa [hk0] using blockAt_add_ne hd hdb

/-- An object page loses the counts of all blocks but the last. -/
theorem initWords_count (hbs : 16 ≤ bs) (hi : i < pageSize / bs - 1) :
    initWords false bs pg m (blockAt (pageStart pg) bs i + 8) = 0 := by
  rw [initWords_apply, if_neg (blockAt_add_ne (by decide) (by omega)), foldl_initBlock_wiped m hbs hi]

theorem initWords_lastCount (hbs : 16 ≤ bs) :
    initWords false bs pg m (blockAt (pageStart pg) bs (pageSize / bs - 1) + 8) =
      m.word (blockAt (pageStart pg) bs (pageSize / bs - 1) + 8) := by
  rw [initWords_apply, if_neg (blockAt_add_ne (by decide) (by omega)), foldl_initBlock_other]
  intro j hj k hk
  have hk3 : k < 3 := hk
  have hle := blockAt_le (pageStart pg) bs (Nat.succ_le_of_lt hj)
  rw [Nat.succ_eq_add_one, blockAt_succ] at hle
  omega

end Fresh

/-! ## §3 — what the scans of recovery see -/

/-- The tests recovery makes on a block of a page of bin `b`. `in_use` is a `bool`, tested for non-zero; the scan
of the pages takes every page but those of queues for a page of objects, a page of RootRefs too, so there
the count field of the second word must be 0 as well. -/
def BlockAlive (b : Nat) (m : Shm) (o : Nat) : Prop :=
  if b = 0 then m.inUse o ≠ 0 ∨ m.refCnt o > 0
  else if b = 1 then m.receiverId o ≠ 0 ∨ m.senderId o ≠ 0
  else m.refCnt o > 0

def lastBlock (b : Nat) (pg : Nat × Nat) : Nat :=
  blockAt (pageStart pg) (binSize b) (pageSize / binSize b - 1)

/-- What the page contained looks dead where `cxl_page_init` does not wipe: in every block of a page of
RootRefs or queues, in the last block of a page of objects. -/
def LeftDead (b : Nat) (pg : Nat × Nat) (m : Shm) : Prop :=
  if b < 2 then ∀ o ∈ pageBlocks pg (binSize b), ¬ BlockAlive b m o
  else ¬ BlockAlive b m (lastBlock b pg)

/-- The page's free list is each of its blocks once, and none of them looks alive. -/
structure PageClean (b : Nat) (pg : Nat × Nat) (m : Shm) : Prop where
  free : Chained (fun o => linkPtr (m.word o)) (linkPtr (m.page pg).free) (pageBlocks pg (binSize b))
  nodup : (pageBlocks pg (binSize b)).Nodup
  dead : ∀ o ∈ pageBlocks pg (binSize b), ¬ BlockAlive b m o

section Alive

variable {tid size b fuel : Nat} {m m₁ m' : Shm} {pg : Nat × Nat}

theorem binSize_bounds (hb : b < cxlBinSize) : 16 ≤ binSize b ∧ binSize b ≤ 1024 := by
  simp only [binSize, sizeofRootRef, sizeofMessageQueue, cxlBinSize] at *
  split
  · omega
  · split <;> omega

theorem blockAlive_congr {o : Nat} (h₁ : m'.word (o + 8) = m.word (o + 8))
    (h₂ : b = 1 → m'.word (o + 16) = m.word (o + 16)) : BlockAlive b m' o ↔ BlockAlive b m o := by
  unfold BlockAlive
  by_cases h0 : b = 0
  · simp [h0, Shm.inUse, Shm.refCnt, Shm.refInfo, h₁]
  · by_cases hb1 : b = 1
    · simp [hb1, Shm.receiverId, Shm.senderId, h₂ hb1]
    · simp [h0, hb1, Shm.refCnt, Shm.refInfo, h₁]

/-- The blocks of a fresh page look dead exactly when the page was left so. -/
theorem fresh_blocks_dead_iff (hb : b < cxlBinSize) (hword : m₁.word = m.word)
    (hinit : m'.word = initWords (QueuePtr.bin b).special (binSize b) pg m₁) :
    (∀ o ∈ pageBlocks pg (binSize b), ¬ BlockAlive b m' o) ↔ LeftDead b pg m := by
  obtain ⟨hlo, hhi⟩ := binSize_bounds hb
  unfold LeftDead
  by_cases hspecial : b < 2
  · rw [if_pos hspecial]
    have hsp : (QueuePtr.bin b).special = true := by
      have hcases : b = 0 ∨ b = 1 := by omega
      simpa [QueuePtr.special] using hcases
    rw [hsp] at hinit
    have hsame : ∀ o ∈ pageBlocks pg (binSize b), (BlockAlive b m' o ↔ BlockAlive b m o) := by
      intro o ho
      obtain ⟨i, -, rfl⟩ := mem_pageBlocks.mp ho
      apply blockAlive_congr
      · rw [hinit, ← hword]
        exact initWords_special (by decide) (by omega)
      · rintro rfl
        rw [hinit, ← hword]
        exact initWords_special (by decide) (by decide)
    constructor
    · exact fun h o ho ha => h o ho ((hsame o ho).mpr ha)
    · exact fun h o ho ha => h o ho ((hsame o ho).mp ha)
  · rw [if_neg hspecial]
    have hsp : (QueuePtr.bin b).special = false := by
      have hcases : ¬ (b = 0 ∨ b = 1) := by omega
      simpa [QueuePtr.special] using hcases
    rw [hsp] at hinit
    have hn : 0 < pageSize / binSize b :=
      Nat.div_pos (Nat.le_trans hhi (by decide)) (by omega)
    have hlast : BlockAlive b m' (lastBlock b pg) ↔ BlockAlive b m (lastBlock b pg) := by
      apply blockAlive_congr
      · rw [hinit, ← hword]
        exact initWords_lastCount hlo
      · omega
    constructor
    · intro h ha
      exact h _ (mem_pageBlocks.mpr ⟨_, Nat.sub_lt hn Nat.one_pos, rfl⟩) (hlast.mpr ha)
    · intro h o ho ha
      obtain ⟨i, hi, rfl⟩ := mem_pageBlocks.mp ho
      by_cases hil : i = pageSize / binSize b - 1
      · subst hil
        exact h (hlast.mp ha)
      · -- the count of any other block has been wiped
        have hzero : m'.word (blockAt (pageStart pg) (binSize b) i + 8) = 0 := by
          rw [hinit]
          exact initWords_count hlo (by omega)
        have hcnt : m'.refCnt (pageStart pg + i * binSize b) = 0 := by
          unfold Shm.refCnt Shm.refInfo
          rw [show pageStart pg + i * binSize b = blockAt (pageStart pg) (binSize b) i from rfl, hzero]
          rfl
        rw [BlockAlive, if_neg (by omega), if_neg (by omega), hcnt] at ha
        exact absurd ha (by decide)

/-- A fresh page is clean exactly when its former content looks dead in the words that are not wiped. -/
theorem fresh_page_clean_iff (h : PageReach tid size m) (hb : b < cxlBinSize)
    (hrun : cxlPageFresh fuel tid size (.bin b) m = some (pg, m')) :
    PageClean b pg m' ↔ LeftDead b pg m := by
  obtain ⟨L, hinv⟩ := h.inv
  obtain ⟨L', m₁, -, -, -, hword, hfree, hinit, hbody⟩ := cxlPageFresh_some hinv hb hrun
  obtain ⟨hlo, hhi⟩ := binSize_bounds hb
  have hdead := fresh_blocks_dead_iff hb hword hinit
  have hpage : (m'.page pg).free = pageStart pg := congrArg Page.free hbody
  constructor
  · exact fun hc => hdead.mp hc.dead
  · intro hleft
    refine ⟨?_, pageBlocks_nodup (by omega), hdead.mpr hleft⟩
    rw [hpage, hinit]
    exact initWords_chained (by omega) (Nat.le_trans hhi (by decide)) hfree

end Alive

/-- The fresh area of client 1 with the words `w`. -/
def areaWith (w : Nat → Nat) : Shm := { freshArea with word := w }

theorem areaWith_init (w : Nat → Nat) : PageInit 1 (areaWith w) :=
  ⟨freshArea_init.tid_ne, freshArea_init.queues, freshArea_init.unowned, freshArea_init.claimable⟩

theorem areaWith_reach (w : Nat → Nat) : PageReach 1 (2 ^ 27 + 2 ^ 26) (areaWith w) :=
  Reach.init (areaWith_init w) trivial

theorem areaWith_fresh (w : Nat → Nat) :
    ∃ pg m, cxlPageFresh 2 1 (2 ^ 27 + 2 ^ 26) (.bin 3) (areaWith w) = some (pg, m) :=
  cxlPageFresh_returns (AccountInv.init (areaWith_init w)) (Or.inr ⟨0, rfl, by decide⟩)

theorem refCnt_lastBlock (w : Nat → Nat) (pg : Nat × Nat) :
    (areaWith w).refCnt (lastBlock 3 pg) = getRefCntFromInfo (w (pageStart pg + (2 ^ 16 - 24))) := by
  unfold Shm.refCnt Shm.refInfo lastBlock
  congr 2

/-- A page of 32-byte blocks out of a zeroed area. -/
theorem fresh_page_clean_iff_zeroed : ∃ pg m,
    cxlPageFresh 2 1 (2 ^ 27 + 2 ^ 26) (.bin 3) (areaWith fun _ => 0) = some (pg, m) ∧
      PageClean 3 pg m := by
  obtain ⟨pg, m, hrun⟩ := areaWith_fresh fun _ => 0
  refine ⟨pg, m, hrun, (fresh_page_clean_iff (areaWith_reach _) (by decide) hrun).mpr ?_⟩
  rw [LeftDead, if_neg (by decide), BlockAlive, if_neg (by decide), if_neg (by decide), refCnt_lastBlock]
  decide

/-- Old payload in the last 24 bytes of a page reads as a count of 1 in its last 32-byte block. -/
def oldPayload (a : Nat) : Nat := if a % 2 ^ 16 = 2 ^ 16 - 24 then 2 ^ 32 else 0

/-- The page is cut into 32-byte blocks, and the last one looks alive. -/
theorem fresh_page_looks_alive : ∃ m pg m', PageReach 1 (2 ^ 27 + 2 ^ 26) m ∧
    cxlPageFresh 2 1 (2 ^ 27 + 2 ^ 26) (.bin 3) m = some (pg, m') ∧ ¬ PageClean 3 pg m' := by
  obtain ⟨pg, m, hrun⟩ := areaWith_fresh oldPayload
  refine ⟨_, pg, m, areaWith_reach oldPayload, hrun, fun hc => ?_⟩
  obtain ⟨L, hinv⟩ := (areaWith_reach oldPayload).inv
  obtain ⟨L', m₁, -, -, -, hword, -, hinit, -⟩ := cxlPageFresh_some hinv (by decide) hrun
  have hleft := (fresh_blocks_dead_iff (by decide) hword hinit).mp hc.dead
  have hold : oldPayload (pageStart pg + (2 ^ 16 - 24)) = 2 ^ 32 := by
    rw [oldPayload, if_pos]
    simp only [pageStart, segmentsAreaStart, segmentSize, pageSize]
    omega
  rw [LeftDead, if_neg (by decide), BlockAlive, if_neg (by decide), if_neg (by decide), refCnt_lastBlock,
    hold] at hleft
  exact hleft (by decide)

end CxlShm
