import CxlShm.Pool
import CxlShm.Cascade

/-! # StalePayload — the embedded references of a new object

`cxl_free` and `cxl_page_init` wipe the header of a block, `block_to_cxlobj` writes it, and nobody writes the
words behind it. The embedded slots of a new object hold what an earlier object, or a link of an earlier free
list, has left there.
-/

namespace CxlShm

open Transition Loop

/-! ## §1 — the block and what it holds -/

/-- The block the lists offer to `cxl_malloc(data_size, _)` for its object, before it is taken. -/
def offeredBlock (fuel tid size dataSize : Nat) (m : Shm) : Option Nat := do
  let (_, m₁) ← threadBaseRefAlloc fuel tid size m
  let pq := QueuePtr.bin (cxlPageQueue false ((dataSize + sizeofCxlObj) % 2 ^ 64))
  let (block, _, _) ← cxlPageMalloc fuel tid size pq (cxlFindPage tid pq m₁) m₁
  some block

/-- The block the lists offer is clean where `n` embedded slots will be. -/
def CleanOffer (fuel tid size dataSize n : Nat) (m : Shm) : Prop :=
  ∀ x, offeredBlock fuel tid size dataSize m = some x → ∀ k < n, m.word (embeddedSlot x k) = 0

/-- The object is given up with the slot `a`: no word but the slot and the header of the object changes. -/
def OnlyGivesUp (a x : Nat) (m m' : Shm) : Prop :=
  ∀ w, m'.word w ≠ m.word w → w = a ∨ ∃ k < 3, w = x + 8 * k

/-! ## §2 — giving up an object without references -/

section GiveUp

variable {tid size fuel n : Nat} {m m' : Shm} {G : BlockLists} {b t x : Nat}

theorem unlinkStores_queue (ref refed : Nat) (q : QueuePtr) :
    (unlinkStores tid ref refed m).queue tid q = m.queue tid q := by
  have hlearn : ∀ info, (learnEra tid info m).tls = m.tls := by
    intro info
    unfold learnEra
    split <;> rfl
  have htls : (unlinkStores tid ref refed m).tls tid =
      ((learnEra tid (m.refInfo refed) m).tls tid).setRedo
        ((learnEra tid (m.refInfo refed) m).era tid tid % redoCachelineCnt)
        (RefCall.line ⟨.unlinkRef, ref, refed⟩ (m.refInfo refed)
          ((learnEra tid (m.refInfo refed) m).era tid tid)) :=
    Function.update_self ..
  rw [Shm.queue, Shm.queue, htls, hlearn]
  cases q <;> rfl

/-- `unlink_reference` of a held RootRef and object is a use of their blocks. -/
theorem Pool.unlinkUse (h : Pool tid m G) (ht : G.Held 0 t) (hx : G.Held b x) (hb : 3 ≤ b) :
    UseFrame tid m (CxlShm.unlinkStores tid t x m) := by
  have hlarge := binSize_large hb
  refine ⟨unlinkStores_queue t x, fun i => ?_, fun i _ => ?_, fun i _ => ?_, fun i hi => ?_, fun y hy => ?_⟩
  · rw [unlinkStores_sas]
  · rw [unlinkStores_sas]
  · rw [unlinkStores_segment]
  · rw [unlinkStores_sas] at hi
    rw [unlinkStores_segment]
    exact h.inv.account.claimable i hi
  · have hy := h.freeBlock_iff.mp hy
    have hyt : y ≠ t := h.inv.held_add_ne ht hy (d := 0) (by decide)
    have hyx : y ≠ x + 8 := h.inv.held_add_ne hx hy (by omega)
    rw [unlinkStores_word, Function.update_of_ne hyt, Function.update_of_ne hyx]

/-- A RootRef that holds the one reference to an object with `n` empty slots. -/
structure Leaf (m : Shm) (t x n : Nat) : Prop where
  pptr : m.word t = x
  one : m.refCnt x = 1
  embedded : m.word (x + 16) = n
  slots : ∀ k < n, m.word (embeddedSlot x k) = 0

/-- **Dropping the last reference to an object without references** frees the object. -/
theorem Pool.testFree_leaf (h : Pool tid m G) (ht : G.Held 0 t) (hx : G.Held b x) (hb : 3 ≤ b)
    (hleaf : Leaf m t x n) (hf : n < fuel) : ∃ m' G', CxlShm.testFree tid (fuel + 1) t m = some m' ∧
      testFreeing tid (fuel + 1) t ⟨m, []⟩ = some ⟨m', [x]⟩ ∧ Pool tid m' G' ∧ OnlyGivesUp t x m m' ∧
      ∀ k y, G'.Held k y ↔ G.Held k y ∧ y ≠ x := by
  have hx0 : x ≠ 0 := block_ne_zero hx.block.2
  have hone : getRefCntFromInfo (m.refInfo x) = 1 := hleaf.one
  have h₁ := h.use (h.unlinkUse ht hx hb)
  obtain ⟨m', G', hrun, hinv, hheads, htaken, hempty⟩ := cxlFree_own h₁.inv h₁.heads (by omega) hx
  rw [decide_eq_false (by omega)] at hrun
  have hunlink : unlinkReference tid t x m = some m' := by
    rw [unlinkReference, if_pos hone, hrun]
  have hdrop : testFreeing tid (fuel + 1) t ⟨m, []⟩ = some ⟨m', [x]⟩ := by
    rw [testFreeing, releaseOn_leaf hleaf.pptr hx0 hleaf.one hleaf.embedded hleaf.slots hf, unlinkFreeing, hunlink]
    simp only [Option.map_some, if_pos hone]
  have htest : CxlShm.testFree tid (fuel + 1) t m = some m' := by
    have harea := testFreeing_area tid (fuel + 1) t ⟨m, []⟩
    rw [hdrop] at harea
    exact harea.symm
  refine ⟨m', G', htest, hdrop, ⟨hinv, hheads, hempty 2 h₁.small⟩, ?_, htaken.held⟩
  -- the slot, the stamp, and then the header as a whole
  intro w hw
  by_cases hsame : m'.word w = (CxlShm.unlinkStores tid t x m).word w
  · rw [hsame, unlinkStores_word] at hw
    by_cases hwt : w = t
    · exact Or.inl hwt
    · by_cases hwx : w = x + 8
      · exact Or.inr ⟨1, by decide, hwx⟩
      · rw [Function.update_of_ne hwt, Function.update_of_ne hwx] at hw
        exact absurd rfl hw
  · obtain ⟨k, hk, hwk⟩ := htaken.word w hsame
    rw [wipedWords, if_neg (by simpa using (by omega : ¬ b < 2))] at hk
    exact Or.inr ⟨k, hk, hwk⟩

end GiveUp

end CxlShm
