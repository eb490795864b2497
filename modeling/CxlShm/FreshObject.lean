import CxlShm.Reuse

/-! # FreshObject — whether a new object refers to anything

A new object refers to nothing exactly when the block its bin offers is clean where the slots will be.
-/

namespace CxlShm

open Transition

/-! ## §1 — the call takes the block on offer -/

section Fresh

variable {tid size fuel dataSize n : Nat} {m m' : Shm} {r : CxlRef}

theorem cxlMalloc_offered (hrun : cxlMalloc fuel tid size dataSize n m = some (r, m')) :
    offeredBlock fuel tid size dataSize m = some (r.data - sizeofCxlObj) := by
  simp only [cxlMalloc, Option.bind_eq_bind, Option.bind_eq_some_iff] at hrun
  obtain ⟨⟨t, m₁⟩, href, hobj⟩ := hrun
  simp only [cxlRefAlloc] at hobj
  split at hobj
  · simp only [Option.bind_eq_bind, Option.bind_eq_some_iff] at hobj
    obtain ⟨⟨x, pg, m₂⟩, hpage, hres⟩ := hobj
    simp only [Option.some.injEq, Prod.mk.injEq] at hres
    rw [← hres.1]
    simp only [offeredBlock, href, Option.bind_eq_bind, Option.bind_some, hpage, Nat.add_sub_cancel]
  · cases hobj

/-- Nobody writes the words behind the header. -/
theorem Malloced.payload {G G' : BlockLists} {b t x d : Nat} (hmade : Malloced tid b t x n m m' G G')
    (h' : Pool tid m' G') (hlo : sizeofCxlObj ≤ d) (hd : d < binSize b) : m'.word (x + d) = m.word (x + d) := by
  by_contra hne
  obtain ⟨j, y, e, hy, -, had, he, hej⟩ := hmade.word _ hne
  have hx : G'.Held b x := (hmade.held b x).mpr (Or.inr ⟨rfl, rfl⟩)
  have hxy := h'.inv.block_inj hx.block hy hd hej had
  omega

/-- The embedded slots of a new object hold what its block held. -/
theorem Pool.cxlMalloc_slots {G : BlockLists} (h : Pool tid m G) (hfits : dataSize + sizeofCxlObj < 2 ^ 64)
    (hn : 8 * n ≤ dataSize) (hrun : CxlShm.cxlMalloc fuel tid size dataSize n m = some (r, m')) :
    ∀ k < n, m'.word (embeddedSlot (r.data - sizeofCxlObj) k) = m.word (embeddedSlot (r.data - sizeofCxlObj) k) := by
  obtain ⟨G', t, x, b, h', rfl, -, rfl, hmade⟩ := h.cxlMalloc hfits hrun
  have hfit : sizeofCxlObj + 8 * n ≤ binSize ((dataSize + 23) / 16 + 2) := by
    unfold binSize
    rw [if_neg (by omega), if_neg (by omega)]
    simp only [sizeofCxlObj]
    omega
  intro k hk
  have hdata : (x + sizeofCxlObj) - sizeofCxlObj = x := Nat.add_sub_cancel ..
  have hplace : embeddedSlot x k = x + (sizeofCxlObj + 8 * k) := Nat.add_assoc ..
  rw [hdata, hplace]
  exact hmade.payload h' (Nat.le_add_right ..) (by omega)

theorem Shm.zeroWords_of_clear {a : Nat} (h : ∀ k < n, m.word (a + 8 * k) = 0) : m.zeroWords a n = m := by
  have hword : (m.zeroWords a n).word = m.word := by
    funext c
    by_cases hc : ∃ k < n, c = a + 8 * k
    · obtain ⟨k, hk, rfl⟩ := hc
      rw [Shm.zeroWords_word_self hk, h k hk]
    · exact Shm.zeroWords_word_of_ne fun k hk he => hc ⟨k, hk, he⟩
  obtain ⟨e, t, s, g, w⟩ := m
  exact congrArg (Shm.mk e t s g) hword

/-- From a clean block the slots are empty without being cleared. -/
theorem Pool.cxlMalloc_clean {G : BlockLists} (h : Pool tid m G) (hfits : dataSize + sizeofCxlObj < 2 ^ 64)
    (hn : 8 * n ≤ dataSize) (hclean : CleanOffer fuel tid size dataSize n m)
    (hrun : CxlShm.cxlMalloc fuel tid size dataSize n m = some (r, m')) : m'.zeroWords r.data n = m' := by
  have hslots := h.cxlMalloc_slots hfits hn hrun
  have hoffer := hclean _ (cxlMalloc_offered hrun)
  obtain ⟨G', t, x, b, -, -, -, rfl, -⟩ := h.cxlMalloc hfits hrun
  have hdata : (x + sizeofCxlObj) - sizeofCxlObj = x := Nat.add_sub_cancel ..
  apply Shm.zeroWords_of_clear
  intro k hk
  show m'.word (embeddedSlot x k) = 0
  have hsame := hslots k hk
  rw [hdata] at hsame hoffer
  rw [hsame, hoffer k hk]

end Fresh

theorem freshArea_unused : Unused 1 freshArea := ⟨Pool.init freshArea_init, fun _ => Nat.two_pow_pos 32⟩

end CxlShm
