import CxlShm.Idle
import CxlShm.StalePayload

/-! # Handle — `CXLRef_s`

The special member functions of a handle. The counter of the RootRef it names is in the shared area, the handle
itself is not.
-/

namespace CxlShm

open Transition Loop

/-! ## §1 — the member functions -/

/-- `ref->ref_cnt += 1` of the copy constructor and the copy assignment. -/
def countHandle (r : CxlRef) (m : Shm) : Shm :=
  if r.tbr ≠ 0 then m.setRootRefCnt r.tbr ((m.rootRefCnt r.tbr + 1) % 2 ^ 16) else m

/-- `CXLRef_s(const CXLRef_s& cxl_ref)`: the new handle and the area. -/
def CxlRef.copy (source : CxlRef) (m : Shm) : CxlRef × Shm := (source, countHandle source m)

/-- `CXLRef_s(const CXLRef_s&& cxl_ref)`: the source stays as it is. -/
def CxlRef.move (source : CxlRef) (m : Shm) : CxlRef × Shm := (source, m)

/-- `operator=(const CXLRef_s& cxl_ref)`: what the handle named before is not looked at. -/
def CxlRef.copyAssign (_self source : CxlRef) (m : Shm) : CxlRef × Shm := (source, countHandle source m)

/-- `operator=(const CXLRef_s&& cxl_ref)`. -/
def CxlRef.moveAssign (_self source : CxlRef) (m : Shm) : CxlRef × Shm := (source, m)

/-- `~CXLRef_s()`. -/
def CxlRef.destroy (fuel tid : Nat) (self : CxlRef) (m : Shm) : Option Shm :=
  if self.tbr = 0 ∧ self.data = 0 then some m
  else
    let m₁ := m.setRootRefCnt self.tbr ((m.rootRefCnt self.tbr + (2 ^ 16 - 1)) % 2 ^ 16)
    if m₁.rootRefCnt self.tbr ≠ 0 then some m₁
    else (testFree tid fuel self.tbr m₁).bind fun m₂ => cxlFree tid true self.tbr (m₂.setInUse self.tbr 0)

/-! ## §2 — the second word of a RootRef -/

section Words

variable (m : Shm) (t v : Nat)

theorem setRootRefCnt_word_of_ne {a : Nat} (h : a ≠ t + 8) : (m.setRootRefCnt t v).word a = m.word a :=
  Function.update_of_ne h ..

theorem rootRefCnt_setRootRefCnt : (m.setRootRefCnt t v).rootRefCnt t = v % 2 ^ 16 := by
  have hsecond : (m.setRootRefCnt t v).word (t + 8) =
      m.word (t + 8) / 2 ^ 32 * 2 ^ 32 + v * 2 ^ 16 + m.word (t + 8) % 2 ^ 16 := Function.update_self ..
  rw [Shm.rootRefCnt, hsecond]
  omega

theorem inUse_setRootRefCnt : (m.setRootRefCnt t v).inUse t = m.inUse t := by
  have hsecond : (m.setRootRefCnt t v).word (t + 8) =
      m.word (t + 8) / 2 ^ 32 * 2 ^ 32 + v * 2 ^ 16 + m.word (t + 8) % 2 ^ 16 := Function.update_self ..
  rw [Shm.inUse, Shm.inUse, hsecond]
  omega

theorem setInUse_word_of_ne {a : Nat} (h : a ≠ t + 8) : (m.setInUse t v).word a = m.word a :=
  Function.update_of_ne h ..

end Words

section Destroy

variable {tid size fuel n : Nat} {m m' : Shm} {G G' : BlockLists} {b t x : Nat}

/-- Stores to words of blocks handed out. -/
theorem Pool.store (h : Pool tid m G) (hx : G.Held b x) {d : Nat} (hd : d < binSize b) (v : Nat) :
    Pool tid (m.store (x + d) v) G := by
  refine h.touch rfl rfl rfl fun y hy => ?_
  exact Function.update_of_ne (h.inv.held_add_ne hx hy hd) ..

theorem Busy.congr (hb : Busy tid m) (h : Pool tid m G) (h' : Pool tid m' G) (hsas : m'.sas = m.sas) :
    Busy tid m' := by
  have hqueue : ∀ q pg, OnQueue tid m' q pg ↔ OnQueue tid m q pg := fun q pg =>
    h'.onQueue_iff.trans h.onQueue_iff.symm
  refine ⟨fun i hi => ?_, fun b pg hp => ?_, fun i hi => ?_⟩
  · rw [hsas] at hi ⊢
    exact hb.thread i hi
  · obtain ⟨x, hx, hxp⟩ := hb.page b pg ((hqueue _ _).mp hp)
    exact ⟨x, h'.heldBlock_iff.mpr (h.heldBlock_iff.mp hx), hxp⟩
  · rw [hsas] at hi
    obtain ⟨b, j, hp⟩ := hb.segment i hi
    exact ⟨b, j, (hqueue _ _).mpr hp⟩

theorem unlinkStores_tls_of_ne (ref refed : Nat) {u : Nat} (hu : u ≠ tid) :
    (unlinkStores tid ref refed m).tls u = m.tls u := by
  have hlearn : (learnEra tid (m.refInfo refed) m).tls = m.tls := by
    unfold learnEra
    split <;> rfl
  rw [← hlearn]
  exact Function.update_of_ne hu ..

theorem KeepsOthers.unlinkStores (ref refed : Nat) : KeepsOthers tid m (unlinkStores tid ref refed m) :=
  .of_same (fun _ hu => unlinkStores_tls_of_ne ref refed hu) (unlinkStores_sas ..) (unlinkStores_segment ..)

theorem EraBounded.unlinkStores (h : EraBounded m) (ref refed : Nat) :
    EraBounded (unlinkStores tid ref refed m) := by
  have hlearn : EraBounded (CxlShm.learnEra tid (m.refInfo refed) m) := h.learnEra tid _
  exact hlearn.storeEra (Nat.mod_lt _ (by decide))

/-- A RootRef and an object lie apart. -/
theorem Pool.root_object_ne (h : Pool tid m G) (ht : G.Held 0 t) (hx : G.Held b x) (hb : 3 ≤ b) (d e : Nat)
    (hd : d < 16) (he : e < binSize b) : t + d ≠ x + e := by
  intro heq
  obtain rfl := h.inv.block_inj ht.block hx.block hd he heq
  have := h.inv.bin_unique ht.block.1 hx.block.1
  omega

/-- Whatever the fuel, a drop of the last reference to an object without references is one unlink. -/
theorem testFree_leaf_some (hx0 : x ≠ 0) (hleaf : Leaf m t x n) (hrun : testFree tid fuel t m = some m') :
    cxlFree tid false x (unlinkStores tid t x m) = some m' := by
  have hmore := releaseOn_mono (show fuel ≤ fuel + n + 1 + 1 by omega) hrun
  have hone : getRefCntFromInfo (m.refInfo x) = 1 := hleaf.one
  rw [releaseOn_leaf hleaf.pptr hx0 hleaf.one hleaf.embedded hleaf.slots (by omega), unlinkReference,
    if_pos hone] at hmore
  exact hmore

/-- Counting a handle leaves the object as it is. -/
theorem Leaf.setRootRefCnt (hleaf : Leaf m t x n) (h : Pool tid m G) (ht : G.Held 0 t) (hx : G.Held b x) (hb : 3 ≤ b)
    (hfit : sizeofCxlObj + 8 * n ≤ binSize b) (v : Nat) : Leaf (m.setRootRefCnt t v) t x n := by
  have hlarge := binSize_large hb
  have hapart := h.root_object_ne ht hx hb
  refine ⟨?_, ?_, ?_, fun k hk => ?_⟩
  · rw [setRootRefCnt_word_of_ne m t v (by omega)]
    exact hleaf.pptr
  · rw [Shm.refCnt, Shm.refInfo, setRootRefCnt_word_of_ne m t v (hapart 8 8 (by decide) (by omega)).symm]
    exact hleaf.one
  · rw [setRootRefCnt_word_of_ne m t v (hapart 8 16 (by decide) (by omega)).symm]
    exact hleaf.embedded
  · have hslot : embeddedSlot x k = x + (sizeofCxlObj + 8 * k) := Nat.add_assoc ..
    rw [hslot, setRootRefCnt_word_of_ne m t v (hapart 8 _ (by decide) (by omega)).symm, ← hslot]
    exact hleaf.slots k hk

/-- The destruction of the last handle comes to an end. -/
theorem Pool.destroy_returns (h : Pool tid m G) (ht : G.Held 0 t) (hx : G.Held b x) (hb : 3 ≤ b)
    (hfit : sizeofCxlObj + 8 * n ≤ binSize b) (hone : m.rootRefCnt t = 1) (hleaf : Leaf m t x n) (data : Nat) :
    ∃ m', CxlRef.destroy (n + 2) tid ⟨t, data⟩ m = some m' := by
  have ht0 : t ≠ 0 := block_ne_zero ht.block.2
  have htx : t ≠ x := h.root_object_ne ht hx hb 0 0 (by decide) (Nat.lt_of_lt_of_le (by decide) (binSize_large hb))
  have hcnt : (m.setRootRefCnt t ((1 + (2 ^ 16 - 1)) % 2 ^ 16)).rootRefCnt t = 0 := rootRefCnt_setRootRefCnt ..
  have h₁ : Pool tid (m.setRootRefCnt t ((1 + (2 ^ 16 - 1)) % 2 ^ 16)) G := h.store ht (by decide) _
  have hleaf₁ := hleaf.setRootRefCnt h ht hx hb hfit ((1 + (2 ^ 16 - 1)) % 2 ^ 16)
  obtain ⟨m₂, G₂, htest, -, h₂, -, hheld⟩ := h₁.testFree_leaf ht hx hb hleaf₁ (Nat.lt_succ_self n)
  have ht₂ : G₂.Held 0 t := (hheld 0 t).mpr ⟨ht, htx⟩
  have h₃ : Pool tid (m₂.setInUse t 0) G₂ := h₂.store ht₂ (by decide) _
  obtain ⟨m₃, G₃, hrun, -⟩ := cxlFree_own h₃.inv h₃.heads (by decide) ht₂
  refine ⟨m₃, ?_⟩
  unfold CxlRef.destroy
  simp only
  rw [if_neg (fun hc => ht0 hc.1), hone, if_neg (fun hc => hc hcnt), htest, Option.bind_some]
  exact hrun

/-- What the destruction of the last handle to an object without references does: both blocks are free, the
others see nothing, and only words of the two blocks change. -/
structure LastDestroyed (tid t x b : Nat) (m m' : Shm) (G G' : BlockLists) : Prop where
  held : ∀ k y, G'.Held k y ↔ G.Held k y ∧ y ≠ x ∧ y ≠ t
  busy : Busy tid m → Busy tid m'
  others : KeepsOthers tid m m'
  era : EraBounded m → EraBounded m'
  word : ∀ a, m'.word a ≠ m.word a → (∃ d < 16, a = t + d) ∨ ∃ d < sizeofCxlObj, a = x + d

/-- **The last handle is destroyed.** -/
theorem Pool.destroy_last (h : Pool tid m G) (ht : G.Held 0 t) (hx : G.Held b x) (hb : 3 ≤ b)
    (hfit : sizeofCxlObj + 8 * n ≤ binSize b) (hone : m.rootRefCnt t = 1) (hleaf : Leaf m t x n) {data : Nat}
    (hrun : CxlRef.destroy fuel tid ⟨t, data⟩ m = some m') :
    ∃ G', Pool tid m' G' ∧ LastDestroyed tid t x b m m' G G' := by
  have ht0 : t ≠ 0 := block_ne_zero ht.block.2
  have hx0 : x ≠ 0 := block_ne_zero hx.block.2
  have hlarge := binSize_large hb
  have hapart := h.root_object_ne ht hx hb
  have htx : t ≠ x := hapart 0 0 (by decide) (by omega)
  unfold CxlRef.destroy at hrun
  simp only at hrun
  rw [if_neg (fun hc => ht0 hc.1), hone] at hrun
  -- the count is 0 then
  have hcnt : (m.setRootRefCnt t ((1 + (2 ^ 16 - 1)) % 2 ^ 16)).rootRefCnt t = 0 := rootRefCnt_setRootRefCnt ..
  have h₁ : Pool tid (m.setRootRefCnt t ((1 + (2 ^ 16 - 1)) % 2 ^ 16)) G := h.store ht (by decide) _
  have hword₁ : ∀ a, a ≠ t + 8 → (m.setRootRefCnt t ((1 + (2 ^ 16 - 1)) % 2 ^ 16)).word a = m.word a :=
    fun a ha => setRootRefCnt_word_of_ne m t _ ha
  have hsas₁ : (m.setRootRefCnt t ((1 + (2 ^ 16 - 1)) % 2 ^ 16)).sas = m.sas := rfl
  have hothers₁ : KeepsOthers tid m (m.setRootRefCnt t ((1 + (2 ^ 16 - 1)) % 2 ^ 16)) :=
    .of_same (fun _ _ => rfl) rfl rfl
  have hera₁ : (m.setRootRefCnt t ((1 + (2 ^ 16 - 1)) % 2 ^ 16)).eraCell = m.eraCell := rfl
  have hleaf₁ := hleaf.setRootRefCnt h ht hx hb hfit ((1 + (2 ^ 16 - 1)) % 2 ^ 16)
  generalize m.setRootRefCnt t ((1 + (2 ^ 16 - 1)) % 2 ^ 16) = m₁ at *
  rw [if_neg (fun hc => hc hcnt), Option.bind_eq_some_iff] at hrun
  obtain ⟨m₂, htest, hfree⟩ := hrun
  -- the object is freed
  have hcxl := testFree_leaf_some hx0 hleaf₁ htest
  have h₂ := h₁.use (h₁.unlinkUse ht hx hb)
  have hothers₂ : KeepsOthers tid m₁ (CxlShm.unlinkStores tid t x m₁) := .unlinkStores t x
  have hunlink : ∀ a, (CxlShm.unlinkStores tid t x m₁).word a ≠ m₁.word a → a = t ∨ a = x + 8 := by
    intro a ha
    by_contra hno
    rw [not_or] at hno
    rw [unlinkStores_word, Function.update_of_ne hno.1, Function.update_of_ne hno.2] at ha
    exact ha rfl
  have hobj : decide (b < 2) = false := decide_eq_false (by omega)
  rw [← hobj] at hcxl
  obtain ⟨m₂', G₂, hrun₂, hinv₂, hheads₂, htaken₂, hempty₂⟩ := cxlFree_own h₂.inv h₂.heads (by omega) hx
  obtain rfl := Option.some.inj (hcxl.symm.trans hrun₂)
  have hpool₂ : Pool tid m₂ G₂ := ⟨hinv₂, hheads₂, hempty₂ 2 h₂.small⟩
  have hcases₂ := cxlFree_own_others h₂.inv (by omega) hx hcxl
  have ht₂ : G₂.Held 0 t := (htaken₂.held 0 t).mpr ⟨ht, htx⟩
  -- and the RootRef
  have h₃ : Pool tid (m₂.setInUse t 0) G₂ := hpool₂.store ht₂ (by decide) _
  obtain ⟨m₃, G₃, hrun₃, hinv₃, hheads₃, htaken₃, hempty₃⟩ := cxlFree_own h₃.inv h₃.heads (by decide) ht₂
  obtain rfl := Option.some.inj (hfree.symm.trans hrun₃)
  have hothers₃ : KeepsOthers tid m₂ (m₂.setInUse t 0) := .of_same (fun _ _ => rfl) rfl rfl
  refine ⟨G₃, ⟨hinv₃, hheads₃, hempty₃ 2 h₃.small⟩, ⟨?_, ?_, ?_, ?_, ?_⟩⟩
  · intro k y
    rw [htaken₃.held, htaken₂.held, and_assoc]
  · intro hbusy
    have hbusy₁ := hbusy.congr h h₁ hsas₁
    have hbusy₂ := hbusy₁.congr h₁ h₂ (unlinkStores_sas ..)
    have hbusy₃ := hbusy₂.cxlFree_own h₂ (by omega) hx hcxl
    exact (hbusy₃.congr hpool₂ h₃ rfl).cxlFree_own h₃ (by decide) ht₂ hfree
  · have hlast := cxlFree_own_others h₃.inv (by decide) ht₂ hfree
    exact (((hothers₁.trans hothers₂).trans hcases₂).trans hothers₃).trans hlast
  · intro hera k
    have hera₁' : EraBounded m₁ := fun k => by
      rw [hera₁]
      exact hera k
    rw [htaken₃.eraCell]
    have hsame : (m₂.setInUse t 0).eraCell = m₂.eraCell := rfl
    rw [hsame, htaken₂.eraCell]
    exact hera₁'.unlinkStores t x k
  · intro a ha
    by_cases hroot : ∃ d < 16, a = t + d
    · exact Or.inl hroot
    · right
      have hne : ∀ d < 16, a ≠ t + d := fun d hd heq => hroot ⟨d, hd, heq⟩
      have hsame₃ : m'.word a = m₂.word a := by
        have hwiped : m'.word a = (m₂.setInUse t 0).word a := by
          by_contra hw
          obtain ⟨k, hk, hak⟩ := htaken₃.word a hw
          have hk2 : k < 2 := hk
          exact hne (8 * k) (by omega) hak
        rw [hwiped, setInUse_word_of_ne m₂ t 0 (hne 8 (by decide))]
      rw [hsame₃] at ha
      by_cases hsame₂ : m₂.word a = (CxlShm.unlinkStores tid t x m₁).word a
      · rw [hsame₂] at ha
        rw [← hword₁ a (hne 8 (by decide))] at ha
        rcases hunlink a ha with hat | hax
        · exact absurd hat (hne 0 (by decide))
        · exact ⟨8, by decide, hax⟩
      · obtain ⟨k, hk, hak⟩ := htaken₂.word a hsame₂
        rw [hobj] at hk
        have hk3 : k < 3 := hk
        refine ⟨8 * k, ?_, hak⟩
        simp only [sizeofCxlObj]
        omega

end Destroy

end CxlShm
