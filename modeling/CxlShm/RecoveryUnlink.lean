import CxlShm.Recovery

/-! # RecoveryUnlink — what one unlink of the monitor does

`recovery_unlink_reference` meets the specification of a release, so `recovery_test_free` ends and is
exact; everything outside slots and object headers stays as it was.
-/

namespace CxlShm

open SlotCount Loop

/-! ## §1 — the frame -/

/-- The words the heap is about: its slots and the headers of its objects. -/
def ObjHeap.Touches (H : ObjHeap) (w : Nat) : Prop :=
  w ∈ H.slots ∨ ∃ o ∈ H.objs, ∃ j < 3, w = o + 8 * j

/-- What releasing slots leaves alone: thread-local states, page metadata, the owner and state of
every segment, and every word outside the heap. -/
structure ReleaseFrame (H : ObjHeap) (m m' : Shm) : Prop where
  tls : m'.tls = m.tls
  segment : m'.segment = m.segment
  threadId : ∀ i, (m'.sas i).threadId = (m.sas i).threadId
  state : ∀ i, (m'.sas i).state = (m.sas i).state
  word : ∀ w, ¬ H.Touches w → m'.word w = m.word w

theorem ReleaseFrame.refl {H : ObjHeap} (m : Shm) : ReleaseFrame H m m :=
  ⟨rfl, rfl, fun _ => rfl, fun _ => rfl, fun _ _ => rfl⟩

theorem ReleaseFrame.trans {H : ObjHeap} (m₁ m₂ m₃ : Shm) (h : ReleaseFrame H m₁ m₂)
    (h' : ReleaseFrame H m₂ m₃) : ReleaseFrame H m₁ m₃ := by
  refine ⟨h'.tls.trans h.tls, h'.segment.trans h.segment, ?_, ?_, ?_⟩
  · intro i
    rw [h'.threadId, h.threadId]
  · intro i
    rw [h'.state, h.state]
  · intro w hw
    rw [h'.word w hw, h.word w hw]

/-- Eras are 32-bit words. -/
def EraBounded (m : Shm) : Prop := ∀ k, m.eraCell k < 2 ^ 32

theorem getLenumFromInfo_lt (info : Nat) : getLenumFromInfo info < 2 ^ 32 :=
  Nat.mod_lt _ (by norm_num)

/-! ## §2 — freeing a block -/

/-- The words and the list entry a freed block gets; `own` when it lies in the client's segment. -/
structure Freed (b n : Nat) (own : Prop) (m m' : Shm) : Prop where
  tls : m'.tls = m.tls
  segment : m'.segment = m.segment
  eraCell : m'.eraCell = m.eraCell
  threadId : ∀ i, (m'.sas i).threadId = (m.sas i).threadId
  state : ∀ i, (m'.sas i).state = (m.sas i).state
  outside : ∀ w, (∀ k < n, w ≠ b + 8 * k) → m'.word w = m.word w
  wiped : ∀ k, 0 < k → k < n → m'.word (b + 8 * k) = 0
  head : own → m'.word b = 0

theorem recoveryCxlFree_freed (special : Bool) (tid b : Nat) (m : Shm) :
    Freed b (wipedWords special (m.page (pageOf b)).blockSize)
      ((m.segment (segmentIdx b)).threadId = tid) m (recoveryCxlFree special tid b m) := by
  have hn := wipedWords_pos special (m.page (pageOf b)).blockSize
  simp only [recoveryCxlFree]
  split
  case isTrue hne =>
    refine ⟨rfl, rfl, rfl, ?_, ?_, ?_, ?_, fun h => absurd h hne⟩
    · intro i
      by_cases hi : i = segmentIdx b
      · simp [Shm.pushThreadFree, Shm.zeroWords, hi]
      · simp [Shm.pushThreadFree, Shm.zeroWords, hi]
    · intro i
      by_cases hi : i = segmentIdx b
      · simp [Shm.pushThreadFree, Shm.zeroWords, hi]
      · simp [Shm.pushThreadFree, Shm.zeroWords, hi]
    · intro w hw
      rw [Shm.pushThreadFree_word_of_ne (show w ≠ b from hw 0 hn)]
      exact Shm.zeroWords_word_of_ne hw
    · intro k hk hkn
      rw [Shm.pushThreadFree_word_of_ne (by omega)]
      exact Shm.zeroWords_word_self hkn
  case isFalse =>
    refine ⟨rfl, rfl, rfl, fun _ => rfl, fun _ => rfl, ?_, ?_, fun _ => ?_⟩
    · intro w hw
      exact Shm.zeroWords_word_of_ne hw
    · intro k _ hkn
      exact Shm.zeroWords_word_self hkn
    · exact Shm.zeroWords_word_self (k := 0) hn

/-! ## §3 — the unlink -/

/-- The monitor's stores before a possible free. -/
def recoveryUnlinkStores (tid ref refed : Nat) (m : Shm) : Shm :=
  let info := m.refInfo refed
  let m₁ := if getLenumFromInfo info > m.era tid (getLcidFromInfo info) then
      m.storeEra tid (getLcidFromInfo info) (getLenumFromInfo info)
    else m
  let m₃ := (m₁.store (refed + 8)
    (packRefInfo tid ((getRefCntFromInfo info + (2 ^ 64 - 1)) % 2 ^ 64) (m.era tid tid))).store ref 0
  m₃.storeEra tid tid ((m₃.era tid tid + 1) % 2 ^ 32)

theorem recoveryUnlinkReference_eq (tid ref refed : Nat) (m : Shm) :
    recoveryUnlinkReference tid ref refed m =
      if getRefCntFromInfo (m.refInfo refed) = 1 then
        recoveryCxlFree false tid refed (recoveryUnlinkStores tid ref refed m)
      else recoveryUnlinkStores tid ref refed m := rfl

section Stores

variable {tid ref refed : Nat} {m : Shm}

@[simp] theorem recoveryUnlinkStores_tls : (recoveryUnlinkStores tid ref refed m).tls = m.tls := by
  unfold recoveryUnlinkStores
  simp only [Shm.storeEra_tls, Shm.store_tls]
  split <;> rfl

@[simp] theorem recoveryUnlinkStores_segment :
    (recoveryUnlinkStores tid ref refed m).segment = m.segment := by
  unfold recoveryUnlinkStores
  simp only [Shm.storeEra, Shm.store]
  split <;> rfl

@[simp] theorem recoveryUnlinkStores_sas : (recoveryUnlinkStores tid ref refed m).sas = m.sas := by
  unfold recoveryUnlinkStores
  simp only [Shm.storeEra, Shm.store]
  split <;> rfl

theorem recoveryUnlinkStores_word : (recoveryUnlinkStores tid ref refed m).word =
    Function.update (Function.update m.word (refed + 8)
      (packRefInfo tid ((getRefCntFromInfo (m.refInfo refed) + (2 ^ 64 - 1)) % 2 ^ 64) (m.era tid tid)))
      ref 0 := by
  unfold recoveryUnlinkStores
  simp only [Shm.storeEra_word, Shm.store_word]
  split <;> rfl

theorem EraBounded.storeEra (h : EraBounded m) {x y v : Nat} (hv : v < 2 ^ 32) :
    EraBounded (m.storeEra x y v) := by
  intro k
  by_cases hk : k = Shm.eraIdx x y
  · rw [hk]
    show Function.update m.eraCell _ v _ < _
    rwa [Function.update_self]
  · show Function.update m.eraCell _ v k < _
    rw [Function.update_of_ne hk]
    exact h k

theorem recoveryUnlinkStores_era (h : EraBounded m) :
    EraBounded (recoveryUnlinkStores tid ref refed m) := by
  unfold recoveryUnlinkStores
  refine EraBounded.storeEra ?_ (Nat.mod_lt _ (by norm_num))
  show EraBounded (Shm.store (Shm.store _ _ _) _ _)
  split
  · exact h.storeEra (getLenumFromInfo_lt _)
  · exact h

end Stores

/-- **One unlink is exact**, the count of its object being positive. -/
theorem recoveryUnlinkReference_unlinked {H : ObjHeap} {tid a : Nat} {m : Shm} (htid : tid < 2 ^ 16)
    (hera : EraBounded m) (ha : a ∈ H.slots) (ho : m.word a ∈ H.objs) (hpos : 0 < m.refCnt (m.word a)) :
    Unlinked H m a (recoveryUnlinkReference tid a (m.word a) m) ∧
      EraBounded (recoveryUnlinkReference tid a (m.word a) m) ∧
      ReleaseFrame H m (recoveryUnlinkReference tid a (m.word a) m) := by
  have hlt := getRefCntFromInfo_lt (m.refInfo (m.word a))
  have hstamp : getRefCntFromInfo (packRefInfo tid
      ((getRefCntFromInfo (m.refInfo (m.word a)) + (2 ^ 64 - 1)) % 2 ^ 64) (m.era tid tid)) =
      m.refCnt (m.word a) - 1 := by
    unfold Shm.refCnt at hpos ⊢
    rw [getRefCntFromInfo_pack htid (by omega) (show m.era tid tid < 2 ^ 32 from hera _)]
    omega
  have hun : Unlinked H m a (recoveryUnlinkStores tid a (m.word a) m) :=
    Unlinked.of_stores ha ho hstamp recoveryUnlinkStores_word
  have hframe : ReleaseFrame H m (recoveryUnlinkStores tid a (m.word a) m) := by
    refine ⟨recoveryUnlinkStores_tls, recoveryUnlinkStores_segment, ?_, ?_, ?_⟩
    · intro i
      rw [recoveryUnlinkStores_sas]
    · intro i
      rw [recoveryUnlinkStores_sas]
    · intro w hw
      have hwa : w ≠ a := fun he => hw (Or.inl (he ▸ ha))
      have hwo : w ≠ m.word a + 8 := fun he => hw (Or.inr ⟨_, ho, 1, by decide, he⟩)
      rw [recoveryUnlinkStores_word, Function.update_of_ne hwa, Function.update_of_ne hwo]
  rw [recoveryUnlinkReference_eq]
  by_cases hone : getRefCntFromInfo (m.refInfo (m.word a)) = 1
  case pos =>
    rw [if_pos hone]
    have hfree := recoveryCxlFree_freed false tid (m.word a) (recoveryUnlinkStores tid a (m.word a) m)
    rw [show wipedWords false _ = 3 from rfl] at hfree
    refine ⟨hun.wipe ha ho hone hfree.outside (hfree.wiped 1 (by decide) (by decide)), ?_, ?_⟩
    · intro k
      rw [hfree.eraCell]
      exact recoveryUnlinkStores_era hera k
    · refine ReleaseFrame.trans _ _ _ hframe ⟨hfree.tls, hfree.segment, hfree.threadId, hfree.state, ?_⟩
      intro w hw
      exact hfree.outside w fun k hk he => hw (Or.inr ⟨_, ho, k, hk, he⟩)
  case neg =>
    rw [if_neg hone]
    exact ⟨hun, recoveryUnlinkStores_era hera, hframe⟩

theorem recoveryUnlinkReference_spec (H : ObjHeap) {tid : Nat} (htid : tid < 2 ^ 16) :
    UnlinkSpec H EraBounded (ReleaseFrame H) (recoveryUnlinkReference tid) :=
  fun _ _ hx hera ha ho => recoveryUnlinkReference_unlinked htid hera ha ho (hx.refCnt_pos ha ho)

/-- **`recovery_test_free` of a root ends and is exact.** -/
theorem recoveryTestFree_exact {H : ObjHeap} {tid fuel : Nat} {m : Shm} {a : Nat}
    (htid : tid < 2 ^ 16) (hfuel : H.objs.card + H.embBound < fuel) (hx : HeapExact H m)
    (hera : EraBounded m) (ha : a ∈ H.roots) :
    ∃ m', recoveryTestFree tid fuel a m = some m' ∧ Released H m a m' ∧ EraBounded m' ∧
      ReleaseFrame H m m' :=
  releaseWith_exact (recoveryUnlinkReference_spec H htid) ReleaseFrame.refl ReleaseFrame.trans hfuel hx
    hera ha

end CxlShm
