import CxlShm.RecoveryState

/-! # RecoveryQueues — the message queues of the crashed client

A queue it sends on loses the entries that are not published, and the published ones too when nobody
is attached; a queue it receives on loses the published ones. Every other entry stays.
-/

namespace CxlShm

open SlotCount Loop

variable {W : CrashWorld} {tid fuel : Nat} {m₀ m : Shm}

/-! ## §1 — one entry, one scan -/

/-- What releasing entries keeps. -/
structure ScanInv (W : CrashWorld) (m₀ m : Shm) : Prop where
  exact : HeapExact W.toObjHeap m
  era : EraBounded m
  kept : Kept W (fun _ => False) m₀ m
  segment : m.segment = m₀.segment

theorem ScanInv.trans {m' : Shm} (h : ScanInv W m₀ m) (h' : ScanInv W m m') : ScanInv W m₀ m' :=
  ⟨h'.exact, h'.era, h.kept.trans h'.kept (fun _ h => h) fun _ h => h, h'.segment.trans h.segment⟩

section Scan

variable (htid : tid < 2 ^ 16) (hfuel : W.objs.card + W.embBound < fuel)
include htid hfuel

/-- Releasing one entry of one of the client's queues. -/
theorem releaseEntry_exact {q k : Nat} (hq : q ∈ W.senders ++ W.receivers) (hk : k < messageBufferSize)
    (hx : HeapExact W.toObjHeap m) (hera : EraBounded m) :
    ∃ m', releaseEntry tid fuel q k m = some m' ∧ ScanInv W m m' ∧ m'.word (bufferSlot q k) = 0 ∧
      ∀ a ∈ W.roots, a ≠ bufferSlot q k → m'.word a = m.word a := by
  have hmem := CrashWorld.entry_mem (CrashWorld.queue_mem hq) hk
  unfold releaseEntry
  by_cases hz : m.word (bufferSlot q k) ≠ 0
  · rw [if_pos hz]
    obtain ⟨m', hrun, hrel, hera', hframe⟩ := recoveryTestFree_exact htid hfuel hx hera hmem
    refine ⟨m', hrun, ⟨hrel.exact, hera', ?_, hframe.segment⟩, hrel.cleared, fun a ha hne => ?_⟩
    · exact Kept.release (Or.inr ⟨q, hq, k, hk, rfl⟩) hrel hframe
    · exact hrel.root ha hne
  · rw [if_neg hz]
    exact ⟨m, rfl, ⟨hx, hera, Kept.refl, rfl⟩, not_not.mp hz, fun _ _ _ => rfl⟩

/-- **One scan** goes from entry `i` round to `stop` and releases what lies between. -/
theorem scanRing_exact {q i e : Nat} (stop : Shm → Nat) (hq : q ∈ W.senders ++ W.receivers)
    (hring : messageBufferSize < fuel) (hi : i < messageBufferSize) (he : e < messageBufferSize)
    (hstop : ∀ m', Kept W (fun _ => False) m m' → stop m' = e) (hx : HeapExact W.toObjHeap m)
    (hera : EraBounded m) :
    ∃ m', scanRing tid fuel q stop i m = some (e, m') ∧ ScanInv W m m' ∧
      (∀ t < (e + messageBufferSize - i) % messageBufferSize,
        m'.word (bufferSlot q ((i + t) % messageBufferSize)) = 0) ∧
      ∀ a ∈ W.roots, (∀ t < (e + messageBufferSize - i) % messageBufferSize,
        a ≠ bufferSlot q ((i + t) % messageBufferSize)) → m'.word a = m.word a := by
  simp only [messageBufferSize] at *
  let Inv : Nat → Nat × Shm → Prop := fun n p => ∃ t, t + n = (e + 16 - i) % 16 ∧
    p.1 = (i + t) % 16 ∧ ScanInv W m p.2 ∧ (∀ t' < t, p.2.word (bufferSlot q ((i + t') % 16)) = 0) ∧
    ∀ a ∈ W.roots, (∀ t' < t, a ≠ bufferSlot q ((i + t') % 16)) → p.2.word a = m.word a
  have hend : ∀ p, Inv 0 p → decide (p.1 ≠ stop p.2) = false := by
    rintro p ⟨t, ht, hp, hs, -⟩
    rw [hstop p.2 hs.kept, hp, decide_eq_false_iff_not, not_not]
    omega
  have hround : ∀ n p, Inv (n + 1) p → decide (p.1 ≠ stop p.2) = true ∧ ∃ p',
      ((releaseEntry tid fuel q p.1 p.2).map fun m' => ((p.1 + 1) % 16, m')) = some p' ∧ Inv n p' := by
    rintro n ⟨j, s⟩ ⟨t, ht, hp, hs, hzero, hroot⟩
    simp only at hp
    subst hp
    refine ⟨?_, ?_⟩
    · rw [hstop s hs.kept, decide_eq_true_iff]
      omega
    obtain ⟨s', hrun, hstep, hclear, hother⟩ :=
      releaseEntry_exact htid hfuel hq (k := (i + t) % 16) (Nat.mod_lt _ (by decide)) hs.exact hs.era
    refine ⟨((i + (t + 1)) % 16, s'), ?_, t + 1, by omega, rfl, hs.trans hstep, ?_, ?_⟩
    · rw [hrun]
      simp only [Option.map_some, Option.some.injEq, Prod.mk.injEq, and_true]
      omega
    · intro t' ht'
      rcases Nat.lt_succ_iff_lt_or_eq.mp ht' with hlt | rfl
      · have hmem := CrashWorld.entry_mem (CrashWorld.queue_mem hq) (k := (i + t') % 16)
          (Nat.mod_lt _ (by decide))
        exact hstep.kept.zero hmem (hzero t' hlt)
      · exact hclear
    · intro a ha hne
      rw [hother a ha (hne t (Nat.lt_succ_self t)),
        hroot a ha fun t' ht' => hne t' (Nat.lt_succ_of_lt ht')]
  obtain ⟨⟨j, m'⟩, hrun, t, ht, hp, hs, hzero, hroot⟩ := whileM_rule (s := (i, m)) Inv hend hround
    (by omega : (e + 16 - i) % 16 < fuel) ⟨0, Nat.zero_add _, (Nat.mod_eq_of_lt hi).symm,
      ⟨hx, hera, Kept.refl, rfl⟩, fun t' ht' => absurd ht' (Nat.not_lt_zero t'), fun _ _ _ => rfl⟩
  rw [Nat.add_zero] at ht
  subst ht
  have hj : j = e := by
    simp only at hp
    omega
  subst hj
  exact ⟨m', hrun, hs, hzero, hroot⟩

end Scan

/-! ## §2 — the fields of the queues -/

/-- The word with the ids of a queue. -/
def QueueIds (W : CrashWorld) (w : Nat) : Prop := ∃ q ∈ W.queues, w = q + 16

section Fields

variable {X : Nat → Prop} {q : Nat} (hq : q ∈ W.queues)
  (hk : Kept W X m₀ m) (hX : ∀ w, X w → QueueIds W w)
include hq hk hX

theorem Kept.queueWord {j : Nat} (hj : j < 5) (hj2 : j ≠ 2) : m.word (q + 8 * j) = m₀.word (q + 8 * j) := by
  refine hk.word _ (CrashWorld.queueWord_not_touches hq hj) fun hx => ?_
  obtain ⟨q', hq', he⟩ := hX _ hx
  exact hj2 (CrashWorld.queueWord_inj hq hq' hj (show 2 < 5 by decide) he).2

theorem Kept.queueStart : m.queueStart q = m₀.queueStart q := hk.queueWord hq hX (j := 0) (by decide) (by decide)
theorem Kept.queueEnd : m.queueEnd q = m₀.queueEnd q := hk.queueWord hq hX (j := 1) (by decide) (by decide)
theorem Kept.senderNext : m.senderNext q = m₀.senderNext q := hk.queueWord hq hX (j := 3) (by decide) (by decide)
theorem Kept.receiverNext : m.receiverNext q = m₀.receiverNext q :=
  hk.queueWord hq hX (j := 4) (by decide) (by decide)

theorem Kept.published (k : Nat) : Published m q k ↔ Published m₀ q k := by
  unfold Published
  rw [hk.queueStart hq hX, hk.queueEnd hq hX]

end Fields

/-- Writing the ids of a queue. -/
theorem Kept.queueIds {q v : Nat} (hq : q ∈ W.queues) : Kept W (QueueIds W) m (m.store (q + 16) v) := by
  have hnot : ¬ W.Touches (q + 16) := CrashWorld.queueWord_not_touches (j := 2) hq (by decide)
  refine Kept.write rfl (fun _ => rfl) (fun _ => Or.inl rfl) (fun _ => rfl) ?_ ?_
  · intro w hw
    exact Function.update_of_ne (fun he => hw ⟨q, hq, he⟩) ..
  · intro w _ ht
    exact Function.update_of_ne (fun he => hnot (by rw [← he]; exact ht)) ..

theorem Kept.setSenderId {q v : Nat} (hq : q ∈ W.queues) : Kept W (QueueIds W) m (m.setSenderId q v) :=
  Kept.queueIds hq

theorem Kept.setReceiverId {q v : Nat} (hq : q ∈ W.queues) :
    Kept W (QueueIds W) m (m.setReceiverId q v) :=
  Kept.queueIds hq

theorem HeapExact.queueIds {q v : Nat} (h : HeapExact W.toObjHeap m) (hq : q ∈ W.queues) :
    HeapExact W.toObjHeap (m.store (q + 16) v) := by
  have hnot : ¬ W.Touches (q + 16) := CrashWorld.queueWord_not_touches (j := 2) hq (by decide)
  refine h.write fun w ht => Function.update_of_ne ?_ ..
  rintro rfl
  exact hnot ht

/-! ## §3 — the queues it sends on -/

/-- The entries of a sender's queue that recovery releases. -/
def SenderDrops (m : Shm) (q k : Nat) : Prop := ¬ Published m q k ∨ m.receiverId q = 0

/-- Stage invariant with the queues `left` to go. -/
structure SendInv (W : CrashWorld) (m₀ : Shm) (left : List Nat) (m : Shm) : Prop where
  exact : HeapExact W.toObjHeap m
  era : EraBounded m
  kept : Kept W (QueueIds W) m₀ m
  segment : m.segment = m₀.segment
  ids : ∀ q ∈ left, m.word (q + 16) = m₀.word (q + 16)
  done : ∀ q ∈ W.senders, q ∉ left → (m.sas (segmentIdx q)).state = .abandon ∧
    ∀ k < messageBufferSize, SenderDrops m₀ q k → m.word (bufferSlot q k) = 0
  root : ∀ a ∈ W.roots, (∀ q ∈ W.senders, ∀ k < messageBufferSize, a = bufferSlot q k →
    ¬ SenderDrops m₀ q k) → m.word a = m₀.word a

section Senders

variable (htid : tid < 2 ^ 16) (hfuel : W.objs.card + W.embBound < fuel) (hring : messageBufferSize < fuel)
include htid hfuel hring

/-- The two scans of a queue the client sends on. -/
theorem senderScans_exact {q : Nat} (hq : q ∈ W.senders) (hs : m.queueStart q < messageBufferSize)
    (he : m.queueEnd q < messageBufferSize) (hx : HeapExact W.toObjHeap m) (hera : EraBounded m) :
    ∃ m', recoverySenderQueue tid fuel q m =
        some ((m'.setSenderId q 0).setSegmentState (segmentIdx q) .abandon) ∧
      ScanInv W m m' ∧ (∀ k < messageBufferSize, SenderDrops m q k → m'.word (bufferSlot q k) = 0) ∧
      ∀ a ∈ W.roots, (∀ k < messageBufferSize, a = bufferSlot q k → ¬ SenderDrops m q k) →
        m'.word a = m.word a := by
  have hqa : q ∈ W.senders ++ W.receivers := List.mem_append_left _ hq
  have hqm := CrashWorld.queue_mem hqa
  have hstart : ∀ m', Kept W (fun _ => False) m m' → m'.queueStart q = m.queueStart q :=
    fun m' hk => hk.queueStart hqm fun _ h => h.elim
  have hendq : ∀ m', Kept W (fun _ => False) m m' → m'.queueEnd q = m.queueEnd q :=
    fun m' hk => hk.queueEnd hqm fun _ h => h.elim
  obtain ⟨m₁, hrun₁, hs₁, hz₁, ho₁⟩ := releaseEntry_exact htid hfuel hqa he hx hera
  obtain ⟨m₂, hrun₂, hs₂, hz₂, ho₂⟩ := scanRing_exact htid hfuel (m := m₁)
    (fun m => m.queueStart q) hqa hring
    (i := (m.queueEnd q + 1) % messageBufferSize) (Nat.mod_lt _ (by decide)) hs
    (fun m' hk => hstart m' (hs₁.kept.trans hk (fun _ h => h) fun _ h => h)) hs₁.exact hs₁.era
  have hs₁₂ := hs₁.trans hs₂
  have hid : m₂.receiverId q = m.receiverId q := by
    unfold Shm.receiverId
    rw [hs₁₂.kept.word (q + 16) (CrashWorld.queueWord_not_touches (j := 2) hqm (by decide)) id]
  -- the entries from `end` on that are not published are gone
  have hunpub : ∀ k < messageBufferSize, ¬ Published m q k → m₂.word (bufferSlot q k) = 0 := by
    intro k hk hn
    unfold Published at hn
    by_cases hke : k = m.queueEnd q
    · subst hke
      exact hs₂.kept.zero (CrashWorld.entry_mem hqm hk) hz₁
    · have := hz₂ ((k + messageBufferSize - (m.queueEnd q + 1) % messageBufferSize) % messageBufferSize)
        (by simp only [messageBufferSize] at *; omega)
      rwa [show ((m.queueEnd q + 1) % messageBufferSize + (k + messageBufferSize -
        (m.queueEnd q + 1) % messageBufferSize) % messageBufferSize) % messageBufferSize = k by
          simp only [messageBufferSize] at *; omega] at this
  have hkeep : ∀ a ∈ W.roots, (∀ k < messageBufferSize, a = bufferSlot q k → Published m q k) →
      m₂.word a = m.word a := by
    intro a ha hpub
    rw [ho₂ a ha, ho₁ a ha]
    · intro hae
      have := hpub _ he hae
      unfold Published at this
      exact Nat.lt_irrefl _ this
    · intro t ht hae
      have := hpub _ (Nat.mod_lt _ (by decide)) hae
      unfold Published at this
      simp only [messageBufferSize] at *
      omega
  by_cases hr : m.receiverId q = 0
  case pos =>
    obtain ⟨m₃, hrun₃, hs₃, hz₃, ho₃⟩ := scanRing_exact htid hfuel (m := m₂)
      (fun m => m.queueEnd q) hqa hring hs he
      (fun m' hk => hendq m' (hs₁₂.kept.trans hk (fun _ h => h) fun _ h => h)) hs₁₂.exact hs₁₂.era
    refine ⟨m₃, ?_, hs₁₂.trans hs₃, ?_, ?_⟩
    · simp only [recoverySenderQueue, hrun₁, hrun₂, hrun₃, hid, hr, if_true, Option.map_some,
        Option.bind_eq_bind, Option.bind_some]
    · intro k hk _
      by_cases hp : Published m q k
      · unfold Published at hp
        have := hz₃ ((k + messageBufferSize - m.queueStart q) % messageBufferSize) hp
        rwa [show (m.queueStart q + (k + messageBufferSize - m.queueStart q) % messageBufferSize) %
          messageBufferSize = k by simp only [messageBufferSize] at *; omega] at this
      · exact hs₃.kept.zero (CrashWorld.entry_mem hqm hk) (hunpub k hk hp)
    · intro a ha hn
      have hnone : ∀ k < messageBufferSize, a ≠ bufferSlot q k := fun k hk hae => hn k hk hae (Or.inr hr)
      rw [ho₃ a ha fun t _ => hnone _ (Nat.mod_lt _ (by decide))]
      exact hkeep a ha fun k hk hae => absurd hae (hnone k hk)
  case neg =>
    refine ⟨m₂, ?_, hs₁₂, ?_, ?_⟩
    · simp only [recoverySenderQueue, hrun₁, hrun₂, hid, hr, if_false, Option.bind_eq_bind,
        Option.bind_some]
    · intro k hk hd
      exact hunpub k hk (hd.resolve_right hr)
    · intro a ha hn
      refine hkeep a ha fun k hk hae => ?_
      by_contra hp
      exact hn k hk hae (Or.inl hp)

/-- **One queue it sends on.** -/
theorem SendInv.queue {q : Nat} {left : List Nat} (h : SendInv W m₀ (q :: left) m)
    (hq : q ∈ W.senders) (hleft : ∀ q' ∈ left, q' ∈ W.senders) (hnot : q ∉ left)
    (hr : ∀ q ∈ W.queues, m₀.queueStart q < messageBufferSize ∧ m₀.queueEnd q < messageBufferSize) :
    ∃ m', recoverySenderQueue tid fuel q m = some m' ∧ SendInv W m₀ left m' ∧
      ∀ q' ∈ left, m'.senderNext q' = m.senderNext q' := by
  have hqm := (W.senders_mem q hq).1
  have hlm : ∀ q' ∈ left, q' ∈ W.queues := fun q' hq' => (W.senders_mem q' (hleft q' hq')).1
  have hdrops : ∀ k, SenderDrops m q k ↔ SenderDrops m₀ q k := by
    intro k
    unfold SenderDrops Shm.receiverId
    rw [h.kept.published hqm (fun _ h => h), h.ids q List.mem_cons_self]
  obtain ⟨m₁, hrun, hs, hz, ho⟩ := senderScans_exact htid hfuel hring hq
    (by rw [h.kept.queueStart hqm fun _ h => h]; exact (hr q hqm).1)
    (by rw [h.kept.queueEnd hqm fun _ h => h]; exact (hr q hqm).2) h.exact h.era
  have hids : Kept W (QueueIds W) m₁ ((m₁.setSenderId q 0).setSegmentState (segmentIdx q) .abandon) :=
    (Kept.setSenderId (v := 0) hqm).trans (Y := QueueIds W) Kept.setAbandon (fun _ h => h) fun _ h => h
  have hstep := hs.kept.trans hids (Z := QueueIds W) (fun _ h => h.elim) fun _ h => h
  have hroots : ∀ a ∈ W.roots,
      ((m₁.setSenderId q 0).setSegmentState (segmentIdx q) .abandon).word a = m₁.word a := by
    intro a ha
    refine Function.update_of_ne ?_ ..
    rintro rfl
    exact CrashWorld.queueWord_not_touches (j := 2) hqm (by decide) (Or.inl (ObjHeap.root_mem ha))
  refine ⟨_, hrun, ⟨?_, ?_, ?_, ?_, ?_, ?_, ?_⟩, ?_⟩
  · exact (hs.exact.queueIds hqm).write fun _ _ => rfl
  · exact hs.era
  · exact h.kept.trans hstep (fun _ h => h) fun _ h => h
  · exact hs.segment.trans h.segment
  · intro q' hq'
    have hqq : q' ≠ q := fun he => hnot (he ▸ hq')
    have hne : q' + 16 ≠ q + 16 := by omega
    show Function.update m₁.word (q + 16) _ (q' + 16) = _
    rw [Function.update_of_ne hne, hs.kept.word (q' + 16)
      (CrashWorld.queueWord_not_touches (j := 2) (hlm q' hq') (by decide)) id]
    exact h.ids q' (List.mem_cons_of_mem _ hq')
  · intro q' hq' hn
    by_cases hqq : q' = q
    · subst hqq
      refine ⟨by simp [Shm.setSegmentState], fun k hk hd => ?_⟩
      rw [hroots _ (CrashWorld.entry_mem hqm hk)]
      exact hz k hk ((hdrops k).mpr hd)
    · obtain ⟨hab, hclear⟩ := h.done q' hq' (by simp [hqq, hn])
      refine ⟨hstep.abandon hab, fun k hk hd => ?_⟩
      exact hstep.zero (CrashWorld.entry_mem (W.senders_mem q' hq').1 hk) (hclear k hk hd)
  · intro a ha hn
    rw [hroots a ha, ho a ha fun k hk hae hd => hn q hq k hk hae ((hdrops k).mp hd)]
    exact h.root a ha hn
  · intro q' hq'
    exact hstep.senderNext (hlm q' hq') fun _ h => h

/-- **The queues it sends on.** -/
theorem recoverySenderQueues_exact (hx : HeapExact W.toObjHeap m₀) (hera : EraBounded m₀)
    (hc : Chained (fun q => linkPtr (m₀.senderNext q)) (linkPtr (m₀.tls tid).senderQueue) W.senders)
    (hr : ∀ q ∈ W.queues, m₀.queueStart q < messageBufferSize ∧ m₀.queueEnd q < messageBufferSize)
    (hlen : W.senders.length < fuel) :
    ∃ m', recoverySenderQueues tid fuel m₀ = some m' ∧ SendInv W m₀ [] m' := by
  obtain ⟨m', hrun, -, -, hinv⟩ := walk_chain (s := m₀) (l := W.senders)
    (fun m q => linkPtr (m.senderNext q)) (recoverySenderQueue tid fuel)
    (fun l s => (∀ q ∈ l, q ∈ W.senders) ∧ l.Nodup ∧ SendInv W m₀ l s)
    (by
      rintro q l s ⟨hsub, hnd, hs⟩
      obtain ⟨hnot, hnd⟩ := List.nodup_cons.mp hnd
      have hsub' : ∀ q' ∈ l, q' ∈ W.senders := fun q' hq' => hsub q' (List.mem_cons_of_mem _ hq')
      obtain ⟨s', hs', hinv, hnext⟩ := hs.queue htid hfuel hring (hsub q List.mem_cons_self) hsub' hnot hr
      refine ⟨s', hs', ⟨hsub', hnd, hinv⟩, fun q' hq' => ?_⟩
      rw [hnext q' hq'])
    hlen hc ⟨fun _ h => h, W.senders_nodup, hx, hera, Kept.refl, rfl, fun _ _ => rfl,
      fun q hq hn => absurd hq hn, fun _ _ _ => rfl⟩
  exact ⟨m', hrun, hinv⟩

end Senders

/-! ## §4 — the queues it receives on -/

/-- Stage invariant with the queues `left` to go. -/
structure ReceiveInv (W : CrashWorld) (m₀ : Shm) (left : List Nat) (m : Shm) : Prop where
  exact : HeapExact W.toObjHeap m
  era : EraBounded m
  kept : Kept W (QueueIds W) m₀ m
  segment : m.segment = m₀.segment
  done : ∀ q ∈ W.receivers, q ∉ left → ∀ k < messageBufferSize, Published m₀ q k →
    m.word (bufferSlot q k) = 0
  root : ∀ a ∈ W.roots, (∀ q ∈ W.receivers, ∀ k < messageBufferSize, a = bufferSlot q k →
    ¬ Published m₀ q k) → m.word a = m₀.word a

section Receivers

variable (htid : tid < 2 ^ 16) (hfuel : W.objs.card + W.embBound < fuel) (hring : messageBufferSize < fuel)
include htid hfuel hring

/-- **One queue it receives on.** -/
theorem ReceiveInv.queue {q : Nat} {left : List Nat} (h : ReceiveInv W m₀ (q :: left) m)
    (hq : q ∈ W.receivers) (hleft : ∀ q' ∈ left, q' ∈ W.receivers)
    (hr : ∀ q ∈ W.queues, m₀.queueStart q < messageBufferSize ∧ m₀.queueEnd q < messageBufferSize) :
    ∃ m', recoveryReceiverQueue tid fuel q m = some m' ∧ ReceiveInv W m₀ left m' ∧
      ∀ q' ∈ left, m'.receiverNext q' = m.receiverNext q' := by
  have hqa : q ∈ W.senders ++ W.receivers := List.mem_append_right _ hq
  have hqm := (W.receivers_mem q hq).1
  have hlm : ∀ q' ∈ left, q' ∈ W.queues := fun q' hq' => (W.receivers_mem q' (hleft q' hq')).1
  have hstart := h.kept.queueStart hqm fun _ h => h
  have hend := h.kept.queueEnd hqm fun _ h => h
  obtain ⟨m₁, hrun, hs, hz, ho⟩ := scanRing_exact htid hfuel (m := m) (i := m.queueStart q)
    (fun m => m.queueEnd q) hqa hring (by rw [hstart]; exact (hr q hqm).1) (hr q hqm).2
    (fun m' hk => (hk.queueEnd hqm fun _ h => h.elim).trans hend) h.exact h.era
  rw [hstart] at hz ho
  have hids : Kept W (QueueIds W) m₁ (m₁.setReceiverId q 0) := Kept.setReceiverId hqm
  have hstep := hs.kept.trans hids (Z := QueueIds W) (fun _ h => h.elim) fun _ h => h
  have hroots : ∀ a ∈ W.roots, (m₁.setReceiverId q 0).word a = m₁.word a := by
    intro a ha
    refine Function.update_of_ne ?_ ..
    rintro rfl
    exact CrashWorld.queueWord_not_touches (j := 2) hqm (by decide) (Or.inl (ObjHeap.root_mem ha))
  refine ⟨m₁.setReceiverId q 0, ?_, ⟨hs.exact.queueIds hqm, hs.era, ?_, ?_, ?_, ?_⟩, ?_⟩
  · unfold recoveryReceiverQueue
    rw [hrun]
    rfl
  · exact h.kept.trans hstep (fun _ h => h) fun _ h => h
  · exact hs.segment.trans h.segment
  · intro q' hq' hn k hk hp
    have hmem := CrashWorld.entry_mem (W.receivers_mem q' hq').1 hk
    by_cases hqq : q' = q
    · subst hqq
      rw [hroots _ hmem]
      unfold Published at hp
      have := hz ((k + messageBufferSize - m₀.queueStart q') % messageBufferSize) hp
      have hstart' := (hr q' hqm).1
      rwa [show (m₀.queueStart q' + (k + messageBufferSize - m₀.queueStart q') % messageBufferSize) %
        messageBufferSize = k by simp only [messageBufferSize] at *; omega] at this
    · exact hstep.zero hmem (h.done q' hq' (by simp [hqq, hn]) k hk hp)
  · intro a ha hn
    rw [hroots a ha, ho a ha]
    · exact h.root a ha hn
    · intro t ht hae
      refine hn q hq _ (Nat.mod_lt _ (by decide)) hae ?_
      have hstart' := (hr q hqm).1
      unfold Published
      simp only [messageBufferSize] at *
      omega
  · intro q' hq'
    exact hstep.receiverNext (hlm q' hq') fun _ h => h

/-- **The queues it receives on.** -/
theorem recoveryReceiverQueues_exact (hx : HeapExact W.toObjHeap m₀) (hera : EraBounded m₀)
    (hc : Chained (fun q => linkPtr (m₀.receiverNext q)) (linkPtr (m₀.tls tid).receiverQueue)
      W.receivers)
    (hr : ∀ q ∈ W.queues, m₀.queueStart q < messageBufferSize ∧ m₀.queueEnd q < messageBufferSize)
    (hlen : W.receivers.length < fuel) :
    ∃ m', recoveryReceiverQueues tid fuel m₀ = some m' ∧ ReceiveInv W m₀ [] m' := by
  obtain ⟨m', hrun, -, hinv⟩ := walk_chain (s := m₀) (l := W.receivers)
    (fun m q => linkPtr (m.receiverNext q)) (recoveryReceiverQueue tid fuel)
    (fun l s => (∀ q ∈ l, q ∈ W.receivers) ∧ ReceiveInv W m₀ l s)
    (by
      rintro q l s ⟨hsub, hs⟩
      have hsub' : ∀ q' ∈ l, q' ∈ W.receivers := fun q' hq' => hsub q' (List.mem_cons_of_mem _ hq')
      obtain ⟨s', hs', hinv, hnext⟩ := hs.queue htid hfuel hring (hsub q List.mem_cons_self) hsub' hr
      refine ⟨s', hs', ⟨hsub', hinv⟩, fun q' hq' => ?_⟩
      rw [hnext q' hq'])
    hlen hc ⟨fun _ h => h, hx, hera, Kept.refl, rfl, fun q hq hn => absurd hq hn, fun _ _ _ => rfl⟩
  exact ⟨m', hrun, hinv⟩

end Receivers

end CxlShm
