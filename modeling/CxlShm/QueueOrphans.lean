import CxlShm.QueueSteps

/-! # QueueOrphans — recovery of a client leaves it at no end of a queue

The moves of the monitor, the runs, and what holds once the slot of a crashed client is free.
-/

namespace CxlShm

open Transition Loop

section Monitor

variable {S R : Nat → List Nat} {s s' : EndSys} {t q next : Nat}

/-! ## §1 — the walks over the lists -/

/-- Moves that write no end of a queue and leave every list where it starts. -/
structure Unwritten (s s' : EndSys) : Prop where
  pc : s'.pc = s.pc
  stage : s'.stage = s.stage
  ends : ∀ q, s.Handed q → SameEnds s.shm s'.shm q
  heads : ∀ t, (∀ a b, s.pc t ≠ .crashed a b) →
    (s'.shm.tls t).senderQueue = (s.shm.tls t).senderQueue ∧
      (s'.shm.tls t).receiverQueue = (s.shm.tls t).receiverQueue
  roots : ∀ t, s'.senderRoot t = s.senderRoot t ∧ s'.receiverRoot t = s.receiverRoot t

theorem EndInv.unwritten (h : EndInv S R s) (s' : EndSys) (hu : Unwritten s s') :
    SenderInv S s' ∧ ReceiverInv R s' ∧ BlockInv s' := by
  have hends : ∀ q, s.stage q ≠ .raw → SameEnds s.shm s'.shm q := fun q hq => hu.ends q (Or.inl hq)
  have hlinked : ∀ q, s.stage q = .linked → SameEnds s.shm s'.shm q :=
    fun q hq => hends q (linked_ne_raw hq)
  refine ⟨?_, ?_, ?_⟩
  · refine h.sender.congr (by rw [hu.stage]; exact fun _ => id) (by rw [hu.stage]; exact fun _ => id)
      (fun q hq => (hends q hq).senderId) (fun q hq => (hlinked q hq).senderNext)
      (fun t => (hu.roots t).1) (fun _ _ _ hb => by rw [hu.pc]; exact hb) ?_ ?_
    · intro t q hb
      rw [hu.pc] at hb
      rw [hu.stage]
      exact ⟨hb, (h.sender.built t q hb).1⟩
    · intro t q hb
      rw [hu.pc] at hb
      rw [(hends q (h.sender.built_ne_raw (t := t) (by rw [hb]; rfl))).senderNext,
        (hu.heads t (by rw [hb]; nofun)).1]
      exact h.sender.next t q hb
  · refine h.receiver.congr (by rw [hu.stage]; exact fun _ => Or.inl) ?_
      (by rw [hu.stage]; exact fun _ => id) ?_
      (fun t q hq => (hlinked q (h.receiver.mem t q hq).2.1).receiverNext) (fun t => (hu.roots t).2)
      (by rw [hu.pc]; exact fun _ _ => id) (fun _ => by rw [hu.pc]) ?_
    · intro q hq
      rw [hu.stage] at hq
      rw [(hends q (by rw [hq]; nofun)).receiverId]
      exact h.receiver.fresh q hq
    · intro q hq
      exact (hends q (by rcases hq with hq | hq <;> rw [hq] <;> nofun)).receiverId
    · intro t q hb
      rw [hu.pc] at hb
      rw [(hlinked q (h.receiver.attaching t q (by rw [hb]; rfl)).1).receiverNext,
        (hu.heads t (by rw [hb]; nofun)).2]
      exact h.receiver.next t q hb
  · refine h.block.congr hu.stage ?_ ?_ ?_ ?_ (fun _ => by rw [hu.pc]) ?_
    all_goals rw [hu.pc]
    · exact fun _ _ => id
    · exact fun _ _ => id
    · exact fun _ _ => id
    · exact h.block.words
    · exact h.block.testing

/-- The monitor goes on without a store: only its place changes. -/
structure Advanced (s s' : EndSys) : Prop where
  shm : s'.shm = s.shm
  pc : s'.pc = s.pc
  stage : s'.stage = s.stage
  senderRoot : ∀ t, s'.senderRoot t = s.senderRoot t
  receiverRoot : ∀ t, s'.receiverRoot t = s.receiverRoot t
  unmarking : ∀ t q next, s'.mon ≠ .markAbandon t q next ∧ s.mon ≠ .markAbandon t q next

theorem EndInv.advance (h : EndInv S R s) (ha : Advanced s s') (hmon : MonInv s') :
    EndInv S R s' := by
  obtain ⟨hs, hr, hb⟩ := h.unwritten s' ⟨ha.pc, ha.stage, fun q _ => by rw [ha.shm]; exact .refl _ q,
    fun _ _ => by rw [ha.shm]; exact ⟨rfl, rfl⟩, fun t => ⟨ha.senderRoot t, ha.receiverRoot t⟩⟩
  refine ⟨hs, hr, hb, ?_, hmon⟩
  refine h.seg.congr h.sender (by rw [ha.stage]; exact fun _ => Iff.rfl)
    (fun q _ => SameSeg.of_sas (by rw [ha.shm]) q) (by rw [ha.pc]; exact fun _ _ => id) ?_ ?_
  · intro u q next
    exact ⟨fun hu => absurd hu (ha.unmarking u q next).1, fun hu => absurd hu (ha.unmarking u q next).2⟩
  · rw [ha.pc]
    exact h.seg.unlinked

/-- The place of the monitor with client `t` crashed. -/
theorem EndInv.monAt (h : EndInv S R s) {mon : MonPc} (hpc : s'.pc = s.pc)
    (htls : s'.shm.tls = s.shm.tls) (hmon : s'.mon = mon) (hclient : ∀ u, mon.client = some u → ∃ a b, s.pc u = .crashed a b)
    (hheads : ∀ u, mon = .release u → (s.shm.tls u).senderQueue = 0 ∧
      (s.shm.tls u).receiverQueue = 0)
    (hsender : ∀ u q next, mon = .storeSenderId u q next → next = s'.shm.senderNext q)
    (hreceiver : ∀ u q next, mon = .storeReceiverId u q next → next = s'.shm.receiverNext q)
    (hsegs : ∀ u i q b, mon = .segments u i → s.pc u = .crashed (some q) b → i ≤ segmentIdx q)
    (hlate : ∀ u q b, mon = .resetTls u ∨ mon = .release u → s.pc u ≠ .crashed (some q) b) :
    MonInv s' := by
  refine ⟨?_, ?_, ?_, ?_, ?_, ?_, ?_⟩
  · rw [hmon, hpc]
    exact hclient
  · rw [hpc]
    exact h.mon.range
  · rw [hmon, hpc, htls]
    rintro u (hu | hu)
    · exact h.mon.heads u (Or.inl hu)
    · exact hheads u hu
  · rw [hmon]
    exact hsender
  · rw [hmon]
    exact hreceiver
  · rw [hmon, hpc]
    exact hsegs
  · rw [hmon, hpc]
    exact hlate

/-- The roots for the client under recovery and for the others. -/
theorem roots_of_client (s s' : EndSys) (hshm : s'.shm = s.shm) (hnew : s'.mon.client = some t)
    (hold : s.mon.client = some t) (hs : s'.mon.senderCursor = s.mon.senderCursor)
    (hr : s'.mon.receiverCursor (linkPtr (s.shm.tls t).receiverQueue) =
      s.mon.receiverCursor (linkPtr (s.shm.tls t).receiverQueue)) (u : Nat) :
    s'.senderRoot u = s.senderRoot u ∧ s'.receiverRoot u = s.receiverRoot u := by
  unfold EndSys.senderRoot EndSys.receiverRoot
  rw [hnew, hold, hs, hshm]
  refine ⟨rfl, ?_⟩
  split
  · rename_i hu
    rw [← Option.some.inj hu, hr]
  · rfl

/-- The end of the sender list, and the next queue on it. -/
theorem EndInv.senders (h : EndInv S R s) {p : Nat} (hmon : s.mon = .senders t p) :
    EndInv S R s.monitor := by
  have hcl : s.mon.client = some t := by rw [hmon]; rfl
  have hcrash := h.mon.client t hcl
  simp only [EndSys.monitor, hmon]
  split
  · rename_i hp
    have hroots := roots_of_client s { s with mon := .receivers t (s.shm.tls t).receiverQueue } rfl rfl hcl
      (by rw [hmon, hp]; rfl) (by rw [hmon]; rfl)
    refine h.advance ⟨rfl, rfl, rfl, fun u => (hroots u).1, fun u => (hroots u).2, ?_⟩
      (h.monAt rfl rfl rfl ?_ nofun nofun nofun nofun ?_)
    · rw [hmon]
      exact fun _ _ _ => ⟨nofun, nofun⟩
    · rintro u ⟨⟩
      exact hcrash
    · rintro u q b (hu | hu) <;> cases hu
  · rename_i hp
    have hroots := roots_of_client s { s with mon := .storeSenderId t p (s.shm.senderNext p) } rfl rfl hcl
      (by rw [hmon]; exact (if_neg hp).symm) (by rw [hmon]; rfl)
    refine h.advance ⟨rfl, rfl, rfl, fun u => (hroots u).1, fun u => (hroots u).2, ?_⟩
      (h.monAt rfl rfl rfl ?_ nofun ?_ nofun nofun ?_)
    · rw [hmon]
      exact fun _ _ _ => ⟨nofun, nofun⟩
    · rintro u ⟨⟩
      exact hcrash
    · rintro u q next ⟨⟩
      rfl
    · rintro u q b (hu | hu) <;> cases hu

theorem EndInv.receivers (h : EndInv S R s) {p : Nat} (hmon : s.mon = .receivers t p) :
    EndInv S R s.monitor := by
  have hcl : s.mon.client = some t := by rw [hmon]; rfl
  have hcrash := h.mon.client t hcl
  simp only [EndSys.monitor, hmon]
  split
  · rename_i hp
    have hroots := roots_of_client s { s with mon := .objects t } rfl rfl hcl
      (by rw [hmon]; rfl) (by rw [hmon, hp]; rfl)
    refine h.advance ⟨rfl, rfl, rfl, fun u => (hroots u).1, fun u => (hroots u).2, ?_⟩
      (h.monAt rfl rfl rfl ?_ nofun nofun nofun nofun ?_)
    · rw [hmon]
      exact fun _ _ _ => ⟨nofun, nofun⟩
    · rintro u ⟨⟩
      exact hcrash
    · rintro u q b (hu | hu) <;> cases hu
  · rename_i hp
    have hroots := roots_of_client s { s with mon := .storeReceiverId t p (s.shm.receiverNext p) } rfl rfl hcl
      (by rw [hmon]; rfl) (by rw [hmon]; exact (if_neg hp).symm)
    refine h.advance ⟨rfl, rfl, rfl, fun u => (hroots u).1, fun u => (hroots u).2, ?_⟩
      (h.monAt rfl rfl rfl ?_ nofun nofun ?_ nofun ?_)
    · rw [hmon]
      exact fun _ _ _ => ⟨nofun, nofun⟩
    · rintro u ⟨⟩
      exact hcrash
    · rintro u q next ⟨⟩
      rfl
    · rintro u q b (hu | hu) <;> cases hu

/-- The monitor takes up a crashed client. -/
theorem EndInv.inspect (h : EndInv S R s) (hmon : s.mon = .idle)
    (hcrash : ∃ a b, s.pc t = .crashed a b) :
    EndInv S R { s with mon := .senders t (s.shm.tls t).senderQueue } := by
  have hnone : ∀ u, s.mon.client ≠ some u := by
    rw [hmon]
    nofun
  refine h.advance ⟨rfl, rfl, rfl, ?_, ?_, ?_⟩ (h.monAt rfl rfl rfl ?_ nofun nofun nofun nofun ?_)
  · intro u
    rw [EndSys.senderRoot_of_ne (hnone u)]
    unfold EndSys.senderRoot
    split
    · rename_i hu
      rw [← Option.some.inj hu]
      rfl
    · rfl
  · intro u
    rw [EndSys.receiverRoot_of_ne (hnone u)]
    unfold EndSys.receiverRoot
    split
    · rename_i hu
      rw [← Option.some.inj hu]
      rfl
    · rfl
  · rw [hmon]
    exact fun _ _ _ => ⟨nofun, nofun⟩
  · rintro u ⟨⟩
    exact hcrash
  · rintro u q b (hu | hu) <;> cases hu

/-- The queue the monitor has read is the first of what is left. -/
theorem EndInv.first_sender (h : EndInv S R s) (hmon : s.mon = .storeSenderId t q next) :
    ∃ l, S t = q :: l ∧ q ∉ l ∧
      Chained (fun q => linkPtr (s.shm.senderNext q)) (linkPtr next) l := by
  have hc := h.sender.chain t
  have hnd := h.sender.nodup t
  rw [EndSys.senderRoot_of_client (by rw [hmon]; rfl), hmon] at hc
  cases hl : S t with
  | nil =>
    rw [hl] at hc
    cases hc
  | cons x l =>
    rw [hl] at hc hnd
    obtain ⟨hx, hrest⟩ := hc
    have hxq : q = x := Option.some.inj hx
    subst hxq
    rw [h.mon.senderNext t q next hmon]
    exact ⟨l, rfl, (List.nodup_cons.mp hnd).1, hrest⟩

theorem EndInv.first_receiver (h : EndInv S R s) (hmon : s.mon = .storeReceiverId t q next) :
    ∃ l, R t = q :: l ∧ q ∉ l ∧
      Chained (fun q => linkPtr (s.shm.receiverNext q)) (linkPtr next) l := by
  have hc := h.receiver.chain t
  have hnd := h.receiver.nodup t
  rw [EndSys.receiverRoot_of_client (by rw [hmon]; rfl), hmon] at hc
  cases hl : R t with
  | nil =>
    rw [hl] at hc
    cases hc
  | cons x l =>
    rw [hl] at hc hnd
    obtain ⟨hx, hrest⟩ := hc
    have hxq : q = x := Option.some.inj hx
    subst hxq
    rw [h.mon.receiverNext t q next hmon]
    exact ⟨l, rfl, (List.nodup_cons.mp hnd).1, hrest⟩

/-- Taking the first queue off the list of `t`. -/
theorem mem_tail {L : Nat → List Nat} {l : List Nat} (hl : L t = q :: l) (hq : q ∉ l) {u q' : Nat} :
    q' ∈ Function.update L t l u ↔ q' ∈ L u ∧ (u = t → q' ≠ q) := by
  by_cases hut : u = t
  · subst hut
    rw [Function.update_self, hl, List.mem_cons]
    constructor
    · intro hq'
      refine ⟨Or.inr hq', fun _ => ?_⟩
      rintro rfl
      exact hq hq'
    · rintro ⟨hq' | hq', hne⟩
      · exact absurd hq' (hne rfl)
      · exact hq'
  · rw [Function.update_of_ne hut]
    exact ⟨fun hq' => ⟨hq', fun hu => absurd hu hut⟩, fun hq' => hq'.1⟩

theorem nodup_tail {L : Nat → List Nat} {l : List Nat} (hl : L t = q :: l)
    (hL : ∀ u, (L u).Nodup) (u : Nat) : (Function.update L t l u).Nodup := by
  by_cases hut : u = t
  · subst hut
    rw [Function.update_self]
    have hnd := hL u
    rw [hl] at hnd
    exact (List.nodup_cons.mp hnd).2
  · rw [Function.update_of_ne hut]
    exact hL u

/-- `sender_msg_queue->sender_id = 0`. -/
theorem EndInv.clearSenderId (h : EndInv S R s) (hmon : s.mon = .storeSenderId t q next) :
    ∃ S', EndInv S' R s.monitor := by
  obtain ⟨l, hl, hql, hchain⟩ := h.first_sender hmon
  have hqS : q ∈ S t := by
    rw [hl]
    exact List.mem_cons_self
  obtain ⟨ht0, hst, -⟩ := h.sender.mem t q hqS
  have hcl : s.mon.client = some t := by rw [hmon]; rfl
  have hq : s.Handed q := Or.inl (linked_ne_raw hst)
  simp only [EndSys.monitor, hmon]
  generalize hs' : ({ s with mon := .markAbandon t q next, shm := s.shm.setSenderId q 0 } : EndSys) = s'
  have hm' : s'.mon = .markAbandon t q next := by rw [← hs']
  have hpc' : s'.pc = s.pc := by rw [← hs']
  have hstage' : s'.stage = s.stage := by rw [← hs']
  have htls' : s'.shm.tls = s.shm.tls := by rw [← hs']; rfl
  have hsas' : ∀ q', SameSeg s.shm s'.shm q' := fun q' => SameSeg.of_sas (by rw [← hs']; rfl) q'
  have hothers : ∀ q', s.Handed q' → q' ≠ q → SameEnds s.shm s'.shm q' := by
    intro q' hq' hne
    rw [← hs']
    exact h.others hq (by decide) q' hq' hne
  have hzero : s'.shm.senderId q = 0 := by
    rw [← hs']
    exact setSenderId_senderId (by decide)
  have hkeep : ∀ q', s.Handed q' → s'.shm.receiverId q' = s.shm.receiverId q' ∧
      s'.shm.senderNext q' = s.shm.senderNext q' ∧
      s'.shm.receiverNext q' = s.shm.receiverNext q' := by
    intro q' hq'
    by_cases hqq : q' = q
    · rw [hqq, ← hs']
      exact ⟨setSenderId_receiverId (by decide), setSenderId_next⟩
    · have hends := hothers q' hq' hqq
      exact ⟨hends.receiverId, hends.senderNext, hends.receiverNext⟩
  have hlinked : ∀ {q'}, s.stage q' = .linked → s.Handed q' := fun hq' => Or.inl (linked_ne_raw hq')
  have hroots : ∀ u, (u ≠ t → s'.senderRoot u = s.senderRoot u) ∧
      s'.receiverRoot u = s.receiverRoot u := by
    intro u
    unfold EndSys.senderRoot EndSys.receiverRoot
    rw [hm', hmon, htls']
    refine ⟨fun hut => ?_, rfl⟩
    have hne : ¬ some t = some u := fun hu => hut (Option.some.inj hu).symm
    exact (if_neg hne).trans (if_neg hne).symm
  refine ⟨Function.update S t l, ?_, ?_, ?_, ?_, ?_⟩
  · refine ⟨?_, nodup_tail hl h.sender.nodup, ?_, ?_, ?_, ?_⟩
    · intro u
      have hcongr : ∀ {first l'}, Chained (fun q => linkPtr (s.shm.senderNext q)) first l' →
          l' ⊆ S u → Chained (fun q => linkPtr (s'.shm.senderNext q)) first l' :=
        fun hc hsub => hc.congr fun q' hq' => by
          simp only [(hkeep q' (hlinked (h.sender.mem u q' (hsub hq')).2.1)).2.1]
      by_cases hut : u = t
      · subst hut
        rw [Function.update_self, EndSys.senderRoot_of_client (by rw [hm']; rfl), hm']
        refine hcongr hchain ?_
        rw [hl]
        exact List.subset_cons_self q l
      · rw [Function.update_of_ne hut, (hroots u).1 hut]
        exact hcongr (h.sender.chain u) (List.Subset.refl _)
    · intro u q' hq'
      obtain ⟨hq', hne⟩ := (mem_tail hl hql).mp hq'
      obtain ⟨hu, hst', hid⟩ := h.sender.mem u q' hq'
      refine ⟨hu, by rw [hstage']; exact hst', ?_⟩
      rw [(hothers q' (hlinked hst') ?_).senderId]
      · exact hid
      · rintro rfl
        exact hne (hid.symm.trans (h.sender.mem t q' hqS).2.2) rfl
    · intro u q' hst' hid hu
      rw [hstage'] at hst'
      have hqq : q' ≠ q := by
        rintro rfl
        exact hu (hid.symm.trans hzero)
      rw [(hothers q' (Or.inl hst') hqq).senderId] at hid
      rw [hpc']
      exact (h.sender.all u q' hst' hid hu).imp
        (fun hmem => (mem_tail hl hql).mpr ⟨hmem, fun _ => hqq⟩) id
    · intro u q' hu
      rw [hpc'] at hu
      rw [hstage', (hothers q' (Or.inl (h.sender.built_ne_raw hu)) ?_).senderId]
      · exact h.sender.built u q' hu
      · rintro rfl
        exact h.sender.built_ne_linked hu hst
    · intro u q' hu
      rw [hpc'] at hu
      rw [htls', (hkeep q' (Or.inl (h.sender.built_ne_raw (t := u) (by rw [hu]; rfl)))).2.1]
      exact h.sender.next u q' hu
  · refine h.receiver.congr (by rw [hstage']; exact fun _ => Or.inl) ?_
      (by rw [hstage']; exact fun _ => id) ?_ ?_ (fun u => (hroots u).2)
      (by rw [hpc']; exact fun _ _ => id) (fun _ => by rw [hpc']) ?_
    · intro q' hst'
      rw [hstage'] at hst'
      rw [(hkeep q' (Or.inl (by rw [hst']; nofun))).1]
      exact h.receiver.fresh q' hst'
    · intro q' hst'
      exact (hkeep q' (Or.inl (by rcases hst' with hst' | hst' <;> rw [hst'] <;> nofun))).1
    · intro u q' hq'
      exact (hkeep q' (hlinked (h.receiver.mem u q' hq').2.1)).2.2
    · intro u q' hu
      rw [hpc'] at hu
      have hst' := (h.receiver.attaching u q' (by rw [hu]; rfl)).1
      rw [(hkeep q' (hlinked hst')).2.2, htls']
      exact h.receiver.next u q' hu
  · refine h.block.congr hstage' ?_ ?_ ?_ ?_ (fun _ => by rw [hpc']) ?_
    all_goals rw [hpc']
    · exact fun _ _ => id
    · exact fun _ _ => id
    · exact fun _ _ => id
    · exact h.block.words
    · exact h.block.testing
  · have hown := h.seg.mem t q hqS
    refine ⟨?_, ?_, ?_, ?_, ?_⟩
    · intro u q' hq'
      rw [(hsas' q').1]
      exact h.seg.mem u q' ((mem_tail hl hql).mp hq').1
    · intro u q' hu
      rw [hpc'] at hu
      rw [(hsas' q').1]
      exact h.seg.built u q' hu
    · intro u q' next' hu
      rw [hm'] at hu
      injection hu with hut hqq
      rw [← hqq, ← hut, hstage', (hsas' q).1]
      exact ⟨hst, hown⟩
    · intro q' hst'
      rw [hstage'] at hst'
      rw [(hsas' q').1, (hsas' q').2, hm']
      obtain ⟨hne, hkept⟩ := h.seg.linked q' hst'
      refine ⟨hne, ?_⟩
      by_cases hqq : q' = q
      · exact Or.inr (Or.inr ⟨t, next, by rw [hqq]⟩)
      · rcases hkept with hab | ⟨u, hu⟩ | ⟨u, next', hu⟩
        · exact Or.inl hab
        · exact Or.inr (Or.inl ⟨u, (mem_tail hl hql).mpr ⟨hu, fun _ => hqq⟩⟩)
        · rw [hmon] at hu
          cases hu
    · intro u q' b hu
      rw [hpc'] at hu
      obtain ⟨hun, hsend, -⟩ := h.seg.unlinked u q' b hu
      refine ⟨?_, ?_, ?_⟩
      · rw [(hsas' q').2]
        exact hun
      · intro q'' hq''
        exact hsend q'' ((mem_tail hl hql).mp hq'').1
      · intro q'' next' hu'
        rw [hm'] at hu'
        injection hu' with hut hqq
        rw [← hqq]
        exact hsend q (by rw [← hut]; exact hqS)
  · refine h.monAt hpc' htls' hm' ?_ nofun nofun nofun nofun ?_
    · rintro u ⟨⟩
      exact h.mon.client t hcl
    · rintro u q b (hu | hu) <;> cases hu

theorem owner_setSegmentState (m : Shm) (i j : Nat) (st : SegmentState) :
    (m.setSegmentState i st).owner j = m.owner j := by
  unfold Shm.owner Shm.setSegmentState
  by_cases hj : j = i
  · subst hj
    simp
  · simp [hj]

theorem abandoned_setSegmentState (m : Shm) (i j : Nat) :
    (m.setSegmentState i .abandon).abandoned j ↔ j = i ∨ m.abandoned j := by
  unfold Shm.abandoned Shm.setSegmentState
  by_cases hj : j = i
  · subst hj
    simp
  · simp [hj]

/-- Marking a segment that holds no block left unlinked. -/
theorem EndInv.mark (h : EndInv S R s) {i : Nat} (hpc : s'.pc = s.pc) (hstage : s'.stage = s.stage)
    (hsas : s'.shm.sas = (s.shm.setSegmentState i .abandon).sas)
    (hmark : ∀ t q next, s'.mon = .markAbandon t q next → s.mon = .markAbandon t q next)
    (hmarked : ∀ t q next, s.mon = .markAbandon t q next →
      s'.mon = .markAbandon t q next ∨ segmentIdx q = i)
    (hfree : ∀ t q b, s.pc t = .crashed (some q) b → segmentIdx q ≠ i) : SegInv S s' := by
  have hown : ∀ j, s'.shm.owner j = s.shm.owner j := by
    intro j
    rw [← owner_setSegmentState s.shm i j .abandon]
    unfold Shm.owner
    rw [hsas]
  have hab : ∀ j, s'.shm.abandoned j ↔ j = i ∨ s.shm.abandoned j := by
    intro j
    rw [← abandoned_setSegmentState]
    unfold Shm.abandoned
    rw [hsas]
  refine ⟨?_, ?_, ?_, ?_, ?_⟩
  · intro t q hq
    rw [hown]
    exact h.seg.mem t q hq
  · intro t q hq
    rw [hpc] at hq
    rw [hown]
    exact h.seg.built t q hq
  · intro t q next hm
    rw [hstage, hown]
    exact h.seg.marking t q next (hmark t q next hm)
  · intro q hst
    rw [hstage] at hst
    rw [hown, hab]
    obtain ⟨hne, hkept⟩ := h.seg.linked q hst
    refine ⟨hne, ?_⟩
    rcases hkept with hq | hq | ⟨t, next, hq⟩
    · exact Or.inl (Or.inr hq)
    · exact Or.inr (Or.inl hq)
    · rcases hmarked t q next hq with hq | hq
      · exact Or.inr (Or.inr ⟨t, next, hq⟩)
      · exact Or.inl (Or.inl hq)
  · intro t q b hq
    rw [hpc] at hq
    obtain ⟨hun, hsend, hm⟩ := h.seg.unlinked t q b hq
    refine ⟨?_, hsend, fun q' next hq' => hm q' next (hmark t q' next hq')⟩
    rw [hab]
    exact fun hq' => hq'.elim (hfree t q b hq) hun

/-- The segment of the queue is marked. -/
theorem EndInv.markAbandon (h : EndInv S R s) (hmon : s.mon = .markAbandon t q next) :
    EndInv S R s.monitor := by
  have hcl : s.mon.client = some t := by rw [hmon]; rfl
  have hroots : ∀ u, EndSys.senderRoot { s with
        mon := .senders t next
        shm := s.shm.setSegmentState (segmentIdx q) .abandon } u = s.senderRoot u ∧
      EndSys.receiverRoot { s with
        mon := .senders t next
        shm := s.shm.setSegmentState (segmentIdx q) .abandon } u = s.receiverRoot u := by
    intro u
    unfold EndSys.senderRoot EndSys.receiverRoot
    rw [hmon]
    exact ⟨rfl, rfl⟩
  simp only [EndSys.monitor, hmon]
  obtain ⟨hs, hr, hb⟩ := h.unwritten { s with
    mon := .senders t next
    shm := s.shm.setSegmentState (segmentIdx q) .abandon }
    ⟨rfl, rfl, fun q _ => ⟨rfl, rfl, rfl⟩, fun _ _ => ⟨rfl, rfl⟩, hroots⟩
  refine ⟨hs, hr, hb, h.mark (i := segmentIdx q) rfl rfl rfl nofun ?_ ?_,
    h.monAt rfl rfl rfl ?_ nofun nofun nofun nofun ?_⟩
  · intro u q' next' hu
    rw [hmon] at hu
    injection hu with _ hqq
    rw [hqq]
    exact Or.inr rfl
  · intro u q' b hu
    by_cases hut : u = t
    · rw [hut] at hu
      exact ((h.seg.unlinked t q' b hu).marking q next hmon).symm
    · -- the block lies in a segment of its builder
      intro hqq
      have hown := h.seg.built u q' (Or.inl (by rw [hu]; rfl))
      rw [hqq] at hown
      exact hut (hown.symm.trans (h.seg.marking t q next hmon).2)
  · rintro u ⟨⟩
    exact h.mon.client t hcl
  · rintro u q b (hu | hu) <;> cases hu

/-- An object page with a live block marks its segment. -/
theorem EndInv.objectPage (h : EndInv S R s) {pg : Nat × Nat}
    (hfree : ∀ q, s.stage q = .named ∨ s.stage q = .cleared → segmentIdx q ≠ pg.1) :
    EndInv S R { s with shm := s.shm.setSegmentState pg.1 .abandon } := by
  obtain ⟨hs, hr, hb⟩ := h.unwritten { s with shm := s.shm.setSegmentState pg.1 .abandon }
    ⟨rfl, rfl, fun q _ => ⟨rfl, rfl, rfl⟩, fun _ _ => ⟨rfl, rfl⟩, fun _ => ⟨rfl, rfl⟩⟩
  refine ⟨hs, hr, hb, h.mark (i := pg.1) rfl rfl rfl (fun _ _ _ => id) (fun _ _ _ => Or.inl) ?_,
    h.mon.congr rfl (fun _ _ => rfl) h.mon.range h.mon.heads (fun _ _ _ _ => rfl)
      (fun _ _ _ _ => rfl)⟩
  intro u q b hu
  exact hfree q (h.sender.built u q (by rw [hu]; rfl)).1

/-- Everything else leaves the invariant. -/
theorem EndInv.env (h : EndInv S R s) {m : Shm} (hen : (EndMove.env m).enabled s) :
    EndInv S R { s with shm := m } := by
  obtain ⟨hblocks, hheads⟩ := hen
  have hroots : ∀ u, EndSys.senderRoot { s with shm := m } u = s.senderRoot u ∧
      EndSys.receiverRoot { s with shm := m } u = s.receiverRoot u := by
    intro u
    unfold EndSys.senderRoot EndSys.receiverRoot
    rw [(hheads u).1, (hheads u).2]
    exact ⟨rfl, rfl⟩
  obtain ⟨hs, hr, hb⟩ := h.unwritten { s with shm := m }
    ⟨rfl, rfl, fun q hq => (hblocks q hq).1, fun u _ => hheads u, hroots⟩
  refine ⟨hs, hr, hb, ?_, ?_⟩
  · refine h.seg.congr h.sender (fun _ => Iff.rfl) ?_ (fun _ _ => id) (fun _ _ _ => Iff.rfl)
      h.seg.unlinked
    intro q hq
    refine (hblocks q ?_).2
    rcases hq with hq | ⟨u, hq | hq⟩
    · exact Or.inl (linked_ne_raw hq)
    · exact Or.inl (h.sender.built_ne_raw hq)
    · exact Or.inr ⟨u, hq⟩
  · refine h.mon.congr rfl (fun _ _ => rfl) h.mon.range ?_ ?_ ?_
    · intro u hu
      show (m.tls u).senderQueue = 0 ∧ (m.tls u).receiverQueue = 0
      rw [(hheads u).1, (hheads u).2]
      exact h.mon.heads u hu
    · intro u q next hm
      exact (hblocks q (Or.inl (linked_ne_raw (h.monitored.1 hm).2))).1.senderNext
    · intro u q next hm
      have hst := (h.receiver.mem u q (h.monitored.2 hm)).2.1
      exact (hblocks q (Or.inl (linked_ne_raw hst))).1.receiverNext

/-- `receiver_msg_queue->receiver_id = 0`. -/
theorem EndInv.clearReceiverId (h : EndInv S R s) (hmon : s.mon = .storeReceiverId t q next) :
    ∃ R', EndInv S R' s.monitor := by
  obtain ⟨l, hl, hql, hchain⟩ := h.first_receiver hmon
  have hqR : q ∈ R t := by
    rw [hl]
    exact List.mem_cons_self
  obtain ⟨ht0, hst, hqid⟩ := h.receiver.mem t q hqR
  have hcl : s.mon.client = some t := by rw [hmon]; rfl
  obtain ⟨a, b, hcrash⟩ := h.mon.client t hcl
  have hq : s.Handed q := Or.inl (linked_ne_raw hst)
  simp only [EndSys.monitor, hmon]
  generalize hs' : ({ s.setPc t ((s.pc t).dropUnnamed q) with
    mon := .receivers t next
    shm := s.shm.setReceiverId q 0 } : EndSys) = s'
  have hm' : s'.mon = .receivers t next := by rw [← hs']
  have hstage' : s'.stage = s.stage := by rw [← hs']; rfl
  have htls' : s'.shm.tls = s.shm.tls := by rw [← hs']; rfl
  have hsas' : ∀ q', SameSeg s.shm s'.shm q' := fun q' => SameSeg.of_sas (by rw [← hs']; rfl) q'
  -- the crashed client loses at most its unnamed queue
  have hpc' : ∀ u, u ≠ t → s'.pc u = s.pc u := by
    intro u hut
    rw [← hs']
    exact (EndSys.setPc_pc s t u _).trans (if_neg hut)
  have hpct : ∃ b', s'.pc t = .crashed a b' ∧ (b' = b ∧ b ≠ some q ∨ b' = none ∧ b = some q) := by
    have hself : s'.pc t = (s.pc t).dropUnnamed q := by
      rw [← hs']
      exact (EndSys.setPc_pc s t t _).trans (if_pos rfl)
    rw [hself, hcrash]
    cases b with
    | none => exact ⟨none, rfl, Or.inl ⟨rfl, nofun⟩⟩
    | some q' =>
      by_cases hqq : q' = q
      · exact ⟨none, if_pos hqq, Or.inr ⟨rfl, by rw [hqq]⟩⟩
      · exact ⟨some q', if_neg hqq, Or.inl ⟨rfl, fun hq' => hqq (Option.some.inj hq')⟩⟩
  obtain ⟨b', hpct, hb'⟩ := hpct
  have hlive : ∀ u x, s'.pc u = x → (∀ a b, x ≠ .crashed a b) → s.pc u = x := by
    intro u x hu hx
    by_cases hut : u = t
    · rw [hut, hpct] at hu
      exact absurd hu.symm (hx a b')
    · rw [hpc' u hut] at hu
      exact hu
  have hbuild : ∀ u, (s'.pc u).building = (s.pc u).building := by
    intro u
    by_cases hut : u = t
    · rw [hut, hpct, hcrash]
      rfl
    · rw [hpc' u hut]
  have hunn : ∀ u q', (s'.pc u).unnamed = some q' ↔ (s.pc u).unnamed = some q' ∧
      (u = t → q' ≠ q) := by
    intro u q'
    by_cases hut : u = t
    · subst hut
      rw [hpct, hcrash]
      show b' = some q' ↔ b = some q' ∧ _
      rcases hb' with ⟨hbb, hne⟩ | ⟨hbn, hbq⟩
      · rw [hbb]
        constructor
        · intro hbq
          refine ⟨hbq, fun _ => ?_⟩
          rintro rfl
          exact hne hbq
        · exact fun hbq => hbq.1
      · rw [hbn, hbq]
        constructor
        · nofun
        · rintro ⟨hqq, hne⟩
          exact absurd (Option.some.inj hqq).symm (hne rfl)
    · rw [hpc' u hut]
      exact ⟨fun hu => ⟨hu, fun h => absurd h hut⟩, fun hu => hu.1⟩
  have hatt : ∀ u q', (s'.pc u).attaching = some q' → (s.pc u).attaching = some q' := by
    intro u q' hu
    by_cases hut : u = t
    · rw [hut] at hu ⊢
      rw [hpct] at hu
      exact EndPc.attaching_of_unnamed ((hunn t q').mp (by rw [hpct]; exact hu)).1
    · rw [hpc' u hut] at hu
      exact hu
  have hothers : ∀ q', s.Handed q' → q' ≠ q → SameEnds s.shm s'.shm q' := by
    intro q' hq' hne
    rw [← hs']
    exact h.others hq (by decide) q' hq' hne
  have hzero : s'.shm.receiverId q = 0 := by
    rw [← hs']
    exact setReceiverId_receiverId (by decide)
  have hkeep : ∀ q', s.Handed q' → s'.shm.senderId q' = s.shm.senderId q' ∧
      s'.shm.senderNext q' = s.shm.senderNext q' ∧
      s'.shm.receiverNext q' = s.shm.receiverNext q' := by
    intro q' hq'
    by_cases hqq : q' = q
    · rw [hqq, ← hs']
      exact ⟨setReceiverId_senderId, setReceiverId_next⟩
    · have hends := hothers q' hq' hqq
      exact ⟨hends.senderId, hends.senderNext, hends.receiverNext⟩
  have hlinked : ∀ {q'}, s.stage q' = .linked → s.Handed q' := fun hq' => Or.inl (linked_ne_raw hq')
  have hroots : ∀ u, s'.senderRoot u = s.senderRoot u ∧
      (u ≠ t → s'.receiverRoot u = s.receiverRoot u) := by
    intro u
    unfold EndSys.senderRoot EndSys.receiverRoot
    rw [hm', hmon, htls']
    refine ⟨rfl, fun hut => ?_⟩
    have hne : ¬ some t = some u := fun hu => hut (Option.some.inj hu).symm
    exact (if_neg hne).trans (if_neg hne).symm
  refine ⟨Function.update R t l, ?_, ?_, ?_, ?_, ?_⟩
  · refine h.sender.congr (by rw [hstage']; exact fun _ => id) (by rw [hstage']; exact fun _ => id)
      (fun q' hq' => (hkeep q' (Or.inl hq')).1) (fun q' hq' => (hkeep q' (hlinked hq')).2.1)
      (fun u => (hroots u).1) (fun u q' _ hu => (hbuild u).trans hu) ?_ ?_
    · intro u q' hu
      rw [hbuild] at hu
      rw [hstage']
      exact ⟨hu, (h.sender.built u q' hu).1⟩
    · intro u q' hu
      have hu := hlive u _ hu nofun
      rw [htls', (hkeep q' (Or.inl (h.sender.built_ne_raw (t := u) (by rw [hu]; rfl)))).2.1]
      exact h.sender.next u q' hu
  · refine ⟨?_, nodup_tail hl h.receiver.nodup, ?_, ?_, ?_, ?_, ?_, ?_, ?_⟩
    · intro u
      have hcongr : ∀ {first l'}, Chained (fun q => linkPtr (s.shm.receiverNext q)) first l' →
          l' ⊆ R u → Chained (fun q => linkPtr (s'.shm.receiverNext q)) first l' :=
        fun hc hsub => hc.congr fun q' hq' => by
          simp only [(hkeep q' (hlinked (h.receiver.mem u q' (hsub hq')).2.1)).2.2]
      by_cases hut : u = t
      · subst hut
        rw [Function.update_self, EndSys.receiverRoot_of_client (by rw [hm']; rfl), hm']
        refine hcongr hchain ?_
        rw [hl]
        exact List.subset_cons_self q l
      · rw [Function.update_of_ne hut, (hroots u).2 hut]
        exact hcongr (h.receiver.chain u) (List.Subset.refl _)
    · intro u q' hq'
      obtain ⟨hq', hne⟩ := (mem_tail hl hql).mp hq'
      obtain ⟨hu, hst', hends⟩ := h.receiver.mem u q' hq'
      refine ⟨hu, by rw [hstage']; exact hst', ?_⟩
      by_cases hqq : q' = q
      · -- a queue on two lists is unnamed on the second, and the first is under recovery
        have hut : u ≠ t := fun hut => hne hut hqq
        rw [hqq] at hends ⊢
        right
        rw [hpc' u hut]
        rcases hends with hid | hun
        · rcases hqid with hid' | hun'
          · exact absurd (hid.symm.trans hid') hut
          · have hz := (h.receiver.attaching t q (EndPc.attaching_of_unnamed hun')).2
            exact absurd (hid.symm.trans hz) hu
        · exact hun
      · rw [(hothers q' (hlinked hst') hqq).receiverId]
        exact hends.imp id fun hun => (hunn u q').mpr ⟨hun, fun _ => hqq⟩
    · intro u q' hst' hid hu
      rw [hstage'] at hst'
      have hqq : q' ≠ q := by
        rintro rfl
        exact hu (hid.symm.trans hzero)
      rw [(hothers q' (Or.inl ?_) hqq).receiverId] at hid
      · exact (mem_tail hl hql).mpr ⟨h.receiver.all u q' hst' hid hu, fun _ => hqq⟩
      · rcases hst' with hst' | hst' <;> rw [hst'] <;> nofun
    · intro q' hst'
      rw [hstage'] at hst'
      have hqq : q' ≠ q := by
        rintro rfl
        rw [hst] at hst'
        cases hst'
      rw [(hothers q' (Or.inl (by rw [hst']; nofun)) hqq).receiverId]
      exact h.receiver.fresh q' hst'
    · intro u q' hu
      obtain ⟨hst', hid⟩ := h.receiver.attaching u q' (hatt u q' hu)
      refine ⟨by rw [hstage']; exact hst', ?_⟩
      by_cases hqq : q' = q
      · rw [hqq]
        exact hzero
      · rw [(hothers q' (hlinked hst') hqq).receiverId]
        exact hid
    · intro u v q' hu hv
      exact h.receiver.unique u v q' (hatt u q' hu) (hatt v q' hv)
    · intro u q' hu
      obtain ⟨hu, hne⟩ := (hunn u q').mp hu
      exact (mem_tail hl hql).mpr ⟨h.receiver.unnamed u q' hu, hne⟩
    · intro u q' hu
      have hu := hlive u _ hu nofun
      have hst' := (h.receiver.attaching u q' (by rw [hu]; rfl)).1
      rw [(hkeep q' (hlinked hst')).2.2, htls']
      exact h.receiver.next u q' hu
  · refine h.block.congr hstage' (fun u q' hu => hlive u _ hu nofun)
      (fun u q' hu => hlive u _ hu nofun) ?_
      (fun u q' k hu => h.block.words u q' k (hlive u _ hu nofun)) hbuild
      (fun u q' hu => h.block.testing u q' (hlive u _ hu nofun))
    intro u q' hu
    by_cases hut : u = t
    · rw [hut, hpct] at hu
      cases hu
    · rw [hpc' u hut] at hu
      exact hu
  · refine h.seg.congr h.sender (by rw [hstage']; exact fun _ => Iff.rfl) (fun q' _ => hsas' q') ?_ ?_ ?_
    · rintro u q' (hu | hu)
      · exact Or.inl ((hbuild u).symm.trans hu)
      · exact Or.inr (hlive u _ hu nofun)
    · rw [hm', hmon]
      exact fun _ _ _ => ⟨nofun, nofun⟩
    · intro u q' c hu
      by_cases hut : u = t
      · rw [hut, hpct] at hu
        rw [hut]
        refine h.seg.unlinked t q' b ?_
        rw [hcrash, EndPc.crashed.inj hu |>.1]
      · rw [hpc' u hut] at hu
        exact h.seg.unlinked u q' c hu
  · refine ⟨?_, ?_, ?_, ?_, ?_, ?_, ?_⟩
    · intro u hu
      rw [hm'] at hu
      rw [← Option.some.inj hu]
      exact ⟨a, b', hpct⟩
    · intro u hu
      by_cases hut : u = t
      · rw [hut]
        exact h.mon.range t (by rw [hcrash]; nofun)
      · rw [hpc' u hut] at hu
        exact h.mon.range u hu
    · rintro u (hu | hu)
      · rw [htls']
        exact h.mon.heads u (Or.inl (hlive u _ hu nofun))
      · rw [hm'] at hu
        cases hu
    · rw [hm']
      nofun
    · rw [hm']
      nofun
    · rw [hm']
      nofun
    · rintro u q' c (hu | hu)
      · rw [hm'] at hu
        cases hu
      · rw [hm'] at hu
        cases hu

/-! ## §2 — the segments and the slot -/

/-- The lists of the client are walked. -/
def MonPc.walked : MonPc → Prop
  | .objects _ => True
  | .segments _ _ => True
  | .resetTls _ => True
  | .release _ => True
  | _ => False

theorem EndInv.walked (h : EndInv S R s) (hcl : s.mon.client = some t) (hw : s.mon.walked) :
    S t = [] ∧ R t = [] ∧ (s.pc t).unnamed = none := by
  have hs := h.sender.chain t
  have hr := h.receiver.chain t
  rw [EndSys.senderRoot_of_client hcl] at hs
  rw [EndSys.receiverRoot_of_client hcl] at hr
  have hnone : s.mon.senderCursor = none ∧ ∀ head, s.mon.receiverCursor head = none := by
    cases hm : s.mon with
    | objects u => exact ⟨rfl, fun _ => rfl⟩
    | segments u i => exact ⟨rfl, fun _ => rfl⟩
    | resetTls u => exact ⟨rfl, fun _ => rfl⟩
    | release u => exact ⟨rfl, fun _ => rfl⟩
    | _ => rw [hm] at hw; cases hw
  rw [hnone.1] at hs
  rw [hnone.2] at hr
  have hnil : ∀ {next : Nat → Option Nat} {l : List Nat}, Chained next none l → l = [] :=
    fun hc => List.head?_eq_none_iff.mp hc.head.symm
  refine ⟨hnil hs, hnil hr, ?_⟩
  cases hu : (s.pc t).unnamed with
  | none => rfl
  | some q =>
    have hq := h.receiver.unnamed t q hu
    rw [hnil hr] at hq
    cases hq

theorem EndInv.objects (h : EndInv S R s) (hmon : s.mon = .objects t) : EndInv S R s.monitor := by
  have hcl : s.mon.client = some t := by rw [hmon]; rfl
  simp only [EndSys.monitor, hmon]
  have hroots := roots_of_client s { s with mon := .segments t 0 } rfl rfl hcl
    (by rw [hmon]; rfl) (by rw [hmon]; rfl)
  refine h.advance ⟨rfl, rfl, rfl, fun u => (hroots u).1, fun u => (hroots u).2, ?_⟩
    (h.monAt rfl rfl rfl ?_ nofun nofun nofun ?_ ?_)
  · rw [hmon]
    exact fun _ _ _ => ⟨nofun, nofun⟩
  · rintro u ⟨⟩
    exact h.mon.client t hcl
  · rintro u i q b ⟨⟩ _
    exact Nat.zero_le _
  · rintro u q b (hu | hu) <;> cases hu

/-- A segment that is not given back: it belongs to somebody else or is marked, so it holds no block
the client has left unlinked. -/
theorem EndInv.keepSegment (h : EndInv S R s) {i : Nat} (hmon : s.mon = .segments t i)
    (hkeep : ¬ (s.shm.owner i = t ∧ (s.shm.sas i).state ≠ .abandon)) :
    EndInv S R { s with mon := .segments t (i + 1) } := by
  have hcl : s.mon.client = some t := by rw [hmon]; rfl
  have hroots := roots_of_client s { s with mon := .segments t (i + 1) } rfl rfl hcl
    (by rw [hmon]; rfl) (by rw [hmon]; rfl)
  refine h.advance ⟨rfl, rfl, rfl, fun u => (hroots u).1, fun u => (hroots u).2, ?_⟩
    (h.monAt rfl rfl rfl ?_ nofun nofun nofun ?_ ?_)
  · rw [hmon]
    exact fun _ _ _ => ⟨nofun, nofun⟩
  · rintro u ⟨⟩
    exact h.mon.client t hcl
  · rintro u j q b hu hc
    injection hu with hut hij
    rw [← hut] at hc
    rw [← hij]
    have hle := h.mon.segments t i q b hmon hc
    have hown := h.seg.built t q (Or.inl (by rw [hc]; rfl))
    have hun := (h.seg.unlinked t q b hc).unmarked
    have hne : segmentIdx q ≠ i := by
      rintro rfl
      exact hkeep ⟨hown, hun⟩
    omega
  · rintro u q b (hu | hu) <;> cases hu

theorem EndInv.endSegments (h : EndInv S R s) {i : Nat} (hmon : s.mon = .segments t i)
    (hi : maxSegmentNum ≤ i) : EndInv S R { s with mon := .resetTls t } := by
  have hcl : s.mon.client = some t := by rw [hmon]; rfl
  have hroots := roots_of_client s { s with mon := .resetTls t } rfl rfl hcl
    (by rw [hmon]; rfl) (by rw [hmon]; rfl)
  refine h.advance ⟨rfl, rfl, rfl, fun u => (hroots u).1, fun u => (hroots u).2, ?_⟩
    (h.monAt rfl rfl rfl ?_ nofun nofun nofun nofun ?_)
  · rw [hmon]
    exact fun _ _ _ => ⟨nofun, nofun⟩
  · rintro u ⟨⟩
    exact h.mon.client t hcl
  · rintro u q b (hu | hu) hc
    · injection hu with hut
      rw [← hut] at hc
      have hle := h.mon.segments t i q b hmon hc
      have hb : (s.pc t).building = some q := by rw [hc]; rfl
      have hlt := (h.block.bound q (Or.inl (h.sender.built_ne_raw hb))).2
      omega
    · cases hu

/-- `tls->sender_queue` and `tls->receiver_queue` are set to 0. -/
theorem EndInv.resetTls (h : EndInv S R s) (hmon : s.mon = .resetTls t) :
    EndInv S R s.monitor := by
  have hcl : s.mon.client = some t := by rw [hmon]; rfl
  obtain ⟨a, b, hcrash⟩ := h.mon.client t hcl
  simp only [EndSys.monitor, hmon]
  generalize hs' : ({ s with
    mon := .release t
    shm := s.shm.setTls t (s.shm.tls t).resetQueues } : EndSys) = s'
  have hm' : s'.mon = .release t := by rw [← hs']
  have hpc' : s'.pc = s.pc := by rw [← hs']
  have htls : ∀ u, u ≠ t → s'.shm.tls u = s.shm.tls u := by
    intro u hu
    rw [← hs']
    exact setTls_of_ne hu
  have hzero : (s'.shm.tls t).senderQueue = 0 ∧ (s'.shm.tls t).receiverQueue = 0 := by
    rw [← hs']
    show ((s.shm.setTls t _).tls t).senderQueue = 0 ∧ ((s.shm.setTls t _).tls t).receiverQueue = 0
    rw [setTls_self]
    exact ⟨rfl, rfl⟩
  have hroots : ∀ u, s'.senderRoot u = s.senderRoot u ∧ s'.receiverRoot u = s.receiverRoot u := by
    intro u
    unfold EndSys.senderRoot EndSys.receiverRoot
    rw [hm', hmon]
    by_cases hut : u = t
    · rw [hut]
      exact ⟨(if_pos rfl).trans (if_pos rfl).symm, (if_pos rfl).trans (if_pos rfl).symm⟩
    · rw [htls u hut]
      exact ⟨rfl, rfl⟩
  have hne : ∀ u, (∀ a b, s.pc u ≠ .crashed a b) → u ≠ t := by
    rintro u hu rfl
    exact hu a b hcrash
  obtain ⟨hs, hr, hb⟩ := h.unwritten s' ⟨hpc', by rw [← hs'], fun q _ => by
    rw [← hs']; exact ⟨rfl, rfl, rfl⟩, fun u hu => by rw [htls u (hne u hu)]; exact ⟨rfl, rfl⟩, hroots⟩
  refine ⟨hs, hr, hb, ?_, ?_⟩
  · refine h.seg.congr h.sender (by rw [← hs']; exact fun _ => Iff.rfl)
      (fun q _ => SameSeg.of_sas (by rw [← hs']; rfl) q) (by rw [hpc']; exact fun _ _ => id) ?_ ?_
    · rw [hm', hmon]
      exact fun _ _ _ => ⟨nofun, nofun⟩
    · rw [hpc']
      exact h.seg.unlinked
  · refine ⟨?_, ?_, ?_, ?_, ?_, ?_, ?_⟩
    · rw [hm', hpc']
      rintro u ⟨⟩
      exact ⟨a, b, hcrash⟩
    · rw [hpc']
      exact h.mon.range
    · rw [hm', hpc']
      rintro u (hu | hu)
      · rw [htls u (hne u (by rw [hu]; nofun))]
        exact h.mon.heads u (Or.inl hu)
      · injection hu with hut
        rw [← hut]
        exact hzero
    · rw [hm']
      nofun
    · rw [hm']
      nofun
    · rw [hm']
      nofun
    · rw [hpc', hm']
      rintro u q c (hu | hu)
      · cases hu
      · injection hu with hut
        rw [← hut]
        exact h.mon.late t q c (Or.inl hmon)

/-- The slot is free. -/
theorem EndInv.release (h : EndInv S R s) (hmon : s.mon = .release t) : EndInv S R s.monitor := by
  have hcl : s.mon.client = some t := by rw [hmon]; rfl
  obtain ⟨a, b, hcrash⟩ := h.mon.client t hcl
  obtain ⟨-, -, hunn⟩ := h.walked hcl (by rw [hmon]; trivial)
  have hb : b = none := by
    rw [hcrash] at hunn
    exact hunn
  have ha : a = none := by
    cases ha : a with
    | none => rfl
    | some q =>
      rw [ha] at hcrash
      exact absurd hcrash (h.mon.late t q b (Or.inr hmon))
  rw [ha, hb] at hcrash
  have hzero := h.mon.heads t (Or.inr hmon)
  simp only [EndSys.monitor, hmon]
  generalize hs' : ({ s.setPc t .unregistered with
    mon := .idle
    shm := s.shm.setTls t ((s.shm.tls t).setId 0) } : EndSys) = s'
  have hm : Moved s t .unregistered 0 (s.stage 0) s'.shm { s' with mon := s.mon } := by
    refine ⟨rfl, rfl, by rw [← hs'], fun q => ?_⟩
    rw [← hs']
    show s.stage q = _
    split
    · rename_i hq
      rw [hq]
    · rfl
  have hm' : s'.mon = .idle := by rw [← hs']
  have hstage' : s'.stage = s.stage := by rw [← hs']; rfl
  have hheads : ∀ u, (s'.shm.tls u).senderQueue = (s.shm.tls u).senderQueue ∧
      (s'.shm.tls u).receiverQueue = (s.shm.tls u).receiverQueue := by
    intro u
    rw [← hs']
    show ((s.shm.setTls t _).tls u).senderQueue = _ ∧ ((s.shm.setTls t _).tls u).receiverQueue = _
    by_cases hut : u = t
    · rw [hut, setTls_self]
      exact ⟨rfl, rfl⟩
    · rw [setTls_of_ne hut]
      exact ⟨rfl, rfl⟩
  have hends : ∀ q, SameEnds s.shm s'.shm q := fun q => by rw [← hs']; exact ⟨rfl, rfl, rfl⟩
  have hback : ∀ u x, s'.pc u = x → x ≠ .unregistered → s.pc u = x :=
    fun u x hu hx => (hm.pc_eq hu hx.symm).2
  have hroots : ∀ u, s'.senderRoot u = s.senderRoot u ∧ s'.receiverRoot u = s.receiverRoot u := by
    intro u
    have hnone : s'.mon.client ≠ some u := by
      rw [hm']
      nofun
    rw [EndSys.senderRoot_of_ne hnone, EndSys.receiverRoot_of_ne hnone, (hheads u).1, (hheads u).2]
    by_cases hut : u = t
    · rw [hut, EndSys.senderRoot_of_client hcl, EndSys.receiverRoot_of_client hcl, hmon, hzero.1,
        hzero.2]
      exact ⟨rfl, rfl⟩
    · have hne : s.mon.client ≠ some u := by
        rw [hcl]
        exact fun hu => hut (Option.some.inj hu).symm
      rw [EndSys.senderRoot_of_ne hne, EndSys.receiverRoot_of_ne hne]
      exact ⟨rfl, rfl⟩
  have hbuild := hm.view EndPc.building (by rw [hcrash]; rfl)
  refine ⟨?_, ?_, ?_, ?_, ?_⟩
  · refine h.sender.congr (by rw [hstage']; exact fun _ => id) (by rw [hstage']; exact fun _ => id)
      (fun q _ => (hends q).senderId) (fun q _ => (hends q).senderNext) (fun u => (hroots u).1)
      (fun u q _ hu => (hbuild u).trans hu) ?_ ?_
    · intro u q hu
      have hu := (hbuild u).symm.trans hu
      rw [hstage']
      exact ⟨hu, (h.sender.built u q hu).1⟩
    · intro u q hu
      rw [(hends q).senderNext, (hheads u).1]
      exact h.sender.next u q (hback u _ hu nofun)
  · refine h.receiver.congr (by rw [hstage']; exact fun _ => Or.inl) ?_
      (by rw [hstage']; exact fun _ => id) (fun q _ => (hends q).receiverId)
      (fun _ q _ => (hends q).receiverNext) (fun u => (hroots u).2)
      (fun u q hu => (hm.pc_some EndPc.attaching hu rfl).2)
      (hm.view EndPc.unnamed (by rw [hcrash]; rfl)) ?_
    · intro q hq
      rw [hstage'] at hq
      rw [(hends q).receiverId]
      exact h.receiver.fresh q hq
    · intro u q hu
      rw [(hends q).receiverNext, (hheads u).2]
      exact h.receiver.next u q (hback u _ hu nofun)
  · exact h.block.congr hstage' (fun u q hu => hback u _ hu nofun) (fun u q hu => hback u _ hu nofun)
      (fun u q hu => (hm.pc_some EndPc.clearing hu rfl).2)
      (fun u q k hu => h.block.words u q k (hback u _ hu nofun)) hbuild
      (fun u q hu => h.block.testing u q (hback u _ hu nofun))
  · refine h.seg.congr h.sender (by rw [hstage']; exact fun _ => Iff.rfl)
      (fun q _ => SameSeg.of_sas (by rw [← hs']; rfl) q) ?_ ?_
      (fun u q c hu => h.seg.unlinked u q c (hback u _ hu nofun))
    · rintro u q (hu | hu)
      · exact Or.inl ((hbuild u).symm.trans hu)
      · exact Or.inr (hback u _ hu nofun)
    · rw [hm', hmon]
      exact fun _ _ _ => ⟨nofun, nofun⟩
  · refine ⟨by rw [hm']; nofun, ?_, ?_, by rw [hm']; nofun, by rw [hm']; nofun,
      by rw [hm']; nofun, ?_⟩
    · intro u hu
      by_cases hut : u = t
      · exact absurd (by rw [hut]; exact hm.pc_self) hu
      · exact h.mon.range u (by rw [← hm.pc_of_ne hut]; exact hu)
    · rintro u (hu | hu)
      · rw [(hheads u).1, (hheads u).2]
        by_cases hut : u = t
        · rw [hut]
          exact hzero
        · exact h.mon.heads u (Or.inl ((hm.pc_of_ne hut).symm.trans hu))
      · rw [hm'] at hu
        cases hu
    · rw [hm']
      rintro u q c (hu | hu) <;> cases hu

theorem dropUnlinked_crashed (i : Nat) (a b : Option Nat) :
    ∃ a', (EndPc.crashed a b).dropUnlinked i = .crashed a' b ∧
      ∀ q, a' = some q ↔ a = some q ∧ segmentIdx q ≠ i := by
  cases a with
  | none => exact ⟨none, rfl, fun q => ⟨nofun, fun hq => hq.1⟩⟩
  | some q' =>
    by_cases hq : segmentIdx q' = i
    · refine ⟨none, if_pos hq, fun q => ⟨nofun, ?_⟩⟩
      rintro ⟨hqq, hne⟩
      rw [← Option.some.inj hqq] at hne
      exact absurd hq hne
    · refine ⟨some q', if_neg hq, fun q => ⟨fun hqq => ⟨hqq, ?_⟩, fun hqq => hqq.1⟩⟩
      rw [← Option.some.inj hqq]
      exact hq

theorem sas_eq {m m' : Shm} {j : Nat} (h : m'.sas j = m.sas j) :
    m'.owner j = m.owner j ∧ (m'.abandoned j ↔ m.abandoned j) := by
  unfold Shm.owner Shm.abandoned
  rw [h]
  exact ⟨rfl, Iff.rfl⟩

theorem dropSegment_stage (s : EndSys) (t i q : Nat) :
    (s.dropSegment t i).stage q = if segmentIdx q = i then .raw else s.stage q :=
  rfl

/-- `recovery_cxl_segment_free`: no queue on a list lies in the segment. -/
theorem EndInv.dropSegment (h : EndInv S R s) {i : Nat} (hmon : s.mon = .segments t i)
    (hown : s.shm.owner i = t) (hfree : (s.shm.sas i).state ≠ .abandon) :
    EndInv S R { s.dropSegment t i with mon := .segments t (i + 1) } := by
  have hcl : s.mon.client = some t := by rw [hmon]; rfl
  obtain ⟨a, b, hcrash⟩ := h.mon.client t hcl
  obtain ⟨hnilS, -, -⟩ := h.walked hcl (by rw [hmon]; trivial)
  have hout : ∀ q, s.stage q = .linked → segmentIdx q ≠ i := by
    rintro q hq rfl
    rcases (h.seg.linked q hq).2 with hab | ⟨u, hu⟩ | ⟨u, next, hu⟩
    · exact hfree hab
    · have hut : u = t := (h.seg.mem u q hu).symm.trans hown
      rw [hut, hnilS] at hu
      cases hu
    · rw [hmon] at hu
      cases hu
  generalize hs' : ({ s.dropSegment t i with mon := .segments t (i + 1) } : EndSys) = s'
  have hm' : s'.mon = .segments t (i + 1) := by rw [← hs']
  have hstage' : ∀ q, s'.stage q = if segmentIdx q = i then .raw else s.stage q := by
    rw [← hs']
    exact dropSegment_stage s t i
  have hkeep : ∀ q, segmentIdx q ≠ i → s'.stage q = s.stage q := fun q hq => by
    rw [hstage', if_neg hq]
  have hends : ∀ q, SameEnds s.shm s'.shm q := fun q => by rw [← hs']; exact ⟨rfl, rfl, rfl⟩
  have htls' : s'.shm.tls = s.shm.tls := by rw [← hs']; rfl
  have hsas : ∀ j, j ≠ i → s'.shm.sas j = s.shm.sas j := by
    intro j hj
    rw [← hs']
    exact Function.update_of_ne hj ..
  have hseg : ∀ q, segmentIdx q ≠ i → SameSeg s.shm s'.shm q := fun q hq => sas_eq (hsas _ hq)
  have hpc' : ∀ u, u ≠ t → s'.pc u = s.pc u := by
    intro u hut
    rw [← hs']
    exact (EndSys.setPc_pc s t u _).trans (if_neg hut)
  have hpct : s'.pc t = (EndPc.crashed a b).dropUnlinked i := by
    rw [← hs', ← hcrash]
    exact (EndSys.setPc_pc s t t _).trans (if_pos rfl)
  obtain ⟨a', hdrop, ha'⟩ := dropUnlinked_crashed i a b
  rw [hdrop] at hpct
  have hback : ∀ u x, s'.pc u = x → (∀ a b, x ≠ .crashed a b) → s.pc u = x := by
    intro u x hu hx
    by_cases hut : u = t
    · rw [hut, hpct] at hu
      exact absurd hu.symm (hx a' b)
    · rw [hpc' u hut] at hu
      exact hu
  have hbuild : ∀ u q, (s'.pc u).building = some q ↔
      (s.pc u).building = some q ∧ segmentIdx q ≠ i := by
    intro u q
    by_cases hut : u = t
    · rw [hut, hpct, hcrash]
      exact ha' q
    · rw [hpc' u hut]
      refine ⟨fun hu => ⟨hu, fun hqi => ?_⟩, fun hu => hu.1⟩
      have hown' := h.seg.built u q (Or.inl hu)
      rw [hqi, hown] at hown'
      exact hut hown'.symm
  have hhanded : ∀ q, s'.Handed q → s.Handed q := by
    rintro q (hq | ⟨u, hu⟩)
    · rw [hstage'] at hq
      split at hq
      · exact absurd rfl hq
      · exact Or.inl hq
    · exact Or.inr ⟨u, hback u _ hu nofun⟩
  have hroots : ∀ u, s'.senderRoot u = s.senderRoot u ∧ s'.receiverRoot u = s.receiverRoot u := by
    intro u
    unfold EndSys.senderRoot EndSys.receiverRoot
    rw [hm', hmon, htls']
    exact ⟨rfl, rfl⟩
  have hlinked : ∀ q, s'.stage q = .linked ↔ s.stage q = .linked := by
    intro q
    constructor
    · intro hq
      rw [hstage'] at hq
      split at hq
      · cases hq
      · exact hq
    · intro hq
      rw [hkeep q (hout q hq)]
      exact hq
  have hraw : ∀ q, s'.stage q ≠ .raw → segmentIdx q ≠ i ∧ s.stage q ≠ .raw := by
    intro q hq
    rw [hstage'] at hq
    split at hq
    · exact absurd rfl hq
    · rename_i hne
      exact ⟨hne, hq⟩
  refine ⟨?_, ?_, ?_, ?_, ?_⟩
  · refine h.sender.congr (fun q hq => (hraw q hq).2) (fun q => (hlinked q).mpr)
      (fun q _ => (hends q).senderId) (fun q _ => (hends q).senderNext) (fun u => (hroots u).1)
      (fun u q hq hu => (hbuild u q).mpr ⟨hu, (hraw q hq).1⟩) ?_ ?_
    · intro u q hu
      obtain ⟨hu, hne⟩ := (hbuild u q).mp hu
      rw [hkeep q hne]
      exact ⟨hu, (h.sender.built u q hu).1⟩
    · intro u q hu
      rw [(hends q).senderNext, htls']
      exact h.sender.next u q (hback u _ hu nofun)
  · have hold : ∀ q, s'.stage q ≠ .raw → s'.stage q = s.stage q :=
      fun q hq => hkeep q (hraw q hq).1
    refine h.receiver.congr ?_ ?_ (fun q => (hlinked q).mpr) (fun q _ => (hends q).receiverId)
      (fun _ q _ => (hends q).receiverNext) (fun u => (hroots u).2) ?_ ?_ ?_
    · intro q hq
      rw [hold q (by rcases hq with hq | hq <;> rw [hq] <;> nofun)] at hq
      exact Or.inl hq
    · intro q hq
      rw [hold q (by rw [hq]; nofun)] at hq
      exact (hends q).receiverId.trans (h.receiver.fresh q hq)
    · intro u q hu
      by_cases hut : u = t
      · rw [hut, hpct] at hu
        rw [hut, hcrash]
        exact hu
      · rw [hpc' u hut] at hu
        exact hu
    · intro u
      by_cases hut : u = t
      · rw [hut, hpct, hcrash]
        rfl
      · rw [hpc' u hut]
    · intro u q hu
      rw [(hends q).receiverNext, htls']
      exact h.receiver.next u q (hback u _ hu nofun)
  · -- a client that has a block of the segment in hand owns the segment, so it is the crashed one
    have hhold : ∀ u q, (s'.pc u).building = some q → s'.stage q = s.stage q :=
      fun u q hu => hkeep q ((hbuild u q).mp hu).2
    refine ⟨fun q q' hq hq' => h.block.apart q q' (hhanded q hq) (hhanded q' hq'),
      fun q hq => h.block.bound q (hhanded q hq), ?_, ?_, ?_,
      fun u q k hu => h.block.words u q k (hback u _ hu nofun), ?_, ?_⟩
    · intro u q hu
      rw [hstage']
      split
      · rfl
      · exact h.block.handed u q (hback u _ hu nofun)
    · intro u q hu
      rw [hhold u q (by rw [hu]; rfl)]
      exact h.block.named u q (hback u _ hu nofun)
    · intro u q hu
      have hb : (s'.pc u).building = some q := by
        cases hc : s'.pc u with
        | clear q' k => rw [hc] at hu; exact hu
        | storeSenderNext q' => rw [hc] at hu; exact hu
        | storeSenderQueue q' => rw [hc] at hu; exact hu
        | _ => rw [hc] at hu; cases hu
      have hut : u ≠ t := by
        rintro rfl
        rw [hpct] at hu
        cases hu
      rw [hhold u q hb]
      rw [hpc' u hut] at hu
      exact h.block.clearing u q hu
    · intro q hq
      obtain ⟨hne, -⟩ := hraw q (by rcases hq with hq | hq <;> rw [hq] <;> nofun)
      rw [hkeep q hne] at hq
      obtain ⟨u, hu⟩ := h.block.owned q hq
      exact ⟨u, (hbuild u q).mpr ⟨hu, hne⟩⟩
    · intro u q hu
      exact (hlinked q).mpr (h.block.testing u q (hback u _ hu nofun))
  · refine h.seg.congr h.sender hlinked (fun q hq => hseg q ?_) ?_ ?_ ?_
    · rcases hq with hq | ⟨u, hq | hq⟩
      · exact hout q hq
      · exact ((hbuild u q).mp hq).2
      · have hu := hback u _ hq nofun
        intro hqi
        have hown' := h.seg.built u q (Or.inr hu)
        rw [hqi, hown] at hown'
        rw [← hown', hcrash] at hu
        cases hu
    · rintro u q (hu | hu)
      · exact Or.inl ((hbuild u q).mp hu).1
      · exact Or.inr (hback u _ hu nofun)
    · rw [hm', hmon]
      exact fun _ _ _ => ⟨nofun, nofun⟩
    · intro u q c hu
      by_cases hut : u = t
      · rw [hut, hpct] at hu
        obtain ⟨ha, -⟩ := (ha' q).mp (EndPc.crashed.inj hu).1
        rw [hut]
        exact h.seg.unlinked t q b (by rw [hcrash, ha])
      · rw [hpc' u hut] at hu
        exact h.seg.unlinked u q c hu
  · refine ⟨?_, ?_, ?_, by rw [hm']; nofun, by rw [hm']; nofun, ?_, ?_⟩
    · rw [hm']
      rintro u ⟨⟩
      exact ⟨a', b, hpct⟩
    · intro u hu
      by_cases hut : u = t
      · rw [hut]
        exact h.mon.range t (by rw [hcrash]; nofun)
      · exact h.mon.range u (by rw [← hpc' u hut]; exact hu)
    · rintro u (hu | hu)
      · rw [htls']
        exact h.mon.heads u (Or.inl (hback u _ hu nofun))
      · rw [hm'] at hu
        cases hu
    · intro u j q c hu hc
      rw [hm'] at hu
      injection hu with hut hij
      rw [← hut, hpct] at hc
      obtain ⟨ha, hne⟩ := (ha' q).mp (EndPc.crashed.inj hc).1
      have hle := h.mon.segments t i q b hmon (by rw [hcrash, ha])
      omega
    · rw [hm']
      rintro u q c (hu | hu) <;> cases hu

end Monitor

/-! ## §3 — runs -/

section Runs

variable {S R : Nat → List Nat} {s : EndSys}

theorem EndInv.init (h : EndInit s) : EndInv (fun _ => []) (fun _ => []) s := by
  have hpc := h.pc
  have hraw : ∀ q, ¬ s.Handed q := by
    rintro q (hq | ⟨t, ht⟩)
    · exact hq (h.stage q)
    · rw [hpc] at ht
      cases ht
  have hnone : ∀ t, s.mon.client ≠ some t := by
    rw [h.mon]
    nofun
  refine ⟨?_, ?_, ?_, ?_, ?_⟩
  · refine ⟨fun t => ?_, fun _ => List.nodup_nil, nofun, fun _ q hq => absurd (h.stage q) hq, ?_, ?_⟩
    · rw [EndSys.senderRoot_of_ne (hnone t), h.senders]
      rfl
    · intro t q hq
      rw [hpc] at hq
      cases hq
    · intro t q hq
      rw [hpc] at hq
      cases hq
  · refine ⟨fun t => ?_, fun _ => List.nodup_nil, nofun, ?_, ?_, ?_, ?_, ?_, ?_⟩
    · rw [EndSys.receiverRoot_of_ne (hnone t), h.receivers]
      rfl
    · intro t q hq
      rw [h.stage] at hq
      exact hq.elim nofun nofun
    · intro q hq
      rw [h.stage] at hq
      cases hq
    · intro t q hq
      rw [hpc] at hq
      cases hq
    · intro t u q hq
      rw [hpc] at hq
      cases hq
    · intro t q hq
      rw [hpc] at hq
      cases hq
    · intro t q hq
      rw [hpc] at hq
      cases hq
  · refine ⟨fun q _ hq => absurd hq (hraw q), fun q hq => absurd hq (hraw q), ?_, ?_, ?_, ?_, ?_, ?_⟩
    · intro t q hq
      exact absurd (Or.inr ⟨t, hq⟩) (hraw q)
    · intro t q hq
      rw [hpc] at hq
      cases hq
    · intro t q hq
      rw [hpc] at hq
      cases hq
    · intro t q k hq
      rw [hpc] at hq
      cases hq
    · intro q hq
      rw [h.stage] at hq
      exact hq.elim nofun nofun
    · intro t q hq
      rw [hpc] at hq
      cases hq
  · refine ⟨nofun, ?_, ?_, ?_, ?_⟩
    · intro t q hq
      rw [hpc] at hq
      exact hq.elim nofun nofun
    · rw [h.mon]
      nofun
    · intro q hq
      rw [h.stage] at hq
      cases hq
    · intro t q b hq
      rw [hpc] at hq
      cases hq
  · refine ⟨fun t ht => absurd ht (hnone t), fun t ht => absurd (hpc t) ht,
      fun t _ => ⟨h.senders t, h.receivers t⟩, ?_, ?_, ?_, ?_⟩
    · rw [h.mon]
      nofun
    · rw [h.mon]
      nofun
    · rw [h.mon]
      nofun
    · intro t q b _
      rw [hpc]
      nofun

theorem stage_unmoved (s : EndSys) (q q' : Nat) :
    s.stage q' = if q' = q then s.stage q else s.stage q' := by
  split
  · rename_i hqq
    rw [hqq]
  · rfl

/-- Every access of a client keeps the invariant. -/
theorem EndInv.access (h : EndInv S R s) {t : Nat} (hord : Orderly s (.access t)) :
    ∃ S' R', EndInv S' R' (s.access t) := by
  cases hpc : s.pc t with
  | unregistered => exact ⟨S, R, by simp only [EndSys.access, hpc]; exact h⟩
  | idle => exact ⟨S, R, by simp only [EndSys.access, hpc]; exact h⟩
  | crashed a b => exact ⟨S, R, by simp only [EndSys.access, hpc]; exact h⟩
  | storeSenderId q =>
    refine ⟨S, R, h.storeSenderId hpc ?_⟩
    simp only [EndSys.access, hpc]
    exact ⟨rfl, rfl, rfl, fun q' => EndSys.setStage_stage ..⟩
  | storeReceiverZero q =>
    refine ⟨S, R, h.storeReceiverZero hpc ?_⟩
    simp only [EndSys.access, hpc]
    exact ⟨rfl, rfl, rfl, fun q' => EndSys.setStage_stage ..⟩
  | clear q k => exact ⟨S, R, h.clear hpc⟩
  | storeSenderNext q => exact ⟨S, R, h.storeSenderNext hpc⟩
  | storeSenderQueue q =>
    refine ⟨_, R, h.storeSenderQueue hpc ?_⟩
    simp only [EndSys.access, hpc]
    exact ⟨rfl, rfl, rfl, fun q' => EndSys.setStage_stage ..⟩
  | testReceiver q =>
    simp only [EndSys.access, hpc]
    split
    · rename_i hzero
      exact ⟨S, R, h.testReceiver hpc hzero (hord q hpc hzero)
        ⟨rfl, rfl, rfl, stage_unmoved s q⟩⟩
    · refine ⟨S, R, h.quietPc ⟨?_, ?_, by simp [EndPc.attaching], by simp [EndPc.clearing], by simp, by simp, by simp,
        by simp, by simp, by simp, ⟨by simp, h.mon.range t (by rw [hpc]; simp)⟩, h.outside (by rw [hpc]; simp)⟩⟩
      · rw [hpc]
        rfl
      · rw [hpc]
        rfl
  | storeReceiverNext q =>
    refine ⟨S, R, h.storeReceiverNext hpc ?_⟩
    simp only [EndSys.access, hpc]
    exact ⟨rfl, rfl, rfl, stage_unmoved s q⟩
  | storeReceiverQueue q =>
    refine ⟨S, _, h.storeReceiverQueue hpc ?_⟩
    simp only [EndSys.access, hpc]
    exact ⟨rfl, rfl, rfl, stage_unmoved s q⟩
  | storeReceiverId q =>
    refine ⟨S, R, h.storeReceiverId hpc ?_⟩
    simp only [EndSys.access, hpc]
    exact ⟨rfl, rfl, rfl, stage_unmoved s q⟩

/-- Every access of the monitor does. -/
theorem EndInv.monitor (h : EndInv S R s) : ∃ S' R', EndInv S' R' s.monitor := by
  cases hmon : s.mon with
  | idle => exact ⟨S, R, by simp only [EndSys.monitor, hmon]; exact h⟩
  | senders t p => exact ⟨S, R, h.senders hmon⟩
  | storeSenderId t q next =>
    obtain ⟨S', h'⟩ := h.clearSenderId hmon
    exact ⟨S', R, h'⟩
  | markAbandon t q next => exact ⟨S, R, h.markAbandon hmon⟩
  | receivers t p => exact ⟨S, R, h.receivers hmon⟩
  | storeReceiverId t q next =>
    obtain ⟨R', h'⟩ := h.clearReceiverId hmon
    exact ⟨S, R', h'⟩
  | objects t => exact ⟨S, R, h.objects hmon⟩
  | segments t i =>
    refine ⟨S, R, ?_⟩
    simp only [EndSys.monitor, hmon]
    split
    · split
      · rename_i hdrop
        exact h.dropSegment hmon hdrop.1 hdrop.2
      · rename_i hkeep
        exact h.keepSegment hmon hkeep
    · rename_i hi
      exact h.endSegments hmon (Nat.le_of_not_lt hi)
  | resetTls t => exact ⟨S, R, h.resetTls hmon⟩
  | release t => exact ⟨S, R, h.release hmon⟩

theorem EndInv.step (h : EndInv S R s) {mv : EndMove} (hen : mv.enabled s) (hord : Orderly s mv) :
    ∃ S' R', EndInv S' R' (s.next mv) := by
  cases mv with
  | register t => exact ⟨S, R, h.register ⟨hen.1, hen.2.1⟩ hen.2.2⟩
  | alloc t q => exact ⟨S, R, h.alloc hen⟩
  | unwrap t q => exact ⟨S, R, h.unwrap hen.1 hen.2⟩
  | access t => exact h.access hord
  | crash t => exact ⟨S, R, h.crash hen.1 hen.2 hord⟩
  | inspect t => exact ⟨S, R, h.inspect hen.1 hen.2⟩
  | monitor => exact h.monitor
  | objectPage pg =>
    refine ⟨S, R, ?_⟩
    simp only [EndSys.next]
    split
    · rename_i halive
      exact h.objectPage (hord halive)
    · exact h
  | env m => exact ⟨S, R, h.env hen⟩

theorem OrderlyReach.inv (h : OrderlyReach s) : ∃ S R, EndInv S R s := by
  refine @Reach.invariant _ _ _ _ (fun s => ∃ S R, EndInv S R s) ?_ ?_ _ h
  · exact fun s hs _ => ⟨_, _, EndInv.init hs⟩
  · rintro s s' ⟨S, R, h⟩ - ⟨mv, hen, hord, rfl⟩ -
    exact h.step hen hord

/-- A client without a slot is at no end of a queue. -/
theorem EndInv.no_end (h : EndInv S R s) {t : Nat} (ht : t ≠ 0) (hpc : s.pc t = .unregistered)
    (q : Nat) : ¬ HasEnd s t q := by
  obtain ⟨hs, hr⟩ := h.mon.heads t (Or.inl hpc)
  have hout : s.mon.client ≠ some t := h.outside (by rw [hpc]; nofun)
  have hnil : ∀ {next : Nat → Option Nat} {l : List Nat}, Chained next none l → l = [] :=
    fun hc => List.head?_eq_none_iff.mp hc.head.symm
  have hS : S t = [] := by
    have hc := h.sender.chain t
    rw [EndSys.senderRoot_of_ne hout, hs] at hc
    exact hnil hc
  have hR : R t = [] := by
    have hc := h.receiver.chain t
    rw [EndSys.receiverRoot_of_ne hout, hr] at hc
    exact hnil hc
  rintro ⟨-, ⟨hst, hid⟩ | ⟨hst, hid⟩⟩
  · rcases h.sender.all t q hst hid ht with hq | hq
    · rw [hS] at hq
      cases hq
    · rw [hpc] at hq
      cases hq
  · have hq := h.receiver.all t q hst hid ht
    rw [hR] at hq
    cases hq

end Runs

/-! ## §4 — some runs -/

theorem OrderlyReach.next {s : EndSys} (h : OrderlyReach s) (mv : EndMove) (hen : mv.enabled s)
    (hord : Orderly s mv) : OrderlyReach (s.next mv) :=
  h.step ⟨mv, hen, hord, rfl⟩ trivial

theorem EndReach.next {s : EndSys} (h : EndReach s) (mv : EndMove) (hen : mv.enabled s) :
    EndReach (s.next mv) :=
  h.step ⟨mv, hen, rfl⟩ trivial

theorem OrderlyReach.endReach {s : EndSys} (h : OrderlyReach s) : EndReach s := by
  refine @Reach.invariant _ _ _ _ EndReach ?_ ?_ _ h
  · exact fun s hs _ => .init hs trivial
  · rintro s s' h - ⟨mv, hen, -, rfl⟩ -
    exact h.next mv hen

section Recover

variable {P : EndSys → Prop} (hP : ∀ s, P s → s.mon ≠ .idle → P s.monitor) {s : EndSys} {t : Nat}

/-- What the end of a recovery leaves alone: the words, and the marked segments. -/
structure KeepsMarked (s s' : EndSys) : Prop where
  word : s'.shm.word = s.shm.word
  marked : ∀ j, s.shm.abandoned j → s'.shm.sas j = s.shm.sas j ∧
    ∀ q, segmentIdx q = j → s'.stage q = s.stage q

theorem KeepsMarked.same {s s' : EndSys} (hword : s'.shm.word = s.shm.word)
    (hsas : s'.shm.sas = s.shm.sas) (hstage : s'.stage = s.stage) : KeepsMarked s s' :=
  ⟨hword, fun _ _ => ⟨by rw [hsas], fun _ _ => by rw [hstage]⟩⟩

theorem KeepsMarked.trans {s s' s'' : EndSys} (h : KeepsMarked s s') (h' : KeepsMarked s' s'') :
    KeepsMarked s s'' := by
  refine ⟨h'.word.trans h.word, fun j hj => ?_⟩
  obtain ⟨hsas, hst⟩ := h.marked j hj
  obtain ⟨hsas', hst'⟩ := h'.marked j ((sas_eq hsas).2.mpr hj)
  exact ⟨hsas'.trans hsas, fun q hq => (hst' q hq).trans (hst q hq)⟩

include hP

/-- The loop over the segments. -/
theorem segments_run {i n : Nat} (hn : i + n = maxSegmentNum) (hs : P s)
    (hmon : s.mon = .segments t i) : ∃ s', P s' ∧ s'.mon = .resetTls t ∧ KeepsMarked s s' := by
  induction n generalizing i s with
  | zero =>
    have hnext : s.monitor = { s with mon := .resetTls t } := by
      unfold EndSys.monitor
      rw [hmon]
      exact if_neg (by omega)
    have hs' := hP s hs (by rw [hmon]; nofun)
    rw [hnext] at hs'
    exact ⟨_, hs', rfl, KeepsMarked.same rfl rfl rfl⟩
  | succ n ih =>
    have hnext := hP s hs (by rw [hmon]; nofun)
    have hkeep : s.monitor.mon = .segments t (i + 1) ∧ KeepsMarked s s.monitor := by
      simp only [EndSys.monitor, hmon]
      rw [if_pos (by omega)]
      split
      · rename_i hdrop
        refine ⟨rfl, rfl, fun j hj => ?_⟩
        have hji : j ≠ i := by
          rintro rfl
          exact hdrop.2 hj
        refine ⟨Function.update_of_ne hji .., fun q hq => (dropSegment_stage s t i q).trans ?_⟩
        rw [hq, if_neg hji]
      · exact ⟨rfl, rfl, fun _ _ => ⟨rfl, fun _ _ => rfl⟩⟩
    obtain ⟨s', hs', hmon', hk⟩ := ih (by omega) hnext hkeep.1
    exact ⟨s', hs', hmon', hkeep.2.trans hk⟩

/-- From the object pages on, recovery comes to its end. -/
theorem recovery_run (hs : P s) (hmon : s.mon = .objects t) :
    ∃ s', P s' ∧ s'.pc t = .unregistered ∧ KeepsMarked s s' := by
  have h₁ := hP s hs (by rw [hmon]; nofun)
  have he₁ : s.monitor = { s with mon := .segments t 0 } := by
    unfold EndSys.monitor
    rw [hmon]
  rw [he₁] at h₁
  obtain ⟨s₂, h₂, hm₂, hk₂⟩ := segments_run hP (Nat.zero_add _) h₁ rfl
  have h₃ := hP s₂ h₂ (by rw [hm₂]; nofun)
  have he₃ : s₂.monitor = { s₂ with
      mon := .release t
      shm := s₂.shm.setTls t (s₂.shm.tls t).resetQueues } := by
    unfold EndSys.monitor
    rw [hm₂]
  rw [he₃] at h₃
  refine ⟨_, hP _ h₃ nofun, (EndSys.setPc_pc _ t t _).trans (if_pos rfl), ?_⟩
  have hk₁ : KeepsMarked s { s with mon := .segments t 0 } := .same rfl rfl rfl
  exact hk₁.trans (hk₂.trans (.same rfl rfl rfl))

/-- The monitor at the end of the sender list, with nothing on the receiver list. -/
theorem emptyLists_run (hs : P { s with mon := .senders t 0 })
    (hr : (s.shm.tls t).receiverQueue = 0) : P { s with mon := .objects t } := by
  have h₁ := hP _ hs nofun
  have he₁ : EndSys.monitor { s with mon := .senders t 0 } = { s with mon := .receivers t 0 } := by
    unfold EndSys.monitor
    simp only [if_pos]
    rw [hr]
  rw [he₁] at h₁
  exact hP _ h₁ nofun

end Recover

section Start

/-- Nobody is there. -/
def vacantEnds : EndSys := ⟨Shm.zero, fun _ => .unregistered, .idle, fun _ => .raw⟩

/-- `cxl_segment_alloc` has claimed segment `i` for client `t`. -/
def Shm.claimSegment (m : Shm) (i t : Nat) : Shm :=
  { m with sas := Function.update m.sas i ⟨t, 0, .normal, 0⟩ }

/-- Client `t` has registered and claimed a segment. -/
structure Started (t i : Nat) (s : EndSys) : Prop where
  reach : OrderlyReach s
  pc : ∀ u, s.pc u = if u = t then .idle else .unregistered
  mon : s.mon = .idle
  stage : ∀ q, s.stage q = .raw
  owner : s.shm.owner i = t
  unmarked : ¬ s.shm.abandoned i
  heads : (s.shm.tls t).senderQueue = 0 ∧ (s.shm.tls t).receiverQueue = 0

theorem started_run {t : Nat} (ht : 1 ≤ t ∧ t ≤ maxThread) (i : Nat) : ∃ s, Started t i s := by
  have h₀ : OrderlyReach vacantEnds :=
    .init ⟨fun _ => rfl, rfl, fun _ => rfl, fun _ => rfl, fun _ => rfl⟩ trivial
  have h₁ : OrderlyReach (vacantEnds.next (.register t)) := h₀.next _ ⟨ht.1, ht.2, rfl⟩ trivial
  generalize hs : vacantEnds.next (.register t) = s at h₁
  have hpc : ∀ u, s.pc u = if u = t then .idle else .unregistered := by
    intro u
    rw [← hs]
    exact EndSys.setPc_pc vacantEnds t u .idle
  have hstage : ∀ q, s.stage q = .raw := fun q => by rw [← hs]; rfl
  have hnone : ∀ q, ¬ s.Handed q := by
    rintro q (hq | ⟨u, hu⟩)
    · exact hq (hstage q)
    · rw [hpc] at hu
      split at hu <;> cases hu
  have h₂ : OrderlyReach (s.next (.env (s.shm.claimSegment i t))) :=
    h₁.next _ ⟨fun q hq => absurd hq (hnone q), fun _ => ⟨rfl, rfl⟩⟩ trivial
  have hsas : (s.next (.env (s.shm.claimSegment i t))).shm.sas i = ⟨t, 0, .normal, 0⟩ :=
    Function.update_self ..
  refine ⟨_, h₂, hpc, by rw [← hs]; rfl, hstage, ?_, ?_, ?_⟩
  · unfold Shm.owner
    rw [hsas]
  · unfold Shm.abandoned
    rw [hsas]
    nofun
  · have htls : ((s.next (.env (s.shm.claimSegment i t))).shm.tls t) =
        (vacantEnds.shm.tls t).resetQueues := by
      rw [← hs]
      exact setTls_self
    rw [htls]
    exact ⟨rfl, rfl⟩

/-- Client `t` has stored the `sender_id` of `q` and done nothing else since `s`. -/
structure Named (s : EndSys) (t q : Nat) (s' : EndSys) : Prop where
  reach : OrderlyReach s'
  shm : s'.shm = s.shm.setSenderId q t
  mon : s'.mon = s.mon
  pc : ∀ u, s'.pc u = if u = t then .storeReceiverZero q else s.pc u
  stage : ∀ q', s'.stage q' = if q' = q then .named else s.stage q'

theorem named_run {s : EndSys} {t q : Nat} (h : OrderlyReach s) (hen : (EndMove.alloc t q).enabled s) :
    ∃ s', Named s t q s' := by
  have h₁ : OrderlyReach (s.setPc t (.storeSenderId q)) := h.next (.alloc t q) hen trivial
  have hpc₁ : (s.setPc t (.storeSenderId q)).pc t = .storeSenderId q :=
    (EndSys.setPc_pc s t t _).trans (if_pos rfl)
  have h₂ : OrderlyReach ((s.setPc t (.storeSenderId q)).access t) := by
    refine h₁.next (.access t) ?_ ?_
    · show ((s.setPc t (.storeSenderId q)).pc t).moving
      rw [hpc₁]
      trivial
    · intro q' hq'
      rw [hpc₁] at hq'
      cases hq'
  unfold EndSys.access at h₂
  simp only [hpc₁] at h₂
  refine ⟨_, h₂, rfl, rfl, fun u => ?_, fun q' => EndSys.setStage_stage ..⟩
  refine (EndSys.setPc_pc _ t u _).trans ?_
  split
  · rfl
  · rename_i hut
    exact (EndSys.setPc_pc s t u _).trans (if_neg hut)

/-- What a crash right after that leaves. -/
theorem Named.crash {s s' : EndSys} {t q : Nat} (h : Named s t q s') :
    (s'.next (.crash t)).shm = s.shm.setSenderId q t ∧ (s'.next (.crash t)).mon = s.mon ∧
      (s'.next (.crash t)).pc t = .crashed (some q) none ∧
      (s'.next (.crash t)).stage q = .named ∧
      (EndMove.crash t).enabled s' ∧ (s'.pc t).building = some q := by
  have hpc : s'.pc t = .storeReceiverZero q := (h.pc t).trans (if_pos rfl)
  refine ⟨h.shm, h.mon, ?_, (h.stage q).trans (if_pos rfl), ?_, by rw [hpc]; rfl⟩
  · refine (EndSys.setPc_pc s' t t _).trans ?_
    rw [if_pos rfl, hpc]
    rfl
  · show s'.pc t ≠ .unregistered ∧ ∀ a b, s'.pc t ≠ .crashed a b
    rw [hpc]
    exact ⟨nofun, nofun⟩

/-- Client `t` has come to `pc` in the creation of `q`. -/
structure Creating (s : EndSys) (t q : Nat) (pc : EndPc) (s' : EndSys) : Prop where
  reach : OrderlyReach s'
  at_pc : s'.pc t = pc
  mon : s'.mon = s.mon
  pc : ∀ u, u ≠ t → s'.pc u = s.pc u
  stage : ∀ q', q' ≠ q → s'.stage q' = s.stage q'
  sas : s'.shm.sas = s.shm.sas
  tls : s'.shm.tls = s.shm.tls

/-- An access of `block_to_msg_queue`. -/
theorem Creating.access {s s' : EndSys} {t q : Nat} {pc pc' : EndPc} {m : Shm}
    (h : Creating s t q pc s') (hpc : pc.moving ∧ ∀ q', pc ≠ .testReceiver q')
    (hnext : (s'.access t).shm = m ∧ (s'.access t).pc = (s'.setPc t pc').pc ∧
      (s'.access t).mon = s'.mon ∧ ∀ q', q' ≠ q → (s'.access t).stage q' = s'.stage q')
    (hm : m.sas = s'.shm.sas ∧ m.tls = s'.shm.tls) : Creating s t q pc' (s'.access t) := by
  obtain ⟨hshm, hpcs, hmon, hstage⟩ := hnext
  have hreach : OrderlyReach (s'.access t) := by
    refine h.reach.next (.access t) ?_ ?_
    · show (s'.pc t).moving
      rw [h.at_pc]
      exact hpc.1
    · intro q' hq'
      exact absurd (h.at_pc.symm.trans hq') (hpc.2 q')
  refine ⟨hreach, ?_, hmon.trans h.mon, ?_, ?_, ?_, ?_⟩
  · rw [hpcs, EndSys.setPc_pc, if_pos rfl]
  · intro u hut
    rw [hpcs, EndSys.setPc_pc, if_neg hut]
    exact h.pc u hut
  · exact fun q' hq' => (hstage q' hq').trans (h.stage q' hq')
  · rw [hshm, hm.1, h.sas]
  · rw [hshm, hm.2, h.tls]

theorem access_clear {s : EndSys} {t q k : Nat} (h : s.pc t = .clear q k) :
    s.access t = { s.setPc t (if k + 1 < clearedWords then .clear q (k + 1) else .storeSenderNext q) with
      shm := s.shm.store (clearedWord q k) 0 } := by
  unfold EndSys.access
  rw [h]

theorem clear_run {s s' : EndSys} {t q k n : Nat} (hn : k + 1 + n = clearedWords)
    (h : Creating s t q (.clear q k) s') : ∃ s'', Creating s t q (.storeSenderNext q) s'' := by
  induction n generalizing k s' with
  | zero =>
    refine ⟨_, h.access ⟨trivial, nofun⟩ (m := s'.shm.store (clearedWord q k) 0) ?_ ⟨rfl, rfl⟩⟩
    rw [access_clear h.at_pc, if_neg (by omega)]
    exact ⟨rfl, rfl, rfl, fun _ _ => rfl⟩
  | succ n ih =>
    refine ih (k := k + 1) (by omega)
      (h.access ⟨trivial, nofun⟩ (m := s'.shm.store (clearedWord q k) 0) ?_ ⟨rfl, rfl⟩)
    rw [access_clear h.at_pc, if_pos (by omega)]
    exact ⟨rfl, rfl, rfl, fun _ _ => rfl⟩

/-- Client `t` has created the queue `q`. -/
structure CreatedQueue (s : EndSys) (t q : Nat) (s' : EndSys) : Prop where
  reach : OrderlyReach s'
  mon : s'.mon = s.mon
  pc : ∀ u, s'.pc u = if u = t then .idle else s.pc u
  stage : ∀ q', s'.stage q' = if q' = q then .linked else s.stage q'
  sas : s'.shm.sas = s.shm.sas
  head : (s'.shm.tls t).senderQueue = q ∧
    (s'.shm.tls t).receiverQueue = (s.shm.tls t).receiverQueue
  next : s'.shm.senderNext q = (s.shm.tls t).senderQueue

/-- **A creation that is not cut short** puts the queue on the list of its sender. -/
theorem created_run {s : EndSys} {t q : Nat} (h : OrderlyReach s)
    (hen : (EndMove.alloc t q).enabled s) : ∃ s', CreatedQueue s t q s' := by
  obtain ⟨s₁, h₁⟩ := named_run h hen
  have hc₁ : Creating s t q (.storeReceiverZero q) s₁ := by
    refine ⟨h₁.reach, (h₁.pc t).trans (if_pos rfl), h₁.mon, fun u hut => (h₁.pc u).trans (if_neg hut),
      fun q' hq' => (h₁.stage q').trans (if_neg hq'), ?_, ?_⟩
    · rw [h₁.shm]
      rfl
    · rw [h₁.shm]
      rfl
  have hc₂ : Creating s t q (.clear q 0) (s₁.access t) := by
    refine hc₁.access ⟨trivial, nofun⟩ (m := s₁.shm.setReceiverId q 0) ?_ ⟨rfl, rfl⟩
    unfold EndSys.access
    rw [hc₁.at_pc]
    exact ⟨rfl, rfl, rfl, fun q' hq' => (EndSys.setStage_stage ..).trans (if_neg hq')⟩
  obtain ⟨s₃, hc₃⟩ := clear_run (n := clearedWords - 1) (by decide) hc₂
  have hshm₄ : (s₃.access t).shm = s₃.shm.store (q + 24) (s₃.shm.tls t).senderQueue := by
    unfold EndSys.access
    rw [hc₃.at_pc]
  have hc₄ : Creating s t q (.storeSenderQueue q) (s₃.access t) := by
    refine hc₃.access ⟨trivial, nofun⟩ ⟨hshm₄, ?_⟩ ⟨rfl, rfl⟩
    unfold EndSys.access
    rw [hc₃.at_pc]
    exact ⟨rfl, rfl, fun _ _ => rfl⟩
  generalize s₃.access t = s₄ at hshm₄ hc₄
  have h₅ : OrderlyReach (s₄.access t) := by
    refine hc₄.reach.next (.access t) ?_ ?_
    · show (s₄.pc t).moving
      rw [hc₄.at_pc]
      trivial
    · intro q' hq'
      rw [hc₄.at_pc] at hq'
      cases hq'
  have he₅ : s₄.access t = { (s₄.setPc t .idle).setStage q .linked with
      shm := s₄.shm.setTls t { s₄.shm.tls t with senderQueue := q } } := by
    unfold EndSys.access
    rw [hc₄.at_pc]
  rw [he₅] at h₅
  refine ⟨_, h₅, hc₄.mon, fun u => ?_, fun q' => ?_, hc₄.sas, ?_, ?_⟩
  · refine (EndSys.setPc_pc s₄ t u _).trans ?_
    split
    · rfl
    · rename_i hut
      exact hc₄.pc u hut
  · refine (EndSys.setStage_stage ..).trans ?_
    split
    · rfl
    · rename_i hqq
      exact hc₄.stage q' hqq
  · show ((s₄.shm.setTls t _).tls t).senderQueue = q ∧ ((s₄.shm.setTls t _).tls t).receiverQueue = _
    rw [setTls_self, hc₄.tls]
    exact ⟨rfl, rfl⟩
  · have hword : s₄.shm.senderNext q = (s₃.shm.tls t).senderQueue := by
      rw [hshm₄]
      exact Function.update_self ..
    exact hword.trans (by rw [hc₃.tls])

end Start

/-- The monitor with one queue on the sender list and nothing on the receiver list. -/
theorem oneQueue_run {P : EndSys → Prop} (hP : ∀ s, P s → s.mon ≠ .idle → P s.monitor) {s : EndSys}
    {t q : Nat} (hs : P { s with mon := .senders t q }) (hq : q ≠ 0)
    (hnext : s.shm.senderNext q = 0) (hr : (s.shm.tls t).receiverQueue = 0) :
    P { s with
      mon := .objects t
      shm := (s.shm.setSenderId q 0).setSegmentState (segmentIdx q) .abandon } := by
  have h₁ := hP _ hs nofun
  have he₁ : EndSys.monitor { s with mon := .senders t q } =
      { s with mon := .storeSenderId t q 0 } := by
    unfold EndSys.monitor
    simp only [if_neg hq, hnext]
  rw [he₁] at h₁
  exact emptyLists_run (s := { s with
    shm := (s.shm.setSenderId q 0).setSegmentState (segmentIdx q) .abandon }) hP
    (hP _ (hP _ h₁ nofun) nofun) hr

/-! ## §5 — what recovery leaves -/

/-- **No orphaned queue.** In every run all of whose moves are orderly, a client that has no slot,
because it never had one or because the monitor has recovered it, is neither the sender nor the
receiver of a queue in a claimed segment. -/
theorem recovered_no_end {s : EndSys} (h : OrderlyReach s) {t : Nat} (ht : t ≠ 0)
    (hpc : s.pc t = .unregistered) (q : Nat) : ¬ HasEnd s t q := by
  obtain ⟨S, R, hinv⟩ := h.inv
  exact hinv.no_end ht hpc q

/-- Client 1 crashes in its first `create_msg_queue` and is recovered: the block still carries its id,
but the segment has been given back. -/
theorem recovered_no_end_first : ∃ s q, OrderlyReach s ∧ s.pc 1 = .unregistered ∧
    s.shm.senderId q = 1 ∧ ¬ HasEnd s 1 q := by
  obtain ⟨q, hlow, hidx⟩ : ∃ q, segmentsAreaStart ≤ q ∧ segmentIdx q < maxSegmentNum :=
    ⟨segmentsAreaStart, Nat.le_refl _, by decide⟩
  obtain ⟨s₀, h₀⟩ := started_run (t := 1) (by decide) (segmentIdx q)
  have hen : (EndMove.alloc 1 q).enabled s₀ := by
    refine ⟨(h₀.pc 1).trans (if_pos rfl), hlow, hidx, h₀.owner, ?_⟩
    rintro q' (hq' | ⟨u, hu⟩)
    · exact absurd (h₀.stage q') hq'
    · rw [h₀.pc] at hu
      split at hu <;> cases hu
  obtain ⟨s₁, h₁⟩ := named_run h₀.reach hen
  obtain ⟨hshm, hmon, hpc, -, hcrash, hb⟩ := h₁.crash
  have h₂ : OrderlyReach (s₁.next (.crash 1)) := by
    refine h₁.reach.next _ hcrash ?_
    intro q' hq'
    rw [hb] at hq'
    rw [← Option.some.inj hq']
    refine ⟨?_, ?_⟩
    · rw [h₁.shm]
      exact h₀.unmarked
    · intro q'' hq''
      rw [h₁.stage, h₀.stage] at hq''
      split at hq'' <;> cases hq''
  generalize s₁.next (.crash 1) = s₂ at h₂ hshm hmon hpc
  have hhead : (s₂.shm.tls 1).senderQueue = 0 ∧ (s₂.shm.tls 1).receiverQueue = 0 := by
    rw [hshm]
    exact h₀.heads
  have h₃ : OrderlyReach { s₂ with mon := .senders 1 (s₂.shm.tls 1).senderQueue } :=
    h₂.next (.inspect 1) ⟨hmon.trans h₀.mon, _, _, hpc⟩ trivial
  rw [hhead.1] at h₃
  have hmonitor : ∀ s : EndSys, OrderlyReach s → s.mon ≠ .idle → OrderlyReach s.monitor :=
    fun s hs hne => hs.next .monitor hne trivial
  obtain ⟨s₄, h₄, hfree, hkept⟩ := recovery_run hmonitor (emptyLists_run hmonitor h₃ hhead.2) rfl
  refine ⟨s₄, q, h₄, hfree, ?_, recovered_no_end h₄ (by decide) hfree q⟩
  unfold Shm.senderId
  rw [hkept.word]
  show s₂.shm.senderId q = 1
  rw [hshm]
  exact setSenderId_senderId (by decide)

/-- Client 1 creates a queue and crashes in its next `create_msg_queue`, after the store of
`sender_id`. The first queue keeps their segment, and the second is on no list. -/
theorem recovered_end_remains : ∃ s q, EndReach s ∧ s.pc 1 = .unregistered ∧ HasEnd s 1 q := by
  obtain ⟨q₁, q₂, hlow, hlow₂, hidx, hsame, happ⟩ : ∃ q₁ q₂, segmentsAreaStart ≤ q₁ ∧
      segmentsAreaStart ≤ q₂ ∧ segmentIdx q₁ < maxSegmentNum ∧ segmentIdx q₂ = segmentIdx q₁ ∧
      QueuesApart q₂ q₁ :=
    ⟨segmentsAreaStart, segmentsAreaStart + sizeofMessageQueue, by decide, by decide, by decide,
      by decide, Or.inr (Nat.le_refl _)⟩
  have hq₁ : q₁ ≠ 0 := by
    rintro rfl
    exact absurd hlow (by decide)
  obtain ⟨s₀, h₀⟩ := started_run (t := 1) (by decide) (segmentIdx q₁)
  have hen₁ : (EndMove.alloc 1 q₁).enabled s₀ := by
    refine ⟨(h₀.pc 1).trans (if_pos rfl), hlow, hidx, h₀.owner, ?_⟩
    rintro q' (hq' | ⟨u, hu⟩)
    · exact absurd (h₀.stage q') hq'
    · rw [h₀.pc] at hu
      split at hu <;> cases hu
  obtain ⟨s₁, h₁⟩ := created_run h₀.reach hen₁
  have hown₁ : s₁.shm.owner (segmentIdx q₁) = 1 := by
    rw [← h₀.owner]
    exact (sas_eq (by rw [h₁.sas])).1
  have hen₂ : (EndMove.alloc 1 q₂).enabled s₁ := by
    refine ⟨(h₁.pc 1).trans (if_pos rfl), hlow₂, by rw [hsame]; exact hidx, ?_, ?_⟩
    · rw [hsame]
      exact hown₁
    rintro q' (hq' | ⟨u, hu⟩)
    · rw [h₁.stage, h₀.stage] at hq'
      split at hq'
      · rename_i hqq
        rw [hqq]
        exact happ
      · exact absurd rfl hq'
    · rw [h₁.pc, h₀.pc] at hu
      split at hu
      · cases hu
      · cases hu
  obtain ⟨s₂, h₂⟩ := named_run h₁.reach hen₂
  obtain ⟨hshm, hmon, hpc, hst, hcrash, -⟩ := h₂.crash
  have h₃ : EndReach (s₂.next (.crash 1)) := h₂.reach.endReach.next _ hcrash
  generalize s₂.next (.crash 1) = s₃ at h₃ hshm hmon hpc hst
  have hhead : (s₃.shm.tls 1).senderQueue = q₁ ∧ (s₃.shm.tls 1).receiverQueue = 0 := by
    rw [hshm]
    exact ⟨h₁.head.1, h₁.head.2.trans h₀.heads.2⟩
  have h₄ : EndReach { s₃ with mon := .senders 1 (s₃.shm.tls 1).senderQueue } :=
    h₃.next (.inspect 1) ⟨hmon.trans (h₁.mon.trans h₀.mon), _, _, hpc⟩
  rw [hhead.1] at h₄
  have hnext : s₃.shm.senderNext q₁ = 0 := by
    rw [hshm, (SameEnds.setSenderId happ).senderNext, h₁.next]
    exact h₀.heads.1
  have hmonitor : ∀ s : EndSys, EndReach s → s.mon ≠ .idle → EndReach s.monitor :=
    fun s hs hne => hs.next .monitor hne
  have h₅ := oneQueue_run hmonitor h₄ hq₁ hnext hhead.2
  obtain ⟨s₆, h₆, hfree, hkept⟩ := recovery_run hmonitor h₅ rfl
  obtain ⟨hsas, hstage⟩ := hkept.marked (segmentIdx q₁)
    ((abandoned_setSegmentState _ _ _).mpr (Or.inl rfl))
  refine ⟨s₆, q₂, h₆, hfree, ?_, Or.inl ⟨?_, ?_⟩⟩
  · rw [hsame, (sas_eq hsas).1, owner_setSegmentState]
    show s₃.shm.owner (segmentIdx q₁) ≠ 0
    rw [hshm]
    show s₁.shm.owner (segmentIdx q₁) ≠ 0
    rw [hown₁]
    nofun
  · rw [hstage q₂ hsame]
    show s₃.stage q₂ ≠ _
    rw [hst]
    nofun
  · unfold Shm.senderId
    rw [hkept.word]
    show (s₃.shm.setSenderId q₁ 0).senderId q₂ = 1
    rw [(SameEnds.setSenderId happ.symm).senderId, hshm]
    exact setSenderId_senderId (by decide)

end CxlShm
