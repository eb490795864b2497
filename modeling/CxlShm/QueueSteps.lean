import CxlShm.QueueInvariant

/-! # QueueSteps — the stores of `create_msg_queue` and of the attachment

One lemma for each access of a client: the invariant holds after it, with the queue at the head of a
list where the access links it.
-/

namespace CxlShm

open Transition Loop

section Create

variable {S R : Nat → List Nat} {s : EndSys} {t q : Nat}

/-! ## §1 — `create_msg_queue` -/

/-- A store to a block leaves the ends of the other blocks. -/
theorem EndInv.others (h : EndInv S R s) {i v : Nat} (hq : s.Handed q) (hi : i < sizeofMessageQueue) :
    ∀ q', s.Handed q' → q' ≠ q → SameEnds s.shm (s.shm.store (q + i) v) q' :=
  fun q' hq' hne => SameEnds.store (h.block.apart q q' hq hq' hne.symm) hi

theorem MonInv.small (h : MonInv s) (hpc : s.pc t ≠ .unregistered) : t < 2 ^ 16 := by
  have hle := (h.range t hpc).2
  unfold maxThread at hle
  omega

/-- The monitor is not concerned by a move of a live client. -/
theorem EndInv.monitorStays (h : EndInv S R s) {s' : EndSys} {pc : EndPc}
    (hlive : s.pc t ≠ .unregistered ∧ ∀ a b, s.pc t ≠ .crashed a b) (hmon : s'.mon = s.mon)
    (hpc : s'.pc = (s.setPc t pc).pc) (hne : pc ≠ .unregistered)
    (hheads : ∀ u, u ≠ t → s'.shm.tls u = s.shm.tls u)
    (hends : ∀ q', s.stage q' = .linked → s'.shm.senderNext q' = s.shm.senderNext q')
    (hreceivers : ∀ u, ∀ q' ∈ R u, s'.shm.receiverNext q' = s.shm.receiverNext q') :
    MonInv s' := by
  have hout := h.outside hlive.2
  have hother : ∀ u, s.mon.client = some u → u ≠ t := by
    rintro u hu rfl
    exact hout hu
  refine h.mon.congr hmon ?_ ?_ ?_ ?_ ?_
  · intro u hu
    rw [hpc, EndSys.setPc_pc, if_neg (hother u hu)]
  · intro u hu
    by_cases hut : u = t
    · rw [hut]
      exact h.mon.range t hlive.1
    · rw [hpc, EndSys.setPc_pc, if_neg hut] at hu
      exact h.mon.range u hu
  · rintro u (hu | hm)
    · rw [hpc] at hu
      obtain ⟨hut, hu⟩ := EndSys.setPc_eq hu hne
      rw [hheads u hut]
      exact h.mon.heads u (Or.inl hu)
    · rw [hheads u (hother u (by rw [hm]; rfl))]
      exact h.mon.heads u (Or.inr hm)
  · intro u q' next hm
    exact hends q' (h.monitored.1 hm).2
  · intro u q' next hm
    exact hreceivers u q' (h.monitored.2 hm)

theorem EndInv.alloc (h : EndInv S R s) (hen : (EndMove.alloc t q).enabled s) :
    EndInv S R (s.setPc t (.storeSenderId q)) := by
  obtain ⟨hpc, hlow, hidx, hown, happ⟩ := hen
  have hpc' : ∀ u x, (s.setPc t (.storeSenderId q)).pc u = x → x ≠ .storeSenderId q →
      s.pc u = x := by
    intro u x hu hx
    exact (EndSys.setPc_eq hu hx.symm).2
  have hbuild : ∀ u, ((s.setPc t (.storeSenderId q)).pc u).building = (s.pc u).building :=
    EndSys.setPc_view EndPc.building (by rw [hpc]; rfl)
  have hhand : ∀ q', (s.setPc t (.storeSenderId q)).Handed q' → q' = q ∨ s.Handed q' := by
    rintro q' (hq' | ⟨u, hu⟩)
    · exact Or.inr (Or.inl hq')
    · rw [EndSys.setPc_pc] at hu
      split at hu
      · injection hu with hq'
        exact Or.inl hq'.symm
      · exact Or.inr (Or.inr ⟨u, hu⟩)
  refine ⟨?_, ?_, ?_, ?_, ?_⟩
  · refine h.sender.congr (fun _ hq => hq) (fun _ hq => hq) (fun _ _ => rfl) (fun _ _ => rfl)
      (fun _ => rfl) (fun u q' _ hb => (hbuild u).trans hb) ?_ ?_
    · intro u q' hb
      rw [hbuild] at hb
      exact ⟨hb, (h.sender.built u q' hb).1⟩
    · intro u q' hu
      exact h.sender.next u q' (hpc' u _ hu nofun)
  · refine h.receiver.congr (fun _ => Or.inl) h.receiver.fresh (fun _ hq => hq) (fun _ _ => rfl)
      (fun _ _ _ => rfl) (fun _ => rfl) ?_
      (EndSys.setPc_view EndPc.unnamed (by rw [hpc]; rfl)) ?_
    · intro u q' hu
      exact (EndSys.setPc_some EndPc.attaching hu rfl).2
    · intro u q' hu
      exact h.receiver.next u q' (hpc' u _ hu nofun)
  · refine ⟨?_, ?_, ?_, ?_, ?_, ?_, ?_, ?_⟩
    · intro q₁ q₂ h₁ h₂ hne
      rcases hhand q₁ h₁ with rfl | h₁
      · rcases hhand q₂ h₂ with rfl | h₂
        · exact absurd rfl hne
        · exact happ q₂ h₂
      · rcases hhand q₂ h₂ with hq₂ | h₂
        · rw [hq₂]
          exact (happ q₁ h₁).symm
        · exact h.block.apart q₁ q₂ h₁ h₂ hne
    · intro q' hq'
      rcases hhand q' hq' with rfl | hq'
      · exact ⟨hlow, hidx⟩
      · exact h.block.bound q' hq'
    · intro u q' hu
      rw [EndSys.setPc_pc] at hu
      split at hu
      · injection hu with hq'
        -- a block that is a queue already would overlap itself
        by_contra hst
        have hself := happ q (Or.inl (by rw [hq']; exact hst))
        unfold QueuesApart sizeofMessageQueue at hself
        omega
      · exact h.block.handed u q' hu
    · intro u q' hu
      exact h.block.named u q' (hpc' u _ hu nofun)
    · intro u q' hu
      exact h.block.clearing u q' (EndSys.setPc_some EndPc.clearing hu rfl).2
    · intro u q' k hu
      exact h.block.words u q' k (hpc' u _ hu nofun)
    · intro q' hst
      obtain ⟨u, hu⟩ := h.block.owned q' hst
      exact ⟨u, (hbuild u).trans hu⟩
    · intro u q' hu
      exact h.block.testing u q' (hpc' u _ hu nofun)
  · refine ⟨h.seg.mem, ?_, h.seg.marking, h.seg.linked, ?_⟩
    · intro u q' hu
      rw [hbuild] at hu
      rcases hu with hu | hu
      · exact h.seg.built u q' (Or.inl hu)
      · rw [EndSys.setPc_pc] at hu
        split at hu
        · rename_i hut
          have hq' : q = q' := EndPc.storeSenderId.inj hu
          subst hut hq'
          exact hown
        · exact h.seg.built u q' (Or.inr hu)
    · intro u q' b hu
      have hfree := h.seg.unlinked u q' b (hpc' u _ hu nofun)
      exact ⟨hfree.unmarked, hfree.senders, hfree.marking⟩
  · exact h.monitorStays (by rw [hpc]; exact ⟨nofun, nofun⟩) rfl rfl nofun (fun _ _ => rfl)
      (fun _ _ => rfl) (fun _ _ _ => rfl)

/-- A move of client `t` to `pc` that leaves block `q` at stage `st` and the memory `m`. -/
structure Moved (s : EndSys) (t : Nat) (pc : EndPc) (q : Nat) (st : QueueStage) (m : Shm)
    (s' : EndSys) : Prop where
  shm : s'.shm = m
  mon : s'.mon = s.mon
  pc : s'.pc = (s.setPc t pc).pc
  stage : ∀ q', s'.stage q' = if q' = q then st else s.stage q'

section Moved

variable {s' : EndSys} {pc x : EndPc} {st : QueueStage} {m : Shm} {u q' : Nat}
  (hm : Moved s t pc q st m s')
include hm

theorem Moved.pc_eq (h : s'.pc u = x) (hne : pc ≠ x) : u ≠ t ∧ s.pc u = x := by
  rw [hm.pc] at h
  exact EndSys.setPc_eq h hne

theorem Moved.pc_some (f : EndPc → Option Nat) (h : f (s'.pc u) = some q') (hne : f pc = none) :
    u ≠ t ∧ f (s.pc u) = some q' := by
  rw [hm.pc] at h
  exact EndSys.setPc_some f h hne

theorem Moved.view {α : Type*} (f : EndPc → α) (hf : f pc = f (s.pc t)) (u : Nat) :
    f (s'.pc u) = f (s.pc u) := by
  rw [hm.pc]
  exact EndSys.setPc_view f hf u

theorem Moved.pc_self : s'.pc t = pc := by
  rw [hm.pc, EndSys.setPc_pc, if_pos rfl]

theorem Moved.pc_of_ne (h : u ≠ t) : s'.pc u = s.pc u := by
  rw [hm.pc, EndSys.setPc_pc, if_neg h]

theorem Moved.stage_self : s'.stage q = st := by
  rw [hm.stage, if_pos rfl]

theorem Moved.stage_of_ne (h : q' ≠ q) : s'.stage q' = s.stage q' := by
  rw [hm.stage, if_neg h]

/-- Only the block of the move gets to a new stage. -/
theorem Moved.stage_cases (h : s'.stage q' = st) : q' = q ∨ s.stage q' = st := by
  by_cases hqq : q' = q
  · exact Or.inl hqq
  · exact Or.inr ((hm.stage_of_ne hqq).symm.trans h)

/-- A move beyond the choice of a block hands out nothing new. -/
theorem Moved.handed (hq : s.Handed q) (hpc : pc ≠ .storeSenderId q') (h : s'.Handed q') :
    s.Handed q' := by
  by_cases hqq : q' = q
  · rw [hqq]
    exact hq
  · rcases h with hst | ⟨u, hu⟩
    · rw [hm.stage_of_ne hqq] at hst
      exact Or.inl hst
    · exact Or.inr ⟨u, (hm.pc_eq hu hpc).2⟩

theorem Moved.sameSeg (h : m.sas = s.shm.sas) (q' : Nat) : SameSeg s.shm s'.shm q' :=
  SameSeg.of_sas (by rw [hm.shm, h]) q'

end Moved

/-- `q->sender_id = sender_id`. -/
theorem EndInv.storeSenderId (h : EndInv S R s) (hpc : s.pc t = .storeSenderId q) {s' : EndSys}
    (hm : Moved s t (.storeReceiverZero q) q .named (s.shm.setSenderId q t) s') : EndInv S R s' := by
  have hraw := h.block.handed t q hpc
  have hq : s.Handed q := Or.inr ⟨t, hpc⟩
  have hown := h.seg.built t q (Or.inr hpc)
  have ht : t < 2 ^ 16 := h.mon.small (by rw [hpc]; nofun)
  have hne : ∀ q', s.stage q' ≠ .raw → q' ≠ q := by
    rintro q' hq' rfl
    exact hq' hraw
  have hothers : ∀ q', s.stage q' ≠ .raw → SameEnds s.shm s'.shm q' := by
    intro q' hq'
    rw [hm.shm]
    exact h.others hq (by decide) q' (Or.inl hq') (hne q' hq')
  have hlinked : ∀ q', s.stage q' = .linked → SameEnds s.shm s'.shm q' :=
    fun q' hq' => hothers q' (linked_ne_raw hq')
  have hold : ∀ q', s.stage q' ≠ .raw → s'.stage q' = s.stage q' :=
    fun q' hq' => hm.stage_of_ne (hne q' hq')
  have hid : s'.shm.senderId q = t := by
    rw [hm.shm]
    exact setSenderId_senderId ht
  have hbuild : ∀ u q', (s'.pc u).building = some q' →
      u = t ∧ q' = q ∨ u ≠ t ∧ (s.pc u).building = some q' := by
    intro u q' hu
    by_cases hut : u = t
    · rw [hut, hm.pc_self] at hu
      exact Or.inl ⟨hut, (Option.some.inj hu).symm⟩
    · rw [hm.pc_of_ne hut] at hu
      exact Or.inr ⟨hut, hu⟩
  have hkeep : ∀ u q', (s.pc u).building = some q' → (s'.pc u).building = some q' := by
    intro u q' hu
    rw [hm.pc_of_ne]
    · exact hu
    · rintro rfl
      rw [hpc] at hu
      cases hu
  refine ⟨?_, ?_, ?_, ?_, ?_⟩
  · have hroot : ∀ u, s'.senderRoot u = s.senderRoot u := by
      intro u
      unfold EndSys.senderRoot
      rw [hm.mon, hm.shm]
      rfl
    refine ⟨?_, h.sender.nodup, ?_, ?_, ?_, ?_⟩
    · intro u
      rw [hroot]
      exact (h.sender.chain u).congr fun q' hq' => by
        simp only [(hlinked q' (h.sender.mem u q' hq').2.1).senderNext]
    · intro u q' hq'
      obtain ⟨hu, hst, hid⟩ := h.sender.mem u q' hq'
      exact ⟨hu, (hold q' (linked_ne_raw hst)).trans hst, (hlinked q' hst).senderId.trans hid⟩
    · intro u q' hst hid' hu
      by_cases hqq : q' = q
      · rw [hqq, hid] at hid'
        right
        rw [← hid', hm.pc_self, hqq]
        rfl
      · rw [hm.stage_of_ne hqq] at hst
        rcases h.sender.all u q' hst ((hothers q' hst).senderId.symm.trans hid') hu with hmem | hb
        · exact Or.inl hmem
        · exact Or.inr (hkeep u q' hb)
    · intro u q' hu
      rcases hbuild u q' hu with ⟨hut, hqq⟩ | ⟨-, hb⟩
      · rw [hqq, hut]
        exact ⟨Or.inl hm.stage_self, hid⟩
      · have hst := h.sender.built_ne_raw hb
        rw [hold q' hst, (hothers q' hst).senderId]
        exact h.sender.built u q' hb
    · intro u q' hu
      obtain ⟨-, hu⟩ := hm.pc_eq hu nofun
      have hst := h.sender.built_ne_raw (t := u) (q := q') (by rw [hu]; rfl)
      rw [(hothers q' hst).senderNext, hm.shm]
      exact h.sender.next u q' hu
  · have hback : ∀ q', s'.stage q' = .cleared ∨ s'.stage q' = .linked → s'.stage q' = s.stage q' := by
      intro q' hst
      refine hm.stage_of_ne ?_
      rintro rfl
      rw [hm.stage_self] at hst
      exact hst.elim nofun nofun
    refine h.receiver.congr ?_ ?_ ?_ ?_ ?_ ?_ ?_ (hm.view EndPc.unnamed (by rw [hpc]; rfl)) ?_
    · intro q' hst
      rw [hback q' hst] at hst
      exact Or.inl hst
    · intro q' hst
      rw [hback q' (Or.inl hst)] at hst
      exact (hothers q' (by rw [hst]; nofun)).receiverId.trans (h.receiver.fresh q' hst)
    · intro q' hst
      exact (hold q' (linked_ne_raw hst)).trans hst
    · intro q' hst
      refine (hothers q' ?_).receiverId
      rcases hst with hst | hst <;> rw [hst] <;> nofun
    · intro u q' hq'
      exact (hlinked q' (h.receiver.mem u q' hq').2.1).receiverNext
    · intro u
      unfold EndSys.receiverRoot
      rw [hm.mon, hm.shm]
      rfl
    · intro u q' hu
      exact (hm.pc_some EndPc.attaching hu rfl).2
    · intro u q' hu
      obtain ⟨-, hu⟩ := hm.pc_eq hu nofun
      have hst := (h.receiver.attaching u q' (by rw [hu]; rfl)).1
      rw [(hlinked q' hst).receiverNext, hm.shm]
      exact h.receiver.next u q' hu
  · refine ⟨?_, ?_, ?_, ?_, ?_, ?_, ?_, ?_⟩
    · intro q₁ q₂ h₁ h₂ hne
      exact h.block.apart q₁ q₂ (hm.handed hq nofun h₁) (hm.handed hq nofun h₂) hne
    · intro q' hq'
      exact h.block.bound q' (hm.handed hq nofun hq')
    · intro u q' hu
      obtain ⟨hut, hu⟩ := hm.pc_eq hu nofun
      rw [hm.stage_of_ne]
      · exact h.block.handed u q' hu
      · -- the block belongs to one client, the owner of its segment
        rintro rfl
        exact hut ((h.seg.built u q' (Or.inr hu)).symm.trans hown)
    · intro u q' hu
      rcases hbuild u q' (by rw [hu]; rfl) with ⟨-, hqq⟩ | ⟨hut, -⟩
      · rw [hqq]
        exact hm.stage_self
      · rw [hm.pc_of_ne hut] at hu
        have hst := h.block.named u q' hu
        rw [hold q' (by rw [hst]; nofun)]
        exact hst
    · intro u q' hu
      have hst := h.block.clearing u q' (hm.pc_some EndPc.clearing hu rfl).2
      exact (hold q' (by rw [hst]; nofun)).trans hst
    · intro u q' k hu
      exact h.block.words u q' k (hm.pc_eq hu nofun).2
    · intro q' hst
      by_cases hqq : q' = q
      · refine ⟨t, ?_⟩
        rw [hqq, hm.pc_self]
        rfl
      · rw [hm.stage_of_ne hqq] at hst
        obtain ⟨u, hu⟩ := h.block.owned q' hst
        exact ⟨u, hkeep u q' hu⟩
    · intro u q' hu
      have hst := h.block.testing u q' (hm.pc_eq hu nofun).2
      exact (hold q' (linked_ne_raw hst)).trans hst
  · refine h.seg.congr h.sender ?_ (fun q' _ => hm.sameSeg rfl q') ?_ ?_ ?_
    · intro q'
      by_cases hqq : q' = q
      · rw [hqq, hm.stage_self, hraw]
        exact ⟨nofun, nofun⟩
      · rw [hm.stage_of_ne hqq]
    · rintro u q' (hu | hu)
      · rcases hbuild u q' hu with ⟨hut, hqq⟩ | ⟨-, hb⟩
        · right
          rw [hut, hqq]
          exact hpc
        · exact Or.inl hb
      · exact Or.inr (hm.pc_eq hu nofun).2
    · intro u q' next
      rw [hm.mon]
    · intro u q' b hu
      exact h.seg.unlinked u q' b (hm.pc_eq hu nofun).2
  · exact h.monitorStays (by rw [hpc]; exact ⟨nofun, nofun⟩) hm.mon hm.pc nofun
      (fun _ _ => by rw [hm.shm]; rfl) (fun q' hq' => (hlinked q' hq').senderNext)
      (fun u q' hq' => (hlinked q' (h.receiver.mem u q' hq').2.1).receiverNext)

/-- `q->receiver_id = 0`. -/
theorem EndInv.storeReceiverZero (h : EndInv S R s) (hpc : s.pc t = .storeReceiverZero q)
    {s' : EndSys} (hm : Moved s t (.clear q 0) q .cleared (s.shm.setReceiverId q 0) s') :
    EndInv S R s' := by
  have hst := h.block.named t q hpc
  have hb : (s.pc t).building = some q := by rw [hpc]; rfl
  have hq : s.Handed q := Or.inl (h.sender.built_ne_raw hb)
  have hothers : ∀ q', s.Handed q' → q' ≠ q → SameEnds s.shm s'.shm q' := by
    intro q' hq' hne
    rw [hm.shm]
    exact h.others hq (by decide) q' hq' hne
  have hne : ∀ q', s.stage q' ≠ .named → q' ≠ q := by
    rintro q' hq' rfl
    exact hq' hst
  have hlinked : ∀ q', s.stage q' = .linked → SameEnds s.shm s'.shm q' :=
    fun q' hq' => hothers q' (Or.inl (linked_ne_raw hq')) (hne q' (by rw [hq']; nofun))
  have hview := hm.view EndPc.building (by rw [hpc]; rfl)
  refine ⟨?_, ?_, ?_, ?_, ?_⟩
  · refine h.sender.congr ?_ ?_ ?_ (fun q' hq' => (hlinked q' hq').senderNext) ?_
      (fun u q' _ hu => (hview u).trans hu) ?_ ?_
    · intro q' hq'
      by_cases hqq : q' = q
      · rw [hqq, hst]
        nofun
      · rw [hm.stage_of_ne hqq] at hq'
        exact hq'
    · intro q' hq'
      rw [hm.stage_of_ne (hne q' (by rw [hq']; nofun))]
      exact hq'
    · intro q' hq'
      by_cases hqq : q' = q
      · rw [hqq, hm.shm]
        exact setReceiverId_senderId
      · exact (hothers q' (Or.inl hq') hqq).senderId
    · intro u
      unfold EndSys.senderRoot
      rw [hm.mon, hm.shm]
      rfl
    · intro u q' hu
      rw [hview] at hu
      refine ⟨hu, ?_⟩
      by_cases hqq : q' = q
      · rw [hqq]
        exact Or.inr hm.stage_self
      · rw [hm.stage_of_ne hqq]
        exact (h.sender.built u q' hu).1
    · intro u q' hu
      obtain ⟨-, hu⟩ := hm.pc_eq hu nofun
      have hst' := h.block.clearing u q' (by rw [hu]; rfl)
      have hends := hothers q' (Or.inl (by rw [hst']; nofun)) (hne q' (by rw [hst']; nofun))
      rw [hends.senderNext, hm.shm]
      exact h.sender.next u q' hu
  · have hzero : s'.shm.receiverId q = 0 := by
      rw [hm.shm]
      exact setReceiverId_receiverId (by decide)
    refine h.receiver.congr ?_ ?_ ?_ ?_ ?_ ?_ ?_ (hm.view EndPc.unnamed (by rw [hpc]; rfl)) ?_
    · intro q' hq'
      by_cases hqq : q' = q
      · rw [hqq]
        exact Or.inr hzero
      · rw [hm.stage_of_ne hqq] at hq'
        exact Or.inl hq'
    · intro q' hq'
      rcases hm.stage_cases hq' with hqq | hq'
      · rw [hqq]
        exact hzero
      · have hends := hothers q' (Or.inl (by rw [hq']; nofun)) (hne q' (by rw [hq']; nofun))
        exact hends.receiverId.trans (h.receiver.fresh q' hq')
    · intro q' hq'
      rw [hm.stage_of_ne (hne q' (by rw [hq']; nofun))]
      exact hq'
    · intro q' hq'
      refine (hothers q' (Or.inl ?_) (hne q' ?_)).receiverId
      · rcases hq' with hq' | hq' <;> rw [hq'] <;> nofun
      · rcases hq' with hq' | hq' <;> rw [hq'] <;> nofun
    · intro u q' hq'
      exact (hlinked q' (h.receiver.mem u q' hq').2.1).receiverNext
    · intro u
      unfold EndSys.receiverRoot
      rw [hm.mon, hm.shm]
      rfl
    · intro u q' hu
      exact (hm.pc_some EndPc.attaching hu rfl).2
    · intro u q' hu
      obtain ⟨-, hu⟩ := hm.pc_eq hu nofun
      have hst' := (h.receiver.attaching u q' (by rw [hu]; rfl)).1
      rw [(hlinked q' hst').receiverNext, hm.shm]
      exact h.receiver.next u q' hu
  · refine ⟨?_, ?_, ?_, ?_, ?_, ?_, ?_, ?_⟩
    · intro q₁ q₂ h₁ h₂ hne
      exact h.block.apart q₁ q₂ (hm.handed hq nofun h₁) (hm.handed hq nofun h₂) hne
    · intro q' hq'
      exact h.block.bound q' (hm.handed hq nofun hq')
    · intro u q' hu
      have hst' := h.block.handed u q' (hm.pc_eq hu nofun).2
      rw [hm.stage_of_ne (hne q' (by rw [hst']; nofun))]
      exact hst'
    · intro u q' hu
      obtain ⟨hut, hu⟩ := hm.pc_eq hu nofun
      rw [hm.stage_of_ne]
      · exact h.block.named u q' hu
      · -- the block names its one builder
        rintro rfl
        exact hut ((h.sender.built u q' (by rw [hu]; rfl)).2.symm.trans (h.sender.built t q' hb).2)
    · intro u q' hu
      by_cases hut : u = t
      · rw [hut, hm.pc_self] at hu
        rw [← Option.some.inj hu]
        exact hm.stage_self
      · rw [hm.pc_of_ne hut] at hu
        have hst' := h.block.clearing u q' hu
        rw [hm.stage_of_ne (hne q' (by rw [hst']; nofun))]
        exact hst'
    · intro u q' k hu
      by_cases hut : u = t
      · rw [hut, hm.pc_self] at hu
        injection hu with _ hk
        rw [← hk]
        decide
      · rw [hm.pc_of_ne hut] at hu
        exact h.block.words u q' k hu
    · intro q' hst'
      by_cases hqq : q' = q
      · rw [hqq]
        exact ⟨t, (hview t).trans hb⟩
      · rw [hm.stage_of_ne hqq] at hst'
        obtain ⟨u, hu⟩ := h.block.owned q' hst'
        exact ⟨u, (hview u).trans hu⟩
    · intro u q' hu
      have hst' := h.block.testing u q' (hm.pc_eq hu nofun).2
      rw [hm.stage_of_ne (hne q' (by rw [hst']; nofun))]
      exact hst'
  · refine h.seg.congr h.sender ?_ (fun q' _ => hm.sameSeg rfl q') ?_ ?_ ?_
    · intro q'
      by_cases hqq : q' = q
      · rw [hqq, hm.stage_self, hst]
        exact ⟨nofun, nofun⟩
      · rw [hm.stage_of_ne hqq]
    · rintro u q' (hu | hu)
      · exact Or.inl ((hview u).symm.trans hu)
      · exact Or.inr (hm.pc_eq hu nofun).2
    · intro u q' next
      rw [hm.mon]
    · intro u q' b hu
      exact h.seg.unlinked u q' b (hm.pc_eq hu nofun).2
  · exact h.monitorStays (by rw [hpc]; exact ⟨nofun, nofun⟩) hm.mon hm.pc nofun
      (fun _ _ => by rw [hm.shm]; rfl) (fun q' hq' => (hlinked q' hq').senderNext)
      (fun u q' hq' => (hlinked q' (h.receiver.mem u q' hq').2.1).receiverNext)

theorem setTls_of_ne {m : Shm} {tls : Tls} {u : Nat} (h : u ≠ t) : (m.setTls t tls).tls u = m.tls u :=
  Function.update_of_ne h ..

theorem setTls_self {m : Shm} {tls : Tls} : (m.setTls t tls).tls t = tls :=
  Function.update_self ..

theorem EndInv.ne_zero (h : EndInv S R s) (hq : s.Handed q) : q ≠ 0 := by
  have hlow := (h.block.bound q hq).1
  rintro rfl
  exact absurd hlow (by decide)

/-- `tls->sender_queue` is set to the queue. -/
theorem EndInv.storeSenderQueue (h : EndInv S R s) (hpc : s.pc t = .storeSenderQueue q)
    {s' : EndSys} (hm : Moved s t .idle q .linked
      (s.shm.setTls t { s.shm.tls t with senderQueue := q }) s') :
    EndInv (Function.update S t (q :: S t)) R s' := by
  have hst := h.block.clearing t q (by rw [hpc]; rfl)
  have hb : (s.pc t).building = some q := by rw [hpc]; rfl
  have hq : s.Handed q := Or.inl (h.sender.built_ne_raw hb)
  have hid := (h.sender.built t q hb).2
  have hown := h.seg.built t q (Or.inl hb)
  have ht0 : t ≠ 0 := by
    have hle := (h.mon.range t (by rw [hpc]; nofun)).1
    omega
  have hout : s.mon.client ≠ some t := h.outside (by rw [hpc]; nofun)
  have hnew : q ∉ S t := fun hq' => h.sender.built_ne_linked hb (h.sender.mem t q hq').2.1
  have hword : s'.shm.word = s.shm.word := by rw [hm.shm]; rfl
  have hends : ∀ q', SameEnds s.shm s'.shm q' := by
    intro q'
    refine ⟨?_, ?_, ?_⟩
    · rw [hword]
    · unfold Shm.senderNext
      rw [hword]
    · unfold Shm.receiverNext
      rw [hword]
  have htls : ∀ u, u ≠ t → s'.shm.tls u = s.shm.tls u := by
    intro u hu
    rw [hm.shm]
    exact setTls_of_ne hu
  have hhead : (s'.shm.tls t).senderQueue = q ∧
      (s'.shm.tls t).receiverQueue = (s.shm.tls t).receiverQueue := by
    rw [hm.shm, setTls_self]
    exact ⟨rfl, rfl⟩
  have hbuild : ∀ u q', (s'.pc u).building = some q' → u ≠ t ∧ (s.pc u).building = some q' :=
    fun u q' hu => hm.pc_some EndPc.building hu rfl
  -- the block names its one builder
  have hone : ∀ u q', u ≠ t → (s.pc u).building = some q' → q' ≠ q := by
    rintro u q' hut hu rfl
    exact hut ((h.sender.built u q' hu).2.symm.trans hid)
  have hS : ∀ u, S u ⊆ Function.update S t (q :: S t) u := by
    intro u
    by_cases hut : u = t
    · rw [hut, Function.update_self]
      exact List.subset_cons_self q (S t)
    · rw [Function.update_of_ne hut]
      exact List.Subset.refl _
  have hmem : ∀ u q', q' ∈ Function.update S t (q :: S t) u → q' ∈ S u ∨ u = t ∧ q' = q := by
    intro u q' hq'
    by_cases hut : u = t
    · rw [hut, Function.update_self] at hq'
      rcases List.mem_cons.mp hq' with hqq | hq'
      · exact Or.inr ⟨hut, hqq⟩
      · rw [hut]
        exact Or.inl hq'
    · rw [Function.update_of_ne hut] at hq'
      exact Or.inl hq'
  have hlinked : ∀ q', s.stage q' = .linked → s'.stage q' = .linked := by
    intro q' hq'
    rw [hm.stage]
    split
    · rfl
    · exact hq'
  refine ⟨?_, ?_, ?_, ?_, ?_⟩
  · have hchain : ∀ u, Chained (fun q => linkPtr (s'.shm.senderNext q)) (s.senderRoot u) (S u) :=
      fun u => (h.sender.chain u).congr fun q' _ => by simp only [(hends q').senderNext]
    refine ⟨?_, ?_, ?_, ?_, ?_, ?_⟩
    · intro u
      by_cases hut : u = t
      · rw [hut, Function.update_self, EndSys.senderRoot_of_ne (by rw [hm.mon]; exact hout), hhead.1]
        have hc := hchain t
        rw [EndSys.senderRoot_of_ne hout, ← h.sender.next t q hpc, ← (hends q).senderNext] at hc
        exact ⟨if_neg (h.ne_zero hq), hc⟩
      · rw [Function.update_of_ne hut]
        have hroot : s'.senderRoot u = s.senderRoot u := by
          unfold EndSys.senderRoot
          rw [hm.mon, htls u hut]
        rw [hroot]
        exact hchain u
    · intro u
      by_cases hut : u = t
      · rw [hut, Function.update_self]
        exact List.nodup_cons.mpr ⟨hnew, h.sender.nodup t⟩
      · rw [Function.update_of_ne hut]
        exact h.sender.nodup u
    · intro u q' hq'
      rw [(hends q').senderId]
      rcases hmem u q' hq' with hq' | ⟨hut, hqq⟩
      · obtain ⟨hu, hst', hid'⟩ := h.sender.mem u q' hq'
        exact ⟨hu, hlinked q' hst', hid'⟩
      · rw [hut, hqq]
        exact ⟨ht0, hm.stage_self, hid⟩
    · intro u q' hst' hid' hu
      rw [(hends q').senderId] at hid'
      by_cases hqq : q' = q
      · left
        rw [hqq] at hid' ⊢
        rw [← hid', hid, Function.update_self]
        exact List.mem_cons_self
      · rw [hm.stage_of_ne hqq] at hst'
        rcases h.sender.all u q' hst' hid' hu with hmem' | hb'
        · exact Or.inl (hS u hmem')
        · right
          rw [hm.pc_of_ne]
          · exact hb'
          · rintro rfl
            rw [hb] at hb'
            exact hqq (Option.some.inj hb').symm
    · intro u q' hu
      obtain ⟨hut, hu⟩ := hbuild u q' hu
      rw [hm.stage_of_ne (hone u q' hut hu), (hends q').senderId]
      exact h.sender.built u q' hu
    · intro u q' hu
      obtain ⟨hut, hu⟩ := hm.pc_eq hu nofun
      rw [(hends q').senderNext, htls u hut]
      exact h.sender.next u q' hu
  · refine h.receiver.congr ?_ ?_ hlinked (fun q' _ => (hends q').receiverId)
      (fun _ q' _ => (hends q').receiverNext) ?_ ?_ (hm.view EndPc.unnamed (by rw [hpc]; rfl)) ?_
    · intro q' hst'
      by_cases hqq : q' = q
      · rw [hqq]
        exact Or.inl (Or.inl hst)
      · rw [hm.stage_of_ne hqq] at hst'
        exact Or.inl hst'
    · intro q' hst'
      by_cases hqq : q' = q
      · rw [hqq, hm.stage_self] at hst'
        cases hst'
      · rw [hm.stage_of_ne hqq] at hst'
        exact (hends q').receiverId.trans (h.receiver.fresh q' hst')
    · intro u
      unfold EndSys.receiverRoot
      by_cases hut : u = t
      · rw [hm.mon, hut, hhead.2]
      · rw [hm.mon, htls u hut]
    · intro u q' hu
      exact (hm.pc_some EndPc.attaching hu rfl).2
    · intro u q' hu
      obtain ⟨hut, hu⟩ := hm.pc_eq hu nofun
      rw [(hends q').receiverNext, htls u hut]
      exact h.receiver.next u q' hu
  · refine ⟨?_, ?_, ?_, ?_, ?_, ?_, ?_, ?_⟩
    · intro q₁ q₂ h₁ h₂ hne
      exact h.block.apart q₁ q₂ (hm.handed hq nofun h₁) (hm.handed hq nofun h₂) hne
    · intro q' hq'
      exact h.block.bound q' (hm.handed hq nofun hq')
    · intro u q' hu
      have hst' := h.block.handed u q' (hm.pc_eq hu nofun).2
      rw [hm.stage_of_ne]
      · exact hst'
      · rintro rfl
        rw [hst] at hst'
        cases hst'
    · intro u q' hu
      have hst' := h.block.named u q' (hm.pc_eq hu nofun).2
      rw [hm.stage_of_ne]
      · exact hst'
      · rintro rfl
        rw [hst] at hst'
        cases hst'
    · intro u q' hu
      obtain ⟨hut, hu⟩ := hm.pc_some EndPc.clearing hu rfl
      have hst' := h.block.clearing u q' hu
      rw [hm.stage_of_ne]
      · exact hst'
      · refine hone u q' hut ?_
        cases hc : s.pc u with
        | clear q'' k => rw [hc] at hu; exact hu
        | storeSenderNext q'' => rw [hc] at hu; exact hu
        | storeSenderQueue q'' => rw [hc] at hu; exact hu
        | _ => rw [hc] at hu; cases hu
    · intro u q' k hu
      exact h.block.words u q' k (hm.pc_eq hu nofun).2
    · intro q' hst'
      have hqq : q' ≠ q := by
        rintro rfl
        rw [hm.stage_self] at hst'
        exact hst'.elim nofun nofun
      rw [hm.stage_of_ne hqq] at hst'
      obtain ⟨u, hu⟩ := h.block.owned q' hst'
      refine ⟨u, ?_⟩
      rw [hm.pc_of_ne]
      · exact hu
      · rintro rfl
        rw [hb] at hu
        exact hqq (Option.some.inj hu).symm
    · intro u q' hu
      exact hlinked q' (h.block.testing u q' (hm.pc_eq hu nofun).2)
  · have hsas : ∀ q', SameSeg s.shm s'.shm q' := hm.sameSeg rfl
    refine ⟨?_, ?_, ?_, ?_, ?_⟩
    · intro u q' hq'
      rw [(hsas q').1]
      rcases hmem u q' hq' with hq' | ⟨hut, hqq⟩
      · exact h.seg.mem u q' hq'
      · rw [hqq, hown]
        exact hut.symm
    · intro u q' hu
      rw [(hsas q').1]
      rcases hu with hu | hu
      · exact h.seg.built u q' (Or.inl (hbuild u q' hu).2)
      · exact h.seg.built u q' (Or.inr (hm.pc_eq hu nofun).2)
    · intro u q' next hmon
      rw [hm.mon] at hmon
      obtain ⟨hst', hown'⟩ := h.seg.marking u q' next hmon
      exact ⟨hlinked q' hst', (hsas q').1.trans hown'⟩
    · intro q' hst'
      rw [(hsas q').1, (hsas q').2]
      by_cases hqq : q' = q
      · rw [hqq, hown]
        refine ⟨ht0, Or.inr (Or.inl ⟨t, ?_⟩)⟩
        rw [Function.update_self]
        exact List.mem_cons_self
      · rw [hm.stage_of_ne hqq] at hst'
        obtain ⟨hne, hkeep⟩ := h.seg.linked q' hst'
        refine ⟨hne, ?_⟩
        rcases hkeep with hab | ⟨u, hu⟩ | ⟨u, next, hmark⟩
        · exact Or.inl hab
        · exact Or.inr (Or.inl ⟨u, hS u hu⟩)
        · exact Or.inr (Or.inr ⟨u, next, by rw [hm.mon]; exact hmark⟩)
    · intro u q' b hu
      obtain ⟨hut, hu⟩ := hm.pc_eq hu nofun
      obtain ⟨hun, hsend, hmark⟩ := h.seg.unlinked u q' b hu
      refine ⟨?_, ?_, ?_⟩
      · rw [(hsas q').2]
        exact hun
      · rw [Function.update_of_ne hut]
        exact hsend
      · rw [hm.mon]
        exact hmark
  · exact h.monitorStays (by rw [hpc]; exact ⟨nofun, nofun⟩) hm.mon hm.pc nofun htls
      (fun q' _ => (hends q').senderNext) (fun _ q' _ => (hends q').receiverNext)

end Create

/-! ## §2 — the attachment in `cxl_unwrap` -/

section Attach

variable {S R : Nat → List Nat} {s s' : EndSys} {t q : Nat} {m : Shm} {pc : EndPc}

/-- Where an access of the attachment to `q` leads. -/
inductive AttachPc (q : Nat) : EndPc → Prop
  | next : AttachPc q (.storeReceiverNext q)
  | queue : AttachPc q (.storeReceiverQueue q)
  | id : AttachPc q (.storeReceiverId q)
  | idle : AttachPc q .idle

/-- What the stores of an attachment leave alone. -/
structure KeepsSenders (R : Nat → List Nat) (s : EndSys) (t : Nat) (m : Shm) : Prop where
  ends : ∀ q, s.stage q ≠ .raw →
    m.senderId q = s.shm.senderId q ∧ m.senderNext q = s.shm.senderNext q
  receivers : ∀ u, ∀ q ∈ R u, m.receiverNext q = s.shm.receiverNext q
  head : (m.tls t).senderQueue = (s.shm.tls t).senderQueue
  tls : ∀ u, u ≠ t → m.tls u = s.shm.tls u
  sas : m.sas = s.shm.sas

theorem Moved.stage_eq (hm : Moved s t pc q (s.stage q) m s') : s'.stage = s.stage := by
  funext q'
  rw [hm.stage]
  split
  · rename_i hqq
    rw [hqq]
  · rfl

/-- An attachment concerns the receiver lists only. -/
theorem EndInv.attachStep (h : EndInv S R s) (hm : Moved s t pc q (s.stage q) m s')
    (hfrom : (s.pc t).building = none ∧ s.pc t ≠ .unregistered ∧ ∀ a b, s.pc t ≠ .crashed a b)
    (hto : AttachPc q pc) (hk : KeepsSenders R s t m) {R' : Nat → List Nat}
    (hr : ReceiverInv R' s') : EndInv S R' s' := by
  have hstage := hm.stage_eq
  have hhead : ∀ u, (s'.shm.tls u).senderQueue = (s.shm.tls u).senderQueue := by
    intro u
    rw [hm.shm]
    by_cases hut : u = t
    · rw [hut, hk.head]
    · rw [hk.tls u hut]
  have hends : ∀ q', s.stage q' ≠ .raw → s'.shm.senderId q' = s.shm.senderId q' ∧
      s'.shm.senderNext q' = s.shm.senderNext q' := by
    rw [hm.shm]
    exact hk.ends
  have hback : ∀ u x, s'.pc u = x → pc ≠ x → s.pc u = x := fun u x hu hne => (hm.pc_eq hu hne).2
  have hview := hm.view EndPc.building (by rw [hfrom.1]; cases hto <;> rfl)
  refine ⟨?_, hr, ?_, ?_, ?_⟩
  · refine h.sender.congr (by rw [hstage]; exact fun _ => id) (by rw [hstage]; exact fun _ => id)
      (fun q' hq' => (hends q' hq').1) (fun q' hq' => (hends q' (linked_ne_raw hq')).2) ?_
      (fun u q' _ hu => (hview u).trans hu) ?_ ?_
    · intro u
      unfold EndSys.senderRoot
      rw [hm.mon, hhead]
    · intro u q' hu
      rw [hview] at hu
      rw [hstage]
      exact ⟨hu, (h.sender.built u q' hu).1⟩
    · intro u q' hu
      have hu := hback u _ hu (by cases hto <;> nofun)
      rw [hhead, (hends q' (h.sender.built_ne_raw (t := u) (by rw [hu]; rfl))).2]
      exact h.sender.next u q' hu
  · refine h.block.congr hstage (fun u q' hu => hback u _ hu (by cases hto <;> nofun))
      (fun u q' hu => hback u _ hu (by cases hto <;> nofun)) ?_
      (fun u q' k hu => h.block.words u q' k (hback u _ hu (by cases hto <;> nofun))) hview
      (fun u q' hu => h.block.testing u q' (hback u _ hu (by cases hto <;> nofun)))
    intro u q' hu
    exact (hm.pc_some EndPc.clearing hu (by cases hto <;> rfl)).2
  · refine h.seg.congr h.sender (by rw [hstage]; exact fun _ => Iff.rfl)
      (fun q' _ => hm.sameSeg hk.sas q') ?_ ?_ ?_
    · rintro u q' (hu | hu)
      · exact Or.inl ((hview u).symm.trans hu)
      · exact Or.inr (hback u _ hu (by cases hto <;> nofun))
    · intro u q' next
      rw [hm.mon]
    · intro u q' b hu
      exact h.seg.unlinked u q' b (hback u _ hu (by cases hto <;> nofun))
  · refine h.monitorStays hfrom.2 hm.mon hm.pc (by cases hto <;> nofun) ?_
      (fun q' hq' => (hends q' (linked_ne_raw hq')).2) ?_
    · rw [hm.shm]
      exact hk.tls
    · rw [hm.shm]
      exact hk.receivers

/-- A queue somebody is about to put on its receiver list is on none. -/
theorem EndInv.not_mem_receivers (h : EndInv S R s) (hatt : (s.pc t).attaching = some q)
    (hnew : (s.pc t).unnamed = none) (u : Nat) : q ∉ R u := by
  intro hq
  obtain ⟨hu, -, hid | hun⟩ := h.receiver.mem u q hq
  · exact hu (hid.symm.trans (h.receiver.attaching t q hatt).2)
  · have hatt' : (s.pc u).attaching = some q := by
      cases hc : s.pc u with
      | storeReceiverId q' => rw [hc] at hun; exact hun
      | crashed a b => rw [hc] at hun; exact hun
      | _ => rw [hc] at hun; cases hun
    rw [h.receiver.unique u t q hatt' hatt, hnew] at hun
    cases hun

/-- `receiver_id` is 0, and nobody else is attaching. -/
theorem EndInv.testReceiver (h : EndInv S R s) (hpc : s.pc t = .testReceiver q)
    (hzero : s.shm.receiverId q = 0) (halone : ∀ u, (s.pc u).attaching ≠ some q)
    (hm : Moved s t (.storeReceiverNext q) q (s.stage q) s.shm s') : EndInv S R s' := by
  have hst := h.block.testing t q hpc
  have hstage := hm.stage_eq
  have hatt : ∀ u q', (s'.pc u).attaching = some q' →
      u = t ∧ q' = q ∨ u ≠ t ∧ (s.pc u).attaching = some q' := by
    intro u q' hu
    by_cases hut : u = t
    · rw [hut, hm.pc_self] at hu
      exact Or.inl ⟨hut, (Option.some.inj hu).symm⟩
    · rw [hm.pc_of_ne hut] at hu
      exact Or.inr ⟨hut, hu⟩
  refine h.attachStep hm (by rw [hpc]; exact ⟨rfl, nofun, nofun⟩) .next
    ⟨fun _ _ => ⟨rfl, rfl⟩, fun _ _ _ => rfl, rfl, fun _ _ => rfl, rfl⟩ ?_
  have hunn := hm.view EndPc.unnamed (by rw [hpc]; rfl)
  refine ⟨?_, h.receiver.nodup, ?_, ?_, ?_, ?_, ?_, ?_, ?_⟩
  · intro u
    have hroot : s'.receiverRoot u = s.receiverRoot u := by
      unfold EndSys.receiverRoot
      rw [hm.mon, hm.shm]
    rw [hroot, hm.shm]
    exact h.receiver.chain u
  · intro u q' hq'
    rw [hstage, hm.shm, hunn]
    exact h.receiver.mem u q' hq'
  · rw [hstage, hm.shm]
    exact h.receiver.all
  · rw [hstage, hm.shm]
    exact h.receiver.fresh
  · intro u q' hu
    rw [hstage, hm.shm]
    rcases hatt u q' hu with ⟨-, hqq⟩ | ⟨-, hu⟩
    · rw [hqq]
      exact ⟨hst, hzero⟩
    · exact h.receiver.attaching u q' hu
  · intro u v q' hu hv
    rcases hatt u q' hu with ⟨hut, hqq⟩ | ⟨-, hu⟩
    · rcases hatt v q' hv with ⟨hvt, -⟩ | ⟨-, hv⟩
      · rw [hut, hvt]
      · rw [hqq] at hv
        exact absurd hv (halone v)
    · rcases hatt v q' hv with ⟨-, hqq⟩ | ⟨-, hv⟩
      · rw [hqq] at hu
        exact absurd hu (halone u)
      · exact h.receiver.unique u v q' hu hv
  · intro u q' hu
    rw [hunn] at hu
    exact h.receiver.unnamed u q' hu
  · intro u q' hu
    rw [hm.shm]
    exact h.receiver.next u q' (hm.pc_eq hu nofun).2

/-- `q->receiver_next = tls->receiver_queue`. -/
theorem EndInv.storeReceiverNext (h : EndInv S R s) (hpc : s.pc t = .storeReceiverNext q)
    (hm : Moved s t (.storeReceiverQueue q) q (s.stage q)
      (s.shm.store (q + 32) (s.shm.tls t).receiverQueue) s') : EndInv S R s' := by
  have hatt : (s.pc t).attaching = some q := by rw [hpc]; rfl
  have hst := (h.receiver.attaching t q hatt).1
  have hnone := h.not_mem_receivers hatt (by rw [hpc]; rfl)
  have hothers : ∀ q', s.stage q' ≠ .raw → q' ≠ q → SameEnds s.shm s'.shm q' := by
    intro q' hq' hne
    rw [hm.shm]
    exact h.others (Or.inl (linked_ne_raw hst)) (by decide) q' (Or.inl hq') hne
  have hself : s'.shm.word (q + 16) = s.shm.word (q + 16) ∧
      s'.shm.senderNext q = s.shm.senderNext q := by
    rw [hm.shm]
    exact ⟨Function.update_of_ne (by omega) .., Function.update_of_ne (by omega) ..⟩
  have hids : ∀ q', s.stage q' ≠ .raw → s'.shm.senderId q' = s.shm.senderId q' ∧
      s'.shm.receiverId q' = s.shm.receiverId q' ∧ s'.shm.senderNext q' = s.shm.senderNext q' := by
    intro q' hq'
    by_cases hqq : q' = q
    · unfold Shm.senderId Shm.receiverId
      rw [hqq, hself.1]
      exact ⟨rfl, rfl, hself.2⟩
    · have hends := hothers q' hq' hqq
      exact ⟨hends.senderId, hends.receiverId, hends.senderNext⟩
  have hrecv : ∀ u, ∀ q' ∈ R u, s'.shm.receiverNext q' = s.shm.receiverNext q' := by
    intro u q' hq'
    refine (hothers q' (linked_ne_raw (h.receiver.mem u q' hq').2.1) ?_).receiverNext
    rintro rfl
    exact hnone u hq'
  refine h.attachStep hm (by rw [hpc]; exact ⟨rfl, nofun, nofun⟩) .queue
    ⟨?_, ?_, rfl, fun _ _ => rfl, rfl⟩ ?_
  · intro q' hq'
    rw [← hm.shm]
    exact ⟨(hids q' hq').1, (hids q' hq').2.2⟩
  · rw [← hm.shm]
    exact hrecv
  · have hstage := hm.stage_eq
    refine h.receiver.congr ?_ ?_ ?_ ?_ hrecv ?_ ?_ (hm.view EndPc.unnamed (by rw [hpc]; rfl)) ?_
    · rw [hstage]
      exact fun _ => Or.inl
    · intro q' hq'
      rw [hstage] at hq'
      rw [(hids q' (by rw [hq']; nofun)).2.1]
      exact h.receiver.fresh q' hq'
    · rw [hstage]
      exact fun _ => id
    · intro q' hq'
      exact (hids q' (by rcases hq' with hq' | hq' <;> rw [hq'] <;> nofun)).2.1
    · intro u
      unfold EndSys.receiverRoot
      rw [hm.mon, hm.shm]
      rfl
    · intro u q' hu
      by_cases hut : u = t
      · rw [hut, hm.pc_self] at hu
        rw [hut, hpc]
        exact hu
      · rw [hm.pc_of_ne hut] at hu
        exact hu
    · intro u q' hu
      by_cases hut : u = t
      · rw [hut, hm.pc_self] at hu
        rw [hut, ← EndPc.storeReceiverQueue.inj hu, hm.shm]
        exact Function.update_self ..
      · rw [hm.pc_of_ne hut] at hu
        have hatt' : (s.pc u).attaching = some q' := by rw [hu]; rfl
        have hqq : q' ≠ q := by
          rintro rfl
          exact hut (h.receiver.unique u t q' hatt' hatt)
        have hst' := (h.receiver.attaching u q' hatt').1
        rw [(hothers q' (linked_ne_raw hst') hqq).receiverNext, hm.shm]
        exact h.receiver.next u q' hu

/-- `tls->receiver_queue = offset`. -/
theorem EndInv.storeReceiverQueue (h : EndInv S R s) (hpc : s.pc t = .storeReceiverQueue q)
    (hm : Moved s t (.storeReceiverId q) q (s.stage q)
      (s.shm.setTls t { s.shm.tls t with receiverQueue := q }) s') :
    EndInv S (Function.update R t (q :: R t)) s' := by
  have hatt : (s.pc t).attaching = some q := by rw [hpc]; rfl
  have hst := (h.receiver.attaching t q hatt).1
  have hnone := h.not_mem_receivers hatt (by rw [hpc]; rfl)
  have ht0 : t ≠ 0 := by
    have hle := (h.mon.range t (by rw [hpc]; nofun)).1
    omega
  have hout : s.mon.client ≠ some t := h.outside (by rw [hpc]; nofun)
  have hstage := hm.stage_eq
  have hword : s'.shm.word = s.shm.word := by rw [hm.shm]; rfl
  have hid : ∀ q', s'.shm.receiverId q' = s.shm.receiverId q' := by
    intro q'
    unfold Shm.receiverId
    rw [hword]
  have hnext : ∀ q', s'.shm.receiverNext q' = s.shm.receiverNext q' := by
    intro q'
    unfold Shm.receiverNext
    rw [hword]
  have htls : ∀ u, u ≠ t → s'.shm.tls u = s.shm.tls u := by
    intro u hu
    rw [hm.shm]
    exact setTls_of_ne hu
  refine h.attachStep hm (by rw [hpc]; exact ⟨rfl, nofun, nofun⟩) .id
    ⟨fun _ _ => ⟨rfl, rfl⟩, fun _ _ _ => rfl, by rw [setTls_self], fun _ => setTls_of_ne, rfl⟩ ?_
  have hatts : ∀ u q', (s'.pc u).attaching = some q' → (s.pc u).attaching = some q' := by
    intro u q' hu
    by_cases hut : u = t
    · rw [hut, hm.pc_self] at hu
      rw [hut, hpc]
      exact hu
    · rw [hm.pc_of_ne hut] at hu
      exact hu
  have hmem : ∀ u q', q' ∈ Function.update R t (q :: R t) u → q' ∈ R u ∨ u = t ∧ q' = q := by
    intro u q' hq'
    by_cases hut : u = t
    · rw [hut, Function.update_self] at hq'
      rcases List.mem_cons.mp hq' with hqq | hq'
      · exact Or.inr ⟨hut, hqq⟩
      · rw [hut]
        exact Or.inl hq'
    · rw [Function.update_of_ne hut] at hq'
      exact Or.inl hq'
  have hR : ∀ u, R u ⊆ Function.update R t (q :: R t) u := by
    intro u
    by_cases hut : u = t
    · rw [hut, Function.update_self]
      exact List.subset_cons_self q (R t)
    · rw [Function.update_of_ne hut]
      exact List.Subset.refl _
  have hchain : ∀ u, Chained (fun q => linkPtr (s'.shm.receiverNext q)) (s.receiverRoot u) (R u) :=
    fun u => (h.receiver.chain u).congr fun q' _ => by simp only [hnext]
  refine ⟨?_, ?_, ?_, ?_, ?_, ?_, ?_, ?_, ?_⟩
  · intro u
    by_cases hut : u = t
    · have hc := hchain t
      rw [EndSys.receiverRoot_of_ne hout, ← h.receiver.next t q hpc, ← hnext] at hc
      have hhead : (s'.shm.tls t).receiverQueue = q := by rw [hm.shm, setTls_self]
      rw [hut, Function.update_self, EndSys.receiverRoot_of_ne (by rw [hm.mon]; exact hout), hhead]
      exact ⟨if_neg (h.ne_zero (Or.inl (linked_ne_raw hst))), hc⟩
    · have hroot : s'.receiverRoot u = s.receiverRoot u := by
        unfold EndSys.receiverRoot
        rw [hm.mon, htls u hut]
      rw [Function.update_of_ne hut, hroot]
      exact hchain u
  · intro u
    by_cases hut : u = t
    · rw [hut, Function.update_self]
      exact List.nodup_cons.mpr ⟨hnone t, h.receiver.nodup t⟩
    · rw [Function.update_of_ne hut]
      exact h.receiver.nodup u
  · intro u q' hq'
    rw [hstage, hid]
    rcases hmem u q' hq' with hq' | ⟨hut, hqq⟩
    · obtain ⟨hu, hst', hends⟩ := h.receiver.mem u q' hq'
      refine ⟨hu, hst', hends.imp id fun hun => ?_⟩
      rw [hm.pc_of_ne]
      · exact hun
      · rintro rfl
        rw [hpc] at hun
        cases hun
    · refine ⟨by rw [hut]; exact ht0, by rw [hqq]; exact hst, Or.inr ?_⟩
      rw [hut, hm.pc_self, hqq]
      rfl
  · intro u q' hst' hid' hu
    rw [hstage] at hst'
    rw [hid] at hid'
    exact hR u (h.receiver.all u q' hst' hid' hu)
  · intro q' hst'
    rw [hstage] at hst'
    rw [hid]
    exact h.receiver.fresh q' hst'
  · intro u q' hu
    rw [hstage, hid]
    exact h.receiver.attaching u q' (hatts u q' hu)
  · intro u v q' hu hv
    exact h.receiver.unique u v q' (hatts u q' hu) (hatts v q' hv)
  · intro u q' hu
    by_cases hut : u = t
    · rw [hut, hm.pc_self] at hu
      rw [hut, Function.update_self, ← Option.some.inj hu]
      exact List.mem_cons_self
    · rw [hm.pc_of_ne hut] at hu
      exact hR u (h.receiver.unnamed u q' hu)
  · intro u q' hu
    obtain ⟨hut, hu⟩ := hm.pc_eq hu nofun
    rw [hnext, htls u hut]
    exact h.receiver.next u q' hu

/-- `q->receiver_id = thread_id`. -/
theorem EndInv.storeReceiverId (h : EndInv S R s) (hpc : s.pc t = .storeReceiverId q)
    (hm : Moved s t .idle q (s.stage q) (s.shm.setReceiverId q t) s') : EndInv S R s' := by
  have hatt : (s.pc t).attaching = some q := by rw [hpc]; rfl
  have hst := (h.receiver.attaching t q hatt).1
  have hqR := h.receiver.unnamed t q (by rw [hpc]; rfl)
  have hothers : ∀ q', s.stage q' ≠ .raw → q' ≠ q → SameEnds s.shm s'.shm q' := by
    intro q' hq' hne
    rw [hm.shm]
    exact h.others (Or.inl (linked_ne_raw hst)) (by decide) q' (Or.inl hq') hne
  have hids : ∀ q', s.stage q' ≠ .raw → s'.shm.senderId q' = s.shm.senderId q' ∧
      s'.shm.senderNext q' = s.shm.senderNext q' ∧
      s'.shm.receiverNext q' = s.shm.receiverNext q' := by
    intro q' hq'
    by_cases hqq : q' = q
    · rw [hqq, hm.shm]
      exact ⟨setReceiverId_senderId, setReceiverId_next.1, setReceiverId_next.2⟩
    · have hends := hothers q' hq' hqq
      exact ⟨hends.senderId, hends.senderNext, hends.receiverNext⟩
  have hrecv : ∀ u, ∀ q' ∈ R u, s'.shm.receiverNext q' = s.shm.receiverNext q' :=
    fun u q' hq' => (hids q' (linked_ne_raw (h.receiver.mem u q' hq').2.1)).2.2
  have hset : s'.shm.receiverId q = t := by
    rw [hm.shm]
    exact setReceiverId_receiverId (h.mon.small (by rw [hpc]; nofun))
  have hstage := hm.stage_eq
  have hatts : ∀ u q', (s'.pc u).attaching = some q' → u ≠ t ∧ (s.pc u).attaching = some q' :=
    fun u q' hu => hm.pc_some EndPc.attaching hu rfl
  have hkeep : ∀ q', s.stage q' = .cleared ∨ s.stage q' = .linked → q' ≠ q →
      s'.shm.receiverId q' = s.shm.receiverId q' :=
    fun q' hq' hne => (hothers q' (by rcases hq' with hq' | hq' <;> rw [hq'] <;> nofun) hne).receiverId
  refine h.attachStep hm (by rw [hpc]; exact ⟨rfl, nofun, nofun⟩) .idle
    ⟨?_, ?_, rfl, fun _ _ => rfl, rfl⟩ ?_
  · intro q' hq'
    rw [← hm.shm]
    exact ⟨(hids q' hq').1, (hids q' hq').2.1⟩
  · rw [← hm.shm]
    exact hrecv
  refine ⟨?_, h.receiver.nodup, ?_, ?_, ?_, ?_, ?_, ?_, ?_⟩
  · intro u
    have hroot : s'.receiverRoot u = s.receiverRoot u := by
      unfold EndSys.receiverRoot
      rw [hm.mon, hm.shm]
      rfl
    rw [hroot]
    exact (h.receiver.chain u).congr fun q' hq' => by simp only [hrecv u q' hq']
  · intro u q' hq'
    obtain ⟨hu, hst', hends⟩ := h.receiver.mem u q' hq'
    rw [hstage]
    refine ⟨hu, hst', ?_⟩
    by_cases hqq : q' = q
    · -- the queue is on one list only, that of the client that now names itself
      have hut : u = t := by
        rcases hends with hid | hun
        · rw [hqq, (h.receiver.attaching t q hatt).2] at hid
          exact absurd hid.symm hu
        · rw [hqq] at hun
          exact h.receiver.unique u t q (EndPc.attaching_of_unnamed hun) hatt
      rw [hqq, hset, hut]
      exact Or.inl rfl
    · rw [hkeep q' (Or.inr hst') hqq]
      refine hends.imp id fun hun => ?_
      rw [hm.pc_of_ne]
      · exact hun
      · rintro rfl
        rw [hpc] at hun
        exact hqq (Option.some.inj hun).symm
  · intro u q' hst' hid hu
    rw [hstage] at hst'
    by_cases hqq : q' = q
    · rw [hqq, hset] at hid
      rw [hqq, ← hid]
      exact hqR
    · rw [hkeep q' hst' hqq] at hid
      exact h.receiver.all u q' hst' hid hu
  · intro q' hst'
    rw [hstage] at hst'
    rw [hkeep q' (Or.inl hst')]
    · exact h.receiver.fresh q' hst'
    · rintro rfl
      rw [hst] at hst'
      cases hst'
  · intro u q' hu
    obtain ⟨hut, hu⟩ := hatts u q' hu
    obtain ⟨hst', hid⟩ := h.receiver.attaching u q' hu
    rw [hstage, hkeep q' (Or.inr hst')]
    · exact ⟨hst', hid⟩
    · rintro rfl
      exact hut (h.receiver.unique u t q' hu hatt)
  · intro u v q' hu hv
    exact h.receiver.unique u v q' (hatts u q' hu).2 (hatts v q' hv).2
  · intro u q' hu
    exact h.receiver.unnamed u q' (hm.pc_some EndPc.unnamed hu rfl).2
  · intro u q' hu
    obtain ⟨hut, hu⟩ := hm.pc_eq hu nofun
    have hst' := (h.receiver.attaching u q' (by rw [hu]; rfl)).1
    rw [(hids q' (linked_ne_raw hst')).2.2, hm.shm]
    exact h.receiver.next u q' hu

end Attach

end CxlShm
