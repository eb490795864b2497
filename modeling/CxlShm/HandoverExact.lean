import CxlShm.Handover

/-! # HandoverExact — nothing is lost or dropped on the way

The accesses of the calls, those of the two ends and those of everybody else. The two ends go on with their calls at the
accesses `SendPc.follows` and `RecvPc.follows` name; at every other access the queue stands still.
-/

namespace CxlShm

open Transition

/-! ## §1 — what an access leaves alone -/

section Access

variable {sid q i : Nat} {s : HandSys} {spurious : Bool} {c : RefCall} {pc : RefPc}

theorem HandInv.access_slot (h : HandInv sid q s) (hi : s.calls.call i = some (c, pc)) {a : Nat} (ha : a ∈ s.calls.slots)
    (hne : pc.storing → a ≠ c.ref) : (refStep i spurious c pc s.ring.shm).2.word a = s.ring.shm.word a := by
  apply h.calls.access_word hi hne
  rintro o ho j hj rfl
  exact h.calls.header o ho j hj ha

theorem HandInv.access_field (h : HandInv sid q s) (hi : s.calls.call i = some (c, pc)) {l : Nat} (hl : l < 5) :
    (refStep i spurious c pc s.ring.shm).2.word (q + 8 * l) = s.ring.shm.word (q + 8 * l) := by
  obtain ⟨hslot, hheader⟩ := h.fields l hl
  apply h.calls.access_word hi ?_ hheader
  rintro - he
  exact hslot (he ▸ (h.calls.calls i c pc hi).slot)

theorem HandInv.access_sameQueue (h : HandInv sid q s) (hi : s.calls.call i = some (c, pc))
    (hne : pc.storing → ¬ IsEntry q c.ref) : SameQueue q s.ring.shm (refStep i spurious c pc s.ring.shm).2 := by
  intro j hj
  by_cases hl : j < 5
  · exact h.access_field hi hl
  · have hentry : IsEntry q (q + 8 * j) := by
      refine ⟨j - 5, by omega, ?_⟩
      unfold bufferSlot
      omega
    exact h.access_slot hi (h.entries _ hentry) fun hstore he => hne hstore (he ▸ hentry)

/-- A slot at rest is nobody's to store to. -/
theorem HandInv.access_refers (h : HandInv sid q s) (hi : s.calls.call i = some (c, pc)) {ring' : RingSys}
    {calls' : Calls} {kept' : List (Nat × Nat)} (hshm : ring'.shm = (refStep i spurious c pc s.ring.shm).2)
    (hcall : calls'.call = (s.calls.access s.ring.shm i spurious c pc).call) (hslots : calls'.slots = s.calls.slots)
    {a o : Nat} (hr : s.Refers q a o) : HandSys.Refers q ⟨ring', calls', kept'⟩ a o := by
  refine hr.mono ?_ ?_ fun j c' p hj _ => ?_
  · show a ∈ calls'.slots
    rw [hslots]
    exact hr.slot
  · show ring'.shm.word a = s.ring.shm.word a
    rw [hshm]
    apply h.access_slot hi hr.slot
    rintro - rfl
    exact hr.alone ⟨i, c, pc, hi, rfl⟩
  · have hj : calls'.call j = some (c', p) := hj
    rw [hcall] at hj
    exact Calls.access_old hi hj

/-- A call whose next access stores to a slot of the buffer is that of an end that goes on. -/
theorem HandInv.storing_follows (h : HandInv sid q s) (hi : s.calls.call i = some (c, pc)) (hstore : pc.storing)
    (he : IsEntry q c.ref) {pc' : RefPc} : i = sid ∧ s.ring.send.follows pc pc' ∨ s.ring.recv.follows i pc pc' := by
  have hsending := h.sending
  have hreceiving := h.receiving
  rcases h.callers i c pc hi he with ⟨rfl, hin⟩ | hin
  · refine Or.inl ⟨rfl, ?_⟩
    cases hs : s.ring.send with
    | link o => exact hstore
    | linked o =>
      rw [hs] at hsending
      obtain ⟨info, hp⟩ := hsending
      rw [hi] at hp
      obtain ⟨-, rfl⟩ := Prod.mk.inj (Option.some.inj hp)
      exact hstore.elim
    | _ =>
      rw [hs] at hin
      exact hin.elim
  · refine Or.inr ?_
    cases hr : s.ring.recv with
    | release r a v =>
      rw [hr] at hin
      exact ⟨hin, hstore⟩
    | cleared r a v =>
      rw [hr] at hin hreceiving
      obtain rfl : r = i := hin
      obtain ⟨-, info, hp⟩ := hreceiving
      rw [hi] at hp
      obtain ⟨-, rfl⟩ := Prod.mk.inj (Option.some.inj hp)
      exact hstore.elim
    | _ =>
      rw [hr] at hin
      exact hin.elim

/-- Nobody begins to hold on to a slot of the buffer. -/
theorem HandInv.access_guards (h : HandInv sid q s) {j : Nat}
    (hj : (s.calls.access s.ring.shm i spurious c pc).guard j ≠ 0)
    (he : IsEntry q ((s.calls.access s.ring.shm i spurious c pc).guard j)) :
    (∃ a v, s.ring.recv = .hold j a v) ∧ (j = i → (refStep i spurious c pc s.ring.shm).1 ≠ .done) := by
  by_cases hji : j = i
  · subst hji
    by_cases hdone : (refStep j spurious c pc s.ring.shm).1 = .done
    · exact absurd (Calls.access_returns hdone).2 hj
    · rw [(Calls.access_goes hdone).2] at hj he
      exact ⟨h.guards j hj he, fun _ => hdone⟩
  · rw [Calls.access_guard_of_ne hji] at hj he
    exact ⟨h.guards j hj he, fun he => absurd he hji⟩

/-! ## §2 — an access at which the queue stands still -/

/-- The call of `sent_to` goes on. -/
theorem HandInv.access_sending (h : HandInv sid q s) (hi : s.calls.call sid = some (c, pc))
    (hstill : ¬ s.ring.send.follows pc (refStep sid spurious c pc s.ring.shm).1)
    (hend : (refStep sid spurious c pc s.ring.shm).2.queueEnd q = s.ring.shm.queueEnd q) :
    s.ring.send.Calling sid q
      { s with
        ring := { s.ring with shm := (refStep sid spurious c pc s.ring.shm).2 }
        calls := s.calls.access s.ring.shm sid spurious c pc } := by
  have hsending := h.sending
  cases hs : s.ring.send with
  | idle => trivial
  | testStart o =>
    rw [hs] at hsending
    cases hsending.1.symm.trans hi
  | testFull o =>
    rw [hs] at hsending
    cases hsending.1.symm.trans hi
  | link o =>
    rw [hs] at hsending hstill
    obtain ⟨p, hp, hphase⟩ := hsending
    rw [hi] at hp
    obtain ⟨rfl, rfl⟩ := Prod.mk.inj (Option.some.inj hp)
    have hearly := hphase.resolve_right hstill
    obtain ⟨hnext, hne⟩ := @refStep_early_pc s.ring.shm sid _ pc spurious hearly
    refine ⟨_, ?_, hnext⟩
    show (s.calls.access s.ring.shm sid spurious _ pc).call sid = some (⟨_, bufferSlot q (Shm.queueEnd _ q), _⟩, _)
    rw [hend]
    exact (Calls.access_goes hne).1
  | linked o =>
    rw [hs] at hsending hstill
    obtain ⟨info, hp⟩ := hsending
    rw [hi] at hp
    obtain ⟨rfl, rfl⟩ := Prod.mk.inj (Option.some.inj hp)
    refine absurd ?_ hstill
    simp [SendPc.follows, refStep]
  | storeEnd o =>
    rw [hs] at hsending
    cases hsending.symm.trans hi

/-- A call of `cxl_unwrap` goes on. -/
theorem HandInv.access_receiving (h : HandInv sid q s) (hi : s.calls.call i = some (c, pc))
    (hrun : s.ring.recv.running) (hclient : s.ring.recv.client = i)
    (hstill : ¬ s.ring.recv.follows i pc (refStep i spurious c pc s.ring.shm).1)
    (hstart : (refStep i spurious c pc s.ring.shm).2.queueStart q = s.ring.shm.queueStart q) :
    s.ring.recv.Calling q
      { s with
        ring := { s.ring with shm := (refStep i spurious c pc s.ring.shm).2 }
        calls := s.calls.access s.ring.shm i spurious c pc } := by
  have hreceiving := h.receiving
  have hrefers : ∀ {a o}, s.Refers q a o → HandSys.Refers q
      { s with
        ring := { s.ring with shm := (refStep i spurious c pc s.ring.shm).2 }
        calls := s.calls.access s.ring.shm i spurious c pc } a o := fun hr => h.access_refers hi rfl rfl rfl hr
  cases hr : s.ring.recv with
  | hold r a v =>
    rw [hr] at hreceiving hstill hclient
    obtain rfl : r = i := hclient
    obtain ⟨hne, hentry, p, hp⟩ := hreceiving
    rw [hi] at hp
    obtain ⟨rfl, -⟩ := Prod.mk.inj (Option.some.inj hp)
    have hgoes : (refStep r spurious _ pc s.ring.shm).1 ≠ .done := fun hd => hstill ⟨rfl, hd⟩
    exact ⟨hne, hentry, _, (Calls.access_goes hgoes).1⟩
  | release r a v =>
    rw [hr] at hreceiving hstill hclient
    obtain rfl : r = i := hclient
    obtain ⟨hroot, hnone | ⟨p, hp, hphase⟩⟩ := hreceiving
    · cases hnone.symm.trans hi
    · rw [hi] at hp
      obtain ⟨rfl, rfl⟩ := Prod.mk.inj (Option.some.inj hp)
      have hearly := hphase.resolve_right fun hstore => hstill ⟨rfl, hstore⟩
      obtain ⟨hnext, hne⟩ := @refStep_early_pc s.ring.shm r _ pc spurious hearly
      refine ⟨⟨(Calls.access_goes hne).2.trans hroot.guard, hroot.ne_zero, hrefers hroot.refers⟩,
        Or.inr ⟨_, ?_, hnext⟩⟩
      show (s.calls.access s.ring.shm r spurious _ pc).call r = some (⟨_, bufferSlot q (Shm.queueStart _ q), _⟩, _)
      rw [hstart]
      exact (Calls.access_goes hne).1
  | cleared r a v =>
    rw [hr] at hreceiving hstill hclient
    obtain rfl : r = i := hclient
    obtain ⟨hroot, info, hp⟩ := hreceiving
    rw [hi] at hp
    obtain ⟨rfl, rfl⟩ := Prod.mk.inj (Option.some.inj hp)
    -- the RootRef refers to the object, so this was not its last reference
    have hmore : ¬ getRefCntFromInfo info = 1 := by
      intro hone
      have hdead := ((h.calls.calls _ _ _ hi).dying ⟨rfl, hone⟩).2
      have hholds := hroot.refers.holds h.calls
      have htarget := h.calls.target _ hholds.slot
      rw [hholds.refs] at htarget
      exact hdead (htarget.resolve_left hroot.refers.ne_zero)
    refine absurd ⟨rfl, ?_⟩ hstill
    simp [refStep, hmore]
  | storeStart r a v =>
    rw [hr] at hreceiving hclient
    obtain rfl : r = i := hclient
    cases hreceiving.2.symm.trans hi
  | _ =>
    rw [hr] at hreceiving hclient hrun
    obtain rfl := hclient
    cases (hreceiving hrun).symm.trans hi

/-- **The queue stands still.** -/
theorem HandInv.access_still (h : HandInv sid q s) (hi : s.calls.call i = some (c, pc))
    (hcalls : CallInv (refStep i spurious c pc s.ring.shm).2 (s.calls.access s.ring.shm i spurious c pc))
    (hsend : ¬ (i = sid ∧ s.ring.send.follows pc (refStep i spurious c pc s.ring.shm).1))
    (hrecv : ¬ s.ring.recv.follows i pc (refStep i spurious c pc s.ring.shm).1) :
    HandInv sid q
      { s with
        ring := { s.ring with shm := (refStep i spurious c pc s.ring.shm).2 }
        calls := s.calls.access s.ring.shm i spurious c pc } := by
  have hsame : SameQueue q s.ring.shm (refStep i spurious c pc s.ring.shm).2 := by
    apply h.access_sameQueue hi
    intro hstore he
    rcases h.storing_follows hi hstore he with hs | hr
    · exact hsend hs
    · exact hrecv hr
  have hrefers : ∀ {a o}, s.Refers q a o → HandSys.Refers q
      { s with
        ring := { s.ring with shm := (refStep i spurious c pc s.ring.shm).2 }
        calls := s.calls.access s.ring.shm i spurious c pc } a o := fun hr => h.access_refers hi rfl rfl rfl hr
  refine ⟨h.ring.move (.env _) hsame trivial, hcalls, h.sender, h.entries, fun l hl => ?_, ?_, ?_, h.client,
    fun j c' p hj he => ?_, fun j hj he => (h.access_guards hj he).1, fun a v hv => hrefers (h.kept a v hv)⟩
  · obtain ⟨hslot, hheader⟩ := h.fields l hl
    exact ⟨hslot, fun o ho => hheader o (Calls.access_blocks ho)⟩
  · by_cases his : i = sid
    · subst his
      exact h.access_sending hi (fun hf => hsend ⟨rfl, hf⟩) (hsame 1 (by decide))
    · refine SendPc.Calling.mono h.sending (fun _ => ⟨?_, ?_⟩) (fun o _ hr => hrefers hr) (hsame 1 (by decide))
      · exact Calls.access_call_of_ne (Ne.symm his)
      · exact Calls.access_guard_of_ne (Ne.symm his)
  · by_cases hir : s.ring.recv.running ∧ s.ring.recv.client = i
    · exact h.access_receiving hi hir.1 hir.2 hrecv (hsame 0 (by decide))
    · refine RecvPc.Calling.mono h.receiving (fun hrun => ⟨?_, ?_⟩) (fun v _ hr => hrefers hr) (hsame 0 (by decide))
      · exact Calls.access_call_of_ne fun he => hir ⟨hrun, he⟩
      · exact Calls.access_guard_of_ne fun he => hir ⟨hrun, he⟩
  · obtain ⟨p', hp'⟩ := Calls.access_old hi hj
    exact h.callers j c' p' hp' he

/-! ## §3 — an access at which an end goes on -/

/-- `sent_to` goes on: `ring'` is the queue after that. -/
theorem HandInv.access_sent (h : HandInv sid q s) (hi : s.calls.call sid = some (c, pc))
    (hcalls : CallInv (refStep sid spurious c pc s.ring.shm).2 (s.calls.access s.ring.shm sid spurious c pc))
    {ring' : RingSys} (hring : SteadyReach q ring') (hshm : ring'.shm = (refStep sid spurious c pc s.ring.shm).2)
    (hrecv : ring'.recv = s.ring.recv)
    (hsending : ring'.send.Calling sid q ⟨ring', s.calls.access s.ring.shm sid spurious c pc, s.kept⟩)
    (hin : ring'.send.inCall ∨ (refStep sid spurious c pc s.ring.shm).1 = .done) :
    HandInv sid q ⟨ring', s.calls.access s.ring.shm sid spurious c pc, s.kept⟩ := by
  have hrefers : ∀ {a o}, s.Refers q a o → HandSys.Refers q ⟨ring', s.calls.access s.ring.shm sid spurious c pc, s.kept⟩ a o :=
    fun hr => h.access_refers hi hshm rfl rfl hr
  have hstart : ring'.shm.queueStart q = s.ring.shm.queueStart q := by
    rw [hshm]
    exact h.access_field hi (l := 0) (by decide)
  refine ⟨hring, hshm ▸ hcalls, h.sender, h.entries, fun l hl => ?_, hsending, ?_, ?_, fun j c' p hj he => ?_,
    fun j hj he => ?_, fun a v hv => hrefers (h.kept a v hv)⟩
  · obtain ⟨hslot, hheader⟩ := h.fields l hl
    exact ⟨hslot, fun o ho => hheader o (Calls.access_blocks ho)⟩
  · show ring'.recv.Calling q _
    rw [hrecv]
    refine RecvPc.Calling.mono h.receiving (fun hrun => ⟨?_, ?_⟩) (fun v _ hr => hrefers hr) hstart
    · exact Calls.access_call_of_ne (h.client hrun).1
    · exact Calls.access_guard_of_ne (h.client hrun).1
  · show ring'.recv.running → ring'.recv.client ≠ sid ∧ ring'.recv.client < 2 ^ 16
    rw [hrecv]
    exact h.client
  · show j = sid ∧ ring'.send.inCall ∨ ring'.recv.inUnlink j
    rw [hrecv]
    by_cases hjs : j = sid
    · refine Or.inl ⟨hjs, hin.resolve_right fun hdone => ?_⟩
      subst hjs
      cases (Calls.access_returns hdone).1.symm.trans hj
    · obtain ⟨p', hp'⟩ := Calls.access_old hi hj
      exact Or.inr ((h.callers j c' p' hp' he).resolve_left fun hs => hjs hs.1)
  · show ∃ a v, ring'.recv = .hold j a v
    rw [hrecv]
    exact (h.access_guards hj he).1

/-- **`sent_to` goes on.** -/
theorem HandInv.access_sender (h : HandInv sid q s) (hi : s.calls.call sid = some (c, pc))
    (hcalls : CallInv (refStep sid spurious c pc s.ring.shm).2 (s.calls.access s.ring.shm sid spurious c pc))
    (hf : s.ring.send.follows pc (refStep sid spurious c pc s.ring.shm).1) :
    HandInv sid q
      { s with
        ring := { s.ring.sender q with shm := (refStep sid spurious c pc s.ring.shm).2 }
        calls := s.calls.access s.ring.shm sid spurious c pc } := by
  have hsending := h.sending
  have hend : (refStep sid spurious c pc s.ring.shm).2.queueEnd q = s.ring.shm.queueEnd q :=
    h.access_field hi (l := 1) (by decide)
  have hring : s.ring.send ≠ .idle →
      SameQueue q (s.ring.sender q).shm (refStep sid spurious c pc s.ring.shm).2 →
      SteadyReach q { s.ring.sender q with shm := (refStep sid spurious c pc s.ring.shm).2 } := fun hbusy hsame =>
    (h.ring.sender hbusy).move (.env _) hsame trivial
  cases hs : s.ring.send with
  | link o =>
    -- the entry is stored
    rw [hs] at hsending hf
    obtain ⟨p, hp, -⟩ := hsending
    rw [hi] at hp
    obtain ⟨rfl, rfl⟩ := Prod.mk.inj (Option.some.inj hp)
    have hstep : s.ring.sender q =
        { s.ring with
          send := .linked o
          shm := s.ring.shm.store (bufferSlot q (s.ring.shm.queueEnd q)) o
          sent := s.ring.sent ++ [o] } := by
      unfold RingSys.sender
      rw [hs]
    cases pc with
    | storeRef info =>
      have hreach := hring (by rw [hs]; simp) (by rw [hstep]; exact fun _ _ => rfl)
      refine h.access_sent hi hcalls hreach rfl (sender_recv s.ring) ?_ (Or.inl ?_)
      · show (s.ring.sender q).send.Calling sid q _
        rw [hstep]
        refine ⟨info, ?_⟩
        have hgoes : (refStep sid spurious ⟨.linkRef, bufferSlot q (s.ring.shm.queueEnd q), o⟩ (.storeRef info)
            s.ring.shm).1 ≠ .done := by simp [refStep]
        show (s.calls.access s.ring.shm sid spurious _ _).call sid = some (⟨_, bufferSlot q (Shm.queueEnd _ q), _⟩, _)
        rw [hend]
        exact (Calls.access_goes hgoes).1
      · show (s.ring.sender q).send.inCall
        rw [hstep]
        trivial
    | _ => exact hf.elim
  | linked o =>
    -- `link_reference` returns
    rw [hs] at hsending hf
    obtain ⟨info, hp⟩ := hsending
    rw [hi] at hp
    obtain ⟨rfl, rfl⟩ := Prod.mk.inj (Option.some.inj hp)
    have hstep : s.ring.sender q = { s.ring with send := .storeEnd o } := by
      unfold RingSys.sender
      rw [hs]
    have hsame : SameQueue q s.ring.shm (refStep sid spurious _ (.bumpEra info) s.ring.shm).2 :=
      h.access_sameQueue hi fun hstore => hstore.elim
    have hreach := hring (by rw [hs]; simp) (by rw [hstep]; exact hsame)
    refine h.access_sent hi hcalls hreach rfl (sender_recv s.ring) ?_ (Or.inr hf)
    show (s.ring.sender q).send.Calling sid q _
    rw [hstep]
    exact (Calls.access_returns hf).1
  | _ =>
    rw [hs] at hf
    exact hf.elim

theorem RecvPc.inUnlink.client {p : RecvPc} {j : Nat} (h : p.inUnlink j) : p.client = j := by
  cases p with
  | release r a v => exact h
  | cleared r a v => exact h
  | _ => exact h.elim

theorem receiver_send (s : RingSys) (a : Nat) : (s.receiver q a).send = s.send := by
  unfold RingSys.receiver
  cases s.recv <;> rfl

/-- `cxl_unwrap` goes on: `calls'` are the calls after that, in which client `i` may hold on to another slot. -/
theorem HandInv.access_unwraps (h : HandInv sid q s) (hi : s.calls.call i = some (c, pc)) {ring' : RingSys} {calls' : Calls}
    (hne : i ≠ sid) (hcalls : CallInv ring'.shm calls') (hslots : calls'.slots = s.calls.slots)
    (hblocks : calls'.blocks ⊆ s.calls.blocks) (hcall : calls'.call = (s.calls.access s.ring.shm i spurious c pc).call)
    (hguard : ∀ j ≠ i, calls'.guard j = s.calls.guard j) (hown : ¬ IsEntry q (calls'.guard i))
    (hring : SteadyReach q ring') (hshm : ring'.shm = (refStep i spurious c pc s.ring.shm).2)
    (hsend : ring'.send = s.ring.send) (hreceiving : ring'.recv.Calling q ⟨ring', calls', s.kept⟩)
    (hclient : ring'.recv.client = i) (hrun : s.ring.recv.running) (hold : s.ring.recv.client = i)
    (hin : ring'.recv.inUnlink i ∨ calls'.call i = none) : HandInv sid q ⟨ring', calls', s.kept⟩ := by
  have hrefers : ∀ {a o}, s.Refers q a o → HandSys.Refers q ⟨ring', calls', s.kept⟩ a o := fun hr =>
    h.access_refers hi hshm hcall hslots hr
  have hend : ring'.shm.queueEnd q = s.ring.shm.queueEnd q := by
    rw [hshm]
    exact h.access_field hi (l := 1) (by decide)
  refine ⟨hring, hcalls, h.sender, fun a ha => ?_, fun l hl => ?_, ?_, hreceiving, fun _ => ?_, fun j c' p hj he => ?_,
    fun j hj he => ?_, fun a v hv => hrefers (h.kept a v hv)⟩
  · show a ∈ calls'.slots
    rw [hslots]
    exact h.entries a ha
  · obtain ⟨hslot, hheader⟩ := h.fields l hl
    refine ⟨?_, fun o ho => hheader o (hblocks ho)⟩
    show q + 8 * l ∉ calls'.slots
    rw [hslots]
    exact hslot
  · show ring'.send.Calling sid q _
    rw [hsend]
    refine SendPc.Calling.mono h.sending (fun _ => ⟨?_, hguard sid (Ne.symm hne)⟩) (fun o _ hr => hrefers hr) hend
    show calls'.call sid = s.calls.call sid
    rw [hcall]
    exact Calls.access_call_of_ne (Ne.symm hne)
  · show ring'.recv.client ≠ sid ∧ ring'.recv.client < 2 ^ 16
    rw [hclient, ← hold]
    exact h.client hrun
  · show j = sid ∧ ring'.send.inCall ∨ ring'.recv.inUnlink j
    have hj : calls'.call j = some (c', p) := hj
    obtain ⟨p', hp'⟩ := Calls.access_old hi (hcall ▸ hj)
    rcases h.callers j c' p' hp' he with hs | hu
    · rw [hsend]
      exact Or.inl hs
    · obtain rfl : j = i := hu.client.symm.trans hold
      refine Or.inr (hin.resolve_right fun hnone => ?_)
      cases hnone.symm.trans hj
  · have hj : calls'.guard j ≠ 0 := hj
    have he : IsEntry q (calls'.guard j) := he
    by_cases hji : j = i
    · rw [hji] at he
      exact absurd he hown
    · rw [hguard j hji] at hj he
      obtain ⟨a, v, hr⟩ := h.guards j hj he
      rw [hr] at hold
      exact absurd hold hji

/-- The new RootRef refers to the entry, and the receiver holds on to it. -/
theorem HandInv.access_rooted (h : HandInv sid q s) {a v : Nat} (hentry : ¬ IsEntry q a)
    (hi : s.calls.call i = some (⟨.linkRef, a, v⟩, pc)) (hdone : (refStep i spurious ⟨.linkRef, a, v⟩ pc s.ring.shm).1 = .done)
    {ring' : RingSys} (hshm : ring'.shm = (refStep i spurious ⟨.linkRef, a, v⟩ pc s.ring.shm).2) :
    HandSys.Refers q ⟨ring', s.calls.access s.ring.shm i spurious ⟨.linkRef, a, v⟩ pc, s.kept⟩ a v := by
  have hok := h.calls.calls i _ pc hi
  have hlate : ¬ pc.early := fun he => (refStep_early_pc he).2 hdone
  have hnotStore : ∀ info, pc ≠ .storeRef info := by
    rintro info rfl
    simp [refStep] at hdone
  have halone : ∀ j c' p, s.calls.call j = some (c', p) → c'.ref = a → j = i := fun j c' p hj href =>
    h.calls.alone j i c' _ p pc hj hi href
  refine ⟨hok.slot, hentry, ?_, hok.refed, ?_⟩
  · show ring'.shm.word a = v
    have hword : s.ring.shm.word a = s.calls.refs a := by
      apply h.calls.settled a hok.slot
      intro j c' info hj href
      obtain rfl := halone j c' _ hj href
      rw [hi] at hj
      obtain ⟨-, rfl⟩ := Prod.mk.inj (Option.some.inj hj)
      exact hnotStore info rfl
    rw [hshm, h.access_slot hi hok.slot, hword]
    · exact hok.after hlate
    · intro hstore
      cases pc with
      | storeRef info => exact absurd rfl (hnotStore info)
      | _ => exact hstore.elim
  · rintro ⟨j, c', p, hj, href⟩
    obtain ⟨p', hp'⟩ := Calls.access_old hi hj
    obtain rfl := halone j c' p' hp' href
    cases (Calls.access_returns hdone).1.symm.trans hj

/-- A call of `cxl_unwrap` returns, and the receiver holds on to its RootRef `a`. -/
theorem HandInv.access_returned (h : HandInv sid q s) (hi : s.calls.call i = some (c, pc)) {ring' : RingSys} {a v : Nat}
    (hdone : (refStep i spurious c pc s.ring.shm).1 = .done)
    (hcalls : CallInv (refStep i spurious c pc s.ring.shm).2 (s.calls.access s.ring.shm i spurious c pc))
    (hring : SteadyReach q ring') (hshm : ring'.shm = (refStep i spurious c pc s.ring.shm).2)
    (hsend : ring'.send = s.ring.send) (ha0 : a ≠ 0)
    (hroot : HandSys.Refers q ⟨ring', s.calls.access s.ring.shm i spurious c pc, s.kept⟩ a v)
    (hrecv : ring'.recv = .release i a v ∨ ring'.recv = .storeStart i a v) (hrun : s.ring.recv.running)
    (hold : s.ring.recv.client = i) :
    HandInv sid q ⟨ring', (s.calls.access s.ring.shm i spurious c pc).hold i a, s.kept⟩ := by
  have hnone : (s.calls.access s.ring.shm i spurious c pc).call i = none := (Calls.access_returns hdone).1
  have hself : ((s.calls.access s.ring.shm i spurious c pc).hold i a).guard i = a := Function.update_self ..
  have hcalls' : CallInv ring'.shm ((s.calls.access s.ring.shm i spurious c pc).hold i a) := by
    rw [← hshm] at hcalls
    exact hcalls.hold hnone fun _ => ⟨v, hroot.ne_zero, hroot.holds hcalls⟩
  have hrooted : HandSys.Rooted q ⟨ring', (s.calls.access s.ring.shm i spurious c pc).hold i a, s.kept⟩ i a v :=
    ⟨hself, ha0, hroot.slot, hroot.entry, hroot.word, hroot.ne_zero, hroot.alone⟩
  have hne : i ≠ sid := hold ▸ (h.client hrun).1
  refine h.access_unwraps hi hne hcalls' rfl Calls.access_blocks rfl (fun j hji => ?_) ?_ hring hshm hsend ?_ ?_ hrun hold
    (Or.inr hnone)
  · exact (Function.update_of_ne hji ..).trans (Calls.access_guard_of_ne hji)
  · rw [hself]
    exact hroot.entry
  · rcases hrecv with hr | hr
    · rw [hr]
      exact ⟨hrooted, Or.inl hnone⟩
    · rw [hr]
      exact ⟨hrooted, hnone⟩
  · rcases hrecv with hr | hr
    · rw [hr]
      rfl
    · rw [hr]
      rfl

/-- **`cxl_unwrap` goes on.** -/
theorem HandInv.access_receiver (h : HandInv sid q s) (hi : s.calls.call i = some (c, pc))
    (hcalls : CallInv (refStep i spurious c pc s.ring.shm).2 (s.calls.access s.ring.shm i spurious c pc))
    (hf : s.ring.recv.follows i pc (refStep i spurious c pc s.ring.shm).1) :
    HandInv sid q
      { s with
        ring := { s.ring.receiver q 0 with shm := (refStep i spurious c pc s.ring.shm).2 }
        calls := if (refStep i spurious c pc s.ring.shm).1 = .done then
            (s.calls.access s.ring.shm i spurious c pc).hold i s.ring.recv.root
          else s.calls.access s.ring.shm i spurious c pc } := by
  have hreceiving := h.receiving
  have hstart : (refStep i spurious c pc s.ring.shm).2.queueStart q = s.ring.shm.queueStart q :=
    h.access_field hi (l := 0) (by decide)
  have hring : s.ring.recv.running →
      SameQueue q (s.ring.receiver q 0).shm (refStep i spurious c pc s.ring.shm).2 →
      SteadyReach q { s.ring.receiver q 0 with shm := (refStep i spurious c pc s.ring.shm).2 } := fun hrun hsame =>
    (h.ring.receiver hrun).move (.env _) hsame trivial
  have hsend : (s.ring.receiver q 0).send = s.ring.send := receiver_send s.ring 0
  cases hr : s.ring.recv with
  | hold r a v =>
    -- `link_reference` returns
    have hrun : s.ring.recv.running := by
      rw [hr]
      trivial
    rw [hr] at hreceiving hf
    obtain ⟨rfl, hdone⟩ := hf
    obtain ⟨ha0, hentry, p, hp⟩ := hreceiving
    rw [hi] at hp
    obtain ⟨rfl, rfl⟩ := Prod.mk.inj (Option.some.inj hp)
    have hstep : s.ring.receiver q 0 = { s.ring with recv := .release r a v } := by
      unfold RingSys.receiver
      simp only [hr]
    have hsame : SameQueue q s.ring.shm (refStep r spurious _ pc s.ring.shm).2 :=
      h.access_sameQueue hi fun _ => hentry
    have hreach := hring hrun (by rw [hstep]; exact hsame)
    rw [if_pos hdone]
    apply h.access_returned hi hdone hcalls hreach rfl hsend ha0 (h.access_rooted hentry hi hdone rfl) (Or.inl ?_) hrun
    · rw [hr]
      rfl
    · show (s.ring.receiver q 0).recv = _
      rw [hstep]
  | release r a v =>
    -- the entry is cleared
    have hrun : s.ring.recv.running := by
      rw [hr]
      trivial
    have hold : s.ring.recv.client = r := by
      rw [hr]
      rfl
    have hne := (h.client hrun).1
    rw [hr] at hreceiving hf
    obtain ⟨rfl, hstore⟩ := hf
    obtain ⟨hroot, hnone | ⟨p, hp, -⟩⟩ := hreceiving
    · cases hnone.symm.trans hi
    · rw [hi] at hp
      obtain ⟨rfl, rfl⟩ := Prod.mk.inj (Option.some.inj hp)
      cases pc with
      | storeRef info =>
        have hstep : s.ring.receiver q 0 =
            { s.ring with
              recv := .cleared r a v
              shm := s.ring.shm.store (bufferSlot q (s.ring.shm.queueStart q)) 0 } := by
          unfold RingSys.receiver
          simp only [hr]
        have hreach := hring hrun (by rw [hstep]; exact fun _ _ => rfl)
        have hgoes : (refStep r spurious ⟨.unlinkRef, bufferSlot q (s.ring.shm.queueStart q), v⟩ (.storeRef info)
            s.ring.shm).1 ≠ .done := by simp [refStep]
        obtain ⟨hcall, hguard⟩ := Calls.access_goes (s := s.calls) hgoes
        rw [if_neg hgoes]
        refine h.access_unwraps hi (hold ▸ hne) hcalls rfl Calls.access_blocks rfl
          (fun j hji => Calls.access_guard_of_ne hji) ?_ hreach rfl hsend ?_ ?_ hrun hold (Or.inl ?_)
        · rw [hguard, hroot.guard]
          exact hroot.refers.entry
        · show (s.ring.receiver q 0).recv.Calling q _
          rw [hstep]
          refine ⟨⟨hguard.trans hroot.guard, hroot.ne_zero, h.access_refers hi rfl rfl rfl hroot.refers⟩, info, ?_⟩
          show (s.calls.access s.ring.shm r spurious _ _).call r = some (⟨_, bufferSlot q (Shm.queueStart _ q), _⟩, _)
          rw [hstart]
          exact hcall
        · show (s.ring.receiver q 0).recv.client = r
          rw [hstep]
          rfl
        · show (s.ring.receiver q 0).recv.inUnlink r
          rw [hstep]
          exact rfl
      | _ => exact hstore.elim
  | cleared r a v =>
    -- `unlink_reference` returns
    have hrun : s.ring.recv.running := by
      rw [hr]
      trivial
    rw [hr] at hreceiving hf
    obtain ⟨rfl, hdone⟩ := hf
    obtain ⟨hroot, info, hp⟩ := hreceiving
    rw [hi] at hp
    obtain ⟨rfl, rfl⟩ := Prod.mk.inj (Option.some.inj hp)
    have hstep : s.ring.receiver q 0 = { s.ring with recv := .storeStart r a v } := by
      unfold RingSys.receiver
      simp only [hr]
    have hsame : SameQueue q s.ring.shm (refStep r spurious _ (.bumpEra info) s.ring.shm).2 :=
      h.access_sameQueue hi fun hstore => hstore.elim
    have hreach := hring hrun (by rw [hstep]; exact hsame)
    rw [if_pos hdone]
    apply h.access_returned hi hdone hcalls hreach rfl hsend hroot.ne_zero (h.access_refers hi rfl rfl rfl hroot.refers)
      (Or.inr ?_) hrun
    · rw [hr]
      rfl
    · show (s.ring.receiver q 0).recv = _
      rw [hstep]
  | _ =>
    rw [hr] at hf
    exact hf.elim

/-- **An access of a call** that has room. -/
theorem HandInv.access (h : HandInv sid q s) (hi : s.calls.call i = some (c, pc))
    (hroom : HasRoom s.ring.shm spurious c pc) : HandInv sid q (s.access sid q i spurious c pc) := by
  have hcalls : CallInv (refStep i spurious c pc s.ring.shm).2 (s.calls.access s.ring.shm i spurious c pc) :=
    h.calls.access hi hroom
  unfold HandSys.access
  simp only
  split
  case isTrue hf =>
    obtain ⟨rfl, hf⟩ := hf
    exact h.access_sender hi hcalls hf
  case isFalse hsend =>
    split
    case isTrue hf => exact h.access_receiver hi hcalls hf
    case isFalse hrecv => exact h.access_still hi hcalls hsend hrecv

end Access

/-! ## §4 — everybody else -/

section Others

variable {sid q : Nat} {s : HandSys}

/-- **A call of somebody** begins, on a slot that is no entry of the queue. -/
theorem HandInv.call (h : HandInv sid q s) {i g : Nat} {c : RefCall} (hen : HandMove.enabled sid q s (.call i c g)) :
    HandInv sid q (s.next sid q (.call i c g)) := by
  obtain ⟨htid, hnone, hsid, hrecv, hrefed, hslot, hentry, halone, hword, hfunc⟩ := hen
  have hbefore : s.calls.refs c.ref = c.before := (h.calls.word hslot halone).symm.trans hword
  have hzero : c.func = .linkRef → s.ring.shm.word c.ref = 0 := by
    intro hf
    rw [hword, RefCall.before, hf]
  have hlink : c.func = .linkRef → s.Refers q g c.refed ∧ g ≠ 0 := by
    intro hf
    rwa [hf] at hfunc
  have hunlink : c.func = .unlinkRef → g = 0 ∧ ∀ j, s.calls.guard j ≠ 0 → c.ref ≠ s.calls.guard j := by
    intro hf
    rwa [hf] at hfunc
  have hcan : s.calls.CanStart i c g := by
    refine ⟨htid, hnone, hslot, halone, hrefed, hbefore, fun hf => ?_, fun hg => ?_, fun hf j _ => (hunlink hf).2 j⟩
    · exact ⟨(hlink hf).2, ((hlink hf).1.holds h.calls).refs⟩
    · cases hf : c.func with
      | linkRef => exact ⟨⟨_, hrefed, (hlink hf).1.holds h.calls⟩, fun hu => by cases hu⟩
      | unlinkRef => exact absurd (hunlink hf).1 hg
  -- a slot at rest that is not the one of the call
  have hrefers : ∀ {a o}, (c.func = .unlinkRef → c.ref ≠ a) → s.Refers q a o → (s.next sid q (.call i c g)).Refers q a o := by
    intro a o hother hr
    refine hr.start rfl ?_
    cases hf : c.func with
    | linkRef =>
      rintro rfl
      exact hr.ne_zero (hr.word.symm.trans (hzero hf))
    | unlinkRef => exact hother hf
  have hguarded : ∀ {j o}, s.calls.guard j ≠ 0 → s.Refers q (s.calls.guard j) o →
      (s.next sid q (.call i c g)).Refers q (s.calls.guard j) o := fun hne hr =>
    hrefers (fun hf => (hunlink hf).2 _ hne) hr
  refine ⟨h.ring, h.calls.start hcan, h.sender, h.entries, h.fields, ?_, ?_, h.client, fun j c' p hj he => ?_,
    fun j hj he => ?_, fun a v hv => ?_⟩
  · refine SendPc.Calling.mono h.sending (fun hbusy => ?_) (fun o => hguarded) rfl
    have hne : sid ≠ i := fun he => hbusy (hsid he.symm)
    exact ⟨Function.update_of_ne hne .., Function.update_of_ne hne ..⟩
  · refine RecvPc.Calling.mono h.receiving (fun hrun => ?_) (fun v => hguarded) rfl
    have hne := Ne.symm (hrecv hrun)
    exact ⟨Function.update_of_ne hne .., Function.update_of_ne hne ..⟩
  · rcases Calls.update_some hj with ⟨-, rfl, -⟩ | ⟨-, hj⟩
    · exact absurd he hentry
    · exact h.callers j c' p hj he
  · have hj : Function.update s.calls.guard i g j ≠ 0 := hj
    have he : IsEntry q (Function.update s.calls.guard i g j) := he
    by_cases hji : j = i
    · rw [hji, Function.update_self] at hj he
      cases hf : c.func with
      | linkRef => exact absurd he (hlink hf).1.entry
      | unlinkRef => exact absurd (hunlink hf).1 hj
    · rw [Function.update_of_ne hji] at hj he
      exact h.guards j hj he
  · obtain ⟨hmem, hne⟩ := List.mem_filter.mp hv
    refine hrefers (fun _ he => ?_) (h.kept a v hmem)
    simp [he] at hne

theorem HandInv.appear (h : HandInv sid q s) {tbr o : Nat} (hen : HandMove.enabled sid q s (.appear tbr o)) :
    HandInv sid q (s.next sid q (.appear tbr o)) := by
  obtain ⟨hnew, hword, hone, htbr, ho⟩ := hen
  have hrefers : ∀ {a p}, s.Refers q a p → (s.next sid q (.appear tbr o)).Refers q a p := fun hr =>
    ⟨Finset.mem_insert_of_mem hr.slot, hr.entry, hr.word, hr.ne_zero, hr.alone⟩
  refine ⟨h.ring, h.calls.appear hnew hword hone, h.sender, fun a ha => Finset.mem_insert_of_mem (h.entries a ha),
    fun l hl => ⟨fun hin => ?_, fun p hp j hj => ?_⟩, ?_, ?_, h.client, h.callers, h.guards,
    fun a v hv => hrefers (h.kept a v hv)⟩
  · rcases Finset.mem_insert.mp hin with he | hin
    · exact htbr l hl he.symm
    · exact (h.fields l hl).1 hin
  · rcases Finset.mem_insert.mp hp with rfl | hp
    · exact ho j hj l hl
    · exact (h.fields l hl).2 p hp j hj
  · exact SendPc.Calling.mono h.sending (fun _ => ⟨rfl, rfl⟩) (fun o _ hr => hrefers hr) rfl
  · exact RecvPc.Calling.mono h.receiving (fun _ => ⟨rfl, rfl⟩) (fun v _ hr => hrefers hr) rfl

theorem HandInv.env (h : HandInv sid q s) {m : Shm} {slots' : Finset Nat}
    (hen : HandMove.enabled sid q s (.env m slots')) : HandInv sid q (s.next sid q (.env m slots')) := by
  obtain ⟨hframe, hsame, hentries, hfields⟩ := hen
  have hrefers : ∀ {a o}, s.Refers q a o → (s.next sid q (.env m slots')).Refers q a o := by
    intro a o hr
    have hin : a ∈ slots' := by
      by_contra hno
      exact hr.ne_zero (hr.word.symm.trans (hframe.gone a hr.slot hno).1)
    refine ⟨hin, hr.entry, ?_, hr.ne_zero, hr.alone⟩
    rcases hframe.slot a hin with ⟨-, hw⟩ | ⟨hno, -⟩
    · exact hw.trans hr.word
    · exact absurd hr.slot hno
  refine ⟨h.ring.move (.env m) hsame trivial, h.calls.env hframe, h.sender, hentries,
    fun l hl => ⟨hfields l hl, (h.fields l hl).2⟩, ?_, ?_, h.client, h.callers, h.guards,
    fun a v hv => hrefers (h.kept a v hv)⟩
  · exact SendPc.Calling.mono h.sending (fun _ => ⟨rfl, rfl⟩) (fun o _ hr => hrefers hr) (hsame 1 (by decide))
  · exact RecvPc.Calling.mono h.receiving (fun _ => ⟨rfl, rfl⟩) (fun v _ hr => hrefers hr) (hsame 0 (by decide))

/-! ## §5 — every run -/

theorem AtRest.inv {m : Shm} {s : Calls} (h : AtRest m s) : CallInv m s := by
  have hnone : ∀ {i c pc}, s.call i ≠ some (c, pc) := by
    intro i c pc hi
    cases (h.call i).1.symm.trans hi
  have hholding : ∀ o, SlotCount.holding s.slots m.word o = SlotCount.holding s.slots s.refs o := fun o =>
    SlotCount.holding_congr o fun a ha => (h.word a ha).1
  refine ⟨h.era, h.zero, h.sub, h.apart, h.header, fun a ha => ?_, fun o ho => (h.count o ho).1.trans (hholding o),
    fun o ho => (h.count o ho).2, fun a ha _ => (h.word a ha).1, fun i c pc hi => absurd hi hnone,
    fun i j c c' pc pc' hi => absurd hi hnone, fun i j c c' pc pc' hi => absurd hi hnone, fun i hi => ?_⟩
  · rw [← (h.word a ha).1]
    exact (h.word a ha).2
  · exact absurd (h.call i).2 hi

theorem HandInit.inv (h : HandInit sid q s) : HandInv sid q s := by
  have hnone : ∀ i, s.calls.call i = none := fun i => (h.rest.call i).1
  refine ⟨Reach.init h.ring trivial, h.rest.inv, h.sender, h.entries, h.fields, ?_, ?_, fun hrun => ?_,
    fun i c pc hi => ?_, fun i hi => absurd (h.rest.call i).2 hi, fun a v hv => ?_⟩
  · rw [h.ring.send]
    trivial
  · rw [h.ring.recv]
    exact fun hrun => hrun.elim
  · rw [h.ring.recv] at hrun
    exact hrun.elim
  · cases (hnone i).symm.trans hi
  · rw [h.kept] at hv
    exact absurd hv List.not_mem_nil

/-- **Every move with room keeps the invariant.** -/
theorem HandInv.step (h : HandInv sid q s) {mv : HandMove} (hen : mv.enabled sid q s)
    (hroom : mv.Room (fun n => n < 2 ^ 16 - 1) s) : HandInv sid q (s.next sid q mv) := by
  cases mv with
  | send g =>
    obtain ⟨hidle, hnone, hg, hne⟩ := hen
    exact h.send hidle hnone hg hne
  | sender => exact h.sender_access hen.1 hen.2
  | unwrap r =>
    obtain ⟨hr, hne, htid, hnone⟩ := hen
    exact h.unwrap hr hne htid hnone
  | receiver a =>
    obtain ⟨hrun, hnone, ha⟩ := hen
    exact h.receiver_access hrun hnone ha
  | call i c g => exact h.call hen
  | access i spurious =>
    cases hi : s.calls.call i with
    | none => exact absurd hi hen
    | some p =>
      obtain ⟨c, pc⟩ := p
      have hnext : s.next sid q (.access i spurious) = s.access sid q i spurious c pc := by
        simp only [HandSys.next, hi]
      rw [hnext]
      exact h.access hi fun hcas hf => hroom c pc hi hcas hf
  | appear tbr o => exact h.appear hen
  | env m slots' => exact h.env hen

/-- **Every run with room.** -/
theorem HandReach.inv (h : HandReach (fun n => n < 2 ^ 16 - 1) sid q s) : HandInv sid q s := by
  refine @Reach.invariant _ _ _ _ (fun s => HandInv sid q s) ?_ ?_ _ h
  · exact fun s hi _ => hi.inv
  · rintro s s' hinv - ⟨mv, hen, hroom, rfl⟩ -
    exact hinv.step hen hroom

end Others

/-! ## §6 — nothing is lost, and everything has a reference -/

section Exact

variable {sid q : Nat} {s : HandSys}

/-- What a slot refers to is alive. -/
theorem HandInv.live (h : HandInv sid q s) {a : Nat} (ha : a ∈ s.calls.slots) (hne : s.calls.refs a ≠ 0) :
    0 < s.ring.shm.refCnt (s.calls.refs a) :=
  h.calls.live _ ((h.calls.target a ha).resolve_left hne)

theorem HandSys.Refers.live (h : HandInv sid q s) {a o : Nat} (hr : s.Refers q a o) : 0 < s.ring.shm.refCnt o := by
  have hholds := hr.holds h.calls
  rw [← hholds.refs]
  apply h.live hholds.slot
  rw [hholds.refs]
  exact hr.ne_zero

/-- The receiver has its RootRef, and the entry may be cleared at any time. -/
theorem HandInv.rooted (h : HandInv sid q s) {r a v : Nat}
    (hr : s.ring.recv = .release r a v ∨ s.ring.recv = .cleared r a v ∨ s.ring.recv = .storeStart r a v) :
    s.Refers q a v ∧ s.ring.entry s.ring.consumed = v := by
  have hreceiving := h.receiving
  have hknows := h.inv.receiving
  rcases hr with hr | hr | hr
  · rw [hr] at hreceiving hknows
    exact ⟨hreceiving.1.refers, hknows.2⟩
  · rw [hr] at hreceiving hknows
    exact ⟨hreceiving.1.refers, hknows.2⟩
  · rw [hr] at hreceiving hknows
    exact ⟨hreceiving.1.refers, hknows.2⟩

/-- Position `n` of the buffer is not that of a store to come. -/
theorem HandInv.entry_settled (h : HandInv sid q s) {n : Nat} (hlo : s.ring.consumed ≤ n) (hhi : n < s.ring.sent.length)
    (hfirst : n = s.ring.consumed → ∀ r a v, s.ring.recv ≠ .release r a v) {i info : Nat} {c : RefCall}
    (hi : s.calls.call i = some (c, .storeRef info)) : c.ref ≠ bufferSlot q (n % messageBufferSize) := by
  intro href
  have hroom := h.inv.room
  have hmod : ∀ k, s.ring.consumed ≤ k → k < s.ring.consumed + messageBufferSize →
      bufferSlot q (k % messageBufferSize) = bufferSlot q (n % messageBufferSize) → k = n := fun k hk hk' he =>
    RingWindow.eq_of_mod_eq hk hk' hlo (by omega) (bufferSlot_inj he)
  have hentry : IsEntry q c.ref := ⟨n % messageBufferSize, Nat.mod_lt _ (by decide), href⟩
  have hfollows : i = sid ∧ s.ring.send.follows (.storeRef info) .loadInfo ∨
      s.ring.recv.follows i (.storeRef info) .loadInfo := h.storing_follows hi trivial hentry
  rcases hfollows with ⟨rfl, hf⟩ | hf
  · have hsending := h.sending
    cases hs : s.ring.send with
    | link o =>
      rw [hs] at hsending
      obtain ⟨p, hp, -⟩ := hsending
      rw [hi] at hp
      obtain ⟨rfl, -⟩ := Prod.mk.inj (Option.some.inj hp)
      have hpub : s.ring.published = s.ring.sent.length := by
        unfold RingSys.published
        rw [hs]
        rfl
      have href : bufferSlot q (s.ring.shm.queueEnd q) = bufferSlot q (n % messageBufferSize) := href
      rw [h.inv.stop] at href
      have := hmod s.ring.published h.inv.le h.inv.lt href
      omega
    | linked o =>
      rw [hs] at hf
      cases hf
    | _ =>
      rw [hs] at hf
      exact hf.elim
  · have hreceiving := h.receiving
    cases hr : s.ring.recv with
    | release r a v =>
      rw [hr] at hreceiving hf
      obtain ⟨rfl, -⟩ := hf
      obtain ⟨-, hnone | ⟨p, hp, -⟩⟩ := hreceiving
      · cases hnone.symm.trans hi
      · rw [hi] at hp
        obtain ⟨rfl, -⟩ := Prod.mk.inj (Option.some.inj hp)
        have href : bufferSlot q (s.ring.shm.queueStart q) = bufferSlot q (n % messageBufferSize) := href
        rw [h.inv.start] at href
        have hn := hmod s.ring.consumed (Nat.le_refl _) (Nat.lt_add_of_pos_right (by decide)) href
        exact hfirst hn.symm r a v hr
    | hold r a v =>
      rw [hr] at hf
      cases hf.2
    | cleared r a v =>
      rw [hr] at hf
      cases hf.2
    | _ =>
      rw [hr] at hf
      exact hf.elim

/-- **What has been linked and not received has a reference.** -/
theorem HandInv.linked (h : HandInv sid q s) {n : Nat} (hlo : s.ring.consumed ≤ n) (hhi : n < s.ring.sent.length) :
    0 < s.ring.shm.refCnt s.ring.sent[n] := by
  have hentry : s.ring.entry n = s.ring.sent[n] := List.getD_eq_getElem _ _ hhi
  rw [← hentry]
  by_cases hroot : n = s.ring.consumed ∧ ∃ r a v,
      s.ring.recv = .release r a v ∨ s.ring.recv = .cleared r a v ∨ s.ring.recv = .storeStart r a v
  · -- the RootRef of the receiver refers to it
    obtain ⟨rfl, r, a, v, hr⟩ := hroot
    obtain ⟨hrefers, hv⟩ := h.rooted hr
    rw [hv]
    exact hrefers.live h
  · -- the buffer slot refers to it
    have hfirst : n = s.ring.consumed → ∀ r a v, s.ring.recv ≠ .release r a v ∧ ¬ s.ring.recv.taken := by
      intro hn r a v
      refine ⟨fun hr => hroot ⟨hn, r, a, v, Or.inl hr⟩, fun htaken => ?_⟩
      cases hr : s.ring.recv with
      | cleared r a v => exact hroot ⟨hn, r, a, v, Or.inr (Or.inl hr)⟩
      | storeStart r a v => exact hroot ⟨hn, r, a, v, Or.inr (Or.inr hr)⟩
      | _ =>
        rw [hr] at htaken
        exact htaken.elim
    obtain ⟨g, hg, -, -, hw⟩ := h.inv.window
    obtain ⟨hle, hzero⟩ := hg.le h.ring.live
    have hroom := h.inv.room
    have hgn : s.ring.consumed + g ≤ n := by
      by_cases hn : n = s.ring.consumed
      · have := hzero (hfirst hn 0 0 0).2
        omega
      · omega
    have hcell : s.ring.shm.word (bufferSlot q (n % messageBufferSize)) = s.ring.entry n := hw n hgn (by omega)
    have hslot : bufferSlot q (n % messageBufferSize) ∈ s.calls.slots :=
      h.entries _ ⟨n % messageBufferSize, Nat.mod_lt _ (by decide), rfl⟩
    have hrefs := h.calls.settled _ hslot fun i c info hi =>
      h.entry_settled hlo hhi (fun hn r a v => (hfirst hn r a v).1) hi
    have hlive := h.live hslot
    rw [← hrefs, hcell] at hlive
    exact hlive (h.inv.entry_ne_zero hhi)

theorem HandInv.handOver (h : HandInv sid q s) : HandOver q s := by
  have hconsumed : s.ring.consumed = s.ring.received.length := by
    unfold RingSys.consumed
    rw [h.ring.base, Nat.zero_add]
  refine ⟨h.ring.fifo, fun n hlo hhi => h.linked (hconsumed ▸ hlo) hhi, fun r a v hr => ?_, fun a v hv => ?_⟩
  · obtain ⟨hrefers, -⟩ := h.rooted hr
    exact ⟨hrefers.word, hrefers.live h⟩
  · exact ⟨(h.kept a v hv).word, (h.kept a v hv).live h⟩

end Exact

/-! ## §7 — an object with many references -/

/-- The first `n` RootRefs of the pages from (0, 1) on refer to the object at the start of page (0, 17). -/
def handArea (n : Nat) : Shm :=
  { Shm.zero with
    word := fun a =>
      if a = 135331840 + 8 then packRefInfo 1 n 0
      else if 134283264 ≤ a ∧ a < 134283264 + 16 * n ∧ a % 16 = 0 then 135331840
      else 0 }

/-- These RootRefs and the next one, and the buffer of a queue at the start of page (0, 18). -/
def handSlots (n : Nat) : Finset Nat :=
  (Finset.range (n + 1)).image (fun i => 134283264 + 16 * i) ∪
    (Finset.range messageBufferSize).image (bufferSlot 135397376)

def handStart (n : Nat) : HandSys where
  ring := ⟨handArea n, .idle, .vacant, false, [], [], 0⟩
  calls := ⟨fun _ => none, fun _ => 0, {135331840}, {135331840}, handSlots n, (handArea n).word⟩
  kept := []

theorem mem_handSlots {n a : Nat} : a ∈ handSlots n ↔
    (∃ i < n + 1, 134283264 + 16 * i = a) ∨ ∃ k < messageBufferSize, bufferSlot 135397376 k = a := by
  simp only [handSlots, Finset.mem_union, Finset.mem_image, Finset.mem_range]

/-- A word that is neither the `ref_info` nor one of the RootRefs. -/
theorem handArea_zero {n a : Nat} (hn : n < 2 ^ 16) (ha : 135331840 + 8 < a) : (handArea n).word a = 0 := by
  show (if a = 135331840 + 8 then packRefInfo 1 n 0
    else if 134283264 ≤ a ∧ a < 134283264 + 16 * n ∧ a % 16 = 0 then 135331840 else 0) = 0
  rw [if_neg (by omega), if_neg (by omega)]

theorem handArea_root {n i : Nat} :
    (handArea n).word (134283264 + 16 * i) = if i < n then 135331840 else 0 := by
  show (if 134283264 + 16 * i = 135331840 + 8 then packRefInfo 1 n 0
    else if 134283264 ≤ 134283264 + 16 * i ∧ 134283264 + 16 * i < 134283264 + 16 * n ∧
      (134283264 + 16 * i) % 16 = 0 then 135331840 else 0) = _
  rw [if_neg (by omega)]
  by_cases hin : i < n
  · rw [if_pos (by omega), if_pos hin]
  · rw [if_neg (by omega), if_neg hin]

theorem handArea_refCnt {n : Nat} (hn : n < 2 ^ 16) : (handArea n).refCnt 135331840 = n := by
  have hinfo : (handArea n).word (135331840 + 8) = packRefInfo 1 n 0 := by
    simp only [handArea, if_true]
  rw [Shm.refCnt, Shm.refInfo, hinfo]
  exact getRefCntFromInfo_pack (by decide) hn (by decide)

theorem handArea_holding {n : Nat} (hn : n < 2 ^ 16) :
    SlotCount.holding (handSlots n) (handArea n).word 135331840 = n := by
  have hroots : (handSlots n).filter (fun a => (handArea n).word a = 135331840) =
      (Finset.range n).image fun i => 134283264 + 16 * i := by
    ext a
    simp only [Finset.mem_filter, mem_handSlots, Finset.mem_image, Finset.mem_range]
    constructor
    · rintro ⟨⟨i, hi, rfl⟩ | ⟨k, hk, rfl⟩, hw⟩
      · rw [handArea_root] at hw
        by_cases hin : i < n
        · exact ⟨i, hin, rfl⟩
        · rw [if_neg hin] at hw
          cases hw
      · rw [handArea_zero hn (by unfold bufferSlot; omega)] at hw
        cases hw
    · rintro ⟨i, hi, rfl⟩
      refine ⟨Or.inl ⟨i, by omega, rfl⟩, ?_⟩
      rw [handArea_root, if_pos hi]
  have hinj : Function.Injective fun i : Nat => 134283264 + 16 * i := by
    intro i j hij
    have hij : 134283264 + 16 * i = 134283264 + 16 * j := hij
    omega
  unfold SlotCount.holding
  rw [hroots, Finset.card_image_of_injective _ hinj, Finset.card_range]

theorem handStart_init {n : Nat} (hpos : 0 < n) (hn : n < 2 ^ 16) : HandInit 1 135397376 (handStart n) := by
  have hfield : ∀ l < 5, 135397376 + 8 * l ∉ handSlots n := by
    intro l hl hin
    rcases mem_handSlots.mp hin with ⟨i, hi, he⟩ | ⟨k, hk, he⟩
    · omega
    · unfold bufferSlot at he
      omega
  have hheader : ∀ j < 3, 135331840 + 8 * j ∉ handSlots n := by
    intro j hj hin
    rcases mem_handSlots.mp hin with ⟨i, hi, he⟩ | ⟨k, hk, he⟩
    · omega
    · unfold bufferSlot at he
      omega
  have hring : RingInit 135397376 (handStart n).ring := by
    refine ⟨fun k _ => handArea_zero hn ?_, handArea_zero hn (by decide), handArea_zero hn (by decide), ?_, rfl, rfl, rfl,
      rfl, rfl, rfl⟩
    · unfold bufferSlot
      omega
    · have hword : (handArea n).word (135397376 + 16) = 0 := handArea_zero hn (by decide)
      show (handArea n).word (135397376 + 16) / 2 ^ 16 % 2 ^ 16 = 0
      rw [hword]
      decide
  refine ⟨hring, ⟨fun _ => Nat.two_pow_pos 32, ?_, Finset.Subset.refl _, ?_, ?_, fun a ha => ⟨rfl, ?_⟩, fun o ho => ?_,
    fun _ => ⟨rfl, rfl⟩⟩, by decide, ?_, fun l hl => ⟨hfield l hl, fun o ho j hj => ?_⟩, rfl⟩
  · intro hz
    cases Finset.mem_singleton.mp hz
  · intro o ho p hp hne
    exact absurd ((Finset.mem_singleton.mp ho).trans (Finset.mem_singleton.mp hp).symm) hne
  · intro o ho
    rw [Finset.mem_singleton.mp ho]
    exact hheader
  · show (handArea n).word a = 0 ∨ (handArea n).word a ∈ ({135331840} : Finset Nat)
    rcases mem_handSlots.mp ha with ⟨i, hi, rfl⟩ | ⟨k, hk, rfl⟩
    · rw [handArea_root]
      by_cases hin : i < n
      · rw [if_pos hin]
        exact Or.inr (Finset.mem_singleton_self _)
      · rw [if_neg hin]
        exact Or.inl rfl
    · exact Or.inl (handArea_zero hn (by unfold bufferSlot; omega))
  · rw [Finset.mem_singleton.mp ho]
    exact ⟨(handArea_refCnt hn).trans (handArea_holding hn).symm, (handArea_refCnt hn).symm ▸ hpos⟩
  · rintro a ⟨k, hk, rfl⟩
    exact mem_handSlots.mpr (Or.inr ⟨k, hk, rfl⟩)
  · rw [Finset.mem_singleton.mp ho]
    omega

/-! ## §8 — two clients -/

instance : DecidablePred RecvPc.running
  | .vacant | .idle _ | .crashed _ | .scan _ _ | .forget _ => instDecidableFalse
  | .testReceiver _ | .storeReceiverNext _ | .storeReceiverQueue _ | .storeReceiverId _ | .testEmpty _ | .testEntry _
  | .take _ | .hold _ _ _ | .release _ _ _ | .cleared _ _ _ | .storeStart _ _ _ => instDecidableTrue

/-- The accesses of client 1, which sends, and of client 2, which receives, but for the one that takes an entry. -/
def HandMove.Plain (s : HandSys) : HandMove → Prop
  | .sender => s.ring.send ≠ .idle ∧ s.calls.call 1 = none
  | .access i _ => (i = 1 ∨ i = 2) ∧ s.calls.call i ≠ none
  | .unwrap r => r = 2 ∧ s.ring.recv = .vacant ∧ s.calls.call 2 = none
  | .receiver _ => s.ring.recv.running ∧ s.ring.recv.client = 2 ∧ s.ring.recv ≠ .take 2 ∧ s.calls.call 2 = none
  | _ => False

instance (s : HandSys) : DecidablePred (HandMove.Plain s) := fun mv => by
  cases mv <;> unfold HandMove.Plain <;> infer_instance

def plainMoves : List HandMove → HandSys → HandSys
  | [], s => s
  | mv :: l, s => plainMoves l (s.next 1 135397376 mv)

def PlainRun : List HandMove → HandSys → Prop
  | [], _ => True
  | mv :: l, s => mv.Plain s ∧ PlainRun l (s.next 1 135397376 mv)

instance plainRun_decidable : ∀ (l : List HandMove) (s : HandSys), Decidable (PlainRun l s)
  | [], _ => isTrue trivial
  | mv :: l, s => @instDecidableAnd _ _ _ (plainRun_decidable l (s.next 1 135397376 mv))

/-- A run from `handStart n` in which nobody but clients 1 and 2 is in a call. -/
structure PairRun (ok : Nat → Prop) (n : Nat) (s : HandSys) : Prop where
  reach : HandReach ok 1 135397376 s
  slots : s.calls.slots = handSlots n
  others : ∀ j, j ≠ 1 → j ≠ 2 → s.calls.call j = none

section Pair

variable {ok : Nat → Prop} {n : Nat} {s : HandSys}

theorem sender_calls (s : HandSys) : (s.sender 1 135397376).calls.slots = s.calls.slots ∧
    ∀ j, j ≠ 1 → (s.sender 1 135397376).calls.call j = s.calls.call j := by
  unfold HandSys.sender
  simp only
  split
  · exact ⟨rfl, fun _ _ => rfl⟩
  · exact ⟨rfl, fun _ hj => Function.update_of_ne hj ..⟩
  · exact ⟨rfl, fun _ _ => rfl⟩

theorem receiver_calls (s : HandSys) (a : Nat) : (s.receiver 135397376 a).calls.slots = s.calls.slots ∧
    ∀ j, j ≠ s.ring.recv.client → (s.receiver 135397376 a).calls.call j = s.calls.call j := by
  unfold HandSys.receiver
  simp only
  cases s.ring.recv with
  | take r => exact ⟨rfl, fun _ hj => Function.update_of_ne hj ..⟩
  | release r b v => exact ⟨rfl, fun _ hj => Function.update_of_ne hj ..⟩
  | _ => exact ⟨rfl, fun _ _ => rfl⟩

theorem access_calls (s : HandSys) (i : Nat) (spurious : Bool) (c : RefCall) (pc : RefPc) :
    (s.access 1 135397376 i spurious c pc).calls.slots = s.calls.slots ∧
      ∀ j, j ≠ i → (s.access 1 135397376 i spurious c pc).calls.call j = s.calls.call j := by
  have hother : ∀ j, j ≠ i → (s.calls.access s.ring.shm i spurious c pc).call j = s.calls.call j := fun j hj =>
    Calls.access_call_of_ne hj
  unfold HandSys.access
  simp only
  split
  · exact ⟨rfl, hother⟩
  · split
    · split
      · exact ⟨rfl, hother⟩
      · exact ⟨rfl, hother⟩
    · exact ⟨rfl, hother⟩

/-- One access of the two. -/
theorem PairRun.move (hroom : ∀ s, PairRun ok n s → ∀ mv : HandMove, mv.Room ok s) (h : PairRun ok n s) {mv : HandMove}
    (hp : mv.Plain s) : PairRun ok n (s.next 1 135397376 mv) := by
  have hreach : mv.enabled 1 135397376 s → HandReach ok 1 135397376 (s.next 1 135397376 mv) := fun hen =>
    Reach.step h.reach ⟨mv, hen, hroom s h mv, rfl⟩ trivial
  cases mv with
  | sender =>
    obtain ⟨hslots, hcall⟩ := sender_calls s
    exact ⟨hreach hp, hslots.trans h.slots, fun j h1 h2 => (hcall j h1).trans (h.others j h1 h2)⟩
  | access i spurious =>
    obtain ⟨hpair, hi⟩ := hp
    have hreach := hreach hi
    cases hc : s.calls.call i with
    | none => exact absurd hc hi
    | some p =>
      obtain ⟨c, pc⟩ := p
      have hnext : s.next 1 135397376 (.access i spurious) = s.access 1 135397376 i spurious c pc := by
        simp only [HandSys.next, hc]
      rw [hnext] at hreach ⊢
      obtain ⟨hslots, hcall⟩ := access_calls s i spurious c pc
      refine ⟨hreach, hslots.trans h.slots, fun j h1 h2 => (hcall j ?_).trans (h.others j h1 h2)⟩
      rcases hpair with rfl | rfl
      · exact h1
      · exact h2
  | unwrap r =>
    obtain ⟨rfl, hr, hnone⟩ := hp
    exact ⟨hreach ⟨Or.inl hr, by decide, by decide, hnone⟩, h.slots, h.others⟩
  | receiver a =>
    obtain ⟨hrun, hclient, htake, hnone⟩ := hp
    obtain ⟨hslots, hcall⟩ := receiver_calls s a
    rw [hclient] at hcall
    refine ⟨hreach ⟨hrun, hclient ▸ hnone, fun r hr => ?_⟩, hslots.trans h.slots,
      fun j h1 h2 => (hcall j h2).trans (h.others j h1 h2)⟩
    rw [hr] at hclient
    obtain rfl : r = 2 := hclient
    exact absurd hr htake
  | send g => exact hp.elim
  | call i c g => exact hp.elim
  | appear tbr o => exact hp.elim
  | env m slots' => exact hp.elim

theorem PairRun.moves (hroom : ∀ s, PairRun ok n s → ∀ mv : HandMove, mv.Room ok s) (l : List HandMove) (h : PairRun ok n s)
    (hl : PlainRun l s) : PairRun ok n (plainMoves l s) := by
  induction l generalizing s with
  | nil => exact h
  | cons mv l ih =>
    obtain ⟨hp, hl⟩ := hl
    exact ih (h.move hroom hp) hl

/-- Client 1 begins to send its object. -/
theorem PairRun.begin (hpos : 0 < n) (hn : n < 2 ^ 16) :
    PairRun ok n ((handStart n).next 1 135397376 (.send 134283264)) := by
  have hword : (handArea n).word 134283264 = 135331840 := by
    have hroot := @handArea_root n 0
    rwa [if_pos hpos] at hroot
  have h₀ : PairRun ok n (handStart n) := ⟨Reach.init (handStart_init hpos hn) trivial, rfl, fun _ _ _ => rfl⟩
  have hrefers : (handStart n).Refers 135397376 134283264 ((handStart n).ring.shm.word 134283264) := by
    refine ⟨mem_handSlots.mpr (Or.inl ⟨0, by omega, rfl⟩), ?_, rfl, ?_, ?_⟩
    · rintro ⟨k, hk, he⟩
      unfold bufferSlot at he
      omega
    · show (handArea n).word 134283264 ≠ 0
      rw [hword]
      decide
    · rintro ⟨i, c, pc, hi, -⟩
      cases hi
  have hreach : HandReach ok 1 135397376 ((handStart n).next 1 135397376 (.send 134283264)) :=
    Reach.step h₀.reach ⟨.send 134283264, ⟨rfl, rfl, hrefers, by decide⟩, trivial, rfl⟩ trivial
  exact ⟨hreach, rfl, fun _ _ _ => rfl⟩

/-- Client 2 takes the entry, with the RootRef that refers to nothing. -/
theorem PairRun.take (hroom : ∀ s, PairRun ok 1 s → ∀ mv : HandMove, mv.Room ok s) (h : PairRun ok 1 s)
    (hr : s.ring.recv = .take 2) (hone : s.calls.call 1 = none) (htwo : s.calls.call 2 = none)
    (hz : s.ring.shm.word 134283280 = 0) : PairRun ok 1 (s.next 1 135397376 (.receiver 134283280)) := by
  obtain ⟨hslots, hcall⟩ := receiver_calls s 134283280
  rw [hr] at hcall
  have hin : 134283280 ∈ s.calls.slots := by
    rw [h.slots]
    exact mem_handSlots.mpr (Or.inl ⟨1, by decide, rfl⟩)
  have hentry : ¬ IsEntry 135397376 134283280 := by
    rintro ⟨k, hk, he⟩
    unfold bufferSlot at he
    omega
  have halone : ¬ s.calls.InCall 134283280 := by
    rintro ⟨j, c, pc, hj, -⟩
    by_cases h1 : j = 1
    · cases (h1 ▸ hone).symm.trans hj
    · by_cases h2 : j = 2
      · cases (h2 ▸ htwo).symm.trans hj
      · cases (h.others j h1 h2).symm.trans hj
  have hen : HandMove.enabled 1 135397376 s (.receiver 134283280) := by
    refine ⟨?_, ?_, fun _ _ => ⟨hin, by decide, hentry, hz, halone⟩⟩
    · rw [hr]
      trivial
    · rw [hr]
      exact htwo
  exact ⟨Reach.step h.reach ⟨_, hen, hroom s h _, rfl⟩ trivial, hslots.trans h.slots,
    fun j h1 h2 => (hcall j h2).trans (h.others j h1 h2)⟩

/-- With few slots there is always room. -/
theorem PairRun.room (h : PairRun (fun n => n < 2 ^ 16 - 1) 1 s) (mv : HandMove) : mv.Room (fun n => n < 2 ^ 16 - 1) s := by
  have hinv := h.reach.inv
  cases mv with
  | access i spurious =>
    intro c pc hi hcas _
    cases pc with
    | cas info cur =>
      have hcount := hinv.calls.count _ (hinv.calls.refed_mem hi trivial)
      have hcard : SlotCount.holding s.calls.slots s.calls.refs c.refed ≤ s.calls.slots.card := Finset.card_filter_le ..
      have hfew : (handSlots 1).card < 2 ^ 16 - 1 := by decide
      rw [h.slots] at hcount hcard
      show s.ring.shm.refCnt c.refed < 2 ^ 16 - 1
      omega
    | _ => exact hcas.elim
  | _ => trivial

end Pair

/-! ## §9 — the queue and the counts -/

/-- **Nothing is lost on the way, and everything has a reference throughout**: in every run in which each
`link_reference` finds a count below 2^16 - 1. -/
theorem objects_handed_over {sid q : Nat} {s : HandSys} (h : HandReach (fun n => n < 2 ^ 16 - 1) sid q s) :
    HandOver q s :=
  h.inv.handOver

/-- What client 1 and client 2 do up to the entry being taken, and from then on. -/
def sendMoves : List HandMove :=
  [.sender, .sender] ++ List.replicate 7 (.access 1 false) ++ [.sender, .unwrap 2] ++ List.replicate 6 (.receiver 0)

def takeMoves : List HandMove :=
  List.replicate 7 (.access 2 false) ++ [.receiver 0] ++ List.replicate 7 (.access 2 false) ++ [.receiver 0]

set_option maxRecDepth 4000 in
/-- Client 1 has sent its object, and client 2 has got it. -/
theorem objects_handed_over_pair : ∃ s : HandSys, s.kept = [(134283280, 135331840)] ∧ HandOver 135397376 s := by
  have hroom : ∀ s, PairRun (fun n => n < 2 ^ 16 - 1) 1 s → ∀ mv : HandMove, mv.Room (fun n => n < 2 ^ 16 - 1) s :=
    fun s h => h.room
  have h₁ := PairRun.moves hroom sendMoves (PairRun.begin Nat.one_pos (by decide)) (by decide)
  have h₂ := PairRun.moves hroom takeMoves (h₁.take hroom (by decide) (by decide) (by decide) (by decide)) (by decide)
  exact ⟨_, by decide, objects_handed_over h₂.reach⟩

set_option maxRecDepth 4000 in
/-- The object has 2^16 - 1 references, and client 1 sends it: the count in the buffer reads 0. -/
theorem objects_handed_over_full : ∃ s, HandReach (fun _ => True) 1 135397376 s ∧ ¬ HandOver 135397376 s := by
  have hroom : ∀ s, PairRun (fun _ => True) (2 ^ 16 - 1) s → ∀ mv : HandMove, mv.Room (fun _ => True) s := by
    rintro s - mv
    cases mv <;> first | trivial | exact fun _ _ _ _ _ => trivial
  have h₁ := PairRun.moves hroom ([.sender, .sender] ++ List.replicate 6 (.access 1 false))
    (PairRun.begin (by decide) (by decide)) (by decide)
  refine ⟨_, h₁.reach, fun hover => ?_⟩
  have hlinked := hover.linked 0 (Nat.zero_le _) (by decide)
  revert hlinked
  decide

end CxlShm
