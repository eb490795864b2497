import CxlShm.DropProtocol

/-! # DropInvariant — what holds while clients drop concurrently

The counting equation is over *all* slots, those of freed objects included, less the slots whose
compare-exchange is done and whose store is not: it holds however the drops interleave. An activation
that has read the count 1 is the only one with an effective slot on its object, so nobody else touches
that object (`DropInv.sole`). Whether a freed object still refers to a child is a separate matter, and
`orphans` says exactly when.
-/

namespace CxlShm

open Transition SlotCount

/-! ## §1 — what an activation knows -/

/-- Slot `a` holds the object `o`, whose count is 1, and its first `k` children are released. -/
structure Torn (W : DropWorld) (m : Shm) (a o k : Nat) : Prop where
  word : m.word a = o
  obj : o ∈ W.objs
  one : m.refCnt o = 1
  released : ∀ j < W.emb o, j < k → m.word (embeddedSlot o j) = 0

/-- Before the compare-exchange. -/
def Before (W : DropWorld) (m : Shm) (a : Nat) (c : RefCall) (deep : Bool) : Prop :=
  m.word a = c.refed ∧ (deep = true → Torn W m a c.refed (W.emb c.refed))

def UnlinkOk (W : DropWorld) (m : Shm) (a : Nat) (c : RefCall) (deep : Bool) : RefPc → Prop
  | .storeRedo _ cur => Before W m a c deep ∧ cur < 2 ^ 32
  | .cas _ cur => Before W m a c deep ∧ cur < 2 ^ 32
  | .storeRef info => m.word a = c.refed ∧ (getRefCntFromInfo info = 1 → m.refCnt c.refed = 0)
  | .bumpEra info => m.word a = 0 ∧ (getRefCntFromInfo info = 1 → m.refCnt c.refed = 0)
  | .wipe k => m.word a = 0 ∧ m.refCnt c.refed = 0 ∧ k < 3
  | .done => m.word a = 0
  | _ => Before W m a c deep

def FrameOk (W : DropWorld) (m : Shm) (f : DropFrame) : Prop :=
  match f.pc with
  | .test => True
  | .loadInfo => m.word f.ref ≠ 0
  | .loop o k => Torn W m f.ref o k
  | .inChild o k => Torn W m f.ref o k ∧ k < W.emb o
  | .unlink c pc deep => c.func = .unlinkRef ∧ c.ref = f.ref ∧ c.refed ∈ W.objs ∧
      UnlinkOk W m f.ref c deep pc

/-- The object whose count no longer includes the slot of this activation. -/
def DropFrame.pending (f : DropFrame) : Option Nat :=
  match f.pc with
  | .unlink c (.storeRef _) _ => some c.refed
  | _ => none

/-- What a step leaves to an activation `g` that it does not belong to. -/
structure Spared (W : DropWorld) (g : DropFrame) (m m' : Shm) : Prop where
  word : m'.word g.ref = m.word g.ref
  zero : ∀ a ∈ W.slots, m.word a = 0 → m'.word a = 0
  dead : ∀ o ∈ W.objs, m.refCnt o = 0 → m'.refCnt o = 0
  one : ∀ o ∈ W.objs, g.pending = none → m.word g.ref = o → m.refCnt o = 1 → m'.refCnt o = 1

section Frames

variable {W : DropWorld} {m m' : Shm} {g : DropFrame}

theorem Torn.spared {o k : Nat} (h : Torn W m g.ref o k) (hp : g.pending = none)
    (hs : Spared W g m m') : Torn W m' g.ref o k := by
  refine ⟨?_, h.obj, hs.one o h.obj hp h.word h.one, ?_⟩
  · rw [hs.word]
    exact h.word
  · intro j hj hjk
    exact hs.zero _ (ObjHeap.embeddedSlot_mem h.obj hj) (h.released j hj hjk)

theorem Before.spared {c : RefCall} {deep : Bool} (h : Before W m g.ref c deep)
    (hp : g.pending = none) (hs : Spared W g m m') : Before W m' g.ref c deep := by
  refine ⟨?_, fun hd => (h.2 hd).spared hp hs⟩
  rw [hs.word]
  exact h.1

/-- An activation keeps what it knows through the steps of the others. -/
theorem FrameOk.spared (h : FrameOk W m g) (hs : Spared W g m m') : FrameOk W m' g := by
  unfold FrameOk at *
  cases hpc : g.pc with
  | test => trivial
  | loadInfo =>
    rw [hpc] at h
    show m'.word g.ref ≠ 0
    rw [hs.word]
    exact h
  | loop o k =>
    rw [hpc] at h
    exact Torn.spared h (by simp [DropFrame.pending, hpc]) hs
  | inChild o k =>
    rw [hpc] at h
    exact ⟨h.1.spared (by simp [DropFrame.pending, hpc]) hs, h.2⟩
  | unlink c pc deep =>
    rw [hpc] at h
    obtain ⟨hf, hr, ho, hat⟩ := h
    refine ⟨hf, hr, ho, ?_⟩
    cases pc with
    | loadInfo => exact Before.spared hat (by simp [DropFrame.pending, hpc]) hs
    | loadEra info => exact Before.spared hat (by simp [DropFrame.pending, hpc]) hs
    | loadEle info cur => exact Before.spared hat (by simp [DropFrame.pending, hpc]) hs
    | storeEle info cur => exact Before.spared hat (by simp [DropFrame.pending, hpc]) hs
    | storeRedo info cur => exact ⟨hat.1.spared (by simp [DropFrame.pending, hpc]) hs, hat.2⟩
    | cas info cur => exact ⟨hat.1.spared (by simp [DropFrame.pending, hpc]) hs, hat.2⟩
    | storeRef info => exact ⟨hs.word.trans hat.1, fun h1 => hs.dead _ ho (hat.2 h1)⟩
    | bumpEra info => exact ⟨hs.word.trans hat.1, fun h1 => hs.dead _ ho (hat.2 h1)⟩
    | wipe k => exact ⟨hs.word.trans hat.1, hs.dead _ ho hat.2.1, hat.2.2⟩
    | done => exact hs.word.trans hat

end Frames

/-! ## §2 — the invariant -/

/-- Every activation but the last was called by the one below it on the child that one waits for;
the last one drops a RootRef of the client. -/
def Linked (W : DropWorld) (i : Nat) : List DropFrame → Prop
  | [] => True
  | [f] => f.ref ∈ W.rootsOf i
  | f :: g :: rest => (∃ o k, g.pc = .inChild o k ∧ f.ref = embeddedSlot o k) ∧ Linked W i (g :: rest)

def pendingOf : List DropFrame → Option Nat
  | [] => none
  | f :: _ => f.pending

structure DropInv (W : DropWorld) (s : DropSys) : Prop where
  frame : ∀ i ∈ W.ids, ∀ f ∈ s.stack i, FrameOk W s.shm f
  linked : ∀ i ∈ W.ids, Linked W i (s.stack i)
  nodup : ∀ i ∈ W.ids, ((s.stack i).map DropFrame.ref).Nodup
  apart : ∀ i ∈ W.ids, ∀ j ∈ W.ids, i ≠ j → ∀ f ∈ s.stack i, ∀ g ∈ s.stack j, f.ref ≠ g.ref
  count : ∀ o ∈ W.objs, s.shm.refCnt o + holding W.ids (fun i => pendingOf (s.stack i)) (some o) =
    holding W.slots s.shm.word o
  embedded : ∀ o ∈ W.objs, s.shm.refCnt o ≠ 0 → s.shm.word (o + 16) = W.emb o
  target : ∀ a ∈ W.slots, s.shm.word a = 0 ∨ s.shm.word a ∈ W.objs
  era : ∀ k, s.shm.eraCell k < 2 ^ 32
  dead : ∀ o ∈ W.objs, s.shm.refCnt o = 0 → o ∉ s.orphans →
    ∀ k < W.emb o, s.shm.word (embeddedSlot o k) = 0
  orphan : ∀ o ∈ s.orphans, o ∈ W.objs ∧ s.shm.refCnt o = 0 ∧
    ∃ k < W.emb o, s.shm.word (embeddedSlot o k) ≠ 0

section Stacks

variable {W : DropWorld} {i : Nat}

theorem Linked.tail {f : DropFrame} {rest : List DropFrame} (h : Linked W i (f :: rest)) :
    Linked W i rest := by
  cases rest with
  | nil => trivial
  | cons g rest => exact h.2

/-- Only the slot of the top activation matters to the rest of the chain. -/
theorem Linked.to {f : DropFrame} {rest : List DropFrame} (h : Linked W i (f :: rest)) (pc : DropPc) :
    Linked W i (f.to pc :: rest) := by
  cases rest with
  | nil => exact h
  | cons g rest => exact h

/-- An activation drops a RootRef of its client or the child another activation of it waits for. -/
theorem Linked.caller {st : List DropFrame} (h : Linked W i st) {f : DropFrame} (hf : f ∈ st) :
    f.ref ∈ W.rootsOf i ∨ ∃ g ∈ st, ∃ o k, g.pc = .inChild o k ∧ f.ref = embeddedSlot o k := by
  induction st with
  | nil => exact absurd hf List.not_mem_nil
  | cons e rest ih =>
    rcases List.mem_cons.mp hf with rfl | hf
    · cases rest with
      | nil => exact Or.inl h
      | cons g rest =>
        obtain ⟨⟨o, k, hg, href⟩, -⟩ := h
        exact Or.inr ⟨g, List.mem_cons_of_mem _ List.mem_cons_self, o, k, hg, href⟩
    · rcases ih h.tail hf with hroot | ⟨g, hg, hgk⟩
      · exact Or.inl hroot
      · exact Or.inr ⟨g, List.mem_cons_of_mem _ hg, hgk⟩

end Stacks

namespace DropInv

variable {W : DropWorld} {s : DropSys}

theorem ref_mem (h : DropInv W s) {i : Nat} (hi : i ∈ W.ids) {f : DropFrame} (hf : f ∈ s.stack i) :
    f.ref ∈ W.slots := by
  rcases (h.linked i hi).caller hf with hroot | ⟨g, hg, o, k, hpc, href⟩
  · exact ObjHeap.root_mem (W.mem_roots hi hroot)
  · have hok := h.frame i hi g hg
    unfold FrameOk at hok
    rw [hpc] at hok
    rw [href]
    exact ObjHeap.embeddedSlot_mem hok.1.obj hok.2

/-- Two activations on one slot are the same activation. -/
theorem frame_eq (h : DropInv W s) {i j : Nat} (hi : i ∈ W.ids) (hj : j ∈ W.ids) {f g : DropFrame}
    (hf : f ∈ s.stack i) (hg : g ∈ s.stack j) (href : f.ref = g.ref) : i = j ∧ f = g := by
  have hij : i = j := by
    by_contra hij
    exact h.apart i hi j hj hij f hf g hg href
  subst hij
  exact ⟨rfl, List.inj_on_of_nodup_map (h.nodup i hi) hf hg href⟩

/-- **Effective slots are counted.** Slots that hold `o` and belong to no pending activation number
at most the count of `o`. -/
theorem card_le_refCnt (h : DropInv W s) {o : Nat} (ho : o ∈ W.objs) (E : Finset Nat)
    (hE : ∀ a ∈ E, a ∈ W.slots ∧ s.shm.word a = o)
    (heff : ∀ i ∈ W.ids, ∀ f ∈ s.stack i, f.pending = some o → f.ref ∉ E) :
    E.card ≤ s.shm.refCnt o := by
  let P := W.ids.filter fun i => pendingOf (s.stack i) = some o
  let refOf : Nat → Nat := fun i => ((s.stack i).head?.map DropFrame.ref).getD 0
  have htop : ∀ i ∈ P, ∃ f ∈ s.stack i, f.pending = some o ∧ refOf i = f.ref := by
    intro i hi
    obtain ⟨-, hp⟩ := Finset.mem_filter.mp hi
    cases hst : s.stack i with
    | nil =>
      rw [hst] at hp
      cases hp
    | cons f rest =>
      rw [hst] at hp
      exact ⟨f, List.mem_cons_self, hp, by simp [refOf, hst]⟩
  have hids : ∀ i ∈ P, i ∈ W.ids := fun i hi => (Finset.mem_filter.mp hi).1
  have hinj : Set.InjOn refOf P := by
    intro i hi j hj hij
    obtain ⟨f, hf, -, hrf⟩ := htop i hi
    obtain ⟨g, hg, -, hrg⟩ := htop j hj
    exact (h.frame_eq (hids i hi) (hids j hj) hf hg (by rw [← hrf, ← hrg, hij])).1
  have hdisj : Disjoint E (P.image refOf) := by
    rw [Finset.disjoint_left]
    intro a ha haP
    obtain ⟨i, hi, rfl⟩ := Finset.mem_image.mp haP
    obtain ⟨f, hf, hp, hrf⟩ := htop i hi
    rw [hrf] at ha
    exact heff i (hids i hi) f hf hp ha
  have hsub : E ∪ P.image refOf ⊆ W.slots.filter fun a => s.shm.word a = o := by
    intro a ha
    rcases Finset.mem_union.mp ha with ha | ha
    · exact Finset.mem_filter.mpr (hE a ha)
    · obtain ⟨i, hi, rfl⟩ := Finset.mem_image.mp ha
      obtain ⟨f, hf, hp, hrf⟩ := htop i hi
      have hok := h.frame i (hids i hi) f hf
      rw [hrf]
      refine Finset.mem_filter.mpr ⟨h.ref_mem (hids i hi) hf, ?_⟩
      unfold DropFrame.pending at hp
      split at hp
      · rename_i c info deep hpc
        unfold FrameOk at hok
        rw [hpc] at hok
        cases hp
        exact hok.2.2.2.1
      · cases hp
  have hcard := Finset.card_le_card hsub
  rw [Finset.card_union_of_disjoint hdisj, Finset.card_image_of_injOn hinj] at hcard
  have hcount := h.count o ho
  unfold holding at hcount
  change _ + P.card = _ at hcount
  omega

/-- An activation on a slot that still counts sees a positive count. -/
theorem refCnt_pos (h : DropInv W s) {i o : Nat} (hi : i ∈ W.ids) {f : DropFrame}
    (hf : f ∈ s.stack i) (hp : f.pending = none) (hw : s.shm.word f.ref = o) (ho : o ∈ W.objs) :
    0 < s.shm.refCnt o := by
  have hle := h.card_le_refCnt ho {f.ref}
    (fun a ha => by rw [Finset.mem_singleton.mp ha]; exact ⟨h.ref_mem hi hf, hw⟩) ?_
  · rwa [Finset.card_singleton] at hle
  · intro j hj g hg hgp hmem
    obtain ⟨-, rfl⟩ := h.frame_eq hj hi hg hf (Finset.mem_singleton.mp hmem)
    rw [hp] at hgp
    cases hgp

/-- **The last holder is alone.** Two activations whose slots count and hold an object of count 1
are the same activation. -/
theorem sole (h : DropInv W s) {i j o : Nat} (hi : i ∈ W.ids) (hj : j ∈ W.ids) {f g : DropFrame}
    (hf : f ∈ s.stack i) (hg : g ∈ s.stack j) (hfp : f.pending = none) (hgp : g.pending = none)
    (hfw : s.shm.word f.ref = o) (hgw : s.shm.word g.ref = o) (ho : o ∈ W.objs)
    (hone : s.shm.refCnt o = 1) : i = j ∧ f = g := by
  apply h.frame_eq hi hj hf hg
  by_contra hne
  have hle := h.card_le_refCnt ho {f.ref, g.ref} ?_ ?_
  · rw [Finset.card_pair hne, hone] at hle
    exact absurd hle (by decide)
  · intro a ha
    rcases Finset.mem_insert.mp ha with rfl | ha
    · exact ⟨h.ref_mem hi hf, hfw⟩
    · rw [Finset.mem_singleton.mp ha]
      exact ⟨h.ref_mem hj hg, hgw⟩
  · intro l hl e he hep hmem
    rcases Finset.mem_insert.mp hmem with href | href
    · obtain ⟨-, rfl⟩ := h.frame_eq hl hi he hf href
      rw [hfp] at hep
      cases hep
    · obtain ⟨-, rfl⟩ := h.frame_eq hl hj he hg (Finset.mem_singleton.mp href)
      rw [hgp] at hep
      cases hep

end DropInv

end CxlShm
