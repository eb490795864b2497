import CxlShm.FreshObject
import CxlShm.WorldQueues

/-! # WorldExact — what holds in every state of every run

Every call keeps the invariant, so it holds in every state the clients can bring the area to. From it: the counts
are exact, no reference dangles, a handle keeps its object, data without cycles does not leak, a drop comes to an
end, and a word of data is what was last written there.
-/

namespace CxlShm

open SlotCount Loop Transition

/-! ## §1 — the invariant holds -/

section Invariant

variable {K : Users} {w w' : World} {G : Nat → BlockLists} {H : ObjHeap} {size : Nat}

/-- An area nobody has used has no blocks and no objects. -/
theorem World.Fresh.ok (h : w.Fresh K) : ∃ G H, WorldOk K w G H ∧ ∀ x, x ∉ H.objs := by
  have hnone : ∀ b x, ¬ HeldBy K (fun _ => BlockLists.empty) b x := by
    rintro b x ⟨u, -, hx⟩
    exact not_held_empty hx
  have hpools : Pools K w.mem fun _ => BlockLists.empty := fun u hu => Pool.init (h.clients u hu)
  obtain ⟨H, hv, -⟩ := hpools.exists_view (fun _ => 0) fun b x _ hx => absurd hx (hnone b x)
  have hobj : ∀ x, x ∉ H.objs := by
    intro x hx
    obtain ⟨-, b, -, hx⟩ := (hv.obj x).mp hx
    exact hnone b x hx
  have hslot : ∀ a ∈ H.slots, w.mem.word a = 0 := by
    intro a ha
    rcases hv.slot_cases ha with (ha | ⟨q, _, hq, -⟩ | ha) | ⟨b, x, _, -, hx, -⟩
    · exact absurd ha (hnone 0 a)
    · exact absurd hq (hnone 1 q)
    · exact h.extra a ha
    · exact absurd hx (hnone b x)
  refine ⟨_, H, ⟨⟨hpools, hv, ?_, fun o ho => absurd ho (hobj o), h.era, h.leaking, ?_⟩, fun t ht => absurd ht (hnone 0 t),
    fun t _ => h.handles t, fun q hq => absurd hq (hnone 1 q)⟩, hobj⟩
  · exact ⟨fun a ha => Or.inl (hslot a ha), fun o ho => absurd ho (hobj o), fun o ho => absurd ho (hobj o),
      fun o ho => absurd ho (hobj o)⟩
  · rw [h.index]
    exact fun x hx => absurd hx (Finset.notMem_empty x)

/-- **Every call keeps the invariant.** It writes no data, except that a write writes its word. -/
theorem WorldStep.keeps (hs : WorldStep K size w w') (h : WorldOk K w G H) :
    ∃ G' H', WorldOk K w' G' H' ∧ ∃ a, DataKept K a w.mem w'.mem G G' H H' ∧
      ∀ c, a = some c → PayloadWord K w.mem c ∧ ∃ v, w' = ⟨w.mem.store c v, w.handles⟩ := by
  have hquiet : ∀ {G' H'}, WorldOk K w' G' H' ∧ DataKept K none w.mem w'.mem G G' H H' →
      ∃ G' H', WorldOk K w' G' H' ∧ ∃ a, DataKept K a w.mem w'.mem G G' H H' ∧
        ∀ c, a = some c → PayloadWord K w.mem c ∧ ∃ v, w' = ⟨w.mem.store c v, w.handles⟩ :=
    fun ⟨hok, hdata⟩ => ⟨_, _, hok, none, hdata, fun c hc => by cases hc⟩
  cases hs with
  | cxlMalloc u fuel dataSize n r hu hfits hslots hrun =>
    obtain ⟨G', H', hok, hdata, -⟩ := h.cxlMalloc hu hfits hslots hrun
    exact hquiet ⟨hok, hdata⟩
  | getRef u fuel x r hu hx hroom hrun =>
    obtain ⟨G', H', hok, hdata, -⟩ := h.getRef hu hx hroom hrun
    exact hquiet ⟨hok, hdata⟩
  | copy r hr hroom => exact hquiet (h.copy hr hroom)
  | destroy u fuel r hu hr hrun =>
    obtain ⟨G', H', hok, hdata, -⟩ := h.destroy hu hr hrun
    exact hquiet ⟨hok, hdata⟩
  | linkReference u a x hu ha hempty hx hroom => exact hquiet (h.linkReference hu ha hempty hx hroom)
  | unlinkReference u a hu ha hfull hlast hrun =>
    obtain ⟨G', H', hk⟩ := h.unlinkReference hu ha hfull hlast hrun
    exact hquiet hk
  | write a v ha =>
    obtain ⟨hok, hdata⟩ := h.write ha v
    refine ⟨G, H, hok, some a, hdata, fun c hc => ?_⟩
    obtain rfl := Option.some.inj hc
    exact ⟨ha, v, rfl⟩
  | createMsgQueue u fuel q hu hrun =>
    obtain ⟨G', H', hok, hdata, -⟩ := h.createMsgQueue hu hrun
    exact hquiet ⟨hok, hdata⟩
  | sentTo u q t hu hq ht hroom => exact hquiet (h.sentTo hu hq ht hroom)
  | cxlUnwrap u fuel q r hu hq hroom hrun =>
    obtain ⟨G', H', hk⟩ := h.cxlUnwrap hu hq hroom hrun
    exact hquiet hk
  | freeQueue u q hu hq hempty hrun =>
    obtain ⟨G', H', hk⟩ := h.freeQueue hu hq hempty hrun
    exact hquiet hk

/-- In these runs nothing is put into the index. -/
theorem WorldReach.index (h : WorldReach K size w) : K.index = ∅ :=
  @Reach.invariant _ _ _ _ (fun _ => K.index = ∅) (fun _ hi _ => hi.index) (fun _ _ hk _ _ _ => hk) _ h

/-- **The invariant holds in every state of every run.** -/
theorem WorldReach.ok (h : WorldReach K size w) : ∃ G H, WorldOk K w G H := by
  refine @Reach.invariant _ _ _ _ (fun w => ∃ G H, WorldOk K w G H) ?_ ?_ _ h
  · exact fun w hi _ => hi.ok.imp fun G hG => hG.imp fun H hH => hH.1
  · rintro w w' ⟨G, H, hok⟩ - hs -
    obtain ⟨G', H', hok', -⟩ := hs.keeps hok
    exact ⟨G', H', hok'⟩

end Invariant

/-! ## §2 — a client at work -/

/-- One client, and one word of the header. -/
def soloUsers : Users where
  clients := {1}
  extra := {8}
  index := ∅
  id_pos u hu := by
    rw [Finset.mem_singleton.mp hu]
    exact Nat.one_ne_zero
  id_lt u hu := by
    rw [Finset.mem_singleton.mp hu]
    exact Nat.one_lt_two_pow (by omega)
  below a ha := by
    rw [Finset.mem_singleton.mp ha]
    unfold segmentsAreaStart
    omega

def soloStart : World := ⟨freshArea, fun _ => 0⟩

theorem soloStart_fresh : soloStart.Fresh soloUsers := by
  refine ⟨fun u hu => ?_, fun _ _ => rfl, rfl, freshArea_unused.era, fun i => ?_, fun _ => rfl⟩
  · rw [Finset.mem_singleton.mp hu]
    exact freshArea_init
  · simp [soloStart, freshArea, Shm.setTls, Shm.zero]

/-- The client has made one object, with one reference and data behind it. -/
structure SoloObject (w : World) (t x : Nat) : Prop where
  reach : WorldReach soloUsers (2 ^ 27 + 2 ^ 26) w
  handles : w.handles = Function.update (fun _ => 0) t 1
  inHand : InHand soloUsers w.mem 35 x
  empty : w.mem.word (embeddedSlot x 0) = 0
  first : ∃ G, FirstObject 1 w.mem ⟨t, x + sizeofCxlObj⟩ G t x 35 1

section Solo

variable {w : World} {t x : Nat}

theorem SoloObject.named (h : SoloObject w t x) : w.handles t = 1 := by
  rw [h.handles, Function.update_self]

theorem SoloObject.pptr (h : SoloObject w t x) : w.mem.word t = x := by
  obtain ⟨G, hfirst⟩ := h.first
  exact hfirst.pptr

theorem SoloObject.one (h : SoloObject w t x) : w.mem.refCnt x = 1 := by
  obtain ⟨G, hfirst⟩ := h.first
  exact hfirst.one

theorem SoloObject.embedded (h : SoloObject w t x) : w.mem.word (x + 16) = 1 := by
  obtain ⟨G, hfirst⟩ := h.first
  exact hfirst.embedded

theorem SoloObject.object (h : SoloObject w t x) : ObjectInHand soloUsers w.mem x :=
  ⟨Finset.notMem_empty x, 35, by decide, h.inHand⟩

theorem zeroWords_one (m : Shm) (a : Nat) : m.zeroWords a 1 = m.store a 0 := by
  have hword : (m.zeroWords a 1).word = (m.store a 0).word := by
    funext c
    by_cases hc : c = a
    · subst hc
      have hstored : (m.store c 0).word c = 0 := Function.update_self ..
      exact (Shm.zeroWords_word_self (k := 0) Nat.one_pos).trans hstored.symm
    · rw [Shm.zeroWords_word_of_ne (fun k hk he => hc (by omega))]
      exact (Function.update_of_ne hc ..).symm
  obtain ⟨e, t, s, g, w⟩ := m
  exact congrArg (Shm.mk e t s g) hword

theorem exists_soloObject : ∃ w t x, SoloObject w t x := by
  have hsize : segmentsAreaStart + segmentSize ≤ 2 ^ 27 + 2 ^ 26 := by decide
  have hbound : objectBin 512 < cxlBinSize := by decide
  obtain ⟨t, m', hrun⟩ := freshArea_unused.cxlMalloc_place rfl hsize 1 hbound (by decide)
  obtain ⟨G, t, x, hfirst⟩ := freshArea_unused.firstObject (by decide) (by decide) hrun
  rw [hfirst.handle] at hrun
  have hu : 1 ∈ soloUsers.clients := Finset.mem_singleton_self 1
  have hstart : WorldReach soloUsers (2 ^ 27 + 2 ^ 26) soloStart := Reach.init soloStart_fresh trivial
  have hcleared := hfirst.store (by decide) (Nat.le_refl _) (by decide) 0
  rw [← zeroWords_one, hfirst.handle] at hcleared
  refine ⟨_, t, x, Reach.step hstart (.cxlMalloc 1 2 512 1 _ hu (by decide) (by decide) hrun) trivial, rfl, ?_, ?_,
    G, hcleared⟩
  · exact ⟨1, hu, hcleared.pool.heldBlock_iff.mpr hcleared.object⟩
  · exact Shm.zeroWords_word_self (k := 0) Nat.one_pos

/-- The client has linked the reference of the object to the object itself. -/
structure RingObject (w : World) (t x : Nat) : Prop where
  reach : WorldReach soloUsers (2 ^ 27 + 2 ^ 26) w
  named : w.handles t = 1
  pptr : w.mem.word t = x
  own : w.mem.word (embeddedSlot x 0) = x
  object : ObjectInHand soloUsers w.mem x
  embedded : w.mem.word (x + 16) = 1
  count : w.mem.refCnt x = 2

theorem exists_ringObject : ∃ w t x, RingObject w t x := by
  obtain ⟨w, t, x, h⟩ := exists_soloObject
  obtain ⟨G, H, hok⟩ := h.reach.ok
  have hu : 1 ∈ soloUsers.clients := Finset.mem_singleton_self 1
  have hx := h.object
  have hslot : DataSlot soloUsers w.mem (embeddedSlot x 0) :=
    Or.inr ⟨x, 0, hx, by rw [h.embedded]; exact Nat.one_pos, rfl⟩
  have hroom : w.mem.refCnt x + 1 < 2 ^ 16 := by
    rw [h.one]
    decide
  have hobj := hok.heap.objectInHand_iff.mp hx
  have hmem := hok.heap.dataSlot_mem hslot
  obtain ⟨hok', -⟩ := hok.linkReference hu hslot h.empty hx hroom
  have hlinked := linkReference_linked (u := 1) (by decide) hok.heap.era hmem hobj hroom
  have ht := hok.held_of_named (t := t) (by rw [h.named]; decide)
  have hroot : t ∈ H.slots := ObjHeap.root_mem ((hok.heap.view.root t).mpr (Or.inl ht))
  refine ⟨_, t, x, Reach.step h.reach (.linkReference 1 (embeddedSlot x 0) x hu hslot h.empty hx hroom) trivial,
    h.named, ?_, hlinked.stored, hok'.heap.objectInHand_iff.mpr hobj, ?_, ?_⟩
  · have hne : t ≠ embeddedSlot x 0 := by
      rintro he
      have hword := h.empty
      rw [← he, h.pptr] at hword
      exact HeapExact.ne_zero hobj hword
    rw [hlinked.slot t hroot hne]
    exact h.pptr
  · rw [hlinked.embedded]
    exact h.embedded
  · rw [hlinked.count, h.one]

/-- The client has dropped its only handle. -/
theorem exists_soloDropped : ∃ w t x w', SoloObject w t x ∧ WorldStep soloUsers (2 ^ 27 + 2 ^ 26) w w' ∧
    Unused 1 w'.mem ∧ ∀ t, w'.handles t = 0 := by
  obtain ⟨w, t, x, h⟩ := exists_soloObject
  obtain ⟨G, hfirst⟩ := h.first
  have hslots : ∀ k < 1, w.mem.word (embeddedSlot x k) = 0 := by
    intro k hk
    obtain rfl : k = 0 := by omega
    exact h.empty
  obtain ⟨m', hrun⟩ := hfirst.pool.destroy_returns hfirst.root hfirst.object (by decide) (by decide) hfirst.count
    (hfirst.leaf hslots) (x + sizeofCxlObj)
  obtain ⟨hunused, -, -⟩ := hfirst.dropped (by decide) (by decide) hslots hrun
  have hnamed : w.handles t ≠ 0 := by
    rw [h.named]
    decide
  refine ⟨w, t, x, _, h, .destroy 1 3 ⟨t, x + sizeofCxlObj⟩ (Finset.mem_singleton_self 1) hnamed hrun, hunused, ?_⟩
  intro s
  show Function.update w.handles t (w.handles t - 1) s = 0
  by_cases hs : s = t
  · rw [hs, Function.update_self, h.named]
  · rw [Function.update_of_ne hs, h.handles, Function.update_of_ne hs]

end Solo

/-! ## §3 — references -/

section References

variable {K : Users} {w : World} {size x t a : Nat}

/-- The words that refer to an object make up its count. -/
theorem WorldOk.referrers {G : Nat → BlockLists} {H : ObjHeap} (hok : WorldOk K w G H)
    (hx : ObjectInHand K w.mem x) : ∃ S : Finset Nat,
      (∀ a, a ∈ S ↔ RefWord K w.mem a ∧ w.mem.word a = x) ∧ w.mem.refCnt x = S.card ∧ S.Nonempty := by
  have hx := hok.heap.objectInHand_iff.mp hx
  have hcount : w.mem.refCnt x = (H.slots.filter fun a => w.mem.word a = x).card := hok.heap.exact.count x hx
  refine ⟨H.slots.filter fun a => w.mem.word a = x, fun a => ?_, hcount, ?_⟩
  · rw [Finset.mem_filter, hok.heap.refWord_iff]
  · rw [← Finset.card_ne_zero, ← hcount]
    exact hok.heap.live x hx

/-- **Counts are exact**: the count of an object that is handed out is the number of words that refer to it, and
there is one. -/
theorem refCnt_eq_referrers (h : WorldReach K size w) (hx : ObjectInHand K w.mem x) :
    ∃ S : Finset Nat, (∀ a, a ∈ S ↔ RefWord K w.mem a ∧ w.mem.word a = x) ∧ w.mem.refCnt x = S.card ∧ S.Nonempty := by
  obtain ⟨G, H, hok⟩ := h.ok
  exact hok.referrers hx

/-- An object held by its RootRef and by its own reference. -/
theorem refCnt_eq_referrers_ring : ∃ (w : World) (x : Nat), ObjectInHand soloUsers w.mem x ∧ w.mem.refCnt x = 2 ∧
    ∃ S : Finset Nat, (∀ a, a ∈ S ↔ RefWord soloUsers w.mem a ∧ w.mem.word a = x) ∧ w.mem.refCnt x = S.card ∧
      S.Nonempty := by
  obtain ⟨w, t, x, h⟩ := exists_ringObject
  exact ⟨w, x, h.object, h.count, refCnt_eq_referrers h.reach h.object⟩

/-- **No reference dangles.** -/
theorem referenced_inHand (h : WorldReach K size w) (ha : RefWord K w.mem a) (hne : w.mem.word a ≠ 0) :
    ObjectInHand K w.mem (w.mem.word a) := by
  obtain ⟨G, H, hok⟩ := h.ok
  exact hok.heap.objectInHand_iff.mpr (hok.heap.exact.obj (hok.heap.refWord_iff.mp ha) hne)

/-- The embedded reference of an object. -/
theorem referenced_inHand_ring : ∃ (w : World) (x : Nat), w.mem.word (embeddedSlot x 0) ≠ 0 ∧
    ObjectInHand soloUsers w.mem (w.mem.word (embeddedSlot x 0)) := by
  obtain ⟨w, t, x, h⟩ := exists_ringObject
  have hslot : DataSlot soloUsers w.mem (embeddedSlot x 0) :=
    Or.inr ⟨x, 0, h.object, by rw [h.embedded]; exact Nat.one_pos, rfl⟩
  have hne : w.mem.word (embeddedSlot x 0) ≠ 0 := by
    obtain ⟨G, H, hok⟩ := h.reach.ok
    rw [h.own]
    exact HeapExact.ne_zero (hok.heap.objectInHand_iff.mp h.object)
  exact ⟨w, x, hne, referenced_inHand h.reach (Or.inr (Or.inr hslot)) hne⟩

/-- **Handles and RootRefs agree**: a RootRef is handed out while it has handles; it counts them, and its object is
handed out. -/
theorem handles_iff (h : WorldReach K size w) (t : Nat) : (InHand K w.mem 0 t ↔ w.handles t ≠ 0) ∧
    (w.handles t ≠ 0 → w.mem.inUse t = 1 ∧ w.mem.rootRefCnt t = w.handles t ∧ ObjectInHand K w.mem (w.mem.word t)) := by
  obtain ⟨G, H, hok⟩ := h.ok
  rw [hok.heap.pools.inHand_iff]
  refine ⟨⟨fun ht => (hok.root t ht).named, hok.held_of_named⟩, fun ht => ?_⟩
  have hroot := hok.root t (hok.held_of_named ht)
  exact ⟨hroot.inUse, hroot.count, hok.heap.objectInHand_iff.mpr (hok.pptr_obj (hok.held_of_named ht))⟩

/-- A handle and its copy. -/
theorem handles_iff_copied : ∃ (w : World) (t : Nat), w.handles t = 2 ∧ (InHand soloUsers w.mem 0 t ↔ w.handles t ≠ 0) ∧
    (w.handles t ≠ 0 → w.mem.inUse t = 1 ∧ w.mem.rootRefCnt t = w.handles t ∧
      ObjectInHand soloUsers w.mem (w.mem.word t)) := by
  obtain ⟨w, t, x, h⟩ := exists_ringObject
  have hnamed : w.handles t ≠ 0 := by
    rw [h.named]
    decide
  have hroom : w.handles t + 1 < 2 ^ 16 := by
    rw [h.named]
    decide
  have hs : WorldReach soloUsers (2 ^ 27 + 2 ^ 26)
      ⟨((CxlRef.mk t (x + sizeofCxlObj)).copy w.mem).2, Function.update w.handles t (w.handles t + 1)⟩ :=
    Reach.step h.reach (.copy ⟨t, x + sizeofCxlObj⟩ hnamed hroom) trivial
  refine ⟨_, t, ?_, handles_iff hs t⟩
  show Function.update w.handles t (w.handles t + 1) t = 2
  rw [Function.update_self, h.named]

/-- **Data without cycles does not leak**: once the handles are gone, the queues are empty and the words outside the
segments are clear, no object is handed out. -/
theorem nothing_leaked (h : WorldReach K size w) (rank : Nat → Nat)
    (hrank : ∀ x k, ObjectInHand K w.mem x → k < w.mem.word (x + 16) → w.mem.word (embeddedSlot x k) ≠ 0 →
      rank (w.mem.word (embeddedSlot x k)) < rank x)
    (hnamed : ∀ t, w.handles t = 0) (hqueues : ∀ q, InHand K w.mem 1 q → w.mem.queueStart q = w.mem.queueEnd q)
    (hextra : ∀ a ∈ K.extra, w.mem.word a = 0) : ∀ x, ¬ ObjectInHand K w.mem x := by
  obtain ⟨G, H, hok⟩ := h.ok
  intro x hx
  -- an object of the highest rank is referred to by a root
  obtain ⟨y, hy, hmax⟩ := H.objs.exists_max_image rank ⟨x, hok.heap.objectInHand_iff.mp hx⟩
  have hpos := hok.heap.live y hy
  rw [hok.heap.exact.count y hy] at hpos
  obtain ⟨a, ha⟩ := Finset.card_ne_zero.mp hpos
  obtain ⟨hslot, hword⟩ := Finset.mem_filter.mp ha
  have hfull : w.mem.word a ≠ 0 := by
    rw [hword]
    exact HeapExact.ne_zero hy
  rcases hok.heap.refWord_iff.mpr hslot with ht | ⟨q, k, hq, hk, rfl⟩ | ha | ⟨o, k, ho, hk, rfl⟩
  · exact (hok.root a (hok.heap.pools.inHand_iff.mp ht)).named (hnamed a)
  · have hpub := ((hok.ring q (hok.heap.pools.inHand_iff.mp hq)).entry k hk).mp hfull
    simp [Published, hqueues q hq] at hpub
  · exact hfull (hextra a ha)
  · have hlt := hrank o k ho hk hfull
    have hle := hmax o (hok.heap.objectInHand_iff.mp ho)
    rw [hword] at hlt
    omega

/-- An object has been made, and its only handle dropped. -/
theorem nothing_leaked_dropped : ∃ (w w' : World) (x : Nat), ObjectInHand soloUsers w.mem x ∧
    WorldStep soloUsers (2 ^ 27 + 2 ^ 26) w w' ∧ ∀ x, ¬ ObjectInHand soloUsers w'.mem x := by
  obtain ⟨w, t, x, w', h, hs, hunused, hnamed⟩ := exists_soloDropped
  have hnone : ∀ b y, ¬ InHand soloUsers w'.mem b y := by
    rintro b y ⟨u, hu, hy⟩
    obtain rfl := Finset.mem_singleton.mp hu
    exact not_held_empty (hunused.pool.heldBlock_iff.mp hy)
  have hreach : WorldReach soloUsers (2 ^ 27 + 2 ^ 26) w' := Reach.step h.reach hs trivial
  refine ⟨w, w', x, h.object, hs, nothing_leaked hreach id ?_ hnamed (fun q hq => absurd hq (hnone 1 q)) ?_⟩
  · rintro y k ⟨-, b, -, hy⟩
    exact absurd hy (hnone b y)
  · intro a ha
    by_contra hne
    obtain ⟨G, H, hok⟩ := hreach.ok
    have hslot : RefWord soloUsers w'.mem a := Or.inr (Or.inr (Or.inl ha))
    obtain ⟨-, b, -, hy⟩ := hok.heap.objectInHand_iff.mpr (hok.heap.exact.obj (hok.heap.refWord_iff.mp hslot) hne)
    exact hnone b _ hy

end References

/-! ## §4 — drops come to an end -/

section Drops

variable {K : Users} {w : World} {size u t : Nat} {G : Nat → BlockLists} {H : ObjHeap}

theorem WorldOk.destroy_run (hok : WorldOk K w G H) (hu : u ∈ K.clients) {r : CxlRef} (hr : w.handles r.tbr ≠ 0) :
    ∃ n, ∀ fuel ≥ n, ∃ m', r.destroy fuel u w.mem = some m' := by
  have ht := hok.held_of_named hr
  refine ⟨H.objs.card + H.embBound + 1, fun fuel hfuel => ?_⟩
  unfold CxlRef.destroy
  rw [if_neg fun hc => ht.ne_zero hc.1]
  simp only
  split
  case isTrue => exact ⟨_, rfl⟩
  case isFalse =>
    have h₁ : HeapOk K (w.mem.setRootRefCnt r.tbr ((w.mem.rootRefCnt r.tbr + (2 ^ 16 - 1)) % 2 ^ 16)) G H :=
      hok.heap.store ht (by decide) (hok.heap.view.second_not_touched hok.heap.pools ht) _
    have hroot : r.tbr ∈ H.roots := (hok.heap.view.root _).mpr (Or.inl ht)
    obtain ⟨m₂, G₂, hrun, hrel, hdrop, hframe⟩ := h₁.testFree_returns hu hroot (show _ < fuel by omega)
    obtain ⟨H₂, h₂, -⟩ := hdrop.heapOk h₁.view hrel.exact h₁.index
    have ht₂ : HeldBy K G₂ 0 r.tbr := (hdrop.held 0 r.tbr).mpr ⟨ht, fun hb => by omega⟩
    obtain ⟨m', G', hfree, -⟩ := (h₂.store ht₂ (d := 8) (by decide) (h₂.view.second_not_touched h₂.pools ht₂)
      (m₂.word (r.tbr + 8) / 2 ^ 8 * 2 ^ 8 + 0)).pools.free hu ht₂ hdrop.leaking
    rw [hrun]
    exact ⟨m', hfree⟩

/-- **Destroying a handle returns**, given fuel, whoever calls it, and whatever refers to what. -/
theorem destroy_terminates (h : WorldReach K size w) (hu : u ∈ K.clients) {r : CxlRef} (hr : w.handles r.tbr ≠ 0) :
    ∃ n, ∀ fuel ≥ n, ∃ m', r.destroy fuel u w.mem = some m' := by
  obtain ⟨G, H, hok⟩ := h.ok
  exact hok.destroy_run hu hr

/-- The handle of an object that refers to itself. -/
theorem destroy_terminates_ring : ∃ (w : World) (t : Nat), w.handles t = 1 ∧
    w.mem.word (embeddedSlot (w.mem.word t) 0) = w.mem.word t ∧
    ∃ n, ∀ fuel ≥ n, ∃ m', (CxlRef.mk t (w.mem.word t + sizeofCxlObj)).destroy fuel 1 w.mem = some m' := by
  obtain ⟨w, t, x, h⟩ := exists_ringObject
  have hnamed : w.handles t ≠ 0 := by
    rw [h.named]
    decide
  have hown : w.mem.word (embeddedSlot (w.mem.word t) 0) = w.mem.word t := by
    rw [h.pptr]
    exact h.own
  exact ⟨w, t, h.named, hown, destroy_terminates h.reach (Finset.mem_singleton_self 1) hnamed⟩

end Drops

/-! ## §5 — data -/

section Data

variable {K : Users} {w w' : World} {size b x d : Nat}

/-- From `w` to `w'` an application has written the word `a` of its data, and nothing else has changed. -/
def Writes (K : Users) (a : Nat) (w w' : World) : Prop :=
  PayloadWord K w.mem a ∧ w' = ⟨w.mem.store a (w'.mem.word a), w.handles⟩

/-- The number of references of an object and its data stay over a call that leaves it handed out, but for a write. -/
theorem WorldStep.word (hs : WorldStep K size w w') (hreach : WorldReach K size w) (hb : 3 ≤ b)
    (hx : InHand K w.mem b x) (hx' : InHand K w'.mem b x)
    (hlo : sizeofCxlObj + 8 * w.mem.word (x + 16) ≤ d) (hd : d < binSize b) :
    w'.mem.word (x + 16) = w.mem.word (x + 16) ∧
      (w'.mem.word (x + d) ≠ w.mem.word (x + d) → Writes K (x + d) w w') := by
  obtain ⟨G, H, hok⟩ := hreach.ok
  obtain ⟨G', H', hok', a, hdata, hwrite⟩ := hs.keeps hok
  have hxG := hok.heap.pools.inHand_iff.mp hx
  have hxG' := hok'.heap.pools.inHand_iff.mp hx'
  have hni : x ∉ K.index := by
    rw [hreach.index]
    exact Finset.notMem_empty x
  have hemb := hok.heap.emb_eq ((hok.heap.view.obj x).mpr ⟨hni, b, hb, hxG⟩)
  refine ⟨?_, fun hchanged => ?_⟩
  · rw [hok'.heap.emb_eq ((hok'.heap.view.obj x).mpr ⟨hni, b, hb, hxG'⟩), hemb]
    exact hdata.emb b x hb hxG hxG'
  · by_cases ha : a = some (x + d)
    · obtain ⟨hpay, v, rfl⟩ := hwrite _ ha
      have hstored : (w.mem.store (x + d) v).word (x + d) = v := Function.update_self ..
      refine ⟨hpay, ?_⟩
      rw [hstored]
    · exact absurd (hdata.word b x d hb hxG hxG' (Or.inr (by rwa [← hemb])) hd ha) hchanged

/-- The first `n` calls of a run during which the object `x` of bin `b` stays handed out. -/
structure HoldingRun (K : Users) (size b x : Nat) (run : Nat → World) (n : Nat) : Prop where
  reach : WorldReach K size (run 0)
  step : ∀ i < n, WorldStep K size (run i) (run (i + 1))
  inHand : ∀ i ≤ n, InHand K (run i).mem b x

variable {run : Nat → World} {n : Nat}

theorem HoldingRun.reachable (h : HoldingRun K size b x run n) : ∀ i ≤ n, WorldReach K size (run i) := by
  intro i hi
  induction i with
  | zero => exact h.reach
  | succ i ih => exact Reach.step (ih (by omega)) (h.step i hi) trivial

/-- The number of references stays over the run. -/
theorem HoldingRun.embedded (h : HoldingRun K size b x run n) (hb : 3 ≤ b)
    (hlo : sizeofCxlObj + 8 * (run 0).mem.word (x + 16) ≤ d) (hd : d < binSize b) :
    ∀ i ≤ n, (run i).mem.word (x + 16) = (run 0).mem.word (x + 16) := by
  intro i hi
  induction i with
  | zero => rfl
  | succ i ih =>
    have hsame := ih (by omega)
    have hreach := h.reachable i (by omega)
    rw [← hsame] at hlo ⊢
    exact ((h.step i hi).word hreach hb (h.inHand i (by omega)) (h.inHand (i + 1) hi) hlo hd).1

/-- The first word of data of the object at `x` is set to 7, and the handle `t` copied. -/
def copiedRun (w : World) (t x : Nat) : Nat → World
  | 0 => w
  | 1 => ⟨w.mem.store (x + 32) 7, w.handles⟩
  | _ => ⟨((CxlRef.mk t (x + sizeofCxlObj)).copy (w.mem.store (x + 32) 7)).2,
      Function.update w.handles t (w.handles t + 1)⟩

/-- **A word of data is what was last written there**: over a run during which its object is never freed, a call that
changes it is a write of it; and either no call has changed it, or the last one that did stored what is found. -/
theorem data_read_written (h : HoldingRun K size b x run n) (hb : 3 ≤ b)
    (hlo : sizeofCxlObj + 8 * (run 0).mem.word (x + 16) ≤ d) (hd : d < binSize b) :
    (∀ i < n, (run (i + 1)).mem.word (x + d) ≠ (run i).mem.word (x + d) →
        Writes K (x + d) (run i) (run (i + 1))) ∧
      ((∀ i ≤ n, (run i).mem.word (x + d) = (run 0).mem.word (x + d)) ∨
        ∃ i < n, (run (i + 1)).mem.word (x + d) ≠ (run i).mem.word (x + d) ∧
          Writes K (x + d) (run i) (run (i + 1)) ∧
          ∀ j, i < j → j ≤ n → (run j).mem.word (x + d) = (run (i + 1)).mem.word (x + d)) := by
  have hwrites : ∀ i < n, (run (i + 1)).mem.word (x + d) ≠ (run i).mem.word (x + d) →
      Writes K (x + d) (run i) (run (i + 1)) := by
    intro i hi
    have hemb := h.embedded hb hlo hd i (by omega)
    have hword := (h.step i hi).word (h.reachable i (by omega)) hb (h.inHand i (by omega)) (h.inHand (i + 1) hi)
      (by rwa [hemb]) hd
    exact hword.2
  refine ⟨hwrites, ?_⟩
  rcases last_change (fun i => (run i).mem.word (x + d)) n with hsame | ⟨i, hi, hne, hafter⟩
  · exact Or.inl hsame
  · exact Or.inr ⟨i, hi, hne, hwrites i hi hne, hafter⟩

/-- Data after a write and the call that follows it. -/
theorem data_read_written_copied : ∃ (run : Nat → World) (x : Nat), (run 2).mem.word (x + 32) = 7 ∧
    (∀ i < 2, (run (i + 1)).mem.word (x + 32) ≠ (run i).mem.word (x + 32) →
        Writes soloUsers (x + 32) (run i) (run (i + 1))) ∧
      ((∀ i ≤ 2, (run i).mem.word (x + 32) = (run 0).mem.word (x + 32)) ∨
        ∃ i < 2, (run (i + 1)).mem.word (x + 32) ≠ (run i).mem.word (x + 32) ∧
          Writes soloUsers (x + 32) (run i) (run (i + 1)) ∧
          ∀ j, i < j → j ≤ 2 → (run j).mem.word (x + 32) = (run (i + 1)).mem.word (x + 32)) := by
  obtain ⟨w, t, x, h⟩ := exists_soloObject
  have hlo : sizeofCxlObj + 8 * w.mem.word (x + 16) ≤ 32 := by
    rw [h.embedded]
    decide
  have hdata : PayloadWord soloUsers w.mem (x + 32) :=
    ⟨35, x, 32, Finset.notMem_empty x, by decide, h.inHand, hlo, by decide, by decide, rfl⟩
  have hnamed : w.handles t ≠ 0 := by
    rw [h.named]
    decide
  have hroom : w.handles t + 1 < 2 ^ 16 := by
    rw [h.named]
    decide
  obtain ⟨G, H, hok⟩ := h.reach.ok
  obtain ⟨hok₁, -⟩ := hok.write hdata 7
  obtain ⟨hok₂, -⟩ := hok₁.copy (r := ⟨t, x + sizeofCxlObj⟩) hnamed hroom
  have hheld := hok.heap.pools.inHand_iff.mp h.inHand
  -- the copy writes the second word of the RootRef
  have hkept : ((CxlRef.mk t (x + sizeofCxlObj)).copy (w.mem.store (x + 32) 7)).2.word (x + 32) = 7 := by
    have ht := hok₁.held_of_named (t := t) hnamed
    have hne : x + 32 ≠ t + 8 := hok₁.heap.pools.held_apart hheld ht (Or.inl (by decide)) (by decide) (by decide)
    have hcopy : ((CxlRef.mk t (x + sizeofCxlObj)).copy (w.mem.store (x + 32) 7)).2 =
        (w.mem.store (x + 32) 7).setRootRefCnt t (((w.mem.store (x + 32) 7).rootRefCnt t + 1) % 2 ^ 16) :=
      if_pos ht.ne_zero
    rw [hcopy, setRootRefCnt_word_of_ne _ _ _ hne]
    exact Function.update_self ..
  have hrun : HoldingRun soloUsers (2 ^ 27 + 2 ^ 26) 35 x (copiedRun w t x) 2 := by
    refine ⟨h.reach, fun i hi => ?_, fun i hi => ?_⟩
    · match i, hi with
      | 0, _ => exact .write (x + 32) 7 hdata
      | 1, _ => exact .copy ⟨t, x + sizeofCxlObj⟩ hnamed hroom
    · match i, hi with
      | 0, _ => exact h.inHand
      | 1, _ => exact hok₁.heap.pools.inHand_iff.mpr hheld
      | 2, _ => exact hok₂.heap.pools.inHand_iff.mpr hheld
  exact ⟨copiedRun w t x, x, hkept, data_read_written hrun (by decide) hlo (by decide)⟩

end Data

end CxlShm
