import CxlShm.Handle
import CxlShm.OutOfSegments
import CxlShm.WorldHeap

/-! # WorldRun — all clients at work

The machine of the whole area: any number of clients allocate objects, copy and destroy handles, link and
unlink embedded references, write their data, create queues, send and receive, in any order of calls.
-/

namespace CxlShm

open SlotCount Loop Transition

/-! ## §1 — what the words say -/

/-- `sent_to(queue_offset, ref)`; `tbr` is the RootRef of the handle. -/
def sentTo (tid q tbr : Nat) (m : Shm) : Bool × Shm :=
  let offset := m.word tbr
  if (m.queueEnd q + 1) % 2 ^ 64 = m.queueStart q ∨
      (m.queueEnd q + (2 ^ 64 - m.queueStart q)) % 2 ^ 64 = messageBufferSize - 1 then
    (false, m)
  else
    let m₁ := linkReference tid (bufferSlot q (m.queueEnd q)) offset m
    (true, m₁.store (q + 8) ((m₁.queueEnd q + 1) % messageBufferSize))

/-- Some client has handed out its block `x` of bin `b`. -/
def InHand (K : Users) (m : Shm) (b x : Nat) : Prop := ∃ u ∈ K.clients, HeldBlock u m b x

/-- `x` is an object that is handed out, and no entry of the index. -/
def ObjectInHand (K : Users) (m : Shm) (x : Nat) : Prop := x ∉ K.index ∧ ∃ b, 3 ≤ b ∧ InHand K m b x

/-- The embedded references of objects, and the words outside the segments. -/
def DataSlot (K : Users) (m : Shm) (a : Nat) : Prop :=
  a ∈ K.extra ∨ ∃ x k, ObjectInHand K m x ∧ k < m.word (x + 16) ∧ a = embeddedSlot x k

/-- The words that refer to objects: RootRefs, entries of queues, and the slots of the applications. -/
def RefWord (K : Users) (m : Shm) (a : Nat) : Prop :=
  InHand K m 0 a ∨ (∃ q k, InHand K m 1 q ∧ k < messageBufferSize ∧ a = bufferSlot q k) ∨ DataSlot K m a

/-- The words of objects behind their embedded references. -/
def PayloadWord (K : Users) (m : Shm) (a : Nat) : Prop :=
  ∃ b x d, x ∉ K.index ∧ 3 ≤ b ∧ InHand K m b x ∧ sizeofCxlObj + 8 * m.word (x + 16) ≤ d ∧ d < binSize b ∧ 8 ∣ d ∧ a = x + d

/-! ## §2 — the machine -/

/-- The area, and for each RootRef the number of handles that name it. -/
structure World where
  mem : Shm
  handles : Nat → Nat

/-- An area nobody has used yet. -/
structure World.Fresh (K : Users) (w : World) : Prop where
  clients : ∀ u ∈ K.clients, PageInit u w.mem
  extra : ∀ a ∈ K.extra, w.mem.word a = 0
  index : K.index = ∅
  era : EraBounded w.mem
  leaking : NoneLeaking w.mem
  handles : ∀ t, w.handles t = 0

/-- A call by one client, the calls one after the other. What the applications have to keep to:
the embedded references of a new object are cleared before the handle is used; a reference is linked in an empty slot
only; the last reference to an object is unlinked by hand only when the object's own references are clear, since
`unlink_reference` does not look at them; a queue is freed when it is empty; an object has less than 2^16 references and
a RootRef less than 2^16 handles; handles are copied by the copy constructor and end in the destructor, neither assigned
nor moved; and data is written behind the embedded references, in objects handed out. -/
inductive WorldStep (K : Users) (size : Nat) (w : World) : World → Prop
  | cxlMalloc {m' : Shm} (u fuel dataSize n : Nat) (r : CxlRef) (hu : u ∈ K.clients)
      (hfits : dataSize + sizeofCxlObj < 2 ^ 64) (hslots : 8 * n ≤ dataSize)
      (hrun : cxlMalloc fuel u size dataSize n w.mem = some (r, m')) :
      WorldStep K size w ⟨m'.zeroWords r.data n, Function.update w.handles r.tbr 1⟩
  | getRef {m' : Shm} (u fuel x : Nat) (r : CxlRef) (hu : u ∈ K.clients) (hx : ObjectInHand K w.mem x)
      (hroom : w.mem.refCnt x + 1 < 2 ^ 16) (hrun : getRef fuel u size x w.mem = some (r, m')) :
      WorldStep K size w ⟨m', Function.update w.handles r.tbr 1⟩
  | copy (r : CxlRef) (hr : w.handles r.tbr ≠ 0) (hroom : w.handles r.tbr + 1 < 2 ^ 16) :
      WorldStep K size w ⟨(r.copy w.mem).2, Function.update w.handles r.tbr (w.handles r.tbr + 1)⟩
  | destroy {m' : Shm} (u fuel : Nat) (r : CxlRef) (hu : u ∈ K.clients) (hr : w.handles r.tbr ≠ 0)
      (hrun : r.destroy fuel u w.mem = some m') :
      WorldStep K size w ⟨m', Function.update w.handles r.tbr (w.handles r.tbr - 1)⟩
  | linkReference (u a x : Nat) (hu : u ∈ K.clients) (ha : DataSlot K w.mem a) (hempty : w.mem.word a = 0)
      (hx : ObjectInHand K w.mem x) (hroom : w.mem.refCnt x + 1 < 2 ^ 16) :
      WorldStep K size w ⟨linkReference u a x w.mem, w.handles⟩
  | unlinkReference {m' : Shm} (u a : Nat) (hu : u ∈ K.clients) (ha : DataSlot K w.mem a) (hfull : w.mem.word a ≠ 0)
      (hlast : w.mem.refCnt (w.mem.word a) = 1 →
        ∀ k < w.mem.word (w.mem.word a + 16), w.mem.word (embeddedSlot (w.mem.word a) k) = 0)
      (hrun : unlinkReference u a (w.mem.word a) w.mem = some m') : WorldStep K size w ⟨m', w.handles⟩
  | write (a v : Nat) (ha : PayloadWord K w.mem a) : WorldStep K size w ⟨w.mem.store a v, w.handles⟩
  | createMsgQueue {m' : Shm} (u fuel q : Nat) (hu : u ∈ K.clients)
      (hrun : createMsgQueue fuel u size w.mem = some (q, m')) : WorldStep K size w ⟨m', w.handles⟩
  | sentTo (u q t : Nat) (hu : u ∈ K.clients) (hq : InHand K w.mem 1 q) (ht : w.handles t ≠ 0)
      (hroom : w.mem.refCnt (w.mem.word t) + 1 < 2 ^ 16) :
      WorldStep K size w ⟨(sentTo u q t w.mem).2, w.handles⟩
  | cxlUnwrap {m' : Shm} (u fuel q : Nat) (r : CxlRef) (hu : u ∈ K.clients) (hq : InHand K w.mem 1 q)
      (hroom : ¬ RingEmpty w.mem q → w.mem.refCnt (w.mem.word (bufferSlot q (w.mem.queueStart q))) + 1 < 2 ^ 16)
      (hrun : cxlUnwrap fuel u size q w.mem = some (r, m')) :
      WorldStep K size w ⟨m', if r.tbr = 0 then w.handles else Function.update w.handles r.tbr 1⟩
  | freeQueue {m' : Shm} (u q : Nat) (hu : u ∈ K.clients) (hq : InHand K w.mem 1 q)
      (hempty : w.mem.queueStart q = w.mem.queueEnd q) (hrun : cxlFree u true q w.mem = some m') :
      WorldStep K size w ⟨m', w.handles⟩

/-- The states of all runs of the clients in an area of `size` bytes. -/
def WorldReach (K : Users) (size : Nat) : World → Prop := Reach (World.Fresh K) (WorldStep K size) fun _ => True

/-! ## §3 — the invariant -/

/-- The RootRef `t` is in use by its handles. -/
structure RootOk (w : World) (t : Nat) : Prop where
  inUse : w.mem.inUse t = 1
  pptr : w.mem.word t ≠ 0
  count : w.mem.rootRefCnt t = w.handles t
  named : w.handles t ≠ 0

/-- The entries of the queue between its ends, and no others, refer to objects. -/
structure RingOk (m : Shm) (q : Nat) : Prop where
  start : m.queueStart q < messageBufferSize
  tail : m.queueEnd q < messageBufferSize
  entry : ∀ k < messageBufferSize, m.word (bufferSlot q k) ≠ 0 ↔ Published m q k

/-- **The invariant** of the whole area. -/
structure WorldOk (K : Users) (w : World) (G : Nat → BlockLists) (H : ObjHeap) : Prop where
  heap : HeapOk K w.mem G H
  root : ∀ t, HeldBy K G 0 t → RootOk w t
  unnamed : ∀ t, ¬ HeldBy K G 0 t → w.handles t = 0
  ring : ∀ q, HeldBy K G 1 q → RingOk w.mem q

/-- What a call keeps of the data: the number of references of an object that stays, and its payload, but for the
word at `a`. The entries of the index stay, with all their words. -/
structure DataKept (K : Users) (a : Option Nat) (m m' : Shm) (G G' : Nat → BlockLists) (H H' : ObjHeap) : Prop where
  emb : ∀ b x, 3 ≤ b → HeldBy K G b x → HeldBy K G' b x → H'.emb x = H.emb x
  word : ∀ b x d, 3 ≤ b → HeldBy K G b x → HeldBy K G' b x → x ∈ K.index ∨ sizeofCxlObj + 8 * H.emb x ≤ d →
    d < binSize b → a ≠ some (x + d) → m'.word (x + d) = m.word (x + d)
  below : ∀ c < segmentsAreaStart, c ∉ K.extra → m'.word c = m.word c
  index : ∀ b x, x ∈ K.index → HeldBy K G b x → HeldBy K G' b x

section Basics

variable {K : Users} {w : World} {m m' : Shm} {G G' : Nat → BlockLists} {H : ObjHeap} {b x t q : Nat}

theorem Pools.inHand_iff (h : Pools K m G) : InHand K m b x ↔ HeldBy K G b x := by
  constructor
  · rintro ⟨u, hu, hx⟩
    exact ⟨u, hu, (h u hu).heldBlock_iff.mp hx⟩
  · rintro ⟨u, hu, hx⟩
    exact ⟨u, hu, (h u hu).heldBlock_iff.mpr hx⟩

theorem HeapOk.objectInHand_iff (h : HeapOk K m G H) : ObjectInHand K m x ↔ x ∈ H.objs := by
  rw [h.view.obj]
  exact and_congr_right fun _ => exists_congr fun b => and_congr_right fun _ => h.pools.inHand_iff

/-- An object says how many references it has. -/
theorem HeapOk.emb_eq (h : HeapOk K m G H) (hx : x ∈ H.objs) : m.word (x + 16) = H.emb x :=
  h.exact.embedded x hx (h.live x hx)

theorem HeapOk.dataSlot_iff (h : HeapOk K m G H) {a : Nat} : DataSlot K m a ↔
    a ∈ K.extra ∨ ∃ x ∈ H.objs, ∃ k < H.emb x, a = embeddedSlot x k := by
  refine or_congr_right ⟨?_, ?_⟩
  · rintro ⟨x, k, hx, hk, ha⟩
    have hx' := h.objectInHand_iff.mp hx
    rw [h.emb_eq hx'] at hk
    exact ⟨x, hx', k, hk, ha⟩
  · rintro ⟨x, hx, k, hk, ha⟩
    rw [← h.emb_eq hx] at hk
    exact ⟨x, k, h.objectInHand_iff.mpr hx, hk, ha⟩

/-- The words that refer to objects are the slots of the heap. -/
theorem HeapOk.refWord_iff (h : HeapOk K m G H) {a : Nat} : RefWord K m a ↔ a ∈ H.slots := by
  rw [RefWord, h.dataSlot_iff, ObjHeap.mem_slots, h.view.root, IsRoot, h.pools.inHand_iff]
  simp only [h.pools.inHand_iff]
  constructor
  · rintro (ha | ha | ha | ha)
    · exact Or.inl (Or.inl ha)
    · exact Or.inl (Or.inr (Or.inl ha))
    · exact Or.inl (Or.inr (Or.inr ha))
    · exact Or.inr ha
  · rintro ((ha | ha | ha) | ha)
    · exact Or.inl ha
    · exact Or.inr (Or.inl ha)
    · exact Or.inr (Or.inr (Or.inl ha))
    · exact Or.inr (Or.inr (Or.inr ha))

theorem HeapOk.dataSlot_mem (h : HeapOk K m G H) {a : Nat} (ha : DataSlot K m a) : a ∈ H.slots :=
  h.refWord_iff.mp (Or.inr (Or.inr ha))

/-- A slot of the applications lies in no RootRef and in no queue. -/
theorem HeapOk.dataSlot_apart (h : HeapOk K m G H) {a d : Nat} (ha : DataSlot K m a) (hx : HeldBy K G b x)
    (hb : b < 2) (hd : d < binSize b) : a ≠ x + d := by
  rcases h.dataSlot_iff.mp ha with ha | ⟨o, ho, k, hk, rfl⟩
  · have hlo := K.below a ha
    have := hx.area
    omega
  · obtain ⟨c, hc, ho⟩ := h.held ho
    have hfit := h.view.fits c o hc ho
    have hslot : embeddedSlot o k = o + (sizeofCxlObj + 8 * k) := Nat.add_assoc ..
    rw [hslot]
    exact h.pools.held_apart ho hx (Or.inl (by omega)) (by omega) hd

/-- A header lies in no RootRef and in no queue. -/
theorem HeapOk.header_apart (h : HeapOk K m G H) {o d j : Nat} (ho : o ∈ H.objs) (hx : HeldBy K G b x) (hb : b < 2)
    (hd : d < binSize b) (hj : j < sizeofCxlObj) : o + j ≠ x + d := by
  obtain ⟨c, hc, ho⟩ := h.held ho
  have := binSize_large hc
  have hcxl : sizeofCxlObj = 24 := rfl
  exact h.pools.held_apart ho hx (Or.inl (by omega)) (by omega) hd

theorem RootOk.congr (h : RootOk w t) {hs : Nat → Nat} (h₀ : m'.word t = w.mem.word t)
    (h₈ : m'.word (t + 8) = w.mem.word (t + 8)) (hh : hs t = w.handles t) : RootOk ⟨m', hs⟩ t := by
  refine ⟨?_, ?_, ?_, ?_⟩
  · show m'.inUse t = 1
    rw [Shm.inUse, h₈]
    exact h.inUse
  · show m'.word t ≠ 0
    rw [h₀]
    exact h.pptr
  · show m'.rootRefCnt t = hs t
    rw [Shm.rootRefCnt, h₈, hh]
    exact h.count
  · show hs t ≠ 0
    rw [hh]
    exact h.named

theorem RingOk.of_entries (h : RingOk m q) (hstart : m'.queueStart q = m.queueStart q)
    (htail : m'.queueEnd q = m.queueEnd q)
    (hslot : ∀ k < messageBufferSize, m'.word (bufferSlot q k) = m.word (bufferSlot q k)) : RingOk m' q := by
  refine ⟨?_, ?_, fun k hk => ?_⟩
  · rw [hstart]
    exact h.start
  · rw [htail]
    exact h.tail
  · rw [hslot k hk, h.entry k hk, Published, Published, hstart, htail]

theorem RingOk.congr (h : RingOk m q) (hw : ∀ d < 192, m'.word (q + d) = m.word (q + d)) : RingOk m' q := by
  refine h.of_entries (hw 0 (by decide)) (hw 8 (by decide)) fun k hk => ?_
  simp only [messageBufferSize] at hk
  unfold bufferSlot
  rw [Nat.add_assoc]
  exact hw _ (by omega)

/-- Stores to a word of a block in use that the heap does not have. -/
theorem HeapOk.store (h : HeapOk K m G H) (hx : HeldBy K G b x) {d : Nat} (hd : d < binSize b)
    (hno : ¬ H.Touches (x + d)) (v : Nat) : HeapOk K (m.store (x + d) v) G H := by
  refine h.quiet ?_ (fun a ha => ?_) h.era rfl
  · exact h.pools.use (fun _ _ => rfl) rfl rfl fun y hy => Function.update_of_ne (h.pools.held_add_ne hx hy hd) ..
  · apply Function.update_of_ne
    rintro rfl
    exact hno ha

end Basics

end CxlShm
