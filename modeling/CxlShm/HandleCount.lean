import CxlShm.FreshObject
import CxlShm.WorldExact

/-! # HandleCount — the values of `CXLRef_s` in a program

A program constructs values of `CXLRef_s`, copies, moves, assigns and destroys them. The counter of a RootRef is the
number of values that name it as long as no value is assigned to that still names one, and no value that has been moved
from is destroyed while its RootRef, or what has taken the place of it, is in use: the assignments do not look at what
the value named before, and a move leaves the source as it was.
-/

namespace CxlShm

open SlotCount Transition

/-! ## §1 — programs -/

/-- The area, and the values of `CXLRef_s` that are alive: the handle, the client its `shm` belongs to, and whether it has
been moved from. -/
structure Program where
  mem : Shm
  values : Finset Nat
  ref : Nat → CxlRef
  shm : Nat → Nat
  moved : Nat → Bool

namespace Program

/-- The RootRef a value counts for; one that has been moved from counts for none. -/
def target (p : Program) (v : Nat) : Nat := if p.moved v then 0 else (p.ref v).tbr

/-- The number of values that name the RootRef `t`, those moved from left out. -/
def naming (p : Program) (t : Nat) : Nat := holding p.values p.target t

/-- The value `v` is the handle `r` of client `u` now. -/
def put (p : Program) (v u : Nat) (r : CxlRef) (m : Shm) : Program where
  mem := m
  values := insert v p.values
  ref := Function.update p.ref v r
  shm := Function.update p.shm v u
  moved := Function.update p.moved v false

@[simp] theorem put_ref (p : Program) (v u : Nat) (r : CxlRef) (m : Shm) : (p.put v u r m).ref v = r :=
  Function.update_self ..

@[simp] theorem put_shm (p : Program) (v u : Nat) (r : CxlRef) (m : Shm) : (p.put v u r m).shm v = u :=
  Function.update_self ..

@[simp] theorem put_moved (p : Program) (v u : Nat) (r : CxlRef) (m : Shm) : (p.put v u r m).moved v = false :=
  Function.update_self ..

def giveAway (p : Program) (v : Nat) : Program := { p with moved := Function.update p.moved v true }

@[simp] theorem giveAway_moved (p : Program) (v : Nat) : (p.giveAway v).moved v = true := Function.update_self ..

def remove (p : Program) (v : Nat) (m : Shm) : Program := { p with mem := m, values := p.values.erase v }

/-- No value yet, in an area nobody has used. -/
structure Fresh (K : Users) (p : Program) : Prop where
  area : World.Fresh K ⟨p.mem, fun _ => 0⟩
  values : p.values = ∅

end Program

/-- The special member functions, and `cxl_malloc`, whose caller may clear the embedded references first thing. -/
inductive HandleOp
  | construct (v u fuel dataSize n : Nat) (cleared : Bool)
  | copy (v source : Nat)
  | move (v source : Nat)
  | copyAssign (v source : Nat)
  | moveAssign (v source : Nat)
  | destroy (v fuel : Nat)
  deriving DecidableEq, Repr

/-- An operation and what it does; a temporary is another value than the one it is assigned to. -/
inductive HandleStep (K : Users) (size : Nat) (p : Program) : HandleOp → Program → Prop
  | construct {r : CxlRef} {m' : Shm} (v u fuel dataSize n : Nat) (cleared : Bool) (hv : v ∉ p.values) (hu : u ∈ K.clients)
      (hrun : cxlMalloc fuel u size dataSize n p.mem = some (r, m')) :
      HandleStep K size p (.construct v u fuel dataSize n cleared)
        (p.put v u r (if cleared then m'.zeroWords r.data n else m'))
  | copy (v source : Nat) (hv : v ∉ p.values) (hs : source ∈ p.values) : HandleStep K size p (.copy v source)
      (p.put v (p.shm source) ((p.ref source).copy p.mem).1 ((p.ref source).copy p.mem).2)
  | move (v source : Nat) (hv : v ∉ p.values) (hs : source ∈ p.values) : HandleStep K size p (.move v source)
      ((p.put v (p.shm source) ((p.ref source).move p.mem).1 ((p.ref source).move p.mem).2).giveAway source)
  | copyAssign (v source : Nat) (hv : v ∈ p.values) (hs : source ∈ p.values) :
      HandleStep K size p (.copyAssign v source) (p.put v (p.shm source) ((p.ref v).copyAssign (p.ref source) p.mem).1
        ((p.ref v).copyAssign (p.ref source) p.mem).2)
  | moveAssign (v source : Nat) (hv : v ∈ p.values) (hs : source ∈ p.values) (hne : source ≠ v) :
      HandleStep K size p (.moveAssign v source) ((p.put v (p.shm source) ((p.ref v).moveAssign (p.ref source) p.mem).1
        ((p.ref v).moveAssign (p.ref source) p.mem).2).giveAway source)
  | destroy {m' : Shm} (v fuel : Nat) (hv : v ∈ p.values)
      (hrun : (p.ref v).destroy fuel (p.shm v) p.mem = some m') : HandleStep K size p (.destroy v fuel) (p.remove v m')

/-- The word at `c` lies in no block that is handed out, and starts none that is on a list. -/
def Idle (K : Users) (m : Shm) (c : Nat) : Prop :=
  (∀ b x d, InHand K m b x → d < binSize b → x + d ≠ c) ∧ ∀ u ∈ K.clients, ¬ FreeBlock u m c

/-- What a program keeps to. Requests are of at most 1000 bytes, with room for the embedded references, and these are
clear; nothing is assigned to a value that names a RootRef; what is copied names a RootRef that some value counts for,
fewer than 2^16 with the copy; what is moved has not been moved from before; and what has been moved from is destroyed
when the counter it decrements is a word nobody uses, and not 1. -/
def HandleOp.Counted (K : Users) (size : Nat) (p : Program) : HandleOp → Prop
  | .construct _ u fuel dataSize n cleared => dataSize ≤ 1000 ∧ 8 * n ≤ dataSize ∧
      (cleared = true ∨ CleanOffer fuel u size dataSize n p.mem)
  | .copy _ source => p.naming (p.ref source).tbr ≠ 0 ∧ p.naming (p.ref source).tbr + 1 < 2 ^ 16
  | .move _ source => p.moved source = false
  | .copyAssign v source => p.moved v = true ∧ p.naming (p.ref source).tbr ≠ 0 ∧
      p.naming (p.ref source).tbr + 1 < 2 ^ 16
  | .moveAssign v source => p.moved v = true ∧ p.moved source = false
  | .destroy v _ => p.moved v = true → Idle K p.mem ((p.ref v).tbr + 8) ∧ p.mem.rootRefCnt (p.ref v).tbr ≠ 1

/-- The states of all runs whose operations meet `Ok`. -/
def HandleReach (Ok : Users → Nat → Program → HandleOp → Prop) (K : Users) (size : Nat) : Program → Prop :=
  Reach (Program.Fresh K) (fun p p' => ∃ op, Ok K size p op ∧ HandleStep K size p op p') fun _ => True

/-! ## §2 — the law -/

/-- A RootRef is handed out exactly while a value names it, and counts the values that do; the object of a value is
handed out. -/
structure HandlesExact (K : Users) (p : Program) : Prop where
  named : ∀ t, t ≠ 0 → (InHand K p.mem 0 t ↔ p.naming t ≠ 0)
  count : ∀ t, InHand K p.mem 0 t → p.mem.inUse t = 1 ∧ p.mem.rootRefCnt t = p.naming t
  object : ∀ v ∈ p.values, p.moved v = false →
    InHand K p.mem 0 (p.ref v).tbr ∧ ObjectInHand K p.mem (p.mem.word (p.ref v).tbr)

/-- An operation gives an object back exactly when it leaves no value that names its RootRef. -/
def ReleasedWithLast (K : Users) (p p' : Program) : Prop :=
  ∀ t, InHand K p.mem 0 t → (¬ ObjectInHand K p'.mem (p.mem.word t) ↔ p'.naming t = 0)

/-- **Handle counting is exact** in the state `p`, and the next operation that meets `Ok` releases as it should. -/
structure HandleLaw (Ok : Users → Nat → Program → HandleOp → Prop) (K : Users) (size : Nat) (p : Program) : Prop where
  exact : HandlesExact K p
  released : ∀ op p', Ok K size p op → HandleStep K size p op p' → ReleasedWithLast K p p'

/-! ## §3 — how many values name a RootRef -/

section Naming

variable {p : Program} {v u t : Nat} {r : CxlRef} {m : Shm}

theorem hit_zero (h : t ≠ 0) : hit 0 t = 0 := hit_ne (Ne.symm h)

/-- A new value, or one that counted for none, counts for the RootRef it gets. -/
theorem Program.naming_put (hv : v ∈ p.values → p.moved v = true) (ht : t ≠ 0) :
    (p.put v u r m).naming t = p.naming t + hit r.tbr t := by
  have htarget : (p.put v u r m).target = Function.update p.target v r.tbr := by
    funext a
    by_cases ha : a = v
    · subst ha
      simp [Program.target, Program.put]
    · simp [Program.target, Program.put, ha]
  show holding (insert v p.values) (p.put v u r m).target t = holding p.values p.target t + hit r.tbr t
  rw [htarget]
  by_cases hmem : v ∈ p.values
  · have hold : p.target v = 0 := if_pos (hv hmem)
    have hone := holding_update_mem p.target r.tbr t hmem
    rw [hold, hit_zero ht] at hone
    rw [Finset.insert_eq_of_mem hmem]
    exact hone
  · rw [holding_erase_add _ _ (Finset.mem_insert_self v p.values), Finset.erase_insert hmem,
      holding_update_notMem _ _ _ hmem, Function.update_self]

/-- A value that is given away counts no longer. -/
theorem Program.naming_giveAway (hv : v ∈ p.values) (hm : p.moved v = false) (ht : t ≠ 0) :
    (p.giveAway v).naming t + hit (p.ref v).tbr t = p.naming t := by
  have htarget : (p.giveAway v).target = Function.update p.target v 0 := by
    funext a
    by_cases ha : a = v
    · subst ha
      simp [Program.target, Program.giveAway]
    · simp [Program.target, Program.giveAway, ha]
  have hold : p.target v = (p.ref v).tbr := if_neg (by simp [hm])
  have hone := holding_update_mem p.target 0 t hv
  rw [hold, hit_zero ht, Nat.add_zero] at hone
  show holding p.values (p.giveAway v).target t + hit (p.ref v).tbr t = holding p.values p.target t
  rw [htarget]
  exact hone

theorem Program.naming_remove (hv : v ∈ p.values) (hm : p.moved v = false) :
    (p.remove v m).naming t + hit (p.ref v).tbr t = p.naming t := by
  have hold : p.target v = (p.ref v).tbr := if_neg (by simp [hm])
  rw [← hold]
  exact (holding_erase_add p.target t hv).symm

theorem Program.naming_remove_moved (hv : v ∈ p.values) (hm : p.moved v = true) (ht : t ≠ 0) :
    (p.remove v m).naming t = p.naming t := by
  have hold : p.target v = 0 := if_pos hm
  have hone := holding_erase_add p.target t hv
  rw [hold, hit_zero ht, Nat.add_zero] at hone
  exact hone.symm

/-- The values that name a RootRef, as the handles of the area. -/
def Program.world (p : Program) : World := ⟨p.mem, fun t => if t = 0 then 0 else p.naming t⟩

theorem Program.world_eq {hs : Nat → Nat} (hmem : p.mem = m) (h0 : hs 0 = 0) (hn : ∀ t, t ≠ 0 → p.naming t = hs t) :
    p.world = ⟨m, hs⟩ := by
  unfold Program.world
  rw [hmem]
  congr
  funext t
  by_cases ht : t = 0
  · rw [if_pos ht, ht, h0]
  · rw [if_neg ht, hn t ht]

theorem Program.handles_zero (p : Program) : p.world.handles 0 = 0 := by
  show (if 0 = 0 then 0 else p.naming 0) = 0
  exact if_pos rfl

theorem Program.handles_eq (ht : t ≠ 0) : p.world.handles t = p.naming t := if_neg ht

end Naming

/-! ## §4 — the invariant -/

/-- The area is in order with the values as its handles, every value has got a RootRef once, and no two words refer to
one object. -/
structure HandleInv (K : Users) (p : Program) (G : Nat → BlockLists) (H : ObjHeap) : Prop where
  world : WorldOk K p.world G H
  live : ∀ v ∈ p.values, segmentsAreaStart ≤ (p.ref v).tbr ∧ p.shm v ∈ K.clients
  once : ∀ a ∈ H.slots, ∀ a' ∈ H.slots, p.mem.word a ≠ 0 → p.mem.word a = p.mem.word a' → a = a'

/-- The references an operation leaves are old ones, of RootRefs that are still named, or the new one at `t`. -/
def RefsKept (K : Users) (p p' : Program) (G : Nat → BlockLists) (H H' : ObjHeap) (t : Nat) : Prop :=
  ∀ a ∈ H'.slots, p'.mem.word a ≠ 0 →
    (a ∈ H.slots ∧ p'.mem.word a = p.mem.word a ∧ (HeldBy K G 0 a → p'.naming a ≠ 0)) ∨
      a = t ∧ p'.mem.word a ∉ H.objs ∧ ¬ HeldBy K G 0 a

section Invariant

variable {K : Users} {p p' : Program} {G G' : Nat → BlockLists} {H H' : ObjHeap} {size t v : Nat}

theorem HandleInv.named (h : HandleInv K p G H) (ht : HeldBy K G 0 t) : p.naming t ≠ 0 := by
  have hnamed := (h.world.root t ht).named
  rwa [Program.handles_eq ht.ne_zero] at hnamed

theorem HandleInv.held (h : HandleInv K p G H) (ht : t ≠ 0) (hn : p.naming t ≠ 0) : HeldBy K G 0 t := by
  apply h.world.held_of_named
  rwa [Program.handles_eq ht]

theorem HandleInv.ref_ne_zero (h : HandleInv K p G H) (hv : v ∈ p.values) : (p.ref v).tbr ≠ 0 := by
  have hlo := (h.live v hv).1
  have hpos : 0 < segmentsAreaStart := by decide
  omega

/-- A value that counts is one of those that name its RootRef. -/
theorem Program.naming_ne_zero (hv : v ∈ p.values) (hm : p.moved v = false) : p.naming (p.ref v).tbr ≠ 0 := by
  have htarget : p.target v = (p.ref v).tbr := if_neg (by simp [hm])
  have hpos := holding_pos (w := p.target) hv
  rw [htarget] at hpos
  exact Nat.ne_of_gt hpos

theorem HandleInv.once_kept (h : HandleInv K p G H) (hk : RefsKept K p p' G H H' t) :
    ∀ a ∈ H'.slots, ∀ a' ∈ H'.slots, p'.mem.word a ≠ 0 → p'.mem.word a = p'.mem.word a' → a = a' := by
  intro a ha a' ha' hne heq
  have hne' : p'.mem.word a' ≠ 0 := by rwa [← heq]
  have hold : ∀ c ∈ H.slots, p'.mem.word c = p.mem.word c → p'.mem.word c ≠ 0 → p'.mem.word c ∈ H.objs := by
    intro c hc hsame hcne
    rw [hsame] at hcne ⊢
    exact h.world.heap.exact.obj hc hcne
  rcases hk a ha hne with ⟨haH, hsame, -⟩ | ⟨hat, hnew, -⟩ <;>
    rcases hk a' ha' hne' with ⟨haH', hsame', -⟩ | ⟨hat', hnew', -⟩
  · rw [hsame, hsame'] at heq
    rw [hsame] at hne
    exact h.once a haH a' haH' hne heq
  · rw [← heq] at hnew'
    exact absurd (hold a haH hsame hne) hnew'
  · rw [heq] at hnew
    exact absurd (hold a' haH' hsame' hne') hnew
  · rw [hat, hat']

/-- Nothing in the area changes, nor who names what. -/
theorem HandleInv.sameNames (h : HandleInv K p G H) (hmem : p'.mem = p.mem) (hn : ∀ t, t ≠ 0 → p'.naming t = p.naming t)
    (hlive : ∀ v ∈ p'.values, segmentsAreaStart ≤ (p'.ref v).tbr ∧ p'.shm v ∈ K.clients) :
    HandleInv K p' G H ∧ RefsKept K p p' G H H 0 := by
  have hworld : p'.world = p.world :=
    Program.world_eq hmem p.handles_zero fun t ht => (hn t ht).trans (Program.handles_eq ht).symm
  have hk : RefsKept K p p' G H H 0 := by
    intro a ha _
    refine Or.inl ⟨ha, by rw [hmem], fun hheld => ?_⟩
    rw [hn a hheld.ne_zero]
    exact h.named hheld
  exact ⟨⟨by rw [hworld]; exact h.world, hlive, h.once_kept hk⟩, hk⟩

/-- The new value is in order as well. -/
theorem HandleInv.put_live (h : HandleInv K p G H) {u : Nat} {r : CxlRef} {m : Shm} (ht : segmentsAreaStart ≤ r.tbr)
    (hu : u ∈ K.clients) : ∀ c ∈ (p.put v u r m).values,
      segmentsAreaStart ≤ ((p.put v u r m).ref c).tbr ∧ (p.put v u r m).shm c ∈ K.clients := by
  intro c hc
  by_cases hcv : c = v
  · subst hcv
    rw [Program.put_ref, Program.put_shm]
    exact ⟨ht, hu⟩
  · have hc' : c ∈ p.values := (Finset.mem_insert.mp hc).resolve_left hcv
    simp only [Program.put, Function.update_of_ne hcv]
    exact h.live c hc'

/-- A value is added to those that name the RootRef of `source`, which some value counts for. -/
theorem HandleInv.countHandle (h : HandleInv K p G H) {source : Nat} (hs : source ∈ p.values)
    (hnaming : p.naming (p.ref source).tbr ≠ 0) (hroom : p.naming (p.ref source).tbr + 1 < 2 ^ 16)
    (hv : v ∈ p.values → p.moved v = true) :
    HandleInv K (p.put v (p.shm source) (p.ref source) (countHandle (p.ref source) p.mem)) G H ∧
      RefsKept K p (p.put v (p.shm source) (p.ref source) (countHandle (p.ref source) p.mem)) G H H 0 := by
  have ht := h.ref_ne_zero hs
  have hheld := h.held ht hnaming
  have hhandles := Program.handles_eq (p := p) ht
  obtain ⟨hok, -⟩ := h.world.copy (r := p.ref source) (by rwa [hhandles]) (by rwa [hhandles])
  have hput : ∀ t, t ≠ 0 → (p.put v (p.shm source) (p.ref source) (CxlShm.countHandle (p.ref source) p.mem)).naming t =
      p.naming t + hit (p.ref source).tbr t := fun t ht => Program.naming_put hv ht
  have hworld : (p.put v (p.shm source) (p.ref source) (CxlShm.countHandle (p.ref source) p.mem)).world =
      ⟨((p.ref source).copy p.world.mem).2,
        Function.update p.world.handles (p.ref source).tbr (p.world.handles (p.ref source).tbr + 1)⟩ := by
    refine Program.world_eq rfl ((Function.update_of_ne (Ne.symm ht) ..).trans p.handles_zero) fun t ht0 => ?_
    rw [hput t ht0]
    by_cases htt : t = (p.ref source).tbr
    · rw [htt, Function.update_self, hit_self, hhandles]
    · rw [Function.update_of_ne htt, hit_ne (Ne.symm htt), Program.handles_eq ht0, Nat.add_zero]
  have hk : RefsKept K p (p.put v (p.shm source) (p.ref source) (CxlShm.countHandle (p.ref source) p.mem)) G H H 0 := by
    intro a ha _
    refine Or.inl ⟨ha, ?_, fun ha0 => ?_⟩
    · have hcount : CxlShm.countHandle (p.ref source) p.mem = p.mem.setRootRefCnt (p.ref source).tbr
          ((p.mem.rootRefCnt (p.ref source).tbr + 1) % 2 ^ 16) := if_pos ht
      show (CxlShm.countHandle (p.ref source) p.mem).word a = p.mem.word a
      rw [hcount]
      apply setRootRefCnt_word_of_ne
      rintro rfl
      exact h.world.heap.view.second_not_touched h.world.heap.pools hheld (Or.inl ha)
    · rw [hput a ha0.ne_zero]
      have := h.named ha0
      omega
  obtain ⟨harea, hu⟩ := h.live source hs
  exact ⟨⟨by rw [hworld]; exact hok, h.put_live harea hu, h.once_kept hk⟩, hk⟩

/-- A value takes over from `source`. -/
theorem HandleInv.takeOver (h : HandleInv K p G H) {source : Nat} (hs : source ∈ p.values)
    (hm : p.moved source = false) (hv : v ∈ p.values → p.moved v = true) :
    HandleInv K ((p.put v (p.shm source) (p.ref source) p.mem).giveAway source) G H ∧
      RefsKept K p ((p.put v (p.shm source) (p.ref source) p.mem).giveAway source) G H H 0 := by
  obtain ⟨harea, hu⟩ := h.live source hs
  have hne : source ≠ v := by
    rintro rfl
    rw [hv hs] at hm
    cases hm
  have href : (p.put v (p.shm source) (p.ref source) p.mem).ref source = p.ref source := Function.update_of_ne hne ..
  have hmoved : (p.put v (p.shm source) (p.ref source) p.mem).moved source = false :=
    (Function.update_of_ne hne ..).trans hm
  refine h.sameNames rfl (fun t ht0 => ?_) (h.put_live (m := p.mem) harea hu)
  have hgive := Program.naming_giveAway (t := t) (Finset.mem_insert_of_mem hs) hmoved ht0
  rw [href, Program.naming_put hv ht0] at hgive
  omega

/-- A value that counts is destroyed. -/
theorem HandleInv.destroy (h : HandleInv K p G H) (hv : v ∈ p.values) (hm : p.moved v = false) {fuel : Nat} {m' : Shm}
    (hrun : (p.ref v).destroy fuel (p.shm v) p.mem = some m') :
    ∃ G' H', HandleInv K (p.remove v m') G' H' ∧ RefsKept K p (p.remove v m') G H H' 0 := by
  have ht := h.ref_ne_zero hv
  have hhandles := Program.handles_eq (p := p) ht
  have hnamed : p.world.handles (p.ref v).tbr ≠ 0 := by
    rw [hhandles]
    exact Program.naming_ne_zero hv hm
  obtain ⟨G', H', hok, -, -, hslots⟩ := h.world.destroy (h.live v hv).2 hnamed hrun
  have hremove : ∀ t, (p.remove v m').naming t + hit (p.ref v).tbr t = p.naming t := fun t =>
    Program.naming_remove hv hm
  have hworld : (p.remove v m').world =
      ⟨m', Function.update p.world.handles (p.ref v).tbr (p.world.handles (p.ref v).tbr - 1)⟩ := by
    refine Program.world_eq rfl ((Function.update_of_ne (Ne.symm ht) ..).trans p.handles_zero) fun t ht0 => ?_
    have hone := hremove t
    by_cases htt : t = (p.ref v).tbr
    · subst htt
      rw [hit_self] at hone
      rw [Function.update_self, hhandles]
      omega
    · rw [hit_ne (Ne.symm htt)] at hone
      rw [Function.update_of_ne htt, Program.handles_eq ht0]
      exact hone
  have hk : RefsKept K p (p.remove v m') G H H' 0 := by
    intro a ha hne
    obtain ⟨haH, hsame, hlast⟩ := hslots a ha hne
    refine Or.inl ⟨haH, hsame, fun ha0 hzero => ?_⟩
    have hone := hremove a
    rw [hzero, Nat.zero_add] at hone
    have hn := h.named ha0
    by_cases hat : (p.ref v).tbr = a
    · rw [hat, hit_self] at hone
      exact hlast (by rw [hhandles, hat, hone]) hat.symm
    · rw [hit_ne hat] at hone
      exact hn hone.symm
  exact ⟨G', H', ⟨by rw [hworld]; exact hok, fun c hc => h.live c (Finset.mem_of_mem_erase hc), h.once_kept hk⟩, hk⟩

/-- A word that is no part of the heap and starts no block on a list. -/
theorem WorldOk.idle {w : World} (h : WorldOk K w G H) {c : Nat} (hc : Idle K w.mem c) (harea : segmentsAreaStart ≤ c) :
    (∀ b x d, HeldBy K G b x → d < binSize b → x + d ≠ c) ∧ (∀ y, ListedBy K G y → y ≠ c) ∧ ¬ H.Touches c := by
  have hheld : ∀ b x d, HeldBy K G b x → d < binSize b → x + d ≠ c := fun b x d hx =>
    hc.1 b x d (h.heap.pools.inHand_iff.mpr hx)
  refine ⟨hheld, ?_, ?_⟩
  · rintro y ⟨u, hu, hy⟩ rfl
    exact hc.2 u hu ((h.heap.pools u hu).freeBlock_iff.mpr hy)
  · rintro (hs | ⟨o, ho, j, hj, rfl⟩)
    · rcases h.heap.view.slot_cases hs with (hx | ⟨q, k, hq, hk, rfl⟩ | hx) | ⟨b, x, k, -, hx, -, -, rfl, hd⟩
      · exact hheld 0 c 0 hx (binSize_pos 0) rfl
      · have hsize : binSize 1 = 192 := rfl
        simp only [messageBufferSize] at hk
        refine hheld 1 q (40 + 8 * k) hq (by omega) ?_
        unfold bufferSlot
        omega
      · have := K.below c hx
        omega
      · exact hheld b x _ hx hd rfl
    · obtain ⟨-, b, hb, ho⟩ := (h.heap.view.obj o).mp ho
      have := binSize_large hb
      exact hheld b o (8 * j) ho (by omega) rfl

/-- A value that has been moved from is destroyed, and the counter it decrements is in nobody's use. -/
theorem HandleInv.destroyMoved (h : HandleInv K p G H) (hv : v ∈ p.values) (hm : p.moved v = true)
    (hidle : Idle K p.mem ((p.ref v).tbr + 8)) (hcnt : p.mem.rootRefCnt (p.ref v).tbr ≠ 1) {fuel : Nat} {m' : Shm}
    (hrun : (p.ref v).destroy fuel (p.shm v) p.mem = some m') :
    HandleInv K (p.remove v m') G H ∧ RefsKept K p (p.remove v m') G H H 0 := by
  have ht := h.ref_ne_zero hv
  have harea := (h.live v hv).1
  obtain ⟨hheld, hlisted, hno⟩ := h.world.idle hidle (Nat.le_add_right_of_le harea)
  -- the counter is not 0 after the decrement, and nothing else happens
  have hm' : m' = p.mem.setRootRefCnt (p.ref v).tbr ((p.mem.rootRefCnt (p.ref v).tbr + (2 ^ 16 - 1)) % 2 ^ 16) := by
    unfold CxlRef.destroy at hrun
    simp only at hrun
    rw [if_neg (fun hc => ht hc.1), rootRefCnt_setRootRefCnt, if_pos] at hrun
    · exact (Option.some.inj hrun).symm
    · have hlt : p.mem.rootRefCnt (p.ref v).tbr < 2 ^ 16 := Nat.mod_lt _ (by decide)
      omega
  have hword : ∀ a, a ≠ (p.ref v).tbr + 8 → m'.word a = p.mem.word a := by
    intro a ha
    rw [hm']
    exact setRootRefCnt_word_of_ne _ _ _ ha
  have hworld : (p.remove v m').world = ⟨m', p.world.handles⟩ :=
    Program.world_eq rfl p.handles_zero fun t ht0 =>
      (Program.naming_remove_moved hv hm ht0).trans (Program.handles_eq ht0).symm
  have hheap : HeapOk K m' G H := by
    rw [hm']
    refine h.world.heap.quiet ?_ (fun a ha => ?_) h.world.heap.era rfl
    · refine h.world.heap.pools.use (fun _ _ => rfl) rfl rfl fun y hy => ?_
      exact setRootRefCnt_word_of_ne _ _ _ (hlisted y hy)
    · apply setRootRefCnt_word_of_ne
      rintro rfl
      exact hno ha
  have hok : WorldOk K ⟨m', p.world.handles⟩ G H := by
    refine h.world.next hheap (fun t ht => Or.inl ⟨ht, rfl, hword _ ?_, hword _ ?_⟩) h.world.unnamed fun q hq =>
      Or.inl ⟨hq, fun d hd => hword _ ?_⟩
    · exact hheld 0 t 0 ht (by decide)
    · exact hheld 0 t 8 ht (by decide)
    · exact hheld 1 q d hq (show d < binSize 1 from hd)
  have hk : RefsKept K p (p.remove v m') G H H 0 := by
    intro a ha _
    refine Or.inl ⟨ha, hword a ?_, fun ha0 => ?_⟩
    · rintro rfl
      exact hno (Or.inl ha)
    · rw [Program.naming_remove_moved hv hm ha0.ne_zero]
      exact h.named ha0
  exact ⟨⟨by rw [hworld]; exact hok, fun c hc => h.live c (Finset.mem_of_mem_erase hc), h.once_kept hk⟩, hk⟩

/-- A value is constructed for a new object whose embedded references are clear. -/
theorem HandleInv.construct (h : HandleInv K p G H) (hv : v ∉ p.values) {u fuel dataSize n : Nat} (hu : u ∈ K.clients)
    (hfits : dataSize + sizeofCxlObj < 2 ^ 64) (hslots : 8 * n ≤ dataSize) {r : CxlRef} {m' : Shm}
    (hrun : cxlMalloc fuel u size dataSize n p.mem = some (r, m')) :
    ∃ G' H', HandleInv K (p.put v u r (m'.zeroWords r.data n)) G' H' ∧
      RefsKept K p (p.put v u r (m'.zeroWords r.data n)) G H H' r.tbr := by
  obtain ⟨G', H', hok, -, x, -, -, -, hpptr, hfresh, hrefs⟩ := h.world.cxlMalloc hu hfits hslots hrun
  have ht : r.tbr ≠ 0 := cxlMalloc_tbr hrun
  have hnone : p.naming r.tbr = 0 := by
    rw [← Program.handles_eq ht]
    exact h.world.unnamed r.tbr (hfresh 0).2
  have hput : ∀ t, t ≠ 0 → (p.put v u r (m'.zeroWords r.data n)).naming t = p.naming t + hit r.tbr t := fun t ht0 =>
    Program.naming_put (fun hc => absurd hc hv) ht0
  have hworld : (p.put v u r (m'.zeroWords r.data n)).world =
      ⟨m'.zeroWords r.data n, Function.update p.world.handles r.tbr 1⟩ := by
    refine Program.world_eq rfl ((Function.update_of_ne (Ne.symm ht) ..).trans p.handles_zero) fun t ht0 => ?_
    rw [hput t ht0]
    by_cases htt : t = r.tbr
    · rw [htt, Function.update_self, hit_self, hnone]
    · rw [Function.update_of_ne htt, hit_ne (Ne.symm htt), Program.handles_eq ht0, Nat.add_zero]
  have hk : RefsKept K p (p.put v u r (m'.zeroWords r.data n)) G H H' r.tbr := by
    intro a ha hne
    rcases hrefs a ha hne with rfl | ⟨haH, hsame⟩
    · refine Or.inr ⟨rfl, ?_, (hfresh 0).2⟩
      have hword : (p.put v u r (m'.zeroWords r.data n)).mem.word r.tbr = x := hpptr
      rw [hword, h.world.heap.view.obj]
      rintro ⟨-, b, -, hx⟩
      exact (hfresh b).1 hx
    · refine Or.inl ⟨haH, hsame, fun ha0 => ?_⟩
      rw [hput a ha0.ne_zero]
      have := h.named ha0
      omega
  have hheld : HeldBy K G' 0 r.tbr := by
    apply hok.held_of_named
    show Function.update p.world.handles r.tbr 1 r.tbr ≠ 0
    rw [Function.update_self]
    exact Nat.one_ne_zero
  exact ⟨G', H', ⟨by rw [hworld]; exact hok, h.put_live hheld.area hu, h.once_kept hk⟩, hk⟩

/-- **An operation the program may do keeps the invariant.** -/
theorem HandleInv.step (h : HandleInv K p G H) {op : HandleOp} (hok : op.Counted K size p)
    (hs : HandleStep K size p op p') : ∃ G' H' t, HandleInv K p' G' H' ∧ RefsKept K p p' G H H' t := by
  cases hs with
  | @construct r m' v u fuel dataSize n cleared hv hu hrun =>
    obtain ⟨hle, hslots, hclean⟩ := hok
    have hfits : dataSize + sizeofCxlObj < 2 ^ 64 := by
      simp only [sizeofCxlObj]
      omega
    obtain ⟨G', H', hinv, hk⟩ := h.construct hv hu hfits hslots hrun
    refine ⟨G', H', r.tbr, ?_⟩
    cases cleared with
    | true => exact ⟨hinv, hk⟩
    | false =>
      have hoffer := hclean.resolve_left (by simp)
      have hsame := (h.world.heap.pools u hu).cxlMalloc_clean hfits hslots hoffer hrun
      rw [hsame] at hinv hk
      exact ⟨hinv, hk⟩
  | copy v source hv hs =>
    obtain ⟨hinv, hk⟩ := h.countHandle hs hok.1 hok.2 fun hc => absurd hc hv
    exact ⟨G, H, 0, hinv, hk⟩
  | move v source hv hs =>
    obtain ⟨hinv, hk⟩ := h.takeOver hs hok fun hc => absurd hc hv
    exact ⟨G, H, 0, hinv, hk⟩
  | copyAssign v source hv hs =>
    obtain ⟨hinv, hk⟩ := h.countHandle hs hok.2.1 hok.2.2 fun _ => hok.1
    exact ⟨G, H, 0, hinv, hk⟩
  | moveAssign v source hv hs hne =>
    obtain ⟨hinv, hk⟩ := h.takeOver hs hok.2 fun _ => hok.1
    exact ⟨G, H, 0, hinv, hk⟩
  | destroy v fuel hv hrun =>
    cases hm : p.moved v with
    | false =>
      obtain ⟨G', H', hinv, hk⟩ := h.destroy hv hm hrun
      exact ⟨G', H', 0, hinv, hk⟩
    | true =>
      obtain ⟨hidle, hcnt⟩ := hok hm
      obtain ⟨hinv, hk⟩ := h.destroyMoved hv hm hidle hcnt hrun
      exact ⟨G, H, 0, hinv, hk⟩

/-- No value and no object to begin with. -/
theorem Program.Fresh.inv (h : p.Fresh K) : ∃ G H, HandleInv K p G H := by
  have hnone : ∀ t, p.naming t = 0 := by
    intro t
    rw [Program.naming, holding_eq_zero_iff, h.values]
    exact fun a ha => absurd ha (Finset.notMem_empty a)
  have hworld : p.world = ⟨p.mem, fun _ => 0⟩ := Program.world_eq rfl rfl fun t _ => hnone t
  obtain ⟨G, H, hok, hobj⟩ := h.area.ok
  rw [← hworld] at hok
  refine ⟨G, H, hok, fun v hv => ?_, fun a ha a' _ hne _ => ?_⟩
  · rw [h.values] at hv
    exact absurd hv (Finset.notMem_empty v)
  · exact absurd (hok.heap.exact.obj ha hne) (hobj _)

/-- The values count in every state of a run whose operations the program may do. -/
theorem HandleReach.inv (h : HandleReach HandleOp.Counted K size p) : ∃ G H, HandleInv K p G H := by
  apply Reach.invariant _ _ h
  · exact fun p hi _ => hi.inv
  · rintro p p' ⟨G, H, hinv⟩ - ⟨op, hok, hs⟩ -
    obtain ⟨G', H', t, hinv', -⟩ := hinv.step hok hs
    exact ⟨G', H', hinv'⟩

theorem HandleInv.exact (h : HandleInv K p G H) : HandlesExact K p := by
  have hobject : ∀ t, HeldBy K G 0 t → ObjectInHand K p.mem (p.mem.word t) := fun t ht =>
    h.world.heap.objectInHand_iff.mpr (h.world.pptr_obj ht)
  have hinHand : ∀ t, InHand K p.mem 0 t ↔ HeldBy K G 0 t := fun t => h.world.heap.pools.inHand_iff
  refine ⟨fun t ht => ?_, fun t ht => ?_, fun v hv hm => ?_⟩
  · rw [hinHand]
    exact ⟨h.named, h.held ht⟩
  · have ht := (hinHand t).mp ht
    have hroot := h.world.root t ht
    refine ⟨hroot.inUse, ?_⟩
    rw [← Program.handles_eq ht.ne_zero]
    exact hroot.count
  · have ht := h.held (h.ref_ne_zero hv) (Program.naming_ne_zero hv hm)
    exact ⟨(hinHand _).mpr ht, hobject _ ht⟩

/-- What an operation gives back. -/
theorem HandleInv.released (h : HandleInv K p G H) (h' : HandleInv K p' G' H') (hk : RefsKept K p p' G H H' t) :
    ReleasedWithLast K p p' := by
  intro y hy
  have hy := h.world.heap.pools.inHand_iff.mp hy
  have hobj := h.world.pptr_obj hy
  have hslot : y ∈ H.slots := ObjHeap.root_mem ((h.world.heap.view.root y).mpr (Or.inl hy))
  have hne0 : p.mem.word y ≠ 0 := HeapExact.ne_zero hobj
  have hiff : ObjectInHand K p'.mem (p.mem.word y) ↔ p.mem.word y ∈ H'.objs := h'.world.heap.objectInHand_iff
  rw [hiff]
  constructor
  · -- a RootRef that is still named still refers to its object
    intro hgone
    by_contra hn
    have hy' := h'.held hy.ne_zero hn
    have hroot := (h'.world.root y hy').pptr
    have hslot' : y ∈ H'.slots := ObjHeap.root_mem ((h'.world.heap.view.root y).mpr (Or.inl hy'))
    rcases hk y hslot' hroot with ⟨-, hsame, -⟩ | ⟨-, -, hnew⟩
    · have hobj' : p'.mem.word y ∈ H'.objs := h'.world.pptr_obj hy'
      rw [hsame] at hobj'
      exact hgone hobj'
    · exact hnew hy
  · -- an object that stays has a reference, and it had this one only
    intro hn hstays
    have hcount := h'.world.heap.live _ hstays
    rw [h'.world.heap.exact.count _ hstays] at hcount
    obtain ⟨a, ha⟩ := Finset.card_ne_zero.mp hcount
    obtain ⟨ha, hword⟩ : a ∈ H'.slots ∧ p'.mem.word a = p.mem.word y := Finset.mem_filter.mp ha
    have hane : p'.mem.word a ≠ 0 := by
      rw [hword]
      exact hne0
    rcases hk a ha hane with ⟨haH, hsame, hnamed⟩ | ⟨-, hnew, -⟩
    · rw [hsame] at hword hane
      obtain rfl := h.once a haH y hslot hane hword
      exact hnamed hy hn
    · rw [hword] at hnew
      exact hnew hobj

end Invariant

/-- **Handle counting is exact in every state of every run** of such operations. -/
theorem handleLaw_counted {K : Users} {size : Nat} {p : Program} (h : HandleReach HandleOp.Counted K size p) :
    HandleLaw HandleOp.Counted K size p := by
  obtain ⟨G, H, hinv⟩ := h.inv
  refine ⟨hinv.exact, fun op p' hok hs => ?_⟩
  obtain ⟨G', H', t, hinv', hk⟩ := hinv.step hok hs
  exact hinv.released hinv' hk

/-! ## §5 — one value -/

/-- One value, which has not been moved from. -/
theorem Program.naming_one {p : Program} {v : Nat} (hvalues : p.values = {v}) (hm : p.moved v = false) :
    p.naming (p.ref v).tbr = 1 := by
  have htarget : p.target v = (p.ref v).tbr := if_neg (by simp [hm])
  have hin : v ∈ p.values := by
    rw [hvalues]
    exact Finset.mem_singleton_self v
  show holding p.values p.target (p.ref v).tbr = 1
  rw [holding_erase_add p.target _ hin, hvalues, Finset.erase_singleton, htarget, hit_self,
    holding_eq_zero_iff.mpr fun a ha => absurd ha (Finset.notMem_empty a)]

/-- Where counting is exact, the counter of the only value is 1. -/
theorem HandlesExact.one {K : Users} {p : Program} {v : Nat} (h : HandlesExact K p) (hvalues : p.values = {v})
    (hm : p.moved v = false) : p.mem.rootRefCnt (p.ref v).tbr = 1 := by
  have hin : v ∈ p.values := by
    rw [hvalues]
    exact Finset.mem_singleton_self v
  rw [(h.count _ (h.object v hin hm).1).2]
  exact Program.naming_one hvalues hm

/-- No value yet in the area of one client. -/
def noValues : Program := ⟨freshArea, ∅, fun _ => ⟨0, 0⟩, fun _ => 0, fun _ => false⟩

theorem noValues_fresh : noValues.Fresh soloUsers := ⟨soloStart_fresh, rfl⟩

/-- The client asks for 512 bytes and has one value then. -/
theorem exists_oneValue : ∃ r m, r.tbr ≠ 0 ∧ HandleStep soloUsers (2 ^ 27 + 2 ^ 26) noValues
    (.construct 0 1 2 512 0 false) (noValues.put 0 1 r m) := by
  have hsize : segmentsAreaStart + segmentSize ≤ 2 ^ 27 + 2 ^ 26 := by decide
  have hbound : objectBin 512 < cxlBinSize := by decide
  obtain ⟨t, m, hrun⟩ := freshArea_unused.cxlMalloc_place rfl hsize 0 hbound (by decide)
  have hu : 1 ∈ soloUsers.clients := Finset.mem_singleton_self 1
  exact ⟨_, m, cxlMalloc_tbr hrun, .construct 0 1 2 512 0 false (Finset.notMem_empty 0) hu hrun⟩

theorem oneValue_counted : HandleOp.Counted soloUsers (2 ^ 27 + 2 ^ 26) noValues (.construct 0 1 2 512 0 false) :=
  ⟨by decide, by decide, Or.inr fun _ _ k hk => absurd hk (Nat.not_lt_zero k)⟩

theorem countHandle_rootRefCnt {r : CxlRef} {m : Shm} (ht : r.tbr ≠ 0) (hone : m.rootRefCnt r.tbr = 1) :
    (countHandle r m).rootRefCnt r.tbr = 2 := by
  have hcount : countHandle r m = m.setRootRefCnt r.tbr ((m.rootRefCnt r.tbr + 1) % 2 ^ 16) := if_pos ht
  rw [hcount, rootRefCnt_setRootRefCnt, hone]
  rfl

/-- A value, its copy, and a value moved from the copy. -/
theorem handleLaw_counted_moved : ∃ p : Program, p.values = {2, 1, 0} ∧ p.moved 1 = true ∧
    p.mem.rootRefCnt (p.ref 0).tbr = 2 ∧ HandleLaw HandleOp.Counted soloUsers (2 ^ 27 + 2 ^ 26) p := by
  obtain ⟨r, m, ht, hmade⟩ := exists_oneValue
  have h₁ : HandleReach HandleOp.Counted soloUsers (2 ^ 27 + 2 ^ 26) (noValues.put 0 1 r m) :=
    Reach.step (Reach.init noValues_fresh trivial) ⟨_, oneValue_counted, hmade⟩ trivial
  obtain ⟨G, H, hinv⟩ := h₁.inv
  have hone := hinv.exact.one (v := 0) rfl (Program.put_moved ..)
  have hnaming := (noValues.put 0 1 r m).naming_one (v := 0) rfl (Program.put_moved ..)
  have hin : 0 ∈ (noValues.put 0 1 r m).values := Finset.mem_insert_self ..
  have h₂ : HandleReach HandleOp.Counted soloUsers (2 ^ 27 + 2 ^ 26) _ :=
    Reach.step h₁ ⟨.copy 1 0, ⟨by rw [hnaming]; decide, by rw [hnaming]; decide⟩, .copy 1 0 (by simp [Program.put, noValues]) hin⟩
      trivial
  have h₃ : HandleReach HandleOp.Counted soloUsers (2 ^ 27 + 2 ^ 26) _ :=
    Reach.step h₂ ⟨.move 2 1, Program.put_moved .., .move 2 1 (by simp [Program.put, noValues]) (Finset.mem_insert_self ..)⟩ trivial
  refine ⟨_, rfl, Program.giveAway_moved .., ?_, handleLaw_counted h₃⟩
  exact countHandle_rootRefCnt ht hone

/-- Assigned to itself, a value counts twice. -/
theorem handleLaw_selfAssigned : ∃ p, HandleReach (fun _ _ _ _ => True) soloUsers (2 ^ 27 + 2 ^ 26) p ∧
    ¬ HandleLaw (fun _ _ _ _ => True) soloUsers (2 ^ 27 + 2 ^ 26) p := by
  obtain ⟨r, m, ht, hmade⟩ := exists_oneValue
  have hreach : HandleReach (fun _ _ _ _ => True) soloUsers (2 ^ 27 + 2 ^ 26) (noValues.put 0 1 r m) :=
    Reach.step (Reach.init noValues_fresh trivial) ⟨_, trivial, hmade⟩ trivial
  have hin : 0 ∈ (noValues.put 0 1 r m).values := Finset.mem_insert_self ..
  have hagain : HandleReach (fun _ _ _ _ => True) soloUsers (2 ^ 27 + 2 ^ 26) _ :=
    Reach.step hreach ⟨_, trivial, .copyAssign 0 0 hin hin⟩ trivial
  refine ⟨_, hagain, fun hlaw => ?_⟩
  -- the counter was 1 before
  have h₁ : HandleReach HandleOp.Counted soloUsers (2 ^ 27 + 2 ^ 26) (noValues.put 0 1 r m) :=
    Reach.step (Reach.init noValues_fresh trivial) ⟨_, oneValue_counted, hmade⟩ trivial
  obtain ⟨G, H, hinv⟩ := h₁.inv
  have hone := hinv.exact.one (v := 0) rfl (Program.put_moved ..)
  have htwo : ((r.copyAssign r m).2).rootRefCnt r.tbr = 2 := countHandle_rootRefCnt ht hone
  have hwrong := hlaw.exact.one (Finset.insert_eq_of_mem hin) (Program.put_moved ..)
  have hwrong : ((r.copyAssign r m).2).rootRefCnt r.tbr = 1 := hwrong
  rw [htwo] at hwrong
  cases hwrong

end CxlShm
