import CxlShm.Lib.Loop
import Mathlib.Data.List.Nodup
import Mathlib.Logic.Function.Basic

/-! # DoublyLinked — intrusive doubly linked lists

A list whose links are stored in its nodes: `first` and `last` outside, `next` and `prev` in every node.
`Listed d l` says that the links spell the list `l` forwards and backwards; a push and a removal are
each followed by one rule for the list they leave and one for the nodes they do not touch.
-/

namespace DoublyLinked

open Loop Function

variable {α : Type*}

/-! ## §1 — one direction -/

/-- Behind a node the chain goes on with the nodes that follow it. -/
theorem chained_tail {next : α → Option α} {first : Option α} {l₁ l₂ : List α} {x : α}
    (h : Chained next first (l₁ ++ x :: l₂)) : Chained next (next x) l₂ := by
  induction l₁ generalizing first with
  | nil => exact h.2
  | cons y l₁ ih => exact ih h.2

/-- A chain of links spells one list. -/
theorem chained_unique {next : α → Option α} {first : Option α} {l l' : List α}
    (h : Chained next first l) (h' : Chained next first l') : l = l' := by
  induction l generalizing first l' with
  | nil =>
    cases l' with
    | nil => rfl
    | cons y l' => exact absurd (h.symm.trans h'.1) (by simp)
  | cons x l ih =>
    cases l' with
    | nil => exact absurd (h.1.symm.trans h') (by simp)
    | cons y l' =>
      obtain rfl : x = y := Option.some.inj (h.1.symm.trans h'.1)
      rw [ih h.2 h'.2]

section Chains

variable [DecidableEq α]

/-- The links after node `p` (if there is one) has been given the link `v`. -/
def relink (next : α → Option α) (p v : Option α) : α → Option α :=
  match p with
  | some p => update next p v
  | none => next

@[simp] theorem relink_none (next : α → Option α) (v : Option α) : relink next none v = next := rfl

@[simp] theorem relink_some (next : α → Option α) (p : α) (v : Option α) :
    relink next (some p) v = update next p v := rfl

theorem relink_of_ne {next : α → Option α} {p v : Option α} {x : α} (h : p ≠ some x) :
    relink next p v x = next x := by
  cases p with
  | none => rfl
  | some p => exact update_of_ne (fun he => h (congrArg some he.symm)) _ _

variable {next : α → Option α} {first : Option α} {l l₁ l₂ : List α} {x f : α}

theorem chained_update (h : Chained next first l) (hx : x ∉ l) (v : Option α) :
    Chained (update next x v) first l := by
  refine h.congr fun y hy => update_of_ne ?_ _ _
  rintro rfl
  exact hx hy

/-- A node is hung behind the last one. -/
theorem chained_snoc (h : Chained next first (l ++ [f])) (hf : f ∉ l) (hx : x ∉ l ++ [f]) :
    Chained (update (update next x none) f (some x)) first (l ++ [f, x]) := by
  induction l generalizing first with
  | nil =>
    have hxf : x ≠ f := by simpa using hx
    refine ⟨h.1, ?_, ?_⟩
    · simp
    · simp [Chained, update_of_ne hxf]
  | cons y l ih =>
    have hyf : y ≠ f := fun he => hf (he ▸ List.mem_cons_self)
    have hyx : y ≠ x := fun he => hx (he ▸ List.mem_cons_self)
    refine ⟨h.1, ?_⟩
    rw [update_of_ne hyf, update_of_ne hyx]
    apply ih h.2
    · exact fun hm => hf (List.mem_cons_of_mem _ hm)
    · exact fun hm => hx (List.mem_cons_of_mem _ hm)

/-- **Unlinking in one direction**: the predecessor, or `first`, takes over the link of the node. -/
theorem chained_unlink (h : Chained next first (l₁ ++ x :: l₂)) (hnd : (l₁ ++ x :: l₂).Nodup) :
    Chained (relink next l₁.getLast? (next x)) (if l₁ = [] then next x else first) (l₁ ++ l₂) := by
  induction l₁ generalizing first with
  | nil => simpa using h.2
  | cons y l₁ ih =>
    obtain ⟨hy, hnd⟩ := List.nodup_cons.mp hnd
    have hih := ih h.2 hnd
    refine ⟨by simpa using h.1, ?_⟩
    cases l₁ with
    | nil =>
      -- `y` is the predecessor
      have hy₂ : y ∉ l₂ := fun hm => hy (List.mem_cons_of_mem _ hm)
      simp only [List.getLast?_singleton, relink_some, update_self]
      exact chained_update (chained_tail h) hy₂ _
    | cons z l₁ =>
      have hlast : (y :: z :: l₁).getLast? = (z :: l₁).getLast? := by simp [List.getLast?_cons_cons]
      have hne : (z :: l₁).getLast? ≠ some y := fun he =>
        hy (List.mem_append_left _ (List.mem_of_getLast? he))
      rw [hlast, relink_of_ne hne]
      simpa using hih

end Chains

/-! ## §2 — both directions -/

@[ext]
structure Links (α : Type*) where
  first : Option α
  last : Option α
  next : α → Option α
  prev : α → Option α

/-- The links spell `l` from `first` on and its reverse from `last` on. -/
structure Listed (d : Links α) (l : List α) : Prop where
  forth : Chained d.next d.first l
  back : Chained d.prev d.last l.reverse
  nodup : l.Nodup

section Operations

variable [DecidableEq α]

/-- Put `x` in front. -/
def Links.push (x : α) (d : Links α) : Links α :=
  let d₁ := { d with next := update d.next x d.first, prev := update d.prev x none }
  match d.first with
  | some f => { d₁ with prev := update d₁.prev f (some x), first := some x }
  | none => { d₁ with first := some x, last := some x }

/-- Take `x` out: its neighbours get each other's links, then the ends are looked at. -/
def Links.remove (x : α) (d : Links α) : Links α :=
  let d₁ := { d with next := relink d.next (d.prev x) (d.next x) }
  let d₂ := { d₁ with prev := relink d₁.prev (d.next x) (d₁.prev x) }
  let d₃ := if d₂.last = some x then { d₂ with last := d₂.prev x } else d₂
  let d₄ := if d₃.first = some x then { d₃ with first := d₃.next x } else d₃
  { d₄ with next := update d₄.next x none, prev := update d₄.prev x none }

end Operations

namespace Listed

variable {d d' : Links α} {l : List α} {x y : α}

theorem empty (h : d.first = none) (h' : d.last = none) : Listed d [] := ⟨h, h', List.nodup_nil⟩

theorem congr (h : Listed d l) (hf : d'.first = d.first) (hl : d'.last = d.last)
    (hn : ∀ x ∈ l, d'.next x = d.next x) (hp : ∀ x ∈ l, d'.prev x = d.prev x) : Listed d' l := by
  refine ⟨?_, ?_, h.nodup⟩
  · rw [hf]
    exact h.forth.congr hn
  · rw [hl]
    exact h.back.congr fun x hx => hp x (List.mem_reverse.mp hx)

theorem unique {l' : List α} (h : Listed d l) (h' : Listed d l') : l = l' :=
  chained_unique h.forth h'.forth

theorem first_eq (h : Listed d l) : d.first = l.head? := h.forth.head

theorem last_eq (h : Listed d l) : d.last = l.getLast? := by
  rw [h.back.head, List.head?_reverse]

theorem next_eq {l₁ l₂ : List α} (h : Listed d (l₁ ++ x :: l₂)) : d.next x = l₂.head? :=
  (chained_tail h.forth).head

theorem prev_eq {l₁ l₂ : List α} (h : Listed d (l₁ ++ x :: l₂)) : d.prev x = l₁.getLast? := by
  have hb := h.back
  simp only [List.reverse_append, List.reverse_cons, List.append_assoc, List.singleton_append] at hb
  rw [(chained_tail hb).head, List.head?_reverse]

/-! The links name nodes of the list only. -/

theorem first_mem (h : Listed d l) (hf : d.first = some x) : x ∈ l := by
  rw [h.first_eq] at hf
  exact List.mem_of_mem_head? hf

theorem last_mem (h : Listed d l) (hl : d.last = some x) : x ∈ l := by
  rw [h.last_eq] at hl
  exact List.mem_of_getLast? hl

theorem next_mem (h : Listed d l) (hx : x ∈ l) (hn : d.next x = some y) : y ∈ l := by
  obtain ⟨l₁, l₂, rfl⟩ := List.append_of_mem hx
  rw [h.next_eq] at hn
  simp [List.mem_of_mem_head? hn]

theorem prev_mem (h : Listed d l) (hx : x ∈ l) (hp : d.prev x = some y) : y ∈ l := by
  obtain ⟨l₁, l₂, rfl⟩ := List.append_of_mem hx
  rw [h.prev_eq] at hp
  simp [List.mem_of_getLast? hp]

/-! ## §3 — push -/

variable [DecidableEq α]

/-- **A push puts a new node in front.** -/
theorem push (h : Listed d l) (hx : x ∉ l) : Listed (d.push x) (x :: l) := by
  have hhead := h.first_eq
  have hforth : Chained (update d.next x d.first) (some x) (x :: l) :=
    ⟨rfl, by simpa using chained_update h.forth hx d.first⟩
  have hnd : (x :: l).Nodup := List.nodup_cons.mpr ⟨hx, h.nodup⟩
  cases l with
  | nil =>
    have hfirst : d.first = none := hhead
    refine ⟨?_, ?_, hnd⟩
    · simpa [Links.push, hfirst] using hforth
    · simp [Links.push, hfirst, Chained]
  | cons f l =>
    have hfirst : d.first = some f := hhead
    have hf : f ∉ l.reverse := by simpa using (List.nodup_cons.mp h.nodup).1
    refine ⟨?_, ?_, hnd⟩
    · simpa [Links.push, hfirst] using hforth
    · -- backwards the old list is followed by `x`
      have hback := h.back
      rw [List.reverse_cons] at hback
      have hsnoc := chained_snoc hback hf (by simpa [or_comm] using hx)
      simpa [Links.push, hfirst] using hsnoc

theorem push_next_of_ne (hy : y ≠ x) : (d.push x).next y = d.next y := by
  cases hf : d.first <;> simp [Links.push, hf, update_of_ne hy]

/-- Besides the new node only the old first one gets a new link back. -/
theorem push_prev_of_ne (hy : y ≠ x) (hf : d.first ≠ some y) : (d.push x).prev y = d.prev y := by
  cases hd : d.first with
  | none => simp [Links.push, hd, update_of_ne hy]
  | some f =>
    have hyf : y ≠ f := fun he => hf (by rw [hd, he])
    simp [Links.push, hd, update_of_ne hy, update_of_ne hyf]

/-! ## §4 — remove -/

omit [DecidableEq α] in
theorem next_ne_self {l₁ l₂ : List α} (h : Listed d (l₁ ++ x :: l₂)) : d.next x ≠ some x := by
  rw [h.next_eq]
  intro he
  exact (List.nodup_cons.mp (List.nodup_append.mp h.nodup).2.1).1 (List.mem_of_mem_head? he)

omit [DecidableEq α] in
theorem prev_ne_self {l₁ l₂ : List α} (h : Listed d (l₁ ++ x :: l₂)) : d.prev x ≠ some x := by
  rw [h.prev_eq]
  intro he
  exact (List.nodup_append.mp h.nodup).2.2 x (List.mem_of_getLast? he) x List.mem_cons_self rfl

omit [DecidableEq α] in
/-- The test against `first` asks whether the node has a predecessor. -/
theorem first_iff {l₁ l₂ : List α} (h : Listed d (l₁ ++ x :: l₂)) : d.first = some x ↔ l₁ = [] := by
  have hx : x ∉ l₁ := fun hm =>
    (List.nodup_append.mp h.nodup).2.2 x hm x List.mem_cons_self rfl
  rw [h.first_eq]
  cases l₁ with
  | nil => simp
  | cons y l₁ =>
    have hyx : y ≠ x := fun he => hx (he ▸ List.mem_cons_self)
    simp [hyx]

omit [DecidableEq α] in
/-- The test against `last` asks whether it has a successor. -/
theorem last_iff {l₁ l₂ : List α} (h : Listed d (l₁ ++ x :: l₂)) : d.last = some x ↔ l₂ = [] := by
  have hx : x ∉ l₂ := (List.nodup_cons.mp (List.nodup_append.mp h.nodup).2.1).1
  rw [h.last_eq]
  cases l₂ with
  | nil => simp
  | cons y l₂ =>
    have hne : (y :: l₂).getLast? ≠ some x := fun he => hx (List.mem_of_getLast? he)
    simpa [List.getLast?_cons_cons] using hne

theorem remove_next (d : Links α) (x : α) :
    (d.remove x).next = update (relink d.next (d.prev x) (d.next x)) x none := by
  simp only [Links.remove]
  split <;> split <;> rfl

theorem remove_prev (d : Links α) (x : α) :
    (d.remove x).prev = update (relink d.prev (d.next x) (d.prev x)) x none := by
  simp only [Links.remove]
  split <;> split <;> rfl

theorem remove_first (d : Links α) (x : α) : (d.remove x).first =
    if d.first = some x then relink d.next (d.prev x) (d.next x) x else d.first := by
  simp only [Links.remove]
  split <;> split <;> rfl

theorem remove_last (d : Links α) (x : α) : (d.remove x).last =
    if d.last = some x then relink d.prev (d.next x) (d.prev x) x else d.last := by
  simp only [Links.remove]
  split <;> split <;> rfl

/-- **A removal takes the node out.** -/
theorem remove [BEq α] [LawfulBEq α] (h : Listed d l) (hx : x ∈ l) :
    Listed (d.remove x) (l.erase x) := by
  obtain ⟨l₁, l₂, rfl⟩ := List.append_of_mem hx
  have hnext := h.next_eq
  have hprev := h.prev_eq
  have hnd := h.nodup
  have hx₁ : x ∉ l₁ := fun hm => (List.nodup_append.mp hnd).2.2 x hm x List.mem_cons_self rfl
  have hx₂ : x ∉ l₂ := (List.nodup_cons.mp (List.nodup_append.mp hnd).2.1).1
  have herase : (l₁ ++ x :: l₂).erase x = l₁ ++ l₂ := by
    rw [List.erase_append_right _ hx₁, List.erase_cons_head]
  have hx₁₂ : x ∉ l₁ ++ l₂ := by simp [hx₁, hx₂]
  have hfirst := h.first_iff
  have hlast := h.last_iff
  have hback : Chained d.prev d.last (l₂.reverse ++ x :: l₁.reverse) := by simpa using h.back
  have hback_nd : (l₂.reverse ++ x :: l₁.reverse).Nodup := by
    have hrev := List.nodup_reverse.mpr hnd
    simpa using hrev
  rw [herase]
  refine ⟨?_, ?_, hnd.sublist (by simp)⟩
  · rw [remove_next, remove_first, relink_of_ne h.prev_ne_self]
    simp only [hfirst]
    apply chained_update _ hx₁₂
    rw [hprev]
    exact chained_unlink h.forth hnd
  · rw [remove_prev, remove_last, relink_of_ne h.next_ne_self]
    simp only [hlast]
    have hx' : x ∉ (l₁ ++ l₂).reverse := by simp [hx₁, hx₂]
    apply chained_update _ hx'
    have hun := chained_unlink hback hback_nd
    rw [List.getLast?_reverse, ← hnext] at hun
    simpa using hun

/-- Only nodes of the list get other links. -/
theorem remove_next_of_not_mem (h : Listed d l) (hx : x ∈ l) (hy : y ∉ l) :
    (d.remove x).next y = d.next y := by
  have hyx : y ≠ x := fun he => hy (he ▸ hx)
  rw [remove_next, update_of_ne hyx, relink_of_ne]
  exact fun hp => hy (h.prev_mem hx hp)

theorem remove_prev_of_not_mem (h : Listed d l) (hx : x ∈ l) (hy : y ∉ l) :
    (d.remove x).prev y = d.prev y := by
  have hyx : y ≠ x := fun he => hy (he ▸ hx)
  rw [remove_prev, update_of_ne hyx, relink_of_ne]
  exact fun hn => hy (h.next_mem hx hn)

end Listed

/-! ## §5 — a crash between two stores

Either operation broken off after any of its stores leaves a chain of `next` links that spells the
list before it or the list after it.
-/

section Crash

variable [DecidableEq α]

/-- The links before the first store of a push and after each of them. -/
def Links.pushSteps (x : α) (d : Links α) : List (Links α) :=
  let d₁ := { d with next := update d.next x d.first }
  let d₂ := { d₁ with prev := update d₁.prev x none }
  match d.first with
  | some f =>
    let d₃ := { d₂ with prev := update d₂.prev f (some x) }
    [d, d₁, d₂, d₃, { d₃ with first := some x }]
  | none =>
    let d₃ := { d₂ with first := some x }
    [d, d₁, d₂, d₃, { d₃ with last := some x }]

/-- `last` steps back from `x`. -/
def Links.dropLast (x : α) (d : Links α) : Links α :=
  if d.last = some x then { d with last := d.prev x } else d

/-- `first` steps past `x`. -/
def Links.dropFirst (x : α) (d : Links α) : Links α :=
  if d.first = some x then { d with first := d.next x } else d

/-- The links before the first store of a removal and after each of them; a store whose test fails is
a step that changes nothing. -/
def Links.removeSteps (x : α) (d : Links α) : List (Links α) :=
  let d₁ := { d with next := relink d.next (d.prev x) (d.next x) }
  let d₂ := { d₁ with prev := relink d₁.prev (d.next x) (d₁.prev x) }
  let d₃ := d₂.dropLast x
  let d₄ := d₃.dropFirst x
  let d₅ := { d₄ with next := update d₄.next x none }
  [d, d₁, d₂, d₃, d₄, d₅, { d₅ with prev := update d₅.prev x none }]

variable {d d' : Links α} {l : List α} {x : α}

@[simp] theorem Links.dropLast_first : (d.dropLast x).first = d.first := by
  unfold Links.dropLast
  split <;> rfl

@[simp] theorem Links.dropLast_next : (d.dropLast x).next = d.next := by
  unfold Links.dropLast
  split <;> rfl

@[simp] theorem Links.dropFirst_next : (d.dropFirst x).next = d.next := by
  unfold Links.dropFirst
  split <;> rfl

theorem Links.dropFirst_first :
    (d.dropFirst x).first = if d.first = some x then d.next x else d.first := by
  unfold Links.dropFirst
  split <;> rfl

theorem Listed.pushSteps (h : Listed d l) (hx : x ∉ l) (hd : d' ∈ d.pushSteps x) :
    Chained d'.next d'.first l ∨ Chained d'.next d'.first (x :: l) := by
  have hnext : Chained (update d.next x d.first) d.first l := chained_update h.forth hx _
  have hfront : Chained (update d.next x d.first) (some x) (x :: l) := ⟨rfl, by simpa using hnext⟩
  unfold Links.pushSteps at hd
  cases hf : d.first with
  | none =>
    simp only [hf, List.mem_cons, List.not_mem_nil, or_false] at hd
    rw [hf] at hnext hfront
    obtain rfl | rfl | rfl | rfl | rfl := hd
    · exact Or.inl h.forth
    · exact Or.inl (hf ▸ hnext)
    · exact Or.inl (hf ▸ hnext)
    · exact Or.inr hfront
    · exact Or.inr hfront
  | some f =>
    simp only [hf, List.mem_cons, List.not_mem_nil, or_false] at hd
    rw [hf] at hnext hfront
    obtain rfl | rfl | rfl | rfl | rfl := hd
    · exact Or.inl h.forth
    · exact Or.inl (hf ▸ hnext)
    · exact Or.inl (hf ▸ hnext)
    · exact Or.inl (hf ▸ hnext)
    · exact Or.inr hfront

/-- With `x` unlinked forwards, the chain from `first` on skips it once `first` has been looked at. -/
theorem Listed.removeSteps [BEq α] [LawfulBEq α] (h : Listed d l) (hx : x ∈ l)
    (hd : d' ∈ d.removeSteps x) :
    Chained d'.next d'.first l ∨ Chained d'.next d'.first (l.erase x) := by
  obtain ⟨l₁, l₂, rfl⟩ := List.append_of_mem hx
  have hx₁ : x ∉ l₁ := fun hm =>
    (List.nodup_append.mp h.nodup).2.2 x hm x List.mem_cons_self rfl
  have hx₂ : x ∉ l₂ := (List.nodup_cons.mp (List.nodup_append.mp h.nodup).2.1).1
  have hx₁₂ : x ∉ l₁ ++ l₂ := by simp [hx₁, hx₂]
  have herase : (l₁ ++ x :: l₂).erase x = l₁ ++ l₂ := by
    rw [List.erase_append_right _ hx₁, List.erase_cons_head]
  rw [herase]
  have hun := chained_unlink h.forth h.nodup
  rw [← h.prev_eq] at hun
  have hself : relink d.next (d.prev x) (d.next x) x = d.next x := relink_of_ne h.prev_ne_self
  simp only [Links.removeSteps, List.mem_cons, List.not_mem_nil, or_false] at hd
  -- the links before the test against `first`: the old list if `x` leads it, the new one otherwise
  have hbefore : Chained (relink d.next (d.prev x) (d.next x)) d.first (l₁ ++ x :: l₂) ∨
      Chained (relink d.next (d.prev x) (d.next x)) d.first (l₁ ++ l₂) := by
    by_cases hl : l₁ = []
    · have hprev : d.prev x = none := by rw [h.prev_eq, hl, List.getLast?_nil]
      rw [hprev, relink_none]
      exact Or.inl h.forth
    · rw [if_neg hl] at hun
      exact Or.inr hun
  have hafter : Chained (relink d.next (d.prev x) (d.next x))
      (if d.first = some x then d.next x else d.first) (l₁ ++ l₂) := by
    simpa only [h.first_iff] using hun
  have hlook : ∀ e : Links α, e.first = d.first → e.next = relink d.next (d.prev x) (d.next x) →
      Chained (e.dropFirst x).next (e.dropFirst x).first (l₁ ++ l₂) := by
    intro e hf hn
    rw [Links.dropFirst_next, Links.dropFirst_first, hn, hf, hself]
    exact hafter
  obtain rfl | rfl | rfl | rfl | rfl | rfl | rfl := hd
  · exact Or.inl h.forth
  · exact hbefore
  · exact hbefore
  · rw [Links.dropLast_first, Links.dropLast_next]
    exact hbefore
  · apply Or.inr
    apply hlook <;> simp
  · apply Or.inr
    apply chained_update _ hx₁₂
    apply hlook <;> simp
  · apply Or.inr
    apply chained_update _ hx₁₂
    apply hlook <;> simp

end Crash

end DoublyLinked
