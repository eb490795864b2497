import Mathlib.Data.List.Basic
import Mathlib.Data.List.Nodup
import Mathlib.Logic.Function.Basic

/-! # AppendChain — a list in memory that grows at its end

A chain starts at a cell; a cell holds a node, or `null` at the end of the chain, and every node has a cell for
its successor. A node is appended by one store, to the cell at the end. What a reader has passed so far stays the
beginning of the chain, however often the chain is extended under it.
-/

namespace AppendChain

variable {α : Type*} {null : α} {link read read' : α → α} {e f g x : α} {l l' : List α}

/-! ## §1 — what leads where -/

/-- From the cell `e` the nodes `l` lead to the cell `f`. -/
def Leads (null : α) (link read : α → α) : α → List α → α → Prop
  | e, [], f => f = e
  | e, x :: l, f => x ≠ null ∧ read e = x ∧ Leads null link read (link x) l f

theorem leads_append : Leads null link read e (l ++ l') g ↔
    ∃ f, Leads null link read e l f ∧ Leads null link read f l' g := by
  induction l generalizing e with
  | nil => exact ⟨fun h => ⟨e, rfl, h⟩, fun ⟨f, hf, h⟩ => (show f = e from hf) ▸ h⟩
  | cons x l ih =>
    constructor
    · rintro ⟨hx, hread, hrest⟩
      obtain ⟨f, hl, hl'⟩ := ih.mp hrest
      exact ⟨f, ⟨hx, hread, hl⟩, hl'⟩
    · rintro ⟨f, ⟨hx, hread, hl⟩, hl'⟩
      exact ⟨hx, hread, ih.mpr ⟨f, hl, hl'⟩⟩

/-- **One more node**, in the cell at the end. -/
theorem Leads.snoc (h : Leads null link read e l f) (hf : read f = x) (hx : x ≠ null) :
    Leads null link read e (l ++ [x]) (link x) :=
  leads_append.mpr ⟨f, h, hx, hf, rfl⟩

/-- The nodes are not `null`. -/
theorem Leads.ne_null (h : Leads null link read e l f) (hx : x ∈ l) : x ≠ null := by
  induction l generalizing e with
  | nil => exact absurd hx List.not_mem_nil
  | cons y l ih =>
    obtain ⟨hy, -, hrest⟩ := h
    rcases List.mem_cons.mp hx with rfl | hx
    · exact hy
    · exact ih hrest hx

/-- What leads somewhere ends at its first cell, or at the cell of one of its nodes. -/
theorem Leads.end_cases (h : Leads null link read e l f) : f = e ∨ ∃ x ∈ l, f = link x := by
  induction l generalizing e with
  | nil => exact Or.inl h
  | cons y l ih =>
    obtain ⟨-, -, hrest⟩ := h
    right
    rcases ih hrest with rfl | ⟨x, hx, rfl⟩
    · exact ⟨y, List.mem_cons_self, rfl⟩
    · exact ⟨x, List.mem_cons_of_mem _ hx, rfl⟩

/-- It depends on the cells that are read, none of which is `null`: a store to the cell at the end changes nothing. -/
theorem Leads.congr (h : Leads null link read e l f)
    (hread : ∀ a, a = e ∨ (∃ x ∈ l, a = link x) → read a ≠ null → read' a = read a) : Leads null link read' e l f := by
  induction l generalizing e with
  | nil => exact h
  | cons x l ih =>
    obtain ⟨hx, hxe, hrest⟩ := h
    refine ⟨hx, ?_, ih hrest fun a ha hne => hread a (Or.inr ?_) hne⟩
    · rw [hread e (Or.inl rfl) (hxe ▸ hx), hxe]
    · rcases ha with rfl | ⟨y, hy, rfl⟩
      · exact ⟨x, List.mem_cons_self, rfl⟩
      · exact ⟨y, List.mem_cons_of_mem _ hy, rfl⟩

/-- What leads anywhere is the beginning of what leads to the end. -/
theorem Leads.isPrefix (h : Leads null link read e l f) (h' : Leads null link read e l' g) (hg : read g = null) :
    l <+: l' := by
  induction l generalizing e l' with
  | nil => exact List.nil_prefix
  | cons x l ih =>
    obtain ⟨hx, hxe, hrest⟩ := h
    cases l' with
    | nil =>
      obtain rfl : g = e := h'
      exact absurd (hxe.symm.trans hg) hx
    | cons y l' =>
      obtain ⟨-, hye, hrest'⟩ := h'
      obtain rfl : x = y := hxe.symm.trans hye
      exact List.cons_prefix_cons.mpr ⟨rfl, ih hrest hrest'⟩

/-- There is one way to the end. -/
theorem Leads.unique (h : Leads null link read e l f) (hf : read f = null) (h' : Leads null link read e l' g)
    (hg : read g = null) : l = l' :=
  (h.isPrefix h' hg).eq_of_length (Nat.le_antisymm (h.isPrefix h' hg).length_le (h'.isPrefix h hf).length_le)

/-- The cells from the first to the last hold the nodes, one after the other. -/
theorem Leads.cells (h : Leads null link read e l f) : ∃ c, e :: l.map link = c ++ [f] ∧ c.map read = l := by
  induction l generalizing e with
  | nil => exact ⟨[], by rw [show f = e from h]; rfl, rfl⟩
  | cons x l ih =>
    obtain ⟨-, hxe, hrest⟩ := h
    obtain ⟨c, hc, hmap⟩ := ih hrest
    refine ⟨e :: c, ?_, ?_⟩
    · rw [List.map_cons, hc]
      rfl
    · rw [List.map_cons, hxe, hmap]

/-- **Every node is held by one cell of the chain.** -/
theorem Leads.existsUnique_cell (h : Leads null link read e l f) (hf : read f = null) (hnodup : l.Nodup) (hx : x ∈ l) :
    ∃! a, a ∈ e :: l.map link ∧ read a = x := by
  have hx0 := h.ne_null hx
  obtain ⟨c, hc, hmap⟩ := h.cells
  obtain ⟨a, ha, hax⟩ := List.mem_map.mp (hmap.symm ▸ hx)
  have hcell : ∀ b, b ∈ e :: l.map link → read b = x → b ∈ c := by
    intro b hb hbx
    rw [hc, List.mem_append, List.mem_singleton] at hb
    apply hb.resolve_right
    rintro rfl
    exact hx0 (hbx.symm.trans hf)
  refine ⟨a, ⟨hc ▸ List.mem_append_left _ ha, hax⟩, ?_⟩
  rintro b ⟨hb, hbx⟩
  have hinj := List.inj_on_of_nodup_map (hmap.symm ▸ hnodup : (c.map read).Nodup)
  exact hinj (hcell b hb hbx) ha (hbx.trans hax.symm)

/-! ## §2 — the map of a chain -/

section Lookup

variable {κ ν : Type*} [DecidableEq κ] {key key' : α → κ} {val val' : α → ν} {k : κ} {v : ν}

/-- The value of the first node with the key. -/
def lookup (key : α → κ) (val : α → ν) (l : List α) (k : κ) : Option ν :=
  (l.find? fun x => decide (key x = k)).map val

theorem lookup_congr (hkey : ∀ x ∈ l, key' x = key x) (hval : ∀ x ∈ l, val' x = val x) :
    lookup key' val' l = lookup key val l := by
  funext k
  induction l with
  | nil => rfl
  | cons x l ih =>
    have ih := ih (fun y hy => hkey y (List.mem_cons_of_mem _ hy)) fun y hy => hval y (List.mem_cons_of_mem _ hy)
    unfold lookup at ih ⊢
    rw [List.find?_cons, List.find?_cons, hkey x List.mem_cons_self]
    split
    · show some (val' x) = some (val x)
      rw [hval x List.mem_cons_self]
    · exact ih

theorem lookup_eq_none_iff : lookup key val l k = none ↔ ∀ x ∈ l, key x ≠ k := by
  unfold lookup
  simp

theorem lookup_of_mem (hnodup : (l.map key).Nodup) (hx : x ∈ l) : lookup key val l (key x) = some (val x) := by
  induction l with
  | nil => exact absurd hx List.not_mem_nil
  | cons y l ih =>
    obtain ⟨hnot, hnodup⟩ := List.nodup_cons.mp hnodup
    unfold lookup at ih ⊢
    rw [List.find?_cons]
    split
    case h_1 hk =>
      -- the keys are distinct, so the first node with this key is the one
      rcases List.mem_cons.mp hx with rfl | hx
      · rfl
      · exact absurd (List.mem_map.mpr ⟨x, hx, (of_decide_eq_true hk).symm⟩) hnot
    case h_2 hk =>
      rcases List.mem_cons.mp hx with rfl | hx
      · exact absurd rfl (of_decide_eq_false hk)
      · exact ih hnodup hx

/-- **Appending a node with a new key** adds its pair to the map. -/
theorem lookup_append (hnew : ∀ y ∈ l, key y ≠ key x) :
    lookup key val (l ++ [x]) = Function.update (lookup key val l) (key x) (some (val x)) := by
  funext k
  unfold lookup
  rw [List.find?_append]
  by_cases hk : k = key x
  · subst hk
    have hnone : l.find? (fun y => decide (key y = key x)) = none := by simpa using hnew
    rw [hnone, Function.update_self]
    simp
  · rw [Function.update_of_ne hk]
    have hlast : [x].find? (fun y => decide (key y = k)) = none := by simpa using Ne.symm hk
    rw [hlast, Option.or_none]

/-- **Storing the value of a node** replaces its pair in the map. -/
theorem lookup_store (hnodup : (l.map key).Nodup) (hx : x ∈ l) (hself : val' x = v)
    (hother : ∀ y ∈ l, y ≠ x → val' y = val y) :
    lookup key val' l = Function.update (lookup key val l) (key x) (some v) := by
  funext k
  by_cases hk : k = key x
  · rw [hk, Function.update_self, lookup_of_mem hnodup hx, hself]
  · rw [Function.update_of_ne hk]
    unfold lookup
    cases hfind : l.find? fun y => decide (key y = k) with
    | none => rfl
    | some y =>
      have hy := List.mem_of_find?_eq_some hfind
      have hyk : key y = k := by simpa using List.find?_some hfind
      show some (val' y) = some (val y)
      rw [hother y hy]
      rintro rfl
      exact hk hyk.symm

end Lookup

end AppendChain
