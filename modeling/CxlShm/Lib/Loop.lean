import Mathlib.Data.List.Basic

/-! # Loop — loops that may fail to end

A C loop as a function of a fuel: `none` says that the fuel ran out (or that the body did not
return). Each loop has one total rule: an invariant indexed by what is left to do gives both that the
loop ends and what holds when it does.
-/

namespace Loop

variable {σ α : Type*}

/-- `while(cond) body`. -/
def whileM (cond : σ → Bool) (body : σ → Option σ) : Nat → σ → Option σ
  | 0, _ => none
  | fuel + 1, s => if cond s then (body s).bind (whileM cond body fuel) else some s

/-- **The loop rule.** `Inv n` holds with `n` rounds to go. -/
theorem whileM_rule {cond : σ → Bool} {body : σ → Option σ} (Inv : Nat → σ → Prop)
    (hend : ∀ s, Inv 0 s → cond s = false)
    (hstep : ∀ n s, Inv (n + 1) s → cond s = true ∧ ∃ s', body s = some s' ∧ Inv n s')
    {n fuel : Nat} (hfuel : n < fuel) {s : σ} (h : Inv n s) :
    ∃ s', whileM cond body fuel s = some s' ∧ Inv 0 s' := by
  induction n generalizing fuel s with
  | zero =>
    obtain ⟨f, rfl⟩ := Nat.exists_eq_add_of_lt hfuel
    refine ⟨s, ?_, h⟩
    rw [whileM, hend s h]
    rfl
  | succ n ih =>
    obtain ⟨f, rfl⟩ : ∃ f, fuel = f + 1 := ⟨fuel - 1, by omega⟩
    obtain ⟨hc, s', hb, h'⟩ := hstep n s h
    obtain ⟨t, ht, hinv⟩ := ih (Nat.lt_of_succ_lt_succ hfuel) h'
    refine ⟨t, ?_, hinv⟩
    rw [whileM, hc, if_pos rfl, hb]
    exact ht

/-- The loop rule for a loop that is known to end. -/
theorem whileM_some {cond : σ → Bool} {body : σ → Option σ} (Inv : σ → Prop)
    (hstep : ∀ s s', Inv s → cond s = true → body s = some s' → Inv s') {fuel : Nat} {s t : σ}
    (h : whileM cond body fuel s = some t) (hs : Inv s) : Inv t ∧ cond t = false := by
  induction fuel generalizing s with
  | zero => cases h
  | succ fuel ih =>
    rw [whileM] at h
    cases hc : cond s with
    | false =>
      simp only [hc, Bool.false_eq_true, if_false, Option.some.injEq] at h
      exact ⟨h ▸ hs, h ▸ hc⟩
    | true =>
      simp only [hc, if_true, Option.bind_eq_some_iff] at h
      obtain ⟨s', hb, h⟩ := h
      exact ih h (hstep s s' hs hc hb)

/-- **More fuel changes nothing**, for the loop and for its body. -/
theorem whileM_mono {cond : σ → Bool} {body body' : σ → Option σ}
    (hbody : ∀ s s', body s = some s' → body' s = some s') {fuel fuel' : Nat} (hle : fuel ≤ fuel') {s t : σ}
    (h : whileM cond body fuel s = some t) : whileM cond body' fuel' s = some t := by
  induction fuel generalizing fuel' s with
  | zero => cases h
  | succ fuel ih =>
    obtain ⟨f, rfl⟩ : ∃ f, fuel' = f + 1 := ⟨fuel' - 1, by omega⟩
    rw [whileM] at h ⊢
    cases hc : cond s with
    | false => simpa only [hc, Bool.false_eq_true, if_false] using h
    | true =>
      simp only [hc, if_true, Option.bind_eq_some_iff] at h ⊢
      obtain ⟨s', hb, h⟩ := h
      exact ⟨s', hbody s s' hb, ih (Nat.le_of_succ_le_succ hle) h⟩

/-- A loop seen through a function of its state. -/
theorem whileM_map {τ : Type*} (g : σ → τ) {cond : σ → Bool} {body : σ → Option σ}
    (cond' : τ → Bool) (body' : τ → Option τ) (hcond : ∀ s, cond s = cond' (g s))
    (hbody : ∀ s, (body s).map g = body' (g s)) (fuel : Nat) (s : σ) :
    (whileM cond body fuel s).map g = whileM cond' body' fuel (g s) := by
  induction fuel generalizing s with
  | zero => rfl
  | succ fuel ih =>
    rw [whileM, whileM, ← hcond]
    cases hc : cond s with
    | false => rfl
    | true =>
      simp only [if_true]
      rw [← hbody]
      cases hb : body s with
      | none => rfl
      | some s' => exact ih s'

/-- Follow the links of a list and work on each node; the link of a node is read before the work on
it. -/
def walk (next : σ → α → Option α) (body : α → σ → Option σ) (fuel : Nat) (first : Option α) (s : σ) :
    Option σ :=
  (whileM (fun p : Option α × σ => p.1.isSome)
    (fun p => p.1.bind fun x => (body x p.2).map fun s' => (next p.2 x, s')) fuel (first, s)).map
    Prod.snd

/-- **The walk rule.** `Inv l` holds with the nodes `l` to go. -/
theorem walk_rule {next : σ → α → Option α} {body : α → σ → Option σ} (Inv : List α → σ → Prop)
    (hstep : ∀ x l s, Inv (x :: l) s → next s x = l.head? ∧ ∃ s', body x s = some s' ∧ Inv l s')
    {l : List α} {fuel : Nat} (hfuel : l.length < fuel) {s : σ} (h : Inv l s) :
    ∃ s', walk next body fuel l.head? s = some s' ∧ Inv [] s' := by
  let J : Nat → Option α × σ → Prop := fun n p => ∃ r : List α, r.length = n ∧ p.1 = r.head? ∧ Inv r p.2
  have hend : ∀ p : Option α × σ, J 0 p → p.1.isSome = false := by
    rintro ⟨p, t⟩ ⟨r, hr, hp, -⟩
    simp only at hp
    rw [hp, List.length_eq_zero_iff.mp hr, List.head?_nil, Option.isSome_none]
  have hround : ∀ n (p : Option α × σ), J (n + 1) p → p.1.isSome = true ∧ ∃ p',
      (p.1.bind fun x => (body x p.2).map fun s' => (next p.2 x, s')) = some p' ∧ J n p' := by
    rintro n ⟨p, t⟩ ⟨r, hr, hp, hinv⟩
    cases r with
    | nil => cases hr
    | cons x r =>
      simp only [List.head?_cons] at hp
      obtain ⟨hnext, t', hb, hinv'⟩ := hstep x r t hinv
      subst hp
      refine ⟨rfl, (next t x, t'), ?_, r, by simpa using hr, hnext, hinv'⟩
      simp [hb]
  obtain ⟨⟨p, t⟩, hrun, r, hr, -, hinv⟩ := whileM_rule (s := (l.head?, s)) J hend hround hfuel
    ⟨l, rfl, rfl, h⟩
  refine ⟨t, ?_, List.length_eq_zero_iff.mp hr ▸ hinv⟩
  unfold walk
  rw [hrun]
  rfl

/-- The walk rule for a walk that is known to end. -/
theorem walk_some {next : σ → α → Option α} {body : α → σ → Option σ} (Inv : List α → σ → Prop)
    (hstep : ∀ x l s s', Inv (x :: l) s → body x s = some s' → next s x = l.head? ∧ Inv l s')
    {l : List α} {fuel : Nat} {s t : σ} (h : walk next body fuel l.head? s = some t) (hs : Inv l s) :
    Inv [] t := by
  unfold walk at h
  rw [Option.map_eq_some_iff] at h
  obtain ⟨⟨p, t'⟩, hrun, rfl⟩ := h
  have hround : ∀ s s' : Option α × σ, (∃ r : List α, s.1 = r.head? ∧ Inv r s.2) → s.1.isSome = true →
      (s.1.bind fun x => (body x s.2).map fun s' => (next s.2 x, s')) = some s' →
      ∃ r : List α, s'.1 = r.head? ∧ Inv r s'.2 := by
    rintro ⟨q, s⟩ s' ⟨r, hq, hinv⟩ - hb
    simp only at hq hinv hb
    subst hq
    cases r with
    | nil => cases hb
    | cons x r =>
      simp only [List.head?_cons, Option.bind_some, Option.map_eq_some_iff] at hb
      obtain ⟨s'', hb, rfl⟩ := hb
      exact ⟨r, hstep x r s s'' hinv hb⟩
  obtain ⟨⟨r, hp, hinv⟩, hend⟩ := whileM_some (fun p : Option α × σ => ∃ r, p.1 = r.head? ∧ Inv r p.2)
    hround hrun ⟨l, rfl, hs⟩
  cases r with
  | nil => exact hinv
  | cons x r =>
    simp only at hp hend
    rw [hp] at hend
    cases hend

/-- What every body keeps, a walk that ends has kept. -/
theorem walk_keeps {next : σ → α → Option α} {body : α → σ → Option σ} (Inv : σ → Prop)
    (hstep : ∀ x s s', Inv s → body x s = some s' → Inv s') {first : Option α} {fuel : Nat} {s t : σ}
    (h : walk next body fuel first s = some t) (hs : Inv s) : Inv t := by
  unfold walk at h
  rw [Option.map_eq_some_iff] at h
  obtain ⟨p, hrun, rfl⟩ := h
  refine (whileM_some (fun p : Option α × σ => Inv p.2) ?_ hrun hs).1
  rintro ⟨q, s⟩ s' hinv - hb
  simp only [Option.bind_eq_some_iff, Option.map_eq_some_iff] at hb
  obtain ⟨x, -, s'', hb, rfl⟩ := hb
  exact hstep x s s'' hinv hb

/-- The nodes of a list, from its first link on. -/
def Chained (next : α → Option α) : Option α → List α → Prop
  | first, [] => first = none
  | first, x :: l => first = some x ∧ Chained next (next x) l

theorem Chained.head {next : α → Option α} {first : Option α} {l : List α}
    (h : Chained next first l) : first = l.head? := by
  cases l with
  | nil => exact h
  | cons x l => exact h.1

theorem Chained.congr {next next' : α → Option α} {first : Option α} {l : List α}
    (h : Chained next first l) (hn : ∀ x ∈ l, next' x = next x) : Chained next' first l := by
  induction l generalizing first with
  | nil => exact h
  | cons x l ih =>
    refine ⟨h.1, ?_⟩
    rw [hn x List.mem_cons_self]
    exact ih h.2 fun y hy => hn y (List.mem_cons_of_mem _ hy)

/-- Links from each node of a sequence to the next, `r` times. -/
theorem chained_sequence {next : α → Option α} {f : Nat → α} {k r : Nat}
    (hlink : ∀ i, k ≤ i → i < k + r → next (f i) = some (f (i + 1))) (hlast : next (f (k + r)) = none) :
    Chained next (some (f k)) ((List.range' k (r + 1)).map f) := by
  induction r generalizing k with
  | zero => exact ⟨rfl, hlast⟩
  | succ r ih =>
    rw [List.range'_succ, List.map_cons]
    refine ⟨rfl, ?_⟩
    rw [hlink k (Nat.le_refl k) (by omega)]
    apply ih
    · exact fun i hi h => hlink i (by omega) (by omega)
    · rwa [Nat.add_right_comm]

/-- **The chain rule.** A walk goes through the nodes the list had at the start if each round leaves
the links of the later nodes alone. -/
theorem walk_chain (next : σ → α → Option α) (body : α → σ → Option σ) (Inv : List α → σ → Prop)
    (hstep : ∀ x l s, Inv (x :: l) s →
      ∃ s', body x s = some s' ∧ Inv l s' ∧ ∀ y ∈ l, next s' y = next s y)
    {first : Option α} {l : List α} {fuel : Nat} (hfuel : l.length < fuel) {s : σ}
    (hc : Chained (next s) first l) (h : Inv l s) :
    ∃ s', walk next body fuel first s = some s' ∧ Inv [] s' := by
  have hround : ∀ x l s, (Inv (x :: l) s ∧ Chained (next s) (x :: l).head? (x :: l)) →
      next s x = l.head? ∧ ∃ s', body x s = some s' ∧ (Inv l s' ∧ Chained (next s') l.head? l) := by
    rintro x l s ⟨hinv, -, hl⟩
    obtain ⟨s', hb, hinv', hkeep⟩ := hstep x l s hinv
    have hhead := hl.head
    rw [hhead] at hl
    exact ⟨hhead, s', hb, hinv', hl.congr hkeep⟩
  have hhead := hc.head
  rw [hhead] at hc ⊢
  obtain ⟨s', hrun, hinv, -⟩ := walk_rule (fun l s => Inv l s ∧ Chained (next s) l.head? l) hround hfuel
    ⟨h, hc⟩
  exact ⟨s', hrun, hinv⟩

/-- A walk that notes the nodes it comes by. -/
theorem walk_collect {next : α → Option α} {first : Option α} {l : List α} {fuel : Nat}
    (hfuel : l.length < fuel) (hc : Chained next first l) :
    walk (fun _ => next) (fun x (seen : List α) => some (seen ++ [x])) fuel first [] = some l := by
  have hstep : ∀ x (r : List α) (seen : List α), seen ++ x :: r = l →
      ∃ seen', some (seen ++ [x]) = some seen' ∧ seen' ++ r = l ∧ ∀ y ∈ r, next y = next y := by
    intro x r seen h
    exact ⟨seen ++ [x], rfl, by simpa using h, fun _ _ => rfl⟩
  obtain ⟨seen, hrun, hseen⟩ := walk_chain (fun _ => next) _ (fun r (seen : List α) => seen ++ r = l)
    hstep hfuel hc (List.nil_append l)
  rw [hrun, ← hseen, List.append_nil]

/-- **The fold rule.** `Inv l` holds with the elements `l` to go. -/
theorem foldlM_rule {f : σ → α → Option σ} (Inv : List α → σ → Prop)
    (hstep : ∀ x l s, Inv (x :: l) s → ∃ s', f s x = some s' ∧ Inv l s') {l : List α} {s : σ}
    (h : Inv l s) : ∃ s', l.foldlM f s = some s' ∧ Inv [] s' := by
  induction l generalizing s with
  | nil => exact ⟨s, rfl, h⟩
  | cons x l ih =>
    obtain ⟨s', hf, h'⟩ := hstep x l s h
    obtain ⟨t, ht, hinv⟩ := ih h'
    refine ⟨t, ?_, hinv⟩
    rw [List.foldlM_cons, hf]
    exact ht

/-- What every round keeps, whatever is left to do. -/
theorem foldlM_keeps {f : σ → α → Option σ} (Inv : σ → Prop) (hstep : ∀ s x s', Inv s → f s x = some s' → Inv s')
    {l : List α} {s t : σ} (h : l.foldlM f s = some t) (hs : Inv s) : Inv t := by
  induction l generalizing s with
  | nil => exact Option.some.inj h ▸ hs
  | cons x l ih =>
    rw [List.foldlM_cons] at h
    obtain ⟨s', hf, hrest⟩ := Option.bind_eq_some_iff.mp h
    exact ih hrest (hstep s x s' hs hf)

end Loop
