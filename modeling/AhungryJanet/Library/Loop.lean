import Mathlib.Data.List.Iterate
import Mathlib.Data.Nat.Find

/-!
# Loops and generators

A loop whose body may fail, and a generator: a first value, a next one for each, and a test that
says when to stop, each of which may change a state.

## Two readings of a loop

`whileLoop` runs a loop for a number of rounds and can be evaluated. `Ends` is the relation between
the states in which a loop starts and ends. `whileLoop_of_ends` says that they agree as soon as
there is enough fuel, so what is proved with the relation holds of every run that is long enough.

## What a generator yields

`Yields` lists the values a generator goes through while someone asks for more. Without side effects
these are its iterates, `yields_pure`.
-/

namespace Loop

variable {α σ ε : Type}

/-! ### Loops -/

/-- At most `fuel` rounds of a loop. -/
def whileLoop (cond : σ → Bool) (body : σ → Except ε σ) : (fuel : ℕ) → σ → Option (Except ε σ)
  | 0, _ => none
  | fuel + 1, s =>
    if cond s then
      match body s with
      | .ok t => whileLoop cond body fuel t
      | .error e => some (.error e)
    else some (.ok s)

/-- The loop started in one state ends in the other. -/
inductive Ends (cond : σ → Bool) (body : σ → Except ε σ) : σ → σ → Prop
  | stop {s : σ} (h : cond s = false) : Ends cond body s s
  | round {s t u : σ} (h : cond s = true) (hbody : body s = .ok t) (rest : Ends cond body t u) :
    Ends cond body s u

/-- A loop that ends is run to its end by enough fuel. -/
theorem whileLoop_of_ends {cond : σ → Bool} {body : σ → Except ε σ} {s t : σ}
    (h : Ends cond body s t) :
    ∃ enough, ∀ fuel, enough ≤ fuel → whileLoop cond body fuel s = some (.ok t) := by
  induction h with
  | stop h =>
    refine ⟨1, fun fuel hfuel => ?_⟩
    obtain ⟨fuel, rfl⟩ := Nat.exists_eq_add_of_le' hfuel
    simp [whileLoop, h]
  | round h hbody _ ih =>
    obtain ⟨enough, ih⟩ := ih
    refine ⟨enough + 1, fun fuel hfuel => ?_⟩
    obtain ⟨fuel, rfl⟩ := Nat.exists_eq_add_of_le' ((Nat.le_add_left 1 enough).trans hfuel)
    rw [whileLoop, if_pos h, hbody]
    exact ih fuel (Nat.le_of_succ_le_succ hfuel)

/-! ### Generators -/

/-- A first value, the next one, and a test to stop. -/
structure Generator (α σ ε : Type) where
  init : σ → Except ε (α × σ)
  next : α → σ → Except ε (α × σ)
  stop : α → σ → Except ε (Bool × σ)

/-- The values of a generator from the `k`-th one on, which is `pending`, for as long as `more`
says, and the states before and after. -/
inductive Generator.Yields (G : Generator α σ ε) (more : ℕ → Bool) :
    (k : ℕ) → (pending : σ → Except ε (α × σ)) → σ → List α → σ → Prop
  | enough {k : ℕ} {pending : σ → Except ε (α × σ)} {s : σ} (h : more k = false) :
    Yields G more k pending s [] s
  | last {k : ℕ} {pending : σ → Except ε (α × σ)} {s t u : σ} {v : α} (h : more k = true)
    (hv : pending s = .ok (v, t)) (hstop : G.stop v t = .ok (true, u)) :
    Yields G more k pending s [] u
  | round {k : ℕ} {pending : σ → Except ε (α × σ)} {s t u w : σ} {v : α} {vs : List α}
    (h : more k = true) (hv : pending s = .ok (v, t)) (hstop : G.stop v t = .ok (false, u))
    (rest : Yields G more (k + 1) (G.next v) u vs w) :
    Yields G more k pending s (v :: vs) w

/-- A generator without side effects. -/
def Generator.pure (f : α → α) (g : α → Bool) (a : α) : Generator α σ ε where
  init s := .ok (a, s)
  next v s := .ok (f v, s)
  stop v s := .ok (g v, s)

/-- **A generator without side effects yields its iterates**, up to the first one that passes the
test. -/
theorem yields_pure (f : α → α) (g : α → Bool) (a : α) (more : ℕ → Bool) (s : σ) {r : ℕ} :
    ∀ {k : ℕ} {v : α}, (∀ i < r, more (k + i) = true ∧ g (f^[i] v) = false) →
      (more (k + r) = false ∨ g (f^[r] v) = true) →
      (Generator.pure (ε := ε) f g a).Yields more k (fun s => .ok (v, s)) s
        (List.iterate f v r) s := by
  induction r with
  | zero =>
    intro k v _ hend
    cases hmore : more k with
    | false => exact .enough hmore
    | true =>
      rcases hend with hend | hend
      · exact absurd (hmore.symm.trans hend) (by simp)
      · exact .last hmore rfl (congrArg (fun b => Except.ok (b, s)) hend)
  | succ r ih =>
    intro k v hgoes hend
    have hnext : ∀ i, k + 1 + i = k + (i + 1) := fun i => Nat.add_right_comm k 1 i
    obtain ⟨hmore, hg⟩ := hgoes 0 (Nat.succ_pos r)
    refine .round hmore rfl (congrArg (fun b => Except.ok (b, s)) hg) (ih (fun i hi => ?_) ?_)
    · rw [hnext]
      exact hgoes (i + 1) (Nat.succ_lt_succ hi)
    · rw [hnext]
      exact hend

/-- `xs` is the whole of `a`, `f a`, `f (f a)`, … before the first element that passes the test. -/
structure IsCut (f : α → α) (g : α → Bool) (a : α) (xs : List α) : Prop where
  iterates : xs = List.iterate f a xs.length
  before : ∀ i < xs.length, g (f^[i] a) = false
  stops : g (f^[xs.length] a) = true

/-- Some element passes the test, and there is a first one, or none does. -/
theorem exists_isCut_or (f : α → α) (g : α → Bool) (a : α) :
    (∃ xs, IsCut f g a xs) ∨ ∀ i, g (f^[i] a) = false := by
  by_cases h : ∃ i, g (f^[i] a) = true
  · left
    refine ⟨List.iterate f a (Nat.find h), ?_, ?_, ?_⟩
    · rw [List.length_iterate]
    · intro i hi
      rw [List.length_iterate] at hi
      exact Bool.eq_false_of_not_eq_true (Nat.find_min h hi)
    · rw [List.length_iterate]
      exact Nat.find_spec h
  · right
    intro i
    exact Bool.eq_false_of_not_eq_true fun hi => h ⟨i, hi⟩

end Loop
