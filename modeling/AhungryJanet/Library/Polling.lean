import Mathlib.Data.List.Infix
import Mathlib.Data.List.ReduceOption

/-!
# Polling loops

A loop that polls a source. The source is the list of its answers: `some b` is an item, `none`
says that nothing is there for now, and behind the end of the list nothing comes any more.

`poll` is `while (! stop) { while (item) step }`. Its condition is tested at every pause of the
source and nowhere else, so how far a loop reads depends on where the pauses are, not only on the
items. A pause is left in the list when the loop ends there: a loop that follows begins by testing
its own condition at the same place.

## Main results

* `poll_eq_returned_iff` — a loop ends at the first pause at which its condition holds
* `poll_eq_failed_iff` — a loop fails where an item or its condition does
* `Simulates.poll`, `Simulates.comesTo` — two loops that take the same course
* `exists_first_pause` — what holds behind a source holds at a first pause of it
-/

namespace Polling

variable {β σ τ ε α γ α' γ' : Type*}

/-- How a program that polls ends, if it does. -/
inductive Outcome (ε α : Type*) where
  | returned (a : α)
  | failed (e : ε)
  /-- It polls a source from which nothing comes any more. -/
  | waits
  deriving DecidableEq

namespace Outcome

/-- Go on with the result. -/
def bind (x : Outcome ε α) (f : α → Outcome ε γ) : Outcome ε γ :=
  match x with
  | .returned a => f a
  | .failed e => .failed e
  | .waits => .waits

@[simp] theorem bind_eq_returned_iff {x : Outcome ε α} {f : α → Outcome ε γ} {c : γ} :
    x.bind f = .returned c ↔ ∃ a, x = .returned a ∧ f a = .returned c := by
  cases x <;> simp [bind]

@[simp] theorem bind_eq_failed_iff {x : Outcome ε α} {f : α → Outcome ε γ} {e : ε} :
    x.bind f = .failed e ↔ x = .failed e ∨ ∃ a, x = .returned a ∧ f a = .failed e := by
  cases x <;> simp [bind]

/-- A computation that does not poll. -/
def ofExcept : Except ε α → Outcome ε α
  | .ok a => .returned a
  | .error e => .failed e

@[simp] theorem ofExcept_eq_returned_iff {x : Except ε α} {a : α} :
    ofExcept x = .returned a ↔ x = .ok a := by
  cases x <;> simp [ofExcept]

@[simp] theorem ofExcept_eq_failed_iff {x : Except ε α} {e : ε} :
    ofExcept x = .failed e ↔ x = .error e := by
  cases x <;> simp [ofExcept]

/-- If it fails, it fails in a way that `P` allows. -/
def FailsOnly (P : ε → Prop) (x : Outcome ε α) : Prop := ∀ e, x = .failed e → P e

@[simp] theorem failsOnly_returned (P : ε → Prop) (a : α) :
    FailsOnly P (.returned a : Outcome ε α) := fun _ h => by cases h

@[simp] theorem failsOnly_ofExcept_iff {P : ε → Prop} {x : Except ε α} :
    FailsOnly P (ofExcept x) ↔ ∀ e, x = .error e → P e := by
  simp [FailsOnly]

theorem failsOnly_bind_iff {P : ε → Prop} {x : Outcome ε α} {f : α → Outcome ε γ} :
    FailsOnly P (x.bind f) ↔ FailsOnly P x ∧ ∀ a, x = .returned a → FailsOnly P (f a) := by
  cases x <;> simp [FailsOnly, bind]

/-- Two programs end alike, with related results. -/
def Rel (R : α → α' → Prop) : Outcome ε α → Outcome ε α' → Prop
  | .returned a, .returned a' => R a a'
  | .failed e, .failed e' => e = e'
  | .waits, .waits => True
  | _, _ => False

theorem rel_eq_iff {x y : Outcome ε α} : Rel (· = ·) x y ↔ x = y := by
  cases x <;> cases y <;> simp [Rel]

theorem Rel.bind {R : α → α' → Prop} {S : γ → γ' → Prop} {x : Outcome ε α} {y : Outcome ε α'}
    {f : α → Outcome ε γ} {g : α' → Outcome ε γ'} (h : Rel R x y)
    (hfg : ∀ a a', R a a' → Rel S (f a) (g a')) : Rel S (x.bind f) (y.bind g) := by
  cases x <;> cases y <;> simp only [Rel] at h <;> simp only [Outcome.bind, Rel, h]
  case returned.returned a a' => exact hfg a a' h

end Outcome

/-- Nothing is there at the head of the list. -/
def AtPause (d : List (Option β)) : Prop := ∀ b d', d ≠ some b :: d'

theorem atPause_nil : AtPause ([] : List (Option β)) := fun _ _ h => by cases h

theorem atPause_none (d : List (Option β)) : AtPause (none :: d) := fun _ _ h => by cases h

/-- There is a first pause at which a property holds of what came before, if it holds in the
end. -/
theorem exists_first_pause {P : List (Option β) → Prop} {d : List (Option β)} (h : P d) :
    ∃ d₁ d₂, d = d₁ ++ d₂ ∧ AtPause d₂ ∧ P d₁ ∧ ∀ e, e ++ [none] <+: d₁ → ¬ P e := by
  induction d generalizing P with
  | nil => exact ⟨[], [], rfl, atPause_nil, h, by simp⟩
  | cons x d ih =>
    by_cases hhere : AtPause (x :: d) ∧ P []
    · exact ⟨[], x :: d, rfl, hhere.1, hhere.2, by simp⟩
    · obtain ⟨d₁, d₂, rfl, hpause, hP, hfirst⟩ := @ih (fun e => P (x :: e)) h
      refine ⟨x :: d₁, d₂, rfl, hpause, hP, fun e he => ?_⟩
      cases e with
      | nil =>
        obtain ⟨rfl, -⟩ := List.cons_prefix_cons.mp he
        exact fun hnil => hhere ⟨atPause_none _, hnil⟩
      | cons y e =>
        obtain ⟨rfl, hrest⟩ := List.cons_prefix_cons.mp he
        exact hfirst e hrest

/-- `while (! stop) { while (item) step }`, inside the inner loop. -/
def poll (stop : σ → Except ε Bool) (step : σ → β → Except ε σ) :
    σ → List (Option β) → Outcome ε (σ × List (Option β))
  | s, [] =>
    match stop s with
    | .ok true => .returned (s, [])
    | .ok false => .waits
    | .error e => .failed e
  | s, none :: d =>
    match stop s with
    | .ok true => .returned (s, none :: d)
    | .ok false => poll stop step s d
    | .error e => .failed e
  | s, some b :: d =>
    match step s b with
    | .ok s' => poll stop step s' d
    | .error e => .failed e

/-! ### Where a loop comes to -/

variable {stop : σ → Except ε Bool} {step : σ → β → Except ε σ}

/-! What a loop does at a pause. -/

theorem poll_of_stop {s : σ} {d : List (Option β)} (hd : AtPause d) (h : stop s = .ok true) :
    poll stop step s d = .returned (s, d) := by
  match d, hd with
  | [], _ => simp only [poll, h]
  | none :: d, _ => simp only [poll, h]
  | some b :: d, hd => exact absurd rfl (hd b d)

theorem poll_of_go {s : σ} {d : List (Option β)} (hd : AtPause d) (h : stop s = .ok false) :
    poll stop step s d = poll stop step s d.tail := by
  match d, hd with
  | [], _ => rfl
  | none :: d, _ => simp only [poll, h, List.tail_cons]
  | some b :: d, hd => exact absurd rfl (hd b d)

theorem poll_of_error {s : σ} {d : List (Option β)} (hd : AtPause d) {e : ε}
    (h : stop s = .error e) : poll stop step s d = .failed e := by
  match d, hd with
  | [], _ => simp only [poll, h]
  | none :: d, _ => simp only [poll, h]
  | some b :: d, hd => exact absurd rfl (hd b d)

/-- A loop comes to `s'`: it took the items of `d`, and its condition held at no pause between
them. -/
structure ComesTo (stop : σ → Except ε Bool) (step : σ → β → Except ε σ) (s : σ)
    (d : List (Option β)) (s' : σ) : Prop where
  steps : d.reduceOption.foldlM step s = .ok s'
  on : ∀ e, e ++ [none] <+: d → ∃ t, e.reduceOption.foldlM step s = .ok t ∧ stop t = .ok false

theorem ComesTo.here (s : σ) : ComesTo stop step s [] s where
  steps := rfl
  on e he := by simp at he

theorem ComesTo.nothing {s s' : σ} {d : List (Option β)} (h : stop s = .ok false)
    (hcomes : ComesTo stop step s d s') : ComesTo stop step s (none :: d) s' where
  steps := hcomes.steps
  on e he := by
    cases e with
    | nil => exact ⟨s, rfl, h⟩
    | cons x e =>
      obtain ⟨rfl, hrest⟩ := List.cons_prefix_cons.mp he
      exact hcomes.on e hrest

theorem ComesTo.item {s t s' : σ} {b : β} {d : List (Option β)} (h : step s b = .ok t)
    (hcomes : ComesTo stop step t d s') : ComesTo stop step s (some b :: d) s' where
  steps := by
    rw [List.reduceOption_cons_of_some, List.foldlM_cons, h]
    exact hcomes.steps
  on e he := by
    cases e with
    | nil =>
      obtain ⟨h, -⟩ := List.cons_prefix_cons.mp he
      cases h
    | cons x e =>
      obtain ⟨rfl, hrest⟩ := List.cons_prefix_cons.mp he
      rw [List.reduceOption_cons_of_some, List.foldlM_cons, h]
      exact hcomes.on e hrest

theorem ComesTo.of_nothing {s s' : σ} {d : List (Option β)}
    (hcomes : ComesTo stop step s (none :: d) s') :
    stop s = .ok false ∧ ComesTo stop step s d s' := by
  obtain ⟨t, ht, hstop⟩ := hcomes.on [] (by simp)
  cases ht
  exact ⟨hstop, hcomes.steps,
    fun e he => hcomes.on (none :: e) (List.cons_prefix_cons.mpr ⟨rfl, he⟩)⟩

theorem ComesTo.of_item {s s' : σ} {b : β} {d : List (Option β)}
    (hcomes : ComesTo stop step s (some b :: d) s') :
    ∃ t, step s b = .ok t ∧ ComesTo stop step t d s' := by
  have hsteps := hcomes.steps
  rw [List.reduceOption_cons_of_some, List.foldlM_cons] at hsteps
  cases ht : step s b with
  | error e =>
    rw [ht] at hsteps
    cases hsteps
  | ok t =>
    rw [ht] at hsteps
    refine ⟨t, rfl, hsteps, fun e he => ?_⟩
    obtain ⟨u, hu, hstop⟩ := hcomes.on (some b :: e) (List.cons_prefix_cons.mpr ⟨rfl, he⟩)
    rw [List.reduceOption_cons_of_some, List.foldlM_cons, ht] at hu
    exact ⟨u, hu, hstop⟩

theorem ComesTo.trans {s t u : σ} {d₁ d₂ : List (Option β)} (h₁ : ComesTo stop step s d₁ t)
    (h₂ : ComesTo stop step t d₂ u) : ComesTo stop step s (d₁ ++ d₂) u := by
  induction d₁ generalizing s with
  | nil =>
    cases h₁.steps
    exact h₂
  | cons x d₁ ih =>
    cases x with
    | none =>
      obtain ⟨hstop, h₁⟩ := h₁.of_nothing
      exact (ih h₁).nothing hstop
    | some b =>
      obtain ⟨v, hstep, h₁⟩ := h₁.of_item
      exact (ih h₁).item hstep

/-- What a loop does from where it has come to. -/
theorem poll_append {s s' : σ} {d₁ d₂ : List (Option β)} (h : ComesTo stop step s d₁ s') :
    poll stop step s (d₁ ++ d₂) = poll stop step s' d₂ := by
  induction d₁ generalizing s with
  | nil =>
    cases h.steps
    rfl
  | cons x d₁ ih =>
    cases x with
    | none =>
      obtain ⟨hstop, h⟩ := h.of_nothing
      rw [List.cons_append, poll, hstop]
      exact ih h
    | some b =>
      obtain ⟨t, hstep, h⟩ := h.of_item
      rw [List.cons_append, poll, hstep]
      exact ih h

/-! ### How it ends -/

/-- What a loop has done when it ends: it took the items of `d₁`, its condition held then and at
no pause before. -/
structure Ends (stop : σ → Except ε Bool) (step : σ → β → Except ε σ) (s : σ)
    (d₁ d₂ : List (Option β)) (s' : σ) : Prop where
  pause : AtPause d₂
  steps : d₁.reduceOption.foldlM step s = .ok s'
  stops : stop s' = .ok true
  first : ∀ e, e ++ [none] <+: d₁ →
    ∃ t, e.reduceOption.foldlM step s = .ok t ∧ stop t = .ok false

theorem ends_iff {s s' : σ} {d₁ d₂ : List (Option β)} :
    Ends stop step s d₁ d₂ s' ↔ AtPause d₂ ∧ ComesTo stop step s d₁ s' ∧ stop s' = .ok true :=
  ⟨fun h => ⟨h.pause, ⟨h.steps, h.first⟩, h.stops⟩, fun ⟨hpause, hcomes, hstops⟩ =>
    ⟨hpause, hcomes.steps, hstops, hcomes.on⟩⟩

/-- **A loop ends at the first pause at which its condition holds.** -/
theorem poll_eq_returned_iff {s s' : σ} {d d₂ : List (Option β)} :
    poll stop step s d = .returned (s', d₂) ↔
      ∃ d₁, d = d₁ ++ d₂ ∧ Ends stop step s d₁ d₂ s' := by
  simp only [ends_iff]
  constructor
  · intro h
    induction d generalizing s with
    | nil =>
      rw [poll] at h
      split at h
      case h_1 hstop =>
        cases h
        exact ⟨[], rfl, atPause_nil, .here _, hstop⟩
      all_goals cases h
    | cons x d ih =>
      cases x with
      | none =>
        rw [poll] at h
        split at h
        case h_1 hstop =>
          cases h
          exact ⟨[], rfl, atPause_none d, .here _, hstop⟩
        case h_2 hstop =>
          obtain ⟨d₁, rfl, hpause, hcomes, hstops⟩ := ih h
          exact ⟨none :: d₁, rfl, hpause, hcomes.nothing hstop, hstops⟩
        case h_3 => cases h
      | some b =>
        rw [poll] at h
        split at h
        case h_1 t hstep =>
          obtain ⟨d₁, rfl, hpause, hcomes, hstops⟩ := ih h
          exact ⟨some b :: d₁, rfl, hpause, hcomes.item hstep, hstops⟩
        case h_2 => cases h
  · rintro ⟨d₁, rfl, hpause, hcomes, hstops⟩
    rw [poll_append hcomes]
    cases d₂ with
    | nil => simp [poll, hstops]
    | cons x d₂ =>
      cases x with
      | none => simp [poll, hstops]
      | some b => exact absurd rfl (hpause b d₂)

/-- **A loop fails where an item or its condition does.** -/
theorem poll_eq_failed_iff {s : σ} {d : List (Option β)} {e : ε} :
    poll stop step s d = .failed e ↔
      ∃ d₁ d₂ s', d = d₁ ++ d₂ ∧ ComesTo stop step s d₁ s' ∧
        ((∃ b d₃, d₂ = some b :: d₃ ∧ step s' b = .error e) ∨
          AtPause d₂ ∧ stop s' = .error e) := by
  constructor
  · intro h
    induction d generalizing s with
    | nil =>
      rw [poll] at h
      split at h
      case h_3 hstop =>
        cases h
        exact ⟨[], [], s, rfl, .here s, .inr ⟨atPause_nil, hstop⟩⟩
      all_goals cases h
    | cons x d ih =>
      cases x with
      | none =>
        rw [poll] at h
        split at h
        case h_1 => cases h
        case h_2 hstop =>
          obtain ⟨d₁, d₂, s', rfl, hcomes, hfails⟩ := ih h
          exact ⟨none :: d₁, d₂, s', rfl, hcomes.nothing hstop, hfails⟩
        case h_3 hstop =>
          cases h
          exact ⟨[], none :: d, s, rfl, .here s, .inr ⟨atPause_none d, hstop⟩⟩
      | some b =>
        rw [poll] at h
        split at h
        case h_1 t hstep =>
          obtain ⟨d₁, d₂, s', rfl, hcomes, hfails⟩ := ih h
          exact ⟨some b :: d₁, d₂, s', rfl, hcomes.item hstep, hfails⟩
        case h_2 hstep =>
          cases h
          exact ⟨[], some b :: d, s, rfl, .here s, .inl ⟨b, d, rfl, hstep⟩⟩
  · rintro ⟨d₁, d₂, s', rfl, hcomes, ⟨b, d₃, rfl, hstep⟩ | ⟨hpause, hstop⟩⟩
    · rw [poll_append hcomes, poll, hstep]
    · rw [poll_append hcomes]
      cases d₂ with
      | nil => simp [poll, hstop]
      | cons x d₂ =>
        cases x with
        | none => simp [poll, hstop]
        | some b => exact absurd rfl (hpause b d₂)

/-- How a loop may fail is said at the items and pauses that it comes to. -/
theorem failsOnly_poll_iff {P : ε → Prop} {s : σ} {d : List (Option β)} :
    (poll stop step s d).FailsOnly P ↔
      (∀ d₁ b s', d₁ ++ [some b] <+: d → ComesTo stop step s d₁ s' →
        ∀ e, step s' b = .error e → P e) ∧
      ∀ d₁ d₂ s', d = d₁ ++ d₂ → AtPause d₂ → ComesTo stop step s d₁ s' →
        ∀ e, stop s' = .error e → P e := by
  simp only [Outcome.FailsOnly, poll_eq_failed_iff]
  constructor
  · intro h
    refine ⟨fun d₁ b s' hd hcomes e hstep => ?_, fun d₁ d₂ s' hd hpause hcomes e hstop => ?_⟩
    · obtain ⟨d₂, rfl⟩ := hd
      exact h e ⟨d₁, some b :: d₂, s', by simp, hcomes, .inl ⟨b, d₂, rfl, hstep⟩⟩
    · exact h e ⟨d₁, d₂, s', hd, hcomes, .inr ⟨hpause, hstop⟩⟩
  · rintro ⟨hitem, hpauses⟩ e ⟨d₁, d₂, s', rfl, hcomes, ⟨b, d₃, rfl, hstep⟩ | ⟨hpause, hstop⟩⟩
    · exact hitem d₁ b s' ⟨d₃, by simp⟩ hcomes e hstep
    · exact hpauses d₁ d₂ s' rfl hpause hcomes e hstop

/-! ### Two loops on one source -/

variable {stop' : τ → Except ε Bool} {step' : τ → β → Except ε τ}

/-- Two loops take the same course, in related states. What is still to come of the source is part
of the relation. -/
structure Simulates (R : List (Option β) → σ → τ → Prop) (stop : σ → Except ε Bool)
    (step : σ → β → Except ε σ) (stop' : τ → Except ε Bool) (step' : τ → β → Except ε τ) :
    Prop where
  stop : ∀ {d s t}, R d s t → AtPause d → stop s = stop' t
  pause : ∀ {d s t}, R (none :: d) s t → R d s t
  item : ∀ {d s t b}, R (some b :: d) s t →
    Outcome.Rel (R d) (.ofExcept (step s b)) (.ofExcept (step' t b))

variable {R : List (Option β) → σ → τ → Prop}

theorem Simulates.item_ok (h : Simulates R stop step stop' step') {d : List (Option β)} {s s' : σ}
    {t : τ} {b : β} (hst : R (some b :: d) s t) (hstep : step s b = .ok s') :
    ∃ t', step' t b = .ok t' ∧ R d s' t' := by
  have hrel := h.item hst
  rw [hstep] at hrel
  cases hstep' : step' t b with
  | error e =>
    rw [hstep'] at hrel
    exact hrel.elim
  | ok t' =>
    rw [hstep'] at hrel
    exact ⟨t', rfl, hrel⟩

/-- **They end alike.** -/
theorem Simulates.poll (h : Simulates R stop step stop' step') {d : List (Option β)} {s : σ} {t : τ}
    (hst : R d s t) :
    Outcome.Rel (fun x y => x.2 = y.2 ∧ R x.2 x.1 y.1) (poll stop step s d)
      (poll stop' step' t d) := by
  induction d generalizing s t with
  | nil =>
    rw [Polling.poll, Polling.poll, ← h.stop hst atPause_nil]
    rcases stop s with e | _ | _
    · rfl
    · trivial
    · exact ⟨rfl, hst⟩
  | cons x d ih =>
    cases x with
    | none =>
      rw [Polling.poll, Polling.poll, ← h.stop hst (atPause_none d)]
      rcases stop s with e | _ | _
      · rfl
      · exact ih (h.pause hst)
      · exact ⟨rfl, hst⟩
    | some b =>
      have hrel := h.item hst
      rw [Polling.poll, Polling.poll]
      cases hstep : step s b with
      | error e =>
        rw [hstep] at hrel
        cases hstep' : step' t b with
        | error e' =>
          rw [hstep'] at hrel
          exact hrel
        | ok t' =>
          rw [hstep'] at hrel
          exact hrel.elim
      | ok s' =>
        obtain ⟨t', hstep', hst'⟩ := h.item_ok hst hstep
        rw [hstep']
        exact ih hst'

/-- Where one comes to, the other does. -/
theorem Simulates.comesTo (h : Simulates R stop step stop' step') {d₁ d₂ : List (Option β)}
    {s s' : σ} {t : τ} (hst : R (d₁ ++ d₂) s t) (hcomes : ComesTo stop step s d₁ s') :
    ∃ t', ComesTo stop' step' t d₁ t' ∧ R d₂ s' t' := by
  induction d₁ generalizing s t with
  | nil =>
    cases hcomes.steps
    exact ⟨t, .here t, hst⟩
  | cons x d₁ ih =>
    cases x with
    | none =>
      obtain ⟨hstop, hcomes⟩ := hcomes.of_nothing
      obtain ⟨t', hcomes', hst'⟩ := ih (h.pause hst) hcomes
      rw [h.stop hst (atPause_none _)] at hstop
      exact ⟨t', hcomes'.nothing hstop, hst'⟩
    | some b =>
      obtain ⟨u, hstep, hcomes⟩ := hcomes.of_item
      obtain ⟨u', hstep', hst'⟩ := h.item_ok hst hstep
      obtain ⟨t', hcomes', hst'⟩ := ih hst' hcomes
      exact ⟨t', hcomes'.item hstep', hst'⟩

/-- Where one ends, the other does. -/
theorem Simulates.ends (h : Simulates R stop step stop' step') {d₁ d₂ : List (Option β)}
    {s s' : σ} {t : τ} (hst : R (d₁ ++ d₂) s t) (hends : Ends stop step s d₁ d₂ s') :
    ∃ t', Ends stop' step' t d₁ d₂ t' ∧ R d₂ s' t' := by
  obtain ⟨hpause, hcomes, hstop⟩ := ends_iff.mp hends
  obtain ⟨t', hcomes', hst'⟩ := h.comesTo hst hcomes
  rw [h.stop hst' hpause] at hstop
  exact ⟨t', ends_iff.mpr ⟨hpause, hcomes', hstop⟩, hst'⟩

end Polling
