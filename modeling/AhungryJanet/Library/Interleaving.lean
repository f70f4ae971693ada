import Mathlib.Logic.Function.Basic
import Mathlib.Logic.Relation

/-!
# Interleaved threads and a lock

Threads that take turns on a shared state. A thread is a deterministic program: `step t σ` is the
thread and the shared state after its next step, or `none` if it has none or has to wait. A run
chooses in each state which thread goes on.

A lock is described by two functions. `owner` reads from the shared state who holds the lock, as a
ticket; `holds` reads from a thread which tickets it has taken and not given up. Every step of a
thread stays, acquires, releases, or abandons: gives up a ticket with the lock still in its name.

## Main results

* `Reaches.invariant` — what holds initially and is kept by each step holds of every reachable state
* `Exclusive.set` — at most one thread has a ticket, and it is the owner's
* `Accounted.set` — without an abandoning step, the owner's ticket is always some thread's
* `Exclusive.stuck` — a thread with a ticket that has no step is never waited out
* `leads_iff_of_step` — what a thread comes to by itself, step by step
-/

namespace Interleaving

/-- The threads and what they share. -/
structure State (ι τ σ : Type) where
  threads : ι → τ
  shared : σ

variable {ι τ σ κ : Type} [DecidableEq ι] {step : τ → σ → Option (τ × σ)}

/-- One thread and the shared state are changed. -/
def State.set (s : State ι τ σ) (i : ι) (t : τ) (sh : σ) : State ι τ σ :=
  ⟨Function.update s.threads i t, sh⟩

@[simp] theorem State.set_shared (s : State ι τ σ) (i : ι) (t : τ) (sh : σ) :
    (s.set i t sh).shared = sh := rfl

@[simp] theorem State.set_threads_self (s : State ι τ σ) (i : ι) (t : τ) (sh : σ) :
    (s.set i t sh).threads i = t := by
  simp [State.set]

theorem State.set_threads_of_ne (s : State ι τ σ) {i j : ι} (h : j ≠ i) (t : τ) (sh : σ) :
    (s.set i t sh).threads j = s.threads j := by
  simp [State.set, h]

/-- One thread takes a step. -/
inductive Step (step : τ → σ → Option (τ × σ)) (s : State ι τ σ) : State ι τ σ → Prop where
  | thread (i : ι) {t : τ} {sh : σ} (h : step (s.threads i) s.shared = some (t, sh)) :
    Step step s (s.set i t sh)

/-- Some run leads from one state to the other. -/
abbrev Reaches (step : τ → σ → Option (τ × σ)) : State ι τ σ → State ι τ σ → Prop :=
  Relation.ReflTransGen (Step step)

theorem Reaches.invariant {P : State ι τ σ → Prop} (hstep : ∀ s s', P s → Step step s s' → P s')
    {s s' : State ι τ σ} (hrun : Reaches step s s') (h : P s) : P s' := by
  induction hrun with
  | refl => exact h
  | tail _ hlast ih => exact hstep _ _ ih hlast

/-- The steps of which `C` holds. -/
def restrict (step : τ → σ → Option (τ × σ)) (C : τ → σ → Bool) (t : τ) (sh : σ) :
    Option (τ × σ) :=
  if C t sh then step t sh else none

omit [DecidableEq ι] in
theorem restrict_eq_some_iff {C : τ → σ → Bool} {t : τ} {sh : σ} {r : τ × σ} :
    restrict step C t sh = some r ↔ C t sh = true ∧ step t sh = some r := by
  by_cases h : C t sh = true
  · simp [restrict, h]
  · simp [restrict, h]

/-- A run of steps of which `C` holds is a run. -/
theorem Reaches.of_restrict {C : τ → σ → Bool} {s s' : State ι τ σ}
    (hrun : Reaches (restrict step C) s s') : Reaches step s s' := by
  induction hrun with
  | refl => exact .refl
  | tail _ hlast ih =>
    obtain ⟨i, hi⟩ := hlast
    exact ih.tail (.thread i (restrict_eq_some_iff.mp hi).2)

/-- The state after the threads of a schedule have taken a step each. -/
def exec (step : τ → σ → Option (τ × σ)) : List ι → State ι τ σ → Option (State ι τ σ)
  | [], s => some s
  | i :: schedule, s =>
    match step (s.threads i) s.shared with
    | some (t, sh) => exec step schedule (s.set i t sh)
    | none => none

theorem reaches_of_exec {schedule : List ι} {s s' : State ι τ σ}
    (h : exec step schedule s = some s') : Reaches step s s' := by
  induction schedule generalizing s with
  | nil =>
    cases h
    exact .refl
  | cons i schedule ih =>
    simp only [exec] at h
    split at h
    case h_1 t sh hi => exact .head (.thread i hi) (ih h)
    case h_2 => cases h

/-! ### The lock -/

section

variable (holds : τ → List κ) (owner : σ → Option κ)

/-- What a step of a thread can do with the lock. -/
inductive LockStep (t : τ) (sh : σ) (t' : τ) (sh' : σ) : Prop where
  /-- Nothing. -/
  | stay (howner : owner sh' = owner sh) (hholds : holds t' = holds t)
  /-- Take it, with a ticket. -/
  | acquire (n : κ) (hfree : owner sh = none) (howner : owner sh' = some n)
    (hholds : holds t' = n :: holds t)
  /-- Give it up. -/
  | release (n : κ) (howner : owner sh' = none) (hholds : holds t = n :: holds t')
  /-- Give up the ticket only. -/
  | abandon (n : κ) (howner : owner sh' = owner sh) (hholds : holds t = n :: holds t')

/-- Only the owner has a ticket, and only one. -/
structure Exclusive (s : State ι τ σ) : Prop where
  /-- A ticket is the owner's. -/
  owned : ∀ i n, n ∈ holds (s.threads i) → owner s.shared = some n
  /-- A thread has one ticket at most. -/
  single : ∀ i, (holds (s.threads i)).length ≤ 1
  /-- Two threads with tickets are one. -/
  unique : ∀ i j, holds (s.threads i) ≠ [] → holds (s.threads j) ≠ [] → i = j

/-- The owner's ticket is some thread's. -/
def Accounted (s : State ι τ σ) : Prop :=
  ∀ n, owner s.shared = some n → ∃ i, n ∈ holds (s.threads i)

variable {holds owner}

omit [DecidableEq ι] in
theorem Exclusive.holds_eq_nil {s : State ι τ σ} (h : Exclusive holds owner s)
    (hfree : owner s.shared = none) (i : ι) : holds (s.threads i) = [] := by
  refine List.eq_nil_iff_forall_not_mem.mpr fun n hn => ?_
  rw [h.owned i n hn] at hfree
  cases hfree

omit [DecidableEq ι] in
theorem Exclusive.eq_singleton {s : State ι τ σ} (h : Exclusive holds owner s) {i : ι} {n : κ}
    {rest : List κ} (hi : holds (s.threads i) = n :: rest) : rest = [] := by
  have hlen := h.single i
  rw [hi, List.length_cons] at hlen
  exact List.eq_nil_of_length_eq_zero (by omega)

/-- A change that leaves at most the stepping thread with tickets. -/
private theorem Exclusive.of_others_nil {s : State ι τ σ} {i : ι} {t : τ} {sh : σ}
    (hothers : ∀ j, j ≠ i → holds (s.threads j) = []) (hsingle : (holds t).length ≤ 1)
    (howned : ∀ n ∈ holds t, owner sh = some n) :
    Exclusive holds owner (s.set i t sh) := by
  have hnil : ∀ j, holds ((s.set i t sh).threads j) ≠ [] → j = i := by
    intro j hj
    by_contra hne
    rw [State.set_threads_of_ne _ hne] at hj
    exact hj (hothers j hne)
  refine ⟨fun j n hn => ?_, fun j => ?_, fun j k hj hk => (hnil j hj).trans (hnil k hk).symm⟩
  · obtain rfl := hnil j (List.ne_nil_of_mem hn)
    rw [State.set_threads_self] at hn
    exact howned n hn
  · by_cases hj : j = i
    · subst hj
      rwa [State.set_threads_self]
    · rw [State.set_threads_of_ne _ hj, hothers j hj]
      exact Nat.zero_le 1

/-- **Every step keeps the tickets exclusive.** -/
theorem Exclusive.set {s : State ι τ σ} (h : Exclusive holds owner s) (i : ι) {t : τ} {sh : σ}
    (hstep : LockStep holds owner (s.threads i) s.shared t sh) :
    Exclusive holds owner (s.set i t sh) := by
  cases hstep with
  | stay howner hholds =>
    have hsame : ∀ j, holds ((s.set i t sh).threads j) = holds (s.threads j) := by
      intro j
      by_cases hj : j = i
      · subst hj
        rw [State.set_threads_self, hholds]
      · rw [State.set_threads_of_ne _ hj]
    refine ⟨fun j n hn => ?_, fun j => ?_, fun j k hj hk => ?_⟩
    · rw [hsame] at hn
      exact howner.trans (h.owned j n hn)
    · rw [hsame]
      exact h.single j
    · rw [hsame] at hj hk
      exact h.unique j k hj hk
  | acquire n hfree howner hholds =>
    have hnil := h.holds_eq_nil hfree
    rw [hnil i] at hholds
    refine Exclusive.of_others_nil (fun j _ => hnil j) (by simp [hholds]) fun m hm => ?_
    rw [hholds, List.mem_singleton] at hm
    rw [hm, howner]
  | release n howner hholds | abandon n howner hholds =>
    have ht := h.eq_singleton hholds
    refine Exclusive.of_others_nil (fun j hj => ?_) (by simp [ht]) (by simp [ht])
    by_contra hne
    exact hj (h.unique j i hne (by simp [hholds]))

/-- **The owner stays accounted for**, as long as no step abandons the lock. -/
theorem Accounted.set {s : State ι τ σ} (h : Accounted holds owner s) (i : ι) {t : τ} {sh : σ}
    (hstep : LockStep holds owner (s.threads i) s.shared t sh)
    (hkept : ∀ n, holds (s.threads i) = n :: holds t → owner sh = none) :
    Accounted holds owner (s.set i t sh) := by
  intro n hn
  have hother : owner s.shared = some n → holds t = holds (s.threads i) →
      ∃ j, n ∈ holds ((s.set i t sh).threads j) := by
    intro hown hsame
    obtain ⟨j, hj⟩ := h n hown
    refine ⟨j, ?_⟩
    by_cases hji : j = i
    · subst hji
      rwa [State.set_threads_self, hsame]
    · rwa [State.set_threads_of_ne _ hji]
  cases hstep with
  | stay howner hholds => exact hother (howner.symm.trans hn) hholds
  | acquire m hfree howner hholds =>
    have hnm : n = m := Option.some.inj (hn.symm.trans howner)
    refine ⟨i, ?_⟩
    simp [hholds, hnm]
  | release m howner hholds =>
    rw [show owner sh = some n from hn] at howner
    cases howner
  | abandon m howner hholds =>
    rw [show owner sh = some n from hn] at hkept
    cases hkept m hholds

/-- **A thread with a ticket that has no step is never waited out**: no run changes it, or takes the
lock from it. -/
theorem Exclusive.stuck
    (hlock : ∀ t sh t' sh', step t sh = some (t', sh') → LockStep holds owner t sh t' sh')
    {s : State ι τ σ} {i : ι} {n : κ} (h : Exclusive holds owner s) (hi : n ∈ holds (s.threads i))
    (hwait : ∀ sh, owner sh = some n → step (s.threads i) sh = none) {s' : State ι τ σ}
    (hrun : Reaches step s s') : s'.threads i = s.threads i ∧ owner s'.shared = some n := by
  suffices hinv : Exclusive holds owner s' ∧ s'.threads i = s.threads i ∧
      owner s'.shared = some n from hinv.2
  refine Reaches.invariant (P := fun r => Exclusive holds owner r ∧ r.threads i = s.threads i ∧
    owner r.shared = some n) ?_ hrun ⟨h, rfl, h.owned i n hi⟩
  rintro r r' ⟨hex, hthread, hown⟩ ⟨j, hj⟩
  have hkind := hlock _ _ _ _ hj
  have hne : j ≠ i := by
    rintro rfl
    rw [hthread, hwait _ hown] at hj
    cases hj
  -- every other thread has no ticket, so it can neither release nor abandon
  have hnil : holds (r.threads j) = [] := by
    by_contra hnot
    refine hne (hex.unique j i hnot ?_)
    rw [hthread]
    exact List.ne_nil_of_mem hi
  refine ⟨hex.set j hkind, ?_, ?_⟩
  · rw [State.set_threads_of_ne _ hne.symm, hthread]
  · cases hkind with
    | stay howner _ => exact howner.trans hown
    | acquire m hfree _ _ =>
      rw [hown] at hfree
      cases hfree
    | release m _ hholds =>
      rw [hnil] at hholds
      cases hholds
    | abandon m _ hholds =>
      rw [hnil] at hholds
      cases hholds

end

/-! ### A thread by itself -/

/-- By its own steps alone the thread comes to a place where `P` holds. -/
def Leads (step : τ → σ → Option (τ × σ)) (P : τ → σ → Prop) (t : τ) (sh : σ) : Prop :=
  ∃ t' sh', Relation.ReflTransGen (fun a b : τ × σ => step a.1 a.2 = some b) (t, sh) (t', sh') ∧
    P t' sh'

section

variable {P : τ → σ → Prop} {t t' : τ} {sh sh' : σ}

theorem leads_of_holds (h : P t sh) : Leads step P t sh := ⟨t, sh, .refl, h⟩

/-- A thread is deterministic. -/
theorem leads_iff_of_step (hP : ¬ P t sh) (h : step t sh = some (t', sh')) :
    Leads step P t sh ↔ Leads step P t' sh' := by
  constructor
  · rintro ⟨u, ush, hrun, hu⟩
    rcases Relation.ReflTransGen.cases_head hrun with heq | ⟨⟨v, vsh⟩, hstep, hrest⟩
    · cases heq
      exact absurd hu hP
    · cases h.symm.trans hstep
      exact ⟨u, ush, hrest, hu⟩
  · rintro ⟨u, ush, hrun, hu⟩
    exact ⟨u, ush, .head h hrun, hu⟩

/-- A thread without a step stays where it is. -/
theorem not_leads_of_stuck (hP : ¬ P t sh) (h : step t sh = none) : ¬ Leads step P t sh := by
  rintro ⟨u, ush, hrun, hu⟩
  rcases Relation.ReflTransGen.cases_head hrun with heq | ⟨⟨v, vsh⟩, hstep, -⟩
  · cases heq
    exact hP hu
  · cases h.symm.trans hstep

theorem leads_iff_of_stuck (h : step t sh = none) : Leads step P t sh ↔ P t sh :=
  ⟨fun hleads => by_contra fun hP => not_leads_of_stuck hP h hleads, leads_of_holds⟩

theorem Leads.of_restrict {C : τ → σ → Bool} (h : Leads (restrict step C) P t sh) :
    Leads step P t sh := by
  obtain ⟨t', sh', hrun, hP⟩ := h
  refine ⟨t', sh', ?_, hP⟩
  clear hP
  generalize (t', sh') = b at hrun
  induction hrun with
  | refl => exact .refl
  | tail _ hlast ih => exact ih.tail (restrict_eq_some_iff.mp hlast).2

/-- The steps of one thread are steps of all of them. -/
theorem Leads.reaches {s : State ι τ σ} {i : ι} (h : Leads step P (s.threads i) s.shared) :
    ∃ t' sh', Reaches step s (s.set i t' sh') ∧ P t' sh' := by
  obtain ⟨t', sh', hrun, hP⟩ := h
  refine ⟨t', sh', ?_, hP⟩
  have hall : ∀ b : τ × σ, Relation.ReflTransGen (fun a b : τ × σ => step a.1 a.2 = some b)
      (s.threads i, s.shared) b → Reaches step s (s.set i b.1 b.2) := by
    intro b hb
    induction hb with
    | refl => simpa [State.set] using Relation.ReflTransGen.refl
    | @tail c d _ hlast ih =>
      have hset : (s.set i c.1 c.2).set i d.1 d.2 = s.set i d.1 d.2 := by simp [State.set]
      rw [← hset]
      exact ih.tail (.thread i (by simpa using hlast))
  exact hall (t', sh') hrun

end

end Interleaving
