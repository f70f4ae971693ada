import Mathlib.Data.List.Basic
import Mathlib.Logic.Function.Basic

/-!
# Deferred acceptance

Keys that each go through slots in an order of their own, and slots that each prefer some keys to
others. A key that comes to an empty slot stays there; one that comes to a slot that is held takes
it if the slot prefers it, and the key that held it goes on from there, otherwise it goes on itself.

Each key ends at a slot that is no later in its order than in any other settled state. So all orders
in which the keys may come lead to one state, although settled states are many.

## Main results

* `Comes.settled` — a key that comes to a settled state leaves a settled one
* `Built.early` — no settled state has a key at an earlier slot
* `Built.unique` — the order of the keys is irrelevant
-/

namespace DeferredAcceptance

/-- The slots a key goes through, and which of two keys a slot prefers. -/
structure Market (κ S : Type) where
  choice : κ → ℕ → S
  Prefers : S → κ → κ → Prop
  asymm : ∀ s a b, Prefers s a b → ¬ Prefers s b a
  trans : ∀ s a b c, Prefers s a b → Prefers s b c → Prefers s a c

section

variable {κ S : Type} (M : Market κ S)

/-- The slots before the `n`-th one hold keys that they prefer to `k`. -/
def Refused (holds : S → Option κ) (k : κ) (n : ℕ) : Prop :=
  ∀ i < n, ∃ o, holds (M.choice k i) = some o ∧ M.Prefers (M.choice k i) o k

/-- The key is at its `n`-th slot. -/
structure Placed (holds : S → Option κ) (k : κ) (n : ℕ) : Prop where
  held : holds (M.choice k n) = some k
  refused : Refused M holds k n

/-- Every key was refused on the way to where it is. -/
def Settled (holds : S → Option κ) : Prop :=
  ∀ s k, holds s = some k → ∃ n, M.choice k n = s ∧ Refused M holds k n

/-- A key comes to its `n`-th slot. -/
inductive Comes [DecidableEq S] : (S → Option κ) → κ → ℕ → (S → Option κ) → Prop
  | stay {holds : S → Option κ} {k : κ} {n : ℕ} (hempty : holds (M.choice k n) = none) :
    Comes holds k n (Function.update holds (M.choice k n) (some k))
  | goOn {holds holds' : S → Option κ} {k o : κ} {n : ℕ} (hheld : holds (M.choice k n) = some o)
    (hprefers : M.Prefers (M.choice k n) o k) (hrest : Comes holds k (n + 1) holds') :
    Comes holds k n holds'
  | take {holds holds' : S → Option κ} {k o : κ} {n j : ℕ}
    (hheld : holds (M.choice k n) = some o) (hprefers : M.Prefers (M.choice k n) k o)
    (hslot : M.choice o j = M.choice k n) (hrefused : Refused M holds o j)
    (hrest : Comes (Function.update holds (M.choice k n) (some k)) o (j + 1) holds') :
    Comes holds k n holds'

/-- Keys that are not there yet come one after another. -/
inductive Built [DecidableEq S] : List κ → (S → Option κ) → Prop
  | nil : Built [] fun _ => none
  | cons {l : List κ} {holds holds' : S → Option κ} {k : κ} (hbuilt : Built l holds)
    (hnew : ∀ s, holds s ≠ some k) (hcomes : Comes M holds k 0 holds') : Built (k :: l) holds'

variable {M} {holds holds' μ : S → Option κ} {k : κ} {n : ℕ}

theorem Market.irrefl (M : Market κ S) (s : S) (k : κ) : ¬ M.Prefers s k k :=
  fun h => M.asymm s k k h h

theorem prefers_holder {s : S} {o : κ} (hheld : holds s = some o) (hprefers : M.Prefers s k o) :
    ∀ o', holds s = some o' → M.Prefers s k o' := by
  intro o' ho'
  obtain rfl : o' = o := Option.some.inj (ho'.symm.trans hheld)
  exact hprefers

/-! ### Settled states -/

theorem Settled.placed {s : S} (h : Settled M holds) (hs : holds s = some k) :
    ∃ n, M.choice k n = s ∧ Placed M holds k n := by
  obtain ⟨n, rfl, hrefused⟩ := h s k hs
  exact ⟨n, rfl, hs, hrefused⟩

/-- A key is at the first of its slots that holds it. -/
theorem Refused.not_held {i : ℕ} (h : Refused M holds k n) (hi : i < n) :
    holds (M.choice k i) ≠ some k := by
  intro hheld
  obtain ⟨o, ho, hprefers⟩ := h i hi
  obtain rfl : o = k := Option.some.inj (ho.symm.trans hheld)
  exact M.irrefl _ _ hprefers

theorem Placed.rank_unique {n' : ℕ} (h : Placed M holds k n) (h' : Placed M holds k n') :
    n = n' := by
  rcases Nat.lt_trichotomy n n' with hlt | heq | hgt
  · exact absurd h.held (h'.refused.not_held hlt)
  · exact heq
  · exact absurd h'.held (h.refused.not_held hgt)

/-- No key is at two slots. -/
theorem Settled.slot_unique {s s' : S} (h : Settled M holds) (hs : holds s = some k)
    (hs' : holds s' = some k) : s = s' := by
  obtain ⟨n, rfl, hn⟩ := h.placed hs
  obtain ⟨n', rfl, hn'⟩ := h.placed hs'
  rw [hn.rank_unique hn']

theorem Refused.succ {o : κ} (h : Refused M holds k n) (hheld : holds (M.choice k n) = some o)
    (hprefers : M.Prefers (M.choice k n) o k) : Refused M holds k (n + 1) := by
  intro i hi
  rcases Nat.lt_succ_iff_lt_or_eq.mp hi with hlt | rfl
  · exact h i hlt
  · exact ⟨o, hheld, hprefers⟩

variable [DecidableEq S]

/-- A slot that gets a key it prefers, or was empty, refuses whom it has refused. -/
theorem Refused.update {s : S} {a : κ} (h : Refused M holds k n)
    (hbetter : ∀ o, holds s = some o → M.Prefers s a o) :
    Refused M (Function.update holds s (some a)) k n := by
  intro i hi
  obtain ⟨o, ho, hprefers⟩ := h i hi
  by_cases hs : M.choice k i = s
  · subst hs
    exact ⟨a, Function.update_self .., M.trans _ _ _ _ (hbetter o ho) hprefers⟩
  · exact ⟨o, by rwa [Function.update_of_ne hs], hprefers⟩

/-- A key takes a slot that was empty, or prefers it. -/
theorem Settled.update (h : Settled M holds) (hrefused : Refused M holds k n)
    (hbetter : ∀ o, holds (M.choice k n) = some o → M.Prefers (M.choice k n) k o) :
    Settled M (Function.update holds (M.choice k n) (some k)) := by
  intro s a ha
  by_cases hs : s = M.choice k n
  · subst hs
    rw [Function.update_self] at ha
    cases ha
    exact ⟨n, rfl, hrefused.update hbetter⟩
  · rw [Function.update_of_ne hs] at ha
    obtain ⟨j, hj, hrefused'⟩ := h s a ha
    exact ⟨j, hj, hrefused'.update hbetter⟩

theorem exists_update_iff {s : S} {a : κ} (hempty : holds s = none) :
    (∃ s', Function.update holds s (some a) s' = some k) ↔ k = a ∨ ∃ s', holds s' = some k := by
  constructor
  · rintro ⟨s', hs'⟩
    by_cases hss : s' = s
    · subst hss
      rw [Function.update_self] at hs'
      exact .inl (Option.some.inj hs').symm
    · rw [Function.update_of_ne hss] at hs'
      exact .inr ⟨s', hs'⟩
  · rintro (rfl | ⟨s', hs'⟩)
    · exact ⟨s, Function.update_self ..⟩
    · refine ⟨s', ?_⟩
      rwa [Function.update_of_ne]
      rintro rfl
      rw [hempty] at hs'
      cases hs'

/-- When a key has taken the slot of another one, the others are where they were. -/
theorem exists_update_iff_of_held {s : S} {o a : κ} (hheld : holds s = some o) :
    (a = o ∨ ∃ s', Function.update holds s (some k) s' = some a) ↔
      a = k ∨ ∃ s', holds s' = some a := by
  constructor
  · rintro (rfl | ⟨s', hs'⟩)
    · exact .inr ⟨s, hheld⟩
    · by_cases hss : s' = s
      · subst hss
        rw [Function.update_self] at hs'
        exact .inl (Option.some.inj hs').symm
      · rw [Function.update_of_ne hss] at hs'
        exact .inr ⟨s', hs'⟩
  · rintro (rfl | ⟨s', hs'⟩)
    · exact .inr ⟨s, Function.update_self ..⟩
    · by_cases hss : s' = s
      · subst hss
        exact .inl (Option.some.inj (hs'.symm.trans hheld))
      · exact .inr ⟨s', by rwa [Function.update_of_ne hss]⟩

/-- A key that has lost its slot was refused there too. -/
theorem Refused.taken {o : κ} {j : ℕ} (h : Refused M holds o j)
    (hslot : M.choice o j = M.choice k n) (hheld : holds (M.choice k n) = some o)
    (hprefers : M.Prefers (M.choice k n) k o) :
    Refused M (Function.update holds (M.choice k n) (some k)) o (j + 1) := by
  refine (h.update (prefers_holder hheld hprefers)).succ (o := k) ?_ ?_
  · rw [hslot, Function.update_self]
  · rwa [hslot]

theorem Settled.not_held_of_taken {s : S} {o : κ} (h : Settled M holds) (hheld : holds s = some o)
    (hne : k ≠ o) : ∀ s', Function.update holds s (some k) s' ≠ some o := by
  intro s' hs'
  by_cases hss : s' = s
  · subst hss
    rw [Function.update_self] at hs'
    exact hne (Option.some.inj hs')
  · rw [Function.update_of_ne hss] at hs'
    exact hss (h.slot_unique hs' hheld)

/-- Where a key has come to, everything is settled, and all keys are there. -/
theorem Comes.settled (h : Comes M holds k n holds') (hset : Settled M holds)
    (hrefused : Refused M holds k n) (hnew : ∀ s, holds s ≠ some k) :
    Settled M holds' ∧ ∀ a, (∃ s, holds' s = some a) ↔ a = k ∨ ∃ s, holds s = some a := by
  induction h with
  | stay hempty =>
    refine ⟨hset.update hrefused fun o ho => ?_, fun a => exists_update_iff hempty⟩
    rw [hempty] at ho
    cases ho
  | goOn hheld hprefers _ ih => exact ih hset (hrefused.succ hheld hprefers) hnew
  | @take holds holds' k o n j hheld hprefers hslot ho _ ih =>
    have hbetter := prefers_holder hheld hprefers
    have hne : k ≠ o := by
      rintro rfl
      exact M.irrefl _ _ hprefers
    obtain ⟨hsettled, hall⟩ := ih (hset.update hrefused hbetter)
      (ho.taken hslot hheld hprefers) (hset.not_held_of_taken hheld hne)
    exact ⟨hsettled, fun a => (hall a).trans (exists_update_iff_of_held hheld)⟩

/-! ### No earlier slot -/

/-- Every key of `holds` is at a slot that is no later than the one where `μ` has it. -/
def Early (M : Market κ S) (holds μ : S → Option κ) : Prop :=
  ∀ k n n', Placed M holds k n → Placed M μ k n' → n ≤ n'

omit [DecidableEq S] in
/-- A slot does not refuse the key that a settled state has there: the key that it prefers would
have gone there. -/
theorem not_prefers_of_placed {o : κ} {j n' : ℕ} (hμ : Settled M μ) (hμo : ∃ s, μ s = some o)
    (hslot : M.choice o j = M.choice k n) (hearly : ∀ j', Placed M μ o j' → j ≤ j')
    (hprefers : M.Prefers (M.choice k n) o k) (hk : Placed M μ k n') : n' ≠ n := by
  rintro rfl
  obtain ⟨s, hs⟩ := hμo
  obtain ⟨j', rfl, hj'⟩ := hμ.placed hs
  rcases Nat.lt_or_eq_of_le (hearly j' hj') with hlt | rfl
  · obtain ⟨a, ha, hprefers'⟩ := hj'.refused j hlt
    rw [hslot] at ha hprefers'
    obtain rfl : a = k := Option.some.inj (ha.symm.trans hk.held)
    exact M.asymm _ _ _ hprefers hprefers'
  · have hsame := hj'.held
    rw [hslot, hk.held] at hsame
    cases hsame
    exact M.irrefl _ _ hprefers

/-- A key that is not late takes a slot that was empty, or prefers it. -/
theorem Early.update (h : Early M holds μ) (hset : Settled M holds) (hrefused : Refused M holds k n)
    (hbetter : ∀ o, holds (M.choice k n) = some o → M.Prefers (M.choice k n) k o)
    (hk : ∀ n', Placed M μ k n' → n ≤ n') :
    Early M (Function.update holds (M.choice k n) (some k)) μ := by
  intro a i n' ha hμa
  by_cases hs : M.choice a i = M.choice k n
  · have hheld := ha.held
    rw [hs, Function.update_self] at hheld
    cases hheld
    have hplaced : Placed M (Function.update holds (M.choice k n) (some k)) k n :=
      ⟨Function.update_self .., hrefused.update hbetter⟩
    rw [ha.rank_unique hplaced]
    exact hk n' hμa
  · have hheld := ha.held
    rw [Function.update_of_ne hs] at hheld
    obtain ⟨j, hj, hplaced⟩ := hset.placed hheld
    have hplaced' : Placed M (Function.update holds (M.choice k n) (some k)) a j := by
      refine ⟨?_, hplaced.refused.update hbetter⟩
      rw [hj]
      exact ha.held
    rw [ha.rank_unique hplaced']
    exact h a j n' hplaced hμa

/-- A key that comes to a state where no key is too late stays early itself, and makes none late. -/
theorem Comes.early (h : Comes M holds k n holds') (hset : Settled M holds)
    (hrefused : Refused M holds k n) (hnew : ∀ s, holds s ≠ some k) (hμ : Settled M μ)
    (hμall : ∀ a, (a = k ∨ ∃ s, holds s = some a) → ∃ s, μ s = some a) (hearly : Early M holds μ)
    (hk : ∀ n', Placed M μ k n' → n ≤ n') : Early M holds' μ := by
  induction h with
  | stay hempty =>
    refine hearly.update hset hrefused (fun o ho => ?_) hk
    rw [hempty] at ho
    cases ho
  | @goOn holds holds' k o n hheld hprefers _ ih =>
    refine ih hset (hrefused.succ hheld hprefers) hnew hμall hearly fun n' hn' => ?_
    obtain ⟨j, hslot, hj⟩ := hset.placed hheld
    have hne := not_prefers_of_placed hμ (hμall o (.inr ⟨_, hheld⟩)) hslot
      (fun j' hj' => hearly o j j' hj hj') hprefers hn'
    have hle := hk n' hn'
    omega
  | @take holds holds' k o n j hheld hprefers hslot ho _ ih =>
    have hbetter := prefers_holder hheld hprefers
    have hne : k ≠ o := by
      rintro rfl
      exact M.irrefl _ _ hprefers
    refine ih (hset.update hrefused hbetter) (ho.taken hslot hheld hprefers)
      (hset.not_held_of_taken hheld hne)
      (fun a ha => hμall a ((exists_update_iff_of_held hheld).mp ha))
      (hearly.update hset hrefused hbetter hk) fun n' hn' => ?_
    have hle : j ≤ n' := hearly o j n' ⟨by rwa [hslot], ho⟩ hn'
    have hnot := not_prefers_of_placed hμ (hμall k (.inl rfl)) hslot.symm hk
      (by rwa [hslot]) hn'
    omega

omit [DecidableEq S] in
/-- Two settled states with the same keys, neither of which has one later than the other. -/
theorem Early.eq (h : Settled M holds) (h' : Settled M holds')
    (hkeys : ∀ a, (∃ s, holds s = some a) ↔ ∃ s, holds' s = some a) (hearly : Early M holds holds')
    (hearly' : Early M holds' holds) : holds = holds' := by
  have hsame : ∀ s a, holds s = some a → holds' s = some a := by
    intro s a ha
    obtain ⟨n, rfl, hplaced⟩ := h.placed ha
    obtain ⟨s', hs'⟩ := (hkeys a).mp ⟨_, ha⟩
    obtain ⟨n', rfl, hplaced'⟩ := h'.placed hs'
    rw [Nat.le_antisymm (hearly a n n' hplaced hplaced') (hearly' a n' n hplaced' hplaced)]
    exact hs'
  have hsame' : ∀ s a, holds' s = some a → holds s = some a := by
    intro s a ha
    obtain ⟨s', hs'⟩ := (hkeys a).mpr ⟨s, ha⟩
    rwa [h'.slot_unique ha (hsame s' a hs')]
  funext s
  exact Option.ext fun a => ⟨hsame s a, hsame' s a⟩

/-! ### One key after another -/

variable {l l' : List κ}

theorem Built.settled (h : Built M l holds) :
    Settled M holds ∧ ∀ a, (∃ s, holds s = some a) ↔ a ∈ l := by
  induction h with
  | nil =>
    refine ⟨fun s k hs => (nomatch hs), fun a => ⟨?_, fun ha => (nomatch ha)⟩⟩
    rintro ⟨s, hs⟩
    cases hs
  | cons _ hnew hcomes ih =>
    obtain ⟨hset, hall⟩ := hcomes.settled ih.1 (fun i hi => absurd hi (Nat.not_lt_zero i)) hnew
    exact ⟨hset, fun a => by rw [hall, ih.2, List.mem_cons]⟩

/-- No settled state with these keys has one of them at an earlier slot. -/
theorem Built.early (h : Built M l holds) (hμ : Settled M μ) (hall : ∀ a ∈ l, ∃ s, μ s = some a) :
    Early M holds μ := by
  induction h with
  | nil =>
    intro k n n' hk _
    cases hk.held
  | @cons l holds holds' k hbuilt hnew hcomes ih =>
    have hset := hbuilt.settled
    refine hcomes.early hset.1 (fun i hi => absurd hi (Nat.not_lt_zero i)) hnew hμ ?_
      (ih fun a ha => hall a (List.mem_cons_of_mem _ ha)) fun n' _ => Nat.zero_le n'
    rintro a (rfl | hmem)
    · exact hall a (List.mem_cons_self ..)
    · exact hall a (List.mem_cons_of_mem _ ((hset.2 a).mp hmem))

/-- The order in which the keys come is irrelevant. -/
theorem Built.unique (h : Built M l holds) (h' : Built M l' holds') (hl : ∀ a, a ∈ l ↔ a ∈ l') :
    holds = holds' := by
  obtain ⟨hset, hall⟩ := h.settled
  obtain ⟨hset', hall'⟩ := h'.settled
  refine Early.eq hset hset' (fun a => by rw [hall, hall', hl])
    (h.early hset' fun a ha => ?_) (h'.early hset fun a ha => ?_)
  · exact (hall' a).mpr ((hl a).mp ha)
  · exact (hall a).mpr ((hl a).mpr ha)

end

end DeferredAcceptance
