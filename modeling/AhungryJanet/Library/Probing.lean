import Mathlib.Data.List.Basic
import Mathlib.Data.Nat.Bitwise
import Mathlib.Data.Nat.Find
import Mathlib.Data.Nat.Size
import Mathlib.Logic.Function.Basic

/-!
# Linear probing

The slots of a table in the order in which they are looked at from a first one, around the end, and
what makes a key be found that way: no slot on the way to it is unused.

A slot that is used need not have a key. So a key may be taken out without moving the others.

## Main results

* `find?_probe_of_key`, `find?_probe_of_unused` — where looking for a key ends
* `Reachable.insert` — a key that is put there can be found, and so can the others
* `smeared_add_one` — how a size is rounded up to a power of two
-/

namespace Probing

/-! ### The order -/

/-- The slots below `cap` from `start` on, and then those before it. -/
def probe (cap start : ℕ) : List ℕ := List.range' start (cap - start) ++ List.range start

/-- How many slots come before `s`. -/
def distance (cap start s : ℕ) : ℕ := (s + cap - start) % cap

theorem mod_of_lt_two_mul {a cap : ℕ} (h : a < 2 * cap) :
    a % cap = if a < cap then a else a - cap := by
  split
  case isTrue ha => exact Nat.mod_eq_of_lt ha
  case isFalse ha => rw [Nat.mod_eq_sub_mod (by omega), Nat.mod_eq_of_lt (by omega)]

theorem distance_lt {cap start s : ℕ} (h : start < cap) : distance cap start s < cap :=
  Nat.mod_lt _ (by omega)

/-- A slot is that far from the first one. -/
theorem add_distance {cap start s : ℕ} (hstart : start < cap) (hs : s < cap) :
    (start + distance cap start s) % cap = s := by
  rw [distance, mod_of_lt_two_mul (a := s + cap - start) (by omega)]
  split
  all_goals
    rw [mod_of_lt_two_mul (by omega)]
    split <;> omega

theorem distance_add {cap start n : ℕ} (hstart : start < cap) (hn : n < cap) :
    distance cap start ((start + n) % cap) = n := by
  rw [mod_of_lt_two_mul (a := start + n) (by omega), distance]
  split
  all_goals
    rw [mod_of_lt_two_mul (by omega)]
    split <;> omega

theorem probe_eq_map {cap start : ℕ} (h : start < cap) :
    probe cap start = (List.range cap).map fun n => (start + n) % cap := by
  apply List.ext_getElem
  · simp [probe]
    omega
  · intro n h₁ h₂
    have hn : n < cap := by simpa using h₂
    rw [List.getElem_map, List.getElem_range, mod_of_lt_two_mul (by omega)]
    by_cases hlow : n < cap - start
    · rw [if_pos (by omega)]
      simp [probe, hlow]
    · rw [if_neg (by omega)]
      simp only [probe, List.getElem_append, List.length_range', hlow, dite_false,
        List.getElem_range]
      omega

/-- Looking for something ends at the first slot that has it. -/
theorem find?_probe {cap start s : ℕ} {p : ℕ → Bool} (hstart : start < cap) (hs : s < cap)
    (hp : p s = true) (hbefore : ∀ n < distance cap start s, p ((start + n) % cap) = false) :
    (probe cap start).find? p = some s := by
  rw [probe_eq_map hstart, List.find?_map]
  have hfind : (List.range cap).find? (p ∘ fun n => (start + n) % cap) =
      some (distance cap start s) := by
    rw [List.find?_range_eq_some]
    refine ⟨?_, List.mem_range.mpr (distance_lt hstart), fun n hn => ?_⟩
    · rw [Function.comp_apply, add_distance hstart hs, hp]
    · rw [Function.comp_apply, hbefore n hn]
      rfl
  rw [hfind, Option.map_some, add_distance hstart hs]

/-- If there is something to be found, there is a first slot that has it. -/
theorem exists_first {cap start : ℕ} {p : ℕ → Bool} (hstart : start < cap)
    (h : ∃ s < cap, p s = true) :
    ∃ s < cap, p s = true ∧ (∀ n < distance cap start s, p ((start + n) % cap) = false) ∧
      (probe cap start).find? p = some s := by
  have hex : ∃ n, n < cap ∧ p ((start + n) % cap) = true := by
    obtain ⟨s, hs, hp⟩ := h
    exact ⟨distance cap start s, distance_lt hstart, by rwa [add_distance hstart hs]⟩
  classical
  obtain ⟨hn, hp⟩ := Nat.find_spec hex
  have hbefore : ∀ n < Nat.find hex, p ((start + n) % cap) = false := by
    intro n hlt
    have hmin := Nat.find_min hex hlt
    have hncap : n < cap := by omega
    simpa [hncap] using hmin
  have hdist := distance_add hstart hn
  refine ⟨(start + Nat.find hex) % cap, Nat.mod_lt _ (by omega), hp, ?_, ?_⟩
  · rwa [hdist]
  · exact find?_probe hstart (Nat.mod_lt _ (by omega)) hp (by rwa [hdist])

/-! ### Keys -/

section

variable {κ : Type} {cap : ℕ} {home : κ → ℕ} {key : ℕ → Option κ} {used : ℕ → Prop}

/-- Nothing on the way to a key is unused. -/
def Reachable (cap : ℕ) (home : κ → ℕ) (key : ℕ → Option κ) (used : ℕ → Prop) : Prop :=
  ∀ s k, s < cap → key s = some k → ∀ n < distance cap (home k) s, used ((home k + n) % cap)

variable [DecidableEq κ] [DecidablePred used]

/-- Looking for a key ends at its slot, or at an unused one. -/
def stops (key : ℕ → Option κ) (used : ℕ → Prop) [DecidablePred used] (k : κ) (s : ℕ) : Bool :=
  !decide (used s) || decide (key s = some k)

/-- A key that is there is found. -/
theorem find?_probe_of_key {k : κ} {s : ℕ} (h : Reachable cap home key used)
    (hinj : ∀ s s' k, s < cap → s' < cap → key s = some k → key s' = some k → s = s')
    (hhome : home k < cap) (hs : s < cap) (hk : key s = some k) :
    (probe cap (home k)).find? (stops key used k) = some s := by
  refine find?_probe hhome hs (by simp [stops, hk]) fun n hn => ?_
  have hne : key ((home k + n) % cap) ≠ some k := by
    intro heq
    have hlt : n < cap := hn.trans (distance_lt hhome)
    have hsame := hinj _ s k (Nat.mod_lt _ (by omega)) hs heq hk
    have hdist := distance_add hhome hlt
    rw [hsame] at hdist
    omega
  simp [stops, h s k hs hk n hn, hne]

/-- Looking for a key that is not there ends at an unused slot, if there is one, and every slot
before that is used. -/
theorem find?_probe_of_unused (home : κ → ℕ) (used : ℕ → Prop) [DecidablePred used] {k : κ}
    (hhome : home k < cap) (hno : ∀ s < cap, key s ≠ some k)
    (hfree : ∃ s < cap, ¬ used s) :
    ∃ s < cap, ¬ used s ∧ (∀ n < distance cap (home k) s, used ((home k + n) % cap)) ∧
      (probe cap (home k)).find? (stops key used k) = some s := by
  obtain ⟨s₀, hs₀, hfree₀⟩ := hfree
  obtain ⟨s, hs, hp, hbefore, hfind⟩ := exists_first (p := stops key used k) hhome
    ⟨s₀, hs₀, by simp [stops, hfree₀]⟩
  refine ⟨s, hs, ?_, fun n hn => ?_, hfind⟩
  · simpa [stops, hno s hs] using hp
  · have hn' := hbefore n hn
    simp only [stops, Bool.or_eq_false_iff, Bool.not_eq_false', decide_eq_true_eq] at hn'
    exact hn'.1

omit [DecidableEq κ] [DecidablePred used] in
/-- A key is put into the slot where looking for it has ended. -/
theorem Reachable.insert {k : κ} {s : ℕ} (h : Reachable cap home key used)
    (hway : ∀ n < distance cap (home k) s, used ((home k + n) % cap)) :
    Reachable cap home (Function.update key s (some k)) (fun s' => s' = s ∨ used s') := by
  intro s' k' hs' hk' n hn
  by_cases heq : s' = s
  · subst heq
    rw [Function.update_self] at hk'
    cases hk'
    exact .inr (hway n hn)
  · rw [Function.update_of_ne heq] at hk'
    exact .inr (h s' k' hs' hk' n hn)

end

/-! ### Sizes -/

/-- The bits of `m` are those of `n`, each with the `w` below it. -/
def Smeared (w n m : ℕ) : Prop := ∀ i, m.testBit i = true ↔ ∃ d < w, n.testBit (i + d) = true

theorem smeared_one (n : ℕ) : Smeared 1 n n := fun i =>
  ⟨fun h => ⟨0, Nat.one_pos, h⟩, fun ⟨d, hd, h⟩ => by
    obtain rfl : d = 0 := by omega
    exact h⟩

/-- One step doubles the width. -/
theorem Smeared.double {w n m : ℕ} (h : Smeared w n m) : Smeared (2 * w) n (m ||| m >>> w) := by
  intro i
  rw [Nat.testBit_or, Nat.testBit_shiftRight, Bool.or_eq_true, h, h]
  constructor
  · rintro (⟨d, hd, hbit⟩ | ⟨d, hd, hbit⟩)
    · exact ⟨d, by omega, hbit⟩
    · exact ⟨w + d, by omega, by rwa [← Nat.add_assoc, Nat.add_comm i w]⟩
  · rintro ⟨d, hd, hbit⟩
    by_cases hdw : d < w
    · exact .inl ⟨d, hdw, hbit⟩
    · exact .inr ⟨d - w, by omega, by rwa [show w + i + (d - w) = i + d by omega]⟩

/-- When the width is that of the number, what comes out is one less than a power of two. -/
theorem smeared_add_one {w n m : ℕ} (h : Smeared w n m) (hn : n < 2 ^ w) :
    m + 1 = 2 ^ n.size := by
  have hm : m = 2 ^ n.size - 1 := by
    apply Nat.eq_of_testBit_eq
    intro i
    rw [Nat.testBit_two_pow_sub_one, Bool.eq_iff_iff, h, decide_eq_true_eq]
    constructor
    · rintro ⟨d, -, hbit⟩
      by_contra hsize
      have hlt : n < 2 ^ (i + d) :=
        (Nat.lt_size_self n).trans_le (Nat.pow_le_pow_right (by omega) (by omega))
      rw [Nat.testBit_lt_two_pow hlt] at hbit
      cases hbit
    · intro hi
      have hsize : n.size ≤ w := Nat.size_le.mpr hn
      refine ⟨n.size - 1 - i, by omega, ?_⟩
      rw [show i + (n.size - 1 - i) = n.size - 1 by omega]
      have hpow : 2 ^ (n.size - 1) ≤ n := Nat.lt_size.mp (by omega)
      have hlt := Nat.lt_size_self n
      have hdiv : n / 2 ^ (n.size - 1) = 1 := by
        rw [show n.size = n.size - 1 + 1 by omega, Nat.pow_succ] at hlt
        exact Nat.div_eq_of_lt_le (by omega) (by omega)
      rw [Nat.testBit_eq_decide_div_mod_eq, hdiv]
      rfl
  have hpos := Nat.two_pow_pos n.size
  omega

end Probing
