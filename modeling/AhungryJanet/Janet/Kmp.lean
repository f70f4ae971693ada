import AhungryJanet.Library.Search
import AhungryJanet.Janet.Value

/-!
# The text search of the Janet core

`struct kmp_state` and the three functions on it, `kmp_init`, `kmp_seti` and `kmp_next`. Every
string function below (`string/split`, `string/replace`) runs on these loops.

## Termination

The C loops are `while` loops. Here each carries a fuel that its caller computes: `kmpBack` at
most `j` rounds, since a failure link is shorter than the prefix it belongs to, and `kmpNextLoop`
at most `2 * (textlen - i) + j + 1`, the usual potential of this search. The specifications say
that the fuel is enough, so no result below depends on it.

## Main results

* `kmpInit_lookup` — the table holds the longest proper borders
* `kmpNext_spec` — the search finds the first occurrence from `i` on, or there is none
-/

namespace AhungryJanet

open Search

/-- `struct kmp_state`. -/
structure KmpState where
  i : ℕ
  j : ℕ
  lookup : List ℕ
  text : Bytes
  pat : Bytes

/-- `while (j && pat[j] != pat[i]) j = lookup[j - 1];` -/
def kmpBack (pat : Bytes) (lookup : List ℕ) (i : ℕ) : (fuel : ℕ) → (j : ℕ) → ℕ
  | 0, j => j
  | fuel + 1, j =>
    if j ≠ 0 ∧ pat[j]? ≠ pat[i]? then kmpBack pat lookup i fuel (lookup.getD (j - 1) 0) else j

/-- `for (i = 1, j = 0; i < patlen; i++)`, from the `i`-th round on. -/
def kmpInitLoop (pat : Bytes) : (fuel i j : ℕ) → (lookup : List ℕ) → List ℕ
  | 0, _, _, lookup => lookup
  | fuel + 1, i, j, lookup =>
    if i < pat.length then
      let j := kmpBack pat lookup i j j
      let j := if pat[j]? = pat[i]? then j + 1 else j
      kmpInitLoop pat fuel (i + 1) j (lookup.set i j)
    else lookup

/-- `kmp_init`. -/
def kmpInit (text pat : Bytes) : Call KmpState :=
  if pat.length = 0 then .error .emptyPattern
  else
    .ok
      { i := 0
        j := 0
        lookup := kmpInitLoop pat pat.length 1 0 (List.replicate pat.length 0)
        text := text
        pat := pat }

/-- `kmp_seti`. -/
def kmpSeti (s : KmpState) (i : ℕ) : KmpState := { s with i := i, j := 0 }

/-- The loop of `kmp_next`. A result of `-1` is `none`. -/
def kmpNextLoop (s : KmpState) : (fuel i j : ℕ) → Option (ℕ × KmpState)
  | 0, _, _ => none
  | fuel + 1, i, j =>
    if i < s.text.length then
      if s.text[i]? = s.pat[j]? then
        if j = s.pat.length - 1 then some (i - j, { s with i := i + 1, j := s.lookup.getD j 0 })
        else kmpNextLoop s fuel (i + 1) (j + 1)
      else if 0 < j then kmpNextLoop s fuel i (s.lookup.getD (j - 1) 0)
      else kmpNextLoop s fuel (i + 1) j
    else none

/-- `kmp_next`. -/
def kmpNext (s : KmpState) : Option (ℕ × KmpState) :=
  kmpNextLoop s (2 * (s.text.length - s.i) + s.j + 1) s.i s.j

/-! ### The failure table -/

/-- The entries below `n` are the longest proper borders. -/
def IsTable (pat : Bytes) (lookup : List ℕ) (n : ℕ) : Prop :=
  ∀ q < n, IsLongestBorder pat (q + 1) (lookup.getD q 0)

/-- What the fallback loop looks for in the first `i` letters: the longest border that the
letter `pat[i]` extends. -/
private def Extends (pat : Bytes) (i b : ℕ) : Prop := IsBorder pat i b ∧ pat[b]? = pat[i]?

private theorem kmpBack_spec {pat : Bytes} {lookup : List ℕ} {i : ℕ}
    (ht : IsTable pat lookup i) :
    ∀ {fuel j : ℕ}, j ≤ fuel → IsBorder pat i j → (∀ b, Extends pat i b → b ≤ j) →
      IsBorder pat i (kmpBack pat lookup i fuel j) ∧
      (∀ b, Extends pat i b → b ≤ kmpBack pat lookup i fuel j) ∧
      (kmpBack pat lookup i fuel j = 0 ∨ pat[kmpBack pat lookup i fuel j]? = pat[i]?) := by
  intro fuel
  induction fuel with
  | zero =>
    intro j hj hb hmax
    have hj0 : j = 0 := by omega
    exact ⟨hb, hmax, Or.inl hj0⟩
  | succ fuel ih =>
    intro j hj hb hmax
    simp only [kmpBack]
    split
    case isFalse h => exact ⟨hb, hmax, by tauto⟩
    case isTrue h =>
      obtain ⟨hj0, hne⟩ := h
      have hlong := ht (j - 1) (by have := hb.1; omega)
      rw [show j - 1 + 1 = j by omega] at hlong
      have hlt : lookup.getD (j - 1) 0 < j := hlong.1.1
      refine ih (by omega) (hb.trans hlong.1) fun b hext => ?_
      -- a border extended by `pat[i]` is not `j` itself, so it is a border of `j`
      have hbj : b ≠ j := by
        rintro rfl
        exact hne hext.2
      have hle := hmax b hext
      exact hlong.2 b (hb.of_lt hext.1 (by omega))

private theorem kmpInitLoop_spec {pat : Bytes} :
    ∀ {fuel i j : ℕ} {lookup : List ℕ}, 0 < i → i ≤ pat.length → pat.length ≤ i + fuel →
      lookup.length = pat.length → IsTable pat lookup i → IsLongestBorder pat i j →
      IsTable pat (kmpInitLoop pat fuel i j lookup) pat.length := by
  intro fuel
  induction fuel with
  | zero =>
    intro i j lookup hi hle hfuel hlen ht hj
    rwa [show pat.length = i by omega]
  | succ fuel ih =>
    intro i j lookup hi hle hfuel hlen ht hj
    simp only [kmpInitLoop]
    split
    case isFalse h => rwa [show pat.length = i by omega]
    case isTrue h =>
      obtain ⟨hb, hmax, hstop⟩ := kmpBack_spec ht le_rfl hj.1 fun b hext => hj.2 b hext.1
      generalize kmpBack pat lookup i j j = j' at hb hmax hstop
      have hnext : IsLongestBorder pat (i + 1) (if pat[j']? = pat[i]? then j' + 1 else j') := by
        split
        case isTrue heq =>
          refine ⟨hb.extend heq, fun b hbi => ?_⟩
          cases b with
          | zero => omega
          | succ b => have := hmax b hbi.shrink; omega
        case isFalse hne =>
          have hj0 : j' = 0 := hstop.resolve_right hne
          subst hj0
          refine ⟨isBorder_zero (by omega), fun b hbi => ?_⟩
          cases b with
          | zero => omega
          | succ b =>
            have hext : Extends pat i b := hbi.shrink
            have hb0 : b = 0 := Nat.le_zero.mp (hmax b hext)
            subst hb0
            exact absurd hext.2 hne
      refine ih (by omega) (by omega) (by omega) (by simpa using hlen) ?_ hnext
      intro q hq
      rcases Nat.lt_or_ge q i with hqi | hqi
      · rw [List.getD_eq_getElem?_getD, List.getElem?_set_ne (by omega),
          ← List.getD_eq_getElem?_getD]
        exact ht q hqi
      · have hqi : q = i := by omega
        subst hqi
        rwa [List.getD_eq_getElem?_getD, List.getElem?_set_self (by omega), Option.getD_some]

/-- `kmp_init` tabulates the longest proper borders of the pattern. -/
theorem kmpInit_lookup {text pat : Bytes} {s : KmpState} (h : kmpInit text pat = .ok s) :
    s.text = text ∧ s.pat = pat ∧ pat ≠ [] ∧ IsTable pat s.lookup pat.length := by
  unfold kmpInit at h
  split at h
  · cases h
  · cases h
    refine ⟨rfl, rfl, List.ne_nil_of_length_pos (by omega), ?_⟩
    refine kmpInitLoop_spec (by omega) (by omega) (by omega) (by simp) ?_ ?_
    · intro q hq
      have hq0 : q = 0 := by omega
      subst hq0
      rw [show (List.replicate pat.length 0).getD 0 0 = 0 by cases pat <;> simp]
      exact ⟨isBorder_zero (by omega), fun b hb => by have := hb.1; omega⟩
    · exact ⟨isBorder_zero (by omega), fun b hb => by have := hb.1; omega⟩

/-! ### The search -/

/-- The first occurrence at or behind `i`. -/
def IsFirstFrom (pat text : Bytes) (i p : ℕ) : Prop :=
  i ≤ p ∧ OccursAt pat text p ∧ ∀ q, i ≤ q → q < p → ¬ OccursAt pat text q

/-- The loop invariant of `kmp_next`: the first `j` letters of the pattern stand right before
`i`, and no occurrence starts earlier. -/
private structure Scanned (s : KmpState) (start i j : ℕ) : Prop where
  lt : j < s.pat.length
  le : start + j ≤ i
  matched : ∀ k < j, s.text[i - j + k]? = s.pat[k]?
  none : ∀ q, start ≤ q → q < i - j → ¬ OccursAt s.pat s.text q

/-- Falling back to the longest border skips no occurrence. -/
private theorem Scanned.fallBack {s : KmpState} (ht : IsTable s.pat s.lookup s.pat.length)
    {start i j : ℕ} (h : Scanned s start i j) (hne : s.text[i]? ≠ s.pat[j]?) (hj : 0 < j) :
    Scanned s start i (s.lookup.getD (j - 1) 0) ∧ s.lookup.getD (j - 1) 0 < j := by
  have hlong := ht (j - 1) (by have := h.lt; omega)
  rw [show j - 1 + 1 = j by omega] at hlong
  generalize s.lookup.getD (j - 1) 0 = b at hlong
  obtain ⟨⟨hbj, hborder⟩, hmax⟩ := hlong
  have hlt := h.lt
  have hle := h.le
  refine ⟨⟨by omega, by omega, fun k hk => ?_, fun q hq hqi hocc => ?_⟩, hbj⟩
  · rw [← hborder k hk, ← h.matched (j - b + k) (by omega)]
    congr 1
    omega
  · rcases Nat.lt_trichotomy q (i - j) with hlt | heq | hgt
    · exact h.none q hq hlt hocc
    · -- at `i - j` the letter `pat[j]` is the one that failed
      have := hocc j hlt
      rw [show q + j = i by omega] at this
      exact hne this
    · -- an occurrence between would be a longer border
      have hlong := hmax (i - q) ⟨by omega, fun k hk => ?_⟩
      · omega
      · rw [← hocc k (by omega), ← h.matched (j - (i - q) + k) (by omega)]
        congr 1
        omega

private theorem Scanned.advance {s : KmpState} {start i j : ℕ} (h : Scanned s start i j)
    (heq : s.text[i]? = s.pat[j]?) (hj : j ≠ s.pat.length - 1) :
    Scanned s start (i + 1) (j + 1) := by
  have hlt := h.lt
  have hle := h.le
  refine ⟨by omega, by omega, fun k hk => ?_, fun q hq hqi => h.none q hq (by omega)⟩
  rcases Nat.lt_or_ge k j with hkj | hkj
  · rw [← h.matched k hkj]
    congr 1
    omega
  · have hkj : k = j := by omega
    subst hkj
    rw [← heq]
    congr 1
    omega

private theorem Scanned.skip {s : KmpState} {start i : ℕ} (h : Scanned s start i 0)
    (hne : s.text[i]? ≠ s.pat[0]?) : Scanned s start (i + 1) 0 := by
  have hlt := h.lt
  have hle := h.le
  refine ⟨hlt, by omega, fun k hk => absurd hk (Nat.not_lt_zero _), fun q hq hqi hocc => ?_⟩
  rcases Nat.lt_or_ge q i with hlt' | hge
  · exact h.none q hq (by omega) hocc
  · have hqi : q = i := by omega
    subst hqi
    exact hne (by simpa using hocc 0 hlt)

private theorem kmpNextLoop_spec {s : KmpState} (ht : IsTable s.pat s.lookup s.pat.length)
    {start : ℕ} :
    ∀ {fuel i j : ℕ}, 2 * (s.text.length - i) + j < fuel → Scanned s start i j →
      (∃ p t, kmpNextLoop s fuel i j = some (p, t) ∧ IsFirstFrom s.pat s.text start p) ∨
      (kmpNextLoop s fuel i j = none ∧ ∀ q, start ≤ q → ¬ OccursAt s.pat s.text q) := by
  intro fuel
  induction fuel with
  | zero => intro i j hfuel; omega
  | succ fuel ih =>
    intro i j hfuel h
    have hlt := h.lt
    have hle := h.le
    simp only [kmpNextLoop]
    split
    case isFalse hend =>
      refine Or.inr ⟨rfl, fun q hq hocc => ?_⟩
      have hpat : s.pat ≠ [] := List.ne_nil_of_length_pos (by omega)
      have := hocc.le_length hpat
      exact h.none q hq (by omega) hocc
    case isTrue hin =>
      split
      case isTrue heq =>
        split
        case isTrue hlast =>
          refine Or.inl ⟨_, _, rfl, by omega, fun k hk => ?_, h.none⟩
          rcases Nat.lt_or_ge k j with hkj | hkj
          · exact h.matched k hkj
          · have hkj : k = j := by omega
            subst hkj
            rw [← heq]
            congr 1
            omega
        case isFalse hlast => exact ih (by omega) (h.advance heq hlast)
      case isFalse hne =>
        split
        case isTrue hj =>
          obtain ⟨hback, hshort⟩ := h.fallBack ht hne hj
          exact ih (by omega) hback
        case isFalse hj =>
          have hj : j = 0 := by omega
          subst hj
          exact ih (by omega) (h.skip hne)

/-- A search from `i` either stops at the first occurrence from there on, or there is none. -/
theorem kmpNext_spec {text pat : Bytes} {s : KmpState} (h : kmpInit text pat = .ok s) (i : ℕ) :
    (∃ p t, kmpNext (kmpSeti s i) = some (p, t) ∧ IsFirstFrom pat text i p) ∨
      (kmpNext (kmpSeti s i) = none ∧ ∀ q, i ≤ q → ¬ OccursAt pat text q) := by
  obtain ⟨rfl, rfl, hpat, ht⟩ := kmpInit_lookup h
  have hpos := List.length_pos_iff.mpr hpat
  refine kmpNextLoop_spec (s := kmpSeti s i) ht (by simp [kmpSeti])
    ⟨hpos, by simp [kmpSeti], ?_, ?_⟩
  · intro k hk
    exact absurd hk (Nat.not_lt_zero _)
  · intro q hq hqi
    simp only [kmpSeti] at hqi
    omega

end AhungryJanet
