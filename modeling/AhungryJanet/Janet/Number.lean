import AhungryJanet.Janet.Value
import Mathlib.Data.List.Basic

/-!
# Numbers in Janet source

`janet_scan_number`: which texts are numbers, and the mantissa, base and exponent of one that is.
The double that is nearest to these is computed by `convert`, which is a parameter.

## Main results

* `scanNumber_eq_none` — a text with a slash in it is not a number
* `decimal_numeral` — the text of a natural number has its value
-/

namespace AhungryJanet

/-- `digit_lookup`. -/
def digitLookup (c : UInt8) : ℕ :=
  if 48 ≤ c ∧ c ≤ 57 then c.toNat - 48
  else if 65 ≤ c ∧ c ≤ 90 then c.toNat - 55
  else if 97 ≤ c ∧ c ≤ 122 then c.toNat - 87
  else 255

/-- What has been read of a number. -/
structure Mantissa where
  mant : ℕ
  ex : ℤ
  seenpoint : Bool
  seenadigit : Bool

/-- Skip leading zeros. -/
def skipZeros : Mantissa → Bytes → Option (Mantissa × Bytes)
  | s, [] => some (s, [])
  | s, c :: t =>
    if c = 46 then
      if s.seenpoint then none else skipZeros { s with seenpoint := true } t
    else if c = 48 then
      skipZeros { s with ex := if s.seenpoint then s.ex - 1 else s.ex, seenadigit := true } t
    else some (s, c :: t)

/-- Parse significant digits. Returns the text of the exponent, if one is found. -/
def scanDigits (base : ℕ) : Mantissa → Bytes → Option (Mantissa × Option Bytes)
  | s, [] => some (s, none)
  | s, c :: t =>
    if c = 46 then
      if s.seenpoint then none else scanDigits base { s with seenpoint := true } t
    else if c = 38 ∨ (base = 10 ∧ (c = 69 ∨ c = 101)) then some (s, some t)
    else if c = 95 then
      if s.seenadigit then scanDigits base s t else none
    else if 127 < c ∨ base ≤ digitLookup c then none
    else
      scanDigits base
        { s with
          mant := s.mant * base + digitLookup c
          ex := if s.seenpoint then s.ex - 1 else s.ex
          seenadigit := true } t

/-- The digits of an exponent. A large one is not accumulated any further. -/
def scanExponentDigits (base : ℕ) : (ee : ℕ) → Bytes → Option ℕ
  | ee, [] => some ee
  | ee, c :: t =>
    if 127 < c ∨ base ≤ digitLookup c then none
    else scanExponentDigits base (if ee < 53687091 then base * ee + digitLookup c else ee) t

/-- Get sign. -/
def skipSign (t : Bytes) : Bytes := if t.head? = some 45 ∨ t.head? = some 43 then t.tail else t

/-- Read exponent. -/
def scanExponent (base : ℕ) (t : Bytes) : Option ℤ :=
  if skipSign t = [] then none
  else (scanExponentDigits base 0 ((skipSign t).dropWhile (· = 48))).map fun ee : ℕ =>
    if t.head? = some 45 then -(ee : ℤ) else ee

/-- Check for leading `0x` or `digit digit r`. -/
def scanBase : Bytes → Option (ℕ × Bytes)
  | 48 :: 120 :: t => some (16, t)
  | c :: 114 :: t =>
    if 48 ≤ c ∧ c ≤ 57 then some (if c = 48 then 10 else c.toNat - 48, t)
    else some (10, c :: 114 :: t)
  | c :: d :: 114 :: t =>
    if (48 ≤ c ∧ c ≤ 57) ∧ (48 ≤ d ∧ d ≤ 57) then
      let base := 10 * (c.toNat - 48) + (d.toNat - 48)
      if base < 2 ∨ 36 < base then none else some (base, t)
    else some (10, c :: d :: 114 :: t)
  | t => some (10, t)

/-- `janet_scan_number`, with the conversion to a double as a parameter. -/
def scanNumber (convert : (neg : Bool) → (mant base : ℕ) → (ex : ℤ) → UInt64) (str : Bytes) :
    Option UInt64 := do
  if 53687091 < str.length then none
  let neg := str.head? = some 45
  let (base, str) ← scanBase (skipSign str)
  let (s, str) ← skipZeros ⟨0, 0, false, false⟩ str
  let (s, exponent) ← scanDigits base s str
  if ¬ s.seenadigit then none
  match exponent with
  | none => return convert neg s.mant base s.ex
  | some t =>
    let ee ← scanExponent base t
    return convert neg s.mant base (s.ex + ee)

/-! ### A slash is in no number -/

theorem skipZeros_slash {s s' : Mantissa} {t t' : Bytes} (h : skipZeros s t = some (s', t'))
    (ht : 47 ∈ t) : 47 ∈ t' := by
  fun_induction skipZeros s t with
  | case1 => simp at ht
  | case2 => cases h
  | case3 s t hpoint ih => exact ih h (by simpa using ht)
  | case4 s t hdot ih => exact ih h (by simpa using ht)
  | case5 =>
    cases h
    exact ht

theorem le_digitLookup_slash {base : ℕ} (hbase : base ≤ 36) : base ≤ digitLookup 47 :=
  hbase.trans (by decide)

/-- The digits end before a slash: with an exponent, or not at all. -/
theorem scanDigits_slash {base : ℕ} (hbase : base ≤ 36) {s s' : Mantissa} {t : Bytes}
    {t' : Option Bytes} (h : scanDigits base s t = some (s', t')) (ht : 47 ∈ t) :
    ∃ u, t' = some u ∧ 47 ∈ u := by
  induction t generalizing s with
  | nil => simp at ht
  | cons c t ih =>
    rw [scanDigits] at h
    by_cases hslash : c = 47
    · subst hslash
      simp [le_digitLookup_slash hbase] at h
    · have htail : 47 ∈ t := by
        rcases List.mem_cons.mp ht with heq | htail
        · exact absurd heq.symm hslash
        · exact htail
      split_ifs at h
      case pos hexp =>
        cases h
        exact ⟨t, rfl, htail⟩
      all_goals exact ih h htail

theorem scanExponentDigits_slash {base : ℕ} (hbase : base ≤ 36) (ee : ℕ) {t : Bytes} (ht : 47 ∈ t) :
    scanExponentDigits base ee t = none := by
  induction t generalizing ee with
  | nil => simp at ht
  | cons c t ih =>
    rw [scanExponentDigits]
    rcases List.mem_cons.mp ht with rfl | htail
    · rw [if_pos (.inr (le_digitLookup_slash hbase))]
    · split
      case isTrue => rfl
      case isFalse => exact ih _ htail

/-- A sign is no slash. -/
theorem skipSign_slash {t : Bytes} (ht : 47 ∈ t) : 47 ∈ skipSign t := by
  rw [skipSign]
  split
  case isTrue hsign =>
    cases t with
    | nil => simp at ht
    | cons c t =>
      rcases List.mem_cons.mp ht with rfl | htail
      · simp at hsign
      · exact htail
  case isFalse => exact ht

theorem scanExponent_slash {base : ℕ} (hbase : base ≤ 36) {t : Bytes} (ht : 47 ∈ t) :
    scanExponent base t = none := by
  have hdrop : ∀ u : Bytes, 47 ∈ u → 47 ∈ u.dropWhile (· = 48) := by
    intro u hu
    rw [← List.takeWhile_append_dropWhile (p := (decide <| · = 48)) (l := u)] at hu
    rcases List.mem_append.mp hu with hzero | hrest
    · have := List.mem_takeWhile_imp hzero
      contradiction
    · exact hrest
  rw [scanExponent]
  split
  case isTrue => rfl
  case isFalse =>
    rw [scanExponentDigits_slash hbase 0 (hdrop _ (skipSign_slash ht)), Option.map_none]

theorem scanBase_slash {t t' : Bytes} {base : ℕ} (h : scanBase t = some (base, t')) (ht : 47 ∈ t) :
    base ≤ 36 ∧ 47 ∈ t' := by
  rw [scanBase.eq_def] at h
  split at h
  case h_1 t =>
    cases h
    exact ⟨by decide, by simpa using ht⟩
  case h_2 _ c t =>
    split at h
    case isTrue hdigit =>
      cases h
      have hc : c ≠ 47 := by
        rintro rfl
        exact absurd hdigit.1 (by decide)
      have hle : c.toNat ≤ 57 := by simpa using UInt8.le_iff_toNat_le.mp hdigit.2
      refine ⟨by split <;> omega, ?_⟩
      simpa [hc.symm] using ht
    case isFalse =>
      cases h
      exact ⟨by decide, ht⟩
  case h_3 _ c d t _ _ =>
    split at h
    case isTrue hdigit =>
      have hc : c ≠ 47 := by
        rintro rfl
        exact absurd hdigit.1.1 (by decide)
      have hd : d ≠ 47 := by
        rintro rfl
        exact absurd hdigit.2.1 (by decide)
      simp only at h
      split at h
      case isTrue => cases h
      case isFalse hbase =>
        cases h
        exact ⟨by omega, by simpa [hc.symm, hd.symm] using ht⟩
    case isFalse =>
      cases h
      exact ⟨by decide, ht⟩
  case h_4 =>
    cases h
    exact ⟨by decide, ht⟩

/-- **A text with a slash in it is not a number.** -/
theorem scanNumber_eq_none (convert : Bool → ℕ → ℕ → ℤ → UInt64) {str : Bytes} (h : 47 ∈ str) :
    scanNumber convert str = none := by
  rw [scanNumber]
  split
  case isTrue => rfl
  case isFalse =>
    cases hb : scanBase (skipSign str) with
    | none => rfl
    | some b =>
      obtain ⟨base, t⟩ := b
      obtain ⟨hbase, ht⟩ := scanBase_slash hb (skipSign_slash h)
      cases hz : skipZeros ⟨0, 0, false, false⟩ t with
      | none => simp [hz]
      | some z =>
        obtain ⟨s, t⟩ := z
        have ht := skipZeros_slash hz ht
        cases hd : scanDigits base s t with
        | none => simp [hz, hd]
        | some d =>
          obtain ⟨s, u⟩ := d
          obtain ⟨u, rfl, hu⟩ := scanDigits_slash hbase hd ht
          simp [hz, hd, scanExponent_slash hbase hu]

/-! ### Numerals -/

/-- The text of a natural number. -/
def numeral (n : ℕ) : Bytes := (Nat.toDigits 10 n).map fun c => UInt8.ofNat c.toNat

theorem isdigit_iff {c : UInt8} : isdigit c ↔ 48 ≤ c ∧ c ≤ 57 := by simp [isdigit]

private theorem toNat_of_mem_toDigits {c : Char} {n : ℕ} (hc : c ∈ Nat.toDigits 10 n) :
    48 ≤ c.toNat ∧ (UInt8.ofNat c.toNat).toNat = c.toNat ∧ c.toNat ≤ 57 := by
  have hdigit := Char.isDigit_iff_toNat.mp
    (Nat.isDigit_of_mem_toDigits (by decide) (by decide) hc)
  change 48 ≤ c.toNat ∧ c.toNat ≤ 57 at hdigit
  rw [UInt8.toNat_ofNat']
  omega

theorem isdigit_of_mem_numeral {n : ℕ} {b : UInt8} (hb : b ∈ numeral n) : isdigit b := by
  obtain ⟨c, hc, rfl⟩ := List.mem_map.mp hb
  obtain ⟨h48, hc, h57⟩ := toNat_of_mem_toDigits hc
  rw [isdigit_iff, UInt8.le_iff_toNat_le, UInt8.le_iff_toNat_le, hc]
  exact ⟨h48, h57⟩

theorem numeral_ne_nil (n : ℕ) : numeral n ≠ [] := by
  simp [numeral]

theorem decimal_numeral (n : ℕ) : decimal (numeral n) = n := by
  have hfold := Nat.ofDigitChars_ten_toDigits (n := n)
  rw [Nat.ofDigitChars_eq_foldl] at hfold
  rw [decimal, numeral, List.foldl_map]
  refine (List.foldl_ext _ _ 0 fun n c hc => ?_).trans hfold
  rw [(toNat_of_mem_toDigits hc).2.1, Nat.mul_comm]
  rfl

end AhungryJanet
