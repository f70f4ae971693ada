import AhungryJanet.Janet.Value
import Mathlib.Data.Nat.Log
import Mathlib.Tactic.NormNum
import Mathlib.Tactic.Ring

/-!
# Numbers in marshalled data

A number is the bits of its double. One that is a 32 bit integer is marshalled as an integer, in
one, two or five bytes, and any other as its eight bytes.

What comes back is the same number to `janet_equals`: the only bits that are not kept are those of a
negative zero, which is marshalled as the integer zero, and of a NaN.

## Main results

* `wrapInteger_of_checkintrange` — the double of an integer has the bits it was read from
* `readint_pushint` — reading an integer that was pushed
* `realOf_realBytes` — reading the bytes of a double
-/

namespace AhungryJanet.Marshal

/-! ### Doubles -/

/-- The bits of a double but for its sign. -/
def magnitude (x : UInt64) : ℕ := x.toNat % 2 ^ 63

def exponent (x : UInt64) : ℕ := x.toNat / 2 ^ 52 % 2 ^ 11

def fraction (x : UInt64) : ℕ := x.toNat % 2 ^ 52

def isnan (x : UInt64) : Bool := exponent x = 2047 ∧ fraction x ≠ 0

/-- `==` on doubles. -/
def doubleEq (x y : UInt64) : Bool :=
  !isnan x && !isnan y && (x == y || magnitude x == 0 && magnitude y == 0)

/-- What is an `int32_t`. -/
def IsInt32 (i : ℤ) : Prop := -2147483648 ≤ i ∧ i ≤ 2147483647

instance (i : ℤ) : Decidable (IsInt32 i) := inferInstanceAs (Decidable (_ ∧ _))

/-- `(int32_t) x` for a double of which this much is known: at least `1`, and an integer. It is the
fraction with a leading one, moved by the exponent. -/
def shifted (x : UInt64) : ℤ :=
  if 2 ^ 63 ≤ x.toNat then -((2 ^ 52 + fraction x) / 2 ^ (1075 - exponent x) : ℕ)
  else ((2 ^ 52 + fraction x) / 2 ^ (1075 - exponent x) : ℕ)

/-- `janet_checkintrange`, with the integer. Below `1` there is no integer but zero, and with an
exponent above that of `2 ^ 31` all are too large. -/
def checkintrange (x : UInt64) : Option ℤ :=
  if magnitude x = 0 then some 0
  else if 1023 ≤ exponent x ∧ exponent x ≤ 1054 ∧
      (2 ^ 52 + fraction x) % 2 ^ (1075 - exponent x) = 0 ∧ IsInt32 (shifted x) then
    some (shifted x)
  else none

/-- `janet_wrap_integer`: the double of an integer. -/
def wrapInteger (i : ℤ) : UInt64 :=
  if i = 0 then 0
  else
    let e := i.natAbs.log2
    UInt64.ofNat ((if i < 0 then 2 ^ 63 else 0) + (1023 + e) * 2 ^ 52 +
      (i.natAbs * 2 ^ (52 - e) - 2 ^ 52))

/-- `janet_wrap_number_safe`. -/
def wrapNumberSafe (x : UInt64) : UInt64 := if isnan x then 0x7FF8000000000000 else x

/-- The same number: equal, or both not a number. -/
def SameNumber (x y : UInt64) : Prop := doubleEq x y ∨ isnan x ∧ isnan y

theorem doubleEq_iff {x y : UInt64} : doubleEq x y = true ↔
    isnan x = false ∧ isnan y = false ∧ (x = y ∨ magnitude x = 0 ∧ magnitude y = 0) := by
  simp only [doubleEq, Bool.and_eq_true, Bool.or_eq_true, Bool.not_eq_true', beq_iff_eq, and_assoc]

theorem sameNumber_self (x : UInt64) : SameNumber x x := by
  cases hx : isnan x with
  | true => exact .inr ⟨hx, hx⟩
  | false => exact .inl (doubleEq_iff.mpr ⟨hx, hx, .inl rfl⟩)

theorem SameNumber.symm {x y : UInt64} (h : SameNumber x y) : SameNumber y x := by
  refine h.imp (fun h => ?_) And.symm
  obtain ⟨hx, hy, heq⟩ := doubleEq_iff.mp h
  exact doubleEq_iff.mpr ⟨hy, hx, heq.imp Eq.symm And.symm⟩

theorem SameNumber.trans {x y z : UInt64} (h : SameNumber x y) (h' : SameNumber y z) :
    SameNumber x z := by
  rcases h with h | ⟨hx, hy⟩
  · obtain ⟨hx, hy, heq⟩ := doubleEq_iff.mp h
    rcases h' with h' | ⟨hy', -⟩
    · obtain ⟨-, hz, heq'⟩ := doubleEq_iff.mp h'
      refine .inl (doubleEq_iff.mpr ⟨hx, hz, ?_⟩)
      rcases heq with rfl | ⟨hx0, hy0⟩
      · exact heq'
      · rcases heq' with rfl | ⟨-, hz0⟩
        · exact .inr ⟨hx0, hy0⟩
        · exact .inr ⟨hx0, hz0⟩
    · exact absurd hy' (by simp [hy])
  · rcases h' with h' | ⟨-, hz⟩
    · exact absurd hy (by simp [(doubleEq_iff.mp h').1])
    · exact .inr ⟨hx, hz⟩

theorem sameNumber_wrapNumberSafe (x : UInt64) : SameNumber x (wrapNumberSafe x) := by
  rw [wrapNumberSafe]
  split
  case isTrue h => exact .inr ⟨h, by decide⟩
  case isFalse => exact sameNumber_self x

theorem isnan_eq_false_of_magnitude {x : UInt64} (h : magnitude x = 0) : isnan x = false := by
  have hfraction : fraction x = 0 := by
    rw [magnitude] at h
    rw [fraction]
    omega
  simp [isnan, hfraction]

/-- The number of a leading one and a fraction, moved to the right without loss, has the fraction
and the exponent that they came from. -/
theorem log2_of_shifted {m e n : ℕ} (hm : m < 2 ^ 52) (he : e ≤ 52)
    (h : n * 2 ^ (52 - e) = 2 ^ 52 + m) : n.log2 = e := by
  have hpow : 2 ^ e * 2 ^ (52 - e) = 2 ^ 52 := by rw [← pow_add, Nat.add_sub_cancel' he]
  have hn : n ≠ 0 := by
    intro hn
    rw [hn, Nat.zero_mul] at h
    omega
  refine (Nat.log2_eq_iff hn).mpr ⟨?_, ?_⟩
  · refine Nat.le_of_mul_le_mul_right ?_ (Nat.two_pow_pos (52 - e))
    omega
  · refine Nat.lt_of_mul_lt_mul_right (a := 2 ^ (52 - e)) ?_
    rw [h, pow_succ 2 e, Nat.mul_right_comm, hpow]
    omega

/-- The double of an integer has the bits that the integer was read from. -/
theorem wrapInteger_of_checkintrange {x : UInt64} {i : ℤ} (h : checkintrange x = some i)
    (hx : magnitude x ≠ 0) : wrapInteger i = x := by
  rw [checkintrange, if_neg hx] at h
  split at h
  case isFalse => cases h
  case isTrue hrange =>
    obtain ⟨hlow, hhigh, hdvd, -⟩ := hrange
    have hfraction : fraction x < 2 ^ 52 := Nat.mod_lt _ (Nat.two_pow_pos 52)
    obtain ⟨e, he⟩ := Nat.exists_eq_add_of_le hlow
    have hshift : 1075 - exponent x = 52 - e := by omega
    rw [shifted, hshift] at h
    rw [hshift] at hdvd
    generalize hn : (2 ^ 52 + fraction x) / 2 ^ (52 - e) = n at h
    have hmul : n * 2 ^ (52 - e) = 2 ^ 52 + fraction x := by
      rw [← hn]
      exact Nat.div_mul_cancel (Nat.dvd_of_mod_eq_zero hdvd)
    have hpos : n ≠ 0 := by
      intro hn0
      rw [hn0, Nat.zero_mul] at hmul
      omega
    have hlog := log2_of_shifted hfraction (by omega) hmul
    have hbits : x.toNat = (if 2 ^ 63 ≤ x.toNat then 2 ^ 63 else 0) + (1023 + e) * 2 ^ 52 +
        fraction x := by
      have hlt := x.toNat_lt
      rw [← he, exponent, fraction]
      split <;> omega
    have hi : i.natAbs = n ∧ i ≠ 0 ∧ (i < 0 ↔ 2 ^ 63 ≤ x.toNat) := by
      split at h
      case isTrue hsign =>
        cases h
        omega
      case isFalse hsign =>
        cases h
        omega
    obtain ⟨habs, hi0, hsign⟩ := hi
    rw [wrapInteger, if_neg hi0]
    simp only [habs, hlog, hmul, hsign, Nat.add_sub_cancel_left]
    rw [← hbits, UInt64.ofNat_toNat]

/-- What is read back for a number that is marshalled as an integer. -/
theorem sameNumber_wrapInteger {x : UInt64} {i : ℤ} (h : checkintrange x = some i) :
    SameNumber x (wrapInteger i) := by
  by_cases hx : magnitude x = 0
  · rw [checkintrange, if_pos hx] at h
    cases h
    exact .inl (doubleEq_iff.mpr ⟨isnan_eq_false_of_magnitude hx, by decide, .inr ⟨hx, by decide⟩⟩)
  · rw [wrapInteger_of_checkintrange h hx]
    exact sameNumber_self x

theorem isInt32_of_checkintrange {x : UInt64} {i : ℤ} (h : checkintrange x = some i) :
    IsInt32 i := by
  rw [checkintrange] at h
  split at h
  case isTrue =>
    cases h
    decide
  case isFalse =>
    split at h
    case isTrue hrange =>
      cases h
      exact hrange.2.2.2
    case isFalse => cases h

/-! ### Reading -/

/-- How reading marshalled data ends but with a value. An index is where in the data. -/
inductive Fault where
  /-- `stack overflow`. -/
  | stackOverflow
  /-- `unexpected end of source`. -/
  | endOfSource
  /-- `expected integer, got byte %x at index %d`. -/
  | expectedInteger (byte : UInt8) (index : ℕ)
  /-- `expected integer >= 0, got %d`. -/
  | expectedNatural (got : ℤ)
  /-- `invalid reference %d`. -/
  | invalidReference (id : ℕ)
  /-- `expected type %T, got %v`, where it is to be a table. -/
  | expectedTable
  /-- The same, where it is to be a struct. -/
  | expectedStruct
  /-- `unknown byte %x at index %d`. -/
  | unknownByte (byte : UInt8) (index : ℕ)
  /-- Not a panic: something that is not modelled begins with this byte. -/
  | notModelled (byte : UInt8)
  deriving DecidableEq

/-! ### Integers -/

/-- The byte with the lowest eight bits of an integer. -/
def lowByte (x : ℤ) : UInt8 := UInt8.ofNat (x % 256).toNat

/-- `pushint`. -/
def pushint (x : ℤ) : Bytes :=
  if 0 ≤ x ∧ x < 128 then [lowByte x]
  else if x ≤ 8191 ∧ -8192 ≤ x then [lowByte (x / 256 % 64 + 128), lowByte x]
  else [205, lowByte (x / 2 ^ 24), lowByte (x / 2 ^ 16), lowByte (x / 2 ^ 8), lowByte x]

/-- The integer of two bytes, of which the first has two bits for itself: 14 bits, sign extended. -/
def int14Of (a b : UInt8) : ℤ :=
  let uret : ℤ := a.toNat % 64 * 256 + b.toNat
  if 2 ^ 13 ≤ uret then uret - 2 ^ 14 else uret

/-- The integer of four bytes. -/
def int32Of (a b c d : UInt8) : ℤ :=
  let ui : ℤ := a.toNat * 2 ^ 24 + b.toNat * 2 ^ 16 + c.toNat * 2 ^ 8 + d.toNat
  if 2 ^ 31 ≤ ui then ui - 2 ^ 32 else ui

/-- `readint`, in a source of `size` bytes of which `data` are left. -/
def readint (size : ℕ) : Bytes → Except Fault (ℤ × Bytes)
  | [] => .error .endOfSource
  | lead :: data =>
    if lead < 128 then .ok (lead.toNat, data)
    else if lead < 192 then
      match data with
      | b :: data => .ok (int14Of lead b, data)
      | _ => .error .endOfSource
    else if lead = 205 then
      match data with
      | a :: b :: c :: d :: data => .ok (int32Of a b c d, data)
      | _ => .error .endOfSource
    else .error (.expectedInteger lead (size - data.length - 1))

/-- `readnat`. -/
def readnat (size : ℕ) (data : Bytes) : Except Fault (ℕ × Bytes) := do
  let (ret, data) ← readint size data
  if ret < 0 then .error (.expectedNatural ret) else return (ret.toNat, data)

theorem toNat_lowByte (x : ℤ) : ((lowByte x).toNat : ℤ) = x % 256 := by
  rw [lowByte, UInt8.toNat_ofNat']
  omega

theorem int14Of_lowByte {x : ℤ} (h : x ≤ 8191 ∧ -8192 ≤ x) :
    int14Of (lowByte (x / 256 % 64 + 128)) (lowByte x) = x := by
  simp only [int14Of, toNat_lowByte]
  split <;> omega

theorem int32Of_lowByte {x : ℤ} (h : IsInt32 x) :
    int32Of (lowByte (x / 2 ^ 24)) (lowByte (x / 2 ^ 16)) (lowByte (x / 2 ^ 8)) (lowByte x) =
      x := by
  rw [IsInt32] at h
  simp only [int32Of, toNat_lowByte]
  split <;> omega

theorem readint_one (size : ℕ) {lead : UInt8} (h : lead < 128) (rest : Bytes) :
    readint size (lead :: rest) = .ok ((lead.toNat : ℤ), rest) := by
  unfold readint
  exact if_pos h

theorem readint_two (size : ℕ) {lead : UInt8} (h : ¬ lead < 128) (h' : lead < 192) (b : UInt8)
    (rest : Bytes) : readint size (lead :: b :: rest) = .ok (int14Of lead b, rest) := by
  rw [readint, if_neg h, if_pos h']

theorem readint_five (size : ℕ) {lead : UInt8} (h : lead = 205) (a b c d : UInt8) (rest : Bytes) :
    readint size (lead :: a :: b :: c :: d :: rest) = .ok (int32Of a b c d, rest) := by
  have hlead : ¬ lead < 128 ∧ ¬ lead < 192 := by
    rw [h]
    decide
  rw [readint, if_neg hlead.1, if_neg hlead.2, if_pos h]

/-- Reading an integer that was pushed. -/
theorem readint_pushint {x : ℤ} (h : IsInt32 x) (size : ℕ) (rest : Bytes) :
    readint size (pushint x ++ rest) = .ok (x, rest) := by
  have hlow := toNat_lowByte x
  rw [pushint]
  split
  case isTrue hx =>
    have hlead : lowByte x < 128 := by
      rw [UInt8.lt_iff_toNat_lt, show (128 : UInt8).toNat = 128 from rfl]
      omega
    rw [List.singleton_append, readint_one size hlead, hlow, Int.emod_eq_of_lt hx.1 (by omega)]
  case isFalse =>
    split
    case isTrue hx =>
      have hfirst := toNat_lowByte (x / 256 % 64 + 128)
      have hlead : ¬ lowByte (x / 256 % 64 + 128) < 128 := by
        rw [UInt8.lt_iff_toNat_lt, show (128 : UInt8).toNat = 128 from rfl]
        omega
      have hlead' : lowByte (x / 256 % 64 + 128) < 192 := by
        rw [UInt8.lt_iff_toNat_lt, show (192 : UInt8).toNat = 192 from rfl]
        omega
      rw [List.cons_append, List.singleton_append, readint_two size hlead hlead',
        int14Of_lowByte hx]
    case isFalse =>
      rw [List.cons_append, List.cons_append, List.cons_append, List.cons_append,
        List.singleton_append, readint_five size rfl, int32Of_lowByte h]

theorem readnat_pushint {n : ℕ} (h : n ≤ int32Max) (size : ℕ) (rest : Bytes) :
    readnat size (pushint n ++ rest) = .ok (n, rest) := by
  have hn : IsInt32 n := by
    rw [int32Max] at h
    exact ⟨by omega, by omega⟩
  simp [readnat, readint_pushint hn, bind, Except.bind, pure, Except.pure]

theorem length_pushint_pos (x : ℤ) : 0 < (pushint x).length := by
  rw [pushint]
  split
  · simp
  · split <;> simp

/-! ### The bytes of a double -/

/-- The eight bytes of a double, the lowest first. -/
def realBytes (x : UInt64) : Bytes := (List.range 8).map fun i => UInt8.ofNat (x.toNat / 256 ^ i)

/-- The double of eight bytes. -/
def realOf (bytes : Bytes) : UInt64 :=
  UInt64.ofNat (bytes.foldr (fun b n => b.toNat + 256 * n) 0)

theorem length_realBytes (x : UInt64) : (realBytes x).length = 8 := by simp [realBytes]

theorem realOf_realBytes (x : UInt64) : realOf (realBytes x) = x := by
  have hlt := x.toNat_lt
  have hsum : (realBytes x).foldr (fun b n => b.toNat + 256 * n) 0 = x.toNat := by
    simp only [realBytes, List.range_eq_range', List.range', List.map_cons, List.map_nil,
      List.foldr_cons, List.foldr_nil, UInt8.toNat_ofNat']
    omega
  rw [realOf, hsum, UInt64.ofNat_toNat]

end AhungryJanet.Marshal
