import AhungryJanet.Json.Decode
import Mathlib.Algebra.GroupWithZero.Nat

/-!
# Characters through JSON

What `json/encode` writes for a text in UTF-8, and what `json/decode` reads there. A text is a list
of characters, that is, of Unicode scalar values.

Every character comes back but some above U+FFFF: of a sequence of four bytes the encoder takes the
last one for the last two groups of six bits, so that group comes back twice.

## Main results

* `encodeChars_utf8` — what is written
* `decodeQuoted_escaped` — what is read
* `echo_eq_self_iff` — which characters come back
* `length_escaped_echo` — how long a text gets
-/

namespace AhungryJanet

/-- A text in UTF-8. -/
def utf8 (s : List Char) : Bytes := s.flatMap String.utf8EncodeChar

/-- What comes back of a character: above U+FFFF, the last six bits stand for the six before them as
well. -/
def echo (c : Char) : Char :=
  if c.toNat < 0x10000 then c else Char.ofNat (c.toNat / 0x1000 * 0x1000 + c.toNat % 0x40 * 0x41)

/-- What the encoder writes for a text if it takes every character for what it is. -/
def escaped (s : List Char) : Bytes := s.flatMap fun c => encodeCodepoint c.toNat

/-! ### Bits -/

theorem shiftLeft_or {a b k : ℕ} (h : b < 2 ^ k) : a <<< k ||| b = a * 2 ^ k + b := by
  rw [← Nat.shiftLeft_add_eq_or_of_lt h, Nat.shiftLeft_eq]

theorem or_shiftLeft {a b k : ℕ} (h : a < 2 ^ k) : a ||| b <<< k = a + b * 2 ^ k := by
  rw [Nat.or_comm, shiftLeft_or h, Nat.add_comm]

/-- `n >> k & mask`. -/
theorem shiftRight_and (n k l : ℕ) : n >>> k &&& (2 ^ l - 1) = n / 2 ^ k % 2 ^ l := by
  rw [Nat.and_two_pow_sub_one_eq_mod, Nat.shiftRight_eq_div_pow]

theorem toNat_lt_of_char (c : Char) : c.toNat < 0xD800 ∨ 0xDFFF < c.toNat ∧ c.toNat < 0x110000 :=
  c.valid

theorem toNat_echo (c : Char) :
    (echo c).toNat =
      if c.toNat < 0x10000 then c.toNat else c.toNat / 0x1000 * 0x1000 + c.toNat % 0x40 * 0x41 := by
  rw [echo]
  split
  case isTrue => rfl
  case isFalse h =>
    have hc := toNat_lt_of_char c
    rw [Char.ofNat, dif_pos (.inr (by omega))]
    rfl

/-- A character comes back if it is not above U+FFFF, or has the same six bits twice at its end. -/
theorem echo_eq_self_iff {c : Char} :
    echo c = c ↔ c.toNat < 0x10000 ∨ c.toNat / 0x40 % 0x40 = c.toNat % 0x40 := by
  rw [← Char.toNat_inj, toNat_echo]
  split
  case isTrue h => simp [h]
  case isFalse h => omega

theorem echo_echo (c : Char) : echo (echo c) = echo c := by
  rw [echo_eq_self_iff, toNat_echo]
  split
  case isTrue h => exact .inl h
  case isFalse h =>
    right
    have hlow : c.toNat % 0x40 < 0x40 := Nat.mod_lt _ (by decide)
    generalize c.toNat % 0x40 = n at *
    generalize c.toNat / 0x1000 = q
    have hdiv : (q * 0x1000 + n * 0x41) / 0x40 = q * 0x40 + n := by omega
    omega

/-! ### Writing -/

theorem isContinuation_ofNat {n : ℕ} (h : n < 0x40) : isContinuation (UInt8.ofNat (n + 0x80)) := by
  have hshift : UInt8.ofNat (n + 0x80) >>> 6 = 2 := by
    rw [← UInt8.toNat_inj, UInt8.toNat_shiftRight, UInt8.toNat_ofNat', Nat.shiftRight_eq_div_pow]
    change (n + 128) % 256 / 64 = 2
    omega
  rw [isContinuation, hshift]
  rfl

/-- The bits under a mask of `k` ones. -/
theorem low_ofNat (n : ℕ) {k : ℕ} (hk : k ≤ 8) : low (UInt8.ofNat n) (2 ^ k - 1) = n % 2 ^ k := by
  rw [low, UInt8.toNat_ofNat', Nat.and_two_pow_sub_one_eq_mod, Nat.mod_mod_of_dvd]
  exact Nat.pow_dvd_pow 2 hk

/-- The bits of a byte below its mark. -/
theorem low_marked {n k b : ℕ} (hk : k ≤ 8) (hb : 2 ^ k ∣ b) (h : n < 2 ^ k) :
    low (UInt8.ofNat (n + b)) (2 ^ k - 1) = n := by
  obtain ⟨c, rfl⟩ := hb
  rw [low_ofNat _ hk, Nat.add_mul_mod_self_left, Nat.mod_eq_of_lt h]

/-- The six bits of a byte that continues a sequence. -/
theorem low_continuation {n : ℕ} (h : n < 0x40) : low (UInt8.ofNat (n + 0x80)) 0x3F = n :=
  low_marked (k := 6) (by decide) (by decide) h

/-- The first byte of a sequence, against the bounds of the encoder. -/
theorem ofNat_lt {n : ℕ} {b : UInt8} (h : n < b.toNat) : UInt8.ofNat n < b := by
  rw [UInt8.lt_iff_toNat_lt, UInt8.toNat_ofNat']
  exact Nat.lt_of_le_of_lt (Nat.mod_le _ _) h

theorem not_ofNat_lt {n : ℕ} {b : UInt8} (hn : n < 256) (h : b.toNat ≤ n) :
    ¬ UInt8.ofNat n < b := by
  rw [UInt8.lt_iff_toNat_lt, UInt8.toNat_ofNat', Nat.mod_eq_of_lt hn]
  exact Nat.not_lt.mpr h

theorem encodeChars_one {n : ℕ} (h : n ≤ 0x7F) (buffer t : Bytes) :
    encodeChars buffer (UInt8.ofNat n :: t) = encodeChars (buffer ++ encodeCodepoint n) t := by
  have h80 : UInt8.ofNat n < 0x80 := ofNat_lt (Nat.lt_succ_of_le h)
  have hn : (UInt8.ofNat n).toNat = n := by
    rw [UInt8.toNat_ofNat']
    omega
  rw [encodeChars.eq_def]
  simp only [h80, if_true, hn]

theorem encodeChars_two {n : ℕ} (hge : ¬ n ≤ 0x7F) (h : n ≤ 0x7FF) (buffer t : Bytes) :
    encodeChars buffer
        (UInt8.ofNat (n / 64 % 0x20 + 0xC0) :: UInt8.ofNat (n % 0x40 + 0x80) :: t) =
      encodeChars (buffer ++ encodeCodepoint n) t := by
  have h80 : ¬ UInt8.ofNat (n / 64 % 0x20 + 0xC0) < 0x80 :=
    not_ofNat_lt (by omega) (show 0x80 ≤ n / 64 % 0x20 + 0xC0 by omega)
  have hE0 : UInt8.ofNat (n / 64 % 0x20 + 0xC0) < 0xE0 :=
    ofNat_lt (show n / 64 % 0x20 + 0xC0 < 0xE0 by omega)
  have hlow : low (UInt8.ofNat (n / 64 % 0x20 + 0xC0)) 0x1F = n / 64 :=
    (low_marked (k := 5) (by decide) (by decide) (Nat.mod_lt _ (by decide))).trans (by omega)
  have hcode : low (UInt8.ofNat (n / 64 % 0x20 + 0xC0)) 0x1F <<< 6 |||
      low (UInt8.ofNat (n % 0x40 + 0x80)) 0x3F = n := by
    rw [hlow, low_continuation (by omega), shiftLeft_or (by omega)]
    omega
  rw [encodeChars.eq_def]
  simp only [h80, hE0, if_true, if_false, isContinuation_ofNat (show n % 0x40 < 0x40 by omega),
    Bool.not_true, Bool.false_eq_true, hcode]

theorem encodeChars_three {n : ℕ} (hge : ¬ n ≤ 0x7FF) (h : n ≤ 0xFFFF) (buffer t : Bytes) :
    encodeChars buffer
        (UInt8.ofNat (n / 4096 % 0x10 + 0xE0) :: UInt8.ofNat (n / 64 % 0x40 + 0x80) ::
          UInt8.ofNat (n % 0x40 + 0x80) :: t) =
      encodeChars (buffer ++ encodeCodepoint n) t := by
  have h80 : ¬ UInt8.ofNat (n / 4096 % 0x10 + 0xE0) < 0x80 :=
    not_ofNat_lt (by omega) (show 0x80 ≤ n / 4096 % 0x10 + 0xE0 by omega)
  have hE0 : ¬ UInt8.ofNat (n / 4096 % 0x10 + 0xE0) < 0xE0 :=
    not_ofNat_lt (by omega) (show 0xE0 ≤ n / 4096 % 0x10 + 0xE0 by omega)
  have hF0 : UInt8.ofNat (n / 4096 % 0x10 + 0xE0) < 0xF0 :=
    ofNat_lt (show n / 4096 % 0x10 + 0xE0 < 0xF0 by omega)
  have hlow : low (UInt8.ofNat (n / 4096 % 0x10 + 0xE0)) 0x0F = n / 4096 :=
    (low_marked (k := 4) (by decide) (by decide) (Nat.mod_lt _ (by decide))).trans (by omega)
  have hcode : low (UInt8.ofNat (n / 4096 % 0x10 + 0xE0)) 0x0F <<< 12 |||
      low (UInt8.ofNat (n / 64 % 0x40 + 0x80)) 0x3F <<< 6 |||
        low (UInt8.ofNat (n % 0x40 + 0x80)) 0x3F = n := by
    rw [hlow, low_continuation (by omega), low_continuation (by omega), Nat.or_assoc,
      shiftLeft_or (show n % 0x40 < 2 ^ 6 by omega), shiftLeft_or (by omega)]
    omega
  rw [encodeChars.eq_def]
  simp only [h80, hE0, hF0, if_true, if_false,
    isContinuation_ofNat (show n / 64 % 0x40 < 0x40 by omega),
    isContinuation_ofNat (show n % 0x40 < 0x40 by omega), Bool.not_true, Bool.false_eq_true, hcode]

/-- The last byte of four is taken twice. -/
theorem encodeChars_four {n : ℕ} (hge : ¬ n ≤ 0xFFFF) (h : n < 0x110000) (buffer t : Bytes) :
    encodeChars buffer
        (UInt8.ofNat (n / 262144 % 0x08 + 0xF0) :: UInt8.ofNat (n / 4096 % 0x40 + 0x80) ::
          UInt8.ofNat (n / 64 % 0x40 + 0x80) :: UInt8.ofNat (n % 0x40 + 0x80) :: t) =
      encodeChars (buffer ++ encodeCodepoint (n / 0x1000 * 0x1000 + n % 0x40 * 0x41)) t := by
  have h80 : ¬ UInt8.ofNat (n / 262144 % 0x08 + 0xF0) < 0x80 :=
    not_ofNat_lt (by omega) (show 0x80 ≤ n / 262144 % 0x08 + 0xF0 by omega)
  have hE0 : ¬ UInt8.ofNat (n / 262144 % 0x08 + 0xF0) < 0xE0 :=
    not_ofNat_lt (by omega) (show 0xE0 ≤ n / 262144 % 0x08 + 0xF0 by omega)
  have hF0 : ¬ UInt8.ofNat (n / 262144 % 0x08 + 0xF0) < 0xF0 :=
    not_ofNat_lt (by omega) (show 0xF0 ≤ n / 262144 % 0x08 + 0xF0 by omega)
  have hF8 : UInt8.ofNat (n / 262144 % 0x08 + 0xF0) < 0xF8 :=
    ofNat_lt (show n / 262144 % 0x08 + 0xF0 < 0xF8 by omega)
  have hlow : low (UInt8.ofNat (n / 262144 % 0x08 + 0xF0)) 0x07 = n / 262144 :=
    (low_marked (k := 3) (by decide) (by decide) (Nat.mod_lt _ (by decide))).trans (by omega)
  have hcode : low (UInt8.ofNat (n / 262144 % 0x08 + 0xF0)) 0x07 <<< 18 |||
      low (UInt8.ofNat (n / 4096 % 0x40 + 0x80)) 0x3F <<< 12 |||
        low (UInt8.ofNat (n % 0x40 + 0x80)) 0x3F <<< 6 |||
          low (UInt8.ofNat (n % 0x40 + 0x80)) 0x3F = n / 0x1000 * 0x1000 + n % 0x40 * 0x41 := by
    rw [hlow, low_continuation (by omega), low_continuation (by omega), Nat.or_assoc,
      shiftLeft_or (show n % 0x40 < 2 ^ 6 by omega), Nat.or_assoc,
      shiftLeft_or (show n % 0x40 * 2 ^ 6 + n % 0x40 < 2 ^ 12 by omega), shiftLeft_or (by omega)]
    omega
  rw [encodeChars.eq_def]
  simp only [h80, hE0, hF0, hF8, if_true, if_false,
    isContinuation_ofNat (show n / 4096 % 0x40 < 0x40 by omega),
    isContinuation_ofNat (show n / 64 % 0x40 < 0x40 by omega),
    isContinuation_ofNat (show n % 0x40 < 0x40 by omega), Bool.not_true, Bool.false_eq_true, hcode]

theorem encodeChars_utf8EncodeChar (c : Char) (buffer t : Bytes) :
    encodeChars buffer (String.utf8EncodeChar c ++ t) =
      encodeChars (buffer ++ encodeCodepoint (echo c).toNat) t := by
  have hc := toNat_lt_of_char c
  have hval : c.val.toNat = c.toNat := rfl
  rw [toNat_echo]
  simp only [String.utf8EncodeChar, hval]
  split
  case isTrue h1 =>
    rw [if_pos (by omega)]
    exact encodeChars_one h1 buffer t
  case isFalse h1 =>
    split
    case isTrue h2 =>
      rw [if_pos (by omega)]
      exact encodeChars_two h1 h2 buffer t
    case isFalse h2 =>
      split
      case isTrue h3 =>
        rw [if_pos (by omega)]
        exact encodeChars_three h2 h3 buffer t
      case isFalse h3 =>
        rw [if_neg (by omega)]
        exact encodeChars_four h3 (by omega) buffer t

/-- **What the encoder writes for a text.** -/
theorem encodeChars_utf8 (s : List Char) (buffer : Bytes) :
    encodeChars buffer (utf8 s) = .ok (buffer ++ escaped (s.map echo)) := by
  induction s generalizing buffer with
  | nil => simp [utf8, escaped, encodeChars]
  | cons c s ih =>
    rw [utf8, List.flatMap_cons, encodeChars_utf8EncodeChar, ← utf8, ih]
    simp [escaped]

/-! ### Reading -/

theorem hexdig_tohex : ∀ d < 16, hexdig (tohex d) = some d := by decide

theorem decodeUtf16Escape_tohex {n : ℕ} (h : n < 0x10000) :
    decodeUtf16Escape (tohex (n >>> 12 &&& 0xF)) (tohex (n >>> 8 &&& 0xF))
      (tohex (n >>> 4 &&& 0xF)) (tohex (n &&& 0xF)) = .ok n := by
  have hdigit : ∀ k, n >>> k &&& 0xF = n / 2 ^ k % 16 := fun k => shiftRight_and n k 4
  have hlast : n &&& 0xF = n % 16 := Nat.and_two_pow_sub_one_eq_mod n 4
  have hvalue : n % 16 ||| (n / 2 ^ 4 % 16) <<< 4 ||| (n / 2 ^ 8 % 16) <<< 8 |||
      (n / 2 ^ 12 % 16) <<< 12 = n := by
    rw [or_shiftLeft (show n % 16 < 2 ^ 4 by omega),
      or_shiftLeft (show n % 16 + n / 2 ^ 4 % 16 * 2 ^ 4 < 2 ^ 8 by omega),
      or_shiftLeft
        (show n % 16 + n / 2 ^ 4 % 16 * 2 ^ 4 + n / 2 ^ 8 % 16 * 2 ^ 8 < 2 ^ 12 by omega)]
    omega
  rw [hdigit, hdigit, hdigit, hlast, decodeUtf16Escape, hexdig_tohex _ (by omega),
    hexdig_tohex _ (by omega), hexdig_tohex _ (by omega), hexdig_tohex _ (by omega)]
  exact congrArg Except.ok hvalue

/-- What `json/decode` writes for a code point is UTF-8. -/
theorem writeCodepoint_toNat (c : Char) : writeCodepoint c.toNat = String.utf8EncodeChar c := by
  have hval : c.val.toNat = c.toNat := rfl
  have hlast : ∀ n, n &&& 0x3F ||| 0x80 = n % 0x40 + 0x80 := fun n => by
    have hmask : n &&& 0x3F = n % 0x40 := Nat.and_two_pow_sub_one_eq_mod n 6
    rw [hmask]
    exact or_shiftLeft (k := 6) (b := 2) (Nat.mod_lt n (by decide))
  have hsix : ∀ n k, n >>> k &&& 0x3F ||| 0x80 = n / 2 ^ k % 0x40 + 0x80 := fun n k => by
    rw [hlast, Nat.shiftRight_eq_div_pow]
  have hfirst : ∀ n k l b, n >>> k &&& (2 ^ l - 1) ||| b <<< l = n / 2 ^ k % 2 ^ l + b * 2 ^ l :=
    fun n k l b => by rw [shiftRight_and, or_shiftLeft (Nat.mod_lt _ (Nat.two_pow_pos l))]
  have htwo := hfirst c.toNat 6 5 6
  have hthree := hfirst c.toNat 12 4 14
  have hfour := hfirst c.toNat 18 3 30
  simp only [writeCodepoint, String.utf8EncodeChar, hval, hsix, hlast]
  refine ite_congr rfl (fun _ => rfl) fun _ => ite_congr rfl (fun _ => ?_) fun _ =>
    ite_congr rfl (fun _ => ?_) fun _ => ?_
  · exact congrArg (fun b => [UInt8.ofNat b, _]) htwo
  · exact congrArg (fun b => [UInt8.ofNat b, _, _]) hthree
  · exact congrArg (fun b => [UInt8.ofNat b, _, _, _]) hfour

/-- One escape that is not half of a pair. -/
theorem decodeString_escape {p₀ p₁ p₂ p₃ : UInt8} {n : ℕ}
    (hn : decodeUtf16Escape p₀ p₁ p₂ p₃ = .ok n) (h : n < 0xD800 ∨ 0xDFFF < n)
    (buffer t : Bytes) :
    decodeString buffer (92 :: 117 :: p₀ :: p₁ :: p₂ :: p₃ :: t) =
      decodeString (buffer ++ writeCodepoint n) t := by
  have hlow : ¬ (0xDC00 ≤ n ∧ n ≤ 0xDFFF) := by omega
  have hhigh : ¬ (0xD800 ≤ n ∧ n ≤ 0xDBFF) := by omega
  rw [decodeString.eq_def]
  simp only [hn]
  rw [if_neg (by decide), if_neg (by decide), if_pos trivial, if_neg hlow, if_neg hhigh]

/-- Two escapes that are a pair. -/
theorem decodeString_pair {p₀ p₁ p₂ p₃ q₀ q₁ q₂ q₃ : UInt8} {hi lo : ℕ}
    (hhi : decodeUtf16Escape p₀ p₁ p₂ p₃ = .ok hi) (hlo : decodeUtf16Escape q₀ q₁ q₂ q₃ = .ok lo)
    (hhigh : 0xD800 ≤ hi ∧ hi ≤ 0xDBFF) (hlow : 0xDC00 ≤ lo ∧ lo ≤ 0xDFFF) (buffer t : Bytes) :
    decodeString buffer
        (92 :: 117 :: p₀ :: p₁ :: p₂ :: p₃ :: 92 :: 117 :: q₀ :: q₁ :: q₂ :: q₃ :: t) =
      decodeString
        (buffer ++ writeCodepoint ((hi - 0xD800) <<< 10 + (lo - 0xDC00) + 0x10000)) t := by
  have hnotlow : ¬ (0xDC00 ≤ hi ∧ hi ≤ 0xDFFF) := by omega
  have hlow' : ¬ (lo < 0xDC00 ∨ lo > 0xDFFF) := by omega
  rw [decodeString.eq_def]
  simp only [hhi, hlo]
  rw [if_neg (by decide), if_neg (by decide), if_pos trivial, if_neg hnotlow, if_pos hhigh,
    if_neg hlow']

theorem decodeString_simple {c b : UInt8} (h : simpleEscape c = some b) (buffer t : Bytes) :
    decodeString buffer (92 :: c :: t) = decodeString (buffer ++ [b]) t := by
  have hc : c ≠ 117 := by
    rintro rfl
    cases h
  rw [decodeString.eq_def]
  simp only [h]
  rw [if_neg (by decide), if_neg (by decide), if_pos trivial]

theorem decodeString_plain {b : UInt8} (h : plainChar b) (buffer t : Bytes) :
    decodeString buffer (b :: t) = decodeString (buffer ++ [b]) t := by
  simp only [plainChar, Bool.and_eq_true, decide_eq_true_eq, bne_iff_ne, ne_eq] at h
  obtain ⟨⟨h32, h34⟩, h92⟩ := h
  rw [decodeString.eq_def]
  simp only [h34, h92, UInt8.not_lt.mpr h32, if_false]

theorem plainChar_ofNat {n : ℕ} (h : n > 0x1F ∧ n < 0x80) (hne : ¬ (n = 92 ∨ n = 34)) :
    plainChar (UInt8.ofNat n) := by
  have hn : (UInt8.ofNat n).toNat = n := by
    rw [UInt8.toNat_ofNat']
    omega
  simp only [plainChar, Bool.and_eq_true, decide_eq_true_eq, bne_iff_ne, ne_eq,
    UInt8.le_iff_toNat_le, ← UInt8.toNat_inj, hn, UInt8.reduceToNat]
  omega

theorem decodeString_encodeCodepoint (c : Char) (buffer t : Bytes) :
    decodeString buffer (encodeCodepoint c.toNat ++ t) =
      decodeString (buffer ++ String.utf8EncodeChar c) t := by
  have hc := toNat_lt_of_char c
  rw [← writeCodepoint_toNat]
  generalize c.toNat = n at *
  rw [encodeCodepoint]
  split
  case isTrue h =>
    have hwrite : writeCodepoint n = [UInt8.ofNat n] := by
      rw [writeCodepoint, if_pos (by omega)]
    rw [hwrite]
    split
    case isTrue hquoted =>
      rcases hquoted with rfl | rfl
      · exact decodeString_simple (by decide) buffer t
      · exact decodeString_simple (by decide) buffer t
    case isFalse hplain => exact decodeString_plain (plainChar_ofNat h hplain) buffer t
  case isFalse =>
    split
    case isTrue h =>
      exact decodeString_escape (decodeUtf16Escape_tohex h) (by omega) buffer t
    case isFalse h =>
      have hmask : ∀ m, m &&& 0x3FF = m % 0x400 := fun m => Nat.and_two_pow_sub_one_eq_mod m 10
      have hshift : ∀ m, m >>> 10 = m / 0x400 := fun m => Nat.shiftRight_eq_div_pow m 10
      rw [hmask, hshift]
      obtain ⟨m, rfl⟩ := Nat.exists_eq_add_of_le' (Nat.not_lt.mp h)
      rw [Nat.add_sub_cancel, List.append_assoc]
      have hpair := decodeString_pair
        (decodeUtf16Escape_tohex (n := m / 0x400 + 0xD800) (by omega))
        (decodeUtf16Escape_tohex (n := m % 0x400 + 0xDC00) (by omega))
        (by omega) (by omega) buffer t
      rw [Nat.add_sub_cancel, Nat.add_sub_cancel, Nat.shiftLeft_eq] at hpair
      have hm : m / 0x400 * 2 ^ 10 + m % 0x400 = m := by omega
      rw [hm] at hpair
      exact hpair

theorem decodeString_escaped (s : List Char) (buffer rest : Bytes) :
    decodeString buffer (escaped s ++ 34 :: rest) = .ok (buffer ++ utf8 s, rest) := by
  induction s generalizing buffer with
  | nil =>
    rw [escaped, List.flatMap_nil, List.nil_append, decodeString.eq_def]
    simp [utf8]
  | cons c s ih =>
    rw [escaped, List.flatMap_cons, List.append_assoc, decodeString_encodeCodepoint, ← escaped, ih]
    simp [utf8]

/-- A character is written as itself, or with an escape in front. -/
theorem encodeCodepoint_cases (c : Char) :
    (∃ b, encodeCodepoint c.toNat = [b] ∧ plainChar b ∧ String.utf8EncodeChar c = [b]) ∨
      ∃ t, encodeCodepoint c.toNat = 92 :: t := by
  rw [← writeCodepoint_toNat]
  generalize c.toNat = n at *
  rw [encodeCodepoint]
  split
  case isTrue h =>
    split
    case isTrue => exact .inr ⟨_, rfl⟩
    case isFalse hplain =>
      exact .inl ⟨UInt8.ofNat n, rfl, plainChar_ofNat h hplain,
        by rw [writeCodepoint, if_pos (by omega)]⟩
  case isFalse =>
    split
    case isTrue => exact .inr ⟨_, rfl⟩
    case isFalse => exact .inr ⟨_, rfl⟩

/-- A text is written as itself, or with an escape behind plain characters. -/
theorem escaped_cases (s : List Char) :
    ((∀ b ∈ escaped s, plainChar b) ∧ escaped s = utf8 s) ∨
      ∃ a t, escaped s = a ++ 92 :: t ∧ ∀ b ∈ a, plainChar b := by
  induction s with
  | nil => exact .inl ⟨by simp [escaped], rfl⟩
  | cons c s ih =>
    have hcons : escaped (c :: s) = encodeCodepoint c.toNat ++ escaped s := List.flatMap_cons
    rcases encodeCodepoint_cases c with ⟨b, hb, hplain, hutf8⟩ | ⟨t, ht⟩
    · rcases ih with ⟨hall, heq⟩ | ⟨a, t, heq, hall⟩
      · refine .inl ⟨?_, ?_⟩
        · rw [hcons, hb]
          simpa [hplain] using hall
        · rw [hcons, hb, heq, utf8, utf8, List.flatMap_cons, hutf8]
      · exact .inr ⟨b :: a, t, by rw [hcons, hb, heq]; rfl, by simpa [hplain] using hall⟩
    · exact .inr ⟨[], t ++ escaped s, by rw [hcons, ht]; rfl, by simp⟩

/-- **What the decoder reads of a text that was written.** -/
theorem decodeQuoted_escaped (s : List Char) (p rest : Bytes) :
    decodeQuoted p (escaped s ++ 34 :: rest) = .ok (utf8 s, rest) := by
  rw [decodeQuoted]
  rcases escaped_cases s with ⟨hall, heq⟩ | ⟨a, t, heq, hall⟩
  · rw [List.dropWhile_append_of_pos hall, List.takeWhile_append_of_pos hall,
      List.dropWhile_cons_of_neg (by decide), List.takeWhile_cons_of_neg (by decide),
      List.append_nil, heq]
    rfl
  · have hdrop : (escaped s ++ 34 :: rest).dropWhile plainChar = 92 :: (t ++ 34 :: rest) := by
      rw [heq, List.append_assoc, List.dropWhile_append_of_pos hall, List.cons_append,
        List.dropWhile_cons_of_neg (by decide)]
    rw [hdrop]
    simp only [decodeString_escaped, List.nil_append]

theorem tohex_ne_zero : ∀ d < 16, tohex d ≠ 0 := by decide

theorem nulFree_unicodeEscape (n : ℕ) : NulFree (unicodeEscape n) := by
  have hdigit : ∀ m, tohex (m &&& 0xF) ≠ 0 := fun m =>
    tohex_ne_zero _ (Nat.lt_succ_of_le Nat.and_le_right)
  simp [NulFree, unicodeEscape, hdigit]

theorem nulFree_encodeCodepoint (n : ℕ) : NulFree (encodeCodepoint n) := by
  rw [encodeCodepoint]
  split
  case isTrue h =>
    have hn : UInt8.ofNat n ≠ 0 := by
      intro hzero
      have hmod : n % 256 = 0 := by
        rw [← UInt8.toNat_ofNat', hzero]
        rfl
      omega
    refine NulFree.append ?_ (by simpa [NulFree] using hn)
    split
    · decide
    · simp [NulFree]
  case isFalse =>
    split
    case isTrue => exact nulFree_unicodeEscape _
    case isFalse => exact (nulFree_unicodeEscape _).append (nulFree_unicodeEscape _)

/-- Nothing that is written is a NUL. -/
theorem nulFree_escaped (s : List Char) : NulFree (escaped s) := by
  intro b hb
  obtain ⟨c, -, hb⟩ := List.mem_flatMap.mp hb
  exact nulFree_encodeCodepoint c.toNat b hb

/-! ### Lengths -/

/-- How many bytes are written for a byte of a text. What is written for a character is counted at
its first byte. -/
def byteLength (b : UInt8) : ℕ :=
  if b.toNat < 0x20 then 6
  else if b.toNat < 0x80 then if b.toNat = 92 ∨ b.toNat = 34 then 2 else 1
  else if b.toNat < 0xC0 then 0
  else if b.toNat < 0xF0 then 6
  else 12

theorem length_encodeCodepoint (n : ℕ) :
    (encodeCodepoint n).length =
      if n > 0x1F ∧ n < 0x80 then if n = 92 ∨ n = 34 then 2 else 1
      else if n < 0x10000 then 6 else 12 := by
  rw [encodeCodepoint]
  split
  case isTrue =>
    split
    case isTrue => rfl
    case isFalse => rfl
  case isFalse =>
    split
    case isTrue => rfl
    case isFalse => rfl

theorem byteLength_ofNat {n : ℕ} (h : n < 256) :
    byteLength (UInt8.ofNat n) =
      if n < 0x20 then 6
      else if n < 0x80 then if n = 92 ∨ n = 34 then 2 else 1
      else if n < 0xC0 then 0
      else if n < 0xF0 then 6
      else 12 := by
  rw [byteLength, UInt8.toNat_ofNat_of_lt' h]

theorem byteLength_continuation (n : ℕ) : byteLength (UInt8.ofNat (n % 0x40 + 0x80)) = 0 := by
  rw [byteLength_ofNat (by omega), if_neg (by omega), if_neg (by omega), if_pos (by omega)]

theorem length_encodeCodepoint_echo (c : Char) :
    (encodeCodepoint (echo c).toNat).length =
      ((String.utf8EncodeChar c).map byteLength).sum := by
  have hc := toNat_lt_of_char c
  have hval : c.val.toNat = c.toNat := rfl
  rw [toNat_echo]
  simp only [String.utf8EncodeChar, hval]
  generalize c.toNat = n at hc
  by_cases h1 : n ≤ 0x7F
  · rw [if_pos (by omega), if_pos h1, List.map_singleton, List.sum_singleton,
      byteLength_ofNat (by omega), length_encodeCodepoint]
    by_cases hcontrol : n < 0x20
    · rw [if_neg (by omega), if_pos (by omega), if_pos hcontrol]
    · rw [if_pos (show n > 0x1F ∧ n < 0x80 by omega), if_neg hcontrol,
        if_pos (show n < 0x80 by omega)]
  · rw [if_neg h1]
    by_cases h2 : n ≤ 0x7FF
    · rw [if_pos (by omega), if_pos h2, length_encodeCodepoint, if_neg (by omega),
        if_pos (by omega)]
      simp only [List.map_cons, List.map_nil, List.sum_cons, List.sum_nil, byteLength_continuation,
        Nat.add_zero]
      rw [byteLength_ofNat (by omega), if_neg (by omega), if_neg (by omega), if_neg (by omega),
        if_pos (by omega)]
    · rw [if_neg h2]
      by_cases h3 : n ≤ 0xFFFF
      · rw [if_pos (by omega), if_pos h3, length_encodeCodepoint, if_neg (by omega),
          if_pos (by omega)]
        simp only [List.map_cons, List.map_nil, List.sum_cons, List.sum_nil,
          byteLength_continuation, Nat.add_zero]
        rw [byteLength_ofNat (by omega), if_neg (by omega), if_neg (by omega), if_neg (by omega),
          if_pos (by omega)]
      · rw [if_neg (by omega), if_neg h3, length_encodeCodepoint, if_neg (by omega),
          if_neg (by omega)]
        simp only [List.map_cons, List.map_nil, List.sum_cons, List.sum_nil,
          byteLength_continuation, Nat.add_zero]
        rw [byteLength_ofNat (by omega), if_neg (by omega), if_neg (by omega), if_neg (by omega),
          if_neg (by omega)]

/-- How long a text gets. -/
theorem length_escaped_echo (s : List Char) :
    (escaped (s.map echo)).length = ((utf8 s).map byteLength).sum := by
  induction s with
  | nil => rfl
  | cons c s ih =>
    have hchar := length_encodeCodepoint_echo c
    rw [escaped] at ih ⊢
    rw [List.map_cons, List.flatMap_cons, List.length_append, ih, hchar, utf8, utf8,
      List.flatMap_cons, List.map_append, List.sum_append]

end AhungryJanet
