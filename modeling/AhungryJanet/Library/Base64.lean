import Mathlib.Data.List.Forall2
import Mathlib.Data.List.DropRight
import Mathlib.Data.List.TakeDrop
import Mathlib.Tactic.SplitIfs

/-!
# Base64

The base64 encoding of RFC 4648, with the two alphabets that differ in the letters for 62 and 63,
and two decoders.

`decodeDigits` is the decoder of the standard, for text without padding: it answers only for text
that is base64. `quads` is a block decoder: it works through the text four letters at a time,
counts a padding letter as a zero, stops at the first block it cannot read, and says what it had
stored by then. The difference between the two is the point of this file, since a caller that only
looks at what was stored cannot tell a decoded text from one that failed in the middle.

## Main results

* `decodeDigits_digits` — decoding undoes encoding
* `quads_encode` — so does the block decoder, up to the zeros the padding stands for
* `length_quads_of_readable`, `length_quads_lt` — the block decoder fills its output exactly when
  every letter can be read
* `quads_isPrefix` — what is stored of a damaged text is the beginning of the original
-/

namespace Base64

/-- The two letters in which the alphabets differ. -/
structure Alphabet where
  c62 : UInt8
  c63 : UInt8
  deriving DecidableEq

/-- `+` and `/`. -/
def standard : Alphabet := ⟨43, 47⟩

/-- `-` and `_`. -/
def url : Alphabet := ⟨45, 95⟩

/-- The padding letter `=`. -/
def padLetter : UInt8 := 61

/-- The letters below 62, which every alphabet has: `A-Z`, `a-z`, `0-9`. -/
def commonLetter (n : ℕ) : UInt8 :=
  if n < 26 then UInt8.ofNat (65 + n)
  else if n < 52 then UInt8.ofNat (71 + n)
  else UInt8.ofNat (n - 4)

/-- What a common letter stands for. -/
def commonValue (c : UInt8) : Option ℕ :=
  if 65 ≤ c ∧ c ≤ 90 then some (c.toNat - 65)
  else if 97 ≤ c ∧ c ≤ 122 then some (c.toNat - 71)
  else if 48 ≤ c ∧ c ≤ 57 then some (c.toNat + 4)
  else none

/-- The letter for a number below 64. -/
def letter (A : Alphabet) (n : ℕ) : UInt8 :=
  if n < 62 then commonLetter n else if n = 62 then A.c62 else A.c63

/-- The number a letter stands for. -/
def value (A : Alphabet) (c : UInt8) : Option ℕ :=
  match commonValue c with
  | some n => some n
  | none => if c = A.c62 then some 62 else if c = A.c63 then some 63 else none

/-- The special letters are two, neither common letters nor padding. -/
structure Alphabet.Proper (A : Alphabet) : Prop where
  common_c62 : commonValue A.c62 = none
  common_c63 : commonValue A.c63 = none
  c63_ne_c62 : A.c63 ≠ A.c62
  pad : value A padLetter = none

theorem proper_standard : standard.Proper := ⟨by decide, by decide, by decide, by decide⟩

theorem commonValue_commonLetter : ∀ n < 62, commonValue (commonLetter n) = some n := by decide

theorem value_letter {A : Alphabet} (hA : A.Proper) {n : ℕ} (hn : n < 64) :
    value A (letter A n) = some n := by
  rcases Nat.lt_or_ge n 62 with h | h
  · simp [letter, value, h, commonValue_commonLetter n h]
  · have h : n = 62 ∨ n = 63 := by omega
    rcases h with rfl | rfl
    · simp [letter, value, hA.common_c62]
    · simp [letter, value, hA.common_c63, hA.c63_ne_c62]

/-! ### Encoding -/

/-- The three bytes of a group as one number. -/
def group (a b c : UInt8) : ℕ := a.toNat * 65536 + b.toNat * 256 + c.toNat

theorem group_lt (a b c : UInt8) : group a b c < 16777216 := by
  have ha := a.toNat_lt
  have hb := b.toNat_lt
  have hc := c.toNat_lt
  simp only [group]
  omega

/-- The letters of a byte string, without padding. -/
def digits (A : Alphabet) : List UInt8 → List UInt8
  | [] => []
  | [a] => [letter A (group a 0 0 / 262144), letter A (group a 0 0 / 4096 % 64)]
  | [a, b] =>
    [letter A (group a b 0 / 262144), letter A (group a b 0 / 4096 % 64),
      letter A (group a b 0 / 64 % 64)]
  | a :: b :: c :: rest =>
    letter A (group a b c / 262144) :: letter A (group a b c / 4096 % 64) ::
      letter A (group a b c / 64 % 64) :: letter A (group a b c % 64) :: digits A rest

/-- How many padding letters a byte string of length `n` takes. -/
def padding (n : ℕ) : ℕ := (3 - n % 3) % 3

/-- The padded encoding. -/
def encode (A : Alphabet) (d : List UInt8) : List UInt8 :=
  digits A d ++ List.replicate (padding d.length) padLetter

/-- Induction along the groups of three. -/
theorem groups_induction {motive : List UInt8 → Prop} (nil : motive []) (one : ∀ a, motive [a])
    (two : ∀ a b, motive [a, b]) (more : ∀ a b c rest, motive rest → motive (a :: b :: c :: rest)) :
    ∀ d, motive d
  | [] => nil
  | [a] => one a
  | [a, b] => two a b
  | a :: b :: c :: rest => more a b c rest (groups_induction nil one two more rest)

theorem length_digits (A : Alphabet) (d : List UInt8) :
    (digits A d).length + padding d.length = (d.length + 2) / 3 * 4 := by
  induction d using groups_induction with
  | nil => rfl
  | one a => simp [digits, padding]
  | two a b => simp [digits, padding]
  | more a b c rest ih =>
    simp only [digits, List.length_cons, padding] at ih ⊢
    omega

theorem mem_digits {A : Alphabet} {d : List UInt8} {x : UInt8} (h : x ∈ digits A d) :
    ∃ n < 64, x = letter A n := by
  induction d using groups_induction with
  | nil => cases h
  | one a =>
    have := group_lt a 0 0
    simp only [digits, List.mem_cons, List.not_mem_nil, or_false] at h
    rcases h with rfl | rfl
    · exact ⟨_, by omega, rfl⟩
    · exact ⟨_, by omega, rfl⟩
  | two a b =>
    have := group_lt a b 0
    simp only [digits, List.mem_cons, List.not_mem_nil, or_false] at h
    rcases h with rfl | rfl | rfl
    · exact ⟨_, by omega, rfl⟩
    · exact ⟨_, by omega, rfl⟩
    · exact ⟨_, by omega, rfl⟩
  | more a b c rest ih =>
    have := group_lt a b c
    simp only [digits, List.mem_cons] at h
    rcases h with rfl | rfl | rfl | rfl | h
    · exact ⟨_, by omega, rfl⟩
    · exact ⟨_, by omega, rfl⟩
    · exact ⟨_, by omega, rfl⟩
    · exact ⟨_, by omega, rfl⟩
    · exact ih h

theorem value_of_mem_digits {A : Alphabet} (hA : A.Proper) {d : List UInt8} {x : UInt8}
    (h : x ∈ digits A d) : ∃ n, value A x = some n := by
  obtain ⟨n, hn, rfl⟩ := mem_digits h
  exact ⟨n, value_letter hA hn⟩

/-- The alphabets encode alike, letter by letter. -/
theorem digits_forall₂ (A B : Alphabet) (d : List UInt8) :
    List.Forall₂ (fun x y => ∃ n < 64, x = letter A n ∧ y = letter B n) (digits A d)
      (digits B d) := by
  induction d using groups_induction with
  | nil => exact .nil
  | one a =>
    have := group_lt a 0 0
    exact .cons ⟨_, by omega, rfl, rfl⟩ (.cons ⟨_, by omega, rfl, rfl⟩ .nil)
  | two a b =>
    have := group_lt a b 0
    exact .cons ⟨_, by omega, rfl, rfl⟩ (.cons ⟨_, by omega, rfl, rfl⟩
      (.cons ⟨_, by omega, rfl, rfl⟩ .nil))
  | more a b c rest ih =>
    have := group_lt a b c
    exact .cons ⟨_, by omega, rfl, rfl⟩ (.cons ⟨_, by omega, rfl, rfl⟩
      (.cons ⟨_, by omega, rfl, rfl⟩ (.cons ⟨_, by omega, rfl, rfl⟩ ih)))

/-! ### Decoding -/

/-- The number four letters spell. -/
def quad (p q r s : ℕ) : ℕ := p * 262144 + q * 4096 + r * 64 + s

/-- The bytes of that number. -/
def bytes (n : ℕ) : List UInt8 :=
  [UInt8.ofNat (n / 65536), UInt8.ofNat (n / 256 % 256), UInt8.ofNat (n % 256)]

/-- The decoder of the standard, for text without padding. -/
def decodeDigits (A : Alphabet) : List UInt8 → Option (List UInt8)
  | [] => some []
  | [_] => none
  | [w, x] => do return (bytes (quad (← value A w) (← value A x) 0 0)).take 1
  | [w, x, y] => do return (bytes (quad (← value A w) (← value A x) (← value A y) 0)).take 2
  | w :: x :: y :: z :: rest => do
    let n := quad (← value A w) (← value A x) (← value A y) (← value A z)
    return bytes n ++ (← decodeDigits A rest)

/-- A group is the number its letters spell. -/
theorem quad_group (n : ℕ) : quad (n / 262144) (n / 4096 % 64) (n / 64 % 64) (n % 64) = n := by
  simp only [quad]
  omega

theorem bytes_group (a b c : UInt8) : bytes (group a b c) = [a, b, c] := by
  have ha := a.toNat_lt
  have hb := b.toNat_lt
  have hc := c.toNat_lt
  have h1 : group a b c / 65536 = a.toNat := by simp only [group]; omega
  have h2 : group a b c / 256 % 256 = b.toNat := by simp only [group]; omega
  have h3 : group a b c % 256 = c.toNat := by simp only [group]; omega
  simp [bytes, h1, h2, h3]

/-- In a group that ends in zeros, the last letter is the one for zero. -/
theorem group_one (a : UInt8) : group a 0 0 / 64 % 64 = 0 ∧ group a 0 0 % 64 = 0 := by
  simp only [group]
  have h0 : (0 : UInt8).toNat = 0 := rfl
  omega

theorem group_two (a b : UInt8) : group a b 0 % 64 = 0 := by
  simp only [group]
  have h0 : (0 : UInt8).toNat = 0 := rfl
  omega

theorem quad_group_one (a : UInt8) :
    quad (group a 0 0 / 262144) (group a 0 0 / 4096 % 64) 0 0 = group a 0 0 := by
  have h := quad_group (group a 0 0)
  rwa [(group_one a).1, (group_one a).2] at h

theorem quad_group_two (a b : UInt8) :
    quad (group a b 0 / 262144) (group a b 0 / 4096 % 64) (group a b 0 / 64 % 64) 0 =
      group a b 0 := by
  have h := quad_group (group a b 0)
  rwa [group_two a b] at h

/-- **Decoding undoes encoding.** -/
theorem decodeDigits_digits {A : Alphabet} (hA : A.Proper) (d : List UInt8) :
    decodeDigits A (digits A d) = some d := by
  induction d using groups_induction with
  | nil => rfl
  | one a =>
    have := group_lt a 0 0
    simp only [digits, decodeDigits, value_letter hA (show group a 0 0 / 262144 < 64 by omega),
      value_letter hA (show group a 0 0 / 4096 % 64 < 64 by omega), Option.bind_eq_bind,
      Option.bind_some, quad_group_one, bytes_group]
    rfl
  | two a b =>
    have := group_lt a b 0
    simp only [digits, decodeDigits, value_letter hA (show group a b 0 / 262144 < 64 by omega),
      value_letter hA (show group a b 0 / 4096 % 64 < 64 by omega),
      value_letter hA (show group a b 0 / 64 % 64 < 64 by omega), Option.bind_eq_bind,
      Option.bind_some, quad_group_two, bytes_group]
    rfl
  | more a b c rest ih =>
    have := group_lt a b c
    simp only [digits, decodeDigits, value_letter hA (show group a b c / 262144 < 64 by omega),
      value_letter hA (show group a b c / 4096 % 64 < 64 by omega),
      value_letter hA (show group a b c / 64 % 64 < 64 by omega),
      value_letter hA (show group a b c % 64 < 64 by omega), Option.bind_eq_bind,
      Option.bind_some, quad_group, bytes_group, ih]
    rfl

/-- Induction along the blocks of four. -/
theorem blocks_induction {motive : List UInt8 → Prop}
    (short : ∀ t, t.length < 4 → motive t)
    (more : ∀ w x y z rest, motive rest → motive (w :: x :: y :: z :: rest)) : ∀ t, motive t
  | [] => short _ (by simp)
  | [_] => short _ (by simp)
  | [_, _] => short _ (by simp)
  | [_, _, _] => short _ (by simp)
  | w :: x :: y :: z :: rest => more w x y z rest (blocks_induction short more rest)

/-- The decoder of the standard, for padded text: at most two padding letters, at the end. -/
def decodePadded (A : Alphabet) (t : List UInt8) : Option (List UInt8) :=
  let body := t.rdropWhile (· == padLetter)
  if t.length % 4 = 0 ∧ t.length ≤ body.length + 2 then decodeDigits A body else none

theorem value_of_decodeDigits {A : Alphabet} {t b : List UInt8} (h : decodeDigits A t = some b) :
    ∀ c ∈ t, value A c ≠ none := by
  induction t using blocks_induction generalizing b with
  | short t hlt =>
    match t, hlt with
    | [], _ => simp
    | [_], _ => cases h
    | [w, x], _ =>
      cases hw : value A w <;> cases hx : value A x <;> simp_all [decodeDigits]
    | [w, x, y], _ =>
      cases hw : value A w <;> cases hx : value A x <;> cases hy : value A y <;>
        simp_all [decodeDigits]
  | more w x y z rest ih =>
    simp only [decodeDigits, Option.bind_eq_bind, Option.bind_eq_some_iff] at h
    obtain ⟨_, hw, _, hx, _, hy, _, hz, _, hrest, -⟩ := h
    intro c hc
    simp only [List.mem_cons] at hc
    rcases hc with rfl | rfl | rfl | rfl | hc
    · simp [hw]
    · simp [hx]
    · simp [hy]
    · simp [hz]
    · exact ih hrest c hc

/-- Four letters for three bytes, whatever the length. -/
theorem length_decodeDigits {A : Alphabet} {t b : List UInt8} (h : decodeDigits A t = some b) :
    b.length = t.length * 3 / 4 := by
  induction t using blocks_induction generalizing b with
  | short t hlt =>
    match t, hlt with
    | [], _ => cases h; rfl
    | [_], _ => cases h
    | [w, x], _ =>
      simp only [decodeDigits, Option.bind_eq_bind, Option.bind_eq_some_iff] at h
      obtain ⟨_, -, _, -, hb⟩ := h
      cases hb
      simp [bytes]
    | [w, x, y], _ =>
      simp only [decodeDigits, Option.bind_eq_bind, Option.bind_eq_some_iff] at h
      obtain ⟨_, -, _, -, _, -, hb⟩ := h
      cases hb
      simp [bytes]
  | more w x y z rest ih =>
    simp only [decodeDigits, Option.bind_eq_bind, Option.bind_eq_some_iff] at h
    obtain ⟨_, -, _, -, _, -, _, -, b', hrest, hb⟩ := h
    cases hb
    have := ih hrest
    simp only [List.length_append, List.length_cons, bytes, List.length_nil]
    omega

/-! ### Decoding by blocks -/

/-- What a block decoder takes a letter for: padding counts as zero. -/
def blockValue (A : Alphabet) (c : UInt8) : Option ℕ :=
  if c = padLetter then some 0 else value A c

/-- The bytes of one block, if every letter can be read. -/
def block (A : Alphabet) (w x y z : UInt8) : Option (List UInt8) := do
  return bytes (quad (← blockValue A w) (← blockValue A x) (← blockValue A y) (← blockValue A z))

/-- Block by block, the bytes stored before the first block that cannot be read. -/
def quads (A : Alphabet) : List UInt8 → List UInt8
  | w :: x :: y :: z :: rest =>
    match block A w x y z with
    | some b => b ++ quads A rest
    | none => []
  | _ => []

/-- A letter a block decoder can read. -/
def Readable (A : Alphabet) (c : UInt8) : Prop := blockValue A c ≠ none

instance (A : Alphabet) (c : UInt8) : Decidable (Readable A c) :=
  inferInstanceAs (Decidable (blockValue A c ≠ none))

theorem readable_pad (A : Alphabet) : Readable A padLetter := by simp [Readable, blockValue]

theorem readable_of_value {A : Alphabet} {c : UInt8} {n : ℕ} (h : value A c = some n) :
    Readable A c := by
  simp only [Readable, blockValue]
  split_ifs <;> simp [h]

theorem block_eq_none_iff {A : Alphabet} {w x y z : UInt8} :
    block A w x y z = none ↔ ¬ (Readable A w ∧ Readable A x ∧ Readable A y ∧ Readable A z) := by
  simp only [block, Readable]
  cases blockValue A w <;> cases blockValue A x <;> cases blockValue A y <;>
    cases blockValue A z <;> simp

theorem readable_of_block {A : Alphabet} {w x y z : UInt8} {b : List UInt8}
    (h : block A w x y z = some b) :
    Readable A w ∧ Readable A x ∧ Readable A y ∧ Readable A z := by
  by_contra hno
  rw [block_eq_none_iff.mpr hno] at h
  cases h

theorem length_block {A : Alphabet} {w x y z : UInt8} {b : List UInt8}
    (h : block A w x y z = some b) : b.length = 3 := by
  simp only [block, Option.bind_eq_bind, Option.bind_eq_some_iff, Option.pure_def,
    Option.some.injEq] at h
  obtain ⟨_, -, _, -, _, -, _, -, rfl⟩ := h
  rfl

theorem quads_of_length_lt (A : Alphabet) {t : List UInt8} (h : t.length < 4) : quads A t = [] := by
  match t, h with
  | [], _ => rfl
  | [_], _ => rfl
  | [_, _], _ => rfl
  | [_, _, _], _ => rfl

theorem length_quads_le (A : Alphabet) (t : List UInt8) :
    (quads A t).length ≤ t.length / 4 * 3 := by
  induction t using blocks_induction with
  | short t h => simp [quads_of_length_lt A h]
  | more w x y z rest ih =>
    simp only [quads]
    split
    case h_1 b hb =>
      have := length_block hb
      simp only [List.length_append, List.length_cons]
      omega
    case h_2 => simp

/-- Output comes in groups of three. -/
theorem length_quads_mod (A : Alphabet) (t : List UInt8) : (quads A t).length % 3 = 0 := by
  induction t using blocks_induction with
  | short t h => simp [quads_of_length_lt A h]
  | more w x y z rest ih =>
    simp only [quads]
    split
    case h_1 b hb => simp [length_block hb, ih]
    case h_2 => rfl

/-- A text of readable letters fills the output. -/
theorem length_quads_of_readable {A : Alphabet} {t : List UInt8} (h : ∀ c ∈ t, Readable A c) :
    (quads A t).length = t.length / 4 * 3 := by
  induction t using blocks_induction with
  | short t hlt => rw [quads_of_length_lt A hlt, Nat.div_eq_of_lt hlt]; rfl
  | more w x y z rest ih =>
    simp only [quads]
    split
    case h_1 b hb =>
      have hlen := length_block hb
      have hrest := ih fun c hc => h c (by simp [hc])
      simp only [List.length_append, List.length_cons, hlen, hrest]
      omega
    case h_2 hb =>
      exact absurd ⟨h w (by simp), h x (by simp), h y (by simp), h z (by simp)⟩
        (block_eq_none_iff.mp hb)

/-- A letter that cannot be read leaves output unwritten. -/
theorem length_quads_lt {A : Alphabet} {t : List UInt8} (h4 : t.length % 4 = 0)
    {c : UInt8} (hc : c ∈ t) (hbad : ¬ Readable A c) : (quads A t).length < t.length / 4 * 3 := by
  induction t using blocks_induction with
  | short t hlt =>
    have ht : t = [] := List.eq_nil_of_length_eq_zero (by omega)
    rw [ht] at hc
    cases hc
  | more w x y z rest ih =>
    simp only [List.length_cons] at h4
    simp only [quads]
    split
    case h_1 b hb =>
      have hlen := length_block hb
      have hread := readable_of_block hb
      have hrest : c ∈ rest := by
        simp only [List.mem_cons] at hc
        rcases hc with rfl | rfl | rfl | rfl | hc
        · exact absurd hread.1 hbad
        · exact absurd hread.2.1 hbad
        · exact absurd hread.2.2.1 hbad
        · exact absurd hread.2.2.2 hbad
        · exact hc
      have := ih (by omega) hrest
      simp only [List.length_append, List.length_cons, hlen]
      omega
    case h_2 => simp

/-- Whole blocks of readable letters can be split off in front. -/
theorem quads_append {A : Alphabet} {t : List UInt8} (h4 : t.length % 4 = 0)
    (h : ∀ c ∈ t, Readable A c) (u : List UInt8) : quads A (t ++ u) = quads A t ++ quads A u := by
  induction t using blocks_induction with
  | short t hlt =>
    have ht : t = [] := List.eq_nil_of_length_eq_zero (by omega)
    simp [ht, quads]
  | more w x y z rest ih =>
    simp only [List.length_cons] at h4
    have hrest := ih (by omega) fun c hc => h c (by simp [hc])
    simp only [List.cons_append, quads]
    split
    case h_1 b hb => rw [hrest, List.append_assoc]
    case h_2 hb =>
      exact absurd ⟨h w (by simp), h x (by simp), h y (by simp), h z (by simp)⟩
        (block_eq_none_iff.mp hb)

/-- What a block decoder stores of a text that has been damaged by unreadable letters, or cut
short at a block, is the beginning of what it stores of the original. -/
theorem quads_isPrefix {A : Alphabet} {t u : List UInt8}
    (h : List.Forall₂ (fun x y => x = y ∨ ¬ Readable A x) t u) : quads A t <+: quads A u := by
  induction t using blocks_induction generalizing u with
  | short t hlt => rw [quads_of_length_lt A hlt]; exact List.nil_prefix
  | more w x y z rest ih =>
    obtain ⟨w', _, hw, h₁, rfl⟩ := List.forall₂_cons_left_iff.mp h
    obtain ⟨x', _, hx, h₂, rfl⟩ := List.forall₂_cons_left_iff.mp h₁
    obtain ⟨y', _, hy, h₃, rfl⟩ := List.forall₂_cons_left_iff.mp h₂
    obtain ⟨z', _, hz, h₄, rfl⟩ := List.forall₂_cons_left_iff.mp h₃
    simp only [quads]
    split
    case h_1 b hb =>
      have hread := readable_of_block hb
      obtain rfl := hw.resolve_right (not_not.mpr hread.1)
      obtain rfl := hx.resolve_right (not_not.mpr hread.2.1)
      obtain rfl := hy.resolve_right (not_not.mpr hread.2.2.1)
      obtain rfl := hz.resolve_right (not_not.mpr hread.2.2.2)
      rw [hb]
      exact (List.prefix_append_right_inj b).mpr (ih h₄)
    case h_2 => exact List.nil_prefix

/-! ### The block decoder and the encoding -/

theorem blockValue_letter {A : Alphabet} (hA : A.Proper) {n : ℕ} (hn : n < 64) :
    blockValue A (letter A n) = some n := by
  have hne : letter A n ≠ padLetter := by
    intro h
    have hv := value_letter hA hn
    rw [h, hA.pad] at hv
    cases hv
  rw [blockValue, if_neg hne, value_letter hA hn]

@[simp] theorem blockValue_pad (A : Alphabet) : blockValue A padLetter = some 0 := by
  simp [blockValue]

/-- **The block decoder undoes the padded encoding**, up to one zero for each padding letter. -/
theorem quads_encode {A : Alphabet} (hA : A.Proper) (d : List UInt8) :
    quads A (encode A d) = d ++ List.replicate (padding d.length) 0 := by
  induction d using groups_induction with
  | nil => rfl
  | one a =>
    have := group_lt a 0 0
    have hblock : block A (letter A (group a 0 0 / 262144)) (letter A (group a 0 0 / 4096 % 64))
        padLetter padLetter = some [a, 0, 0] := by
      simp [block, blockValue_letter hA (show group a 0 0 / 262144 < 64 by omega),
        blockValue_letter hA (show group a 0 0 / 4096 % 64 < 64 by omega), quad_group_one,
        bytes_group]
    simp [encode, digits, padding, quads, hblock, List.replicate]
  | two a b =>
    have := group_lt a b 0
    have hblock : block A (letter A (group a b 0 / 262144)) (letter A (group a b 0 / 4096 % 64))
        (letter A (group a b 0 / 64 % 64)) padLetter = some [a, b, 0] := by
      simp [block, blockValue_letter hA (show group a b 0 / 262144 < 64 by omega),
        blockValue_letter hA (show group a b 0 / 4096 % 64 < 64 by omega),
        blockValue_letter hA (show group a b 0 / 64 % 64 < 64 by omega), quad_group_two,
        bytes_group]
    simp [encode, digits, padding, quads, hblock]
  | more a b c rest ih =>
    have := group_lt a b c
    have hblock : block A (letter A (group a b c / 262144)) (letter A (group a b c / 4096 % 64))
        (letter A (group a b c / 64 % 64)) (letter A (group a b c % 64)) = some [a, b, c] := by
      simp [block, blockValue_letter hA (show group a b c / 262144 < 64 by omega),
        blockValue_letter hA (show group a b c / 4096 % 64 < 64 by omega),
        blockValue_letter hA (show group a b c / 64 % 64 < 64 by omega),
        blockValue_letter hA (show group a b c % 64 < 64 by omega), quad_group, bytes_group]
    have hpad : padding (a :: b :: c :: rest).length = padding rest.length := by
      simp only [padding, List.length_cons]
      omega
    rw [encode, hpad]
    simp only [digits, List.cons_append, quads, hblock]
    rw [← encode, ih]
    rfl

theorem blockValue_eq_value {A : Alphabet} (hA : A.Proper) {c : UInt8} {n : ℕ}
    (h : value A c = some n) : blockValue A c = some n := by
  rw [blockValue, if_neg, h]
  rintro rfl
  rw [hA.pad] at h
  cases h

/-- On base64 letters both decoders agree, up to one byte for each padding letter. -/
theorem exists_decodeDigits {A : Alphabet} (hA : A.Proper) {p : ℕ} (hp : p ≤ 2)
    {body : List UInt8} (hbody : ∀ c ∈ body, value A c ≠ none) (h4 : (body.length + p) % 4 = 0) :
    ∃ b extra, decodeDigits A body = some b ∧
      quads A (body ++ List.replicate p padLetter) = b ++ extra ∧ extra.length = p := by
  induction body using blocks_induction with
  | short t hlt =>
    match t, hlt with
    | [], _ =>
      have hp0 : p = 0 := by simp at h4; omega
      subst hp0
      exact ⟨[], [], rfl, rfl, rfl⟩
    | [_], _ => simp at h4; omega
    | [w, x], _ =>
      have hp2 : p = 2 := by simp at h4; omega
      subst hp2
      obtain ⟨m, hw⟩ := Option.ne_none_iff_exists'.mp (hbody w (by simp))
      obtain ⟨n, hx⟩ := Option.ne_none_iff_exists'.mp (hbody x (by simp))
      refine ⟨(bytes (quad m n 0 0)).take 1, (bytes (quad m n 0 0)).drop 1, ?_, ?_, rfl⟩
      · simp [decodeDigits, hw, hx]
      · simp [quads, block, blockValue_eq_value hA hw, blockValue_eq_value hA hx, bytes,
          List.replicate]
    | [w, x, y], _ =>
      have hp1 : p = 1 := by simp at h4; omega
      subst hp1
      obtain ⟨m, hw⟩ := Option.ne_none_iff_exists'.mp (hbody w (by simp))
      obtain ⟨n, hx⟩ := Option.ne_none_iff_exists'.mp (hbody x (by simp))
      obtain ⟨k, hy⟩ := Option.ne_none_iff_exists'.mp (hbody y (by simp))
      refine ⟨(bytes (quad m n k 0)).take 2, (bytes (quad m n k 0)).drop 2, ?_, ?_, rfl⟩
      · simp [decodeDigits, hw, hx, hy]
      · simp [quads, block, blockValue_eq_value hA hw, blockValue_eq_value hA hx,
          blockValue_eq_value hA hy, bytes, List.replicate]
  | more w x y z rest ih =>
    simp only [List.length_cons] at h4
    obtain ⟨b, extra, hb, hq, hlen⟩ := ih (fun c hc => hbody c (by simp [hc])) (by omega)
    obtain ⟨m, hw⟩ := Option.ne_none_iff_exists'.mp (hbody w (by simp))
    obtain ⟨n, hx⟩ := Option.ne_none_iff_exists'.mp (hbody x (by simp))
    obtain ⟨k, hy⟩ := Option.ne_none_iff_exists'.mp (hbody y (by simp))
    obtain ⟨l, hz⟩ := Option.ne_none_iff_exists'.mp (hbody z (by simp))
    refine ⟨bytes (quad m n k l) ++ b, extra, ?_, ?_, hlen⟩
    · simp [decodeDigits, hw, hx, hy, hz, hb]
    · simp [quads, block, blockValue_eq_value hA hw, blockValue_eq_value hA hx,
        blockValue_eq_value hA hy, blockValue_eq_value hA hz, hq]

/-- Text made of letters and at most two padding letters is what the standard accepts. -/
theorem decodePadded_eq {A : Alphabet} (hA : A.Proper) {p : ℕ} (hp : p ≤ 2) {body : List UInt8}
    (hbody : ∀ c ∈ body, value A c ≠ none) (h4 : (body.length + p) % 4 = 0) :
    decodePadded A (body ++ List.replicate p padLetter) = decodeDigits A body := by
  have hdrop : (body ++ List.replicate p padLetter).rdropWhile (· == padLetter) = body := by
    rw [List.rdropWhile, List.reverse_append, List.reverse_replicate,
      List.dropWhile_append_of_pos (by simp)]
    cases hrev : body.reverse with
    | nil => simpa using hrev.symm
    | cons x r =>
      have hx : value A x ≠ none := hbody x (by rw [← List.mem_reverse, hrev]; simp)
      have hne : x ≠ padLetter := by
        rintro rfl
        exact hx hA.pad
      rw [List.dropWhile_cons_of_neg (by simpa using hne), ← hrev, List.reverse_reverse]
  rw [decodePadded, hdrop, if_pos]
  simp only [List.length_append, List.length_replicate]
  omega

/-- What the standard accepts is letters and at most two padding letters. -/
theorem exists_of_decodePadded {A : Alphabet} {t b : List UInt8}
    (h : decodePadded A t = some b) : ∃ body p, t = body ++ List.replicate p padLetter ∧ p ≤ 2 ∧
      (∀ c ∈ body, value A c ≠ none) ∧ t.length % 4 = 0 ∧ decodeDigits A body = some b := by
  simp only [decodePadded] at h
  split at h
  case isTrue hlen =>
    obtain ⟨h4, hle⟩ := hlen
    have hsplit : t = t.rdropWhile (· == padLetter) ++ t.rtakeWhile (· == padLetter) :=
      (List.rdropWhile_append_rtakeWhile (p := (· == padLetter)) (l := t)).symm
    have hpads : t.rtakeWhile (· == padLetter) =
        List.replicate (t.rtakeWhile (· == padLetter)).length padLetter :=
      List.eq_replicate_of_mem fun c hc => by simpa using List.mem_rtakeWhile_imp hc
    refine ⟨_, _, hpads ▸ hsplit, ?_, value_of_decodeDigits h, h4, h⟩
    have := congrArg List.length hsplit
    rw [List.length_append] at this
    omega
  case isFalse => cases h

end Base64
