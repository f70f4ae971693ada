import AhungryJanet.Janet.Strings
import AhungryJanet.Library.Base64

/-!
# MACs and base64

`com_ahungry_crypt.c` and `com.ahungry.crypt`: the wrappers around the functions of OpenSSL, and
what the Janet module adds to them.

## The array `encoded`

`base64_encode_wrapped` computes `block_size` in `int` arithmetic, which overflows for a buffer of
more than `encodeMax` bytes: its behaviour is undefined then. Otherwise its result is the letters
that `EVP_EncodeBlock` stores. That a NUL is stored as well, behind the end of the array, is the
subject of `right_iff`; the byte it overwrites is nothing else of the models. Neither is the room
on the stack, which both arrays are assumed to find.

## The array `decoded`

`base64_decode_wrapped` computes the length of its result from the length of the text, lets
`EVP_DecodeBlock` write into an array of that length on the stack, and returns the whole array. It
does not look at what `EVP_DecodeBlock` returns. So the result is what was stored, and behind it
whatever the stack held before: `stack` below.

## Main results

* `base64DecodeWrapped_of_readable` — a text of base64 letters is decoded, whatever was on the stack
* `encodeBlockSize_eq_some_iff` — up to which length the encoder's size can be computed
* `base64EncodeNopad_eq` — without padding, an encoded text is the base64 digits of the data
* `base64Decode_digits` — what was encoded here is decoded, up to padding
* `undoUrlChars_eq` — one `_` and one `-` are mapped, no others
-/

namespace AhungryJanet

open Base64

/-- The functions of OpenSSL the module calls. Of a decoder call, only what it stores matters. -/
structure OpenSsl where
  /-- `HMAC (EVP_sha256(), key, …, val, …)`. -/
  hmac : Bytes → Bytes → Bytes
  /-- `EVP_EncodeBlock`. -/
  encodeBlock : Bytes → Bytes
  /-- `EVP_DecodeBlock`: the bytes it stores. -/
  decodeBlock : Bytes → Bytes
  /-- A MAC has 32 bytes. -/
  length_hmac : ∀ key val, (hmac key val).length = 32
  /-- The encoder is the standard one. -/
  encodeBlock_eq : ∀ data, encodeBlock data = encode standard data
  /-- The decoder may skip blanks in front, and blanks, line ends and `-` behind. It refuses what
  is left if that is not made of blocks, and stops at a block it cannot read. -/
  decodeBlock_eq : ∀ data, ∃ before text after, data = before ++ (text ++ after) ∧
    (∀ c ∈ before, c ∈ ascii "\t ") ∧ (∀ c ∈ after, c ∈ ascii "\t \n\r-") ∧
    decodeBlock data = if text.length % 4 = 0 then quads standard text else []

/-! ### The sizes of the arrays -/

/-- The result of an operation on numbers that are not negative, as an `int`. There is none if it
overflows. -/
def checkedInt (n : ℕ) : Option ℕ :=
  if n ≤ int32Max then some n else none

/-- `block_size`, where `block` bytes are for `group` bytes of the data. -/
def intBlockSize (group block datalen : ℕ) : Option ℕ := do
  let blockSize ← checkedInt (datalen / group * block)
  if datalen % group ≠ 0 then checkedInt (blockSize + block) else return blockSize

/-- `block_size` of `base64_encode_wrapped`. -/
def encodeBlockSize (datalen : ℕ) : Option ℕ := intBlockSize 3 4 datalen

/-- `block_size` of `base64_decode_wrapped`. -/
def decodeBlockSize (datalen : ℕ) : Option ℕ := intBlockSize 4 3 datalen

/-! ### The C functions -/

/-- `janet_getcstring (argv, n)`: a string without NUL. -/
def getCString (n : ℕ) : Value → Call Bytes
  | .string s => if cstr s = s then .ok s else .error .embeddedZeros
  | _ => .error (.badSlot n)

/-- `hmac_sha256_wrapped`. The count of the bytes pushed includes a NUL behind the MAC. Another NUL
is stored one byte behind the block of 33; that one is left out. -/
def hmacSha256Wrapped (L : OpenSsl) (key val : Value) : Call Bytes := do
  let key ← getCString 0 key
  let val ← getCString 1 val
  return L.hmac key val ++ [0]

/-- An array on the stack: its size, what is stored in it from its beginning on, and how many of its
bytes are returned. -/
structure ArrayUse where
  size : ℕ
  stored : Bytes
  returned : ℕ

/-- `encoded` of `base64_encode_wrapped`, on the bytes of a buffer. OpenSSL returns the number of
the letters, and stores a NUL behind them. There is no array if the computation of its size
overflows. -/
def encodedArray (L : OpenSsl) (buf : Bytes) : Option ArrayUse := do
  let blockSize ← encodeBlockSize buf.length
  let encoded := L.encodeBlock buf
  return { size := blockSize, stored := encoded ++ [0], returned := encoded.length }

/-- `base64_encode_wrapped`, on the bytes of a buffer: the letters are returned, and what the NUL
behind them overwrites is not looked at here. -/
def base64EncodeWrapped (L : OpenSsl) (buf : Bytes) : Call Bytes :=
  match encodedArray L buf with
  | some encoded => .ok (encoded.stored.take encoded.returned)
  | none => .error .undefined

/-- The length of the array `decoded`. -/
def blockSize (datalen : ℕ) : ℕ := datalen / 4 * 3 + if datalen % 4 ≠ 0 then 3 else 0

/-- An array of `n` bytes on the stack, after `stored` was written to its beginning. -/
def overStack (stack : ℕ → UInt8) (n : ℕ) (stored : Bytes) : Bytes :=
  (List.range n).map fun i => stored.getD i (stack i)

/-- `base64_decode_wrapped`, on a stack whose bytes at the array are `stack`. -/
def base64DecodeWrapped (L : OpenSsl) (stack : ℕ → UInt8) (data : Value) : Call Bytes := do
  let data ← getCString 0 data
  let decoded := overStack stack (blockSize data.length) (L.decodeBlock data)
  return decoded

/-! ### The Janet functions -/

/-- `base64-encode`. -/
def base64Encode (L : OpenSsl) (s : Bytes) : Call Bytes := base64EncodeWrapped L s

/-- `base64-encode-nopad`. -/
def base64EncodeNopad (L : OpenSsl) (s : Bytes) : Call Bytes := do
  return stringTrim (← base64EncodeWrapped L s) (ascii "=")

/-- `add-padding`, on a byte sequence. `(length s)` panics for nil. -/
def addPadding (s : Value) : Call Bytes :=
  match bytesView s with
  | some s =>
    let pad := 4 - s.length % 4
    let chars :=
      match pad with
      | 1 => ascii "="
      | 2 => ascii "=="
      | 3 => ascii "==="
      | _ => []
    .ok (s ++ chars)
  | none => .error (.badSlot 0)

/-- `undo-url-chars`. -/
def undoUrlChars (s : Bytes) : Call Bytes := do
  let s ← stringReplace (ascii "_") (ascii "/") s
  stringReplace (ascii "-") (ascii "+") s

/-- `base64-decode`. -/
def base64Decode (L : OpenSsl) (stack : ℕ → UInt8) (s : Value) : Call Bytes := do
  let s ← addPadding s
  let s ← undoUrlChars s
  base64DecodeWrapped L stack (.string s)

/-! ### When the sizes can be computed -/

theorem checkedInt_eq_some_iff {n k : ℕ} : checkedInt n = some k ↔ n = k ∧ n ≤ int32Max := by
  rw [checkedInt]
  split
  case isTrue h => simp [h]
  case isFalse h => simp [h]

/-- The size is that of the groups begun, and must be an `int`. -/
theorem intBlockSize_eq_some_iff {group block n k : ℕ} (hgroup : 0 < group) :
    intBlockSize group block n = some k ↔
      (n + (group - 1)) / group * block = k ∧ k ≤ int32Max := by
  have hlt : group - 1 < group := by omega
  have hbegun : (n + (group - 1)) / group = n / group + if n % group ≠ 0 then 1 else 0 := by
    rw [Nat.add_div hgroup, Nat.div_eq_of_lt hlt, Nat.mod_eq_of_lt hlt, Nat.add_zero]
    congr 1
    exact if_congr (by omega) rfl rfl
  rw [intBlockSize, hbegun, Option.bind_eq_bind, Option.bind_eq_some_iff]
  simp only [checkedInt_eq_some_iff]
  split
  case isTrue hrest =>
    rw [Nat.add_mul, Nat.one_mul]
    constructor
    · rintro ⟨blockSize, ⟨rfl, -⟩, hsize⟩
      rw [checkedInt_eq_some_iff] at hsize
      exact ⟨hsize.1, hsize.1 ▸ hsize.2⟩
    · rintro ⟨rfl, hle⟩
      exact ⟨_, ⟨rfl, (Nat.le_add_right _ _).trans hle⟩, checkedInt_eq_some_iff.mpr ⟨rfl, hle⟩⟩
  case isFalse hrest =>
    rw [Nat.add_zero]
    constructor
    · rintro ⟨blockSize, ⟨rfl, hle⟩, hsize⟩
      cases hsize
      exact ⟨rfl, hle⟩
    · rintro ⟨rfl, hle⟩
      exact ⟨_, ⟨rfl, hle⟩, rfl⟩

/-- A buffer of more than 1610612733 bytes is too long for the encoder's computation. -/
theorem encodeBlockSize_eq_some_iff {n k : ℕ} :
    encodeBlockSize n = some k ↔ (n + 2) / 3 * 4 = k ∧ n ≤ 1610612733 := by
  rw [encodeBlockSize, intBlockSize_eq_some_iff (by decide), int32Max]
  omega

/-! ### Padding -/

/-- The padded text. -/
def padded (s : Bytes) : Bytes := s ++ List.replicate ((4 - s.length % 4) % 4) padLetter

theorem addPadding_string (s : Bytes) : addPadding (.string s) = .ok (padded s) := by
  have hpad : s.length % 4 = 0 ∨ s.length % 4 = 1 ∨ s.length % 4 = 2 ∨ s.length % 4 = 3 := by omega
  rcases hpad with h | h | h | h <;> simp only [addPadding, bytesView, padded, h] <;> rfl

theorem length_padded (s : Bytes) : (padded s).length % 4 = 0 := by
  simp only [padded, List.length_append, List.length_replicate]
  omega

theorem padded_of_length {s : Bytes} (h : s.length % 4 = 0) : padded s = s := by
  simp [padded, h]

/-- Padding gives the digits of any data back their padding letters. -/
theorem padded_digits (A : Alphabet) (d : Bytes) : padded (digits A d) = encode A d := by
  have hlen := length_digits A d
  have hpad : padding d.length < 3 := Nat.mod_lt _ (by decide)
  rw [padded, encode]
  congr 2
  omega

/-! ### Mapping the url characters -/

theorem stringReplace_singleton (a b : UInt8) (s : Bytes) :
    stringReplace [a] [b] s = .ok (s.replace a b) := by
  rcases Search.not_isInfix_or_exists_cutAt [a] s (by simp) with hno | ⟨x, y, hcut⟩
  · rw [stringReplace_of_not_isInfix (by simp) [b] hno, List.replace_of_not_mem]
    rwa [← List.singleton_infix_iff]
  · have hx : a ∉ x := hcut.not_mem_of_singleton
    rw [stringReplace_of_cutAt (by simp) [b] hcut, hcut.eq, List.replace_append_right hx]
    simp

/-- The text a third segment becomes before it is decoded. -/
def unescaped (s : Bytes) : Bytes := ((padded s).replace 95 47).replace 45 43

theorem undoUrlChars_eq (s : Bytes) : undoUrlChars s = .ok ((s.replace 95 47).replace 45 43) := by
  have h₁ := stringReplace_singleton 95 47 s
  have h₂ := stringReplace_singleton 45 43 (s.replace 95 47)
  simp only [undoUrlChars, bind, Except.bind]
  rw [show ascii "_" = [95] from rfl, show ascii "/" = [47] from rfl, h₁]
  exact h₂

theorem base64Decode_string (L : OpenSsl) (stack : ℕ → UInt8) (s : Bytes) :
    base64Decode L stack (.string s) = base64DecodeWrapped L stack (.string (unescaped s)) := by
  simp [base64Decode, addPadding_string, undoUrlChars_eq, unescaped, bind, Except.bind]

theorem length_unescaped (s : Bytes) : (unescaped s).length = (padded s).length := by
  simp [unescaped]

theorem nulFree_replace {a b : UInt8} (ha : a ≠ 0) (hb : b ≠ 0) (s : Bytes) :
    NulFree (s.replace a b) ↔ NulFree s := by
  induction s with
  | nil => rfl
  | cons c s ih =>
    simp only [NulFree, List.mem_cons, forall_eq_or_imp] at ih ⊢
    by_cases h : a = c
    · subst h
      simp [ha, hb]
    · rw [List.replace_cons, beq_false_of_ne h]
      simp only [List.mem_cons, forall_eq_or_imp]
      rw [ih]

theorem nulFree_unescaped (s : Bytes) : NulFree (unescaped s) ↔ NulFree s := by
  rw [unescaped, nulFree_replace (by decide) (by decide), nulFree_replace (by decide) (by decide),
    padded]
  refine ⟨fun h c hc => h c (by simp [hc]), fun h => h.append fun c hc => ?_⟩
  rw [List.eq_of_mem_replicate hc]
  decide

/-- A text without the url characters is left alone. -/
theorem undoUrlChars_of_not_mem {s : Bytes} (h : ∀ c ∈ s, c ≠ 45 ∧ c ≠ 95) :
    undoUrlChars s = .ok s := by
  have h95 : (95 : UInt8) ∉ s := fun hm => (h 95 hm).2 rfl
  have h45 : (45 : UInt8) ∉ s := fun hm => (h 45 hm).1 rfl
  rw [undoUrlChars_eq, List.replace_of_not_mem h95, List.replace_of_not_mem h45]

/-! ### Decoding -/

theorem getCString_of_nulFree (n : ℕ) {s : Bytes} (h : NulFree s) :
    getCString n (.string s) = .ok s := by
  rw [getCString, if_pos (cstr_of_nulFree h)]

theorem getCString_of_not_nulFree (n : ℕ) {s : Bytes} (h : ¬ NulFree s) :
    getCString n (.string s) = .error .embeddedZeros := by
  rw [getCString, if_neg fun hs => h (cstr_eq_self_iff.mp hs)]

@[simp] theorem length_overStack (stack : ℕ → UInt8) (n : ℕ) (stored : Bytes) :
    (overStack stack n stored).length = n := by
  simp [overStack]

/-- What was stored, and behind it the stack. -/
theorem overStack_eq (stack : ℕ → UInt8) {n : ℕ} {stored : Bytes} (h : stored.length ≤ n) :
    overStack stack n stored =
      stored ++ (List.range (n - stored.length)).map fun i => stack (stored.length + i) := by
  refine List.ext_getElem? fun i => ?_
  by_cases hi : i < stored.length
  · have hin : i < n := by omega
    simp [overStack, List.getElem?_append_left hi, hi, hin]
  · rw [List.getElem?_append_right (by omega)]
    by_cases hin : i < n
    · have hi' : i - stored.length < n - stored.length := by omega
      have hadd : stored.length + (i - stored.length) = i := by omega
      have hnone : stored[i]? = none := List.getElem?_eq_none (by omega)
      simp [overStack, hin, hi', hadd, hnone]
    · have hi' : ¬ i - stored.length < n - stored.length := by omega
      simp [overStack, hin, hi']

/-- An array filled by the decoder shows nothing of the stack. -/
theorem overStack_of_length (stack : ℕ → UInt8) {n : ℕ} {stored : Bytes} (h : stored.length = n) :
    overStack stack n stored = stored := by
  rw [overStack_eq stack h.le, h, Nat.sub_self]
  simp

/-- A stack that holds the rest of a text completes it. -/
theorem overStack_of_isPrefix {stored full : Bytes} (h : stored <+: full) :
    overStack (fun i => full.getD i 0) full.length stored = full := by
  obtain ⟨missing, rfl⟩ := h
  refine List.ext_getElem (by simp) fun i hi hi' => ?_
  simp only [overStack, List.getElem_map, List.getElem_range]
  by_cases hlt : i < stored.length
  · simp [hlt]
  · have hnone : stored[i]? = none := List.getElem?_eq_none (by omega)
    rw [List.getD_eq_getElem?_getD, hnone, Option.getD_none, List.getD_eq_getElem?_getD,
      List.getElem?_eq_getElem hi', Option.getD_some]

/-- What was stored is at the beginning. -/
theorem isPrefix_overStack (stack : ℕ → UInt8) {n : ℕ} {stored : Bytes} (h : stored.length ≤ n) :
    stored <+: overStack stack n stored := by
  rw [overStack_eq stack h]
  exact List.prefix_append _ _

/-- An array that was not filled can hold something else than any given text. -/
theorem exists_overStack_ne {n : ℕ} {stored : Bytes} (h : stored.length < n) (full : Bytes) :
    ∃ stack, overStack stack n stored ≠ full := by
  refine ⟨fun i => full.getD i 0 + 1, fun heq => ?_⟩
  have hlen : full.length = n := by rw [← heq, length_overStack]
  have hget := congrArg (fun l => l.getD stored.length 0) heq
  simp [overStack, h, hlen] at hget

theorem base64DecodeWrapped_eq (L : OpenSsl) (stack : ℕ → UInt8) {t : Bytes} (h : NulFree t) :
    base64DecodeWrapped L stack (.string t) =
      .ok (overStack stack (blockSize t.length) (L.decodeBlock t)) := by
  simp [base64DecodeWrapped, getCString_of_nulFree 0 h, overStack, bind, Except.bind, pure,
    Except.pure]

theorem blockSize_of_blocks {n : ℕ} (h : n % 4 = 0) : blockSize n = n / 4 * 3 := by
  simp [blockSize, h]

private theorem not_readable_of_skipped {c : UInt8} (h : c ∈ ascii "\t \n\r-") :
    ¬ Readable standard c := by
  have hall : ∀ c ∈ ascii "\t \n\r-", ¬ Readable standard c := by decide
  exact hall c h

/-- The decoder stores no more than the array holds. -/
theorem length_decodeBlock_le (L : OpenSsl) (t : Bytes) :
    (L.decodeBlock t).length ≤ t.length / 4 * 3 := by
  obtain ⟨before, text, after, ht, -, -, hdecode⟩ := L.decodeBlock_eq t
  have hlen : text.length ≤ t.length := by
    rw [ht]
    simp only [List.length_append]
    omega
  rw [hdecode]
  split
  · refine (length_quads_le standard text).trans ?_
    omega
  · simp

theorem length_decodeBlock_mod (L : OpenSsl) (t : Bytes) : (L.decodeBlock t).length % 3 = 0 := by
  obtain ⟨before, text, after, -, -, -, hdecode⟩ := L.decodeBlock_eq t
  rw [hdecode]
  split
  · exact length_quads_mod standard text
  · rfl

/-- Blocks of letters are decoded as they stand. -/
theorem decodeBlock_of_readable (L : OpenSsl) {t : Bytes} (h4 : t.length % 4 = 0)
    (h : ∀ c ∈ t, Readable standard c) : L.decodeBlock t = quads standard t := by
  obtain ⟨before, text, after, rfl, hbefore, hafter, hdecode⟩ := L.decodeBlock_eq t
  have hsub : ∀ c ∈ ascii "\t ", c ∈ ascii "\t \n\r-" := by decide
  have hb : before = [] := by
    cases before with
    | nil => rfl
    | cons c r =>
      exact absurd (h c (by simp)) (not_readable_of_skipped (hsub c (hbefore c (by simp))))
  have ha : after = [] := by
    cases after with
    | nil => rfl
    | cons c r => exact absurd (h c (by simp)) (not_readable_of_skipped (hafter c (by simp)))
  subst hb ha
  rw [List.nil_append, List.append_nil] at h4 hdecode ⊢
  rw [hdecode, if_pos h4]

/-- A text that fills the array has nothing but letters. -/
theorem readable_of_length_decodeBlock (L : OpenSsl) {t : Bytes} (h4 : t.length % 4 = 0)
    (h : (L.decodeBlock t).length = t.length / 4 * 3) : ∀ c ∈ t, Readable standard c := by
  obtain ⟨before, text, after, ht, -, -, hdecode⟩ := L.decodeBlock_eq t
  have hlen : t.length = before.length + (text.length + after.length) := by rw [ht]; simp
  rw [hdecode] at h
  split at h
  case isTrue ht4 =>
    have hle := length_quads_le standard text
    have hb : before = [] := List.eq_nil_of_length_eq_zero (by omega)
    have ha : after = [] := List.eq_nil_of_length_eq_zero (by omega)
    subst hb ha
    rw [List.nil_append, List.append_nil] at ht
    subst ht
    intro c hc
    by_contra hbad
    have := length_quads_lt h4 hc hbad
    omega
  case isFalse =>
    have : t = [] := List.eq_nil_of_length_eq_zero (by simp at h; omega)
    simp [this]

/-- **A text of base64 letters is decoded whatever was on the stack.** -/
theorem base64DecodeWrapped_of_readable (L : OpenSsl) (stack : ℕ → UInt8) {t : Bytes}
    (h4 : t.length % 4 = 0) (hnul : NulFree t) (h : ∀ c ∈ t, Readable standard c) :
    base64DecodeWrapped L stack (.string t) = .ok (quads standard t) := by
  rw [base64DecodeWrapped_eq L stack hnul, decodeBlock_of_readable L h4 h,
    overStack_of_length stack]
  rw [length_quads_of_readable h, blockSize_of_blocks h4]

/-! ### Encoding -/

theorem ne_zero_of_readable {c : UInt8} (h : Readable standard c) : c ≠ 0 := by
  rintro rfl
  exact absurd h (by decide)

theorem readable_of_mem_digits {d : Bytes} {c : UInt8} (h : c ∈ digits standard d) :
    Readable standard c := by
  obtain ⟨n, hn⟩ := value_of_mem_digits proper_standard h
  exact readable_of_value hn

theorem readable_of_mem_encode {d : Bytes} {c : UInt8} (h : c ∈ encode standard d) :
    Readable standard c := by
  rcases List.mem_append.mp h with h | h
  · exact readable_of_mem_digits h
  · rw [List.eq_of_mem_replicate h]
    exact readable_pad standard

theorem length_encode (A : Alphabet) (d : Bytes) :
    (encode A d).length = (d.length + 2) / 3 * 4 := by
  rw [encode, List.length_append, List.length_replicate, length_digits]

/-- The longest buffer whose `block_size` is an `int`. -/
def encodeMax : ℕ := 1610612733

theorem base64EncodeWrapped_eq (L : OpenSsl) {d : Bytes} (h : d.length ≤ encodeMax) :
    base64EncodeWrapped L d = .ok (encode standard d) := by
  have hsize := encodeBlockSize_eq_some_iff.mpr ⟨rfl, h⟩
  have harray : encodedArray L d = some
      ⟨(d.length + 2) / 3 * 4, L.encodeBlock d ++ [0], (L.encodeBlock d).length⟩ := by
    rw [encodedArray, hsize]
    rfl
  rw [base64EncodeWrapped, harray, L.encodeBlock_eq]
  exact congrArg Except.ok List.take_left

/-- Of a longer buffer, nothing can be said. -/
theorem base64EncodeWrapped_of_lt (L : OpenSsl) {d : Bytes} (h : encodeMax < d.length) :
    base64EncodeWrapped L d = .error .undefined := by
  have hsize : encodeBlockSize d.length = none := by
    rw [Option.eq_none_iff_forall_ne_some]
    intro k hk
    exact absurd (encodeBlockSize_eq_some_iff.mp hk).2 (Nat.not_le.mpr h)
  rw [base64EncodeWrapped, encodedArray, hsize]
  rfl

theorem stringTrim_encode (d : Bytes) :
    stringTrim (encode standard d) (ascii "=") = digits standard d := by
  have hends : ∀ x ∈ digits standard d, trimHelpCheckset (ascii "=") x = false := by
    intro x hx
    obtain ⟨n, hn⟩ := value_of_mem_digits proper_standard hx
    have hne : x ≠ padLetter := by
      rintro rfl
      rw [proper_standard.pad] at hn
      cases hn
    simpa [trimHelpCheckset, ascii] using fun h : 61 = x => hne h.symm
  rw [encode]
  refine stringTrim_append (fun x hx => hends x (List.mem_of_mem_head? hx))
    (fun x hx => hends x (List.mem_of_getLast? hx)) fun x hx => ?_
  rw [List.eq_of_mem_replicate hx]
  decide

/-- **Without padding, an encoded text is the base64 digits of the data.** -/
theorem base64EncodeNopad_eq (L : OpenSsl) {d : Bytes} (h : d.length ≤ encodeMax) :
    base64EncodeNopad L d = .ok (digits standard d) := by
  rw [base64EncodeNopad, base64EncodeWrapped_eq L h]
  exact congrArg Except.ok (stringTrim_encode d)

theorem base64EncodeNopad_of_lt (L : OpenSsl) {d : Bytes} (h : encodeMax < d.length) :
    base64EncodeNopad L d = .error .undefined := by
  rw [base64EncodeNopad, base64EncodeWrapped_of_lt L h]
  rfl

/-- The alphabet of the encoder has neither of the url characters, and no dot. -/
theorem ne_of_mem_digits {d : Bytes} {c : UInt8} (h : c ∈ digits standard d) :
    c ≠ 45 ∧ c ≠ 95 ∧ c ≠ 46 := by
  obtain ⟨n, hn, rfl⟩ := mem_digits h
  have hall : ∀ n < 64,
      letter standard n ≠ 45 ∧ letter standard n ≠ 95 ∧ letter standard n ≠ 46 := by
    decide
  exact hall n hn

/-- The mapping changes nothing that was encoded here. -/
theorem undoUrlChars_digits (d : Bytes) :
    undoUrlChars (digits standard d) = .ok (digits standard d) :=
  undoUrlChars_of_not_mem fun _ hc => ⟨(ne_of_mem_digits hc).1, (ne_of_mem_digits hc).2.1⟩

theorem undoUrlChars_encode (d : Bytes) :
    undoUrlChars (encode standard d) = .ok (encode standard d) := by
  refine undoUrlChars_of_not_mem fun c hc => ?_
  rcases List.mem_append.mp hc with hc | hc
  · exact ⟨(ne_of_mem_digits hc).1, (ne_of_mem_digits hc).2.1⟩
  · rw [List.eq_of_mem_replicate hc]
    decide

theorem length_encode_mod (d : Bytes) : (encode standard d).length % 4 = 0 := by
  rw [length_encode]
  omega

/-- What is missing of an encoded text, with padding or without, is what `add-padding` adds. -/
theorem unescaped_of_padded {s d : Bytes} (h : padded s = encode standard d) :
    unescaped s = encode standard d := by
  have hundo := undoUrlChars_encode d
  rw [undoUrlChars_eq] at hundo
  rw [unescaped, h]
  exact Except.ok.inj hundo

theorem unescaped_digits (d : Bytes) : unescaped (digits standard d) = encode standard d :=
  unescaped_of_padded (padded_digits standard d)

theorem unescaped_encode (d : Bytes) : unescaped (encode standard d) = encode standard d :=
  unescaped_of_padded (padded_of_length (length_encode_mod d))

/-- What was encoded here is decoded, whatever was on the stack, up to one zero for each padding
letter. -/
theorem base64Decode_of_unescaped (L : OpenSsl) (stack : ℕ → UInt8) {s d : Bytes}
    (h : unescaped s = encode standard d) : base64Decode L stack (.string s) =
      .ok (d ++ List.replicate (padding d.length) 0) := by
  rw [base64Decode_string, h,
    base64DecodeWrapped_of_readable L stack (length_encode_mod d)
      (fun c hc => ne_zero_of_readable (readable_of_mem_encode hc))
      fun c hc => readable_of_mem_encode hc,
    quads_encode proper_standard]

theorem base64Decode_digits (L : OpenSsl) (stack : ℕ → UInt8) (d : Bytes) :
    base64Decode L stack (.string (digits standard d)) =
      .ok (d ++ List.replicate (padding d.length) 0) :=
  base64Decode_of_unescaped L stack (unescaped_digits d)

theorem base64Decode_encode (L : OpenSsl) (stack : ℕ → UInt8) (d : Bytes) :
    base64Decode L stack (.string (encode standard d)) =
      .ok (d ++ List.replicate (padding d.length) 0) :=
  base64Decode_of_unescaped L stack (unescaped_encode d)

/-! ### A concrete library -/

/-- The loop of `EVP_DecodeBlock` that takes blanks, line ends and `-` off the end, on the text read
backwards. Three letters are left alone. -/
def stripEnd : Bytes → Bytes
  | [] => []
  | c :: t => if 3 ≤ t.length ∧ c ∈ ascii "\t \n\r-" then stripEnd t else c :: t

theorem exists_stripEnd (t : Bytes) :
    ∃ after, t = after ++ stripEnd t ∧ ∀ c ∈ after, c ∈ ascii "\t \n\r-" := by
  induction t with
  | nil => exact ⟨[], rfl, by simp⟩
  | cons c t ih =>
    rw [stripEnd]
    split
    case isTrue h =>
      obtain ⟨after, ht, hafter⟩ := ih
      refine ⟨c :: after, by rw [List.cons_append, ← ht], fun x hx => ?_⟩
      rcases List.mem_cons.mp hx with rfl | hx
      · exact h.2
      · exact hafter x hx
    case isFalse => exact ⟨[], rfl, by simp⟩

/-- What `EVP_DecodeBlock` stores. -/
def evpDecodeBlock (data : Bytes) : Bytes :=
  let text := (stripEnd (data.dropWhile fun c => c ∈ ascii "\t ").reverse).reverse
  if text.length % 4 = 0 then quads standard text else []

/-- OpenSSL with the MACs of a list of recorded calls. -/
def OpenSsl.recorded (macs : List ((Bytes × Bytes) × Bytes)) (h : ∀ m ∈ macs, m.2.length = 32) :
    OpenSsl where
  hmac key val := (macs.lookup (key, val)).getD (List.replicate 32 0)
  encodeBlock := encode standard
  decodeBlock := evpDecodeBlock
  length_hmac key val := by
    cases hmac : macs.lookup (key, val) with
    | none => rfl
    | some mac =>
      obtain ⟨l₁, l₂, rfl, -⟩ := List.lookup_eq_some_iff.mp hmac
      exact h ((key, val), mac) (by simp)
  encodeBlock_eq _ := rfl
  decodeBlock_eq data := by
    obtain ⟨after, hrev, hafter⟩ :=
      exists_stripEnd (data.dropWhile fun c => c ∈ ascii "\t ").reverse
    refine ⟨data.takeWhile fun c => c ∈ ascii "\t ",
      (stripEnd (data.dropWhile fun c => c ∈ ascii "\t ").reverse).reverse, after.reverse, ?_,
      fun c hc => by simpa using List.mem_takeWhile_imp hc,
      fun c hc => hafter c (by simpa using hc),
      rfl⟩
    rw [← List.reverse_append, ← hrev, List.reverse_reverse, List.takeWhile_append_dropWhile]

end AhungryJanet
