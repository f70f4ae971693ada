import AhungryJanet.Janet.Strings

/-!
# JSON encoding

The encoding half of `json.c`: `encode_newline`, `encode_one` and `json_encode`.

The `Encoder` pushes onto one buffer; here the buffer is threaded through. The functions of the C
library that print and read doubles are the fields of `Libc`.
-/

namespace AhungryJanet

/-- The number functions of the C library that `json.c` calls, on the bit patterns of doubles. -/
structure Libc where
  /-- `sprintf (cbuf, "%.17g", x)`. -/
  sprintfG17 : UInt64 → Bytes
  /-- `strtod (p, &end)`: the value, and the text from `end` on. -/
  strtod : Bytes → UInt64 × Bytes
  /-- At a sign or a digit `strtod` skips no white space, and a numeral has no control
  characters. -/
  strtod_consumes : ∀ c t, c = 45 ∨ 48 ≤ c ∧ c ≤ 57 →
    ∃ numeral, c :: t = numeral ++ (strtod (c :: t)).2 ∧ ∀ x ∈ numeral, 32 < x

/-- A C library whose only number is zero. -/
def Libc.zero : Libc where
  sprintfG17 _ := ascii "0"
  strtod t := (0, t.dropWhile fun c => c = 45 ∨ 48 ≤ c ∧ c ≤ 57)
  strtod_consumes c t _ := by
    refine ⟨(c :: t).takeWhile fun c => c = 45 ∨ 48 ≤ c ∧ c ≤ 57,
      List.takeWhile_append_dropWhile.symm, fun x hx => ?_⟩
    have hx := List.mem_takeWhile_imp hx
    simp only [decide_eq_true_eq] at hx
    rcases hx with rfl | ⟨hx, -⟩
    · decide
    · exact UInt8.lt_of_lt_of_le (by decide) hx

/-- The errors of `json.c`, for encoding and decoding. -/
inductive JsonError where
  | badtype
  | invalidutf8
  | objectKey
  | recurdepth
  | eos
  | badident
  | badnum
  | wantcomma
  | wantcolon
  | badchar
  | wantstring
  | extraToken
  | invalidCharacter
  | unknownEscape
  | invalidHexDigit
  | unexpectedLowSurrogate
  | expectedLowSurrogate
  /-- Not an error of the source: a bound on the recursion of the model, never reached. -/
  | outOfFuel
  deriving DecidableEq

/-- The text of an error. -/
def JsonError.text : JsonError → Bytes
  | badtype => ascii "type not supported"
  | invalidutf8 => ascii "string contains invalid utf-8"
  | objectKey => ascii "object key must be a byte sequence"
  | recurdepth => ascii "recured too deeply"
  | eos => ascii "unexpected end of source"
  | badident => ascii "bad identifier"
  | badnum => ascii "bad number"
  | wantcomma => ascii "expected comma"
  | wantcolon => ascii "expected colon"
  | badchar => ascii "unexpected character"
  | wantstring => ascii "expected json string"
  | extraToken => ascii "unexpected extra token"
  | invalidCharacter => ascii "invalid character in string"
  | unknownEscape => ascii "unknown string escape"
  | invalidHexDigit => ascii "invalid hex digit"
  | unexpectedLowSurrogate => ascii "unexpected utf-16 low surrogate"
  | expectedLowSurrogate => ascii "expected utf-16 low surrogate pair"
  | outOfFuel => []

/-! ### Strings -/

/-- `tohex(x)`. -/
def tohex (x : ℕ) : UInt8 := (ascii "0123456789ABCDEF").getD x 0

/-- A `\u` escape of sixteen bits. -/
def unicodeEscape (codepoint : ℕ) : Bytes :=
  [92, 117, tohex (codepoint >>> 12 &&& 0xF), tohex (codepoint >>> 8 &&& 0xF),
    tohex (codepoint >>> 4 &&& 0xF), tohex (codepoint &&& 0xF)]

/-- `/* write codepoint */` in `encode_one`. -/
def encodeCodepoint (codepoint : ℕ) : Bytes :=
  if codepoint > 0x1F ∧ codepoint < 0x80 then
    (if codepoint = 92 ∨ codepoint = 34 then [92] else []) ++ [UInt8.ofNat codepoint]
  else if codepoint < 0x10000 then unicodeEscape codepoint
  else
    unicodeEscape ((codepoint - 0x10000) >>> 10 + 0xD800) ++
      unicodeEscape (((codepoint - 0x10000) &&& 0x3FF) + 0xDC00)

/-- `(c >> 6) != 2` is the failure of this test. -/
def isContinuation (c : UInt8) : Bool := c >>> 6 == 2

/-- The low bits of a byte, as `c & mask`. -/
def low (c : UInt8) (mask : ℕ) : ℕ := c.toNat &&& mask

/-- `while (c < end)` in `encode_one`. In a sequence of four bytes the source takes the last byte
for the last two groups of six bits. -/
def encodeChars (buffer : Bytes) : Bytes → Except JsonError Bytes
  | [] => .ok buffer
  | c₀ :: c =>
    if c₀ < 0x80 then encodeChars (buffer ++ encodeCodepoint c₀.toNat) c
    else if c₀ < 0xE0 then
      match c with
      | c₁ :: c =>
        if !isContinuation c₁ then .error .invalidutf8
        else encodeChars (buffer ++ encodeCodepoint (low c₀ 0x1F <<< 6 ||| low c₁ 0x3F)) c
      | [] => .error .invalidutf8
    else if c₀ < 0xF0 then
      match c with
      | c₁ :: c₂ :: c =>
        if !isContinuation c₁ then .error .invalidutf8
        else if !isContinuation c₂ then .error .invalidutf8
        else
          encodeChars
            (buffer ++
              encodeCodepoint (low c₀ 0x0F <<< 12 ||| low c₁ 0x3F <<< 6 ||| low c₂ 0x3F)) c
      | _ => .error .invalidutf8
    else if c₀ < 0xF8 then
      match c with
      | c₁ :: c₂ :: c₃ :: c =>
        if !isContinuation c₁ then .error .invalidutf8
        else if !isContinuation c₂ then .error .invalidutf8
        else if !isContinuation c₃ then .error .invalidutf8
        else
          encodeChars
            (buffer ++
              encodeCodepoint
                (low c₀ 0x07 <<< 18 ||| low c₁ 0x3F <<< 12 ||| low c₃ 0x3F <<< 6 |||
                  low c₃ 0x3F)) c
      | _ => .error .invalidutf8
    else .error .invalidutf8

/-- Printable ASCII other than `"` and `\` is copied. -/
theorem encodeChars_of_plain {s : Bytes} (h : ∀ c ∈ s, 31 < c ∧ c < 0x80 ∧ c ≠ 92 ∧ c ≠ 34)
    (buffer : Bytes) : encodeChars buffer s = .ok (buffer ++ s) := by
  induction s generalizing buffer with
  | nil => simp [encodeChars]
  | cons c s ih =>
    obtain ⟨h31, h80, h92, h34⟩ := h c (by simp)
    have hcode : encodeCodepoint c.toNat = [c] := by
      have h92' : c.toNat ≠ 92 := fun e => h92 (UInt8.toNat.inj e)
      have h34' : c.toNat ≠ 34 := fun e => h34 (UInt8.toNat.inj e)
      have h31' : c.toNat > 0x1F := UInt8.lt_iff_toNat_lt.mp h31
      have h80' : c.toNat < 0x80 := UInt8.lt_iff_toNat_lt.mp h80
      simp [encodeCodepoint, h31', h80', h92', h34']
    rw [encodeChars.eq_def]
    simp only [if_pos h80, hcode]
    rw [ih fun x hx => h x (by simp [hx])]
    simp

/-! ### Values -/

/-- `Encoder`, without its buffer. -/
structure Encoder where
  indent : ℕ
  tab : Bytes
  newline : Bytes

/-- `encode_newline`. -/
def encodeNewline (e : Encoder) (buffer : Bytes) : Bytes :=
  if e.tab.length = 0 then buffer ++ e.newline
  else buffer ++ e.newline ++ (List.replicate e.indent e.tab).flatten

/-- `if (e->buffer->data[e->buffer->count - 1] == ',')`: take back the last comma. -/
def dropComma (e : Encoder) (buffer : Bytes) : Bytes :=
  if buffer.getLast? = some 44 then encodeNewline e buffer.dropLast else buffer

mutual

/-- `encode_one`. -/
def encodeOne (C : Libc) (e : Encoder) (buffer : Bytes) : Value → Except JsonError Bytes
  | .nil => .ok (buffer ++ ascii "null")
  | .boolean b => .ok (buffer ++ if b then ascii "true" else ascii "false")
  | .number x => .ok (buffer ++ C.sprintfG17 x)
  | .string s | .symbol s | .keyword s | .buffer s => do
    return (← encodeChars (buffer ++ [34]) s) ++ [34]
  | .tuple _ items | .array items => do
    let buffer ← encodeItems C { e with indent := e.indent + 1 } (buffer ++ [91]) items
    return dropComma e buffer ++ [93]
  | .table kvs | .struct kvs => do
    let buffer ← encodePairs C { e with indent := e.indent + 1 } (buffer ++ [123]) kvs
    return dropComma e buffer ++ [125]
  | .other _ => .error .badtype

/-- The loop over an array or a tuple. -/
def encodeItems (C : Libc) (e : Encoder) (buffer : Bytes) : List Value → Except JsonError Bytes
  | [] => .ok buffer
  | x :: items => do
    let buffer ← encodeOne C e (encodeNewline e buffer) x
    encodeItems C e (buffer ++ [44]) items

/-- The loop over the entries of a table or a struct. -/
def encodePairs (C : Libc) (e : Encoder) (buffer : Bytes) :
    List (Value × Value) → Except JsonError Bytes
  | [] => .ok buffer
  | (k, v) :: kvs => do
    if (bytesView k).isNone then .error .objectKey
    let buffer ← encodeOne C e (encodeNewline e buffer) k
    let buffer := buffer ++ if e.tab.length = 0 then ascii ":" else ascii ": "
    let buffer ← encodeOne C e buffer v
    encodePairs C e (buffer ++ [44]) kvs

end

/-- `(json/encode x)`. -/
def jsonEncode (C : Libc) (x : Value) : Call Bytes :=
  match encodeOne C ⟨0, [], []⟩ [] x with
  | .ok buffer => .ok buffer
  | .error err => .error (.jsonEncode err.text)

end AhungryJanet
