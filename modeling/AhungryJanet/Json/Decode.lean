import AhungryJanet.Json.Encode

/-!
# JSON decoding

The decoding half of `json.c`: `skipwhite`, `decode_utf16_escape`, `decode_string`, `decode_one`
and `json_decode`.

A `const char *p` into the text is the text from there on, up to the terminating NUL; the NUL is
the end of the list. Every function that moves `*p` returns the new rest, also when it fails, since
the message of `json/decode` names the position.

## Main results

* `decodeOne_consumes` — a value that was decoded stands in front of the rest, and no control
  character is part of it
* `decodeOne_ne_outOfFuel` — the recursion bound of the model is never reached
* `jsonDecode_append_one` — a text that is cut short and followed by a control character is
  refused
-/

namespace AhungryJanet

/-- `white`. -/
def white (c : UInt8) : Bool := c == 9 || c == 10 || c == 32 || c == 13

/-- `skipwhite`. -/
def skipwhite (p : Bytes) : Bytes := p.dropWhile white

/-- `hexdig`; `-1` is `none`. -/
def hexdig (dig : UInt8) : Option ℕ :=
  if 48 ≤ dig ∧ dig ≤ 57 then some (dig.toNat - 48)
  else if 97 ≤ dig ∧ dig ≤ 102 then some (10 + dig.toNat - 97)
  else if 65 ≤ dig ∧ dig ≤ 70 then some (10 + dig.toNat - 65)
  else none

/-- `decode_utf16_escape`, on the four characters it reads. -/
def decodeUtf16Escape (p₀ p₁ p₂ p₃ : UInt8) : Except JsonError ℕ :=
  match hexdig p₀, hexdig p₁, hexdig p₂, hexdig p₃ with
  | some d₁, some d₂, some d₃, some d₄ => .ok (d₄ ||| d₃ <<< 4 ||| d₂ <<< 8 ||| d₁ <<< 12)
  | _, _, _, _ => .error .invalidHexDigit

/-- `/* Write codepoint */` in `decode_string`. -/
def writeCodepoint (codepoint : ℕ) : Bytes :=
  if codepoint ≤ 0x7F then [UInt8.ofNat codepoint]
  else if codepoint ≤ 0x7FF then
    [UInt8.ofNat (codepoint >>> 6 &&& 0x1F ||| 0xC0), UInt8.ofNat (codepoint &&& 0x3F ||| 0x80)]
  else if codepoint ≤ 0xFFFF then
    [UInt8.ofNat (codepoint >>> 12 &&& 0x0F ||| 0xE0),
      UInt8.ofNat (codepoint >>> 6 &&& 0x3F ||| 0x80), UInt8.ofNat (codepoint &&& 0x3F ||| 0x80)]
  else
    [UInt8.ofNat (codepoint >>> 18 &&& 0x07 ||| 0xF0),
      UInt8.ofNat (codepoint >>> 12 &&& 0x3F ||| 0x80),
      UInt8.ofNat (codepoint >>> 6 &&& 0x3F ||| 0x80), UInt8.ofNat (codepoint &&& 0x3F ||| 0x80)]

/-- The one-letter escapes. -/
def simpleEscape (c : UInt8) : Option UInt8 :=
  if c = 98 then some 8
  else if c = 102 then some 12
  else if c = 110 then some 10
  else if c = 114 then some 13
  else if c = 116 then some 9
  else if c = 34 then some 34
  else if c = 92 then some 92
  else if c = 47 then some 47
  else none

/-- `decode_string`, from behind the opening quote. -/
def decodeString (buffer : Bytes) : Bytes → Except JsonError (Bytes × Bytes)
  | [] => .error .invalidCharacter
  | b :: cp =>
    if b = 34 then .ok (buffer, cp)
    else if b < 32 then .error .invalidCharacter
    else if b = 92 then
      match cp with
      | [] => .error .unknownEscape
      | 117 :: hex =>
        match hex with
        | p₀ :: p₁ :: p₂ :: p₃ :: cp =>
          match decodeUtf16Escape p₀ p₁ p₂ p₃ with
          | .error err => .error err
          | .ok codepoint =>
            if 0xDC00 ≤ codepoint ∧ codepoint ≤ 0xDFFF then .error .unexpectedLowSurrogate
            else if 0xD800 ≤ codepoint ∧ codepoint ≤ 0xDBFF then
              match cp with
              | 92 :: 117 :: hex =>
                match hex with
                | q₀ :: q₁ :: q₂ :: q₃ :: cp =>
                  match decodeUtf16Escape q₀ q₁ q₂ q₃ with
                  | .error err => .error err
                  | .ok lowsur =>
                    if lowsur < 0xDC00 ∨ lowsur > 0xDFFF then .error .expectedLowSurrogate
                    else
                      decodeString
                        (buffer ++
                          writeCodepoint
                            ((codepoint - 0xD800) <<< 10 + (lowsur - 0xDC00) + 0x10000)) cp
                | _ => .error .eos
              | _ => .error .expectedLowSurrogate
            else decodeString (buffer ++ writeCodepoint codepoint) cp
        | _ => .error .eos
      | c :: cp =>
        match simpleEscape c with
        | some b => decodeString (buffer ++ [b]) cp
        | none => .error .unknownEscape
    else decodeString (buffer ++ [b]) cp

/-- `JANET_RECURSION_GUARD`. -/
def recursionGuard : ℕ := 1024

/-- The two flags `json/decode` takes. -/
structure DecodeFlags where
  keywordKey : Bool
  nullToNil : Bool

/-- A decoder either fails, with `*p` where it stopped, or returns a value and the rest. -/
abbrev Decoded := Except (JsonError × Bytes) (Value × Bytes)

/-- The key of an object entry, under `JSON_KEYWORD_KEY` or not. -/
def objectKey (fl : DecodeFlags) (key : Bytes) : Value :=
  if fl.keywordKey then .keyword key else .string key

/-- `janet_table_put`, which takes a nil as the removal of the key. -/
def putEntry (table : List (Bytes × Value)) (key : Bytes) : Value → List (Bytes × Value)
  | .nil => table.filter fun e => e.1 ≠ key
  | v => janetTablePut table key v

/-- A character `while ((*cp >= 32 || *cp < 0) && …)` passes: `char` is signed. -/
def plainChar (c : UInt8) : Bool := 32 ≤ c && c != 34 && c != 92

/-- The string case of `decode_one`, at the opening quote of `p = 34 :: t`. -/
def decodeQuoted (p t : Bytes) : Except (JsonError × Bytes) (Bytes × Bytes) :=
  match t.dropWhile plainChar with
  | 92 :: _ =>
    match decodeString [] t with
    | .ok (s, rest) => .ok (s, rest)
    | .error err => .error (err, t)
  | 34 :: rest => .ok (t.takeWhile plainChar, rest)
  | _ => .error (.badchar, p)

mutual

/-- `decode_one`. -/
def decodeOne (C : Libc) (fl : DecodeFlags) : (fuel depth : ℕ) → (p : Bytes) → Decoded
  | 0, _, p => .error (.outOfFuel, p)
  | fuel + 1, depth, p =>
    if depth > recursionGuard then .error (.recurdepth, p)
    else
      let p := skipwhite p
      match p with
      | [] => .error (.eos, p)
      | c :: t =>
        if c = 45 ∨ 48 ≤ c ∧ c ≤ 57 then
          let (x, rest) := C.strtod p
          if rest.length = p.length then .error (.badnum, p) else .ok (.number x, rest)
        else if c = 102 then
          match t with
          | 97 :: 108 :: 115 :: 101 :: rest => .ok (.boolean false, rest)
          | _ => .error (.badident, p)
        else if c = 110 then
          match t with
          | 117 :: 108 :: 108 :: rest =>
            .ok (if fl.nullToNil then .nil else .keyword (ascii "null"), rest)
          | _ => .error (.badident, p)
        else if c = 116 then
          match t with
          | 114 :: 117 :: 101 :: rest => .ok (.boolean true, rest)
          | _ => .error (.badident, p)
        else if c = 34 then
          match decodeQuoted p t with
          | .ok (s, rest) => .ok (.string s, rest)
          | .error err => .error err
        else if c = 91 then decodeItems C fl fuel depth [] (skipwhite t)
        else if c = 123 then decodePairs C fl fuel depth [] (skipwhite t)
        else .error (.badchar, p)

/-- `while (**p != ']')`, with the items so far. -/
def decodeItems (C : Libc) (fl : DecodeFlags) :
    (fuel depth : ℕ) → (array : List Value) → (p : Bytes) → Decoded
  | 0, _, _, p => .error (.outOfFuel, p)
  | fuel + 1, depth, array, p =>
    match p with
    | 93 :: rest => .ok (.array array, rest)
    | p =>
      match decodeOne C fl fuel (depth + 1) p with
      | .error err => .error err
      | .ok (subval, p) =>
        match skipwhite p with
        | 93 :: rest => .ok (.array (array ++ [subval]), rest)
        | 44 :: rest => decodeItems C fl fuel depth (array ++ [subval]) rest
        | p => .error (.wantcomma, p)

/-- `while (**p != '}')`, with the entries so far. -/
def decodePairs (C : Libc) (fl : DecodeFlags) :
    (fuel depth : ℕ) → (table : List (Bytes × Value)) → (p : Bytes) → Decoded
  | 0, _, _, p => .error (.outOfFuel, p)
  | fuel + 1, depth, table, p =>
    match p with
    | 125 :: rest => .ok (.table (table.map fun e => (objectKey fl e.1, e.2)), rest)
    | p =>
      match skipwhite p with
      | 34 :: t =>
        match decodeOne C fl fuel (depth + 1) (34 :: t) with
        | .error err => .error err
        | .ok (subkey, p) =>
          match skipwhite p with
          | 58 :: p =>
            match decodeOne C fl fuel (depth + 1) p with
            | .error err => .error err
            | .ok (subval, p) =>
              let table := putEntry table ((bytesView subkey).getD []) subval
              match skipwhite p with
              | 125 :: rest => .ok (.table (table.map fun e => (objectKey fl e.1, e.2)), rest)
              | 44 :: rest => decodePairs C fl fuel depth table rest
              | p => .error (.wantcomma, p)
          | p => .error (.wantcolon, p)
      | p => .error (.wantstring, p)

end

/-- `(json/decode b)`, with the flags given. The text is what C sees of `b`. -/
def jsonDecode (C : Libc) (fl : DecodeFlags) (b : Bytes) : Call Value :=
  let start := cstr b
  let result : Decoded :=
    match decodeOne C fl (2 * start.length + 1) 0 start with
    | .error err => .error err
    | .ok (v, p) =>
      match skipwhite p with
      | [] => .ok (v, [])
      | p => .error (.extraToken, p)
  match result with
  | .ok (v, _) => .ok v
  | .error (err, p) => .error (.jsonDecode (start.length - p.length) err.text)

/-! ### What a decoder consumes -/

/-- `rest` is what is left of `p` once something was read, and no byte 1 was part of it. -/
def Consumes (p rest : Bytes) : Prop := ∃ c, p = c ++ rest ∧ c ≠ [] ∧ 1 ∉ c

theorem Consumes.cons {p rest : Bytes} (h : Consumes p rest) {x : UInt8} (hx : x ≠ 1) :
    Consumes (x :: p) rest := by
  obtain ⟨c, rfl, -, hc⟩ := h
  refine ⟨x :: c, rfl, by simp, ?_⟩
  rw [List.mem_cons]
  rintro (h | h)
  · exact hx h.symm
  · exact hc h

theorem consumes_cons {x : UInt8} (hx : x ≠ 1) (rest : Bytes) : Consumes (x :: rest) rest :=
  ⟨[x], rfl, by simp, by simpa using Ne.symm hx⟩

theorem Consumes.trans {p q r : Bytes} (h : Consumes p q) (h' : Consumes q r) : Consumes p r := by
  obtain ⟨c, rfl, hne, hc⟩ := h
  obtain ⟨c', rfl, -, hc'⟩ := h'
  refine ⟨c ++ c', by simp, by simp [hne], ?_⟩
  rw [List.mem_append]
  rintro (h | h)
  · exact hc h
  · exact hc' h

/-- Skipping white space in front consumes nothing that matters. -/
theorem Consumes.of_skipwhite {p rest : Bytes} (h : Consumes (skipwhite p) rest) :
    Consumes p rest := by
  induction p with
  | nil => exact h
  | cons x p ih =>
    by_cases hx : white x
    · rw [skipwhite, List.dropWhile_cons_of_pos hx] at h
      refine (ih h).cons ?_
      rintro rfl
      exact absurd hx (by decide)
    · rwa [skipwhite, List.dropWhile_cons_of_neg (by simpa using hx)] at h

theorem Consumes.length_lt {p rest : Bytes} (h : Consumes p rest) : rest.length < p.length := by
  obtain ⟨c, rfl, hne, -⟩ := h
  have := List.length_pos_iff.mpr hne
  rw [List.length_append]
  omega

theorem length_skipwhite_le (p : Bytes) : (skipwhite p).length ≤ p.length :=
  (List.dropWhile_sublist white).length_le

private theorem decodeUtf16Escape_ok {a b c d : UInt8} {n : ℕ}
    (h : decodeUtf16Escape a b c d = .ok n) : a ≠ 1 ∧ b ≠ 1 ∧ c ≠ 1 ∧ d ≠ 1 := by
  have hone : hexdig 1 = none := by decide
  unfold decodeUtf16Escape at h
  split at h
  case h_1 ha hb hc hd =>
    refine ⟨?_, ?_, ?_, ?_⟩ <;> rintro rfl <;> simp_all
  case h_2 => cases h

/-- The four digits of an escape. -/
private theorem Consumes.hex {a b c d : UInt8} {n : ℕ} {p rest : Bytes}
    (hex : decodeUtf16Escape a b c d = .ok n) (h : Consumes p rest) :
    Consumes (92 :: 117 :: a :: b :: c :: d :: p) rest := by
  obtain ⟨ha, hb, hc, hd⟩ := decodeUtf16Escape_ok hex
  exact (((((h.cons hd).cons hc).cons hb).cons ha).cons (by decide)).cons (by decide)

theorem decodeString_consumes {buffer t s rest : Bytes}
    (h : decodeString buffer t = .ok (s, rest)) : Consumes t rest := by
  fun_induction decodeString buffer t with
  | case2 =>
    cases h
    exact consumes_cons (by decide) _
  | case9 => rename_i ih; exact .hex (by assumption) (.hex (by assumption) (ih h))
  | case12 => rename_i ih; exact .hex (by assumption) (ih h)
  | case14 =>
    rename_i c _ _ b hesc _ _ ih
    refine ((ih h).cons ?_).cons (by decide)
    rintro rfl
    rw [show simpleEscape 1 = none by decide] at hesc
    cases hesc
  | case16 =>
    rename_i b _ _ hlt _ ih
    refine (ih h).cons ?_
    rintro rfl
    exact hlt (by decide)
  | _ => cases h

theorem decodeQuoted_consumes {p t s rest : Bytes} (h : decodeQuoted p t = .ok (s, rest)) :
    Consumes t rest := by
  unfold decodeQuoted at h
  split at h
  case h_1 =>
    split at h
    case h_1 hs =>
      cases h
      exact decodeString_consumes hs
    case h_2 => cases h
  case h_2 rest' hdrop =>
    cases h
    -- the string is the plain characters and the quote behind them
    refine ⟨t.takeWhile plainChar ++ [34], ?_, by simp, ?_⟩
    · rw [List.append_assoc, List.singleton_append, ← hdrop, List.takeWhile_append_dropWhile]
    · rw [List.mem_append]
      rintro (h1 | h1)
      · exact absurd (List.mem_takeWhile_imp h1) (by decide)
      · exact absurd h1 (by decide)
  case h_3 => cases h

section

variable {C : Libc} {fl : DecodeFlags} {fuel depth : ℕ} {p rest : Bytes} {v : Value}

private theorem decodeOne_succ_consumes
    (hItems : ∀ depth array p v rest, decodeItems C fl fuel depth array p = .ok (v, rest) →
      Consumes p rest)
    (hPairs : ∀ depth table p v rest, decodePairs C fl fuel depth table p = .ok (v, rest) →
      Consumes p rest)
    (h : decodeOne C fl (fuel + 1) depth p = .ok (v, rest)) : Consumes p rest := by
  refine Consumes.of_skipwhite ?_
  simp only [decodeOne] at h
  split at h
  · cases h
  split at h
  · cases h
  case h_2 c t hp =>
    rw [hp]
    split at h
    case isTrue hnum =>
      obtain ⟨numeral, heq, hgt⟩ := C.strtod_consumes c t hnum
      rw [← hp] at heq
      split at h
      · cases h
      case isFalse hlen =>
        cases h
        rw [← hp]
        refine ⟨numeral, heq, ?_, fun hmem => absurd (hgt 1 hmem) (by decide)⟩
        rintro rfl
        exact hlen (congrArg List.length heq).symm
    case isFalse =>
      split at h
      case isTrue hc =>
        split at h
        · cases h
          subst hc
          exact ⟨[102, 97, 108, 115, 101], rfl, by decide, by decide⟩
        · cases h
      split at h
      case isTrue hc =>
        split at h
        · cases h
          subst hc
          exact ⟨[110, 117, 108, 108], rfl, by decide, by decide⟩
        · cases h
      split at h
      case isTrue hc =>
        split at h
        · cases h
          subst hc
          exact ⟨[116, 114, 117, 101], rfl, by decide, by decide⟩
        · cases h
      split at h
      case isTrue hc =>
        split at h
        case h_1 hq =>
          cases h
          subst hc
          exact (decodeQuoted_consumes hq).cons (by decide)
        case h_2 => cases h
      split at h
      case isTrue hc =>
        subst hc
        exact (Consumes.of_skipwhite (hItems _ _ _ _ _ h)).cons (by decide)
      split at h
      case isTrue hc =>
        subst hc
        exact (Consumes.of_skipwhite (hPairs _ _ _ _ _ h)).cons (by decide)
      case isFalse => cases h

private theorem decodeItems_succ_consumes {array : List Value}
    (hOne : ∀ depth p v rest, decodeOne C fl fuel depth p = .ok (v, rest) → Consumes p rest)
    (hItems : ∀ depth array p v rest, decodeItems C fl fuel depth array p = .ok (v, rest) →
      Consumes p rest)
    (h : decodeItems C fl (fuel + 1) depth array p = .ok (v, rest)) : Consumes p rest := by
  simp only [decodeItems] at h
  split at h
  · cases h
    exact consumes_cons (by decide) _
  split at h
  · cases h
  case h_2 hone =>
    refine (hOne _ _ _ _ hone).trans (Consumes.of_skipwhite ?_)
    split at h
    case h_1 hsep =>
      cases h
      rw [hsep]
      exact consumes_cons (by decide) _
    case h_2 hsep =>
      rw [hsep]
      exact (hItems _ _ _ _ _ h).cons (by decide)
    case h_3 => cases h

private theorem decodePairs_succ_consumes {table : List (Bytes × Value)}
    (hOne : ∀ depth p v rest, decodeOne C fl fuel depth p = .ok (v, rest) → Consumes p rest)
    (hPairs : ∀ depth table p v rest, decodePairs C fl fuel depth table p = .ok (v, rest) →
      Consumes p rest)
    (h : decodePairs C fl (fuel + 1) depth table p = .ok (v, rest)) : Consumes p rest := by
  simp only [decodePairs] at h
  split at h
  · cases h
    exact consumes_cons (by decide) _
  split at h
  case h_2 => cases h
  case h_1 hquote =>
    refine Consumes.of_skipwhite ?_
    rw [hquote]
    split at h
    · cases h
    case h_2 hkey =>
      refine (hOne _ _ _ _ hkey).trans (Consumes.of_skipwhite ?_)
      split at h
      case h_2 => cases h
      case h_1 hcolon =>
        rw [hcolon]
        split at h
        · cases h
        case h_2 hval =>
          refine ((hOne _ _ _ _ hval).trans (Consumes.of_skipwhite ?_)).cons (by decide)
          split at h
          case h_1 hsep =>
            cases h
            rw [hsep]
            exact consumes_cons (by decide) _
          case h_2 hsep =>
            rw [hsep]
            exact (hPairs _ _ _ _ _ h).cons (by decide)
          case h_3 => cases h

end

/-- **Whatever is decoded was consumed**, without a byte 1. -/
private theorem decode_consumes (C : Libc) (fl : DecodeFlags) (fuel : ℕ) :
    (∀ depth p v rest, decodeOne C fl fuel depth p = .ok (v, rest) → Consumes p rest) ∧
    (∀ depth array p v rest, decodeItems C fl fuel depth array p = .ok (v, rest) →
      Consumes p rest) ∧
    (∀ depth table p v rest, decodePairs C fl fuel depth table p = .ok (v, rest) →
      Consumes p rest) := by
  induction fuel with
  | zero =>
    refine ⟨fun _ _ _ _ h => ?_, fun _ _ _ _ _ h => ?_, fun _ _ _ _ _ h => ?_⟩
    · simp [decodeOne] at h
    · simp [decodeItems] at h
    · simp [decodePairs] at h
  | succ fuel ih =>
    obtain ⟨ihOne, ihItems, ihPairs⟩ := ih
    exact ⟨fun _ _ _ _ h => decodeOne_succ_consumes ihItems ihPairs h,
      fun _ _ _ _ _ h => decodeItems_succ_consumes ihOne ihItems h,
      fun _ _ _ _ _ h => decodePairs_succ_consumes ihOne ihPairs h⟩

/-- A value that was decoded stands in front of the rest. -/
theorem decodeOne_consumes {C : Libc} {fl : DecodeFlags} {fuel depth : ℕ} {p rest : Bytes}
    {v : Value} (h : decodeOne C fl fuel depth p = .ok (v, rest)) : Consumes p rest :=
  (decode_consumes C fl fuel).1 depth p v rest h

/-! ### The recursion bound -/

private theorem decodeUtf16Escape_error {a b c d : UInt8} {err : JsonError}
    (h : decodeUtf16Escape a b c d = .error err) : err ≠ .outOfFuel := by
  unfold decodeUtf16Escape at h
  split at h
  · cases h
  · cases h
    decide

private theorem decodeString_error {buffer t : Bytes} {err : JsonError}
    (h : decodeString buffer t = .error err) : err ≠ .outOfFuel := by
  fun_induction decodeString buffer t with
  | case2 => cases h
  | case5 =>
    cases h
    exact decodeUtf16Escape_error (by assumption)
  | case7 =>
    cases h
    exact decodeUtf16Escape_error (by assumption)
  | case9 => rename_i ih; exact ih h
  | case12 => rename_i ih; exact ih h
  | case14 => rename_i ih; exact ih h
  | case16 => rename_i ih; exact ih h
  | _ =>
    cases h
    decide

private theorem decodeQuoted_error {p t q : Bytes} {err : JsonError}
    (h : decodeQuoted p t = .error (err, q)) : err ≠ .outOfFuel := by
  unfold decodeQuoted at h
  split at h
  case h_1 =>
    split at h
    case h_1 => cases h
    case h_2 hs =>
      cases h
      exact decodeString_error hs
  case h_2 => cases h
  case h_3 =>
    cases h
    decide

/-- The bound of the model on its own recursion is twice the length of the text: every round of a
loop reads a character, and so does every value in it. -/
private theorem decode_ne_outOfFuel (C : Libc) (fl : DecodeFlags) (fuel : ℕ) :
    (∀ depth p q, 2 * p.length < fuel → decodeOne C fl fuel depth p ≠ .error (.outOfFuel, q)) ∧
    (∀ depth array p q, 2 * p.length + 1 < fuel →
      decodeItems C fl fuel depth array p ≠ .error (.outOfFuel, q)) ∧
    (∀ depth table p q, 2 * p.length + 1 < fuel →
      decodePairs C fl fuel depth table p ≠ .error (.outOfFuel, q)) := by
  induction fuel with
  | zero => exact ⟨fun _ _ _ h => by omega, fun _ _ _ _ h => by omega, fun _ _ _ _ h => by omega⟩
  | succ fuel ih =>
    obtain ⟨ihOne, ihItems, ihPairs⟩ := ih
    refine ⟨fun depth p q hfuel h => ?_, fun depth array p q hfuel h => ?_,
      fun depth table p q hfuel h => ?_⟩
    · simp only [decodeOne] at h
      split at h
      · cases h
      split at h
      · cases h
      case h_2 c t hp =>
        have hlen : t.length + 1 ≤ p.length := by
          have := length_skipwhite_le p
          rwa [hp] at this
        have hwhite := length_skipwhite_le t
        split at h
        · split at h <;> cases h
        split at h
        · split at h <;> cases h
        split at h
        · split at h <;> cases h
        split at h
        · split at h <;> cases h
        split at h
        · split at h
          · cases h
          case h_2 hq =>
            cases h
            exact decodeQuoted_error hq rfl
        split at h
        · exact ihItems _ _ _ _ (by omega) h
        split at h
        · exact ihPairs _ _ _ _ (by omega) h
        · cases h
    · simp only [decodeItems] at h
      split at h
      · cases h
      split at h
      case h_1 hone =>
        cases h
        exact ihOne _ _ _ (by omega) hone
      case h_2 p' hone =>
        have hlen := (decodeOne_consumes hone).length_lt
        have hwhite := length_skipwhite_le p'
        split at h
        · cases h
        case h_2 hsep =>
          rw [hsep, List.length_cons] at hwhite
          exact ihItems _ _ _ _ (by omega) h
        · cases h
    · simp only [decodePairs] at h
      split at h
      · cases h
      split at h
      case h_2 => cases h
      case h_1 t hquote =>
        have hquoted : (34 :: t).length ≤ p.length := hquote ▸ length_skipwhite_le p
        split at h
        case h_1 hkey =>
          cases h
          exact ihOne _ _ _ (by omega) hkey
        case h_2 p₁ hkey =>
          have hlen₁ := (decodeOne_consumes hkey).length_lt
          have hwhite₁ := length_skipwhite_le p₁
          split at h
          case h_2 => cases h
          case h_1 p₂ hcolon =>
            rw [hcolon, List.length_cons] at hwhite₁
            split at h
            case h_1 hval =>
              cases h
              exact ihOne _ _ _ (by omega) hval
            case h_2 p₃ hval =>
              have hlen₂ := (decodeOne_consumes hval).length_lt
              have hwhite₂ := length_skipwhite_le p₃
              split at h
              · cases h
              case h_2 hsep =>
                rw [hsep, List.length_cons] at hwhite₂
                exact ihPairs _ _ _ _ (by omega) h
              · cases h

/-- **The recursion bound of the model is never reached**, so `json/decode` returns or panics with
an error of the source. -/
theorem decodeOne_ne_outOfFuel (C : Libc) (fl : DecodeFlags) (depth : ℕ) (p q : Bytes) :
    decodeOne C fl (2 * p.length + 1) depth p ≠ .error (.outOfFuel, q) :=
  (decode_ne_outOfFuel C fl (2 * p.length + 1)).1 depth p q (by omega)

/-! ### `json/decode` as a whole -/

/-- Whatever stands behind the first NUL does not matter. -/
theorem jsonDecode_append_zeros (C : Libc) (fl : DecodeFlags) (b : Bytes) (n : ℕ) :
    jsonDecode C fl (b ++ List.replicate n 0) = jsonDecode C fl b := by
  have hzeros : (List.replicate n (0 : UInt8)).takeWhile (· ≠ 0) = [] := by
    cases n <;> simp [List.replicate_succ]
  have hcstr : cstr (b ++ List.replicate n 0) = cstr b := by
    rw [cstr, cstr, List.takeWhile_append, hzeros, List.append_nil]
    split
    case isTrue h => exact ((List.takeWhile_sublist _).eq_of_length h).symm
    case isFalse => rfl
  simp only [jsonDecode, hcstr]

/-- A text that is followed by a byte 1 before its end is refused: no value contains that byte,
and it is not white space. -/
theorem jsonDecode_append_one (C : Libc) (fl : DecodeFlags) {b : Bytes} (hb : NulFree b)
    (rest : Bytes) (v : Value) : jsonDecode C fl (b ++ 1 :: rest) ≠ .ok v := by
  have hcstr : cstr (b ++ 1 :: rest) = b ++ 1 :: cstr rest := by
    rw [cstr, List.takeWhile_append_of_pos fun c hc => by simpa using hb c hc]
    simp [cstr]
  intro h
  simp only [jsonDecode, hcstr] at h
  cases hone : decodeOne C fl (2 * (b ++ 1 :: cstr rest).length + 1) 0 (b ++ 1 :: cstr rest) with
  | error err =>
    rw [hone] at h
    cases h
  | ok vp =>
    obtain ⟨v', p⟩ := vp
    obtain ⟨c, heq, -, hc⟩ := decodeOne_consumes hone
    have hmem : 1 ∈ p := by
      have hin : (1 : UInt8) ∈ c ++ p := heq ▸ by simp
      exact (List.mem_append.mp hin).resolve_left hc
    have hne : skipwhite p ≠ [] := by
      intro hnil
      exact absurd (List.dropWhile_eq_nil_iff.mp hnil 1 hmem) (by decide)
    obtain ⟨x, q, hx⟩ := List.exists_cons_of_ne_nil hne
    rw [hone] at h
    simp only [hx] at h
    cases h

end AhungryJanet
