import AhungryJanet.Json.Chars

/-!
# The texts that are decoded

What `json/decode` takes for JSON, as a grammar. A rule relates a text to what is left of it behind
the value that stands in front; what it reads as is part of the rule.

The grammar is not the one of the standard. A comma may stand right before a closing bracket, but
not with white space between the two. A number is what `strtod` makes of the text. In a string every
byte from 32 on stands for itself, in UTF-8 or not.

## Main results

* `decodeQuoted_eq_ok_iff` — the strings
* `decodeOne_eq_ok_iff` — the values, nested no deeper than the decoder goes
* `jsonDecode_eq_ok_iff` — `json/decode` accepts exactly the texts of the grammar
-/

namespace AhungryJanet.Grammar

/-! ### Strings -/

/-- What stands between the quotes, and what it reads as. -/
inductive Chars : (text s : Bytes) → Prop
  | nil : Chars [] []
  | plain {b : UInt8} {text s : Bytes} (hb : plainChar b) (h : Chars text s) :
    Chars (b :: text) (b :: s)
  | simple {c b : UInt8} {text s : Bytes} (hc : simpleEscape c = some b) (h : Chars text s) :
    Chars (92 :: c :: text) (b :: s)
  /-- An escape that is not half of a pair. -/
  | unicode {p₀ p₁ p₂ p₃ : UInt8} {n : ℕ} {text s : Bytes}
    (hn : decodeUtf16Escape p₀ p₁ p₂ p₃ = .ok n) (hwhole : n < 0xD800 ∨ 0xDFFF < n)
    (h : Chars text s) : Chars (92 :: 117 :: p₀ :: p₁ :: p₂ :: p₃ :: text) (writeCodepoint n ++ s)
  | pair {p₀ p₁ p₂ p₃ q₀ q₁ q₂ q₃ : UInt8} {hi lo : ℕ} {text s : Bytes}
    (hhi : decodeUtf16Escape p₀ p₁ p₂ p₃ = .ok hi) (hlo : decodeUtf16Escape q₀ q₁ q₂ q₃ = .ok lo)
    (hhigh : 0xD800 ≤ hi ∧ hi ≤ 0xDBFF) (hlow : 0xDC00 ≤ lo ∧ lo ≤ 0xDFFF) (h : Chars text s) :
    Chars (92 :: 117 :: p₀ :: p₁ :: p₂ :: p₃ :: 92 :: 117 :: q₀ :: q₁ :: q₂ :: q₃ :: text)
      (writeCodepoint ((hi - 0xD800) <<< 10 + (lo - 0xDC00) + 0x10000) ++ s)

theorem Chars.decodeString {text s : Bytes} (h : Chars text s) (buffer rest : Bytes) :
    decodeString buffer (text ++ 34 :: rest) = .ok (buffer ++ s, rest) := by
  induction h generalizing buffer with
  | nil =>
    rw [List.nil_append, List.append_nil, AhungryJanet.decodeString.eq_def]
    exact if_pos rfl
  | plain hb _ ih =>
    rw [List.cons_append, decodeString_plain hb, ih, List.append_assoc]
    rfl
  | simple hc _ ih =>
    rw [List.cons_append, List.cons_append, decodeString_simple hc, ih, List.append_assoc]
    rfl
  | unicode hn hwhole _ ih =>
    simp only [List.cons_append]
    rw [decodeString_escape hn hwhole, ih, List.append_assoc]
  | pair hhi hlo hhigh hlow _ ih =>
    simp only [List.cons_append]
    rw [decodeString_pair hhi hlo hhigh hlow, ih, List.append_assoc]

theorem chars_of_decodeString {buffer p r rest : Bytes}
    (h : decodeString buffer p = .ok (r, rest)) :
    ∃ text s, p = text ++ 34 :: rest ∧ Chars text s ∧ r = buffer ++ s := by
  fun_induction decodeString buffer p with
  | case2 =>
    cases h
    exact ⟨[], [], rfl, .nil, (List.append_nil _).symm⟩
  | case9 =>
    rename_i hhi hnot hhigh _ _ _ _ _ _ hlo hlow _ _ ih
    obtain ⟨text, s, rfl, hchars, rfl⟩ := ih h
    exact ⟨_, _, rfl, .pair hhi hlo hhigh (by omega) hchars, List.append_assoc _ _ _⟩
  | case12 =>
    rename_i hn hlow hhigh _ _ ih
    obtain ⟨text, s, rfl, hchars, rfl⟩ := ih h
    exact ⟨_, _, rfl, .unicode hn (by omega) hchars, List.append_assoc _ _ _⟩
  | case14 =>
    rename_i hesc _ _ ih
    obtain ⟨text, s, rfl, hchars, rfl⟩ := ih h
    exact ⟨_, _, rfl, .simple hesc hchars, List.append_assoc _ _ _⟩
  | case16 =>
    rename_i b _ hquote hlt hback ih
    obtain ⟨text, s, rfl, hchars, rfl⟩ := ih h
    have hplain : plainChar b := by
      simp [plainChar, hquote, hback, UInt8.not_lt.mp hlt]
    exact ⟨_, _, rfl, .plain hplain hchars, List.append_assoc _ _ _⟩
  | _ => cases h

/-- Characters that stand for themselves. -/
theorem chars_of_plain {text : Bytes} (h : ∀ b ∈ text, plainChar b) : Chars text text := by
  induction text with
  | nil => exact .nil
  | cons b text ih =>
    exact .plain (h b (List.mem_cons_self ..)) (ih fun b' hb' => h b' (List.mem_cons_of_mem b hb'))

/-- Without a backslash there are no others. -/
theorem Chars.plain_or_escape {text s : Bytes} (h : Chars text s) :
    (∀ b ∈ text, plainChar b) ∧ s = text ∨
      ∃ a t, text = a ++ 92 :: t ∧ ∀ b ∈ a, plainChar b := by
  induction h with
  | nil => exact .inl ⟨by simp, rfl⟩
  | plain hb _ ih =>
    rcases ih with ⟨hall, rfl⟩ | ⟨a, t, rfl, hall⟩
    · exact .inl ⟨List.forall_mem_cons.mpr ⟨hb, hall⟩, rfl⟩
    · exact .inr ⟨_ :: a, t, rfl, List.forall_mem_cons.mpr ⟨hb, hall⟩⟩
  | simple | unicode | pair => exact .inr ⟨[], _, rfl, by simp⟩

/-- **The strings that are decoded**, by either of the two ways that the decoder has for them. -/
theorem decodeQuoted_eq_ok_iff {q p s rest : Bytes} :
    decodeQuoted q p = .ok (s, rest) ↔ ∃ text, p = text ++ 34 :: rest ∧ Chars text s := by
  rw [decodeQuoted]
  constructor
  · intro h
    split at h
    case h_1 =>
      split at h
      case h_1 hs =>
        cases h
        obtain ⟨text, s, rfl, hchars, rfl⟩ := chars_of_decodeString hs
        exact ⟨text, rfl, hchars⟩
      case h_2 => cases h
    case h_2 rest hdrop =>
      cases h
      refine ⟨p.takeWhile plainChar, ?_, chars_of_plain fun b hb => List.mem_takeWhile_imp hb⟩
      rw [← hdrop, List.takeWhile_append_dropWhile]
    case h_3 => cases h
  · rintro ⟨text, rfl, hchars⟩
    rcases hchars.plain_or_escape with ⟨hall, rfl⟩ | ⟨a, t, rfl, hall⟩
    · rw [List.dropWhile_append_of_pos hall, List.takeWhile_append_of_pos hall,
        List.dropWhile_cons_of_neg (by decide), List.takeWhile_cons_of_neg (by decide),
        List.append_nil]
      rfl
    · have hdrop : (a ++ 92 :: t ++ 34 :: rest).dropWhile plainChar = 92 :: (t ++ 34 :: rest) := by
        rw [List.append_assoc, List.dropWhile_append_of_pos hall, List.cons_append,
          List.dropWhile_cons_of_neg (by decide)]
      rw [hdrop]
      simp only [hchars.decodeString, List.nil_append]

/-! ### Values -/

/-- What a rule is about. -/
inductive Goal where
  | value (v : Value)
  /-- Behind an opening bracket or a comma of an array. -/
  | items (vs : List Value)
  /-- Behind an opening brace or a comma of an object. -/
  | members (kvs : List (Bytes × Value))

/-- `p` begins with what the goal is about, nested at most `n` deep, and `rest` is left of it. -/
inductive Parses (C : Libc) (fl : DecodeFlags) : (n : ℕ) → Goal → (p rest : Bytes) → Prop
  | space {n : ℕ} {v : Value} {c : UInt8} {p rest : Bytes} (hc : white c)
    (h : Parses C fl n (.value v) p rest) : Parses C fl n (.value v) (c :: p) rest
  | number {n : ℕ} {c : UInt8} {t rest : Bytes} {x : UInt64} (hc : c = 45 ∨ 48 ≤ c ∧ c ≤ 57)
    (h : C.strtod (c :: t) = (x, rest)) (hne : rest.length ≠ (c :: t).length) :
    Parses C fl n (.value (.number x)) (c :: t) rest
  | boolean (n : ℕ) (b : Bool) (rest : Bytes) :
    Parses C fl n (.value (.boolean b)) ((if b then ascii "true" else ascii "false") ++ rest) rest
  | null (n : ℕ) (rest : Bytes) :
    Parses C fl n (.value (if fl.nullToNil then .nil else .keyword (ascii "null")))
      (ascii "null" ++ rest) rest
  | string {n : ℕ} {text s : Bytes} (h : Chars text s) (rest : Bytes) :
    Parses C fl n (.value (.string s)) (34 :: (text ++ 34 :: rest)) rest
  | array {n : ℕ} {vs : List Value} {p rest : Bytes}
    (h : Parses C fl n (.items vs) (skipwhite p) rest) :
    Parses C fl n (.value (.array vs)) (91 :: p) rest
  | object {n : ℕ} {kvs : List (Bytes × Value)} {p rest : Bytes}
    (h : Parses C fl n (.members kvs) (skipwhite p) rest) :
    Parses C fl n (.value (.table ((kvs.foldl (fun t e => putEntry t e.1 e.2) []).map fun e =>
      (objectKey fl e.1, e.2)))) (123 :: p) rest
  /-- The bracket may stand right behind a comma. -/
  | noItem (n : ℕ) (rest : Bytes) : Parses C fl n (.items []) (93 :: rest) rest
  | lastItem {n : ℕ} {v : Value} {p q rest : Bytes} (h : Parses C fl n (.value v) p q)
    (hend : skipwhite q = 93 :: rest) : Parses C fl (n + 1) (.items [v]) p rest
  | item {n : ℕ} {v : Value} {vs : List Value} {p q r rest : Bytes}
    (h : Parses C fl n (.value v) p q) (hcomma : skipwhite q = 44 :: r)
    (hmore : Parses C fl (n + 1) (.items vs) r rest) : Parses C fl (n + 1) (.items (v :: vs)) p rest
  | noMember (n : ℕ) (rest : Bytes) : Parses C fl n (.members []) (125 :: rest) rest
  | lastMember {n : ℕ} {v : Value} {text key p q r u rest : Bytes}
    (hquote : skipwhite p = 34 :: (text ++ 34 :: q)) (hkey : Chars text key)
    (hcolon : skipwhite q = 58 :: r) (h : Parses C fl n (.value v) r u)
    (hend : skipwhite u = 125 :: rest) : Parses C fl (n + 1) (.members [(key, v)]) p rest
  | member {n : ℕ} {v : Value} {kvs : List (Bytes × Value)} {text key p q r u t rest : Bytes}
    (hquote : skipwhite p = 34 :: (text ++ 34 :: q)) (hkey : Chars text key)
    (hcolon : skipwhite q = 58 :: r) (h : Parses C fl n (.value v) r u)
    (hcomma : skipwhite u = 44 :: t) (hmore : Parses C fl (n + 1) (.members kvs) t rest) :
    Parses C fl (n + 1) (.members ((key, v) :: kvs)) p rest

section

variable {C : Libc} {fl : DecodeFlags} {fuel depth n : ℕ} {p q rest : Bytes} {v : Value}

theorem Parses.of_skipwhite (h : Parses C fl n (.value v) (skipwhite p) rest) :
    Parses C fl n (.value v) p rest := by
  induction p with
  | nil => exact h
  | cons c p ih =>
    by_cases hc : white c
    · rw [skipwhite, List.dropWhile_cons_of_pos hc] at h
      exact .space hc (ih h)
    · rwa [skipwhite, List.dropWhile_cons_of_neg (by simpa using hc)] at h

/-! ### What is decoded is in the grammar -/

theorem parses_of_decodeOne_succ
    (hItems : ∀ depth array p v rest, decodeItems C fl fuel depth array p = .ok (v, rest) →
      ∃ vs, Parses C fl (recursionGuard - depth) (.items vs) p rest ∧ v = .array (array ++ vs))
    (hPairs : ∀ depth table p v rest, decodePairs C fl fuel depth table p = .ok (v, rest) →
      ∃ kvs, Parses C fl (recursionGuard - depth) (.members kvs) p rest ∧
        v = .table ((kvs.foldl (fun t e => putEntry t e.1 e.2) table).map fun e =>
          (objectKey fl e.1, e.2)))
    (h : decodeOne C fl (fuel + 1) depth p = .ok (v, rest)) :
    depth ≤ recursionGuard ∧ Parses C fl (recursionGuard - depth) (.value v) p rest := by
  simp only [decodeOne] at h
  split at h
  · cases h
  case isFalse hdepth =>
  refine ⟨by omega, .of_skipwhite ?_⟩
  split at h
  · cases h
  case h_2 c t hp =>
    rw [hp]
    split at h
    case isTrue hnum =>
      split at h
      · cases h
      case isFalse hlen =>
        cases h
        rw [hp] at hlen ⊢
        exact .number hnum rfl hlen
    case isFalse =>
      split at h
      case isTrue hc =>
        split at h
        · cases h
          subst hc
          exact .boolean _ false _
        · cases h
      split at h
      case isTrue hc =>
        split at h
        · cases h
          subst hc
          exact .null _ _
        · cases h
      split at h
      case isTrue hc =>
        split at h
        · cases h
          subst hc
          exact .boolean _ true _
        · cases h
      split at h
      case isTrue hc =>
        split at h
        case h_1 hq =>
          cases h
          subst hc
          obtain ⟨text, rfl, hchars⟩ := decodeQuoted_eq_ok_iff.mp hq
          exact .string hchars _
        case h_2 => cases h
      split at h
      case isTrue hc =>
        subst hc
        obtain ⟨vs, hvs, rfl⟩ := hItems _ _ _ _ _ h
        exact .array hvs
      split at h
      case isTrue hc =>
        subst hc
        obtain ⟨kvs, hkvs, rfl⟩ := hPairs _ _ _ _ _ h
        exact .object hkvs
      case isFalse => cases h

theorem parses_of_decodeItems_succ {array : List Value}
    (hOne : ∀ depth p v rest, decodeOne C fl fuel depth p = .ok (v, rest) →
      depth ≤ recursionGuard ∧ Parses C fl (recursionGuard - depth) (.value v) p rest)
    (hItems : ∀ depth array p v rest, decodeItems C fl fuel depth array p = .ok (v, rest) →
      ∃ vs, Parses C fl (recursionGuard - depth) (.items vs) p rest ∧ v = .array (array ++ vs))
    (h : decodeItems C fl (fuel + 1) depth array p = .ok (v, rest)) :
    ∃ vs, Parses C fl (recursionGuard - depth) (.items vs) p rest ∧ v = .array (array ++ vs) := by
  simp only [decodeItems] at h
  split at h
  · cases h
    exact ⟨[], .noItem _ _, by rw [List.append_nil]⟩
  split at h
  · cases h
  case h_2 hone =>
    obtain ⟨hdepth, hvalue⟩ := hOne _ _ _ _ hone
    have hlevel : recursionGuard - depth = recursionGuard - (depth + 1) + 1 := by omega
    split at h
    case h_1 hsep =>
      cases h
      rw [hlevel]
      exact ⟨_, .lastItem hvalue hsep, rfl⟩
    case h_2 hsep =>
      obtain ⟨vs, hvs, rfl⟩ := hItems _ _ _ _ _ h
      rw [hlevel] at hvs ⊢
      exact ⟨_, .item hvalue hsep hvs, by rw [List.append_assoc, List.singleton_append]⟩
    case h_3 => cases h

/-- A key is a string at once. -/
theorem decodeOne_quote {t : Bytes} (h : decodeOne C fl fuel depth (34 :: t) = .ok (v, rest)) :
    ∃ text s, t = text ++ 34 :: rest ∧ Chars text s ∧ v = .string s := by
  cases fuel with
  | zero => simp [decodeOne] at h
  | succ fuel =>
    have hquote : skipwhite (34 :: t) = 34 :: t := List.dropWhile_cons_of_neg (by decide)
    rw [decodeOne, hquote] at h
    split at h
    case isTrue => cases h
    case isFalse =>
      have hnum : ¬ ((34 : UInt8) = 45 ∨ 48 ≤ (34 : UInt8) ∧ (34 : UInt8) ≤ 57) := by decide
      simp only [hnum, if_false, show ¬ (34 : UInt8) = 102 by decide,
        show ¬ (34 : UInt8) = 110 by decide, show ¬ (34 : UInt8) = 116 by decide, if_true] at h
      split at h
      case h_1 hq =>
        cases h
        obtain ⟨text, rfl, hchars⟩ := decodeQuoted_eq_ok_iff.mp hq
        exact ⟨text, _, rfl, hchars, rfl⟩
      case h_2 => cases h

theorem parses_of_decodePairs_succ {table : List (Bytes × Value)}
    (hOne : ∀ depth p v rest, decodeOne C fl fuel depth p = .ok (v, rest) →
      depth ≤ recursionGuard ∧ Parses C fl (recursionGuard - depth) (.value v) p rest)
    (hPairs : ∀ depth table p v rest, decodePairs C fl fuel depth table p = .ok (v, rest) →
      ∃ kvs, Parses C fl (recursionGuard - depth) (.members kvs) p rest ∧
        v = .table ((kvs.foldl (fun t e => putEntry t e.1 e.2) table).map fun e =>
          (objectKey fl e.1, e.2)))
    (h : decodePairs C fl (fuel + 1) depth table p = .ok (v, rest)) :
    ∃ kvs, Parses C fl (recursionGuard - depth) (.members kvs) p rest ∧
      v = .table ((kvs.foldl (fun t e => putEntry t e.1 e.2) table).map fun e =>
        (objectKey fl e.1, e.2)) := by
  simp only [decodePairs] at h
  split at h
  · cases h
    exact ⟨[], .noMember _ _, rfl⟩
  split at h
  case h_2 => cases h
  case h_1 hquote =>
    split at h
    · cases h
    case h_2 hkey =>
      obtain ⟨text, key, rfl, hchars, rfl⟩ := decodeOne_quote hkey
      split at h
      case h_2 => cases h
      case h_1 hcolon =>
        split at h
        · cases h
        case h_2 hval =>
          obtain ⟨hdepth, hvalue⟩ := hOne _ _ _ _ hval
          have hlevel : recursionGuard - depth = recursionGuard - (depth + 1) + 1 := by omega
          split at h
          case h_1 hsep =>
            cases h
            rw [hlevel]
            exact ⟨_, .lastMember hquote hchars hcolon hvalue hsep, rfl⟩
          case h_2 hsep =>
            obtain ⟨kvs, hkvs, rfl⟩ := hPairs _ _ _ _ _ h
            rw [hlevel] at hkvs ⊢
            exact ⟨_, .member hquote hchars hcolon hvalue hsep hkvs, rfl⟩
          case h_3 => cases h

/-- The induction over the bound on the recursion. -/
theorem parses_of_decode (C : Libc) (fl : DecodeFlags) (fuel : ℕ) :
    (∀ depth p v rest, decodeOne C fl fuel depth p = .ok (v, rest) →
      depth ≤ recursionGuard ∧ Parses C fl (recursionGuard - depth) (.value v) p rest) ∧
    (∀ depth array p v rest, decodeItems C fl fuel depth array p = .ok (v, rest) →
      ∃ vs, Parses C fl (recursionGuard - depth) (.items vs) p rest ∧ v = .array (array ++ vs)) ∧
    (∀ depth table p v rest, decodePairs C fl fuel depth table p = .ok (v, rest) →
      ∃ kvs, Parses C fl (recursionGuard - depth) (.members kvs) p rest ∧
        v = .table ((kvs.foldl (fun t e => putEntry t e.1 e.2) table).map fun e =>
          (objectKey fl e.1, e.2))) := by
  induction fuel with
  | zero =>
    refine ⟨fun _ _ _ _ h => ?_, fun _ _ _ _ _ h => ?_, fun _ _ _ _ _ h => ?_⟩
    · simp [decodeOne] at h
    · simp [decodeItems] at h
    · simp [decodePairs] at h
  | succ fuel ih =>
    obtain ⟨ihOne, ihItems, ihPairs⟩ := ih
    exact ⟨fun _ _ _ _ h => parses_of_decodeOne_succ ihItems ihPairs h,
      fun _ _ _ _ _ h => parses_of_decodeItems_succ ihOne ihItems h,
      fun _ _ _ _ _ h => parses_of_decodePairs_succ ihOne ihPairs h⟩

/-! ### What is in the grammar is decoded -/

/-- A value does not begin with a closing bracket. -/
theorem Parses.head?_ne (h : Parses C fl n (.value v) p rest) : p.head? ≠ some 93 := by
  cases h with
  | @space _ _ c _ _ hc _ =>
    have hwhite : ∀ c : UInt8, white c → some c ≠ some 93 := forall_byte (by decide +kernel)
    exact hwhite c hc
  | @number _ c _ _ _ hc _ _ =>
    have hdigit : ∀ c : UInt8, (c = 45 ∨ 48 ≤ c ∧ c ≤ 57) → some c ≠ some 93 :=
      forall_byte (by decide +kernel)
    exact hdigit c hc
  | boolean _ b _ => cases b <;> exact fun h => by cases h
  | null _ _ => exact fun h => by cases h
  | string _ _ => exact fun h => by cases h
  | array _ => exact fun h => by cases h
  | object _ => exact fun h => by cases h

theorem decodeOne_space {c : UInt8} (hc : AhungryJanet.white c) (hdepth : depth ≤ recursionGuard)
    (p : Bytes) : decodeOne C fl (fuel + 1) depth (c :: p) = decodeOne C fl (fuel + 1) depth p := by
  have hskip : skipwhite (c :: p) = skipwhite p := List.dropWhile_cons_of_pos hc
  have hguard : ¬ depth > recursionGuard := by omega
  rw [decodeOne, decodeOne, if_neg hguard, if_neg hguard, hskip]

theorem decodeOne_number {c : UInt8} {t : Bytes} {x : UInt64} (hc : c = 45 ∨ 48 ≤ c ∧ c ≤ 57)
    (h : C.strtod (c :: t) = (x, rest)) (hne : rest.length ≠ (c :: t).length)
    (hdepth : depth ≤ recursionGuard) :
    decodeOne C fl (fuel + 1) depth (c :: t) = .ok (.number x, rest) := by
  have hwhite : ¬ white c = true := by
    have hdigit : ∀ c : UInt8, (c = 45 ∨ 48 ≤ c ∧ c ≤ 57) → ¬ white c = true :=
      forall_byte (by decide +kernel)
    exact hdigit c hc
  have hskip : skipwhite (c :: t) = c :: t := List.dropWhile_cons_of_neg hwhite
  rw [decodeOne, if_neg (by omega)]
  simp only [hskip, hc, if_true, h, if_neg hne]

theorem decodeOne_string {text s : Bytes} (h : Chars text s) (hdepth : depth ≤ recursionGuard) :
    decodeOne C fl (fuel + 1) depth (34 :: (text ++ 34 :: rest)) = .ok (.string s, rest) := by
  have hquoted : ∀ q, decodeQuoted q (text ++ 34 :: rest) = .ok (s, rest) := fun q =>
    decodeQuoted_eq_ok_iff.mpr ⟨text, rfl, h⟩
  rw [decodeOne, if_neg (by omega)]
  simp [skipwhite, white, hquoted]

theorem decodeOne_bracket (hdepth : depth ≤ recursionGuard) (p : Bytes) :
    decodeOne C fl (fuel + 1) depth (91 :: p) = decodeItems C fl fuel depth [] (skipwhite p) := by
  rw [decodeOne, if_neg (by omega)]
  simp [skipwhite, white]

theorem decodeOne_brace (hdepth : depth ≤ recursionGuard) (p : Bytes) :
    decodeOne C fl (fuel + 1) depth (123 :: p) = decodePairs C fl fuel depth [] (skipwhite p) := by
  rw [decodeOne, if_neg (by omega)]
  simp [skipwhite, white]

/-- What the decoder makes of a text that the goal is about. -/
def Goal.Decodes (C : Libc) (fl : DecodeFlags) (n : ℕ) (p rest : Bytes) : Goal → Prop
  | .value v => ∀ fuel depth, 2 * p.length < fuel → depth + n ≤ recursionGuard →
    decodeOne C fl fuel depth p = .ok (v, rest)
  | .items vs => ∀ fuel depth array, 2 * p.length + 1 < fuel → depth + n ≤ recursionGuard →
    decodeItems C fl fuel depth array p = .ok (.array (array ++ vs), rest)
  | .members kvs => ∀ fuel depth table, 2 * p.length + 1 < fuel → depth + n ≤ recursionGuard →
    decodePairs C fl fuel depth table p =
      .ok (.table ((kvs.foldl (fun t e => putEntry t e.1 e.2) table).map fun e =>
        (objectKey fl e.1, e.2)), rest)

/-- A round of the loop over an array. -/
theorem decodeItems_last {array : List Value} (h : Parses C fl n (.value v) p q)
    (hone : decodeOne C fl fuel (depth + 1) p = .ok (v, q)) (hend : skipwhite q = 93 :: rest) :
    decodeItems C fl (fuel + 1) depth array p = .ok (.array (array ++ [v]), rest) := by
  rw [decodeItems.eq_3 C fl depth array p fuel ?_, hone]
  · simp only [hend]
  · rintro rest rfl
    exact h.head?_ne rfl

theorem decodeItems_more {array : List Value} (h : Parses C fl n (.value v) p q)
    (hone : decodeOne C fl fuel (depth + 1) p = .ok (v, q)) (hcomma : skipwhite q = 44 :: rest) :
    decodeItems C fl (fuel + 1) depth array p =
      decodeItems C fl fuel depth (array ++ [v]) rest := by
  rw [decodeItems.eq_3 C fl depth array p fuel ?_, hone]
  · simp only [hcomma]
  · rintro rest rfl
    exact h.head?_ne rfl

section

variable {table : List (Bytes × Value)} {text key r u : Bytes}

theorem ne_brace (hquote : skipwhite p = 34 :: u) (rest : Bytes) : p = 125 :: rest → False := by
  rintro rfl
  rw [skipwhite, List.dropWhile_cons_of_neg (by decide)] at hquote
  cases hquote

/-- A round of the loop over an object. -/
theorem decodePairs_last (hquote : skipwhite p = 34 :: (text ++ 34 :: q)) (hkey : Chars text key)
    (hcolon : skipwhite q = 58 :: r)
    (hval : decodeOne C fl (fuel + 1) (depth + 1) r = .ok (v, u)) (hdepth : depth < recursionGuard)
    (hend : skipwhite u = 125 :: rest) :
    decodePairs C fl (fuel + 2) depth table p =
      .ok (.table ((putEntry table key v).map fun e => (objectKey fl e.1, e.2)), rest) := by
  have hstring : decodeOne C fl (fuel + 1) (depth + 1) (34 :: (text ++ 34 :: q)) =
      .ok (.string key, q) := decodeOne_string hkey (by omega)
  rw [decodePairs.eq_3 C fl depth table p (fuel + 1) (ne_brace hquote)]
  simp only [hquote, hstring, hcolon, hval, hend, bytesView, Option.getD_some]

theorem decodePairs_more (hquote : skipwhite p = 34 :: (text ++ 34 :: q)) (hkey : Chars text key)
    (hcolon : skipwhite q = 58 :: r)
    (hval : decodeOne C fl (fuel + 1) (depth + 1) r = .ok (v, u)) (hdepth : depth < recursionGuard)
    (hcomma : skipwhite u = 44 :: rest) :
    decodePairs C fl (fuel + 2) depth table p =
      decodePairs C fl (fuel + 1) depth (putEntry table key v) rest := by
  have hstring : decodeOne C fl (fuel + 1) (depth + 1) (34 :: (text ++ 34 :: q)) =
      .ok (.string key, q) := decodeOne_string hkey (by omega)
  rw [decodePairs.eq_3 C fl depth table p (fuel + 1) (ne_brace hquote)]
  simp only [hquote, hstring, hcolon, hval, hcomma, bytesView, Option.getD_some]

end

/-- White space and one character make a text shorter. -/
theorem length_lt_of_skipwhite {c : UInt8} (h : skipwhite p = c :: rest) :
    rest.length + 1 ≤ p.length := by
  have hlen := length_skipwhite_le p
  rwa [h, List.length_cons] at hlen

theorem decodes_of_parses {g : Goal} (h : Parses C fl n g p rest) : g.Decodes C fl n p rest := by
  induction h with
  | space hc _ ih =>
    intro fuel depth hfuel hdepth
    obtain ⟨fuel, rfl⟩ := Nat.exists_eq_add_of_lt hfuel
    rw [decodeOne_space hc (by omega)]
    exact ih _ depth (by rw [List.length_cons] at *; omega) hdepth
  | number hc h hne =>
    intro fuel depth hfuel hdepth
    obtain ⟨fuel, rfl⟩ := Nat.exists_eq_add_of_lt hfuel
    exact decodeOne_number hc h hne (by omega)
  | boolean n b rest =>
    intro fuel depth hfuel hdepth
    obtain ⟨fuel, rfl⟩ := Nat.exists_eq_add_of_lt hfuel
    rw [decodeOne, if_neg (by omega)]
    cases b <;> rfl
  | null n rest =>
    intro fuel depth hfuel hdepth
    obtain ⟨fuel, rfl⟩ := Nat.exists_eq_add_of_lt hfuel
    rw [decodeOne, if_neg (by omega)]
    rfl
  | string h rest =>
    intro fuel depth hfuel hdepth
    obtain ⟨fuel, rfl⟩ := Nat.exists_eq_add_of_lt hfuel
    exact decodeOne_string h (by omega)
  | array _ ih =>
    rename_i p _ _
    intro fuel depth hfuel hdepth
    have hlen := length_skipwhite_le p
    obtain ⟨fuel, rfl⟩ := Nat.exists_eq_add_of_lt hfuel
    rw [decodeOne_bracket (by omega)]
    exact ih _ depth [] (by rw [List.length_cons]; omega) hdepth
  | object _ ih =>
    rename_i p _ _
    intro fuel depth hfuel hdepth
    have hlen := length_skipwhite_le p
    obtain ⟨fuel, rfl⟩ := Nat.exists_eq_add_of_lt hfuel
    rw [decodeOne_brace (by omega)]
    exact ih _ depth [] (by rw [List.length_cons]; omega) hdepth
  | noItem n rest =>
    intro fuel depth array hfuel hdepth
    obtain ⟨fuel, rfl⟩ := Nat.exists_eq_add_of_lt hfuel
    rw [decodeItems, List.append_nil]
  | lastItem h hend ih =>
    intro fuel depth array hfuel hdepth
    obtain ⟨fuel, rfl⟩ := Nat.exists_eq_add_of_lt hfuel
    exact decodeItems_last h (ih _ (depth + 1) (by omega) (by omega)) hend
  | item h hcomma _ ih ihmore =>
    intro fuel depth array hfuel hdepth
    obtain ⟨fuel, rfl⟩ : ∃ k, fuel = k + 1 := ⟨fuel - 1, by omega⟩
    have hone := ih fuel (depth + 1) (by omega) (by omega)
    have hlen := (decodeOne_consumes hone).length_lt
    have hrest := length_lt_of_skipwhite hcomma
    rw [decodeItems_more h hone hcomma, ihmore fuel depth _ (by omega) hdepth, List.append_assoc,
      List.singleton_append]
  | noMember n rest =>
    intro fuel depth table hfuel hdepth
    obtain ⟨fuel, rfl⟩ := Nat.exists_eq_add_of_lt hfuel
    rw [decodePairs]
    rfl
  | lastMember hquote hkey hcolon h hend ih =>
    intro fuel depth table hfuel hdepth
    have hopen := length_lt_of_skipwhite hquote
    have hsep := length_lt_of_skipwhite hcolon
    rw [List.length_append, List.length_cons] at hopen
    obtain ⟨fuel, rfl⟩ : ∃ k, fuel = k + 2 := ⟨fuel - 2, by omega⟩
    have hval := ih (fuel + 1) (depth + 1) (by omega) (by omega)
    exact decodePairs_last hquote hkey hcolon hval (by omega) hend
  | member hquote hkey hcolon h hcomma _ ih ihmore =>
    intro fuel depth table hfuel hdepth
    have hopen := length_lt_of_skipwhite hquote
    have hsep := length_lt_of_skipwhite hcolon
    rw [List.length_append, List.length_cons] at hopen
    obtain ⟨fuel, rfl⟩ : ∃ k, fuel = k + 2 := ⟨fuel - 2, by omega⟩
    have hval := ih (fuel + 1) (depth + 1) (by omega) (by omega)
    have hlen := (decodeOne_consumes hval).length_lt
    have hrest := length_lt_of_skipwhite hcomma
    rw [decodePairs_more hquote hkey hcolon hval (by omega) hcomma]
    exact ihmore (fuel + 1) depth _ (by omega) hdepth

/-- **The values that are decoded**, wherever they stand: with a bound on the recursion that is
large enough, the decoder accepts exactly what the grammar has at this depth. -/
theorem decodeOne_eq_ok_iff (hfuel : 2 * p.length < fuel) :
    decodeOne C fl fuel depth p = .ok (v, rest) ↔
      depth ≤ recursionGuard ∧ Parses C fl (recursionGuard - depth) (.value v) p rest := by
  constructor
  · exact (parses_of_decode C fl fuel).1 depth p v rest
  · rintro ⟨hdepth, h⟩
    exact decodes_of_parses h fuel depth hfuel (by omega)

end

/-- A text of the grammar: one value, and nothing but white space behind it. -/
def IsText (C : Libc) (fl : DecodeFlags) (text : Bytes) (v : Value) : Prop :=
  ∃ rest, Parses C fl recursionGuard (.value v) text rest ∧ ∀ c ∈ rest, white c

theorem skipwhite_eq_nil_iff {p : Bytes} : skipwhite p = [] ↔ ∀ c ∈ p, white c := by
  rw [skipwhite, List.dropWhile_eq_nil_iff]

section

variable {C : Libc} {fl : DecodeFlags} {b : Bytes} {v : Value}

theorem decodeOne_text_iff {rest : Bytes} :
    decodeOne C fl (2 * (cstr b).length + 1) 0 (cstr b) = .ok (v, rest) ↔
      Parses C fl recursionGuard (.value v) (cstr b) rest := by
  rw [decodeOne_eq_ok_iff (Nat.lt_succ_self _), Nat.sub_zero]
  exact and_iff_right (Nat.zero_le _)

theorem IsText.jsonDecode (h : IsText C fl (cstr b) v) : jsonDecode C fl b = .ok v := by
  obtain ⟨rest, hparses, hwhite⟩ := h
  simp only [AhungryJanet.jsonDecode, decodeOne_text_iff.mpr hparses,
    skipwhite_eq_nil_iff.mpr hwhite]

end

end AhungryJanet.Grammar
