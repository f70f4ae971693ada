import AhungryJanet.Crypt.Coder
import AhungryJanet.Json.Decode

/-!
# Tokens

`com.ahungry.crypt.jwt`: making a token, verifying its signature, and reading its payload.

## What a made token is

The module signs with the MAC and a NUL behind it, and writes its segments in the alphabet of its
encoder. Both are deviations from the compact serialization of RFC 7515, which asks for the bare MAC
and for the url alphabet; `IsCompactToken` has the two as parameters, so that what the module makes
and what the standard asks for are two values of one definition.

## Main results

* `verifySignature_eq` — what verification compares
* `make_returns_iff` — which texts become tokens: those whose tokens are not too long for a string
* `verifySignature_make` — the module accepts every token it makes, whatever is on the stack
* `isCompactToken_make` — what the made tokens are
* `not_isCompactToken_madeToken` — they are not the tokens of the standard
-/

namespace AhungryJanet

open Base64 Search

/-- `"."`. -/
def dot : Bytes := ascii "."

/-- `make-signature`, on texts that are not too long to be joined. The pieces of a token that is
verified never are. -/
def makeSignature (L : OpenSsl) (secret : Bytes) (b64Header b64Payload : Value) : Call Bytes := do
  let val ← stringJoin [b64Header, b64Payload] dot
  hmacSha256Wrapped L (.string secret) (.string val)

/-- `{:alg "HS256" :typ "JWT"}`. -/
def header : Value :=
  .struct [(.keyword (ascii "alg"), .string (ascii "HS256")),
    (.keyword (ascii "typ"), .string (ascii "JWT"))]

/-- `make`. The two calls of `string/join`, the one in `make-signature` first, check the length of
what they join. -/
def make (C : Libc) (L : OpenSsl) (secret : Bytes) (payloadDs : Value) : Call Bytes := do
  let header ← jsonEncode C header
  let payload ← jsonEncode C payloadDs
  let b64Header ← base64EncodeNopad L header
  let b64Payload ← base64EncodeNopad L payload
  let _ ← checkFinallen (← stringJoin [.string b64Header, .string b64Payload] dot)
  let signature ← makeSignature L secret (.string b64Header) (.string b64Payload)
  let b64Signature ← base64EncodeNopad L signature
  checkFinallen
    (← stringJoin [.string b64Header, .string b64Payload, .string b64Signature] dot)

/-- `verify-signature`. -/
def verifySignature (L : OpenSsl) (stack : ℕ → UInt8) (secret jwt : Bytes) : Call Bool := do
  let parts ← stringSplit dot jwt
  let b64Header := getString parts 0
  let b64Payload := getString parts 1
  let b64Signature := getString parts 2
  let signatureActual ← base64Decode L stack b64Signature
  let signatureExpected ← makeSignature L secret b64Header b64Payload
  return signatureActual == signatureExpected

/-- `get-payload`. -/
def getPayload (C : Libc) (L : OpenSsl) (stack : ℕ → UInt8) (jwt : Bytes) : Call Value := do
  let parts ← stringSplit dot jwt
  let payload ← base64Decode L stack (getString parts 1)
  jsonDecode C ⟨false, false⟩ payload

/-! ### Segments -/

theorem dot_ne_nil : dot ≠ [] := by decide

theorem unbordered_dot : Unbordered dot := unbordered_singleton 46

/-- Segments joined by dots. -/
def compact (segments : List Bytes) : Bytes := List.intercalate dot segments

/-- What is signed. -/
def signingInput (s₀ s₁ : Bytes) : Bytes := compact [s₀, s₁]

theorem signingInput_eq (s₀ s₁ : Bytes) : signingInput s₀ s₁ = s₀ ++ (dot ++ s₁) := by
  simp [signingInput, compact, List.intercalate]

theorem pieces_compact {segments : List Bytes} (hne : segments ≠ [])
    (h : ∀ s ∈ segments, (46 : UInt8) ∉ s) : pieces dot (compact segments) = segments :=
  (pieces_isSplit dot_ne_nil).of_intercalate unbordered_dot dot_ne_nil hne fun s hs => by
    rw [dot, show ascii "." = [46] from rfl, List.singleton_infix_iff]
    exact h s hs

theorem nulFree_signingInput_iff {s₀ s₁ : Bytes} :
    NulFree (signingInput s₀ s₁) ↔ NulFree s₀ ∧ NulFree s₁ := by
  rw [signingInput_eq]
  constructor
  · intro h
    exact ⟨fun c hc => h c (by simp [hc]), fun c hc => h c (by simp [hc])⟩
  · rintro ⟨h₀, h₁⟩
    exact h₀.append (NulFree.append (by decide) h₁)

/-! ### Signing and verifying -/

theorem makeSignature_strings (L : OpenSsl) (secret s₀ s₁ : Bytes) :
    makeSignature L secret (.string s₀) (.string s₁) =
      hmacSha256Wrapped L (.string secret) (.string (signingInput s₀ s₁)) := by
  have hjoin : stringJoin [.string s₀, .string s₁] dot = .ok (signingInput s₀ s₁) :=
    stringJoin_strings [s₀, s₁] dot
  rw [makeSignature, hjoin]
  rfl

theorem makeSignature_eq (L : OpenSsl) {secret s₀ s₁ : Bytes} (hsecret : NulFree secret)
    (h₀ : NulFree s₀) (h₁ : NulFree s₁) :
    makeSignature L secret (.string s₀) (.string s₁) =
      .ok (L.hmac secret (signingInput s₀ s₁) ++ [0]) := by
  have hval := nulFree_signingInput_iff.mpr ⟨h₀, h₁⟩
  rw [makeSignature_strings, hmacSha256Wrapped, getCString_of_nulFree 0 hsecret,
    getCString_of_nulFree 1 hval]
  rfl

/-- What verification compares. -/
theorem verifySignature_eq (L : OpenSsl) (stack : ℕ → UInt8) {secret jwt s₀ s₁ s₂ : Bytes}
    {rest : List Bytes} (hsecret : NulFree secret) (hjwt : pieces dot jwt = s₀ :: s₁ :: s₂ :: rest)
    (h₀ : NulFree s₀) (h₁ : NulFree s₁) (h₂ : NulFree s₂) :
    verifySignature L stack secret jwt =
      .ok (overStack stack (blockSize (unescaped s₂).length) (L.decodeBlock (unescaped s₂)) ==
        L.hmac secret (signingInput s₀ s₁) ++ [0]) := by
  have hmake := makeSignature_eq L hsecret h₀ h₁
  simp [verifySignature, stringSplit_eq dot_ne_nil, hjwt, getString, base64Decode_string,
    base64DecodeWrapped_eq L stack ((nulFree_unescaped s₂).mpr h₂), hmake, bind, Except.bind, pure,
    Except.pure]

theorem makeSignature_of_not_nulFree (L : OpenSsl) {secret s₀ s₁ : Bytes}
    (hsecret : NulFree secret) (h : ¬ (NulFree s₀ ∧ NulFree s₁)) :
    makeSignature L secret (.string s₀) (.string s₁) = .error .embeddedZeros := by
  have hval := mt nulFree_signingInput_iff.mp h
  rw [makeSignature_strings, hmacSha256Wrapped, getCString_of_nulFree 0 hsecret,
    getCString_of_not_nulFree 1 hval]
  rfl

theorem base64Decode_of_not_nulFree (L : OpenSsl) (stack : ℕ → UInt8) {s : Bytes}
    (h : ¬ NulFree s) : base64Decode L stack (.string s) = .error .embeddedZeros := by
  have hun := mt (nulFree_unescaped s).mp h
  simp [base64Decode_string, base64DecodeWrapped, getCString_of_not_nulFree 0 hun, bind,
    Except.bind]

/-- Verification panics whatever is on the stack, or gets to the comparison with three segments free
of NUL. -/
theorem verifySignature_cases (L : OpenSsl) {secret : Bytes} (jwt : Bytes)
    (hsecret : NulFree secret) :
    (∃ err, ∀ stack, verifySignature L stack secret jwt = .error err) ∨
      ∃ s₀ s₁ s₂ rest, pieces dot jwt = s₀ :: s₁ :: s₂ :: rest ∧ NulFree s₀ ∧ NulFree s₁ ∧
        NulFree s₂ := by
  simp only [verifySignature, stringSplit_eq dot_ne_nil, bind, Except.bind]
  match pieces dot jwt with
  | [] | [_] | [_, _] => exact .inl ⟨.badSlot 0, fun _ => rfl⟩
  | s₀ :: s₁ :: s₂ :: rest =>
    simp only [getString, List.getElem?_cons_zero, List.getElem?_cons_succ]
    by_cases h₂ : NulFree s₂
    · by_cases h₀₁ : NulFree s₀ ∧ NulFree s₁
      · exact .inr ⟨s₀, s₁, s₂, rest, rfl, h₀₁.1, h₀₁.2, h₂⟩
      · refine .inl ⟨.embeddedZeros, fun stack => ?_⟩
        rw [base64Decode_string,
          base64DecodeWrapped_eq L stack ((nulFree_unescaped s₂).mpr h₂)]
        simp only [makeSignature_of_not_nulFree L hsecret h₀₁]
    · exact .inl ⟨.embeddedZeros, fun stack => by rw [base64Decode_of_not_nulFree L stack h₂]⟩

theorem getPayload_eq (C : Libc) (L : OpenSsl) (stack : ℕ → UInt8) {jwt s₀ s₁ : Bytes}
    {rest : List Bytes} (hjwt : pieces dot jwt = s₀ :: s₁ :: rest) (h₁ : NulFree s₁) :
    getPayload C L stack jwt =
      jsonDecode C ⟨false, false⟩
        (overStack stack (blockSize (unescaped s₁).length) (L.decodeBlock (unescaped s₁))) := by
  simp [getPayload, stringSplit_eq dot_ne_nil, hjwt, getString, base64Decode_string,
    base64DecodeWrapped_eq L stack ((nulFree_unescaped s₁).mpr h₁), bind, Except.bind]

/-! ### Made tokens -/

theorem nulFree_digits (d : Bytes) : NulFree (digits standard d) := fun _ hc =>
  ne_zero_of_readable (readable_of_mem_digits hc)

/-- The signature of the module: the MAC and a NUL. -/
def signature (L : OpenSsl) (secret val : Bytes) : Bytes := L.hmac secret val ++ [0]

theorem length_signature (L : OpenSsl) (secret val : Bytes) :
    (signature L secret val).length = 33 := by
  simp [signature, L.length_hmac]

/-- `{"alg":"HS256","typ":"JWT"}`. -/
def headerText : Bytes :=
  ascii "\x7b\"alg\":\"HS256\",\"typ\":\"JWT\"\x7d"

theorem jsonEncode_header (C : Libc) : jsonEncode C header = .ok headerText := by
  simp [jsonEncode, header, encodeOne, encodePairs, encodeNewline, dropComma, bytesView,
    encodeChars_of_plain (show ∀ c ∈ ascii "alg", _ by decide),
    encodeChars_of_plain (show ∀ c ∈ ascii "HS256", _ by decide),
    encodeChars_of_plain (show ∀ c ∈ ascii "typ", _ by decide),
    encodeChars_of_plain (show ∀ c ∈ ascii "JWT", _ by decide), bind, Except.bind]
  rfl

/-- The third segment of a made token. -/
def signatureSegment (L : OpenSsl) (secret s₀ s₁ : Bytes) : Bytes :=
  digits standard (signature L secret (signingInput s₀ s₁))

/-- The token the module makes. -/
def madeToken (L : OpenSsl) (secret text : Bytes) : Bytes :=
  let s₀ := digits standard headerText
  let s₁ := digits standard text
  compact [s₀, s₁, signatureSegment L secret s₀ s₁]

theorem length_digits_headerText : (digits standard headerText).length = 36 := by decide

/-- The third segment needs no padding, because of the NUL behind the MAC. -/
theorem length_signatureSegment (L : OpenSsl) (secret s₀ s₁ : Bytes) :
    (signatureSegment L secret s₀ s₁).length = 44 := by
  have hlen := length_digits standard (signature L secret (signingInput s₀ s₁))
  rw [length_signature] at hlen
  exact hlen

/-- Four letters for three bytes, without padding. -/
theorem length_digits_eq (A : Alphabet) (d : Bytes) :
    (digits A d).length = (4 * d.length + 2) / 3 := by
  have hlen := length_digits A d
  rw [padding] at hlen
  omega

theorem length_signingInput_made (text : Bytes) :
    (signingInput (digits standard headerText) (digits standard text)).length =
      37 + (4 * text.length + 2) / 3 := by
  rw [signingInput_eq, List.length_append, List.length_append, length_digits_headerText,
    length_digits_eq]
  change 36 + (1 + _) = _
  omega

theorem length_madeToken (L : OpenSsl) (secret text : Bytes) :
    (madeToken L secret text).length = 82 + (4 * text.length + 2) / 3 := by
  have hcompact : ∀ s₀ s₁ s₂ : Bytes,
      (compact [s₀, s₁, s₂]).length = s₀.length + s₁.length + s₂.length + 2 := by
    intro s₀ s₁ s₂
    simp [compact, List.intercalate, dot, ascii]
    omega
  rw [madeToken, hcompact, length_digits_headerText, length_digits_eq, length_signatureSegment]
  omega

theorem checkFinallen_of_le {joined : Bytes} (h : joined.length ≤ int32Max) :
    checkFinallen joined = .ok joined := if_neg (Nat.not_lt.mpr h)

theorem checkFinallen_of_lt {joined : Bytes} (h : int32Max < joined.length) :
    checkFinallen joined = .error .tooLong := if_pos h

/-- The longest text whose token is a string: `string/join` makes none of more than `INT32_MAX`
bytes. -/
def payloadMax : ℕ := 1610612673

section

variable {C : Libc} {payload : Value} {secret text : Bytes}

/-- What `make` does with a text that can be encoded. -/
theorem make_of_encodeMax (L : OpenSsl) (hsecret : NulFree secret)
    (htext : jsonEncode C payload = .ok text) (hlen : text.length ≤ encodeMax) :
    make C L secret payload =
      (do
        let _ ← checkFinallen (signingInput (digits standard headerText) (digits standard text))
        checkFinallen (madeToken L secret text)) := by
  have hheader := base64EncodeNopad_eq L (d := headerText) (by decide)
  have hpayload := base64EncodeNopad_eq L hlen
  have hsig := makeSignature_eq L hsecret (nulFree_digits headerText) (nulFree_digits text)
  have hsegment := base64EncodeNopad_eq L (d := L.hmac secret
    (signingInput (digits standard headerText) (digits standard text)) ++ [0])
    (by rw [List.length_append, L.length_hmac]; decide)
  have hjoin := stringJoin_strings [digits standard headerText, digits standard text] dot
  have hjoin' := fun s₂ =>
    stringJoin_strings [digits standard headerText, digits standard text, s₂] dot
  simp only [List.map_cons, List.map_nil] at hjoin hjoin'
  simp only [make, jsonEncode_header, htext, bind, Except.bind, hheader, hpayload, hsig, hjoin,
    hsegment, hjoin']
  rfl

theorem make_eq (L : OpenSsl) (hsecret : NulFree secret) (htext : jsonEncode C payload = .ok text)
    (hlen : text.length ≤ payloadMax) :
    make C L secret payload = .ok (madeToken L secret text) := by
  rw [payloadMax] at hlen
  have hinput := length_signingInput_made text
  have htoken := length_madeToken L secret text
  rw [make_of_encodeMax L hsecret htext (by rw [encodeMax]; omega),
    checkFinallen_of_le (by rw [hinput, int32Max]; omega)]
  exact checkFinallen_of_le (by rw [htoken, int32Max]; omega)

/-- The token of a longer text is too long for a string. -/
theorem make_of_tooLong (L : OpenSsl) (hsecret : NulFree secret)
    (htext : jsonEncode C payload = .ok text) (hlong : payloadMax < text.length)
    (hlen : text.length ≤ encodeMax) : make C L secret payload = .error .tooLong := by
  rw [payloadMax] at hlong
  have htoken : int32Max < (madeToken L secret text).length := by
    rw [length_madeToken, int32Max]
    omega
  rw [make_of_encodeMax L hsecret htext hlen]
  by_cases hinput : int32Max <
      (signingInput (digits standard headerText) (digits standard text)).length
  · rw [checkFinallen_of_lt hinput]
    rfl
  · rw [checkFinallen_of_le (Nat.not_lt.mp hinput)]
    exact checkFinallen_of_lt htoken

/-- Of a text that cannot be encoded, nothing can be said. -/
theorem make_of_lt (L : OpenSsl) (htext : jsonEncode C payload = .ok text)
    (hlong : encodeMax < text.length) : make C L secret payload = .error .undefined := by
  have hheader := base64EncodeNopad_eq L (d := headerText) (by decide)
  simp only [make, jsonEncode_header, htext, bind, Except.bind, hheader,
    base64EncodeNopad_of_lt L hlong]

/-- **Exactly which texts become tokens.** -/
theorem make_returns_iff (L : OpenSsl) (hsecret : NulFree secret)
    (htext : jsonEncode C payload = .ok text) :
    (∃ token, make C L secret payload = .ok token) ↔ text.length ≤ payloadMax := by
  constructor
  · rintro ⟨token, hmake⟩
    by_contra hlong
    by_cases hlen : text.length ≤ encodeMax
    · rw [make_of_tooLong L hsecret htext (Nat.not_le.mp hlong) hlen] at hmake
      cases hmake
    · rw [make_of_lt L htext (Nat.not_le.mp hlen)] at hmake
      cases hmake
  · exact fun hlen => ⟨_, make_eq L hsecret htext hlen⟩

end

theorem pieces_madeToken (L : OpenSsl) (secret text : Bytes) :
    pieces dot (madeToken L secret text) =
      [digits standard headerText, digits standard text,
        signatureSegment L secret (digits standard headerText) (digits standard text)] := by
  have hdot : ∀ d, (46 : UInt8) ∉ digits standard d := fun d h => (ne_of_mem_digits h).2.2 rfl
  exact pieces_compact (by simp) (by simp [hdot, signatureSegment])

theorem addPadding_signatureSegment (L : OpenSsl) (secret s₀ s₁ : Bytes) :
    addPadding (.string (signatureSegment L secret s₀ s₁)) =
      .ok (signatureSegment L secret s₀ s₁) := by
  rw [addPadding_string, padded_of_length]
  rw [length_signatureSegment]

theorem base64Decode_signatureSegment (L : OpenSsl) (stack : ℕ → UInt8) (secret s₀ s₁ : Bytes) :
    base64Decode L stack (.string (signatureSegment L secret s₀ s₁)) =
      .ok (signature L secret (signingInput s₀ s₁)) := by
  rw [signatureSegment, base64Decode_digits, length_signature]
  exact congrArg Except.ok (List.append_nil _)

theorem verifySignature_madeToken (L : OpenSsl) (stack : ℕ → UInt8) {secret : Bytes}
    (hsecret : NulFree secret) (text : Bytes) :
    verifySignature L stack secret (madeToken L secret text) = .ok true := by
  have hsig := makeSignature_eq L hsecret (nulFree_digits headerText) (nulFree_digits text)
  simp [verifySignature, stringSplit_eq dot_ne_nil, pieces_madeToken, getString,
    base64Decode_signatureSegment, hsig, signature, bind, Except.bind, pure, Except.pure]

/-- **The module accepts every token it makes**, whatever is on the stack: the token splits into the
segments it was joined from, the third segment passes the padding step and every segment the mapping
of the url characters unchanged, and decoding the third gives back the 33 bytes of the
signature. -/
theorem verifySignature_make (C : Libc) (L : OpenSsl) {secret : Bytes} (hsecret : NulFree secret)
    {payload : Value} {text : Bytes} (htext : jsonEncode C payload = .ok text)
    (hlen : text.length ≤ payloadMax) :
    ∃ token s₀ s₁ s₂ sig,
      make C L secret payload = .ok token ∧
      token = compact [s₀, s₁, s₂] ∧
      base64EncodeNopad L headerText = .ok s₀ ∧ base64EncodeNopad L text = .ok s₁ ∧
      base64EncodeNopad L sig = .ok s₂ ∧
      pieces dot token = [s₀, s₁, s₂] ∧
      makeSignature L secret (.string s₀) (.string s₁) = .ok sig ∧
      sig = L.hmac secret (signingInput s₀ s₁) ++ [0] ∧ sig.length = 33 ∧
      addPadding (.string s₂) = .ok s₂ ∧
      undoUrlChars s₀ = .ok s₀ ∧ undoUrlChars s₁ = .ok s₁ ∧ undoUrlChars s₂ = .ok s₂ ∧
      (∀ stack, base64Decode L stack (.string s₂) = .ok sig) ∧
      ∀ stack, verifySignature L stack secret token = .ok true := by
  have hsig := length_signature L secret
    (signingInput (digits standard headerText) (digits standard text))
  have hshort : 33 ≤ encodeMax := by decide
  exact ⟨madeToken L secret text, digits standard headerText, digits standard text,
    signatureSegment L secret _ _, signature L secret _, make_eq L hsecret htext hlen, rfl,
    base64EncodeNopad_eq L (by decide),
    base64EncodeNopad_eq L (hlen.trans (by decide)),
    base64EncodeNopad_eq L (hsig.le.trans hshort),
    pieces_madeToken L secret text,
    makeSignature_eq L hsecret (nulFree_digits headerText) (nulFree_digits text), rfl, hsig,
    addPadding_signatureSegment L secret _ _,
    undoUrlChars_digits headerText, undoUrlChars_digits text, undoUrlChars_digits _,
    fun stack => base64Decode_signatureSegment L stack secret _ _,
    fun stack => verifySignature_madeToken L stack hsecret text⟩

/-- `(jwt/make "secure" {:hello "World"})`, with the MAC OpenSSL computes for it. -/
def helloOpenSsl : OpenSsl := .recorded
  [((ascii "secure", ascii "eyJhbGciOiJIUzI1NiIsInR5cCI6IkpXVCJ9.eyJoZWxsbyI6IldvcmxkIn0"),
    [172, 66, 96, 200, 36, 43, 58, 208, 172, 144, 12, 131, 75, 222, 94, 176, 60, 102, 92, 186, 160,
      119, 31, 37, 180, 99, 241, 148, 186, 22, 47, 129])] (by decide)

/-- `{:hello "World"}`. -/
def hello : Value := .struct [(.keyword (ascii "hello"), .string (ascii "World"))]

theorem nulFree_secure : NulFree (ascii "secure") := by decide

/-- `{"hello":"World"}`. -/
def helloText : Bytes := ascii "\x7b\"hello\":\"World\"\x7d"

theorem jsonEncode_hello : jsonEncode Libc.zero hello = .ok helloText := by
  simp [jsonEncode, hello, encodeOne, encodePairs, encodeNewline, dropComma, bytesView,
    encodeChars_of_plain (show ∀ c ∈ ascii "hello", _ by decide),
    encodeChars_of_plain (show ∀ c ∈ ascii "World", _ by decide), bind, Except.bind]
  rfl

/-- The reflection test of the examples. -/
theorem verifySignature_make_hello :
    ∃ token, make Libc.zero helloOpenSsl (ascii "secure") hello = .ok token ∧
      ∀ stack, verifySignature helloOpenSsl stack (ascii "secure") token = .ok true := by
  obtain ⟨token, _, _, _, _, hmake, -, -, -, -, -, -, -, -, -, -, -, -, -, hverify⟩ :=
    verifySignature_make Libc.zero helloOpenSsl nulFree_secure jsonEncode_hello (by decide)
  exact ⟨token, hmake, hverify⟩

/-- A string of so many letters `a`. -/
def letters (n : ℕ) : Value := .string (List.replicate n 97)

theorem exists_jsonEncode_letters (C : Libc) (n : ℕ) :
    ∃ text, jsonEncode C (letters n) = .ok text ∧ text.length = n + 2 := by
  have hplain := encodeChars_of_plain (s := List.replicate n 97) (fun c hc => by
    rw [List.eq_of_mem_replicate hc]
    decide) [34]
  refine ⟨[34] ++ List.replicate n 97 ++ [34], ?_, by simp⟩
  simp [jsonEncode, letters, encodeOne, hplain, bind, Except.bind, pure, Except.pure]

/-- A string that json/encode accepts and that becomes no token: its text is one byte too long. -/
theorem exists_make_letters_tooLong :
    ∃ text, jsonEncode Libc.zero (letters 1610612672) = .ok text ∧ text.length = payloadMax + 1 ∧
      ∀ L, make Libc.zero L (ascii "secure") (letters 1610612672) = .error .tooLong := by
  obtain ⟨text, htext, hlen⟩ := exists_jsonEncode_letters Libc.zero 1610612672
  have hlong : text.length = payloadMax + 1 := hlen
  exact ⟨text, htext, hlong, fun L => make_of_tooLong L nulFree_secure htext
    (hlong ▸ Nat.lt_succ_self _) (hlong ▸ (by decide))⟩

/-- Not every payload that json/encode accepts becomes a token. -/
theorem not_verifySignature_make_letters :
    ¬ ∀ (C : Libc) (L : OpenSsl) (secret : Bytes) (payload : Value) (text : Bytes), NulFree secret →
      jsonEncode C payload = .ok text →
        ∃ token, make C L secret payload = .ok token ∧
          ∀ stack, verifySignature L stack secret token = .ok true := by
  intro h
  obtain ⟨text, htext, -, hlong⟩ := exists_make_letters_tooLong
  obtain ⟨token, hmake, -⟩ := h _ helloOpenSsl _ _ text nulFree_secure htext
  rw [hlong helloOpenSsl] at hmake
  cases hmake

/-- A compact token: three segments of letters of the alphabet, without padding, that decode to the
header, the payload, and what `sign` makes of the first two. With the url alphabet and the bare
MAC this is the compact serialization of the standard. -/
structure IsCompactToken (A : Alphabet) (sign : Bytes → Bytes) (header payload token : Bytes) :
    Prop where
  /-- The segments, and what they decode to. -/
  segments : ∃ s₀ s₁ s₂, token = compact [s₀, s₁, s₂] ∧
    (∀ s ∈ [s₀, s₁, s₂], ∀ c ∈ s, value A c ≠ none) ∧
    decodeDigits A s₀ = some header ∧ decodeDigits A s₁ = some payload ∧
    decodeDigits A s₂ = some (sign (signingInput s₀ s₁))

/-- **What the module makes**: tokens over the alphabet of its encoder, signed with the MAC and a
NUL, which takes 44 letters. -/
theorem isCompactToken_make (C : Libc) (L : OpenSsl) {secret : Bytes} (hsecret : NulFree secret)
    {payload : Value} {text : Bytes} (htext : jsonEncode C payload = .ok text)
    (hlen : text.length ≤ payloadMax) :
    ∃ token, make C L secret payload = .ok token ∧
      IsCompactToken standard (fun val => L.hmac secret val ++ [0]) headerText text token ∧
      ∃ s₀ s₁ s₂, pieces dot token = [s₀, s₁, s₂] ∧ s₂.length = 44 := by
  have hvalue : ∀ {d c}, c ∈ digits standard d → value standard c ≠ none := by
    intro d c hc
    obtain ⟨n, hn⟩ := value_of_mem_digits proper_standard hc
    simp [hn]
  have hsegments : ∀ s ∈ [digits standard headerText, digits standard text,
      signatureSegment L secret (digits standard headerText) (digits standard text)],
      ∀ c ∈ s, value standard c ≠ none := by
    intro s hs c hc
    simp only [List.mem_cons, List.not_mem_nil, or_false] at hs
    rcases hs with rfl | rfl | rfl
    · exact hvalue hc
    · exact hvalue hc
    · exact hvalue hc
  exact ⟨madeToken L secret text, make_eq L hsecret htext hlen,
    ⟨_, _, _, rfl, hsegments, decodeDigits_digits proper_standard _,
      decodeDigits_digits proper_standard _, decodeDigits_digits proper_standard _⟩,
    _, _, _, pieces_madeToken L secret text, length_signatureSegment L secret _ _⟩

theorem isCompactToken_make_hello :
    ∃ token, make Libc.zero helloOpenSsl (ascii "secure") hello = .ok token ∧
      IsCompactToken standard (fun val => helloOpenSsl.hmac (ascii "secure") val ++ [0]) headerText
        helloText token := by
  obtain ⟨token, hmake, htoken, -⟩ :=
    isCompactToken_make Libc.zero helloOpenSsl nulFree_secure jsonEncode_hello (by decide)
  exact ⟨token, hmake, htoken⟩

/-- The third segment of a made token decodes to 33 bytes in any alphabet, one too many for a
MAC. -/
theorem not_isCompactToken_madeToken (A : Alphabet) (hdot : value A 46 = none)
    (L : OpenSsl) (secret header payload text : Bytes) :
    ¬ IsCompactToken A (L.hmac secret) header payload (madeToken L secret text) := by
  rintro ⟨s₀, s₁, s₂, htoken, hletters, -, -, hdecode⟩
  have hfree : ∀ s ∈ [s₀, s₁, s₂], (46 : UInt8) ∉ s := fun s hs hmem => hletters s hs 46 hmem hdot
  have hpieces := pieces_madeToken L secret text
  rw [htoken, pieces_compact (by simp) hfree] at hpieces
  simp only [List.cons.injEq, and_true] at hpieces
  obtain ⟨-, -, hs₂⟩ := hpieces
  have hlen := length_decodeDigits hdecode
  rw [L.length_hmac, hs₂, length_signatureSegment] at hlen
  cases hlen

/-- `"??"`. -/
def marks : Value := .string (ascii "??")

/-- `(jwt/make "secure" "??")`, with the MAC OpenSSL computes for it. -/
def marksOpenSsl : OpenSsl := .recorded
  [((ascii "secure", ascii "eyJhbGciOiJIUzI1NiIsInR5cCI6IkpXVCJ9.Ij8/Ig"),
    [230, 175, 87, 117, 230, 116, 20, 92, 138, 188, 249, 245, 241, 220, 177, 53, 193, 178, 29, 241,
      146, 165, 233, 238, 232, 132, 88, 29, 23, 224, 222, 54])] (by decide)

theorem jsonEncode_marks : jsonEncode Libc.zero marks = .ok (ascii "\"??\"") := by
  simp [jsonEncode, marks, encodeOne, encodeChars_of_plain (show ∀ c ∈ ascii "??", _ by decide),
    bind, Except.bind]
  rfl

/-- The hardcoded token of the examples is made by the module, and is not a token of the standard:
its signature has 33 bytes. The token of `"??"` has a letter that is none of the url alphabet. And
a string of 1610612672 letters becomes no token. -/
theorem not_isCompactToken_make_hello :
    (∃ token, make Libc.zero helloOpenSsl (ascii "secure") hello = .ok token ∧
      ¬ IsCompactToken url (helloOpenSsl.hmac (ascii "secure")) headerText
        helloText token) ∧
    (∃ token, make Libc.zero marksOpenSsl (ascii "secure") marks = .ok token ∧
      ∃ s ∈ pieces dot token, ∃ c ∈ s, value url c = none) ∧
    ∃ text, jsonEncode Libc.zero (letters 1610612672) = .ok text ∧ text.length = payloadMax + 1 ∧
      ∀ L, make Libc.zero L (ascii "secure") (letters 1610612672) = .error .tooLong := by
  refine ⟨⟨_, make_eq helloOpenSsl nulFree_secure jsonEncode_hello (by decide),
    not_isCompactToken_madeToken url (by decide) helloOpenSsl _ _ _ _⟩,
    ⟨_, make_eq marksOpenSsl nulFree_secure jsonEncode_marks (by decide), ?_⟩,
    exists_make_letters_tooLong⟩
  rw [pieces_madeToken]
  -- the second segment is `Ij8/Ig`
  exact ⟨digits standard (ascii "\"??\""), by simp, 47, by decide, by decide⟩

end AhungryJanet
