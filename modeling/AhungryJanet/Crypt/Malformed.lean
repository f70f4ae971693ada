import AhungryJanet.Crypt.Verify

/-!
# Malformed tokens

Does `verify-signature` answer every string from outside? A token with fewer than three segments
runs into a panic, since the decoder is handed nil, and so does one with a NUL in its first three
segments, since their texts are read as C strings. A token with more than three segments is
answered, but what follows the third segment is never looked at.

## Main results

* `verifySignature_returns_iff` — exactly which tokens are answered at all
* `answered_iff` — exactly which tokens are answered, and accepted only with three segments
-/

namespace AhungryJanet

open Base64

/-- Whatever is on the stack, verification returns true or false, and it returns false unless the
token consists of three segments. -/
structure Answered (L : OpenSsl) (secret jwt : Bytes) : Prop where
  /-- No panic. -/
  returns : ∀ stack, ∃ verdict, verifySignature L stack secret jwt = .ok verdict
  /-- Any other number of segments is turned down. -/
  rejects : (jwt.splitOn 46).length ≠ 3 →
    ∀ stack, verifySignature L stack secret jwt = .ok false

/-- Three segments that can be read as C strings, and perhaps more. -/
def Segments (jwt s₀ s₁ s₂ : Bytes) (rest : List Bytes) : Prop :=
  jwt.splitOn 46 = s₀ :: s₁ :: s₂ :: rest ∧ NulFree s₀ ∧ NulFree s₁ ∧ NulFree s₂

theorem pieces_dot (jwt : Bytes) : pieces dot jwt = jwt.splitOn 46 := pieces_singleton 46 jwt

section

variable {L : OpenSsl} {secret jwt s₀ s₁ s₂ : Bytes} {rest : List Bytes}

theorem Segments.exists_verdict (h : Segments jwt s₀ s₁ s₂ rest) (hsecret : NulFree secret)
    (stack : ℕ → UInt8) : ∃ verdict, verifySignature L stack secret jwt = .ok verdict := by
  obtain ⟨hjwt, h₀, h₁, h₂⟩ := h
  rw [← pieces_dot] at hjwt
  exact ⟨_, verifySignature_eq L stack hsecret hjwt h₀ h₁ h₂⟩

/-- **Verification returns exactly when there are three segments without NUL**, whatever comes
behind them. -/
theorem verifySignature_returns_iff (hsecret : NulFree secret) (stack : ℕ → UInt8) :
    (∃ verdict, verifySignature L stack secret jwt = .ok verdict) ↔
      ∃ s₀ s₁ s₂ rest, Segments jwt s₀ s₁ s₂ rest := by
  constructor
  · rintro ⟨verdict, hverdict⟩
    rcases verifySignature_cases L jwt hsecret with ⟨err, herr⟩ | ⟨s₀, s₁, s₂, rest, hjwt, h⟩
    · rw [herr stack] at hverdict
      cases hverdict
    · rw [pieces_dot] at hjwt
      exact ⟨s₀, s₁, s₂, rest, hjwt, h⟩
  · rintro ⟨s₀, s₁, s₂, rest, h⟩
    exact h.exists_verdict hsecret stack

/-- Three segments are accepted on some stack exactly when the third stores a beginning of the
signature, in a text of the right length. -/
theorem Segments.exists_accepted_iff (h : Segments jwt s₀ s₁ s₂ rest) (hsecret : NulFree secret) :
    (∃ stack, verifySignature L stack secret jwt = .ok true) ↔
      (unescaped s₂).length = 44 ∧
        L.decodeBlock (unescaped s₂) <+: L.hmac secret (signingInput s₀ s₁) ++ [0] := by
  obtain ⟨hjwt, h₀, h₁, h₂⟩ := h
  rw [← pieces_dot] at hjwt
  constructor
  · rintro ⟨stack, hstack⟩
    exact isPrefix_of_accepted hsecret hjwt h₀ h₁ h₂ hstack
  · rintro ⟨h44, hstored⟩
    exact exists_accepting_stack hsecret hjwt h₀ h₁ h₂ h44 hstored

end

/-- **Exactly which tokens are answered**: they have three segments without NUL, and if more
segments follow, the third is not a text of 44 characters that stores a beginning of the
signature. -/
theorem answered_iff (L : OpenSsl) {secret : Bytes} (hsecret : NulFree secret) (jwt : Bytes) :
    Answered L secret jwt ↔
      ∃ s₀ s₁ s₂ rest, Segments jwt s₀ s₁ s₂ rest ∧
        (rest ≠ [] → (unescaped s₂).length = 44 →
          ¬ L.decodeBlock (unescaped s₂) <+: L.hmac secret (signingInput s₀ s₁) ++ [0]) := by
  constructor
  · rintro ⟨hreturns, hrejects⟩
    obtain ⟨s₀, s₁, s₂, rest, h⟩ :=
      (verifySignature_returns_iff hsecret fun _ => 0).mp (hreturns fun _ => 0)
    refine ⟨s₀, s₁, s₂, rest, h, fun hrest h44 hstored => ?_⟩
    obtain ⟨stack, haccepted⟩ := (h.exists_accepted_iff hsecret).mpr ⟨h44, hstored⟩
    have hlength : (jwt.splitOn 46).length ≠ 3 := by
      rw [h.1]
      simpa using hrest
    rw [hrejects hlength stack] at haccepted
    cases haccepted
  · rintro ⟨s₀, s₁, s₂, rest, h, hforged⟩
    refine ⟨fun stack => h.exists_verdict hsecret stack, fun hlength stack => ?_⟩
    obtain ⟨verdict, hverdict⟩ := h.exists_verdict (L := L) hsecret stack
    have hrest : rest ≠ [] := by
      rw [h.1] at hlength
      simpa using hlength
    cases verdict with
    | false => exact hverdict
    | true =>
      obtain ⟨h44, hstored⟩ := (h.exists_accepted_iff hsecret).mp ⟨stack, hverdict⟩
      exact absurd hstored (hforged hrest h44)

/-- A made token is answered. -/
theorem answered_hello : Answered helloOpenSsl (ascii "secure")
    (madeToken helloOpenSsl (ascii "secure") helloText) := by
  refine (answered_iff helloOpenSsl nulFree_secure _).mpr
    ⟨digits standard headerText, digits standard helloText,
      signatureSegment helloOpenSsl (ascii "secure") (digits standard headerText)
        (digits standard helloText), [], ⟨?_, nulFree_digits _, nulFree_digits _,
      nulFree_digits _⟩, fun h => absurd rfl h⟩
  rw [← pieces_dot, pieces_madeToken]

/-- A text without a dot panics. -/
theorem not_answered_plain : ¬ ∀ (L : OpenSsl) (secret jwt : Bytes), NulFree secret →
    Answered L secret jwt := by
  intro h
  have hanswered := h helloOpenSsl (ascii "secure") (ascii "token") nulFree_secure
  obtain ⟨s₀, s₁, s₂, rest, hjwt, -⟩ :=
    (verifySignature_returns_iff nulFree_secure fun _ => 0).mp (hanswered.returns fun _ => 0)
  have hplain : (ascii "token").splitOn 46 = [ascii "token"] := by decide
  rw [hplain] at hjwt
  cases hjwt

end AhungryJanet
