import AhungryJanet.Crypt.Jwt

/-!
# Soundness of verification

When does `verify-signature` accept only genuine tokens, whatever is on the stack?

The third segment is compared with 33 bytes, so only a text of 44 characters can be accepted. If
every one of them can be read, the array is full and the stack is not seen. If some cannot, the
decoder stops, and what it stored is compared together with what the stack held: as long as the
stored bytes do not contradict the signature, some stack makes the comparison succeed. Two more
things the comparison does not notice: segments behind the third, which are never looked at, and a
padding letter in the middle of the text, which the block decoder reads as a zero.

## Main results

* `exists_accepting_stack` — a text that stores a beginning of the signature is accepted on some
  stack
* `soundVerdict_iff` — exactly when a token is judged soundly
-/

namespace AhungryJanet

open Base64

/-- A genuine token: three segments, the last of which is base64 for the MAC of the first two, with
or without the NUL the module puts behind it. -/
structure Genuine (L : OpenSsl) (secret jwt : Bytes) : Prop where
  /-- The segments, and what the third decodes to. -/
  segments : ∃ s₀ s₁ s₂ b, pieces dot jwt = [s₀, s₁, s₂] ∧
    decodePadded standard (unescaped s₂) = some b ∧
    (b = L.hmac secret (signingInput s₀ s₁) ∨ b = L.hmac secret (signingInput s₀ s₁) ++ [0])

/-- A token is judged soundly: it is accepted only if it is genuine, and the stack does not enter
the verdict. -/
structure SoundVerdict (L : OpenSsl) (secret jwt : Bytes) : Prop where
  /-- Only genuine tokens are accepted. -/
  genuine : ∀ stack, verifySignature L stack secret jwt = .ok true → Genuine L secret jwt
  /-- The stack does not matter. -/
  stack_irrelevant : ∀ stack stack',
    verifySignature L stack secret jwt = verifySignature L stack' secret jwt

/-- A text of base64 letters with at most one padding letter, at the end. -/
def OnePadding (t : Bytes) : Prop :=
  ∃ body p, t = body ++ List.replicate p padLetter ∧ p ≤ 1 ∧ ∀ c ∈ body, value standard c ≠ none

theorem OnePadding.readable {t : Bytes} (h : OnePadding t) : ∀ c ∈ t, Readable standard c := by
  obtain ⟨body, p, rfl, -, hbody⟩ := h
  intro c hc
  rcases List.mem_append.mp hc with hc | hc
  · obtain ⟨n, hn⟩ := Option.ne_none_iff_exists'.mp (hbody c hc)
    exact readable_of_value hn
  · rw [List.eq_of_mem_replicate hc]
    exact readable_pad standard

/-- Such a text decodes to what the block decoder stores, up to one byte for the padding. -/
theorem OnePadding.exists_decodePadded {t : Bytes} (h : OnePadding t) (h4 : t.length % 4 = 0) :
    ∃ b extra, decodePadded standard t = some b ∧ quads standard t = b ++ extra ∧
      extra.length ≤ 1 := by
  obtain ⟨body, p, rfl, hp, hbody⟩ := h
  rw [List.length_append, List.length_replicate] at h4
  obtain ⟨b, extra, hb, hquads, hlen⟩ :=
    exists_decodeDigits proper_standard (show p ≤ 2 by omega) hbody h4
  exact ⟨b, extra, by rwa [decodePadded_eq proper_standard (by omega) hbody h4], hquads, by omega⟩

/-- A text of 44 characters that decodes to 32 or 33 bytes has at most one padding letter. -/
theorem onePadding_of_decodePadded {t b : Bytes} (h : decodePadded standard t = some b)
    (ht : t.length = 44) (hb : 32 ≤ b.length) : OnePadding t := by
  obtain ⟨body, p, rfl, -, hbody, -, hdecode⟩ := exists_of_decodePadded h
  have hlen := length_decodeDigits hdecode
  rw [List.length_append, List.length_replicate] at ht
  exact ⟨body, p, rfl, by omega, hbody⟩

/-! ### What is compared -/

section

variable {L : OpenSsl} {secret jwt s₀ s₁ s₂ : Bytes} {rest : List Bytes}

/-- The comparison, for a text of 44 characters. -/
theorem verifySignature_eq_true_iff {stack : ℕ → UInt8} (hsecret : NulFree secret)
    (hjwt : pieces dot jwt = s₀ :: s₁ :: s₂ :: rest) (h₀ : NulFree s₀) (h₁ : NulFree s₁)
    (h₂ : NulFree s₂) :
    verifySignature L stack secret jwt = .ok true ↔
      (unescaped s₂).length = 44 ∧
        overStack stack 33 (L.decodeBlock (unescaped s₂)) =
          signature L secret (signingInput s₀ s₁) := by
  rw [verifySignature_eq L stack hsecret hjwt h₀ h₁ h₂]
  simp only [Except.ok.injEq, beq_iff_eq]
  have h4 : (unescaped s₂).length % 4 = 0 := by rw [length_unescaped]; exact length_padded s₂
  rw [blockSize_of_blocks h4, ← signature]
  constructor
  · intro h
    have hlen := congrArg List.length h
    rw [length_overStack, length_signature] at hlen
    have h44 : (unescaped s₂).length = 44 := by omega
    rw [h44] at h
    exact ⟨h44, h⟩
  · rintro ⟨h44, h⟩
    rw [h44]
    exact h

/-- A verdict is one of two. -/
theorem verifySignature_congr {stack stack' : ℕ → UInt8} (hsecret : NulFree secret)
    (hjwt : pieces dot jwt = s₀ :: s₁ :: s₂ :: rest) (h₀ : NulFree s₀) (h₁ : NulFree s₁)
    (h₂ : NulFree s₂)
    (h : verifySignature L stack secret jwt = .ok true ↔
      verifySignature L stack' secret jwt = .ok true) :
    verifySignature L stack secret jwt = verifySignature L stack' secret jwt := by
  rw [verifySignature_eq L stack hsecret hjwt h₀ h₁ h₂,
    verifySignature_eq L stack' hsecret hjwt h₀ h₁ h₂] at h ⊢
  simp only [Except.ok.injEq] at h
  exact congrArg Except.ok (Bool.eq_iff_iff.mpr h)

/-- **A text that stores a beginning of the signature is accepted on some stack.** -/
theorem exists_accepting_stack (hsecret : NulFree secret)
    (hjwt : pieces dot jwt = s₀ :: s₁ :: s₂ :: rest) (h₀ : NulFree s₀) (h₁ : NulFree s₁)
    (h₂ : NulFree s₂) (h44 : (unescaped s₂).length = 44)
    (hstored : L.decodeBlock (unescaped s₂) <+: signature L secret (signingInput s₀ s₁)) :
    ∃ stack, verifySignature L stack secret jwt = .ok true := by
  have hcomplete := overStack_of_isPrefix hstored
  rw [length_signature] at hcomplete
  exact ⟨_, (verifySignature_eq_true_iff hsecret hjwt h₀ h₁ h₂).mpr ⟨h44, hcomplete⟩⟩

/-- Conversely, only such a text is accepted. -/
theorem isPrefix_of_accepted {stack : ℕ → UInt8} (hsecret : NulFree secret)
    (hjwt : pieces dot jwt = s₀ :: s₁ :: s₂ :: rest) (h₀ : NulFree s₀) (h₁ : NulFree s₁)
    (h₂ : NulFree s₂) (h : verifySignature L stack secret jwt = .ok true) :
    (unescaped s₂).length = 44 ∧
      L.decodeBlock (unescaped s₂) <+: signature L secret (signingInput s₀ s₁) := by
  obtain ⟨h44, hcompare⟩ := (verifySignature_eq_true_iff hsecret hjwt h₀ h₁ h₂).mp h
  have hlen := length_decodeBlock_le L (unescaped s₂)
  rw [h44] at hlen
  refine ⟨h44, ?_⟩
  rw [← hcompare]
  exact isPrefix_overStack stack hlen

/-- A text of 44 characters with at most one padding letter fills the array. -/
theorem overStack_of_onePadding (stack : ℕ → UInt8) (h : OnePadding (unescaped s₂))
    (h44 : (unescaped s₂).length = 44) :
    overStack stack 33 (L.decodeBlock (unescaped s₂)) = quads standard (unescaped s₂) := by
  have h4 : (unescaped s₂).length % 4 = 0 := by rw [h44]
  rw [decodeBlock_of_readable L h4 h.readable]
  refine overStack_of_length stack ?_
  rw [length_quads_of_readable h.readable, h44]

/-- The bytes before the last zero are the MAC, with or without its NUL. -/
theorem eq_mac_of_append_eq {mac b extra : Bytes} (h : b ++ extra = mac ++ [0])
    (hextra : extra.length ≤ 1) : b = mac ∨ b = mac ++ [0] := by
  match extra, hextra with
  | [], _ =>
    rw [List.append_nil] at h
    exact .inr h
  | [x], _ => exact .inl (List.append_inj_left' h rfl)

end

/-- **Exactly when a token is judged soundly.** Trouble can only come from a third segment that
becomes 44 characters and stores a beginning of the signature; the token has to end there, and the
text has to be base64 with at most one padding letter. -/
theorem soundVerdict_iff (L : OpenSsl) {secret : Bytes} (hsecret : NulFree secret) (jwt : Bytes) :
    SoundVerdict L secret jwt ↔
      ∀ s₀ s₁ s₂ rest, pieces dot jwt = s₀ :: s₁ :: s₂ :: rest →
        NulFree s₀ → NulFree s₁ → NulFree s₂ → (unescaped s₂).length = 44 →
        L.decodeBlock (unescaped s₂) <+: L.hmac secret (signingInput s₀ s₁) ++ [0] →
        rest = [] ∧ OnePadding (unescaped s₂) := by
  constructor
  · intro hsound s₀ s₁ s₂ rest hjwt h₀ h₁ h₂ h44 hstored
    obtain ⟨stack, hstack⟩ := exists_accepting_stack hsecret hjwt h₀ h₁ h₂ h44 hstored
    obtain ⟨t₀, t₁, t₂, b, hpieces, hb, hmac⟩ := (hsound.genuine stack hstack).segments
    rw [hjwt] at hpieces
    simp only [List.cons.injEq] at hpieces
    obtain ⟨rfl, rfl, rfl, rfl⟩ := hpieces
    refine ⟨rfl, onePadding_of_decodePadded hb h44 ?_⟩
    rcases hmac with rfl | rfl
    · rw [L.length_hmac]
    · simp [L.length_hmac]
  · intro h
    rcases verifySignature_cases L jwt hsecret with
      ⟨err, herr⟩ | ⟨s₀, s₁, s₂, rest, hjwt, h₀, h₁, h₂⟩
    · refine ⟨fun stack hstack => ?_, fun stack stack' => by rw [herr, herr]⟩
      rw [herr] at hstack
      cases hstack
    · have hcond := h s₀ s₁ s₂ rest hjwt h₀ h₁ h₂
      have haccept : ∀ stack stack', verifySignature L stack secret jwt = .ok true →
          verifySignature L stack' secret jwt = .ok true := by
        intro stack stack' hstack
        obtain ⟨h44, hpre⟩ := isPrefix_of_accepted hsecret hjwt h₀ h₁ h₂ hstack
        obtain ⟨-, hpad⟩ := hcond h44 hpre
        rw [verifySignature_eq_true_iff hsecret hjwt h₀ h₁ h₂] at hstack ⊢
        rwa [overStack_of_onePadding stack' hpad h44, ← overStack_of_onePadding stack hpad h44]
      refine ⟨fun stack hstack => ?_, fun stack stack' => ?_⟩
      · obtain ⟨h44, hpre⟩ := isPrefix_of_accepted hsecret hjwt h₀ h₁ h₂ hstack
        obtain ⟨rfl, hpad⟩ := hcond h44 hpre
        obtain ⟨b, extra, hb, hquads, hextra⟩ := hpad.exists_decodePadded (by rw [h44])
        obtain ⟨-, hcompare⟩ := (verifySignature_eq_true_iff hsecret hjwt h₀ h₁ h₂).mp hstack
        rw [overStack_of_onePadding stack hpad h44, hquads] at hcompare
        exact ⟨s₀, s₁, s₂, b, hjwt, hb, eq_mac_of_append_eq hcompare hextra⟩
      · exact verifySignature_congr hsecret hjwt h₀ h₁ h₂
          ⟨haccept stack stack', haccept stack' stack⟩

/-- The third segment of a made token is such a text. -/
theorem onePadding_signatureSegment (L : OpenSsl) (secret s₀ s₁ : Bytes) :
    OnePadding (unescaped (signatureSegment L secret s₀ s₁)) := by
  have hpad : padding 33 = 0 := rfl
  refine ⟨signatureSegment L secret s₀ s₁, 0, ?_, by omega, fun c hc => ?_⟩
  · rw [signatureSegment, unescaped_digits, encode, length_signature, hpad]
  · obtain ⟨n, hn⟩ := value_of_mem_digits proper_standard hc
    simp [hn]

theorem soundVerdict_hello :
    SoundVerdict helloOpenSsl (ascii "secure")
      (madeToken helloOpenSsl (ascii "secure") helloText) := by
  refine (soundVerdict_iff helloOpenSsl nulFree_secure _).mpr ?_
  intro s₀ s₁ s₂ rest hjwt _ _ _ _ _
  rw [pieces_madeToken] at hjwt
  simp only [List.cons.injEq] at hjwt
  obtain ⟨-, -, rfl, rfl⟩ := hjwt
  exact ⟨rfl, onePadding_signatureSegment _ _ _ _⟩

/-- A third segment of 44 exclamation marks, none of which can be decoded. -/
def undecodable : Bytes := List.replicate 44 33

/-- With it, a token is accepted on the stack that holds the signature, and is not genuine. -/
theorem not_soundVerdict_undecodable :
    ¬ SoundVerdict helloOpenSsl (ascii "secure")
      (compact [digits standard headerText, digits standard helloText, undecodable]) := by
  have hfree : ∀ s ∈ [digits standard headerText, digits standard helloText, undecodable],
      (46 : UInt8) ∉ s := by decide
  have hjwt := pieces_compact (by simp) hfree
  intro hsound
  obtain ⟨stack, hstack⟩ := exists_accepting_stack (L := helloOpenSsl) nulFree_secure hjwt
    (nulFree_digits headerText) (nulFree_digits helloText) (by decide) (by decide) (by decide)
  obtain ⟨s₀, s₁, s₂, b, hpieces, hb, -⟩ := (hsound.genuine stack hstack).segments
  rw [hjwt] at hpieces
  simp only [List.cons.injEq] at hpieces
  obtain ⟨-, -, rfl, -⟩ := hpieces
  have hnone : decodePadded standard (unescaped undecodable) = none := by decide
  rw [hnone] at hb
  cases hb

end AhungryJanet
