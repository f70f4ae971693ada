import AhungryJanet.Crypt.Verify

/-!
# Tokens of other signers

A signer that follows RFC 7515 writes its segments in the url alphabet and signs with the bare MAC
of 32 bytes. `undo-url-chars` maps the letters `-` and `_` back, but with `string/replace`, which
replaces the first occurrence only. A segment with two of either keeps an unreadable letter; the
block decoder stops there, and the rest of the segment is what the stack held.

## Main results

* `unescaped_eq_encode_iff` — the mapping is undone exactly for segments with at most one `-` and
  at most one `_`
* `accepts_iff` — a standard token is accepted, and its payload read, exactly when that holds of
  its second and third segment
-/

namespace AhungryJanet

open Base64

/-- The compact token of an HS256 signer, for a header and a payload text. -/
def standardToken (L : OpenSsl) (secret header payload : Bytes) : Bytes :=
  let s₀ := digits url header
  let s₁ := digits url payload
  compact [s₀, s₁, digits url (L.hmac secret (signingInput s₀ s₁))]

/-- The module accepts a token and reads its payload, whatever is on the stack. -/
structure Accepts (C : Libc) (L : OpenSsl) (secret payload token : Bytes) : Prop where
  /-- Verification succeeds. -/
  verified : ∀ stack, verifySignature L stack secret token = .ok true
  /-- The payload is the one that was signed. -/
  payload_read : ∀ stack, getPayload C L stack token = jsonDecode C ⟨false, false⟩ payload

/-- At most one `-` and at most one `_`. -/
def AtMostOneEach (s : Bytes) : Prop := s.count 45 ≤ 1 ∧ s.count 95 ≤ 1

instance (s : Bytes) : Decidable (AtMostOneEach s) :=
  inferInstanceAs (Decidable (s.count 45 ≤ 1 ∧ s.count 95 ≤ 1))

/-! ### Replacing the first occurrence -/

/-- A second occurrence survives. -/
theorem mem_replace_iff {a b : UInt8} (hab : a ≠ b) (s : Bytes) :
    a ∈ s.replace a b ↔ 2 ≤ s.count a := by
  induction s with
  | nil => simp
  | cons c s ih =>
    by_cases h : a = c
    · subst h
      rw [List.replace_cons_self, List.mem_cons, List.count_cons_self, ← List.one_le_count_iff]
      constructor
      · rintro (h | h)
        · exact absurd h hab
        · omega
      · intro h
        exact .inr (by omega)
    · rw [List.replace_cons, beq_false_of_ne h, List.count_cons_of_ne (Ne.symm h)]
      simpa [h] using ih

/-- Replacing the first occurrence agrees with replacing all, except where it leaves one. -/
theorem forall₂_replace (a b : UInt8) (s : Bytes) :
    List.Forall₂ (fun x y => x = y ∨ x = a) (s.replace a b)
      (s.map fun c => if c = a then b else c) := by
  induction s with
  | nil => exact .nil
  | cons c s ih =>
    by_cases h : a = c
    · subst h
      rw [List.replace_cons_self, List.map_cons, if_pos rfl]
      refine .cons (.inl rfl) ?_
      rw [List.forall₂_map_right_iff, List.forall₂_same]
      intro x _
      by_cases hx : x = a
      · exact .inr hx
      · exact .inl (if_neg hx).symm
    · rw [List.replace_cons, beq_false_of_ne h, List.map_cons, if_neg (Ne.symm h)]
      exact .cons (.inl rfl) ih

theorem count_replace_of_ne {a b c : UInt8} (ha : c ≠ a) (hb : c ≠ b) (s : Bytes) :
    (s.replace a b).count c = s.count c := by
  induction s with
  | nil => rfl
  | cons x s ih =>
    by_cases h : a = x
    · subst h
      rw [List.replace_cons_self, List.count_cons_of_ne (Ne.symm hb),
        List.count_cons_of_ne (Ne.symm ha)]
    · rw [List.replace_cons, beq_false_of_ne h]
      simp only [List.count_cons, ih]

private theorem forall₂_comp {α β γ : Type} {R : α → β → Prop} {S : β → γ → Prop}
    {T : α → γ → Prop} (h : ∀ x y z, R x y → S y z → T x z) :
    ∀ {l : List α} {m : List β} {n : List γ},
      List.Forall₂ R l m → List.Forall₂ S m n → List.Forall₂ T l n
  | _, _, _, .nil, .nil => .nil
  | _, _, _, .cons hR hl, .cons hS hm => .cons (h _ _ _ hR hS) (forall₂_comp h hl hm)

/-! ### A segment in the url alphabet -/

/-- The letter of the standard alphabet for one of the url alphabet. -/
def toStandard (c : UInt8) : UInt8 := if c = 45 then 43 else if c = 95 then 47 else c

theorem map_toStandard_encode (d : Bytes) :
    (encode url d).map toStandard = encode standard d := by
  have hletter : ∀ n < 64, toStandard (letter url n) = letter standard n := by decide
  have hdigits : (digits url d).map toStandard = digits standard d := by
    rw [← List.forall₂_eq_eq_eq, List.forall₂_map_left_iff]
    refine (digits_forall₂ url standard d).imp ?_
    rintro _ _ ⟨n, hn, rfl, rfl⟩
    exact hletter n hn
  rw [encode, List.map_append, hdigits, List.map_replicate]
  rfl

/-- What the mapping makes of a segment: the standard encoding, except where a `-` or a `_` is
left. -/
theorem forall₂_unescaped (d : Bytes) :
    List.Forall₂ (fun x y => x = y ∨ x = 45 ∨ x = 95) (unescaped (digits url d))
      (encode standard d) := by
  have hslash := forall₂_replace 95 47 (encode url d)
  have hplus := forall₂_replace 45 43 ((encode url d).replace 95 47)
  have hkeep : List.Forall₂ (fun x y => x = y ∨ x = 95)
      (((encode url d).replace 95 47).map fun c => if c = 45 then 43 else c)
      (((encode url d).map fun c => if c = 95 then 47 else c).map
        fun c => if c = 45 then 43 else c) := by
    rw [List.forall₂_map_left_iff, List.forall₂_map_right_iff]
    refine hslash.imp ?_
    rintro x y (rfl | rfl)
    · exact .inl rfl
    · exact .inr rfl
  have hboth : ((encode url d).map fun c => if c = 95 then 47 else c).map
      (fun c => if c = 45 then 43 else c) = encode standard d := by
    rw [← map_toStandard_encode, List.map_map]
    refine List.map_congr_left fun c _ => ?_
    by_cases h45 : c = 45
    · subst h45
      rfl
    · by_cases h95 : c = 95
      · subst h95
        rfl
      · simp [toStandard, h45, h95]
  rw [hboth] at hkeep
  rw [unescaped, padded_digits]
  refine forall₂_comp ?_ hplus hkeep
  rintro x y z (rfl | rfl) (rfl | rfl)
  · exact .inl rfl
  · exact .inr (.inr rfl)
  · exact .inr (.inl rfl)
  · exact .inr (.inl rfl)

/-- Two of either letter leave one behind. -/
theorem mem_unescaped_iff (d : Bytes) :
    (45 ∈ unescaped (digits url d) ∨ 95 ∈ unescaped (digits url d)) ↔
      ¬ AtMostOneEach (digits url d) := by
  have hcount : ∀ c : UInt8, c ≠ padLetter →
      (padded (digits url d)).count c = (digits url d).count c := by
    intro c hc
    rw [padded, List.count_append, List.count_replicate, beq_false_of_ne (Ne.symm hc)]
    rfl
  have hminus : 45 ∈ unescaped (digits url d) ↔ 2 ≤ (digits url d).count 45 := by
    rw [unescaped, mem_replace_iff (by decide), count_replace_of_ne (by decide) (by decide),
      hcount 45 (by decide)]
  have hunder : 95 ∈ unescaped (digits url d) ↔ 2 ≤ (digits url d).count 95 := by
    rw [unescaped, ← List.count_pos_iff, count_replace_of_ne (by decide) (by decide),
      List.count_pos_iff, mem_replace_iff (by decide), hcount 95 (by decide)]
  rw [hminus, hunder, AtMostOneEach]
  omega

/-- **The mapping is undone exactly for segments with at most one `-` and at most one `_`.** -/
theorem unescaped_eq_encode_iff (d : Bytes) :
    unescaped (digits url d) = encode standard d ↔ AtMostOneEach (digits url d) := by
  constructor
  · intro h
    by_contra hmany
    have hfree : ∀ c ∈ encode standard d, Readable standard c := fun c => readable_of_mem_encode
    rcases (mem_unescaped_iff d).mpr hmany with hmem | hmem
    · exact absurd (hfree 45 (h ▸ hmem)) (by decide)
    · exact absurd (hfree 95 (h ▸ hmem)) (by decide)
  · intro h
    have hno := mt (mem_unescaped_iff d).mp (not_not.mpr h)
    rw [not_or] at hno
    have hleft := (List.forall₂_and_left (p := fun x => x ∈ unescaped (digits url d)) _ _).mpr
      ⟨fun _ hx => hx, forall₂_unescaped d⟩
    rw [← List.forall₂_eq_eq_eq]
    refine hleft.imp ?_
    rintro x y ⟨hx, rfl | rfl | rfl⟩
    · rfl
    · exact absurd hx hno.1
    · exact absurd hx hno.2

/-- What is stored of a segment is the beginning of the data. -/
theorem decodeBlock_isPrefix (L : OpenSsl) (d : Bytes) :
    L.decodeBlock (unescaped (digits url d)) <+: d ++ List.replicate (padding d.length) 0 := by
  have hrel := forall₂_unescaped d
  obtain ⟨before, text, after, ht, hbefore, -, hdecode⟩ :=
    L.decodeBlock_eq (unescaped (digits url d))
  rw [hdecode, ← quads_encode proper_standard d]
  split
  case isTrue h4 =>
    have hb : before = [] := by
      cases before with
      | nil => rfl
      | cons c r =>
        have hc := hbefore c (by simp)
        rw [ht] at hrel
        obtain ⟨y, u, hcy, -, hu⟩ := List.forall₂_cons_left_iff.mp hrel
        have hy : Readable standard y := readable_of_mem_encode (d := d) (by rw [hu]; simp)
        have hblank : ∀ c ∈ ascii "\t ", ¬ Readable standard c ∧ c ≠ 45 ∧ c ≠ 95 := by decide
        obtain ⟨hbad, h45, h95⟩ := hblank c hc
        rcases hcy with rfl | h | h
        · exact absurd hy hbad
        · exact absurd h h45
        · exact absurd h h95
    subst hb
    rw [List.nil_append] at ht
    rw [ht] at hrel
    have hlen := hrel.length_eq
    rw [List.length_append] at hlen
    have htake := List.forall₂_take text.length hrel
    rw [List.take_left] at htake
    have hdamaged := htake.imp fun x y hxy => show x = y ∨ ¬ Readable standard x from
      hxy.imp_right fun hx => by rcases hx with rfl | rfl <;> decide
    refine (quads_isPrefix hdamaged).trans ?_
    have hcut := quads_append (A := standard) (t := (encode standard d).take text.length)
      (by rw [List.length_take]; omega)
      (fun c hc => readable_of_mem_encode (List.mem_of_mem_take hc))
      ((encode standard d).drop text.length)
    rw [List.take_append_drop] at hcut
    rw [hcut]
    exact List.prefix_append _ _
  case isFalse => exact List.nil_prefix

/-- The length of the array for a segment of the url alphabet. -/
theorem blockSize_unescaped (d : Bytes) :
    blockSize (unescaped (digits url d)).length = d.length + padding d.length := by
  have hlen : (unescaped (digits url d)).length = (d.length + 2) / 3 * 4 := by
    rw [length_unescaped, padded_digits, length_encode]
  rw [blockSize_of_blocks (by omega), hlen]
  simp only [padding]
  omega

/-- A segment with at most one of either letter is decoded, whatever was on the stack. -/
theorem overStack_of_atMostOneEach (L : OpenSsl) (stack : ℕ → UInt8) {d : Bytes}
    (h : AtMostOneEach (digits url d)) :
    overStack stack (blockSize (unescaped (digits url d)).length)
      (L.decodeBlock (unescaped (digits url d))) = d ++ List.replicate (padding d.length) 0 := by
  have heq := (unescaped_eq_encode_iff d).mpr h
  have h4 : (encode standard d).length % 4 = 0 := by
    rw [length_encode]
    omega
  rw [blockSize_unescaped, heq, decodeBlock_of_readable L h4 fun c => readable_of_mem_encode,
    quads_encode proper_standard, overStack_of_length]
  simp

/-- Any other segment leaves part of the array unwritten. -/
theorem length_decodeBlock_lt (L : OpenSsl) {d : Bytes} (h : ¬ AtMostOneEach (digits url d)) :
    (L.decodeBlock (unescaped (digits url d))).length < d.length + padding d.length ∧
      (L.decodeBlock (unescaped (digits url d))).length ≤ d.length := by
  have h4 : (unescaped (digits url d)).length % 4 = 0 := by
    rw [length_unescaped]
    exact length_padded _
  have hsize := blockSize_unescaped d
  rw [blockSize_of_blocks h4] at hsize
  have hle := length_decodeBlock_le L (unescaped (digits url d))
  have hne : (L.decodeBlock (unescaped (digits url d))).length ≠
      (unescaped (digits url d)).length / 4 * 3 := by
    intro hfull
    have hread := readable_of_length_decodeBlock L h4 hfull
    rcases (mem_unescaped_iff d).mpr h with hmem | hmem
    · exact absurd (hread 45 hmem) (by decide)
    · exact absurd (hread 95 hmem) (by decide)
  have hmod := length_decodeBlock_mod L (unescaped (digits url d))
  have hpad : padding d.length < 3 := Nat.mod_lt _ (by decide)
  omega

theorem nulFree_digits_url (d : Bytes) : NulFree (digits url d) := by
  have hletter : ∀ n < 64, letter url n ≠ 0 := by decide
  intro c hc
  obtain ⟨n, hn, rfl⟩ := mem_digits hc
  exact hletter n hn

/-! ### Accepting a standard token -/

section

variable {C : Libc} {L : OpenSsl} {secret header payload : Bytes}

theorem pieces_standardToken :
    pieces dot (standardToken L secret header payload) =
      [digits url header, digits url payload,
        digits url (L.hmac secret (signingInput (digits url header) (digits url payload)))] := by
  have hletter : ∀ n < 64, letter url n ≠ 46 := by decide
  have hdot : ∀ d, (46 : UInt8) ∉ digits url d := by
    intro d hmem
    obtain ⟨n, hn, h⟩ := mem_digits hmem
    exact hletter n hn h.symm
  exact pieces_compact (by simp) (by simp [hdot])

theorem verifySignature_standardToken (stack : ℕ → UInt8) (hsecret : NulFree secret) :
    verifySignature L stack secret (standardToken L secret header payload) = .ok true ↔
      overStack stack 33 (L.decodeBlock (unescaped (digits url
        (L.hmac secret (signingInput (digits url header) (digits url payload)))))) =
        signature L secret (signingInput (digits url header) (digits url payload)) := by
  rw [verifySignature_eq_true_iff hsecret pieces_standardToken (nulFree_digits_url _)
    (nulFree_digits_url _) (nulFree_digits_url _), length_unescaped, padded_digits, length_encode,
    L.length_hmac]
  simp

/-- A payload that is JSON: without NUL, and read by the decoder. -/
structure JsonText (C : Libc) (payload : Bytes) : Prop where
  nulFree : NulFree payload
  /-- The decoder reads it. -/
  decodes : ∃ v, jsonDecode C ⟨false, false⟩ payload = .ok v

theorem JsonText.of_isOk (hnul : NulFree payload)
    (hok : (jsonDecode C ⟨false, false⟩ payload).isOk = true) : JsonText C payload := by
  refine ⟨hnul, ?_⟩
  cases h : jsonDecode C ⟨false, false⟩ payload with
  | ok v => exact ⟨v, rfl⟩
  | error err =>
    rw [h] at hok
    cases hok

theorem verified_iff (hsecret : NulFree secret) :
    (∀ stack, verifySignature L stack secret (standardToken L secret header payload) = .ok true) ↔
      AtMostOneEach (digits url
        (L.hmac secret (signingInput (digits url header) (digits url payload)))) := by
  have hmac := L.length_hmac secret (signingInput (digits url header) (digits url payload))
  constructor
  · intro h
    by_contra hmany
    obtain ⟨hlt, -⟩ := length_decodeBlock_lt L hmany
    have hpad : padding 32 = 1 := rfl
    rw [hmac, hpad] at hlt
    obtain ⟨stack, hne⟩ := exists_overStack_ne hlt
      (signature L secret (signingInput (digits url header) (digits url payload)))
    exact hne ((verifySignature_standardToken stack hsecret).mp (h stack))
  · intro h stack
    rw [verifySignature_standardToken stack hsecret]
    have hover := overStack_of_atMostOneEach L stack h
    rw [blockSize_unescaped, hmac] at hover
    exact hover

theorem getPayload_standardToken (stack : ℕ → UInt8) :
    getPayload C L stack (standardToken L secret header payload) =
      jsonDecode C ⟨false, false⟩
        (overStack stack (payload.length + padding payload.length)
          (L.decodeBlock (unescaped (digits url payload)))) := by
  rw [getPayload_eq C L stack pieces_standardToken (nulFree_digits_url payload),
    blockSize_unescaped]

theorem payload_read_iff (hpayload : JsonText C payload) :
    (∀ stack, getPayload C L stack (standardToken L secret header payload) =
      jsonDecode C ⟨false, false⟩ payload) ↔ AtMostOneEach (digits url payload) := by
  constructor
  · intro h
    by_contra hmany
    obtain ⟨hlt, hle⟩ := length_decodeBlock_lt L hmany
    obtain ⟨v, hv⟩ := hpayload.decodes
    -- what was stored is a beginning of the payload; on a stack of ones, it is not JSON
    have hpre := List.prefix_of_prefix_length_le (decodeBlock_isPrefix L payload)
      (List.prefix_append payload _) hle
    have hnul : NulFree (L.decodeBlock (unescaped (digits url payload))) :=
      fun c hc => hpayload.nulFree c (hpre.subset hc)
    have hones := h fun _ => 1
    rw [getPayload_standardToken, overStack_eq _ hlt.le, hv] at hones
    obtain ⟨k, hk⟩ : ∃ k, payload.length + padding payload.length -
        (L.decodeBlock (unescaped (digits url payload))).length = k + 1 :=
      Nat.exists_eq_succ_of_ne_zero (by omega)
    rw [hk, List.map_const', List.length_range, List.replicate_succ] at hones
    exact jsonDecode_append_one C _ hnul _ v hones
  · intro h stack
    have hover := overStack_of_atMostOneEach L stack h
    rw [blockSize_unescaped] at hover
    rw [getPayload_standardToken, hover, jsonDecode_append_zeros]

end

/-- **Exactly which standard tokens are accepted**: those with at most one `-` and at most one `_`
in the second segment, and in the third. -/
theorem accepts_iff (C : Libc) (L : OpenSsl) {secret : Bytes} (hsecret : NulFree secret)
    (header : Bytes) {payload : Bytes} (hpayload : JsonText C payload) :
    Accepts C L secret payload (standardToken L secret header payload) ↔
      AtMostOneEach (digits url payload) ∧
        AtMostOneEach (digits url
          (L.hmac secret (signingInput (digits url header) (digits url payload)))) := by
  rw [← payload_read_iff hpayload, ← verified_iff hsecret]
  exact ⟨fun h => ⟨h.payload_read, h.verified⟩, fun h => ⟨h.2, h.1⟩⟩

/-- The MACs of two tokens with the secret `secure`: for `{"foo":"bar"}` and for `{"n":0}`. -/
def nodeOpenSsl : OpenSsl := .recorded
  [((ascii "secure", ascii "eyJhbGciOiJIUzI1NiIsInR5cCI6IkpXVCJ9.eyJmb28iOiJiYXIifQ"),
    [151, 250, 202, 129, 198, 93, 98, 44, 118, 65, 223, 51, 4, 215, 145, 128, 86, 131, 28, 233, 38,
      98, 177, 241, 129, 110, 175, 220, 76, 135, 247, 195]),
   ((ascii "secure", ascii "eyJhbGciOiJIUzI1NiIsInR5cCI6IkpXVCJ9.eyJuIjowfQ"),
    [171, 168, 72, 158, 103, 13, 15, 44, 125, 133, 9, 235, 91, 255, 168, 20, 235, 237, 26, 186, 90,
      31, 122, 1, 220, 159, 199, 247, 106, 134, 232, 247])] (by decide)

/-- `{"foo":"bar"}`. -/
def fooText : Bytes := ascii "\x7b\"foo\":\"bar\"\x7d"

/-- `{"n":0}`. -/
def zeroText : Bytes := ascii "\x7b\"n\":0\x7d"

/-- The first token from node in the examples. -/
theorem accepts_foo :
    Accepts Libc.zero nodeOpenSsl (ascii "secure") fooText
      (standardToken nodeOpenSsl (ascii "secure") headerText fooText) :=
  (accepts_iff Libc.zero nodeOpenSsl nulFree_secure headerText
    (.of_isOk (by decide) (by decide +kernel))).mpr (by decide +kernel)

/-- A token whose MAC has two `_` in its text is not accepted on every stack. -/
theorem not_accepts_zero :
    JsonText Libc.zero zeroText ∧
      ¬ Accepts Libc.zero nodeOpenSsl (ascii "secure") zeroText
        (standardToken nodeOpenSsl (ascii "secure") headerText zeroText) := by
  refine ⟨.of_isOk (by decide) (by decide +kernel), fun h => ?_⟩
  have hone := (verified_iff nulFree_secure).mp h.verified
  revert hone
  decide +kernel

end AhungryJanet
