import AhungryJanet.Crypt.Coder

/-!
# Decoding what was encoded

`base64_decode_wrapped` takes the length of its result from the length of the text. Padding letters
count there as others do, so a result ends with a zero for each of them.

## Main results

* `undoes_iff` — decoding undoes encoding for the byte sequences that need no padding and are not
  too long for the encoder, and for no others
-/

namespace AhungryJanet

open Base64

/-- Decoding gives back what was encoded, with padding and without. -/
def Undoes (L : OpenSsl) (stack : ℕ → UInt8) (s : Bytes) : Prop :=
  (do base64Decode L stack (.string (← base64Encode L s))) = .ok s ∧
    (do base64Decode L stack (.string (← base64EncodeNopad L s))) = .ok s

/-- Both ways around give the data and one zero for each padding letter. -/
theorem undoes_iff_append_eq (L : OpenSsl) (stack : ℕ → UInt8) {s : Bytes}
    (h : s.length ≤ encodeMax) :
    Undoes L stack s ↔ s ++ List.replicate (padding s.length) 0 = s := by
  have henc : base64Encode L s = .ok (encode standard s) := base64EncodeWrapped_eq L h
  rw [Undoes, henc, base64EncodeNopad_eq L h]
  change base64Decode L stack (.string (encode standard s)) = .ok s ∧
    base64Decode L stack (.string (digits standard s)) = .ok s ↔ _
  rw [base64Decode_encode, base64Decode_digits, and_self, Except.ok.injEq]

/-- **Decoding undoes encoding exactly where no padding is needed**, as long as the encoder can
compute the size of its array. -/
theorem undoes_iff (L : OpenSsl) (stack : ℕ → UInt8) (s : Bytes) :
    Undoes L stack s ↔ s.length % 3 = 0 ∧ s.length ≤ 1610612733 := by
  by_cases h : s.length ≤ encodeMax
  · rw [undoes_iff_append_eq L stack h, List.append_right_eq_self, List.replicate_eq_nil_iff,
      padding, and_iff_left (show s.length ≤ 1610612733 from h)]
    omega
  · refine iff_of_false ?_ fun hlen => h hlen.2
    rintro ⟨hpadded, -⟩
    rw [base64Encode, base64EncodeWrapped_of_lt L (Nat.not_le.mp h)] at hpadded
    cases hpadded

/-- One byte comes back as three. -/
theorem not_undoes_one : ¬ ∀ (L : OpenSsl) (stack : ℕ → UInt8) (s : Bytes), Undoes L stack s := by
  intro h
  have hone := (undoes_iff_append_eq (.recorded [] (by simp)) (fun _ => 0) (s := [97])
    (by decide)).mp (h _ _ _)
  exact absurd hone (by decide)

end AhungryJanet
