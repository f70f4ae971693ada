import AhungryJanet.Crypt.Coder

/-!
# The sizes of the arrays

`base64_encode_wrapped` and `base64_decode_wrapped` compute the size of an array on the stack from
the length of their argument, in `int` arithmetic, and have OpenSSL write into it.

## What the sizes are made for

Four letters for three bytes begun, and three bytes for four letters begun. `EVP_EncodeBlock` stores
a NUL behind the letters, for which there is no room. `EVP_DecodeBlock` stores less than that if it
skips something, and nothing at all of a text that is not made of blocks; the whole array is
returned all the same.

## Main results

* `decodeBlockSize_eq` — the decoder's size does not overflow
* `right_decode_iff_stack` — a wrong size of the decoder shows in its result
* `right_iff` — in which calls the size is right
-/

namespace AhungryJanet

open Base64

/-! ### The calls -/

/-- A Janet buffer. -/
structure JanetBuffer where
  data : Bytes
  count_le : data.length ≤ int32Max

/-- What `janet_getcstring` returns. -/
structure CText where
  bytes : Bytes
  nulFree : NulFree bytes
  length_le : bytes.length ≤ int32Max

/-- `decoded` of `base64_decode_wrapped`. -/
def decodedArray (L : OpenSsl) (data : CText) : Option ArrayUse := do
  let blockSize ← decodeBlockSize data.bytes.length
  return { size := blockSize, stored := L.decodeBlock data.bytes, returned := blockSize }

/-- A call of one of the two, with an argument that it accepts. -/
inductive Base64Call where
  | encode (buf : JanetBuffer)
  | decode (data : CText)

def Base64Call.array (L : OpenSsl) : Base64Call → Option ArrayUse
  | .encode buf => encodedArray L buf.data
  | .decode data => decodedArray L data

/-- The size is computed without overflow, nothing is stored behind the end of the array, and
nothing is returned that was not stored. -/
structure Right (L : OpenSsl) (call : Base64Call) : Prop where
  right : ∃ u, call.array L = some u ∧ u.stored.length ≤ u.size ∧ u.returned ≤ u.stored.length

/-! ### When there is no overflow -/

/-- The decoder's does not overflow. -/
theorem decodeBlockSize_eq {n : ℕ} (h : n ≤ int32Max) : decodeBlockSize n = some (blockSize n) := by
  rw [int32Max] at h
  rw [decodeBlockSize, intBlockSize_eq_some_iff (by decide), int32Max, blockSize]
  split
  all_goals omega

/-! ### What is stored -/

/-- The encoder writes one byte behind the end of its array, whatever the buffer. -/
theorem not_right_encode (L : OpenSsl) (buf : JanetBuffer) : ¬ Right L (.encode buf) := by
  rintro ⟨u, hu, hfits, -⟩
  obtain ⟨blockSize, hsize, hu⟩ := Option.bind_eq_some_iff.mp hu
  cases hu
  obtain ⟨rfl, -⟩ := encodeBlockSize_eq_some_iff.mp hsize
  rw [List.length_append, L.encodeBlock_eq, length_encode] at hfits
  exact absurd hfits (Nat.not_succ_le_self _)

/-- The decoder writes nothing behind the end, so that only what is returned matters. -/
theorem right_decode_iff_le (L : OpenSsl) (data : CText) :
    Right L (.decode data) ↔
      blockSize data.bytes.length ≤ (L.decodeBlock data.bytes).length := by
  have hu : (Base64Call.decode data).array L = some
      ⟨blockSize data.bytes.length, L.decodeBlock data.bytes, blockSize data.bytes.length⟩ := by
    rw [Base64Call.array, decodedArray, decodeBlockSize_eq data.length_le]
    rfl
  constructor
  · rintro ⟨u, hu', -, hwritten⟩
    cases hu.symm.trans hu'
    exact hwritten
  · intro hwritten
    exact ⟨_, hu, (length_decodeBlock_le L data.bytes).trans (Nat.le_add_right _ _), hwritten⟩

/-- A text that is made of blocks of letters fills the array of the decoder, and no other text
does. -/
theorem right_decode_iff (L : OpenSsl) (data : CText) :
    Right L (.decode data) ↔
      data.bytes.length % 4 = 0 ∧ ∀ c ∈ data.bytes, Readable standard c := by
  have hstored := length_decodeBlock_le L data.bytes
  rw [right_decode_iff_le]
  constructor
  · intro hwritten
    rw [blockSize] at hwritten
    have h4 : data.bytes.length % 4 = 0 := by
      by_contra hrest
      rw [if_pos hrest] at hwritten
      omega
    rw [if_neg (not_not.mpr h4), Nat.add_zero] at hwritten
    exact ⟨h4, readable_of_length_decodeBlock L h4 (hstored.antisymm hwritten)⟩
  · rintro ⟨h4, hread⟩
    rw [blockSize_of_blocks h4, decodeBlock_of_readable L h4 hread, length_quads_of_readable hread]

/-- Otherwise the result depends on what was on the stack. -/
theorem right_decode_iff_stack (L : OpenSsl) (data : CText) :
    Right L (.decode data) ↔
      ∀ stack stack', base64DecodeWrapped L stack (.string data.bytes) =
        base64DecodeWrapped L stack' (.string data.bytes) := by
  constructor
  · intro h stack stack'
    obtain ⟨h4, hread⟩ := (right_decode_iff L data).mp h
    rw [base64DecodeWrapped_of_readable L stack h4 data.nulFree hread,
      base64DecodeWrapped_of_readable L stack' h4 data.nulFree hread]
  · intro h
    rw [right_decode_iff_le]
    by_contra hshort
    obtain ⟨stack, hne⟩ := exists_overStack_ne (Nat.not_le.mp hshort)
      (overStack (fun _ => 0) (blockSize data.bytes.length) (L.decodeBlock data.bytes))
    have hsame := h stack fun _ => 0
    rw [base64DecodeWrapped_eq L _ data.nulFree, base64DecodeWrapped_eq L _ data.nulFree] at hsame
    exact hne (Except.ok.inj hsame)

/-- **In which calls the size is right**: in none of the encoder, and in those of the decoder with
blocks of letters. -/
theorem right_iff (L : OpenSsl) (call : Base64Call) :
    Right L call ↔ ∃ data, call = .decode data ∧ data.bytes.length % 4 = 0 ∧
      ∀ c ∈ data.bytes, Readable standard c := by
  cases call with
  | encode buf =>
    refine iff_of_false (not_right_encode L buf) ?_
    rintro ⟨data, hdata, -⟩
    cases hdata
  | decode data =>
    rw [right_decode_iff]
    constructor
    · intro h
      exact ⟨data, rfl, h⟩
    · rintro ⟨data', hdata, h⟩
      cases hdata
      exact h

/-- One byte is encoded into an array of four, in which five are stored. -/
theorem not_right_letter :
    ¬ ∀ (L : OpenSsl) (call : Base64Call), Right L call := by
  intro h
  exact not_right_encode (OpenSsl.recorded [] (by simp)) ⟨[97], by decide⟩ (h _ _)

end AhungryJanet
