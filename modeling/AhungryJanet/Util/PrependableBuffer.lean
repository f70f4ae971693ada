import AhungryJanet.Janet.Strings
import AhungryJanet.Library.Rightpad
import Mathlib.Algebra.Field.Rat
import Mathlib.Data.Rat.Lemmas

/-!
# A buffer to prepend to

`PrependableBuffer` of `com.ahungry.util`: bytes are written into a Janet buffer on both sides of a
midpoint, and counters say how far each side has got.

## Main results

* `Holds.pushCharFront_ok`, `Holds.pushCharFront_error`, `Holds.pushChar_ok`,
  `Holds.pushChar_error` — what a push does to the two sides, and when it raises.
* `Holds.getBuf_eq_ok_iff` — when the bytes can be read, and which bytes those are.
-/

namespace AhungryJanet

open Rightpad

/-- `janet_checkint`: the integer that a number is. -/
def checkint (x : ℚ) : Option ℤ :=
  if x.den = 1 ∧ -2147483648 ≤ x.num ∧ x.num ≤ 2147483647 then some x.num else none

/-- The byte that is stored for a value, if it is an integer. What is not a number is `none`. -/
def storedByte (value : Option ℚ) : Option UInt8 :=
  (value.bind checkint).map fun n => UInt8.ofNat (n % 256).toNat

/-- `INT32_MAX - 1`. -/
def maxKey : ℕ := 2147483646

/-- `janet_buffer_setcount` with a larger count. -/
def bufferSetcount (buf : Bytes) (count : ℕ) : Bytes :=
  buf ++ List.replicate (count - buf.length) 0

/-- `janet_put` on a buffer. -/
def bufferPut (buf : Bytes) (key : ℚ) (value : Option ℚ) : Call Bytes :=
  match checkint key with
  | none => .error .badKey
  | some index =>
    if index < 0 ∨ index ≥ maxKey then .error .badKey
    else
      match storedByte value with
      | none => .error .notInteger
      | some byte =>
        let buf :=
          if index.toNat ≥ buf.length then bufferSetcount buf (index.toNat + 1) else buf
        .ok (buf.set index.toNat byte)

/-- An index of `janet_getslice`, in argument `slot`. -/
def halfRange (slot : ℕ) (raw : ℚ) (length : ℕ) : Call ℕ :=
  match checkint raw with
  | none => .error (.badSlot slot)
  | some raw => getHalfRange raw length

/-- `(buffer/slice bytes start end)`. -/
def bufferSlice (bytes : Bytes) (start stop : ℚ) : Call Bytes := do
  let first ← halfRange 1 start bytes.length
  let last ← halfRange 2 stop bytes.length
  let last := if last < first then first else last
  return (bytes.drop first).take (last - first)

/-- The entries of an object. -/
structure PrependableBuffer where
  buf : Bytes
  maxSize : ℚ
  midpoint : ℚ
  prepends : ℕ
  appends : ℕ

namespace PrependableBuffer

/-- `:new`. -/
def new (maxSize : ℚ) : Call PrependableBuffer :=
  match checkint maxSize with
  | none => .error (.badSlot 0)
  | some _ => .ok
    { buf := []
      maxSize := maxSize
      midpoint := maxSize / 2
      prepends := 0
      appends := 0 }

/-- `:get-buf`. -/
def getBuf (self : PrependableBuffer) : Call Bytes :=
  bufferSlice self.buf (self.midpoint - self.prepends) (self.midpoint + self.appends)

/-- `:push-char-front`: the object afterwards, and whether the call returns. -/
def pushCharFront (self : PrependableBuffer) (c : Option ℚ) : PrependableBuffer × Call Unit :=
  let self := { self with prepends := self.prepends + 1 }
  match bufferPut self.buf (self.midpoint - self.prepends) c with
  | .ok buf => ({ self with buf := buf }, .ok ())
  | .error err => (self, .error err)

/-- `:push-char`. -/
def pushChar (self : PrependableBuffer) (c : Option ℚ) : PrependableBuffer × Call Unit :=
  match bufferPut self.buf (self.midpoint + self.appends) c with
  | .ok buf => ({ self with buf := buf, appends := self.appends + 1 }, .ok ())
  | .error err => (self, .error err)

end PrependableBuffer

/-! ### Numbers -/

theorem checkint_eq_some_iff {x : ℚ} {z : ℤ} :
    checkint x = some z ↔ x = z ∧ -2147483648 ≤ z ∧ z ≤ 2147483647 := by
  rw [checkint]
  constructor
  · intro h
    split at h
    case isTrue hint =>
      obtain rfl := Option.some.inj h
      exact ⟨((Rat.den_eq_one_iff x).mp hint.1).symm, hint.2⟩
    case isFalse => cases h
  · rintro ⟨rfl, hrange⟩
    rw [if_pos ⟨Rat.den_intCast z, by rwa [Rat.num_intCast]⟩, Rat.num_intCast]

theorem checkint_intCast {z : ℤ} (h : -2147483648 ≤ z ∧ z ≤ 2147483647) : checkint z = some z :=
  checkint_eq_some_iff.mpr ⟨rfl, h⟩

/-! ### Writing and slicing -/

theorem bufferSetcount_eq (buf : Bytes) (i : ℕ) :
    (if i ≥ buf.length then bufferSetcount buf (i + 1) else buf) = buf.rightpad (i + 1) 0 := by
  split
  case isTrue => rfl
  case isFalse h => rw [rightpad_of_le (Nat.succ_le_of_lt (Nat.not_le.mp h))]

/-- `janet_put` writes a byte at an index below `INT32_MAX - 1`, and fills up with zeros before if
that is behind the end. -/
theorem bufferPut_ok {buf : Bytes} {value : Option ℚ} {i : ℕ} {byte : UInt8} (hi : i < maxKey)
    (hbyte : storedByte value = some byte) :
    bufferPut buf i value = .ok ((buf.rightpad (i + 1) 0).set i byte) := by
  have hint : checkint (i : ℚ) = some (i : ℤ) := by
    rw [← Int.cast_natCast]
    exact checkint_intCast (by simp only [maxKey] at hi; omega)
  have hgood : ¬((i : ℤ) < 0 ∨ (i : ℤ) ≥ maxKey) := by omega
  rw [bufferPut, hint]
  dsimp only
  rw [if_neg hgood, hbyte]
  dsimp only
  rw [Int.toNat_natCast, bufferSetcount_eq]

/-- Everywhere else it panics, and so it does on what is not an integer. -/
theorem bufferPut_error {buf : Bytes} {key : ℚ} {value : Option ℚ}
    (h : ∀ i : ℕ, key = i → i < maxKey → storedByte value = none) :
    ∃ err, bufferPut buf key value = .error err := by
  rw [bufferPut]
  cases hkey : checkint key with
  | none => exact ⟨_, rfl⟩
  | some index =>
    obtain ⟨rfl, -, -⟩ := checkint_eq_some_iff.mp hkey
    by_cases hbad : index < 0 ∨ index ≥ maxKey
    · exact ⟨_, if_pos hbad⟩
    · obtain ⟨i, rfl⟩ := Int.eq_ofNat_of_zero_le (by omega : 0 ≤ index)
      rw [h i (Int.cast_natCast i) (by omega)]
      exact ⟨_, if_neg hbad⟩

/-- An index of a slice counts from the front, or from behind if it is negative. -/
theorem getHalfRange_eq_ok_iff {z : ℤ} {length k : ℕ} :
    getHalfRange z length = .ok k ↔ k ≤ length ∧ (z = k ∨ z < 0 ∧ z + length + 1 = k) := by
  have hrange : ∀ index : ℤ, (z < 0 → index = z + length + 1) → (0 ≤ z → index = z) →
      ((if index < 0 ∨ index > length then Except.error Panic.outOfRange
        else .ok index.toNat : Call ℕ) = .ok k ↔
        k ≤ length ∧ (z = k ∨ z < 0 ∧ z + length + 1 = k)) := by
    intro index hneg hpos
    split
    case isTrue hbad =>
      constructor
      · intro h
        cases h
      · rintro ⟨hk, hindex⟩
        omega
    case isFalse hgood =>
      rw [Except.ok.injEq]
      omega
  rw [getHalfRange]
  split
  case isTrue hneg => exact hrange _ (fun _ => rfl) fun hpos => absurd hneg (by omega)
  case isFalse hpos => exact hrange _ (fun hneg => absurd hneg hpos) fun _ => rfl

theorem halfRange_eq_ok_iff {slot length k : ℕ} {raw : ℚ} :
    halfRange slot raw length = .ok k ↔
      ∃ z : ℤ, raw = z ∧ (-2147483648 ≤ z ∧ z ≤ 2147483647) ∧
        k ≤ length ∧ (z = k ∨ z < 0 ∧ z + length + 1 = k) := by
  rw [halfRange]
  cases hraw : checkint raw with
  | none =>
    constructor
    · intro h
      cases h
    · rintro ⟨z, rfl, hint, -⟩
      rw [checkint_intCast hint] at hraw
      cases hraw
  | some z =>
    obtain ⟨rfl, hint⟩ := checkint_eq_some_iff.mp hraw
    simp only [getHalfRange_eq_ok_iff]
    constructor
    · intro h
      exact ⟨z, rfl, hint, h⟩
    · rintro ⟨z', hz, -, h⟩
      obtain rfl : z = z' := by exact_mod_cast hz
      exact h

theorem bufferSlice_eq_ok_iff {bytes r : Bytes} {start stop : ℚ} :
    bufferSlice bytes start stop = .ok r ↔
      ∃ first last, halfRange 1 start bytes.length = .ok first ∧
        halfRange 2 stop bytes.length = .ok last ∧ (bytes.drop first).take (last - first) = r := by
  have htake : ∀ first last : ℕ, (if last < first then first else last) - first = last - first := by
    intro first last
    split <;> omega
  simp only [bufferSlice, bind_eq_ok_iff, htake, pure, Except.pure, Except.ok.injEq]
  constructor
  · rintro ⟨first, hfirst, last, hlast, h⟩
    exact ⟨first, last, hfirst, hlast, h⟩
  · rintro ⟨first, last, hfirst, hlast, h⟩
    exact ⟨first, hfirst, last, hlast, h⟩

/-! ### The two sides -/

/-- The bytes in front of the midpoint `M` after some attempts to push there: the last attempt comes
first, an attempt that failed has left a zero, and there is no room for more than `M`. -/
def region (M : ℕ) (fronts : List (Option UInt8)) : Bytes :=
  List.replicate (M - fronts.length) 0 ++ ((fronts.take M).map (·.getD 0)).reverse

theorem length_region (M : ℕ) (fronts : List (Option UInt8)) : (region M fronts).length = M := by
  simp only [region, List.length_append, List.length_replicate, List.length_reverse,
    List.length_map, List.length_take]
  omega

theorem region_of_lt {M : ℕ} {fronts : List (Option UInt8)} (h : fronts.length < M) :
    region M fronts =
      List.replicate (M - fronts.length - 1) 0 ++ 0 :: (fronts.map (·.getD 0)).reverse := by
  obtain ⟨r, hr⟩ := Nat.exists_eq_add_of_lt h
  have hroom : M - fronts.length = r + 1 := by omega
  rw [region, hroom, Nat.add_sub_cancel, List.take_of_length_le h.le, List.replicate_succ',
    List.append_assoc]
  rfl

theorem region_concat_of_lt {M : ℕ} {fronts : List (Option UInt8)} (h : fronts.length < M)
    (x : Option UInt8) :
    region M (fronts ++ [x]) =
      List.replicate (M - fronts.length - 1) 0 ++ x.getD 0 :: (fronts.map (·.getD 0)).reverse := by
  have hlen : (fronts ++ [x]).length = fronts.length + 1 := by
    rw [List.length_append, List.length_singleton]
  rw [region, hlen, List.take_of_length_le (by omega), List.map_append, List.reverse_append,
    Nat.sub_sub]
  rfl

/-- A further attempt writes where a zero was, if there is room. -/
theorem region_concat {M : ℕ} {fronts : List (Option UInt8)} (h : fronts.length < M)
    (x : Option UInt8) :
    region M (fronts ++ [x]) = (region M fronts).set (M - fronts.length - 1) (x.getD 0) := by
  rw [region_concat_of_lt h, region_of_lt h, List.set_append_right _ _ (by simp),
    List.length_replicate, Nat.sub_self]
  rfl

theorem region_concat_of_le {M : ℕ} {fronts : List (Option UInt8)} (h : M ≤ fronts.length)
    (x : Option UInt8) : region M (fronts ++ [x]) = region M fronts := by
  rw [region, region, List.take_append_of_le_length h, Nat.sub_eq_zero_of_le h,
    Nat.sub_eq_zero_of_le (h.trans (by simp))]

/-- An attempt that fails has no effect there. -/
theorem region_concat_none (M : ℕ) (fronts : List (Option UInt8)) :
    region M (fronts ++ [none]) = region M fronts := by
  rcases lt_or_ge fronts.length M with hlt | hle
  · exact (region_concat_of_lt hlt none).trans (region_of_lt hlt).symm
  · exact region_concat_of_le hle none

/-- The bytes from the first one that was pushed in front. -/
theorem drop_region {M : ℕ} {fronts : List (Option UInt8)} (h : fronts.length ≤ M) (backs : Bytes) :
    (region M fronts ++ backs).drop (M - fronts.length) =
      (fronts.map (·.getD 0)).reverse ++ backs := by
  rw [region, List.take_of_length_le h, List.append_assoc,
    List.drop_left' List.length_replicate]

/-- The object after attempts to push `fronts` in front, and after `backs` got pushed behind. The
buffer ends in front of the midpoint until a byte is pushed behind, or the first attempt has written
one right in front of it. -/
structure Holds (M : ℕ) (fronts : List (Option UInt8)) (backs : Bytes) (pb : PrependableBuffer) :
    Prop where
  midpoint : pb.midpoint = M
  prepends : pb.prepends = fronts.length
  appends : pb.appends = backs.length
  length_le : pb.buf.length ≤ M + backs.length
  bytes : pb.buf.rightpad (M + backs.length) 0 = region M fronts ++ backs
  length_eq_iff : pb.buf.length = M + backs.length ↔
    M = 0 ∨ backs ≠ [] ∨ ∃ byte, fronts.head? = some (some byte)
  room : M + backs.length ≤ maxKey

namespace Holds

variable {M : ℕ} {fronts : List (Option UInt8)} {backs : Bytes} {pb : PrependableBuffer}

/-- `:push-char-front` returns. -/
theorem pushCharFront_ok (h : Holds M fronts backs pb) {c : Option ℚ} {byte : UInt8}
    (hroom : fronts.length < M) (hbyte : storedByte c = some byte) :
    Holds M (fronts ++ [some byte]) backs (pb.pushCharFront c).1 ∧
      (pb.pushCharFront c).2 = .ok () := by
  obtain ⟨i, hi⟩ : ∃ i, i = M - fronts.length - 1 := ⟨_, rfl⟩
  have hkey : pb.midpoint - ((pb.prepends + 1 : ℕ) : ℚ) = (i : ℚ) := by
    rw [h.midpoint, h.prepends, hi, Nat.sub_sub, Nat.cast_sub hroom]
  have hlt : i < M + backs.length := by omega
  have hput : bufferPut pb.buf i c = .ok ((pb.buf.rightpad (i + 1) 0).set i byte) :=
    bufferPut_ok (hlt.trans_le h.room) hbyte
  have hlen : ((pb.buf.rightpad (i + 1) 0).set i byte).length = max pb.buf.length (i + 1) := by
    rw [List.length_set, List.length_rightpad, Nat.max_comm]
  have hle := h.length_le
  rw [PrependableBuffer.pushCharFront]
  dsimp only
  rw [hkey, hput]
  refine ⟨⟨h.midpoint, ?_, h.appends, ?_, ?_, ?_, h.room⟩, rfl⟩
  · rw [List.length_append, List.length_singleton, h.prepends]
  · dsimp only
    omega
  · have hregion : i < (region M fronts).length := by
      rw [length_region]
      omega
    rw [rightpad_set hlt, h.bytes, List.set_append_left i byte hregion, region_concat hroom, ← hi]
    rfl
  · -- The first attempt writes right in front of the midpoint, a later one further in front.
    dsimp only
    have hiff := h.length_eq_iff
    rw [hlen]
    cases fronts with
    | nil =>
      have hfull : M = 0 ∨ backs ≠ [] ∨ ∃ b, ([] ++ [some byte]).head? = some (some b) :=
        .inr (.inr ⟨byte, rfl⟩)
      rw [iff_true_right hfull]
      rcases List.eq_nil_or_concat backs with rfl | ⟨bs, b, hbacks⟩
      · simp only [List.length_nil] at hi hle ⊢
        omega
      · have := hiff.mpr (.inr (.inl (by simp [hbacks])))
        simp only [List.length_nil] at hi
        omega
    | cons x fronts =>
      have hmax : max pb.buf.length (i + 1) = M + backs.length ↔
          pb.buf.length = M + backs.length := by
        rw [List.length_cons] at hi hroom
        omega
      rw [hmax]
      exact hiff

/-- It fails, and only the count changes. -/
theorem pushCharFront_error (h : Holds M fronts backs pb) {c : Option ℚ}
    (hbad : fronts.length < M → storedByte c = none) :
    Holds M (fronts ++ [storedByte c]) backs (pb.pushCharFront c).1 ∧
      ∃ err, (pb.pushCharFront c).2 = .error err := by
  have hput : ∃ err, bufferPut pb.buf (pb.midpoint - (pb.prepends + 1 : ℕ)) c = .error err := by
    refine bufferPut_error fun i hi hlt => hbad ?_
    rw [h.midpoint, h.prepends, sub_eq_iff_eq_add, ← Nat.cast_add, Nat.cast_inj] at hi
    omega
  have hregion : region M (fronts ++ [storedByte c]) = region M fronts := by
    rcases lt_or_ge fronts.length M with hlt | hle
    · rw [hbad hlt]
      exact region_concat_none M fronts
    · exact region_concat_of_le hle _
  obtain ⟨err, hput⟩ := hput
  rw [PrependableBuffer.pushCharFront]
  dsimp only
  rw [hput]
  refine ⟨⟨h.midpoint, ?_, h.appends, h.length_le, ?_, ?_, h.room⟩, err, rfl⟩
  · rw [List.length_append, List.length_singleton, h.prepends]
  · rw [hregion]
    exact h.bytes
  · dsimp only
    rw [h.length_eq_iff]
    cases fronts with
    | nil =>
      rcases Nat.eq_zero_or_pos M with hzero | hpos
      · simp only [hzero, true_or]
      · rw [hbad hpos]
        simp
    | cons x fronts => rfl

/-- `:push-char` returns. -/
theorem pushChar_ok (h : Holds M fronts backs pb) {c : Option ℚ} {byte : UInt8}
    (hroom : M + backs.length < maxKey) (hbyte : storedByte c = some byte) :
    Holds M fronts (backs ++ [byte]) (pb.pushChar c).1 ∧ (pb.pushChar c).2 = .ok () := by
  have hkey : pb.midpoint + (pb.appends : ℚ) = ((M + backs.length : ℕ) : ℚ) := by
    rw [h.midpoint, h.appends, Nat.cast_add]
  have hsucc : M + (backs ++ [byte]).length = M + backs.length + 1 := by
    rw [List.length_append, List.length_singleton, Nat.add_assoc]
  have hput : bufferPut pb.buf (M + backs.length : ℕ) c =
      .ok ((pb.buf.rightpad (M + backs.length + 1) 0).set (M + backs.length) byte) :=
    bufferPut_ok hroom hbyte
  have hlen : ((pb.buf.rightpad (M + backs.length + 1) 0).set (M + backs.length) byte).length =
      M + backs.length + 1 := by
    rw [List.length_set, List.length_rightpad]
    exact Nat.max_eq_left (h.length_le.trans (Nat.le_succ _))
  rw [PrependableBuffer.pushChar, hkey, hput]
  dsimp only
  refine ⟨⟨h.midpoint, h.prepends, ?_, ?_, ?_, ?_, ?_⟩, rfl⟩
  · dsimp only
    rw [List.length_append, List.length_singleton, h.appends]
  · exact (hlen.trans hsucc.symm).le
  · dsimp only
    rw [hsucc, rightpad_of_le hlen.ge, rightpad_set_succ h.length_le, h.bytes, List.append_assoc]
  · dsimp only
    rw [hlen, hsucc]
    simp
  · rw [hsucc]
    exact hroom

/-- It fails and leaves the object as it was. -/
theorem pushChar_error (h : Holds M fronts backs pb) {c : Option ℚ}
    (hbad : M + backs.length < maxKey → storedByte c = none) :
    ∃ err, pb.pushChar c = (pb, .error err) := by
  have hput : ∃ err, bufferPut pb.buf (pb.midpoint + pb.appends) c = .error err := by
    refine bufferPut_error fun i hi hlt => hbad ?_
    rw [h.midpoint, h.appends, ← Nat.cast_add, Nat.cast_inj] at hi
    omega
  obtain ⟨err, hput⟩ := hput
  rw [PrependableBuffer.pushChar, hput]
  exact ⟨err, rfl⟩

/-- A slice that ends behind the last byte. -/
theorem getBuf_eq_ok_iff (h : Holds M fronts backs pb) {r : Bytes} :
    pb.getBuf = .ok r ↔ pb.buf.length = M + backs.length ∧
      (fronts.length ≤ M ∧ (region M fronts ++ backs).drop (M - fronts.length) = r ∨
        M < fronts.length ∧ fronts.length ≤ 2 * M + backs.length + 1 ∧
          (region M fronts ++ backs).drop (2 * M + backs.length + 1 - fronts.length) = r) := by
  have hroom := h.room
  have hle := h.length_le
  have hstart : pb.midpoint - (pb.prepends : ℚ) = ((M - fronts.length : ℤ) : ℚ) := by
    rw [h.midpoint, h.prepends, Int.cast_sub, Int.cast_natCast, Int.cast_natCast]
  have hstop : pb.midpoint + (pb.appends : ℚ) = ((M + backs.length : ℤ) : ℚ) := by
    rw [h.midpoint, h.appends, Int.cast_add, Int.cast_natCast, Int.cast_natCast]
  simp only [maxKey] at hroom
  rw [PrependableBuffer.getBuf, hstart, hstop, bufferSlice_eq_ok_iff]
  simp only [halfRange_eq_ok_iff, Rat.intCast_inj]
  have hwhole : pb.buf.length = M + backs.length → ∀ first,
      (pb.buf.drop first).take (M + backs.length - first) =
        (region M fronts ++ backs).drop first := by
    intro hfull first
    have hbytes := h.bytes
    rw [rightpad_of_le hfull.ge] at hbytes
    rw [← hbytes, List.take_of_length_le (by rw [List.length_drop, hfull])]
  constructor
  · rintro ⟨first, last, ⟨z, rfl, hz, hfirst, hindex⟩, ⟨z', rfl, hz', hlast, hindex'⟩, rfl⟩
    have hfull : pb.buf.length = M + backs.length := by omega
    obtain rfl : last = M + backs.length := by omega
    rw [hwhole hfull]
    refine ⟨hfull, ?_⟩
    rcases lt_or_ge M fronts.length with hlt | hge
    · have hneg : first = 2 * M + backs.length + 1 - fronts.length := by omega
      exact .inr ⟨hlt, by omega, by rw [hneg]⟩
    · have hpos : first = M - fronts.length := by omega
      exact .inl ⟨hge, by rw [hpos]⟩
  · rintro ⟨hfull, ⟨hge, rfl⟩ | ⟨hlt, hcount, rfl⟩⟩
    · exact ⟨M - fronts.length, M + backs.length,
        ⟨_, rfl, by omega, by omega, by omega⟩, ⟨_, rfl, by omega, by omega, by omega⟩,
        hwhole hfull _⟩
    · exact ⟨2 * M + backs.length + 1 - fronts.length, M + backs.length,
        ⟨_, rfl, by omega, by omega, by omega⟩, ⟨_, rfl, by omega, by omega, by omega⟩,
        hwhole hfull _⟩

/-- What is read is not longer than the index limit. -/
theorem length_le_of_getBuf (h : Holds M fronts backs pb) {r : Bytes} (hr : pb.getBuf = .ok r) :
    r.length ≤ maxKey := by
  have hlen : (region M fronts ++ backs).length ≤ maxKey := by
    rw [List.length_append, length_region]
    exact h.room
  have hdrop : ∀ k, ((region M fronts ++ backs).drop k).length ≤ maxKey := by
    intro k
    rw [List.length_drop]
    exact (Nat.sub_le _ _).trans hlen
  obtain ⟨-, ⟨-, rfl⟩ | ⟨-, -, rfl⟩⟩ := h.getBuf_eq_ok_iff.mp hr
  · exact hdrop _
  · exact hdrop _

end Holds

theorem new_intCast {z : ℤ} (h : -2147483648 ≤ z ∧ z ≤ 2147483647) :
    PrependableBuffer.new z = .ok ⟨[], z, z / 2, 0, 0⟩ := by
  rw [PrependableBuffer.new, checkint_intCast h]

/-- A size is an integer. -/
theorem new_eq_ok {maxSize : ℚ} {pb : PrependableBuffer}
    (h : PrependableBuffer.new maxSize = .ok pb) :
    ∃ z : ℤ, maxSize = z ∧ (-2147483648 ≤ z ∧ z ≤ 2147483647) ∧ pb = ⟨[], z, z / 2, 0, 0⟩ := by
  cases hsize : checkint maxSize with
  | none =>
    rw [PrependableBuffer.new, hsize] at h
    cases h
  | some z =>
    obtain ⟨rfl, hz⟩ := checkint_eq_some_iff.mp hsize
    rw [new_intCast hz] at h
    exact ⟨z, rfl, hz, (Except.ok.inj h).symm⟩

/-- A new object of an even size has nothing on either side. -/
theorem holds_new {maxSize : ℚ} {M : ℕ} {pb : PrependableBuffer}
    (h : PrependableBuffer.new maxSize = .ok pb) (hsize : maxSize = 2 * M) :
    Holds M [] [] pb := by
  obtain ⟨z, rfl, hz, rfl⟩ := new_eq_ok h
  obtain rfl : z = 2 * M := by exact_mod_cast hsize
  refine ⟨?_, rfl, rfl, Nat.zero_le _, ?_, ?_, ?_⟩
  · dsimp only
    rw [hsize, mul_div_cancel_left₀ _ (by decide)]
  · simp [region, List.rightpad]
  · simp [eq_comm]
  · simp only [maxKey, List.length_nil]
    omega

end AhungryJanet
