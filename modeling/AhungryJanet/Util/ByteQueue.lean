import AhungryJanet.Util.PrependableBuffer
import Mathlib.Data.List.ReduceOption

/-!
# A queue with two ends

A `PrependableBuffer` over a whole run of calls: pushes on both sides in any order, and reads in
between. A program may go on after a call that raises.

## Main results

* `follows_calls` — the object after a run, and the pushes that have returned.
* `getBuf_calls` — what was pushed in front, the last byte first, and then what was pushed behind.
-/

namespace AhungryJanet

/-- A call of a method. -/
inductive BufferCall (γ : Type) where
  | pushCharFront (c : γ)
  | pushChar (c : γ)
  | getBuf

namespace BufferCall

variable {γ δ : Type}

/-- What is pushed in front. -/
def front : BufferCall γ → Option γ
  | .pushCharFront c => some c
  | .pushChar _ => none
  | .getBuf => none

/-- What is pushed behind. -/
def back : BufferCall γ → Option γ
  | .pushCharFront _ => none
  | .pushChar c => some c
  | .getBuf => none

def map (f : γ → δ) : BufferCall γ → BufferCall δ
  | .pushCharFront c => .pushCharFront (f c)
  | .pushChar c => .pushChar (f c)
  | .getBuf => .getBuf

theorem filterMap_front_map (f : γ → δ) (cs : List (BufferCall γ)) :
    (cs.map (map f)).filterMap front = (cs.filterMap front).map f := by
  have hfront : front ∘ map f = fun c => c.front.map f := by
    funext c
    cases c <;> rfl
  rw [List.filterMap_map, hfront, List.map_filterMap]

theorem filterMap_back_map (f : γ → δ) (cs : List (BufferCall γ)) :
    (cs.map (map f)).filterMap back = (cs.filterMap back).map f := by
  have hback : back ∘ map f = fun c => c.back.map f := by
    funext c
    cases c <;> rfl
  rw [List.filterMap_map, hback, List.map_filterMap]

end BufferCall

namespace PrependableBuffer

/-- The object after a call, and whether the call returns. -/
def call (self : PrependableBuffer) : BufferCall (Option ℚ) → PrependableBuffer × Call Unit
  | .pushCharFront c => self.pushCharFront c
  | .pushChar c => self.pushChar c
  | .getBuf => (self, self.getBuf.map fun _ => ())

/-- One more call in a program that goes on after an error: the object, and the calls that have
returned so far. -/
def next (run : PrependableBuffer × List (BufferCall (Option ℚ))) (c : BufferCall (Option ℚ)) :
    PrependableBuffer × List (BufferCall (Option ℚ)) :=
  match run.1.call c with
  | (self, .ok ()) => (self, run.2 ++ [c])
  | (self, .error _) => (self, run.2)

/-- The object after some calls, and which of them have returned. -/
def calls (self : PrependableBuffer) (cs : List (BufferCall (Option ℚ))) :
    PrependableBuffer × List (BufferCall (Option ℚ)) :=
  cs.foldl next (self, [])

end PrependableBuffer

/-- The bytes of the pushes in front, where there is one. -/
def frontBytes (cs : List (BufferCall (Option ℚ))) : List (Option UInt8) :=
  (cs.filterMap BufferCall.front).map storedByte

/-- The bytes that are pushed behind. -/
def backBytes (cs : List (BufferCall (Option ℚ))) : Bytes :=
  (cs.filterMap BufferCall.back).filterMap storedByte

theorem frontBytes_concat (cs : List (BufferCall (Option ℚ))) (c : BufferCall (Option ℚ)) :
    frontBytes (cs ++ [c]) = frontBytes cs ++ frontBytes [c] := by
  rw [frontBytes, List.filterMap_append, List.map_append]
  rfl

theorem backBytes_concat (cs : List (BufferCall (Option ℚ))) (c : BufferCall (Option ℚ)) :
    backBytes (cs ++ [c]) = backBytes cs ++ backBytes [c] := by
  rw [backBytes, List.filterMap_append, List.filterMap_append]
  rfl

theorem frontBytes_pushCharFront (c : Option ℚ) :
    frontBytes [.pushCharFront c] = [storedByte c] := rfl

theorem backBytes_pushCharFront (c : Option ℚ) : backBytes [.pushCharFront c] = [] := rfl

theorem frontBytes_pushChar (c : Option ℚ) : frontBytes [.pushChar c] = [] := rfl

theorem backBytes_pushChar (c : Option ℚ) : backBytes [.pushChar c] = (storedByte c).toList := by
  cases h : storedByte c with
  | none => exact List.filterMap_cons_none h
  | some byte => exact List.filterMap_cons_some h

theorem next_of_ok {run : PrependableBuffer × List (BufferCall (Option ℚ))}
    {c : BufferCall (Option ℚ)} (h : (run.1.call c).2 = .ok ()) :
    PrependableBuffer.next run c = ((run.1.call c).1, run.2 ++ [c]) := by
  rw [PrependableBuffer.next]
  split
  case h_1 heq => rw [heq]
  case h_2 heq =>
    rw [heq] at h
    cases h

theorem next_of_error {run : PrependableBuffer × List (BufferCall (Option ℚ))}
    {c : BufferCall (Option ℚ)} (h : ∃ err, (run.1.call c).2 = .error err) :
    PrependableBuffer.next run c = ((run.1.call c).1, run.2) := by
  obtain ⟨err, h⟩ := h
  rw [PrependableBuffer.next]
  split
  case h_1 heq =>
    rw [heq] at h
    cases h
  case h_2 heq => rw [heq]

/-- A read leaves the object as it is. -/
theorem next_getBuf_cases (run : PrependableBuffer × List (BufferCall (Option ℚ))) :
    PrependableBuffer.next run .getBuf = (run.1, run.2 ++ [.getBuf]) ∨
      PrependableBuffer.next run .getBuf = run := by
  cases h : (run.1.call .getBuf).2 with
  | ok a => exact .inl (next_of_ok h)
  | error err => exact .inr (next_of_error ⟨err, h⟩)

theorem frontBytes_concat_getBuf (cs : List (BufferCall (Option ℚ))) :
    frontBytes (cs ++ [.getBuf]) = frontBytes cs := by
  rw [frontBytes_concat]
  exact List.append_nil _

theorem backBytes_concat_getBuf (cs : List (BufferCall (Option ℚ))) :
    backBytes (cs ++ [.getBuf]) = backBytes cs := by
  rw [backBytes_concat]
  exact List.append_nil _

theorem take_concat_of_lt {α : Type} {l : List α} {n : ℕ} (h : l.length < n) (x : α) :
    (l ++ [x]).take n = l.take n ++ [x] := by
  rw [List.take_of_length_le h.le, List.take_of_length_le]
  rw [List.length_append, List.length_singleton]
  exact h

/-- The object after the calls `cs`, and which of them have returned: an integer got pushed in front
unless there were `M` attempts before, and behind unless the index limit was reached. -/
structure Follows (M : ℕ) (cs : List (BufferCall (Option ℚ)))
    (run : PrependableBuffer × List (BufferCall (Option ℚ))) : Prop where
  holds : Holds M (frontBytes cs) ((backBytes cs).take (maxKey - M)) run.1
  fronts : (frontBytes run.2).reduceOption = ((frontBytes cs).take M).reduceOption
  backs : backBytes run.2 = (backBytes cs).take (maxKey - M)

namespace Follows

variable {M : ℕ} {cs : List (BufferCall (Option ℚ))}
  {run : PrependableBuffer × List (BufferCall (Option ℚ))}

theorem next_pushCharFront (h : Follows M cs run) (c : Option ℚ) :
    Follows M (cs ++ [.pushCharFront c]) (PrependableBuffer.next run (.pushCharFront c)) := by
  have hfront : frontBytes (cs ++ [.pushCharFront c]) = frontBytes cs ++ [storedByte c] := by
    rw [frontBytes_concat, frontBytes_pushCharFront]
  have hback : backBytes (cs ++ [.pushCharFront c]) = backBytes cs := by
    rw [backBytes_concat, backBytes_pushCharFront, List.append_nil]
  by_cases hbad : (frontBytes cs).length < M → storedByte c = none
  · have hsame : ((frontBytes cs ++ [storedByte c]).take M).reduceOption =
        ((frontBytes cs).take M).reduceOption := by
      rcases lt_or_ge (frontBytes cs).length M with hlt | hle
      · rw [take_concat_of_lt hlt, hbad hlt, List.reduceOption_append]
        exact List.append_nil _
      · rw [List.take_append_of_le_length hle]
    obtain ⟨hholds, herr⟩ := h.holds.pushCharFront_error hbad
    rw [next_of_error (c := .pushCharFront c) herr]
    refine ⟨?_, ?_, ?_⟩
    · rw [hfront, hback]
      exact hholds
    · rw [hfront, hsame, h.fronts]
    · rw [hback, h.backs]
  · obtain ⟨hlt, hsome⟩ := Classical.not_imp.mp hbad
    obtain ⟨byte, hbyte⟩ := Option.ne_none_iff_exists'.mp hsome
    obtain ⟨hholds, hok⟩ := h.holds.pushCharFront_ok hlt hbyte
    rw [next_of_ok (c := .pushCharFront c) hok]
    refine ⟨?_, ?_, ?_⟩
    · rw [hfront, hback, hbyte]
      exact hholds
    · rw [frontBytes_concat, hfront, frontBytes_pushCharFront, take_concat_of_lt hlt,
        List.reduceOption_append, List.reduceOption_append, h.fronts]
    · rw [hback, backBytes_concat, backBytes_pushCharFront, List.append_nil, h.backs]

theorem next_pushChar (h : Follows M cs run) (c : Option ℚ) :
    Follows M (cs ++ [.pushChar c]) (PrependableBuffer.next run (.pushChar c)) := by
  have hfront : frontBytes (cs ++ [.pushChar c]) = frontBytes cs := by
    rw [frontBytes_concat, frontBytes_pushChar, List.append_nil]
  have hback : backBytes (cs ++ [.pushChar c]) = backBytes cs ++ (storedByte c).toList := by
    rw [backBytes_concat, backBytes_pushChar]
  have hcount : M + ((backBytes cs).take (maxKey - M)).length < maxKey ↔
      (backBytes cs).length < maxKey - M := by
    rw [List.length_take]
    omega
  by_cases hbad : (backBytes cs).length < maxKey - M → storedByte c = none
  · have hsame : (backBytes cs ++ (storedByte c).toList).take (maxKey - M) =
        (backBytes cs).take (maxKey - M) := by
      rcases lt_or_ge (backBytes cs).length (maxKey - M) with hlt | hle
      · rw [hbad hlt, Option.toList_none, List.append_nil]
      · rw [List.take_append_of_le_length hle]
    obtain ⟨err, herr⟩ := h.holds.pushChar_error fun hlt => hbad (hcount.mp hlt)
    rw [next_of_error (c := .pushChar c) ⟨err, congrArg Prod.snd herr⟩]
    refine ⟨?_, ?_, ?_⟩
    · rw [hfront, hback, hsame, PrependableBuffer.call, herr]
      exact h.holds
    · rw [hfront, h.fronts]
    · rw [hback, hsame, h.backs]
  · obtain ⟨hlt, hsome⟩ := Classical.not_imp.mp hbad
    obtain ⟨byte, hbyte⟩ := Option.ne_none_iff_exists'.mp hsome
    obtain ⟨hholds, hok⟩ := h.holds.pushChar_ok (hcount.mpr hlt) hbyte
    have htake : (backBytes cs ++ (storedByte c).toList).take (maxKey - M) =
        (backBytes cs).take (maxKey - M) ++ [byte] := by
      rw [hbyte]
      exact take_concat_of_lt hlt byte
    rw [next_of_ok (c := .pushChar c) hok]
    refine ⟨?_, ?_, ?_⟩
    · rw [hfront, hback, htake]
      exact hholds
    · rw [frontBytes_concat, frontBytes_pushChar, List.append_nil, hfront, h.fronts]
    · rw [backBytes_concat, backBytes_pushChar, hback, htake, h.backs, hbyte]
      rfl

theorem next_getBuf (h : Follows M cs run) :
    Follows M (cs ++ [.getBuf]) (PrependableBuffer.next run .getBuf) := by
  have hsame : Follows M (cs ++ [.getBuf]) run := by
    refine ⟨?_, ?_, ?_⟩
    · rw [frontBytes_concat_getBuf, backBytes_concat_getBuf]
      exact h.holds
    · rw [frontBytes_concat_getBuf]
      exact h.fronts
    · rw [backBytes_concat_getBuf]
      exact h.backs
  rcases next_getBuf_cases run with hrun | hrun
  · rw [hrun]
    refine ⟨hsame.holds, ?_, ?_⟩
    · rw [frontBytes_concat_getBuf]
      exact hsame.fronts
    · rw [backBytes_concat_getBuf]
      exact hsame.backs
  · rw [hrun]
    exact hsame

end Follows

/-- What a run does. -/
theorem follows_calls {M : ℕ} {pb : PrependableBuffer} (h : Holds M [] [] pb)
    (cs : List (BufferCall (Option ℚ))) : Follows M cs (pb.calls cs) := by
  induction cs using List.reverseRecOn with
  | nil =>
    have hback : backBytes [] = [] := rfl
    refine ⟨?_, ?_, ?_⟩
    · rw [hback, List.take_nil]
      exact h
    · exact congrArg List.reduceOption (List.take_nil (i := M)).symm
    · rw [hback, List.take_nil]
      rfl
  | append_singleton cs c ih =>
    rw [PrependableBuffer.calls, List.foldl_append]
    cases c with
    | pushCharFront c => exact ih.next_pushCharFront c
    | pushChar c => exact ih.next_pushChar c
    | getBuf => exact ih.next_getBuf

/-! ### Pushing bytes -/

/-- The number that is passed for a byte. -/
def charValue (byte : UInt8) : Option ℚ :=
  some byte.toNat

theorem storedByte_charValue (byte : UInt8) : storedByte (charValue byte) = some byte := by
  have hlt : byte.toNat < 256 := byte.toNat_lt
  have hint : checkint ((byte.toNat : ℤ) : ℚ) = some (byte.toNat : ℤ) :=
    checkint_intCast (by omega)
  have hmod : ((byte.toNat : ℤ) % 256).toNat = byte.toNat := by omega
  rw [charValue, ← Int.cast_natCast, storedByte, Option.bind_some, hint, Option.map_some, hmod,
    UInt8.ofNat_toNat]

theorem frontBytes_map (cs : List (BufferCall UInt8)) :
    frontBytes (cs.map (.map charValue)) = (cs.filterMap BufferCall.front).map some := by
  rw [frontBytes, BufferCall.filterMap_front_map, List.map_map]
  exact List.map_congr_left fun byte _ => storedByte_charValue byte

theorem backBytes_map (cs : List (BufferCall UInt8)) :
    backBytes (cs.map (.map charValue)) = cs.filterMap BufferCall.back := by
  have hstored : storedByte ∘ charValue = some := funext storedByte_charValue
  rw [backBytes, BufferCall.filterMap_back_map, List.filterMap_map, hstored, List.filterMap_some]

/-- An object of an even size works as a queue with two ends, as long as half of the size suffices
for what is pushed in front and the index limit for the rest. -/
theorem getBuf_calls {maxSize : ℤ} {pb : PrependableBuffer} {cs : List (BufferCall UInt8)}
    (hnew : PrependableBuffer.new maxSize = .ok pb) (heven : 2 ∣ maxSize)
    (hpush : ∃ c ∈ cs, c ≠ .getBuf)
    (hfront : 2 * ((cs.filterMap BufferCall.front).length : ℤ) ≤ maxSize)
    (hback : maxSize / 2 + (cs.filterMap BufferCall.back).length ≤ 2147483646) :
    (pb.calls (cs.map (.map charValue))).1.getBuf =
      .ok ((cs.filterMap BufferCall.front).reverse ++ cs.filterMap BufferCall.back) := by
  obtain ⟨M, hM⟩ : ∃ M : ℕ, maxSize = 2 * M := by
    obtain ⟨z, rfl⟩ := heven
    exact ⟨z.toNat, by omega⟩
  have hsize : (maxSize : ℚ) = 2 * M := by exact_mod_cast hM
  have hle : (cs.filterMap BufferCall.front).length ≤ M := by omega
  have hholds := (follows_calls (holds_new hnew hsize) (cs.map (.map charValue))).holds
  rw [frontBytes_map, backBytes_map, List.take_of_length_le (by simp only [maxKey]; omega)]
    at hholds
  refine hholds.getBuf_eq_ok_iff.mpr ⟨hholds.length_eq_iff.mpr (.inr ?_), .inl ⟨?_, ?_⟩⟩
  · obtain ⟨c, hmem, hc⟩ := hpush
    cases c with
    | pushCharFront x =>
      have hx : x ∈ cs.filterMap BufferCall.front := List.mem_filterMap.mpr ⟨_, hmem, rfl⟩
      obtain ⟨y, ys, hys⟩ := List.exists_cons_of_ne_nil (List.ne_nil_of_mem hx)
      exact .inr ⟨y, by rw [hys]; rfl⟩
    | pushChar x =>
      have hx : x ∈ cs.filterMap BufferCall.back := List.mem_filterMap.mpr ⟨_, hmem, rfl⟩
      exact .inl (List.ne_nil_of_mem hx)
    | getBuf => exact absurd rfl hc
  · rw [List.length_map]
    exact hle
  · rw [drop_region (by rw [List.length_map]; exact hle), List.map_map]
    exact congrArg (·.reverse ++ _) (List.map_id _)

/-- The calls of the source's example, with a read among them. -/
theorem getBuf_calls_hello :
    ∃ pb, PrependableBuffer.new (20 : ℤ) = .ok pb ∧
      (pb.calls ([.pushChar 76, .pushChar 76, .getBuf, .pushChar 79, .pushCharFront 69,
        .pushCharFront 72].map (.map charValue))).1.getBuf = .ok [72, 69, 76, 76, 79] := by
  have hnew : PrependableBuffer.new (20 : ℤ) = .ok ⟨[], (20 : ℤ), (20 : ℤ) / 2, 0, 0⟩ :=
    new_intCast (by decide)
  exact ⟨_, hnew, getBuf_calls hnew (by decide) ⟨.pushChar 76, by simp, by simp⟩ (by decide)
    (by decide)⟩

/-- More bytes than the index limit do not fit, even into an object of size zero. -/
theorem not_getBuf_calls_full :
    ¬∀ (maxSize : ℤ) (pb : PrependableBuffer) (cs : List (BufferCall UInt8)),
      PrependableBuffer.new maxSize = .ok pb → 2 ∣ maxSize → (∃ c ∈ cs, c ≠ .getBuf) →
      2 * ((cs.filterMap BufferCall.front).length : ℤ) ≤ maxSize →
      (pb.calls (cs.map (.map charValue))).1.getBuf =
        .ok ((cs.filterMap BufferCall.front).reverse ++ cs.filterMap BufferCall.back) := by
  intro h
  obtain ⟨n, hn⟩ : ∃ n, n = 2147483647 := ⟨_, rfl⟩
  have hfront : (List.replicate n (.pushChar (0 : UInt8))).filterMap BufferCall.front = [] :=
    List.filterMap_replicate_of_none rfl
  have hback : (List.replicate n (.pushChar (0 : UInt8))).filterMap BufferCall.back =
      List.replicate n 0 := List.filterMap_replicate_of_some rfl
  have hnew : PrependableBuffer.new (0 : ℤ) = .ok ⟨[], (0 : ℤ), (0 : ℤ) / 2, 0, 0⟩ :=
    new_intCast (by decide)
  have hsize : ((0 : ℤ) : ℚ) = 2 * (0 : ℕ) := by simp
  have hget := h 0 _ (List.replicate n (.pushChar 0)) hnew (dvd_zero 2)
    ⟨.pushChar 0, List.mem_replicate.mpr ⟨by omega, rfl⟩, by simp⟩ (by rw [hfront]; decide)
  have hle := (follows_calls (holds_new hnew hsize) _).holds.length_le_of_getBuf hget
  rw [hfront, hback, List.reverse_nil, List.nil_append, List.length_replicate] at hle
  simp only [maxKey] at hle
  omega

end AhungryJanet
