import AhungryJanet.Util.ByteQueue

/-!
# Pushes that are rejected

When a `PrependableBuffer` holds the bytes of the pushes that have returned, if some pushes raise.
`:push-char-front` counts before it writes, so that a push that raises there moves the start of what
is read; and the buffer has no end at the midpoint before a byte is written next to it.

## Main results

* `Holds.getBuf_iff` — an object of an even size, by what was pushed on its two sides.
* `Stuck.getBuf_iff` — an object of any other size takes no push.
* `getBuf_calls_iff` — every size and every run.
-/

namespace AhungryJanet

/-- The bytes of some pushes: those in front, the last one first, and then those behind. -/
def queue (cs : List (BufferCall (Option ℚ))) : Bytes :=
  (frontBytes cs).reduceOption.reverse ++ backBytes cs

/-- When the counts fit the bytes. Something is written up to the end of the slice, and its start is
where the first byte is: every push in front has returned, or there were so many that the start
counts from behind and happens to come there. -/
def CountsFit (M : ℕ) (fronts : List (Option UInt8)) (backs : Bytes) : Prop :=
  (M = 0 ∨ backs ≠ [] ∨ ∃ byte, fronts.head? = some (some byte)) ∧
    (fronts.length ≤ M ∧ none ∉ fronts ∨
      (fronts.take M).reduceOption <+: (fronts.take M).map (·.getD 0) ∧
        fronts.length = M + 1 + (fronts.take M).reduceOption.length + backs.length)

theorem map_getD_eq_reduceOption_iff {fronts : List (Option UInt8)} :
    fronts.map (·.getD 0) = fronts.reduceOption ↔ none ∉ fronts := by
  constructor
  · intro h hmem
    have hlen : fronts.reduceOption.length = fronts.length := by rw [← h, List.length_map]
    have hsome := List.reduceOption_length_eq_iff.mp hlen none hmem
    cases hsome
  · intro h
    induction fronts with
    | nil => rfl
    | cons x fronts ih =>
      rw [List.mem_cons, not_or] at h
      obtain ⟨byte, rfl⟩ := Option.ne_none_iff_exists'.mp (Ne.symm h.1)
      rw [List.map_cons, List.reduceOption_cons_of_some, ih h.2]
      rfl

theorem drop_reverse_append_iff {α : Type} {l r b : List α} {k : ℕ}
    (h : k ≤ l.length + b.length) :
    (l.reverse ++ b).drop k = r.reverse ++ b ↔ r <+: l ∧ k + r.length = l.length := by
  have hdrop : k ≤ l.length → ((l.reverse ++ b).drop k = r.reverse ++ b ↔
      l.take (l.length - k) = r) := by
    intro hk
    rw [List.drop_append_of_le_length (by rwa [List.length_reverse]), List.append_left_inj,
      List.drop_reverse, List.reverse_inj]
  constructor
  · intro heq
    have hlen := congrArg List.length heq
    rw [List.length_drop, List.length_append, List.length_append, List.length_reverse,
      List.length_reverse] at hlen
    have hk : k + r.length = l.length := by omega
    rw [hdrop (by omega)] at heq
    exact ⟨heq ▸ List.take_prefix _ l, hk⟩
  · rintro ⟨hpre, hk⟩
    have hcount : l.length - k = r.length := by omega
    rw [hdrop (by omega), hcount]
    exact (List.prefix_iff_eq_take.mp hpre).symm

theorem Holds.getBuf_iff {M : ℕ} {fronts : List (Option UInt8)} {backs : Bytes}
    {pb : PrependableBuffer} (h : Holds M fronts backs pb) :
    pb.getBuf = .ok ((fronts.take M).reduceOption.reverse ++ backs) ↔ CountsFit M fronts backs := by
  rw [h.getBuf_eq_ok_iff, h.length_eq_iff]
  refine and_congr_right fun _ => or_congr ?_ ?_
  · refine and_congr_right fun hle => ?_
    rw [drop_region hle, List.take_of_length_le hle, List.append_left_inj, List.reverse_inj,
      map_getD_eq_reduceOption_iff]
  · have hregion : M < fronts.length →
        region M fronts = ((fronts.take M).map (·.getD 0)).reverse := by
      intro hlt
      rw [region, Nat.sub_eq_zero_of_le hlt.le, List.replicate_zero, List.nil_append]
    have hcells : M < fronts.length → ((fronts.take M).map (·.getD 0)).length = M := by
      intro hlt
      rw [List.length_map, List.length_take_of_le hlt.le]
    constructor
    · rintro ⟨hlt, hcount, hdrop⟩
      rw [hregion hlt, drop_reverse_append_iff (by rw [hcells hlt]; omega), hcells hlt] at hdrop
      exact ⟨hdrop.1, by omega⟩
    · rintro ⟨hpre, hcount⟩
      have hlt : M < fronts.length := by omega
      have hlen := hpre.length_le
      rw [hcells hlt] at hlen
      refine ⟨hlt, by omega, ?_⟩
      rw [hregion hlt, drop_reverse_append_iff (by rw [hcells hlt]; omega), hcells hlt]
      exact ⟨hpre, by omega⟩

/-- An object that takes no push: nothing is written, and half of the size is no index. -/
structure Stuck (maxSize : ℤ) (cs : List (BufferCall (Option ℚ)))
    (run : PrependableBuffer × List (BufferCall (Option ℚ))) : Prop where
  buf : run.1.buf = []
  midpoint : run.1.midpoint = maxSize / 2
  prepends : run.1.prepends = (frontBytes cs).length
  appends : run.1.appends = 0
  done : queue run.2 = []

namespace Stuck

variable {maxSize : ℤ} {cs : List (BufferCall (Option ℚ))}
  {run : PrependableBuffer × List (BufferCall (Option ℚ))}

theorem next (hodd : ∀ M : ℕ, maxSize ≠ 2 * M) (h : Stuck maxSize cs run)
    (c : BufferCall (Option ℚ)) : Stuck maxSize (cs ++ [c]) (PrependableBuffer.next run c) := by
  have hhalf : ∀ i : ℕ, (maxSize : ℚ) / 2 ≠ i := by
    intro i hi
    rw [div_eq_iff (by decide)] at hi
    refine hodd i ?_
    rw [mul_comm]
    exact_mod_cast hi
  cases c with
  | pushCharFront c =>
    have hput : ∃ err, bufferPut run.1.buf (run.1.midpoint - (run.1.prepends + 1 : ℕ)) c =
        .error err := by
      refine bufferPut_error fun i hi _ => absurd ?_ (hhalf (i + (run.1.prepends + 1)))
      rw [Nat.cast_add i, ← hi, h.midpoint, sub_add_cancel]
    obtain ⟨err, hput⟩ := hput
    have hcall : run.1.call (.pushCharFront c) =
        ({ run.1 with prepends := run.1.prepends + 1 }, .error err) := by
      rw [PrependableBuffer.call, PrependableBuffer.pushCharFront]
      dsimp only
      rw [hput]
    rw [next_of_error ⟨err, congrArg Prod.snd hcall⟩, hcall]
    refine ⟨h.buf, h.midpoint, ?_, h.appends, h.done⟩
    rw [frontBytes_concat, frontBytes_pushCharFront, List.length_append, List.length_singleton,
      h.prepends]
  | pushChar c =>
    have hput : ∃ err, bufferPut run.1.buf (run.1.midpoint + run.1.appends) c = .error err := by
      refine bufferPut_error fun i hi _ => absurd ?_ (hhalf i)
      rw [← hi, h.midpoint, h.appends, Nat.cast_zero, add_zero]
    obtain ⟨err, hput⟩ := hput
    have hcall : run.1.call (.pushChar c) = (run.1, .error err) := by
      rw [PrependableBuffer.call, PrependableBuffer.pushChar, hput]
    rw [next_of_error ⟨err, congrArg Prod.snd hcall⟩, hcall]
    refine ⟨h.buf, h.midpoint, ?_, h.appends, h.done⟩
    rw [frontBytes_concat, frontBytes_pushChar, List.append_nil, h.prepends]
  | getBuf =>
    have hprepends : run.1.prepends = (frontBytes (cs ++ [.getBuf])).length := by
      rw [frontBytes_concat_getBuf, h.prepends]
    rcases next_getBuf_cases run with hrun | hrun
    · rw [hrun]
      refine ⟨h.buf, h.midpoint, hprepends, h.appends, ?_⟩
      rw [queue, frontBytes_concat_getBuf, backBytes_concat_getBuf]
      exact h.done
    · rw [hrun]
      exact ⟨h.buf, h.midpoint, hprepends, h.appends, h.done⟩

theorem calls (hodd : ∀ M : ℕ, maxSize ≠ 2 * M) {pb : PrependableBuffer}
    (h : Stuck maxSize [] (pb, [])) : Stuck maxSize cs (pb.calls cs) := by
  induction cs using List.reverseRecOn with
  | nil => exact h
  | append_singleton cs c ih =>
    rw [PrependableBuffer.calls, List.foldl_append]
    exact ih.next hodd c

/-- An empty buffer is only read where the size is `-2`, from behind. -/
theorem getBuf_iff (hodd : ∀ M : ℕ, maxSize ≠ 2 * M) (h : Stuck maxSize cs run) :
    run.1.getBuf = .ok (queue run.2) ↔ maxSize = -2 ∧ frontBytes cs = [] := by
  have hstop : ∀ z : ℤ, run.1.midpoint + (run.1.appends : ℚ) = z ↔ maxSize = 2 * z := by
    intro z
    rw [h.midpoint, h.appends, Nat.cast_zero, add_zero, div_eq_iff (by decide), mul_comm]
    exact_mod_cast Iff.rfl
  have hstart : ∀ z : ℤ, run.1.midpoint - (run.1.prepends : ℚ) = z ↔
      maxSize = 2 * (z + (frontBytes cs).length) := by
    intro z
    rw [h.midpoint, h.prepends, sub_eq_iff_eq_add, div_eq_iff (by decide), mul_comm]
    exact_mod_cast Iff.rfl
  rw [PrependableBuffer.getBuf, h.done, bufferSlice_eq_ok_iff, h.buf]
  simp only [halfRange_eq_ok_iff, hstart, hstop, List.drop_nil, List.take_nil, List.length_nil]
  constructor
  · rintro ⟨first, last, ⟨z, hz, -, hfirst, hindex⟩, ⟨z', hz', -, hlast, hindex'⟩, -⟩
    have hzero := hodd 0
    exact ⟨by omega, List.length_eq_zero_iff.mp (by omega)⟩
  · rintro ⟨hsize, hnil⟩
    rw [hnil, List.length_nil]
    exact ⟨0, 0, ⟨-1, by omega, by omega, by omega, by omega⟩,
      ⟨-1, by omega, by omega, by omega, by omega⟩, trivial⟩

end Stuck

theorem stuck_new {maxSize : ℤ} {pb : PrependableBuffer}
    (h : PrependableBuffer.new maxSize = .ok pb) : Stuck maxSize [] (pb, []) := by
  obtain ⟨z, hz, -, rfl⟩ := new_eq_ok h
  obtain rfl : maxSize = z := by exact_mod_cast hz
  exact ⟨rfl, rfl, rfl, rfl, rfl⟩

/-- The bytes of the pushes that have returned are read after a run if and only if the size is twice
a natural number and the counts fit the bytes, or it is `-2` and nothing was to be pushed in front.
-/
theorem getBuf_calls_iff {maxSize : ℚ} {pb : PrependableBuffer}
    (hnew : PrependableBuffer.new maxSize = .ok pb) (cs : List (BufferCall (Option ℚ))) :
    (pb.calls cs).1.getBuf = .ok (queue (pb.calls cs).2) ↔
      (∃ M : ℕ, maxSize = 2 * M ∧ CountsFit M (frontBytes cs) ((backBytes cs).take (maxKey - M))) ∨
        maxSize = -2 ∧ frontBytes cs = [] := by
  obtain ⟨z, rfl, -⟩ := new_eq_ok hnew
  have hsize : ∀ M : ℕ, (z : ℚ) = 2 * M ↔ z = 2 * M := by
    intro M
    exact_mod_cast Iff.rfl
  have hneg : (z : ℚ) = -2 ↔ z = -2 := by exact_mod_cast Iff.rfl
  simp only [hsize, hneg]
  by_cases heven : ∃ M : ℕ, z = 2 * M
  · obtain ⟨M, hM⟩ := heven
    have hrun := follows_calls (holds_new hnew ((hsize M).mpr hM)) cs
    rw [queue, hrun.fronts, hrun.backs, hrun.holds.getBuf_iff]
    constructor
    · intro h
      exact .inl ⟨M, hM, h⟩
    · rintro (⟨M', hM', h⟩ | ⟨h, -⟩)
      · obtain rfl : M = M' := by omega
        exact h
      · omega
  · have hodd : ∀ M : ℕ, z ≠ 2 * M := fun M hM => heven ⟨M, hM⟩
    rw [((stuck_new hnew).calls hodd).getBuf_iff hodd]
    constructor
    · intro h
      exact .inr h
    · rintro (⟨M, hM, -⟩ | h)
      · exact absurd hM (hodd M)
      · exact h

/-- A push behind that raises, between two that return. -/
theorem getBuf_calls_rejected :
    ∃ pb, PrependableBuffer.new (20 : ℤ) = .ok pb ∧
      (pb.calls [.pushChar (some 76), .pushChar none, .pushCharFront (some 69)]).1.getBuf =
        .ok (queue (pb.calls
          [.pushChar (some 76), .pushChar none, .pushCharFront (some 69)]).2) := by
  have hnew : PrependableBuffer.new (20 : ℤ) = .ok ⟨[], (20 : ℤ), (20 : ℤ) / 2, 0, 0⟩ :=
    new_intCast (by decide)
  have hfront : frontBytes [.pushChar (some 76), .pushChar none, .pushCharFront (some 69)] =
      [some 69] := by decide
  have hback : backBytes [.pushChar (some 76), .pushChar none, .pushCharFront (some 69)] =
      [76] := by decide
  refine ⟨_, hnew, (getBuf_calls_iff hnew _).mpr (.inl ⟨10, by decide +kernel, ?_⟩)⟩
  rw [hfront, hback]
  exact ⟨.inr (.inl (by decide)), .inl ⟨by decide, by decide⟩⟩

/-- Right after `:new` the buffer ends in front of the midpoint, and nothing can be read. -/
theorem not_getBuf_new :
    ¬∀ (maxSize : ℚ) (pb : PrependableBuffer) (cs : List (BufferCall (Option ℚ))),
      PrependableBuffer.new maxSize = .ok pb →
      (pb.calls cs).1.getBuf = .ok (queue (pb.calls cs).2) := by
  intro h
  have hnew : PrependableBuffer.new (20 : ℤ) = .ok ⟨[], (20 : ℤ), (20 : ℤ) / 2, 0, 0⟩ :=
    new_intCast (by decide)
  have hholds := holds_new hnew (M := 10) (by decide +kernel)
  have hfull := (hholds.getBuf_eq_ok_iff.mp (h _ _ [] hnew)).1
  cases hfull

end AhungryJanet
