import Mathlib.Data.List.Induction
import Mathlib.Logic.Function.Basic

/-!
# The last write to a key

A history is the list of the writes made so far, oldest first, each a key with a value. `last` is
the value written last to a key, and a store is a memory of its history if reading it gives that
value.

## Main results

* `read_foldl` — a store in which one write changes what is read for its key, and for no other key,
  is a memory of its history
* `last_eq_some_iff` — the last write, with what comes before and behind it
-/

namespace History

variable {κ υ ω σ : Type*} [DecidableEq κ]

/-- The value written last to a key. -/
def last (h : List (κ × υ)) (k : κ) : Option υ := h.reverse.lookup k

@[simp] theorem last_nil (k : κ) : last ([] : List (κ × υ)) k = none := rfl

@[simp] theorem last_concat (h : List (κ × υ)) (e : κ × υ) :
    last (h ++ [e]) = Function.update (last h) e.1 (some e.2) := by
  funext k
  obtain ⟨k', v⟩ := e
  by_cases hk : k = k'
  · subst hk
    simp [last]
  · have hbeq : (k == k') = false := by simpa using hk
    simp [last, List.lookup_cons, hbeq, hk]

theorem last_eq_some_iff {h : List (κ × υ)} {k : κ} {v : υ} :
    last h k = some v ↔ ∃ h₁ h₂, h = h₁ ++ (k, v) :: h₂ ∧ ∀ e ∈ h₂, e.1 ≠ k := by
  rw [last, List.lookup_eq_some_iff]
  constructor
  · rintro ⟨h₂, h₁, hsplit, hrest⟩
    refine ⟨h₁.reverse, h₂.reverse, ?_, fun e he hek => ?_⟩
    · rw [← List.reverse_reverse h, hsplit]
      simp
    · simpa [hek] using hrest e (List.mem_reverse.mp he)
  · rintro ⟨h₁, h₂, rfl, hrest⟩
    refine ⟨h₂.reverse, h₁.reverse, by simp, fun e he => ?_⟩
    have hne := hrest e (List.mem_reverse.mp he)
    simpa using fun heq => hne heq.symm

theorem last_eq_none_iff {h : List (κ × υ)} {k : κ} :
    last h k = none ↔ ∀ e ∈ h, e.1 ≠ k := by
  rw [last, List.lookup_eq_none_iff]
  constructor
  · intro hnone e he hek
    simpa [hek] using hnone e (List.mem_reverse.mpr he)
  · intro hne e he
    simpa using fun heq => hne e (List.mem_reverse.mp he) heq.symm

/-- What is made of every write is made of the last one. -/
theorem last_map {f : κ → υ → ω} (h : List (κ × υ)) (k : κ) :
    last (h.map fun e => (e.1, f e.1 e.2)) k = (last h k).map (f k) := by
  induction h using List.reverseRecOn with
  | nil => rfl
  | append_singleton h e ih =>
    rw [List.map_append, List.map_singleton, last_concat, last_concat]
    by_cases hk : k = e.1
    · subst hk
      simp
    · rw [Function.update_of_ne hk, Function.update_of_ne hk, ih]

/-- **A store is a memory of its history** if each write is. The write `w` writes `entry w`. -/
theorem read_foldl {read : σ → κ → Option υ} {write : σ → ω → σ} (entry : ω → κ × υ)
    (hwrite : ∀ s w, read (write s w) = Function.update (read s) (entry w).1 (some (entry w).2))
    (s : σ) (ws : List ω) (k : κ) :
    read (ws.foldl write s) k = (last (ws.map entry) k).or (read s k) := by
  induction ws using List.reverseRecOn with
  | nil => rfl
  | append_singleton ws w ih =>
    rw [List.foldl_append, List.foldl_cons, List.foldl_nil, hwrite, List.map_append,
      List.map_singleton, last_concat]
    by_cases hk : k = (entry w).1
    · subst hk
      simp
    · rw [Function.update_of_ne hk, Function.update_of_ne hk, ih]

/-- The same for a store that can refuse a write, and for writes it takes. -/
theorem read_foldlM {Good : σ → Prop} {read : σ → κ → Option υ} {write : σ → κ × υ → Option σ}
    {P : κ × υ → Prop}
    (hwrite : ∀ s e, Good s → P e → ∃ s', write s e = some s' ∧ Good s' ∧
      read s' = Function.update (read s) e.1 (some e.2))
    {s : σ} (hs : Good s) (h : List (κ × υ)) (hP : ∀ e ∈ h, P e) :
    ∃ s', h.foldlM write s = some s' ∧ Good s' ∧ ∀ k, read s' k = (last h k).or (read s k) := by
  induction h using List.reverseRecOn with
  | nil => exact ⟨s, rfl, hs, fun k => rfl⟩
  | append_singleton h e ih =>
    obtain ⟨s₁, hrun, hgood, hread⟩ := ih fun d hd => hP d (List.mem_append_left [e] hd)
    obtain ⟨s₂, hstep, hgood', hread'⟩ :=
      hwrite s₁ e hgood (hP e (List.mem_append_right h (List.mem_singleton_self e)))
    refine ⟨s₂, ?_, hgood', fun k => ?_⟩
    · rw [List.foldlM_append, hrun]
      simp [hstep]
    · rw [hread', last_concat]
      by_cases hk : k = e.1
      · subst hk
        simp
      · rw [Function.update_of_ne hk, Function.update_of_ne hk, hread]

end History
