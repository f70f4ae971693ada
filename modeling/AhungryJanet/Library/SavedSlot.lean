import Mathlib.Data.List.Basic
import Mathlib.Data.List.Infix

/-!
# Saving and restoring with one slot

A value is saved in a slot, changed, and later restored from the slot. Several do so at once, and
there is one slot for all of them: who saves while the value is changed overwrites the slot with the
changed one.

What they do is a list of events. A change is pending until something is restored, by whomever. It
does not matter in which order the others go on after that: a save under a pending change is never
made good, as from then on the changed value is in the slot and in force.

## Main results

* `run_of_cleanSaves`, `run_of_not_cleanSaves` — what is in force, and what is in the slot
* `fst_run_eq_iff` — the first value is back if and only if no save was made under a pending change
-/

namespace SavedSlot

/-- What is done with the value and the slot. -/
inductive SlotEvent where
  | save
  | change
  | restore
  deriving DecidableEq

variable {α : Type}

/-- The value in force and the one in the slot, after an event. A change puts `b` in force. -/
def after (b : α) (x : α × α) : SlotEvent → α × α
  | .save => (x.1, x.1)
  | .change => (b, x.2)
  | .restore => (x.2, x.2)

/-- After some events. -/
def run (b : α) (x : α × α) (log : List SlotEvent) : α × α := log.foldl (after b) x

/-- A change was made and nothing was restored since. -/
def Pending (log : List SlotEvent) : Prop := (log.filter (· ≠ .save)).getLast? = some .change

instance (log : List SlotEvent) : Decidable (Pending log) :=
  inferInstanceAs (Decidable (_ = some SlotEvent.change))

/-- Nobody saved under a pending change. -/
def CleanSaves (log : List SlotEvent) : Prop :=
  ∀ before, before ++ [.save] <+: log → ¬ Pending before

theorem run_append (b : α) (x : α × α) (log log' : List SlotEvent) :
    run b x (log ++ log') = run b (run b x log) log' := List.foldl_append

theorem run_concat (b : α) (x : α × α) (log : List SlotEvent) (e : SlotEvent) :
    run b x (log ++ [e]) = after b (run b x log) e := run_append b x log [e]

theorem pending_concat_save (log : List SlotEvent) : Pending (log ++ [.save]) ↔ Pending log := by
  rw [Pending, List.filter_append, Pending]
  exact Iff.of_eq (congrArg (fun l => List.getLast? l = _) (List.append_nil _))

theorem pending_concat_change (log : List SlotEvent) : Pending (log ++ [.change]) := by
  rw [Pending, List.filter_append]
  exact List.getLast?_concat

theorem not_pending_concat_restore (log : List SlotEvent) : ¬ Pending (log ++ [.restore]) := by
  have hlast : ((log ++ [SlotEvent.restore]).filter (· ≠ .save)).getLast? = some .restore := by
    rw [List.filter_append]
    exact List.getLast?_concat
  rw [Pending, hlast]
  simp

theorem cleanSaves_nil : CleanSaves [] := by
  intro before h
  simp at h

theorem cleanSaves_concat {log : List SlotEvent} {e : SlotEvent} :
    CleanSaves (log ++ [e]) ↔ CleanSaves log ∧ (e = .save → ¬ Pending log) := by
  constructor
  · intro h
    refine ⟨fun before hpre => h before (hpre.trans (List.prefix_append _ _)), ?_⟩
    rintro rfl
    exact h log (List.prefix_refl _)
  · rintro ⟨hlog, hlast⟩ before hpre
    rcases List.prefix_concat_iff.mp hpre with heq | hpre
    · obtain ⟨rfl, he⟩ := List.append_inj' heq rfl
      exact hlast (List.head_eq_of_cons_eq he).symm
    · exact hlog before hpre

/-- As long as the saves are clean, the slot has the first value, and only a pending change keeps
it from being in force. -/
theorem run_of_cleanSaves (a b slot : α) {rest : List SlotEvent} (h : CleanSaves (.save :: rest)) :
    run b (a, slot) (.save :: rest) = (if Pending (.save :: rest) then b else a, a) := by
  induction rest using List.reverseRecOn with
  | nil => rfl
  | append_singleton rest e ih =>
    rw [← List.cons_append] at h ⊢
    obtain ⟨hrest, hlast⟩ := cleanSaves_concat.mp h
    rw [run_concat, ih hrest]
    cases e with
    | save =>
      have hno := hlast rfl
      rw [if_neg hno, if_neg (mt (pending_concat_save _).mp hno)]
      rfl
    | change =>
      rw [if_pos (pending_concat_change _)]
      rfl
    | restore =>
      rw [if_neg (not_pending_concat_restore _)]
      rfl

/-- After a save under a pending change there is only the changed value. -/
theorem run_of_not_cleanSaves (a b slot : α) {rest : List SlotEvent}
    (h : ¬ CleanSaves (.save :: rest)) :
    run b (a, slot) (.save :: rest) = (b, b) := by
  induction rest using List.reverseRecOn with
  | nil =>
    have hfirst : CleanSaves ([] ++ [.save]) :=
      cleanSaves_concat.mpr ⟨cleanSaves_nil, fun _ hpending => by cases hpending⟩
    exact absurd hfirst h
  | append_singleton rest e ih =>
    rw [← List.cons_append] at h ⊢
    rw [run_concat]
    by_cases hrest : CleanSaves (.save :: rest)
    · have hlast : e = .save ∧ Pending (.save :: rest) := by
        by_contra hno
        exact h (cleanSaves_concat.mpr ⟨hrest, fun he hpending => hno ⟨he, hpending⟩⟩)
      obtain ⟨rfl, hpending⟩ := hlast
      rw [run_of_cleanSaves a b slot hrest, if_pos hpending]
      rfl
    · rw [ih hrest]
      cases e <;> rfl

/-- The slot has one of two values. -/
theorem snd_run_eq (a b slot : α) (rest : List SlotEvent) :
    (run b (a, slot) (.save :: rest)).2 = a ∨ (run b (a, slot) (.save :: rest)).2 = b := by
  by_cases h : CleanSaves (.save :: rest)
  · rw [run_of_cleanSaves a b slot h]
    exact .inl rfl
  · rw [run_of_not_cleanSaves a b slot h]
    exact .inr rfl

/-- **When nothing is pending, the first value is back if and only if no save was made under a
pending change**, or the change is none. -/
theorem fst_run_eq_iff (a b slot : α) {log : List SlotEvent}
    (hlog : log = [] ∨ ∃ rest, log = .save :: rest) (h : ¬ Pending log) :
    (run b (a, slot) log).1 = a ↔ b = a ∨ CleanSaves log := by
  rcases hlog with rfl | ⟨rest, rfl⟩
  · exact iff_of_true rfl (.inr cleanSaves_nil)
  · by_cases hclean : CleanSaves (.save :: rest)
    · rw [run_of_cleanSaves a b slot hclean, if_neg h]
      exact iff_of_true rfl (.inr hclean)
    · rw [run_of_not_cleanSaves a b slot hclean, or_iff_left hclean]

end SavedSlot
