import Mathlib.Data.List.Basic
import Mathlib.Data.List.Perm.Basic

/-!
# Handles

Handles that are opened, used and closed. What a program does with them is a list of events. It is
right if a handle is opened only while it is not open, and used and closed only while it is.

A handle may be opened again when it has been closed.

## Main results

* `after_append` — what is open, one list of events after another
* `count_opened` — a handle is opened as often as it is closed, but for those left open
* `nodup_after` — no handle is open twice
-/

namespace Handles

variable {η : Type} [DecidableEq η]

/-- What is done with a handle. -/
inductive HandleEvent (η : Type) where
  | opened (h : η)
  | used (h : η)
  | closed (h : η)
  deriving DecidableEq

/-- The handles that are open after an event; there are none if it is not allowed. -/
def next (live : List η) : HandleEvent η → Option (List η)
  | .opened h => if h ∈ live then none else some (h :: live)
  | .used h => if h ∈ live then some live else none
  | .closed h => if h ∈ live then some (live.erase h) else none

/-- After some events. -/
def after (live : List η) : List (HandleEvent η) → Option (List η)
  | [] => some live
  | e :: log => (next live e).bind (after · log)

@[simp] theorem after_nil (live : List η) : after live [] = some live := rfl

theorem after_append (live : List η) (log log' : List (HandleEvent η)) :
    after live (log ++ log') = (after live log).bind (after · log') := by
  induction log generalizing live with
  | nil => rfl
  | cons e log ih =>
    rw [List.cons_append, after, after, Option.bind_assoc]
    exact Option.bind_congr fun live' _ => ih live'

theorem after_append_of_eq {live live' : List η} {log : List (HandleEvent η)}
    (h : after live log = some live') (log' : List (HandleEvent η)) :
    after live (log ++ log') = after live' log' := by
  rw [after_append, h]
  rfl

/-- A handle is opened as often as it is closed, but for those that were open already, and those
that still are. -/
theorem count_opened {live live' : List η} {log : List (HandleEvent η)}
    (h : after live log = some live') (n : η) :
    log.count (.opened n) + live.count n = log.count (.closed n) + live'.count n := by
  induction log generalizing live with
  | nil =>
    cases h
    rfl
  | cons e log ih =>
    obtain ⟨live₁, hnext, hrest⟩ := Option.bind_eq_some_iff.mp h
    have hcount := ih hrest
    cases e with
    | opened m =>
      rw [next] at hnext
      split at hnext
      case isTrue => cases hnext
      case isFalse =>
        cases hnext
        by_cases hmn : m = n
        · subst hmn
          rw [List.count_cons_self] at hcount ⊢
          rw [List.count_cons_of_ne (by simp)]
          omega
        · rw [List.count_cons_of_ne hmn] at hcount
          rwa [List.count_cons_of_ne (by simpa using hmn), List.count_cons_of_ne (by simp)]
    | used m =>
      rw [next] at hnext
      split at hnext
      case isTrue =>
        cases hnext
        rwa [List.count_cons_of_ne (by simp), List.count_cons_of_ne (by simp)]
      case isFalse => cases hnext
    | closed m =>
      rw [next] at hnext
      split at hnext
      case isTrue hm =>
        cases hnext
        rw [List.count_cons_of_ne (by simp), List.count_cons]
        by_cases hmn : m = n
        · subst hmn
          have hpos := List.count_pos_iff.mpr hm
          rw [List.count_erase_self] at hcount
          simp only [beq_self_eq_true, if_true]
          omega
        · rw [List.count_erase_of_ne (Ne.symm hmn)] at hcount
          simp only [beq_iff_eq, HandleEvent.closed.injEq, hmn, if_false]
          omega
      case isFalse => cases hnext

/-- If nothing was open before, what was opened more often than closed is open. -/
theorem exists_left_open {live : List η} {log : List (HandleEvent η)} (h : after [] log = some live)
    (n : η) : ∃ k, log.count (.opened n) = log.count (.closed n) + k ∧ (0 < k ↔ n ∈ live) :=
  ⟨live.count n, by simpa using count_opened h n, List.count_pos_iff⟩

/-- No handle is open twice. -/
theorem nodup_after {live live' : List η} {log : List (HandleEvent η)}
    (h : after live log = some live') (hlive : live.Nodup) : live'.Nodup := by
  induction log generalizing live with
  | nil =>
    cases h
    exact hlive
  | cons e log ih =>
    obtain ⟨live₁, hnext, hrest⟩ := Option.bind_eq_some_iff.mp h
    refine ih hrest ?_
    cases e with
    | opened m =>
      rw [next] at hnext
      split at hnext
      case isTrue => cases hnext
      case isFalse hm =>
        cases hnext
        exact List.nodup_cons.mpr ⟨hm, hlive⟩
    | used m =>
      rw [next] at hnext
      split at hnext
      case isTrue =>
        cases hnext
        exact hlive
      case isFalse => cases hnext
    | closed m =>
      rw [next] at hnext
      split at hnext
      case isTrue =>
        cases hnext
        exact hlive.erase m
      case isFalse => cases hnext

/-- What is open when a handle has been closed. -/
theorem mem_erase_iff {live : List η} (hlive : live.Nodup) {m n : η} :
    n ∈ live.erase m ↔ n ≠ m ∧ n ∈ live := hlive.mem_erase_iff

end Handles
