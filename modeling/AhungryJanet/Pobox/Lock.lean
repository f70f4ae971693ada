import AhungryJanet.Pobox.System

/-!
# Releasing the lock

Which ways out of the three functions release the lock?

A call that returns through `pthread_spin_unlock` does, and so does, trivially, one that panics
before it locks. Every other way out leaves the lock taken, by nobody: a panic of a check behind
the lock, the return of `cget` for a key that was never made, and an error of a callback, which
unwinds through `cupdate`. `Clean` says of a step that it is not one of these.

## Main results

* `lockReleased_of_cleanRun` — in a run of clean steps, only a call in progress holds the lock
* `lockReleased_step_iff` — the first step that is not clean ends that for good
-/

namespace AhungryJanet

open Interleaving

/-- A call of the store is in progress in the thread. -/
def Thread.Calling (t : Thread) : Prop := t.suspended ≠ [] ∨ ∀ p, t.control ≠ .janet p

theorem Thread.tickets_of_not_calling {t : Thread} (h : ¬ t.Calling) : t.tickets = [] := by
  simp only [Thread.Calling, not_or, not_forall, not_not] at h
  obtain ⟨hs, p, hp⟩ := h
  simp [Thread.tickets, hs, hp]

/-- No call that has ended holds the lock. -/
structure LockReleased {ι : Type} (s : PoboxState ι) : Prop where
  /-- The call that holds the lock is in progress. -/
  held_by_call : ∀ n, s.shared.lock = some n → ∃ i, n ∈ (s.threads i).tickets
  /-- With no call in progress, the lock is free. -/
  free_when_idle : (∀ i, ¬ (s.threads i).Calling) → s.shared.lock = none

theorem lockReleased_iff {ι : Type} (s : PoboxState ι) :
    LockReleased s ↔ Accounted Thread.tickets Shared.lock s := by
  constructor
  · exact fun h => h.held_by_call
  · refine fun h => ⟨h, fun hidle => ?_⟩
    cases hlock : s.shared.lock with
    | none => rfl
    | some n =>
      obtain ⟨i, hi⟩ := h n hlock
      rw [Thread.tickets_of_not_calling (hidle i)] at hi
      cases hi

section

variable {m : Malloc} {ι : Type} [DecidableEq ι]

/-- A clean step of a thread. -/
inductive CleanStep (m : Malloc) (s : PoboxState ι) : PoboxState ι → Prop where
  | thread (i : ι) {t : Thread} {sh : Shared} (hclean : Clean m (s.threads i) s.shared)
    (h : threadStep m (s.threads i) s.shared = some (t, sh)) : CleanStep m s (s.set i t sh)

/-- **In a run of clean steps, only a call in progress holds the lock.** -/
theorem lockReleased_of_cleanRun {progs : ι → Prog} {office : Office} {s : PoboxState ι}
    (hrun : Relation.ReflTransGen (CleanStep m) (initial progs office) s) : LockReleased s := by
  rw [lockReleased_iff]
  induction hrun with
  | refl =>
    rintro n hn
    cases hn
  | tail _ hlast ih =>
    obtain ⟨i, hclean, hi⟩ := hlast
    have hkind := threadStep_kind hi
    exact ih.set i hkind.lockStep fun n hn => hkind.lock_eq_none hclean hn

/-- Keys are made and read, and the lock is free again. -/
theorem lockReleased_make :
    ∃ s : PoboxState Unit, s.shared.lock = none ∧ s.shared.returned = [(0, .returned .true)] ∧
      LockReleased s :=
  ⟨_, rfl, rfl, @lockReleased_of_cleanRun .glibc Unit _
    (fun _ => .call .cmake 2 (fun _ => .buffer (ascii "k")) fun _ => .done .nil) ensureOffice _
    (.tail (.tail (.tail (.tail (.tail (.tail (.single (.thread () trivial rfl))
      (.thread () trivial rfl)) (.thread () trivial rfl)) (.thread () ⟨_, rfl⟩ rfl))
      (.thread () ⟨_, rfl⟩ rfl)) (.thread () trivial rfl)) (.thread () trivial rfl))⟩

/-- `(cget k)`, and nothing more. -/
def getOnce : Prog := .call .cget 1 (fun _ => .buffer (ascii "k")) fun _ => .done .nil

/-- Reading a key that was never made returns with the lock taken. -/
theorem not_lockReleased_missing :
    ∃ s : PoboxState Unit, Reaches (threadStep .glibc) (initial (fun _ => getOnce) ensureOffice) s ∧
      s.shared.returned = [(0, .returned .nil)] ∧ (∀ i, ¬ (s.threads i).Calling) ∧
      ¬ LockReleased s := by
  refine ⟨_, .tail (.tail (.tail (.tail (.single (.thread () rfl)) (.thread () rfl))
    (.thread () rfl)) (.thread () rfl)) (.thread () rfl), rfl, fun i => ?_, fun h => ?_⟩
  · rintro (h | h)
    · exact h rfl
    · exact h _ rfl
  · obtain ⟨i, hi⟩ := h.held_by_call 0 rfl
    cases hi

/-- **A step that is not clean ends it**: the call is gone, and the lock is still in its name. -/
theorem lockReleased_step_iff {progs : ι → Prog} {office : Office} {s : PoboxState ι}
    (hrun : Reaches (threadStep m) (initial progs office) s) (hs : LockReleased s) (i : ι)
    {t : Thread} {sh : Shared} (h : threadStep m (s.threads i) s.shared = some (t, sh)) :
    LockReleased (s.set i t sh) ↔ Clean m (s.threads i) s.shared := by
  have hkind := threadStep_kind h
  have hex := exclusive hrun
  constructor
  · intro hrel
    cases hkind with
    | stay hclean => exact hclean
    | acquire hclean => exact hclean
    | release hclean => exact hclean
    | abandon hdirty n hlock htickets =>
      have hown : s.shared.lock = some n := hex.owned i n (by simp [htickets])
      obtain ⟨j, hj⟩ := hrel.held_by_call n (hlock.trans hown)
      by_cases hji : j = i
      · subst hji
        rw [State.set_threads_self, hex.eq_singleton htickets] at hj
        cases hj
      · rw [State.set_threads_of_ne s hji] at hj
        exact absurd (hex.unique j i (List.ne_nil_of_mem hj) (by simp [htickets])) hji
  · intro hclean
    rw [lockReleased_iff] at hs ⊢
    exact hs.set i hkind.lockStep fun n hn => hkind.lock_eq_none hclean hn

end

end AhungryJanet
