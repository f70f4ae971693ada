import AhungryJanet.Pobox.Linear
import AhungryJanet.Pobox.Lock

/-!
# Waiting for the lock

The lock is not re-entrant, and `cupdate` keeps it while its callback runs. A callback that calls
the store therefore waits for a call that waits for the callback. Nothing in the program looks for
this: there is no owner in a `pthread_spinlock_t`.

Programs whose callbacks do not call the store, and whose calls name keys that have been made, never
come to that: the thread that has the lock can always go on, as long as the NULs behind the copies
of keys and values are stored where there is room.

## Main results

* `Thread.enabled` — only a thread that waits for a taken lock is held up
* `waits_only_nested` — calls on the map do not deadlock; a call from inside a callback does
-/

namespace AhungryJanet

open Interleaving

/-- The thread waits for the lock, or is about to take it. -/
def Thread.Waiting (t : Thread) : Prop :=
  match t.control with
  | .get _ .lock | .update _ .lock | .make _ .lock => True
  | _ => False

/-! The ways a step can go are steps. -/

section

variable (t : Thread) (sh : Shared) (fr : Frame) (n : ℕ) (o : Outcome) (v : JValue) (c : Control)

@[simp] theorem goto_ne_none : goto t sh c ≠ none := nofun

@[simp] theorem leave_ne_none : leave t sh fr o ≠ none := nofun

@[simp] theorem leaveLocked_ne_none : leaveLocked t sh fr n o ≠ none := nofun

@[simp] theorem unlockAndLeave_ne_none : unlockAndLeave t sh fr n v ≠ none := nofun

@[simp] theorem crash_ne_none : crash t sh ≠ none := nofun

end

/-- **Only a thread that waits for a taken lock is held up.** -/
theorem Thread.enabled {m : Malloc} {t : Thread} {sh : Shared} (hcrash : sh.crashed = false)
    (hcall : t.Calling) (hwait : t.Waiting → sh.lock = none) : threadStep m t sh ≠ none := by
  obtain ⟨control, suspended⟩ := t
  simp only [threadStep, hcrash, Bool.false_eq_true, if_false]
  cases control with
  | janet p =>
    cases suspended with
    | nil =>
      rcases hcall with h | h
      · exact absurd rfl h
      · exact absurd rfl (h p)
    | cons u rest => cases p <;> simp [janetStep]
  | get fr pc =>
    cases pc with
    | lock => simp [getStep, acquire, hwait trivial]
    | unlock => simp [getStep]
    | _ =>
      simp only [getStep]
      split <;> simp
  | update fr pc =>
    cases pc with
    | lock => simp [updateStep, acquire, hwait trivial]
    | call => simp [updateStep]
    | unlock => simp [updateStep]
    | _ =>
      simp only [updateStep]
      split <;> simp
  | make fr pc =>
    cases pc with
    | lock => simp [makeStep, acquire, hwait trivial]
    | unlock => simp [makeStep]
    | _ =>
      simp only [makeStep]
      split <;> simp

/-- A thread that waits for a taken lock has no step. -/
theorem Thread.Waiting.threadStep_eq_none {m : Malloc} {t : Thread} (h : t.Waiting) {sh : Shared}
    {n : ℕ} (hlock : sh.lock = some n) : threadStep m t sh = none := by
  obtain ⟨control, suspended⟩ := t
  unfold threadStep
  split
  · rfl
  · cases control with
    | janet p => cases h
    | get fr pc =>
      cases pc with
      | lock => simp [getStep, acquire, hlock]
      | _ => cases h
    | update fr pc =>
      cases pc with
      | lock => simp [updateStep, acquire, hlock]
      | _ => cases h
    | make fr pc =>
      cases pc with
      | lock => simp [makeStep, acquire, hlock]
      | _ => cases h

/-! ### Calls on the map -/

section

variable {m : Malloc} {K : Bytes → Prop} {m₀ : BoxMap} {ops : List MapCall} {t : Thread}
  {sh : Shared}

/-- A call on the map never waits inside a callback. -/
theorem Good.tickets_of_waiting {office : Office} (h : Good K m₀ ops office t) (hwait : t.Waiting) :
    t.tickets = [] := by
  cases h with
  | getLock => rfl
  | updateLock => rfl
  | makeLock => rfl
  | _ => cases hwait

/-- Steps of calls on the map with keys that have been made are clean. -/
theorem Good.clean (hwf : WellFormed sh.office) (hpresent : Present K sh.office)
    (h : Good K m₀ ops sh.office t) : Clean m t sh := by
  cases h with
  | @janet p hp =>
    cases p with
    | error => rfl
    | _ => trivial
  | getKey hfr => exact ⟨_, hfr.get_args.2⟩
  | @getLookup _ k _ hfr =>
    intro hget
    by_cases hroom : m.Room k
    · rcases tableGet_spec hwf hroom with ⟨a, node, hget', -⟩ | ⟨-, hnone⟩
      · rw [hget] at hget'
        cases hget'
      · exact hpresent k hfr.key hnone
    · rw [tableGet_of_not_room hroom] at hget
      cases hget
  | updateFixarity hfr => exact hfr.update_args.1
  | updateFunction hfr =>
    obtain ⟨-, -, f, hf, -⟩ := hfr.update_args
    exact ⟨f, hf⟩
  | updateKey hfr => exact ⟨_, hfr.update_args.2.1⟩
  | makeKey hfr => exact ⟨_, hfr.make_args.2.1⟩
  | makeValue hfr => exact ⟨_, hfr.make_args.2.2⟩
  | _ => trivial

/-- With room, they are defined. -/
theorem Good.defined (hpresent : Present K sh.office) (h : Good K m₀ ops sh.office t)
    (hroom : hasRoom m t sh = true) : defined m t sh = true := by
  rw [AhungryJanet.defined, hroom, Bool.true_and]
  cases h with
  | @updateLookup _ k _ _ _ hfr => exact Option.isSome_iff_ne_none.mpr (hpresent k hfr.key)
  | _ => rfl

end

section

variable {m : Malloc} {ι : Type} [DecidableEq ι] {K : Bytes → Prop} {m₀ : BoxMap}
  {progs : ι → Prog}

/-- Every key has been made, nothing has crashed, and the lock is held by a call in progress. -/
structure Lively (K : Bytes → Prop) (s : PoboxState ι) : Prop where
  present : Present K s.shared.office
  alive : s.shared.crashed = false
  accounted : Accounted Thread.tickets Shared.lock s

theorem Lively.set (hK : ∀ k, K k → k ≠ []) {ops : List MapCall} {done : ι → List ℕ}
    {s : PoboxState ι} (h : Lively K s) (hagree : Agrees K m₀ progs ops done s)
    (hex : Exclusive Thread.tickets Shared.lock s) (i : ι) {t : Thread} {sh : Shared}
    (hroom : hasRoom m (s.threads i) s.shared = true)
    (hstep : threadStep m (s.threads i) s.shared = some (t, sh)) : Lively K (s.set i t sh) := by
  have hkind := threadStep_kind hstep
  have hclean := (hagree.good i).clean (m := m) hagree.wf h.present
  have haccounted := h.accounted.set i hkind.lockStep fun n hn => hkind.lock_eq_none hclean hn
  have halive : ∀ {c : Bool},
      (c = if defined m (s.threads i) s.shared then s.shared.crashed else true) → c = false := by
    intro c hc
    rw [hc, if_pos ((hagree.good i).defined h.present hroom), h.alive]
  have hflat := (hagree.good i).step hK hagree.wf hagree.means.length_eq
    (fun hlock => hagree.settled (hex.holds_eq_nil hlock)) hstep
  cases hflat with
  | internal _ _ hoffice _ _ hcrash =>
    exact ⟨by rw [State.set_shared, hoffice]; exact h.present, halive hcrash, haccounted⟩
  | acquire _ _ _ _ _ _ _ hoffice _ _ hcrash =>
    exact ⟨by rw [State.set_shared, hoffice]; exact h.present, halive hcrash, haccounted⟩
  | store _ _ _ _ hpresent _ _ hcrash =>
    exact ⟨hpresent h.present, halive hcrash, haccounted⟩
  | finish _ _ _ _ _ hoffice _ _ hcrash =>
    exact ⟨by rw [State.set_shared, hoffice]; exact h.present, halive hcrash, haccounted⟩

/-- With keys that have been made, every state reached with room is lively. -/
theorem lively (hK : ∀ k, K k → k ≠ []) {office : Office} (hwf : WellFormed office)
    (hpresent : Present K office) (hprogs : ∀ i, Flat K (progs i)) {s : PoboxState ι}
    (hrun : Reaches (restrict (threadStep m) (hasRoom m)) (initial progs office) s) :
    Lively K s := by
  induction hrun with
  | refl => exact ⟨hpresent, rfl, fun n hn => by cases hn⟩
  | tail hrun hlast ih =>
    have hrun' := Reaches.of_restrict hrun
    obtain ⟨ops, done, hops⟩ := exists_agrees hK hwf hprogs hrun'
    obtain ⟨i, hi⟩ := hlast
    obtain ⟨hroom, hstep⟩ := restrict_eq_some_iff.mp hi
    exact ih.set hK hops (exclusive hrun') i hroom hstep

/-- **Who waits for the lock.** Calls on the map with keys that have been made never wait for a lock
that their own thread holds, and while any is in progress some thread can go on, if there was room
so far. In any program, a call made from inside a callback that comes to the lock waits for good: no
run lets its thread take another step. -/
theorem waits_only_nested {office : Office} (hwf : WellFormed office) {s : PoboxState ι}
    (hrun : Reaches (threadStep m) (initial progs office) s) :
    ((∀ i, Flat (fun k => k ≠ [] ∧ contents office k ≠ none) (progs i)) →
      (∀ i, (s.threads i).Waiting → (s.threads i).tickets = []) ∧
      (Reaches (restrict (threadStep m) (hasRoom m)) (initial progs office) s →
        (∃ i, (s.threads i).Calling) → ∃ j, threadStep m (s.threads j) s.shared ≠ none)) ∧
    ∀ i, (s.threads i).Waiting → (s.threads i).suspended ≠ [] →
      ∀ s', Reaches (threadStep m) s s' →
        s'.threads i = s.threads i ∧ threadStep m (s'.threads i) s'.shared = none := by
  refine ⟨fun hprogs => ?_, fun i hwait hsuspended s' hrun' => ?_⟩
  · have hK : ∀ k, k ≠ [] ∧ contents office k ≠ none → k ≠ [] := fun _ h => h.1
    obtain ⟨ops, done, hops⟩ := exists_agrees hK hwf hprogs hrun
    refine ⟨fun i => (hops.good i).tickets_of_waiting, ?_⟩
    rintro hroomy ⟨i, hi⟩
    have hlively := lively hK hwf (fun _ h => h.2) hprogs hroomy
    by_cases hblocked : (s.threads i).Waiting → s.shared.lock = none
    · exact ⟨i, Thread.enabled hlively.alive hi hblocked⟩
    · -- the lock is taken, so the thread that has it is in a call, and not waiting
      rw [Classical.not_imp] at hblocked
      obtain ⟨n, hn⟩ := Option.ne_none_iff_exists'.mp hblocked.2
      obtain ⟨j, hj⟩ := hlively.accounted n hn
      have hne := List.ne_nil_of_mem hj
      refine ⟨j, Thread.enabled hlively.alive ?_ fun hwait =>
        absurd ((hops.good j).tickets_of_waiting hwait) hne⟩
      by_contra hidle
      exact hne (Thread.tickets_of_not_calling hidle)
  · obtain ⟨u, rest, hu⟩ := List.exists_cons_of_ne_nil hsuspended
    have hmem : u.ticket ∈ (s.threads i).tickets := by simp [Thread.tickets, hu]
    obtain ⟨hthread, hlock⟩ := (exclusive hrun).stuck
      (fun _ _ _ _ h => (threadStep_kind h).lockStep) hmem
      (fun _ hlock => hwait.threadStep_eq_none hlock) hrun'
    rw [hthread]
    exact ⟨rfl, hwait.threadStep_eq_none hlock⟩

theorem waits_only_nested_appendOnce :
    ∃ s : PoboxState Bool, (∃ i, (s.threads i).Waiting) ∧
      ∃ j, threadStep .glibc (s.threads j) s.shared ≠ none := by
  have hrun : ∃ s : PoboxState Bool,
      exec (restrict (threadStep .glibc) (hasRoom .glibc)) [true, false, true]
        (initial (fun _ : Bool => appendOnce (ascii "1")) oneBox) = some s ∧
      (s.threads false).Waiting ∧ (s.threads false).Calling :=
    ⟨_, rfl, trivial, .inr nofun⟩
  obtain ⟨s, hs, hwait, hcall⟩ := hrun
  have hflat : Flat (fun k => k ≠ [] ∧ contents oneBox k ≠ none) (appendOnce (ascii "1")) :=
    .call (.update (ascii "k") (· ++ ascii "1")) (.update rfl rfl fun _ => rfl)
      (show ascii "k" ≠ [] ∧ contents oneBox (ascii "k") ≠ none by decide) fun _ => .done .nil
  have hroomy := reaches_of_exec hs
  exact ⟨s, ⟨false, hwait⟩, ((waits_only_nested wellFormed_oneBox hroomy.of_restrict).1
    fun _ => hflat).2 hroomy ⟨false, hcall⟩⟩

/-- `(cupdate k (fn [old] (cget k)))`. -/
def getInside : Prog :=
  .call .cupdate 2
    (fun i => if i = 0 then .buffer (ascii "k") else .function fun _ =>
      .call .cget 1 (fun _ => .buffer (ascii "k")) fun _ => .done (.buffer (ascii "w")))
    fun _ => .done .nil

/-- A callback that reads the box it updates waits for its own thread, and nothing else can go
on. -/
theorem self_wait_getInside :
    ∃ s : PoboxState Unit, Reaches (threadStep .glibc) (initial (fun _ => getInside) oneBox) s ∧
      (∃ i n, (s.threads i).Waiting ∧ s.shared.lock = some n ∧ n ∈ (s.threads i).tickets) ∧
      (∃ i, (s.threads i).Calling) ∧ s.shared.crashed = false ∧
      ∀ i, threadStep .glibc (s.threads i) s.shared = none := by
  have hrun : ∃ s : PoboxState Unit, exec (threadStep .glibc) (List.replicate 10 ())
      (initial (fun _ : Unit => getInside) oneBox) = some s ∧ (s.threads ()).Waiting ∧
      s.shared.lock = some 0 ∧ (s.threads ()).tickets = [0] ∧ s.shared.crashed = false ∧
      threadStep .glibc (s.threads ()) s.shared = none :=
    ⟨_, rfl, trivial, rfl, rfl, rfl, rfl⟩
  obtain ⟨s, hs, hwait, hlock, htickets, hcrashed, hstep⟩ := hrun
  refine ⟨s, reaches_of_exec hs, ⟨(), 0, hwait, hlock, by simp [htickets]⟩, ⟨(), ?_⟩, hcrashed,
    fun _ => hstep⟩
  by_contra hidle
  rw [Thread.tickets_of_not_calling hidle] at htickets
  cases htickets

end

end AhungryJanet
