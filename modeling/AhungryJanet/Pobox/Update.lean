import AhungryJanet.Pobox.System

/-!
# One call of `cupdate`

What a call of `cupdate` does from any reachable store, with any arguments and any callback, if its
thread is left to itself. Behind the lock no other thread can come in between.

There are two things `update_wrapped` does not check: whether `get` found a node, and whether what
the callback returned is a buffer. And it does not copy the key: `table_put` reads the key buffer
when the callback has returned, and stores under what the callback has left there.

## Main results

* `endsWell_iff` — when a call is all or nothing
* `reachable_wellFormed` — the store is in order in every reachable state
* `office_eq_of_other` — while a call has the lock, nobody else changes the store
-/

namespace AhungryJanet

open Interleaving

/-! ### Callbacks -/

/-- How a callback ends that runs while its thread holds the lock. -/
inductive CallbackEnd where
  /-- With a value, and with `kb` in the key buffer. -/
  | value (v : JValue) (kb : Bytes)
  | raised
  /-- It has come to the lock, and waits for itself. -/
  | waits
  deriving DecidableEq

/-- Behind the lock, a callback can only make calls that fail before they lock. The key buffer holds
`kb` when it starts. -/
def Prog.behindLock : Prog → (kb : Bytes) → CallbackEnd
  | .done v, kb => .value v kb
  | .error, _ => .raised
  | .call op argc _ k, kb =>
    match op with
    | .cget => if argc = 1 then .waits else (k .raised).behindLock kb
    | .cmake => if argc = 2 then .waits else (k .raised).behindLock kb
    | .cupdate => .waits
  | .setKey kb p, _ => p.behindLock kb

/-! ### All or nothing -/

/-- The boxes that were made. The first node, under the empty key, is none. -/
def boxes (office : Office) (k : Bytes) : Option Bytes := if k = [] then none else contents office k

/-- The call is given a key that is present and a callback that returns the buffer `vb`. -/
def Succeeds (office : Office) (argc : ℕ) (argv : ℕ → Arg) (kb vb : Bytes) : Prop :=
  argc = 2 ∧ argv 0 = .buffer kb ∧ ∃ f v kb', argv 1 = .function f ∧ boxes office kb = some v ∧
    (f v).behindLock kb = .value (.buffer vb) kb'

/-- The call returns true and has changed the value of its key only, or it has raised an error and
changed nothing. -/
def AllOrNothing (before : Office) (argc : ℕ) (argv : ℕ → Arg) (o : Outcome) (after : Office) :
    Prop :=
  (∀ kb vb, Succeeds before argc argv kb vb →
    o = .returned .true ∧ boxes after = Function.update (boxes before) kb (some vb)) ∧
  ((∀ kb vb, ¬ Succeeds before argc argv kb vb) → o = .raised ∧ after = before)

/-- The call has ended, as it should: its thread is back where it called, and goes on with the
outcome. -/
def Ended (before : Shared) (fr : Frame) (suspended : List Suspended) (t : Thread) (sh : Shared) :
    Prop :=
  ∃ o, t = ⟨.janet (fr.k o), suspended⟩ ∧
    sh.returned = before.returned ++ [(before.calls.length, o)] ∧
    AllOrNothing before.office fr.argc fr.argv o sh.office

/-- What a thread does until a call returns. -/
def untilReturn (m : Malloc) (before : Shared) : Thread → Shared → Option (Thread × Shared) :=
  restrict (threadStep m) fun _ sh => sh.returned.length = before.returned.length

/-- A call of `cupdate` that its thread is about to make ends as it should. -/
def EndsWell (m : Malloc) (sh : Shared) (fr : Frame) (suspended : List Suspended) : Prop :=
  Leads (untilReturn m sh) (Ended sh fr suspended)
    ⟨.janet (.call .cupdate fr.argc fr.argv fr.k), suspended⟩ sh

/-- The callback returns the buffer `vb`, there is room for it and for what is in the key buffer
then, and that is the key; or else both keys have the value `vb` already. -/
def Returned (m : Malloc) (office : Office) (kb v : Bytes) (e : CallbackEnd) : Prop :=
  ∃ vb kb', e = .value (.buffer vb) kb' ∧ kb' ≠ [] ∧ (m.Room kb' ∧ m.Room vb) ∧
    (kb' = kb ∨ v = vb ∧ contents office kb' = some vb)

/-- The lock is free; and if the arguments have the right types, then there is room for the key and
a node for it, and the callback raises an error, or returns a buffer for a key that is not empty. -/
def Careful (m : Malloc) (sh : Shared) (argc : ℕ) (argv : ℕ → Arg) : Prop :=
  sh.lock = none ∧ (argc = 2 → ∀ f kb, argv 1 = .function f → argv 0 = .buffer kb →
    m.Room kb ∧ ∃ v, contents sh.office kb = some v ∧ ((f v).behindLock kb = .raised ∨
      kb ≠ [] ∧ Returned m sh.office kb v ((f v).behindLock kb)))

/-! ### Step by step -/

section

variable {m : Malloc} {before : Shared} {fr : Frame} {susp : List Suspended} {t : Thread}
  {sh : Shared}

theorem untilReturn_of_eq (h : sh.returned = before.returned) :
    untilReturn m before t sh = threadStep m t sh := by
  simp [untilReturn, restrict, h]

/-- There it stops. -/
theorem untilReturn_of_returned {e : ℕ × Outcome} (h : sh.returned = before.returned ++ [e]) :
    untilReturn m before t sh = none := by
  simp [untilReturn, restrict, h]

theorem not_ended_update (fr' : Frame) (pc : UpdateAt) (susp' : List Suspended) :
    ¬ Ended before fr susp ⟨.update fr' pc, susp'⟩ sh := by
  rintro ⟨o, h, -⟩
  cases h

theorem not_ended_inside {c : Control} {u : Suspended} :
    ¬ Ended before fr susp ⟨c, u :: susp⟩ sh := by
  rintro ⟨o, h, -⟩
  have hlen := congrArg (fun t => t.suspended.length) h
  simp at hlen

/-- A callback behind the lock. -/
theorem leads_callback (hcrash : sh.crashed = false) (hlock : sh.lock.isSome)
    (hreturned : sh.returned = before.returned) : ∀ (p : Prog) (u : Suspended),
    Leads (untilReturn m before) (Ended before fr susp) ⟨.janet p, u :: susp⟩ sh ↔
      match p.behindLock u.kb with
      | .value v kb => Leads (untilReturn m before) (Ended before fr susp)
          ⟨.update u.fr (.unwrap u.ticket kb v), susp⟩ sh
      | .raised => Leads (untilReturn m before) (Ended before fr susp)
          ⟨.janet (u.fr.k .raised), susp⟩
          { sh with returned := sh.returned ++ [(u.ticket, .raised)] }
      | .waits => False
  | .done v, u => by
    refine leads_iff_of_step not_ended_inside ?_
    rw [untilReturn_of_eq hreturned]
    simp [threadStep, hcrash, janetStep]
  | .error, u => by
    refine leads_iff_of_step not_ended_inside ?_
    rw [untilReturn_of_eq hreturned]
    simp [threadStep, hcrash, janetStep, leaveLocked]
  | .setKey kb p, u => by
    have hset : untilReturn m before ⟨.janet (.setKey kb p), u :: susp⟩ sh =
        some (⟨.janet p, { u with kb := kb } :: susp⟩, sh) := by
      rw [untilReturn_of_eq hreturned]
      simp [threadStep, hcrash, janetStep]
    rw [leads_iff_of_step not_ended_inside hset]
    exact leads_callback hcrash hlock hreturned p { u with kb := kb }
  | .call op argc argv k, u => by
    have hne : sh.lock ≠ none := Option.isSome_iff_ne_none.mp hlock
    have henter : untilReturn m before ⟨.janet (.call op argc argv k), u :: susp⟩ sh =
        some (⟨enter op ⟨argc, argv, k⟩, u :: susp⟩, sh) := by
      rw [untilReturn_of_eq hreturned]
      simp [threadStep, hcrash, janetStep, goto]
    have hraised := leads_callback hcrash hlock hreturned (k .raised) u
    rw [leads_iff_of_step not_ended_inside henter]
    cases op with
    | cget =>
      rw [Prog.behindLock, enter]
      by_cases hargc : argc = 1
      · have harity : untilReturn m before ⟨.get ⟨argc, argv, k⟩ .fixarity, u :: susp⟩ sh =
            some (⟨.get ⟨argc, argv, k⟩ .lock, u :: susp⟩, sh) := by
          rw [untilReturn_of_eq hreturned]
          simp [threadStep, hcrash, getStep, hargc, goto]
        rw [if_pos hargc, leads_iff_of_step not_ended_inside harity]
        refine iff_false_intro (not_leads_of_stuck not_ended_inside ?_)
        rw [untilReturn_of_eq hreturned]
        simp [threadStep, hcrash, getStep, acquire, hne]
      · have harity : untilReturn m before ⟨.get ⟨argc, argv, k⟩ .fixarity, u :: susp⟩ sh =
            some (⟨.janet (k .raised), u :: susp⟩, sh) := by
          rw [untilReturn_of_eq hreturned]
          simp [threadStep, hcrash, getStep, hargc, leave]
        rw [if_neg hargc, leads_iff_of_step not_ended_inside harity]
        exact hraised
    | cmake =>
      rw [Prog.behindLock, enter]
      by_cases hargc : argc = 2
      · have harity : untilReturn m before ⟨.make ⟨argc, argv, k⟩ .fixarity, u :: susp⟩ sh =
            some (⟨.make ⟨argc, argv, k⟩ .lock, u :: susp⟩, sh) := by
          rw [untilReturn_of_eq hreturned]
          simp [threadStep, hcrash, makeStep, hargc, goto]
        rw [if_pos hargc, leads_iff_of_step not_ended_inside harity]
        refine iff_false_intro (not_leads_of_stuck not_ended_inside ?_)
        rw [untilReturn_of_eq hreturned]
        simp [threadStep, hcrash, makeStep, acquire, hne]
      · have harity : untilReturn m before ⟨.make ⟨argc, argv, k⟩ .fixarity, u :: susp⟩ sh =
            some (⟨.janet (k .raised), u :: susp⟩, sh) := by
          rw [untilReturn_of_eq hreturned]
          simp [threadStep, hcrash, makeStep, hargc, leave]
        rw [if_neg hargc, leads_iff_of_step not_ended_inside harity]
        exact hraised
    | cupdate =>
      refine iff_false_intro (not_leads_of_stuck not_ended_inside ?_)
      rw [untilReturn_of_eq hreturned]
      simp [enter, threadStep, hcrash, updateStep, acquire, hne]

end

/-! ### From the lock to the end -/

section

variable {m : Malloc} {sh : Shared} {fr : Frame} {susp : List Suspended}

/-- A call succeeds for one key and with one buffer. -/
theorem Succeeds.eq {office : Office} {argc : ℕ} {argv : ℕ → Arg} {f : Bytes → Prog}
    {kb kb' v vb : Bytes} (h : Succeeds office argc argv kb' vb) (hf : argv 1 = .function f)
    (hkb : argv 0 = .buffer kb) (hv : contents office kb = some v) :
    kb' = kb ∧ kb ≠ [] ∧ ∃ kb₁, (f v).behindLock kb = .value (.buffer vb) kb₁ := by
  obtain ⟨-, hkb', f', v', kb₁, hf', hv', hres⟩ := h
  rw [hkb] at hkb'
  cases hkb'
  rw [hf] at hf'
  cases hf'
  rw [boxes] at hv'
  split at hv'
  case isTrue => cases hv'
  case isFalse hne =>
    rw [hv] at hv'
    cases hv'
    exact ⟨rfl, hne, kb₁, hres⟩

/-- What the outcome of a call that does not succeed has to be. -/
theorem allOrNothing_raised {office : Office} {argc : ℕ} {argv : ℕ → Arg}
    (h : ∀ kb vb, ¬ Succeeds office argc argv kb vb) :
    AllOrNothing office argc argv .raised office :=
  ⟨fun kb vb hs => absurd hs (h kb vb), fun _ => ⟨rfl, rfl⟩⟩

/-- The shared state when the call has the lock. -/
def Shared.locked (sh : Shared) (fr : Frame) : Shared :=
  { sh with
    lock := some sh.calls.length, calls := sh.calls ++ [⟨.cupdate, fr.argc, fr.argv⟩] }

/-- Leaving behind the lock, by an error. -/
theorem leads_raised (h : ∀ kb vb, ¬ Succeeds sh.office fr.argc fr.argv kb vb) :
    Leads (untilReturn m sh) (Ended sh fr susp) ⟨.janet (fr.k .raised), susp⟩
      { sh.locked fr with returned := sh.returned ++ [(sh.calls.length, .raised)] } :=
  leads_of_holds ⟨.raised, rfl, rfl, allOrNothing_raised h⟩

theorem untilReturn_update (hcrash : sh.crashed = false) (pc : UpdateAt) :
    untilReturn m sh ⟨.update fr pc, susp⟩ (sh.locked fr) =
      updateStep m ⟨.update fr pc, susp⟩ (sh.locked fr) fr pc := by
  have hcrash' : (sh.locked fr).crashed = false := hcrash
  have hreturned : (sh.locked fr).returned = sh.returned := rfl
  rw [untilReturn_of_eq hreturned]
  simp [threadStep, hcrash']

/-- A failed check leaves behind the lock. -/
theorem leads_leaveLocked (hcrash : sh.crashed = false) {pc : UpdateAt}
    (hstep : updateStep m ⟨.update fr pc, susp⟩ (sh.locked fr) fr pc =
      leaveLocked ⟨.update fr pc, susp⟩ (sh.locked fr) fr sh.calls.length .raised)
    (h : ∀ kb vb, ¬ Succeeds sh.office fr.argc fr.argv kb vb) :
    Leads (untilReturn m sh) (Ended sh fr susp) ⟨.update fr pc, susp⟩ (sh.locked fr) := by
  have hleave : untilReturn m sh ⟨.update fr pc, susp⟩ (sh.locked fr) = _ :=
    (untilReturn_update hcrash pc).trans hstep
  exact (leads_iff_of_step (not_ended_update _ _ _) hleave).mpr (leads_raised h)

/-- There is no way on behind undefined behaviour. -/
theorem not_leads_crash (hcrash : sh.crashed = false) {pc : UpdateAt}
    (hstep : updateStep m ⟨.update fr pc, susp⟩ (sh.locked fr) fr pc =
      crash ⟨.update fr pc, susp⟩ (sh.locked fr)) :
    ¬ Leads (untilReturn m sh) (Ended sh fr susp) ⟨.update fr pc, susp⟩ (sh.locked fr) := by
  have hcrashed : untilReturn m sh ⟨.update fr pc, susp⟩ (sh.locked fr) = _ :=
    (untilReturn_update hcrash pc).trans hstep
  rw [leads_iff_of_step (not_ended_update _ _ _) hcrashed]
  exact not_leads_of_stuck (not_ended_update _ _ _) (by simp [untilReturn, restrict, threadStep])

/-- The call comes to the lock. -/
theorem endsWell_iff_lock (hcrash : sh.crashed = false) : EndsWell m sh fr susp ↔
    sh.lock = none ∧ Leads (untilReturn m sh) (Ended sh fr susp)
      ⟨.update fr (.fixarity sh.calls.length), susp⟩ (sh.locked fr) := by
  have hcall : ¬ Ended sh fr susp ⟨.janet (.call .cupdate fr.argc fr.argv fr.k), susp⟩ sh := by
    rintro ⟨o, -, hreturned, -⟩
    simp at hreturned
  have henter : untilReturn m sh ⟨.janet (.call .cupdate fr.argc fr.argv fr.k), susp⟩ sh =
      some (⟨.update fr .lock, susp⟩, sh) := by
    rw [untilReturn_of_eq rfl]
    simp [threadStep, hcrash, janetStep, goto, enter]
  rw [EndsWell, leads_iff_of_step hcall henter]
  by_cases hlock : sh.lock = none
  · have hacquire : untilReturn m sh ⟨.update fr .lock, susp⟩ sh =
        some (⟨.update fr (.fixarity sh.calls.length), susp⟩, sh.locked fr) := by
      rw [untilReturn_of_eq rfl]
      simp [threadStep, hcrash, updateStep, acquire, hlock, goto, Shared.locked]
    rw [leads_iff_of_step (not_ended_update _ _ _) hacquire]
    simp [hlock]
  · have hstuck : untilReturn m sh ⟨.update fr .lock, susp⟩ sh = none := by
      rw [untilReturn_of_eq rfl]
      simp [threadStep, hcrash, updateStep, acquire, hlock]
    exact iff_of_false (not_leads_of_stuck (not_ended_update _ _ _) hstuck) fun h => hlock h.1

/-- The checks of the arguments. -/
theorem leads_checks (hcrash : sh.crashed = false) :
    Leads (untilReturn m sh) (Ended sh fr susp) ⟨.update fr (.fixarity sh.calls.length), susp⟩
      (sh.locked fr) ↔
    (fr.argc = 2 → ∀ f kb, fr.argv 1 = .function f → fr.argv 0 = .buffer kb →
      Leads (untilReturn m sh) (Ended sh fr susp)
        ⟨.update fr (.lookup sh.calls.length f kb), susp⟩ (sh.locked fr)) := by
  by_cases hargc : fr.argc = 2
  · have harity : untilReturn m sh ⟨.update fr (.fixarity sh.calls.length), susp⟩ (sh.locked fr) =
        some (⟨.update fr (.function sh.calls.length), susp⟩, sh.locked fr) := by
      rw [untilReturn_update hcrash]
      simp [updateStep, hargc, goto]
    rw [leads_iff_of_step (not_ended_update _ _ _) harity]
    cases hfun : fr.argv 1 with
    | function f =>
      have hfunction : untilReturn m sh ⟨.update fr (.function sh.calls.length), susp⟩
          (sh.locked fr) = some (⟨.update fr (.key sh.calls.length f), susp⟩, sh.locked fr) := by
        rw [untilReturn_update hcrash]
        simp [updateStep, hfun, goto]
      rw [leads_iff_of_step (not_ended_update _ _ _) hfunction]
      cases hkey : fr.argv 0 with
      | buffer kb =>
        have hbuffer : untilReturn m sh ⟨.update fr (.key sh.calls.length f), susp⟩
            (sh.locked fr) =
            some (⟨.update fr (.lookup sh.calls.length f kb), susp⟩, sh.locked fr) := by
          rw [untilReturn_update hcrash]
          simp [updateStep, hkey, goto]
        rw [leads_iff_of_step (not_ended_update _ _ _) hbuffer]
        simp [hargc]
      | _ =>
        refine iff_of_true (leads_leaveLocked hcrash (by simp [updateStep, hkey]) ?_) ?_
        · rintro kb vb ⟨-, hbuffer, -⟩
          rw [hkey] at hbuffer
          cases hbuffer
        · intro _ f' kb _ hbuffer
          cases hbuffer
    | _ =>
      refine iff_of_true (leads_leaveLocked hcrash (by simp [updateStep, hfun]) ?_) ?_
      · rintro kb vb ⟨-, -, f, v, kb', hfunction, -⟩
        rw [hfun] at hfunction
        cases hfunction
      · intro _ f kb hfunction
        cases hfunction
  · refine iff_of_true (leads_leaveLocked hcrash (by simp [updateStep, hargc]) ?_) fun h =>
      absurd h hargc
    rintro kb vb ⟨h, -⟩
    exact hargc h

/-- The lookup, and the callback with the value it finds. -/
theorem leads_lookup (hcrash : sh.crashed = false) (hwf : WellFormed sh.office) {f : Bytes → Prog}
    {kb : Bytes} :
    Leads (untilReturn m sh) (Ended sh fr susp) ⟨.update fr (.lookup sh.calls.length f kb), susp⟩
      (sh.locked fr) ↔
    m.Room kb ∧ ∃ v, contents sh.office kb = some v ∧
      Leads (untilReturn m sh) (Ended sh fr susp)
        ⟨.janet (f v), ⟨fr, sh.calls.length, kb⟩ :: susp⟩ (sh.locked fr) := by
  have hoffice : (sh.locked fr).office = sh.office := rfl
  by_cases hroom : m.Room kb
  · rw [and_iff_right hroom]
    rcases tableGet_spec hwf hroom with ⟨a, n, hget, hn, hv⟩ | ⟨hget, hv⟩
    · have hlookup : untilReturn m sh ⟨.update fr (.lookup sh.calls.length f kb), susp⟩
          (sh.locked fr) =
          some (⟨.update fr (.copy sh.calls.length f kb a), susp⟩, sh.locked fr) := by
        rw [untilReturn_update hcrash]
        simp [updateStep, hoffice, hget, goto]
      have hcopy : untilReturn m sh ⟨.update fr (.copy sh.calls.length f kb a), susp⟩
          (sh.locked fr) =
          some (⟨.update fr (.call sh.calls.length f kb n.v), susp⟩, sh.locked fr) := by
        rw [untilReturn_update hcrash]
        simp [updateStep, hoffice, hn, goto]
      have hcall : untilReturn m sh ⟨.update fr (.call sh.calls.length f kb n.v), susp⟩
          (sh.locked fr) =
          some (⟨.janet (f n.v), ⟨fr, sh.calls.length, kb⟩ :: susp⟩, sh.locked fr) :=
        untilReturn_update hcrash _
      rw [leads_iff_of_step (not_ended_update _ _ _) hlookup,
        leads_iff_of_step (not_ended_update _ _ _) hcopy,
        leads_iff_of_step (not_ended_update _ _ _) hcall]
      simp [hv]
    · -- `t->v`, where `t` is NULL
      exact iff_of_false (not_leads_crash hcrash (by simp [updateStep, hoffice, hget]))
        (by simp [hv])
  · have hget : tableGet m sh.office kb = none := tableGet_of_not_room hroom sh.office
    exact iff_of_false (not_leads_crash hcrash (by simp [updateStep, hoffice, hget]))
      fun h => hroom h.1

/-- The boxes behind an update. -/
theorem boxes_update {office office' : Office} {kb vb : Bytes} (hkb : kb ≠ [])
    (h : contents office' = Function.update (contents office) kb (some vb)) :
    boxes office' = Function.update (boxes office) kb (some vb) := by
  funext k
  by_cases hk : k = kb
  · subst hk
    rw [Function.update_self, boxes, if_neg hkb, h, Function.update_self]
  · rw [Function.update_of_ne hk, boxes, boxes, h, Function.update_of_ne hk]

/-- Updates of two keys with one value are the same if they are no updates. -/
theorem update_eq_update_iff {κ υ : Type} [DecidableEq κ] {f : κ → υ} {a b : κ} {v : υ} :
    Function.update f a v = Function.update f b v ↔ a = b ∨ f b = v ∧ f a = v := by
  constructor
  · intro h
    by_cases hab : a = b
    · exact .inl hab
    · have ha := congrFun h a
      have hb := congrFun h b
      rw [Function.update_self, Function.update_of_ne hab] at ha
      rw [Function.update_self, Function.update_of_ne (Ne.symm hab)] at hb
      exact .inr ⟨hb, ha.symm⟩
  · rintro (rfl | ⟨rfl, ha⟩)
    · rfl
    · rw [Function.update_eq_self, ← ha, Function.update_eq_self]

/-- When it is right that a call returns that has stored `vb` under what is left in the key
buffer. -/
theorem allOrNothing_returned_iff {office office' : Office} {argc : ℕ} {argv : ℕ → Arg}
    {f : Bytes → Prog} {kb kb' v vb : Bytes} (hargc : argc = 2) (hf : argv 1 = .function f)
    (hkb : argv 0 = .buffer kb) (hv : contents office kb = some v)
    (hres : (f v).behindLock kb = .value (.buffer vb) kb') (hkb' : kb' ≠ [])
    (hcont : contents office' = Function.update (contents office) kb' (some vb)) :
    AllOrNothing office argc argv (.returned .true) office' ↔
      kb ≠ [] ∧ (kb' = kb ∨ v = vb ∧ contents office kb' = some vb) := by
  have hafter := boxes_update hkb' hcont
  by_cases hne : kb = []
  · refine iff_of_false (fun h => ?_) fun h => h.1 hne
    have hno := (h.2 fun kb₁ vb₁ hs => (hs.eq hf hkb hv).2.1 hne).1
    cases hno
  · have hsucceeds : Succeeds office argc argv kb vb :=
      ⟨hargc, hkb, f, v, kb', hf, by rw [boxes, if_neg hne, hv], hres⟩
    have hboxes : boxes office kb = some v := by rw [boxes, if_neg hne, hv]
    have hboxes' : boxes office kb' = contents office kb' := if_neg hkb'
    have hiff : boxes office' = Function.update (boxes office) kb (some vb) ↔
        kb' = kb ∨ v = vb ∧ contents office kb' = some vb := by
      rw [hafter, update_eq_update_iff, hboxes, hboxes', Option.some.injEq]
    rw [and_iff_right hne, ← hiff]
    constructor
    · exact fun h => (h.1 kb vb hsucceeds).2
    · refine fun h => ⟨fun kb₁ vb₁ hs => ?_, fun hnone => absurd hsucceeds (hnone kb vb)⟩
      obtain ⟨rfl, -, kb₂, hres'⟩ := hs.eq hf hkb hv
      rw [hres] at hres'
      cases hres'
      exact ⟨rfl, h⟩

/-- The callback has returned: only a buffer can be unwrapped, and only the value of a box that was
made can be freed. -/
theorem leads_unwrap (hcrash : sh.crashed = false) (hwf : WellFormed sh.office)
    {kb kb' v : Bytes} {f : Bytes → Prog} {res : JValue} (hargc : fr.argc = 2)
    (hf : fr.argv 1 = .function f) (hkb : fr.argv 0 = .buffer kb)
    (hv : contents sh.office kb = some v) (hres : (f v).behindLock kb = .value res kb') :
    Leads (untilReturn m sh) (Ended sh fr susp) ⟨.update fr (.unwrap sh.calls.length kb' res), susp⟩
      (sh.locked fr) ↔ kb ≠ [] ∧ Returned m sh.office kb v (.value res kb') := by
  have hoffice : (sh.locked fr).office = sh.office := rfl
  cases res with
  | buffer vb =>
    have hunwrap : untilReturn m sh ⟨.update fr (.unwrap sh.calls.length kb' (.buffer vb)), susp⟩
        (sh.locked fr) = some (⟨.update fr (.put sh.calls.length kb' vb), susp⟩, sh.locked fr) := by
      rw [untilReturn_update hcrash]
      simp [updateStep, goto]
    have hreturned : Returned m sh.office kb v (.value (.buffer vb) kb') ↔
        kb' ≠ [] ∧ (m.Room kb' ∧ m.Room vb) ∧
          (kb' = kb ∨ v = vb ∧ contents sh.office kb' = some vb) := by
      simp [Returned]
    rw [leads_iff_of_step (not_ended_update _ _ _) hunwrap, hreturned]
    by_cases hput : kb' ≠ [] ∧ (m.Room kb' ∧ m.Room vb)
    · obtain ⟨hne, hroom⟩ := hput
      obtain ⟨office', htable, -, hcont⟩ := tablePut_spec hwf hne hroom
      have hput : untilReturn m sh ⟨.update fr (.put sh.calls.length kb' vb), susp⟩
          (sh.locked fr) = some (⟨.update fr (.unlock sh.calls.length), susp⟩,
            { sh.locked fr with office := office' }) := by
        rw [untilReturn_update hcrash]
        simp [updateStep, hoffice, htable, goto]
      have hunlock : untilReturn m sh ⟨.update fr (.unlock sh.calls.length), susp⟩
          { sh.locked fr with office := office' } =
          some (⟨.janet (fr.k (.returned .true)), susp⟩,
            { sh.locked fr with
              office := office', lock := none,
              returned := sh.returned ++ [(sh.calls.length, .returned .true)] }) := by
        have hsame : { sh.locked fr with office := office' }.returned = sh.returned := rfl
        rw [untilReturn_of_eq hsame]
        simp [threadStep, updateStep, unlockAndLeave, Shared.locked, hcrash]
      rw [leads_iff_of_step (not_ended_update _ _ _) hput,
        leads_iff_of_step (not_ended_update _ _ _) hunlock,
        leads_iff_of_stuck (untilReturn_of_returned rfl), and_iff_right hne, and_iff_right hroom,
        ← allOrNothing_returned_iff hargc hf hkb hv hres hne hcont]
      constructor
      · rintro ⟨o, -, hlast, hall⟩
        rw [List.append_cancel_left_eq, List.singleton_inj] at hlast
        cases hlast
        exact hall
      · exact fun hall => ⟨.returned .true, rfl, rfl, hall⟩
    · -- `free (node->v)`, where `node->v` is a literal, or a NUL stored behind its block
      have htable : tablePut m sh.office kb' vb = none := by
        rw [tablePut_eq_none_iff hwf, or_iff_not_imp_left]
        exact fun hne hroom => hput ⟨hne, hroom⟩
      exact iff_of_false
        (not_leads_crash hcrash (by simp [updateStep, hoffice, htable]))
        fun h => hput ⟨h.2.1, h.2.2.1⟩
  | _ =>
    exact iff_of_false (not_leads_crash hcrash (by simp [updateStep])) (by simp [Returned])

end

/-! ### Reachable stores -/

section

variable {m : Malloc} {t t' : Thread} {sh sh' : Shared} {fr : Frame}

theorem office_getStep {pc : GetAt} (h : getStep m t sh fr pc = some (t', sh')) :
    sh'.office = sh.office := by
  cases pc <;> grind [getStep, goto, leave, leaveLocked, unlockAndLeave, crash, acquire]

theorem office_janetStep {p : Prog} (h : janetStep t sh p = some (t', sh')) :
    sh'.office = sh.office := by
  cases p <;> grind [janetStep, goto, leaveLocked]

theorem office_updateStep {pc : UpdateAt} (h : updateStep m t sh fr pc = some (t', sh')) :
    sh'.office = sh.office ∨
      ∃ n k v, pc = .put n k v ∧ tablePut m sh.office k v = some sh'.office := by
  cases pc with
  | unwrap ticket kb res => cases res <;> grind [updateStep, goto, crash]
  | _ => grind [updateStep, goto, leaveLocked, unlockAndLeave, crash, acquire]

theorem office_makeStep {pc : MakeAt} (h : makeStep m t sh fr pc = some (t', sh')) :
    sh'.office = sh.office ∨
      ∃ n k v, pc = .put n k v ∧ tablePut m sh.office k v = some sh'.office := by
  cases pc <;> grind [makeStep, goto, leave, leaveLocked, unlockAndLeave, crash, acquire]

/-- Only `table_put` changes the list. -/
theorem WellFormed.threadStep (hwf : WellFormed sh.office)
    (h : threadStep m t sh = some (t', sh')) : WellFormed sh'.office := by
  have hput : ∀ k v, tablePut m sh.office k v = some sh'.office → WellFormed sh'.office := by
    intro k v htable
    have hok : tablePut m sh.office k v ≠ none := by simp [htable]
    rw [ne_eq, tablePut_eq_none_iff hwf, not_or, not_not] at hok
    obtain ⟨office', htable', hwf', -⟩ := tablePut_spec hwf hok.1 hok.2
    cases htable.symm.trans htable'
    exact hwf'
  unfold AhungryJanet.threadStep at h
  split at h
  · cases h
  · split at h
    case h_1 => rwa [office_janetStep h]
    case h_2 => rwa [office_getStep h]
    case h_3 =>
      rcases office_updateStep h with hoffice | ⟨-, k, v, -, htable⟩
      · rwa [hoffice]
      · exact hput k v htable
    case h_4 =>
      rcases office_makeStep h with hoffice | ⟨-, k, v, -, htable⟩
      · rwa [hoffice]
      · exact hput k v htable

end

/-- **The store is in order in every reachable state.** -/
theorem reachable_wellFormed {m : Malloc} {ι : Type} [DecidableEq ι] {progs : ι → Prog}
    {s : PoboxState ι} (h : Reaches (threadStep m) (initial progs ensureOffice) s) :
    WellFormed s.shared.office := by
  refine Reaches.invariant (P := fun s => WellFormed s.shared.office) ?_ h wellFormed_ensureOffice
  rintro s _ hs ⟨i, hi⟩
  exact hs.threadStep hi

/-- A thread that changes the list has the lock. -/
theorem tickets_ne_nil_of_office_ne {m : Malloc} {t t' : Thread} {sh sh' : Shared}
    (h : threadStep m t sh = some (t', sh')) (hne : sh'.office ≠ sh.office) : t.tickets ≠ [] := by
  unfold threadStep at h
  split at h
  · cases h
  · split at h
    case h_1 => exact absurd (office_janetStep h) hne
    case h_2 => exact absurd (office_getStep h) hne
    case h_3 fr pc hc =>
      cases pc with
      | lock => exact absurd (by grind [updateStep, goto, acquire]) hne
      | _ => simp [Thread.tickets, hc, Control.ticket]
    case h_4 fr pc hc =>
      cases pc with
      | fixarity => exact absurd (by grind [makeStep, goto, leave]) hne
      | lock => exact absurd (by grind [makeStep, goto, acquire]) hne
      | _ => simp [Thread.tickets, hc, Control.ticket]

/-- **Nobody else changes the store** while a call has the lock. -/
theorem office_eq_of_other {m : Malloc} {ι : Type} [DecidableEq ι] {progs : ι → Prog}
    {office : Office} {s : PoboxState ι} (h : Reaches (threadStep m) (initial progs office) s)
    {i j : ι} (hne : j ≠ i)
    (hi : (s.threads i).tickets ≠ []) {t : Thread} {sh : Shared}
    (hstep : threadStep m (s.threads j) s.shared = some (t, sh)) : sh.office = s.shared.office := by
  by_contra hoffice
  exact hne ((exclusive h).unique j i (tickets_ne_nil_of_office_ne hstep hoffice) hi)

/-! ### Main result -/

/-- When a call on a store in order ends as it should. -/
theorem endsWell_iff_of_wellFormed {m : Malloc} {sh : Shared} (hwf : WellFormed sh.office)
    (hcrash : sh.crashed = false) (fr : Frame) (susp : List Suspended) :
    EndsWell m sh fr susp ↔ Careful m sh fr.argc fr.argv := by
  rw [endsWell_iff_lock hcrash, Careful, leads_checks hcrash]
  refine and_congr_right fun _ => forall_congr' fun hargc => forall_congr' fun f =>
    forall_congr' fun kb => forall_congr' fun hf => forall_congr' fun hkb => ?_
  rw [leads_lookup hcrash hwf]
  refine and_congr_right fun _ => exists_congr fun v => and_congr_right fun hv => ?_
  have hcrash' : (sh.locked fr).crashed = false := hcrash
  have hreturned : (sh.locked fr).returned = sh.returned := rfl
  rw [leads_callback hcrash' rfl hreturned]
  cases hres : (f v).behindLock kb with
  | value res kb' =>
    simp only
    rw [leads_unwrap hcrash hwf hargc hf hkb hv hres]
    simp
  | raised =>
    refine iff_of_true (leads_raised fun kb' vb hs => ?_) (.inl rfl)
    obtain ⟨-, -, kb₁, hbuffer⟩ := hs.eq hf hkb hv
    rw [hres] at hbuffer
    cases hbuffer
  | waits => simp [Returned]

/-- **When a call of `cupdate` is all or nothing**: in every reachable state of any threads. -/
theorem endsWell_iff {m : Malloc} {ι : Type} [DecidableEq ι] {progs : ι → Prog} {s : PoboxState ι}
    (hs : Reaches (threadStep m) (initial progs ensureOffice) s)
    (hcrash : s.shared.crashed = false) (fr : Frame) (susp : List Suspended) :
    EndsWell m s.shared fr susp ↔ Careful m s.shared fr.argc fr.argv :=
  endsWell_iff_of_wellFormed (reachable_wellFormed hs) hcrash fr susp

/-- The same for a thread of the system: careful calls end, and as they should. -/
theorem reaches_of_careful {m : Malloc} {ι : Type} [DecidableEq ι] {progs : ι → Prog}
    {s : PoboxState ι} (hs : Reaches (threadStep m) (initial progs ensureOffice) s)
    (hcrash : s.shared.crashed = false) {i : ι} {fr : Frame} {susp : List Suspended}
    (hi : s.threads i = ⟨.janet (.call .cupdate fr.argc fr.argv fr.k), susp⟩)
    (hcareful : Careful m s.shared fr.argc fr.argv) :
    ∃ t sh, Reaches (threadStep m) s (s.set i t sh) ∧ Ended s.shared fr susp t sh := by
  have hends := (endsWell_iff_of_wellFormed (reachable_wellFormed hs) hcrash fr susp).mpr hcareful
  rw [EndsWell, ← hi] at hends
  exact (Leads.of_restrict hends).reaches

/-- `(cupdate "k" f)`. -/
def updateWith (f : Bytes → Prog) : Frame where
  argc := 2
  argv
    | 0 => .buffer [107]
    | 1 => .function f
    | _ => .other
  k _ := .done .nil

/-- `(cmake "k" "v")`. -/
def makeBox : Prog :=
  .call .cmake 2 (fun i => .buffer (if i = 0 then [107] else [118])) fun _ => .done .nil

/-- A box that was made is updated by what its value is and one more byte. -/
theorem endsWell_made :
    ∃ s : PoboxState Unit, Reaches (threadStep .glibc) (initial (fun _ => makeBox) ensureOffice) s ∧
      contents s.shared.office [107] = some [118] ∧
      EndsWell .glibc s.shared (updateWith fun b => .done (.buffer (b ++ [119]))) [] := by
  have hrun : ∃ s : PoboxState Unit, exec (threadStep .glibc) (List.replicate 7 ())
      (initial (fun _ => makeBox) ensureOffice) = some s ∧ s.shared.crashed = false ∧
      s.shared.lock = none ∧ contents s.shared.office [107] = some [118] :=
    ⟨_, rfl, rfl, rfl, by decide⟩
  obtain ⟨s, hs, hcrash, hlock, hv⟩ := hrun
  have hreaches := reaches_of_exec hs
  refine ⟨s, hreaches, hv, (endsWell_iff hreaches hcrash _ []).mpr ⟨hlock, fun _ f kb hf hkb => ?_⟩⟩
  cases hf
  cases hkb
  exact ⟨by decide, [118], hv, .inr ⟨by decide, [118, 119], [107], rfl, by decide, by decide,
    .inl rfl⟩⟩

/-- A store on which nothing has happened yet. -/
def noCalls : PoboxState Unit := initial (fun _ => .done .nil) ensureOffice

/-- The key was never made, so there is no node. -/
theorem not_endsWell_missing :
    ¬ ∀ (progs : Unit → Prog) (s : PoboxState Unit),
      Reaches (threadStep .glibc) (initial progs ensureOffice) s → s.shared.crashed = false →
        ∀ fr susp, EndsWell .glibc s.shared fr susp := by
  intro h
  have hends := h (fun _ => .done .nil) noCalls .refl rfl
    (updateWith fun b => .done (.buffer b)) []
  rw [endsWell_iff_of_wellFormed wellFormed_ensureOffice rfl] at hends
  obtain ⟨-, v, hv, -⟩ := hends.2 rfl _ [107] rfl rfl
  revert hv
  simp [contents, noCalls, initial, ensureOffice]

end AhungryJanet
