import AhungryJanet.Library.Interleaving
import AhungryJanet.Pobox.Table

/-!
# Threads that share the box store

`get_wrapped`, `update_wrapped` and `make_wrapped` of `pobox.c`, run by any number of threads.

Each C function is a sequence of locations; a step of a thread goes from one to the next. What a
thread does between calls is a `Prog`: Janet code, as far as the store can tell, which calls the
store and goes on with what the call returned or raised. Code that goes on with more than that, say
with what a callback has seen, does in each of its runs what some `Prog` does. A function passed to
`cupdate` is Janet code too, and may call the store itself. It may also change the buffer that is
the key of the `cupdate`, and `update_wrapped` reads that buffer again when the function has
returned.

## Where the lock is

The functions check their arguments in different orders. `get_wrapped` and `make_wrapped` check the
arity before they lock and the types after; `update_wrapped` locks first. A failed check is a
`janet_panic`, which leaves the function by a long jump: nothing behind it runs, so a panic behind
`pthread_spin_lock` leaves the lock taken. `get_wrapped` also returns without unlocking when
there is no such key.

## Tickets

Two fields of the shared state are not in the program: `calls` lists the calls in the order in
which they acquired the lock, and `returned` says what those that returned have returned. The place
of a call in `calls` is its ticket. The lock itself is only taken or free; the model also keeps the
ticket of the call that took it.

## Main results

* `threadStep_kind` — what a step of a thread does with the lock, and when it abandons it
* `exclusive` — in every reachable state only the call that took the lock has passed it
-/

namespace AhungryJanet

open Interleaving

/-- The Janet values the store returns, or gets from a callback. -/
inductive JValue where
  | nil
  | true
  | buffer (b : Bytes)
  | other
  deriving DecidableEq

/-- How a call ended: with a value, or with a panic. -/
inductive Outcome where
  | returned (v : JValue)
  | raised
  deriving DecidableEq

/-- The registered functions. -/
inductive Op where
  | cget
  | cupdate
  | cmake
  deriving DecidableEq

mutual

/-- Janet code. -/
inductive Prog where
  /-- It ends with a value. -/
  | done (v : JValue)
  /-- It ends with an error. -/
  | error
  /-- It calls the store and goes on. -/
  | call (op : Op) (argc : ℕ) (argv : ℕ → Arg) (k : Outcome → Prog)
  /-- It changes the bytes of the buffer that is the key of the `cupdate` it was called by, and goes
  on. -/
  | setKey (kb : Bytes) (p : Prog)

/-- An argument. -/
inductive Arg where
  | buffer (b : Bytes)
  | function (f : Bytes → Prog)
  | other

end

/-- A call of the store: its arguments, and the code it returns to. -/
structure Frame where
  argc : ℕ
  argv : ℕ → Arg
  k : Outcome → Prog

/-- The locations of `get_wrapped`. A location behind the lock carries the ticket. -/
inductive GetAt where
  | fixarity
  | lock
  | key (ticket : ℕ)
  | lookup (ticket : ℕ) (kb : Bytes)
  | copy (ticket : ℕ) (t : ℕ)
  | unlock (ticket : ℕ) (buf : Bytes)

/-- The locations of `update_wrapped`. -/
inductive UpdateAt where
  | lock
  | fixarity (ticket : ℕ)
  | function (ticket : ℕ)
  | key (ticket : ℕ) (f : Bytes → Prog)
  | lookup (ticket : ℕ) (f : Bytes → Prog) (kb : Bytes)
  | copy (ticket : ℕ) (f : Bytes → Prog) (kb : Bytes) (t : ℕ)
  | call (ticket : ℕ) (f : Bytes → Prog) (kb buf : Bytes)
  | unwrap (ticket : ℕ) (kb : Bytes) (res : JValue)
  | put (ticket : ℕ) (kb vb : Bytes)
  | unlock (ticket : ℕ)

/-- The locations of `make_wrapped`. -/
inductive MakeAt where
  | fixarity
  | lock
  | key (ticket : ℕ)
  | value (ticket : ℕ) (kb : Bytes)
  | put (ticket : ℕ) (kb vb : Bytes)
  | unlock (ticket : ℕ)

/-- Where a thread is. -/
inductive Control where
  | janet (p : Prog)
  | get (fr : Frame) (pc : GetAt)
  | update (fr : Frame) (pc : UpdateAt)
  | make (fr : Frame) (pc : MakeAt)

/-- An `update_wrapped` that waits in `janet_call` for its callback, and what its key buffer holds
by now. -/
structure Suspended where
  fr : Frame
  ticket : ℕ
  kb : Bytes

/-- A thread: where it is, and the calls whose callbacks are running, the innermost first. -/
structure Thread where
  control : Control
  suspended : List Suspended

/-- A call that has acquired the lock. -/
structure Acquired where
  op : Op
  argc : ℕ
  argv : ℕ → Arg

/-- What the threads share. -/
structure Shared where
  office : Office
  /-- The ticket of the call that took the lock. -/
  lock : Option ℕ
  /-- Undefined behaviour was reached; nothing is said of what follows. -/
  crashed : Bool
  calls : List Acquired
  returned : List (ℕ × Outcome)

/-! ### Steps -/

/-- The first location of a C function. -/
def enter : Op → Frame → Control
  | .cget, fr => .get fr .fixarity
  | .cupdate, fr => .update fr .lock
  | .cmake, fr => .make fr .fixarity

/-- `pthread_spin_lock`: the ticket and the shared state, or `none` while the lock is taken. -/
def acquire (op : Op) (fr : Frame) (sh : Shared) : Option (ℕ × Shared) :=
  if sh.lock = none then
    some (sh.calls.length,
      { sh with lock := some sh.calls.length, calls := sh.calls ++ [⟨op, fr.argc, fr.argv⟩] })
  else none

/-- Go on at a location. -/
def goto (t : Thread) (sh : Shared) (c : Control) : Option (Thread × Shared) :=
  some ({ t with control := c }, sh)

/-- Leave a call that has not locked. -/
def leave (t : Thread) (sh : Shared) (fr : Frame) (o : Outcome) : Option (Thread × Shared) :=
  some ({ t with control := .janet (fr.k o) }, sh)

/-- Leave a call that has locked, without unlocking. -/
def leaveLocked (t : Thread) (sh : Shared) (fr : Frame) (ticket : ℕ) (o : Outcome) :
    Option (Thread × Shared) :=
  some ({ t with control := .janet (fr.k o) },
    { sh with returned := sh.returned ++ [(ticket, o)] })

/-- `pthread_spin_unlock`, and return. -/
def unlockAndLeave (t : Thread) (sh : Shared) (fr : Frame) (ticket : ℕ) (v : JValue) :
    Option (Thread × Shared) :=
  some ({ t with control := .janet (fr.k (.returned v)) },
    { sh with lock := none, returned := sh.returned ++ [(ticket, .returned v)] })

/-- Undefined behaviour. -/
def crash (t : Thread) (sh : Shared) : Option (Thread × Shared) :=
  some (t, { sh with crashed := true })

/-- `get_wrapped`. -/
def getStep (m : Malloc) (t : Thread) (sh : Shared) (fr : Frame) : GetAt → Option (Thread × Shared)
  | .fixarity =>
    if fr.argc = 1 then goto t sh (.get fr .lock) else leave t sh fr .raised
  | .lock =>
    match acquire .cget fr sh with
    | some (ticket, sh) => goto t sh (.get fr (.key ticket))
    | none => none
  | .key ticket =>
    match fr.argv 0 with
    | .buffer kb => goto t sh (.get fr (.lookup ticket kb))
    | _ => leaveLocked t sh fr ticket .raised
  | .lookup ticket kb =>
    match tableGet m sh.office kb with
    | none => crash t sh
    | some none => leaveLocked t sh fr ticket (.returned .nil)
    | some (some node) => goto t sh (.get fr (.copy ticket node))
  | .copy ticket node =>
    match sh.office[node]? with
    | none => crash t sh
    | some n => goto t sh (.get fr (.unlock ticket n.v))
  | .unlock ticket buf => unlockAndLeave t sh fr ticket (.buffer buf)

/-- `update_wrapped`. -/
def updateStep (m : Malloc) (t : Thread) (sh : Shared) (fr : Frame) :
    UpdateAt → Option (Thread × Shared)
  | .lock =>
    match acquire .cupdate fr sh with
    | some (ticket, sh) => goto t sh (.update fr (.fixarity ticket))
    | none => none
  | .fixarity ticket =>
    if fr.argc = 2 then goto t sh (.update fr (.function ticket))
    else leaveLocked t sh fr ticket .raised
  | .function ticket =>
    match fr.argv 1 with
    | .function f => goto t sh (.update fr (.key ticket f))
    | _ => leaveLocked t sh fr ticket .raised
  | .key ticket f =>
    match fr.argv 0 with
    | .buffer kb => goto t sh (.update fr (.lookup ticket f kb))
    | _ => leaveLocked t sh fr ticket .raised
  | .lookup ticket f kb =>
    match tableGet m sh.office kb with
    | some (some node) => goto t sh (.update fr (.copy ticket f kb node))
    -- `t->v` of NULL, or a NUL stored behind the copy of the key
    | _ => crash t sh
  | .copy ticket f kb node =>
    match sh.office[node]? with
    | none => crash t sh
    | some n => goto t sh (.update fr (.call ticket f kb n.v))
  | .call ticket f kb buf => some (⟨.janet (f buf), ⟨fr, ticket, kb⟩ :: t.suspended⟩, sh)
  | .unwrap ticket kb res =>
    match res with
    | .buffer vb => goto t sh (.update fr (.put ticket kb vb))
    | _ => crash t sh
  | .put ticket kb vb =>
    match tablePut m sh.office kb vb with
    | none => crash t sh
    | some office => goto t { sh with office } (.update fr (.unlock ticket))
  | .unlock ticket => unlockAndLeave t sh fr ticket .true

/-- `make_wrapped`. -/
def makeStep (m : Malloc) (t : Thread) (sh : Shared) (fr : Frame) :
    MakeAt → Option (Thread × Shared)
  | .fixarity =>
    if fr.argc = 2 then goto t sh (.make fr .lock) else leave t sh fr .raised
  | .lock =>
    match acquire .cmake fr sh with
    | some (ticket, sh) => goto t sh (.make fr (.key ticket))
    | none => none
  | .key ticket =>
    match fr.argv 0 with
    | .buffer kb => goto t sh (.make fr (.value ticket kb))
    | _ => leaveLocked t sh fr ticket .raised
  | .value ticket kb =>
    match fr.argv 1 with
    | .buffer vb => goto t sh (.make fr (.put ticket kb vb))
    | _ => leaveLocked t sh fr ticket .raised
  | .put ticket kb vb =>
    match tablePut m sh.office kb vb with
    | none => crash t sh
    | some office => goto t { sh with office } (.make fr (.unlock ticket))
  | .unlock ticket => unlockAndLeave t sh fr ticket .true

/-- Janet code. When it ends, the innermost suspended `update_wrapped` goes on: with the value, or
by the panic that `janet_call` makes of the error. -/
def janetStep (t : Thread) (sh : Shared) : Prog → Option (Thread × Shared)
  | .call op argc argv k => goto t sh (enter op ⟨argc, argv, k⟩)
  | .done v =>
    match t.suspended with
    | [] => none
    | u :: rest => some (⟨.update u.fr (.unwrap u.ticket u.kb v), rest⟩, sh)
  | .error =>
    match t.suspended with
    | [] => none
    | u :: rest => leaveLocked ⟨t.control, rest⟩ sh u.fr u.ticket .raised
  | .setKey kb p =>
    match t.suspended with
    | [] => goto t sh (.janet p)
    | u :: rest => some (⟨.janet p, { u with kb := kb } :: rest⟩, sh)

/-- The step of a thread. A thread that waits for the lock has none, and neither has a thread that
has ended, nor any thread after a crash. -/
def threadStep (m : Malloc) (t : Thread) (sh : Shared) : Option (Thread × Shared) :=
  if sh.crashed then none
  else
    match t.control with
    | .janet p => janetStep t sh p
    | .get fr pc => getStep m t sh fr pc
    | .update fr pc => updateStep m t sh fr pc
    | .make fr pc => makeStep m t sh fr pc

/-- The threads, and what they share. -/
abbrev PoboxState (ι : Type) := State ι Thread Shared

/-- The state before any thread has done anything. -/
def initial {ι : Type} (progs : ι → Prog) (office : Office) : PoboxState ι where
  threads i := ⟨.janet (progs i), []⟩
  shared := ⟨office, none, false, [], []⟩

/-! ### Tickets -/

/-- The ticket of the C function a thread is in. -/
def Control.ticket : Control → Option ℕ
  | .janet _ => none
  | .get _ pc =>
    match pc with
    | .fixarity | .lock => none
    | .key n | .lookup n _ | .copy n _ | .unlock n _ => some n
  | .update _ pc =>
    match pc with
    | .lock => none
    | .fixarity n | .function n | .key n _ | .lookup n _ _ | .copy n _ _ _ | .call n _ _ _
    | .unwrap n _ _ | .put n _ _ | .unlock n => some n
  | .make _ pc =>
    match pc with
    | .fixarity | .lock => none
    | .key n | .value n _ | .put n _ _ | .unlock n => some n

@[simp] theorem Control.ticket_janet (p : Prog) : (Control.janet p).ticket = none := rfl

/-- The tickets of the calls of a thread that are in progress, the innermost first. -/
def Thread.tickets (t : Thread) : List ℕ :=
  t.control.ticket.toList ++ t.suspended.map Suspended.ticket

/-- The next step does not leave a call behind the lock before its end: the checks of the arguments
succeed, `cget` finds its key, and no callback raises an error. -/
def Clean (m : Malloc) (t : Thread) (sh : Shared) : Prop :=
  match t.control with
  | .janet .error => t.suspended = []
  | .get fr (.key _) => ∃ kb, fr.argv 0 = .buffer kb
  | .get _ (.lookup _ kb) => tableGet m sh.office kb ≠ some none
  | .update fr (.fixarity _) => fr.argc = 2
  | .update fr (.function _) => ∃ f, fr.argv 1 = .function f
  | .update fr (.key _ _) => ∃ kb, fr.argv 0 = .buffer kb
  | .make fr (.key _) => ∃ kb, fr.argv 0 = .buffer kb
  | .make fr (.value _ _) => ∃ vb, fr.argv 1 = .buffer vb
  | _ => True

/-- The NULs that the next step stores are inside of their blocks. -/
def hasRoom (m : Malloc) (t : Thread) (_ : Shared) : Bool :=
  match t.control with
  | .get _ (.lookup _ kb) => m.Room kb
  | .update _ (.lookup _ _ kb) => m.Room kb
  | .update _ (.put _ kb vb) => m.Room kb ∧ m.Room vb
  | .make _ (.put _ kb vb) => m.Room kb ∧ m.Room vb
  | _ => true

/-- What a step does with the lock and the tickets; only a step that is not clean abandons. -/
inductive StepKind (m : Malloc) (t : Thread) (sh : Shared) (t' : Thread) (sh' : Shared) :
    Prop where
  | stay (hclean : Clean m t sh) (hlock : sh'.lock = sh.lock) (htickets : t'.tickets = t.tickets)
  | acquire (hclean : Clean m t sh) (n : ℕ) (hfree : sh.lock = none) (hlock : sh'.lock = some n)
    (htickets : t'.tickets = n :: t.tickets)
  | release (hclean : Clean m t sh) (n : ℕ) (hlock : sh'.lock = none)
    (htickets : t.tickets = n :: t'.tickets)
  | abandon (hdirty : ¬ Clean m t sh) (n : ℕ) (hlock : sh'.lock = sh.lock)
    (htickets : t.tickets = n :: t'.tickets)

section

variable {m : Malloc} {t t' : Thread} {sh sh' : Shared} {fr : Frame}

theorem acquire_eq_some {op : Op} {n : ℕ} (h : acquire op fr sh = some (n, sh')) :
    sh.lock = none ∧ n = sh.calls.length ∧
      sh' = { sh with
        lock := some n, calls := sh.calls ++ [⟨op, fr.argc, fr.argv⟩] } := by
  unfold acquire at h
  split at h
  case isTrue hfree =>
    cases h
    exact ⟨hfree, rfl, rfl⟩
  case isFalse => cases h

/-! One rule for each way a step can go. -/

private theorem kind_of_goto {c : Control} {sh₁ : Shared} (h : goto t sh₁ c = some (t', sh'))
    (hclean : Clean m t sh) (hlock : sh₁.lock = sh.lock) (hticket : c.ticket = t.control.ticket) :
    StepKind m t sh t' sh' := by
  cases h
  exact .stay hclean hlock (by simp [Thread.tickets, hticket])

private theorem kind_of_acquire {op : Op} {c : ℕ → Control} (hclean : Clean m t sh)
    (hticket : t.control.ticket = none) (hc : ∀ n, (c n).ticket = some n)
    (h : (match acquire op fr sh with
      | some (ticket, sh) => goto t sh (c ticket)
      | none => none) = some (t', sh')) : StepKind m t sh t' sh' := by
  split at h
  case h_1 n sh₁ hacq =>
    obtain ⟨hfree, rfl, rfl⟩ := acquire_eq_some hacq
    cases h
    exact .acquire hclean _ hfree rfl (by simp [Thread.tickets, hticket, hc])
  case h_2 => cases h

private theorem kind_of_leave {o : Outcome} (hclean : Clean m t sh)
    (hticket : t.control.ticket = none) (h : leave t sh fr o = some (t', sh')) :
    StepKind m t sh t' sh' := by
  cases h
  exact .stay hclean rfl (by simp [Thread.tickets, hticket])

private theorem kind_of_leaveLocked {n : ℕ} {o : Outcome} (hdirty : ¬ Clean m t sh)
    (hticket : t.control.ticket = some n) (h : leaveLocked t sh fr n o = some (t', sh')) :
    StepKind m t sh t' sh' := by
  cases h
  exact .abandon hdirty n rfl (by simp [Thread.tickets, hticket])

private theorem kind_of_unlock {n : ℕ} {v : JValue} (hclean : Clean m t sh)
    (hticket : t.control.ticket = some n) (h : unlockAndLeave t sh fr n v = some (t', sh')) :
    StepKind m t sh t' sh' := by
  cases h
  exact .release hclean n rfl (by simp [Thread.tickets, hticket])

private theorem kind_of_crash (hclean : Clean m t sh) (h : crash t sh = some (t', sh')) :
    StepKind m t sh t' sh' := by
  cases h
  exact .stay hclean rfl rfl

private theorem janetStep_kind {p : Prog} (hc : t.control = .janet p)
    (h : janetStep t sh p = some (t', sh')) : StepKind m t sh t' sh' := by
  cases p with
  | call op argc argv k =>
    refine kind_of_goto h (by simp [Clean, hc]) rfl ?_
    cases op <;> simp [hc, enter, Control.ticket]
  | done v =>
    cases hs : t.suspended with
    | nil => simp [janetStep, hs] at h
    | cons u rest =>
      simp only [janetStep, hs, Option.some.injEq, Prod.mk.injEq] at h
      obtain ⟨rfl, rfl⟩ := h
      exact .stay (by simp [Clean, hc]) rfl (by simp [Thread.tickets, hc, hs, Control.ticket])
  | error =>
    cases hs : t.suspended with
    | nil => simp [janetStep, hs] at h
    | cons u rest =>
      simp only [janetStep, hs, leaveLocked, Option.some.injEq, Prod.mk.injEq] at h
      obtain ⟨rfl, rfl⟩ := h
      exact .abandon (by simp [Clean, hc, hs]) u.ticket rfl
        (by simp [Thread.tickets, hc, hs, Control.ticket])
  | setKey kb p =>
    cases hs : t.suspended with
    | nil =>
      simp only [janetStep, hs] at h
      exact kind_of_goto h (by simp [Clean, hc]) rfl (by simp [hc])
    | cons u rest =>
      simp only [janetStep, hs, Option.some.injEq, Prod.mk.injEq] at h
      obtain ⟨rfl, rfl⟩ := h
      exact .stay (by simp [Clean, hc]) rfl (by simp [Thread.tickets, hc, hs, Control.ticket])

private theorem getStep_kind {pc : GetAt} (hc : t.control = .get fr pc)
    (h : getStep m t sh fr pc = some (t', sh')) : StepKind m t sh t' sh' := by
  have hticket := congrArg Control.ticket hc
  cases pc with
  | fixarity =>
    simp only [getStep] at h
    split at h
    · exact kind_of_goto h (by simp [Clean, hc]) rfl hticket.symm
    · exact kind_of_leave (by simp [Clean, hc]) hticket h
  | lock => exact kind_of_acquire (by simp [Clean, hc]) hticket (fun _ => rfl) h
  | key n =>
    simp only [getStep] at h
    split at h
    case h_1 kb hkb => exact kind_of_goto h (by simp [Clean, hc, hkb]) rfl hticket.symm
    case h_2 hno => exact kind_of_leaveLocked (by simpa [Clean, hc] using hno) hticket h
  | lookup n kb =>
    simp only [getStep] at h
    split at h
    case h_1 hget => exact kind_of_crash (by simp [Clean, hc, hget]) h
    case h_2 hget => exact kind_of_leaveLocked (by simp [Clean, hc, hget]) hticket h
    case h_3 node hget => exact kind_of_goto h (by simp [Clean, hc, hget]) rfl hticket.symm
  | copy n node =>
    simp only [getStep] at h
    split at h
    · exact kind_of_crash (by simp [Clean, hc]) h
    · exact kind_of_goto h (by simp [Clean, hc]) rfl hticket.symm
  | unlock n buf => exact kind_of_unlock (by simp [Clean, hc]) hticket h

private theorem updateStep_kind {pc : UpdateAt} (hc : t.control = .update fr pc)
    (h : updateStep m t sh fr pc = some (t', sh')) : StepKind m t sh t' sh' := by
  have hticket := congrArg Control.ticket hc
  cases pc with
  | lock => exact kind_of_acquire (by simp [Clean, hc]) hticket (fun _ => rfl) h
  | fixarity n =>
    simp only [updateStep] at h
    split at h
    case isTrue hargc => exact kind_of_goto h (by simp [Clean, hc, hargc]) rfl hticket.symm
    case isFalse hargc => exact kind_of_leaveLocked (by simp [Clean, hc, hargc]) hticket h
  | function n =>
    simp only [updateStep] at h
    split at h
    case h_1 f hf => exact kind_of_goto h (by simp [Clean, hc, hf]) rfl hticket.symm
    case h_2 hno => exact kind_of_leaveLocked (by simpa [Clean, hc] using hno) hticket h
  | key n f =>
    simp only [updateStep] at h
    split at h
    case h_1 kb hkb => exact kind_of_goto h (by simp [Clean, hc, hkb]) rfl hticket.symm
    case h_2 hno => exact kind_of_leaveLocked (by simpa [Clean, hc] using hno) hticket h
  | lookup n f kb =>
    simp only [updateStep] at h
    split at h
    · exact kind_of_goto h (by simp [Clean, hc]) rfl hticket.symm
    · exact kind_of_crash (by simp [Clean, hc]) h
  | copy n f kb node =>
    simp only [updateStep] at h
    split at h
    · exact kind_of_crash (by simp [Clean, hc]) h
    · exact kind_of_goto h (by simp [Clean, hc]) rfl hticket.symm
  | call n f kb buf =>
    cases h
    exact .stay (by simp [Clean, hc]) rfl (by simp [Thread.tickets, hc, Control.ticket])
  | unwrap n kb res =>
    simp only [updateStep] at h
    split at h
    · exact kind_of_goto h (by simp [Clean, hc]) rfl hticket.symm
    · exact kind_of_crash (by simp [Clean, hc]) h
  | put n kb vb =>
    simp only [updateStep] at h
    split at h
    · exact kind_of_crash (by simp [Clean, hc]) h
    · exact kind_of_goto h (by simp [Clean, hc]) rfl hticket.symm
  | unlock n => exact kind_of_unlock (by simp [Clean, hc]) hticket h

private theorem makeStep_kind {pc : MakeAt} (hc : t.control = .make fr pc)
    (h : makeStep m t sh fr pc = some (t', sh')) : StepKind m t sh t' sh' := by
  have hticket := congrArg Control.ticket hc
  cases pc with
  | fixarity =>
    simp only [makeStep] at h
    split at h
    · exact kind_of_goto h (by simp [Clean, hc]) rfl hticket.symm
    · exact kind_of_leave (by simp [Clean, hc]) hticket h
  | lock => exact kind_of_acquire (by simp [Clean, hc]) hticket (fun _ => rfl) h
  | key n =>
    simp only [makeStep] at h
    split at h
    case h_1 kb hkb => exact kind_of_goto h (by simp [Clean, hc, hkb]) rfl hticket.symm
    case h_2 hno => exact kind_of_leaveLocked (by simpa [Clean, hc] using hno) hticket h
  | value n kb =>
    simp only [makeStep] at h
    split at h
    case h_1 vb hvb => exact kind_of_goto h (by simp [Clean, hc, hvb]) rfl hticket.symm
    case h_2 hno => exact kind_of_leaveLocked (by simpa [Clean, hc] using hno) hticket h
  | put n kb vb =>
    simp only [makeStep] at h
    split at h
    · exact kind_of_crash (by simp [Clean, hc]) h
    · exact kind_of_goto h (by simp [Clean, hc]) rfl hticket.symm
  | unlock n => exact kind_of_unlock (by simp [Clean, hc]) hticket h

end

/-- **What a step of a thread does with the lock**, and when it abandons it. -/
theorem threadStep_kind {m : Malloc} {t t' : Thread} {sh sh' : Shared}
    (h : threadStep m t sh = some (t', sh')) : StepKind m t sh t' sh' := by
  unfold threadStep at h
  split at h
  · cases h
  · split at h
    case h_1 p hc => exact janetStep_kind hc h
    case h_2 fr pc hc => exact getStep_kind hc h
    case h_3 fr pc hc => exact updateStep_kind hc h
    case h_4 fr pc hc => exact makeStep_kind hc h

theorem StepKind.lockStep {m : Malloc} {t t' : Thread} {sh sh' : Shared}
    (h : StepKind m t sh t' sh') :
    LockStep Thread.tickets Shared.lock t sh t' sh' := by
  cases h with
  | stay _ hlock htickets => exact .stay hlock htickets
  | acquire _ n hfree hlock htickets => exact .acquire n hfree hlock htickets
  | release _ n hlock htickets => exact .release n hlock htickets
  | abandon _ n hlock htickets => exact .abandon n hlock htickets

/-- A clean step does not give up a ticket while the lock is in its name. -/
theorem StepKind.lock_eq_none {m : Malloc} {t t' : Thread} {sh sh' : Shared}
    (h : StepKind m t sh t' sh')
    (hclean : Clean m t sh) {n : ℕ} (hn : t.tickets = n :: t'.tickets) : sh'.lock = none := by
  have hlen := congrArg List.length hn
  rw [List.length_cons] at hlen
  cases h with
  | stay _ _ htickets => rw [htickets] at hlen; omega
  | acquire _ m _ _ htickets =>
    rw [htickets, List.length_cons] at hlen
    omega
  | release _ m hlock _ => exact hlock
  | abandon hdirty => exact absurd hclean hdirty

theorem exclusive_initial {ι : Type} (progs : ι → Prog) (office : Office) :
    Exclusive Thread.tickets Shared.lock (initial progs office) := by
  refine ⟨fun i n hn => ?_, fun i => ?_, fun i j hi => ?_⟩
  · cases hn
  · exact Nat.zero_le 1
  · exact absurd rfl hi

/-- **Only the call that took the lock has passed it**, in every reachable state. -/
theorem exclusive {m : Malloc} {ι : Type} [DecidableEq ι] {progs : ι → Prog} {office : Office}
    {s : PoboxState ι} (h : Reaches (threadStep m) (initial progs office) s) :
    Exclusive Thread.tickets Shared.lock s := by
  refine Reaches.invariant ?_ h (exclusive_initial progs office)
  rintro s _ hs ⟨i, hi⟩
  exact hs.set i (threadStep_kind hi).lockStep

end AhungryJanet
