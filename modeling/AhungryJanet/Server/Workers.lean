import AhungryJanet.Library.Handles
import AhungryJanet.Server.Send
import Mathlib.Logic.Function.Basic
import Mathlib.Logic.Relation

/-!
# The server and its threads

`take_connections_forever` of `puny-server.c` and the threads it creates, all of them interleaved.
The main thread accepts connections and creates a thread for each; a thread is `thread_fn`:
it reads the request, has the callback answer it, sends what `strlen` sees of the answer, shuts
the connection down and closes it. A step is one system call, or the callback.

## Descriptors

A thread knows its connection only as a number, `csock`. What the number refers to is decided by the
table of the process at the moment of the call, and a number that was closed is handed out again, to
any connection and to anything else the process opens. So that a thread works on the connection it
was created for is a theorem.

## What is left to the surroundings

What `recv` answers on a connection, what the memory of a thread contains, what the callback
answers, if it does, and what becomes of the memory of that answer. A `recv` that fails is an answer
that nothing is there. A run ends where a thread does what C leaves undefined, or where a signal
ends the process.

## Main results

* `Reading.outcome_of_recv` — one `recv` of `read_tcp` at a time
* `owned` — a thread works on its own connection
* `lifecycle` — a connection is used only while it is open, and closed once
-/

namespace AhungryJanet.Serving

open Polling Handles

/-! ### `read_tcp`, one `recv` at a time -/

/-- In which of its two loops `read_tcp` is. -/
inductive Reading where
  | head (s : Locals)
  /-- `n` is `header_length + final_content_length`. -/
  | body (n : ℤ) (s : Locals)

/-- The condition of the second loop, and what is returned behind it. -/
def bodyTest (n : ℤ) (s : Locals) : Except Undefined (Reading ⊕ Bytes) := do
  if ← hasBody n s then return .inr (← finish s) else return .inl (.body n s)

/-- Behind the first loop. -/
def afterHead (s : Locals) : Except Undefined (Reading ⊕ Bytes) := do
  if s.finalContentLength = 0 then return .inr (← finish s)
  else bodyTest (← requestLength s) s

/-- From the answer of `recv` to the next call of it, or to the end. -/
def Reading.recv (m : Memory) : Reading → Option Bytes → Except Undefined (Reading ⊕ Bytes)
  | .head s, some tmp => (receive m s tmp).map fun s => .inl (.head s)
  | .head s, none => if s.hasSeenReqTerminator then afterHead s else .ok (.inl (.head s))
  | .body n s, some tmp => (appendChunk m s tmp).map fun s => .inl (.body n s)
  | .body n s, none => bodyTest n s

/-- What comes of the rest of `read_tcp`, if `recv` answers `d`. -/
def Reading.outcome (m : Memory) (d : Delivery) : Reading → Polling.Outcome Undefined Bytes
  | .head s =>
    (poll (fun s => .ok s.hasSeenReqTerminator) (receive m) s d).bind fun (s, d) =>
      if s.finalContentLength = 0 then .ofExcept (finish s)
      else (Outcome.ofExcept (requestLength s)).bind fun n =>
        (poll (hasBody n) (appendChunk m) s d).bind fun (s, _) => .ofExcept (finish s)
  | .body n s => (poll (hasBody n) (appendChunk m) s d).bind fun (s, _) => .ofExcept (finish s)

/-- The answer of the next `recv`. -/
def answer (d : Delivery) : Option Bytes := d.head?.join

/-- What comes behind a step of `read_tcp`. -/
def resumed (m : Memory) (d : Delivery) :
    Except Undefined (Reading ⊕ Bytes) → Polling.Outcome Undefined Bytes
  | .ok (.inl r) => r.outcome m d
  | .ok (.inr buf) => .returned buf
  | .error e => .failed e

theorem eq_cons_of_answer {d : Delivery} {b : Bytes} (h : answer d = some b) :
    d = some b :: d.tail := by
  match d, h with
  | some _ :: _, rfl => rfl

theorem atPause_of_answer {d : Delivery} (h : answer d = none) : AtPause d := by
  rintro b d' rfl
  cases h

theorem resumed_finish (m : Memory) (d : Delivery) (s : Locals) :
    resumed m d (do return .inr (← finish s)) = .ofExcept (finish s) := by
  cases finish s <;> rfl

theorem resumed_bodyTest (m : Memory) (n : ℤ) (s : Locals) {d : Delivery} (h : AtPause d) :
    resumed m d.tail (bodyTest n s) = Reading.outcome m d (.body n s) := by
  rw [bodyTest, Reading.outcome]
  cases hbody : hasBody n s with
  | error e =>
    rw [poll_of_error h hbody]
    rfl
  | ok b =>
    cases b with
    | false =>
      rw [poll_of_go h hbody]
      rfl
    | true =>
      rw [poll_of_stop h hbody]
      exact resumed_finish m d.tail s

/-- Up to the second loop nothing is read, so what the first one saw last is looked at again. -/
theorem resumed_afterHead (m : Memory) {s : Locals} {d : Delivery} (h : AtPause d)
    (hs : s.hasSeenReqTerminator = true) :
    resumed m d.tail (afterHead s) = Reading.outcome m d (.head s) := by
  rw [Reading.outcome, poll_of_stop h (by rw [hs]), afterHead, Outcome.bind]
  by_cases hzero : s.finalContentLength = 0
  · simp only [if_pos hzero]
    exact resumed_finish m d.tail s
  · simp only [if_neg hzero]
    cases hn : requestLength s with
    | error e => rfl
    | ok n => exact resumed_bodyTest m n s h

/-- **What comes of the rest of `read_tcp` is not changed by its next `recv`.** -/
theorem Reading.outcome_of_recv (m : Memory) (d : Delivery) (r : Reading) :
    resumed m d.tail (r.recv m (answer d)) = r.outcome m d := by
  cases hanswer : answer d with
  | some b =>
    have hd := eq_cons_of_answer hanswer
    cases r with
    | head s =>
      rw [hd, Reading.recv, Reading.outcome, poll, List.tail_cons]
      cases receive m s b <;> rfl
    | body n s =>
      rw [hd, Reading.recv, Reading.outcome, poll, List.tail_cons]
      cases appendChunk m s b <;> rfl
  | none =>
    have hd := atPause_of_answer hanswer
    cases r with
    | head s =>
      rw [Reading.recv]
      by_cases hs : s.hasSeenReqTerminator = true
      · rw [if_pos hs]
        exact resumed_afterHead m hd hs
      · rw [if_neg hs]
        show (Reading.head s).outcome m d.tail = _
        rw [Reading.outcome, Reading.outcome, poll_of_go hd (by simpa using hs)]
    | body n s => exact resumed_bodyTest m n s hd

theorem outcome_init (m : Memory) (d : Delivery) :
    Reading.outcome m d (.head .init) = readTcp m d := rfl

/-! ### The server -/

/-- What a descriptor refers to. -/
inductive Resource where
  /-- The socket that listens, or a standard stream: nothing closes these. -/
  | standing
  /-- The connection that was accepted behind `c` others. -/
  | connection (c : ℕ)
  /-- Anything else that the process opened. -/
  | other
  deriving DecidableEq

/-- Where a thread is in `thread_fn`. -/
inductive Place where
  | reading (r : Reading) (setTimer : Bool)
  /-- Behind the first chunk, before `setsockopt`. -/
  | timing (r : Reading)
  | calling (buf : Bytes)
  | sending (response : Response)
  /-- Before `shutdown`. -/
  | hangingUp
  | closing
  | returned

structure Thread where
  csock : ℕ
  place : Place

/-- Where the main thread is in `take_connections_forever`. -/
inductive Acceptor where
  | accepting
  /-- Before `pthread_create`. -/
  | creating (csock : ℕ)

/-- A call on a connection: which thread made it, and what its descriptor referred to. -/
inductive SocketCall where
  | accept (c : ℕ)
  | use (thread : ℕ) (hit : Option Resource)
  | close (thread : ℕ) (hit : Option Resource)
  deriving DecidableEq

structure Server where
  /-- What the descriptors refer to. -/
  table : ℕ → Option Resource
  acceptor : Acceptor
  /-- How many connections were accepted. -/
  accepted : ℕ
  /-- The threads, under the numbers of the connections they were created for. -/
  threads : ℕ → Option Thread
  /-- What `recv` has still to answer, by connection. -/
  unread : ℕ → Delivery
  /-- What the calls of `send` have put on a connection. -/
  sent : ℕ → List Bytes
  log : List SocketCall

/-- What the server does not decide, by connection. -/
structure Setting where
  /-- Every descriptor is smaller. -/
  limit : ℕ
  arrives : ℕ → Delivery
  memory : ℕ → Memory
  /-- The response, if the callback returns. -/
  callback : ℕ → Bytes → Option Response
  /-- What is left in the memory of the response when it is sent. -/
  left : ℕ → Bytes
  socket : ℕ → Socket

/-- `recv`: its answer. -/
def Server.answers (s : Server) (csock : ℕ) : Option Bytes :=
  match s.table csock with
  | some (.connection c) => answer (s.unread c)
  | _ => none

/-- `recv`, by the thread with the number `thread`. -/
def Server.recv (s : Server) (thread csock : ℕ) : Server :=
  { s with
    unread :=
      match s.table csock with
      | some (.connection c) => Function.update s.unread c (s.unread c).tail
      | _ => s.unread
    log := s.log ++ [.use thread (s.table csock)] }

/-- `send`. -/
def Server.send (s : Server) (thread csock : ℕ) (bytes : Bytes) : Server :=
  { s with
    sent :=
      match s.table csock with
      | some (.connection c) => Function.update s.sent c (s.sent c ++ [bytes])
      | _ => s.sent
    log := s.log ++ [.use thread (s.table csock)] }

/-- `setsockopt` and `shutdown`. -/
def Server.use (s : Server) (thread csock : ℕ) : Server :=
  { s with log := s.log ++ [.use thread (s.table csock)] }

/-- `close`. -/
def Server.close (s : Server) (thread csock : ℕ) : Server :=
  { s with
    table := Function.update s.table csock none
    log := s.log ++ [.close thread (s.table csock)] }

/-- A thread is at another place. -/
def Server.goes (s : Server) (c : ℕ) (t : Thread) (place : Place) : Server :=
  { s with threads := Function.update s.threads c (some { t with place := place }) }

/-- Behind `recv`: a timer is set after the first chunk. -/
def placeBehind (setTimer : Bool) (x : Option Bytes) : Reading ⊕ Bytes → Place
  | .inl r => if x.isSome && !setTimer then .timing r else .reading r setTimer
  | .inr buf => .calling buf

/-- The next step of a thread; it has none if it has returned, if the callback does not return, or
where C leaves undefined what comes. -/
def threadStep (w : Setting) (s : Server) (c : ℕ) (t : Thread) : Option Server :=
  match t.place with
  | .reading r setTimer =>
    let x := s.answers t.csock
    match r.recv (w.memory c) x with
    | .ok next => some ((s.recv c t.csock).goes c t (placeBehind setTimer x next))
    | .error _ => none
  | .timing r => some ((s.use c t.csock).goes c t (.reading r true))
  | .calling buf => (w.callback c buf).map fun response => s.goes c t (.sending response)
  | .sending response =>
    (httpSendClientResponse response (w.left c) (w.socket c)).map fun bytes =>
      (s.send c t.csock bytes).goes c t .hangingUp
  | .hangingUp => some ((s.use c t.csock).goes c t .closing)
  | .closing => some ((s.close c t.csock).goes c t .returned)
  | .returned => none

/-- One thread of the process takes a step. An `accept` that fails changes nothing. -/
inductive Step (w : Setting) (s : Server) : Server → Prop where
  | thread (c : ℕ) (t : Thread) {s' : Server} (ht : s.threads c = some t)
    (h : threadStep w s c t = some s') : Step w s s'
  /-- `accept` hands out any descriptor that is free. -/
  | accept (fd : ℕ) (hmain : s.acceptor = .accepting) (hfree : s.table fd = none)
    (hlimit : fd < w.limit) :
    Step w s { s with
      table := Function.update s.table fd (some (.connection s.accepted))
      acceptor := .creating fd
      accepted := s.accepted + 1
      log := s.log ++ [.accept s.accepted] }
  | create (csock : ℕ) (hmain : s.acceptor = .creating csock) :
    Step w s { s with
      acceptor := .accepting
      threads := Function.update s.threads (s.accepted - 1)
        (some ⟨csock, .reading (.head .init) false⟩) }
  /-- `pthread_create` fails, which is not looked at. -/
  | notCreated (csock : ℕ) (hmain : s.acceptor = .creating csock) :
    Step w s { s with acceptor := .accepting }
  /-- Other code of the process opens something. -/
  | opens (fd : ℕ) (hfree : s.table fd = none) (hlimit : fd < w.limit) :
    Step w s { s with table := Function.update s.table fd (some .other) }
  /-- Other code closes what it opened. -/
  | closes (fd : ℕ) (h : s.table fd = some .other) :
    Step w s { s with table := Function.update s.table fd none }

/-- The state in which `take_connections_forever` is called, whatever else is open by then. -/
structure Starts (w : Setting) (s : Server) : Prop where
  connections : ∀ fd c, s.table fd ≠ some (.connection c)
  limit : ∀ fd, s.table fd ≠ none → fd < w.limit
  acceptor : s.acceptor = .accepting
  accepted : s.accepted = 0
  threads : ∀ c, s.threads c = none
  unread : s.unread = w.arrives
  sent : ∀ c, s.sent c = []
  log : s.log = []

/-- Some run leads from one state to the other. -/
abbrev Reaches (w : Setting) : Server → Server → Prop := Relation.ReflTransGen (Step w)

variable {w : Setting} {s s' : Server}

/-- What a step of a thread can be. -/
inductive ThreadStep (w : Setting) (s : Server) (c : ℕ) (t : Thread) : Server → Prop where
  | recv (r : Reading) (setTimer : Bool) (next : Reading ⊕ Bytes)
    (hplace : t.place = .reading r setTimer)
    (hnext : r.recv (w.memory c) (s.answers t.csock) = .ok next) :
    ThreadStep w s c t
      ((s.recv c t.csock).goes c t (placeBehind setTimer (s.answers t.csock) next))
  | time (r : Reading) (hplace : t.place = .timing r) :
    ThreadStep w s c t ((s.use c t.csock).goes c t (.reading r true))
  | call (buf : Bytes) (response : Response) (hplace : t.place = .calling buf)
    (hcall : w.callback c buf = some response) :
    ThreadStep w s c t (s.goes c t (.sending response))
  | send (response : Response) (bytes : Bytes) (hplace : t.place = .sending response)
    (hsend : httpSendClientResponse response (w.left c) (w.socket c) = some bytes) :
    ThreadStep w s c t ((s.send c t.csock bytes).goes c t .hangingUp)
  | shutdown (hplace : t.place = .hangingUp) :
    ThreadStep w s c t ((s.use c t.csock).goes c t .closing)
  | close (hplace : t.place = .closing) :
    ThreadStep w s c t ((s.close c t.csock).goes c t .returned)

theorem threadStep_cases {c : ℕ} {t : Thread} (h : threadStep w s c t = some s') :
    ThreadStep w s c t s' := by
  rw [threadStep] at h
  split at h
  case h_1 r setTimer hplace =>
    dsimp only at h
    split at h
    case h_1 next hnext =>
      cases h
      exact .recv r setTimer next hplace hnext
    case h_2 => cases h
  case h_2 r hplace =>
    cases h
    exact .time r hplace
  case h_3 buf hplace =>
    obtain ⟨response, hcall, rfl⟩ := Option.map_eq_some_iff.mp h
    exact .call buf response hplace hcall
  case h_4 response hplace =>
    obtain ⟨bytes, hsend, rfl⟩ := Option.map_eq_some_iff.mp h
    exact .send response bytes hplace hsend
  case h_5 hplace =>
    cases h
    exact .shutdown hplace
  case h_6 hplace =>
    cases h
    exact .close hplace
  case h_7 => cases h

/-! ### A thread works on its own connection -/

/-- The descriptors and who knows them. -/
structure Owned (w : Setting) (s : Server) : Prop where
  /-- A thread that has not returned has the descriptor of its connection. -/
  thread : ∀ c t, s.threads c = some t → t.place ≠ .returned →
    s.table t.csock = some (.connection c)
  /-- A thread that has returned has closed it. -/
  gone : ∀ c t, s.threads c = some t → t.place = .returned →
    ∀ fd, s.table fd ≠ some (.connection c)
  named : ∀ c t, s.threads c = some t → c < s.accepted
  /-- What was just accepted has no thread yet. -/
  creating : ∀ csock, s.acceptor = .creating csock →
    ∃ c, s.accepted = c + 1 ∧ s.table csock = some (.connection c) ∧ s.threads c = none
  fresh : ∀ fd c, s.table fd = some (.connection c) → c < s.accepted
  /-- A connection has one descriptor. -/
  single : ∀ fd fd' c, s.table fd = some (.connection c) → s.table fd' = some (.connection c) →
    fd = fd'
  limit : ∀ fd, s.table fd ≠ none → fd < w.limit

theorem owned_of_starts (h : Starts w s) : Owned w s where
  thread c t ht := by
    rw [h.threads c] at ht
    cases ht
  gone c t ht := by
    rw [h.threads c] at ht
    cases ht
  named c t ht := by
    rw [h.threads c] at ht
    cases ht
  creating csock hmain := by
    rw [h.acceptor] at hmain
    cases hmain
  fresh fd c hfd := absurd hfd (h.connections fd c)
  single fd fd' c hfd := absurd hfd (h.connections fd c)
  limit := h.limit

theorem Owned.recv (h : Owned w s) (thread csock : ℕ) : Owned w (s.recv thread csock) :=
  ⟨h.thread, h.gone, h.named, h.creating, h.fresh, h.single, h.limit⟩

theorem Owned.send (h : Owned w s) (thread csock : ℕ) (bytes : Bytes) :
    Owned w (s.send thread csock bytes) :=
  ⟨h.thread, h.gone, h.named, h.creating, h.fresh, h.single, h.limit⟩

theorem Owned.use (h : Owned w s) (thread csock : ℕ) : Owned w (s.use thread csock) :=
  ⟨h.thread, h.gone, h.named, h.creating, h.fresh, h.single, h.limit⟩

/-- The threads behind a step of one of them. -/
theorem threads_goes {c c' : ℕ} {t t' : Thread} {place : Place}
    (h : (s.goes c t place).threads c' = some t') :
    c' = c ∧ t' = { t with place := place } ∨ c' ≠ c ∧ s.threads c' = some t' := by
  by_cases hc : c' = c
  · subst hc
    have hself := (Function.update_self c' _ s.threads).symm.trans h
    exact .inl ⟨rfl, (Option.some.inj hself).symm⟩
  · exact .inr ⟨hc, (Function.update_of_ne hc _ s.threads).symm.trans h⟩

theorem Owned.goes (h : Owned w s) {c : ℕ} {t : Thread} (ht : s.threads c = some t)
    (hplace : t.place ≠ .returned) {place : Place} (hne : place ≠ .returned) :
    Owned w (s.goes c t place) where
  thread c' t' ht' hplace' := by
    rcases threads_goes ht' with ⟨rfl, rfl⟩ | ⟨-, hother⟩
    · exact h.thread c' t ht hplace
    · exact h.thread c' t' hother hplace'
  gone c' t' ht' hplace' := by
    rcases threads_goes ht' with ⟨rfl, rfl⟩ | ⟨-, hother⟩
    · exact absurd hplace' hne
    · exact h.gone c' t' hother hplace'
  named c' t' ht' := by
    rcases threads_goes ht' with ⟨rfl, rfl⟩ | ⟨-, hother⟩
    · exact h.named c' t ht
    · exact h.named c' t' hother
  creating csock hmain := by
    obtain ⟨c', hc', htable, hnone⟩ := h.creating csock hmain
    refine ⟨c', hc', htable, ?_⟩
    have hc : c' ≠ c := by
      rintro rfl
      rw [hnone] at ht
      cases ht
    show Function.update s.threads c _ c' = none
    rw [Function.update_of_ne hc, hnone]
  fresh := h.fresh
  single := h.single
  limit := h.limit

/-- A place behind `recv`. -/
theorem placeBehind_ne_returned (setTimer : Bool) (x : Option Bytes) (next : Reading ⊕ Bytes) :
    placeBehind setTimer x next ≠ .returned := by
  cases next with
  | inl r =>
    rw [placeBehind]
    split <;> nofun
  | inr buf => nofun

/-- A descriptor that was taken is another one than one that is free. -/
theorem ne_of_free {fd fd' : ℕ} {r : Resource} (hfree : s.table fd = none)
    (h : s.table fd' = some r) : fd' ≠ fd := by
  rintro rfl
  rw [hfree] at h
  cases h

/-- The last step of a thread. -/
theorem Owned.close (h : Owned w s) {c : ℕ} {t : Thread} (ht : s.threads c = some t)
    (hplace : t.place ≠ .returned) : Owned w ((s.close c t.csock).goes c t .returned) := by
  have hown := h.thread c t ht hplace
  have hkeeps : ∀ {fd c'}, c' ≠ c → s.table fd = some (.connection c') →
      Function.update s.table t.csock none fd = some (.connection c') := by
    intro fd c' hc hfd
    rw [Function.update_of_ne, hfd]
    rintro rfl
    rw [hown] at hfd
    cases hfd
    exact hc rfl
  have hwas : ∀ {fd r}, Function.update s.table t.csock none fd = some r → s.table fd = some r := by
    intro fd r hfd
    by_cases hsame : fd = t.csock
    · rw [hsame, Function.update_self] at hfd
      cases hfd
    · rwa [Function.update_of_ne hsame] at hfd
  refine ⟨fun c' t' ht' hplace' => ?_, fun c' t' ht' hplace' fd hfd => ?_, fun c' t' ht' => ?_,
    fun csock hmain => ?_, fun fd c' hfd => h.fresh fd c' (hwas hfd),
    fun fd fd' c' hfd hfd' => h.single fd fd' c' (hwas hfd) (hwas hfd'), fun fd hfd => ?_⟩
  · rcases threads_goes ht' with ⟨rfl, rfl⟩ | ⟨hc, hother⟩
    · exact absurd rfl hplace'
    · exact hkeeps hc (h.thread c' t' hother hplace')
  · rcases threads_goes ht' with ⟨rfl, rfl⟩ | ⟨-, hother⟩
    · obtain rfl := h.single fd t.csock c' (hwas hfd) hown
      have hnone : Function.update s.table t.csock none t.csock = some (.connection c') := hfd
      rw [Function.update_self] at hnone
      cases hnone
    · exact h.gone c' t' hother hplace' fd (hwas hfd)
  · rcases threads_goes ht' with ⟨rfl, rfl⟩ | ⟨-, hother⟩
    · exact h.named c' t ht
    · exact h.named c' t' hother
  · obtain ⟨c', hc', htable, hnone⟩ := h.creating csock hmain
    have hc : c' ≠ c := by
      rintro rfl
      rw [hnone] at ht
      cases ht
    exact ⟨c', hc', hkeeps hc htable, (Function.update_of_ne hc _ s.threads).trans hnone⟩
  · obtain ⟨r, hr⟩ := Option.ne_none_iff_exists'.mp hfd
    exact h.limit fd (by simp [hwas hr])

theorem Owned.threadStep (h : Owned w s) {c : ℕ} {t : Thread} (ht : s.threads c = some t)
    (hstep : ThreadStep w s c t s') : Owned w s' := by
  cases hstep with
  | recv r setTimer next hplace _ =>
    exact (h.recv c t.csock).goes ht (by rw [hplace]; nofun) (placeBehind_ne_returned _ _ _)
  | time r hplace => exact (h.use c t.csock).goes ht (by rw [hplace]; nofun) nofun
  | call buf response hplace _ => exact h.goes ht (by rw [hplace]; nofun) nofun
  | send response bytes hplace _ =>
    exact (h.send c t.csock bytes).goes ht (by rw [hplace]; nofun) nofun
  | shutdown hplace => exact (h.use c t.csock).goes ht (by rw [hplace]; nofun) nofun
  | close hplace => exact h.close ht (by rw [hplace]; nofun)

theorem Owned.accept (h : Owned w s) {fd : ℕ} (hfree : s.table fd = none) (hlimit : fd < w.limit) :
    Owned w { s with
      table := Function.update s.table fd (some (.connection s.accepted))
      acceptor := .creating fd
      accepted := s.accepted + 1
      log := s.log ++ [.accept s.accepted] } := by
  have hkeeps : ∀ {fd' r}, s.table fd' = some r →
      Function.update s.table fd (some (.connection s.accepted)) fd' = some r := by
    intro fd' r hfd
    rw [Function.update_of_ne (ne_of_free hfree hfd), hfd]
  have hwas : ∀ {fd' c'},
      Function.update s.table fd (some (.connection s.accepted)) fd' = some (.connection c') →
      fd' = fd ∧ c' = s.accepted ∨ s.table fd' = some (.connection c') := by
    intro fd' c' hfd
    by_cases hsame : fd' = fd
    · rw [hsame, Function.update_self] at hfd
      cases hfd
      exact .inl ⟨hsame, rfl⟩
    · rw [Function.update_of_ne hsame] at hfd
      exact .inr hfd
  refine ⟨fun c' t' ht' hplace' => hkeeps (h.thread c' t' ht' hplace'),
    fun c' t' ht' hplace' fd' hfd' => ?_, fun c' t' ht' => Nat.lt_succ_of_lt (h.named c' t' ht'),
    fun csock hmain' => ?_, fun fd' c' hfd' => ?_, fun fd₁ fd₂ c' h₁ h₂ => ?_, fun fd' hfd' => ?_⟩
  · rcases hwas hfd' with ⟨-, rfl⟩ | hold
    · exact absurd (h.named _ t' ht') (Nat.lt_irrefl _)
    · exact h.gone c' t' ht' hplace' fd' hold
  · cases hmain'
    refine ⟨s.accepted, rfl, Function.update_self .., ?_⟩
    cases hthread : s.threads s.accepted with
    | none => rfl
    | some t => exact absurd (h.named _ t hthread) (Nat.lt_irrefl _)
  · rcases hwas hfd' with ⟨-, rfl⟩ | hold
    · exact Nat.lt_succ_self _
    · exact Nat.lt_succ_of_lt (h.fresh fd' c' hold)
  · rcases hwas h₁ with ⟨rfl, rfl⟩ | hold₁ <;> rcases hwas h₂ with ⟨rfl, hc⟩ | hold₂
    · rfl
    · exact absurd (h.fresh fd₂ _ hold₂) (Nat.lt_irrefl _)
    · exact absurd (hc ▸ h.fresh fd₁ _ hold₁) (Nat.lt_irrefl _)
    · exact h.single fd₁ fd₂ c' hold₁ hold₂
  · by_cases hsame : fd' = fd
    · exact hsame ▸ hlimit
    · refine h.limit fd' ?_
      rwa [← Function.update_of_ne hsame (some (.connection s.accepted)) s.table]

theorem Owned.create (h : Owned w s) {csock : ℕ} (hmain : s.acceptor = .creating csock) :
    Owned w { s with
      acceptor := .accepting
      threads := Function.update s.threads (s.accepted - 1)
        (some ⟨csock, .reading (.head .init) false⟩) } := by
  obtain ⟨c, hc, htable, -⟩ := h.creating csock hmain
  have hlast : s.accepted - 1 = c := by omega
  have hwas : ∀ {c' t'}, Function.update s.threads (s.accepted - 1)
      (some ⟨csock, .reading (.head .init) false⟩) c' = some t' →
      c' = c ∧ t' = ⟨csock, .reading (.head .init) false⟩ ∨ s.threads c' = some t' := by
    intro c' t' ht'
    rw [hlast] at ht'
    by_cases hsame : c' = c
    · rw [hsame, Function.update_self] at ht'
      exact .inl ⟨hsame, (Option.some.inj ht').symm⟩
    · rw [Function.update_of_ne hsame] at ht'
      exact .inr ht'
  refine ⟨fun c' t' ht' hplace' => ?_, fun c' t' ht' hplace' => ?_, fun c' t' ht' => ?_, nofun,
    h.fresh, h.single, h.limit⟩
  · rcases hwas ht' with ⟨rfl, rfl⟩ | hold
    · exact htable
    · exact h.thread c' t' hold hplace'
  · rcases hwas ht' with ⟨rfl, rfl⟩ | hold
    · cases hplace'
    · exact h.gone c' t' hold hplace'
  · rcases hwas ht' with ⟨rfl, rfl⟩ | hold
    · show c' < s.accepted
      omega
    · exact h.named c' t' hold

/-- Other code opens or closes a descriptor that no connection has. -/
theorem Owned.update (h : Owned w s) {fd : ℕ} {r : Option Resource}
    (hold : ∀ c, s.table fd ≠ some (.connection c)) (hnew : ∀ c, r ≠ some (.connection c))
    (hlimit : fd < w.limit) : Owned w { s with table := Function.update s.table fd r } := by
  have hiff : ∀ {fd' c}, Function.update s.table fd r fd' = some (.connection c) ↔
      s.table fd' = some (.connection c) := by
    intro fd' c
    by_cases hsame : fd' = fd
    · rw [hsame, Function.update_self]
      exact iff_of_false (hnew c) (hold c)
    · rw [Function.update_of_ne hsame]
  refine ⟨fun c t ht hplace => hiff.mpr (h.thread c t ht hplace),
    fun c t ht hplace fd' hfd' => h.gone c t ht hplace fd' (hiff.mp hfd'), h.named,
    fun csock hmain => ?_, fun fd' c hfd' => h.fresh fd' c (hiff.mp hfd'),
    fun fd₁ fd₂ c h₁ h₂ => h.single fd₁ fd₂ c (hiff.mp h₁) (hiff.mp h₂), fun fd' hfd' => ?_⟩
  · obtain ⟨c, hc, htable, hnone⟩ := h.creating csock hmain
    exact ⟨c, hc, hiff.mpr htable, hnone⟩
  · by_cases hsame : fd' = fd
    · exact hsame ▸ hlimit
    · refine h.limit fd' ?_
      rwa [← Function.update_of_ne hsame r s.table]

/-- **Every step keeps the descriptors with their owners.** -/
theorem Owned.step (h : Owned w s) (hstep : Step w s s') : Owned w s' := by
  cases hstep with
  | thread c t ht hthread => exact h.threadStep ht (threadStep_cases hthread)
  | accept fd _ hfree hlimit => exact h.accept hfree hlimit
  | create csock hmain => exact h.create hmain
  | notCreated csock hmain =>
    exact ⟨h.thread, h.gone, h.named, nofun, h.fresh, h.single, h.limit⟩
  | opens fd hfree hlimit =>
    exact h.update (fun c => by rw [hfree]; nofun) (fun c => by nofun) hlimit
  | closes fd hother =>
    exact h.update (fun c => by rw [hother]; nofun) (fun c => by nofun)
      (h.limit fd (by rw [hother]; nofun))

/-- **A thread works on its own connection**, in every state that a run leads to. -/
theorem owned {s₀ : Server} (h : Starts w s₀) (hrun : Reaches w s₀ s) : Owned w s := by
  induction hrun with
  | refl => exact owned_of_starts h
  | tail _ hlast ih => exact ih.step hlast

/-! ### A connection is used while it is open, and closed once -/

/-- A call of a thread was on its own connection. -/
def SocketCall.Own : SocketCall → Prop
  | .accept _ => True
  | .use thread hit | .close thread hit => hit = some (.connection thread)

/-- What a call does with what its descriptor referred to. -/
def SocketCall.event : SocketCall → HandleEvent (Option Resource)
  | .accept c => .opened (some (.connection c))
  | .use _ hit => .used hit
  | .close _ hit => .closed hit

def Server.events (s : Server) : List (HandleEvent (Option Resource)) :=
  s.log.map SocketCall.event

def Server.IsOpen (s : Server) (c : ℕ) : Prop := ∃ fd, s.table fd = some (.connection c)

/-- The thread of the connection has returned. -/
def Server.Finished (s : Server) (c : ℕ) : Prop := ∃ t, s.threads c = some t ∧ t.place = .returned

/-- What was done on connections so far. -/
structure Orderly (s : Server) : Prop where
  own : ∀ call ∈ s.log, call.Own
  live : ∃ live, after [] s.events = some live ∧
    ∀ hit, hit ∈ live ↔ ∃ c, hit = some (.connection c) ∧ s.IsOpen c
  opened : ∀ c, s.events.count (.opened (some (.connection c))) = if c < s.accepted then 1 else 0

theorem orderly_of_starts (h : Starts w s) : Orderly s where
  own call hcall := by
    rw [h.log] at hcall
    cases hcall
  live := by
    refine ⟨[], by rw [Server.events, h.log]; rfl, fun hit => iff_of_false (by simp) ?_⟩
    rintro ⟨c, -, fd, hfd⟩
    exact h.connections fd c hfd
  opened c := by
    rw [Server.events, h.log, h.accepted, if_neg (Nat.not_lt_zero c)]
    rfl

theorem Orderly.goes (h : Orderly s) (c : ℕ) (t : Thread) (place : Place) :
    Orderly (s.goes c t place) :=
  ⟨h.own, h.live, h.opened⟩

theorem own_concat {call : SocketCall} (h : Orderly s) (hcall : call.Own) :
    ∀ call' ∈ s.log ++ [call], call'.Own := by
  intro call' hmem
  rcases List.mem_append.mp hmem with hold | hnew
  · exact h.own call' hold
  · rw [List.mem_singleton.mp hnew]
    exact hcall

theorem after_concat {live : List (Option Resource)} (h : after [] s.events = some live)
    (call : SocketCall) :
    after [] ((s.log ++ [call]).map SocketCall.event) = next live call.event := by
  rw [List.map_append]
  refine (after_append_of_eq h _).trans ?_
  rw [List.map_singleton, after]
  exact Option.bind_fun_some _

theorem Orderly.use (h : Orderly s) {c csock : ℕ} (hown : s.table csock = some (.connection c)) :
    Orderly (s.use c csock) := by
  obtain ⟨live, hafter, hlive⟩ := h.live
  have hmem := (hlive (s.table csock)).mpr ⟨c, hown, csock, hown⟩
  refine ⟨own_concat h hown, ⟨live, (after_concat hafter _).trans (if_pos hmem), hlive⟩,
    fun c' => ?_⟩
  · have hold := h.opened c'
    rw [Server.events, Server.use, List.map_append, List.count_append]
    simpa [SocketCall.event, Server.events] using hold

theorem Orderly.close (h : Orderly s) (hsingle : ∀ fd fd' c,
      s.table fd = some (.connection c) → s.table fd' = some (.connection c) → fd = fd')
    {c csock : ℕ} (hown : s.table csock = some (.connection c)) : Orderly (s.close c csock) := by
  obtain ⟨live, hafter, hlive⟩ := h.live
  have hnodup := nodup_after hafter List.nodup_nil
  have hmem := (hlive (s.table csock)).mpr ⟨c, hown, csock, hown⟩
  refine ⟨own_concat h hown, ⟨_, (after_concat hafter _).trans (if_pos hmem), fun hit => ?_⟩,
    fun c' => ?_⟩
  · rw [mem_erase_iff hnodup, hlive]
    constructor
    · rintro ⟨hne, c', rfl, fd, hfd⟩
      refine ⟨c', rfl, fd, (Function.update_of_ne ?_ _ s.table).trans hfd⟩
      rintro rfl
      exact hne hfd.symm
    · rintro ⟨c', rfl, fd, hfd⟩
      have hfd' : Function.update s.table csock none fd = some (.connection c') := hfd
      have hne : fd ≠ csock := by
        rintro rfl
        rw [Function.update_self] at hfd'
        cases hfd'
      rw [Function.update_of_ne hne] at hfd'
      refine ⟨fun hsame => hne ?_, c', rfl, fd, hfd'⟩
      exact hsingle fd csock c' hfd' hsame.symm
  · have hold := h.opened c'
    rw [Server.events, Server.close, List.map_append, List.count_append]
    simpa [SocketCall.event, Server.events] using hold

theorem Orderly.accept (h : Orderly s) (hfresh : ∀ fd c,
      s.table fd = some (.connection c) → c < s.accepted)
    {fd : ℕ} (hfree : s.table fd = none) (acceptor : Acceptor) :
    Orderly { s with
      table := Function.update s.table fd (some (.connection s.accepted))
      acceptor := acceptor
      accepted := s.accepted + 1
      log := s.log ++ [.accept s.accepted] } := by
  obtain ⟨live, hafter, hlive⟩ := h.live
  refine ⟨own_concat h trivial, ⟨some (.connection s.accepted) :: live, ?_, fun hit => ?_⟩,
    fun c => ?_⟩
  · have hmem : some (.connection s.accepted) ∉ live := by
      intro hmem
      obtain ⟨c, hc, fd', hfd'⟩ := (hlive _).mp hmem
      cases hc
      exact Nat.lt_irrefl _ (hfresh fd' _ hfd')
    exact (after_concat hafter _).trans (if_neg hmem)
  · rw [List.mem_cons, hlive]
    constructor
    · rintro (rfl | ⟨c, rfl, fd', hfd'⟩)
      · exact ⟨s.accepted, rfl, fd, Function.update_self ..⟩
      · refine ⟨c, rfl, fd', (Function.update_of_ne ?_ _ s.table).trans hfd'⟩
        exact ne_of_free hfree hfd'
    · rintro ⟨c, rfl, fd', hfd'⟩
      by_cases hsame : fd' = fd
      · have hself := (Function.update_self fd (some (.connection s.accepted)) s.table).symm.trans
          (hsame ▸ hfd')
        exact .inl hself.symm
      · exact .inr ⟨c, rfl, fd', (Function.update_of_ne hsame _ s.table).symm.trans hfd'⟩
  · have hold := h.opened c
    rw [Server.events, List.map_append, List.count_append, ← Server.events, hold]
    simp only [List.map_cons, List.map_nil, SocketCall.event, List.count_singleton]
    by_cases hc : c = s.accepted
    · simp [hc]
    · have hne : s.accepted ≠ c := fun hc' => hc hc'.symm
      simp only [beq_iff_eq, HandleEvent.opened.injEq, Option.some.injEq,
        Resource.connection.injEq, if_neg hne]
      split <;> split <;> omega

theorem Orderly.threadStep (h : Orderly s) (hown : Owned w s) {c : ℕ} {t : Thread}
    (ht : s.threads c = some t) (hstep : ThreadStep w s c t s') : Orderly s' := by
  have hmine : t.place ≠ .returned → s.table t.csock = some (.connection c) := hown.thread c t ht
  have hused : t.place ≠ .returned → Orderly (s.use c t.csock) := fun hplace => h.use (hmine hplace)
  cases hstep with
  | recv r setTimer next hplace _ =>
    have hlog := hused (by rw [hplace]; nofun)
    exact ⟨hlog.own, hlog.live, hlog.opened⟩
  | send response bytes hplace _ =>
    have hlog := hused (by rw [hplace]; nofun)
    exact ⟨hlog.own, hlog.live, hlog.opened⟩
  | time r hplace => exact (hused (by rw [hplace]; nofun)).goes c t _
  | call buf response hplace _ => exact h.goes c t _
  | shutdown hplace => exact (hused (by rw [hplace]; nofun)).goes c t _
  | close hplace => exact (h.close hown.single (hmine (by rw [hplace]; nofun))).goes c t _

/-- What other code opens and closes is no connection. -/
theorem Orderly.update (h : Orderly s) {fd : ℕ} {r : Option Resource}
    (hold : ∀ c, s.table fd ≠ some (.connection c)) (hnew : ∀ c, r ≠ some (.connection c)) :
    Orderly { s with table := Function.update s.table fd r } := by
  obtain ⟨live, hafter, hlive⟩ := h.live
  refine ⟨h.own, ⟨live, hafter, fun hit => (hlive hit).trans ?_⟩, h.opened⟩
  refine exists_congr fun c => and_congr_right fun _ => exists_congr fun fd' => ?_
  by_cases hsame : fd' = fd
  · rw [hsame]
    refine iff_of_false (hold c) fun hfd => hnew c ?_
    exact (Function.update_self fd r s.table).symm.trans hfd
  · show _ ↔ Function.update s.table fd r fd' = _
    rw [Function.update_of_ne hsame]

theorem Orderly.step (h : Orderly s) (hown : Owned w s) (hstep : Step w s s') : Orderly s' := by
  cases hstep with
  | thread c t ht hthread => exact h.threadStep hown ht (threadStep_cases hthread)
  | accept fd _ hfree _ => exact h.accept hown.fresh hfree _
  | create csock _ => exact ⟨h.own, h.live, h.opened⟩
  | notCreated csock _ => exact ⟨h.own, h.live, h.opened⟩
  | opens fd hfree _ => exact h.update (fun c => by rw [hfree]; nofun) nofun
  | closes fd hother => exact h.update (fun c => by rw [hother]; nofun) nofun

/-- Nothing but its own thread closes a connection. -/
def Kept (s : Server) : Prop := ∀ c, c < s.accepted → ¬ s.Finished c → s.IsOpen c

theorem Kept.goes (h : Kept s) (hown : Owned w s) {c : ℕ} {t : Thread} (ht : s.threads c = some t)
    (hplace : t.place ≠ .returned) (place : Place) : Kept (s.goes c t place) := by
  intro c' hc' hfin
  by_cases hsame : c' = c
  · subst hsame
    exact ⟨t.csock, hown.thread c' t ht hplace⟩
  · refine h c' hc' ?_
    rintro ⟨t', ht', hplace'⟩
    exact hfin ⟨t', (Function.update_of_ne hsame _ s.threads).trans ht', hplace'⟩

theorem Kept.threadStep (h : Kept s) (hown : Owned w s) {c : ℕ} {t : Thread}
    (ht : s.threads c = some t) (hstep : ThreadStep w s c t s') : Kept s' := by
  cases hstep with
  | recv r setTimer next hplace _ => exact h.goes hown ht (by rw [hplace]; nofun) _
  | time r hplace => exact h.goes hown ht (by rw [hplace]; nofun) _
  | call buf response hplace _ => exact h.goes hown ht (by rw [hplace]; nofun) _
  | send response bytes hplace _ => exact h.goes hown ht (by rw [hplace]; nofun) _
  | shutdown hplace => exact h.goes hown ht (by rw [hplace]; nofun) _
  | close hplace =>
    intro c' hc' hfin
    have hne : c' ≠ c := by
      rintro rfl
      exact hfin ⟨_, Function.update_self .., rfl⟩
    have hmine := hown.thread c t ht (by rw [hplace]; nofun)
    obtain ⟨fd, hfd⟩ := h.goes hown ht (by rw [hplace]; nofun) .returned c' hc' hfin
    have hother : fd ≠ t.csock := by
      rintro rfl
      cases hmine.symm.trans hfd
      exact hne rfl
    exact ⟨fd, (Function.update_of_ne hother _ s.table).trans hfd⟩

theorem Kept.step (h : Kept s) (hown : Owned w s) (hstep : Step w s s') : Kept s' := by
  have hfrom : ∀ {fd : ℕ} {r : Option Resource} {c : ℕ},
      (∀ c', s.table fd ≠ some (.connection c')) →
      s.IsOpen c → ∃ fd', Function.update s.table fd r fd' = some (.connection c) := by
    rintro fd r c hold ⟨fd', hfd'⟩
    have hother : fd' ≠ fd := by
      rintro rfl
      exact hold c hfd'
    exact ⟨fd', (Function.update_of_ne hother _ s.table).trans hfd'⟩
  cases hstep with
  | thread c t ht hthread => exact h.threadStep hown ht (threadStep_cases hthread)
  | accept fd _ hfree _ =>
    intro c hc hfin
    rcases Nat.lt_succ_iff_lt_or_eq.mp hc with hlt | rfl
    · exact hfrom (fun c' => by rw [hfree]; nofun) (h c hlt hfin)
    · exact ⟨fd, Function.update_self ..⟩
  | create csock hmain =>
    obtain ⟨c₀, hc₀, -, hnone⟩ := hown.creating csock hmain
    intro c hc hfin
    refine h c hc ?_
    rintro ⟨t, ht, hplace⟩
    have hne : c ≠ s.accepted - 1 := by
      rintro rfl
      rw [show s.accepted - 1 = c₀ by omega, hnone] at ht
      cases ht
    exact hfin ⟨t, (Function.update_of_ne hne _ s.threads).trans ht, hplace⟩
  | notCreated csock _ => exact h
  | opens fd hfree _ =>
    intro c hc hfin
    exact hfrom (fun c' => by rw [hfree]; nofun) (h c hc hfin)
  | closes fd hother =>
    intro c hc hfin
    exact hfrom (fun c' => by rw [hother]; nofun) (h c hc hfin)

theorem kept {s₀ : Server} (h : Starts w s₀) (hrun : Reaches w s₀ s) : Kept s := by
  induction hrun with
  | refl =>
    intro c hc
    rw [h.accepted] at hc
    exact absurd hc (Nat.not_lt_zero c)
  | tail hfront hlast ih => exact ih.step (owned h hfront) hlast

theorem orderly {s₀ : Server} (h : Starts w s₀) (hrun : Reaches w s₀ s) : Orderly s := by
  induction hrun with
  | refl => exact orderly_of_starts h
  | tail hfront hlast ih => exact ih.step (owned h hfront) hlast

theorem isOpen_iff (hown : Owned w s) (hkept : Kept s) (c : ℕ) :
    s.IsOpen c ↔ c < s.accepted ∧ ¬ s.Finished c := by
  refine ⟨?_, fun ⟨hc, hfin⟩ => hkept c hc hfin⟩
  rintro ⟨fd, hfd⟩
  refine ⟨hown.fresh fd c hfd, ?_⟩
  rintro ⟨t, ht, hplace⟩
  exact hown.gone c t ht hplace fd hfd

/-- The calls on connections, over a run. -/
structure Lifecycle (s : Server) : Prop where
  own : ∀ call ∈ s.log, call.Own
  /-- Nothing is used or closed that is not open. -/
  allowed : (after [] s.events).isSome
  isOpen : ∀ c, s.IsOpen c ↔ c < s.accepted ∧ ¬ s.Finished c
  opened : ∀ c, s.events.count (.opened (some (.connection c))) = 1 ↔ c < s.accepted
  closed : ∀ c, s.events.count (.closed (some (.connection c))) = 1 ↔ s.Finished c
  once : ∀ c, s.events.count (.closed (some (.connection c))) ≤ 1

/-- **Whatever the order of the steps, and however often descriptors are handed out again**, every
call of a thread is on the connection that the thread was created for while that is open, and a
connection is closed once, by its thread at its end, or never. -/
theorem lifecycle {s₀ : Server} (h : Starts w s₀) (hrun : Reaches w s₀ s) : Lifecycle s := by
  have hown := owned h hrun
  have horderly := orderly h hrun
  have hopen := isOpen_iff hown (kept h hrun)
  obtain ⟨live, hafter, hlive⟩ := horderly.live
  have hmem : ∀ c, some (.connection c) ∈ live ↔ c < s.accepted ∧ ¬ s.Finished c := by
    intro c
    rw [hlive, ← hopen]
    constructor
    · rintro ⟨c', hc', hopen'⟩
      cases hc'
      exact hopen'
    · exact fun hopen' => ⟨c, rfl, hopen'⟩
  have hcount : ∀ c, ∃ k, (if c < s.accepted then 1 else 0) =
      s.events.count (.closed (some (.connection c))) + k ∧
        (0 < k ↔ c < s.accepted ∧ ¬ s.Finished c) := by
    intro c
    obtain ⟨k, hk, hpos⟩ := exists_left_open hafter (some (.connection c))
    exact ⟨k, (horderly.opened c).symm.trans hk, hpos.trans (hmem c)⟩
  refine ⟨horderly.own, by rw [hafter]; rfl, hopen, fun c => ?_, fun c => ?_, fun c => ?_⟩
  · rw [horderly.opened]
    split <;> simp_all
  · obtain ⟨k, hk, hpos⟩ := hcount c
    constructor
    · intro hone
      by_contra hfin
      split at hk
      case isTrue hlt =>
        have := hpos.mpr ⟨hlt, hfin⟩
        omega
      case isFalse => omega
    · intro hfin
      have hlt : c < s.accepted := by
        obtain ⟨t, ht, -⟩ := hfin
        exact hown.named c t ht
      have hzero : ¬ 0 < k := fun hk' => (hpos.mp hk').2 hfin
      rw [if_pos hlt] at hk
      omega
  · obtain ⟨k, hk, -⟩ := hcount c
    split at hk <;> omega

/-- The listening socket has the descriptor 0, and nothing else is open. -/
def Server.initial (w : Setting) : Server where
  table fd := if fd = 0 then some .standing else none
  acceptor := .accepting
  accepted := 0
  threads _ := none
  unread := w.arrives
  sent _ := []
  log := []

theorem starts_initial (hlimit : 0 < w.limit) : Starts w (.initial w) := by
  refine ⟨fun fd c => ?_, fun fd hfd => ?_, rfl, rfl, fun _ => rfl, rfl, fun _ => rfl, rfl⟩
  · show (if fd = 0 then some Resource.standing else none) ≠ _
    split <;> nofun
  · have hzero : fd = 0 := by
      by_contra hne
      exact hfd (if_neg hne)
    rwa [hzero]

end AhungryJanet.Serving
