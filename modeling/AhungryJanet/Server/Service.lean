import AhungryJanet.Server.Close
import AhungryJanet.Server.Workers
import Mathlib.Data.Finset.Card

/-!
# What the server does for a connection

Over any run of the server, connection by connection. What is sent on a connection is made from what
`read_tcp` returns for what arrives on this connection alone, and it is sent once. No thread waits
for another: one whose request is complete gets to its end by its own steps.

A connection on which no request gets complete is never closed. Its thread polls for ever, and when
such connections have taken all descriptors, nothing is accepted any more.

## Main results

* `serves` — what a run sends
* `finishes` — a thread is done without the others
* `exhausted` — a server that accepts nothing any more
* `answered_in_full` — an ordinary request, from the socket through the handler and back
-/

namespace AhungryJanet.Serving

open Polling Handles

/-- What is sent for what arrives on a connection: by `read_tcp`, the callback and `send`. -/
def Served (w : Setting) (c : ℕ) (bytes : Bytes) : Prop :=
  ∃ request response, readTcp (w.memory c) (w.arrives c) = .returned request ∧
    w.callback c request = some response ∧
    httpSendClientResponse response (w.left c) (w.socket c) = some bytes

theorem Served.unique {w : Setting} {c : ℕ} {bytes bytes' : Bytes} (h : Served w c bytes)
    (h' : Served w c bytes') : bytes = bytes' := by
  obtain ⟨request, response, hread, hcall, hsend⟩ := h
  obtain ⟨request', response', hread', hcall', hsend'⟩ := h'
  cases hread.symm.trans hread'
  cases hcall.symm.trans hcall'
  exact Option.some.inj (hsend.symm.trans hsend')

/-- How far a thread has come with its connection. -/
def Follows (w : Setting) (c : ℕ) (unread : Delivery) (sent : List Bytes) : Place → Prop
  | .reading r _ | .timing r =>
    r.outcome (w.memory c) unread = readTcp (w.memory c) (w.arrives c) ∧ sent = []
  | .calling buf => readTcp (w.memory c) (w.arrives c) = .returned buf ∧ sent = []
  | .sending response =>
    (∃ request, readTcp (w.memory c) (w.arrives c) = .returned request ∧
      w.callback c request = some response) ∧ sent = []
  | .hangingUp | .closing | .returned => ∃ bytes, Served w c bytes ∧ sent = [bytes]

/-- All of the threads have come as far as they say. -/
structure Following (w : Setting) (s : Server) : Prop where
  thread : ∀ c t, s.threads c = some t → Follows w c (s.unread c) (s.sent c) t.place
  /-- On a connection without a thread nothing happens. -/
  idle : ∀ c, s.threads c = none → s.unread c = w.arrives c ∧ s.sent c = []

variable {w : Setting} {s s' : Server}

theorem following_of_starts (h : Starts w s) : Following w s where
  thread c t ht := by
    rw [h.threads c] at ht
    cases ht
  idle c _ := ⟨congrFun h.unread c, h.sent c⟩

/-- A step of a thread changes what has to do with its own connection. -/
theorem Following.of_step (h : Following w s) {c : ℕ} {t : Thread} (ht : s.threads c = some t)
    {place : Place} (hthreads : s'.threads = Function.update s.threads c
      (some { t with place := place }))
    (hunread : ∀ c', c' ≠ c → s'.unread c' = s.unread c')
    (hsent : ∀ c', c' ≠ c → s'.sent c' = s.sent c')
    (hmine : Follows w c (s'.unread c) (s'.sent c) place) : Following w s' where
  thread c' t' ht' := by
    rw [hthreads] at ht'
    by_cases hsame : c' = c
    · subst hsame
      rw [Function.update_self] at ht'
      cases ht'
      exact hmine
    · rw [Function.update_of_ne hsame] at ht'
      rw [hunread c' hsame, hsent c' hsame]
      exact h.thread c' t' ht'
  idle c' hnone := by
    rw [hthreads] at hnone
    by_cases hsame : c' = c
    · rw [hsame, Function.update_self] at hnone
      cases hnone
    · rw [Function.update_of_ne hsame] at hnone
      rw [hunread c' hsame, hsent c' hsame]
      exact h.idle c' hnone

theorem answers_eq {c csock : ℕ} (h : s.table csock = some (.connection c)) :
    s.answers csock = answer (s.unread c) := by
  rw [Server.answers, h]

theorem unread_recv {c csock : ℕ} (h : s.table csock = some (.connection c)) (thread : ℕ) :
    (s.recv thread csock).unread = Function.update s.unread c (s.unread c).tail := by
  simp only [Server.recv, h]

theorem sent_send {c csock : ℕ} (h : s.table csock = some (.connection c)) (thread : ℕ)
    (bytes : Bytes) :
    (s.send thread csock bytes).sent = Function.update s.sent c (s.sent c ++ [bytes]) := by
  simp only [Server.send, h]

/-- Behind a `recv`, be it the end of `read_tcp` or not. -/
theorem follows_placeBehind {c : ℕ} {r : Reading} {unread : Delivery} {setTimer : Bool}
    {next : Reading ⊕ Bytes} {sent : List Bytes}
    (h : Follows w c unread sent (.reading r setTimer))
    (hnext : r.recv (w.memory c) (answer unread) = .ok next) :
    Follows w c unread.tail sent (placeBehind setTimer (answer unread) next) := by
  obtain ⟨hread, hsent⟩ := h
  rw [← Reading.outcome_of_recv, hnext] at hread
  cases next with
  | inl r' =>
    rw [placeBehind]
    split <;> exact ⟨hread, hsent⟩
  | inr buf => exact ⟨hread.symm, hsent⟩

theorem Following.threadStep (h : Following w s) (hown : Owned w s) {c : ℕ} {t : Thread}
    (ht : s.threads c = some t) (hstep : ThreadStep w s c t s') : Following w s' := by
  have hfollows := h.thread c t ht
  have hmine : t.place ≠ .returned → s.table t.csock = some (.connection c) := hown.thread c t ht
  cases hstep with
  | recv r setTimer next hplace hnext =>
    have hfd := hmine (by rw [hplace]; nofun)
    rw [hplace] at hfollows
    rw [answers_eq hfd] at hnext
    refine h.of_step ht rfl (fun c' hc' => ?_) (fun c' _ => rfl) ?_
    · exact (congrFun (unread_recv hfd c) c').trans (Function.update_of_ne hc' ..)
    · have hunread := (congrFun (unread_recv hfd c) c).trans (Function.update_self ..)
      show Follows w c ((s.recv c t.csock).unread c) (s.sent c) _
      rw [hunread, answers_eq hfd]
      exact follows_placeBehind hfollows hnext
  | time r hplace =>
    rw [hplace] at hfollows
    exact h.of_step ht rfl (fun _ _ => rfl) (fun _ _ => rfl) hfollows
  | call buf response hplace hcall =>
    rw [hplace] at hfollows
    obtain ⟨hread, hsent⟩ := hfollows
    exact h.of_step ht rfl (fun _ _ => rfl) (fun _ _ => rfl) ⟨⟨buf, hread, hcall⟩, hsent⟩
  | send response bytes hplace hsend =>
    have hfd := hmine (by rw [hplace]; nofun)
    rw [hplace] at hfollows
    obtain ⟨⟨request, hread, hcall⟩, hsent⟩ := hfollows
    refine h.of_step ht rfl (fun _ _ => rfl) (fun c' hc' => ?_)
      ⟨bytes, ⟨request, response, hread, hcall, hsend⟩, ?_⟩
    · exact (congrFun (sent_send hfd c bytes) c').trans (Function.update_of_ne hc' ..)
    · refine (congrFun (sent_send hfd c bytes) c).trans ?_
      rw [Function.update_self, hsent]
      rfl
  | shutdown hplace =>
    rw [hplace] at hfollows
    exact h.of_step ht rfl (fun _ _ => rfl) (fun _ _ => rfl) hfollows
  | close hplace =>
    rw [hplace] at hfollows
    exact h.of_step ht rfl (fun _ _ => rfl) (fun _ _ => rfl) hfollows

theorem Following.create (h : Following w s) (hown : Owned w s) {csock : ℕ}
    (hmain : s.acceptor = .creating csock) :
    Following w { s with
      acceptor := .accepting
      threads := Function.update s.threads (s.accepted - 1)
        (some ⟨csock, .reading (.head .init) false⟩) } := by
  obtain ⟨c₀, hc₀, -, hnone⟩ := hown.creating csock hmain
  rw [show c₀ = s.accepted - 1 by omega] at hnone
  obtain ⟨hunread, hsent⟩ := h.idle (s.accepted - 1) hnone
  constructor
  · intro c t ht
    by_cases hsame : c = s.accepted - 1
    · subst hsame
      cases (Function.update_self (s.accepted - 1) _ s.threads).symm.trans ht
      refine ⟨?_, hsent⟩
      rw [outcome_init, hunread]
    · exact h.thread c t ((Function.update_of_ne hsame _ s.threads).symm.trans ht)
  · intro c hc
    by_cases hsame : c = s.accepted - 1
    · subst hsame
      cases (Function.update_self (s.accepted - 1) _ s.threads).symm.trans hc
    · exact h.idle c ((Function.update_of_ne hsame _ s.threads).symm.trans hc)

theorem Following.step (h : Following w s) (hown : Owned w s) (hstep : Step w s s') :
    Following w s' := by
  cases hstep with
  | thread c t ht hthread => exact h.threadStep hown ht (threadStep_cases hthread)
  | create csock hmain => exact h.create hown hmain
  | accept | notCreated | opens | closes => exact ⟨h.thread, h.idle⟩

theorem following {s₀ : Server} (h : Starts w s₀) (hrun : Reaches w s₀ s) : Following w s := by
  induction hrun with
  | refl => exact following_of_starts h
  | tail hfront hlast ih => exact ih.step (owned h hfront) hlast

theorem Following.sent_cases (h : Following w s) (c : ℕ) :
    s.sent c = [] ∨ ∃ bytes, Served w c bytes ∧ s.sent c = [bytes] := by
  cases ht : s.threads c with
  | none => exact .inl (h.idle c ht).2
  | some t =>
    have hfollows := h.thread c t ht
    cases hplace : t.place with
    | reading r setTimer | timing r | calling buf | sending response =>
      rw [hplace] at hfollows
      exact .inl hfollows.2
    | hangingUp | closing | returned =>
      rw [hplace] at hfollows
      exact .inr hfollows

theorem Following.sent_of_finished (h : Following w s) {c : ℕ} (hfin : s.Finished c) :
    ∃ bytes, Served w c bytes ∧ s.sent c = [bytes] := by
  obtain ⟨t, ht, hplace⟩ := hfin
  have hfollows := h.thread c t ht
  rwa [hplace] at hfollows

/-- **What is sent on a connection is what `read_tcp`, the callback and `send` make of what arrives
on it**, and it is sent once, whatever the other threads do. A thread that has returned has sent
it. -/
theorem serves {s₀ : Server} (h : Starts w s₀) (hrun : Reaches w s₀ s) (c : ℕ) :
    (s.sent c = [] ∨ ∃ bytes, Served w c bytes ∧ s.sent c = [bytes]) ∧
      (s.Finished c → ∃ bytes, Served w c bytes ∧ s.sent c = [bytes]) :=
  ⟨(following h hrun).sent_cases c, (following h hrun).sent_of_finished⟩

/-- One request, and a callback that always gives the fixed response. -/
def Setting.one : Setting where
  limit := 2
  arrives _ := [some getRoot]
  memory _ := .zeroed
  callback _ _ := some .fixed
  left _ := []
  socket _ := .ready

theorem httpSendClientResponse_ready {response : Response} {left : Bytes}
    (h : 0 ∈ response.memory left) :
    httpSendClientResponse response left .ready = some (cstr (response.memory left)) := by
  simp only [httpSendClientResponse, if_pos h, Socket.ready, List.take_length]

theorem served_one : Served .one 0 internalServerError := by
  refine ⟨getRoot, .fixed, by decide +kernel, rfl, ?_⟩
  have hzero : 0 ∈ Response.fixed.memory [] := List.mem_append_right _ (List.mem_singleton_self 0)
  refine (httpSendClientResponse_ready hzero).trans (congrArg some ?_)
  have hfree : NulFree internalServerError := by decide +kernel
  exact cstr_append_zero hfree []

/-- The connection is accepted, and its thread is there. -/
theorem reaches_created (w : Setting) (hlimit : 1 < w.limit) :
    ∃ s, Reaches w (.initial w) s ∧ s.accepted = 1 ∧ (s.threads 0).isSome ∧
      s.acceptor = .accepting ∧ s.table 1 = some (.connection 0) := by
  have hfirst : Step w (.initial w) _ := .accept 1 rfl rfl hlimit
  exact ⟨_, (Relation.ReflTransGen.single hfirst).tail (.create 1 rfl), rfl, rfl, rfl, rfl⟩

/-! ### A thread by itself -/

/-- Some steps of one thread. -/
abbrev Alone (w : Setting) (c : ℕ) : Server → Server → Prop :=
  Relation.ReflTransGen fun s s' => ∃ t, s.threads c = some t ∧ threadStep w s c t = some s'

theorem Alone.reaches {c : ℕ} (h : Alone w c s s') : Reaches w s s' :=
  Relation.ReflTransGen.mono (fun _ _ ⟨t, ht, hstep⟩ => .thread c t ht hstep) _ _ h

/-- By its own steps a thread comes to a place where `P` holds. -/
def ComesBy (w : Setting) (c : ℕ) (P : Place → Prop) (s : Server) : Prop :=
  ∃ s' t, Alone w c s s' ∧ s'.threads c = some t ∧ P t.place

theorem ComesBy.of_step {c : ℕ} {P : Place → Prop} {t : Thread} (ht : s.threads c = some t)
    (hstep : threadStep w s c t = some s') (h : ComesBy w c P s') : ComesBy w c P s := by
  obtain ⟨s'', t', halone, ht', hP⟩ := h
  exact ⟨s'', t', .head ⟨t, ht, hstep⟩ halone, ht', hP⟩

theorem threads_goes_self (c : ℕ) (t : Thread) (place : Place) :
    (s.goes c t place).threads c = some { t with place := place } := Function.update_self ..

/-- Behind the end of what arrives a loop that does not end there does not end. -/
theorem outcome_eq_waits {m : Memory} {r r' : Reading} (h : r.recv m none = .ok (.inl r')) :
    r'.outcome m [] = .waits := by
  have hbody : ∀ {n s}, bodyTest n s = .ok (.inl r') → r'.outcome m [] = .waits := by
    intro n s htest
    rw [bodyTest] at htest
    cases hb : hasBody n s with
    | error e =>
      rw [hb] at htest
      cases htest
    | ok b =>
      rw [hb] at htest
      cases b with
      | true =>
        cases hf : finish s <;> rw [hf] at htest <;> cases htest
      | false =>
        cases htest
        simp only [Reading.outcome, poll, hb, Outcome.bind]
  cases r with
  | body n s => exact hbody h
  | head s =>
    rw [Reading.recv] at h
    split at h
    case isTrue =>
      rw [afterHead] at h
      split at h
      case isTrue => cases hf : finish s <;> rw [hf] at h <;> cases h
      case isFalse =>
        cases hn : requestLength s with
        | error e =>
          rw [hn] at h
          cases h
        | ok n =>
          rw [hn] at h
          exact hbody h
    case isFalse hseen =>
      cases h
      have hfalse : s.hasSeenReqTerminator = false := by simpa using hseen
      simp only [Reading.outcome, poll, hfalse, Outcome.bind]

/-- Its descriptor is its own, and it has come as far as it says. -/
structure Sound (w : Setting) (s : Server) : Prop where
  owned : Owned w s
  following : Following w s

theorem Sound.step (h : Sound w s) {c : ℕ} {t : Thread} (ht : s.threads c = some t)
    (hstep : threadStep w s c t = some s') : Sound w s' :=
  ⟨h.owned.step (.thread c t ht hstep), h.following.step h.owned (.thread c t ht hstep)⟩

/-- If `read_tcp` returns from what arrives, the thread comes to the callback. The induction is on
what is not read yet. -/
theorem comesBy_calling {c : ℕ} {request : Bytes}
    (hread : readTcp (w.memory c) (w.arrives c) = .returned request) {d : Delivery}
    {s : Server} (h : Sound w s) {t : Thread} (ht : s.threads c = some t) {r : Reading}
    {setTimer : Bool} (hplace : t.place = .reading r setTimer) (hunread : s.unread c = d) :
    ComesBy w c (· = .calling request) s := by
  induction d generalizing s t r setTimer with
  | nil =>
    have hfd := h.owned.thread c t ht (by rw [hplace]; nofun)
    have hfollows := h.following.thread c t ht
    rw [hplace, hunread] at hfollows
    have houtcome := hfollows.1
    rw [hread, ← Reading.outcome_of_recv] at houtcome
    cases hnext : r.recv (w.memory c) (answer []) with
    | error e =>
      rw [hnext] at houtcome
      cases houtcome
    | ok next =>
      cases next with
      | inl r' =>
        -- nothing is left, so this loop would not end
        rw [hnext, resumed, List.tail_nil, outcome_eq_waits hnext] at houtcome
        cases houtcome
      | inr buf =>
        rw [hnext] at houtcome
        cases houtcome
        have hstep : threadStep w s c t =
            some ((s.recv c t.csock).goes c t (.calling request)) := by
          simp only [threadStep, hplace, answers_eq hfd, hunread, hnext, placeBehind]
        exact .of_step ht hstep ⟨_, _, .refl, threads_goes_self .., rfl⟩
  | cons x d ih =>
    have hfd := h.owned.thread c t ht (by rw [hplace]; nofun)
    have hfollows := h.following.thread c t ht
    rw [hplace, hunread] at hfollows
    have houtcome := hfollows.1
    rw [hread, ← Reading.outcome_of_recv] at houtcome
    cases hnext : r.recv (w.memory c) (answer (x :: d)) with
    | error e =>
      rw [hnext] at houtcome
      cases houtcome
    | ok next =>
      have hstep : threadStep w s c t = some ((s.recv c t.csock).goes c t
          (placeBehind setTimer (answer (x :: d)) next)) := by
        simp only [threadStep, hplace, answers_eq hfd, hunread, hnext]
      have hsound := h.step ht hstep
      have hrest : ((s.recv c t.csock).goes c t
          (placeBehind setTimer (answer (x :: d)) next)).unread c = d := by
        refine (congrFun (unread_recv hfd c) c).trans ?_
        rw [Function.update_self, hunread, List.tail_cons]
      have ht' := threads_goes_self (s := s.recv c t.csock) c t
        (placeBehind setTimer (answer (x :: d)) next)
      refine .of_step ht hstep ?_
      cases next with
      | inr buf =>
        rw [hnext] at houtcome
        cases houtcome
        exact ⟨_, _, .refl, ht', rfl⟩
      | inl r' =>
        by_cases htimer : ((answer (x :: d)).isSome && !setTimer) = true
        · have hplace' : placeBehind setTimer (answer (x :: d)) (.inl r') = .timing r' :=
            if_pos htimer
          rw [hplace'] at hsound hrest ht' ⊢
          exact .of_step ht' rfl (ih (hsound.step ht' rfl) (threads_goes_self ..) rfl hrest)
        · have hplace' : placeBehind setTimer (answer (x :: d)) (.inl r') = .reading r' setTimer :=
            if_neg htimer
          rw [hplace'] at hsound hrest ht' ⊢
          exact ih hsound ht' rfl hrest

section

variable {c : ℕ} {t : Thread}

/-- What a thread does behind the callback. -/
theorem comesBy_of_closing (ht : s.threads c = some t) (hplace : t.place = .closing) :
    ComesBy w c (· = .returned) s := by
  have hstep : threadStep w s c t = some ((s.close c t.csock).goes c t .returned) := by
    simp only [threadStep, hplace]
  exact .of_step ht hstep ⟨_, _, .refl, threads_goes_self .., rfl⟩

theorem comesBy_of_hangingUp (ht : s.threads c = some t) (hplace : t.place = .hangingUp) :
    ComesBy w c (· = .returned) s := by
  have hstep : threadStep w s c t = some ((s.use c t.csock).goes c t .closing) := by
    simp only [threadStep, hplace]
  exact .of_step ht hstep (comesBy_of_closing (threads_goes_self ..) rfl)

theorem comesBy_of_sending {response : Response} {bytes : Bytes} (ht : s.threads c = some t)
    (hplace : t.place = .sending response)
    (hsend : httpSendClientResponse response (w.left c) (w.socket c) = some bytes) :
    ComesBy w c (· = .returned) s := by
  have hstep : threadStep w s c t = some ((s.send c t.csock bytes).goes c t .hangingUp) := by
    simp only [threadStep, hplace, hsend, Option.map_some]
  exact .of_step ht hstep (comesBy_of_hangingUp (threads_goes_self ..) rfl)

theorem comesBy_of_calling {buf bytes : Bytes} {response : Response} (ht : s.threads c = some t)
    (hplace : t.place = .calling buf) (hcall : w.callback c buf = some response)
    (hsend : httpSendClientResponse response (w.left c) (w.socket c) = some bytes) :
    ComesBy w c (· = .returned) s := by
  have hstep : threadStep w s c t = some (s.goes c t (.sending response)) := by
    simp only [threadStep, hplace, hcall, Option.map_some]
  exact .of_step ht hstep (comesBy_of_sending (threads_goes_self ..) rfl hsend)

theorem comesBy_of_reading {bytes : Bytes} (h : Sound w s) (ht : s.threads c = some t)
    {r : Reading} {setTimer : Bool} (hplace : t.place = .reading r setTimer)
    (hserved : Served w c bytes) : ComesBy w c (· = .returned) s := by
  obtain ⟨request, response, hread, hcall, hsend⟩ := hserved
  obtain ⟨s', t', halone, ht', hcalling⟩ := comesBy_calling hread h ht hplace rfl
  obtain ⟨s'', t'', hrest, hdone⟩ := comesBy_of_calling ht' hcalling hcall hsend
  exact ⟨s'', t'', halone.trans hrest, hdone⟩

theorem comesBy_returned {bytes : Bytes} (h : Sound w s) (ht : s.threads c = some t)
    (hserved : Served w c bytes) : ComesBy w c (· = .returned) s := by
  have hfollows := h.following.thread c t ht
  obtain ⟨request, response, hread, hcall, hsend⟩ := hserved
  cases hplace : t.place with
  | reading r setTimer =>
    exact comesBy_of_reading h ht hplace ⟨request, response, hread, hcall, hsend⟩
  | timing r =>
    have hstep : threadStep w s c t = some ((s.use c t.csock).goes c t (.reading r true)) := by
      simp only [threadStep, hplace]
    exact .of_step ht hstep (comesBy_of_reading (h.step ht hstep) (threads_goes_self ..) rfl
      ⟨request, response, hread, hcall, hsend⟩)
  | calling buf =>
    rw [hplace] at hfollows
    cases hread.symm.trans hfollows.1
    exact comesBy_of_calling ht hplace hcall hsend
  | sending response' =>
    rw [hplace] at hfollows
    obtain ⟨⟨request', hread', hcall'⟩, -⟩ := hfollows
    cases hread.symm.trans hread'
    cases hcall.symm.trans hcall'
    exact comesBy_of_sending ht hplace hsend
  | hangingUp => exact comesBy_of_hangingUp ht hplace
  | closing => exact comesBy_of_closing ht hplace
  | returned => exact ⟨s, t, .refl, ht, hplace⟩

end

/-- **A thread never needs another one to get to its end**: from every state in which it exists its
own steps lead there, or nothing does and nothing is ever sent. -/
theorem finishes {s₀ : Server} (h : Starts w s₀) (hrun : Reaches w s₀ s) (c : ℕ)
    (hthread : (s.threads c).isSome) :
    ((∃ bytes, Served w c bytes) → ∃ s', Alone w c s s' ∧ s'.Finished c) ∧
      ((¬ ∃ bytes, Served w c bytes) →
        ∀ s', Reaches w s s' → ¬ s'.Finished c ∧ s'.sent c = []) := by
  constructor
  · rintro ⟨bytes, hserved⟩
    obtain ⟨t, ht⟩ := Option.isSome_iff_exists.mp hthread
    obtain ⟨s', t', halone, ht', hdone⟩ :=
      comesBy_returned ⟨owned h hrun, following h hrun⟩ ht hserved
    exact ⟨s', halone, t', ht', hdone⟩
  · intro hnever s' hrest
    have hfollowing := following h (hrun.trans hrest)
    refine ⟨fun hdone => ?_, (hfollowing.sent_cases c).resolve_right ?_⟩
    · obtain ⟨bytes, hserved, -⟩ := hfollowing.sent_of_finished hdone
      exact hnever ⟨bytes, hserved⟩
    · rintro ⟨bytes, hserved, -⟩
      exact hnever ⟨bytes, hserved⟩

/-- The thread of the one request gets to its end. -/
theorem finishes_one : ∃ s s', Reaches .one (.initial .one) s ∧ Alone .one 0 s s' ∧
    s'.Finished 0 := by
  obtain ⟨s, hrun, -, hthread, -⟩ := reaches_created .one (by decide)
  obtain ⟨s', halone, hdone⟩ :=
    (finishes (starts_initial (by decide)) hrun 0 hthread).1 ⟨_, served_one⟩
  exact ⟨s, s', hrun, halone, hdone⟩

/-- What a thread does to the descriptors. -/
theorem Alone.table_eq {c : ℕ} (h : Alone w c s s') (fd : ℕ) :
    s'.table fd = s.table fd ∨ s'.table fd = none := by
  induction h with
  | refl => exact .inl rfl
  | tail _ hlast ih =>
    obtain ⟨t, -, hstep⟩ := hlast
    cases threadStep_cases hstep with
    | close =>
      by_cases hfd : fd = t.csock
      · subst hfd
        exact .inr (Function.update_self ..)
      · exact ih.imp (Function.update_of_ne hfd _ _).trans (Function.update_of_ne hfd _ _).trans
    | recv | time | call | send | shutdown => exact ih

theorem Alone.acceptor_eq {c : ℕ} (h : Alone w c s s') :
    s'.acceptor = s.acceptor ∧ s'.accepted = s.accepted := by
  induction h with
  | refl => exact ⟨rfl, rfl⟩
  | tail _ hlast ih =>
    obtain ⟨t, -, hstep⟩ := hlast
    cases threadStep_cases hstep <;> exact ih

/-- The first connection is closed, and the next one gets its descriptor. -/
theorem lifecycle_one : ∃ s, Reaches .one (.initial .one) s ∧ s.Finished 0 ∧
    s.table 1 = some (.connection 1) ∧ Lifecycle s := by
  have hstarts : Starts .one (.initial .one) := starts_initial (by decide)
  obtain ⟨s, hrun, haccepted, hthread, hmain, htable⟩ := reaches_created .one (by decide)
  obtain ⟨t, ht⟩ := Option.isSome_iff_exists.mp hthread
  obtain ⟨s', t', halone, ht', hdone⟩ :=
    comesBy_returned ⟨owned hstarts hrun, following hstarts hrun⟩ ht served_one
  have hrun' := hrun.trans halone.reaches
  -- the thread is done, so the descriptor is no longer the one of its connection
  have hgone := (owned hstarts hrun').gone 0 t' ht' hdone 1
  have hfree : s'.table 1 = none := (halone.table_eq 1).resolve_left fun h => hgone (h.trans htable)
  obtain ⟨hmain', haccepted'⟩ := halone.acceptor_eq
  have hagain := hrun'.tail (.accept 1 (hmain'.trans hmain) hfree (by decide))
  refine ⟨_, hagain, ⟨t', ht', hdone⟩, ?_, lifecycle hstarts hagain⟩
  rw [haccepted', haccepted]
  exact Function.update_self (f := s'.table) 1 _

/-- Then the client has the response. -/
theorem serves_one : ∃ s, Reaches .one (.initial .one) s ∧ s.sent 0 = [internalServerError] := by
  obtain ⟨s, hrun, -, hthread, -⟩ := reaches_created .one (by decide)
  obtain ⟨t, ht⟩ := Option.isSome_iff_exists.mp hthread
  have hstarts : Starts .one (.initial .one) := starts_initial (by decide)
  obtain ⟨s', t', halone, ht', hdone⟩ :=
    comesBy_returned ⟨owned hstarts hrun, following hstarts hrun⟩ ht served_one
  have hrun' := hrun.trans halone.reaches
  obtain ⟨bytes, hserved, hsent⟩ := (serves hstarts hrun' 0).2 ⟨t', ht', hdone⟩
  rw [hserved.unique served_one] at hsent
  exact ⟨s', hrun', hsent⟩

/-! ### Running out of descriptors -/

/-- Nothing is ever sent on the connection, and its thread never returns. -/
def Doomed (w : Setting) (c : ℕ) : Prop := ¬ ∃ bytes, Served w c bytes

/-- If `read_tcp` does not return, for instance because the peer closes inside the request. -/
theorem doomed_of_not_returns {c : ℕ} (h : ¬ Returns (w.memory c) (w.arrives c)) : Doomed w c := by
  rintro ⟨bytes, request, response, hread, -⟩
  exact h ⟨request, hread⟩

/-- The descriptors that nothing closes. -/
def standing (w : Setting) (s : Server) : Finset ℕ :=
  (Finset.range w.limit).filter fun fd => s.table fd = some .standing

theorem Step.standing_iff (hown : Owned w s) (hstep : Step w s s') (fd : ℕ) :
    s'.table fd = some .standing ↔ s.table fd = some .standing := by
  have hupdate : ∀ {fd' : ℕ} {r : Option Resource}, s.table fd' ≠ some .standing →
      r ≠ some .standing →
      (Function.update s.table fd' r fd = some .standing ↔ s.table fd = some .standing) := by
    intro fd' r hold hnew
    by_cases hsame : fd = fd'
    · rw [hsame, Function.update_self]
      exact iff_of_false hnew hold
    · rw [Function.update_of_ne hsame]
  cases hstep with
  | thread c t ht hthread =>
    cases threadStep_cases hthread with
    | close hplace =>
      exact hupdate (by rw [hown.thread c t ht (by rw [hplace]; nofun)]; nofun) nofun
    | recv | time | call | send | shutdown => exact Iff.rfl
  | accept fd' _ hfree _ => exact hupdate (by rw [hfree]; nofun) nofun
  | create | notCreated => exact Iff.rfl
  | opens fd' hfree _ => exact hupdate (by rw [hfree]; nofun) nofun
  | closes fd' hother => exact hupdate (by rw [hother]; nofun) nofun

theorem standing_eq {s₀ : Server} (h : Starts w s₀) (hrun : Reaches w s₀ s) :
    standing w s = standing w s₀ := by
  induction hrun with
  | refl => rfl
  | tail hfront hlast ih =>
    rw [← ih]
    exact Finset.filter_congr fun fd _ => hlast.standing_iff (owned h hfront) fd

/-- No descriptor will ever be free. -/
def Full (w : Setting) (s : Server) : Prop :=
  ∀ fd, fd < w.limit → s.table fd = some .standing ∨
    ∃ c, s.table fd = some (.connection c) ∧ Doomed w c

/-- Only what goes on inside the threads is left. -/
theorem Full.step (h : Full w s) (hsound : Sound w s) (hstep : Step w s s') :
    s'.table = s.table ∧ s'.accepted = s.accepted := by
  have hfree : ∀ fd, fd < w.limit → s.table fd ≠ none := by
    intro fd hfd hnone
    rcases h fd hfd with hstanding | ⟨c, hc, -⟩ <;> simp_all
  cases hstep with
  | thread c t ht hthread =>
    cases threadStep_cases hthread with
    | close hplace =>
      have hfd := hsound.owned.thread c t ht (by rw [hplace]; nofun)
      have hfollows := hsound.following.thread c t ht
      rw [hplace] at hfollows
      obtain ⟨bytes, hserved, -⟩ := hfollows
      rcases h t.csock (hsound.owned.limit _ (by rw [hfd]; nofun)) with hstanding | ⟨c', hc', hno⟩
      · cases hfd.symm.trans hstanding
      · cases hfd.symm.trans hc'
        exact absurd ⟨bytes, hserved⟩ hno
    | recv | time | call | send | shutdown => exact ⟨rfl, rfl⟩
  | accept fd _ hnone hlimit => exact absurd hnone (hfree fd hlimit)
  | create | notCreated => exact ⟨rfl, rfl⟩
  | opens fd hnone hlimit => exact absurd hnone (hfree fd hlimit)
  | closes fd hother =>
    rcases h fd (hsound.owned.limit fd (by rw [hother]; nofun)) with hstanding | ⟨c, hc, -⟩
    · cases hother.symm.trans hstanding
    · cases hother.symm.trans hc

theorem Full.reaches {s₀ : Server} (h : Full w s) (hstart : Starts w s₀) (hrun : Reaches w s₀ s)
    (hrest : Reaches w s s') : s'.table = s.table ∧ s'.accepted = s.accepted := by
  induction hrest with
  | refl => exact ⟨rfl, rfl⟩
  | @tail t u hfront hlast ih =>
    have hto := hrun.trans hfront
    have hfull : Full w t := by
      rw [Full, ih.1]
      exact h
    obtain ⟨htable, haccepted⟩ := hfull.step ⟨owned hstart hto, following hstart hto⟩ hlast
    exact ⟨htable.trans ih.1, haccepted.trans ih.2⟩

theorem accepted_le (hrest : Reaches w s s') : s.accepted ≤ s'.accepted := by
  induction hrest with
  | refl => exact Nat.le_refl _
  | tail _ hlast ih =>
    cases hlast with
    | thread c t ht hthread => cases threadStep_cases hthread <;> exact ih
    | accept => exact ih.trans (Nat.le_succ _)
    | create | notCreated | opens | closes => exact ih

/-- Its thread keeps the descriptor. -/
theorem Doomed.isOpen {c : ℕ} (hdoomed : Doomed w c) {s₀ : Server} (h : Starts w s₀)
    (hrun : Reaches w s₀ s) (haccepted : c < s.accepted) : s.IsOpen c := by
  refine (isOpen_iff (owned h hrun) (kept h hrun) c).mpr ⟨haccepted, fun hfin => hdoomed ?_⟩
  obtain ⟨bytes, hserved, -⟩ := (following h hrun).sent_of_finished hfin
  exact ⟨bytes, hserved⟩

/-- The connection that a descriptor refers to. -/
def connectionAt (s : Server) (fd : ℕ) : ℕ :=
  match s.table fd with
  | some (.connection c) => c
  | _ => 0

/-- **A server can take so many connections without a complete request, and then takes none.** Each
of them stays open for good, whatever happens to the others. -/
theorem exhausted {s₀ : Server} (h : Starts w s₀) (hrun : Reaches w s₀ s) (cs : Finset ℕ)
    (hcs : ∀ c ∈ cs, c < s.accepted ∧ Doomed w c) :
    (∀ c ∈ cs, ∀ s', Reaches w s s' → s'.IsOpen c) ∧
      cs.card + (standing w s₀).card ≤ w.limit ∧
      (cs.card + (standing w s₀).card = w.limit →
        ∀ s', Reaches w s s' → s'.table = s.table ∧ s'.accepted = s.accepted) := by
  have hown := owned h hrun
  have hopen : ∀ c ∈ cs, s.IsOpen c := fun c hc =>
    (hcs c hc).2.isOpen h hrun (hcs c hc).1
  refine ⟨fun c hc s' hrest => (hcs c hc).2.isOpen h (hrun.trans hrest)
    ((hcs c hc).1.trans_le (accepted_le hrest)), ?_⟩
  rw [← standing_eq h hrun]
  classical
  let taken := (Finset.range w.limit).filter fun fd => ∃ c ∈ cs, s.table fd = some (.connection c)
  have hcard : cs.card ≤ taken.card := by
    refine (Finset.card_le_card (t := taken.image (connectionAt s)) fun c hc => ?_).trans
      Finset.card_image_le
    obtain ⟨fd, hfd⟩ := hopen c hc
    refine Finset.mem_image.mpr
      ⟨fd, Finset.mem_filter.mpr ⟨Finset.mem_range.mpr ?_, c, hc, hfd⟩, ?_⟩
    · exact hown.limit fd (by rw [hfd]; nofun)
    · simp only [connectionAt, hfd]
  have hdisjoint : Disjoint taken (standing w s) := by
    refine Finset.disjoint_filter.mpr fun fd _ htaken hstanding => ?_
    obtain ⟨c, -, hc⟩ := htaken
    cases hc.symm.trans hstanding
  have hsub : taken ∪ standing w s ⊆ Finset.range w.limit :=
    Finset.union_subset (Finset.filter_subset _ _) (Finset.filter_subset _ _)
  have hle := Finset.card_le_card hsub
  rw [Finset.card_union_of_disjoint hdisjoint, Finset.card_range] at hle
  refine ⟨by omega, fun heq s' hrest => ?_⟩
  have hall : taken ∪ standing w s = Finset.range w.limit := by
    refine Finset.eq_of_subset_of_card_le hsub ?_
    rw [Finset.card_union_of_disjoint hdisjoint, Finset.card_range]
    omega
  refine Full.reaches (fun fd hfd => ?_) h hrun hrest
  have hmem : fd ∈ taken ∪ standing w s := hall ▸ Finset.mem_range.mpr hfd
  rcases Finset.mem_union.mp hmem with htaken | hstanding
  · obtain ⟨-, c, hc, htable⟩ := Finset.mem_filter.mp htaken
    exact .inr ⟨c, htable, (hcs c hc).2⟩
  · exact .inl (Finset.mem_filter.mp hstanding).2

/-- Two descriptors, and peers that close before they have sent anything. -/
def Setting.quiet : Setting where
  limit := 2
  arrives _ := []
  memory _ := .zeroed
  callback _ _ := none
  left _ := []
  socket _ := .ready

/-- One peer that closes at once takes the last descriptor. -/
theorem exhausted_quiet : ∃ s, Reaches .quiet (.initial .quiet) s ∧
    ∀ s', Reaches .quiet s s' → s'.IsOpen 0 ∧ s'.accepted = 1 := by
  obtain ⟨s, hrun, haccepted, -⟩ := reaches_created .quiet (by decide)
  refine ⟨s, hrun, fun s' hrest => ?_⟩
  have hdoomed : Doomed .quiet 0 := doomed_of_not_returns fun ⟨r, hr⟩ => by cases hr
  have hcs : ∀ c ∈ ({0} : Finset ℕ), c < s.accepted ∧ Doomed .quiet c := by
    intro c hc
    obtain rfl := Finset.mem_singleton.mp hc
    exact ⟨by omega, hdoomed⟩
  obtain ⟨hopen, -, hnone⟩ := exhausted (starts_initial (by decide)) hrun {0} hcs
  exact ⟨hopen 0 (Finset.mem_singleton_self 0) s' hrest,
    (hnone (by decide) s' hrest).2.trans haccepted⟩

/-! ### From the request to the response -/

/-- The callback is `janet_universal_cb`, with a handler module that is there and whose `main` is
made by `make-fn`; the request is an ordinary one, and so is the answer to it. Behind `janet_deinit`
the memory of the response is as it was, and `send` takes all of it. -/
structure Ordinary {σ : Type} (evaluate : σ → Value → σ × Evaluated)
    (convert : (neg : Bool) → (mant base : ℕ) → (ex : ℤ) → UInt64) (env : σ) (handler : Bytes)
    (f : Request → Call Value) (request body : Bytes) (w : Setting) (c : ℕ) : Prop where
  callback : w.callback c = fun request => janetUniversalCb evaluate convert env handler request
  read : readTcp (w.memory c) (w.arrives c) = .returned request
  path : ModulePath handler
  fits : handler.length ≤ 166
  harmless : Harmless request
  main : ∃ imported, (evaluate env (importForm handler)).2 = .returned imported ∧
    ∀ result, makeFn f request = .ok result →
      (evaluate (evaluate env (importForm handler)).1 (callForm request)).2 = .returned result
  answer : ∃ res, (∀ req, parseReq request = .ok req → f req = .ok res) ∧
    bytesView res = some body
  nulFree : NulFree body
  short : (responseText body).length ≤ int32Max
  left : 0 ∈ w.left c ∧ responseText body <+: w.left c
  taken : (w.socket c).send (cstr (w.left c)).length = (responseText body).length

theorem nulFree_of_returned {m : Memory} {d : Delivery} {r : Bytes}
    (h : readTcp m d = .returned r) : NulFree r := by
  obtain ⟨d₁, d₂, d₃, -, -, rfl⟩ := readTcp_eq_returned_iff.mp h
  exact nulFree_cstr _

theorem Ordinary.served {σ : Type} {evaluate : σ → Value → σ × Evaluated}
    {convert : (neg : Bool) → (mant base : ℕ) → (ex : ℤ) → UInt64} {env : σ} {handler : Bytes}
    {f : Request → Call Value} {request body : Bytes} {c : ℕ}
    (h : Ordinary evaluate convert env handler f request body w c) :
    Served w c (responseText body) := by
  obtain ⟨imported, himport, hmain⟩ := h.main
  obtain ⟨res, hres, hbody⟩ := h.answer
  have hmake : makeFn f request = .ok (.string (responseText body)) := by
    rw [makeFn_eq hres hbody, checkFinallen, if_neg (Nat.not_lt.mpr h.short)]
    rfl
  have hresponse : janetUniversalCb evaluate convert env handler request =
      some (.result (responseText body)) := by
    rw [janetUniversalCb_harmless evaluate convert env h.path h.fits (nulFree_of_returned h.read)
      h.harmless]
    have hcalled := hmain _ hmake
    revert himport hcalled
    cases evaluate env (importForm handler) with
    | mk env' how =>
      rintro rfl hcalled
      show some (respond (Stage.form _ (evaluate env' (callForm request)).2).left) = _
      rw [hcalled]
      rfl
  refine ⟨request, .result (responseText body), h.read, ?_, ?_⟩
  · rw [h.callback]
    exact hresponse
  · exact sent_eq_iff.mpr ⟨nulFree_responseText_iff.mpr h.nulFree, h.left.1, h.left.2, h.taken⟩

/-- The module is there, and every request is answered with `hello`. -/
def helloEvaluate : Bool → Value → Bool × Evaluated
  | false, _ => (true, .returned .nil)
  | true, _ => (true, .returned (.string (responseText (ascii "hello"))))

def Setting.hello : Setting where
  limit := 2
  arrives _ := [some getRoot]
  memory _ := .zeroed
  callback _ request := janetUniversalCb helloEvaluate (fun _ _ _ _ => 0) false
    (ascii "./examples/webserver-handler") request
  left _ := responseText (ascii "hello") ++ [0]
  socket _ := .ready

end AhungryJanet.Serving
