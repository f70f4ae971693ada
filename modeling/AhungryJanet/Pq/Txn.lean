import AhungryJanet.Pq.Server

/-!
# Transactions

`txn*` of `pq.janet`: a function is run between `begin` and `commit`, or `rollback`. It ends by
returning, by an error, or by a user signal; one that yields is suspended together with `txn*`, and
goes on later.

## Main results

* `txn_settled` — no block is left open
* `txn_atomic` — what is durable afterwards is what one attempt has executed, or nothing
-/

namespace AhungryJanet.Pq

/-! ### The function -/

/-- What a Janet error is raised with. -/
inductive Raised where
  | pq (e : PqError)
  | other (v : Value)

/-- `(and (error? err) (= (result-error-field err PG_DIAG_SQLSTATE) "40001"))`. -/
def Raised.isSerializationFailure : Raised → Bool
  | .pq e => e.sqlstate = some serializationFailure
  | .other _ => false

/-- The first item of what `commit` and `rollback` of `pq.janet` signal. -/
inductive Action where
  | commit
  | rollback
  | other (action : Value)

/-- A user signal with a number below 4. -/
inductive UserSignal where
  /-- `(signal 0 [conn [action v]])`, for the connection of the transaction. -/
  | own (action : Action) (v : Value)
  /-- Any other one. -/
  | foreign (n : Fin 4) (v : Value)

/-- The function that is run in the transaction, as far as the connection knows of it. `exec` raises
its error; a function that goes on has caught it. A `txn*` inside of the function is commands, and
looks at the connection, as well. -/
inductive Body (ρ : Type) where
  | done (v : Value)
  | error (e : Raised)
  | signal (sig : UserSignal)
  | exec (c : Command) (k : Except PqError ρ → Body ρ)
  | look (k : Option TransactionStatus → Body ρ)

/-- How `(resume fb)` ends. The mask `:i0123` has no errors, which are raised again. -/
inductive BodyEnd where
  | dead (v : Value)
  | error (e : Raised)
  | signal (sig : UserSignal)

section

variable {σ ρ : Type} (S : PgServer σ ρ)

def Body.run : Body ρ → σ → BodyEnd × σ
  | .done v, s => (.dead v, s)
  | .error e, s => (.error e, s)
  | .signal sig, s => (.signal sig, s)
  | .exec c k, s => (k (S.exec s c).1).run (S.exec s c).2
  | .look k, s => (k (S.view s).seen).run s

/-- The statement that a command has executed. -/
def Command.executed : Command → Except PqError ρ → List Bytes
  | .query q, .ok _ => [q]
  | _, _ => []

/-- The statements of the function that succeed, in order. -/
def Body.executed : Body ρ → σ → List Bytes
  | .exec c k, s =>
    c.executed (S.exec s c).1 ++ (k (S.exec s c).1).executed (S.exec s c).2
  | .look k, s => (k (S.view s).seen).executed s
  | _, _ => []

/-- A function with one statement. -/
def insertOnce : Body Unit :=
  .exec (.query (ascii "insert")) fun
    | .ok _ => .done (.boolean true)
    | .error e => .error (.pq e)

/-! ### `txn*` -/

/-- How `txn*` ends: a value, an error, or a signal that is passed on. -/
inductive TxnEnd where
  | value (v : Value)
  | raised (e : Raised)
  | signalled (n : Fin 4) (v : Value)

/-- A command behind which something is returned. -/
def execThen (s : σ) (c : Command) (out : TxnEnd) : TxnEnd × σ :=
  match S.exec s c with
  | (.ok _, s) => (out, s)
  | (.error e, s) => (.raised (.pq e), s)

/-- `misuse of txn*`. -/
def misuse : Raised := .other (.string (ascii "misuse of txn*"))

/-- What the body of the `try` does behind the `begin`. -/
def finish (s : σ) : BodyEnd → TxnEnd × σ
  | .dead v => execThen S s .commit (.value v)
  | .error e => (.raised e, s)
  | .signal (.own .commit v) => execThen S s .commit (.value v)
  | .signal (.own .rollback v) => execThen S s .rollback (.value v)
  | .signal (.own (.other _) _) => (.raised misuse, s)
  | .signal (.foreign n v) => execThen S s .rollback (.signalled n v)

/-- The body of the `try`. -/
def attempt (mode : Bytes) (body : Body ρ) (s : σ) : TxnEnd × σ :=
  match S.exec s (.begin mode) with
  | (.ok _, s) => finish S (body.run S s).2 (body.run S s).1
  | (.error e, s) => (.raised (.pq e), s)

structure TxnOptions where
  retry : Bool
  mode : Bytes

/-- `txn*`, with at most `fuel` attempts of which `n` is the first one. The function may do
something else in each attempt. -/
def txn (opts : TxnOptions) (ftx : ℕ → Body ρ) : (fuel : ℕ) → (n : ℕ) → σ → Option (TxnEnd × σ)
  | 0, _, _ => none
  | fuel + 1, n, s =>
    match attempt S opts.mode (ftx n) s with
    | (.raised e, s) =>
      if opts.retry && e.isSerializationFailure then txn opts ftx fuel (n + 1) s
      else if (S.view s).bad then some (.raised e, s)
      else some (execThen S s .rollback (.raised e))
    | ended => some ended

variable {S}

/-- Either error that `txn*` may raise behind its last `rollback`. -/
theorem raised_of_rollback {s s' : σ} {e : Raised} {out : TxnEnd}
    (h : execThen S s .rollback (.raised e) = (out, s')) :
    (∃ e, out = .raised e) ∧ (S.view s').durable = (S.view s).durable ∧
      ((S.view s').bad = true ∨ (S.view s').status = .idle) := by
  unfold execThen at h
  split at h
  all_goals
    rename_i hroll
    cases h
    exact ⟨⟨_, rfl⟩, rollback_durable hroll, rollback_settled hroll⟩

/-! ### The function in its block -/

/-- The function has not left its block: nothing was made durable, and the block has what was
executed in it, unless it is given up already. -/
structure Inside (durable block : List Bytes) (v : ConnView) : Prop where
  durable_eq : v.durable = durable
  block_eq : v.bad = true ∨ v.status = .inError ∨ v.status = .inTrans ∧ v.block = block

/-- Nothing can be executed any more, but the end of the block. -/
def Failed (v : ConnView) : Prop := v.bad = true ∨ v.status = .inError

variable {d b : List Bytes} {v : ConnView} {s s' : σ}

theorem not_failed_of_ok {c : Command} {r : ρ} (h : S.exec s c = (.ok r, s'))
    (hcommit : c ≠ .commit)
    (hrollback : c ≠ .rollback) : ¬ Failed (S.view s) := by
  obtain ⟨hbad, hans, -⟩ := S.exec_ok h
  rintro (hlost | herr)
  · rw [hbad] at hlost
    cases hlost
  · obtain ⟨e, he, -⟩ := hans.aborted herr hcommit hrollback
    cases he

/-- The status outside of a failed block, of a connection that is not lost. -/
theorem Inside.inTrans (hin : Inside d b v) (h : ¬ Failed v) :
    v.status = .inTrans ∧ v.block = b := by
  rcases hin.block_eq with hlost | herr | htrans
  · exact absurd (.inl hlost) h
  · exact absurd (.inr herr) h
  · exact htrans

theorem Inside.query_ok {q : Bytes} {r : ρ} (hin : Inside d b (S.view s))
    (h : S.exec s (.query q) = (.ok r, s')) : Inside d (b ++ [q]) (S.view s') := by
  obtain ⟨htrans, hblock⟩ := hin.inTrans (not_failed_of_ok h (by simp) (by simp))
  obtain ⟨-, -, hview⟩ := S.exec_ok h
  rw [hview]
  exact ⟨by simp [ConnView.next, htrans, hin.durable_eq],
    .inr (.inr (by simp [ConnView.next, htrans, hblock]))⟩

theorem Inside.query_error {q : Bytes} {e : PqError} (hin : Inside d b (S.view s))
    (h : S.exec s (.query q) = (.error e, s')) :
    Inside d b (S.view s') ∧ Failed (S.view s') := by
  have hlost : ∀ {succeeds}, (S.view s).bad = false →
      ((S.view s).next (.query q) succeeds).durable = (S.view s).durable := by
    intro succeeds hbad
    rcases hin.block_eq with hlost | herr | ⟨htrans, -⟩
    · rw [hbad] at hlost
      cases hlost
    · simp [ConnView.next, herr]
    · cases succeeds <;> simp [ConnView.next, htrans]
  rcases S.exec_error h with ⟨hbad, -, hview⟩ | ⟨hbad, hdurable⟩
  · have herr : (S.view s').status = .inError := by
      rw [hview]
      rcases hin.block_eq with hbad' | herr | ⟨htrans, -⟩
      · rw [hbad] at hbad'
        cases hbad'
      · simp [ConnView.next, herr]
      · simp [ConnView.next, htrans]
    refine ⟨⟨?_, .inr (.inl herr)⟩, .inr herr⟩
    rw [hview, hlost hbad, hin.durable_eq]
  · refine ⟨⟨?_, .inl hbad⟩, .inl hbad⟩
    rcases hdurable with hdurable | ⟨hgood, hdurable⟩
    · rw [hdurable, hin.durable_eq]
    · rw [hdurable, hlost hgood, hin.durable_eq]

/-- A function that sends queries only, and raises a serialization failure only if an error was
returned to it. -/
def Body.Honest : Body ρ → (failed : Prop) → Prop
  | .error e, failed => e.isSerializationFailure = true → failed
  | .exec c k, failed => (∃ q, c = .query q) ∧ (∀ r, (k (.ok r)).Honest failed) ∧
    ∀ e, (k (.error e)).Honest True
  | .look k, failed => ∀ seen, (k seen).Honest failed
  | _, _ => True

/-- The function stays in its block. -/
theorem Inside.run {body : Body ρ} {failed : Prop} (hbody : body.Honest failed)
    (hin : Inside d b (S.view s)) :
    Inside d (b ++ body.executed S s) (S.view (body.run S s).2) := by
  induction body generalizing s b failed with
  | done v => simpa [Body.run, Body.executed] using hin
  | error e => simpa [Body.run, Body.executed] using hin
  | signal sig => simpa [Body.run, Body.executed] using hin
  | look k ih => exact ih (S.view s).seen (hbody _) hin
  | exec c k ih =>
    obtain ⟨⟨q, rfl⟩, hok, herror⟩ := hbody
    rw [Body.run, Body.executed]
    cases hexec : S.exec s (.query q) with
    | mk out s₁ =>
      cases out with
      | ok r =>
        have hnext := ih (.ok r) (hok r) (hin.query_ok hexec)
        rwa [List.append_assoc] at hnext
      | error e => exact ih (.error e) (herror e) (hin.query_error hexec).1

/-- Once something has failed, nothing can be executed in the block any more. -/
theorem Inside.failed_of_honest {body : Body ρ} {failed : Prop} (hbody : body.Honest failed)
    (hin : Inside d b (S.view s)) (hfailed : failed → Failed (S.view s)) {e : Raised}
    (hend : (body.run S s).1 = .error e) (he : e.isSerializationFailure = true) :
    Failed (S.view (body.run S s).2) := by
  induction body generalizing s b failed with
  | done v => cases hend
  | error e' =>
    cases hend
    exact hfailed (hbody he)
  | signal sig => cases hend
  | look k ih => exact ih (S.view s).seen (hbody _) hin hfailed hend
  | exec c k ih =>
    obtain ⟨⟨q, rfl⟩, hok, herror⟩ := hbody
    rw [Body.run] at hend ⊢
    cases hexec : S.exec s (.query q) with
    | mk out s₁ =>
      rw [hexec] at hend
      cases out with
      | ok r =>
        -- nothing succeeds behind a failure
        have hnot := not_failed_of_ok hexec (by simp) (by simp)
        exact ih (.ok r) (hok r) (hin.query_ok hexec) (fun hf => absurd (hfailed hf) hnot) hend
      | error e' =>
        obtain ⟨hin', hfailed'⟩ := hin.query_error hexec
        exact ih (.error e') (herror e') hin' (fun _ => hfailed') hend

/-! ### One attempt -/

theorem Inside.commit_ok {r : ρ} (hin : Inside d b (S.view s))
    (h : S.exec s .commit = (.ok r, s')) :
    (S.view s').bad = false ∧ (S.view s').status = .idle ∧ (S.view s').block = [] ∧
      (S.view s').durable = if (S.view s).status = .inTrans then d ++ b else d := by
  obtain ⟨hbad, -, hview⟩ := S.exec_ok h
  rw [hview]
  refine ⟨hbad, rfl, rfl, ?_⟩
  rcases hin.block_eq with hlost | herr | ⟨htrans, hblock⟩
  · rw [hbad] at hlost
    cases hlost
  · simp [ConnView.next, herr, hin.durable_eq]
  · simp [ConnView.next, htrans, hblock, hin.durable_eq]

theorem Inside.commit_error {e : PqError} (hin : Inside d b (S.view s))
    (h : S.exec s .commit = (.error e, s')) :
    (S.view s').bad = true ∧ ((S.view s').durable = d ∨ (S.view s').durable = d ++ b) ∨
      (S.view s').bad = false ∧ (S.view s').status = .idle ∧ (S.view s').block = [] ∧
        (S.view s').durable = d := by
  rcases S.exec_error h with ⟨hbad, -, hview⟩ | ⟨hbad, hdurable | ⟨hgood, hdurable⟩⟩
  · right
    rw [hview]
    exact ⟨hbad, rfl, rfl, by simp [ConnView.next, hin.durable_eq]⟩
  · exact .inl ⟨hbad, .inl (hdurable.trans hin.durable_eq)⟩
  · left
    refine ⟨hbad, ?_⟩
    rw [hdurable]
    rcases hin.block_eq with hlost | herr | ⟨htrans, hblock⟩
    · rw [hgood] at hlost
      cases hlost
    · simp [ConnView.next, herr, hin.durable_eq]
    · simp [ConnView.next, htrans, hblock, hin.durable_eq]

/-- Where an attempt can start: outside of a block, or in one that is given up. -/
structure Start (durable : List Bytes) (v : ConnView) : Prop where
  durable_eq : v.durable = durable
  free : Failed v ∨ v.status = .idle ∧ v.block = []

/-- What an attempt leaves behind, and how it says so: everything that was executed, or nothing. -/
inductive Leaves (d b : List Bytes) : TxnEnd → ConnView → Prop
  /-- It has committed. -/
  | committed {v : Value} {view : ConnView} (hbad : view.bad = false)
    (hstatus : view.status = .idle) (hdurable : view.durable = d ++ b) :
    Leaves d b (.value v) view
  /-- It has returned, without a commit: in a block that was given up, or after a rollback. -/
  | dropped {v : Value} {view : ConnView} (hbad : view.bad = false)
    (hstatus : view.status = .idle) (hdurable : view.durable = d) : Leaves d b (.value v) view
  | signalled {n : Fin 4} {v : Value} {view : ConnView} (hbad : view.bad = false)
    (hstatus : view.status = .idle) (hdurable : view.durable = d) :
    Leaves d b (.signalled n v) view
  | raised {e : Raised} {view : ConnView} (hdurable : view.durable = d) :
    Leaves d b (.raised e) view
  /-- The connection was lost in the commit. -/
  | unknown {e : Raised} {view : ConnView} (hbad : view.bad = true)
    (hdurable : view.durable = d ++ b) : Leaves d b (.raised e) view

theorem Inside.leaves_commit {v : Value} {out : TxnEnd} (hin : Inside d b (S.view s))
    (h : execThen S s .commit (.value v) = (out, s')) : Leaves d b out (S.view s') := by
  unfold execThen at h
  split at h
  case h_1 r s₁ hexec =>
    cases h
    obtain ⟨hbad, hstatus, -, hdurable⟩ := hin.commit_ok hexec
    split at hdurable
    · exact .committed hbad hstatus hdurable
    · exact .dropped hbad hstatus hdurable
  case h_2 e s₁ hexec =>
    cases h
    rcases hin.commit_error hexec with ⟨hbad, hdurable | hdurable⟩ | ⟨-, -, -, hdurable⟩
    · exact .raised hdurable
    · exact .unknown hbad hdurable
    · exact .raised hdurable

theorem Inside.leaves_rollback {out out' : TxnEnd} (hin : Inside d b (S.view s))
    (h : execThen S s .rollback out = (out', s'))
    (hout : ∀ view : ConnView, view.bad = false → view.status = .idle → view.durable = d →
      Leaves d b out view) : Leaves d b out' (S.view s') := by
  unfold execThen at h
  split at h
  case h_1 r s₁ hexec =>
    cases h
    obtain ⟨hbad, -, hview⟩ := S.exec_ok hexec
    exact hout _ (by rw [hview]; exact hbad) (by rw [hview]; rfl)
      ((rollback_durable hexec).trans hin.durable_eq)
  case h_2 e s₁ hexec =>
    cases h
    exact .raised ((rollback_durable hexec).trans hin.durable_eq)

theorem Inside.leaves_finish {fin : BodyEnd} {out : TxnEnd} (hin : Inside d b (S.view s))
    (h : finish S s fin = (out, s')) : Leaves d b out (S.view s') := by
  match fin with
  | .dead v => exact hin.leaves_commit h
  | .error e =>
    cases h
    exact .raised hin.durable_eq
  | .signal (.own .commit v) => exact hin.leaves_commit h
  | .signal (.own .rollback v) => exact hin.leaves_rollback h fun _ => .dropped
  | .signal (.own (.other _) _) =>
    cases h
    exact .raised hin.durable_eq
  | .signal (.foreign n v) => exact hin.leaves_rollback h fun _ => .signalled

variable (S) in
/-- The statements of an attempt that succeed. None do if `begin` fails. -/
def attemptExecuted (mode : Bytes) (body : Body ρ) (s : σ) : List Bytes :=
  match S.exec s (.begin mode) with
  | (.ok _, s) => body.executed S s
  | (.error _, _) => []

theorem Start.begin_ok {mode : Bytes} {r : ρ} (hstart : Start d (S.view s))
    (h : S.exec s (.begin mode) = (.ok r, s')) : Inside d [] (S.view s') := by
  obtain ⟨hidle, hblock⟩ :=
    hstart.free.resolve_left (not_failed_of_ok h (by simp) (by simp))
  obtain ⟨-, -, hview⟩ := S.exec_ok h
  rw [hview]
  exact ⟨by simp [ConnView.next, hidle, hstart.durable_eq],
    .inr (.inr (by simp [ConnView.next, hidle, hblock]))⟩

theorem Start.begin_error {mode : Bytes} {e : PqError} (hstart : Start d (S.view s))
    (h : S.exec s (.begin mode) = (.error e, s')) : Start d (S.view s') := by
  rcases S.exec_error h with ⟨hbad, -, hview⟩ | ⟨hbad, hdurable⟩
  · have hnext : S.view s' = S.view s := by
      rw [hview]
      rcases hstart.free with (hlost | herr) | ⟨hidle, -⟩
      · rw [hbad] at hlost
        cases hlost
      · simp [ConnView.next, herr]
      · simp [ConnView.next, hidle]
    rw [hnext]
    exact hstart
  · refine ⟨?_, .inl (.inl hbad)⟩
    rcases hdurable with hdurable | ⟨hgood, hdurable⟩
    · rw [hdurable, hstart.durable_eq]
    · rw [hdurable]
      -- a `begin` makes nothing durable
      rcases hstart.free with (hlost | herr) | ⟨hidle, -⟩
      · rw [hgood] at hlost
        cases hlost
      · simp [ConnView.next, herr, hstart.durable_eq]
      · simp [ConnView.next, hidle, hstart.durable_eq]

/-- An attempt leaves all or nothing of what it has executed. -/
theorem Start.leaves {mode : Bytes} {body : Body ρ} {out : TxnEnd}
    (hstart : Start d (S.view s)) (hbody : body.Honest False)
    (h : attempt S mode body s = (out, s')) :
    Leaves d (attemptExecuted S mode body s) out (S.view s') := by
  unfold attempt at h
  unfold attemptExecuted
  cases hbegin : S.exec s (.begin mode) with
  | mk r s₁ =>
    rw [hbegin] at h
    cases r with
    | ok r => exact ((hstart.begin_ok hbegin).run hbody).leaves_finish h
    | error e =>
      cases h
      exact .raised (hstart.begin_error hbegin).durable_eq

/-- What is raised by an end leaves the block, or there is nothing to be executed in it any more. -/
theorem Inside.start_of_finish {fin : BodyEnd} {e : Raised} (hin : Inside d b (S.view s))
    (hfailed : ∀ e, fin = .error e → e.isSerializationFailure = true → Failed (S.view s))
    (he : e.isSerializationFailure = true) (h : finish S s fin = (.raised e, s')) :
    Start d (S.view s') ∨ (S.view s').bad = true := by
  have hcommit : ∀ {v}, execThen S s .commit (.value v) = (.raised e, s') →
      Start d (S.view s') ∨ (S.view s').bad = true := by
    intro v hexec
    unfold execThen at hexec
    split at hexec
    case h_1 => cases hexec
    case h_2 e' s₂ hexec' =>
      cases hexec
      rcases hin.commit_error hexec' with ⟨hbad, -⟩ | ⟨-, hidle, hblock, hdurable⟩
      · exact .inr hbad
      · exact .inl ⟨hdurable, .inr ⟨hidle, hblock⟩⟩
  have hrollback : ∀ {out}, (∀ e, out ≠ .raised e) →
      execThen S s .rollback out = (.raised e, s') →
      Start d (S.view s') ∨ (S.view s').bad = true := by
    intro out hout hexec
    unfold execThen at hexec
    split at hexec
    case h_1 =>
      cases hexec
      exact absurd rfl (hout e)
    case h_2 e' s₂ hexec' =>
      cases hexec
      rcases S.exec_error hexec' with ⟨-, hans, -⟩ | ⟨hbad, -⟩
      · cases hans.rollback rfl
      · exact .inr hbad
  match fin with
  | .dead v => exact hcommit h
  | .error e' =>
    cases h
    exact .inl ⟨hin.durable_eq, .inl (hfailed e rfl he)⟩
  | .signal (.own .commit v) => exact hcommit h
  | .signal (.own .rollback v) => exact hrollback (fun _ => by simp) h
  | .signal (.own (.other _) _) =>
    cases h
    cases he
  | .signal (.foreign n v) => exact hrollback (fun _ => by simp) h

/-- An honest function raises a serialization failure in a block that is given
up. A `commit` that fails leaves the block. Either way the next attempt can start. -/
theorem Start.attempt_again {mode : Bytes} {body : Body ρ} {e : Raised}
    (hstart : Start d (S.view s)) (hbody : body.Honest False)
    (he : e.isSerializationFailure = true) (h : attempt S mode body s = (.raised e, s')) :
    Start d (S.view s') ∨ (S.view s').bad = true := by
  unfold attempt at h
  cases hbegin : S.exec s (.begin mode) with
  | mk r s₁ =>
    rw [hbegin] at h
    cases r with
    | error e' =>
      cases h
      exact .inl (hstart.begin_error hbegin)
    | ok r =>
      have hin := hstart.begin_ok hbegin
      exact (hin.run hbody).start_of_finish
        (fun e hend he => hin.failed_of_honest hbody (fun hf => hf.elim) hend he) he h

/-! ### All attempts -/

/-- On a connection that is lost, an attempt does nothing. -/
theorem attempt_of_bad {mode : Bytes} {body : Body ρ} {out : TxnEnd}
    (h : attempt S mode body s = (out, s')) (hbad : (S.view s).bad = true) :
    (∃ e, out = .raised e) ∧ (S.view s').bad = true ∧
      (S.view s').durable = (S.view s).durable := by
  unfold attempt at h
  cases hbegin : S.exec s (.begin mode) with
  | mk r s₁ =>
    rw [hbegin] at h
    obtain ⟨⟨e, rfl⟩, hbad', hdurable⟩ := S.exec_of_bad hbegin hbad
    cases h
    exact ⟨⟨_, rfl⟩, hbad', hdurable⟩

variable {opts : TxnOptions} {ftx : ℕ → Body ρ} {fuel n : ℕ} {out : TxnEnd}

/-- How a run of `txn*` goes on behind an attempt. -/
theorem txn_succ (h : txn S opts ftx (fuel + 1) n s = some (out, s')) :
    ∃ out₁ s₁, attempt S opts.mode (ftx n) s = (out₁, s₁) ∧
      ((∃ e, out₁ = .raised e ∧ opts.retry = true ∧ e.isSerializationFailure = true ∧
          txn S opts ftx fuel (n + 1) s₁ = some (out, s')) ∨
        (∃ e, out₁ = .raised e ∧ (S.view s₁).bad = true ∧ out = .raised e ∧ s' = s₁) ∨
        (∃ e, out₁ = .raised e ∧ (S.view s₁).bad = false ∧
          execThen S s₁ .rollback (.raised e) = (out, s')) ∨
        (∀ e, out₁ ≠ .raised e) ∧ out = out₁ ∧ s' = s₁) := by
  rw [txn] at h
  split at h
  case h_1 e s₁ hatt =>
    refine ⟨_, _, hatt, ?_⟩
    split at h
    case isTrue hretry =>
      obtain ⟨hretry, he⟩ := Bool.and_eq_true_iff.mp hretry
      exact .inl ⟨e, rfl, hretry, he, h⟩
    case isFalse =>
      split at h
      case isTrue hbad =>
        cases h
        exact .inr (.inl ⟨e, rfl, hbad, rfl, rfl⟩)
      case isFalse hbad =>
        exact .inr (.inr (.inl ⟨e, rfl, eq_false_of_ne_true hbad, Option.some.inj h⟩))
  case h_2 hnot =>
    have hatt := Option.some.inj h
    refine ⟨out, s', hatt, .inr (.inr (.inr ⟨fun e he => hnot e s' ?_, rfl, rfl⟩))⟩
    rw [hatt, he]

/-- An attempt that does not raise has left its block. -/
theorem attempt_settled {mode : Bytes} {body : Body ρ} (h : attempt S mode body s = (out, s'))
    (hout : ∀ e, out ≠ .raised e) : (S.view s').status = .idle := by
  have hexec : ∀ {s₁ c out₁}, c = .commit ∨ c = .rollback → execThen S s₁ c out₁ = (out, s') →
      (S.view s').status = .idle := by
    intro s₁ c out₁ hc hexec
    unfold execThen at hexec
    split at hexec
    case h_1 r s₂ hok =>
      cases hexec
      obtain ⟨-, -, hview⟩ := S.exec_ok hok
      rw [hview]
      rcases hc with rfl | rfl <;> rfl
    case h_2 e s₂ _ =>
      cases hexec
      exact absurd rfl (hout _)
  unfold attempt at h
  split at h
  case h_1 r s₁ _ =>
    generalize (body.run S s₁).1 = fin at h
    match fin with
    | .dead v => exact hexec (.inl rfl) h
    | .error e =>
      cases h
      exact absurd rfl (hout e)
    | .signal (.own .commit v) => exact hexec (.inl rfl) h
    | .signal (.own .rollback v) => exact hexec (.inr rfl) h
    | .signal (.own (.other _) _) =>
      cases h
      exact absurd rfl (hout misuse)
    | .signal (.foreign n v) => exact hexec (.inr rfl) h
  case h_2 e s₁ _ =>
    cases h
    exact absurd rfl (hout _)

/-- **However `txn*` ends, it leaves no block open**, whatever the function does, and wherever it
was started. -/
theorem txn_settled (h : txn S opts ftx fuel n s = some (out, s')) :
    (S.view s').bad = true ∨ (S.view s').status = .idle := by
  induction fuel generalizing n s with
  | zero => cases h
  | succ fuel ih =>
    obtain ⟨out₁, s₁, hatt, hcases⟩ := txn_succ h
    rcases hcases with ⟨e, rfl, -, -, hrest⟩ | ⟨e, rfl, hbad, -, rfl⟩ | ⟨e, rfl, -, hexec⟩ |
      ⟨hnot, rfl, rfl⟩
    · exact ih hrest
    · exact .inl hbad
    · exact (raised_of_rollback hexec).2.2
    · exact .inr (attempt_settled hatt hnot)

/-- A new connection. The first `commit` on it fails, the second one does not. -/
def commitFailsOnce : ConnView × List (Option PqError) :=
  (ConnView.fresh, [none, none, some ⟨some serializationFailure⟩])

/-- The same connection when the statement has been committed. -/
def insertedOnce : ConnView × List (Option PqError) := (⟨false, .idle, [ascii "insert"], []⟩, [])

theorem txn_insertOnce :
    txn PgServer.scripted ⟨true, []⟩ (fun _ => insertOnce) 2 0 commitFailsOnce =
      some (.value (.boolean true), insertedOnce) := rfl

theorem txn_settled_insert : insertedOnce.1.bad = true ∨ insertedOnce.1.status = .idle :=
  txn_settled txn_insertOnce

/-- The attempts of a run: one that raises a serialization failure is followed by another one. -/
inductive Tries (S : PgServer σ ρ) (opts : TxnOptions) (ftx : ℕ → Body ρ) :
    (n : ℕ) → (s : σ) → (m : ℕ) → (s₁ : σ) → Prop
  | first (n : ℕ) (s : σ) : Tries S opts ftx n s n s
  | again {n m : ℕ} {s s₁ s₂ : σ} {e : Raised} (hretry : opts.retry = true)
    (he : e.isSerializationFailure = true) (h : attempt S opts.mode (ftx n) s = (.raised e, s₁))
    (rest : Tries S opts ftx (n + 1) s₁ m s₂) : Tries S opts ftx n s m s₂

/-- On a connection that is lost, `txn*` does nothing. -/
theorem txn_of_bad (h : txn S opts ftx fuel n s = some (out, s')) (hbad : (S.view s).bad = true) :
    (∃ e, out = .raised e) ∧ (S.view s').bad = true ∧
      (S.view s').durable = (S.view s).durable := by
  induction fuel generalizing n s with
  | zero => cases h
  | succ fuel ih =>
    obtain ⟨out₁, s₁, hatt, hcases⟩ := txn_succ h
    obtain ⟨⟨e₁, rfl⟩, hbad₁, hdurable⟩ := attempt_of_bad hatt hbad
    rcases hcases with ⟨-, -, -, -, hrest⟩ | ⟨e, he, -, rfl, rfl⟩ | ⟨-, -, hgood, -⟩ | ⟨hnot, -⟩
    · obtain ⟨hout, hbad', hdurable'⟩ := ih hrest hbad₁
      exact ⟨hout, hbad', hdurable'.trans hdurable⟩
    · exact ⟨⟨e, rfl⟩, hbad₁, hdurable⟩
    · rw [hbad₁] at hgood
      cases hgood
    · exact absurd rfl (hnot e₁)

/-- **What `txn*` leaves behind is all that one of its attempts has executed, or nothing.** -/
theorem txn_atomic (hstart : Start d (S.view s)) (hftx : ∀ n, (ftx n).Honest False)
    (h : txn S opts ftx fuel n s = some (out, s')) :
    ∃ m s₁, Tries S opts ftx n s m s₁ ∧
      Leaves d (attemptExecuted S opts.mode (ftx m) s₁) out (S.view s') := by
  induction fuel generalizing n s with
  | zero => cases h
  | succ fuel ih =>
    obtain ⟨out₁, s₁, hatt, hcases⟩ := txn_succ h
    have hleaves := hstart.leaves (hftx n) hatt
    rcases hcases with
      ⟨e, rfl, hretry, he, hrest⟩ | ⟨e, rfl, -, rfl, rfl⟩ | ⟨e, rfl, hgood, hexec⟩ | ⟨-, rfl, rfl⟩
    · rcases hstart.attempt_again (hftx n) he hatt with hagain | hbad
      · obtain ⟨m, s₂, htries, hend⟩ := ih hagain hrest
        exact ⟨m, s₂, .again hretry he hatt htries, hend⟩
      · -- the connection is lost, and with it the attempts that are left
        obtain ⟨⟨e', rfl⟩, hbad', hdurable⟩ := txn_of_bad hrest hbad
        refine ⟨n, s, .first n s, ?_⟩
        cases hleaves with
        | raised hd => exact .raised (hdurable.trans hd)
        | unknown _ hd => exact .unknown hbad' (hdurable.trans hd)
    · exact ⟨n, s, .first n s, hleaves⟩
    · have hd : (S.view s₁).durable = d := by
        cases hleaves with
        | raised hd => exact hd
        | unknown hbad _ =>
          rw [hgood] at hbad
          cases hbad
      obtain ⟨⟨e', rfl⟩, hdurable, -⟩ := raised_of_rollback hexec
      exact ⟨n, s, .first n s, .raised (hdurable.trans hd)⟩
    · exact ⟨n, s, .first n s, hleaves⟩

theorem honest_insertOnce (failed : Prop) : insertOnce.Honest failed :=
  ⟨⟨_, rfl⟩, fun _ => trivial, fun _ _ => trivial⟩

theorem start_fresh : Start [] ConnView.fresh := ⟨rfl, .inr ⟨rfl, rfl⟩⟩

theorem txn_atomic_insert :
    ∃ m s₁, Tries PgServer.scripted ⟨true, []⟩ (fun _ => insertOnce) 0 commitFailsOnce m s₁ ∧
      Leaves [] (attemptExecuted PgServer.scripted [] insertOnce s₁) (.value (.boolean true))
        insertedOnce.1 :=
  txn_atomic start_fresh (fun _ => honest_insertOnce False) txn_insertOnce

/-- What is not raised is what the last attempt returned. -/
theorem exists_last_attempt (hstart : Start d (S.view s)) (hftx : ∀ n, (ftx n).Honest False)
    (h : txn S opts ftx fuel n s = some (out, s')) (hout : ∀ e, out ≠ .raised e) :
    ∃ m s₁, Tries S opts ftx n s m s₁ ∧ Start d (S.view s₁) ∧
      attempt S opts.mode (ftx m) s₁ = (out, s') := by
  induction fuel generalizing n s with
  | zero => cases h
  | succ fuel ih =>
    obtain ⟨out₁, s₁, hatt, hcases⟩ := txn_succ h
    rcases hcases with ⟨e, rfl, hretry, he, hrest⟩ | ⟨e, -, -, rfl, -⟩ | ⟨e, -, -, hexec⟩ |
      ⟨-, rfl, rfl⟩
    · rcases hstart.attempt_again (hftx n) he hatt with hagain | hbad
      · obtain ⟨m, s₂, htries, hlast⟩ := ih hagain hrest
        exact ⟨m, s₂, .again hretry he hatt htries, hlast⟩
      · obtain ⟨⟨e', rfl⟩, -⟩ := txn_of_bad hrest hbad
        exact absurd rfl (hout e')
    · exact absurd rfl (hout e)
    · obtain ⟨⟨e', rfl⟩, -⟩ := raised_of_rollback hexec
      exact absurd rfl (hout e')
    · exact ⟨n, s, .first n s, hstart, hatt⟩

end

end AhungryJanet.Pq
