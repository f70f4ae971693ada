import AhungryJanet.Janet.Value

/-!
# A PostgreSQL server

The server and `libpq` are outside of the repository. Of their documentation a `PgServer` has what a
command does to the transaction block of its connection, if it succeeds, if it fails, and if the
connection is lost meanwhile. Which of the three happens is up to the server, except that `rollback`
does not fail, and that a block in which something failed accepts nothing but its end.

The queries are none of `begin`, `commit` and `rollback`, which are commands of their own.
Savepoints, prepared transactions and ends of a block that begin another one are not in the model.
-/

namespace AhungryJanet.Pq

/-! ### The server -/

/-- `PQtransactionStatus`, between two commands. -/
inductive TransactionStatus where
  | idle
  | inTrans
  | inError
  deriving DecidableEq

/-- An error of the server, with the field `PG_DIAG_SQLSTATE` of it. -/
structure PqError where
  sqlstate : Option Bytes
  deriving DecidableEq

/-- `40001`. -/
def serializationFailure : Bytes := ascii "40001"

inductive Command where
  | begin (mode : Bytes)
  | commit
  | rollback
  | query (q : Bytes)

/-- A connection: whether it is lost, the status of its transaction block, the statements that were
made durable through it, and those executed in the block. -/
structure ConnView where
  bad : Bool
  status : TransactionStatus
  durable : List Bytes
  block : List Bytes

/-- What `status` and `transaction-status` tell. The block of a lost connection is unknown. -/
def ConnView.seen (v : ConnView) : Option TransactionStatus := if v.bad then none else some v.status

/-- What a command does on a connection that is not lost, if it succeeds and if it fails. -/
def ConnView.next (v : ConnView) : Command → (succeeds : Bool) → ConnView
  | .begin _, succeeds =>
    match v.status, succeeds with
    | .idle, true => { v with status := .inTrans }
    | .inTrans, false => { v with status := .inError }
    | _, _ => v
  | .commit, succeeds =>
    { v with
      status := .idle
      block := []
      durable := if v.status = .inTrans ∧ succeeds then v.durable ++ v.block else v.durable }
  | .rollback, _ => { v with status := .idle, block := [] }
  | .query q, succeeds =>
    match v.status, succeeds with
    | .idle, true => { v with durable := v.durable ++ [q] }
    | .inTrans, true => { v with block := v.block ++ [q] }
    | .inTrans, false => { v with status := .inError }
    | _, _ => v

/-- Which results a command can have. -/
structure Answers (c : Command) (v : ConnView) (err : Option PqError) : Prop where
  rollback : c = .rollback → err = none
  /-- Outside of a block, and in one in which something failed, `commit` only warns. -/
  commit : c = .commit → v.status ≠ .inTrans → err = none
  /-- `current transaction is aborted, commands ignored until end of transaction block`. -/
  aborted : v.status = .inError → c ≠ .commit → c ≠ .rollback →
    ∃ e, err = some e ∧ e.sqlstate ≠ some serializationFailure

/-- A command on a connection, its result and the connection afterwards. -/
inductive Serves (c : Command) (v : ConnView) : Option PqError → ConnView → Prop
  | answers {err : Option PqError} (hbad : v.bad = false) (h : Answers c v err) :
    Serves c v err (v.next c err.isNone)
  /-- The server gives up the block. The command may have been executed before. -/
  | lost (e : PqError) {durable : List Bytes} (hbad : v.bad = false)
    (h : durable = v.durable ∨ durable = (v.next c true).durable) :
    Serves c v (some e) ⟨true, .idle, durable, []⟩
  | bad (e : PqError) (hbad : v.bad = true) : Serves c v (some e) v

/-- A connection to a server, of the type `σ`, whose results are of the type `ρ`. -/
structure PgServer (σ ρ : Type) where
  exec : σ → Command → Except PqError ρ × σ
  view : σ → ConnView
  serves : ∀ s c, Serves c (view s)
    (match (exec s c).1 with
      | .ok _ => none
      | .error e => some e)
    (view (exec s c).2)

/-! ### One command -/

section

variable {σ ρ : Type} (S : PgServer σ ρ)

/-- The cases of a command, by its result. -/
theorem PgServer.exec_ok {s s' : σ} {c : Command} {r : ρ} (h : S.exec s c = (.ok r, s')) :
    (S.view s).bad = false ∧ Answers c (S.view s) none ∧ S.view s' = (S.view s).next c true := by
  have hserves := S.serves s c
  rw [h] at hserves
  generalize hv' : S.view s' = v' at hserves
  cases hserves with
  | answers hbad hans => exact ⟨hbad, hans, rfl⟩

theorem PgServer.exec_error {s s' : σ} {c : Command} {e : PqError}
    (h : S.exec s c = (.error e, s')) :
    (S.view s).bad = false ∧ Answers c (S.view s) (some e) ∧
        S.view s' = (S.view s).next c false ∨
      (S.view s').bad = true ∧ ((S.view s').durable = (S.view s).durable ∨
        (S.view s).bad = false ∧ (S.view s').durable = ((S.view s).next c true).durable) := by
  have hserves := S.serves s c
  rw [h] at hserves
  generalize hv' : S.view s' = v' at hserves
  cases hserves with
  | answers hbad hans => exact .inl ⟨hbad, hans, rfl⟩
  | lost _ hbad hdurable => exact .inr ⟨rfl, hdurable.imp_right fun h => ⟨hbad, h⟩⟩
  | bad _ hbad => exact .inr ⟨hbad, .inl rfl⟩

/-- A lost connection stays lost. -/
theorem PgServer.exec_of_bad {s s' : σ} {c : Command} {out : Except PqError ρ}
    (h : S.exec s c = (out, s')) (hbad : (S.view s).bad = true) :
    (∃ e, out = .error e) ∧ (S.view s').bad = true ∧
      (S.view s').durable = (S.view s).durable := by
  cases out with
  | ok r =>
    obtain ⟨hgood, -⟩ := S.exec_ok h
    rw [hbad] at hgood
    cases hgood
  | error e =>
    rcases S.exec_error h with ⟨hgood, -⟩ | ⟨hbad', hdurable | ⟨hgood, -⟩⟩
    · rw [hbad] at hgood
      cases hgood
    · exact ⟨⟨e, rfl⟩, hbad', hdurable⟩
    · rw [hbad] at hgood
      cases hgood

variable {S}

/-- `rollback` leaves the block, and whatever is durable as it is. -/
theorem rollback_durable {s s' : σ} {out : Except PqError ρ}
    (h : S.exec s .rollback = (out, s')) :
    (S.view s').durable = (S.view s).durable := by
  cases out with
  | ok r =>
    obtain ⟨-, -, hview⟩ := S.exec_ok h
    rw [hview]
    rfl
  | error e =>
    rcases S.exec_error h with ⟨-, -, hview⟩ | ⟨-, hdurable | ⟨-, hdurable⟩⟩
    · rw [hview]
      rfl
    · exact hdurable
    · exact hdurable

theorem rollback_settled {s s' : σ} {out : Except PqError ρ}
    (h : S.exec s .rollback = (out, s')) :
    (S.view s').bad = true ∨ (S.view s').status = .idle := by
  cases out with
  | ok r =>
    obtain ⟨-, -, hview⟩ := S.exec_ok h
    rw [hview]
    exact .inr rfl
  | error e =>
    rcases S.exec_error h with ⟨-, -, hview⟩ | ⟨hbad, -⟩
    · rw [hview]
      exact .inr rfl
    · exact .inl hbad

end

/-! ### A script -/

/-- What a server returns that would like to return `wanted`. -/
def scriptedError (c : Command) (status : TransactionStatus) (wanted : Option PqError) :
    Option PqError :=
  match c, status with
  | .rollback, _ | .commit, .idle | .commit, .inError => none
  | .begin _, .inError | .query _, .inError => some ⟨some (ascii "25P02")⟩
  | _, _ => wanted

/-- A server that goes through a list of what it would like to return. -/
def scriptedExec (s : ConnView × List (Option PqError)) (c : Command) :
    Except PqError Unit × (ConnView × List (Option PqError)) :=
  if s.1.bad then (.error ⟨none⟩, s)
  else
    match scriptedError c s.1.status (s.2.headD none) with
    | none => (.ok (), (s.1.next c true, s.2.tail))
    | some e => (.error e, (s.1.next c false, s.2.tail))

theorem answers_scriptedError (c : Command) (v : ConnView) (wanted : Option PqError) :
    Answers c v (scriptedError c v.status wanted) := by
  constructor
  · rintro rfl
    rfl
  · rintro rfl hstatus
    cases h : v.status with
    | inTrans => exact absurd h hstatus
    | _ => rfl
  · intro herr hcommit hrollback
    refine ⟨⟨some (ascii "25P02")⟩, ?_, by decide⟩
    rw [herr]
    cases c with
    | commit => exact absurd rfl hcommit
    | rollback => exact absurd rfl hrollback
    | _ => rfl

/-- It is a server. -/
def PgServer.scripted : PgServer (ConnView × List (Option PqError)) Unit where
  exec := scriptedExec
  view := Prod.fst
  serves s c := by
    have hanswers := answers_scriptedError c s.1 (s.2.headD none)
    unfold scriptedExec
    cases hbad : s.1.bad with
    | true => exact .bad _ hbad
    | false =>
      cases herr : scriptedError c s.1.status (s.2.headD none) with
      | none =>
        rw [herr] at hanswers
        exact .answers hbad hanswers
      | some e =>
        rw [herr] at hanswers
        exact .answers hbad hanswers

/-- A new connection. -/
def ConnView.fresh : ConnView := ⟨false, .idle, [], []⟩

end AhungryJanet.Pq
