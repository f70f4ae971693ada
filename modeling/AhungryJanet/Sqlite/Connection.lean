import AhungryJanet.Sqlite.Live

/-!
# Connections

The methods of a `sqlite3.connection`, and its collection. A connection is closed by the program or
by the collector, and every other method looks at the flag first.

## Main results

* `lifetime_handle` — over any run of methods, the database is closed once, used only before that,
  and has no statement of its own left then -/

namespace AhungryJanet.Sqlite

open Handles

section

variable {σ η : Type} [DecidableEq η]

/-- `Db`, with what was done with the database so far, and the statements it had when it was
closed. -/
structure Db (σ η : Type) where
  closed : Bool
  lib : σ
  calls : List (HandleEvent Unit)
  left : Option (List η)

/-- What a program can do with a connection. -/
inductive DbOp where
  | close
  | eval (query : Bytes) (params : Option Value) (fuel : ℕ)
  | lastInsertRowid
  | errorCode

/-- `MSG_DB_CLOSED`. -/
def dbClosed : Bytes := ascii "database already closed"

variable (D : Doubles) (L : Sqlite3 σ η)

/-- `closedb`. -/
def closedb (db : Db σ η) : Db σ η :=
  if db.closed then db
  else { db with
    closed := true
    calls := db.calls ++ [.closed ()]
    left := some (L.live db.lib) }

/-- A method: it looks at the flag, unless it is `close`. -/
def DbOp.run (op : DbOp) (db : Db σ η) : Option (Except Bytes Value × Db σ η) :=
  match op with
  | .close => some (.ok .nil, closedb L db)
  | .eval query params fuel =>
    if db.closed then some (.error dbClosed, db)
    else do
      let (result, m) ← sqlEval D L query params fuel ⟨db.lib, []⟩
      return (result.map .array, { db with lib := m.lib, calls := db.calls ++ [.used ()] })
  | .lastInsertRowid =>
    if db.closed then some (.error dbClosed, db)
    else some (.ok (.number (D.ofInt (L.lastInsertRowid db.lib))),
      { db with calls := db.calls ++ [.used ()] })
  | .errorCode =>
    if db.closed then some (.error dbClosed, db)
    else some (.ok (.number (D.ofInt (L.errcode db.lib))),
      { db with calls := db.calls ++ [.used ()] })

/-- One method after another, whatever they raise. -/
def runOps : List DbOp → Db σ η → Option (Db σ η)
  | [], db => some db
  | op :: ops, db => (op.run D L db).bind fun (_, db) => runOps ops db

/-- `sql_open`, and `gcsqlite` when nobody has the connection any more. -/
def lifetime (ops : List DbOp) (s : σ) : Option (Db σ η) :=
  (runOps D L ops ⟨false, s, [], none⟩).map (closedb L)

variable {D L}

/-- The calls are right, and the database is open if the flag says so. -/
structure Flagged (L : Sqlite3 σ η) (base : List η) (db : Db σ η) : Prop where
  calls : after [()] db.calls = some (if db.closed then [] else [()])
  live : db.closed = false → L.live db.lib = base
  left : db.closed = true → db.left = some base
  not_opened : .opened () ∉ db.calls

theorem Flagged.used {base : List η} {db : Db σ η} {lib : σ} (h : Flagged L base db)
    (hopen : ¬ db.closed = true) (hlib : L.live lib = L.live db.lib) :
    Flagged L base { db with lib := lib, calls := db.calls ++ [.used ()] } := by
  have hcalls := h.calls
  rw [if_neg hopen] at hcalls
  refine ⟨?_, fun hc => hlib.trans (h.live hc), h.left, by simpa using h.not_opened⟩
  rw [after_append_of_eq hcalls, if_neg hopen]
  rfl

/-- Closing twice is closing once. -/
theorem Flagged.closedb {base : List η} {db : Db σ η} (h : Flagged L base db) :
    Flagged L base (closedb L db) ∧ (closedb L db).closed = true := by
  unfold Sqlite.closedb
  split
  case isTrue hc => exact ⟨h, hc⟩
  case isFalse hopen =>
    have hcalls := h.calls
    rw [if_neg hopen] at hcalls
    refine ⟨⟨?_, fun hc => (nomatch hc), fun _ => ?_, by simpa using h.not_opened⟩, rfl⟩
    · rw [after_append_of_eq hcalls, if_pos rfl]
      rfl
    · exact congrArg some (h.live (eq_false_of_ne_true hopen))

/-- Every method keeps this. -/
theorem Flagged.run {base : List η} {db db' : Db σ η} {op : DbOp} {out : Except Bytes Value}
    (h : Flagged L base db) (hrun : op.run D L db = some (out, db')) : Flagged L base db' := by
  cases op with
  | close =>
    cases hrun
    exact h.closedb.1
  | eval query params fuel =>
    rw [DbOp.run] at hrun
    split at hrun
    case isTrue =>
      cases hrun
      exact h
    case isFalse hopen =>
      obtain ⟨⟨result, m⟩, heval, hret⟩ := Option.bind_eq_some_iff.mp hrun
      cases hret
      exact h.used hopen (sqlEval_live heval).2
  | lastInsertRowid | errorCode =>
    rw [DbOp.run] at hrun
    split at hrun
    case isTrue =>
      cases hrun
      exact h
    case isFalse hopen =>
      cases hrun
      exact h.used hopen rfl

theorem Flagged.runOps {base : List η} {ops : List DbOp} {db db' : Db σ η}
    (h : Flagged L base db) (hrun : runOps D L ops db = some db') : Flagged L base db' := by
  induction ops generalizing db with
  | nil =>
    cases hrun
    exact h
  | cons op ops ih =>
    obtain ⟨⟨out, db₁⟩, hop, hrest⟩ := Option.bind_eq_some_iff.mp hrun
    exact ih (h.run hop) hrest

/-- Whatever a program does with a connection, and whether it closes it or leaves that to the
collector: the database is used only while it is open, it is closed once, and it has then just the
statements that it had when it was opened. -/
theorem lifetime_handle {ops : List DbOp} {s : σ} {db : Db σ η}
    (h : lifetime D L ops s = some db) :
    after [()] db.calls = some [] ∧ db.calls.count (.closed ()) = 1 ∧
      db.left = some (L.live s) := by
  obtain ⟨db₁, hrun, rfl⟩ := Option.map_eq_some_iff.mp h
  have hstart : Flagged L (L.live s) (⟨false, s, [], none⟩ : Db σ η) :=
    ⟨rfl, fun _ => rfl, fun hc => (nomatch hc), List.not_mem_nil⟩
  obtain ⟨hend, hclosed⟩ := (hstart.runOps hrun).closedb
  have hcalls := hend.calls
  rw [hclosed, if_pos rfl] at hcalls
  refine ⟨hcalls, ?_, hend.left hclosed⟩
  have hcount := count_opened hcalls ()
  simp only [List.count_eq_zero.mpr hend.not_opened, List.count_singleton_self, List.count_nil]
    at hcount
  omega

end

/-- A connection that is closed by the program, and used again. -/
theorem lifetime_handle_select : ∃ db,
    lifetime .small .scripted [.eval (ascii "select 1;") none 4, .close, .errorCode, .close]
        .opened = some db ∧
      db.calls = [.used (), .closed ()] ∧ db.left = some [] := by
  have h : lifetime .small .scripted
    [.eval (ascii "select 1;") none 4, .close, .errorCode, .close] .opened = some _ := rfl
  exact ⟨_, h, rfl, (lifetime_handle h).2.2⟩

end AhungryJanet.Sqlite
