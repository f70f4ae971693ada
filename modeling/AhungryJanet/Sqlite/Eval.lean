import AhungryJanet.Janet.Value

/-!
# Evaluating SQL

`sqlite3/main.c`: `sql_eval` compiles the statements of a text one after another, binds parameters,
executes them, and returns the rows of the last one.

`sqlite3` itself is a `Sqlite3`: its functions on a state of its own, and which prepared statements
that state has. What they compute is left open. Of the C language, what becomes of a double that is
used as an integer, and the other way round, is `Doubles`.

## The order

A statement is executed when the next one has been compiled, since only then it is known not to be
the last. So the second statement is compiled for the tables as they were before the first one.

## Main results

* `round_of_evalLoop` — what a round of the loop can do
-/

namespace AhungryJanet.Sqlite

/-! ### The library -/

/-- What is bound to a parameter. -/
inductive SqlValue where
  | null
  | int (n : ℤ)
  | double (bits : UInt64)
  | text (b : Bytes)
  | blob (b : Bytes)

/-- A column of a row. -/
inductive Column where
  | null
  | integer (n : ℤ)
  | float (bits : UInt64)
  | text (b : Bytes)
  | blob (b : Bytes)

inductive StepResult where
  | row
  | done
  | error (msg : Bytes)

/-- `sqlite3`, with statements of the type `η`. An error comes with its `sqlite3_errmsg`. -/
structure Sqlite3 (σ η : Type) [DecidableEq η] where
  /-- `sqlite3_prepare_v2`: no statement if there is none in the text, and the rest of the text. -/
  prepare : σ → (sql : Bytes) → Except Bytes (Option η × Bytes) × σ
  bindParameterCount : σ → η → ℕ
  /-- 0 if there is none of that name. -/
  bindParameterIndex : σ → η → Bytes → ℕ
  /-- `sqlite3_bind_null`, `_int`, `_double`, `_text`, `_blob`. -/
  bind : σ → η → (index : ℕ) → SqlValue → Option Bytes × σ
  step : σ → η → StepResult × σ
  columnNames : σ → η → List Bytes
  columns : σ → η → List Column
  lastInsertRowid : σ → ℤ
  errcode : σ → ℤ
  finalize : σ → η → σ
  /-- The prepared statements. -/
  live : σ → List η
  live_prepare_some : ∀ s sql h tail, (prepare s sql).1 = .ok (some h, tail) →
    h ∉ live s ∧ live (prepare s sql).2 = h :: live s
  live_prepare_none : ∀ s sql tail, (prepare s sql).1 = .ok (none, tail) →
    live (prepare s sql).2 = live s
  live_prepare_error : ∀ s sql msg, (prepare s sql).1 = .error msg →
    live (prepare s sql).2 = live s
  live_bind : ∀ s h index v, live (bind s h index v).2 = live s
  live_step : ∀ s h, live (step s h).2 = live s
  live_finalize : ∀ s h, live (finalize s h) = (live s).erase h

/-- Doubles and integers. -/
structure Doubles where
  /-- `janet_checkint` and `janet_unwrap_integer` of a number. -/
  checkint : UInt64 → Option ℤ
  /-- `janet_unwrap_integer` of a boolean, whose bits are those of a NaN. -/
  castBoolean : Bool → ℤ
  /-- `janet_wrap_integer`, and `(double)`. -/
  ofInt : ℤ → UInt64

/-- What is done with a statement. -/
inductive SqlEvent (η : Type) where
  | prepared (h : η)
  | bound (h : η) (params : List (ℕ × SqlValue))
  | executed (h : η)
  | collected (h : η) (rows : List Value)
  | finalized (h : η)

/-- The state of the library, and what was done so far. -/
structure Session (σ η : Type) where
  lib : σ
  log : List (SqlEvent η)

section

variable {σ η : Type} [DecidableEq η] (D : Doubles) (L : Sqlite3 σ η)

/-! ### Parameters -/

/-- `has_null`. -/
def hasNull (b : Bytes) : Bool := b.any (· = 0)

/-- The parameter that `bind1` makes of a value. -/
def sqlValue : Value → Except Bytes SqlValue
  | .nil => .ok .null
  | .boolean b => .ok (.int (D.castBoolean b))
  | .number bits => .ok (.double bits)
  | .string b | .symbol b | .keyword b =>
    if hasNull b then .error (ascii "cannot have embedded nulls in text values")
    else .ok (.text b)
  | .buffer b => .ok (.blob b)
  | _ => .error (ascii "invalid sql value")

/-- `bind1`, with what was bound. -/
def bind1 (s : σ) (h : η) (index : ℕ) (value : Value) :
    Option Bytes × σ × List (ℕ × SqlValue) :=
  match sqlValue D value with
  | .error err => (some err, s, [])
  | .ok v =>
    match L.bind s h index v with
    | (some err, s) => (some err, s, [])
    | (none, s) => (none, s, [(index, v)])

/-- A loop of `bindmany`: `bind1` for each item, with the index found for it, up to the first
error. -/
def bindAll {α : Type} (h : η) (index : σ → α → Except Bytes ℕ) :
    List (α × Value) → σ → Option Bytes × σ × List (ℕ × SqlValue)
  | [], s => (none, s, [])
  | (key, value) :: rest, s =>
    match index s key with
    | .error err => (some err, s, [])
    | .ok i =>
      match bind1 D L s h i value with
      | (some err, s, params) => (some err, s, params)
      | (none, s, params) =>
        let (err, s, params') := bindAll h index rest s
        (err, s, params ++ params')

/-- `invalid index in sql parameters`. -/
def invalidIndex : Bytes := ascii "invalid index in sql parameters"

/-- The index that a key of a dictionary stands for. -/
def keyIndex (s : σ) (h : η) : Value → ℤ
  | .number bits => (D.checkint bits).getD 0
  | .keyword b => L.bindParameterIndex s h (cstr (58 :: b))
  | .string b | .symbol b => L.bindParameterIndex s h (cstr b)
  | _ => 0

/-- `bindmany`, for a sequence. -/
def bindSeq (s : σ) (h : η) (seq : List Value) : Option Bytes × σ × List (ℕ × SqlValue) :=
  if seq.length > L.bindParameterCount s h + 1 then (some invalidIndex, s, [])
  else bindAll D L h (fun _ i => .ok i) ((List.range' 1 seq.length).zip seq) s

/-- `bindmany`, for a dictionary, in the order of its slots. -/
def bindKvs (s : σ) (h : η) (kvs : List (Value × Value)) :
    Option Bytes × σ × List (ℕ × SqlValue) :=
  let limitindex := L.bindParameterCount s h
  bindAll D L h (fun s key =>
    let index := keyIndex D L s h key
    if index ≤ 0 ∨ index > limitindex then .error invalidIndex else .ok index.toNat) kvs s

/-- `bindmany`. -/
def bindmany (s : σ) (h : η) : Value → Option Bytes × σ × List (ℕ × SqlValue)
  | .tuple _ seq | .array seq => bindSeq D L s h seq
  | .struct kvs | .table kvs => bindKvs D L s h kvs
  | _ => (some (ascii "invalid type for sql parameters"), s, [])

/-! ### Rows -/

/-- `sqlite3_column_int` takes the low 32 bits. -/
def columnValue : Column → Value
  | .null => .nil
  | .integer n => .number (D.ofInt (Int.bmod n 4294967296))
  | .float bits => .number bits
  | .text b => .string b
  | .blob b => .buffer b

/-- A row: `janet_struct_put` ignores `nil`, and replaces the value of a name that occurs twice. -/
def row (names : List Bytes) (columns : List Column) : Value :=
  .struct (((names.zip columns).foldl (fun row (name, column) =>
    match columnValue D column with
    | .nil => row
    | v => janetTablePut row name v) []).map fun (name, v) => (.keyword name, v))

/-- `execute`. -/
def execute (h : η) : (fuel : ℕ) → σ → Option (Option Bytes × σ)
  | 0, _ => none
  | fuel + 1, s =>
    match L.step s h with
    | (.row, s) => execute h fuel s
    | (.done, s) => some (none, s)
    | (.error msg, s) => some (some msg, s)

/-- `execute_collect`, with the rows that were found. -/
def executeCollect (h : η) (names : List Bytes) :
    (fuel : ℕ) → σ → Option (Option Bytes × List Value × σ)
  | 0, _ => none
  | fuel + 1, s =>
    match L.step s h with
    | (.row, s) => do
      let (err, rows, s') ← executeCollect h names fuel s
      return (err, row D names (L.columns s h) :: rows, s')
    | (.done, s) => some (none, [], s)
    | (.error msg, s) => some (some msg, [], s)

/-! ### `sql_eval` -/

/-- `sqlite3_finalize`, of statements that are there. -/
def finalizeAll (hs : List η) (m : Session σ η) : Session σ η :=
  hs.foldl (fun m h => ⟨L.finalize m.lib h, m.log ++ [.finalized h]⟩) m

/-- The statement before the one just compiled is executed. -/
def runCurrent (fuel : ℕ) (stmt : Option η) (m : Session σ η) :
    Option (Option Bytes × Session σ η) :=
  match stmt with
  | none => some (none, m)
  | some h => do
    let (err, lib) ← execute L h fuel m.lib
    return (err, ⟨lib, m.log ++ [.executed h]⟩)

/-- Parameters are bound if there are any. -/
def bindNext (params : Option Value) (h : η) (m : Session σ η) : Option Bytes × Session σ η :=
  match params with
  | none => (none, ⟨m.lib, m.log ++ [.bound h []]⟩)
  | some params =>
    let (err, lib, bound) := bindmany D L m.lib h params
    (err, ⟨lib, m.log ++ [.bound h bound]⟩)

/-- The loop of `sql_eval`: the statement compiled last, and the rest of the text. -/
def evalLoop (params : Option Value) : (fuel : ℕ) → (stmt : Option η) → (c : Bytes) →
    Session σ η → Option (Except Bytes (List Value) × Session σ η)
  | 0, _, _, _ => none
  | fuel + 1, stmt, c, m =>
    match L.prepare m.lib c with
    | (.error err, lib) => some (.error err, finalizeAll L stmt.toList ⟨lib, m.log⟩)
    | (.ok (none, _), lib) =>
      match stmt with
      | none => some (.ok [], ⟨lib, m.log⟩)
      | some h => do
        let (err, rows, lib) ← executeCollect D L h (L.columnNames lib h) fuel lib
        let m := finalizeAll L [h] ⟨lib, m.log ++ [.collected h rows]⟩
        return (match err with
          | some err => .error err
          | none => .ok rows, m)
    | (.ok (some next, c), lib) => do
      let (err, m) ← runCurrent L fuel stmt ⟨lib, m.log ++ [.prepared next]⟩
      match err with
      | some err => return (.error err, finalizeAll L (stmt.toList ++ [next]) m)
      | none =>
        match bindNext D L params next m with
        | (some err, m) => return (.error err, finalizeAll L (stmt.toList ++ [next]) m)
        | (none, m) => evalLoop params fuel (some next) c (finalizeAll L stmt.toList m)

/-- `sql_eval` on a connection that is not closed. -/
def sqlEval (query : Bytes) (params : Option Value) (fuel : ℕ) (m : Session σ η) :
    Option (Except Bytes (List Value) × Session σ η) :=
  if hasNull query then some (.error (ascii "cannot have embedded NULL in sql statememts"), m)
  else evalLoop D L params fuel none query m

/-! ### One round -/

/-- What a round of the loop can do. -/
inductive Round (params : Option Value) (fuel : ℕ) (stmt : Option η) (c : Bytes)
    (m : Session σ η) : Except Bytes (List Value) → Session σ η → Prop
  | notCompiled {err : Bytes} {lib : σ} (hprepare : L.prepare m.lib c = (.error err, lib)) :
    Round params fuel stmt c m (.error err) (finalizeAll L stmt.toList ⟨lib, m.log⟩)
  | nothing {tail : Bytes} {lib : σ} (hprepare : L.prepare m.lib c = (.ok (none, tail), lib))
    (hstmt : stmt = none) : Round params fuel stmt c m (.ok []) ⟨lib, m.log⟩
  | last {tail : Bytes} {lib lib' : σ} {h : η} {err : Option Bytes} {rows : List Value}
    (hprepare : L.prepare m.lib c = (.ok (none, tail), lib)) (hstmt : stmt = some h)
    (hrun : executeCollect D L h (L.columnNames lib h) fuel lib = some (err, rows, lib')) :
    Round params fuel stmt c m (err.elim (.ok rows) .error)
      (finalizeAll L [h] ⟨lib', m.log ++ [.collected h rows]⟩)
  | notExecuted {tail err : Bytes} {lib : σ} {next : η} {m₁ : Session σ η}
    (hprepare : L.prepare m.lib c = (.ok (some next, tail), lib))
    (hrun : runCurrent L fuel stmt ⟨lib, m.log ++ [.prepared next]⟩ = some (some err, m₁)) :
    Round params fuel stmt c m (.error err) (finalizeAll L (stmt.toList ++ [next]) m₁)
  | notBound {tail err : Bytes} {lib : σ} {next : η} {m₁ m₂ : Session σ η}
    (hprepare : L.prepare m.lib c = (.ok (some next, tail), lib))
    (hrun : runCurrent L fuel stmt ⟨lib, m.log ++ [.prepared next]⟩ = some (none, m₁))
    (hbind : bindNext D L params next m₁ = (some err, m₂)) :
    Round params fuel stmt c m (.error err) (finalizeAll L (stmt.toList ++ [next]) m₂)
  | goOn {tail : Bytes} {lib : σ} {next : η} {m₁ m₂ m' : Session σ η}
    {result : Except Bytes (List Value)}
    (hprepare : L.prepare m.lib c = (.ok (some next, tail), lib))
    (hrun : runCurrent L fuel stmt ⟨lib, m.log ++ [.prepared next]⟩ = some (none, m₁))
    (hbind : bindNext D L params next m₁ = (none, m₂))
    (hrest : evalLoop D L params fuel (some next) tail (finalizeAll L stmt.toList m₂) =
      some (result, m')) :
    Round params fuel stmt c m result m'

variable {D L}

/-- A round that ends is one of these. -/
theorem round_of_evalLoop {params : Option Value} {fuel : ℕ} {stmt : Option η} {c : Bytes}
    {result : Except Bytes (List Value)} {m m' : Session σ η}
    (h : evalLoop D L params (fuel + 1) stmt c m = some (result, m')) :
    Round D L params fuel stmt c m result m' := by
  rw [evalLoop] at h
  split at h
  case h_1 err lib hprepare =>
    cases h
    exact .notCompiled hprepare
  case h_2 tail lib hprepare =>
    cases stmt with
    | none =>
      cases h
      exact .nothing hprepare rfl
    | some n =>
      obtain ⟨⟨err, rows, lib'⟩, hrun, hret⟩ := Option.bind_eq_some_iff.mp h
      cases hret
      have hlast : Round D L params fuel (some n) c m (err.elim (.ok rows) .error) _ :=
        .last hprepare rfl hrun
      cases err with
      | none => exact hlast
      | some err => exact hlast
  case h_3 next tail lib hprepare =>
    obtain ⟨⟨err, m₁⟩, hrun, hret⟩ := Option.bind_eq_some_iff.mp h
    cases err with
    | some err =>
      cases hret
      exact .notExecuted hprepare hrun
    | none =>
      dsimp only at hret
      split at hret
      case h_1 err m₂ hbind =>
        cases hret
        exact .notBound hprepare hrun hbind
      case h_2 m₂ hbind => exact .goOn hprepare hrun hbind hret

/-! ### The log -/

theorem finalizeAll_cons (h : η) (hs : List η) (m : Session σ η) :
    finalizeAll L (h :: hs) m =
      finalizeAll L hs ⟨L.finalize m.lib h, m.log ++ [.finalized h]⟩ := rfl

theorem finalizeAll_log (hs : List η) (m : Session σ η) :
    (finalizeAll L hs m).log = m.log ++ hs.map .finalized := by
  induction hs generalizing m with
  | nil => exact (List.append_nil _).symm
  | cons h hs ih => rw [finalizeAll_cons, ih, List.append_assoc, List.map_cons]; rfl

theorem runCurrent_log {fuel : ℕ} {stmt : Option η} {err : Option Bytes} {m m' : Session σ η}
    (h : runCurrent L fuel stmt m = some (err, m')) :
    m'.log = m.log ++ stmt.toList.map .executed := by
  unfold runCurrent at h
  cases stmt with
  | none =>
    cases h
    exact (List.append_nil _).symm
  | some n =>
    obtain ⟨_, -, hret⟩ := Option.bind_eq_some_iff.mp h
    cases hret
    rfl

theorem bindNext_log {params : Option Value} {n : η} {err : Option Bytes} {m m' : Session σ η}
    (h : bindNext D L params n m = (err, m')) : ∃ bound, m'.log = m.log ++ [.bound n bound] := by
  unfold bindNext at h
  cases params <;> cases h <;> exact ⟨_, rfl⟩

end

/-! ### One statement -/

/-- A library whose only statement is `select 1;`: the statements that are prepared, those that
have given their row, and the number of the next one. -/
structure Scripted where
  next : ℕ
  live : List ℕ
  stepped : List ℕ
  live_lt : ∀ h ∈ live, h < next

/-- `select 1;` -/
def selectOne : Bytes := ascii "select 1;"

def Scripted.prepare (s : Scripted) (sql : Bytes) : Except Bytes (Option ℕ × Bytes) × Scripted :=
  if sql = [] then (.ok (none, []), s)
  else if selectOne.isPrefixOf sql then
    (.ok (some s.next, sql.drop selectOne.length),
      { s with
        next := s.next + 1
        live := s.next :: s.live
        live_lt := by
          intro h hmem
          rcases List.mem_cons.mp hmem with rfl | hmem
          · exact Nat.lt_succ_self _
          · exact Nat.lt_succ_of_lt (s.live_lt h hmem) })
  else (.error (ascii "near " ++ sql ++ ascii ": syntax error"), s)

def Scripted.step (s : Scripted) (h : ℕ) : StepResult × Scripted :=
  if h ∈ s.stepped then (.done, s) else (.row, { s with stepped := h :: s.stepped })

def Scripted.finalize (s : Scripted) (h : ℕ) : Scripted :=
  { s with
    live := s.live.erase h
    live_lt := fun k hk => s.live_lt k (List.mem_of_mem_erase hk) }

def Sqlite3.scripted : Sqlite3 Scripted ℕ where
  prepare := Scripted.prepare
  bindParameterCount _ _ := 0
  bindParameterIndex _ _ _ := 0
  bind s _ _ _ := (some (ascii "column index out of range"), s)
  step := Scripted.step
  columnNames _ _ := [ascii "1"]
  columns _ _ := [.integer 1]
  finalize := Scripted.finalize
  lastInsertRowid _ := 0
  errcode _ := 0
  live := Scripted.live
  live_prepare_some s sql h tail hprepare := by
    unfold Scripted.prepare at hprepare ⊢
    split at hprepare
    case isTrue => cases hprepare
    case isFalse hsql =>
      split at hprepare
      case isTrue hone =>
        cases hprepare
        rw [if_neg hsql, if_pos hone]
        exact ⟨fun hmem => Nat.lt_irrefl _ (s.live_lt _ hmem), rfl⟩
      case isFalse => cases hprepare
  live_prepare_none s sql tail hprepare := by
    unfold Scripted.prepare at hprepare ⊢
    split at hprepare
    case isTrue hsql => rw [if_pos hsql]
    case isFalse => split at hprepare <;> cases hprepare
  live_prepare_error s sql msg hprepare := by
    unfold Scripted.prepare at hprepare ⊢
    split at hprepare
    case isTrue => cases hprepare
    case isFalse hsql =>
      split at hprepare
      case isTrue => cases hprepare
      case isFalse hone => rw [if_neg hsql, if_neg hone]
  live_bind _ _ _ _ := rfl
  live_step s h := by
    unfold Scripted.step
    split <;> rfl
  live_finalize _ _ := rfl

/-- No statement yet. -/
def Scripted.opened : Scripted := ⟨0, [], [], by simp⟩

/-- Doubles that only the numbers of this library need: 0 and 1. -/
def Doubles.small : Doubles where
  checkint bits := if bits = 0 then some 0 else if bits = 0x3FF0000000000000 then some 1 else none
  castBoolean _ := 0
  ofInt n := if n = 1 then 0x3FF0000000000000 else 0

end AhungryJanet.Sqlite
