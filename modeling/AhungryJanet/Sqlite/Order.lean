import AhungryJanet.Sqlite.Eval

/-!
# The order of a text

`sql_eval` finds the last statement of a text by compiling behind it. So at every point of an
evaluation one statement more is compiled than executed, or two while the one before the last is
executed; and when something fails, at most one compiled statement was not executed.

## Main results

* `sqlEval_order` — what is compiled when a statement is executed, and what was in the end
-/

namespace AhungryJanet.Sqlite

section

variable {σ η : Type}

def SqlEvent.compiled? : SqlEvent η → Option η
  | .prepared h => some h
  | _ => none

def SqlEvent.executed? : SqlEvent η → Option η
  | .executed h | .collected h _ => some h
  | _ => none

/-- The statements that were compiled, in order. -/
def compiled (log : List (SqlEvent η)) : List η := log.filterMap SqlEvent.compiled?

/-- The statements that were executed, in order, even if that has failed. -/
def executed (log : List (SqlEvent η)) : List η := log.filterMap SqlEvent.executed?

/-- What is compiled when something is done: a statement is executed while exactly the next one is
compiled too, and the rows of one are collected while none is. -/
def InTurn (log : List (SqlEvent η)) : SqlEvent η → Prop
  | .executed h => ∃ next, compiled log = executed log ++ [h, next]
  | .collected h _ => compiled log = executed log ++ [h]
  | _ => True

/-- Everything is done in turn. -/
def Ordered (log : List (SqlEvent η)) : Prop :=
  ∀ before e behind, log = before ++ e :: behind → InTurn before e

@[simp] theorem compiled_append (log log' : List (SqlEvent η)) :
    compiled (log ++ log') = compiled log ++ compiled log' := List.filterMap_append

@[simp] theorem executed_append (log log' : List (SqlEvent η)) :
    executed (log ++ log') = executed log ++ executed log' := List.filterMap_append

@[simp] theorem compiled_finalized (hs : List η) :
    compiled (hs.map SqlEvent.finalized) = [] := by
  simp [compiled, List.filterMap_map, SqlEvent.compiled?, Function.comp_def]

@[simp] theorem executed_finalized (hs : List η) :
    executed (hs.map SqlEvent.finalized) = [] := by
  simp [executed, List.filterMap_map, SqlEvent.executed?, Function.comp_def]

@[simp] theorem compiled_executed (hs : List η) : compiled (hs.map SqlEvent.executed) = [] := by
  simp [compiled, List.filterMap_map, SqlEvent.compiled?, Function.comp_def]

@[simp] theorem executed_executed (hs : List η) : executed (hs.map SqlEvent.executed) = hs := by
  simp [executed, List.filterMap_map, SqlEvent.executed?, Function.comp_def]

@[simp] theorem compiled_singleton (e : SqlEvent η) : compiled [e] = e.compiled?.toList := by
  cases e <;> rfl

@[simp] theorem executed_singleton (e : SqlEvent η) : executed [e] = e.executed?.toList := by
  cases e <;> rfl

theorem ordered_nil : Ordered ([] : List (SqlEvent η)) :=
  fun before e behind h => by cases before <;> cases h

theorem Ordered.append {log : List (SqlEvent η)} {e : SqlEvent η} (h : Ordered log)
    (he : InTurn log e) : Ordered (log ++ [e]) := by
  intro before e' behind heq
  rcases List.eq_nil_or_concat behind with rfl | ⟨behind', e'', rfl⟩
  · obtain ⟨rfl, he'⟩ := List.append_inj' heq rfl
    cases he'
    exact he
  · rw [List.concat_eq_append, ← List.cons_append, ← List.append_assoc] at heq
    exact h before e' behind' (List.append_inj' heq rfl).1

theorem Ordered.finalized {log : List (SqlEvent η)} (h : Ordered log) (hs : List η) :
    Ordered (log ++ hs.map SqlEvent.finalized) := by
  induction hs generalizing log with
  | nil => rwa [List.map_nil, List.append_nil]
  | cons n hs ih =>
    rw [List.map_cons, List.append_cons]
    exact ih (h.append trivial)

/-! ### One round -/

/-- The loop is at a statement: it is compiled and the ones before it are executed. -/
structure AtStatement (stmt : Option η) (log : List (SqlEvent η)) : Prop where
  ordered : Ordered log
  compiled_eq : compiled log = executed log ++ stmt.toList

/-- The next statement is compiled, and the one at hand executed. -/
theorem AtStatement.executed {stmt : Option η} {log : List (SqlEvent η)} (h : AtStatement stmt log)
    (n : η) : AtStatement (some n) (log ++ [.prepared n] ++ stmt.toList.map .executed) := by
  have hprepared : compiled (log ++ [.prepared n]) =
      Sqlite.executed (log ++ [.prepared n]) ++ (stmt.toList ++ [n]) := by
    rw [compiled_append, executed_append, h.compiled_eq]
    simp [SqlEvent.compiled?, SqlEvent.executed?]
  have hord : Ordered (log ++ [.prepared n]) := h.ordered.append trivial
  refine ⟨?_, ?_⟩
  · cases stmt with
    | none => rwa [Option.toList_none, List.map_nil, List.append_nil]
    | some k => exact hord.append ⟨n, hprepared⟩
  · rw [compiled_append, executed_append, hprepared, compiled_executed, executed_executed]
    simp

theorem AtStatement.bound {stmt : Option η} {log : List (SqlEvent η)} (h : AtStatement stmt log)
    (n : η) (params : List (ℕ × SqlValue)) : AtStatement stmt (log ++ [.bound n params]) := by
  refine ⟨h.ordered.append trivial, ?_⟩
  rw [compiled_append, executed_append, h.compiled_eq]
  simp [SqlEvent.compiled?, SqlEvent.executed?]

theorem AtStatement.finalized {stmt : Option η} {log : List (SqlEvent η)}
    (h : AtStatement stmt log) (hs : List η) :
    AtStatement stmt (log ++ hs.map SqlEvent.finalized) := by
  refine ⟨h.ordered.finalized hs, ?_⟩
  rw [compiled_append, executed_append, h.compiled_eq, compiled_finalized, executed_finalized]
  simp

/-- The rows of the last statement are collected. -/
theorem AtStatement.collected {n : η} {log : List (SqlEvent η)} (h : AtStatement (some n) log)
    (rows : List Value) : AtStatement none (log ++ [.collected n rows]) := by
  refine ⟨h.ordered.append h.compiled_eq, ?_⟩
  rw [compiled_append, executed_append, h.compiled_eq]
  simp [SqlEvent.compiled?, SqlEvent.executed?]

/-- How an evaluation ends. -/
def EndsWith (log : List (SqlEvent η)) : Except Bytes (List Value) → Prop
  | .ok rows => AtStatement none log ∧
      (log = [] ∧ rows = [] ∨ ∃ h before, log = before ++ [.collected h rows, .finalized h])
  | .error _ => ∃ stmt, AtStatement stmt log

variable [DecidableEq η] {D : Doubles} {L : Sqlite3 σ η}

theorem evalLoop_endsWith {params : Option Value} {fuel : ℕ} {stmt : Option η} {c : Bytes}
    {result : Except Bytes (List Value)} {m m' : Session σ η} (hm : AtStatement stmt m.log)
    (hstart : stmt = none → m.log = [])
    (h : evalLoop D L params fuel stmt c m = some (result, m')) : EndsWith m'.log result := by
  induction fuel generalizing stmt c m with
  | zero => cases h
  | succ fuel ih =>
    cases round_of_evalLoop h with
    | @notCompiled err lib hprepare =>
      refine ⟨stmt, ?_⟩
      rw [finalizeAll_log]
      exact hm.finalized _
    | @nothing tail lib hprepare hstmt =>
      subst hstmt
      exact ⟨hm, .inl ⟨hstart rfl, rfl⟩⟩
    | @last tail lib lib' n err rows hprepare hstmt hrun =>
      subst hstmt
      have hat := (hm.collected rows).finalized [n]
      cases err with
      | none => exact ⟨hat, .inr ⟨n, m.log, List.append_assoc ..⟩⟩
      | some err => exact ⟨none, hat⟩
    | @notExecuted tail err lib n m₁ hprepare hrun =>
      refine ⟨some n, ?_⟩
      rw [finalizeAll_log, runCurrent_log hrun]
      exact (hm.executed n).finalized _
    | @notBound tail err lib n m₁ m₂ hprepare hrun hbind =>
      obtain ⟨bound, hlog⟩ := bindNext_log hbind
      refine ⟨some n, ?_⟩
      rw [finalizeAll_log, hlog, runCurrent_log hrun]
      exact ((hm.executed n).bound n bound).finalized _
    | @goOn tail lib n m₁ m₂ _ _ hprepare hrun hbind hrest =>
      obtain ⟨bound, hlog⟩ := bindNext_log hbind
      refine ih ?_ (fun hn => absurd hn (Option.some_ne_none n)) hrest
      rw [finalizeAll_log, hlog, runCurrent_log hrun]
      exact ((hm.executed n).bound n bound).finalized _

theorem sqlEval_endsWith {query : Bytes} {params : Option Value} {fuel : ℕ} {s : σ}
    {result : Except Bytes (List Value)} {m' : Session σ η}
    (h : sqlEval D L query params fuel ⟨s, []⟩ = some (result, m')) : EndsWith m'.log result := by
  have hstart : AtStatement none ([] : List (SqlEvent η)) := ⟨ordered_nil, rfl⟩
  unfold sqlEval at h
  split at h
  case isTrue =>
    cases h
    exact ⟨none, hstart⟩
  case isFalse => exact evalLoop_endsWith hstart (fun _ => rfl) h

/-- A statement is executed when the one behind it is compiled, and its rows are collected only if
there is none behind it. If all goes well every statement is executed, and the rows are those of
the last one; otherwise at most the last that was compiled is not executed. -/
theorem sqlEval_order {query : Bytes} {params : Option Value} {fuel : ℕ} {s : σ}
    {result : Except Bytes (List Value)} {m' : Session σ η}
    (h : sqlEval D L query params fuel ⟨s, []⟩ = some (result, m')) :
    (∀ before e behind, m'.log = before ++ e :: behind → InTurn before e) ∧
      (∀ rows, result = .ok rows → executed m'.log = compiled m'.log ∧
        (m'.log = [] ∧ rows = [] ∨
          ∃ h before, m'.log = before ++ [.collected h rows, .finalized h])) ∧
      (∀ err, result = .error err → executed m'.log = compiled m'.log ∨
        executed m'.log = (compiled m'.log).dropLast) := by
  have hends := sqlEval_endsWith h
  cases result with
  | ok rows =>
    obtain ⟨hat, hrows⟩ := hends
    refine ⟨hat.ordered, fun rows' heq => ?_, fun err heq => (nomatch heq)⟩
    cases heq
    exact ⟨by simpa using hat.compiled_eq.symm, hrows⟩
  | error err =>
    obtain ⟨stmt, hat⟩ := hends
    refine ⟨hat.ordered, fun rows heq => (nomatch heq), fun _ _ => ?_⟩
    rw [hat.compiled_eq]
    cases stmt with
    | none => exact .inl (List.append_nil _).symm
    | some n => exact .inr (by simp)

end

/-- The second statement of a text cannot be compiled, so the first one is not executed. -/
theorem sqlEval_order_select : ∃ err m',
    sqlEval .small .scripted (ascii "select 1;x") none 3 ⟨.opened, []⟩ = some (.error err, m') ∧
      compiled m'.log = [0] ∧ executed m'.log = [] ∧
      (executed m'.log = compiled m'.log ∨ executed m'.log = (compiled m'.log).dropLast) := by
  have h : sqlEval .small .scripted (ascii "select 1;x") none 3 ⟨.opened, []⟩ =
    some (.error _, _) := rfl
  exact ⟨_, _, h, rfl, rfl, (sqlEval_order h).2.2 _ rfl⟩

end AhungryJanet.Sqlite
