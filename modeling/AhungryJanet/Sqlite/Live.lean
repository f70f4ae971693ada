import AhungryJanet.Sqlite.Eval
import AhungryJanet.Library.Handles

/-!
# Prepared statements

A statement that `sql_eval` has prepared is finalized by it, and not used any more, whether the
text was evaluated to its end or something has failed.

## Main results

* `evalLoop_live` — the loop finalizes its statement and all that it prepares
* `sqlEval_live` — every statement that is prepared is finalized once
-/

namespace AhungryJanet.Sqlite

open Handles

section

variable {σ η : Type} [DecidableEq η] {D : Doubles} {L : Sqlite3 σ η}

/-! ### What is alive -/

theorem live_bind1 (s : σ) (h : η) (index : ℕ) (value : Value) :
    L.live (bind1 D L s h index value).2.1 = L.live s := by
  unfold bind1
  split
  case h_1 => rfl
  case h_2 v _ =>
    have hlive := L.live_bind s h index v
    split
    all_goals
      rename_i hbind
      rw [hbind] at hlive
      exact hlive

theorem live_bindAll {α : Type} (h : η) (index : σ → α → Except Bytes ℕ)
    (items : List (α × Value)) (s : σ) :
    L.live (bindAll D L h index items s).2.1 = L.live s := by
  induction items generalizing s with
  | nil => rfl
  | cons item rest ih =>
    obtain ⟨key, value⟩ := item
    rw [bindAll]
    split
    case h_1 => rfl
    case h_2 i _ =>
      have hlive := live_bind1 (D := D) (L := L) s h i value
      split
      case h_1 hbind =>
        rw [hbind] at hlive
        exact hlive
      case h_2 s₁ params hbind =>
        rw [hbind] at hlive
        exact (ih s₁).trans hlive

theorem live_bindmany (s : σ) (h : η) (params : Value) :
    L.live (bindmany D L s h params).2.1 = L.live s := by
  unfold bindmany
  split
  case h_1 | h_2 =>
    unfold bindSeq
    split
    · rfl
    · exact live_bindAll h _ _ s
  case h_3 | h_4 => exact live_bindAll h _ _ s
  case h_5 => rfl

theorem live_execute {h : η} {fuel : ℕ} {s s' : σ} {err : Option Bytes}
    (hrun : execute L h fuel s = some (err, s')) : L.live s' = L.live s := by
  induction fuel generalizing s with
  | zero => cases hrun
  | succ fuel ih =>
    have hlive := L.live_step s h
    rw [execute] at hrun
    split at hrun
    all_goals
      rename_i hstep
      rw [hstep] at hlive
    case h_1 => exact (ih hrun).trans hlive
    all_goals
      cases hrun
      exact hlive

theorem live_executeCollect {h : η} {names : List Bytes} {fuel : ℕ} {s s' : σ}
    {err : Option Bytes} {rows : List Value}
    (hrun : executeCollect D L h names fuel s = some (err, rows, s')) : L.live s' = L.live s := by
  induction fuel generalizing s rows with
  | zero => cases hrun
  | succ fuel ih =>
    have hlive := L.live_step s h
    rw [executeCollect] at hrun
    split at hrun
    all_goals
      rename_i hstep
      rw [hstep] at hlive
    case h_1 =>
      obtain ⟨⟨err', rows', s₂⟩, hrest, hret⟩ := Option.bind_eq_some_iff.mp hrun
      cases hret
      exact (ih hrest).trans hlive
    all_goals
      cases hrun
      exact hlive

/-- What an event does with its statement. -/
def SqlEvent.handle : SqlEvent η → HandleEvent η
  | .prepared h => .opened h
  | .bound h _ | .executed h | .collected h _ => .used h
  | .finalized h => .closed h

variable (L) in
/-- The log is right, and the statements that should be prepared are. -/
def Sound (base : List η) (m : Session σ η) : Prop :=
  after base (m.log.map SqlEvent.handle) = some (L.live m.lib)

variable {base : List η} {m : Session σ η}

theorem Sound.append {lib : σ} {e : SqlEvent η} (hm : Sound L base m)
    (h : next (L.live m.lib) e.handle = some (L.live lib)) :
    Sound L base ⟨lib, m.log ++ [e]⟩ := by
  rw [Sound, List.map_append, after_append_of_eq hm, List.map_singleton, after, h]
  rfl

/-- A statement that is there may be used. -/
theorem Sound.used {lib : σ} {e : SqlEvent η} {h : η} (hm : Sound L base m)
    (hlive : h ∈ L.live m.lib) (he : e.handle = .used h) (hlib : L.live lib = L.live m.lib) :
    Sound L base ⟨lib, m.log ++ [e]⟩ := by
  refine hm.append ?_
  rw [he, hlib, next, if_pos hlive]

theorem Sound.prepared {lib : σ} {h : η} (hm : Sound L base m) (hlive : h ∉ L.live m.lib)
    (hlib : L.live lib = h :: L.live m.lib) : Sound L base ⟨lib, m.log ++ [.prepared h]⟩ := by
  refine hm.append ?_
  rw [hlib]
  exact if_neg hlive

theorem Sound.finalized {h : η} (hm : Sound L base m) (hlive : h ∈ L.live m.lib) :
    Sound L base ⟨L.finalize m.lib h, m.log ++ [.finalized h]⟩ := by
  refine hm.append ?_
  rw [L.live_finalize]
  exact if_pos hlive

/-- Executing keeps the log right. -/
theorem Sound.runCurrent {fuel : ℕ} {stmt : Option η} {err : Option Bytes} {m' : Session σ η}
    (hm : Sound L base m) (hlive : ∀ h, stmt = some h → h ∈ L.live m.lib)
    (h : runCurrent L fuel stmt m = some (err, m')) :
    Sound L base m' ∧ L.live m'.lib = L.live m.lib := by
  unfold Sqlite.runCurrent at h
  cases stmt with
  | none =>
    cases h
    exact ⟨hm, rfl⟩
  | some n =>
    obtain ⟨⟨err', lib⟩, hrun, hret⟩ := Option.bind_eq_some_iff.mp h
    cases hret
    have hlib := live_execute hrun
    exact ⟨hm.used (hlive n rfl) rfl hlib, hlib⟩

/-- Binding keeps the log right. -/
theorem Sound.bindNext {params : Option Value} {n : η} {err : Option Bytes} {m' : Session σ η}
    (hm : Sound L base m) (hlive : n ∈ L.live m.lib) (h : bindNext D L params n m = (err, m')) :
    Sound L base m' ∧ L.live m'.lib = L.live m.lib := by
  unfold Sqlite.bindNext at h
  cases params with
  | none =>
    cases h
    exact ⟨hm.used hlive rfl rfl, rfl⟩
  | some params =>
    have hlib := live_bindmany (D := D) (L := L) m.lib n params
    cases h
    exact ⟨hm.used hlive rfl hlib, hlib⟩

/-- Finalizing statements that are there, each once. -/
theorem Sound.finalizeAll {hs rest : List η} (hm : Sound L base m)
    (hlive : (L.live m.lib).Perm (hs ++ rest)) :
    Sound L base (finalizeAll L hs m) ∧
      L.live (Sqlite.finalizeAll L hs m).lib = (L.live m.lib).diff hs := by
  induction hs generalizing m with
  | nil => exact ⟨hm, rfl⟩
  | cons h hs ih =>
    have hmem : h ∈ L.live m.lib := hlive.mem_iff.mpr (List.mem_cons_self ..)
    rw [finalizeAll_cons]
    have hlive' : (L.live (L.finalize m.lib h)).Perm (hs ++ rest) := by
      rw [L.live_finalize]
      simpa using hlive.erase h
    obtain ⟨hsound, hlib⟩ := ih (hm.finalized hmem) hlive'
    refine ⟨hsound, hlib.trans ?_⟩
    rw [L.live_finalize, List.diff_cons]

/-- Both statements of a round are finalized when it fails. -/
theorem Sound.finalizeBoth {stmt : Option η} {n : η} {rest : List η} (hm : Sound L base m)
    (hlive : L.live m.lib = n :: (stmt.toList ++ rest)) :
    Sound L base (Sqlite.finalizeAll L (stmt.toList ++ [n]) m) ∧
      (L.live (Sqlite.finalizeAll L (stmt.toList ++ [n]) m).lib) = rest := by
  have hperm : (L.live m.lib).Perm ((stmt.toList ++ [n]) ++ rest) := by
    rw [hlive, List.append_assoc]
    exact List.perm_middle.symm
  obtain ⟨hsound, hlib⟩ := hm.finalizeAll hperm
  refine ⟨hsound, hlib.trans ?_⟩
  rw [hlive]
  cases stmt with
  | none => simp
  | some h =>
    by_cases hnh : n = h
    · subst hnh
      simp
    · simp [List.diff_cons, List.erase_cons_tail, hnh]

/-- The loop finalizes its statement and all that it prepares. -/
theorem evalLoop_live {params : Option Value} {fuel : ℕ} {stmt : Option η} {c : Bytes}
    {result : Except Bytes (List Value)} {m' : Session σ η} {rest : List η}
    (hm : Sound L base m) (hlive : L.live m.lib = stmt.toList ++ rest)
    (h : evalLoop D L params fuel stmt c m = some (result, m')) :
    Sound L base m' ∧ L.live m'.lib = rest := by
  induction fuel generalizing stmt c m with
  | zero => cases h
  | succ fuel ih =>
    have hmem : ∀ n, stmt = some n → n ∈ L.live m.lib := by
      rintro n rfl
      rw [hlive]
      exact List.mem_cons_self ..
    cases round_of_evalLoop h with
    | @notCompiled err lib hprepare =>
      have hlib := L.live_prepare_error m.lib c err (by rw [hprepare])
      rw [hprepare] at hlib
      have hm' : Sound L base (⟨lib, m.log⟩ : Session σ η) := by
        rw [Sound, hlib]
        exact hm
      have hperm : (L.live lib).Perm (stmt.toList ++ rest) := by rw [hlib, hlive]
      obtain ⟨hsound, hend⟩ := hm'.finalizeAll hperm
      refine ⟨hsound, hend.trans ?_⟩
      rw [hlib, hlive]
      cases stmt <;> simp
    | @nothing tail lib hprepare hstmt =>
      have hlib := L.live_prepare_none m.lib c tail (by rw [hprepare])
      rw [hprepare] at hlib
      subst hstmt
      refine ⟨?_, hlib.trans hlive⟩
      rw [Sound, hlib]
      exact hm
    | @last tail lib lib' n err rows hprepare hstmt hrun =>
      have hlib := L.live_prepare_none m.lib c tail (by rw [hprepare])
      rw [hprepare] at hlib
      subst hstmt
      have hrows := (live_executeCollect hrun).trans hlib
      have hm' := hm.used (e := .collected n rows) (hmem n rfl) rfl hrows
      have hperm : (L.live lib').Perm ([n] ++ rest) := by
        rw [hrows, hlive]
        rfl
      obtain ⟨hsound, hend⟩ := hm'.finalizeAll hperm
      refine ⟨hsound, hend.trans ?_⟩
      rw [hrows, hlive]
      simp
    | @notExecuted tail err lib n m₁ hprepare hrun =>
      obtain ⟨hnew, hlib⟩ := L.live_prepare_some m.lib c n tail (by rw [hprepare])
      rw [hprepare] at hlib
      obtain ⟨hm₁, hlib₁⟩ := (hm.prepared hnew hlib).runCurrent
        (fun k hk => by rw [hlib]; exact List.mem_cons_of_mem _ (hmem k hk)) hrun
      exact hm₁.finalizeBoth (by rw [hlib₁, hlib, hlive])
    | @notBound tail err lib n m₁ m₂ hprepare hrun hbind =>
      obtain ⟨hnew, hlib⟩ := L.live_prepare_some m.lib c n tail (by rw [hprepare])
      rw [hprepare] at hlib
      obtain ⟨hm₁, hlib₁⟩ := (hm.prepared hnew hlib).runCurrent
        (fun k hk => by rw [hlib]; exact List.mem_cons_of_mem _ (hmem k hk)) hrun
      have hlive₁ : L.live m₁.lib = n :: (stmt.toList ++ rest) := by rw [hlib₁, hlib, hlive]
      obtain ⟨hm₂, hlib₂⟩ := hm₁.bindNext (by rw [hlive₁]; exact List.mem_cons_self ..) hbind
      exact hm₂.finalizeBoth (hlib₂.trans hlive₁)
    | @goOn tail lib n m₁ m₂ _ _ hprepare hrun hbind hrest =>
      obtain ⟨hnew, hlib⟩ := L.live_prepare_some m.lib c n tail (by rw [hprepare])
      rw [hprepare] at hlib
      obtain ⟨hm₁, hlib₁⟩ := (hm.prepared hnew hlib).runCurrent
        (fun k hk => by rw [hlib]; exact List.mem_cons_of_mem _ (hmem k hk)) hrun
      have hlive₁ : L.live m₁.lib = n :: (stmt.toList ++ rest) := by rw [hlib₁, hlib, hlive]
      obtain ⟨hm₂, hlib₂⟩ := hm₁.bindNext (by rw [hlive₁]; exact List.mem_cons_self ..) hbind
      have hlive₂ := hlib₂.trans hlive₁
      have hperm : (L.live m₂.lib).Perm (stmt.toList ++ n :: rest) := by
        rw [hlive₂]
        exact List.perm_middle.symm
      obtain ⟨hm₃, hlib₃⟩ := hm₂.finalizeAll hperm
      refine ih hm₃ (hlib₃.trans ?_) hrest
      rw [hlive₂]
      cases stmt with
      | none => simp
      | some k =>
        have hnk : n ≠ k := by
          rintro rfl
          exact hnew (hmem n rfl)
        simp [List.diff_cons, List.erase_cons_tail, hnk]

/-- Every statement that is prepared is finalized once, and nothing else is done with it behind
that, however the evaluation ends. -/
theorem sqlEval_live {query : Bytes} {params : Option Value} {fuel : ℕ} {s : σ}
    {result : Except Bytes (List Value)} {m' : Session σ η}
    (h : sqlEval D L query params fuel ⟨s, []⟩ = some (result, m')) :
    after (L.live s) (m'.log.map SqlEvent.handle) = some (L.live s) ∧
      L.live m'.lib = L.live s := by
  unfold sqlEval at h
  split at h
  case isTrue =>
    cases h
    exact ⟨rfl, rfl⟩
  case isFalse =>
    have hstart : Sound L (L.live s) (⟨s, []⟩ : Session σ η) := rfl
    obtain ⟨hsound, hlive⟩ := evalLoop_live hstart rfl h
    exact ⟨hsound.trans (congrArg some hlive), hlive⟩

end

/-- The second statement of a text cannot be compiled. -/
theorem sqlEval_live_select : ∃ err m',
    sqlEval .small .scripted (ascii "select 1;x") none 3 ⟨.opened, []⟩ = some (.error err, m') ∧
      Sqlite3.scripted.live m'.lib = [] := by
  have h : sqlEval .small .scripted (ascii "select 1;x") none 3 ⟨.opened, []⟩ =
    some (.error _, _) := rfl
  exact ⟨_, _, h, (sqlEval_live h).2⟩

end AhungryJanet.Sqlite
