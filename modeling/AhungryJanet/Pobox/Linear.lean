import AhungryJanet.Pobox.MapCalls

/-!
# The store is a map

What do threads that share the store see of each other?

Linearizability says that they see a map. Take the calls in the order in which they took the lock,
which is that of `calls`, and make them on a map one after another. Each thread is then where its
program comes to if its calls return what the map answers (`Ran`), and the contents are those of the
map. The tickets of the calls say which thread made which.

## Main results

* `linearizable` — every run of defined steps agrees with the map
* `crashed_eq` — any other step is undefined
* `not_linearizable_glibc` — such a step
-/

namespace AhungryJanet

open Interleaving

/-! ### What a thread has run -/

/-- `p` comes to `q` if its calls are those with the tickets `done`, and the map answers them. -/
inductive Ran (calls : List Acquired) (ops : List MapCall) (m₀ : BoxMap) :
    Prog → List ℕ → Prog → Prop
  | here (p : Prog) : Ran calls ops m₀ p [] p
  | call {op : Op} {argc : ℕ} {argv : ℕ → Arg} {k : Outcome → Prog} {n : ℕ} {v : JValue}
    {done : List ℕ} {q : Prog} (hcall : calls[n]? = some ⟨op, argc, argv⟩)
    (hanswer : answer ops m₀ n = some v) (rest : Ran calls ops m₀ (k (.returned v)) done q) :
    Ran calls ops m₀ (.call op argc argv k) (n :: done) q

/-- The thread that runs `p` is where `p` comes to, if its calls return what the map answers. If it
has a ticket, it is in the call that its code makes there. -/
structure FollowsMap (calls : List Acquired) (ops : List MapCall) (m₀ : BoxMap) (p : Prog)
    (done : List ℕ) (t : Thread) : Prop where
  ran : Ran calls ops m₀ p done t.code
  pending : ∀ n ∈ t.tickets, ∃ op argc argv k, t.code = .call op argc argv k ∧
    calls[n]? = some ⟨op, argc, argv⟩

section

variable {calls : List Acquired} {ops : List MapCall} {m₀ : BoxMap} {p q : Prog} {done : List ℕ}
  {t t' : Thread}

theorem Ran.append (h : Ran calls ops m₀ p done q) (calls' : List Acquired)
    (ops' : List MapCall) : Ran (calls ++ calls') (ops ++ ops') m₀ p done q := by
  induction h with
  | here p => exact .here p
  | call hcall hanswer _ ih =>
    have hlt := (List.getElem?_eq_some_iff.mp hcall).1
    exact .call (by rwa [List.getElem?_append_left hlt]) (answer_append hanswer ops') ih

theorem Ran.snoc {op : Op} {argc : ℕ} {argv : ℕ → Arg} {k : Outcome → Prog} {n : ℕ} {v : JValue}
    (h : Ran calls ops m₀ p done (.call op argc argv k))
    (hcall : calls[n]? = some ⟨op, argc, argv⟩) (hanswer : answer ops m₀ n = some v) :
    Ran calls ops m₀ p (done ++ [n]) (k (.returned v)) := by
  generalize hq : Prog.call op argc argv k = q at h
  induction h with
  | here p =>
    subst hq
    exact .call hcall hanswer (.here _)
  | call hcall' hanswer' _ ih => exact .call hcall' hanswer' (ih hq)

theorem FollowsMap.append (h : FollowsMap calls ops m₀ p done t) (calls' : List Acquired)
    (ops' : List MapCall) : FollowsMap (calls ++ calls') (ops ++ ops') m₀ p done t where
  ran := h.ran.append calls' ops'
  pending n hn := by
    obtain ⟨op, argc, argv, k, hcode, hcall⟩ := h.pending n hn
    have hlt := (List.getElem?_eq_some_iff.mp hcall).1
    exact ⟨op, argc, argv, k, hcode, by rwa [List.getElem?_append_left hlt]⟩

theorem FollowsMap.of_code_eq (h : FollowsMap calls ops m₀ p done t) (hcode : t'.code = t.code)
    (htickets : t'.tickets = t.tickets) : FollowsMap calls ops m₀ p done t' where
  ran := by
    rw [hcode]
    exact h.ran
  pending := by
    rw [hcode, htickets]
    exact h.pending

/-- The call with the next ticket. -/
theorem FollowsMap.acquire (h : FollowsMap calls ops m₀ p done t) {a : Acquired}
    {k : Outcome → Prog}
    (hcode : t'.code = t.code) (ha : t.code = .call a.op a.argc a.argv k)
    (htickets : t'.tickets = [calls.length]) (c : MapCall) :
    FollowsMap (calls ++ [a]) (ops ++ [c]) m₀ p done t' where
  ran := by
    rw [hcode]
    exact h.ran.append [a] [c]
  pending n hn := by
    rw [htickets, List.mem_singleton] at hn
    subst hn
    exact ⟨a.op, a.argc, a.argv, k, hcode.trans ha, by simp⟩

theorem FollowsMap.finish (h : FollowsMap calls ops m₀ p done t) {n : ℕ} {v : JValue}
    (hn : t.tickets = [n]) (htickets : t'.tickets = []) (hreturns : ReturnsTo t t' v)
    (hanswer : answer ops m₀ n = some v) : FollowsMap calls ops m₀ p (done ++ [n]) t' where
  ran := by
    obtain ⟨op, argc, argv, k, hcode, hcode'⟩ := hreturns
    obtain ⟨op', argc', argv', k', hpending, hcall⟩ := h.pending n (by simp [hn])
    rw [hcode] at hpending
    cases hpending
    rw [hcode']
    have hran := h.ran
    rw [hcode] at hran
    exact hran.snoc hcall hanswer
  pending m hm := by
    rw [htickets] at hm
    cases hm

end

/-! ### Tickets -/

/-- The numbers below `count`, given out to threads: each to one, and to each in order. -/
structure Tickets {ι : Type} (issued : ι → List ℕ) (count : ℕ) : Prop where
  ordered : ∀ i, (issued i).Pairwise (· < ·)
  numbered : ∀ n, n < count ↔ ∃ i, n ∈ issued i
  unique : ∀ i j n, n ∈ issued i → n ∈ issued j → i = j

theorem tickets_zero {ι : Type} : Tickets (fun _ : ι => []) 0 where
  ordered _ := .nil
  numbered n := by simp
  unique _ _ _ h := by cases h

/-- The next number. -/
theorem Tickets.next {ι : Type} {issued issued' : ι → List ℕ} {count : ℕ}
    (h : Tickets issued count) {i : ι} (hi : issued' i = issued i ++ [count])
    (hothers : ∀ j, j ≠ i → issued' j = issued j) : Tickets issued' (count + 1) := by
  have hlt : ∀ j n, n ∈ issued j → n < count := fun j n hn => (h.numbered n).mpr ⟨j, hn⟩
  have hmem : ∀ j n, n ∈ issued' j ↔ n ∈ issued j ∨ j = i ∧ n = count := by
    intro j n
    by_cases hj : j = i
    · subst hj
      simp [hi]
    · simp [hothers j hj, hj]
  constructor
  · intro j
    by_cases hj : j = i
    · subst hj
      rw [hi, List.pairwise_append]
      refine ⟨h.ordered j, by simp, fun a ha b hb => ?_⟩
      rw [List.mem_singleton] at hb
      rw [hb]
      exact hlt j a ha
    · rw [hothers j hj]
      exact h.ordered j
  · intro n
    constructor
    · intro hn
      rcases Nat.lt_succ_iff_lt_or_eq.mp hn with hold | rfl
      · obtain ⟨j, hj⟩ := (h.numbered n).mp hold
        exact ⟨j, (hmem j n).mpr (.inl hj)⟩
      · exact ⟨i, (hmem i n).mpr (.inr ⟨rfl, rfl⟩)⟩
    · rintro ⟨j, hj⟩
      rcases (hmem j n).mp hj with hold | ⟨-, rfl⟩
      · exact Nat.lt_succ_of_lt (hlt j n hold)
      · exact Nat.lt_succ_self n
  · intro j j' n hj hj'
    rcases (hmem j n).mp hj with hold | ⟨rfl, rfl⟩
    · rcases (hmem j' n).mp hj' with hold' | ⟨-, rfl⟩
      · exact h.unique j j' n hold hold'
      · exact absurd (hlt j n hold) (Nat.lt_irrefl n)
    · rcases (hmem j' n).mp hj' with hold' | ⟨rfl, -⟩
      · exact absurd (hlt j' n hold') (Nat.lt_irrefl n)
      · rfl

/-! ### Runs -/

section

variable {m : Malloc} {ι : Type} [DecidableEq ι] {K : Bytes → Prop} {m₀ : BoxMap} {progs : ι → Prog}

/-- The tickets of a thread: of its calls that have returned, and of the one in progress. -/
def issued (done : ι → List ℕ) (s : PoboxState ι) (i : ι) : List ℕ :=
  done i ++ (s.threads i).tickets

/-- The threads have run as on the map, where the calls of `ops` were made one after another. -/
structure Linearized (m₀ : BoxMap) (progs : ι → Prog) (ops : List MapCall) (done : ι → List ℕ)
    (s : PoboxState ι) : Prop where
  /-- They are the calls that have taken the lock, in that order, -/
  means : List.Forall₂ Means s.shared.calls ops
  /-- each a call of one thread, -/
  tickets : Tickets (issued done s) ops.length
  /-- which is where its program comes to if its calls return what the map answers. -/
  follows : ∀ i, FollowsMap s.shared.calls ops m₀ (progs i) (done i) (s.threads i)
  returned : ∀ n o, (n, o) ∈ s.shared.returned ↔
    (∃ i, n ∈ done i) ∧ ∃ v, o = .returned v ∧ answer ops m₀ n = some v
  /-- When no call has the lock, the contents are those of the map. -/
  settled : (∀ i, (s.threads i).tickets = []) → contents s.shared.office = runAll ops m₀

section

variable {ops : List MapCall} {done : ι → List ℕ} {s : PoboxState ι} {i : ι} {t : Thread}
  {sh : Shared}

theorem issued_set_of_ne {j : ι} (hj : j ≠ i) :
    issued done (s.set i t sh) j = issued done s j := by
  rw [issued, issued, State.set_threads_of_ne s hj]

/-- A step that goes on with a call. -/
theorem Linearized.keep (h : Linearized m₀ progs ops done s)
    (htickets : t.tickets = (s.threads i).tickets) (hcode : t.code = (s.threads i).code)
    (hcalls : sh.calls = s.shared.calls) (hreturned : sh.returned = s.shared.returned)
    (hsettled : (∀ j, (s.threads j).tickets = []) → contents sh.office = runAll ops m₀) :
    Linearized m₀ progs ops done (s.set i t sh) := by
  have hsame : ∀ j, ((s.set i t sh).threads j).tickets = (s.threads j).tickets := by
    intro j
    by_cases hj : j = i
    · rw [hj, State.set_threads_self, htickets]
    · rw [State.set_threads_of_ne s hj]
  have hissued : issued done (s.set i t sh) = issued done s := by
    funext j
    rw [issued, issued, hsame]
  constructor
  · rw [State.set_shared, hcalls]
    exact h.means
  · rw [hissued]
    exact h.tickets
  · intro j
    rw [State.set_shared, hcalls]
    by_cases hj : j = i
    · subst hj
      rw [State.set_threads_self]
      exact (h.follows j).of_code_eq hcode htickets
    · rw [State.set_threads_of_ne s hj]
      exact h.follows j
  · rw [State.set_shared, hreturned]
    exact h.returned
  · exact fun hidle => hsettled fun j => (hsame j).symm.trans (hidle j)

/-- A step that takes the lock. -/
theorem Linearized.acquire (h : Linearized m₀ progs ops done s) {a : Acquired} {c : MapCall}
    (hmeans : Means a c) (hnone : (s.threads i).tickets = [])
    (htickets : t.tickets = [s.shared.calls.length]) (hcode : t.code = (s.threads i).code)
    (ha : ∃ k, (s.threads i).code = .call a.op a.argc a.argv k)
    (hcalls : sh.calls = s.shared.calls ++ [a]) (hreturned : sh.returned = s.shared.returned) :
    Linearized m₀ progs (ops ++ [c]) done (s.set i t sh) := by
  obtain ⟨k, ha⟩ := ha
  constructor
  · rw [State.set_shared, hcalls]
    exact List.rel_append h.means (.cons hmeans .nil)
  · rw [List.length_append]
    refine h.tickets.next ?_ fun j hj => issued_set_of_ne hj
    rw [issued, issued, State.set_threads_self, htickets, hnone, List.append_nil,
      h.means.length_eq]
  · intro j
    rw [State.set_shared, hcalls]
    by_cases hj : j = i
    · subst hj
      rw [State.set_threads_self]
      exact (h.follows j).acquire hcode ha htickets c
    · rw [State.set_threads_of_ne s hj]
      exact (h.follows j).append [a] [c]
  · intro n o
    rw [State.set_shared, hreturned, h.returned]
    refine and_congr_right ?_
    rintro ⟨j, hj⟩
    have hlt : n < ops.length :=
      (h.tickets.numbered n).mpr ⟨j, List.mem_append_left _ hj⟩
    rw [answer_append_of_lt hlt]
  · intro hidle
    have hi := hidle i
    rw [State.set_threads_self, htickets] at hi
    cases hi

/-- A step that returns from a call. -/
theorem Linearized.finish (h : Linearized m₀ progs ops done s) {n : ℕ} {v : JValue}
    (hn : (s.threads i).tickets = [n]) (htickets : t.tickets = [])
    (hreturns : ReturnsTo (s.threads i) t v) (hcalls : sh.calls = s.shared.calls)
    (hreturned : sh.returned = s.shared.returned ++ [(n, .returned v)])
    (hanswer : answer ops m₀ n = some v) (hsettled : contents sh.office = runAll ops m₀) :
    Linearized m₀ progs ops (Function.update done i (done i ++ [n])) (s.set i t sh) := by
  have hissued : issued (Function.update done i (done i ++ [n])) (s.set i t sh) =
      issued done s := by
    funext j
    by_cases hj : j = i
    · subst hj
      simp [issued, htickets, hn]
    · rw [issued_set_of_ne hj, issued, issued, Function.update_of_ne hj]
  have hdone : ∀ n', (∃ j, n' ∈ Function.update done i (done i ++ [n]) j) ↔
      (∃ j, n' ∈ done j) ∨ n' = n := by
    intro n'
    constructor
    · rintro ⟨j, hj⟩
      by_cases hji : j = i
      · subst hji
        rw [Function.update_self, List.mem_append, List.mem_singleton] at hj
        exact hj.imp_left fun hold => ⟨j, hold⟩
      · rw [Function.update_of_ne hji] at hj
        exact .inl ⟨j, hj⟩
    · rintro (⟨j, hj⟩ | rfl)
      · refine ⟨j, ?_⟩
        by_cases hji : j = i
        · subst hji
          rw [Function.update_self]
          exact List.mem_append_left _ hj
        · rwa [Function.update_of_ne hji]
      · exact ⟨i, by simp⟩
  constructor
  · rw [State.set_shared, hcalls]
    exact h.means
  · rw [hissued]
    exact h.tickets
  · intro j
    rw [State.set_shared, hcalls]
    by_cases hj : j = i
    · subst hj
      rw [State.set_threads_self, Function.update_self]
      exact (h.follows j).finish hn htickets hreturns hanswer
    · rw [State.set_threads_of_ne s hj, Function.update_of_ne hj]
      exact h.follows j
  · intro n' o
    rw [State.set_shared, hreturned, List.mem_append, h.returned, hdone, List.mem_singleton]
    constructor
    · rintro (⟨hmem, hv⟩ | hnew)
      · exact ⟨.inl hmem, hv⟩
      · cases hnew
        exact ⟨.inr rfl, v, rfl, hanswer⟩
    · rintro ⟨hmem | rfl, w, rfl, hw⟩
      · exact .inl ⟨hmem, w, rfl, hw⟩
      · rw [hanswer] at hw
        cases hw
        exact .inr rfl
  · exact fun _ => hsettled

end

/-- The threads agree with the map, and are where they can be. -/
structure Agrees (K : Bytes → Prop) (m₀ : BoxMap) (progs : ι → Prog) (ops : List MapCall)
    (done : ι → List ℕ) (s : PoboxState ι) : Prop extends Linearized m₀ progs ops done s where
  wf : WellFormed s.shared.office
  good : ∀ i, Good K m₀ ops s.shared.office (s.threads i)

omit [DecidableEq ι] in
theorem agrees_initial {office : Office} (hwf : WellFormed office)
    (hprogs : ∀ i, Flat K (progs i)) :
    Agrees K (contents office) progs [] (fun _ => []) (initial progs office) where
  means := .nil
  tickets := tickets_zero
  follows i := ⟨.here (progs i), fun n hn => by cases hn⟩
  returned n o := by simp [initial]
  settled _ := rfl
  wf := hwf
  good i := .janet (hprogs i)

/-- A step of one thread leaves the others where they are. -/
theorem Agrees.set (hK : ∀ k, K k → k ≠ []) {ops : List MapCall} {done : ι → List ℕ}
    {s : PoboxState ι} (h : Agrees K m₀ progs ops done s)
    (hex : Exclusive Thread.tickets Shared.lock s) (i : ι) {t : Thread} {sh : Shared}
    (hstep : threadStep m (s.threads i) s.shared = some (t, sh)) :
    ∃ ops' done', Agrees K m₀ progs ops' done' (s.set i t sh) := by
  have hfree : s.shared.lock = none → contents s.shared.office = runAll ops m₀ :=
    fun hlock => h.settled (hex.holds_eq_nil hlock)
  have hothers : (s.threads i).tickets ≠ [] → ∀ j, j ≠ i → (s.threads j).tickets = [] := by
    intro hi j hj
    by_contra hnot
    exact hj (hex.unique j i hnot hi)
  -- what the other threads know survives if it does not depend on the contents, or those stay
  have hgood : ∀ {ops' : List MapCall} {office : Office}, Good K m₀ ops' office t →
      (∀ j, j ≠ i → (s.threads j).tickets = [] ∨ ops' = ops ∧ office = s.shared.office) →
      ∀ j, Good K m₀ ops' office ((s.set i t sh).threads j) := by
    intro ops' office ht hkeep j
    by_cases hj : j = i
    · rw [hj, State.set_threads_self]
      exact ht
    · rw [State.set_threads_of_ne s hj]
      rcases hkeep j hj with hnil | ⟨rfl, rfl⟩
      · exact (h.good j).of_tickets_eq_nil hnil
      · exact h.good j
  cases (h.good i).step hK h.wf h.means.length_eq hfree hstep with
  | internal htickets hcode hoffice hcalls hreturned _ ht =>
    refine ⟨ops, done, h.keep htickets hcode hcalls hreturned fun hidle => ?_, ?_, ?_⟩
    · rw [hoffice]
      exact h.settled hidle
    · rw [State.set_shared, hoffice]
      exact h.wf
    · rw [State.set_shared, hoffice]
      exact hgood ht fun j _ => .inr ⟨rfl, rfl⟩
  | acquire a c hmeans hlock htickets hcode ha hoffice hcalls hreturned _ ht =>
    refine ⟨ops ++ [c], done, h.acquire hmeans (hex.holds_eq_nil hlock i) htickets hcode ha hcalls
      hreturned, ?_, ?_⟩
    · rw [State.set_shared, hoffice]
      exact h.wf
    · rw [State.set_shared, hoffice]
      exact hgood ht fun j _ => .inl (hex.holds_eq_nil hlock j)
  | store hholds htickets hcode hwf _ hcalls hreturned _ ht =>
    refine ⟨ops, done, h.keep htickets hcode hcalls hreturned fun hidle => ?_, hwf, ?_⟩
    · exact absurd (hidle i) hholds
    · exact hgood ht fun j hj => .inl (hothers hholds j hj)
  | finish n v hn htickets hreturns hoffice hcalls hreturned _ hanswer hsettled ht =>
    refine ⟨ops, _, h.finish hn htickets hreturns hcalls hreturned hanswer ?_, ?_, ?_⟩
    · rw [hoffice]
      exact hsettled
    · rw [State.set_shared, hoffice]
      exact h.wf
    · rw [State.set_shared, hoffice]
      exact hgood ht fun j _ => .inr ⟨rfl, rfl⟩

/-- Every run agrees with the map. -/
theorem exists_agrees (hK : ∀ k, K k → k ≠ []) {office : Office} (hwf : WellFormed office)
    (hprogs : ∀ i, Flat K (progs i)) {s : PoboxState ι}
    (hrun : Reaches (threadStep m) (initial progs office) s) :
    ∃ ops done, Agrees K (contents office) progs ops done s := by
  induction hrun with
  | refl => exact ⟨[], _, agrees_initial hwf hprogs⟩
  | tail hrun hlast ih =>
    obtain ⟨ops, done, hops⟩ := ih
    obtain ⟨i, hi⟩ := hlast
    exact hops.set hK (exclusive hrun) i hi

/-- A step crashes unless it is defined. -/
theorem crashed_eq (hK : ∀ k, K k → k ≠ []) {office : Office} (hwf : WellFormed office)
    (hprogs : ∀ i, Flat K (progs i)) {s : PoboxState ι}
    (hrun : Reaches (threadStep m) (initial progs office) s) {i : ι} {t : Thread} {sh : Shared}
    (h : threadStep m (s.threads i) s.shared = some (t, sh)) :
    sh.crashed = if defined m (s.threads i) s.shared then s.shared.crashed else true := by
  obtain ⟨ops, done, hops⟩ := exists_agrees hK hwf hprogs hrun
  have hfree : s.shared.lock = none → contents s.shared.office = runAll ops (contents office) :=
    fun hlock => hops.settled ((exclusive hrun).holds_eq_nil hlock)
  cases (hops.good i).step hK hops.wf hops.means.length_eq hfree h with
  | internal _ _ _ _ _ hcrash => exact hcrash
  | acquire _ _ _ _ _ _ _ _ _ _ hcrash => exact hcrash
  | store _ _ _ _ _ _ _ hcrash => exact hcrash
  | finish _ _ _ _ _ _ _ _ hcrash => exact hcrash

/-- Defined steps do not crash. -/
theorem not_crashed (hK : ∀ k, K k → k ≠ []) {office : Office} (hwf : WellFormed office)
    (hprogs : ∀ i, Flat K (progs i)) {s : PoboxState ι}
    (hrun : Reaches (restrict (threadStep m) (defined m)) (initial progs office) s) :
    s.shared.crashed = false := by
  induction hrun with
  | refl => rfl
  | tail hrun hlast ih =>
    obtain ⟨i, hi⟩ := hlast
    obtain ⟨hdefined, hstep⟩ := restrict_eq_some_iff.mp hi
    rw [State.set_shared, crashed_eq hK hwf hprogs (Reaches.of_restrict hrun) hstep,
      if_pos hdefined, ih]

/-- **The store is linearizable and loses no update**, in every run of defined steps. Take the calls
in the order in which they took the lock, as calls on a map. Every thread is where its program comes
to if its calls return what the map answers when they are made one after another; when no call has
the lock, the contents are what they leave; and a key that is not made anew holds what the callbacks
of its updates made of its value, each applied once. -/
theorem linearizable {office : Office} (hwf : WellFormed office)
    (hprogs : ∀ i, Flat (· ≠ []) (progs i)) {s : PoboxState ι}
    (hrun : Reaches (restrict (threadStep m) (defined m)) (initial progs office) s) :
    s.shared.crashed = false ∧ ∃ ops done, Linearized (contents office) progs ops done s ∧
      ((∀ i, (s.threads i).tickets = []) →
        ∀ j k v, runAll (ops.take j) (contents office) k = some v →
          (∀ w, MapCall.make k w ∉ ops.drop j) →
          contents s.shared.office k =
            some ((updatesOf k (ops.drop j)).foldl (fun v g => g v) v)) := by
  refine ⟨not_crashed (fun _ h => h) hwf hprogs hrun, ?_⟩
  obtain ⟨ops, done, hops⟩ := exists_agrees (fun _ h => h) hwf hprogs hrun.of_restrict
  refine ⟨ops, done, hops.toLinearized, fun hidle j k v hv hmake => ?_⟩
  calc contents s.shared.office k
      = runAll (ops.take j ++ ops.drop j) (contents office) k := by
        rw [List.take_append_drop, hops.settled hidle]
    _ = runAll (ops.drop j) (runAll (ops.take j) (contents office)) k := by rw [runAll_append]
    _ = some ((updatesOf k (ops.drop j)).foldl (fun v g => g v) v) := runAll_updatesOf hv hmake

end

/-- A store with one box. -/
def oneBox : Office := appendNode ensureOffice (ascii "k") (ascii "v")

theorem wellFormed_oneBox : WellFormed oneBox :=
  wellFormed_ensureOffice.appendNode (ascii "v") (by decide)

/-- `(cupdate k (fn [old] (string old x)))`. -/
def appendOnce (x : Bytes) : Prog :=
  .call .cupdate 2
    (fun i => if i = 0 then .buffer (ascii "k") else .function fun b => .done (.buffer (b ++ x)))
    fun _ => .done .nil

theorem flat_appendOnce (x : Bytes) : Flat (· ≠ []) (appendOnce x) :=
  .call (.update (ascii "k") (· ++ x)) (.update rfl rfl fun _ => rfl)
    (show ascii "k" ≠ [] by decide) fun _ => .done .nil

/-- Two threads update one box; the second comes to the lock while the first is behind it. -/
theorem linearizable_appendOnce :
    ∃ s : PoboxState Bool, s.shared.returned = [(0, .returned .true), (1, .returned .true)] ∧
      s.shared.crashed = false ∧ ∃ ops done, Linearized (contents oneBox)
        (fun b : Bool => appendOnce (if b then ascii "1" else ascii "2")) ops done s := by
  have hrun : ∃ s : PoboxState Bool,
      exec (restrict (threadStep .glibc) (defined .glibc))
        (true :: false :: (List.replicate 11 true ++ List.replicate 11 false))
        (initial (fun b : Bool => appendOnce (if b then ascii "1" else ascii "2")) oneBox) =
          some s ∧
      s.shared.returned = [(0, .returned .true), (1, .returned .true)] :=
    ⟨_, rfl, rfl⟩
  obtain ⟨s, hs, hreturned⟩ := hrun
  obtain ⟨hcrashed, ops, done, hlin, -⟩ := linearizable wellFormed_oneBox
    (fun b : Bool => flat_appendOnce (if b then ascii "1" else ascii "2")) (reaches_of_exec hs)
  exact ⟨s, hreturned, hcrashed, ops, done, hlin⟩

/-- `(cmake "k" v)` with a value of 24 bytes. -/
def makeOnce : Prog :=
  .call .cmake 2 (fun i => .buffer (if i = 0 then ascii "k" else List.replicate 24 0))
    fun _ => .done .nil

theorem flat_makeOnce : Flat (· ≠ []) makeOnce :=
  .call (.make (ascii "k") (List.replicate 24 0)) (.make rfl rfl)
    (show ascii "k" ≠ [] by decide) fun _ => .done .nil

/-- Behind 24 bytes there is no room, and the NUL goes into what is next in the heap. -/
theorem not_linearizable_glibc :
    ¬ ∀ (progs : Unit → Prog) (s : PoboxState Unit), (∀ i, Flat (· ≠ []) (progs i)) →
      Reaches (threadStep .glibc) (initial progs ensureOffice) s →
        s.shared.crashed = false ∧
          ∃ ops done, Linearized (contents ensureOffice) progs ops done s := by
  intro h
  have hrun : ∃ s : PoboxState Unit, exec (threadStep .glibc) (List.replicate 6 ())
      (initial (fun _ => makeOnce) ensureOffice) = some s ∧ s.shared.crashed = true :=
    ⟨_, rfl, rfl⟩
  obtain ⟨s, hs, hcrashed⟩ := hrun
  have hgood := (h (fun _ => makeOnce) s (fun _ => flat_makeOnce) (reaches_of_exec hs)).1
  rw [hcrashed] at hgood
  cases hgood

end AhungryJanet
