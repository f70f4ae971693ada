import AhungryJanet.Pobox.System

/-!
# Calls on a map

Programs whose callbacks are functions from bytes to bytes, and whose calls are given the arguments
they expect: what does a step of such a thread do?

The abstract store is a map from keys to values, and a call on it is one step (`MapCall.run`).
`Good` says where a thread can be, and what it knows there about the contents; a call that has the
lock is the only one that knows anything, so its steps disturb no one.

Two calls do not come to an end as they should. `cget` returns nil for a key that was never made,
and keeps the lock; `cupdate` of such a key crashes, and so does every call that stores a NUL where
there is no room. `defined` says of a step that it is none of those.

## Main results

* `runAll_updatesOf` — updates of a key compose
* `Good.step` — what one step of one thread does to the contents, to the calls, and to the code that
  made them
-/

namespace AhungryJanet

open Interleaving

/-! ### The map -/

/-- What the store is for. -/
abbrev BoxMap := Bytes → Option Bytes

/-- A call, with arguments of the right types and a callback that is a function. -/
inductive MapCall where
  | get (k : Bytes)
  | update (k : Bytes) (g : Bytes → Bytes)
  | make (k v : Bytes)

/-- The key of a call. -/
def MapCall.key : MapCall → Bytes
  | .get k | .update k _ | .make k _ => k

/-- A call on the map: the map afterwards, and the value returned. An update of a key that was never
made returns nothing. -/
def MapCall.run : MapCall → BoxMap → BoxMap × Option JValue
  | .get k, m =>
    (m, match m k with
      | some v => some (.buffer v)
      | none => some .nil)
  | .update k g, m =>
    match m k with
    | some v => (Function.update m k (some (g v)), some .true)
    | none => (m, none)
  | .make k v, m => (Function.update m k (some v), some .true)

/-- Calls one after another. -/
def runAll (ops : List MapCall) (m : BoxMap) : BoxMap := ops.foldl (fun m c => (c.run m).1) m

/-- What the call with a ticket returns, when the calls are run one after another. -/
def answer (ops : List MapCall) (m : BoxMap) (n : ℕ) : Option JValue :=
  ops[n]?.bind fun c => (c.run (runAll (ops.take n) m)).2

theorem runAll_append (ops ops' : List MapCall) (m : BoxMap) :
    runAll (ops ++ ops') m = runAll ops' (runAll ops m) := List.foldl_append

/-- What a call returns does not depend on later ones. -/
theorem answer_append_of_lt {ops ops' : List MapCall} {m : BoxMap} {n : ℕ} (h : n < ops.length) :
    answer (ops ++ ops') m n = answer ops m n := by
  rw [answer, answer, List.getElem?_append_left h, List.take_append_of_le_length (Nat.le_of_lt h)]

/-- A later call does not change what an earlier one returned. -/
theorem answer_append {ops : List MapCall} {m : BoxMap} {n : ℕ} {v : JValue}
    (h : answer ops m n = some v) (ops' : List MapCall) : answer (ops ++ ops') m n = some v := by
  obtain ⟨c, hc, -⟩ := Option.bind_eq_some_iff.mp h
  rwa [answer_append_of_lt (List.getElem?_eq_some_iff.mp hc).1]

/-- The last call runs on what the others left. -/
theorem runAll_of_last {ops : List MapCall} {n : ℕ} {c : MapCall} (hlen : n + 1 = ops.length)
    (hc : ops[n]? = some c) (m : BoxMap) :
    runAll ops m = (c.run (runAll (ops.take n) m)).1 := by
  have hsplit : ops = ops.take n ++ [c] := by
    have hlt : n < ops.length := by omega
    rw [List.getElem?_eq_getElem hlt, Option.some.injEq] at hc
    rw [← hc, List.take_append_getElem hlt, hlen, List.take_length]
  calc runAll ops m = runAll (ops.take n ++ [c]) m := by rw [← hsplit]
    _ = (c.run (runAll (ops.take n) m)).1 := by rw [runAll_append]; rfl

/-- The callbacks of the updates of a key. -/
def updatesOf (k : Bytes) : List MapCall → List (Bytes → Bytes)
  | [] => []
  | .update k' g :: ops => if k' = k then g :: updatesOf k ops else updatesOf k ops
  | _ :: ops => updatesOf k ops

/-- **Updates compose**: without a new `cmake`, a key holds what its callbacks made of its value,
each applied once. -/
theorem runAll_updatesOf {k v : Bytes} {ops : List MapCall} {m : BoxMap} (hm : m k = some v)
    (hmake : ∀ w, MapCall.make k w ∉ ops) :
    runAll ops m k = some ((updatesOf k ops).foldl (fun v g => g v) v) := by
  induction ops generalizing m v with
  | nil => exact hm
  | cons c ops ih =>
    have hmake' : ∀ w, MapCall.make k w ∉ ops := fun w hw => hmake w (List.mem_cons_of_mem c hw)
    change runAll ops (c.run m).1 k = _
    cases c with
    | get k' => exact ih hm hmake'
    | update k' g =>
      by_cases hk : k' = k
      · subst hk
        rw [updatesOf, if_pos rfl, List.foldl_cons]
        refine ih ?_ hmake'
        simp [MapCall.run, hm]
      · rw [updatesOf, if_neg hk]
        refine ih ?_ hmake'
        cases hk' : m k' with
        | none => simpa [MapCall.run, hk'] using hm
        | some w => simpa [MapCall.run, hk', Function.update_of_ne (Ne.symm hk)] using hm
    | make k' w =>
      refine ih ?_ hmake'
      have hk : k ≠ k' := by
        rintro rfl
        exact hmake w (by simp)
      simpa [MapCall.run, Function.update_of_ne hk] using hm

/-! ### Programs -/

/-- A call of the store is a call on the map. -/
inductive Means : Acquired → MapCall → Prop where
  | get {argv : ℕ → Arg} {k : Bytes} (hk : argv 0 = .buffer k) : Means ⟨.cget, 1, argv⟩ (.get k)
  | update {argv : ℕ → Arg} {k : Bytes} {f : Bytes → Prog} {g : Bytes → Bytes}
    (hk : argv 0 = .buffer k) (hf : argv 1 = .function f)
    (hg : ∀ b, f b = .done (.buffer (g b))) : Means ⟨.cupdate, 2, argv⟩ (.update k g)
  | make {argv : ℕ → Arg} {k v : Bytes} (hk : argv 0 = .buffer k) (hv : argv 1 = .buffer v) :
    Means ⟨.cmake, 2, argv⟩ (.make k v)

/-- Programs whose calls are calls on the map, with keys of a set. -/
inductive Flat (K : Bytes → Prop) : Prog → Prop where
  | done (v : JValue) : Flat K (.done v)
  | error : Flat K .error
  | call {op : Op} {argc : ℕ} {argv : ℕ → Arg} {k : Outcome → Prog} (c : MapCall)
    (hc : Means ⟨op, argc, argv⟩ c) (hkey : K c.key) (hk : ∀ o, Flat K (k o)) :
    Flat K (.call op argc argv k)

/-- A call of such a program. -/
structure FlatFrame (K : Bytes → Prop) (op : Op) (fr : Frame) (c : MapCall) : Prop where
  means : Means ⟨op, fr.argc, fr.argv⟩ c
  key : K c.key
  rest : ∀ o, Flat K (fr.k o)

/-! The arguments of a call pass its checks. -/

theorem FlatFrame.get_args {K : Bytes → Prop} {fr : Frame} {k : Bytes}
    (h : FlatFrame K .cget fr (.get k)) : fr.argc = 1 ∧ fr.argv 0 = .buffer k := by
  obtain ⟨argc, argv, next⟩ := fr
  cases h.means with
  | get hk => exact ⟨rfl, hk⟩

theorem FlatFrame.update_args {K : Bytes → Prop} {fr : Frame} {k : Bytes} {g : Bytes → Bytes}
    (h : FlatFrame K .cupdate fr (.update k g)) : fr.argc = 2 ∧ fr.argv 0 = .buffer k ∧
      ∃ f, fr.argv 1 = .function f ∧ ∀ b, f b = .done (.buffer (g b)) := by
  obtain ⟨argc, argv, next⟩ := fr
  cases h.means with
  | update hk hf hg => exact ⟨rfl, hk, _, hf, hg⟩

theorem FlatFrame.make_args {K : Bytes → Prop} {fr : Frame} {k v : Bytes}
    (h : FlatFrame K .cmake fr (.make k v)) :
    fr.argc = 2 ∧ fr.argv 0 = .buffer k ∧ fr.argv 1 = .buffer v := by
  obtain ⟨argc, argv, next⟩ := fr
  cases h.means with
  | make hk hv => exact ⟨rfl, hk, hv⟩

/-! ### The code of a thread -/

/-- The code that a C function returns to, as it was when it made the call. -/
def Control.code : Control → Prog
  | .janet p => p
  | .get fr _ => .call .cget fr.argc fr.argv fr.k
  | .update fr _ => .call .cupdate fr.argc fr.argv fr.k
  | .make fr _ => .call .cmake fr.argc fr.argv fr.k

/-- The code of a thread outside of all callbacks. While it is in a call, that is the code that
makes the call. -/
def Thread.code (t : Thread) : Prog :=
  match t.suspended.getLast? with
  | some u => .call .cupdate u.fr.argc u.fr.argv u.fr.k
  | none => t.control.code

/-- The call that `t` is in returns `v` to the code that made it. -/
def ReturnsTo (t t' : Thread) (v : JValue) : Prop :=
  ∃ op argc argv k, t.code = .call op argc argv k ∧ t'.code = k (.returned v)

/-! ### Where a thread can be -/

section

variable (K : Bytes → Prop) (m₀ : BoxMap) (ops : List MapCall) (office : Office)

/-- The call with the last ticket has the lock, and has stored nothing yet. -/
structure Held (n : ℕ) (c : MapCall) : Prop where
  last : n + 1 = ops.length
  call : ops[n]? = some c
  contents_eq : contents office = runAll (ops.take n) m₀

/-- The call with the last ticket has the lock, and has stored its result. -/
structure Stored (n : ℕ) : Prop where
  contents_eq : contents office = runAll ops m₀
  answer_eq : answer ops m₀ n = some .true

/-- Where a thread can be, and what it knows there. -/
inductive Good : Thread → Prop where
  | janet {p : Prog} (hp : Flat K p) : Good ⟨.janet p, []⟩
  | getFixarity {fr : Frame} {k : Bytes} (hfr : FlatFrame K .cget fr (.get k)) :
    Good ⟨.get fr .fixarity, []⟩
  | getLock {fr : Frame} {k : Bytes} (hfr : FlatFrame K .cget fr (.get k)) :
    Good ⟨.get fr .lock, []⟩
  | getKey {fr : Frame} {k : Bytes} {n : ℕ} (hfr : FlatFrame K .cget fr (.get k))
    (h : Held m₀ ops office n (.get k)) : Good ⟨.get fr (.key n), []⟩
  | getLookup {fr : Frame} {k : Bytes} {n : ℕ} (hfr : FlatFrame K .cget fr (.get k))
    (h : Held m₀ ops office n (.get k)) : Good ⟨.get fr (.lookup n k), []⟩
  | getCopy {fr : Frame} {k : Bytes} {n a : ℕ} {node : Node}
    (hfr : FlatFrame K .cget fr (.get k)) (h : Held m₀ ops office n (.get k))
    (hnode : office[a]? = some node) (hv : contents office k = some node.v) :
    Good ⟨.get fr (.copy n a), []⟩
  | getUnlock {fr : Frame} {k v : Bytes} {n : ℕ} (hfr : FlatFrame K .cget fr (.get k))
    (h : Held m₀ ops office n (.get k)) (hv : contents office k = some v) :
    Good ⟨.get fr (.unlock n v), []⟩
  | updateLock {fr : Frame} {k : Bytes} {g : Bytes → Bytes}
    (hfr : FlatFrame K .cupdate fr (.update k g)) : Good ⟨.update fr .lock, []⟩
  | updateFixarity {fr : Frame} {k : Bytes} {g : Bytes → Bytes} {n : ℕ}
    (hfr : FlatFrame K .cupdate fr (.update k g)) (h : Held m₀ ops office n (.update k g)) :
    Good ⟨.update fr (.fixarity n), []⟩
  | updateFunction {fr : Frame} {k : Bytes} {g : Bytes → Bytes} {n : ℕ}
    (hfr : FlatFrame K .cupdate fr (.update k g)) (h : Held m₀ ops office n (.update k g)) :
    Good ⟨.update fr (.function n), []⟩
  | updateKey {fr : Frame} {k : Bytes} {g : Bytes → Bytes} {n : ℕ} {f : Bytes → Prog}
    (hfr : FlatFrame K .cupdate fr (.update k g)) (h : Held m₀ ops office n (.update k g))
    (hg : ∀ b, f b = .done (.buffer (g b))) : Good ⟨.update fr (.key n f), []⟩
  | updateLookup {fr : Frame} {k : Bytes} {g : Bytes → Bytes} {n : ℕ} {f : Bytes → Prog}
    (hfr : FlatFrame K .cupdate fr (.update k g)) (h : Held m₀ ops office n (.update k g))
    (hg : ∀ b, f b = .done (.buffer (g b))) : Good ⟨.update fr (.lookup n f k), []⟩
  | updateCopy {fr : Frame} {k : Bytes} {g : Bytes → Bytes} {n a : ℕ} {f : Bytes → Prog}
    {node : Node} (hfr : FlatFrame K .cupdate fr (.update k g))
    (h : Held m₀ ops office n (.update k g)) (hg : ∀ b, f b = .done (.buffer (g b)))
    (hnode : office[a]? = some node) (hv : contents office k = some node.v) :
    Good ⟨.update fr (.copy n f k a), []⟩
  | updateCall {fr : Frame} {k v : Bytes} {g : Bytes → Bytes} {n : ℕ} {f : Bytes → Prog}
    (hfr : FlatFrame K .cupdate fr (.update k g)) (h : Held m₀ ops office n (.update k g))
    (hg : ∀ b, f b = .done (.buffer (g b))) (hv : contents office k = some v) :
    Good ⟨.update fr (.call n f k v), []⟩
  | callback {fr : Frame} {k v : Bytes} {g : Bytes → Bytes} {n : ℕ}
    (hfr : FlatFrame K .cupdate fr (.update k g)) (h : Held m₀ ops office n (.update k g))
    (hv : contents office k = some v) :
    Good ⟨.janet (.done (.buffer (g v))), [⟨fr, n, k⟩]⟩
  | updateUnwrap {fr : Frame} {k v : Bytes} {g : Bytes → Bytes} {n : ℕ}
    (hfr : FlatFrame K .cupdate fr (.update k g)) (h : Held m₀ ops office n (.update k g))
    (hv : contents office k = some v) :
    Good ⟨.update fr (.unwrap n k (.buffer (g v))), []⟩
  | updatePut {fr : Frame} {k v : Bytes} {g : Bytes → Bytes} {n : ℕ}
    (hfr : FlatFrame K .cupdate fr (.update k g)) (h : Held m₀ ops office n (.update k g))
    (hv : contents office k = some v) : Good ⟨.update fr (.put n k (g v)), []⟩
  | updateUnlock {fr : Frame} {k : Bytes} {g : Bytes → Bytes} {n : ℕ}
    (hfr : FlatFrame K .cupdate fr (.update k g)) (h : Stored m₀ ops office n) :
    Good ⟨.update fr (.unlock n), []⟩
  | makeFixarity {fr : Frame} {k v : Bytes} (hfr : FlatFrame K .cmake fr (.make k v)) :
    Good ⟨.make fr .fixarity, []⟩
  | makeLock {fr : Frame} {k v : Bytes} (hfr : FlatFrame K .cmake fr (.make k v)) :
    Good ⟨.make fr .lock, []⟩
  | makeKey {fr : Frame} {k v : Bytes} {n : ℕ} (hfr : FlatFrame K .cmake fr (.make k v))
    (h : Held m₀ ops office n (.make k v)) : Good ⟨.make fr (.key n), []⟩
  | makeValue {fr : Frame} {k v : Bytes} {n : ℕ} (hfr : FlatFrame K .cmake fr (.make k v))
    (h : Held m₀ ops office n (.make k v)) : Good ⟨.make fr (.value n k), []⟩
  | makePut {fr : Frame} {k v : Bytes} {n : ℕ} (hfr : FlatFrame K .cmake fr (.make k v))
    (h : Held m₀ ops office n (.make k v)) : Good ⟨.make fr (.put n k v), []⟩
  | makeUnlock {fr : Frame} {k v : Bytes} {n : ℕ} (hfr : FlatFrame K .cmake fr (.make k v))
    (h : Stored m₀ ops office n) : Good ⟨.make fr (.unlock n), []⟩

end

section

variable {m : Malloc} {K : Bytes → Prop} {m₀ : BoxMap} {ops : List MapCall} {t t' : Thread}
  {sh sh' : Shared}

/-- What a thread outside the lock knows holds of any other state. -/
theorem Good.of_tickets_eq_nil {office office' : Office} {ops' : List MapCall}
    (h : Good K m₀ ops office t) (ht : t.tickets = []) : Good K m₀ ops' office' t := by
  cases h with
  | janet hp => exact .janet hp
  | getFixarity hfr => exact .getFixarity hfr
  | getLock hfr => exact .getLock hfr
  | updateLock hfr => exact .updateLock hfr
  | makeFixarity hfr => exact .makeFixarity hfr
  | makeLock hfr => exact .makeLock hfr
  | _ => cases ht

/-- Every key of the set has been made. -/
def Present (K : Bytes → Prop) (office : Office) : Prop := ∀ k, K k → contents office k ≠ none

theorem Present.update {office office' : Office} {k v : Bytes} (h : Present K office)
    (hput : contents office' = Function.update (contents office) k (some v)) :
    Present K office' := by
  intro k' hk'
  rw [hput]
  by_cases hkk : k' = k
  · subst hkk
    simp
  · rw [Function.update_of_ne hkk]
    exact h k' hk'

/-- The next step does nothing undefined: there is room, and `cupdate` finds its key. -/
def defined (m : Malloc) (t : Thread) (sh : Shared) : Bool :=
  hasRoom m t sh && match t.control with
    | .update _ (.lookup _ _ kb) => (contents sh.office kb).isSome
    | _ => true

/-- What one step of one thread does to the contents, the calls, and the values returned. -/
inductive FlatStep (m : Malloc) (K : Bytes → Prop) (m₀ : BoxMap) (ops : List MapCall) (t : Thread)
    (sh : Shared) (t' : Thread) (sh' : Shared) : Prop where
  /-- Nothing. -/
  | internal (htickets : t'.tickets = t.tickets) (hcode : t'.code = t.code)
    (hoffice : sh'.office = sh.office) (hcalls : sh'.calls = sh.calls)
    (hreturned : sh'.returned = sh.returned)
    (hcrash : sh'.crashed = if defined m t sh then sh.crashed else true)
    (hgood : Good K m₀ ops sh.office t')
  /-- A call takes the lock. -/
  | acquire (a : Acquired) (c : MapCall) (hmeans : Means a c) (hfree : sh.lock = none)
    (htickets : t'.tickets = [sh.calls.length]) (hcode : t'.code = t.code)
    (ha : ∃ k, t.code = .call a.op a.argc a.argv k)
    (hoffice : sh'.office = sh.office) (hcalls : sh'.calls = sh.calls ++ [a])
    (hreturned : sh'.returned = sh.returned)
    (hcrash : sh'.crashed = if defined m t sh then sh.crashed else true)
    (hgood : Good K m₀ (ops ++ [c]) sh.office t')
  /-- A call that has the lock stores its result. -/
  | store (hholds : t.tickets ≠ []) (htickets : t'.tickets = t.tickets) (hcode : t'.code = t.code)
    (hwf : WellFormed sh'.office) (hpresent : Present K sh.office → Present K sh'.office)
    (hcalls : sh'.calls = sh.calls) (hreturned : sh'.returned = sh.returned)
    (hcrash : sh'.crashed = if defined m t sh then sh.crashed else true)
    (hgood : Good K m₀ ops sh'.office t')
  /-- A call that has the lock returns. -/
  | finish (n : ℕ) (v : JValue) (hholds : t.tickets = [n]) (htickets : t'.tickets = [])
    (hreturns : ReturnsTo t t' v) (hoffice : sh'.office = sh.office) (hcalls : sh'.calls = sh.calls)
    (hreturned : sh'.returned = sh.returned ++ [(n, .returned v)])
    (hcrash : sh'.crashed = if defined m t sh then sh.crashed else true)
    (hanswer : answer ops m₀ n = some v)
    (hsettled : contents sh.office = runAll ops m₀) (hgood : Good K m₀ ops sh.office t')

/-- A thread in a C function behind the lock has the ticket of the call. -/
private theorem tickets_ne_nil_of_ticket {c : Control} {n : ℕ} (h : c.ticket = some n) :
    Thread.tickets ⟨c, []⟩ ≠ [] := by
  rw [Thread.tickets, h]
  exact List.cons_ne_nil n _

/-- The map after an update. -/
theorem Held.stored_update {office office' : Office} {n : ℕ} {k v : Bytes} {g : Bytes → Bytes}
    (h : Held m₀ ops office n (.update k g)) (hv : contents office k = some v)
    (hput : contents office' = Function.update (contents office) k (some (g v))) :
    Stored m₀ ops office' n := by
  rw [h.contents_eq] at hv
  refine ⟨?_, ?_⟩
  · rw [runAll_of_last h.last h.call, hput, h.contents_eq]
    simp [MapCall.run, hv]
  · simp [answer, h.call, MapCall.run, hv]

/-- The map after a new value. -/
theorem Held.stored_make {office office' : Office} {n : ℕ} {k v : Bytes}
    (h : Held m₀ ops office n (.make k v))
    (hput : contents office' = Function.update (contents office) k (some v)) :
    Stored m₀ ops office' n := by
  refine ⟨?_, ?_⟩
  · rw [runAll_of_last h.last h.call, hput, h.contents_eq]
    rfl
  · simp [answer, h.call, MapCall.run]

/-- A read leaves the map as it is. -/
theorem Held.settled_get {office : Office} {n : ℕ} {k : Bytes}
    (h : Held m₀ ops office n (.get k)) : contents office = runAll ops m₀ := by
  rw [runAll_of_last h.last h.call, h.contents_eq]
  rfl

theorem Held.answer_get {office : Office} {n : ℕ} {k : Bytes}
    (h : Held m₀ ops office n (.get k)) :
    answer ops m₀ n = match contents office k with
      | some v => some (.buffer v)
      | none => some .nil := by
  rw [h.contents_eq]
  simp [answer, h.call, MapCall.run]

/-- A call that takes the lock knows that every call before it has been settled. -/
theorem held_of_acquire {office : Office} {n : ℕ} (hlen : n = ops.length)
    (hsettled : contents office = runAll ops m₀) (c : MapCall) :
    Held m₀ (ops ++ [c]) office n c := by
  subst hlen
  exact ⟨by simp, by simp, by simpa using hsettled⟩

/-- A step that crashes leaves everything else as it is. -/
private theorem flatStep_crash (hgood : Good K m₀ ops sh.office t)
    (hdefined : defined m t sh = false) :
    FlatStep m K m₀ ops t sh t { sh with crashed := true } :=
  .internal rfl rfl rfl rfl rfl (by simp [hdefined]) hgood

private theorem flatStep_acquire {op : Op} {fr : Frame} {c : MapCall} {at' : ℕ → Control}
    (hfr : FlatFrame K op fr c) (hlen : sh.calls.length = ops.length)
    (hsettled : sh.lock = none → contents sh.office = runAll ops m₀)
    (hticket : ∀ n, (at' n).ticket = some n)
    (hgood : ∀ n, Held m₀ (ops ++ [c]) sh.office n c →
      Good K m₀ (ops ++ [c]) sh.office ⟨at' n, []⟩)
    (ht : t.suspended = []) (hcode : t.code = .call op fr.argc fr.argv fr.k)
    (hcode' : ∀ n, (at' n).code = .call op fr.argc fr.argv fr.k) (hdefined : defined m t sh = true)
    (h : (match acquire op fr sh with
      | some (ticket, sh) => goto t sh (at' ticket)
      | none => none) = some (t', sh')) : FlatStep m K m₀ ops t sh t' sh' := by
  split at h
  case h_1 n sh₁ hacq =>
    obtain ⟨hfree, rfl, rfl⟩ := acquire_eq_some hacq
    cases h
    rw [ht]
    refine .acquire _ c hfr.means hfree ?_ ?_ ⟨fr.k, hcode⟩ rfl rfl rfl (by simp [hdefined])
      (hgood _ (held_of_acquire hlen (hsettled hfree) c))
    · simp [Thread.tickets, hticket]
    · exact (hcode' _).trans hcode.symm
  case h_2 => cases h

private theorem getStep_flat {fr : Frame} {pc : GetAt} (hwf : WellFormed sh.office)
    (hlen : sh.calls.length = ops.length)
    (hsettled : sh.lock = none → contents sh.office = runAll ops m₀)
    (hgood : Good K m₀ ops sh.office ⟨.get fr pc, []⟩)
    (h : getStep m ⟨.get fr pc, []⟩ sh fr pc = some (t', sh')) :
    FlatStep m K m₀ ops ⟨.get fr pc, []⟩ sh t' sh' := by
  cases hgood with
  | getFixarity hfr =>
    simp only [getStep, hfr.get_args.1, if_pos] at h
    cases h
    exact .internal rfl rfl rfl rfl rfl rfl (.getLock hfr)
  | getLock hfr =>
    exact flatStep_acquire hfr hlen hsettled (fun _ => rfl) (fun n hn => .getKey hfr hn) rfl rfl
      (fun _ => rfl) rfl h
  | getKey hfr hheld =>
    simp only [getStep, hfr.get_args.2] at h
    cases h
    exact .internal rfl rfl rfl rfl rfl rfl (.getLookup hfr hheld)
  | @getLookup _ k n hfr hheld =>
    simp only [getStep] at h
    by_cases hroom : m.Room k
    · have hdef : defined m ⟨.get fr (.lookup n k), []⟩ sh = true := by
        simp [defined, hasRoom, hroom]
      rcases tableGet_spec hwf hroom with ⟨a, node, hget, hnode, hv⟩ | ⟨hget, hv⟩
      · rw [hget] at h
        cases h
        exact .internal rfl rfl rfl rfl rfl (by rw [if_pos hdef]) (.getCopy hfr hheld hnode hv)
      · rw [hget] at h
        cases h
        refine .finish n .nil rfl rfl ⟨_, _, _, _, rfl, rfl⟩ rfl rfl rfl (by rw [if_pos hdef]) ?_
          hheld.settled_get (.janet (hfr.rest _))
        rw [hheld.answer_get, hv]
    · rw [tableGet_of_not_room hroom] at h
      cases h
      exact flatStep_crash (.getLookup hfr hheld) (by simp [defined, hasRoom, hroom])
  | getCopy hfr hheld hnode hv =>
    simp only [getStep, hnode] at h
    cases h
    exact .internal rfl rfl rfl rfl rfl rfl (.getUnlock hfr hheld hv)
  | @getUnlock _ k v n hfr hheld hv =>
    cases h
    refine .finish n (.buffer v) rfl rfl ⟨_, _, _, _, rfl, rfl⟩ rfl rfl rfl rfl ?_
      hheld.settled_get (.janet (hfr.rest _))
    rw [hheld.answer_get, hv]

private theorem updateStep_flat {fr : Frame} {pc : UpdateAt} (hK : ∀ k, K k → k ≠ [])
    (hwf : WellFormed sh.office) (hlen : sh.calls.length = ops.length)
    (hsettled : sh.lock = none → contents sh.office = runAll ops m₀)
    (hgood : Good K m₀ ops sh.office ⟨.update fr pc, []⟩)
    (h : updateStep m ⟨.update fr pc, []⟩ sh fr pc = some (t', sh')) :
    FlatStep m K m₀ ops ⟨.update fr pc, []⟩ sh t' sh' := by
  cases hgood with
  | updateLock hfr =>
    exact flatStep_acquire hfr hlen hsettled (fun _ => rfl) (fun n hn => .updateFixarity hfr hn) rfl
      rfl (fun _ => rfl) rfl h
  | updateFixarity hfr hheld =>
    simp only [updateStep, hfr.update_args.1, if_pos] at h
    cases h
    exact .internal rfl rfl rfl rfl rfl rfl (.updateFunction hfr hheld)
  | updateFunction hfr hheld =>
    obtain ⟨-, -, f, hf, hg⟩ := hfr.update_args
    simp only [updateStep, hf] at h
    cases h
    exact .internal rfl rfl rfl rfl rfl rfl (.updateKey hfr hheld hg)
  | updateKey hfr hheld hg =>
    simp only [updateStep, hfr.update_args.2.1] at h
    cases h
    exact .internal rfl rfl rfl rfl rfl rfl (.updateLookup hfr hheld hg)
  | @updateLookup _ k g n f hfr hheld hg =>
    simp only [updateStep] at h
    by_cases hroom : m.Room k
    · rcases tableGet_spec hwf hroom with ⟨a, node, hget, hnode, hv⟩ | ⟨hget, hv⟩
      · rw [hget] at h
        cases h
        exact .internal rfl rfl rfl rfl rfl (by simp [defined, hasRoom, hroom, hv])
          (.updateCopy hfr hheld hg hnode hv)
      · rw [hget] at h
        cases h
        exact flatStep_crash (.updateLookup hfr hheld hg) (by simp [defined, hv])
    · rw [tableGet_of_not_room hroom] at h
      cases h
      exact flatStep_crash (.updateLookup hfr hheld hg) (by simp [defined, hasRoom, hroom])
  | updateCopy hfr hheld hg hnode hv =>
    simp only [updateStep, hnode] at h
    cases h
    exact .internal rfl rfl rfl rfl rfl rfl (.updateCall hfr hheld hg hv)
  | @updateCall _ k v g n f hfr hheld hg hv =>
    simp only [updateStep, hg] at h
    cases h
    exact .internal rfl rfl rfl rfl rfl rfl (.callback hfr hheld hv)
  | updateUnwrap hfr hheld hv =>
    cases h
    exact .internal rfl rfl rfl rfl rfl rfl (.updatePut hfr hheld hv)
  | @updatePut _ k v g n hfr hheld hv =>
    simp only [updateStep] at h
    by_cases hroom : m.Room k ∧ m.Room (g v)
    · obtain ⟨office', hput, hwf', hcontents⟩ := tablePut_spec hwf (hK k hfr.key) hroom
      rw [hput] at h
      cases h
      exact .store (tickets_ne_nil_of_ticket rfl) rfl rfl hwf' (fun hp => hp.update hcontents) rfl
        rfl (by simp [defined, hasRoom, hroom])
        (.updateUnlock hfr (hheld.stored_update hv hcontents))
    · rw [tablePut_of_not_room hroom] at h
      cases h
      exact flatStep_crash (.updatePut hfr hheld hv) (by simp only [defined, hasRoom, hroom]; rfl)
  | @updateUnlock _ k g n hfr hstored =>
    cases h
    exact .finish n .true rfl rfl ⟨_, _, _, _, rfl, rfl⟩ rfl rfl rfl rfl
      hstored.answer_eq hstored.contents_eq (.janet (hfr.rest _))

private theorem makeStep_flat {fr : Frame} {pc : MakeAt} (hK : ∀ k, K k → k ≠ [])
    (hwf : WellFormed sh.office) (hlen : sh.calls.length = ops.length)
    (hsettled : sh.lock = none → contents sh.office = runAll ops m₀)
    (hgood : Good K m₀ ops sh.office ⟨.make fr pc, []⟩)
    (h : makeStep m ⟨.make fr pc, []⟩ sh fr pc = some (t', sh')) :
    FlatStep m K m₀ ops ⟨.make fr pc, []⟩ sh t' sh' := by
  cases hgood with
  | makeFixarity hfr =>
    simp only [makeStep, hfr.make_args.1, if_pos] at h
    cases h
    exact .internal rfl rfl rfl rfl rfl rfl (.makeLock hfr)
  | makeLock hfr =>
    exact flatStep_acquire hfr hlen hsettled (fun _ => rfl) (fun n hn => .makeKey hfr hn) rfl rfl
      (fun _ => rfl) rfl h
  | makeKey hfr hheld =>
    simp only [makeStep, hfr.make_args.2.1] at h
    cases h
    exact .internal rfl rfl rfl rfl rfl rfl (.makeValue hfr hheld)
  | makeValue hfr hheld =>
    simp only [makeStep, hfr.make_args.2.2] at h
    cases h
    exact .internal rfl rfl rfl rfl rfl rfl (.makePut hfr hheld)
  | @makePut _ k v n hfr hheld =>
    simp only [makeStep] at h
    by_cases hroom : m.Room k ∧ m.Room v
    · obtain ⟨office', hput, hwf', hcontents⟩ := tablePut_spec hwf (hK k hfr.key) hroom
      rw [hput] at h
      cases h
      exact .store (tickets_ne_nil_of_ticket rfl) rfl rfl hwf' (fun hp => hp.update hcontents) rfl
        rfl (by simp [defined, hasRoom, hroom]) (.makeUnlock hfr (hheld.stored_make hcontents))
    · rw [tablePut_of_not_room hroom] at h
      cases h
      exact flatStep_crash (.makePut hfr hheld) (by simp only [defined, hasRoom, hroom]; rfl)
  | @makeUnlock _ k v n hfr hstored =>
    cases h
    exact .finish n .true rfl rfl ⟨_, _, _, _, rfl, rfl⟩ rfl rfl rfl rfl
      hstored.answer_eq hstored.contents_eq (.janet (hfr.rest _))

private theorem janetStep_flat {p : Prog} {suspended : List Suspended}
    (hgood : Good K m₀ ops sh.office ⟨.janet p, suspended⟩)
    (h : janetStep ⟨.janet p, suspended⟩ sh p = some (t', sh')) :
    FlatStep m K m₀ ops ⟨.janet p, suspended⟩ sh t' sh' := by
  cases hgood with
  | janet hp =>
    cases hp with
    | done v => cases h
    | error => cases h
    | @call op argc argv next c hc hkey hnext =>
      cases h
      refine .internal (by cases op <;> rfl) (by cases op <;> rfl) rfl rfl rfl rfl ?_
      cases hc with
      | get hk => exact .getFixarity ⟨.get hk, hkey, hnext⟩
      | update hk hf hg => exact .updateLock ⟨.update hk hf hg, hkey, hnext⟩
      | make hk hv => exact .makeFixarity ⟨.make hk hv, hkey, hnext⟩
  | callback hfr hheld hv =>
    cases h
    exact .internal rfl rfl rfl rfl rfl rfl (.updateUnwrap hfr hheld hv)

/-- **What one step of one thread does**, in a program of calls on the map. -/
theorem Good.step (hK : ∀ k, K k → k ≠ []) (hwf : WellFormed sh.office)
    (hlen : sh.calls.length = ops.length)
    (hsettled : sh.lock = none → contents sh.office = runAll ops m₀)
    (hgood : Good K m₀ ops sh.office t) (h : threadStep m t sh = some (t', sh')) :
    FlatStep m K m₀ ops t sh t' sh' := by
  obtain ⟨control, suspended⟩ := t
  unfold threadStep at h
  split at h
  case isTrue => cases h
  case isFalse =>
    cases control with
    | janet p => exact janetStep_flat hgood h
    | get fr pc =>
      obtain rfl : suspended = [] := by cases hgood <;> rfl
      exact getStep_flat hwf hlen hsettled hgood h
    | update fr pc =>
      obtain rfl : suspended = [] := by cases hgood <;> rfl
      exact updateStep_flat hK hwf hlen hsettled hgood h
    | make fr pc =>
      obtain rfl : suspended = [] := by cases hgood <;> rfl
      exact makeStep_flat hK hwf hlen hsettled hgood h

end

end AhungryJanet
