import AhungryJanet.Pobox.Update

/-!
# Invariants of the boxes

What is in a box was put there by a thread: it is the second argument of a `cmake`, or what a
callback of a `cupdate` returned. So a relation of keys and values that holds of all that the
threads put into the store holds of all that is in it, and of all that they get back. What a thread
puts depends on what it got, so it has to keep to the relation only as long as the store does.

The store starts with a node under the empty key whose value is empty, so the relation has to hold
of these two.

## Main results

* `keeps_threadStep` — what one step of one thread does
* `reachable_boxesKeep` — the relation holds of every box in every reachable state
-/

namespace AhungryJanet

open Interleaving

/-! ### Threads that keep to a relation -/

/-- What a call that was given some arguments may be answered: a buffer only if the relation has it
under the key. -/
def Comes (R : Bytes → Bytes → Prop) (argv : ℕ → Arg) (o : Outcome) : Prop :=
  ∀ kb b, argv 0 = .buffer kb → o = .returned (.buffer b) → R kb b

mutual

/-- The code puts nothing into the store that the relation does not have, as long as it gets nothing
else. It runs inside a `cupdate` with `key` in the key buffer, or inside none. -/
def Prog.Keeps (R : Bytes → Bytes → Prop) : Prog → (key : Option Bytes) → Prop
  | .done v, key => ∀ kb b, key = some kb → v = .buffer b → R kb b
  | .error, _ => True
  | .call _ _ argv k, key =>
    (∀ kb, argv 0 = .buffer kb → (argv 1).Keeps R kb) ∧ ∀ o, Comes R argv o → (k o).Keeps R key
  | .setKey kb p, key => p.Keeps R (key.map fun _ => kb)

/-- The value or the callback that is given to a call with a key. -/
def Arg.Keeps (R : Bytes → Bytes → Prop) : Arg → (kb : Bytes) → Prop
  | .buffer b, kb => R kb b
  | .function f, kb => ∀ b, R kb b → (f b).Keeps R (some kb)
  | .other, _ => True

end

structure Frame.Keeps (R : Bytes → Bytes → Prop) (fr : Frame) (key : Option Bytes) : Prop where
  args : ∀ kb, fr.argv 0 = .buffer kb → (fr.argv 1).Keeps R kb
  rest : ∀ o, Comes R fr.argv o → (fr.k o).Keeps R key

/-- The key of a node, which it keeps for good. -/
def KeyAt (office : Office) (node : ℕ) (kb : Bytes) : Prop := office[node]?.map Node.k = some kb

section

variable (R : Bytes → Bytes → Prop) (office : Office)

/-- What is known in `get_wrapped`. -/
def GetAt.Keeps (argv : ℕ → Arg) : GetAt → Prop
  | .lookup _ kb => argv 0 = .buffer kb
  | .copy _ node => ∃ kb, argv 0 = .buffer kb ∧ KeyAt office node kb
  | .unlock _ buf => ∃ kb, argv 0 = .buffer kb ∧ R kb buf
  | _ => True

/-- What is known in `update_wrapped`. -/
def UpdateAt.Keeps (argv : ℕ → Arg) : UpdateAt → Prop
  | .key _ f => argv 1 = .function f
  | .lookup _ f kb => argv 1 = .function f ∧ argv 0 = .buffer kb
  | .copy _ f kb node => argv 1 = .function f ∧ argv 0 = .buffer kb ∧ KeyAt office node kb
  | .call _ f kb buf => (f buf).Keeps R (some kb)
  | .unwrap _ kb res => ∀ b, res = .buffer b → R kb b
  | .put _ kb vb => R kb vb
  | _ => True

/-- What is known in `make_wrapped`. -/
def MakeAt.Keeps (argv : ℕ → Arg) : MakeAt → Prop
  | .value _ kb => argv 0 = .buffer kb
  | .put _ kb vb => R kb vb
  | _ => True

def Control.Keeps (key : Option Bytes) : Control → Prop
  | .janet p => p.Keeps R key
  | .get fr pc => fr.Keeps R key ∧ pc.Keeps R office fr.argv
  | .update fr pc => fr.Keeps R key ∧ pc.Keeps R office fr.argv
  | .make fr pc => fr.Keeps R key ∧ pc.Keeps R fr.argv

end

/-- What is in the key buffer of the innermost of some suspended calls. -/
def innermost (suspended : List Suspended) : Option Bytes := suspended.head?.map Suspended.kb

/-- Each of the suspended calls goes on inside the next one. -/
def StackKeeps (R : Bytes → Bytes → Prop) : List Suspended → Prop
  | [] => True
  | u :: rest => u.fr.Keeps R (innermost rest) ∧ StackKeeps R rest

structure Thread.Keeps (R : Bytes → Bytes → Prop) (office : Office) (t : Thread) : Prop where
  control : t.control.Keeps R office (innermost t.suspended)
  suspended : StackKeeps R t.suspended

/-- The relation holds of every key and its value. -/
def BoxesKeep (R : Bytes → Bytes → Prop) (office : Office) : Prop :=
  ∀ k v, contents office k = some v → R k v

/-! ### The store -/

section

variable {R : Bytes → Bytes → Prop} {m : Malloc} {office office' : Office}

theorem boxesKeep_ensureOffice (hR : R [] []) : BoxesKeep R ensureOffice := by
  intro k v hv
  obtain ⟨i, n, hi, rfl, rfl⟩ := (contents_eq_some_iff wellFormed_ensureOffice).mp hv
  have hn : n = ⟨[], [], none⟩ := List.mem_singleton.mp (List.mem_of_getElem? hi)
  rw [hn]
  exact hR

theorem KeyAt.mono {node : ℕ} {kb : Bytes} (h : KeyAt office node kb)
    (hpre : office.map Node.k <+: office'.map Node.k) : KeyAt office' node kb := by
  obtain ⟨keys, hkeys⟩ := hpre
  rw [KeyAt, ← List.getElem?_map] at h ⊢
  rw [← hkeys, List.getElem?_append_left (List.getElem?_eq_some_iff.mp h).1, h]

/-- The value of a node, under its key. -/
theorem BoxesKeep.node (h : BoxesKeep R office) (hwf : WellFormed office) {node : ℕ} {n : Node}
    {kb : Bytes} (hkey : KeyAt office node kb) (hn : office[node]? = some n) : R kb n.v := by
  rw [KeyAt, hn, Option.map_some, Option.some.injEq] at hkey
  exact h kb n.v ((contents_eq_some_iff hwf).mpr ⟨node, n, hn, hkey, rfl⟩)

theorem BoxesKeep.tablePut (h : BoxesKeep R office) (hwf : WellFormed office) {k v : Bytes}
    (hR : R k v) (hput : tablePut m office k v = some office') : BoxesKeep R office' := by
  have hok : AhungryJanet.tablePut m office k v ≠ none := by simp [hput]
  rw [ne_eq, tablePut_eq_none_iff hwf, not_or, not_not] at hok
  obtain ⟨office₁, hput₁, -, hcont⟩ := tablePut_spec hwf hok.1 hok.2
  cases hput.symm.trans hput₁
  intro k' v' hv'
  rw [hcont] at hv'
  by_cases hk : k' = k
  · subst hk
    rw [Function.update_self] at hv'
    cases hv'
    exact hR
  · rw [Function.update_of_ne hk] at hv'
    exact h k' v' hv'

/-- What a thread knows of the store does not get wrong. -/
theorem Thread.Keeps.mono {t : Thread} (h : t.Keeps R office)
    (hpre : office.map Node.k <+: office'.map Node.k) : t.Keeps R office' := by
  obtain ⟨⟨control, suspended⟩, hcontrol, hsuspended⟩ := t, h
  refine ⟨?_, hsuspended⟩
  cases control with
  | janet p => exact hcontrol
  | make fr pc => exact hcontrol
  | get fr pc =>
    obtain ⟨hfr, hpc⟩ := hcontrol
    refine ⟨hfr, ?_⟩
    cases pc with
    | copy ticket node =>
      obtain ⟨kb, hkb, hkey⟩ := hpc
      exact ⟨kb, hkb, hkey.mono hpre⟩
    | _ => exact hpc
  | update fr pc =>
    obtain ⟨hfr, hpc⟩ := hcontrol
    refine ⟨hfr, ?_⟩
    cases pc with
    | copy ticket f kb node =>
      obtain ⟨hf, hkb, hkey⟩ := hpc
      exact ⟨hf, hkb, hkey.mono hpre⟩
    | _ => exact hpc

end

/-! ### Steps -/

section

variable {R : Bytes → Bytes → Prop} {m : Malloc} {t t' : Thread} {sh sh' : Shared} {fr : Frame}

/-- Going on at a location keeps what is known there. -/
theorem keeps_goto {sh₁ : Shared} {c : Control}
    (h : goto t sh₁ c = some (t', sh')) (hsuspended : StackKeeps R t.suspended)
    (hc : c.Keeps R sh₁.office (innermost t.suspended)) : t'.Keeps R sh'.office := by
  cases h
  exact ⟨hc, hsuspended⟩

/-- The ways out of a call. -/
theorem keeps_left (hfr : fr.Keeps R (innermost t.suspended))
    (hsuspended : StackKeeps R t.suspended) {o : Outcome} (ho : Comes R fr.argv o)
    (hleft : t' = { t with control := .janet (fr.k o) }) :
    t'.Keeps R sh'.office := by
  subst hleft
  exact ⟨hfr.rest o ho, hsuspended⟩

theorem comes_raised (argv : ℕ → Arg) : Comes R argv .raised := by
  intro kb b _ ho
  cases ho

theorem comes_of_ne {argv : ℕ → Arg} {v : JValue} (hv : ∀ b, v ≠ .buffer b) :
    Comes R argv (.returned v) := by
  intro kb b _ ho
  cases ho
  exact absurd rfl (hv b)

theorem keeps_getStep (hwf : WellFormed sh.office) (hboxes : BoxesKeep R sh.office) {pc : GetAt}
    (hc : t.control = .get fr pc) (ht : t.Keeps R sh.office)
    (h : getStep m t sh fr pc = some (t', sh')) : t'.Keeps R sh'.office := by
  have hcontrol := ht.control
  rw [hc] at hcontrol
  obtain ⟨hfr, hpc⟩ := hcontrol
  cases pc with
  | fixarity =>
    rw [getStep] at h
    split at h
    case isTrue => exact keeps_goto h ht.suspended ⟨hfr, trivial⟩
    case isFalse =>
      cases h
      exact keeps_left hfr ht.suspended (comes_raised _) rfl
  | lock =>
    rw [getStep] at h
    split at h
    case h_1 ticket sh₁ hacquire => exact keeps_goto h ht.suspended ⟨hfr, trivial⟩
    case h_2 => cases h
  | key ticket =>
    rw [getStep] at h
    split at h
    case h_1 kb hkb => exact keeps_goto h ht.suspended ⟨hfr, hkb⟩
    case h_2 =>
      cases h
      exact keeps_left hfr ht.suspended (comes_raised _) rfl
  | lookup ticket kb =>
    rw [getStep] at h
    split at h
    case h_1 =>
      cases h
      exact ht
    case h_2 =>
      cases h
      exact keeps_left hfr ht.suspended (comes_of_ne (by simp)) rfl
    case h_3 node hget =>
      exact keeps_goto h ht.suspended ⟨hfr, kb, hpc, key_of_tableGet hwf hget⟩
  | copy ticket node =>
    obtain ⟨kb, hkb, hkey⟩ := hpc
    rw [getStep] at h
    split at h
    case h_1 =>
      cases h
      exact ht
    case h_2 n hn => exact keeps_goto h ht.suspended ⟨hfr, kb, hkb, hboxes.node hwf hkey hn⟩
  | unlock ticket buf =>
    obtain ⟨kb, hkb, hbuf⟩ := hpc
    cases h
    refine keeps_left hfr ht.suspended (fun kb' b hkb' ho => ?_) rfl
    rw [hkb] at hkb'
    cases hkb'
    cases ho
    exact hbuf

theorem keeps_updateStep (hwf : WellFormed sh.office) (hboxes : BoxesKeep R sh.office)
    {pc : UpdateAt} (hc : t.control = .update fr pc) (ht : t.Keeps R sh.office)
    (h : updateStep m t sh fr pc = some (t', sh')) : t'.Keeps R sh'.office := by
  have hcontrol := ht.control
  rw [hc] at hcontrol
  obtain ⟨hfr, hpc⟩ := hcontrol
  cases pc with
  | lock =>
    rw [updateStep] at h
    split at h
    case h_1 ticket sh₁ hacquire => exact keeps_goto h ht.suspended ⟨hfr, trivial⟩
    case h_2 => cases h
  | fixarity ticket =>
    rw [updateStep] at h
    split at h
    case isTrue => exact keeps_goto h ht.suspended ⟨hfr, trivial⟩
    case isFalse =>
      cases h
      exact keeps_left hfr ht.suspended (comes_raised _) rfl
  | function ticket =>
    rw [updateStep] at h
    split at h
    case h_1 f hf => exact keeps_goto h ht.suspended ⟨hfr, hf⟩
    case h_2 =>
      cases h
      exact keeps_left hfr ht.suspended (comes_raised _) rfl
  | key ticket f =>
    rw [updateStep] at h
    split at h
    case h_1 kb hkb => exact keeps_goto h ht.suspended ⟨hfr, hpc, hkb⟩
    case h_2 =>
      cases h
      exact keeps_left hfr ht.suspended (comes_raised _) rfl
  | lookup ticket f kb =>
    rw [updateStep] at h
    split at h
    case h_1 node hget =>
      exact keeps_goto h ht.suspended ⟨hfr, hpc.1, hpc.2, key_of_tableGet hwf hget⟩
    case h_2 =>
      cases h
      exact ht
  | copy ticket f kb node =>
    obtain ⟨hf, hkb, hkey⟩ := hpc
    rw [updateStep] at h
    split at h
    case h_1 =>
      cases h
      exact ht
    case h_2 n hn =>
      have hcallback := hfr.args kb hkb
      rw [hf] at hcallback
      exact keeps_goto h ht.suspended ⟨hfr, hcallback n.v (hboxes.node hwf hkey hn)⟩
  | call ticket f kb buf =>
    cases h
    exact ⟨hpc, hfr, ht.suspended⟩
  | unwrap ticket kb res =>
    cases res with
    | buffer vb => exact keeps_goto h ht.suspended ⟨hfr, hpc vb rfl⟩
    | _ =>
      cases h
      exact ht
  | put ticket kb vb =>
    rw [updateStep] at h
    split at h
    case h_1 =>
      cases h
      exact ht
    case h_2 office hput => exact keeps_goto h ht.suspended ⟨hfr, trivial⟩
  | unlock ticket =>
    cases h
    exact keeps_left hfr ht.suspended (comes_of_ne (by simp)) rfl

theorem keeps_makeStep {pc : MakeAt} (hc : t.control = .make fr pc) (ht : t.Keeps R sh.office)
    (h : makeStep m t sh fr pc = some (t', sh')) : t'.Keeps R sh'.office := by
  have hcontrol := ht.control
  rw [hc] at hcontrol
  obtain ⟨hfr, hpc⟩ := hcontrol
  cases pc with
  | fixarity =>
    rw [makeStep] at h
    split at h
    case isTrue => exact keeps_goto h ht.suspended ⟨hfr, trivial⟩
    case isFalse =>
      cases h
      exact keeps_left hfr ht.suspended (comes_raised _) rfl
  | lock =>
    rw [makeStep] at h
    split at h
    case h_1 ticket sh₁ hacquire => exact keeps_goto h ht.suspended ⟨hfr, trivial⟩
    case h_2 => cases h
  | key ticket =>
    rw [makeStep] at h
    split at h
    case h_1 kb hkb => exact keeps_goto h ht.suspended ⟨hfr, hkb⟩
    case h_2 =>
      cases h
      exact keeps_left hfr ht.suspended (comes_raised _) rfl
  | value ticket kb =>
    rw [makeStep] at h
    split at h
    case h_1 vb hvb =>
      have hvalue := hfr.args kb hpc
      rw [hvb] at hvalue
      exact keeps_goto h ht.suspended ⟨hfr, hvalue⟩
    case h_2 =>
      cases h
      exact keeps_left hfr ht.suspended (comes_raised _) rfl
  | put ticket kb vb =>
    rw [makeStep] at h
    split at h
    case h_1 =>
      cases h
      exact ht
    case h_2 office hput => exact keeps_goto h ht.suspended ⟨hfr, trivial⟩
  | unlock ticket =>
    cases h
    exact keeps_left hfr ht.suspended (comes_of_ne (by simp)) rfl

theorem keeps_janetStep {p : Prog} (hc : t.control = .janet p) (ht : t.Keeps R sh.office)
    (h : janetStep t sh p = some (t', sh')) : t'.Keeps R sh'.office := by
  obtain ⟨hcontrol, hsuspended⟩ := ht
  rw [hc] at hcontrol
  cases p with
  | call op argc argv k =>
    have hfr : Frame.Keeps R ⟨argc, argv, k⟩ (innermost t.suspended) := ⟨hcontrol.1, hcontrol.2⟩
    cases op <;> exact keeps_goto h hsuspended ⟨hfr, trivial⟩
  | done v =>
    rw [janetStep] at h
    split at h
    case h_1 => cases h
    case h_2 u rest hu =>
      cases h
      rw [hu] at hcontrol hsuspended
      exact ⟨⟨hsuspended.1, fun b hb => hcontrol u.kb b rfl hb⟩, hsuspended.2⟩
  | error =>
    rw [janetStep] at h
    split at h
    case h_1 => cases h
    case h_2 u rest hu =>
      cases h
      rw [hu] at hsuspended
      exact ⟨hsuspended.1.rest _ (comes_raised _), hsuspended.2⟩
  | setKey kb p =>
    rw [janetStep] at h
    split at h
    case h_1 hnone =>
      refine keeps_goto h hsuspended ?_
      rw [hnone] at hcontrol ⊢
      exact hcontrol
    case h_2 u rest hu =>
      cases h
      rw [hu] at hcontrol hsuspended
      exact ⟨hcontrol, hsuspended.1, hsuspended.2⟩

/-- **One step of one thread** leaves every box as it should be, and the thread where it should be.
What the others know of the store stays right. -/
theorem keeps_threadStep (hwf : WellFormed sh.office) (hboxes : BoxesKeep R sh.office)
    (ht : t.Keeps R sh.office) (h : threadStep m t sh = some (t', sh')) :
    BoxesKeep R sh'.office ∧ t'.Keeps R sh'.office ∧
      sh.office.map Node.k <+: sh'.office.map Node.k := by
  have hsame : sh'.office = sh.office → t'.Keeps R sh'.office → BoxesKeep R sh'.office ∧
      t'.Keeps R sh'.office ∧ sh.office.map Node.k <+: sh'.office.map Node.k := by
    intro hoffice ht'
    rw [hoffice] at ht' ⊢
    exact ⟨hboxes, ht', List.prefix_rfl⟩
  have hput : ∀ {k v}, R k v → tablePut m sh.office k v = some sh'.office →
      t'.Keeps R sh'.office → BoxesKeep R sh'.office ∧ t'.Keeps R sh'.office ∧
        sh.office.map Node.k <+: sh'.office.map Node.k :=
    fun hR htable ht' => ⟨hboxes.tablePut hwf hR htable, ht', keys_prefix_tablePut htable⟩
  have hcontrol := ht.control
  unfold threadStep at h
  split at h
  · cases h
  · split at h
    case h_1 p hc => exact hsame (office_janetStep h) (keeps_janetStep hc ht h)
    case h_2 fr pc hc => exact hsame (office_getStep h) (keeps_getStep hwf hboxes hc ht h)
    case h_3 fr pc hc =>
      have ht' := keeps_updateStep hwf hboxes hc ht h
      rw [hc] at hcontrol
      rcases office_updateStep h with hoffice | ⟨n, k, v, rfl, htable⟩
      · exact hsame hoffice ht'
      · exact hput hcontrol.2 htable ht'
    case h_4 fr pc hc =>
      have ht' := keeps_makeStep hc ht h
      rw [hc] at hcontrol
      rcases office_makeStep h with hoffice | ⟨n, k, v, rfl, htable⟩
      · exact hsame hoffice ht'
      · exact hput hcontrol.2 htable ht'

end

/-! ### Runs -/

/-- **In every reachable state the relation holds of every box**, if no thread puts anything else
into one, and every thread knows that. -/
theorem reachable_boxesKeep {R : Bytes → Bytes → Prop} (hR : R [] []) {m : Malloc} {ι : Type}
    [DecidableEq ι] {progs : ι → Prog} (hprogs : ∀ i, (progs i).Keeps R none) {s : PoboxState ι}
    (h : Reaches (threadStep m) (initial progs ensureOffice) s) :
    BoxesKeep R s.shared.office ∧ ∀ i, (s.threads i).Keeps R s.shared.office := by
  suffices hinv : WellFormed s.shared.office ∧ BoxesKeep R s.shared.office ∧
      ∀ i, (s.threads i).Keeps R s.shared.office from hinv.2
  refine Reaches.invariant (P := fun s => WellFormed s.shared.office ∧ BoxesKeep R s.shared.office ∧
    ∀ i, (s.threads i).Keeps R s.shared.office) ?_ h
    ⟨wellFormed_ensureOffice, boxesKeep_ensureOffice hR, fun i => ⟨hprogs i, trivial⟩⟩
  rintro s _ ⟨hwf, hboxes, hthreads⟩ ⟨i, hi⟩
  obtain ⟨hboxes', hthread, hpre⟩ := keeps_threadStep hwf hboxes (hthreads i) hi
  refine ⟨hwf.threadStep hi, hboxes', fun j => ?_⟩
  by_cases hj : j = i
  · subst hj
    rwa [State.set_threads_self]
  · rw [State.set_threads_of_ne _ hj]
    exact (hthreads j).mono hpre

end AhungryJanet
