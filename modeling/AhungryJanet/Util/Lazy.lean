import AhungryJanet.Janet.Value
import AhungryJanet.Library.Loop
import Mathlib.Data.ENat.Basic

/-!
# Lazy sequences

`Lazy` and `make-lazy` of `com.ahungry.util`: an object that makes one element after another with
`:f`, starting with `:init`, until `:g` is satisfied. The three functions are a generator; a value
that may be nil is an `Option`. What else the object holds changes with every call.

## The state does not matter

`:take` and `:reduce` begin with a reset, so what they return depends on the three functions alone,
in whatever state earlier calls have left the object. After a reset `:last` is the function `:init`
itself, and not its result; nothing looks at it before the first element has taken its place.

## Main results

* `traverse_of_yields` — a traversal goes through what the generator yields, and folds it up
* `means_pure` — what `:take`, `:take-all`, `:reduce` and `:map` return if the functions are pure
* `returns_map_lazyRange` — what a range delivers
-/

namespace AhungryJanet

open Loop

/-- The entries that an object has of its own. Where there is none, the prototype has one. -/
structure Lazy (α : Type) where
  applications : Option ℕ
  last : Option α
  stop : Option Bool

/-- What a traversal has got to: what it has accumulated, the object, and the state the functions
act on. -/
structure Traversal (α β σ : Type) where
  acc : β
  self : Lazy α
  world : σ

section

variable {α β σ ε : Type}

/-- `make-lazy`: the functions are put into a table without other entries. -/
def makeLazy : Lazy α := ⟨none, none, none⟩

/-- `(self :applications)`, which is 0 in the prototype. -/
def Lazy.applied (self : Lazy α) : ℕ := self.applications.getD 0

/-- `(self :stop?)`, which is false in the prototype. -/
def Lazy.stopped (self : Lazy α) : Bool := self.stop.getD false

variable (G : Generator (Option α) σ ε) (initFn : α)

/-- `:iter`: the value returned, the object, and the state. -/
def Lazy.iter (self : Lazy α) (s : σ) : Except ε (Option α × Lazy α × σ) := do
  let nextVal ← if self.applied = 0 then G.init s else G.next self.last s
  let stop ← G.stop nextVal.1 nextVal.2
  if stop.1 then
    return (self.last, { self with stop := some true }, stop.2)
  else
    return (nextVal.1, { self with applications := some (self.applied + 1), last := nextVal.1 },
      stop.2)

/-- `:reset`. The function `:init` becomes `:last`. -/
def Lazy.reset (_ : Lazy α) : Lazy α := ⟨some 0, some initFn, some false⟩

/-- One round of a traversal: what `:iter` returns is used unless it has stopped. -/
def Lazy.round (h : β → Option α → β) (x : Traversal α β σ) : Except ε (Traversal α β σ) := do
  let next ← x.self.iter G x.world
  if next.2.1.stopped then return ⟨x.acc, next.2.1, next.2.2⟩
  else return ⟨h x.acc next.1, next.2.1, next.2.2⟩

/-- A traversal for as long as `more` says of the number of applications. -/
def Lazy.traverse (self : Lazy α) (more : ℕ → Bool) (h : β → Option α → β) (acc : β) (s : σ)
    (fuel : ℕ) : Option (Except ε (Traversal α β σ)) :=
  whileLoop (fun x => !x.self.stopped && more x.self.applied) (Lazy.round G h) fuel
    ⟨acc, self.reset initFn, s⟩

/-- `:take`. -/
def Lazy.take (self : Lazy α) (n : ℕ∞) (s : σ) (fuel : ℕ) :
    Option (Except ε (Traversal α (List (Option α)) σ)) :=
  self.traverse G initFn (fun applications => n > applications) (fun acc next => acc ++ [next]) [] s
    fuel

/-- `:take-all`. -/
def Lazy.takeAll (self : Lazy α) (s : σ) (fuel : ℕ) :
    Option (Except ε (Traversal α (List (Option α)) σ)) :=
  self.take G initFn ⊤ s fuel

/-- `:reduce`. -/
def Lazy.reduce (self : Lazy α) (f : β → Option α → β) (init : β) (s : σ) (fuel : ℕ) :
    Option (Except ε (Traversal α β σ)) :=
  self.traverse G initFn (fun _ => true) f init s fuel

/-- `:map`. -/
def Lazy.map (self : Lazy α) (f : Option α → β) (s : σ) (fuel : ℕ) :
    Option (Except ε (Traversal α (List β) σ)) :=
  self.reduce G initFn (fun acc x => acc ++ [f x]) [] s fuel

/-! ### Traversals -/

/-- What the next `:iter` begins with. -/
def Lazy.pending (self : Lazy α) : σ → Except ε (Option α × σ) :=
  if self.applied = 0 then G.init else G.next self.last

variable {G} {self : Lazy α} {s t u : σ} {v : Option α}

theorem Lazy.iter_eq (self : Lazy α) (s : σ) : self.iter G s = do
    let nextVal ← self.pending G s
    let stop ← G.stop nextVal.1 nextVal.2
    if stop.1 then
      return (self.last, { self with stop := some true }, stop.2)
    else
      return (nextVal.1, { self with applications := some (self.applied + 1), last := nextVal.1 },
        stop.2) := by
  rw [iter, pending]
  split
  case isTrue => rfl
  case isFalse => rfl

theorem Lazy.iter_of_stop (hv : self.pending G s = .ok (v, t))
    (hstop : G.stop v t = .ok (true, u)) :
    self.iter G s = .ok (self.last, { self with stop := some true }, u) := by
  simp only [iter_eq, hv, hstop, bind, Except.bind]
  rfl

theorem Lazy.iter_of_next (hv : self.pending G s = .ok (v, t))
    (hstop : G.stop v t = .ok (false, u)) :
    self.iter G s =
      .ok (v, { self with applications := some (self.applied + 1), last := v }, u) := by
  simp only [iter_eq, hv, hstop, bind, Except.bind]
  rfl

/-- **A traversal goes through what the generator yields**, and folds it up. -/
theorem ends_of_yields {more : ℕ → Bool} {h : β → Option α → β} {k : ℕ}
    {pending : σ → Except ε (Option α × σ)} {xs : List (Option α)}
    (hyields : G.Yields more k pending s xs t) (self : Lazy α) (acc : β)
    (hstopped : self.stopped = false)
    (happlied : self.applied = k) (hpending : self.pending G = pending) :
    ∃ self', Ends (fun x => !x.self.stopped && more x.self.applied) (Lazy.round G h) ⟨acc, self, s⟩
      ⟨xs.foldl h acc, self', t⟩ := by
  induction hyields generalizing self acc with
  | enough hmore => exact ⟨self, .stop (by simp [happlied, hmore])⟩
  | last hmore hv hstop =>
    rw [← hpending] at hv
    refine ⟨{ self with stop := some true }, .round (by simp [hstopped, happlied, hmore]) ?_
      (.stop rfl)⟩
    rw [Lazy.round, Lazy.iter_of_stop hv hstop]
    rfl
  | @round _ _ s t u _ v _ hmore hv hstop _ ih =>
    rw [← hpending] at hv
    let next : Lazy α := { self with applications := some (self.applied + 1), last := v }
    have hgo : next.stopped = false := hstopped
    have hnext : next.pending G = G.next v := if_neg (Nat.succ_ne_zero _)
    obtain ⟨self', hends⟩ := ih next (h acc v) hgo (congrArg Nat.succ happlied) hnext
    have hround : Lazy.round G h ⟨acc, self, s⟩ = .ok ⟨h acc v, next, u⟩ := by
      rw [Lazy.round, Lazy.iter_of_next hv hstop]
      exact if_neg (ne_true_of_eq_false hgo)
    exact ⟨self', .round (by simp [hstopped, happlied, hmore]) hround hends⟩

/-- With enough fuel a call returns `acc`, and the state is `t`. -/
def Lazy.Returns (call : ℕ → Option (Except ε (Traversal α β σ))) (acc : β) (t : σ) : Prop :=
  ∃ enough self, ∀ fuel, enough ≤ fuel → call fuel = some (.ok ⟨acc, self, t⟩)

theorem traverse_of_yields (initFn : α) (self : Lazy α) {more : ℕ → Bool} {h : β → Option α → β}
    {xs : List (Option α)} (hyields : G.Yields more 0 G.init s xs t) (acc : β) :
    Lazy.Returns (self.traverse G initFn more h acc s) (xs.foldl h acc) t := by
  obtain ⟨self', hends⟩ := ends_of_yields hyields (self.reset initFn) acc rfl rfl rfl
  obtain ⟨enough, hrun⟩ := whileLoop_of_ends hends
  exact ⟨enough, self', hrun⟩

/-- A traversal that keeps everything. -/
theorem map_of_yields (initFn : α) (self : Lazy α) {more : ℕ → Bool} (f : Option α → β)
    {xs : List (Option α)} (hyields : G.Yields more 0 G.init s xs t) :
    Lazy.Returns (self.traverse G initFn more (fun acc x => acc ++ [f x]) [] s) (xs.map f) t := by
  have hreturns := traverse_of_yields initFn self (h := fun acc x => acc ++ [f x]) hyields []
  rwa [List.foldl_append_eq_append, List.nil_append, ← List.flatMap_def,
    ← List.map_eq_flatMap] at hreturns

/-- There are less than infinitely many applications. -/
theorem takeAll_of_yields (initFn : α) (self : Lazy α) {xs : List (Option α)}
    (hyields : G.Yields (fun _ => true) 0 G.init s xs t) :
    Lazy.Returns (self.takeAll G initFn s) xs t := by
  have hmore : (fun applications : ℕ => decide ((⊤ : ℕ∞) > applications)) = fun _ => true := by
    funext applications
    exact decide_eq_true (ENat.natCast_lt_top applications)
  rw [← hmore] at hyields
  have hreturns := map_of_yields initFn self (fun x => x) hyields
  rwa [List.map_id'] at hreturns

end

/-! ### Pure functions -/

section

variable {α σ ε : Type}

/-- What the object should mean: every finite part of the sequence, and all of it if that is
finite. -/
inductive Lazy.Means (f : Option α → Option α) (g : Option α → Bool) (a : Option α) (initFn : α)
    (self : Lazy α) (s : σ) : Prop
  /-- `xs` is cut before the first element that satisfies `g`. -/
  | finite (xs : List (Option α)) (hcut : IsCut f g a xs)
    (htake : ∀ n : ℕ, Lazy.Returns (self.take (.pure (ε := ε) f g a) initFn n s) (xs.take n) s)
    (htakeAll : Lazy.Returns (self.takeAll (.pure (ε := ε) f g a) initFn s) xs s)
    (hreduce : ∀ {β : Type} (h : β → Option α → β) (b : β),
      Lazy.Returns (self.reduce (.pure (ε := ε) f g a) initFn h b s) (xs.foldl h b) s)
    (hmap : ∀ {β : Type} (h : Option α → β),
      Lazy.Returns (self.map (.pure (ε := ε) f g a) initFn h s) (xs.map h) s)
  /-- No element satisfies `g`. -/
  | infinite (hgoes : ∀ i, g (f^[i] a) = false)
    (htake : ∀ n : ℕ,
      Lazy.Returns (self.take (.pure (ε := ε) f g a) initFn n s) (List.iterate f a n) s)

variable (f : Option α → Option α) (g : Option α → Bool) (a : Option α) (initFn : α)
variable (self : Lazy α) (s : σ)

/-- `:take` returns the elements up to the limit, or up to the first one that satisfies `g`. -/
theorem returns_take {n : ℕ∞} {r : ℕ} (hgoes : ∀ i < r, g (f^[i] a) = false) (hle : (r : ℕ∞) ≤ n)
    (hend : (r : ℕ∞) = n ∨ g (f^[r] a) = true) :
    Lazy.Returns (self.take (.pure (ε := ε) f g a) initFn n s) (List.iterate f a r) s := by
  have hyields := yields_pure (ε := ε) f g a (fun k => n > k) s (r := r) (k := 0) (v := a)
    (fun i hi => ?_) ?_
  · have hreturns := map_of_yields initFn self (fun x => x) hyields
    rwa [List.map_id'] at hreturns
  · rw [Nat.zero_add, decide_eq_true_eq]
    exact ⟨(Nat.cast_lt.mpr hi).trans_le hle, hgoes i hi⟩
  · rw [Nat.zero_add, decide_eq_false_iff_not, gt_iff_lt, not_lt]
    exact hend.imp_left fun heq => heq.ge

/-- `:reduce` goes through all elements before the first one that satisfies `g`. -/
theorem yields_all {r : ℕ} (hgoes : ∀ i < r, g (f^[i] a) = false) (hstop : g (f^[r] a) = true) :
    (Generator.pure (ε := ε) f g a).Yields (fun _ => true) 0 (Generator.pure (ε := ε) f g a).init s
      (List.iterate f a r) s :=
  yields_pure f g a (fun _ => true) s (fun i hi => ⟨rfl, hgoes i hi⟩) (.inr hstop)

/-- **An object means its sequence**, in whatever state it is. -/
theorem means_pure : Lazy.Means (ε := ε) f g a initFn self s := by
  rcases exists_isCut_or f g a with ⟨xs, hcut⟩ | hgoes
  · have hiterates := hcut.iterates
    have hbefore := hcut.before
    have hall := yields_all (ε := ε) f g a s hbefore hcut.stops
    rw [← hiterates] at hall
    refine .finite xs hcut (fun n => ?_) ?_ (fun h b => ?_) fun h => ?_
    · have htake : xs.take n = List.iterate f a (min n xs.length) := by
        rw [← List.take_iterate, ← hiterates]
      rw [htake]
      refine returns_take f g a initFn self s
        (fun i hi => hbefore i (hi.trans_le (min_le_right _ _)))
        (Nat.cast_le.mpr (min_le_left _ _)) ?_
      rcases le_total n xs.length with hle | hle
      · left
        rw [min_eq_left hle]
      · right
        rw [min_eq_right hle]
        exact hcut.stops
    · exact takeAll_of_yields initFn self hall
    · exact traverse_of_yields initFn self hall b
    · exact map_of_yields initFn self h hall
  · exact .infinite hgoes fun n =>
      returns_take f g a initFn self s (fun i _ => hgoes i) le_rfl (.inl rfl)

end

/-! ### Ranges -/

section

variable {σ : Type}

/-- `lazy-range`. -/
def lazyRange (n : ℤ) : Generator (Option ℤ) σ Panic where
  init s := .ok (some 0, s)
  next v s :=
    match v with
    | some k => .ok (some (k + 1), s)
    | none => .error (.badSlot 0)
  stop v s :=
    match v with
    | some k => .ok (decide (k ≥ n), s)
    | none => .error (.badSlot 0)

theorem yields_lazyRange (n : ℤ) (s : σ) {r : ℕ} : ∀ {j k : ℕ}, k + r = n.toNat →
    (lazyRange n).Yields (fun _ => true) j (fun s => .ok (some (k : ℤ), s)) s
      ((List.range' k r).map fun i : ℕ => some (i : ℤ)) s := by
  induction r with
  | zero =>
    intro j k hk
    have hstop : decide ((k : ℤ) ≥ n) = true := decide_eq_true (by omega)
    exact .last rfl rfl (congrArg (fun b => Except.ok (b, s)) hstop)
  | succ r ih =>
    intro j k hk
    have hgo : decide ((k : ℤ) ≥ n) = false := decide_eq_false (by omega)
    exact .round rfl rfl (congrArg (fun b => Except.ok (b, s)) hgo) (ih (k := k + 1) (by omega))

/-- **A range is the numbers below its end**, mapped by whatever is asked for. -/
theorem returns_map_lazyRange {β : Type} (n : ℤ) (initFn : ℤ) (h : Option ℤ → β) (s : σ) :
    Lazy.Returns (makeLazy.map (lazyRange n) initFn h s)
      ((List.range n.toNat).map fun i : ℕ => h (some (i : ℤ))) s := by
  have hyields := yields_lazyRange n s (r := n.toNat) (j := 0) (k := 0) (Nat.zero_add _)
  have hreturns := map_of_yields initFn makeLazy h hyields
  rwa [List.map_map, ← List.range_eq_range'] at hreturns

end

end AhungryJanet
