import AhungryJanet.Janet.MarshalRoundTrip
import AhungryJanet.Pobox.BoxInvariant

/-!
# Atoms

`make`, `update` and `get` of `com.ahungry.conc.atom.janet`: boxes for any data. Keys and values are
marshalled before the store gets them, and unmarshalled when it returns them. A thread that uses the
store in no other way never sees a byte of it.

## What is modelled

A call comes with the objects that there are when it is made. The buffers that `marshal` makes are
not among them; nobody else has them, so the function of an `update` cannot change its key. What
that function does to the objects is not handed on: the calls behind the `update` come with objects
of their own.

## Main results

* `reachable_marshalled` — in every box is a value that may be there, and a copy of it is got
* `endsWell_update_iff` — when an `update` is all or nothing
-/

namespace AhungryJanet.Atom

open Interleaving Marshal

/-! ### The functions -/

/-- A value, and the objects that it may refer to. -/
abbrev Data := Datum × Heap

def arguments (args : List Arg) (i : ℕ) : Arg := args.getD i .other

/-- `make`, and what is done when it has returned or raised an error. -/
def make (heap : Heap) (k v : Datum) (next : Outcome → Prog) : Prog :=
  match janetMarshal heap k, janetMarshal heap v with
  | some kb, some vb => .call .cmake 2 (arguments [.buffer kb, .buffer vb]) next
  | _, _ => next .raised

/-- `(marshal x)` at the end of a callback. -/
def marshalled (x : Data) : Prog :=
  match janetMarshal x.2 x.1 with
  | some b => .done (.buffer b)
  | none => .error

/-- `(fn [x] (marshal (f (unmarshal x))))`, where `f` is told what is done with its value. -/
def callback (L : Layout) (heap : Heap) (f : Data → (Data → Prog) → Prog) (x : Bytes) : Prog :=
  match janetUnmarshal L heap x with
  | .ok x => f x marshalled
  | .error _ => .error

/-- `update`. -/
def update (L : Layout) (heap : Heap) (k : Datum) (f : Data → (Data → Prog) → Prog)
    (next : Outcome → Prog) : Prog :=
  match janetMarshal heap k with
  | some kb => .call .cupdate 2 (arguments [.buffer kb, .function (callback L heap f)]) next
  | none => next .raised

/-- `(if maybe (unmarshal maybe) nil)`, for what `cget` has answered. -/
def unmarshalMaybe (L : Layout) (heap : Heap) : Outcome → Option Data
  | .returned (.buffer maybe) => (janetUnmarshal L heap maybe).toOption
  | .returned .nil => some (.nil, heap)
  | _ => none

/-- `get`. -/
def get (L : Layout) (heap : Heap) (k : Datum) (next : Option Data → Prog) : Prog :=
  match janetMarshal heap k with
  | some kb =>
    .call .cget 1 (arguments [.buffer kb]) fun maybe => next (unmarshalMaybe L heap maybe)
  | none => next none

/-! ### Code that uses them -/

/-- Janet code, as far as it makes, updates and gets atoms. -/
inductive Code where
  | value (x : Data)
  | error
  | make (heap : Heap) (k v : Datum) (next : Outcome → Code)
  | update (heap : Heap) (k : Datum) (f : Data → Code) (next : Outcome → Code)
  | get (heap : Heap) (k : Datum) (next : Option Data → Code)

/-- What the store sees of the code, and of what is done with its value. -/
def Code.prog (L : Layout) : Code → (Data → Prog) → Prog
  | .value x, last => last x
  | .error, _ => .error
  | .make heap k v next, last => Atom.make heap k v fun o => (next o).prog L last
  | .update heap k f next, last =>
    Atom.update L heap k (fun x last => (f x).prog L last) fun o => (next o).prog L last
  | .get heap k next, last => Atom.get L heap k fun x => (next x).prog L last

/-- A thread. Nobody sees the value of its code. -/
def Code.thread (L : Layout) (c : Code) : Prog := c.prog L fun _ => .done .nil

/-! ### What may be in a box -/

/-- A value as there are in memory that may be in the box of a key. -/
structure May (O : SlotOrder) (inv : Bytes → Data → Prop) (kb : Bytes) (x : Data) : Prop where
  heap : Marshal.WellFormed O x.2
  fits : Fits O x.1
  inv : inv kb x

/-- A copy of such a value, made of objects behind those of `heap`. -/
def CopyOfMay (O : SlotOrder) (inv : Bytes → Data → Prop) (kb : Bytes) (heap : Heap) (y : Data) :
    Prop :=
  ∃ x new R, May O inv kb x ∧ y.2 = heap ++ new ∧ IsCopy x.2 x.1 y.2 heap.length y.1 R

/-- What `get` may return: nil if there is no such box, and an error at any time. -/
def Got (O : SlotOrder) (inv : Bytes → Data → Prop) (kb : Bytes) (heap : Heap) (r : Option Data) :
    Prop :=
  ∀ y, r = some y → y = (.nil, heap) ∨ CopyOfMay O inv kb heap y

/-- The code puts only what may be there into a box, as long as it gets nothing else. At its end is
a value for `last`. -/
def Code.Keeps (O : SlotOrder) (inv : Bytes → Data → Prop) : Code → (last : Data → Prop) → Prop
  | .value x, last => last x
  | .error, _ => True
  | .make heap k v next, last =>
    (∀ kb, janetMarshal heap k = some kb → May O inv kb (v, heap)) ∧ ∀ o, (next o).Keeps O inv last
  | .update heap k f next, last =>
    (∀ kb, janetMarshal heap k = some kb → ∀ y, CopyOfMay O inv kb heap y →
      (f y).Keeps O inv (May O inv kb)) ∧ ∀ o, (next o).Keeps O inv last
  | .get heap k next, last =>
    ∀ r, (∀ kb, janetMarshal heap k = some kb → Got O inv kb heap r) → (next r).Keeps O inv last

/-- The bytes under a key are such a value, marshalled. No key of an atom is empty. -/
def Stored (O : SlotOrder) (inv : Bytes → Data → Prop) (kb b : Bytes) : Prop :=
  kb ≠ [] → ∃ x, May O inv kb x ∧ janetMarshal x.2 x.1 = some b

section

variable {O : SlotOrder} {inv : Bytes → Data → Prop} {L : Layout} {heap : Heap} {k : Datum}
  {kb b : Bytes}

/-- What is stored comes back. -/
theorem Stored.unmarshal (h : Stored O inv kb b) (hkb : kb ≠ []) (L : Layout) (heap : Heap) :
    ∃ y, janetUnmarshal L heap b = .ok y ∧ CopyOfMay O inv kb heap y := by
  obtain ⟨x, hx, hb⟩ := h hkb
  obtain ⟨y, new, R, hy, hcopy⟩ := janetUnmarshal_janetMarshal hx.heap hx.fits hb L heap []
  rw [List.append_nil] at hy
  exact ⟨(y, heap ++ new), hy, x, new, R, hx, rfl, hcopy⟩

theorem keeps_marshalled {y : Data} (hy : May O inv kb y) :
    (marshalled y).Keeps (Stored O inv) (some kb) := by
  rw [marshalled]
  split
  case h_1 b hb =>
    intro kb' b' hkb' hb'
    cases hkb'
    cases hb'
    exact fun _ => ⟨y, hy, hb⟩
  case h_2 => trivial

/-- The answer of `cget`, unmarshalled. -/
theorem got_unmarshalMaybe (hk : janetMarshal heap k = some kb) {args : List Arg} {o : Outcome}
    (ho : Comes (Stored O inv) (arguments (.buffer kb :: args)) o) :
    Got O inv kb heap (unmarshalMaybe L heap o) := by
  intro y hy
  unfold unmarshalMaybe at hy
  split at hy
  case h_1 maybe =>
    obtain ⟨y', hy', hcopy⟩ :=
      (ho kb maybe rfl rfl).unmarshal (janetMarshal_ne_nil hk) L heap
    rw [hy'] at hy
    cases hy
    exact .inr hcopy
  case h_2 =>
    cases hy
    exact .inl rfl
  case h_3 => cases hy

/-- What code that keeps to the values does is right for the bytes as well. -/
theorem Code.Keeps.prog {c : Code} {last : Data → Prop} (h : c.Keeps O inv last)
    {key : Option Bytes} {p : Data → Prog}
    (hlast : ∀ x, last x → (p x).Keeps (Stored O inv) key) :
    (c.prog L p).Keeps (Stored O inv) key := by
  induction c generalizing last key p with
  | value x => exact hlast x h
  | error => trivial
  | make heap k v next ih =>
    rw [Code.prog, Atom.make]
    split
    case h_1 kb vb hk hv =>
      refine ⟨fun kb' hkb' => ?_, fun o _ => ih o (h.2 o) hlast⟩
      cases hkb'
      exact fun _ => ⟨(v, heap), h.1 kb hk, hv⟩
    case h_2 => exact ih _ (h.2 _) hlast
  | update heap k f next ihf ih =>
    rw [Code.prog, Atom.update]
    split
    case h_1 kb hk =>
      refine ⟨fun kb' hkb' b hb => ?_, fun o _ => ih o (h.2 o) hlast⟩
      cases hkb'
      obtain ⟨y, hy, hcopy⟩ := hb.unmarshal (janetMarshal_ne_nil hk) L heap
      rw [callback, hy]
      exact ihf y (h.1 kb hk y hcopy) fun x => keeps_marshalled
    case h_2 => exact ih _ (h.2 _) hlast
  | get heap k next ih =>
    rw [Code.prog, Atom.get]
    split
    case h_1 kb hk =>
      refine ⟨fun kb' hkb' => ?_, fun o ho => ih _ (h _ fun kb' hkb' => ?_) hlast⟩
      · trivial
      · cases hk.symm.trans hkb'
        exact got_unmarshalMaybe hk ho
    case h_2 hnone =>
      refine ih _ (h _ fun kb' hkb' => ?_) hlast
      cases hnone.symm.trans hkb'

end

/-- **In every reachable state there is in every box a value that may be there**, if no thread puts
another one into it; and whoever gets it gets a copy. -/
theorem reachable_marshalled {O : SlotOrder} {inv : Bytes → Data → Prop} {m : Malloc} {ι : Type}
    [DecidableEq ι] {L : Layout} {codes : ι → Code}
    (hcodes : ∀ i, (codes i).Keeps O inv fun _ => True) {s : PoboxState ι}
    (h : Reaches (threadStep m) (initial (fun i => (codes i).thread L) ensureOffice) s)
    {kb b : Bytes} (hb : boxes s.shared.office kb = some b) :
    (∃ x, May O inv kb x ∧ janetMarshal x.2 x.1 = some b) ∧
      ∀ heap, ∃ y, janetUnmarshal L heap b = .ok y ∧ CopyOfMay O inv kb heap y := by
  have hthreads : ∀ i, ((codes i).thread L).Keeps (Stored O inv) none := by
    refine fun i => (hcodes i).prog fun _ _ kb b hkb => ?_
    cases hkb
  have hkeep := reachable_boxesKeep (fun hne => absurd rfl hne) hthreads h
  rw [boxes] at hb
  split at hb
  case isTrue => cases hb
  case isFalse hne =>
    have hstored := hkeep.1 kb b hb
    exact ⟨hstored hne, hstored.unmarshal hne L⟩

/-- Boxes of numbers, and threads that make one and update it with any function of numbers. -/
example (O : SlotOrder) (g : UInt64 → UInt64) (k : Datum) (n : UInt64) :
    Code.Keeps O (fun _ x => ∃ bits, x.1 = .number bits)
      (.make [] k (.number n) fun _ => .update [] k (fun x =>
        match x.1 with
        | .number bits => .value (.number (g bits), [])
        | _ => .error) fun _ => .error) fun _ => True := by
  have hnil : Marshal.WellFormed O [] := nofun
  refine ⟨fun kb _ => ⟨hnil, trivial, n, rfl⟩, fun _ => ⟨fun kb _ y hy => ?_, fun _ => trivial⟩⟩
  dsimp only
  split
  case h_1 bits _ => exact ⟨hnil, trivial, g bits, rfl⟩
  case h_2 => trivial

/-! ### Updates -/

/-- How code ends while its thread has the lock. -/
inductive Ending where
  | value (x : Data)
  | raised
  /-- It has come to the lock, and waits for itself. -/
  | waits

/-- Behind the lock, the code can only make calls whose key or value cannot be marshalled. -/
def Code.behindLock : Code → Ending
  | .value x => .value x
  | .error => .raised
  | .make heap k v next =>
    match janetMarshal heap k, janetMarshal heap v with
    | some _, some _ => .waits
    | _, _ => (next .raised).behindLock
  | .update heap k _ next =>
    match janetMarshal heap k with
    | some _ => .waits
    | none => (next .raised).behindLock
  | .get heap k next =>
    match janetMarshal heap k with
    | some _ => .waits
    | none => (next none).behindLock

/-- Something is done with the value, with `kb` in the key buffer. -/
def Ending.andThen (p : Data → Prog) (kb : Bytes) : Ending → CallbackEnd
  | .value x => (p x).behindLock kb
  | .raised => .raised
  | .waits => .waits

/-- The function of an `update`, for what is in the box. -/
def applied (L : Layout) (heap : Heap) (f : Data → Code) (v : Bytes) : Ending :=
  match janetUnmarshal L heap v with
  | .ok x => (f x).behindLock
  | .error _ => .raised

/-- It comes to an end, and there is room for its value, if that can be marshalled. -/
def Ending.Fine (m : Malloc) : Ending → Prop
  | .value y => ∀ b, janetMarshal y.2 y.1 = some b → m.Room b
  | .raised => True
  | .waits => False

/-- The call of `cupdate` in an `update`. -/
def updateFrame (L : Layout) (heap : Heap) (kb : Bytes) (f : Data → Code) (next : Outcome → Prog) :
    Frame where
  argc := 2
  argv := arguments [.buffer kb, .function (callback L heap fun x last => (f x).prog L last)]
  k := next

section

variable {L : Layout} {heap : Heap} {k : Datum} {kb : Bytes} {f : Data → Code}

theorem eq_updateFrame (hk : janetMarshal heap k = some kb) {next : Outcome → Prog} {fr : Frame}
    (h : update L heap k (fun x last => (f x).prog L last) next =
      .call .cupdate fr.argc fr.argv fr.k) : fr = updateFrame L heap kb f next := by
  obtain ⟨argc, argv, rest⟩ := fr
  rw [update, hk] at h
  cases h
  rfl

theorem behindLock_prog (c : Code) (p : Data → Prog) (kb : Bytes) :
    (c.prog L p).behindLock kb = c.behindLock.andThen p kb := by
  induction c with
  | value x => rfl
  | error => rfl
  | make heap k v next ih =>
    rw [Code.prog, Atom.make, Code.behindLock]
    cases janetMarshal heap k with
    | none => exact ih .raised
    | some kb₁ =>
      cases janetMarshal heap v with
      | none => exact ih .raised
      | some vb => rfl
  | update heap k f next _ ih =>
    rw [Code.prog, Atom.update, Code.behindLock]
    cases janetMarshal heap k with
    | none => exact ih .raised
    | some kb₁ => rfl
  | get heap k next ih =>
    rw [Code.prog, Atom.get, Code.behindLock]
    cases janetMarshal heap k with
    | none => exact ih none
    | some kb₁ => rfl

theorem behindLock_callback (v kb : Bytes) :
    (callback L heap (fun x last => (f x).prog L last) v).behindLock kb =
      (applied L heap f v).andThen marshalled kb := by
  rw [callback, applied]
  cases janetUnmarshal L heap v with
  | ok x => exact behindLock_prog (f x) marshalled kb
  | error => rfl

/-- The key buffer is as it was, so the result is stored under the key. -/
theorem fine_iff {m : Malloc} {office : Office} {v : Bytes} {e : Ending} (hkb : kb ≠ [])
    (hroom : m.Room kb) :
    (e.andThen marshalled kb = .raised ∨
      kb ≠ [] ∧ Returned m office kb v (e.andThen marshalled kb)) ↔ e.Fine m := by
  cases e with
  | raised => exact iff_of_true (.inl rfl) trivial
  | waits => exact iff_of_false (by simp [Ending.andThen, Returned]) id
  | value y =>
    rw [Ending.andThen, marshalled, Ending.Fine]
    cases janetMarshal y.2 y.1 with
    | none =>
      refine iff_of_true (.inl rfl) fun b hb => ?_
      cases hb
    | some b => simp [Prog.behindLock, Returned, hkb, hroom]

end

/-- **When an `update` is all or nothing**, in every reachable state of any threads: its key was
made, and its function ends, and not by waiting for itself. -/
theorem endsWell_update_iff {m : Malloc} {ι : Type} [DecidableEq ι] {progs : ι → Prog}
    {s : PoboxState ι} (hs : Reaches (threadStep m) (initial progs ensureOffice) s)
    (hcrash : s.shared.crashed = false) {L : Layout} {heap : Heap} {k : Datum} {kb : Bytes}
    (hk : janetMarshal heap k = some kb) {f : Data → Code} {next : Outcome → Prog} {fr : Frame}
    (hfr : update L heap k (fun x last => (f x).prog L last) next =
      .call .cupdate fr.argc fr.argv fr.k) (susp : List Suspended) :
    EndsWell m s.shared fr susp ↔
      s.shared.lock = none ∧ m.Room kb ∧
        ∃ v, boxes s.shared.office kb = some v ∧ (applied L heap f v).Fine m := by
  have hkb := janetMarshal_ne_nil hk
  rw [eq_updateFrame hk hfr]
  rw [endsWell_iff_of_wellFormed (reachable_wellFormed hs) hcrash, Careful]
  refine and_congr_right fun _ => ?_
  constructor
  · intro h
    obtain ⟨hroom, v, hv, hends⟩ := h rfl _ kb rfl rfl
    rw [behindLock_callback, fine_iff hkb hroom] at hends
    exact ⟨hroom, v, (if_neg hkb).trans hv, hends⟩
  · rintro ⟨hroom, v, hv, hfine⟩ - f' kb' hf' hkb'
    cases hf'
    cases hkb'
    refine ⟨hroom, v, (if_neg hkb).symm.trans hv, ?_⟩
    rwa [behindLock_callback, fine_iff hkb hroom]

end AhungryJanet.Atom
