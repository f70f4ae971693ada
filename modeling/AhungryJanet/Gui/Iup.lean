import AhungryJanet.Janet.Value
import AhungryJanet.Library.History

/-!
# Callbacks of the user interface

`IupSetThunkCallback_wrapped` and `janet_iup_universal_cb` of `iup_wrap.c`. A Janet function cannot
be handed to the toolkit, so every registration hands it the one C callback
`janet_iup_universal_cb`, and the Janet function goes to a table of the bindings. When the toolkit
fires, the C callback is told the handle and nothing else, and looks the function up by the handle.

The toolkit is a parameter, `Iup`. What is taken of it is what `IupSetCallback` is documented to do:
the callback is called, with the handle, when the callback of that name fires on the handle, and
nothing else changes.

## Main results

* `dispatches_iff` — the function registered last for a handle and a name is the one called if and
  only if it is also the one registered last for the handle, under any name
* `fire_register_of_ne` — registering for one handle does not change what happens on another
-/

namespace AhungryJanet

open History

/-- An argument of a C function, as far as the functions here tell them apart. -/
inductive Slot where
  | pointer (ih : ℕ)
  | string (s : Bytes)
  | function (f : ℕ)
  | integer (n : ℤ)
  | other
  deriving DecidableEq

/-- How the checks of the arguments fail. -/
inductive Misuse where
  /-- `arity mismatch, expected %d, got %d`, from `janet_fixarity`. -/
  | arity (fix argc : ℕ)
  /-- `bad slot #%d, expected %T, got %v`, from `janet_panic_type`. -/
  | badSlot (n : ℕ) (expected : String)
  deriving DecidableEq

/-- `janet_getpointer`. -/
def janetGetPointer (argv : List Slot) (n : ℕ) : Except Misuse ℕ :=
  match argv[n]? with
  | some (.pointer p) => .ok p
  | _ => .error (.badSlot n "pointer")

/-- `janet_getstring`. -/
def janetGetString (argv : List Slot) (n : ℕ) : Except Misuse Bytes :=
  match argv[n]? with
  | some (.string s) => .ok s
  | _ => .error (.badSlot n "string")

/-- `janet_getfunction`. -/
def janetGetFunction (argv : List Slot) (n : ℕ) : Except Misuse ℕ :=
  match argv[n]? with
  | some (.function f) => .ok f
  | _ => .error (.badSlot n "function")

/-- The C callbacks that the registrations here hand to the toolkit. -/
inductive Icallback where
  | janetIupUniversalCb
  deriving DecidableEq

/-- What the toolkit keeps a callback for: a handle and the name of a callback, a C string. -/
structure Event where
  ih : ℕ
  name : Bytes
  deriving DecidableEq

/-- IUP, as far as callbacks go. -/
structure Iup where
  State : Type
  /-- `IupSetCallback (ih, name, func)`, which answers with the callback it replaces. -/
  setCallback : State → (ih : ℕ) → (name : Bytes) → Icallback → State × Option Icallback
  /-- What is called when a callback fires: a C callback, with a handle. -/
  calls : State → Event → Option (Icallback × ℕ)
  calls_setCallback : ∀ s ih name cb, calls (setCallback s ih name cb).1 ⟨ih, name⟩ = some (cb, ih)
  calls_setCallback_of_ne : ∀ s ih name cb e, e ≠ ⟨ih, name⟩ →
    calls (setCallback s ih name cb).1 e = calls s e

/-- The state of the bindings and of the toolkit. -/
structure Gui (T : Iup) where
  /-- `janet_iup_cbs`: a table from handles to functions, or NULL. -/
  cbs : Option (List (ℕ × Slot))
  toolkit : T.State

variable {T : Iup}

/-- Nothing is registered here yet. -/
def Gui.initial (toolkit : T.State) : Gui T := ⟨none, toolkit⟩

/-- `IupSetThunkCallback_wrapped`. The callback it answers with is what was registered before. -/
def iupSetThunkCallback (g : Gui T) (argv : List Slot) :
    Except Misuse (Gui T × Option Icallback) := do
  if argv.length ≠ 3 then throw (.arity 3 argv.length)
  let arg₀ ← janetGetPointer argv 0
  let arg₁ ← janetGetString argv 1
  let f ← janetGetFunction argv 2
  let cbs := janetTablePut (g.cbs.getD []) arg₀ (.function f)
  -- the toolkit sees the name up to its first NUL
  let (toolkit, result) := T.setCallback g.toolkit arg₀ (cstr arg₁) .janetIupUniversalCb
  return ({ cbs := some cbs, toolkit }, result)

/-- `set-action`. -/
def setAction (g : Gui T) (el f : ℕ) : Except Misuse (Gui T × Option Icallback) :=
  iupSetThunkCallback g [.pointer el, .string (ascii "ACTION"), .function f]

/-- What `janet_iup_universal_cb` does. -/
inductive Handled where
  /-- It prints a message and returns 1. -/
  | early (message : String)
  /-- It calls a Janet function, and returns what that returns as an int. -/
  | invoked (f : ℕ) (args : List Slot)
  deriving DecidableEq

/-- `janet_iup_universal_cb`. -/
def janetIupUniversalCb (g : Gui T) (ih : ℕ) (c : ℤ) : Handled :=
  match g.cbs with
  | none => .early "callback invoked before stored, leave early\n"
  | some cbs =>
    match cbs.lookup ih with
    | some (.function f) => .invoked f [.pointer ih, .integer c]
    | _ => .early "wf not defined as a function, leave early\n"

/-- A callback fires: the toolkit calls the C callback, and that handles it. -/
def fire (g : Gui T) (e : Event) (c : ℤ) : Option Handled :=
  (T.calls g.toolkit e).map fun
    | (.janetIupUniversalCb, ih) => janetIupUniversalCb g ih c

/-- A call of `set-thunk` with the arguments it expects. -/
structure Registration where
  ih : ℕ
  name : Bytes
  f : ℕ
  deriving DecidableEq

/-- What a registration is made for. -/
def Registration.event (r : Registration) : Event := ⟨r.ih, cstr r.name⟩

/-- One registration. -/
def setThunk (g : Gui T) (r : Registration) : Except Misuse (Gui T) := do
  let (g, _) ← iupSetThunkCallback g [.pointer r.ih, .string r.name, .function r.f]
  return g

/-- One registration after another. -/
def setThunks (g : Gui T) (regs : List Registration) : Except Misuse (Gui T) :=
  regs.foldlM setThunk g

/-! ### What a registration does -/

/-- What is in the table of the bindings under a handle. -/
def Gui.thunk (g : Gui T) (ih : ℕ) : Option Slot := (g.cbs.getD []).lookup ih

/-- What the toolkit calls for an event. -/
def Gui.stored (g : Gui T) (e : Event) : Option (Icallback × ℕ) := T.calls g.toolkit e

/-- The state behind a registration. -/
def Gui.register (g : Gui T) (r : Registration) : Gui T where
  cbs := some (janetTablePut (g.cbs.getD []) r.ih (.function r.f))
  toolkit := (T.setCallback g.toolkit r.ih (cstr r.name) .janetIupUniversalCb).1

/-- The checks of the arguments succeed. -/
theorem setThunk_eq (g : Gui T) (r : Registration) : setThunk g r = .ok (g.register r) := rfl

/-- `set-action` is the registration for one name. -/
theorem map_setAction (g : Gui T) (el f : ℕ) :
    (setAction g el f).map Prod.fst = .ok (g.register ⟨el, ascii "ACTION", f⟩) := rfl

theorem setThunks_eq (g : Gui T) (regs : List Registration) :
    setThunks g regs = .ok (regs.foldl Gui.register g) := by
  induction regs generalizing g with
  | nil => rfl
  | cons r regs ih =>
    rw [setThunks, List.foldlM_cons, setThunk_eq]
    exact ih (g.register r)

/-- The registrations, by what the bindings store them under. -/
def byHandle (regs : List Registration) : List (ℕ × ℕ) := regs.map fun r => (r.ih, r.f)

/-- The registrations, by what they are made for. -/
def byEvent (regs : List Registration) : List (Event × ℕ) := regs.map fun r => (r.event, r.f)

theorem lookup_janetTablePut_eq_update {κ υ : Type} [DecidableEq κ] (m : List (κ × υ)) (k : κ)
    (v : υ) : (fun k' => (janetTablePut m k v).lookup k') =
      Function.update (fun k' => m.lookup k') k (some v) := by
  funext k'
  rw [lookup_janetTablePut]
  by_cases h : k' = k
  · subst h
    simp
  · rw [Function.update_of_ne h, if_neg h]

theorem thunk_register (g : Gui T) (r : Registration) :
    (g.register r).thunk = Function.update g.thunk r.ih (some (.function r.f)) :=
  lookup_janetTablePut_eq_update (g.cbs.getD []) r.ih (.function r.f)

theorem stored_register (g : Gui T) (r : Registration) :
    (g.register r).stored =
      Function.update g.stored r.event (some (.janetIupUniversalCb, r.event.ih)) := by
  funext e
  by_cases h : e = r.event
  · subst h
    rw [Function.update_self]
    exact T.calls_setCallback _ _ _ _
  · rw [Function.update_of_ne h]
    exact T.calls_setCallback_of_ne _ _ _ _ e h

variable (toolkit : T.State)

/-- The table of the bindings remembers the last registration for each handle. -/
theorem thunk_foldl (regs : List Registration) (ih : ℕ) :
    (regs.foldl Gui.register (.initial toolkit)).thunk ih =
      (last (byHandle regs) ih).map .function := by
  rw [read_foldl (fun r : Registration => (r.ih, Slot.function r.f)) thunk_register,
    ← last_map (f := fun _ => Slot.function), byHandle, List.map_map]
  exact Option.or_none

/-- The toolkit remembers whether there is a registration for an event. -/
theorem stored_foldl {regs : List Registration} {e : Event} (h : (last (byEvent regs) e).isSome) :
    (regs.foldl Gui.register (.initial toolkit)).stored e = some (.janetIupUniversalCb, e.ih) := by
  obtain ⟨f, hf⟩ := Option.isSome_iff_exists.mp h
  have hlast : last (regs.map fun r => (r.event, (Icallback.janetIupUniversalCb, r.event.ih))) e =
      some (.janetIupUniversalCb, e.ih) := by
    have hmap := last_map (f := fun (e : Event) (_ : ℕ) => (Icallback.janetIupUniversalCb, e.ih))
      (byEvent regs) e
    rw [hf, byEvent, List.map_map] at hmap
    exact hmap
  rw [read_foldl (fun r : Registration => (r.event, (Icallback.janetIupUniversalCb, r.event.ih)))
    stored_register, hlast]
  rfl

/-! ### Firing -/

theorem fire_eq (g : Gui T) (e : Event) (c : ℤ) :
    fire g e c = (g.stored e).map fun (_, ih) => janetIupUniversalCb g ih c := rfl

theorem janetIupUniversalCb_of_thunk {g : Gui T} {ih f : ℕ} (h : g.thunk ih = some (.function f))
    (c : ℤ) : janetIupUniversalCb g ih c = .invoked f [.pointer ih, .integer c] := by
  cases hcbs : g.cbs with
  | none =>
    rw [Gui.thunk, hcbs] at h
    cases h
  | some cbs =>
    have hf : cbs.lookup ih = some (.function f) := by rwa [Gui.thunk, hcbs] at h
    simp only [janetIupUniversalCb, hcbs, hf]

theorem fire_of_stored {g : Gui T} {e : Event}
    (hstored : g.stored e = some (.janetIupUniversalCb, e.ih)) (c : ℤ) :
    fire g e c = some (janetIupUniversalCb g e.ih c) := by
  rw [fire_eq, hstored]
  rfl

/-- Registering for another handle does not change what an event does. -/
theorem fire_register_of_ne {g : Gui T} {r : Registration} {e : Event} {f : ℕ}
    (hstored : g.stored e = some (.janetIupUniversalCb, e.ih))
    (hf : g.thunk e.ih = some (.function f)) (h : r.ih ≠ e.ih) (c : ℤ) :
    fire (g.register r) e c = fire g e c := by
  have hthunk : (g.register r).thunk e.ih = some (.function f) := by
    rw [thunk_register, Function.update_of_ne (Ne.symm h), hf]
  have hevent : e ≠ r.event := fun heq => h (by rw [heq]; rfl)
  have hstored' : (g.register r).stored e = some (.janetIupUniversalCb, e.ih) := by
    rw [stored_register, Function.update_of_ne hevent, hstored]
  rw [fire_of_stored hstored', fire_of_stored hstored, janetIupUniversalCb_of_thunk hthunk,
    janetIupUniversalCb_of_thunk hf]

/-- Firing an event that is registered calls the function registered last for its handle. -/
theorem fire_foldl {regs : List Registration} {e : Event} {f : ℕ}
    (hevent : (last (byEvent regs) e).isSome) (hlast : last (byHandle regs) e.ih = some f) (c : ℤ) :
    fire (regs.foldl Gui.register (.initial toolkit)) e c =
      some (.invoked f [.pointer e.ih, .integer c]) := by
  rw [fire_of_stored (stored_foldl toolkit hevent),
    janetIupUniversalCb_of_thunk (by rw [thunk_foldl, hlast, Option.map_some])]

/-- Where an event is registered, its handle is. -/
theorem exists_last_byHandle {regs : List Registration} {e : Event} {f : ℕ}
    (h : last (byEvent regs) e = some f) : ∃ g, last (byHandle regs) e.ih = some g := by
  rw [← Option.ne_none_iff_exists', Ne, last_eq_none_iff]
  intro hnone
  obtain ⟨h₁, h₂, hsplit, -⟩ := last_eq_some_iff.mp h
  have hmem : (e, f) ∈ byEvent regs := by rw [hsplit]; simp
  obtain ⟨r, hr, hre⟩ := List.mem_map.mp hmem
  obtain ⟨rfl, rfl⟩ := Prod.mk.inj hre
  exact hnone (r.ih, r.f) (List.mem_map.mpr ⟨r, hr, rfl⟩) rfl

/-- Behind the registrations `regs`, firing the event calls the function registered last for it. -/
def Dispatches (T : Iup) (toolkit : T.State) (regs : List Registration) (e : Event) : Prop :=
  ∀ f, last (byEvent regs) e = some f → ∀ c, ∃ g, setThunks (.initial toolkit) regs = .ok g ∧
    fire g e c = some (.invoked f [.pointer e.ih, .integer c])

/-- **A callback reaches its function** if and only if no other function was registered for the
handle since, or a function was that is the same. -/
theorem dispatches_iff (T : Iup) (toolkit : T.State) (regs : List Registration) (e : Event) :
    Dispatches T toolkit regs e ↔
      ∀ f, last (byEvent regs) e = some f → last (byHandle regs) e.ih = some f := by
  constructor
  · intro hdisp f hf
    obtain ⟨g, hg⟩ := exists_last_byHandle hf
    obtain ⟨gui, hgui, hfire⟩ := hdisp f hf 0
    rw [setThunks_eq] at hgui
    cases hgui
    rw [fire_foldl toolkit (Option.isSome_of_mem hf) hg] at hfire
    cases hfire
    exact hg
  · intro hcond f hf c
    exact ⟨_, setThunks_eq (.initial toolkit) regs,
      fire_foldl toolkit (Option.isSome_of_mem hf) (hcond f hf) c⟩

/-- A toolkit that keeps a table of its callbacks. -/
def Iup.table : Iup where
  State := List (Event × Icallback)
  setCallback s ih name cb := (janetTablePut s ⟨ih, name⟩ cb, s.lookup ⟨ih, name⟩)
  calls s e := (s.lookup e).map fun cb => (cb, e.ih)
  calls_setCallback s ih name cb := by
    rw [lookup_janetTablePut, if_pos rfl]
    rfl
  calls_setCallback_of_ne s ih name cb e h := by
    rw [lookup_janetTablePut, if_neg h]

/-- The second name registered on an element takes over the first one. -/
theorem not_dispatches_dblclick :
    ¬ ∀ (T : Iup) (toolkit : T.State) (regs : List Registration) (e : Event),
      Dispatches T toolkit regs e := by
  intro h
  obtain ⟨g, hg, hfire⟩ := h .table [] [⟨1, ascii "ACTION", 10⟩, ⟨1, ascii "DBLCLICK_CB", 20⟩]
    ⟨1, ascii "ACTION"⟩ 10 (by decide) 0
  rw [setThunks_eq] at hg
  cases hg
  revert hfire
  decide

end AhungryJanet
