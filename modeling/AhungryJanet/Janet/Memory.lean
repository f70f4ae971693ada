import AhungryJanet.Janet.Marshal
import Mathlib.Data.List.Forall2

/-!
# Values as there are in memory

What the results about `marshal` take for granted of the values that it is given: lengths are of 32
bits, the slots of a struct are in the one order that its entries have, and no tuple or struct holds
a NaN.

## Main results

* `Datum.induct` — induction over a value and what is in it
* `janetEquals_self` — comparing addresses first changes nothing where there is no NaN
-/

namespace AhungryJanet.Marshal

/-- To prove something of every value, prove it of a tuple and of a struct from what is in them. -/
theorem Datum.induct {P : Datum → Prop} (nil : P .nil) (boolean : ∀ b, P (.boolean b))
    (number : ∀ x, P (.number x)) (text : ∀ kind s, P (.text kind s))
    (tuple : ∀ b xs, (∀ x ∈ xs, P x) → P (.tuple b xs))
    (struct : ∀ p xs, (∀ x ∈ xs, P x) → P (.struct p xs)) (ref : ∀ a, P (.ref a)) : ∀ x, P x
  | .nil => nil
  | .boolean b => boolean b
  | .number x => number x
  | .text kind s => text kind s
  | .tuple b xs => tuple b xs fun x hx =>
    have := List.sizeOf_lt_of_mem hx
    Datum.induct nil boolean number text tuple struct ref x
  | .struct p xs => struct p xs fun x hx =>
    have := List.sizeOf_lt_of_mem hx
    Datum.induct nil boolean number text tuple struct ref x
  | .ref a => ref a

theorem equalItems_iff {xs ys : List Datum} :
    equalItems xs ys = true ↔ List.Forall₂ (fun x y => janetEquals x y = true) xs ys := by
  induction xs generalizing ys with
  | nil => cases ys <;> simp [equalItems]
  | cons x xs ih => cases ys <;> simp [equalItems, ih]

/-! ### NaN -/

mutual

/-- It is no NaN, and holds none. -/
def nanFree : Datum → Bool
  | .number x => !Marshal.isnan x
  | .tuple _ xs => nanFreeItems xs
  | .struct _ xs => nanFreeItems xs
  | _ => true

def nanFreeItems : List Datum → Bool
  | [] => true
  | x :: xs => nanFree x && nanFreeItems xs

end

theorem nanFreeItems_iff {xs : List Datum} :
    nanFreeItems xs = true ↔ ∀ x ∈ xs, nanFree x = true := by
  induction xs with
  | nil => simp [nanFreeItems]
  | cons x xs ih => simp [nanFreeItems, ih]

/-- A value without a NaN equals itself, so two of one address are found equal in any case. -/
theorem janetEquals_self {x : Datum} (h : nanFree x = true) : janetEquals x x = true := by
  have hitems : ∀ xs : List Datum, (∀ x ∈ xs, nanFree x = true → janetEquals x x = true) →
      nanFreeItems xs = true → equalItems xs xs = true := fun xs ih hxs =>
    equalItems_iff.mpr (List.forall₂_same.mpr fun x hx => ih x hx (nanFreeItems_iff.mp hxs x hx))
  induction x using Datum.induct with
  | nil => rfl
  | boolean b => simp [janetEquals]
  | number x =>
    rw [nanFree, Bool.not_eq_true'] at h
    exact doubleEq_iff.mpr ⟨h, h, .inl rfl⟩
  | text kind s => simp [janetEquals]
  | tuple b xs ih =>
    rw [janetEquals, Bool.and_eq_true, beq_iff_eq]
    exact ⟨rfl, hitems xs ih h⟩
  | struct p xs ih =>
    rw [janetEquals, Bool.and_eq_true, beq_iff_eq]
    exact ⟨rfl, hitems xs ih h⟩
  | ref a => simp [janetEquals]

/-! ### What there is -/

/-- Entries with equal keys and equal values. -/
def EqualEntry (e e' : Datum × Datum) : Prop :=
  janetEquals e.1 e'.1 = true ∧ janetEquals e.2 e'.2 = true

/-- Which entries, in which order, are the slots of a struct. The order is that of the entries
alone: it does not depend on the order in which they were put. -/
structure SlotOrder where
  settled : Entries → Prop
  unique : ∀ {kvs kvs' put put' : Entries}, settled kvs → settled kvs' → kvs.Perm put →
    kvs'.Perm put' → List.Forall₂ EqualEntry put put' → List.Forall₂ EqualEntry kvs kvs'

def Datum.isStruct : Datum → Bool
  | .struct _ _ => true
  | _ => false

variable (O : SlotOrder)

mutual

/-- A value as there are in memory, but for a NaN in a tuple or a struct. -/
def Fits : Datum → Prop
  | .text _ s => s.length ≤ int32Max
  | .tuple _ xs => xs.length ≤ int32Max ∧ nanFreeItems xs = true ∧ FitsItems xs
  | .struct hasProto xs => nanFreeItems xs = true ∧ FitsItems xs ∧ ∃ proto kvs,
    .ofEntries proto kvs = Datum.struct hasProto xs ∧ (∀ p, proto = some p → p.isStruct = true) ∧
      kvs.length < maxEntries ∧ Proper kvs ∧ O.settled kvs
  | _ => True

def FitsItems : List Datum → Prop
  | [] => True
  | x :: xs => Fits x ∧ FitsItems xs

end

variable {O}

theorem fitsItems_iff {xs : List Datum} : FitsItems O xs ↔ ∀ x ∈ xs, Fits O x := by
  induction xs with
  | nil => simp [FitsItems]
  | cons x xs ih => simp [FitsItems, ih]

variable (O)

/-- An object as there are in memory. -/
def Obj.WellFormed (heap : Heap) : Obj → Prop
  | .buffer s => s.length ≤ int32Max
  | .array xs => xs.length ≤ int32Max ∧ ∀ x ∈ xs, Fits O x
  | .table proto kvs => kvs.length < maxEntries ∧ Proper kvs ∧
    (∀ kv ∈ kvs, Fits O kv.1 ∧ Fits O kv.2) ∧
      ∀ p, proto = some p → ∃ o, heap[p]? = some o ∧ o.isTable = true

def WellFormed (heap : Heap) : Prop := ∀ (a : ℕ) (o : Obj), heap[a]? = some o → o.WellFormed O heap

end AhungryJanet.Marshal
