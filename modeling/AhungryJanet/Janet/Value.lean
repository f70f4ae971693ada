import Mathlib.Data.List.TakeWhile

/-!
# Janet values and panics

The data the modelled programs pass around. A byte sequence is a `List UInt8`; it knows its
length, as a Janet string or buffer does, and may contain NUL. What a C function sees of it is
`cstr`: the bytes before the first NUL.

A number is the bit pattern of its IEEE double. No modelled function computes with doubles, so
printing and scanning them are parameters where they occur.

## Tables

A struct or a table is the list of its entries in the order in which `janet_dictionary_view`
walks its slots. The hash that decides this order is not modelled: everything below holds for
every order.
-/

namespace AhungryJanet

/-- A byte sequence with a length of its own. -/
abbrev Bytes := List UInt8

/-- `INT32_MAX`. -/
def int32Max : ℕ := 2147483647

/-- Statements about the bytes of a sequence are decided by going through it, not through all
bytes. -/
instance (b : Bytes) (P : UInt8 → Prop) [DecidablePred P] : Decidable (∀ c ∈ b, P c) :=
  List.decidableBAll P b

/-- The bytes of a text made of ASCII characters. -/
def ascii (s : String) : Bytes := s.toList.map fun c => UInt8.ofNat c.toNat

/-- What `strlen`, `strstr` and `%s` see: the bytes before the first NUL. -/
def cstr (b : Bytes) : Bytes := b.takeWhile (· ≠ 0)

/-- No byte is NUL. -/
def NulFree (b : Bytes) : Prop := ∀ c ∈ b, c ≠ 0

instance (b : Bytes) : Decidable (NulFree b) := inferInstanceAs (Decidable (∀ c ∈ b, c ≠ 0))

theorem cstr_of_nulFree {b : Bytes} (h : NulFree b) : cstr b = b :=
  List.takeWhile_eq_self_iff.mpr fun c hc => by simpa using h c hc

theorem nulFree_cstr (b : Bytes) : NulFree (cstr b) := fun c hc => by
  simpa using List.mem_takeWhile_imp hc

theorem cstr_eq_self_iff {b : Bytes} : cstr b = b ↔ NulFree b :=
  ⟨fun h => h ▸ nulFree_cstr b, cstr_of_nulFree⟩

theorem NulFree.append {a b : Bytes} (ha : NulFree a) (hb : NulFree b) : NulFree (a ++ b) :=
  fun c hc => (List.mem_append.mp hc).elim (ha c) (hb c)

/-- A terminator hides what follows it. -/
theorem cstr_append_cons_zero (a b : Bytes) : cstr (a ++ 0 :: b) = cstr a := by
  induction a with
  | nil => simp [cstr]
  | cons c a ih =>
    simp only [cstr, List.cons_append, List.takeWhile_cons] at ih ⊢
    rw [ih]

theorem cstr_append {a : Bytes} (ha : NulFree a) (b : Bytes) : cstr (a ++ b) = a ++ cstr b :=
  List.takeWhile_append_of_pos fun c hc => by simpa using ha c hc

theorem cstr_append_zero {a : Bytes} (ha : NulFree a) (b : Bytes) : cstr (a ++ 0 :: b) = a := by
  rw [cstr_append_cons_zero, cstr_of_nulFree ha]

theorem forall_byte {P : UInt8 → Prop} (h : ∀ n < 256, P (UInt8.ofNat n)) (c : UInt8) : P c := by
  have hc := h c.toNat c.toNat_lt
  rwa [UInt8.ofNat_toNat] at hc

/-- `isdigit`. -/
def isdigit (c : UInt8) : Bool := 48 ≤ c && c ≤ 57

/-- The value of a run of decimal digits. -/
def decimal (digits : Bytes) : ℕ := digits.foldl (fun n c => n * 10 + (c.toNat - 48)) 0

/-- A Janet value, as far as the modelled functions tell values apart. -/
inductive Value where
  | nil
  | boolean (b : Bool)
  | number (bits : UInt64)
  | string (s : Bytes)
  | symbol (s : Bytes)
  | keyword (s : Bytes)
  | buffer (s : Bytes)
  | tuple (bracketed : Bool) (items : List Value)
  | array (items : List Value)
  | struct (kvs : List (Value × Value))
  | table (kvs : List (Value × Value))
  /-- Functions, fibers, abstract values and pointers. -/
  | other (address : ℕ)

/-- `janet_table_put` with a value that is not nil: overwrite the entry of an equal key, or add
one. -/
def janetTablePut {κ υ : Type} [DecidableEq κ] : List (κ × υ) → κ → υ → List (κ × υ)
  | [], k, v => [(k, v)]
  | (k', v') :: m, k, v =>
    if k' = k then (k, v) :: m else (k', v') :: janetTablePut m k v

private theorem lookup_cons_eq_ite {κ υ : Type} [BEq κ] [LawfulBEq κ] [DecidableEq κ] (k k' : κ)
    (v : υ) (m : List (κ × υ)) :
    ((k, v) :: m).lookup k' = if k' = k then some v else m.lookup k' := by
  rw [List.lookup_cons]
  by_cases h : k' = k
  · simp [h]
  · rw [if_neg h, beq_false_of_ne h]

theorem lookup_janetTablePut {κ υ : Type} [BEq κ] [LawfulBEq κ] [DecidableEq κ] (m : List (κ × υ))
    (k : κ) (v : υ) (k' : κ) :
    (janetTablePut m k v).lookup k' = if k' = k then some v else m.lookup k' := by
  induction m with
  | nil => exact lookup_cons_eq_ite k k' v []
  | cons e m ih =>
    obtain ⟨k₀, v₀⟩ := e
    rw [janetTablePut]
    by_cases h₀ : k₀ = k
    · subst h₀
      rw [if_pos rfl, lookup_cons_eq_ite, lookup_cons_eq_ite]
      split <;> rfl
    · rw [if_neg h₀, lookup_cons_eq_ite, lookup_cons_eq_ite, ih]
      by_cases h : k' = k₀
      · rw [if_pos h, if_pos h, if_neg (h ▸ h₀)]
      · rw [if_neg h, if_neg h]

theorem mem_keys_janetTablePut {κ υ : Type} [DecidableEq κ] {m : List (κ × υ)} {k k' : κ} {v : υ} :
    k' ∈ (janetTablePut m k v).map Prod.fst ↔ k' = k ∨ k' ∈ m.map Prod.fst := by
  induction m with
  | nil => simp [janetTablePut]
  | cons e m ih =>
    obtain ⟨k₀, v₀⟩ := e
    rw [janetTablePut]
    split
    case isTrue h => simp [h]
    case isFalse h =>
      rw [List.map_cons, List.mem_cons, ih, List.map_cons, List.mem_cons]
      exact or_left_comm

/-- A new key goes to the end. -/
theorem janetTablePut_of_notMem {κ υ : Type} [DecidableEq κ] {m : List (κ × υ)} {k : κ}
    (h : k ∉ m.map Prod.fst) (v : υ) : janetTablePut m k v = m ++ [(k, v)] := by
  induction m with
  | nil => rfl
  | cons e m ih =>
    rw [List.map_cons, List.mem_cons, not_or] at h
    rw [janetTablePut, if_neg (Ne.symm h.1), ih h.2]
    rfl

/-- Why a call left by `janet_panic` instead of returning. -/
inductive Panic where
  /-- No panic: the behaviour of the C code is undefined, and nothing is said of what follows. -/
  | undefined
  /-- `expected non-empty pattern`, from `kmp_init`. -/
  | emptyPattern
  /-- `bytes contain embedded 0s`, from `janet_getcbytes`. -/
  | embeddedZeros
  /-- `janet_panic_type`: a slot does not hold what the function expects. -/
  | badSlot (slot : ℕ)
  /-- `item %d of parts is not a byte sequence`, from `string/join`. -/
  | badPart (item : ℕ)
  /-- `index out of range`, from `janet_gethalfrange`. -/
  | outOfRange
  /-- `result string too long`, from `string/join`. -/
  | tooLong
  /-- `file is closed`, from `file/read`. -/
  | fileClosed
  /-- `expected integer key for %s in range [0, %d)`, from `getter_checkint`. -/
  | badKey
  /-- `can only put integers in buffers`, from `janet_put`. -/
  | notInteger
  /-- `encode error: %s`. -/
  | jsonEncode (why : Bytes)
  /-- `decode error at position %d: %s`. -/
  | jsonDecode (position : ℕ) (why : Bytes)
  deriving DecidableEq

/-- A call that returns or panics. -/
abbrev Call (α : Type) := Except Panic α

/-- A chain of fallible steps succeeds if each of them does. -/
theorem bind_eq_ok_iff {ε α β : Type} {x : Except ε α} {f : α → Except ε β} {b : β} :
    (x >>= f) = .ok b ↔ ∃ a, x = .ok a ∧ f a = .ok b := by
  cases x <;> simp [bind, Except.bind]

end AhungryJanet
