import AhungryJanet.Janet.Value
import AhungryJanet.Library.Probing
import Mathlib.Data.List.Count

/-!
# Hash tables

The tables of Janet: a power of two of slots, more than twice as many as there are entries. A key is
looked for from the slot that its hash names, around the end, up to an empty slot. An entry that is
removed leaves its slot deleted, so that looking for another key goes on behind it.

A key is `κ` up to `janet_equals`. It is neither nil nor a NaN, nor does it hold a NaN, as a tuple
may: such a key does not equal itself. A slot is empty if its key and its value are nil, and deleted
if its key is nil and its value is false. A result of `none` is a table that there is no memory for,
or a NULL that is written or read through.

## Main results

* `janetTablen_spec`, `janetTablen_of_le` — the next power of two, as long as it is an `int`
* `Layout.find_of_live`, `Layout.find_of_notLive` — looking for a key
* `Layout.set_live`, `Layout.set_used` — writing a slot
-/

namespace AhungryJanet.HashTable

open Probing

/-! ### Sizes -/

/-- An `int32_t`. One that overflows is taken to wrap, as `janet_struct_begin` counts on. -/
def int32 (n : ℤ) : ℤ := Int.bmod n (2 ^ 32)

/-- `janet_tablen`. -/
def janetTablen (n : ℤ) : ℤ :=
  if n < 0 then 0
  else
    let n := n.toNat
    let n := n ||| n >>> 1
    let n := n ||| n >>> 2
    let n := n ||| n >>> 4
    let n := n ||| n >>> 8
    let n := n ||| n >>> 16
    int32 (n + 1)

theorem int32_eq {n : ℤ} (h : -2 ^ 31 ≤ n) (h' : n < 2 ^ 31) : int32 n = n :=
  Int.bmod_eq_of_le (by omega) (by omega)

theorem janetTablen_natCast {n : ℕ} (h : n < 2 ^ 32) : janetTablen n = int32 (2 ^ n.size : ℕ) := by
  have hsmear := smeared_add_one (smeared_one n).double.double.double.double.double h
  rw [janetTablen, if_neg (by omega), ← hsmear]
  rfl

/-- The power of two above `n`: for 0 it is 1, not 0 as the comment of the source says. -/
theorem janetTablen_spec {n : ℕ} (h : n < 2 ^ 30) : janetTablen n = (2 ^ n.size : ℕ) := by
  have hle : 2 ^ n.size ≤ 2 ^ 30 := Nat.pow_le_pow_right Nat.two_pos (Nat.size_le.mpr h)
  rw [janetTablen_natCast (by omega)]
  generalize 2 ^ n.size = size at hle ⊢
  exact int32_eq (by omega) (by omega)

/-- From `2 ^ 30` on it overflows. -/
theorem janetTablen_of_le {n : ℕ} (h : 2 ^ 30 ≤ n) (h' : n < 2 ^ 31) :
    janetTablen n = -2 ^ 31 := by
  have hsize : n.size = 31 := le_antisymm (Nat.size_le.mpr h') (Nat.lt_size.mpr h)
  rw [janetTablen_natCast (by omega), hsize]
  rfl

/-! ### Slots -/

/-- `JanetKV`. -/
inductive Bucket (κ υ : Type) where
  | empty
  | deleted
  | live (key : κ) (value : υ)

/-- `JanetTable`, without its prototype. The capacity is the length of the data. -/
structure Table (κ υ : Type) where
  count : ℕ
  deleted : ℕ
  data : List (Bucket κ υ)

section

variable {κ υ : Type}

def Bucket.key? : Bucket κ υ → Option κ
  | .live k _ => some k
  | _ => none

def Bucket.isLive : Bucket κ υ → Bool
  | .live _ _ => true
  | _ => false

def Bucket.isDeleted : Bucket κ υ → Bool
  | .deleted => true
  | _ => false

def Bucket.pair? : Bucket κ υ → Option (κ × υ)
  | .live k v => some (k, v)
  | _ => none

@[simp] theorem key?_empty : (.empty : Bucket κ υ).key? = none := rfl

@[simp] theorem key?_deleted : (.deleted : Bucket κ υ).key? = none := rfl

@[simp] theorem key?_live (k : κ) (v : υ) : (Bucket.live k v).key? = some k := rfl

@[simp] theorem pair?_empty : (.empty : Bucket κ υ).pair? = none := rfl

@[simp] theorem pair?_deleted : (.deleted : Bucket κ υ).pair? = none := rfl

@[simp] theorem pair?_live (k : κ) (v : υ) : (Bucket.live k v).pair? = some (k, v) := rfl

/-- The key at a slot. -/
def keyAt (data : List (Bucket κ υ)) (i : ℕ) : Option κ := data[i]?.bind Bucket.key?

/-- The slot is not empty. -/
def usedAt (data : List (Bucket κ υ)) (i : ℕ) : Bool :=
  match data[i]? with
  | some .empty => false
  | _ => true

variable {data : List (Bucket κ υ)}

theorem keyAt_eq_some_iff {i : ℕ} {k : κ} :
    keyAt data i = some k ↔ ∃ v, data[i]? = some (.live k v) := by
  unfold keyAt
  rcases data[i]? with _ | (_ | _ | ⟨k', v'⟩) <;> simp [Bucket.key?]

theorem usedAt_eq_false_iff {i : ℕ} : usedAt data i = false ↔ data[i]? = some .empty := by
  unfold usedAt
  rcases data[i]? with _ | (_ | _ | ⟨k', v'⟩) <;> simp

theorem lt_of_getElem?_eq {i : ℕ} {slot : Bucket κ υ} (h : data[i]? = some slot) :
    i < data.length := (List.getElem?_eq_some_iff.mp h).1

theorem keyAt_set {i : ℕ} (hi : i < data.length) (slot : Bucket κ υ) :
    keyAt (data.set i slot) = Function.update (keyAt data) i slot.key? := by
  funext j
  unfold keyAt
  by_cases hj : j = i
  · subst hj
    rw [List.getElem?_set_self hi, Function.update_self]
    rfl
  · rw [List.getElem?_set_ne (Ne.symm hj), Function.update_of_ne hj]

theorem usedAt_set {i : ℕ} (hi : i < data.length) {slot : Bucket κ υ} (hslot : slot ≠ .empty)
    (j : ℕ) : usedAt (data.set i slot) j = true ↔ j = i ∨ usedAt data j = true := by
  unfold usedAt
  by_cases hj : j = i
  · subst hj
    rw [List.getElem?_set_self hi]
    rcases slot with _ | _ | ⟨k, v⟩ <;> simp at hslot ⊢
  · rw [List.getElem?_set_ne (Ne.symm hj)]
    simp [hj]

/-- `janet_maphash`. -/
def maphash (cap : ℕ) (hash : Int32) : ℕ := hash.toUInt32.toNat &&& (cap - 1)

variable [DecidableEq κ] (hash : κ → Int32)

/-- The loops of `janet_dict_find`, with `first_bucket`. -/
def findLoop (data : List (Bucket κ υ)) (key : κ) : List ℕ → Option ℕ → Option ℕ
  | [], firstBucket => firstBucket
  | i :: rest, firstBucket =>
    match data[i]? with
    | some .empty => some i
    | some .deleted => findLoop data key rest (firstBucket.or (some i))
    | some (.live k _) => if k = key then some i else findLoop data key rest firstBucket
    | none => findLoop data key rest firstBucket

/-- `janet_dict_find`: a bucket, or NULL. -/
def dictFind (data : List (Bucket κ υ)) (key : κ) : Option ℕ :=
  findLoop data key (probe data.length (maphash data.length (hash key))) none

/-- `janet_memalloc_empty`. A negative count stands for more than all memory. -/
def memallocEmpty (count : ℤ) : Option (List (Bucket κ υ)) :=
  if count < 0 then none else some (List.replicate count.toNat .empty)

/-- `janet_table`. -/
def janetTable (capacity : ℤ) : Option (Table κ υ) :=
  (memallocEmpty (janetTablen capacity)).map (⟨0, 0, ·⟩)

/-- The value of a bucket that is there and has a key. -/
def bucketValue (data : List (Bucket κ υ)) (bucket : Option ℕ) : Option υ :=
  match bucket.bind (data[·]?) with
  | some (.live _ v) => some v
  | _ => none

/-- `janet_table_rawget`. -/
def rawget (t : Table κ υ) (key : κ) : Option υ := bucketValue t.data (dictFind hash t.data key)

/-- The loop of `janet_table_rehash`. -/
def rehashLoop : List (Bucket κ υ) → List (Bucket κ υ) → Option (List (Bucket κ υ))
  | [], data => some data
  | .live k v :: rest, data => do
    let newkv ← dictFind hash data k
    rehashLoop rest (data.set newkv (.live k v))
  | _ :: rest, data => rehashLoop rest data

/-- `janet_table_rehash`. -/
def rehash (t : Table κ υ) (size : ℤ) : Option (Table κ υ) := do
  let newdata ← memallocEmpty size
  let data ← rehashLoop hash t.data newdata
  return ⟨t.count, 0, data⟩

/-- `janet_table_remove`. -/
def remove (t : Table κ υ) (key : κ) : Option υ × Table κ υ :=
  match dictFind hash t.data key with
  | none => (none, t)
  | some bucket =>
    match t.data[bucket]? with
    | some (.live _ v) => (some v, ⟨t.count - 1, t.deleted + 1, t.data.set bucket .deleted⟩)
    | _ => (none, t)

/-- A key that is not there is put into the bucket that is found for it. -/
def putInto (t : Table κ υ) (key : κ) (value : υ) : Option (Table κ υ) :=
  match dictFind hash t.data key with
  | none => none
  | some bucket =>
    let deleted :=
      match t.data[bucket]? with
      | some .deleted => t.deleted - 1
      | _ => t.deleted
    some ⟨t.count + 1, deleted, t.data.set bucket (.live key value)⟩

/-- What `janet_table_put` and `janet_table_put_no_overwrite` do for a key that is not there. -/
def putNew (t : Table κ υ) (key : κ) (value : υ) : Option (Table κ υ) :=
  if dictFind hash t.data key = none ∨ 2 * (t.count + t.deleted + 1) > t.data.length then
    (rehash hash t (janetTablen (int32 (2 * t.count + 2)))).bind fun t => putInto hash t key value
  else putInto hash t key value

/-- `janet_table_put`: a key of `none` is nil or a NaN, a value of `none` is nil. -/
def put (t : Table κ υ) : Option κ → Option υ → Option (Table κ υ)
  | none, _ => some t
  | some key, none => some (remove hash t key).2
  | some key, some value =>
    match bucketValue t.data (dictFind hash t.data key), dictFind hash t.data key with
    | some _, some bucket => some { t with data := t.data.set bucket (.live key value) }
    | _, _ => putNew hash t key value

/-- `janet_table_put_no_overwrite`. -/
def putNoOverwrite (t : Table κ υ) (key : κ) (value : υ) : Option (Table κ υ) :=
  match bucketValue t.data (dictFind hash t.data key) with
  | some _ => some t
  | none => putNew hash t key value

/-- `janet_table_clear`. -/
def clear (t : Table κ υ) : Table κ υ := ⟨0, 0, List.replicate t.data.length .empty⟩

/-- `janet_table_mergekv`. -/
def mergekv (t : Table κ υ) : List (Bucket κ υ) → Option (Table κ υ)
  | [] => some t
  | .live k v :: kvs => do
    let t ← put hash t (some k) (some v)
    mergekv t kvs
  | _ :: kvs => mergekv t kvs

/-- The loop of `janet_table_proto_flatten` over the slots of one table. -/
def flattenLoop : List (Bucket κ υ) → Table κ υ → Option (Table κ υ)
  | [], newTable => some newTable
  | .live k v :: kvs, newTable => do
    let newTable ← putNoOverwrite hash newTable k v
    flattenLoop kvs newTable
  | _ :: kvs, newTable => flattenLoop kvs newTable

/-- `janet_table_proto_flatten`, of a table and its prototypes. -/
def protoFlatten (protos : List (Table κ υ)) : Option (Table κ υ) := do
  let newTable ← janetTable 0
  protos.foldlM (fun newTable t => flattenLoop hash t.data newTable) newTable

/-- `JANET_MAX_PROTO_DEPTH`. -/
def maxProtoDepth : ℕ := 200

/-- `janet_table_get`, of a table and its prototypes. -/
def janetTableGet (protos : List (Table κ υ)) (key : κ) : Option υ :=
  (protos.take maxProtoDepth).findSome? fun t => rawget hash t key

/-- `janet_next_impl` of a table: the first key, or the one behind the bucket that is found for a
key. -/
def janetNext (data : List (Bucket κ υ)) (key : Option κ) : Option (Option κ) := do
  let start ←
    match key with
    | none => some 0
    | some key => (dictFind hash data key).map (· + 1)
  return (data.drop start).findSome? Bucket.key?

variable {hash}

/-- Looking for a key ends where the library says. -/
theorem findLoop_of_find? {key : κ} {l : List ℕ} {s : ℕ} (firstBucket : Option ℕ)
    (h : l.find? (stops (keyAt data) (usedAt data · = true) key) = some s) :
    findLoop data key l firstBucket = some s := by
  induction l generalizing firstBucket with
  | nil => cases h
  | cons i l ih =>
    rw [List.find?_cons] at h
    rw [findLoop]
    rcases hslot : data[i]? with _ | (_ | _ | ⟨k', v'⟩)
    · have hstop : stops (keyAt data) (usedAt data · = true) key i = false := by
        simp [stops, keyAt, usedAt, hslot]
      rw [hstop] at h
      exact ih _ h
    · have hstop : stops (keyAt data) (usedAt data · = true) key i = true := by
        simp [stops, usedAt, hslot]
      rw [hstop] at h
      exact h
    · have hstop : stops (keyAt data) (usedAt data · = true) key i = false := by
        simp [stops, keyAt, usedAt, hslot]
      rw [hstop] at h
      exact ih _ h
    · have hstop : stops (keyAt data) (usedAt data · = true) key i = decide (k' = key) := by
        simp [stops, keyAt, usedAt, hslot]
      rw [hstop] at h
      by_cases hk : k' = key
      · simpa [hk] using h
      · simp only [if_neg hk]
        exact ih _ (by simpa [hk] using h)

/-- The slots are right: a power of two of them, no key twice, and every key can be found. -/
structure Layout (hash : κ → Int32) (data : List (Bucket κ υ)) : Prop where
  size : ∃ j, data.length = 2 ^ j
  reachable : Reachable data.length (fun k => maphash data.length (hash k)) (keyAt data)
    (usedAt data · = true)
  key_inj : ∀ s s' k, s < data.length → s' < data.length → keyAt data s = some k →
    keyAt data s' = some k → s = s'

theorem maphash_lt {cap : ℕ} (h : ∃ j, cap = 2 ^ j) (hash : Int32) : maphash cap hash < cap := by
  obtain ⟨j, rfl⟩ := h
  rw [maphash, Nat.and_two_pow_sub_one_eq_mod]
  exact Nat.mod_lt _ (Nat.two_pow_pos j)

/-- A key that is there is found. -/
theorem Layout.find_of_live {i : ℕ} {k : κ} {v : υ} (h : Layout hash data)
    (hi : data[i]? = some (.live k v)) : dictFind hash data k = some i :=
  findLoop_of_find? none (find?_probe_of_key h.reachable h.key_inj (maphash_lt h.size _)
    (lt_of_getElem?_eq hi) (keyAt_eq_some_iff.mpr ⟨v, hi⟩))

/-- For a key that is not there an empty slot is found, never a deleted one. -/
theorem Layout.find_of_notLive {k : κ} (h : Layout hash data)
    (hno : ∀ (i : ℕ) (v : υ), data[i]? ≠ some (.live k v))
    (hfree : ∃ i : ℕ, data[i]? = some .empty) :
    ∃ i : ℕ, data[i]? = some .empty ∧ dictFind hash data k = some i ∧
      ∀ n < distance data.length (maphash data.length (hash k)) i,
        usedAt data ((maphash data.length (hash k) + n) % data.length) = true := by
  have hnokey : ∀ s < data.length, keyAt data s ≠ some k := by
    intro s _ hs
    obtain ⟨v, hv⟩ := keyAt_eq_some_iff.mp hs
    exact hno s v hv
  obtain ⟨i₀, hi₀⟩ := hfree
  obtain ⟨i, hi, hempty, hway, hfind⟩ :=
    find?_probe_of_unused (fun k => maphash data.length (hash k)) (usedAt data · = true)
      (maphash_lt h.size _) hnokey
      ⟨i₀, lt_of_getElem?_eq hi₀, by simp [usedAt_eq_false_iff.mpr hi₀]⟩
  exact ⟨i, usedAt_eq_false_iff.mp (eq_false_of_ne_true hempty), findLoop_of_find? none hfind, hway⟩

/-! ### Writing a slot -/

omit [DecidableEq κ] in
/-- A key that is not there is put where looking for it has ended. -/
theorem Layout.set_live {i : ℕ} {k : κ} (h : Layout hash data) (v : υ)
    (hno : ∀ (i : ℕ) (v : υ), data[i]? ≠ some (.live k v)) (hi : i < data.length)
    (hway : ∀ n < distance data.length (maphash data.length (hash k)) i,
      usedAt data ((maphash data.length (hash k) + n) % data.length) = true) :
    Layout hash (data.set i (.live k v)) := by
  have hkey : keyAt (data.set i (.live k v)) = Function.update (keyAt data) i (some k) :=
    keyAt_set hi _
  refine ⟨by simpa using h.size, ?_, ?_⟩
  · have hins := h.reachable.insert (k := k) (s := i) hway
    rw [List.length_set, hkey]
    intro s k' hs hk' n hn
    exact (usedAt_set hi (by simp) _).mpr (hins s k' hs hk' n hn)
  · rw [List.length_set, hkey]
    have hold : ∀ s, keyAt data s ≠ some k := by
      intro s hs
      obtain ⟨v', hv'⟩ := keyAt_eq_some_iff.mp hs
      exact hno s v' hv'
    intro s s' k' hs hs' hk hk'
    by_cases hsi : s = i <;> by_cases hsi' : s' = i
    · rw [hsi, hsi']
    · rw [hsi, Function.update_self] at hk
      cases hk
      rw [Function.update_of_ne hsi'] at hk'
      exact absurd hk' (hold s')
    · rw [hsi', Function.update_self] at hk'
      cases hk'
      rw [Function.update_of_ne hsi] at hk
      exact absurd hk (hold s)
    · rw [Function.update_of_ne hsi] at hk
      rw [Function.update_of_ne hsi'] at hk'
      exact h.key_inj s s' k' hs hs' hk hk'

omit [DecidableEq κ] in
/-- A slot that is used stays so, and gets no other key: the layout is as right as before. -/
theorem Layout.set_used {i : ℕ} {slot : Bucket κ υ} (h : Layout hash data)
    (hi : usedAt data i = true) (hlen : i < data.length) (hslot : slot ≠ .empty)
    (hkey : ∀ k, slot.key? = some k → keyAt data i = some k) : Layout hash (data.set i slot) := by
  have hused : ∀ j, usedAt (data.set i slot) j = true ↔ usedAt data j = true := by
    intro j
    rw [usedAt_set hlen hslot]
    exact or_iff_right_of_imp fun hj => hj ▸ hi
  have hkeys : ∀ s k, keyAt (data.set i slot) s = some k → keyAt data s = some k := by
    intro s k hs
    rw [keyAt_set hlen] at hs
    by_cases hsi : s = i
    · subst hsi
      rw [Function.update_self] at hs
      exact hkey k hs
    · rwa [Function.update_of_ne hsi] at hs
  refine ⟨by simpa using h.size, ?_, ?_⟩
  · rw [List.length_set]
    intro s k hs hk n hn
    exact (hused _).mpr (h.reachable s k hs (hkeys s k hk) n hn)
  · rw [List.length_set]
    intro s s' k hs hs' hk hk'
    exact h.key_inj s s' k hs hs' (hkeys s k hk) (hkeys s' k hk')

end

end AhungryJanet.HashTable
