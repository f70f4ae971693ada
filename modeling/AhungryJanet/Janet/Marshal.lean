import AhungryJanet.Janet.Integers

/-!
# Marshalling

`marshal` and `unmarshal`: data as bytes, with what occurs more than once marshalled once. A buffer,
an array or a table has an address, and data that refers to it may be shared or go around in a
circle; so `marshal` keeps the values that it has seen, and writes the number of one that comes
again. `unmarshal` keeps what it has read under the same numbers.

## What is modelled

Called with the value alone, as `com.ahungry.conc.atom` calls them: there is no registry, references
are kept, and raw pointers are refused. Functions, fibers, abstract values and pointers are not
among the values. The buffer that is written to does not grow beyond `INT32_MAX`.

Tuples and structs have no address here. `janet_equals` takes two of one address for equal without
looking into them, which makes a difference only if they hold a NaN (`janetEquals_self`). The
results are about those that hold none.
-/

namespace AhungryJanet.Marshal

/-! ### Values -/

inductive TextKind where
  | string
  | symbol
  | keyword
  deriving DecidableEq

/-- A value: buffers, arrays and tables are references to what is at an address. In a struct are its
prototype, if it has one, and then its keys and values in turn, in the order of its slots. -/
inductive Datum where
  | nil
  | boolean (b : Bool)
  | number (bits : UInt64)
  | text (kind : TextKind) (s : Bytes)
  | tuple (bracketed : Bool) (items : List Datum)
  | struct (hasProto : Bool) (items : List Datum)
  | ref (address : ℕ)

abbrev Entries := List (Datum × Datum)

/-- What is at an address. The entries of a table are in the order of its slots. -/
inductive Obj where
  | buffer (s : Bytes)
  | array (items : List Datum)
  | table (proto : Option ℕ) (kvs : Entries)

abbrev Heap := List Obj

def Datum.isnan : Datum → Bool
  | .number x => Marshal.isnan x
  | _ => false

def Obj.isTable : Obj → Bool
  | .table _ _ => true
  | _ => false

mutual

/-- `janet_equals`. -/
def janetEquals : Datum → Datum → Bool
  | .nil, .nil => true
  | .boolean b, .boolean b' => b == b'
  | .number x, .number y => doubleEq x y
  | .text kind s, .text kind' s' => kind = kind' ∧ s = s'
  | .tuple b xs, .tuple b' ys => b == b' && equalItems xs ys
  | .struct p xs, .struct p' ys => p == p' && equalItems xs ys
  | .ref a, .ref a' => a == a'
  | _, _ => false

def equalItems : List Datum → List Datum → Bool
  | [], [] => true
  | x :: xs, y :: ys => janetEquals x y && equalItems xs ys
  | _, _ => false

end

/-! ### `marshal` -/

/-- The values that were seen are under their numbers, the last one first. -/
structure MarshalState where
  buf : Bytes
  seen : List (Datum × ℕ)
  nextid : ℕ

def MarshalState.push (st : MarshalState) (bytes : Bytes) : MarshalState :=
  { st with buf := st.buf ++ bytes }

/-- `MARK_SEEN`. A table takes no NaN as a key. -/
def MarshalState.markSeen (st : MarshalState) (x : Datum) : MarshalState :=
  { st with
    seen := if x.isnan then st.seen else (x, st.nextid) :: st.seen
    nextid := st.nextid + 1 }

/-- What `st->seen` has for a value. -/
def MarshalState.seenId (st : MarshalState) (x : Datum) : Option ℕ :=
  (st.seen.find? fun e => janetEquals e.1 x).map Prod.snd

def TextKind.lead : TextKind → UInt8
  | .string => 206
  | .symbol => 207
  | .keyword => 208

/-- The simple primitives, which are not kept. -/
def simple : Datum → Option Bytes
  | .nil => some [201]
  | .boolean b => some [if b then 203 else 202]
  | .number x => (checkintrange x).map pushint
  | _ => none

/-- What is written of an object before the values in it. -/
def Obj.header : Obj → Bytes
  | .buffer s => 214 :: (pushint s.length ++ s)
  | .array items => 209 :: pushint items.length
  | .table proto kvs => (if proto.isSome then 212 else 211) :: pushint kvs.length

/-- The keys and values of entries, in turn. -/
def flatten (kvs : Entries) : List Datum := kvs.flatMap fun kv => [kv.1, kv.2]

/-- The values in an object. A table's prototype comes first. -/
def Obj.children : Obj → List Datum
  | .buffer _ => []
  | .array items => items
  | .table proto kvs => (proto.map Datum.ref).toList ++ flatten kvs

/-- `marshal_one`, which goes no deeper than `guard`; behind that is the panic `stack overflow`. -/
def marshalOne (heap : Heap) : (guard : ℕ) → MarshalState → Datum → Option MarshalState
  | 0, _, _ => none
  | guard + 1, st, x =>
    match simple x with
    | some bytes => some (st.push bytes)
    | none =>
      match st.seenId x with
      | some id => some (st.push (218 :: pushint id))
      | none =>
        match x with
        | .number bits => some ((st.push (200 :: realBytes bits)).markSeen x)
        | .text kind s => some ((st.markSeen x).push (kind.lead :: (pushint s.length ++ s)))
        | .tuple b items =>
          -- marked behind its items
          (items.foldlM (marshalOne heap guard)
            (st.push (210 :: (pushint items.length ++ pushint (if b then 1 else 0))))).map
            (·.markSeen x)
        | .struct hasProto items =>
          (items.foldlM (marshalOne heap guard)
            (st.push ((if hasProto then 223 else 213) :: pushint (items.length / 2 : ℕ)))).map
            (·.markSeen x)
        | .ref a =>
          match heap[a]? with
          | some o => o.children.foldlM (marshalOne heap guard) ((st.markSeen x).push o.header)
          | none => none
        | _ => none

/-- `JANET_RECURSION_GUARD`, and the first level. -/
def recursionLevels : ℕ := 1025

/-- `(marshal x)`. -/
def janetMarshal (heap : Heap) (x : Datum) : Option Bytes :=
  match marshalOne heap recursionLevels ⟨[], [], 0⟩ x with
  | some st => if st.buf.length ≤ int32Max then some st.buf else none
  | none => none

/-! ### `unmarshal` -/

/-- The objects there are, and what was read so far under its numbers. -/
structure UnmarshalState where
  heap : Heap
  lookup : List Datum

/-- `janet_v_push (st->lookup, *out)`. -/
def UnmarshalState.keep (st : UnmarshalState) (x : Datum) : UnmarshalState :=
  { st with lookup := st.lookup ++ [x] }

/-- A new object, which is kept too. -/
def UnmarshalState.alloc (st : UnmarshalState) (o : Obj) : UnmarshalState :=
  ⟨st.heap ++ [o], st.lookup ++ [.ref st.heap.length]⟩

/-- The object is what has been read by now. -/
def UnmarshalState.fill (st : UnmarshalState) (a : ℕ) (o : Obj) : UnmarshalState :=
  { st with heap := st.heap.set a o }

/-- What data begins with. -/
inductive Lead where
  | integer
  | real
  | nil
  | boolean (b : Bool)
  | text (kind : TextKind)
  | buffer
  | array
  | tuple
  | struct (hasProto : Bool)
  | table (hasProto : Bool)
  | reference
  | registry
  /-- A function, a fiber, an abstract value or a pointer. -/
  | notModelled
  | unknown

def leadOf (lead : UInt8) : Lead :=
  if lead < 200 then .integer
  else match lead.toNat with
    | 200 => .real
    | 201 => .nil
    | 202 => .boolean false
    | 203 => .boolean true
    | 205 => .integer
    | 206 => .text .string
    | 207 => .text .symbol
    | 208 => .text .keyword
    | 209 => .array
    | 210 => .tuple
    | 211 => .table false
    | 212 => .table true
    | 213 => .struct false
    | 214 => .buffer
    | 216 => .registry
    | 218 => .reference
    | 223 => .struct true
    | 204 | 215 | 217 | 221 | 222 | 224 | 225 => .notModelled
    | _ => .unknown

/-- `MARSH_EOS`: there have to be `n` bytes. -/
def marshEos (data : Bytes) (n : ℕ) : Except Fault Unit :=
  if data.length < n then .error .endOfSource else .ok ()

/-- A natural number and as many bytes. -/
def readBytes (size : ℕ) (data : Bytes) : Except Fault (Bytes × Bytes) := do
  let (len, data) ← readnat size data
  marshEos data len
  return (data.take len, data.drop len)

/-- What a step of reading returns. -/
abbrev Read (α : Type) := α × UnmarshalState × Bytes

/-- Some values in a row. -/
def readItems (read : UnmarshalState → Bytes → Except Fault (Read Datum)) :
    ℕ → UnmarshalState → Bytes → Except Fault (Read (List Datum))
  | 0, st, data => .ok ([], st, data)
  | n + 1, st, data => do
    let (x, st, data) ← read st data
    let (xs, st, data) ← readItems read n st data
    return (x :: xs, st, data)

/-- Keys and values that come in turn. -/
def pairUp : List Datum → Entries
  | k :: v :: rest => (k, v) :: pairUp rest
  | _ => []

/-- Entries that a table can have. -/
structure Proper (kvs : Entries) : Prop where
  key : ∀ kv ∈ kvs, kv.1 ≠ .nil ∧ kv.1.isnan = false
  value : ∀ kv ∈ kvs, kv.2 ≠ .nil
  distinct : kvs.Pairwise fun e e' => janetEquals e.1 e'.1 = false

/-- How many entries a table has at most. -/
def maxEntries : ℕ := 536870912

/-- The entries of a table in which keys and values were put one after another, in the order of its
slots, and those of a struct. -/
structure Layout where
  walk : Entries → Entries
  perm : ∀ kvs, Proper kvs → kvs.length < maxEntries → (walk kvs).Perm kvs
  slots : Entries → Entries
  slots_perm : ∀ kvs, Proper kvs → kvs.length < maxEntries → (slots kvs).Perm kvs

/-- A struct with a prototype and the entries of its slots. -/
def Datum.ofEntries (proto : Option Datum) (kvs : Entries) : Datum :=
  .struct proto.isSome (proto.toList ++ flatten kvs)

/-- `janet_asserttype`, and the address of the prototype of a table. -/
def protoOf (heap : Heap) : Datum → Except Fault ℕ
  | .ref a => if heap[a]?.any Obj.isTable then .ok a else .error .expectedTable
  | _ => .error .expectedTable

/-- `janet_asserttype`, for the prototype of a struct. -/
def assertStruct (_ : Heap) : Datum → Except Fault Datum
  | .struct hasProto items => .ok (.struct hasProto items)
  | _ => .error .expectedStruct

/-- The prototype of a table or a struct, if it has one. -/
def readProto {α : Type} (read : UnmarshalState → Bytes → Except Fault (Read Datum))
    (assert : Heap → Datum → Except Fault α) (hasProto : Bool) (st : UnmarshalState)
    (data : Bytes) : Except Fault (Read (Option α)) :=
  if hasProto then do
    let (x, st, data) ← read st data
    return (some (← assert st.heap x), st, data)
  else .ok (none, st, data)

/-- `unmarshal_one`, which goes no deeper than `guard`, in a source of `size` bytes. What is in an
array or a table is read before it is filled, since nothing looks into it meanwhile. -/
def unmarshalOne (L : Layout) (size : ℕ) :
    (guard : ℕ) → UnmarshalState → Bytes → Except Fault (Read Datum)
  | 0, _, _ => .error .stackOverflow
  | _ + 1, _, [] => .error .endOfSource
  | guard + 1, st, lead :: data =>
    match leadOf lead with
    | .integer => do
      let (i, data) ← readint size (lead :: data)
      return (.number (wrapInteger i), st, data)
    | .nil => .ok (.nil, st, data)
    | .boolean b => .ok (.boolean b, st, data)
    | .real => do
      marshEos data 8
      let x := .number (wrapNumberSafe (realOf (data.take 8)))
      return (x, st.keep x, data.drop 8)
    | .text kind => do
      let (s, data) ← readBytes size data
      return (.text kind s, st.keep (.text kind s), data)
    | .registry => do
      -- there is no registry
      let (_, data) ← readBytes size data
      return (.nil, st.keep .nil, data)
    | .buffer => do
      let (s, data) ← readBytes size data
      return (.ref st.heap.length, st.alloc (.buffer s), data)
    | .reference => do
      let (id, data) ← readnat size data
      match st.lookup[id]? with
      | some x => return (x, st, data)
      | none => .error (.invalidReference id)
    | .array => do
      let (len, data) ← readnat size data
      marshEos data len
      let (items, st', data) ← readItems (unmarshalOne L size guard) len (st.alloc (.array [])) data
      return (.ref st.heap.length, st'.fill st.heap.length (.array items), data)
    | .tuple => do
      let (len, data) ← readnat size data
      marshEos data len
      let (flag, data) ← readint size data
      let (items, st, data) ← readItems (unmarshalOne L size guard) len st data
      return (.tuple (flag % 2 = 1) items, st.keep (.tuple (flag % 2 = 1) items), data)
    | .struct hasProto => do
      let (len, data) ← readnat size data
      marshEos data len
      let (proto, st, data) ←
        readProto (unmarshalOne L size guard) assertStruct hasProto st data
      let (items, st, data) ← readItems (unmarshalOne L size guard) (2 * len) st data
      let x := .ofEntries proto (L.slots (pairUp items))
      return (x, st.keep x, data)
    | .table hasProto => do
      let (len, data) ← readnat size data
      marshEos data len
      let (proto, st', data) ←
        readProto (unmarshalOne L size guard) protoOf hasProto (st.alloc (.table none [])) data
      let (items, st', data) ← readItems (unmarshalOne L size guard) (2 * len) st' data
      return (.ref st.heap.length,
        st'.fill st.heap.length (.table proto (L.walk (pairUp items))), data)
    | .notModelled => .error (.notModelled lead)
    | .unknown => .error (.unknownByte lead (size - data.length - 1))

/-- `(unmarshal bytes)`, where some objects are there already. -/
def janetUnmarshal (L : Layout) (heap : Heap) (bytes : Bytes) : Except Fault (Datum × Heap) := do
  let (x, st, _) ← unmarshalOne L bytes.length recursionLevels ⟨heap, []⟩ bytes
  return (x, st.heap)

end AhungryJanet.Marshal
