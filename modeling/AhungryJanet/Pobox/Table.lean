import AhungryJanet.Janet.Value
import Mathlib.Logic.Function.Basic
import Mathlib.Data.List.Nodup

/-!
# The list of boxes

`buffer_to_bytes`, `bytecmp`, `table_get` and `table_put` of `pobox.c`, on the list of nodes that
`office` points to.

Nodes are never freed and never taken out of the list, so a heap is the list of the nodes allocated
so far, and the address of a node is its index. The first node is the one `ensure_office` makes,
with an empty key; its value is a string literal, and freeing that is undefined. A result of `none`
stands for undefined behaviour here.

## The byte behind a block

`buffer_to_bytes` asks `malloc` for as many bytes as the buffer has, and stores a NUL behind them.
The same is done for the key and the value of a new node. That byte is inside of the block only if
`malloc` has given more than it was asked for, which depends on the length: a block for 24 bytes of
the GNU C library has no other byte, and the NUL goes into the size of the next chunk.

## Main results

* `tableGet_spec` — where there is room for the key, looking up finds the node of the key
* `tablePut_spec`, `tablePut_nil` — where there is room for both, storing is an update of the map
  the list stands for, except under the empty key
* `tableGet_eq_none_iff`, `tablePut_eq_none_iff` — nothing else goes wrong
-/

namespace AhungryJanet

/-! ### Blocks -/

/-- The `malloc` of the C library. A block that was asked for with `n` bytes has `usable n` of them
at least (`malloc_usable_size`). -/
structure Malloc where
  usable : ℕ → ℕ
  le_usable : ∀ n, n ≤ usable n

/-- The one of the GNU C library with 64 bits: a chunk has 32 bytes or more, in steps of 16, and 8
of them are not the block's. -/
def Malloc.glibc : Malloc where
  usable n := max 24 ((n + 23) / 16 * 16 - 8)
  le_usable n := by omega

/-- There is a byte behind `b` in a block that was asked for with its length. -/
def Malloc.Room (m : Malloc) (b : Bytes) : Prop := b.length < m.usable b.length

instance (m : Malloc) (b : Bytes) : Decidable (m.Room b) := inferInstanceAs (Decidable (_ < _))

/-- `malloc (len)`, `memcpy`, and the NUL behind the copy. -/
def mallocCopyNul (m : Malloc) (b : Bytes) : Option Bytes := if m.Room b then some b else none

@[simp] theorem mallocCopyNul_of_room {m : Malloc} {b : Bytes} (h : m.Room b) :
    mallocCopyNul m b = some b := if_pos h

@[simp] theorem mallocCopyNul_of_not_room {m : Malloc} {b : Bytes} (h : ¬ m.Room b) :
    mallocCopyNul m b = none := if_neg h

/-- `buffer_to_bytes`. -/
def bufferToBytes (m : Malloc) (buf : Bytes) : Option Bytes := mallocCopyNul m buf

/-! ### The list -/

/-- `office_t`. -/
structure Node where
  k : Bytes
  v : Bytes
  next : Option ℕ
  deriving DecidableEq

/-- The nodes allocated so far. -/
abbrev Office := List Node

/-- `ensure_office`. -/
def ensureOffice : Office := [⟨[], [], none⟩]

/-- The loop of `bytecmp`, over two texts of one length. -/
def bytecmpLoop : Bytes → Bytes → ℕ
  | x :: a, y :: b => if x ≠ y then 1 else bytecmpLoop a b
  | _, _ => 0

/-- `bytecmp`. -/
def bytecmp (a b : Bytes) : ℕ := if a.length ≠ b.length then 1 else bytecmpLoop a b

/-- The loop of `table_get`. -/
def tableGetLoop (office : Office) (k : Bytes) : (fuel node : ℕ) → Option (Option ℕ)
  | 0, _ => none
  | fuel + 1, node =>
    match office[node]? with
    | none => none
    | some n =>
      if bytecmp n.k k = 0 then some (some node)
      else
        match n.next with
        | some node => tableGetLoop office k fuel node
        | none => some none

/-- `table_get`: the address of a node, or NULL. -/
def tableGet (m : Malloc) (office : Office) (kb : Bytes) : Option (Option ℕ) :=
  match bufferToBytes m kb with
  | none => none
  | some k => tableGetLoop office k office.length 0

/-- The loop of `table_put`: `found` and `last_node`. -/
def tablePutLoop (office : Office) (k : Bytes) : (fuel node : ℕ) → Option (Bool × ℕ)
  | 0, _ => none
  | fuel + 1, lastNode =>
    match office[lastNode]? with
    | none => none
    | some n =>
      if bytecmp n.k k = 0 then some (true, lastNode)
      else
        match n.next with
        | some node => tablePutLoop office k fuel node
        | none => some (false, lastNode)

/-- The branches of `table_put`, on copies of the key and the value. -/
def tablePutBytes (m : Malloc) (office : Office) (k v : Bytes) : Option Office :=
  match tablePutLoop office k office.length 0 with
  | none => none
  | some (true, node) =>
    -- `free (node->v)`, which for the first node is a literal; the new value gets no NUL
    if node = 0 then none else some (office.modify node fun n => { n with v := v })
  | some (false, lastNode) =>
    match mallocCopyNul m k, mallocCopyNul m v with
    | some nk, some nv =>
      some (office.modify lastNode (fun n => { n with next := some office.length }) ++
        [⟨nk, nv, none⟩])
    | _, _ => none

/-- `table_put`. -/
def tablePut (m : Malloc) (office : Office) (kb kv : Bytes) : Option Office :=
  match bufferToBytes m kb, bufferToBytes m kv with
  | some k, some v => tablePutBytes m office k v
  | _, _ => none

/-! ### Comparing keys -/

theorem bytecmpLoop_eq_zero_iff {a b : Bytes} (h : a.length = b.length) :
    bytecmpLoop a b = 0 ↔ a = b := by
  induction a generalizing b with
  | nil =>
    have hb : b = [] := List.eq_nil_of_length_eq_zero h.symm
    simp [hb, bytecmpLoop]
  | cons x a ih =>
    cases b with
    | nil => cases h
    | cons y b =>
      by_cases hxy : x = y
      · simp [bytecmpLoop, hxy, ih (by simpa using h)]
      · simp [bytecmpLoop, hxy]

theorem bytecmp_eq_zero_iff {a b : Bytes} : bytecmp a b = 0 ↔ a = b := by
  by_cases h : a.length = b.length
  · simp [bytecmp, h, bytecmpLoop_eq_zero_iff h]
  · have hne : a ≠ b := fun heq => h (congrArg List.length heq)
    simp [bytecmp, h, hne]

/-! ### The list as a map -/

/-- What the list stands for: the value of the first node with the key. -/
def contents (office : Office) (k : Bytes) : Option Bytes :=
  (office.find? fun n => n.k = k).map Node.v

/-- The nodes are linked in the order in which they were allocated, behind the first one, and no
key is used twice. -/
structure WellFormed (office : Office) : Prop where
  /-- The first node has the empty key. -/
  first : office[0]?.map Node.k = some []
  /-- Each node points to the one allocated after it. -/
  linked : ∀ i n, office[i]? = some n →
    n.next = if i + 1 < office.length then some (i + 1) else none
  /-- Keys differ. -/
  nodup : (office.map Node.k).Nodup

theorem wellFormed_ensureOffice : WellFormed ensureOffice := by
  refine ⟨rfl, fun i n h => ?_, by decide⟩
  have hi : i = 0 := by
    have := (List.getElem?_eq_some_iff.mp h).1
    simpa [ensureOffice] using this
  subst hi
  cases h
  rfl

theorem WellFormed.length_pos {office : Office} (h : WellFormed office) : 0 < office.length := by
  by_contra hnot
  have hnil : office = [] := List.eq_nil_of_length_eq_zero (by omega)
  have hfirst := h.first
  rw [hnil] at hfirst
  cases hfirst

/-- Two nodes with one key are one. -/
theorem WellFormed.key_inj {office : Office} (h : WellFormed office) {i j : ℕ} {n m : Node}
    (hi : office[i]? = some n) (hj : office[j]? = some m) (hk : n.k = m.k) : i = j := by
  have hi' : (office.map Node.k)[i]? = some n.k := by simp [hi]
  have hj' : (office.map Node.k)[j]? = some n.k := by simp [hj, hk]
  have hlen := (List.getElem?_eq_some_iff.mp hi').1
  exact (List.getElem?_inj hlen h.nodup).mp (hi'.trans hj'.symm)

theorem contents_eq_some_iff {office : Office} (h : WellFormed office) {k v : Bytes} :
    contents office k = some v ↔ ∃ (i : ℕ) (n : Node), office[i]? = some n ∧ n.k = k ∧ n.v = v := by
  constructor
  · intro hv
    obtain ⟨n, hfind, rfl⟩ := Option.map_eq_some_iff.mp hv
    obtain ⟨i, hi⟩ := List.getElem?_of_mem (List.mem_of_find?_eq_some hfind)
    exact ⟨i, n, hi, by simpa using List.find?_some hfind, rfl⟩
  · rintro ⟨i, n, hi, rfl, rfl⟩
    cases hfind : office.find? (fun m => m.k = n.k) with
    | none =>
      have hmem := List.mem_of_getElem? hi
      simpa using List.find?_eq_none.mp hfind n hmem
    | some m =>
      have hm : m.k = n.k := by simpa using List.find?_some hfind
      obtain ⟨j, hj⟩ := List.getElem?_of_mem (List.mem_of_find?_eq_some hfind)
      have hij := h.key_inj hi hj hm.symm
      rw [hij, hj] at hi
      cases hi
      simp [contents, hfind]

theorem contents_eq_none {office : Office} {k : Bytes} (h : ∀ n ∈ office, n.k ≠ k) :
    contents office k = none := by
  have hfind : office.find? (fun n => n.k = k) = none :=
    List.find?_eq_none.mpr fun n hn => by simpa using h n hn
  simp [contents, hfind]

/-- Both loops find the node with the key from `node` on, or come to the last node. -/
theorem loops_spec {office : Office} (h : WellFormed office) (k : Bytes) :
    ∀ {fuel node : ℕ}, node < office.length → office.length ≤ fuel + node →
      (∃ (a : ℕ) (n : Node), tableGetLoop office k fuel node = some (some a) ∧
        tablePutLoop office k fuel node = some (true, a) ∧ office[a]? = some n ∧ n.k = k) ∨
      (tableGetLoop office k fuel node = some none ∧
        tablePutLoop office k fuel node = some (false, office.length - 1) ∧
        ∀ (i : ℕ) (n : Node), node ≤ i → office[i]? = some n → n.k ≠ k) := by
  intro fuel
  induction fuel with
  | zero => intro node hnode hfuel; omega
  | succ fuel ih =>
    intro node hnode hfuel
    have hget : office[node]? = some office[node] := List.getElem?_eq_getElem hnode
    have hnext := h.linked node _ hget
    simp only [tableGetLoop, tablePutLoop, hget, bytecmp_eq_zero_iff]
    by_cases hk : office[node].k = k
    · exact .inl ⟨node, office[node], by rw [if_pos hk], by rw [if_pos hk], hget, hk⟩
    · rw [if_neg hk, if_neg hk, hnext]
      by_cases hlast : node + 1 < office.length
      · rw [if_pos hlast]
        rcases ih hlast (by omega) with hfound | ⟨hgetl, hputl, hnone⟩
        · exact .inl hfound
        · refine .inr ⟨hgetl, hputl, fun i n hi hn => ?_⟩
          rcases Nat.eq_or_lt_of_le hi with rfl | hlt
          · rw [hget] at hn
            cases hn
            exact hk
          · exact hnone i n hlt hn
      · rw [if_neg hlast]
        refine .inr ⟨rfl, ?_, fun i n hi hn => ?_⟩
        · have hlen : node = office.length - 1 := by omega
          rw [hlen]
        · have hlt := (List.getElem?_eq_some_iff.mp hn).1
          obtain rfl : i = node := by omega
          rw [hget] at hn
          cases hn
          exact hk

/-- **Where there is room for the key, looking up never goes wrong**, and finds the value of the
key, or NULL. -/
theorem tableGet_spec {m : Malloc} {office : Office} (h : WellFormed office) {k : Bytes}
    (hk : m.Room k) :
    (∃ (a : ℕ) (n : Node), tableGet m office k = some (some a) ∧ office[a]? = some n ∧
      contents office k = some n.v) ∨
    (tableGet m office k = some none ∧ contents office k = none) := by
  simp only [tableGet, bufferToBytes, mallocCopyNul_of_room hk]
  rcases loops_spec h k h.length_pos (Nat.le_refl office.length) with
    ⟨a, n, hget, -, hn, hkey⟩ | ⟨hget, -, hnone⟩
  · exact .inl ⟨a, n, hget, hn, (contents_eq_some_iff h).mpr ⟨a, n, hn, hkey, rfl⟩⟩
  · refine .inr ⟨hget, contents_eq_none fun n hn => ?_⟩
    obtain ⟨i, hi⟩ := List.getElem?_of_mem hn
    exact hnone i n (Nat.zero_le i) hi

/-- The node that is found has the key. -/
theorem key_of_tableGet {m : Malloc} {office : Office} (h : WellFormed office) {k : Bytes} {a : ℕ}
    (hget : tableGet m office k = some (some a)) : office[a]?.map Node.k = some k := by
  by_cases hk : m.Room k
  · simp only [tableGet, bufferToBytes, mallocCopyNul_of_room hk] at hget
    rcases loops_spec h k h.length_pos (Nat.le_refl office.length) with
      ⟨b, n, hloop, -, hn, hkey⟩ | ⟨hloop, -, -⟩
    · cases hget.symm.trans hloop
      rw [hn, Option.map_some, hkey]
    · cases hget.symm.trans hloop
  · simp [tableGet, bufferToBytes, mallocCopyNul_of_not_room hk] at hget

theorem tableGet_of_not_room {m : Malloc} {k : Bytes} (hk : ¬ m.Room k) (office : Office) :
    tableGet m office k = none := by
  simp [tableGet, bufferToBytes, mallocCopyNul_of_not_room hk]

/-- Looking up goes wrong where there is no room for the key, and nowhere else. -/
theorem tableGet_eq_none_iff {m : Malloc} {office : Office} (h : WellFormed office) {k : Bytes} :
    tableGet m office k = none ↔ ¬ m.Room k := by
  constructor
  · intro hnone hk
    rcases tableGet_spec h hk with ⟨a, n, hget, -⟩ | ⟨hget, -⟩
    · rw [hget] at hnone
      cases hnone
    · rw [hget] at hnone
      cases hnone
  · exact fun hk => tableGet_of_not_room hk office

/-! ### Storing -/

private theorem getElem?_modify_eq (office : Office) (a i : ℕ) (f : Node → Node) :
    (office.modify a f)[i]? = office[i]?.map fun n => if a = i then f n else n := by
  rw [List.getElem?_modify]
  rfl

private theorem map_k_modify (office : Office) (a : ℕ) {f : Node → Node}
    (hf : ∀ n, (f n).k = n.k) :
    (office.modify a f).map Node.k = office.map Node.k := by
  refine List.ext_getElem? fun i => ?_
  simp only [List.getElem?_map, getElem?_modify_eq, Option.map_map]
  congr 1
  funext n
  by_cases hi : a = i
  · simp [hi, hf]
  · simp [hi]

/-- Overwriting a value keeps the list in order. -/
theorem WellFormed.modify {office : Office} (h : WellFormed office) (a : ℕ) (v : Bytes) :
    WellFormed (office.modify a fun n => { n with v := v }) := by
  have hkeys : (office.modify a fun n => { n with v := v }).map Node.k = office.map Node.k :=
    map_k_modify office a fun _ => rfl
  refine ⟨?_, fun i n hn => ?_, ?_⟩
  · rw [← List.getElem?_map, hkeys, List.getElem?_map]
    exact h.first
  · rw [getElem?_modify_eq] at hn
    obtain ⟨m, hm, rfl⟩ := Option.map_eq_some_iff.mp hn
    rw [List.length_modify, ← h.linked i m hm]
    by_cases hi : a = i
    · simp [hi]
    · simp [hi]
  · rw [hkeys]
    exact h.nodup

theorem contents_modify {office : Office} (h : WellFormed office) {a : ℕ} {n : Node}
    (hn : office[a]? = some n) (v : Bytes) :
    contents (office.modify a fun n => { n with v := v }) =
      Function.update (contents office) n.k (some v) := by
  funext k
  refine Option.ext fun w => ?_
  rw [contents_eq_some_iff (h.modify a v)]
  by_cases hk : k = n.k
  · subst hk
    rw [Function.update_self]
    constructor
    · rintro ⟨i, m, hi, hkey, rfl⟩
      rw [getElem?_modify_eq] at hi
      obtain ⟨m', hm', rfl⟩ := Option.map_eq_some_iff.mp hi
      have hia : a = i := by
        refine h.key_inj hn hm' ?_
        rw [← hkey]
        split <;> rfl
      simp [hia]
    · rintro hw
      cases hw
      exact ⟨a, { n with v := v }, by rw [getElem?_modify_eq, hn]; simp, rfl, rfl⟩
  · rw [Function.update_of_ne hk, contents_eq_some_iff h]
    constructor
    · rintro ⟨i, m, hi, rfl, rfl⟩
      rw [getElem?_modify_eq] at hi
      obtain ⟨m', hm', rfl⟩ := Option.map_eq_some_iff.mp hi
      by_cases hia : a = i
      · subst hia
        rw [hn] at hm'
        cases hm'
        simp at hk
      · exact ⟨i, m', hm', by simp [hia], by simp [hia]⟩
    · rintro ⟨i, m, hi, rfl, rfl⟩
      have hia : a ≠ i := by
        rintro rfl
        rw [hn] at hi
        cases hi
        exact hk rfl
      exact ⟨i, m, by rw [getElem?_modify_eq, hi]; simp [hia], rfl, rfl⟩

/-- The list with a node behind the last one. -/
def appendNode (office : Office) (k v : Bytes) : Office :=
  office.modify (office.length - 1) (fun n => { n with next := some office.length }) ++
    [⟨k, v, none⟩]

private theorem getElem?_appendNode {office : Office} (k v : Bytes) {i : ℕ} {m : Node}
    (hm : (appendNode office k v)[i]? = some m) :
    (∃ n, office[i]? = some n ∧ m.k = n.k ∧ m.v = n.v) ∨
      (i = office.length ∧ m = ⟨k, v, none⟩) := by
  by_cases hi : i < office.length
  · rw [appendNode, List.getElem?_append_left (by simpa using hi), getElem?_modify_eq] at hm
    obtain ⟨n, hn, rfl⟩ := Option.map_eq_some_iff.mp hm
    refine .inl ⟨n, hn, ?_, ?_⟩
    · split <;> rfl
    · split <;> rfl
  · rw [appendNode, List.getElem?_append_right (by simpa using hi), List.length_modify,
      List.getElem?_singleton] at hm
    by_cases h0 : i - office.length = 0
    · rw [if_pos h0] at hm
      cases hm
      exact .inr ⟨by omega, rfl⟩
    · rw [if_neg h0] at hm
      cases hm

theorem WellFormed.appendNode {office : Office} (h : WellFormed office) {k : Bytes} (v : Bytes)
    (hk : ∀ n ∈ office, n.k ≠ k) : WellFormed (appendNode office k v) := by
  have hpos := h.length_pos
  have hkeys : (office.modify (office.length - 1) fun n =>
      { n with next := some office.length }).map Node.k = office.map Node.k :=
    map_k_modify office (office.length - 1) fun _ => rfl
  have hlen : (AhungryJanet.appendNode office k v).length = office.length + 1 := by
    simp [AhungryJanet.appendNode]
  refine ⟨?_, fun i m hm => ?_, ?_⟩
  · rw [AhungryJanet.appendNode, List.getElem?_append_left (by simpa using hpos),
      ← List.getElem?_map, hkeys, List.getElem?_map]
    exact h.first
  · rw [hlen]
    by_cases hi : i < office.length
    · rw [AhungryJanet.appendNode, List.getElem?_append_left (by simpa using hi),
        getElem?_modify_eq] at hm
      obtain ⟨n, hn, rfl⟩ := Option.map_eq_some_iff.mp hm
      by_cases hlast : office.length - 1 = i
      · simp only [if_pos hlast]
        rw [if_pos (by omega)]
        congr 1
        omega
      · simp only [if_neg hlast]
        rw [h.linked i n hn, if_pos (by omega), if_pos (by omega)]
    · rcases getElem?_appendNode k v hm with ⟨n, hn, -⟩ | ⟨rfl, rfl⟩
      · exact absurd (List.getElem?_eq_some_iff.mp hn).1 hi
      · rw [if_neg (by omega)]
  · rw [AhungryJanet.appendNode, List.map_append, hkeys, List.nodup_append]
    refine ⟨h.nodup, by simp, ?_⟩
    intro x hx y hy
    obtain ⟨n, hn, rfl⟩ := List.mem_map.mp hx
    rw [List.map_singleton, List.mem_singleton] at hy
    rw [hy]
    exact hk n hn

theorem contents_appendNode {office : Office} (h : WellFormed office) {k : Bytes} (v : Bytes)
    (hk : ∀ n ∈ office, n.k ≠ k) :
    contents (appendNode office k v) = Function.update (contents office) k (some v) := by
  funext k'
  refine Option.ext fun w => ?_
  rw [contents_eq_some_iff (h.appendNode v hk)]
  constructor
  · rintro ⟨i, m, hm, rfl, rfl⟩
    rcases getElem?_appendNode k v hm with ⟨n, hn, hkey, hval⟩ | ⟨-, rfl⟩
    · rw [Function.update_of_ne (by rw [hkey]; exact hk n (List.mem_of_getElem? hn)),
        contents_eq_some_iff h]
      exact ⟨i, n, hn, hkey.symm, hval.symm⟩
    · rw [Function.update_self]
  · by_cases hkk : k' = k
    · subst hkk
      rw [Function.update_self]
      rintro hw
      cases hw
      exact ⟨office.length, ⟨k', v, none⟩, by simp [appendNode], rfl, rfl⟩
    · rw [Function.update_of_ne hkk, contents_eq_some_iff h]
      rintro ⟨i, n, hn, rfl, rfl⟩
      have hi := (List.getElem?_eq_some_iff.mp hn).1
      refine ⟨i, if office.length - 1 = i then { n with next := some office.length } else n, ?_,
        ?_, ?_⟩
      · rw [appendNode, List.getElem?_append_left (by simpa using hi), getElem?_modify_eq, hn]
        rfl
      · split <;> rfl
      · split <;> rfl

/-- **Where there is room, storing is an update of the map the list stands for.** -/
theorem tablePut_spec {m : Malloc} {office : Office} (h : WellFormed office) {k v : Bytes}
    (hk : k ≠ []) (hroom : m.Room k ∧ m.Room v) :
    ∃ office', tablePut m office k v = some office' ∧ WellFormed office' ∧
      contents office' = Function.update (contents office) k (some v) := by
  simp only [tablePut, bufferToBytes, mallocCopyNul_of_room hroom.1,
    mallocCopyNul_of_room hroom.2]
  rcases loops_spec h k h.length_pos (Nat.le_refl office.length) with
    ⟨a, n, -, hput, hn, rfl⟩ | ⟨-, hput, hnone⟩
  · have ha : a ≠ 0 := by
      rintro rfl
      have hfirst := h.first
      rw [hn] at hfirst
      exact hk (by simpa using hfirst)
    exact ⟨_, by simp [tablePutBytes, hput, ha], h.modify a v, contents_modify h hn v⟩
  · have hfree : ∀ n ∈ office, n.k ≠ k := by
      intro n hn
      obtain ⟨i, hi⟩ := List.getElem?_of_mem hn
      exact hnone i n (Nat.zero_le i) hi
    refine ⟨appendNode office k v, ?_, h.appendNode v hfree, contents_appendNode h v hfree⟩
    simp [tablePutBytes, hput, appendNode, mallocCopyNul_of_room hroom.1,
      mallocCopyNul_of_room hroom.2]

/-- A node keeps its key, whatever is stored. -/
theorem keys_prefix_tablePut {m : Malloc} {office office' : Office} {k v : Bytes}
    (h : tablePut m office k v = some office') :
    office.map Node.k <+: office'.map Node.k := by
  rw [tablePut] at h
  split at h
  case h_2 => cases h
  case h_1 =>
    rw [tablePutBytes] at h
    split at h
    case h_1 => cases h
    case h_2 node hfound =>
      split at h
      case isTrue => cases h
      case isFalse =>
        cases h
        refine ⟨[], ?_⟩
        rw [List.append_nil, map_k_modify office node (by exact fun _ => rfl)]
    case h_3 lastNode hnone =>
      split at h
      case h_2 => cases h
      case h_1 nk nv _ _ =>
        cases h
        rw [List.map_append, map_k_modify office lastNode (by exact fun _ => rfl)]
        exact List.prefix_append _ _

/-- Under the empty key there is only the first node, whose value cannot be freed. -/
theorem tablePut_nil {office : Office} (h : WellFormed office) (m : Malloc) (v : Bytes) :
    tablePut m office [] v = none := by
  have hbytes : tablePutBytes m office [] v = none := by
    rcases loops_spec h [] h.length_pos (Nat.le_refl office.length) with
      ⟨a, n, -, hput, hn, hk⟩ | ⟨-, -, hnone⟩
    · obtain ⟨n', hn', hkey⟩ := Option.map_eq_some_iff.mp h.first
      have ha := h.key_inj hn hn' (hk.trans hkey.symm)
      simp [tablePutBytes, hput, ha]
    · obtain ⟨n', hn', hkey⟩ := Option.map_eq_some_iff.mp h.first
      exact absurd hkey (hnone 0 n' (Nat.le_refl 0) hn')
  by_cases hk : m.Room []
  · by_cases hv : m.Room v
    · simp [tablePut, bufferToBytes, mallocCopyNul_of_room hk, mallocCopyNul_of_room hv, hbytes]
    · simp [tablePut, bufferToBytes, mallocCopyNul_of_not_room hv]
  · simp [tablePut, bufferToBytes, mallocCopyNul_of_not_room hk]

theorem tablePut_of_not_room {m : Malloc} {k v : Bytes} (hroom : ¬ (m.Room k ∧ m.Room v))
    (office : Office) : tablePut m office k v = none := by
  by_cases hk : m.Room k
  · have hv : ¬ m.Room v := fun hv => hroom ⟨hk, hv⟩
    simp [tablePut, bufferToBytes, mallocCopyNul_of_not_room hv]
  · simp [tablePut, bufferToBytes, mallocCopyNul_of_not_room hk]

/-- Storing goes wrong under the empty key and where there is no room, and nowhere else. -/
theorem tablePut_eq_none_iff {m : Malloc} {office : Office} (h : WellFormed office) {k v : Bytes} :
    tablePut m office k v = none ↔ k = [] ∨ ¬ (m.Room k ∧ m.Room v) := by
  constructor
  · intro hnone
    by_contra hnot
    rw [not_or, not_not] at hnot
    obtain ⟨office', hput, -⟩ := tablePut_spec h hnot.1 hnot.2
    rw [hput] at hnone
    cases hnone
  · rintro (rfl | hroom)
    · exact tablePut_nil h m v
    · exact tablePut_of_not_room hroom office

end AhungryJanet
