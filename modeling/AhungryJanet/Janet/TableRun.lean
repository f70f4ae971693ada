import AhungryJanet.Janet.TableMap
import Mathlib.Data.List.Nodup

/-!
# Runs over a table

What any number of operations on a table answer, and what iterating over it, merging tables and
flattening a chain of prototypes come to.

## Main results

* `runOps_spec` — any run of operations answers as a finite map does
* `eachPut_spec` — an iteration that stores a value under each key it meets meets every key once
* `janetTableGet_protoFlatten` — looking a key up in a chain is looking it up in the flattened table
-/

namespace AhungryJanet.HashTable

section

variable {κ υ : Type} [DecidableEq κ] (hash : κ → Int32)

/-! ### Operations -/

inductive TableOp (κ υ : Type) where
  | get (k : κ)
  | put (k : Option κ) (v : Option υ)
  | putNoOverwrite (k : κ) (v : υ)
  | remove (k : κ)
  | clear

/-- An operation, with its answer. -/
def TableOp.run (t : Table κ υ) : TableOp κ υ → Option (Option υ × Table κ υ)
  | .get k => some (rawget hash t k, t)
  | .put k v => (HashTable.put hash t k v).map (none, ·)
  | .putNoOverwrite k v => (HashTable.putNoOverwrite hash t k v).map (none, ·)
  | .remove k => some (HashTable.remove hash t k)
  | .clear => some (none, HashTable.clear t)

/-- One operation after another, with the answers. -/
def runOps : List (TableOp κ υ) → Table κ υ → Option (List (Option υ) × Table κ υ)
  | [], t => some ([], t)
  | op :: ops, t =>
    (op.run hash t).bind fun (answer, t) =>
      (runOps ops t).map fun (answers, t) => (answer :: answers, t)

/-- The same operation on a finite map. -/
def TableOp.onMap (m : κ → Option υ) : TableOp κ υ → Option υ × (κ → Option υ)
  | .get k => (m k, m)
  | .put k v => (none, mapPut m k v)
  | .putNoOverwrite k v => (none, Function.update m k ((m k).or (some v)))
  | .remove k => (m k, Function.update m k none)
  | .clear => (none, fun _ => none)

def opsOnMap : List (TableOp κ υ) → (κ → Option υ) → List (Option υ) × (κ → Option υ)
  | [], m => ([], m)
  | op :: ops, m =>
    ((op.onMap m).1 :: (opsOnMap ops (op.onMap m).2).1, (opsOnMap ops (op.onMap m).2).2)

variable {hash} {t : Table κ υ} {m : κ → Option υ}

/-- An operation on a table is the same operation on its map. -/
theorem Holds.run (h : Holds hash t m) (hcount : t.count + 1 < 2 ^ 29) (op : TableOp κ υ) :
    ∃ t', op.run hash t = some ((op.onMap m).1, t') ∧ t'.count ≤ t.count + 1 ∧
      Holds hash t' (op.onMap m).2 := by
  cases op with
  | get k => exact ⟨t, by rw [TableOp.run, h.rawget]; rfl, Nat.le_succ _, h⟩
  | put k v =>
    obtain ⟨t', hput, hcount', hholds⟩ := h.put hcount k v
    exact ⟨t', by rw [TableOp.run, hput]; rfl, hcount', hholds⟩
  | putNoOverwrite k v =>
    obtain ⟨t', hput, hcount', hholds⟩ := h.putNoOverwrite hcount k v
    exact ⟨t', by rw [TableOp.run, hput]; rfl, hcount', hholds⟩
  | remove k =>
    obtain ⟨hanswer, hholds⟩ := h.remove k
    exact ⟨_, by rw [TableOp.run, TableOp.onMap, ← hanswer],
      (remove_count_le t k).trans (Nat.le_succ _), hholds⟩
  | clear => exact ⟨_, rfl, Nat.zero_le _, h.clear⟩

theorem Holds.runOps (h : Holds hash t m) (ops : List (TableOp κ υ))
    (hcount : t.count + ops.length < 2 ^ 29) :
    ∃ t', runOps hash ops t = some ((opsOnMap ops m).1, t') ∧
      t'.count ≤ t.count + ops.length ∧ Holds hash t' (opsOnMap ops m).2 := by
  induction ops generalizing t m with
  | nil => exact ⟨t, rfl, Nat.le_refl _, h⟩
  | cons op ops ih =>
    rw [List.length_cons] at hcount
    obtain ⟨t₁, hop, hcount₁, h₁⟩ := h.run (by omega) op
    obtain ⟨t', hrun, hcount', hholds⟩ := ih h₁ (by omega)
    refine ⟨t', ?_, by rw [List.length_cons]; omega, hholds⟩
    rw [HashTable.runOps, hop, Option.bind_some]
    dsimp only
    rw [hrun]
    rfl

/-! ### Entries -/

/-- The entries, in the order of the slots. -/
def tableEntries (data : List (Bucket κ υ)) : List (κ × υ) := data.filterMap Bucket.pair?

omit [DecidableEq κ] in
theorem mem_entries {data : List (Bucket κ υ)} {k : κ} {v : υ} :
    (k, v) ∈ tableEntries data ↔ .live k v ∈ data := by
  unfold tableEntries
  rw [List.mem_filterMap]
  constructor
  · rintro ⟨_ | _ | ⟨k', v'⟩, hmem, heq⟩
    · cases heq
    · cases heq
    · cases heq
      exact hmem
  · exact fun hmem => ⟨_, hmem, rfl⟩

omit [DecidableEq κ] in
theorem keys_entries (data : List (Bucket κ υ)) :
    (tableEntries data).map Prod.fst = data.filterMap Bucket.key? := by
  induction data with
  | nil => rfl
  | cons slot data ih => rcases slot with _ | _ | ⟨k, v⟩ <;>
    simpa [tableEntries, List.filterMap_cons] using ih

omit [DecidableEq κ] in
theorem Layout.nodup_keys {data : List (Bucket κ υ)} (h : Layout hash data) :
    (data.filterMap Bucket.key?).Nodup := by
  rw [List.Nodup, List.pairwise_filterMap]
  refine h.pairwise.imp fun hab k hk k' hk' hkk => ?_
  subst hkk
  exact hab k hk hk'

omit [DecidableEq κ] in
theorem Holds.length_entries (h : Holds hash t m) : (tableEntries t.data).length = t.count := by
  rw [h.count_eq]
  generalize t.data = data
  induction data with
  | nil => rfl
  | cons slot data ih =>
    rcases slot with _ | _ | ⟨k, v⟩ <;>
      simpa [tableEntries, List.filterMap_cons, List.countP_cons, Bucket.isLive] using ih

omit [DecidableEq κ] in
theorem Holds.mem_keys (h : Holds hash t m) {k : κ} :
    k ∈ t.data.filterMap Bucket.key? ↔ m k ≠ none := by
  rw [← keys_entries, List.mem_map, Option.ne_none_iff_exists']
  constructor
  · rintro ⟨⟨k', v⟩, hmem, rfl⟩
    exact ⟨v, (h.mem_iff k' v).mp (mem_entries.mp hmem)⟩
  · rintro ⟨v, hv⟩
    exact ⟨(k, v), mem_entries.mpr ((h.mem_iff k v).mpr hv), rfl⟩

/-- Whatever is done with a table, no NULL is written through and it answers as a finite map does;
it has the entries of that map, each once, and counts them. -/
theorem runOps_spec (hash : κ → Int32) {capacity : ℕ} (ops : List (TableOp κ υ))
    (hcapacity : capacity < 2 ^ 30) (hops : ops.length < 2 ^ 29) :
    ∃ t', (janetTable capacity).bind (runOps hash ops) =
        some ((opsOnMap ops fun _ => none).1, t') ∧
      ((tableEntries t'.data).map Prod.fst).Nodup ∧
      (∀ k v, (k, v) ∈ tableEntries t'.data ↔ (opsOnMap ops fun _ => none).2 k = some v) ∧
      t'.count = (tableEntries t'.data).length ∧ 2 * (t'.count + t'.deleted) ≤ t'.data.length := by
  obtain ⟨t, htable, hcount, hnew : Holds hash t fun _ => none⟩ := holds_janetTable hcapacity
  obtain ⟨t', hrun, -, h⟩ := hnew.runOps ops (by omega)
  refine ⟨t', by rw [htable, Option.bind_some, hrun], ?_,
    fun k v => mem_entries.trans (h.mem_iff k v), h.length_entries.symm, h.room⟩
  rw [keys_entries]
  exact h.nodup_keys

/-- `janet_hash` of a boolean. -/
def booleanHash (b : Bool) : Int32 := if b then 1 else 0

/-- A key is put, stays when it is put without overwriting, is removed, and is not there any more.
-/
theorem runOps_spec_boolean : ∃ t' : Table Bool ℕ,
    (janetTable 0).bind (runOps booleanHash
        [.put (some true) (some 7), .putNoOverwrite true 8, .remove true, .get true]) =
        some ([none, none, some 7, none], t') ∧
      2 * (t'.count + t'.deleted) ≤ t'.data.length := by
  have hcapacity : 0 < 2 ^ 30 := by decide
  obtain ⟨t', hrun, -, -, -, hroom⟩ := runOps_spec booleanHash
    [.put (some true) (some 7), .putNoOverwrite true 8, .remove true, .get true]
    hcapacity (by decide)
  exact ⟨t', hrun, hroom⟩

/-! ### Iterating -/

variable (hash) in
/-- An iteration with `next` that stores a value under each key it meets, computed from the old
one; with the keys that it has met. -/
def eachPut (f : κ → υ → υ) : (fuel : ℕ) → Table κ υ → Option κ → Option (List κ × Table κ υ)
  | 0, _, _ => none
  | fuel + 1, t, key =>
    match janetNext hash t.data key with
    | none => none
    | some none => some ([], t)
    | some (some k) =>
      (put hash t (some k) ((rawget hash t k).map (f k))).bind fun t =>
        (eachPut f fuel t (some k)).map fun (keys, t) => (k :: keys, t)

/-- The iteration goes on at the slot `p`. -/
def GoesOn (data : List (Bucket κ υ)) (p : ℕ) : Option κ → Prop
  | none => p = 0
  | some k => ∃ i, p = i + 1 ∧ keyAt data i = some k

theorem GoesOn.janetNext {data : List (Bucket κ υ)} {p : ℕ} {key : Option κ} (h : Layout hash data)
    (hp : GoesOn data p key) :
    janetNext hash data key = some ((data.drop p).findSome? Bucket.key?) := by
  cases key with
  | none =>
    obtain rfl : p = 0 := hp
    rfl
  | some k =>
    obtain ⟨i, rfl, hkey⟩ := hp
    obtain ⟨v, hv⟩ := keyAt_eq_some_iff.mp hkey
    rw [HashTable.janetNext, h.find_of_live hv]
    rfl

omit [DecidableEq κ] in
/-- The first key behind a slot, and those behind it. -/
theorem exists_of_findSome? {data : List (Bucket κ υ)} {k : κ}
    (h : data.findSome? Bucket.key? = some k) : ∃ i, keyAt data i = some k ∧
      data.filterMap Bucket.key? = k :: (data.drop (i + 1)).filterMap Bucket.key? := by
  induction data with
  | nil => cases h
  | cons slot data ih =>
    cases hslot : slot.key? with
    | some k' =>
      rw [List.findSome?_cons, hslot] at h
      cases h
      exact ⟨0, hslot, List.filterMap_cons_some hslot⟩
    | none =>
      rw [List.findSome?_cons, hslot] at h
      obtain ⟨i, hi, hrest⟩ := ih h
      exact ⟨i + 1, hi, (List.filterMap_cons_none hslot).trans hrest⟩

theorem Holds.eachPut {fuel p : ℕ} {key : Option κ} (h : Holds hash t m) (f : κ → υ → υ)
    (hp : GoesOn t.data p key) (hfuel : ((t.data.drop p).filterMap Bucket.key?).length < fuel) :
    ∃ t', eachPut hash f fuel t key = some ((t.data.drop p).filterMap Bucket.key?, t') ∧
      Holds hash t' fun k =>
        if k ∈ (t.data.drop p).filterMap Bucket.key? then (m k).map (f k) else m k := by
  induction fuel generalizing t m p key with
  | zero => cases hfuel
  | succ fuel ih =>
    have hnext := hp.janetNext h.toLayout
    cases hfirst : (t.data.drop p).findSome? Bucket.key? with
    | none =>
      have hnil : (t.data.drop p).filterMap Bucket.key? = [] :=
        List.filterMap_eq_nil_iff.mpr (List.findSome?_eq_none_iff.mp hfirst)
      refine ⟨t, ?_, ?_⟩
      · rw [HashTable.eachPut, hnext, hfirst, hnil]
      · simpa [hnil] using h
    | some k =>
      obtain ⟨i, hi, hkeys⟩ := exists_of_findSome? hfirst
      rw [keyAt, List.getElem?_drop] at hi
      obtain ⟨v, hv⟩ := keyAt_eq_some_iff.mp hi
      have hmk : m k = some v := (h.mem_iff k v).mp (List.mem_of_getElem? hv)
      obtain ⟨hput, h₁⟩ := h.put_live hv (f k v)
      have hlen := lt_of_getElem?_eq hv
      -- the slots behind this one are as they were
      have hdrop : (t.data.set (p + i) (.live k (f k v))).drop (p + i + 1) =
          (t.data.drop p).drop (i + 1) := by
        rw [List.drop_set_of_lt (by omega), List.drop_drop, Nat.add_assoc]
      have hgoes : GoesOn (t.data.set (p + i) (.live k (f k v))) (p + i + 1) (some k) := by
        refine ⟨p + i, rfl, ?_⟩
        rw [keyAt_set hlen, Function.update_self]
        rfl
      rw [hkeys, List.length_cons] at hfuel
      obtain ⟨t', hrun, hholds⟩ := ih h₁ hgoes (by
        dsimp only
        rw [hdrop]
        omega)
      dsimp only at hrun hholds
      rw [hdrop] at hrun hholds
      have hnodup : (k :: ((t.data.drop p).drop (i + 1)).filterMap Bucket.key?).Nodup := by
        rw [← hkeys]
        exact h.nodup_keys.sublist ((List.drop_sublist p t.data).filterMap _)
      refine ⟨t', ?_, ?_⟩
      · rw [HashTable.eachPut, hnext, hfirst]
        dsimp only
        rw [h.rawget, hmk, Option.map_some, hput, Option.bind_some, hrun, hkeys]
        rfl
      · rw [hkeys]
        convert hholds using 2 with k'
        by_cases hkk : k' = k
        · subst hkk
          rw [if_pos (List.mem_cons_self ..), if_neg (List.nodup_cons.mp hnodup).1, hmk,
            Function.update_self, Option.map_some]
        · simp [hkk]

/-- An iteration that stores a value under each key it meets meets every key once, in the order of
the slots, and has then changed every value. -/
theorem eachPut_spec {f : κ → υ → υ} (h : Holds hash t m) :
    ∃ t', eachPut hash f (t.count + 1) t none = some ((tableEntries t.data).map Prod.fst, t') ∧
      ((tableEntries t.data).map Prod.fst).Nodup ∧
      (∀ k, k ∈ (tableEntries t.data).map Prod.fst ↔ m k ≠ none) ∧
      Holds hash t' fun k => (m k).map (f k) := by
  have hlen : (t.data.filterMap Bucket.key?).length = t.count := by
    rw [← keys_entries, List.length_map, h.length_entries]
  have hstart : GoesOn t.data 0 none := rfl
  have hfuel : ((t.data.drop 0).filterMap Bucket.key?).length < t.count + 1 := by
    rw [List.drop_zero, hlen]
    exact Nat.lt_succ_self _
  obtain ⟨t', hrun, hholds⟩ := h.eachPut f hstart hfuel
  rw [List.drop_zero] at hrun hholds
  rw [keys_entries]
  refine ⟨t', hrun, h.nodup_keys, fun k => h.mem_keys, ?_⟩
  convert hholds using 2 with k
  simp only [h.mem_keys]
  cases m k <;> simp

/-- Three keys, of which one was removed again, that all belong at the first slot. -/
def removeOps : List (TableOp ℕ ℕ) :=
  [.put (some 0) (some 5), .put (some 1) (some 6), .put (some 2) (some 7), .remove 1]

theorem eachPut_spec_removeOps : ∃ t t',
    (janetTable 4).bind (runOps (fun _ => 0) removeOps) = some ([none, none, none, some 6], t) ∧
      t.data = [.live 0 5, .deleted, .live 2 7, .empty, .empty, .empty, .empty, .empty] ∧
      eachPut (fun _ => 0) (fun k v => k + v) 3 t none = some ([0, 2], t') ∧
      rawget (fun _ => 0) t' 0 = some 5 ∧ rawget (fun _ => 0) t' 1 = none ∧
      rawget (fun _ => 0) t' 2 = some 9 := by
  have hcapacity : 4 < 2 ^ 30 := by decide
  obtain ⟨t₀, htable, -, hnew : Holds (fun _ => 0) t₀ fun _ => (none : Option ℕ)⟩ :=
    holds_janetTable hcapacity
  cases htable
  obtain ⟨t, hops, -, h⟩ := hnew.runOps removeOps (by decide)
  cases hops
  obtain ⟨t', hrun, -, -, hholds⟩ := eachPut_spec (f := fun k v => k + v) h
  exact ⟨_, t', rfl, rfl, hrun, hholds.rawget 0, hholds.rawget 1, hholds.rawget 2⟩

/-- Removing the key that was met last is something else: its bucket is not found any more, and the
iteration goes on behind the empty one that is. -/
example : ∃ t : Table ℕ ℕ, (janetTable 0).bind (runOps (fun _ => 0)
      [.put (some 0) (some 5), .put (some 1) (some 6), .remove 0]) =
        some ([none, none, some 5], t) ∧
    rawget (fun _ => 0) t 1 = some 6 ∧ janetNext (fun _ => 0) t.data (some 0) = some none :=
  ⟨_, rfl, rfl, rfl⟩

/-! ### Several tables -/

theorem lookup_cons_ite (k k' : κ) (v : υ) (l : List (κ × υ)) :
    ((k, v) :: l).lookup k' = if k' = k then some v else l.lookup k' := by
  rw [List.lookup_cons]
  by_cases h : k' = k
  · simp [h]
  · rw [if_neg h, beq_false_of_ne h]

theorem lookup_eq_some_iff {l : List (κ × υ)} (h : (l.map Prod.fst).Nodup) {k : κ} {v : υ} :
    l.lookup k = some v ↔ (k, v) ∈ l := by
  induction l with
  | nil => simp
  | cons e l ih =>
    obtain ⟨k', v'⟩ := e
    rw [List.map_cons, List.nodup_cons] at h
    rw [lookup_cons_ite, List.mem_cons, Prod.mk.injEq]
    by_cases hk : k = k'
    · subst hk
      have hno : (k, v) ∉ l := fun hmem => h.1 (List.mem_map.mpr ⟨(k, v), hmem, rfl⟩)
      simp [hno, eq_comm]
    · simp [hk, ih h.2]

/-- The entries as a list that is looked up in, in either direction. -/
theorem Holds.lookup_entries (h : Holds hash t m) (k : κ) :
    (tableEntries t.data).lookup k = m k ∧ (tableEntries t.data).reverse.lookup k = m k := by
  have hnodup : ((tableEntries t.data).map Prod.fst).Nodup := by
    rw [keys_entries]
    exact h.nodup_keys
  have hreverse : ((tableEntries t.data).reverse.map Prod.fst).Nodup := by
    rwa [List.map_reverse, List.nodup_reverse]
  constructor
  · exact Option.ext fun v => by rw [lookup_eq_some_iff hnodup, mem_entries, h.mem_iff]
  · exact Option.ext fun v => by
      rw [lookup_eq_some_iff hreverse, List.mem_reverse, mem_entries, h.mem_iff]

/-- The entries of some slots are added, but for those whose keys are there already. -/
theorem Holds.flattenLoop (h : Holds hash t m) (kvs : List (Bucket κ υ))
    (hcount : t.count + (tableEntries kvs).length < 2 ^ 29) :
    ∃ t', flattenLoop hash kvs t = some t' ∧ t'.count ≤ t.count + (tableEntries kvs).length ∧
      Holds hash t' fun k => (m k).or ((tableEntries kvs).lookup k) := by
  induction kvs generalizing t m with
  | nil => exact ⟨t, rfl, Nat.le_refl _, by simpa [tableEntries] using h⟩
  | cons slot kvs ih =>
    rcases slot with _ | _ | ⟨k, v⟩
    · exact ih h hcount
    · exact ih h hcount
    · have hcons : tableEntries (.live k v :: kvs) = (k, v) :: tableEntries kvs := rfl
      rw [hcons, List.length_cons] at hcount
      obtain ⟨t₁, hput, hcount₁, h₁⟩ := h.putNoOverwrite (by omega) k v
      obtain ⟨t', hrun, hcount', hholds⟩ := ih h₁ (by omega)
      refine ⟨t', ?_, ?_, ?_⟩
      · rw [HashTable.flattenLoop, hput]
        exact hrun
      · rw [hcons, List.length_cons]
        omega
      · convert hholds using 2 with k'
        rw [hcons, lookup_cons_ite]
        by_cases hkk : k' = k
        · subst hkk
          rw [if_pos rfl, Function.update_self]
          cases m k' <;> rfl
        · rw [if_neg hkk, Function.update_of_ne hkk]

/-- The entries of some slots are stored, the last one of a key last. -/
theorem Holds.mergekv {kvs : List (Bucket κ υ)} (h : Holds hash t m)
    (hcount : t.count + (tableEntries kvs).length < 2 ^ 29) :
    ∃ t', mergekv hash t kvs = some t' ∧
      Holds hash t' fun k => ((tableEntries kvs).reverse.lookup k).or (m k) := by
  induction kvs generalizing t m with
  | nil => exact ⟨t, rfl, by simpa [tableEntries] using h⟩
  | cons slot kvs ih =>
    rcases slot with _ | _ | ⟨k, v⟩
    · exact ih h hcount
    · exact ih h hcount
    · have hcons : tableEntries (.live k v :: kvs) = (k, v) :: tableEntries kvs := rfl
      rw [hcons, List.length_cons] at hcount
      obtain ⟨t₁, hput, hcount₁, h₁⟩ := h.put (by omega) (some k) (some v)
      obtain ⟨t', hrun, hholds⟩ := ih h₁ (by omega)
      refine ⟨t', ?_, ?_⟩
      · rw [HashTable.mergekv, hput]
        exact hrun
      · convert hholds using 2 with k'
        rw [hcons, List.reverse_cons, List.lookup_append, Option.or_assoc, lookup_cons_ite,
          mapPut]
        by_cases hkk : k' = k
        · subst hkk
          rw [if_pos rfl, Function.update_self, Option.some_or]
        · rw [if_neg hkk, Function.update_of_ne hkk, List.lookup_nil, Option.none_or]

/-- Merging a table into another: its values win. -/
theorem Holds.merge {other : Table κ υ} {m' : κ → Option υ} (h : Holds hash t m)
    (h' : Holds hash other m') (hcount : t.count + other.count < 2 ^ 29) :
    ∃ merged, HashTable.mergekv hash t other.data = some merged ∧
      Holds hash merged fun k => (m' k).or (m k) := by
  rw [← h'.length_entries] at hcount
  obtain ⟨merged, hrun, hholds⟩ := h.mergekv hcount
  refine ⟨merged, hrun, ?_⟩
  convert hholds using 2 with k
  rw [(h'.lookup_entries k).2]

theorem Holds.foldlM_flattenLoop {protos : List (Table κ υ)} (h : Holds hash t m)
    (hprotos : ∀ p ∈ protos, ∃ m', Holds hash p m')
    (hcount : t.count + (protos.map Table.count).sum < 2 ^ 29) :
    ∃ t', protos.foldlM (fun newTable p => HashTable.flattenLoop hash p.data newTable) t =
        some t' ∧
      Holds hash t' fun k => (m k).or (protos.findSome? fun p => HashTable.rawget hash p k) := by
  induction protos generalizing t m with
  | nil => exact ⟨t, rfl, by simpa using h⟩
  | cons p protos ih =>
    rw [List.map_cons, List.sum_cons] at hcount
    obtain ⟨m', hp⟩ := hprotos p (List.mem_cons_self ..)
    have hlen := hp.length_entries
    obtain ⟨t₁, hrun₁, hcount₁, h₁⟩ := h.flattenLoop p.data (by omega)
    obtain ⟨t', hrun, hholds⟩ :=
      ih h₁ (fun q hq => hprotos q (List.mem_cons_of_mem _ hq)) (by omega)
    refine ⟨t', ?_, ?_⟩
    · rw [List.foldlM_cons, hrun₁]
      exact hrun
    · convert hholds using 2 with k
      rw [List.findSome?_cons, (hp.lookup_entries k).1, hp.rawget, Option.or_assoc]
      cases m' k <;> rfl

/-- Looking a key up in a chain of tables is looking it up in the flattened table, as long as the
chain is not longer than lookups go. -/
theorem janetTableGet_protoFlatten {protos : List (Table κ υ)}
    (hprotos : ∀ p ∈ protos, ∃ m, Holds hash p m)
    (hcount : (protos.map Table.count).sum < 2 ^ 29) (hdepth : protos.length ≤ maxProtoDepth) :
    ∃ t, protoFlatten hash protos = some t ∧
      ∀ k, rawget hash t k = janetTableGet hash protos k := by
  obtain ⟨t₀, htable, hcount₀, hnew : Holds hash t₀ fun _ => none⟩ :=
    holds_janetTable (Nat.two_pow_pos 30)
  obtain ⟨t, hrun, hholds⟩ := hnew.foldlM_flattenLoop hprotos (by omega)
  refine ⟨t, ?_, fun k => ?_⟩
  · have hnull : janetTable 0 = some t₀ := htable
    rw [protoFlatten, hnull]
    exact hrun
  · rw [hholds.rawget, Option.none_or, janetTableGet, List.take_of_length_le hdepth]

end

/-- A new table whose prototype has the key. -/
theorem janetTableGet_protoFlatten_boolean : ∃ t : Table Bool ℕ,
    protoFlatten booleanHash
        [⟨0, 0, [.empty]⟩, ⟨1, 0, [.empty, .live true 7, .empty, .empty]⟩] = some t ∧
      rawget booleanHash t true = some 7 := by
  have h : Holds booleanHash (⟨0, 0, List.replicate (2 ^ 2) .empty⟩ : Table Bool ℕ) fun _ => none :=
    holds_empty 2
  obtain ⟨t₁, hput, -, -, h₁⟩ := h.putInto (k := true) (v := 7) rfl (by decide)
  cases hput
  have hprotos : ∀ p ∈ ([⟨0, 0, [.empty]⟩, ⟨1, 0, [.empty, .live true 7, .empty, .empty]⟩] :
      List (Table Bool ℕ)), ∃ m, Holds booleanHash p m := by
    intro p hp
    rcases List.mem_cons.mp hp with rfl | hp
    · exact ⟨_, holds_empty 0⟩
    · rw [List.mem_singleton.mp hp]
      exact ⟨_, h₁⟩
  obtain ⟨t, hrun, hget⟩ := janetTableGet_protoFlatten hprotos (by decide) (by decide)
  exact ⟨t, hrun, hget true⟩

end AhungryJanet.HashTable
