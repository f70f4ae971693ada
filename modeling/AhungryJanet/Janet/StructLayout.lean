import AhungryJanet.Janet.Struct
import AhungryJanet.Janet.TableRun
import Mathlib.Data.List.Perm.Subperm

/-!
# The layout of a struct

A struct has room for all its entries, and at least one empty slot, so putting goes on until
everything is settled. What comes out is decided by the entries alone.

## Main results

* `structOf_eq_of_lastPut` — structs of the same entries are the same, slot by slot
* `structRawget_structOf` — finding a key in one is finding what was put last under it
* `tableToStruct_runOps` — tables with the same entries are made into the same struct
-/

namespace AhungryJanet.Struct

open Probing DeferredAcceptance HashTable

section

variable {κ υ : Type} {K : KeyOrder κ} {data : Slots κ υ}

/-! ### What a struct holds -/

/-- The keys `l` were put one after another, the entries are those of `m`, and there are more than
twice as many slots as `room`. -/
structure Filled (K : KeyOrder κ) (room : ℕ) (data : Slots κ υ) (l : List κ) (m : κ → Option υ) :
    Prop where
  length_eq : data.length = (structCapacity room).toNat
  built : Built (market K data.length) l (keyOf data)
  mem_iff : ∀ k v, some (k, v) ∈ data ↔ m k = some v

variable {room : ℕ} {l : List κ} {m : κ → Option υ}

theorem exists_slot_iff {k : κ} : (∃ s, keyOf data s = some k) ↔ ∃ v, some (k, v) ∈ data := by
  simp only [keyOf_eq_some_iff, List.mem_iff_getElem?]
  exact exists_comm

theorem Filled.size (h : Filled K room data l m) (hroom : room < 2 ^ 30 - 1) :
    ∃ j, data.length = 2 ^ j ∧ room < 2 ^ j := by
  obtain ⟨j, hj, hlt⟩ := structCapacity_spec hroom
  exact ⟨j, by rw [h.length_eq, hj, Int.toNat_natCast], hlt⟩

theorem Filled.mem_keys (h : Filled K room data l m) {k : κ} : k ∈ l ↔ m k ≠ none := by
  rw [← h.built.settled.2, exists_slot_iff, Option.ne_none_iff_exists']
  exact exists_congr fun v => h.mem_iff k v

theorem nodup_of_built {S : Type} [DecidableEq S] {M : Market κ S} {holds : S → Option κ}
    (h : Built M l holds) : l.Nodup := by
  induction h with
  | nil => exact List.nodup_nil
  | cons hbuilt hnew _ ih =>
    refine List.nodup_cons.mpr ⟨fun hmem => ?_, ih⟩
    obtain ⟨s, hs⟩ := (hbuilt.settled.2 _).mpr hmem
    exact hnew s hs

/-- The keys of the slots, in order. -/
def slotKeys (data : Slots κ υ) : List κ := data.filterMap (·.map Prod.fst)

theorem Filled.slotKeys_perm (h : Filled K room data l m) : (slotKeys data).Perm l := by
  have hset := h.built.settled
  refine (List.perm_ext_iff_of_nodup ?_ (nodup_of_built h.built)).mpr fun k => ?_
  · rw [slotKeys, List.Nodup, List.pairwise_filterMap, List.pairwise_iff_getElem]
    intro i j hi hj hij k hk k' hk' hkk
    subst hkk
    have hslot : ∀ s (hs : s < data.length), data[s].map Prod.fst = some k →
        keyOf data s = some k := by
      intro s hs heq
      rw [keyOf, List.getElem?_eq_getElem hs]
      exact heq
    have := hset.1.slot_unique (hslot i hi hk) (hslot j hj hk')
    omega
  · rw [← hset.2, exists_slot_iff, slotKeys, List.mem_filterMap]
    constructor
    · rintro ⟨_ | ⟨k', v⟩, hmem, heq⟩
      · cases heq
      · cases heq
        exact ⟨v, hmem⟩
    · rintro ⟨v, hmem⟩
      exact ⟨_, hmem, rfl⟩

/-- As long as there is room, a slot is empty. -/
theorem Filled.exists_empty (h : Filled K room data l m) (hroom : room < 2 ^ 30 - 1)
    (hl : l.length ≤ room) : ∃ e : ℕ, data[e]? = some none := by
  by_contra hnone
  have hall : ∀ x ∈ data, (x.map Prod.fst).isSome := by
    intro x hx
    obtain ⟨e, he⟩ := List.mem_iff_getElem?.mp hx
    cases x with
    | none => exact absurd ⟨e, he⟩ hnone
    | some kv => rfl
  have hlen : (slotKeys data).length = data.length := List.filterMap_length_eq_length.mpr hall
  obtain ⟨j, hj, hlt⟩ := h.size hroom
  rw [h.slotKeys_perm.length_eq, hj] at hlen
  omega

theorem filled_replicate (count : ℕ) :
    Filled K count (List.replicate (structCapacity count).toNat (none : Option (κ × υ))) []
      fun _ => none := by
  have hkeys : keyOf (List.replicate (structCapacity count).toNat (none : Option (κ × υ))) =
      fun _ => none := by
    funext s
    unfold keyOf
    by_cases hs : s < (structCapacity count).toNat
    · simp [hs]
    · simp [hs]
  refine ⟨List.length_replicate, ?_, fun k v => ⟨fun hmem => ?_, fun hnone => nomatch hnone⟩⟩
  · rw [hkeys]
    exact .nil
  · cases List.eq_of_mem_replicate hmem

/-! ### Putting -/

variable [DecidableEq κ]

/-- Where putting a key leads to: its value is replaced, or it is one key more. -/
theorem Filled.putLoop (h : Filled K room data l m) (hroom : room < 2 ^ 30 - 1)
    (hl : l.length < room)
    (key : κ) (value : υ) :
    ∃ data' l', Struct.putLoop K true (probe data.length (maphash data.length (K.hash key))) data 0
        (K.hash key) key value = (data', decide (m key = none)) ∧
      Filled K room data' l' (Function.update m key (some value)) ∧
      l'.length = if m key = none then l.length + 1 else l.length := by
  obtain ⟨e, he⟩ := h.exists_empty hroom hl.le
  obtain ⟨hset, hall⟩ := h.built.settled
  have hcap : ∃ j, data.length = 2 ^ j := (h.size hroom).imp fun _ hj => hj.1
  have hhome := maphash_lt hcap (K.hash key)
  have hnil : Refused (market K data.length) (keyOf data) key 0 :=
    fun i hi => absurd hi (Nat.not_lt_zero i)
  rw [probe_eq_visits hhome]
  cases hk : m key with
  | none =>
    have hnew : ∀ s, keyOf data s ≠ some key := by
      intro s hs
      obtain ⟨v, hv⟩ := keyOf_eq_some_iff.mp hs
      rw [(h.mem_iff key v).mp (List.mem_of_getElem? hv)] at hk
      cases hk
    obtain ⟨data', hrun, hcomes, hlen, hmem⟩ := putLoop_of_notLive true key value
      hcap rfl hset hnew hnil hhome rfl he (Nat.zero_le _) (Nat.zero_add _)
    refine ⟨data', key :: l, hrun, ⟨hlen.trans h.length_eq, ?_, fun k v => ?_⟩, rfl⟩
    · rw [hlen]
      exact .cons h.built hnew hcomes
    · rw [hmem, h.mem_iff, Prod.mk.injEq]
      by_cases hkk : k = key
      · subst hkk
        simp [hk, eq_comm]
      · simp [hkk]
  | some v₀ =>
    obtain ⟨p, hp⟩ := List.mem_iff_getElem?.mp ((h.mem_iff key v₀).mpr hk)
    obtain ⟨n, hn, hplaced⟩ := hset.placed (keyOf_eq_some_iff.mpr ⟨v₀, hp⟩)
    have hrun := putLoop_of_live true value hcap rfl hset hp hn
      hplaced.refused he (Nat.zero_le n) (Nat.zero_add _)
    have hlen := length_of_getElem?_eq hp
    have hkeys : keyOf (data.set p (some (key, value))) = keyOf data := by
      rw [keyOf_set hlen]
      exact Function.update_eq_self_iff.mpr (keyOf_eq_some_iff.mpr ⟨v₀, hp⟩).symm
    refine ⟨_, l, hrun, ⟨?_, ?_, fun k v => ?_⟩, rfl⟩
    · rw [if_pos rfl, List.length_set]
      exact h.length_eq
    · rw [if_pos rfl, List.length_set, hkeys]
      exact h.built
    · rw [if_pos rfl]
      by_cases hkk : k = key
      · subst hkk
        rw [Function.update_self, Option.some.injEq]
        constructor
        · intro hmem
          obtain ⟨s, hs⟩ := List.mem_iff_getElem?.mp hmem
          have hslot : s = p := by
            refine hset.slot_unique ?_ (keyOf_eq_some_iff.mpr ⟨v₀, hp⟩)
            rw [← hkeys]
            exact keyOf_eq_some_iff.mpr ⟨v, hs⟩
          rw [hslot, List.getElem?_set_self hlen] at hs
          cases hs
          rfl
        · rintro rfl
          exact List.mem_set hlen _
      · have hmem := mem_set_iff (x := some (key, value)) hp (e := (k, v))
        rw [Function.update_of_ne hkk, ← h.mem_iff]
        simpa [hkk, Ne.symm hkk] using hmem

/-- A struct that is being built counts what it holds. -/
structure Building (K : KeyOrder κ) (st : Builder κ υ) (l : List κ) (m : κ → Option υ) : Prop
    extends Filled K st.length st.data l m where
  hash_eq : st.hash = l.length

omit [DecidableEq κ] in
theorem building_structBegin {count : ℕ} (h : count < 2 ^ 30 - 1) :
    ∃ st : Builder κ υ, structBegin count = some st ∧ st.length = count ∧
      Building K st [] fun _ => none := by
  refine ⟨_, structBegin_eq h, rfl, ?_, rfl⟩
  dsimp only
  exact filled_replicate count

/-- `janet_struct_put`, while there is room. -/
theorem Building.structPut {st : Builder κ υ} (h : Building K st l m)
    (hroom : st.length < 2 ^ 30 - 1)
    (hl : l.length < st.length) (key : κ) (value : υ) :
    (structPut K st (some key) (some value)).length = st.length ∧
      ∃ l', l'.length ≤ l.length + 1 ∧
        Building K (structPut K st (some key) (some value)) l'
          (Function.update m key (some value)) := by
  obtain ⟨data', l', hrun, hfilled, hlen⟩ := h.putLoop hroom hl key value
  have hput : Struct.structPut K st (some key) (some value) =
      ⟨st.length, if m key = none then st.hash + 1 else st.hash, data'⟩ := by
    have hne : st.hash ≠ st.length := by
      have := h.hash_eq
      omega
    rw [Struct.structPut, structPutExt, if_neg hne]
    dsimp only
    rw [hrun]
    by_cases hk : m key = none <;> simp [hk]
  rw [hput]
  refine ⟨rfl, l', ?_, hfilled, ?_⟩
  · rw [hlen]
    split <;> omega
  · rw [hlen, ← h.hash_eq]

/-- The pairs of a list that are put: neither the key nor the value is nil. -/
def effective (kvs : List (Option κ × Option υ)) : List (κ × υ) :=
  kvs.filterMap fun
    | (some k, some v) => some (k, v)
    | _ => none

/-- What is found under a key that was put, maybe more than once. -/
def lastPut (kvs : List (Option κ × Option υ)) (k : κ) : Option υ :=
  (effective kvs).reverse.lookup k

/-- Putting a list, for which there is room. -/
theorem Building.foldl {st : Builder κ υ} (h : Building K st l m)
    (kvs : List (Option κ × Option υ)) (hroom : st.length < 2 ^ 30 - 1)
    (hl : l.length + (effective kvs).length ≤ st.length) :
    (kvs.foldl (fun st kv => Struct.structPut K st kv.1 kv.2) st).length = st.length ∧
      ∃ l', l'.length ≤ st.length ∧
        Building K (kvs.foldl (fun st kv => Struct.structPut K st kv.1 kv.2) st) l'
          fun k => (lastPut kvs k).or (m k) := by
  induction kvs generalizing st l m with
  | nil =>
    refine ⟨rfl, l, by omega, ?_⟩
    simpa [lastPut, effective] using h
  | cons kv kvs ih =>
    obtain ⟨_ | key, _ | value⟩ := kv
    · exact ih h hroom hl
    · exact ih h hroom hl
    · exact ih h hroom hl
    · have hcons : effective ((some key, some value) :: kvs) = (key, value) :: effective kvs := rfl
      rw [hcons, List.length_cons] at hl
      obtain ⟨hlength, l₁, hle, h₁⟩ := h.structPut hroom (by omega) key value
      obtain ⟨hlength', l', hle', h'⟩ := ih h₁ (by omega) (by omega)
      rw [List.foldl_cons]
      refine ⟨hlength'.trans hlength, l', by omega, ?_⟩
      convert h' using 2 with k
      rw [lastPut, hcons, List.reverse_cons, List.lookup_append, Option.or_assoc,
        lookup_cons_ite, lastPut]
      by_cases hkk : k = key
      · rw [if_pos hkk, hkk, Function.update_self, Option.some_or]
      · rw [if_neg hkk, Function.update_of_ne hkk, List.lookup_nil, Option.none_or]

/-! ### What comes out -/

/-- A struct that is done: it has been made for just the entries that it has. -/
def Done (K : KeyOrder κ) (data : Slots κ υ) (m : κ → Option υ) : Prop :=
  ∃ l : List κ, l.length < 2 ^ 30 - 1 ∧ Filled K l.length data l m

omit [DecidableEq κ] in
/-- It is decided by its entries. -/
theorem Done.unique {data' : Slots κ υ} (h : Done K data m) (h' : Done K data' m) :
    data = data' := by
  obtain ⟨l, -, hl⟩ := h
  obtain ⟨l', -, hl'⟩ := h'
  have hmem : ∀ k, k ∈ l ↔ k ∈ l' := fun k => hl.mem_keys.trans hl'.mem_keys.symm
  have hperm : l.Perm l' :=
    (List.perm_ext_iff_of_nodup (nodup_of_built hl.built) (nodup_of_built hl'.built)).mpr hmem
  have hlen : data.length = data'.length := by
    rw [hl.length_eq, hl'.length_eq, hperm.length_eq]
  have hbuilt' := hl'.built
  rw [← hlen] at hbuilt'
  have hkeys := hl.built.unique hbuilt' hmem
  apply List.ext_getElem? fun s => ?_
  have hkey := congrFun hkeys s
  cases hx : data[s]? with
  | none =>
    rw [List.getElem?_eq_none_iff] at hx
    exact (List.getElem?_eq_none_iff.mpr (hlen ▸ hx)).symm
  | some x =>
    have hs : s < data'.length := hlen ▸ length_of_getElem?_eq hx
    rw [List.getElem?_eq_getElem hs]
    rw [keyOf, hx, keyOf, List.getElem?_eq_getElem hs, Option.bind_some, Option.bind_some] at hkey
    rcases x with _ | ⟨k, v⟩
    · rw [Option.map_none, eq_comm, Option.map_eq_none_iff] at hkey
      rw [hkey]
    · rw [Option.map_some, eq_comm, Option.map_eq_some_iff] at hkey
      obtain ⟨⟨k', v'⟩, hx', rfl⟩ := hkey
      have hv := (hl.mem_iff k' v).mp (List.mem_of_getElem? hx)
      have hv' := (hl'.mem_iff k' v').mp (hx' ▸ List.getElem_mem hs)
      rw [hx', Option.some.inj (hv.symm.trans hv')]

/-- The entries of the slots are found as the map has them. -/
theorem Filled.lastPut (h : Filled K room data l m) (k : κ) :
    lastPut (data.map fun kv => (kv.map Prod.fst, kv.map Prod.snd)) k = m k := by
  have heff : effective (data.map fun kv => (kv.map Prod.fst, kv.map Prod.snd)) =
      data.filterMap id := by
    rw [effective, List.filterMap_map]
    refine List.filterMap_congr fun x _ => ?_
    rcases x with _ | ⟨k, v⟩ <;> rfl
  have hkeys : (data.filterMap id).map Prod.fst = slotKeys data := by
    rw [slotKeys, List.map_filterMap]
    rfl
  have hnodup : ((data.filterMap id).reverse.map Prod.fst).Nodup := by
    rw [List.map_reverse, List.nodup_reverse, hkeys]
    exact h.slotKeys_perm.nodup_iff.mpr (nodup_of_built h.built)
  refine Option.ext fun v => ?_
  rw [Struct.lastPut, heff, lookup_eq_some_iff hnodup, List.mem_reverse, List.mem_filterMap,
    ← h.mem_iff]
  simp

omit [DecidableEq κ] in
theorem Filled.length_effective (h : Filled K room data l m) :
    (effective (data.map fun kv => (kv.map Prod.fst, kv.map Prod.snd))).length = l.length := by
  rw [← h.slotKeys_perm.length_eq, slotKeys, effective, List.filterMap_map]
  generalize data = slots
  induction slots with
  | nil => rfl
  | cons x slots ih => rcases x with _ | ⟨k, v⟩ <;> simpa [List.filterMap_cons] using ih

/-- `janet_struct_end`. -/
theorem Building.structEnd {st : Builder κ υ} (h : Building K st l m)
    (hroom : st.length < 2 ^ 30 - 1)
    (hl : l.length ≤ st.length) : ∃ data, structEnd K st = some data ∧ Done K data m := by
  have hhash := h.hash_eq
  unfold Struct.structEnd
  split
  case isFalse heq =>
    refine ⟨_, rfl, l, by omega, ?_⟩
    rw [show l.length = st.length by omega]
    exact h.toFilled
  case isTrue =>
    have hsmall : st.hash < 2 ^ 30 - 1 := by omega
    obtain ⟨newst, hnewst, hlen, hbegin : Building K newst [] fun _ => none⟩ :=
      building_structBegin hsmall
    obtain ⟨hlength, l', -, h'⟩ := hbegin.foldl
      (st.data.map fun kv => (kv.map Prod.fst, kv.map Prod.snd)) (by omega) (by
        rw [h.length_effective, ← hhash, hlen, List.length_nil, Nat.zero_add])
    rw [List.foldl_map] at hlength h'
    rw [hnewst, Option.map_some]
    have hfilled := h'.toFilled
    simp only [h.lastPut, Option.or_none] at hfilled
    have hperm : l'.Perm l :=
      (List.perm_ext_iff_of_nodup (nodup_of_built hfilled.built) (nodup_of_built h.built)).mpr
        fun k => hfilled.mem_keys.trans h.mem_keys.symm
    refine ⟨_, rfl, l', by rw [hperm.length_eq]; omega, ?_⟩
    rw [hperm.length_eq, ← hhash, ← hlen, ← hlength]
    exact hfilled

/-- A struct of some keys and values has the values that were put last. -/
theorem done_structOf {kvs : List (Option κ × Option υ)} (hlen : kvs.length < 2 ^ 30 - 1) :
    ∃ data, structOf K kvs = some data ∧ Done K data (lastPut kvs) := by
  have hle : (effective kvs).length ≤ kvs.length := List.length_filterMap_le _ _
  obtain ⟨st, hst, hcount, hbegin : Building K st [] fun _ => none⟩ := building_structBegin hlen
  obtain ⟨hlength, l', hle', h⟩ := hbegin.foldl kvs (by omega) (by
    rw [List.length_nil, hcount]
    omega)
  simp only [Option.or_none] at h
  rw [structOf, hst, Option.bind_some]
  exact h.structEnd (by omega) (by omega)

/-- Structs of the same entries are the same, slot by slot, whatever the order in which they were
put, and whatever was put before under one of their keys. -/
theorem structOf_eq_of_lastPut {kvs kvs' : List (Option κ × Option υ)}
    (hlen : kvs.length < 2 ^ 30 - 1) (hlen' : kvs'.length < 2 ^ 30 - 1)
    (h : ∀ k, lastPut kvs k = lastPut kvs' k) :
    ∃ data, structOf K kvs = some data ∧ structOf K kvs' = some data := by
  obtain ⟨data, hdata, hdone⟩ := done_structOf (K := K) hlen
  obtain ⟨data', hdata', hdone'⟩ := done_structOf (K := K) hlen'
  rw [funext h] at hdone
  exact ⟨data, hdata, by rw [hdata', hdone'.unique hdone]⟩

/-! ### Looking for a key -/

/-- `janet_struct_rawget`. -/
theorem Done.structRawget (h : Done K data m) (k : κ) : structRawget K data k = m k := by
  obtain ⟨l, hroom, hl⟩ := h
  obtain ⟨e, he⟩ := hl.exists_empty hroom (Nat.le_refl _)
  have hecap := length_of_getElem?_eq he
  have hempty : keyOf data e = none := by rw [keyOf, he]; rfl
  have hset := hl.built.settled.1
  have hcap : ∃ j, data.length = 2 ^ j := (hl.size hroom).imp fun _ hj => hj.1
  have hreach : Reachable data.length (fun k => maphash data.length (K.hash k)) (keyOf data)
      (fun s => (keyOf data s).isSome = true) := by
    intro s k hs hk n hn
    obtain ⟨n₀, rfl, hplaced⟩ := hset.placed hk
    have hlt := (lt_of_refused hcap hplaced.refused hecap hempty).trans_lt
      (distance_lt (maphash_lt hcap _))
    have hn₀ : n < n₀ := hn.trans_eq (distance_add (maphash_lt hcap _) hlt)
    obtain ⟨o, ho, -⟩ := hplaced.refused n hn₀
    exact Option.isSome_iff_exists.mpr ⟨o, ho⟩
  have hfind : ∀ s, (probe data.length (maphash data.length (K.hash k))).find?
      (stops (keyOf data) (fun s => (keyOf data s).isSome = true) k) = some s →
      structFind K data k = some s := by
    intro s hs
    rw [structFind, ← hs]
    congr 1
    funext i
    rcases hslot : data[i]? with _ | _ | ⟨k', v'⟩ <;> simp [stops, keyOf, hslot]
  cases hk : m k with
  | some v =>
    obtain ⟨s, hs⟩ := List.mem_iff_getElem?.mp ((hl.mem_iff k v).mpr hk)
    have hfound := hfind s (find?_probe_of_key hreach
      (fun s s' k _ _ hs hs' => hset.slot_unique hs hs') (maphash_lt hcap _)
      (length_of_getElem?_eq hs) (keyOf_eq_some_iff.mpr ⟨v, hs⟩))
    rw [Struct.structRawget, hfound, Option.bind_some, hs]
  | none =>
    have hno : ∀ s < data.length, keyOf data s ≠ some k := by
      intro s _ hs
      obtain ⟨v, hv⟩ := keyOf_eq_some_iff.mp hs
      rw [(hl.mem_iff k v).mp (List.mem_of_getElem? hv)] at hk
      cases hk
    obtain ⟨s, hs, hunused, -, hprobe⟩ :=
      find?_probe_of_unused (fun k => maphash data.length (K.hash k))
        (fun s => (keyOf data s).isSome = true) (maphash_lt hcap _) hno
        ⟨e, hecap, by rw [hempty]; exact Bool.false_ne_true⟩
    rw [Struct.structRawget, hfind s hprobe, Option.bind_some, List.getElem?_eq_getElem hs]
    have hnone : data[s] = none := by
      rcases hx : data[s] with _ | ⟨k', v'⟩
      · rfl
      · exact absurd (by rw [keyOf, List.getElem?_eq_getElem hs, hx]; rfl) hunused
    rw [hnone]

/-- Finding a key in a struct is finding what was put last under it. -/
theorem structRawget_structOf {kvs : List (Option κ × Option υ)}
    (hlen : kvs.length < 2 ^ 30 - 1) :
    ∃ data, structOf K kvs = some data ∧ ∀ k, structRawget K data k = lastPut kvs k := by
  obtain ⟨data, hdata, hdone⟩ := done_structOf (K := K) hlen
  exact ⟨data, hdata, hdone.structRawget⟩

/-! ### From a table -/

/-- `janet_table_to_struct`. -/
def tableToStruct (K : KeyOrder κ) (t : Table κ υ) : Option (Slots κ υ) :=
  (structBegin t.count).bind fun st =>
    structEnd K (t.data.foldl (fun st slot =>
      match slot with
      | .live k v => structPut K st (some k) (some v)
      | _ => st) st)

/-- The entries of a table, as pairs that are put. -/
def tablePairs (t : Table κ υ) : List (Option κ × Option υ) :=
  (tableEntries t.data).map fun kv => (some kv.1, some kv.2)

omit [DecidableEq κ] in
theorem effective_tablePairs (t : Table κ υ) : effective (tablePairs t) = tableEntries t.data := by
  rw [effective, tablePairs, List.filterMap_map]
  exact List.filterMap_some

omit [DecidableEq κ] in
theorem foldl_slots (slots : List (Bucket κ υ)) (st : Builder κ υ) :
    slots.foldl (fun st slot =>
      match slot with
      | .live k v => structPut K st (some k) (some v)
      | _ => st) st =
    ((tableEntries slots).map fun kv => (some kv.1, some kv.2)).foldl
      (fun st kv => structPut K st kv.1 kv.2) st := by
  induction slots generalizing st with
  | nil => rfl
  | cons slot slots ih =>
    rcases slot with _ | _ | ⟨k, v⟩
    · exact ih st
    · exact ih st
    · exact ih _

theorem done_tableToStruct {t : Table κ υ} (h : Holds K.hash t m)
    (hcount : t.count < 2 ^ 30 - 1) : ∃ data, tableToStruct K t = some data ∧ Done K data m := by
  obtain ⟨st, hst, hlen, hbegin : Building K st [] fun _ => none⟩ := building_structBegin hcount
  obtain ⟨hlength, l', hle', hbuilding⟩ := hbegin.foldl (tablePairs t) (by omega) (by
    rw [effective_tablePairs, h.length_entries, List.length_nil, hlen, Nat.zero_add])
  have hlast : ∀ k, lastPut (tablePairs t) k = m k := by
    intro k
    rw [lastPut, effective_tablePairs, (h.lookup_entries k).2]
  simp only [hlast, Option.or_none] at hbuilding
  rw [tableToStruct, hst, Option.bind_some, foldl_slots]
  exact hbuilding.structEnd (by omega) (by omega)

/-- Tables with the same entries are made into one struct, whatever has become of them before. -/
theorem tableToStruct_eq {t t' : Table κ υ} (h : Holds K.hash t m) (h' : Holds K.hash t' m)
    (hcount : t.count < 2 ^ 30 - 1) (hcount' : t'.count < 2 ^ 30 - 1) :
    ∃ data, tableToStruct K t = some data ∧ tableToStruct K t' = some data ∧ Done K data m := by
  obtain ⟨data, hdata, hdone⟩ := done_tableToStruct h hcount
  obtain ⟨data', hdata', hdone'⟩ := done_tableToStruct h' hcount'
  exact ⟨data, hdata, by rw [hdata', hdone'.unique hdone], hdone⟩

/-- So are the tables that any two runs of operations lead to, if they lead to the same map. -/
theorem tableToStruct_runOps (K : KeyOrder κ) {capacity capacity' : ℕ}
    (ops ops' : List (TableOp κ υ))
    (hcapacity : capacity < 2 ^ 30) (hcapacity' : capacity' < 2 ^ 30)
    (hops : ops.length < 2 ^ 29) (hops' : ops'.length < 2 ^ 29)
    (h : (opsOnMap ops fun _ => none).2 = (opsOnMap ops' fun _ => none).2) :
    ∃ t t' data,
      (janetTable capacity).bind (runOps K.hash ops) =
        some ((opsOnMap ops fun _ => none).1, t) ∧
      (janetTable capacity').bind (runOps K.hash ops') =
        some ((opsOnMap ops' fun _ => none).1, t') ∧
      tableToStruct K t = some data ∧ tableToStruct K t' = some data ∧
      ∀ k, structRawget K data k = (opsOnMap ops fun _ => none).2 k := by
  obtain ⟨t₀, htable, hcount₀, hnew : Holds K.hash t₀ fun _ => none⟩ := holds_janetTable hcapacity
  obtain ⟨t₀', htable', hcount₀', hnew' : Holds K.hash t₀' fun _ => none⟩ :=
    holds_janetTable hcapacity'
  obtain ⟨t, hrun, hcount, hholds⟩ := hnew.runOps ops (by omega)
  obtain ⟨t', hrun', hcount', hholds'⟩ := hnew'.runOps ops' (by omega)
  rw [← h] at hholds'
  obtain ⟨data, hdata, hdata', hdone⟩ := tableToStruct_eq hholds hholds' (by omega) (by omega)
  exact ⟨t, t', data, by rw [htable, Option.bind_some, hrun],
    by rw [htable', Option.bind_some, hrun'], hdata, hdata', hdone.structRawget⟩

end

/-! ### Booleans -/

/-- The booleans as keys. -/
def booleanKeys : KeyOrder Bool where
  hash := booleanHash
  compare := compare
  eq_of_compare := by decide
  trans := inferInstance

theorem structOf_eq_of_lastPut_boolean : ∃ data,
    structOf booleanKeys [(some true, some 1), (some false, some 2), (some true, some 3)] =
      some data ∧
    structOf booleanKeys [(some false, some 2), (some true, some 3)] = some data :=
  structOf_eq_of_lastPut (by decide) (by decide) (by decide)

theorem structRawget_structOf_boolean : ∃ data,
    structOf booleanKeys [(some true, some 1), (some true, some 3)] = some data ∧
      structRawget booleanKeys data true = some 3 := by
  have hlen : [(some true, some 1), (some true, some 3)].length < 2 ^ 30 - 1 := by decide
  obtain ⟨data, hdata, hget⟩ := structRawget_structOf (K := booleanKeys) hlen
  exact ⟨data, hdata, hget true⟩

/-- An entry that was removed is not seen in the struct. -/
theorem tableToStruct_runOps_boolean : ∃ (t t' : Table Bool ℕ) (data : Slots Bool ℕ),
    (janetTable 0).bind (runOps booleanHash
        [.put (some true) (some 1), .put (some false) (some 2), .remove true]) =
          some ([none, none, some 1], t) ∧
      (janetTable 9).bind (runOps booleanHash [.put (some false) (some 2)]) = some ([none], t') ∧
      tableToStruct booleanKeys t = some data ∧ tableToStruct booleanKeys t' = some data := by
  have hcapacity : 0 < 2 ^ 30 := by decide
  have hcapacity' : 9 < 2 ^ 30 := by decide
  obtain ⟨t, t', data, hrun, hrun', heq, heq', -⟩ := tableToStruct_runOps booleanKeys
    [.put (some true) (some 1), .put (some false) (some 2), .remove true]
    [.put (some false) (some 2)] hcapacity hcapacity' (by decide) (by decide)
    (by funext b; revert b; decide)
  exact ⟨t, t', data, hrun, hrun', heq, heq'⟩

end AhungryJanet.Struct
