import AhungryJanet.Janet.HashTable
import AhungryJanet.Library.DeferredAcceptance

/-!
# Structs

The slots of a struct, which is built once and never changed. A key that is put takes the slot of
one that is closer to its own, so that the slots do not depend on the order in which the keys were
put: structs are compared slot by slot, and their hash is made from the slots in order.

The prototype of a struct is not modelled, and keys that hold a NaN are left out: where such a key
comes to lie does depend on the order. A result of `none` is a struct that cannot be made.

## Main results

* `structCapacity_spec` — more slots than entries, also where twice their number overflows
* `putLoop_of_notLive`, `putLoop_of_live` — what putting a key does
-/

namespace AhungryJanet.Struct

open Probing DeferredAcceptance HashTable

/-- What structs know of keys that hold no NaN: `janet_hash` and `janet_compare`, which is a total
order of them up to `janet_equals`. -/
structure KeyOrder (κ : Type) where
  hash : κ → Int32
  compare : κ → κ → Ordering
  eq_of_compare : ∀ a b, compare a b = .eq → a = b
  trans : Std.TransCmp compare

section

variable {κ υ : Type}

/-- The slots of a struct. -/
abbrev Slots (κ υ : Type) := List (Option (κ × υ))

/-- A struct that is being built: how many entries it is made for, and how many it has, which is
kept in the place of its hash. -/
structure Builder (κ υ : Type) where
  length : ℕ
  hash : ℕ
  data : Slots κ υ

/-- The capacity that `janet_struct_begin` computes. -/
def structCapacity (count : ℕ) : ℤ :=
  let capacity := janetTablen (int32 (2 * count))
  if capacity < 0 then janetTablen (int32 (count + 1)) else capacity

/-- `janet_struct_begin`. A capacity that is negative stands for more than all memory, and one of 0,
of twice a count that is negative, for no slot to put anything into. -/
def structBegin (count : ℕ) : Option (Builder κ υ) :=
  if structCapacity count ≤ 0 then none
  else some ⟨count, 0, List.replicate (structCapacity count).toNat none⟩

variable (K : KeyOrder κ)

/-- `otherdist`: how far the slot `i` is from the one that the hash of a key names. -/
def otherdist (cap i : ℕ) (otherhash : Int32) : ℕ :=
  (i + cap - maphash cap otherhash) &&& (cap - 1)

/-- `status`. -/
def status (dist otherdist : ℕ) (hash otherhash : Int32) (key k : κ) : Ordering :=
  if dist < otherdist then .lt
  else if otherdist < dist then .gt
  else if hash < otherhash then .lt
  else if otherhash < hash then .gt
  else K.compare key k

/-- The loops of `janet_struct_put_ext`, with whether an entry was added. -/
def putLoop (replace : Bool) : List ℕ → Slots κ υ → (dist : ℕ) → (hash : Int32) → κ → υ →
    Slots κ υ × Bool
  | [], data, _, _, _, _ => (data, false)
  | i :: rest, data, dist, hash, key, value =>
    match data[i]? with
    | none => (data, false)
    | some none => (data.set i (some (key, value)), true)
    | some (some (k, v)) =>
      let otherhash := K.hash k
      let otherdist := otherdist data.length i otherhash
      match status K dist otherdist hash otherhash key k with
      | .gt => putLoop replace rest (data.set i (some (key, value))) (otherdist + 1) otherhash k v
      | .eq => (if replace then data.set i (some (k, value)) else data, false)
      | .lt => putLoop replace rest data (dist + 1) hash key value

/-- `janet_struct_put_ext`: a key of `none` is nil or a NaN, a value of `none` is nil. -/
def structPutExt (st : Builder κ υ) (key : Option κ) (value : Option υ) (replace : Bool) :
    Builder κ υ :=
  match key, value with
  | some key, some value =>
    if st.hash = st.length then st
    else
      let hash := K.hash key
      let index := maphash st.data.length hash
      let (data, added) := putLoop K replace (probe st.data.length index) st.data 0 hash key value
      ⟨st.length, if added then st.hash + 1 else st.hash, data⟩
  | _, _ => st

/-- `janet_struct_put`. -/
def structPut (st : Builder κ υ) (key : Option κ) (value : Option υ) : Builder κ υ :=
  structPutExt K st key value true

/-- `janet_struct_end`: if there are fewer entries than there should be, they are put into a struct
made for as many. -/
def structEnd (st : Builder κ υ) : Option (Slots κ υ) :=
  if st.hash ≠ st.length then
    (structBegin st.hash).map fun newst =>
      (st.data.foldl (fun newst kv => structPut K newst (kv.map Prod.fst) (kv.map Prod.snd))
        newst).data
  else some st.data

/-- A struct of some keys and values. -/
def structOf (kvs : List (Option κ × Option υ)) : Option (Slots κ υ) :=
  (structBegin kvs.length).bind fun st =>
    structEnd K (kvs.foldl (fun st kv => structPut K st kv.1 kv.2) st)

variable [DecidableEq κ]

/-- `janet_struct_find`. -/
def structFind (data : Slots κ υ) (key : κ) : Option ℕ :=
  (probe data.length (maphash data.length (K.hash key))).find? fun i =>
    match data[i]? with
    | some (some (k, _)) => k = key
    | _ => true

/-- `janet_struct_rawget`. -/
def structRawget (data : Slots κ υ) (key : κ) : Option υ :=
  match (structFind K data key).bind (data[·]?) with
  | some (some (_, v)) => some v
  | _ => none

/-! ### The capacity -/

omit [DecidableEq κ]

/-- There are more slots than entries: twice as many, unless that overflows. -/
theorem structCapacity_spec {count : ℕ} (h : count < 2 ^ 30 - 1) :
    ∃ j, structCapacity count = (2 ^ j : ℕ) ∧ count < 2 ^ j := by
  by_cases hsmall : count < 2 ^ 29
  · have hlt := Nat.lt_size_self (2 * count)
    have hlen : janetTablen (int32 (2 * count)) = (2 ^ (2 * count).size : ℕ) := by
      rw [int32_eq (by omega) (by omega), ← janetTablen_spec (by omega)]
      push_cast
      rfl
    refine ⟨(2 * count).size, ?_, by omega⟩
    rw [structCapacity, hlen]
    exact if_neg (by omega)
  · have hlt := Nat.lt_size_self (count + 1)
    have hlen : janetTablen (int32 (2 * count)) = -2 ^ 31 := by
      rw [int32_eq (by omega) (by omega),
        ← janetTablen_of_le (n := 2 * count) (by omega) (by omega)]
      push_cast
      rfl
    refine ⟨(count + 1).size, ?_, by omega⟩
    rw [structCapacity, hlen, if_pos (by omega), int32_eq (by omega) (by omega),
      ← janetTablen_spec (by omega)]
    push_cast
    rfl

theorem structBegin_eq {count : ℕ} (h : count < 2 ^ 30 - 1) :
    (structBegin count : Option (Builder κ υ)) =
      some ⟨count, 0, List.replicate (structCapacity count).toNat none⟩ := by
  obtain ⟨j, hj, hlt⟩ := structCapacity_spec h
  rw [structBegin, hj]
  exact if_neg (by omega)

/-! ### Comparing at a slot -/

/-- How two keys compare at a slot: how far they are from their own slots, their hashes, and
themselves. -/
def slotCompare (cap s : ℕ) : κ → κ → Ordering :=
  compareLex (compareOn fun k => distance cap (maphash cap (K.hash k)) s)
    (compareLex (compareOn K.hash) K.compare)

theorem compare_int32 (a b : Int32) :
    compare a b = if a < b then .lt else if b < a then .gt else .eq := by
  by_cases hab : a < b
  · rw [if_pos hab]
    exact Std.compare_eq_lt.mpr hab
  · rw [if_neg hab]
    by_cases hba : b < a
    · rw [if_pos hba]
      exact Std.compare_eq_gt.mpr hba
    · rw [if_neg hba]
      exact Std.LawfulEqOrd.compare_eq_iff_eq.mpr
        (Std.le_antisymm (Std.not_lt.mp hba) (Std.not_lt.mp hab))

theorem status_eq (cap s : ℕ) (key k : κ) :
    status K (distance cap (maphash cap (K.hash key)) s) (distance cap (maphash cap (K.hash k)) s)
      (K.hash key) (K.hash k) key k = slotCompare K cap s key k := by
  simp only [status, slotCompare, compareLex, compareOn, Nat.compare_eq_ite_lt, compare_int32]
  split
  · rfl
  · split
    · rfl
    · split
      · rfl
      · split <;> rfl

instance (cap s : ℕ) : Std.TransCmp (slotCompare K cap s) := by
  have := K.trans
  exact inferInstanceAs (Std.TransCmp (compareLex _ _))

theorem eq_of_slotCompare {cap s : ℕ} {a b : κ} (h : slotCompare K cap s a b = .eq) : a = b := by
  simp only [slotCompare, compareLex_eq_eq] at h
  exact K.eq_of_compare a b h.2.2

/-- The slots that a key goes through, and the keys that a slot prefers. -/
def market (cap : ℕ) : Market κ ℕ where
  choice k n := (maphash cap (K.hash k) + n) % cap
  Prefers s a b := slotCompare K cap s b a = .lt
  asymm s a b h h' := by
    rw [← Std.OrientedCmp.gt_iff_lt, h] at h'
    cases h'
  trans s a b c h h' := Std.TransCmp.lt_trans h' h

/-! ### Slots and keys -/

variable {K} {data : Slots κ υ}

/-- The key at a slot. -/
def keyOf (data : Slots κ υ) (s : ℕ) : Option κ := data[s]?.bind (·.map Prod.fst)

theorem keyOf_eq_some_iff {s : ℕ} {k : κ} :
    keyOf data s = some k ↔ ∃ v, data[s]? = some (some (k, v)) := by
  unfold keyOf
  rcases data[s]? with _ | _ | ⟨k', v'⟩ <;> simp

theorem length_of_getElem?_eq {s : ℕ} {x : Option (κ × υ)} (h : data[s]? = some x) :
    s < data.length := (List.getElem?_eq_some_iff.mp h).1

theorem keyOf_set {s : ℕ} (hs : s < data.length) (k : κ) (v : υ) :
    keyOf (data.set s (some (k, v))) = Function.update (keyOf data) s (some k) := by
  funext s'
  unfold keyOf
  by_cases hss : s' = s
  · subst hss
    rw [List.getElem?_set_self hs, Function.update_self]
    rfl
  · rw [List.getElem?_set_ne (Ne.symm hss), Function.update_of_ne hss]

/-- What is in the slots when one was written. -/
theorem mem_set_iff {s : ℕ} {x old : Option (κ × υ)} (hs : data[s]? = some old) {e : κ × υ} :
    (some e ∈ data.set s x ∨ old = some e) ↔ x = some e ∨ some e ∈ data := by
  have hlen := length_of_getElem?_eq hs
  constructor
  · rintro (hmem | rfl)
    · rcases List.mem_or_eq_of_mem_set hmem with hmem | heq
      · exact .inr hmem
      · exact .inl heq.symm
    · exact .inr (List.mem_of_getElem? hs)
  · rintro (rfl | hmem)
    · exact .inl (List.mem_set hlen _)
    · obtain ⟨s', hs'⟩ := List.mem_iff_getElem?.mp hmem
      by_cases hss : s' = s
      · subst hss
        exact .inr (Option.some.inj (hs.symm.trans hs'))
      · exact .inl (List.mem_of_getElem? ((List.getElem?_set_ne (Ne.symm hss)).trans hs'))

theorem otherdist_eq {j i : ℕ} (hash : Int32) :
    otherdist (2 ^ j) i hash = distance (2 ^ j) (maphash (2 ^ j) hash) i := by
  rw [otherdist, Nat.and_two_pow_sub_one_eq_mod]
  rfl

/-- A key that was refused `n` times has not been to an empty slot. -/
theorem lt_of_refused {cap n e : ℕ} {k : κ} (hcap : ∃ j, cap = 2 ^ j)
    (h : Refused (market K cap) (keyOf data) k n) (he : e < cap) (hempty : keyOf data e = none) :
    n ≤ distance cap (maphash cap (K.hash k)) e := by
  by_contra hlt
  obtain ⟨o, ho, -⟩ := h (distance cap (maphash cap (K.hash k)) e) (by omega)
  have hslot : (market K cap).choice k (distance cap (maphash cap (K.hash k)) e) = e :=
    add_distance (maphash_lt hcap _) he
  rw [hslot, hempty] at ho
  cases ho

/-- The slots from the `t`-th one on. -/
def visits (cap start t r : ℕ) : List ℕ := (List.range' t r).map fun n => (start + n) % cap

theorem probe_eq_visits {cap start : ℕ} (h : start < cap) :
    probe cap start = visits cap start 0 cap := by
  rw [probe_eq_map h, List.range_eq_range']
  rfl

/-! ### A key that is not there -/

/-- What a key that comes to an occupied slot does there. -/
theorem step_of_occupied {cap n e i : ℕ} {key k : κ} {v : υ} (hcap : ∃ j, cap = 2 ^ j)
    (hset : Settled (market K cap) (keyOf data))
    (hrefused : Refused (market K cap) (keyOf data) key n)
    (hslot : (market K cap).choice key n = i) (he : e < cap) (hempty : keyOf data e = none)
    (hi : data[i]? = some (some (k, v))) :
    status K n (otherdist cap i (K.hash k)) (K.hash key) (K.hash k) key k =
        slotCompare K cap i key k ∧
      (market K cap).choice k (otherdist cap i (K.hash k)) = i ∧
      Refused (market K cap) (keyOf data) k (otherdist cap i (K.hash k)) := by
  have hhome := maphash_lt hcap (K.hash key)
  have hn : n < cap := (lt_of_refused hcap hrefused he hempty).trans_lt (distance_lt hhome)
  have hdist : distance cap (maphash cap (K.hash key)) i = n := by
    rw [← hslot]
    exact distance_add hhome hn
  obtain ⟨m, hm, hplaced⟩ := hset.placed (keyOf_eq_some_iff.mpr ⟨v, hi⟩)
  have hhome' := maphash_lt hcap (K.hash k)
  have hm' : m < cap := (lt_of_refused hcap hplaced.refused he hempty).trans_lt (distance_lt hhome')
  have hother : otherdist cap i (K.hash k) = m := by
    obtain ⟨j, rfl⟩ := hcap
    rw [otherdist_eq, ← hm]
    exact distance_add hhome' hm'
  refine ⟨?_, by rwa [hother], by rw [hother]; exact hplaced.refused⟩
  obtain ⟨j, rfl⟩ := hcap
  rw [otherdist_eq, ← status_eq, hdist]

theorem choice_succ (cap : ℕ) (k : κ) (n : ℕ) :
    (market K cap).choice k (n + 1) = ((market K cap).choice k n + 1) % cap := by
  change (maphash cap (K.hash k) + (n + 1)) % cap = ((maphash cap (K.hash k) + n) % cap + 1) % cap
  rw [← Nat.add_assoc, Nat.mod_add_mod]

/-- A key that is not there is put, and others may have to move; nothing is lost. -/
theorem putLoop_of_notLive (replace : Bool) {cap start t r n e : ℕ} (key : κ) (value : υ)
    (hcap : ∃ j, cap = 2 ^ j) (hlen : data.length = cap)
    (hset : Settled (market K cap) (keyOf data)) (hnew : ∀ s, keyOf data s ≠ some key)
    (hrefused : Refused (market K cap) (keyOf data) key n) (hstart : start < cap)
    (hslot : (market K cap).choice key n = (start + t) % cap)
    (he : data[e]? = some none) (ht : t ≤ distance cap start e) (hr : t + r = cap) :
    ∃ data', putLoop K replace (visits cap start t r) data n (K.hash key) key value =
        (data', true) ∧
      Comes (market K cap) (keyOf data) key n (keyOf data') ∧ data'.length = cap ∧
      ∀ a, some a ∈ data' ↔ a = (key, value) ∨ some a ∈ data := by
  induction r generalizing data t n key value with
  | zero =>
    have := distance_lt (s := e) hstart
    omega
  | succ r ih =>
    have hecap : e < cap := by
      rw [← hlen]
      exact length_of_getElem?_eq he
    have hempty : keyOf data e = none := by rw [keyOf, he]; rfl
    have hi : (start + t) % cap < data.length := by
      rw [hlen]
      exact Nat.mod_lt _ (by omega)
    have hvisits : visits cap start t (r + 1) =
        (start + t) % cap :: visits cap start (t + 1) r := rfl
    have hnext : ((start + t) % cap + 1) % cap = (start + (t + 1)) % cap := by
      rw [Nat.mod_add_mod, Nat.add_assoc]
    obtain ⟨x, hx⟩ : ∃ x, data[(start + t) % cap]? = some x := ⟨_, List.getElem?_eq_getElem hi⟩
    rw [hvisits, putLoop, hx]
    rcases x with _ | ⟨k, v⟩
    · refine ⟨_, rfl, ?_, by rw [List.length_set, hlen], fun a => ?_⟩
      · rw [keyOf_set hi, ← hslot]
        refine .stay ?_
        rw [hslot, keyOf, hx]
        rfl
      · have hmem := mem_set_iff (x := some (key, value)) hx (e := a)
        simpa [eq_comm] using hmem
    · -- the empty slot is still ahead
      have hne : t ≠ distance cap start e := by
        intro heq
        rw [heq, add_distance hstart hecap, he] at hx
        cases hx
      have hheld : keyOf data ((market K cap).choice key n) = some k := by
        rw [hslot, keyOf_eq_some_iff]
        exact ⟨v, hx⟩
      obtain ⟨hstatus, hother, hrefused'⟩ :=
        step_of_occupied hcap hset hrefused hslot hecap hempty hx
      dsimp only
      rw [hlen, hstatus]
      cases hcmp : slotCompare K cap ((start + t) % cap) key k with
      | lt =>
        have hprefers : (market K cap).Prefers ((market K cap).choice key n) k key := by
          rw [hslot]
          exact hcmp
        have hslot' : (market K cap).choice key (n + 1) = (start + (t + 1)) % cap := by
          rw [choice_succ, hslot, hnext]
        obtain ⟨data', hrun, hcomes, hlen', hmem⟩ := ih key value hlen hset hnew
          (hrefused.succ hheld hprefers) hslot' he (by omega) (by omega)
        exact ⟨data', hrun, .goOn hheld hprefers hcomes, hlen', hmem⟩
      | eq =>
        rw [← eq_of_slotCompare K hcmp] at hheld
        exact absurd hheld (hnew _)
      | gt =>
        have hprefers : (market K cap).Prefers ((market K cap).choice key n) key k := by
          rw [hslot]
          exact Std.OrientedCmp.gt_iff_lt.mp hcmp
        have hkeys : keyOf (data.set ((start + t) % cap) (some (key, value))) =
            Function.update (keyOf data) ((market K cap).choice key n) (some key) := by
          rw [hslot]
          exact keyOf_set hi key value
        have hne' : key ≠ k := by
          rintro rfl
          exact hnew _ hheld
        have hslot' := hother.trans hslot.symm
        have hempty' : (data.set ((start + t) % cap) (some (key, value)))[e]? = some none := by
          rw [List.getElem?_set_ne, he]
          rintro rfl
          rw [he] at hx
          cases hx
        have hslot'' : (market K cap).choice k (otherdist cap ((start + t) % cap) (K.hash k) + 1) =
            (start + (t + 1)) % cap := by
          rw [choice_succ, hother, hnext]
        obtain ⟨data', hrun, hcomes, hlen', hmem⟩ := ih k v
          (by rw [List.length_set, hlen])
          (by rw [hkeys]; exact hset.update hrefused (prefers_holder hheld hprefers))
          (by rw [hkeys]; exact hset.not_held_of_taken hheld hne')
          (by rw [hkeys]; exact hrefused'.taken hslot' hheld hprefers)
          hslot'' hempty' (by omega) (by omega)
        rw [hkeys] at hcomes
        refine ⟨data', hrun, .take hheld hprefers hslot' hrefused' hcomes, hlen', fun a => ?_⟩
        have hold := mem_set_iff (x := some (key, value)) hx (e := a)
        rw [hmem, or_comm, eq_comm (a := a), ← Option.some.injEq (k, v) a, hold,
          Option.some.injEq, eq_comm]

/-! ### A key that is there -/

/-- A key that is there is met before anything else happens. -/
theorem putLoop_of_live (replace : Bool) {cap t r p m e : ℕ} {key : κ} (value : υ) {v₀ : υ}
    (hcap : ∃ j, cap = 2 ^ j) (hlen : data.length = cap)
    (hset : Settled (market K cap) (keyOf data)) (hp : data[p]? = some (some (key, v₀)))
    (hm : (market K cap).choice key m = p) (hrefused : Refused (market K cap) (keyOf data) key m)
    (he : data[e]? = some none) (ht : t ≤ m) (hr : t + r = cap) :
    putLoop K replace (visits cap (maphash cap (K.hash key)) t r) data t (K.hash key) key value =
      (if replace then data.set p (some (key, value)) else data, false) := by
  have hecap : e < cap := by
    rw [← hlen]
    exact length_of_getElem?_eq he
  have hempty : keyOf data e = none := by rw [keyOf, he]; rfl
  induction r generalizing t with
  | zero =>
    have := (lt_of_refused hcap hrefused hecap hempty).trans_lt (distance_lt (maphash_lt hcap _))
    omega
  | succ r ih =>
    have hslot : (market K cap).choice key t = (maphash cap (K.hash key) + t) % cap := rfl
    have hrefused' : Refused (market K cap) (keyOf data) key t := fun i hi => hrefused i (by omega)
    have hvisits : visits cap (maphash cap (K.hash key)) t (r + 1) =
        (maphash cap (K.hash key) + t) % cap ::
          visits cap (maphash cap (K.hash key)) (t + 1) r := rfl
    rw [hvisits, putLoop, ← hslot]
    rcases Nat.lt_or_eq_of_le ht with hlt | rfl
    · obtain ⟨o, ho, hprefers⟩ := hrefused t hlt
      obtain ⟨v, hv⟩ := keyOf_eq_some_iff.mp ho
      obtain ⟨hstatus, -, -⟩ := step_of_occupied hcap hset hrefused' rfl hecap hempty hv
      have hcmp : slotCompare K cap ((market K cap).choice key t) key o = .lt := hprefers
      rw [hv]
      dsimp only
      rw [hlen, hstatus, hcmp]
      exact ih (by omega) (by omega)
    · obtain ⟨hstatus, -, -⟩ := step_of_occupied hcap hset hrefused' hm hecap hempty hp
      have hcmp : slotCompare K cap p key key = .eq := Std.ReflCmp.compare_self
      rw [hm, hp]
      dsimp only
      rw [hlen, hstatus, hcmp]

end

end AhungryJanet.Struct
