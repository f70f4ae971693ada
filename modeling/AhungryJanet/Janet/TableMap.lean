import AhungryJanet.Janet.HashTable

/-!
# A table is a finite map

What the operations of a table do to the map that its entries are. That there are at least twice as
many slots as entries and deleted slots together is what they keep, so there is always an empty slot
for a search to end at.

## Main results

* `Holds.put`, `Holds.remove`, `Holds.putNoOverwrite`, `Holds.clear` — the operations
* `Holds.rehash` — moving to another size keeps all entries
-/

namespace AhungryJanet.HashTable

open Probing

section

variable {κ υ : Type} {hash : κ → Int32} {data : List (Bucket κ υ)}

theorem Layout.mem_set {i : ℕ} {slot : Bucket κ υ} {k : κ} {v : υ} (h : Layout hash data)
    (hi : i < data.length) :
    .live k v ∈ data.set i slot ↔
      slot = .live k v ∨ .live k v ∈ data ∧ keyAt data i ≠ some k := by
  rw [List.mem_iff_getElem?]
  constructor
  · rintro ⟨j, hj⟩
    by_cases hji : j = i
    · subst hji
      rw [List.getElem?_set_self hi] at hj
      exact .inl (Option.some.inj hj)
    · rw [List.getElem?_set_ne (Ne.symm hji)] at hj
      refine .inr ⟨List.mem_of_getElem? hj, fun hkey => hji ?_⟩
      exact h.key_inj j i k (lt_of_getElem?_eq hj) hi (keyAt_eq_some_iff.mpr ⟨v, hj⟩) hkey
  · rintro (rfl | ⟨hmem, hkey⟩)
    · exact ⟨i, List.getElem?_set_self hi⟩
    · obtain ⟨j, hj⟩ := List.mem_iff_getElem?.mp hmem
      refine ⟨j, ?_⟩
      rw [List.getElem?_set_ne, hj]
      rintro rfl
      exact hkey (keyAt_eq_some_iff.mpr ⟨v, hj⟩)

/-- If not all slots are live or deleted, one is empty. -/
theorem exists_empty
    (h : data.countP Bucket.isLive + data.countP Bucket.isDeleted < data.length) :
    ∃ i : ℕ, data[i]? = some .empty := by
  induction data with
  | nil => cases h
  | cons slot data ih =>
    rcases slot with _ | _ | ⟨k, v⟩
    · exact ⟨0, rfl⟩
    all_goals
      obtain ⟨i, hi⟩ := ih (by
        simp only [List.countP_cons, Bucket.isLive, Bucket.isDeleted, List.length_cons,
          Bool.false_eq_true, if_true, if_false] at h
        omega)
      exact ⟨i + 1, hi⟩

/-- The slots of a new table. -/
theorem layout_replicate (j : ℕ) :
    Layout hash (List.replicate (2 ^ j) (.empty : Bucket κ υ)) := by
  have hkey : ∀ s k, keyAt (List.replicate (2 ^ j) (.empty : Bucket κ υ)) s ≠ some k := by
    intro s k hs
    obtain ⟨v, hv⟩ := keyAt_eq_some_iff.mp hs
    have := List.eq_of_mem_replicate (List.mem_of_getElem? hv)
    cases this
  exact ⟨⟨j, List.length_replicate⟩, fun s k _ hs => absurd hs (hkey s k),
    fun s s' k _ _ hs => absurd hs (hkey s k)⟩

/-- The table is right, and its entries are those of `m`. -/
structure Holds (hash : κ → Int32) (t : Table κ υ) (m : κ → Option υ) : Prop
    extends Layout hash t.data where
  mem_iff : ∀ k v, .live k v ∈ t.data ↔ m k = some v
  count_eq : t.count = t.data.countP Bucket.isLive
  deleted_eq : t.deleted = t.data.countP Bucket.isDeleted
  room : 2 * (t.count + t.deleted) ≤ t.data.length

variable {t : Table κ υ} {m : κ → Option υ}

theorem Layout.length_pos (h : Layout hash data) : 0 < data.length := by
  obtain ⟨j, hj⟩ := h.size
  rw [hj]
  exact Nat.two_pow_pos j

theorem Holds.exists_empty (h : Holds hash t m) : ∃ i : ℕ, t.data[i]? = some .empty := by
  have hroom := h.room
  have hpos := h.length_pos
  rw [h.count_eq, h.deleted_eq] at hroom
  exact HashTable.exists_empty (by omega)

theorem Holds.not_mem {k : κ} (h : Holds hash t m) (hk : m k = none) :
    ∀ (i : ℕ) (v : υ), t.data[i]? ≠ some (.live k v) := by
  intro i v hi
  rw [(h.mem_iff k v).mp (List.mem_of_getElem? hi)] at hk
  cases hk

theorem holds_empty (j : ℕ) :
    Holds hash (⟨0, 0, List.replicate (2 ^ j) .empty⟩ : Table κ υ) fun _ => none := by
  refine ⟨layout_replicate j, fun k v => ⟨fun hmem => ?_, fun hnone => nomatch hnone⟩, ?_, ?_, ?_⟩
  · cases List.eq_of_mem_replicate hmem
  · exact (List.countP_eq_zero.mpr fun slot hslot => by
      rw [List.eq_of_mem_replicate hslot]
      exact Bool.false_ne_true).symm
  · exact (List.countP_eq_zero.mpr fun slot hslot => by
      rw [List.eq_of_mem_replicate hslot]
      exact Bool.false_ne_true).symm
  · exact Nat.zero_le _

theorem memallocEmpty_natCast (count : ℕ) :
    memallocEmpty count = some (List.replicate count (.empty : Bucket κ υ)) := by
  rw [memallocEmpty, if_neg (by omega), Int.toNat_natCast]

theorem holds_janetTable {capacity : ℕ} (h : capacity < 2 ^ 30) :
    ∃ t : Table κ υ, janetTable capacity = some t ∧ t.count = 0 ∧ Holds hash t fun _ => none := by
  refine ⟨⟨0, 0, List.replicate (2 ^ capacity.size) .empty⟩, ?_, rfl, holds_empty _⟩
  rw [janetTable, janetTablen_spec h, memallocEmpty_natCast]
  rfl

/-- From `2 ^ 30` on there is no table: that is out of memory. -/
theorem janetTable_of_le {capacity : ℕ} (h : 2 ^ 30 ≤ capacity) (h' : capacity < 2 ^ 31) :
    (janetTable capacity : Option (Table κ υ)) = none := by
  rw [janetTable, janetTablen_of_le h h']
  rfl

theorem Holds.clear (h : Holds hash t m) : Holds hash (clear t) fun _ => none := by
  obtain ⟨j, hj⟩ := h.size
  rw [HashTable.clear, hj]
  exact holds_empty j

variable [DecidableEq κ]

/-- Where the search for a key ends: at its entry, or at an empty slot. -/
theorem Holds.find (h : Holds hash t m) (k : κ) :
    (∃ (i : ℕ) (v : υ), m k = some v ∧ t.data[i]? = some (.live k v) ∧
      dictFind hash t.data k = some i) ∨
    (m k = none ∧ ∃ i : ℕ, t.data[i]? = some .empty ∧ dictFind hash t.data k = some i ∧
      ∀ n < distance t.data.length (maphash t.data.length (hash k)) i,
        usedAt t.data ((maphash t.data.length (hash k) + n) % t.data.length) = true) := by
  cases hk : m k with
  | none => exact .inr ⟨rfl, h.find_of_notLive (h.not_mem hk) h.exists_empty⟩
  | some v =>
    obtain ⟨i, hi⟩ := List.mem_iff_getElem?.mp ((h.mem_iff k v).mpr hk)
    exact .inl ⟨i, v, rfl, hi, h.find_of_live hi⟩

theorem Holds.bucketValue (h : Holds hash t m) (k : κ) :
    bucketValue t.data (dictFind hash t.data k) = m k := by
  rcases h.find k with ⟨i, v, hk, hi, hfind⟩ | ⟨hk, i, hi, hfind, -⟩
  all_goals
    rw [hfind, hk, HashTable.bucketValue, Option.bind_some, hi]

/-- `janet_table_rawget`. -/
theorem Holds.rawget (h : Holds hash t m) (k : κ) : rawget hash t k = m k := h.bucketValue k

/-- `janet_table_remove`. -/
theorem Holds.remove (h : Holds hash t m) (k : κ) :
    (remove hash t k).1 = m k ∧
      Holds hash (remove hash t k).2 (Function.update m k none) := by
  rcases h.find k with ⟨i, v, hk, hi, hfind⟩ | ⟨hk, i, hi, hfind, -⟩
  · have hremove : HashTable.remove hash t k =
        (some v, ⟨t.count - 1, t.deleted + 1, t.data.set i .deleted⟩) := by
      simp only [HashTable.remove, hfind, hi]
    have hlen := lt_of_getElem?_eq hi
    have hslot : t.data[i] = .live k v := (List.getElem?_eq_some_iff.mp hi).2
    have hkey : keyAt t.data i = some k := keyAt_eq_some_iff.mpr ⟨v, hi⟩
    have hpos : 0 < t.data.countP Bucket.isLive :=
      List.countP_pos_iff.mpr ⟨_, List.mem_of_getElem? hi, rfl⟩
    rw [hremove, hk]
    refine ⟨rfl, h.set_used ?_ hlen (by simp) (fun k' hk' => nomatch hk'), ?_, ?_, ?_, ?_⟩
    · simp [usedAt, hi]
    · intro k' v'
      rw [h.mem_set hlen, hkey, h.mem_iff]
      by_cases hkk : k' = k
      · subst hkk
        simp
      · simp [Function.update_of_ne hkk, Ne.symm hkk]
    · rw [List.countP_set hlen, hslot, h.count_eq]
      rfl
    · rw [List.countP_set hlen, hslot, h.deleted_eq]
      rfl
    · have hroom := h.room
      have hcount := h.count_eq
      simp only [List.length_set]
      omega
  · have hremove : HashTable.remove hash t k = (none, t) := by
      simp only [HashTable.remove, hfind, hi]
    rw [hremove, hk, Function.update_eq_self_iff.mpr hk.symm]
    exact ⟨rfl, h⟩

/-! ### Another size -/

omit [DecidableEq κ] in
/-- A new entry is put into an empty slot. -/
theorem Layout.set_new {i : ℕ} {k : κ} {v : υ} (h : Layout hash data)
    (hno : ∀ (i : ℕ) (v : υ), data[i]? ≠ some (.live k v)) (hi : data[i]? = some .empty)
    (hway : ∀ n < distance data.length (maphash data.length (hash k)) i,
      usedAt data ((maphash data.length (hash k) + n) % data.length) = true) :
    Layout hash (data.set i (.live k v)) ∧
      (data.set i (.live k v)).countP Bucket.isLive = data.countP Bucket.isLive + 1 ∧
      (data.set i (.live k v)).countP Bucket.isDeleted = data.countP Bucket.isDeleted ∧
      ∀ k' v', .live k' v' ∈ data.set i (.live k v) ↔ k' = k ∧ v' = v ∨ .live k' v' ∈ data := by
  have hlen := lt_of_getElem?_eq hi
  have hslot : data[i] = .empty := (List.getElem?_eq_some_iff.mp hi).2
  refine ⟨h.set_live v hno hlen hway, ?_, ?_, fun k' v' => ?_⟩
  · rw [List.countP_set hlen, hslot]
    rfl
  · rw [List.countP_set hlen, hslot]
    rfl
  · rw [h.mem_set hlen]
    have hkey : keyAt data i = none := by rw [keyAt, hi]; rfl
    simp [hkey, eq_comm]

/-- The entries of the old slots are put into the new ones, where there is room for them. -/
theorem rehashLoop_spec (old : List (Bucket κ υ)) (h : Layout hash data)
    (hnew : ∀ k v, .live k v ∈ old → ∀ (i : ℕ) (v' : υ), data[i]? ≠ some (.live k v'))
    (hold : old.Pairwise fun a b => ∀ k, a.key? = some k → b.key? ≠ some k)
    (hdeleted : data.countP Bucket.isDeleted = 0)
    (hroom : data.countP Bucket.isLive + old.countP Bucket.isLive < data.length) :
    ∃ data', rehashLoop hash old data = some data' ∧ Layout hash data' ∧
      data'.length = data.length ∧ data'.countP Bucket.isDeleted = 0 ∧
      data'.countP Bucket.isLive = data.countP Bucket.isLive + old.countP Bucket.isLive ∧
      ∀ k v, .live k v ∈ data' ↔ .live k v ∈ data ∨ .live k v ∈ old := by
  induction old generalizing data with
  | nil => exact ⟨data, rfl, h, rfl, hdeleted, rfl, by simp⟩
  | cons slot old ih =>
    have hpair := List.pairwise_cons.mp hold
    have hnew' : ∀ k v, .live k v ∈ old → ∀ (i : ℕ) (v' : υ), data[i]? ≠ some (.live k v') :=
      fun k v hmem => hnew k v (List.mem_cons_of_mem _ hmem)
    rcases slot with _ | _ | ⟨k, v⟩
    · obtain ⟨data', hrun, hrest⟩ := ih h hnew' hpair.2 hdeleted hroom
      exact ⟨data', hrun, by simpa [Bucket.isLive] using hrest⟩
    · obtain ⟨data', hrun, hrest⟩ := ih h hnew' hpair.2 hdeleted hroom
      exact ⟨data', hrun, by simpa [Bucket.isLive] using hrest⟩
    · rw [List.countP_cons_of_pos rfl] at hroom
      have hno := hnew k v (List.mem_cons_self ..)
      obtain ⟨i, hi, hfind, hway⟩ := h.find_of_notLive hno (exists_empty (by omega))
      obtain ⟨hlayout, hlive, hdel, hmem⟩ := h.set_new (v := v) hno hi hway
      have hnew₁ : ∀ k' v', .live k' v' ∈ old →
          ∀ (j : ℕ) (v'' : υ), (data.set i (.live k v))[j]? ≠ some (.live k' v'') := by
        intro k' v' hmem' j v'' hj
        rcases (hmem k' v'').mp (List.mem_of_getElem? hj) with ⟨rfl, -⟩ | hmem''
        · exact hpair.1 _ hmem' k' rfl rfl
        · obtain ⟨j', hj'⟩ := List.mem_iff_getElem?.mp hmem''
          exact hnew' k' v' hmem' j' v'' hj'
      obtain ⟨data', hrun, hlayout', hlen', hdel', hlive', hmem'⟩ :=
        ih hlayout hnew₁ hpair.2 (by rw [hdel, hdeleted]) (by rw [hlive, List.length_set]; omega)
      refine ⟨data', ?_, hlayout', by simpa using hlen', hdel', ?_, fun k' v' => ?_⟩
      · rw [rehashLoop, hfind]
        exact hrun
      · rw [hlive', hlive, List.countP_cons_of_pos rfl]
        omega
      · rw [hmem', hmem, List.mem_cons, Bucket.live.injEq]
        rw [or_comm (a := k' = k ∧ v' = v), or_assoc]

omit [DecidableEq κ] in
/-- No key is at two slots. -/
theorem Layout.pairwise (h : Layout hash data) :
    data.Pairwise fun a b => ∀ k, a.key? = some k → b.key? ≠ some k := by
  rw [List.pairwise_iff_getElem]
  intro i j hi hj hij k hk hk'
  have hsame := h.key_inj i j k hi hj (by rw [keyAt, List.getElem?_eq_getElem hi]; exact hk)
    (by rw [keyAt, List.getElem?_eq_getElem hj]; exact hk')
  omega

/-- `janet_table_rehash`: nothing is lost, and no slot is deleted any more. -/
theorem Holds.rehash (h : Holds hash t m) {j : ℕ} (hroom : 2 * (t.count + 1) ≤ 2 ^ j) :
    ∃ t', rehash hash t (2 ^ j : ℕ) = some t' ∧ Holds hash t' m ∧ t'.count = t.count ∧
      t'.deleted = 0 ∧ t'.data.length = 2 ^ j := by
  have hlayout : Layout hash (List.replicate (2 ^ j) (.empty : Bucket κ υ)) := layout_replicate j
  have hempty : Holds hash (⟨0, 0, List.replicate (2 ^ j) .empty⟩ : Table κ υ) fun _ => none :=
    holds_empty j
  have hnone : ∀ k v, .live k v ∉ List.replicate (2 ^ j) (.empty : Bucket κ υ) :=
    fun k v hmem => nomatch List.eq_of_mem_replicate hmem
  obtain ⟨data', hrun, hlayout', hlen, hdel, hlive, hmem⟩ :=
    rehashLoop_spec t.data hlayout
      (fun k v _ i v' hi => hnone k v' (List.mem_of_getElem? hi)) h.pairwise
      hempty.deleted_eq.symm (by
        rw [← hempty.count_eq, ← h.count_eq, List.length_replicate]
        dsimp only
        omega)
  rw [List.length_replicate] at hlen
  have hrehash : HashTable.rehash hash t (2 ^ j : ℕ) = some ⟨t.count, 0, data'⟩ := by
    simp only [HashTable.rehash, memallocEmpty_natCast, Option.bind_eq_bind, Option.bind_some, hrun]
    rfl
  refine ⟨⟨t.count, 0, data'⟩, hrehash, ⟨hlayout', ?_, ?_, ?_, ?_⟩, rfl, rfl, hlen⟩
  · intro k v
    rw [hmem, h.mem_iff]
    exact or_iff_right (hnone k v)
  · rw [hlive, ← hempty.count_eq, h.count_eq, Nat.zero_add]
  · exact hdel.symm
  · dsimp only
    omega

/-! ### Putting -/

/-- A key that is not there, when there is room for it. The bucket that it goes to was never
deleted, so the number of deleted ones is never lowered. -/
theorem Holds.putInto {k : κ} {v : υ} (h : Holds hash t m) (hk : m k = none)
    (hroom : 2 * (t.count + t.deleted + 1) ≤ t.data.length) :
    ∃ t', putInto hash t k v = some t' ∧ t'.count = t.count + 1 ∧ t'.deleted = t.deleted ∧
      Holds hash t' (Function.update m k (some v)) := by
  obtain ⟨i, hi, hfind, hway⟩ := h.find_of_notLive (h.not_mem hk) h.exists_empty
  obtain ⟨hlayout, hlive, hdel, hmem⟩ := h.set_new (v := v) (h.not_mem hk) hi hway
  refine ⟨⟨t.count + 1, t.deleted, t.data.set i (.live k v)⟩, ?_, rfl, rfl, hlayout,
    fun k' v' => ?_, ?_, ?_, ?_⟩
  · simp only [HashTable.putInto, hfind, hi]
  · rw [hmem, h.mem_iff]
    by_cases hkk : k' = k
    · subst hkk
      simp [hk, eq_comm]
    · simp [hkk]
  · rw [hlive, h.count_eq]
  · rw [hdel, h.deleted_eq]
  · simp only [List.length_set]
    omega

theorem Holds.putNew {k : κ} {v : υ} (h : Holds hash t m) (hk : m k = none)
    (hcount : t.count + 1 < 2 ^ 29) :
    ∃ t', putNew hash t k v = some t' ∧ t'.count = t.count + 1 ∧
      Holds hash t' (Function.update m k (some v)) := by
  obtain ⟨i₀, -, hfind₀, -⟩ := h.find_of_notLive (h.not_mem hk) h.exists_empty
  by_cases hfull : 2 * (t.count + t.deleted + 1) > t.data.length
  · have hlt := Nat.lt_size_self (2 * t.count + 2)
    obtain ⟨t₁, hrehash, h₁, hcount₁, hdel₁, hlen₁⟩ :=
      h.rehash (j := (2 * t.count + 2).size) (by omega)
    obtain ⟨t', hput, hcount', -, hholds⟩ := h₁.putInto (v := v) hk (by omega)
    refine ⟨t', ?_, by omega, hholds⟩
    have hsize : janetTablen (int32 (2 * t.count + 2)) = (2 ^ (2 * t.count + 2).size : ℕ) := by
      rw [int32_eq (by omega) (by omega), ← janetTablen_spec (by omega)]
      push_cast
      rfl
    rw [HashTable.putNew, if_pos (.inr hfull), hsize, hrehash, Option.bind_some, hput]
  · obtain ⟨t', hput, hcount', -, hholds⟩ := h.putInto (v := v) hk (by omega)
    exact ⟨t', by rw [HashTable.putNew, if_neg (by simp [hfind₀, hfull]), hput], hcount', hholds⟩

/-- What `janet_table_put` does to the entries. -/
def mapPut (m : κ → Option υ) : Option κ → Option υ → κ → Option υ
  | none, _ => m
  | some k, v => Function.update m k v

theorem remove_count_le (t : Table κ υ) (k : κ) :
    (HashTable.remove hash t k).2.count ≤ t.count := by
  unfold HashTable.remove
  split
  case h_1 => exact Nat.le_refl _
  case h_2 =>
    split
    · exact Nat.sub_le _ _
    · exact Nat.le_refl _

/-- A value is stored under a key that is there: only its slot is written. -/
theorem Holds.put_live {i : ℕ} {k : κ} {v₀ : υ} (h : Holds hash t m)
    (hi : t.data[i]? = some (.live k v₀)) (v : υ) :
    put hash t (some k) (some v) = some { t with data := t.data.set i (.live k v) } ∧
      Holds hash { t with data := t.data.set i (.live k v) } (Function.update m k (some v)) := by
  have hfind := h.find_of_live hi
  have hlen := lt_of_getElem?_eq hi
  have hslot : t.data[i] = .live k v₀ := (List.getElem?_eq_some_iff.mp hi).2
  have hkey : keyAt t.data i = some k := keyAt_eq_some_iff.mpr ⟨v₀, hi⟩
  refine ⟨?_, h.set_used (by simp [usedAt, hi]) hlen (by simp) ?_, ?_, ?_, ?_, ?_⟩
  · rw [HashTable.put, hfind, HashTable.bucketValue, Option.bind_some, hi]
  · intro k' hk'
    cases hk'
    exact hkey
  · intro k' v'
    rw [h.mem_set hlen, hkey, h.mem_iff, Bucket.live.injEq]
    by_cases hkk : k' = k
    · subst hkk
      simp
    · simp [Function.update_of_ne hkk, Ne.symm hkk]
  · rw [List.countP_set hlen, hslot, h.count_eq]
    have hpos : 0 < t.data.countP Bucket.isLive :=
      List.countP_pos_iff.mpr ⟨_, List.mem_of_getElem? hi, rfl⟩
    simp only [Bucket.isLive, if_true]
    omega
  · rw [List.countP_set hlen, hslot, h.deleted_eq]
    rfl
  · simpa using h.room

/-- `janet_table_put`. -/
theorem Holds.put (h : Holds hash t m) (hcount : t.count + 1 < 2 ^ 29)
    (k : Option κ) (v : Option υ) :
    ∃ t', put hash t k v = some t' ∧ t'.count ≤ t.count + 1 ∧ Holds hash t' (mapPut m k v) := by
  cases k with
  | none => exact ⟨t, rfl, Nat.le_succ _, h⟩
  | some k =>
    cases v with
    | none => exact ⟨_, rfl, (remove_count_le t k).trans (Nat.le_succ _), (h.remove k).2⟩
    | some v =>
      rcases h.find k with ⟨i, v₀, -, hi, -⟩ | ⟨hk, i, hi, hfind, -⟩
      · obtain ⟨hput, hholds⟩ := h.put_live hi v
        exact ⟨_, hput, Nat.le_succ _, hholds⟩
      · obtain ⟨t', hput, hcount', hholds⟩ := h.putNew (v := v) hk hcount
        exact ⟨t', by rw [HashTable.put, h.bucketValue, hk, hput], hcount'.le, hholds⟩

/-- `janet_table_put_no_overwrite`. -/
theorem Holds.putNoOverwrite (h : Holds hash t m) (hcount : t.count + 1 < 2 ^ 29) (k : κ) (v : υ) :
    ∃ t', putNoOverwrite hash t k v = some t' ∧ t'.count ≤ t.count + 1 ∧
      Holds hash t' (Function.update m k ((m k).or (some v))) := by
  rw [HashTable.putNoOverwrite, h.bucketValue]
  cases hk : m k with
  | some v₀ =>
    refine ⟨t, rfl, Nat.le_succ _, ?_⟩
    rw [Option.some_or, Function.update_eq_self_iff.mpr hk.symm]
    exact h
  | none =>
    obtain ⟨t', hput, hcount', hholds⟩ := h.putNew (v := v) hk hcount
    exact ⟨t', hput, hcount'.le, hholds⟩

end

end AhungryJanet.HashTable
