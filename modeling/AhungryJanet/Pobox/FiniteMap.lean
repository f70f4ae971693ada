import AhungryJanet.Library.History
import AhungryJanet.Pobox.Table

/-!
# The list of boxes is a finite map

What the list looks like after any number of calls of `table_put`, and what `table_get` answers
then. `Table` says what one call does to the map the list stands for; here the calls follow one
another, from the list `ensure_office` makes, and the answers are compared with the calls made.

The first node is not a box. It has the empty key, so looking up the empty key finds it although
nothing was put there. And each call stores a NUL behind the copies it makes: with a key or a value
that has no room behind it, nothing is said of what follows.

## Main results

* `finiteMap_tablePuts` — where there is room, the list is one chain without a repeated key, and
  each lookup answers with the last value put
* `tablePuts_ne_none_iff` — the calls go wrong where there is no room, and nowhere else
* `not_finiteMap_glibc` — looking up the empty key finds the first node, and a value of 24 bytes has
  no room
-/

namespace AhungryJanet

open History

/-- `table_put`, again and again. -/
def tablePuts (m : Malloc) (office : Office) (puts : List (Bytes × Bytes)) : Option Office :=
  puts.foldlM (fun office p => tablePut m office p.1 p.2) office

/-- The addresses of `l` are what following the `next` pointers from the first node goes through,
up to NULL. -/
structure IsChain (office : Office) (l : List ℕ) : Prop where
  starts : l.head? = some 0
  linked : ∀ i a, l[i]? = some a → ∃ n, office[a]? = some n ∧ n.next = l[i + 1]?
  /-- No address comes twice. -/
  acyclic : l.Nodup

/-- What `table_get` answers: a node with the value, or NULL. -/
def Finds (m : Malloc) (office : Office) (k : Bytes) : Option Bytes → Prop
  | some v =>
    ∃ (a : ℕ) (n : Node), tableGet m office k = some (some a) ∧ office[a]? = some n ∧ n.v = v
  | none => tableGet m office k = some none

/-- There is room behind the keys and the values of the calls. -/
def Roomy (m : Malloc) (puts : List (Bytes × Bytes)) : Prop :=
  ∀ p ∈ puts, m.Room p.1 ∧ m.Room p.2

/-- The list is a finite map, with the values last put. -/
structure FiniteMap (m : Malloc) (puts : List (Bytes × Bytes)) (office : Office) : Prop where
  chain : ∃ l, IsChain office l ∧ ∀ a, a ∈ l ↔ a < office.length
  keys : ∀ (a b : ℕ) (n n' : Node), office[a]? = some n → office[b]? = some n' → n.k = n'.k → a = b
  finds : ∀ k, k ≠ [] → m.Room k → Finds m office k (last puts k)
  /-- The empty key finds the first node. -/
  finds_nil : m.Room [] → Finds m office [] (some [])
  others : ∀ k v, k ≠ [] → m.Room k ∧ m.Room v →
    ∃ office', tablePut m office k v = some office' ∧ ∀ k', k' ≠ k →
      tableGet m office' k' = tableGet m office k' ∧
        ∀ r, Finds m office k' r → Finds m office' k' r

/-! ### Lookups -/

theorem tableGet_eq_node_iff {m : Malloc} {office : Office} (h : WellFormed office) {k : Bytes}
    (hroom : m.Room k) {a : ℕ} :
    tableGet m office k = some (some a) ↔ ∃ n, office[a]? = some n ∧ n.k = k := by
  simp only [tableGet, bufferToBytes, mallocCopyNul_of_room hroom]
  rcases loops_spec h k h.length_pos (Nat.le_refl office.length) with
    ⟨b, n', hget, -, hn', hk⟩ | ⟨hget, -, hnone⟩
  · rw [hget]
    constructor
    · intro hab
      cases hab
      exact ⟨n', hn', hk⟩
    · rintro ⟨n, hn, hnk⟩
      rw [h.key_inj hn' hn (hk.trans hnk.symm)]
  · rw [hget]
    constructor
    · intro hnull
      cases hnull
    · rintro ⟨n, hn, hnk⟩
      exact absurd hnk (hnone a n (Nat.zero_le a) hn)

theorem finds_iff_contents {m : Malloc} {office : Office} (h : WellFormed office) {k : Bytes}
    (hroom : m.Room k) {r : Option Bytes} : Finds m office k r ↔ contents office k = r := by
  rcases tableGet_spec h hroom with ⟨a, n, hget, hn, hv⟩ | ⟨hget, hv⟩
  · cases r with
    | none => simp [Finds, hget, hv]
    | some v => simp [Finds, hget, hv, hn]
  · cases r with
    | none => simp [Finds, hget, hv]
    | some v => simp [Finds, hget, hv]

/-! ### The chain -/

/-- The nodes are chained in the order in which they were allocated. -/
theorem WellFormed.isChain {office : Office} (h : WellFormed office) :
    IsChain office (List.range office.length) where
  starts := by
    have hpos := h.length_pos
    simp [List.head?_range, Nat.ne_of_gt hpos]
  linked i a hi := by
    obtain ⟨hlt, rfl⟩ := List.getElem?_eq_some_iff.mp hi
    rw [List.length_range] at hlt
    rw [List.getElem_range]
    refine ⟨office[i], List.getElem?_eq_getElem hlt, ?_⟩
    rw [h.linked i _ (List.getElem?_eq_getElem hlt)]
    by_cases hlast : i + 1 < office.length
    · simp [hlast]
    · simp [hlast]
  acyclic := List.nodup_range

/-! ### Runs -/

/-- What the list stands for behind `puts`. -/
theorem tablePuts_spec {m : Malloc} {office : Office} (h : WellFormed office)
    (puts : List (Bytes × Bytes)) (hputs : ∀ p ∈ puts, p.1 ≠ []) (hroom : Roomy m puts) :
    ∃ office', tablePuts m office puts = some office' ∧ WellFormed office' ∧
      ∀ k, contents office' k = (last puts k).or (contents office k) :=
  read_foldlM (fun _ _ hwf hp => tablePut_spec hwf hp.1 hp.2) h puts
    fun p hp => And.intro (hputs p hp) (hroom p hp)

/-- The calls go wrong where there is no room, and nowhere else. -/
theorem tablePuts_ne_none_iff {m : Malloc} {office : Office} (h : WellFormed office)
    {puts : List (Bytes × Bytes)} (hputs : ∀ p ∈ puts, p.1 ≠ []) :
    tablePuts m office puts ≠ none ↔ Roomy m puts := by
  constructor
  · intro hne p hp
    by_contra hroom
    obtain ⟨before, after, rfl⟩ := List.append_of_mem hp
    refine hne ?_
    rw [tablePuts, List.foldlM_append]
    cases List.foldlM (fun office p => tablePut m office p.1 p.2) office before with
    | none => rfl
    | some office' => simp [tablePut_of_not_room hroom]
  · intro hroom
    obtain ⟨office', hrun, -⟩ := tablePuts_spec h puts hputs hroom
    simp [hrun]

/-- A call of `table_put` leaves every node at its address, with its key. -/
theorem tablePut_keeps {m : Malloc} {office office' : Office} {k v : Bytes}
    (hput : tablePut m office k v = some office') (a : ℕ) (n : Node) (hn : office[a]? = some n) :
    ∃ n' : Node, office'[a]? = some n' ∧ n'.k = n.k := by
  have ha := (List.getElem?_eq_some_iff.mp hn).1
  rw [tablePut] at hput
  split at hput
  case h_2 => cases hput
  case h_1 nk nv _ _ =>
    rw [tablePutBytes] at hput
    split at hput
    case h_1 => cases hput
    case h_2 node _ =>
      split at hput
      · cases hput
      · cases hput
        refine ⟨if node = a then { n with v := nv } else n, by simp [List.getElem?_modify, hn], ?_⟩
        split <;> rfl
    case h_3 lastNode _ =>
      split at hput
      case h_2 => cases hput
      case h_1 =>
        cases hput
        refine ⟨if lastNode = a then { n with next := some office.length } else n, ?_, ?_⟩
        · rw [List.getElem?_append_left (by simpa using ha), List.getElem?_modify, hn]
          rfl
        · split <;> rfl

/-- A call of `table_put` leaves the nodes of the other keys where they are, with their values. -/
theorem tablePut_others {m : Malloc} {office office' : Office} (h : WellFormed office) {k v : Bytes}
    (hk : k ≠ []) (hroom : m.Room k ∧ m.Room v) (hput : tablePut m office k v = some office')
    {k' : Bytes} (hne : k' ≠ k) :
    tableGet m office' k' = tableGet m office k' ∧
      ∀ r, Finds m office k' r → Finds m office' k' r := by
  obtain ⟨office₁, hput₁, hwf, hcont⟩ := tablePut_spec h hk hroom
  obtain rfl : office' = office₁ := Option.some.inj (hput.symm.trans hput₁)
  by_cases hroom' : m.Room k'
  · have hkeep := tablePut_keeps hput
    have hfinds : ∀ r, Finds m office k' r → Finds m office' k' r := by
      intro r hr
      rw [finds_iff_contents hwf hroom', hcont, Function.update_of_ne hne]
      exact (finds_iff_contents h hroom').mp hr
    refine ⟨?_, hfinds⟩
    rcases tableGet_spec h hroom' with ⟨a, n, hget, hn, hv⟩ | ⟨hget, -⟩
    · obtain ⟨n', hn', hkey⟩ := (tableGet_eq_node_iff h hroom').mp hget
      obtain ⟨n₁, hn₁, hkey₁⟩ := hkeep a n' hn'
      rw [hget]
      exact (tableGet_eq_node_iff hwf hroom').mpr ⟨n₁, hn₁, hkey₁.trans hkey⟩
    · rw [hget]
      exact hfinds none hget
  · have hget := tableGet_of_not_room hroom'
    refine ⟨by rw [hget, hget], fun r hr => ?_⟩
    cases r with
    | none => simp [Finds, hget] at hr
    | some v => simp [Finds, hget] at hr

/-- **Where there is room, the list is a finite map.** -/
theorem finiteMap_tablePuts (m : Malloc) (puts : List (Bytes × Bytes))
    (hputs : ∀ p ∈ puts, p.1 ≠ []) (hroom : Roomy m puts) :
    ∃ office, tablePuts m ensureOffice puts = some office ∧ FiniteMap m puts office := by
  obtain ⟨office, hrun, hwf, hcont⟩ := tablePuts_spec wellFormed_ensureOffice puts hputs hroom
  have hnil : last puts [] = none := last_eq_none_iff.mpr hputs
  refine ⟨office, hrun, ?_⟩
  constructor
  · exact ⟨List.range office.length, hwf.isChain, fun a => List.mem_range⟩
  · exact fun a b n n' ha hb hkey => hwf.key_inj ha hb hkey
  · intro k hk hroomk
    have hstart : contents ensureOffice k = none := by
      refine contents_eq_none fun n hn => ?_
      obtain rfl : n = ⟨[], [], none⟩ := by simpa [ensureOffice] using hn
      exact fun h => hk h.symm
    rw [finds_iff_contents hwf hroomk, hcont, hstart, Option.or_none]
  · intro hroomk
    rw [finds_iff_contents hwf hroomk, hcont, hnil]
    rfl
  · intro k v hk hroomkv
    obtain ⟨office', hput, -, -⟩ := tablePut_spec hwf hk hroomkv
    exact ⟨office', hput, fun k' hne => tablePut_others hwf hk hroomkv hput hne⟩

/-- A key, a longer one that begins with it, and the first one again. -/
theorem finiteMap_tablePuts_prefix :
    ∃ office, tablePuts .glibc ensureOffice [([0], [1]), ([0, 0], [2]), ([0], [3])] = some office ∧
      FiniteMap .glibc [([0], [1]), ([0, 0], [2]), ([0], [3])] office :=
  finiteMap_tablePuts .glibc [([0], [1]), ([0, 0], [2]), ([0], [3])] (by decide)
    (by unfold Roomy; decide)

/-- Not every key that was never put is answered with NULL: the first node has the empty key. And
not every value can be put: behind 24 bytes there is no room for the NUL. -/
theorem not_finiteMap_glibc :
    (¬ ∀ (puts : List (Bytes × Bytes)) (office : Office), (∀ p ∈ puts, p.1 ≠ []) →
      tablePuts .glibc ensureOffice puts = some office →
        ∀ k, Malloc.glibc.Room k → Finds .glibc office k (last puts k)) ∧
    ¬ ∀ puts : List (Bytes × Bytes), (∀ p ∈ puts, p.1 ≠ []) →
      tablePuts .glibc ensureOffice puts ≠ none := by
  constructor
  · intro h
    have hnull := h [] ensureOffice (by simp) rfl [] (by decide)
    have hget : tableGet .glibc ensureOffice [] = some (some 0) := by decide
    rw [last_nil, Finds, hget] at hnull
    cases hnull
  · intro h
    have hput := h [([107], List.replicate 24 0)] (by simp)
    rw [tablePuts_ne_none_iff wellFormed_ensureOffice (by simp)] at hput
    have hroom : ¬ Malloc.glibc.Room (List.replicate 24 0) := by decide
    exact hroom (hput _ List.mem_cons_self).2

end AhungryJanet
