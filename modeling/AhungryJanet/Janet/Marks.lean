import AhungryJanet.Janet.Copies
import Mathlib.Data.List.Nodup

/-!
# Keeping marks

`marshal` and `unmarshal` keep their numbers in step: what `marshal` marks as seen is, in the same
order, what `unmarshal` keeps, and the objects among it are made one after another.

## Main results

* `Marked.markSeen` — a value gets the next number
* `Built.trans` — reading one thing after another
* `Tracks.fill` — an object is complete when what is in it has been read
-/

namespace AhungryJanet.Marshal

/-! ### Marks -/

def Datum.address : Datum → Option ℕ
  | .ref a => some a
  | _ => none

/-- The addresses among the values that were marked, in the order in which they were. -/
def refsOf (marks : List Datum) : List ℕ := marks.filterMap Datum.address

/-- The object at an address is read as the one that its place among the marks says. -/
def At (base : ℕ) (marks : List Datum) (a b : ℕ) : Prop :=
  ∃ i, (refsOf marks)[i]? = some a ∧ b = base + i

theorem refsOf_append (marks marks' : List Datum) :
    refsOf (marks ++ marks') = refsOf marks ++ refsOf marks' :=
  List.filterMap_append ..

theorem refsOf_concat_ref (marks : List Datum) (a : ℕ) :
    refsOf (marks ++ [.ref a]) = refsOf marks ++ [a] := refsOf_append ..

theorem refsOf_concat {x : Datum} (hx : x.address = none) (marks : List Datum) :
    refsOf (marks ++ [x]) = refsOf marks := by
  rw [refsOf_append, show refsOf [x] = [] by simp [refsOf, hx], List.append_nil]

theorem mem_refsOf {marks : List Datum} {a : ℕ} : a ∈ refsOf marks ↔ .ref a ∈ marks := by
  rw [refsOf, List.mem_filterMap]
  constructor
  · rintro ⟨x, hx, ha⟩
    cases x <;> simp only [Datum.address, Option.some.injEq, reduceCtorEq] at ha
    exact ha ▸ hx
  · intro h
    exact ⟨_, h, rfl⟩

variable {base : ℕ} {marks marks' : List Datum}

theorem getElem?_refsOf_of_prefix (h : marks <+: marks') {i a : ℕ}
    (hi : (refsOf marks)[i]? = some a) : (refsOf marks')[i]? = some a := by
  obtain ⟨more, rfl⟩ := h
  rw [refsOf_append, List.getElem?_append_left (List.getElem?_eq_some_iff.mp hi).1]
  exact hi

theorem length_refsOf_of_prefix (h : marks <+: marks') :
    (refsOf marks).length ≤ (refsOf marks').length := by
  obtain ⟨more, rfl⟩ := h
  rw [refsOf_append, List.length_append]
  exact Nat.le_add_right _ _

theorem At.mono (h : marks <+: marks') {a b : ℕ} (hat : At base marks a b) :
    At base marks' a b := by
  obtain ⟨i, hi, rfl⟩ := hat
  exact ⟨i, getElem?_refsOf_of_prefix h hi, rfl⟩

theorem At.left_unique {a a' b : ℕ} (h : At base marks a b) (h' : At base marks a' b) : a = a' := by
  obtain ⟨i, hi, rfl⟩ := h
  obtain ⟨j, hj, hij⟩ := h'
  have heq : i = j := by omega
  rw [heq, hj] at hi
  cases hi
  rfl

theorem At.right_unique (hnodup : (refsOf marks).Nodup) {a b b' : ℕ} (h : At base marks a b)
    (h' : At base marks a b') : b = b' := by
  obtain ⟨i, hi, rfl⟩ := h
  obtain ⟨j, hj, rfl⟩ := h'
  obtain ⟨hilt, hi⟩ := List.getElem?_eq_some_iff.mp hi
  obtain ⟨hjlt, hj⟩ := List.getElem?_eq_some_iff.mp hj
  have heq : i = j := (List.Nodup.getElem_inj_iff hnodup).mp (hi.trans hj.symm)
  rw [heq]

/-- What `marshal` knows of the values it has marked. -/
structure Marked (st : MarshalState) (marks : List Datum) : Prop where
  nextid : st.nextid = marks.length
  sound : ∀ x i, (x, i) ∈ st.seen → marks[i]? = some x
  complete : ∀ a, .ref a ∈ marks → ∃ i, (Datum.ref a, i) ∈ st.seen
  nodup : (refsOf marks).Nodup

variable {st st' : MarshalState}

theorem Marked.push (h : Marked st marks) (bytes : Bytes) : Marked (st.push bytes) marks :=
  ⟨h.nextid, h.sound, h.complete, h.nodup⟩

theorem Marked.markSeen (h : Marked st marks) {x : Datum} (hx : x ∉ marks ∨ x.address = none) :
    Marked (st.markSeen x) (marks ++ [x]) where
  nextid := by
    rw [MarshalState.markSeen, List.length_append, ← h.nextid]
    rfl
  sound y i hy := by
    have hold : (y, i) ∈ st.seen → (marks ++ [x])[i]? = some y := fun hmem => by
      have hi := h.sound y i hmem
      rw [List.getElem?_append_left (List.getElem?_eq_some_iff.mp hi).1]
      exact hi
    rw [MarshalState.markSeen] at hy
    dsimp only at hy
    split at hy
    · exact hold hy
    · rcases List.mem_cons.mp hy with heq | hy
      · cases heq
        rw [h.nextid, List.getElem?_concat_length]
      · exact hold hy
  complete a ha := by
    rw [MarshalState.markSeen]
    rcases List.mem_append.mp ha with ha | ha
    · obtain ⟨i, hi⟩ := h.complete a ha
      refine ⟨i, ?_⟩
      dsimp only
      split
      · exact hi
      · exact List.mem_cons_of_mem _ hi
    · rw [List.mem_singleton] at ha
      subst ha
      exact ⟨st.nextid, by simp [Datum.isnan]⟩
  nodup := by
    cases hax : x.address with
    | none =>
      rw [refsOf_concat hax]
      exact h.nodup
    | some a =>
      cases x <;> simp only [Datum.address, Option.some.injEq, reduceCtorEq] at hax
      rename_i a'
      have hnew : a' ∉ refsOf marks := by
        rw [mem_refsOf]
        exact hx.resolve_right (by simp [Datum.address])
      rw [refsOf_concat_ref]
      exact List.nodup_append.mpr ⟨h.nodup, by simp, fun b hb c hc => by
        rw [List.mem_singleton] at hc
        rintro rfl
        exact hnew (hc ▸ hb)⟩

/-- What was seen was marked, and is found as an equal value. -/
theorem Marked.of_seenId (h : Marked st marks) {x : Datum} {id : ℕ} (hid : st.seenId x = some id) :
    ∃ y, marks[id]? = some y ∧ janetEquals y x = true := by
  rw [MarshalState.seenId, Option.map_eq_some_iff] at hid
  obtain ⟨⟨y, i⟩, hfind, rfl⟩ := hid
  exact ⟨y, h.sound y i (List.mem_of_find?_eq_some hfind), by simpa using List.find?_some hfind⟩

/-- An object that was not seen was not marked. -/
theorem Marked.notMem (h : Marked st marks) {a : ℕ} (hid : st.seenId (.ref a) = none) :
    .ref a ∉ marks := by
  intro hmem
  obtain ⟨i, hi⟩ := h.complete a hmem
  rw [MarshalState.seenId, Option.map_eq_none_iff, List.find?_eq_none] at hid
  exact hid _ hi (by simp [janetEquals])

/-! ### Keeping in step -/

variable {heap : Heap}

/-- What has been read when some values were marked. An object that is still being read is of the
right type already. -/
structure Tracks (heap : Heap) (base : ℕ) (marks : List Datum) (u : UnmarshalState) : Prop where
  lookup : List.Forall₂ (Copy (At base marks)) marks u.lookup
  length : u.heap.length = base + (refsOf marks).length
  kind : ∀ i a o, (refsOf marks)[i]? = some a → heap[a]? = some o →
    ∃ o', u.heap[base + i]? = some o' ∧ o'.isTable = o.isTable

/-- What reading does while more values get marked: the objects there were stay, and those that came
in addition are complete. -/
structure Built (heap : Heap) (base : ℕ) (marks marks' : List Datum) (u u' : UnmarshalState) :
    Prop where
  pre : marks <+: marks'
  tracks : Tracks heap base marks' u'
  old : ∀ i < base + (refsOf marks).length, u'.heap[i]? = u.heap[i]?
  new : ∀ i a, (refsOf marks).length ≤ i → (refsOf marks')[i]? = some a →
    ∃ o o', heap[a]? = some o ∧ u'.heap[base + i]? = some o' ∧ CopyObj (At base marks') o o'

variable {u u' u'' : UnmarshalState} {marks'' : List Datum}

theorem Tracks.refl (h : Tracks heap base marks u) : Built heap base marks marks u u where
  pre := List.prefix_rfl
  tracks := h
  old _ _ := rfl
  new _ _ hi ha := absurd (List.getElem?_eq_some_iff.mp ha).1 (Nat.not_lt.mpr hi)

theorem Built.trans (h : Built heap base marks marks' u u')
    (h' : Built heap base marks' marks'' u' u'') : Built heap base marks marks'' u u'' where
  pre := h.pre.trans h'.pre
  tracks := h'.tracks
  old i hi := by
    have hlen := length_refsOf_of_prefix h.pre
    rw [h'.old i (by omega), h.old i hi]
  new i a hi ha := by
    by_cases hi' : (refsOf marks').length ≤ i
    · exact h'.new i a hi' ha
    · have hlt : i < (refsOf marks').length := Nat.lt_of_not_le hi'
      have ha' : (refsOf marks')[i]? = some a := by
        have hsome := getElem?_refsOf_of_prefix h'.pre (List.getElem?_eq_getElem hlt)
        rw [hsome] at ha
        rw [List.getElem?_eq_getElem hlt, ha]
      obtain ⟨o, o', ho, ho', hcopy⟩ := h.new i a hi ha'
      refine ⟨o, o', ho, ?_, hcopy.mono fun _ _ => At.mono h'.pre⟩
      rw [h'.old (base + i) (by omega), ho']

theorem copies_mono (h : marks <+: marks') {xs ys : List Datum}
    (hcopy : List.Forall₂ (Copy (At base marks)) xs ys) :
    List.Forall₂ (Copy (At base marks')) xs ys :=
  hcopy.imp fun _ _ hxy => hxy.mono fun _ _ => At.mono h

/-- A value without an address is marked, and kept. -/
theorem Tracks.keep (h : Tracks heap base marks u) {x y : Datum} (hx : x.address = none)
    (hcopy : Copy (At base marks) x y) : Built heap base marks (marks ++ [x]) u (u.keep y) where
  pre := List.prefix_append ..
  tracks := by
    have hpre : marks <+: marks ++ [x] := List.prefix_append ..
    refine ⟨?_, ?_, ?_⟩
    · exact List.rel_append (copies_mono hpre h.lookup)
        (.cons (hcopy.mono fun _ _ => At.mono hpre) .nil)
    · rw [refsOf_concat hx]
      exact h.length
    · rw [refsOf_concat hx]
      exact h.kind
  old _ _ := rfl
  new i a hi ha := by
    rw [refsOf_concat hx] at ha
    exact absurd (List.getElem?_eq_some_iff.mp ha).1 (Nat.not_lt.mpr hi)

/-- An object is marked, and a new one is made for it. -/
theorem Tracks.alloc (h : Tracks heap base marks u) {a : ℕ} {o o₀ : Obj} (ho : heap[a]? = some o)
    (hkind : o₀.isTable = o.isTable) : Tracks heap base (marks ++ [.ref a]) (u.alloc o₀) := by
  have hpre : marks <+: marks ++ [.ref a] := List.prefix_append ..
  refine ⟨?_, ?_, fun i a' o' hi ho' => ?_⟩
  · refine List.rel_append (copies_mono hpre h.lookup) (.cons ?_ .nil)
    rw [Copy]
    refine ⟨(refsOf marks).length, ?_, h.length⟩
    rw [refsOf_concat_ref, List.getElem?_concat_length]
  · rw [refsOf_concat_ref, UnmarshalState.alloc, List.length_append, List.length_append, h.length]
    rfl
  · rw [refsOf_concat_ref] at hi
    rw [UnmarshalState.alloc]
    dsimp only
    by_cases hlt : i < (refsOf marks).length
    · rw [List.getElem?_append_left hlt] at hi
      rw [List.getElem?_append_left (by rw [h.length]; omega)]
      exact h.kind i a' o' hi ho'
    · have hlen := (List.getElem?_eq_some_iff.mp hi).1
      rw [List.length_append, List.length_singleton] at hlen
      have heq : i = (refsOf marks).length := by omega
      subst heq
      rw [List.getElem?_concat_length] at hi
      cases hi
      rw [ho] at ho'
      cases ho'
      refine ⟨o₀, ?_, hkind⟩
      rw [← h.length, List.getElem?_concat_length]

/-- The object that was made is filled, when what is in it has been read. -/
theorem Tracks.fill (h : Tracks heap base marks u) {a : ℕ} {o o₀ o' : Obj} (ho : heap[a]? = some o)
    (hbuilt : Built heap base (marks ++ [.ref a]) marks' (u.alloc o₀) u')
    (hcopy : CopyObj (At base marks') o o') :
    Built heap base marks marks' u (u'.fill u.heap.length o') := by
  have hpre : marks <+: marks ++ [.ref a] := List.prefix_append ..
  have hself : (refsOf marks')[(refsOf marks).length]? = some a := by
    refine getElem?_refsOf_of_prefix hbuilt.pre ?_
    rw [refsOf_concat_ref, List.getElem?_concat_length]
  have hlt : u.heap.length < u'.heap.length := by
    have hlen := (List.getElem?_eq_some_iff.mp hself).1
    rw [h.length, hbuilt.tracks.length]
    omega
  have hset : ∀ i, i ≠ (refsOf marks).length →
      (u'.fill u.heap.length o').heap[base + i]? = u'.heap[base + i]? := by
    intro i hi
    rw [UnmarshalState.fill]
    exact List.getElem?_set_ne (by rw [h.length]; omega)
  have hfilled : (u'.fill u.heap.length o').heap[base + (refsOf marks).length]? = some o' := by
    rw [← h.length, UnmarshalState.fill]
    exact List.getElem?_set_self hlt
  refine ⟨hpre.trans hbuilt.pre, ⟨hbuilt.tracks.lookup, ?_, fun i a' o₁ hi ho₁ => ?_⟩,
    fun i hi => ?_, fun i a' hi ha' => ?_⟩
  · rw [UnmarshalState.fill, List.length_set]
    exact hbuilt.tracks.length
  · by_cases heq : i = (refsOf marks).length
    · subst heq
      rw [hself] at hi
      cases hi
      rw [ho] at ho₁
      cases ho₁
      exact ⟨o', hfilled, hcopy.isTable⟩
    · rw [hset i heq]
      exact hbuilt.tracks.kind i a' o₁ hi ho₁
  · have hold := hbuilt.old i (by
      rw [refsOf_concat_ref, List.length_append]
      omega)
    rw [UnmarshalState.fill]
    dsimp only
    rw [List.getElem?_set_ne (by rw [h.length]; omega), hold, UnmarshalState.alloc]
    exact List.getElem?_append_left (by rw [h.length]; exact hi)
  · by_cases heq : i = (refsOf marks).length
    · subst heq
      rw [hself] at ha'
      cases ha'
      exact ⟨o, o', ho, hfilled, hcopy⟩
    · rw [hset i heq]
      refine hbuilt.new i a' ?_ ha'
      rw [refsOf_concat_ref, List.length_append, List.length_singleton]
      omega

end AhungryJanet.Marshal
