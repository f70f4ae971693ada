import AhungryJanet.Janet.Marks

/-!
# What was marshalled comes back

`unmarshal` after `marshal` gives a copy: of what is shared, what goes around in a circle, of tables
with their prototypes.

## Main results

* `marshalOne_spec` — what was written of a value is read as a copy of it
* `janetUnmarshal_janetMarshal` — the round trip
-/

namespace AhungryJanet.Marshal

/-! ### Reading what was pushed -/

variable {L : Layout} {size guard : ℕ} {u u' : UnmarshalState} {data data' rest : Bytes}

theorem marshEos_of_le {n : ℕ} (h : n ≤ data.length) : marshEos data n = .ok () :=
  if_neg (Nat.not_lt.mpr h)

theorem readBytes_pushed {s : Bytes} (h : s.length ≤ int32Max) (size : ℕ) (rest : Bytes) :
    readBytes size (pushint s.length ++ s ++ rest) = .ok (s, rest) := by
  have heos : marshEos (s ++ rest) s.length = .ok () := marshEos_of_le (by simp)
  rw [readBytes, List.append_assoc, readnat_pushint h]
  simp [heos, bind, Except.bind, pure, Except.pure]

theorem exists_pushint (i : ℤ) :
    ∃ lead tail, pushint i = lead :: tail ∧ leadOf lead = .integer := by
  rw [pushint]
  split
  case isTrue hx =>
    have hlead : lowByte i < 200 := by
      have hlow := toNat_lowByte i
      rw [UInt8.lt_iff_toNat_lt, show (200 : UInt8).toNat = 200 from rfl]
      omega
    exact ⟨_, _, rfl, if_pos hlead⟩
  case isFalse =>
    split
    case isTrue =>
      have hlead : lowByte (i / 256 % 64 + 128) < 200 := by
        have hlow := toNat_lowByte (i / 256 % 64 + 128)
        rw [UInt8.lt_iff_toNat_lt, show (200 : UInt8).toNat = 200 from rfl]
        omega
      exact ⟨_, _, rfl, if_pos hlead⟩
    case isFalse => exact ⟨_, _, rfl, rfl⟩

theorem unmarshalOne_integer {i : ℤ} (hi : IsInt32 i) (u : UnmarshalState) (rest : Bytes) :
    unmarshalOne L size (guard + 1) u (pushint i ++ rest) =
      .ok (.number (wrapInteger i), u, rest) := by
  obtain ⟨lead, tail, hpush, hlead⟩ := exists_pushint i
  have hread := readint_pushint hi size rest
  rw [hpush, List.cons_append] at hread ⊢
  rw [unmarshalOne]
  simp only [hlead, hread, bind, Except.bind, pure, Except.pure]

theorem unmarshalOne_real (x : UInt64) (u : UnmarshalState) (rest : Bytes) :
    unmarshalOne L size (guard + 1) u (200 :: realBytes x ++ rest) =
      .ok (.number (wrapNumberSafe x), u.keep (.number (wrapNumberSafe x)), rest) := by
  have hlen := length_realBytes x
  have heos : marshEos (realBytes x ++ rest) 8 = .ok () :=
    marshEos_of_le (by rw [List.length_append, hlen]; omega)
  rw [List.cons_append, unmarshalOne]
  simp only [show leadOf 200 = .real from rfl, heos, bind, Except.bind, pure, Except.pure,
    List.take_left' hlen, List.drop_left' hlen, realOf_realBytes]

theorem leadOf_lead (kind : TextKind) : leadOf kind.lead = .text kind := by cases kind <;> rfl

theorem unmarshalOne_text (kind : TextKind) {s : Bytes} (h : s.length ≤ int32Max)
    (u : UnmarshalState) (rest : Bytes) :
    unmarshalOne L size (guard + 1) u (kind.lead :: (pushint s.length ++ s) ++ rest) =
      .ok (.text kind s, u.keep (.text kind s), rest) := by
  rw [List.cons_append, unmarshalOne]
  simp only [leadOf_lead, readBytes_pushed h, bind, Except.bind, pure, Except.pure]

theorem unmarshalOne_buffer {s : Bytes} (h : s.length ≤ int32Max)
    (u : UnmarshalState) (rest : Bytes) :
    unmarshalOne L size (guard + 1) u (214 :: (pushint s.length ++ s) ++ rest) =
      .ok (.ref u.heap.length, u.alloc (.buffer s), rest) := by
  rw [List.cons_append, unmarshalOne]
  simp only [show leadOf 214 = .buffer from rfl, readBytes_pushed h, bind, Except.bind, pure,
    Except.pure]

theorem unmarshalOne_reference {id : ℕ} (h : id ≤ int32Max) {u : UnmarshalState} {y : Datum}
    (hy : u.lookup[id]? = some y) (rest : Bytes) :
    unmarshalOne L size (guard + 1) u (218 :: pushint id ++ rest) = .ok (y, u, rest) := by
  rw [List.cons_append, unmarshalOne]
  simp only [show leadOf 218 = .reference from rfl, readnat_pushint h, hy, bind, Except.bind, pure,
    Except.pure]

theorem unmarshalOne_array {len : ℕ} (hlen : len ≤ int32Max) (heos : len ≤ data.length)
    {items : List Datum} (hitems : readItems (unmarshalOne L size guard) len (u.alloc (.array []))
      data = .ok (items, u', rest)) :
    unmarshalOne L size (guard + 1) u (209 :: pushint len ++ data) =
      .ok (.ref u.heap.length, u'.fill u.heap.length (.array items), rest) := by
  rw [List.cons_append, unmarshalOne]
  simp only [show leadOf 209 = .array from rfl, readnat_pushint hlen, marshEos_of_le heos, hitems,
    bind, Except.bind, pure, Except.pure]

theorem unmarshalOne_tuple {len : ℕ} (hlen : len ≤ int32Max) (b : Bool) (heos : len ≤ data.length)
    {items : List Datum} (hitems : readItems (unmarshalOne L size guard) len u data =
      .ok (items, u', rest)) :
    unmarshalOne L size (guard + 1) u
        (210 :: (pushint len ++ pushint (if b then 1 else 0)) ++ data) =
      .ok (.tuple b items, u'.keep (.tuple b items), rest) := by
  have hflag : IsInt32 (if b then 1 else 0) := by cases b <;> decide
  have hbit : decide ((if b then 1 else 0 : ℤ) % 2 = 1) = b := by cases b <;> rfl
  have heos' : len ≤ (pushint (if b then 1 else 0) ++ data).length := by
    rw [List.length_append]
    exact Nat.le_add_left_of_le heos
  rw [List.cons_append, List.append_assoc, unmarshalOne]
  simp only [show leadOf 210 = .tuple from rfl, readnat_pushint hlen, marshEos_of_le heos',
    readint_pushint hflag, hitems, hbit, bind, Except.bind, pure, Except.pure]

theorem unmarshalOne_struct {len : ℕ} (hlen : len ≤ int32Max) (hasProto : Bool)
    (heos : len ≤ data.length) {proto : Option Datum} {u₁ : UnmarshalState}
    (hproto : readProto (unmarshalOne L size guard) assertStruct hasProto u data =
      .ok (proto, u₁, data'))
    {items : List Datum} (hitems : readItems (unmarshalOne L size guard) (2 * len) u₁ data' =
      .ok (items, u', rest)) :
    unmarshalOne L size (guard + 1) u ((if hasProto then 223 else 213) :: pushint len ++ data) =
      .ok (.ofEntries proto (L.slots (pairUp items)),
        u'.keep (.ofEntries proto (L.slots (pairUp items))), rest) := by
  have hlead : leadOf (if hasProto then 223 else 213) = .struct hasProto := by
    cases hasProto <;> rfl
  rw [List.cons_append, unmarshalOne]
  simp only [hlead, readnat_pushint hlen, marshEos_of_le heos, hproto, hitems,
    bind, Except.bind, pure, Except.pure]

theorem unmarshalOne_table {len : ℕ} (hlen : len ≤ int32Max) (hasProto : Bool)
    (heos : len ≤ data.length) {proto : Option ℕ} {u₁ : UnmarshalState}
    (hproto : readProto (unmarshalOne L size guard) protoOf hasProto (u.alloc (.table none []))
      data = .ok (proto, u₁, data'))
    {items : List Datum} (hitems : readItems (unmarshalOne L size guard) (2 * len) u₁ data' =
      .ok (items, u', rest)) :
    unmarshalOne L size (guard + 1) u ((if hasProto then 212 else 211) :: pushint len ++ data) =
      .ok (.ref u.heap.length, u'.fill u.heap.length (.table proto (L.walk (pairUp items))),
        rest) := by
  have hlead : leadOf (if hasProto then 212 else 211) = .table hasProto := by cases hasProto <;> rfl
  rw [List.cons_append, unmarshalOne]
  simp only [hlead, readnat_pushint hlen, marshEos_of_le heos, hproto, hitems,
    bind, Except.bind, pure, Except.pure]

/-! ### One value -/

/-- What marshalling has written and marked. A mark takes a byte at least. -/
structure Wrote (bytes : Bytes) (marks marks' : List Datum) (st st' : MarshalState) : Prop where
  buf : st'.buf = st.buf ++ bytes
  marked : Marked st' marks'
  pre : marks <+: marks'
  few : marks'.length ≤ marks.length + bytes.length

variable (O : SlotOrder) (heap : Heap) (L : Layout) (base size : ℕ)

/-- What was written is read as a copy of a value. -/
def ReadsAs (guard : ℕ) (bytes : Bytes) (marks marks' : List Datum) (x : Datum) : Prop :=
  marks'.length ≤ int32Max → ∀ u rest, Tracks heap base marks u →
    ∃ u' y, unmarshalOne L size guard u (bytes ++ rest) = .ok (y, u', rest) ∧
      Built heap base marks marks' u u' ∧ Copy (At base marks') x y

/-- What was written is read as copies of some values. -/
def ReadsItems (guard : ℕ) (bytes : Bytes) (marks marks' : List Datum) (xs : List Datum) : Prop :=
  marks'.length ≤ int32Max → ∀ u rest, Tracks heap base marks u →
    ∃ u' ys, readItems (unmarshalOne L size guard) xs.length u (bytes ++ rest) =
        .ok (ys, u', rest) ∧
      Built heap base marks marks' u u' ∧ List.Forall₂ (Copy (At base marks')) xs ys

/-- What is marshalled within `guard` levels is read within as many. -/
def Spec (guard : ℕ) : Prop := ∀ st st' x marks, Marked st marks → Fits O x →
  marshalOne heap guard st x = some st' → ∃ bytes marks', 0 < bytes.length ∧
    Wrote bytes marks marks' st st' ∧ ReadsAs heap L base size guard bytes marks marks' x

variable {O heap L base size} {marks : List Datum} {st st' : MarshalState}

theorem Spec.items (h : Spec O heap L base size guard) {xs : List Datum} (hxs : ∀ x ∈ xs, Fits O x)
    (hmarked : Marked st marks) (hst : xs.foldlM (marshalOne heap guard) st = some st') :
    ∃ bytes marks', xs.length ≤ bytes.length ∧ Wrote bytes marks marks' st st' ∧
      ReadsItems heap L base size guard bytes marks marks' xs := by
  induction xs generalizing st marks with
  | nil =>
    cases hst
    refine ⟨[], marks, Nat.le_refl _, ⟨by simp, hmarked, List.prefix_rfl, by simp⟩, ?_⟩
    intro _ u rest htracks
    exact ⟨u, [], rfl, htracks.refl, .nil⟩
  | cons x xs ih =>
    rw [List.foldlM_cons] at hst
    obtain ⟨st₁, hx, hst⟩ := Option.bind_eq_some_iff.mp hst
    obtain ⟨bytes₁, marks₁, hpos, hwrote₁, hreads₁⟩ := h st st₁ x marks hmarked
      (hxs x (List.mem_cons_self ..)) hx
    obtain ⟨bytes₂, marks₂, hlen, hwrote₂, hreads₂⟩ := ih
      (fun y hy => hxs y (List.mem_cons_of_mem _ hy)) hwrote₁.marked hst
    refine ⟨bytes₁ ++ bytes₂, marks₂, ?_,
      ⟨?_, hwrote₂.marked, hwrote₁.pre.trans hwrote₂.pre, ?_⟩, ?_⟩
    · rw [List.length_cons, List.length_append]
      omega
    · rw [hwrote₂.buf, hwrote₁.buf, List.append_assoc]
    · have hfew₁ := hwrote₁.few
      have hfew₂ := hwrote₂.few
      rw [List.length_append]
      omega
    · intro hmarks u rest htracks
      obtain ⟨u₁, y, hy, hbuilt₁, hcopy⟩ := hreads₁ (hwrote₂.pre.length_le.trans hmarks) u
        (bytes₂ ++ rest) htracks
      obtain ⟨u₂, ys, hys, hbuilt₂, hcopies⟩ := hreads₂ hmarks u₁ rest hbuilt₁.tracks
      refine ⟨u₂, y :: ys, ?_, hbuilt₁.trans hbuilt₂,
        .cons (hcopy.mono fun _ _ => At.mono hwrote₂.pre) hcopies⟩
      rw [List.append_assoc, List.length_cons, readItems]
      simp only [hy, hys, bind, Except.bind, pure, Except.pure]

theorem length_pos_of_simple {x : Datum} {bytes : Bytes} (h : simple x = some bytes) :
    0 < bytes.length := by
  cases x <;> simp only [simple, Option.some.injEq, Option.map_eq_some_iff, reduceCtorEq] at h
  case nil | boolean =>
    subst h
    exact Nat.one_pos
  case number n =>
    obtain ⟨i, -, rfl⟩ := h
    exact length_pushint_pos i

theorem simple_spec (L : Layout) (size guard : ℕ) {x : Datum} {bytes : Bytes}
    (h : simple x = some bytes) (u : UnmarshalState) (rest : Bytes) :
    ∃ y, unmarshalOne L size (guard + 1) u (bytes ++ rest) = .ok (y, u, rest) ∧
      ∀ R, Copy R x y := by
  cases x <;> simp only [simple, Option.some.injEq, Option.map_eq_some_iff, reduceCtorEq] at h
  case nil =>
    subst h
    exact ⟨.nil, rfl, fun R => trivial⟩
  case boolean b =>
    subst h
    exact ⟨.boolean b, by cases b <;> rfl, fun R => rfl⟩
  case number n =>
    obtain ⟨i, hi, rfl⟩ := h
    exact ⟨_, unmarshalOne_integer (isInt32_of_checkintrange hi) u rest,
      fun R => sameNumber_wrapInteger hi⟩

/-! ### What is written is not empty -/

theorem length_le_of_foldlM {f : MarshalState → Datum → Option MarshalState}
    (hf : ∀ {st x st'}, f st x = some st' → st.buf.length < st'.buf.length) {xs : List Datum}
    {st st' : MarshalState} (h : xs.foldlM f st = some st') : st.buf.length ≤ st'.buf.length := by
  induction xs generalizing st with
  | nil =>
    cases h
    exact Nat.le_refl _
  | cons x xs ih =>
    rw [List.foldlM_cons] at h
    obtain ⟨st₁, hx, hxs⟩ := Option.bind_eq_some_iff.mp h
    exact (Nat.le_of_lt (hf hx)).trans (ih hxs)

theorem length_push_lt {bytes : Bytes} (h : 0 < bytes.length) :
    st.buf.length < (st.push bytes).buf.length := by
  rw [MarshalState.push, List.length_append]
  omega

/-- Every value takes a byte at least. -/
theorem length_lt_of_marshalOne {x : Datum} (h : marshalOne heap guard st x = some st') :
    st.buf.length < st'.buf.length := by
  induction guard generalizing st st' x with
  | zero => cases h
  | succ guard ih =>
    -- what is in a value only adds to the bytes in front
    have hitems : ∀ {xs : List Datum} {st₁ st₂ : MarshalState} {bytes : Bytes},
        0 < bytes.length → xs.foldlM (marshalOne heap guard) (st₁.push bytes) = some st₂ →
          st₁.buf.length < st₂.buf.length :=
      fun hpos hxs => (length_push_lt hpos).trans_le (length_le_of_foldlM ih hxs)
    unfold marshalOne at h
    cases hsimple : simple x with
    | some bytes =>
      rw [hsimple] at h
      cases h
      exact length_push_lt (length_pos_of_simple hsimple)
    | none =>
      rw [hsimple] at h
      dsimp only at h
      cases hid : st.seenId x with
      | some id =>
        rw [hid] at h
        cases h
        exact length_push_lt (Nat.succ_pos _)
      | none =>
        rw [hid] at h
        dsimp only at h
        cases x with
        | nil | boolean => cases h
        | number bits =>
          cases h
          exact length_push_lt (Nat.succ_pos _)
        | text kind s =>
          cases h
          show (st.markSeen (.text kind s)).buf.length < _
          exact length_push_lt (Nat.succ_pos _)
        | tuple b items =>
          obtain ⟨st₁, hst₁, rfl⟩ := Option.map_eq_some_iff.mp h
          show st.buf.length < st₁.buf.length
          refine hitems ?_ hst₁
          exact Nat.succ_pos _
        | struct hasProto items =>
          obtain ⟨st₁, hst₁, rfl⟩ := Option.map_eq_some_iff.mp h
          show st.buf.length < st₁.buf.length
          refine hitems ?_ hst₁
          exact Nat.succ_pos _
        | ref a =>
          dsimp only at h
          cases ho : heap[a]? with
          | none =>
            rw [ho] at h
            cases h
          | some o =>
            rw [ho] at h
            show (st.markSeen (.ref a)).buf.length < _
            refine hitems ?_ h
            cases o <;> exact Nat.succ_pos _

theorem janetMarshal_ne_nil {x : Datum} {bytes : Bytes} (h : janetMarshal heap x = some bytes) :
    bytes ≠ [] := by
  rw [janetMarshal] at h
  split at h
  case h_2 => cases h
  case h_1 st hst =>
    split at h
    case isFalse => cases h
    case isTrue =>
      cases h
      exact List.length_pos_iff.mp (length_lt_of_marshalOne hst)

/-! ### What comes again, and what is in an object -/

theorem Tracks.getElem? {u : UnmarshalState} (h : Tracks heap base marks u) {id : ℕ} {x : Datum}
    (hx : marks[id]? = some x) : ∃ y, u.lookup[id]? = some y ∧ Copy (At base marks) x y := by
  obtain ⟨hlt, rfl⟩ := List.getElem?_eq_some_iff.mp hx
  have hlt' : id < u.lookup.length := h.lookup.length_eq ▸ hlt
  exact ⟨u.lookup[id], List.getElem?_eq_getElem hlt', h.lookup.get hlt hlt'⟩

/-- A value that comes again. -/
theorem reference_spec (hmarked : Marked st marks) {x : Datum} {id : ℕ}
    (hid : st.seenId x = some id) :
    ReadsAs heap L base size (guard + 1) (218 :: pushint id) marks marks x := by
  intro hmarks u rest htracks
  obtain ⟨x₀, hx₀, hequals⟩ := hmarked.of_seenId hid
  obtain ⟨y, hy, hcopy⟩ := htracks.getElem? hx₀
  have hlt := (List.getElem?_eq_some_iff.mp hx₀).1
  exact ⟨u, y, unmarshalOne_reference (by omega) hy rest, htracks.refl, hcopy.of_equals hequals⟩

theorem length_flatten (kvs : Entries) : (flatten kvs).length = 2 * kvs.length := by
  induction kvs with
  | nil => rfl
  | cons kv kvs ih =>
    rw [flatten, List.flatMap_cons, List.length_append, ← flatten, ih, List.length_cons]
    simp
    omega

theorem fst_mem_flatten {kvs : Entries} {kv : Datum × Datum} (h : kv ∈ kvs) :
    kv.1 ∈ flatten kvs := by
  rw [flatten, List.mem_flatMap]
  exact ⟨kv, h, List.mem_cons_self ..⟩

theorem mem_flatten {kvs : Entries} {x : Datum} (h : x ∈ flatten kvs) :
    ∃ kv ∈ kvs, x = kv.1 ∨ x = kv.2 := by
  simpa [flatten] using h

/-- Keys and values that were read in turn are the entries they are copies of. -/
theorem copyEntries_pairUp {R : ℕ → ℕ → Prop} {kvs : Entries} {ys : List Datum}
    (h : List.Forall₂ (Copy R) (flatten kvs) ys) : List.Forall₂ (CopyEntry R) kvs (pairUp ys) := by
  induction kvs generalizing ys with
  | nil =>
    cases h
    exact .nil
  | cons kv kvs ih =>
    rw [flatten, List.flatMap_cons, ← flatten] at h
    obtain _ | ⟨hkey, _ | ⟨hvalue, hrest⟩⟩ := h
    exact .cons ⟨hkey, hvalue⟩ (ih hrest)

/-! ### Objects -/

/-- An array: the mark stands before what is in it. -/
theorem Spec.array (h : Spec O heap L base size guard) {a : ℕ} {items : List Datum}
    (ho : heap[a]? = some (.array items)) (hlen : items.length ≤ int32Max)
    (hitems : ∀ x ∈ items, Fits O x) (hmarked : Marked st marks)
    (hid : st.seenId (.ref a) = none)
    (hst : items.foldlM (marshalOne heap guard)
      ((st.markSeen (.ref a)).push (Obj.array items).header) = some st') :
    ∃ bytes marks', 0 < bytes.length ∧ Wrote bytes marks marks' st st' ∧
      ReadsAs heap L base size (guard + 1) bytes marks marks' (.ref a) := by
  have hmark := (hmarked.markSeen (.inl (hmarked.notMem hid))).push (Obj.array items).header
  obtain ⟨bytes, marks', hcount, hwrote, hreads⟩ := h.items hitems hmark hst
  refine ⟨209 :: pushint items.length ++ bytes, marks', by simp, ⟨?_, hwrote.marked,
    (List.prefix_append ..).trans hwrote.pre, ?_⟩, ?_⟩
  · rw [hwrote.buf, MarshalState.push, Obj.header, List.append_assoc]
    rfl
  · have hfew := hwrote.few
    simp only [List.length_append, List.length_cons, List.length_nil] at hfew ⊢
    omega
  · intro hmarks u rest htracks
    obtain ⟨u', ys, hys, hbuilt, hcopies⟩ := hreads hmarks (u.alloc (.array [])) rest
      (htracks.alloc ho rfl)
    refine ⟨_, .ref u.heap.length, ?_, htracks.fill ho hbuilt (.array hcopies), ?_⟩
    · rw [List.append_assoc]
      exact unmarshalOne_array hlen (by rw [List.length_append]; omega) hys
    · refine ⟨(refsOf marks).length, getElem?_refsOf_of_prefix hwrote.pre ?_, htracks.length⟩
      rw [refsOf_concat_ref, List.getElem?_concat_length]

theorem spec_buffer {a : ℕ} {s : Bytes} (ho : heap[a]? = some (.buffer s))
    (hlen : s.length ≤ int32Max) (hmarked : Marked st marks) (hid : st.seenId (.ref a) = none)
    (hst : (st.markSeen (.ref a)).push (Obj.buffer s).header = st') :
    ∃ bytes marks', 0 < bytes.length ∧ Wrote bytes marks marks' st st' ∧
      ReadsAs heap L base size (guard + 1) bytes marks marks' (.ref a) := by
  subst hst
  refine ⟨214 :: (pushint s.length ++ s), marks ++ [.ref a], by simp, ⟨rfl,
    (hmarked.markSeen (.inl (hmarked.notMem hid))).push _, List.prefix_append .., ?_⟩, ?_⟩
  · simp only [List.length_append, List.length_cons, List.length_nil]
    omega
  · intro _ u rest htracks
    have htracks' : Tracks heap base (marks ++ [.ref a]) (u.alloc (.buffer s)) :=
      htracks.alloc ho rfl
    have hplace : (refsOf (marks ++ [.ref a]))[(refsOf marks).length]? = some a := by
      rw [refsOf_concat_ref, List.getElem?_concat_length]
    refine ⟨u.alloc (.buffer s), .ref u.heap.length, unmarshalOne_buffer hlen u rest, ?_,
      ⟨(refsOf marks).length, hplace, htracks.length⟩⟩
    -- the buffer is complete from the beginning
    have hfill := htracks.fill ho htracks'.refl (.buffer s)
    have hset : (u.alloc (.buffer s)).fill u.heap.length (.buffer s) = u.alloc (.buffer s) := by
      simp [UnmarshalState.fill, UnmarshalState.alloc]
    rwa [hset] at hfill

/-- The prototype of a table. -/
theorem Spec.proto (h : Spec O heap L base size guard) {proto : Option ℕ}
    (hproto : ∀ p, proto = some p → ∃ o, heap[p]? = some o ∧ o.isTable = true)
    (hmarked : Marked st marks)
    (hst : (proto.map Datum.ref).toList.foldlM (marshalOne heap guard) st = some st') :
    ∃ bytes marks', Wrote bytes marks marks' st st' ∧
      (marks'.length ≤ int32Max → ∀ u rest, Tracks heap base marks u →
        ∃ u' proto', readProto (unmarshalOne L size guard) protoOf proto.isSome u
            (bytes ++ rest) = .ok (proto', u', rest) ∧
          Built heap base marks marks' u u' ∧ Option.Rel (At base marks') proto proto') := by
  cases proto with
  | none =>
    cases hst
    refine ⟨[], marks, ⟨by simp, hmarked, List.prefix_rfl, by simp⟩, fun _ u rest htracks => ?_⟩
    exact ⟨u, none, rfl, htracks.refl, .none⟩
  | some p =>
    obtain ⟨o, ho, htable⟩ := hproto p rfl
    have hone : marshalOne heap guard st (.ref p) = some st' := by
      simpa [List.foldlM_cons] using hst
    obtain ⟨bytes, marks', -, hwrote, hreads⟩ := h st st' (.ref p) marks hmarked trivial hone
    refine ⟨bytes, marks', hwrote, fun hmarks u rest htracks => ?_⟩
    obtain ⟨u', y, hy, hbuilt, hcopy⟩ := hreads hmarks u rest htracks
    cases y <;> simp only [Copy] at hcopy
    rename_i b
    obtain ⟨i, hi, rfl⟩ := id hcopy
    obtain ⟨o', ho', hkind⟩ := hbuilt.tracks.kind i p o hi ho
    refine ⟨u', some (base + i), ?_, hbuilt, .some hcopy⟩
    simp [readProto, hy, protoOf, ho', hkind, htable, bind, Except.bind, pure, Except.pure]

theorem Spec.table (h : Spec O heap L base size guard) {a : ℕ} {proto : Option ℕ} {kvs : Entries}
    (ho : heap[a]? = some (.table proto kvs)) (hwf : (Obj.table proto kvs).WellFormed O heap)
    (hmarked : Marked st marks) (hid : st.seenId (.ref a) = none)
    (hst : (Obj.table proto kvs).children.foldlM (marshalOne heap guard)
      ((st.markSeen (.ref a)).push (Obj.table proto kvs).header) = some st') :
    ∃ bytes marks', 0 < bytes.length ∧ Wrote bytes marks marks' st st' ∧
      ReadsAs heap L base size (guard + 1) bytes marks marks' (.ref a) := by
  obtain ⟨hcount, hproper, hfits, hproto⟩ := hwf
  have hlen : kvs.length ≤ int32Max := by
    rw [maxEntries] at hcount
    rw [int32Max]
    omega
  have hmark := (hmarked.markSeen (.inl (hmarked.notMem hid))).push (Obj.table proto kvs).header
  rw [Obj.children, List.foldlM_append] at hst
  obtain ⟨st₁, hst₁, hst⟩ := Option.bind_eq_some_iff.mp hst
  obtain ⟨bytes₁, marks₁, hwrote₁, hreads₁⟩ := h.proto hproto hmark hst₁
  obtain ⟨bytes₂, marks₂, henough, hwrote₂, hreads₂⟩ := h.items
    (fun x hx => by
      obtain ⟨kv, hkv, rfl | rfl⟩ := mem_flatten hx
      · exact (hfits kv hkv).1
      · exact (hfits kv hkv).2) hwrote₁.marked hst
  rw [length_flatten] at henough
  have hpre : marks ++ [.ref a] <+: marks₂ := hwrote₁.pre.trans hwrote₂.pre
  refine ⟨(if proto.isSome then 212 else 211) :: pushint kvs.length ++ (bytes₁ ++ bytes₂), marks₂,
    by simp, ⟨?_, hwrote₂.marked, (List.prefix_append ..).trans hpre, ?_⟩, ?_⟩
  · rw [hwrote₂.buf, hwrote₁.buf, MarshalState.push, Obj.header]
    simp [MarshalState.markSeen]
  · have hfew₁ := hwrote₁.few
    have hfew₂ := hwrote₂.few
    simp only [List.length_append, List.length_cons, List.length_nil] at hfew₁ hfew₂ ⊢
    omega
  · intro hmarks u rest htracks
    obtain ⟨u₁, proto', hproto', hbuilt₁, hrel⟩ := hreads₁ (hwrote₂.pre.length_le.trans hmarks)
      (u.alloc (.table none [])) (bytes₂ ++ rest) (htracks.alloc ho rfl)
    obtain ⟨u₂, ys, hys, hbuilt₂, hcopies⟩ := hreads₂ hmarks u₁ rest hbuilt₁.tracks
    rw [length_flatten] at hys
    have hentries := copyEntries_pairUp hcopies
    have hrel' : Option.Rel (At base marks₂) proto proto' := by
      cases hrel with
      | some hab => exact .some (At.mono hwrote₂.pre hab)
      | none => exact .none
    have hwalk := L.perm _
      (hproper.of_copies (R := At base marks₂) (fun _ _ _ => At.left_unique)
        (fun kv hkv => (hfits kv hkv).1) hentries)
      (hentries.length_eq ▸ hcount)
    refine ⟨_, .ref u.heap.length, ?_,
      htracks.fill ho (hbuilt₁.trans hbuilt₂) (.table hrel' hentries hwalk), ?_⟩
    · rw [List.append_assoc, List.append_assoc]
      exact unmarshalOne_table hlen _ (by simp only [List.length_append]; omega) hproto' hys
    · refine ⟨(refsOf marks).length, getElem?_refsOf_of_prefix hpre ?_, htracks.length⟩
      rw [refsOf_concat_ref, List.getElem?_concat_length]

/-- A tuple: the mark stands behind its items. -/
theorem Spec.tuple (h : Spec O heap L base size guard) {b : Bool} {items : List Datum}
    (hfits : Fits O (.tuple b items)) (hmarked : Marked st marks)
    (hst : (items.foldlM (marshalOne heap guard)
      (st.push (210 :: (pushint items.length ++ pushint (if b then 1 else 0))))).map
        (·.markSeen (.tuple b items)) = some st') :
    ∃ bytes marks', 0 < bytes.length ∧ Wrote bytes marks marks' st st' ∧
      ReadsAs heap L base size (guard + 1) bytes marks marks' (.tuple b items) := by
  obtain ⟨hlen, -, hitems⟩ := hfits
  obtain ⟨st₁, hst₁, rfl⟩ := Option.map_eq_some_iff.mp hst
  obtain ⟨bytes, marks₁, hcount, hwrote, hreads⟩ := h.items (fitsItems_iff.mp hitems)
    (hmarked.push _) hst₁
  have hpre : marks₁ <+: marks₁ ++ [.tuple b items] := List.prefix_append ..
  refine ⟨210 :: (pushint items.length ++ pushint (if b then 1 else 0)) ++ bytes, _, by simp,
    ⟨?_, hwrote.marked.markSeen (.inr rfl), hwrote.pre.trans hpre, ?_⟩, ?_⟩
  · rw [MarshalState.markSeen, hwrote.buf, MarshalState.push, List.append_assoc]
  · have hfew := hwrote.few
    simp only [List.length_append, List.length_cons, List.length_nil] at hfew ⊢
    omega
  · intro hmarks u rest htracks
    obtain ⟨u', ys, hys, hbuilt, hcopies⟩ := hreads (hpre.length_le.trans hmarks) u rest htracks
    have hcopy : Copy (At base marks₁) (.tuple b items) (.tuple b ys) :=
      ⟨rfl, copyItems_iff.mpr hcopies⟩
    refine ⟨_, .tuple b ys, ?_, hbuilt.trans (hbuilt.tracks.keep rfl hcopy),
      hcopy.mono fun _ _ => At.mono hpre⟩
    rw [List.append_assoc]
    exact unmarshalOne_tuple hlen b (by rw [List.length_append]; omega) hys

/-- The prototype of a struct. -/
theorem Spec.structProto (h : Spec O heap L base size guard) {proto : Option Datum}
    (hproto : ∀ p, proto = some p → p.isStruct = true ∧ Fits O p) (hmarked : Marked st marks)
    (hst : proto.toList.foldlM (marshalOne heap guard) st = some st') :
    ∃ bytes marks', Wrote bytes marks marks' st st' ∧
      (marks'.length ≤ int32Max → ∀ u rest, Tracks heap base marks u →
        ∃ u' proto', readProto (unmarshalOne L size guard) assertStruct proto.isSome u
            (bytes ++ rest) = .ok (proto', u', rest) ∧
          Built heap base marks marks' u u' ∧
          Option.Rel (Copy (At base marks')) proto proto') := by
  cases proto with
  | none =>
    cases hst
    refine ⟨[], marks, ⟨by simp, hmarked, List.prefix_rfl, by simp⟩, fun _ u rest htracks => ?_⟩
    exact ⟨u, none, rfl, htracks.refl, .none⟩
  | some p =>
    obtain ⟨hstruct, hfits⟩ := hproto p rfl
    have hone : marshalOne heap guard st p = some st' := by
      simpa [List.foldlM_cons] using hst
    obtain ⟨bytes, marks', -, hwrote, hreads⟩ := h st st' p marks hmarked hfits hone
    refine ⟨bytes, marks', hwrote, fun hmarks u rest htracks => ?_⟩
    obtain ⟨u', y, hy, hbuilt, hcopy⟩ := hreads hmarks u rest htracks
    refine ⟨u', some y, ?_, hbuilt, .some hcopy⟩
    cases p <;> simp only [Datum.isStruct, Bool.false_eq_true] at hstruct
    cases y <;> simp only [Copy] at hcopy
    simp [readProto, hy, assertStruct, bind, Except.bind, pure, Except.pure]

/-- A struct: the mark stands behind what is in it. -/
theorem Spec.struct (h : Spec O heap L base size guard) {hasProto : Bool} {items : List Datum}
    (hfits : Fits O (.struct hasProto items)) (hmarked : Marked st marks)
    (hst : (items.foldlM (marshalOne heap guard)
      (st.push ((if hasProto then 223 else 213) :: pushint (items.length / 2 : ℕ)))).map
        (·.markSeen (.struct hasProto items)) = some st') :
    ∃ bytes marks', 0 < bytes.length ∧ Wrote bytes marks marks' st st' ∧
      ReadsAs heap L base size (guard + 1) bytes marks marks' (.struct hasProto items) := by
  obtain ⟨-, hitems, proto, kvs, heq, hproto, hcount, hproper, -⟩ := hfits
  cases heq
  rw [fitsItems_iff] at hitems
  have hlen : kvs.length ≤ int32Max := by
    rw [maxEntries] at hcount
    rw [int32Max]
    omega
  have hhalf : (proto.toList ++ flatten kvs).length / 2 = kvs.length := by
    have hone : proto.toList.length ≤ 1 := by cases proto <;> simp
    rw [List.length_append, length_flatten]
    omega
  rw [hhalf] at hst
  obtain ⟨st₂, hfold, rfl⟩ := Option.map_eq_some_iff.mp hst
  rw [List.foldlM_append] at hfold
  obtain ⟨st₁, hst₁, hst₂⟩ := Option.bind_eq_some_iff.mp hfold
  obtain ⟨bytes₁, marks₁, hwrote₁, hreads₁⟩ := h.structProto
    (fun p hp => ⟨hproto p hp, hitems p (by simp [hp])⟩) (hmarked.push _) hst₁
  obtain ⟨bytes₂, marks₂, henough, hwrote₂, hreads₂⟩ := h.items
    (fun x hx => hitems x (List.mem_append_right _ hx)) hwrote₁.marked hst₂
  rw [length_flatten] at henough
  have hpre : marks₂ <+: marks₂ ++ [.ofEntries proto kvs] := List.prefix_append ..
  refine ⟨(if proto.isSome then 223 else 213) :: pushint kvs.length ++ (bytes₁ ++ bytes₂), _,
    by simp, ⟨?_, hwrote₂.marked.markSeen (.inr rfl),
      (hwrote₁.pre.trans hwrote₂.pre).trans hpre, ?_⟩, ?_⟩
  · rw [MarshalState.markSeen, hwrote₂.buf, hwrote₁.buf, MarshalState.push]
    simp
  · have hfew₁ := hwrote₁.few
    have hfew₂ := hwrote₂.few
    simp only [List.length_append, List.length_cons, List.length_nil] at hfew₁ hfew₂ ⊢
    omega
  · intro hmarks u rest htracks
    obtain ⟨u₁, proto', hproto', hbuilt₁, hrel⟩ := hreads₁
      ((hwrote₂.pre.trans hpre).length_le.trans hmarks) u (bytes₂ ++ rest) htracks
    obtain ⟨u₂, ys, hys, hbuilt₂, hcopies⟩ := hreads₂ (hpre.length_le.trans hmarks) u₁ rest
      hbuilt₁.tracks
    rw [length_flatten] at hys
    have hentries := copyEntries_pairUp hcopies
    have hslots := L.slots_perm _
      (hproper.of_copies (R := At base marks₂) (fun _ _ _ => At.left_unique)
        (fun kv hkv => hitems _ (List.mem_append_right _ (fst_mem_flatten hkv))) hentries)
      (hentries.length_eq ▸ hcount)
    have hcopy : Copy (At base marks₂) (.ofEntries proto kvs)
        (.ofEntries proto' (L.slots (pairUp ys))) := by
      have hsome : proto.isSome = proto'.isSome := by cases hrel <;> rfl
      refine ⟨hsome, proto'.toList ++ flatten (pairUp ys), ?_,
        proto', pairUp ys, _, hsome, rfl, rfl, hslots⟩
      rw [copyItems_iff, forall₂_struct_iff hsome]
      refine ⟨fun p hp p' hp' => ?_, hentries⟩
      cases hrel with
      | some hpp =>
        cases hp
        cases hp'
        exact hpp.mono fun _ _ => At.mono hwrote₂.pre
      | none => cases hp
    refine ⟨_, _, ?_, (hbuilt₁.trans hbuilt₂).trans (hbuilt₂.tracks.keep rfl hcopy),
      hcopy.mono fun _ _ => At.mono hpre⟩
    rw [List.append_assoc, List.append_assoc]
    exact unmarshalOne_struct hlen _ (by simp only [List.length_append]; omega) hproto' hys

/-! ### The round trip -/

/-- A value that has no address and was not seen is marked with what is written of it. -/
theorem marked_value (hmarked : Marked st marks) {x : Datum} (hx : x.address = none)
    (bytes : Bytes) (hbytes : 0 < bytes.length) :
    Wrote bytes marks (marks ++ [x]) st ((st.push bytes).markSeen x) :=
  ⟨rfl, (hmarked.push bytes).markSeen (.inr hx), List.prefix_append .., by
    rw [List.length_append, List.length_singleton]
    omega⟩

/-- **What was written of a value is read as a copy of it**, within as many levels. -/
theorem marshalOne_spec (hheap : WellFormed O heap) (L : Layout) (base size : ℕ) :
    ∀ guard, Spec O heap L base size guard
  | 0 => fun st st' x marks _ _ hst => by cases hst
  | guard + 1 => fun st st' x marks hmarked hfits hst => by
    have ih := marshalOne_spec hheap L base size guard
    unfold marshalOne at hst
    cases hsimple : simple x with
    | some bytes =>
      rw [hsimple] at hst
      cases hst
      have hpos := length_pos_of_simple hsimple
      refine ⟨bytes, marks, hpos, ⟨rfl, hmarked.push bytes, List.prefix_rfl, by omega⟩, ?_⟩
      intro _ u rest htracks
      obtain ⟨y, hy, hcopy⟩ := simple_spec L size guard hsimple u rest
      exact ⟨u, y, hy, htracks.refl, hcopy _⟩
    | none =>
      rw [hsimple] at hst
      dsimp only at hst
      cases hid : st.seenId x with
      | some id =>
        rw [hid] at hst
        cases hst
        exact ⟨218 :: pushint id, marks, by simp, ⟨rfl, hmarked.push _, List.prefix_rfl, by omega⟩,
          reference_spec hmarked hid⟩
      | none =>
        rw [hid] at hst
        cases x with
        | nil => cases hsimple
        | boolean b => cases hsimple
        | number n =>
          cases hst
          refine ⟨200 :: realBytes n, _, by simp, marked_value hmarked rfl _ (by simp), ?_⟩
          intro _ u rest htracks
          exact ⟨_, _, unmarshalOne_real n u rest,
            htracks.keep rfl (sameNumber_wrapNumberSafe n), sameNumber_wrapNumberSafe n⟩
        | text kind s =>
          cases hst
          have hwrote := marked_value hmarked (x := .text kind s) rfl
            (kind.lead :: (pushint s.length ++ s)) (by simp)
          refine ⟨_, _, by simp, hwrote, ?_⟩
          intro _ u rest htracks
          exact ⟨_, _, unmarshalOne_text kind hfits u rest, htracks.keep rfl ⟨rfl, rfl⟩, ⟨rfl, rfl⟩⟩
        | tuple b items =>
          exact ih.tuple hfits hmarked hst
        | struct hasProto items =>
          exact ih.struct hfits hmarked hst
        | ref a =>
          dsimp only at hst
          cases ho : heap[a]? with
          | none =>
            rw [ho] at hst
            cases hst
          | some o =>
            rw [ho] at hst
            have hwf := hheap a o ho
            cases o with
            | buffer s => exact spec_buffer ho hwf hmarked hid (Option.some.inj hst)
            | array items => exact ih.array ho hwf.1 hwf.2 hmarked hid hst
            | table proto kvs => exact ih.table ho hwf hmarked hid hst

/-- **What was marshalled comes back** as a copy, made of new objects, whatever objects there are
already and whatever bytes follow. -/
theorem janetUnmarshal_janetMarshal (hheap : WellFormed O heap) {x : Datum} (hx : Fits O x)
    {bytes : Bytes} (h : janetMarshal heap x = some bytes) (L : Layout) (heap₀ : Heap)
    (rest : Bytes) :
    ∃ y new R, janetUnmarshal L heap₀ (bytes ++ rest) = .ok (y, heap₀ ++ new) ∧
      IsCopy heap x (heap₀ ++ new) heap₀.length y R := by
  rw [janetMarshal] at h
  split at h
  case h_2 => cases h
  case h_1 st hst =>
    split at h
    case isFalse => cases h
    case isTrue hlen =>
      cases h
      have hmarked : Marked ⟨[], [], 0⟩ [] := ⟨rfl, by simp, by simp, by simp [refsOf]⟩
      obtain ⟨bytes, marks, -, hwrote, hreads⟩ := marshalOne_spec hheap L heap₀.length
        (st.buf ++ rest).length recursionLevels ⟨[], [], 0⟩ st x [] hmarked hx hst
      have hbuf : st.buf = bytes := hwrote.buf
      have hfew : marks.length ≤ int32Max := by
        have hfew := hwrote.few
        rw [hbuf] at hlen
        rw [List.length_nil] at hfew
        omega
      have htracks : Tracks heap heap₀.length [] ⟨heap₀, []⟩ := ⟨.nil, rfl, by simp [refsOf]⟩
      obtain ⟨u, y, hy, hbuilt, hcopy⟩ := hreads hfew ⟨heap₀, []⟩ rest htracks
      have hold : u.heap.take heap₀.length = heap₀ := by
        refine List.ext_getElem? fun i => ?_
        by_cases hi : i < heap₀.length
        · rw [List.getElem?_take_of_lt hi]
          exact hbuilt.old i hi
        · rw [List.getElem?_eq_none (Nat.le_of_not_lt hi)]
          exact List.getElem?_eq_none (by rw [List.length_take]; omega)
      have hsplit : heap₀ ++ u.heap.drop heap₀.length = u.heap := by
        have happend := List.take_append_drop heap₀.length u.heap
        rwa [hold] at happend
      refine ⟨y, u.heap.drop heap₀.length, At heap₀.length marks, ?_, ?_⟩
      · rw [hsplit, janetUnmarshal]
        rw [← hbuf] at hy
        simp only [hy, bind, Except.bind, pure, Except.pure]
      · rw [hsplit]
        refine ⟨hcopy, fun a b hab => ?_, fun _ _ _ => At.right_unique hwrote.marked.nodup,
          fun _ _ _ => At.left_unique, fun b => ⟨?_, ?_⟩⟩
        · obtain ⟨i, hi, rfl⟩ := hab
          exact hbuilt.new i a (Nat.zero_le i) hi
        · rintro ⟨a, i, hi, rfl⟩
          have hlt := (List.getElem?_eq_some_iff.mp hi).1
          rw [hbuilt.tracks.length]
          omega
        · rintro ⟨hle, hlt⟩
          rw [hbuilt.tracks.length] at hlt
          refine ⟨(refsOf marks)[b - heap₀.length], b - heap₀.length, ?_, by omega⟩
          exact List.getElem?_eq_getElem (by omega)

/-- A layout that keeps the order. -/
def Layout.inOrder : Layout := ⟨id, fun _ _ _ => .rfl, id, fun _ _ _ => .rfl⟩

theorem wellFormed_of_forall {heap : Heap} (h : ∀ o ∈ heap, o.WellFormed O heap) :
    WellFormed O heap :=
  fun _ o ho => h o (List.mem_of_getElem? ho)

/-- The order of at most one entry. -/
def SlotOrder.single : SlotOrder where
  settled kvs := kvs.length ≤ 1
  unique := by
    have hsame : ∀ {kvs put : Entries}, kvs.length ≤ 1 → kvs.Perm put → put = kvs := by
      intro kvs put hlen hperm
      match kvs, hlen with
      | [], _ => exact hperm.nil_eq.symm
      | [kv], _ => exact (List.singleton_perm.mp hperm).symm
    intro kvs kvs' put put' hkvs hkvs' hput hput' h
    rwa [hsame hkvs hput, hsame hkvs' hput'] at h

/-- An array that holds itself, a text twice, a table in which it is found again, and a struct with
the table as its key. -/
def circle : Heap :=
  [.array [.ref 0, .text .string (ascii "hi"), .text .string (ascii "hi"), .ref 1,
      .struct false [.ref 1, .boolean true]],
    .table none [(.text .keyword (ascii "a"), .ref 0)]]

def circleBytes : Bytes :=
  [209, 5, 218, 0, 206, 2, 104, 105, 218, 1, 211, 1, 208, 1, 97, 218, 0, 213, 1, 218, 2, 203]

theorem janetUnmarshal_janetMarshal_circle : ∃ y new R,
    janetUnmarshal .inOrder circle (circleBytes ++ [7]) = .ok (y, circle ++ new) ∧
      IsCopy circle (.ref 0) (circle ++ new) 2 y R := by
  have hstruct : Fits .single (.struct false [.ref 1, .boolean true]) :=
    ⟨rfl, ⟨trivial, trivial, trivial⟩, none, [(.ref 1, .boolean true)], rfl, by simp, by decide,
      ⟨by simp [Datum.isnan], by simp, by simp⟩, Nat.le_refl 1⟩
  refine janetUnmarshal_janetMarshal (O := .single) (x := .ref 0)
    (wellFormed_of_forall fun o ho => ?_) trivial rfl .inOrder circle [7]
  rw [circle, List.mem_cons, List.mem_singleton] at ho
  rcases ho with rfl | rfl
  · refine ⟨by decide, fun x hx => ?_⟩
    simp only [List.mem_cons, List.not_mem_nil, or_false] at hx
    rcases hx with rfl | rfl | rfl | rfl | rfl
    · trivial
    · exact (by decide : (ascii "hi").length ≤ int32Max)
    · exact (by decide : (ascii "hi").length ≤ int32Max)
    · trivial
    · exact hstruct
  · refine ⟨by decide, ⟨by simp [Datum.isnan], by simp, by simp⟩, fun kv hkv => ?_, by simp⟩
    rw [List.mem_singleton] at hkv
    subst hkv
    exact ⟨(by decide : (ascii "a").length ≤ int32Max), trivial⟩

end AhungryJanet.Marshal
