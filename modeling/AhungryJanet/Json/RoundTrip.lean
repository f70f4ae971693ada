import AhungryJanet.Janet.Number
import AhungryJanet.Json.Chars

/-!
# Values through JSON

What becomes of a value that `json/encode` writes and `json/decode` reads. The values are those that
JSON has a form for: booleans, finite numbers, texts in UTF-8, and arrays and tables of such values.

Both functions are recursive over the value. `Carries` says of one value what the surrounding one
needs to know: which text it is written as, and that this text reads as another value wherever it
stands.

## Main results

* `carries_of_isPayload` — every such value is carried, and what comes back is the value with `echo`
  applied to its characters
* `jsonDecode_jsonEncode` — the round trip
-/

namespace AhungryJanet

/-- The bits of a double that is neither infinite nor a NaN. -/
def isFinite (x : UInt64) : Prop := x.toNat / 2 ^ 52 % 2 ^ 11 ≠ 2 ^ 11 - 1

instance (x : UInt64) : Decidable (isFinite x) := inferInstanceAs (Decidable (_ ≠ _))

/-- A byte that may follow a value inside another one. -/
def Stops (rest : Bytes) : Prop := ∀ c ∈ rest.head?, c = 44 ∨ c = 93 ∨ c = 125

/-- Printing a finite number with `%.17g` and reading it with `strtod` is the identity. -/
structure Libc.Exact (C : Libc) : Prop where
  /-- A numeral begins with its sign or a digit. -/
  starts : ∀ x, isFinite x → ∃ c t, C.sprintfG17 x = c :: t ∧ (c = 45 ∨ 48 ≤ c ∧ c ≤ 57)
  reads : ∀ x rest, isFinite x → Stops rest → C.strtod (C.sprintfG17 x ++ rest) = (x, rest)

/-- A value that JSON has a form for, nested at most `n` deep. -/
inductive IsPayload : (n : ℕ) → Value → Prop
  | boolean (n : ℕ) (b : Bool) : IsPayload n (.boolean b)
  | number (n : ℕ) {x : UInt64} (h : isFinite x) : IsPayload n (.number x)
  | string (n : ℕ) (s : List Char) : IsPayload n (.string (utf8 s))
  | array {n : ℕ} {items : List Value} (hn : items ≠ [] → 0 < n)
      (h : ∀ x ∈ items, IsPayload (n - 1) x) : IsPayload n (.array items)
  | table {n : ℕ} {kvs : List (Value × Value)} (hn : kvs ≠ [] → 0 < n)
      (hkeys : ∀ e ∈ kvs, ∃ s, e.1 = .string (utf8 s)) (hnodup : (kvs.map Prod.fst).Nodup)
      (h : ∀ e ∈ kvs, IsPayload (n - 1) e.2) : IsPayload n (.table kvs)

mutual

/-- How many bytes are written for a value. -/
def jsonLength (C : Libc) : Value → ℕ
  | .nil => 4
  | .boolean b => if b then 4 else 5
  | .number x => (C.sprintfG17 x).length
  | .string s | .symbol s | .keyword s | .buffer s => 2 + (s.map byteLength).sum
  | .tuple _ items | .array items => 2 + itemsLength C items
  | .table kvs | .struct kvs => 2 + pairsLength C kvs
  | .other _ => 0

/-- The same for values with commas between them. -/
def itemsLength (C : Libc) : List Value → ℕ
  | [] => 0
  | [x] => jsonLength C x
  | x :: x' :: items => jsonLength C x + 1 + itemsLength C (x' :: items)

/-- And for entries. -/
def pairsLength (C : Libc) : List (Value × Value) → ℕ
  | [] => 0
  | [(k, v)] => jsonLength C k + 1 + jsonLength C v
  | (k, v) :: e' :: kvs => jsonLength C k + 1 + jsonLength C v + 1 + pairsLength C (e' :: kvs)

end

/-- The entries of a table, in the order they are written: the key, the value, and what comes back
of it. -/
abbrev Entries := List (List Char × Value × Value)

/-- The table that is written. -/
def Entries.source (entries : Entries) : List (Value × Value) :=
  entries.map fun e => (.string (utf8 e.1), e.2.1)

/-- The table that is read: entry after entry is put into it. -/
def Entries.target (entries : Entries) : List (Bytes × Value) :=
  entries.foldl (fun t e => janetTablePut t (utf8 (e.1.map echo)) e.2.2) []

/-- The value `w` is what comes back of `v`. -/
inductive ComesBack : (v w : Value) → Prop
  | boolean (b : Bool) : ComesBack (.boolean b) (.boolean b)
  | number (x : UInt64) : ComesBack (.number x) (.number x)
  | string (s : List Char) : ComesBack (.string (utf8 s)) (.string (utf8 (s.map echo)))
  | array (items : List (Value × Value)) (h : ∀ p ∈ items, ComesBack p.1 p.2) :
      ComesBack (.array (items.map Prod.fst)) (.array (items.map Prod.snd))
  | table (entries : Entries) (h : ∀ e ∈ entries, ComesBack e.2.1 e.2.2) :
      ComesBack (.table entries.source) (.table (entries.target.map fun e => (.string e.1, e.2)))

/-- The value `v` is written as `text`, which reads as `w` wherever it stands, if `n` further levels
are allowed there. -/
structure Carries (C : Libc) (n : ℕ) (v : Value) (text : Bytes) (w : Value) : Prop where
  encode : ∀ k buffer, encodeOne C ⟨k, [], []⟩ buffer v = .ok (buffer ++ text)
  starts : ∃ c t, text = c :: t ∧ white c = false ∧ c ≠ 93
  nulFree : NulFree text
  ne_nil : w ≠ .nil
  length : text.length = jsonLength C v
  decode : ∀ fuel depth rest, 2 * text.length ≤ fuel → depth + n ≤ recursionGuard → Stops rest →
    decodeOne C ⟨false, false⟩ fuel depth (text ++ rest) = .ok (w, rest)

variable {C : Libc}

/-! ### Values without parts -/

theorem Carries.skipwhite_eq {n : ℕ} {v w : Value} {text : Bytes} (h : Carries C n v text w)
    (rest : Bytes) : skipwhite (text ++ rest) = text ++ rest := by
  obtain ⟨c, t, rfl, hwhite, -⟩ := h.starts
  rw [skipwhite, List.cons_append, List.dropWhile_cons_of_neg (by simpa using hwhite)]

theorem carries_boolean (n : ℕ) (b : Bool) :
    Carries C n (.boolean b) (if b then ascii "true" else ascii "false") (.boolean b) where
  encode k buffer := rfl
  starts := by
    cases b
    · exact ⟨_, _, rfl, by decide, by decide⟩
    · exact ⟨_, _, rfl, by decide, by decide⟩
  nulFree := by
    cases b <;> decide
  ne_nil := by simp
  length := by
    cases b <;> rfl
  decode fuel depth rest hfuel hdepth _ := by
    have hlen : 0 < fuel := by
      cases b
      · exact Nat.lt_of_lt_of_le (by decide) hfuel
      · exact Nat.lt_of_lt_of_le (by decide) hfuel
    obtain ⟨fuel, rfl⟩ := Nat.exists_eq_add_of_lt hlen
    rw [Nat.zero_add, decodeOne, if_neg (by omega)]
    cases b <;> rfl

/-- A text, whatever follows it. -/
theorem decodeOne_quoted (s : List Char) (fuel : ℕ) {depth : ℕ} (hdepth : depth ≤ recursionGuard)
    (rest : Bytes) :
    decodeOne C ⟨false, false⟩ (fuel + 1) depth (34 :: (escaped s ++ 34 :: rest)) =
      .ok (.string (utf8 s), rest) := by
  rw [decodeOne, if_neg (by omega)]
  simp [skipwhite, white, decodeQuoted_escaped]

theorem carries_number (hC : C.Exact) (n : ℕ) {x : UInt64} (hx : isFinite x) :
    Carries C n (.number x) (C.sprintfG17 x) (.number x) := by
  obtain ⟨c, t, hct, hc⟩ := hC.starts x hx
  have hwhite : white c = false ∧ c ≠ 93 := by
    have hdigit : ∀ c : UInt8, (c = 45 ∨ 48 ≤ c ∧ c ≤ 57) → white c = false ∧ c ≠ 93 :=
      forall_byte (by decide +kernel)
    exact hdigit c hc
  refine ⟨fun k buffer => rfl, ⟨c, t, hct, hwhite⟩, ?_, by simp, rfl, ?_⟩
  · obtain ⟨numeral, heq, hgt⟩ := C.strtod_consumes c t hc
    have hread := hC.reads x [] hx (by simp [Stops])
    rw [List.append_nil, hct] at hread
    rw [hread, List.append_nil] at heq
    rw [hct, heq]
    rintro b hb rfl
    exact absurd (hgt 0 hb) (by decide)
  · intro fuel depth rest hfuel hdepth hstops
    have hread := hC.reads x rest hx hstops
    rw [hct] at hfuel hread ⊢
    obtain ⟨fuel, rfl⟩ := Nat.exists_eq_add_of_lt (show 0 < fuel by
      rw [List.length_cons] at hfuel
      omega)
    rw [Nat.zero_add, decodeOne, if_neg (by omega)]
    have hskip : skipwhite (c :: t ++ rest) = c :: (t ++ rest) := by
      rw [skipwhite, List.cons_append, List.dropWhile_cons_of_neg (by simp [hwhite.1])]
    simp only [hskip, hc, if_true]
    change (if (C.strtod (c :: (t ++ rest))).2.length = (c :: (t ++ rest)).length then
        Except.error (JsonError.badnum, c :: (t ++ rest))
      else Except.ok (Value.number (C.strtod (c :: (t ++ rest))).1,
        (C.strtod (c :: (t ++ rest))).2)) = _
    have hlen : ¬ rest.length = (c :: (t ++ rest)).length := by
      rw [List.length_cons, List.length_append]
      omega
    rw [List.cons_append] at hread
    rw [hread, if_neg hlen]

theorem carries_string (n : ℕ) (s : List Char) :
    Carries C n (.string (utf8 s)) (34 :: (escaped (s.map echo) ++ [34]))
      (.string (utf8 (s.map echo))) where
  encode k buffer := by
    simp [encodeOne, encodeChars_utf8, bind, Except.bind, pure, Except.pure]
  starts := ⟨34, _, rfl, by decide, by decide⟩
  nulFree := by
    have hnul := (nulFree_escaped (s.map echo)).append (show NulFree [34] by decide)
    rintro b hb
    rcases List.mem_cons.mp hb with rfl | hb
    · decide
    · exact hnul b hb
  ne_nil := by simp
  length := by
    rw [List.length_cons, List.length_append, List.length_singleton, length_escaped_echo]
    change _ = 2 + _
    omega
  decode fuel depth rest hfuel hdepth _ := by
    obtain ⟨fuel, rfl⟩ := Nat.exists_eq_add_of_lt (show 0 < fuel by
      rw [List.length_cons] at hfuel
      omega)
    have hquoted := decodeOne_quoted (C := C) (s.map echo) (0 + fuel)
      (Nat.le_of_add_right_le hdepth) rest
    simpa using hquoted

/-! ### Arrays -/

/-- A value, its text, and what comes back of it. -/
abbrev Item := Value × Bytes × Value

/-- Texts with commas between them. -/
def joined : List Bytes → Bytes
  | [] => []
  | [t] => t
  | t :: ts => t ++ 44 :: joined ts

theorem joined_cons_cons (t t' : Bytes) (ts : List Bytes) :
    joined (t :: t' :: ts) = t ++ 44 :: joined (t' :: ts) := rfl

theorem exists_joined_cons (t : Bytes) (ts : List Bytes) : ∃ u, joined (t :: ts) = t ++ u := by
  cases ts with
  | nil => exact ⟨[], (List.append_nil t).symm⟩
  | cons t' ts => exact ⟨44 :: joined (t' :: ts), rfl⟩

/-- The encoder writes a comma behind every text, and takes the last one back. -/
theorem flatten_map_comma {ts : List Bytes} (h : ts ≠ []) :
    (ts.map (· ++ [44])).flatten = joined ts ++ [44] := by
  induction ts with
  | nil => exact absurd rfl h
  | cons t ts ih =>
    cases ts with
    | nil => simp [joined]
    | cons t' ts =>
      rw [List.map_cons, List.flatten_cons, ih (by simp), joined_cons_cons]
      simp

theorem dropComma_joined (k : ℕ) (buffer : Bytes) {b : UInt8} (hb : b ≠ 44) (ts : List Bytes) :
    dropComma ⟨k, [], []⟩ (buffer ++ [b] ++ (ts.map (· ++ [44])).flatten) =
      buffer ++ [b] ++ joined ts := by
  cases ts with
  | nil => simp [dropComma, joined, hb]
  | cons t ts =>
    rw [flatten_map_comma (by simp), ← List.append_assoc, dropComma, List.getLast?_concat,
      if_pos rfl, List.dropLast_concat]
    simp [encodeNewline]

theorem nulFree_joined {ts : List Bytes} (h : ∀ t ∈ ts, NulFree t) : NulFree (joined ts) := by
  induction ts with
  | nil => simp [NulFree, joined]
  | cons t ts ih =>
    have ih := ih fun t' ht' => h t' (List.mem_cons_of_mem t ht')
    cases ts with
    | nil => exact h t (by simp)
    | cons t' ts =>
      have hcomma : NulFree (44 :: joined (t' :: ts)) := NulFree.append (a := [44]) (by decide) ih
      exact (h t (by simp)).append hcomma

theorem length_joined_items {n : ℕ} {items : List Item}
    (h : ∀ p ∈ items, Carries C n p.1 p.2.1 p.2.2) :
    (joined (items.map fun p => p.2.1)).length = itemsLength C (items.map Prod.fst) := by
  induction items with
  | nil => rfl
  | cons p items ih =>
    have hp := (h p (by simp)).length
    have ih := ih fun q hq => h q (List.mem_cons_of_mem p hq)
    cases items with
    | nil => exact hp
    | cons q items =>
      simp only [List.map_cons] at ih ⊢
      rw [joined_cons_cons, List.length_append, List.length_cons, ih, hp, itemsLength]
      omega

theorem encodeItems_map {n : ℕ} {items : List Item} (h : ∀ p ∈ items, Carries C n p.1 p.2.1 p.2.2)
    (k : ℕ) (buffer : Bytes) :
    encodeItems C ⟨k, [], []⟩ buffer (items.map Prod.fst) =
      .ok (buffer ++ ((items.map fun p => p.2.1).map (· ++ [44])).flatten) := by
  induction items generalizing buffer with
  | nil => simp [encodeItems]
  | cons p items ih =>
    have hp := (h p (by simp)).encode k buffer
    have ih := ih (fun q hq => h q (List.mem_cons_of_mem p hq)) (buffer ++ p.2.1 ++ [44])
    have hline : encodeNewline ⟨k, [], []⟩ buffer = buffer := by simp [encodeNewline]
    rw [List.map_cons, encodeItems, hline, hp]
    change encodeItems C ⟨k, [], []⟩ (buffer ++ p.2.1 ++ [44]) (items.map Prod.fst) = _
    rw [ih]
    simp

/-- One round of the loop over an array. -/
theorem decodeItems_succ {fuel depth : ℕ} {array : List Value} {p : Bytes}
    (hp : p.head? ≠ some 93) :
    decodeItems C ⟨false, false⟩ (fuel + 1) depth array p =
      match decodeOne C ⟨false, false⟩ fuel (depth + 1) p with
      | .error err => .error err
      | .ok (subval, p) =>
        match skipwhite p with
        | 93 :: rest => .ok (.array (array ++ [subval]), rest)
        | 44 :: rest => decodeItems C ⟨false, false⟩ fuel depth (array ++ [subval]) rest
        | p => .error (.wantcomma, p) := by
  refine decodeItems.eq_3 C _ depth array p fuel ?_
  rintro rest rfl
  exact hp rfl

theorem Carries.head?_append_ne {n : ℕ} {v w : Value} {text : Bytes} (h : Carries C n v text w)
    (rest : Bytes) : (text ++ rest).head? ≠ some 93 := by
  obtain ⟨c, t, rfl, -, hc⟩ := h.starts
  simpa using hc

theorem decodeItems_joined {n : ℕ} {items : List Item} (hne : items ≠ [])
    (h : ∀ p ∈ items, Carries C n p.1 p.2.1 p.2.2) {fuel depth : ℕ} (array : List Value)
    (rest : Bytes) (hfuel : 2 * (joined (items.map fun p => p.2.1)).length < fuel)
    (hdepth : depth + 1 + n ≤ recursionGuard) :
    decodeItems C ⟨false, false⟩ fuel depth array
        (joined (items.map fun p => p.2.1) ++ 93 :: rest) =
      .ok (.array (array ++ items.map fun p => p.2.2), rest) := by
  induction items generalizing fuel array with
  | nil => exact absurd rfl hne
  | cons p items ih =>
    have hp := h p (by simp)
    obtain ⟨fuel, rfl⟩ := Nat.exists_eq_add_of_lt (Nat.zero_lt_of_lt hfuel)
    rw [Nat.zero_add] at hfuel ⊢
    cases items with
    | nil =>
      simp only [List.map_cons, List.map_nil, joined] at hfuel ⊢
      have hone := hp.decode fuel (depth + 1) (93 :: rest) (by omega) hdepth (by simp [Stops])
      rw [decodeItems_succ (hp.head?_append_ne _), hone]
      rfl
    | cons q items =>
      have ih := @ih (by simp) (fun q hq => h q (List.mem_cons_of_mem p hq)) fuel (array ++ [p.2.2])
      simp only [List.map_cons, joined_cons_cons, List.length_append, List.length_cons]
        at hfuel ih ⊢
      rw [List.append_assoc, List.cons_append]
      have hone := hp.decode fuel (depth + 1)
        (44 :: (joined (q.2.1 :: items.map fun p => p.2.1) ++ 93 :: rest)) (by omega) hdepth
        (by simp [Stops])
      rw [decodeItems_succ (hp.head?_append_ne _), hone]
      change decodeItems C ⟨false, false⟩ fuel depth (array ++ [p.2.2])
        (joined (q.2.1 :: items.map fun p => p.2.1) ++ 93 :: rest) = _
      rw [ih (by omega)]
      simp

theorem carries_array {n : ℕ} {items : List Item} (hn : items ≠ [] → 0 < n)
    (h : ∀ p ∈ items, Carries C (n - 1) p.1 p.2.1 p.2.2) :
    Carries C n (.array (items.map Prod.fst)) (91 :: (joined (items.map fun p => p.2.1) ++ [93]))
      (.array (items.map fun p => p.2.2)) where
  encode k buffer := by
    have hitems := encodeItems_map h (k + 1) (buffer ++ [91])
    have hcomma := dropComma_joined k buffer (b := 91) (by decide) (items.map fun p => p.2.1)
    simp only [encodeOne, hitems, bind, Except.bind, pure, Except.pure, hcomma]
    simp
  starts := ⟨91, _, rfl, by decide, by decide⟩
  nulFree := by
    have hnul : NulFree (joined (items.map fun p => p.2.1)) := nulFree_joined fun t ht => by
      obtain ⟨p, hp, rfl⟩ := List.mem_map.mp ht
      exact (h p hp).nulFree
    exact NulFree.append (a := [91]) (by decide) (hnul.append (by decide))
  ne_nil := by simp
  length := by
    rw [List.length_cons, List.length_append, List.length_singleton, length_joined_items h]
    change _ = 2 + _
    omega
  decode fuel depth rest hfuel hdepth _ := by
    rw [List.length_cons, List.length_append] at hfuel
    obtain ⟨fuel, rfl⟩ := Nat.exists_eq_add_of_lt (show 0 < fuel by omega)
    have hopen : decodeOne C ⟨false, false⟩ (0 + fuel + 1) depth
        (91 :: (joined (items.map fun p => p.2.1) ++ [93]) ++ rest) =
        decodeItems C ⟨false, false⟩ (0 + fuel) depth []
          (skipwhite (joined (items.map fun p => p.2.1) ++ 93 :: rest)) := by
      rw [decodeOne, if_neg (by omega)]
      simp [skipwhite, white]
    rw [hopen]
    rw [List.length_singleton] at hfuel
    cases items with
    | nil =>
      obtain ⟨fuel, rfl⟩ := Nat.exists_eq_add_of_lt (show 0 < fuel by omega)
      rfl
    | cons p items =>
      have hskip : skipwhite (joined ((p :: items).map fun p => p.2.1) ++ 93 :: rest) =
          joined ((p :: items).map fun p => p.2.1) ++ 93 :: rest := by
        obtain ⟨u, hu⟩ := exists_joined_cons p.2.1 (items.map fun p => p.2.1)
        rw [List.map_cons, hu, List.append_assoc, (h p (by simp)).skipwhite_eq]
      rw [hskip]
      have hpos := hn (by simp)
      exact decodeItems_joined (by simp) h [] rest (by omega) (by omega)

/-! ### Tables -/

/-- The entry of a table: its key and its value, with the text of the value and what comes back of
it. -/
abbrev Entry := List Char × Item

/-- What is written for a key. -/
def quoted (s : List Char) : Bytes := 34 :: (escaped (s.map echo) ++ [34])

/-- What is written for an entry. -/
def entryText (e : Entry) : Bytes := quoted e.1 ++ 58 :: e.2.2.1

theorem length_joined_entries {n : ℕ} {es : List Entry}
    (h : ∀ e ∈ es, Carries C n e.2.1 e.2.2.1 e.2.2.2) :
    (joined (es.map entryText)).length =
      pairsLength C (es.map fun e => (.string (utf8 e.1), e.2.1)) := by
  induction es with
  | nil => rfl
  | cons e es ih =>
    have hkey := (carries_string (C := C) 0 e.1).length
    have hval := (h e (by simp)).length
    have ih := ih fun e' he' => h e' (List.mem_cons_of_mem e he')
    have hentry : (entryText e).length =
        jsonLength C (.string (utf8 e.1)) + 1 + jsonLength C e.2.1 := by
      rw [entryText, List.length_append, List.length_cons, hval, quoted, hkey]
      omega
    cases es with
    | nil => exact hentry
    | cons e' es =>
      simp only [List.map_cons] at ih ⊢
      rw [joined_cons_cons, List.length_append, List.length_cons, ih, hentry, pairsLength]
      omega

theorem encodePairs_map {n : ℕ} {es : List Entry} (h : ∀ e ∈ es, Carries C n e.2.1 e.2.2.1 e.2.2.2)
    (k : ℕ) (buffer : Bytes) :
    encodePairs C ⟨k, [], []⟩ buffer (es.map fun e => (.string (utf8 e.1), e.2.1)) =
      .ok (buffer ++ ((es.map entryText).map (· ++ [44])).flatten) := by
  induction es generalizing buffer with
  | nil => simp [encodePairs]
  | cons e es ih =>
    have hkey := (carries_string (C := C) 0 e.1).encode k buffer
    have hval := (h e (by simp)).encode k (buffer ++ quoted e.1 ++ [58])
    have ih := ih (fun e' he' => h e' (List.mem_cons_of_mem e he'))
      (buffer ++ quoted e.1 ++ [58] ++ e.2.2.1 ++ [44])
    have hline : encodeNewline ⟨k, [], []⟩ buffer = buffer := by simp [encodeNewline]
    rw [List.map_cons, encodePairs, hline, hkey]
    change (encodeOne C ⟨k, [], []⟩ (buffer ++ quoted e.1 ++ [58]) e.2.1).bind
      (fun buffer => encodePairs C ⟨k, [], []⟩ (buffer ++ [44]) _) = _
    rw [hval]
    change encodePairs C ⟨k, [], []⟩ (buffer ++ quoted e.1 ++ [58] ++ e.2.2.1 ++ [44]) _ = _
    rw [ih]
    simp [entryText]

theorem putEntry_of_ne_nil {w : Value} (hw : w ≠ .nil) (table : List (Bytes × Value))
    (key : Bytes) :
    putEntry table key w = janetTablePut table key w := by
  cases w with
  | nil => exact absurd rfl hw
  | _ => rfl

/-- One round of the loop over a table. -/
theorem decodePairs_entry {n : ℕ} {e : Entry} (h : Carries C n e.2.1 e.2.2.1 e.2.2.2)
    {fuel depth : ℕ} (table : List (Bytes × Value)) {rest : Bytes}
    (hfuel : 2 * (entryText e).length ≤ fuel + 1) (hdepth : depth + 1 + n ≤ recursionGuard)
    (hstops : Stops rest) :
    decodePairs C ⟨false, false⟩ (fuel + 1) depth table (entryText e ++ rest) =
      match skipwhite rest with
      | 125 :: rest =>
        .ok (.table ((janetTablePut table (utf8 (e.1.map echo)) e.2.2.2).map fun e =>
          (.string e.1, e.2)), rest)
      | 44 :: rest =>
        decodePairs C ⟨false, false⟩ fuel depth (janetTablePut table (utf8 (e.1.map echo)) e.2.2.2)
          rest
      | p => .error (.wantcomma, p) := by
  have htext : entryText e ++ rest =
      34 :: (escaped (e.1.map echo) ++ 34 :: (58 :: (e.2.2.1 ++ rest))) := by
    simp [entryText, quoted]
  rw [entryText, quoted] at hfuel
  simp only [List.length_append, List.length_cons] at hfuel
  obtain ⟨fuel, rfl⟩ := Nat.exists_eq_add_of_lt (show 0 < fuel by omega)
  have hkey := decodeOne_quoted (C := C) (e.1.map echo) (0 + fuel)
    (show depth + 1 ≤ recursionGuard by omega) (58 :: (e.2.2.1 ++ rest))
  have hval := h.decode (0 + fuel + 1) (depth + 1) rest (by omega) hdepth hstops
  have hquote : ∀ t, skipwhite (34 :: t) = 34 :: t := fun t =>
    List.dropWhile_cons_of_neg (by decide)
  have hcolon : ∀ t, skipwhite (58 :: t) = 58 :: t := fun t =>
    List.dropWhile_cons_of_neg (by decide)
  have hround := decodePairs.eq_3 C ⟨false, false⟩ depth table (entryText e ++ rest) (0 + fuel + 1)
    (by simp [htext])
  simp only [htext, hquote, hkey, hcolon, hval, bytesView, Option.getD_some,
    putEntry_of_ne_nil h.ne_nil, objectKey, Bool.false_eq_true, if_false] at hround
  rw [htext]
  exact hround

/-- Entry after entry is put into the table. -/
def putAll (table : List (Bytes × Value)) (es : List Entry) : List (Bytes × Value) :=
  es.foldl (fun t e => janetTablePut t (utf8 (e.1.map echo)) e.2.2.2) table

theorem decodePairs_joined {n : ℕ} {es : List Entry} (hne : es ≠ [])
    (h : ∀ e ∈ es, Carries C n e.2.1 e.2.2.1 e.2.2.2) {fuel depth : ℕ}
    (table : List (Bytes × Value)) (rest : Bytes)
    (hfuel : 2 * (joined (es.map entryText)).length < fuel)
    (hdepth : depth + 1 + n ≤ recursionGuard) :
    decodePairs C ⟨false, false⟩ fuel depth table (joined (es.map entryText) ++ 125 :: rest) =
      .ok (.table ((putAll table es).map fun e => (.string e.1, e.2)), rest) := by
  induction es generalizing fuel table with
  | nil => exact absurd rfl hne
  | cons e es ih =>
    have he := h e (by simp)
    obtain ⟨fuel, rfl⟩ := Nat.exists_eq_add_of_lt (Nat.zero_lt_of_lt hfuel)
    rw [Nat.zero_add] at hfuel ⊢
    cases es with
    | nil =>
      simp only [List.map_cons, List.map_nil, joined] at hfuel ⊢
      rw [decodePairs_entry he table (by omega) hdepth (by simp [Stops])]
      rfl
    | cons e' es =>
      have ih := @ih (by simp) (fun e' he' => h e' (List.mem_cons_of_mem e he')) fuel
        (janetTablePut table (utf8 (e.1.map echo)) e.2.2.2)
      simp only [List.map_cons, joined_cons_cons, List.length_append, List.length_cons]
        at hfuel ih ⊢
      rw [List.append_assoc, List.cons_append,
        decodePairs_entry he table (by omega) hdepth (by simp [Stops])]
      exact ih (by omega)

theorem carries_table {n : ℕ} {es : List Entry} (hn : es ≠ [] → 0 < n)
    (h : ∀ e ∈ es, Carries C (n - 1) e.2.1 e.2.2.1 e.2.2.2) :
    Carries C n (.table (es.map fun e => (.string (utf8 e.1), e.2.1)))
      (123 :: (joined (es.map entryText) ++ [125]))
      (.table ((putAll [] es).map fun e => (.string e.1, e.2))) where
  encode k buffer := by
    have hpairs := encodePairs_map h (k + 1) (buffer ++ [123])
    have hcomma := dropComma_joined k buffer (b := 123) (by decide) (es.map entryText)
    simp only [encodeOne, hpairs, bind, Except.bind, pure, Except.pure, hcomma]
    simp
  starts := ⟨123, _, rfl, by decide, by decide⟩
  nulFree := by
    have hnul : NulFree (joined (es.map entryText)) := nulFree_joined fun t ht => by
      obtain ⟨e, he, rfl⟩ := List.mem_map.mp ht
      have hkey := (carries_string (C := C) 0 e.1).nulFree
      exact hkey.append (NulFree.append (a := [58]) (by decide) (h e he).nulFree)
    exact NulFree.append (a := [123]) (by decide) (hnul.append (by decide))
  ne_nil := by simp
  length := by
    rw [List.length_cons, List.length_append, List.length_singleton, length_joined_entries h]
    change _ = 2 + _
    omega
  decode fuel depth rest hfuel hdepth _ := by
    rw [List.length_cons, List.length_append, List.length_singleton] at hfuel
    obtain ⟨fuel, rfl⟩ := Nat.exists_eq_add_of_lt (show 0 < fuel by omega)
    have hopen : decodeOne C ⟨false, false⟩ (0 + fuel + 1) depth
        (123 :: (joined (es.map entryText) ++ [125]) ++ rest) =
        decodePairs C ⟨false, false⟩ (0 + fuel) depth []
          (skipwhite (joined (es.map entryText) ++ 125 :: rest)) := by
      rw [decodeOne, if_neg (by omega)]
      simp [skipwhite, white]
    rw [hopen]
    cases es with
    | nil =>
      obtain ⟨fuel, rfl⟩ := Nat.exists_eq_add_of_lt (show 0 < fuel by omega)
      rfl
    | cons e es =>
      have hskip : skipwhite (joined ((e :: es).map entryText) ++ 125 :: rest) =
          joined ((e :: es).map entryText) ++ 125 :: rest := by
        obtain ⟨u, hu⟩ := exists_joined_cons (entryText e) (es.map entryText)
        rw [List.map_cons, hu, entryText, quoted]
        exact List.dropWhile_cons_of_neg (by decide)
      rw [hskip]
      have hpos := hn (by simp)
      exact decodePairs_joined (by simp) h [] rest (by omega) (by omega)

/-! ### The round trip -/

/-- Choose something for every member of a list. -/
theorem exists_map_fst_eq {α β : Type*} {P : α → β → Prop} {xs : List α}
    (h : ∀ x ∈ xs, ∃ y, P x y) :
    ∃ ps : List (α × β), ps.map Prod.fst = xs ∧ ∀ p ∈ ps, P p.1 p.2 := by
  induction xs with
  | nil => exact ⟨[], rfl, by simp⟩
  | cons x xs ih =>
    obtain ⟨y, hy⟩ := h x (by simp)
    obtain ⟨ps, rfl, hps⟩ := ih fun x' hx' => h x' (List.mem_cons_of_mem x hx')
    exact ⟨(x, y) :: ps, rfl, by simpa [hy] using hps⟩

/-- **Every value that JSON has a form for is carried, and comes back character by character.** -/
theorem carries_of_isPayload (hC : C.Exact) {n : ℕ} {v : Value} (h : IsPayload n v) :
    ∃ text w, Carries C n v text w ∧ ComesBack v w := by
  induction h with
  | boolean n b => exact ⟨_, _, carries_boolean n b, .boolean b⟩
  | number n hx => exact ⟨_, _, carries_number hC n hx, .number _⟩
  | string n s => exact ⟨_, _, carries_string n s, .string s⟩
  | @array n items hn _ ih =>
    have hpair : ∀ x ∈ items, ∃ y : Bytes × Value, Carries C (n - 1) x y.1 y.2 ∧ ComesBack x y.2 :=
      fun x hx => by
        obtain ⟨text, w, hcarries, hback⟩ := ih x hx
        exact ⟨(text, w), hcarries, hback⟩
    obtain ⟨ps, rfl, hps⟩ := exists_map_fst_eq hpair
    refine ⟨_, _, carries_array (fun hne => hn (by simpa using hne)) fun p hp => (hps p hp).1, ?_⟩
    have hback := ComesBack.array (ps.map fun p => (p.1, p.2.2)) fun q hq => by
      obtain ⟨p, hp, rfl⟩ := List.mem_map.mp hq
      exact (hps p hp).2
    rwa [List.map_map, List.map_map] at hback
  | @table n kvs hn hkeys _ _ ih =>
    have hentry : ∀ e ∈ kvs, ∃ y : List Char × Bytes × Value, e.1 = .string (utf8 y.1) ∧
        Carries C (n - 1) e.2 y.2.1 y.2.2 ∧ ComesBack e.2 y.2.2 := fun e he => by
      obtain ⟨s, hs⟩ := hkeys e he
      obtain ⟨text, w, hcarries, hback⟩ := ih e he
      exact ⟨(s, text, w), hs, hcarries, hback⟩
    obtain ⟨ps, rfl, hps⟩ := exists_map_fst_eq hentry
    have hcarries := @carries_table C n (ps.map fun p => (p.2.1, p.1.2, p.2.2))
      (fun hne => hn (by simpa using hne)) fun e he => by
        obtain ⟨p, hp, rfl⟩ := List.mem_map.mp he
        exact (hps p hp).2.1
    have hback := ComesBack.table (ps.map fun p => (p.2.1, p.1.2, p.2.2.2)) fun e he => by
      obtain ⟨p, hp, rfl⟩ := List.mem_map.mp he
      exact (hps p hp).2.2
    have hsource : (ps.map fun p => ((.string (utf8 p.2.1), p.1.2) : Value × Value)) =
        ps.map Prod.fst := List.map_congr_left fun p hp => by rw [← (hps p hp).1]
    have htarget : Entries.target (ps.map fun p => (p.2.1, p.1.2, p.2.2.2)) =
        putAll [] (ps.map fun p => (p.2.1, p.1.2, p.2.2)) := by
      rw [Entries.target, putAll, List.foldl_map, List.foldl_map]
    rw [List.map_map] at hcarries
    rw [Entries.source, List.map_map, htarget] at hback
    exact ⟨_, _, hsource ▸ hcarries, hsource ▸ hback⟩

theorem skipwhite_nil : skipwhite [] = [] := rfl

/-- **What is written reads as what comes back.** -/
theorem jsonDecode_jsonEncode (hC : C.Exact) {v : Value} (h : IsPayload recursionGuard v) :
    ∃ text w, jsonEncode C v = .ok text ∧ jsonDecode C ⟨false, false⟩ text = .ok w ∧
      ComesBack v w ∧ text.length = jsonLength C v := by
  obtain ⟨text, w, hcarries, hback⟩ := carries_of_isPayload hC h
  have hdecode := hcarries.decode (2 * text.length + 1) 0 [] (Nat.le_succ _) (Nat.zero_add _).le
    (by simp [Stops])
  rw [List.append_nil] at hdecode
  refine ⟨text, w, ?_, ?_, hback, hcarries.length⟩
  · rw [jsonEncode, hcarries.encode, List.nil_append]
  · simp only [jsonDecode, cstr_of_nulFree hcarries.nulFree, hdecode, skipwhite_nil]

/-! ### A concrete library -/

/-- A C library whose numerals are the bits of a double in decimal. Zero is `0`, as it should be. -/
def Libc.bits : Libc where
  sprintfG17 x := (Nat.toDigits 10 x.toNat).map fun c => UInt8.ofNat c.toNat
  strtod t := (UInt64.ofNat (decimal (t.takeWhile isdigit)), t.dropWhile isdigit)
  strtod_consumes c t _ := by
    refine ⟨(c :: t).takeWhile isdigit, List.takeWhile_append_dropWhile.symm, fun x hx => ?_⟩
    have hx := isdigit_iff.mp (List.mem_takeWhile_imp hx)
    exact UInt8.lt_of_lt_of_le (by decide) hx.1

theorem Libc.strtod_bits (t : Bytes) :
    Libc.bits.strtod t = (UInt64.ofNat (decimal (t.takeWhile isdigit)), t.dropWhile isdigit) := rfl

theorem Libc.sprintfG17_bits (x : UInt64) : Libc.bits.sprintfG17 x = numeral x.toNat := rfl

theorem Stops.not_isdigit {rest : Bytes} (h : Stops rest) :
    rest.takeWhile isdigit = [] ∧ rest.dropWhile isdigit = rest := by
  cases rest with
  | nil => exact ⟨rfl, rfl⟩
  | cons c rest =>
    have hc : ¬ isdigit c := by
      rcases h c rfl with rfl | rfl | rfl
      · decide
      · decide
      · decide
    exact ⟨List.takeWhile_cons_of_neg hc, List.dropWhile_cons_of_neg hc⟩

theorem Libc.exact_bits : Libc.bits.Exact where
  starts x _ := by
    obtain ⟨d, ds, hd⟩ := List.exists_cons_of_ne_nil (numeral_ne_nil x.toNat)
    have hdigit : isdigit d := isdigit_of_mem_numeral (hd ▸ List.mem_cons_self)
    exact ⟨_, _, hd, .inr (isdigit_iff.mp hdigit)⟩
  reads x rest _ hstops := by
    have hall : ∀ b ∈ numeral x.toNat, isdigit b := fun b => isdigit_of_mem_numeral
    have htake : (numeral x.toNat ++ rest).takeWhile isdigit = numeral x.toNat := by
      rw [List.takeWhile_append_of_pos hall, hstops.not_isdigit.1, List.append_nil]
    have hdrop : (numeral x.toNat ++ rest).dropWhile isdigit = rest := by
      rw [List.dropWhile_append_of_pos hall, hstops.not_isdigit.2]
    rw [Libc.sprintfG17_bits, Libc.strtod_bits, htake, hdrop, decimal_numeral, UInt64.ofNat_toNat]

end AhungryJanet
