import AhungryJanet.Json.Grammar
import AhungryJanet.Json.RoundTrip
import Mathlib.Data.List.DropRight

/-!
# Formatted JSON

`(json/encode x tab newline buf)`, which breaks lines and indents, against `(json/encode x)`. The
two texts differ in white space between tokens only, if `tab` and `newline` are white space, and
read as the same value.

The proof goes through the grammar: `Written` says of a value that it is written, in whatever
format, as a text which the grammar reads as another value, and that this value does not depend on
the format.

## Main results

* `written_of_isPayload` — the values that JSON has a form for
* `jsonDecode_formatted` — both texts read as the same value
-/

namespace AhungryJanet.Grammar

/-- `(json/encode x tab newline buf)`: the buffer is appended to. -/
def jsonEncodeFormatted (C : Libc) (x : Value) (tab newline buf : Bytes) : Call Bytes :=
  match encodeOne C ⟨0, tab, newline⟩ buf x with
  | .ok buffer => .ok buffer
  | .error err => .error (.jsonEncode err.text)

/-- A byte that may follow a value inside a formatted one. -/
def Follow (rest : Bytes) : Prop := ∀ c ∈ rest.head?, white c ∨ c = 44 ∨ c = 93 ∨ c = 125

/-- Printing a finite number with `%.17g` and reading it with `strtod` is the identity, white space
behind it or not. -/
structure Rereads (C : Libc) : Prop where
  starts : ∀ x, isFinite x → ∃ c t, C.sprintfG17 x = c :: t ∧ (c = 45 ∨ 48 ≤ c ∧ c ≤ 57)
  reads : ∀ x rest, isFinite x → Follow rest → C.strtod (C.sprintfG17 x ++ rest) = (x, rest)

/-- Only white space is put between the tokens. -/
structure Blank (e : Encoder) : Prop where
  tab : ∀ c ∈ e.tab, white c
  newline : ∀ c ∈ e.newline, white c

/-- What `encode_newline` pushes. -/
def line (e : Encoder) : Bytes := encodeNewline e []

theorem encodeNewline_eq (e : Encoder) (buffer : Bytes) :
    encodeNewline e buffer = buffer ++ line e := by
  rw [line, encodeNewline, encodeNewline]
  split <;> simp

theorem Blank.line {e : Encoder} (h : Blank e) : ∀ c ∈ line e, white c := by
  intro c hc
  rw [Grammar.line, encodeNewline] at hc
  split at hc
  · exact h.newline c (by simpa using hc)
  · rw [List.nil_append, List.mem_append] at hc
    rcases hc with hc | hc
    · exact h.newline c hc
    · obtain ⟨t, ht, hct⟩ := List.mem_flatten.mp hc
      rw [List.eq_of_mem_replicate ht] at hct
      exact h.tab c hct

theorem Blank.deeper {e : Encoder} (h : Blank e) : Blank { e with indent := e.indent + 1 } :=
  ⟨h.tab, h.newline⟩

theorem nulFree_of_white {ws : Bytes} (h : ∀ c ∈ ws, white c) : NulFree ws := by
  rintro c hc rfl
  exact absurd (h 0 hc) (by decide)

theorem skipwhite_append {ws : Bytes} (h : ∀ c ∈ ws, white c) (p : Bytes) :
    skipwhite (ws ++ p) = skipwhite p :=
  List.dropWhile_append_of_pos h

theorem follow_append {ws : Bytes} (h : ∀ c ∈ ws, white c) {c : UInt8}
    (hc : c = 44 ∨ c = 93 ∨ c = 125)
    (rest : Bytes) : Follow (ws ++ c :: rest) := by
  intro b hb
  cases ws with
  | nil =>
    cases hb
    exact .inr hc
  | cons b' ws =>
    cases hb
    exact .inl (h _ (List.mem_cons_self ..))

theorem follow_cons {c : UInt8} (hc : c = 44 ∨ c = 93 ∨ c = 125) (rest : Bytes) :
    Follow (c :: rest) := by
  intro b hb
  cases hb
  exact .inr hc

section

variable {C : Libc} {fl : DecodeFlags} {n : ℕ} {p rest : Bytes} {v : Value}

theorem Parses.append_white (h : Parses C fl n (.value v) p rest) {ws : Bytes}
    (hws : ∀ c ∈ ws, AhungryJanet.white c) : Parses C fl n (.value v) (ws ++ p) rest := by
  induction ws with
  | nil => exact h
  | cons c ws ih =>
    exact .space (hws c (List.mem_cons_self ..))
      (ih fun c' hc' => hws c' (List.mem_cons_of_mem c hc'))

theorem Parses.of_space {c : UInt8} (h : Parses C fl n (.value v) (c :: p) rest)
    (hc : AhungryJanet.white c) : Parses C fl n (.value v) p rest := by
  have hnot : ∀ {b : UInt8}, AhungryJanet.white b = false → c ≠ b := by
    rintro b hb rfl
    rw [hb] at hc
    cases hc
  generalize hp : c :: p = q at h
  cases h with
  | space _ h =>
    cases hp
    exact h
  | number hdigit =>
    cases hp
    have hnone : ∀ c : UInt8, (c = 45 ∨ 48 ≤ c ∧ c ≤ 57) → ¬ AhungryJanet.white c = true :=
      forall_byte (by decide +kernel)
    exact absurd hc (hnone c hdigit)
  | boolean _ b _ =>
    cases b
    · exact absurd (List.cons_eq_cons.mp hp).1 (hnot (by decide))
    · exact absurd (List.cons_eq_cons.mp hp).1 (hnot (by decide))
  | null => exact absurd (List.cons_eq_cons.mp hp).1 (hnot (by decide))
  | string => exact absurd (List.cons_eq_cons.mp hp).1 (hnot (by decide))
  | array => exact absurd (List.cons_eq_cons.mp hp).1 (hnot (by decide))
  | object => exact absurd (List.cons_eq_cons.mp hp).1 (hnot (by decide))

theorem Parses.skip_value (h : Parses C fl n (.value v) p rest) :
    Parses C fl n (.value v) (skipwhite p) rest := by
  induction p with
  | nil => exact h
  | cons c p ih =>
    by_cases hc : AhungryJanet.white c
    · rw [skipwhite, List.dropWhile_cons_of_pos hc]
      exact ih (h.of_space hc)
    · rwa [skipwhite, List.dropWhile_cons_of_neg (by simpa using hc)]

theorem skipwhite_skipwhite (p : Bytes) : skipwhite (skipwhite p) = skipwhite p :=
  List.dropWhile_idempotent ..

/-- Behind an opening bracket white space is skipped. -/
theorem Parses.skip_items {vs : List Value} (h : Parses C fl n (.items vs) p rest) :
    Parses C fl n (.items vs) (skipwhite p) rest := by
  cases h with
  | noItem => exact .noItem _ _
  | lastItem h hend => exact .lastItem h.skip_value hend
  | item h hcomma hmore => exact .item h.skip_value hcomma hmore

theorem Parses.skip_members {kvs : List (Bytes × Value)} (h : Parses C fl n (.members kvs) p rest) :
    Parses C fl n (.members kvs) (skipwhite p) rest := by
  cases h with
  | noMember => exact .noMember _ _
  | lastMember hquote hkey hcolon h hend =>
    exact .lastMember ((skipwhite_skipwhite p).trans hquote) hkey hcolon h hend
  | member hquote hkey hcolon h hcomma hmore =>
    exact .member ((skipwhite_skipwhite p).trans hquote) hkey hcolon h hcomma hmore

end

/-! ### Written values -/

/-- A text that the encoder writes for `v`, and that the grammar reads as `w`. -/
structure Writes (C : Libc) (n : ℕ) (e : Encoder) (v w : Value) (text : Bytes) : Prop where
  encode : ∀ buffer, encodeOne C e buffer v = .ok (buffer ++ text)
  nulFree : NulFree text
  parses : ∀ rest, Follow rest →
    Parses C ⟨false, false⟩ n (.value w) (text ++ rest) rest

/-- In every format `v` is written as a text that reads as `w`. -/
structure Written (C : Libc) (n : ℕ) (v w : Value) : Prop where
  text : ∀ e, Blank e → ∃ text, Writes C n e v w text
  ne_nil : w ≠ .nil

variable {C : Libc}

theorem written_boolean (n : ℕ) (b : Bool) : Written C n (.boolean b) (.boolean b) := by
  refine ⟨fun e _ => ⟨if b then ascii "true" else ascii "false", fun buffer => rfl, ?_, ?_⟩,
    by simp⟩
  · cases b <;> decide
  · exact fun rest _ => .boolean n b rest

theorem written_number (hC : Rereads C) (n : ℕ) {x : UInt64} (hx : isFinite x) :
    Written C n (.number x) (.number x) := by
  obtain ⟨c, t, hct, hc⟩ := hC.starts x hx
  refine ⟨fun e _ => ⟨C.sprintfG17 x, fun buffer => rfl, ?_, fun rest hrest => ?_⟩, by simp⟩
  · obtain ⟨numeral, heq, hgt⟩ := C.strtod_consumes c t hc
    have hread := hC.reads x [] hx nofun
    rw [List.append_nil, hct] at hread
    rw [hread, List.append_nil] at heq
    rw [hct, heq]
    rintro b hb rfl
    exact absurd (hgt 0 hb) (by decide)
  · have hread := hC.reads x rest hx hrest
    rw [hct, List.cons_append] at hread ⊢
    refine .number hc hread ?_
    rw [List.length_cons, List.length_append]
    omega

/-- What is written between the quotes. -/
theorem chars_escaped (s : List Char) : Chars (escaped s) (utf8 s) := by
  have hquoted := decodeQuoted_escaped s [] []
  obtain ⟨text, htext, hchars⟩ := decodeQuoted_eq_ok_iff.mp hquoted
  rwa [List.append_cancel_right htext]

theorem written_string (n : ℕ) (s : List Char) :
    Written C n (.string (utf8 s)) (.string (utf8 (s.map echo))) := by
  refine ⟨fun e _ => ⟨quoted s, fun buffer => ?_, ?_, fun rest _ => ?_⟩, by simp⟩
  · simp [encodeOne, encodeChars_utf8, quoted, bind, Except.bind, pure, Except.pure]
  · exact (carries_string (C := C) 0 s).nulFree
  · rw [quoted, List.cons_append, List.append_assoc]
    exact .string (chars_escaped _) rest

theorem dropComma_comma (e : Encoder) (buffer : Bytes) :
    dropComma e (buffer ++ [44]) = buffer ++ line e := by
  rw [dropComma, List.getLast?_concat, if_pos rfl, List.dropLast_concat, encodeNewline_eq]

/-! ### Arrays -/

/-- A pair of values: what is written, and what it reads as. -/
abbrev Pair := Value × Value

/-- What is written for some items, but for the last comma. -/
structure WritesItems (C : Libc) (n : ℕ) (e : Encoder) (ps : List Pair) (text : Bytes) : Prop where
  encode : ∀ buffer, encodeItems C e buffer (ps.map Prod.fst) = .ok (buffer ++ (text ++ [44]))
  nulFree : NulFree text
  parses : ∀ ws rest, (∀ c ∈ ws, white c) →
    Parses C ⟨false, false⟩ n (.items (ps.map Prod.snd)) (text ++ (ws ++ 93 :: rest)) rest

theorem exists_writesItems {n : ℕ} {e : Encoder} (he : Blank e) {ps : List Pair} (hne : ps ≠ [])
    (h : ∀ p ∈ ps, Written C n p.1 p.2) : ∃ text, WritesItems C (n + 1) e ps text := by
  induction ps with
  | nil => exact absurd rfl hne
  | cons p ps ih =>
    obtain ⟨t, ht⟩ := (h p (List.mem_cons_self ..)).text e he
    have hline := nulFree_of_white he.line
    have hstep : ∀ buffer items, encodeItems C e buffer (p.1 :: items) =
        encodeItems C e (buffer ++ (line e ++ t) ++ [44]) items := by
      intro buffer items
      rw [encodeItems, encodeNewline_eq, ht.encode, ← List.append_assoc buffer]
      rfl
    cases ps with
    | nil =>
      refine ⟨line e ++ t, fun buffer => ?_, hline.append ht.nulFree, fun ws rest hws => ?_⟩
      · rw [List.map_cons, hstep, List.map_nil, encodeItems, List.append_assoc]
      · have hvalue := (ht.parses (ws ++ 93 :: rest)
          (follow_append hws (.inr (.inl rfl)) rest)).append_white he.line
        rw [List.append_assoc]
        refine .lastItem hvalue ?_
        rw [skipwhite_append hws]
        exact List.dropWhile_cons_of_neg (by decide)
    | cons q ps =>
      obtain ⟨text, htext⟩ := ih (by simp) fun p' hp' => h p' (List.mem_cons_of_mem p hp')
      refine ⟨line e ++ t ++ 44 :: text, fun buffer => ?_, ?_, fun ws rest hws => ?_⟩
      · rw [List.map_cons, hstep, htext.encode]
        simp
      · exact (hline.append ht.nulFree).append
          (NulFree.append (a := [44]) (by decide) htext.nulFree)
      · have hfollow : Follow (44 :: (text ++ (ws ++ 93 :: rest))) :=
          follow_cons (.inl rfl) _
        have hvalue := (ht.parses _ hfollow).append_white he.line
        rw [List.append_assoc, List.append_assoc, List.cons_append]
        exact .item hvalue (List.dropWhile_cons_of_neg (by decide)) (htext.parses ws rest hws)

theorem written_array {n : ℕ} {ps : List Pair} (hn : ps ≠ [] → 0 < n)
    (h : ∀ p ∈ ps, Written C (n - 1) p.1 p.2) :
    Written C n (.array (ps.map Prod.fst)) (.array (ps.map Prod.snd)) := by
  refine ⟨fun e he => ?_, by simp⟩
  by_cases hne : ps = []
  · subst hne
    refine ⟨[91, 93], fun buffer => ?_, by decide, fun rest _ => ?_⟩
    · simp [encodeOne, encodeItems, dropComma, bind, Except.bind, pure, Except.pure]
    · exact .array (.noItem n rest)
  · obtain ⟨text, htext⟩ := exists_writesItems he.deeper hne h
    have hlevel : n - 1 + 1 = n := Nat.sub_add_cancel (hn hne)
    rw [hlevel] at htext
    refine ⟨91 :: (text ++ (line e ++ [93])), fun buffer => ?_, ?_, fun rest _ => ?_⟩
    · have hcomma := dropComma_comma e (buffer ++ [91] ++ text)
      rw [List.append_assoc (buffer ++ [91])] at hcomma
      simp only [encodeOne, htext.encode, bind, Except.bind, pure, Except.pure, hcomma]
      simp
    · exact NulFree.append (a := [91]) (by decide) (htext.nulFree.append
        ((nulFree_of_white he.line).append (by decide)))
    · have hitems := (htext.parses (line e) rest he.line).skip_items
      rw [List.cons_append, List.append_assoc, List.append_assoc, List.singleton_append]
      exact .array hitems

/-! ### Tables -/

/-- What is written for some entries, but for the last comma. -/
structure WritesMembers (C : Libc) (n : ℕ) (e : Encoder) (entries : Entries) (text : Bytes) :
    Prop where
  encode : ∀ buffer, encodePairs C e buffer entries.source = .ok (buffer ++ (text ++ [44]))
  nulFree : NulFree text
  parses : ∀ ws rest, (∀ c ∈ ws, white c) →
    Parses C ⟨false, false⟩ n
      (.members (entries.map fun entry => (utf8 (entry.1.map echo), entry.2.2)))
      (text ++ (ws ++ 125 :: rest)) rest

/-- What stands between a key and its value. -/
def separator (e : Encoder) : Bytes := if e.tab.length = 0 then ascii ":" else ascii ": "

theorem exists_separator (e : Encoder) :
    ∃ ws, separator e = 58 :: ws ∧ ∀ c ∈ ws, white c := by
  rw [separator]
  split
  · exact ⟨[], rfl, by simp⟩
  · exact ⟨[32], rfl, by decide⟩

theorem skipwhite_colon (p : Bytes) : skipwhite (58 :: p) = 58 :: p :=
  List.dropWhile_cons_of_neg (by decide)

theorem exists_writesMembers {n : ℕ} {e : Encoder} (he : Blank e) {entries : Entries}
    (hne : entries ≠ []) (h : ∀ entry ∈ entries, Written C n entry.2.1 entry.2.2) :
    ∃ text, WritesMembers C (n + 1) e entries text := by
  induction entries with
  | nil => exact absurd rfl hne
  | cons entry entries ih =>
    obtain ⟨s, v, w⟩ := entry
    obtain ⟨t, ht⟩ := (h (s, v, w) (List.mem_cons_self ..)).text e he
    obtain ⟨ws', hsep, hws'⟩ := exists_separator e
    have hline := nulFree_of_white he.line
    have hkey := (carries_string (C := C) 0 s).nulFree
    have hentry : NulFree (line e ++ quoted s ++ separator e ++ t) := by
      rw [hsep]
      exact ((hline.append hkey).append (NulFree.append (a := [58]) (by decide)
        (nulFree_of_white hws'))).append ht.nulFree
    have hquoted : ∀ buffer,
        encodeOne C e buffer (.string (utf8 s)) = .ok (buffer ++ quoted s) := by
      intro buffer
      simp [encodeOne, encodeChars_utf8, quoted, bind, Except.bind, pure, Except.pure]
    have hstep : ∀ buffer rest, encodePairs C e buffer ((.string (utf8 s), v) :: rest) =
        encodePairs C e (buffer ++ (line e ++ quoted s ++ separator e ++ t) ++ [44]) rest := by
      intro buffer rest
      rw [encodePairs, encodeNewline_eq, hquoted]
      show (encodeOne C e (buffer ++ line e ++ quoted s ++ separator e) v).bind
        (fun buffer => encodePairs C e (buffer ++ [44]) rest) = _
      rw [ht.encode]
      simp only [Except.bind, List.append_assoc]
    -- from the key to what stands behind the value
    have hopen : ∀ p, skipwhite (line e ++ quoted s ++ separator e ++ t ++ p) =
        34 :: (escaped (s.map echo) ++ 34 :: (58 :: (ws' ++ (t ++ p)))) := by
      intro p
      simp only [hsep, quoted, List.append_assoc, List.cons_append, List.nil_append]
      rw [skipwhite_append he.line]
      exact List.dropWhile_cons_of_neg (by decide)
    cases entries with
    | nil =>
      refine ⟨line e ++ quoted s ++ separator e ++ t, fun buffer => ?_, hentry,
        fun ws rest hws => ?_⟩
      · rw [Entries.source, List.map_cons, hstep, List.map_nil, encodePairs, List.append_assoc]
      · have hvalue := (ht.parses (ws ++ 125 :: rest)
          (follow_append hws (.inr (.inr rfl)) rest)).append_white hws'
        refine .lastMember (hopen _) (chars_escaped _) (skipwhite_colon _) hvalue ?_
        rw [skipwhite_append hws]
        exact List.dropWhile_cons_of_neg (by decide)
    | cons entry' entries =>
      obtain ⟨text, htext⟩ := ih (by simp) fun p' hp' => h p' (List.mem_cons_of_mem _ hp')
      refine ⟨line e ++ quoted s ++ separator e ++ t ++ 44 :: text, fun buffer => ?_, ?_,
        fun ws rest hws => ?_⟩
      · rw [Entries.source, List.map_cons, hstep, ← Entries.source, htext.encode]
        simp
      · exact hentry.append (NulFree.append (a := [44]) (by decide) htext.nulFree)
      · have hvalue := (ht.parses _ (follow_cons (.inl rfl)
          (text ++ (ws ++ 125 :: rest)))).append_white hws'
        have hfirst := hopen (44 :: (text ++ (ws ++ 125 :: rest)))
        rw [List.append_assoc _ (44 :: text), List.cons_append]
        exact .member hfirst (chars_escaped _) (skipwhite_colon _) hvalue
          (List.dropWhile_cons_of_neg (by decide)) (htext.parses ws rest hws)

theorem written_table {n : ℕ} {entries : Entries} (hn : entries ≠ [] → 0 < n)
    (h : ∀ entry ∈ entries, Written C (n - 1) entry.2.1 entry.2.2) :
    Written C n (.table entries.source)
      (.table (entries.target.map fun e => (.string e.1, e.2))) := by
  have hfold : (entries.map fun entry => (utf8 (entry.1.map echo), entry.2.2)).foldl
      (fun t e => putEntry t e.1 e.2) [] = entries.target := by
    rw [List.foldl_map, Entries.target]
    refine List.foldl_ext _ _ _ fun t entry hentry => ?_
    exact putEntry_of_ne_nil (h entry hentry).ne_nil t _
  have htable : ∀ {p rest}, Parses C ⟨false, false⟩ n
      (.members (entries.map fun entry => (utf8 (entry.1.map echo), entry.2.2)))
      (skipwhite p) rest →
      Parses C ⟨false, false⟩ n (.value (.table (entries.target.map fun e => (.string e.1, e.2))))
        (123 :: p) rest := by
    intro p rest hmembers
    have hobject := Parses.object hmembers
    rwa [hfold] at hobject
  refine ⟨fun e he => ?_, by simp⟩
  by_cases hne : entries = []
  · subst hne
    refine ⟨[123, 125], fun buffer => ?_, by decide, fun rest _ => ?_⟩
    · simp [encodeOne, Entries.source, encodePairs, dropComma, bind, Except.bind, pure, Except.pure]
    · exact htable (.noMember n rest)
  · obtain ⟨text, htext⟩ := exists_writesMembers he.deeper hne h
    have hlevel : n - 1 + 1 = n := Nat.sub_add_cancel (hn hne)
    rw [hlevel] at htext
    refine ⟨123 :: (text ++ (line e ++ [125])), fun buffer => ?_, ?_, fun rest _ => ?_⟩
    · have hcomma := dropComma_comma e (buffer ++ [123] ++ text)
      rw [List.append_assoc (buffer ++ [123])] at hcomma
      simp only [encodeOne, htext.encode, bind, Except.bind, pure, Except.pure, hcomma]
      simp
    · exact NulFree.append (a := [123]) (by decide) (htext.nulFree.append
        ((nulFree_of_white he.line).append (by decide)))
    · have hmembers := (htext.parses (line e) rest he.line).skip_members
      rw [List.cons_append, List.append_assoc, List.append_assoc, List.singleton_append]
      exact htable hmembers

/-! ### The round trip -/

/-- **Every value that JSON has a form for** is written in every format, and reads as the same value
each time. -/
theorem written_of_isPayload (hC : Rereads C) {n : ℕ} {v : Value} (h : IsPayload n v) :
    ∃ w, Written C n v w ∧ ComesBack v w := by
  induction h with
  | boolean n b => exact ⟨_, written_boolean n b, .boolean b⟩
  | number n hx => exact ⟨_, written_number hC n hx, .number _⟩
  | string n s => exact ⟨_, written_string n s, .string s⟩
  | @array n items hn _ ih =>
    obtain ⟨ps, rfl, hps⟩ := exists_map_fst_eq ih
    have hback := ComesBack.array ps fun p hp => (hps p hp).2
    refine ⟨_, written_array (fun hne => hn (by simpa using hne)) fun p hp => (hps p hp).1, hback⟩
  | @table n kvs hn hkeys _ _ ih =>
    have hentry : ∀ e ∈ kvs, ∃ y : List Char × Value, e.1 = .string (utf8 y.1) ∧
        Written C (n - 1) e.2 y.2 ∧ ComesBack e.2 y.2 := by
      intro e he
      obtain ⟨s, hs⟩ := hkeys e he
      obtain ⟨w, hwritten, hback⟩ := ih e he
      exact ⟨(s, w), hs, hwritten, hback⟩
    obtain ⟨ps, rfl, hps⟩ := exists_map_fst_eq hentry
    have hof : ∀ e ∈ ps.map fun p => ((p.2.1, p.1.2, p.2.2) : List Char × Value × Value),
        Written C (n - 1) e.2.1 e.2.2 ∧ ComesBack e.2.1 e.2.2 := by
      intro e he
      obtain ⟨p, hp, rfl⟩ := List.mem_map.mp he
      exact (hps p hp).2
    have hsource : Entries.source (ps.map fun p => (p.2.1, p.1.2, p.2.2)) = ps.map Prod.fst := by
      rw [Entries.source, List.map_map]
      refine List.map_congr_left fun p hp => ?_
      show (Value.string (utf8 p.2.1), p.1.2) = p.1
      rw [← (hps p hp).1]
    rw [← hsource]
    exact ⟨_, written_table (fun hne => hn (by simpa using hne)) fun e he => (hof e he).1,
      .table _ fun e he => (hof e he).2⟩

theorem Writes.jsonDecode {e : Encoder} {v w : Value} {text : Bytes}
    (h : Writes C recursionGuard e v w text) : jsonDecode C ⟨false, false⟩ text = .ok w := by
  have hparses := h.parses [] nofun
  rw [List.append_nil] at hparses
  refine IsText.jsonDecode ⟨[], ?_, nofun⟩
  rwa [cstr_of_nulFree h.nulFree]

/-- **A formatted text reads as the compact one does**: the two are written for the same values, the
formatted one behind what is in the buffer, and what comes back is the same. -/
theorem jsonDecode_formatted (hC : Rereads C) {v : Value} (h : IsPayload recursionGuard v)
    {tab newline : Bytes} (htab : ∀ c ∈ tab, white c) (hnewline : ∀ c ∈ newline, white c)
    (buf : Bytes) :
    ∃ compact formatted w, jsonEncode C v = .ok compact ∧
      jsonEncodeFormatted C v tab newline buf = .ok (buf ++ formatted) ∧
      jsonDecode C ⟨false, false⟩ compact = .ok w ∧
      jsonDecode C ⟨false, false⟩ formatted = .ok w ∧ ComesBack v w := by
  obtain ⟨w, hwritten, hback⟩ := written_of_isPayload hC h
  obtain ⟨compact, hcompact⟩ := hwritten.text ⟨0, [], []⟩ ⟨by simp, by simp⟩
  obtain ⟨formatted, hformatted⟩ := hwritten.text ⟨0, tab, newline⟩ ⟨htab, hnewline⟩
  refine ⟨compact, formatted, w, ?_, ?_, hcompact.jsonDecode, hformatted.jsonDecode, hback⟩
  · rw [jsonEncode, hcompact.encode, List.nil_append]
  · rw [jsonEncodeFormatted, hformatted.encode]

theorem rereads_bits : Rereads .bits where
  starts := Libc.exact_bits.starts
  reads x rest _ hfollow := by
    have hhead : ∀ c ∈ rest.head?, ¬ isdigit c := by
      intro c hc
      have hnone : ∀ c : UInt8, (white c ∨ c = 44 ∨ c = 93 ∨ c = 125) → ¬ isdigit c = true :=
        forall_byte (by decide +kernel)
      exact hnone c (hfollow c hc)
    have hrest : rest.takeWhile isdigit = [] ∧ rest.dropWhile isdigit = rest := by
      cases rest with
      | nil => exact ⟨rfl, rfl⟩
      | cons c rest =>
        exact ⟨List.takeWhile_cons_of_neg (hhead c rfl), List.dropWhile_cons_of_neg (hhead c rfl)⟩
    have hall : ∀ b ∈ numeral x.toNat, isdigit b := fun b => isdigit_of_mem_numeral
    have htake : (numeral x.toNat ++ rest).takeWhile isdigit = numeral x.toNat := by
      rw [List.takeWhile_append_of_pos hall, hrest.1, List.append_nil]
    have hdrop : (numeral x.toNat ++ rest).dropWhile isdigit = rest := by
      rw [List.dropWhile_append_of_pos hall, hrest.2]
    rw [Libc.sprintfG17_bits, Libc.strtod_bits, htake, hdrop, decimal_numeral, UInt64.ofNat_toNat]

/-- `@{"a" @[true]}`, with two spaces and a line feed. -/
theorem jsonDecode_formatted_nested :
    ∃ compact formatted w,
      jsonEncode .bits (.table [(.string (utf8 ['a']), .array [.boolean true])]) = .ok compact ∧
      jsonEncodeFormatted .bits (.table [(.string (utf8 ['a']), .array [.boolean true])])
        [32, 32] [10] [] = .ok formatted ∧
      jsonDecode .bits ⟨false, false⟩ compact = .ok w ∧
      jsonDecode .bits ⟨false, false⟩ formatted = .ok w := by
  have hpayload : IsPayload recursionGuard
      (.table [(.string (utf8 ['a']), .array [.boolean true])]) := by
    refine .table (by decide) (by simp) (by simp) fun e he => ?_
    obtain rfl := List.mem_singleton.mp he
    refine .array (by decide) fun x hx => ?_
    obtain rfl := List.mem_singleton.mp hx
    exact .boolean _ true
  obtain ⟨compact, formatted, w, hcompact, hformatted, hread, hreadFormatted, -⟩ :=
    jsonDecode_formatted rereads_bits hpayload (show ∀ c ∈ [32, 32], white c by decide)
      (show ∀ c ∈ [10], white c by decide) []
  exact ⟨compact, formatted, w, hcompact, hformatted, hread, hreadFormatted⟩

end AhungryJanet.Grammar
