import Mathlib.Data.List.DropRight
import AhungryJanet.Janet.Parse
import AhungryJanet.Library.Search

/-!
# Reading tokens and long strings

What the parser does with the two kinds of text the handler's source is made of.

A token is a run of symbol characters; `Between.token` reads one that is followed by white space.

A long string opened by `n` backquotes ends at the first run of `n` backquotes behind it, wherever
the run is: `InString` describes the parser inside, as a function of the bytes since the opening.
Trailing backquotes among these are not in the buffer yet, as they may be the end.

`Holding` is what stays true of a call that has been opened, whatever follows: its first two
arguments.

## Main results

* `Between.token` — a token
* `InString.run` — the inside of a long string
* `Holding.dobytes` — a form keeps its first two arguments
-/

namespace AhungryJanet

open Search

section

variable {convert : (neg : Bool) → (mant base : ℕ) → (ex : ℤ) → UInt64}

/-! ### Tokens -/

/-- The parser between two tokens. -/
structure Between (args : List Value) (states : List RootState) (p : Parser) : Prop where
  args : p.args = args
  states : p.states = states
  leaf : p.leaf = none
  buf : p.buf = []
  quiet : Quiet p

/-- The parser in a token of ASCII characters. -/
structure InToken (args : List Value) (states : List RootState) (tok : Bytes) (p : Parser) :
    Prop where
  args : p.args = args
  states : p.states = states
  leaf : ∃ place, p.leaf = some ⟨.tokenchar false, place⟩
  buf : p.buf = tok
  quiet : Quiet p

/-- A byte of a token. -/
def TokenByte (c : UInt8) : Prop := isSymbolChar c ∧ c ≤ 127

instance (c : UInt8) : Decidable (TokenByte c) := inferInstanceAs (Decidable (_ ∧ _))

theorem not_isWhitespace {c : UInt8} (h : isSymbolChar c) : ¬ isWhitespace c := by
  intro hspace
  simp only [isWhitespace, Bool.or_eq_true, decide_eq_true_eq] at hspace
  rcases hspace with (((((rfl | rfl) | rfl) | rfl) | rfl) | rfl) | rfl <;>
    exact absurd h (by decide)

theorem root_of_symbol (p : Parser) {c : UInt8} (h : isSymbolChar c) (hat : c ≠ 64) :
    root p c = (false, p.pushLeaf (.tokenchar false)) := by
  rw [root.eq_def]
  split
  case h_8 => exact absurd rfl hat
  case h_16 => rw [if_neg (not_isWhitespace h), if_neg (not_not.mpr h)]
  all_goals exact absurd h (by decide)

variable (convert) in
/-- The first byte of a token. -/
theorem Between.symbol {args : List Value} {states : List RootState} {p : Parser}
    (h : Between args states p) {c : UInt8} (hc : TokenByte c) (hat : c ≠ 64) :
    InToken args states [c] (consume convert p c) := by
  have hle : ¬ 127 < c := UInt8.not_lt.mpr hc.2
  have hconsume : consume convert p c =
      { p with
        leaf := some ⟨.tokenchar false, p.place.advance p.lookback c⟩
        buf := [c]
        place := p.place.advance p.lookback c
        lookback := some c } := by
    simp [consume, consumeLoop, consumer, h.leaf, h.quiet.error, root_of_symbol _ hc.1 hat,
      tokenchar, hc.1, Parser.pushLeaf, Parser.pushBuf, Parser.become, h.buf, hle]
  rw [hconsume]
  exact ⟨h.args, h.states, ⟨_, rfl⟩, rfl, h.quiet.pending, h.quiet.error⟩

variable (convert) in
/-- The next byte of a token. -/
theorem InToken.symbol {args : List Value} {states : List RootState} {tok : Bytes} {p : Parser}
    (h : InToken args states tok p) {c : UInt8} (hc : TokenByte c) :
    InToken args states (tok ++ [c]) (consume convert p c) := by
  obtain ⟨place, hleaf⟩ := h.leaf
  have hle : ¬ 127 < c := UInt8.not_lt.mpr hc.2
  have hconsume : consume convert p c =
      { p with
        leaf := some ⟨.tokenchar false, place⟩
        buf := tok ++ [c]
        place := p.place.advance p.lookback c
        lookback := some c } := by
    simp [consume, consumeLoop, consumer, hleaf, h.quiet.error, tokenchar, hc.1, Parser.pushBuf,
      Parser.become, h.buf, hle]
  rw [hconsume]
  exact ⟨h.args, h.states, ⟨_, rfl⟩, rfl, h.quiet.pending, h.quiet.error⟩

variable (convert) in
/-- A byte that ends a token is read again, behind the token. -/
theorem InToken.finish {args : List Value} {delim : Delim} {atsym : Bool} {argn : ℕ} {place : Place}
    {states : List RootState} {tok : Bytes} {p : Parser}
    (h : InToken args (.container delim atsym argn place :: states) tok p) {val : Value}
    (hval : tokenValue convert false tok = .ok val) {c : UInt8} (hc : ¬ isSymbolChar c) :
    ∃ q, Between (val :: args) (.container delim atsym (argn + 1) place :: states) q ∧
      consume convert p c = { consumeLoop convert 3 q c with lookback := some c } := by
  obtain ⟨pl, hleaf⟩ := h.leaf
  refine ⟨{ p with
    args := val :: args
    states := .container delim atsym (argn + 1) place :: states
    leaf := none
    buf := []
    place := p.place.advance p.lookback c },
    ⟨rfl, rfl, rfl, rfl, h.quiet.pending, h.quiet.error⟩, ?_⟩
  rw [consume, consumeLoop]
  simp [consumer, hleaf, h.quiet.error, tokenchar, hc, h.buf, hval, popLeaf, popLoop, h.states,
    h.args]

/-- White space between two tokens. -/
theorem Between.consumeLoop_space {args : List Value} {states : List RootState} {p : Parser}
    (h : Between args states p) {c : UInt8} (hc : isWhitespace c) (n : ℕ) :
    consumeLoop convert (n + 1) p c = p := by
  have hroot : root p c = (true, p) := by
    simp only [isWhitespace, Bool.or_eq_true, decide_eq_true_eq] at hc
    rcases hc with (((((rfl | rfl) | rfl) | rfl) | rfl) | rfl) | rfl <;> rfl
  rw [consumeLoop, h.quiet.error, consumer, h.leaf]
  simp [hroot]

/-- Reading the bytes leads from one state to the other, and nothing is finished on the way. -/
def Passes (convert : (neg : Bool) → (mant base : ℕ) → (ex : ℤ) → UInt64) (p : Parser)
    (bytes : Bytes) (q : Parser) : Prop :=
  ∀ rest, dobytes convert p (bytes ++ rest) = dobytes convert q rest

theorem passes_nil (p : Parser) : Passes convert p [] p := fun _ => rfl

theorem Quiet.passes {p : Parser} (h : Quiet p) (c : UInt8) :
    Passes convert p [c] (consume convert p c) := dobytes_cons convert h c

theorem Passes.trans {p q r : Parser} {a b : Bytes} (h : Passes convert p a q)
    (h' : Passes convert q b r) : Passes convert p (a ++ b) r := by
  intro rest
  rw [List.append_assoc, h, h']

variable (convert) in
/-- White space between two tokens. -/
theorem Between.space {args : List Value} {states : List RootState} {p : Parser}
    (h : Between args states p) {c : UInt8} (hc : isWhitespace c) :
    ∃ q, Between args states q ∧ (c = 10 → q.place.column = 0) ∧ Passes convert p [c] q := by
  refine ⟨_, ?_, ?_, h.quiet.passes c⟩
  · have hplace : Between args states { p with place := p.place.advance p.lookback c } :=
      ⟨h.args, h.states, h.leaf, h.buf, ⟨h.quiet.pending, h.quiet.error⟩⟩
    rw [consume, hplace.consumeLoop_space hc]
    exact ⟨h.args, h.states, h.leaf, h.buf, ⟨h.quiet.pending, h.quiet.error⟩⟩
  · rintro rfl
    have hplace : Between args states { p with place := p.place.advance p.lookback 10 } :=
      ⟨h.args, h.states, h.leaf, h.buf, ⟨h.quiet.pending, h.quiet.error⟩⟩
    rw [consume, hplace.consumeLoop_space hc]
    simp [Place.advance]

variable (convert) in
/-- An opening parenthesis. -/
theorem Between.open {args : List Value} {states : List RootState} {p : Parser}
    (h : Between args states p) :
    ∃ q place, Between args (.container .parens false 0 place :: states) q ∧
      Passes convert p [40] q := by
  have hconsume : consume convert p 40 =
      { p with
        states := .container .parens false 0 (p.place.advance p.lookback 40) :: states
        place := p.place.advance p.lookback 40
        lookback := some 40 } := by
    simp [consume, consumeLoop, consumer, h.leaf, h.quiet.error, root, Parser.pushContainer,
      h.states]
  refine ⟨consume convert p 40, p.place.advance p.lookback 40, ?_, h.quiet.passes 40⟩
  rw [hconsume]
  exact ⟨h.args, rfl, h.leaf, h.buf, h.quiet.pending, h.quiet.error⟩

variable (convert) in
/-- The rest of a token. -/
theorem InToken.symbols {args : List Value} {states : List RootState} {tok t : Bytes} {p : Parser}
    (h : InToken args states tok p) (ht : ∀ c ∈ t, TokenByte c) :
    ∃ q, InToken args states (tok ++ t) q ∧ Passes convert p t q := by
  induction t generalizing tok p with
  | nil => exact ⟨p, by rwa [List.append_nil], passes_nil p⟩
  | cons c t ih =>
    obtain ⟨q, hq, hpasses⟩ := ih (h.symbol convert (ht c (by simp)))
      fun x hx => ht x (List.mem_cons_of_mem c hx)
    refine ⟨q, by simpa using hq, ?_⟩
    exact (h.quiet.passes c).trans hpasses

/-- A text that is read as one token. -/
structure IsToken (tok : Bytes) : Prop where
  ne_nil : tok ≠ []
  bytes : ∀ c ∈ tok, TokenByte c
  head : tok.head? ≠ some 64

instance (tok : Bytes) : Decidable (IsToken tok) :=
  decidable_of_iff (tok ≠ [] ∧ (∀ c ∈ tok, TokenByte c) ∧ tok.head? ≠ some 64)
    ⟨fun h => ⟨h.1, h.2.1, h.2.2⟩, fun h => ⟨h.ne_nil, h.bytes, h.head⟩⟩

variable (convert) in
/-- A token up to its end. -/
theorem Between.inToken {args : List Value} {states : List RootState} {p : Parser}
    (h : Between args states p) {tok : Bytes} (htok : IsToken tok) :
    ∃ q, InToken args states tok q ∧ Passes convert p tok q := by
  obtain ⟨c, t, rfl⟩ := List.exists_cons_of_ne_nil htok.ne_nil
  have hhead : c ≠ 64 := by simpa using htok.head
  obtain ⟨q, hq, hpasses⟩ := (h.symbol convert (htok.bytes c (by simp)) hhead).symbols convert
    fun x hx => htok.bytes x (List.mem_cons_of_mem c hx)
  exact ⟨q, hq, (h.quiet.passes c).trans hpasses⟩

variable (convert) in
/-- **A token and the white space behind it.** -/
theorem Between.token {args : List Value} {delim : Delim} {atsym : Bool} {argn : ℕ} {place : Place}
    {states : List RootState} {p : Parser}
    (h : Between args (.container delim atsym argn place :: states) p) {tok : Bytes}
    (htok : IsToken tok) {val : Value} (hval : tokenValue convert false tok = .ok val) {c : UInt8}
    (hc : isWhitespace c) :
    ∃ q, Between (val :: args) (.container delim atsym (argn + 1) place :: states) q ∧
      Passes convert p (tok ++ [c]) q := by
  obtain ⟨q, hq, hpasses⟩ := h.inToken convert htok
  obtain ⟨r, hr, hconsume⟩ := hq.finish convert hval fun h => not_isWhitespace h hc
  rw [hr.consumeLoop_space hc] at hconsume
  refine ⟨_, ?_, hpasses.trans (hq.quiet.passes c)⟩
  rw [hconsume]
  exact ⟨hr.args, hr.states, hr.leaf, hr.buf, hr.quiet.pending, hr.quiet.error⟩

/-- The parenthesis that closes a form. -/
theorem Between.consumeLoop_close {args : List Value} {place : Place} {p : Parser}
    (h : Between args [.container .parens false args.length place] p) (n : ℕ) :
    consumeLoop convert (n + 1) p 41 =
      { p with
        args := [.tuple false [.tuple false args.reverse]]
        states := []
        pending := 1 } := by
  have hclosing : closing p 41 =
      { p with
        args := [.tuple false [.tuple false args.reverse]]
        states := []
        pending := 1 } := by
    simp [closing, h.states, closes, h.args, popLoop, closeContainer, h.quiet.pending]
  rw [consumeLoop, h.quiet.error, consumer, h.leaf]
  simp [root, hclosing, h.leaf, h.quiet.error]

/-! ### Long strings -/

/-- A run of backquotes. -/
def ticks (n : ℕ) : Bytes := List.replicate n 96

/-- How many backquotes the bytes end with. -/
def trailing (w : Bytes) : ℕ := (w.rtakeWhile (· = 96)).length

/-- The bytes before these. -/
def stem (w : Bytes) : Bytes := w.rdropWhile (· = 96)

theorem trailing_concat_tick (w : Bytes) : trailing (w ++ [96]) = trailing w + 1 := by
  rw [trailing, List.rtakeWhile_concat_pos _ _ _ (by simp), List.length_append,
    List.length_singleton, trailing]

theorem stem_concat_tick (w : Bytes) : stem (w ++ [96]) = stem w :=
  List.rdropWhile_concat_pos _ _ _ (by simp)

theorem trailing_concat {c : UInt8} (hc : c ≠ 96) (w : Bytes) : trailing (w ++ [c]) = 0 := by
  rw [trailing, List.rtakeWhile_concat_neg _ _ _ (by simpa using hc), List.length_nil]

theorem stem_concat {c : UInt8} (hc : c ≠ 96) (w : Bytes) : stem (w ++ [c]) = w ++ [c] :=
  List.rdropWhile_concat_neg _ _ _ (by simpa using hc)

theorem rtakeWhile_tick (w : Bytes) : w.rtakeWhile (· = 96) = ticks (trailing w) :=
  List.eq_replicate_iff.mpr ⟨rfl, fun _ h => by simpa using List.mem_rtakeWhile_imp h⟩

theorem stem_append_ticks (w : Bytes) : stem w ++ ticks (trailing w) = w := by
  rw [← rtakeWhile_tick, stem, List.rdropWhile_append_rtakeWhile]

theorem trailing_append_ticks {w : Bytes} (h : w.getLast? ≠ some 96) (n : ℕ) :
    trailing (w ++ ticks n) = n ∧ stem (w ++ ticks n) = w := by
  induction n with
  | zero =>
    rw [ticks, List.replicate_zero, List.append_nil]
    rcases List.eq_nil_or_concat w with rfl | ⟨w, c, rfl⟩
    · exact ⟨rfl, rfl⟩
    · rw [List.concat_eq_append] at h ⊢
      have hc : c ≠ 96 := by simpa using h
      exact ⟨trailing_concat hc w, stem_concat hc w⟩
  | succ n ih =>
    rw [ticks, List.replicate_succ', ← List.append_assoc, trailing_concat_tick, stem_concat_tick]
    exact ⟨congrArg (· + 1) ih.1, ih.2⟩

/-- Where in a long string the parser is behind these bytes. -/
def phaseOf (w : Bytes) : LongPhase :=
  if trailing w = 0 then .instring else .candidate (trailing w)

/-- The parser behind the first `a` backquotes but one of a long string. -/
structure Opening (args : List Value) (states : List RootState) (a : ℕ) (p : Parser) : Prop where
  args : p.args = args
  states : p.states = states
  leaf : ∃ place : Place, place.column = 1 ∧ p.leaf = some ⟨.longstring false .opening a, place⟩
  buf : p.buf = []
  quiet : Quiet p

/-- The parser in a long string of `n` backquotes, behind the bytes `w` of it. -/
structure InString (args : List Value) (states : List RootState) (n : ℕ) (w : Bytes) (p : Parser) :
    Prop where
  args : p.args = args
  states : p.states = states
  leaf : ∃ place : Place, place.column = 1 ∧
    p.leaf = some ⟨.longstring false (phaseOf w) n, place⟩
  buf : p.buf = stem w
  quiet : Quiet p

variable {args : List Value} {states : List RootState}

/-- The first backquote, at the beginning of a line. -/
theorem Between.tick {p : Parser} (h : Between args states p) (hcolumn : p.place.column = 0) :
    Opening args states 0 (consume convert p 96) := by
  have hconsume : consume convert p 96 =
      { p with
        leaf := some ⟨.longstring false .opening 0, p.place.advance p.lookback 96⟩
        place := p.place.advance p.lookback 96
        lookback := some 96 } := by
    simp [consume, consumeLoop, consumer, h.leaf, h.quiet.error, root, Parser.pushLeaf]
  rw [hconsume]
  refine ⟨h.args, h.states, ⟨_, ?_, rfl⟩, h.buf, h.quiet.pending, h.quiet.error⟩
  simp [Place.advance, hcolumn]

theorem Opening.tick {a : ℕ} {p : Parser} (h : Opening args states a p) :
    Opening args states (a + 1) (consume convert p 96) := by
  obtain ⟨place, hcolumn, hleaf⟩ := h.leaf
  have hconsume : consume convert p 96 =
      { p with
        leaf := some ⟨.longstring false .opening (a + 1), place⟩
        place := p.place.advance p.lookback 96
        lookback := some 96 } := by
    simp [consume, consumeLoop, consumer, hleaf, h.quiet.error, longstring, Parser.become]
  rw [hconsume]
  exact ⟨h.args, h.states, ⟨place, hcolumn, rfl⟩, h.buf, h.quiet.pending, h.quiet.error⟩

/-- The first byte that is no backquote ends the opening run. -/
theorem Opening.content {a : ℕ} {p : Parser} (h : Opening args states a p) {c : UInt8}
    (hc : c ≠ 96) : InString args states (a + 1) [c] (consume convert p c) := by
  obtain ⟨place, hcolumn, hleaf⟩ := h.leaf
  have hconsume : consume convert p c =
      { p with
        leaf := some ⟨.longstring false .instring (a + 1), place⟩
        buf := [c]
        place := p.place.advance p.lookback c
        lookback := some c } := by
    simp [consume, consumeLoop, consumer, hleaf, h.quiet.error, longstring, Parser.become,
      Parser.pushBuf, hc, h.buf]
  have htrailing : trailing [c] = 0 := trailing_concat hc []
  have hphase : phaseOf [c] = .instring := by
    rw [phaseOf, if_pos htrailing]
  rw [hconsume]
  exact ⟨h.args, h.states, ⟨place, hcolumn, by rw [hphase]⟩, (stem_concat hc []).symm,
    h.quiet.pending, h.quiet.error⟩

variable (convert) in
/-- One more byte, if the end has not been reached. -/
theorem InString.step {n : ℕ} {w : Bytes} {p : Parser} (h : InString args states n w p)
    (hw : trailing w < n) (c : UInt8) :
    InString args states n (w ++ [c]) (consume convert p c) := by
  obtain ⟨place, hcolumn, hleaf⟩ := h.leaf
  have hconsume : consume convert p c =
      { p with
        leaf := some ⟨.longstring false (phaseOf (w ++ [c])) n, place⟩
        buf := stem (w ++ [c])
        place := p.place.advance p.lookback c
        lookback := some c } := by
    by_cases hc : c = 96
    · subst hc
      rw [phaseOf, trailing_concat_tick, stem_concat_tick, ← h.buf]
      by_cases hzero : trailing w = 0
      · simp [consume, consumeLoop, consumer, hleaf, h.quiet.error, longstring, Parser.become,
          phaseOf, hzero]
      · simp [consume, consumeLoop, consumer, hleaf, h.quiet.error, longstring, Parser.become,
          phaseOf, hzero, hw, hw.ne]
    · rw [phaseOf, trailing_concat hc, stem_concat hc]
      by_cases hzero : trailing w = 0
      · have hstem := stem_append_ticks w
        rw [hzero, ticks, List.replicate_zero, List.append_nil] at hstem
        simp [consume, consumeLoop, consumer, hleaf, h.quiet.error, longstring, Parser.pushBuf,
          phaseOf, hzero, hc, h.buf, hstem]
      · have hstem : stem w ++ (List.replicate (trailing w) 96 ++ [c]) = w ++ [c] := by
          rw [← List.append_assoc]
          exact congrArg (· ++ [c]) (stem_append_ticks w)
        simp [consume, consumeLoop, consumer, hleaf, h.quiet.error, longstring, Parser.become,
          phaseOf, hzero, hc, hw.ne, h.buf, hstem]
  rw [hconsume]
  exact ⟨h.args, h.states, ⟨place, hcolumn, rfl⟩, rfl, h.quiet.pending, h.quiet.error⟩

variable (convert) in
/-- **The inside of a long string**, up to the end of the first run that is long enough. -/
theorem InString.run {n : ℕ} {w t : Bytes} {p : Parser} (h : InString args states n w p)
    (ht : ∀ u, w <+: u → u <+: w ++ t → u ≠ w ++ t → trailing u < n) :
    ∃ q, InString args states n (w ++ t) q ∧ Passes convert p t q := by
  induction t generalizing w p with
  | nil => exact ⟨p, by rwa [List.append_nil], passes_nil p⟩
  | cons c t ih =>
    have happ : w ++ [c] ++ t = w ++ c :: t := by simp
    have hw : trailing w < n := ht w List.prefix_rfl (List.prefix_append w _) (by simp)
    obtain ⟨q, hq, hpasses⟩ := ih (h.step convert hw c) fun u hu hut hne =>
      ht u ((List.prefix_append w [c]).trans hu) (happ ▸ hut) (happ ▸ hne)
    exact ⟨q, happ ▸ hq, (h.quiet.passes c).trans hpasses⟩

variable (convert) in
/-- More backquotes of the opening run. -/
theorem Opening.ticks {a : ℕ} {p : Parser} (h : Opening args states a p) (k : ℕ) :
    ∃ q, Opening args states (a + k) q ∧ Passes convert p (ticks k) q := by
  induction k with
  | zero => exact ⟨p, h, passes_nil p⟩
  | succ k ih =>
    obtain ⟨q, hq, hpasses⟩ := ih
    refine ⟨consume convert q 96, hq.tick, ?_⟩
    rw [AhungryJanet.ticks, List.replicate_succ']
    exact hpasses.trans (hq.quiet.passes 96)

/-- The bytes end with a run only if the run is in them. -/
theorem trailing_lt {n : ℕ} {w : Bytes} (h : ¬ ticks n <:+ w) : trailing w < n := by
  by_contra hge
  refine h ⟨stem w ++ ticks (trailing w - n), ?_⟩
  have hsum : ticks (trailing w - n) ++ ticks n = ticks (trailing w) := by
    rw [ticks, ticks, ← List.replicate_add, Nat.sub_add_cancel (Nat.not_lt.mp hge), ticks]
  rw [List.append_assoc, hsum, stem_append_ticks]

variable (convert) in
/-- A string that is not closed. -/
theorem Opening.unclosed {a : ℕ} {p : Parser} (h : Opening args states a p) {c : UInt8} {t : Bytes}
    (hc : c ≠ 96) (ht : ¬ AhungryJanet.ticks (a + 1) <:+: c :: t) :
    ∃ q, InString args states (a + 1) (c :: t) q ∧ Passes convert p (c :: t) q := by
  have h₁ : InString args states (a + 1) [c] (consume convert p c) := h.content hc
  obtain ⟨q, hq, hpasses⟩ := h₁.run convert (t := t) fun u _ hu _ =>
    trailing_lt fun hsuffix => ht (hsuffix.isInfix.trans hu.isInfix)
  exact ⟨q, hq, (h.quiet.passes c).trans hpasses⟩

variable (convert) in
/-- A string up to the end of its closing run, which is the first that is long enough. -/
theorem Opening.closed {a : ℕ} {p : Parser} (h : Opening args states a p) {c : UInt8}
    {t u v : Bytes} (hc : c ≠ 96) (hcut : CutAt (AhungryJanet.ticks (a + 1)) (c :: t) u v) :
    ∃ q, InString args states (a + 1) (u ++ AhungryJanet.ticks (a + 1)) q ∧
      Passes convert p (u ++ AhungryJanet.ticks (a + 1)) q := by
  have h₁ : InString args states (a + 1) [c] (consume convert p c) := h.content hc
  obtain ⟨u, rfl⟩ : ∃ u', u = c :: u' := by
    cases u with
    | nil =>
      have heq := hcut.eq
      rw [AhungryJanet.ticks, List.replicate_succ] at heq
      exact absurd (List.cons.inj heq).1 hc
    | cons x u => exact ⟨u, by rw [(List.cons.inj hcut.eq).1]⟩
  obtain ⟨q, hq, hpasses⟩ := h₁.run convert (t := u ++ AhungryJanet.ticks (a + 1))
    fun w _ hw hne => trailing_lt fun hsuffix => by
      obtain ⟨x, rfl⟩ := hsuffix
      have hlen : (x ++ AhungryJanet.ticks (a + 1)).length <
          ([c] ++ (u ++ AhungryJanet.ticks (a + 1))).length :=
        lt_of_le_of_ne hw.length_le fun heq => hne (hw.eq_of_length heq)
      obtain ⟨y, hy⟩ := hw
      refine hcut.first x.length (by simp at hlen ⊢; omega) ?_
      have heq : c :: t = x ++ (AhungryJanet.ticks (a + 1) ++ (y ++ v)) := by
        rw [hcut.eq]
        have := congrArg (· ++ v) hy
        simpa using this.symm
      rw [heq]
      exact occursAt_length_append _ _ _
  exact ⟨q, hq, (h.quiet.passes c).trans hpasses⟩

/-- Before the first run of backquotes there is no backquote. -/
theorem getLast?_of_cutAt {n : ℕ} {text u v : Bytes} (h : CutAt (ticks n) text u v) :
    u.getLast? ≠ some 96 := by
  intro hlast
  obtain ⟨u', rfl⟩ := List.getLast?_eq_some_iff.mp hlast
  refine h.first u'.length (by simp) ?_
  have heq : text = u' ++ (ticks n ++ 96 :: v) := by
    have hcomm : [96] ++ ticks n = ticks n ++ [96] := by
      rw [ticks, ← List.replicate_succ', List.replicate_succ, List.singleton_append]
    rw [h.eq, List.append_assoc, ← List.append_assoc [96], hcomm]
    simp
  rw [heq]
  exact occursAt_length_append _ _ _

/-- A string that is open at the end of the source is an error. -/
theorem InString.dobytes_nil {n : ℕ} {w : Bytes} {p : Parser} (h : InString args states n w p)
    (hw : trailing w < n) : (dobytes convert p []).2.isSome := by
  have hstep : InString args states n (w ++ [10]) (consume convert p 10) := h.step convert hw 10
  obtain ⟨place, -, hleaf⟩ := hstep.leaf
  have htop : (consume convert p 10).top.isSome := by
    rw [Parser.top, hleaf]
    rfl
  rw [AhungryJanet.dobytes_nil convert h.quiet, eof, if_pos htop]
  rfl

theorem canReindent_zero (b : Bytes) : canReindent 0 0 b := by
  induction b with
  | nil => rfl
  | cons c b ih =>
    rw [canReindent]
    split <;> exact ih

theorem reindent_zero (b : Bytes) : reindent 0 0 b = b := by
  induction b with
  | nil => rfl
  | cons c b ih =>
    rw [reindent]
    split <;> exact congrArg (c :: ·) ih

/-- A long string at the beginning of a line is not reindented. -/
theorem longstringValue_zero (b : Bytes) : longstringValue 0 b = dropTrailing (dropLeading b) := by
  rw [longstringValue, if_pos (canReindent_zero b), reindent_zero]

variable (convert) in
/-- **The end of a long string.** The byte behind it is read again. -/
theorem InString.finish {delim : Delim} {atsym : Bool} {argn n : ℕ} {place : Place} {w : Bytes}
    {p : Parser} (h : InString args (.container delim atsym argn place :: states) n w p)
    (hw : trailing w = n) (hn : n ≠ 0) (c : UInt8) :
    ∃ q, Between (.string (dropTrailing (dropLeading (stem w))) :: args)
        (.container delim atsym (argn + 1) place :: states) q ∧
      consume convert p c = { consumeLoop convert 3 q c with lookback := some c } := by
  obtain ⟨pl, hcolumn, hleaf⟩ := h.leaf
  have hphase : phaseOf w = .candidate n := by
    rw [phaseOf, if_neg (hw ▸ hn), hw]
  refine ⟨{ p with
    args := .string (dropTrailing (dropLeading (stem w))) :: args
    states := .container delim atsym (argn + 1) place :: states
    leaf := none
    buf := []
    place := p.place.advance p.lookback c },
    ⟨rfl, rfl, rfl, rfl, h.quiet.pending, h.quiet.error⟩, ?_⟩
  rw [consume, consumeLoop]
  simp [consumer, hleaf, h.quiet.error, longstring, hphase, stringend, hcolumn,
    longstringValue_zero, h.buf, popLeaf, popLoop, h.states, h.args]

/-! ### A form keeps its first arguments -/

/-- The states of a form that is being read, and how many arguments they have in all. The form is
in parentheses at the top level and has two arguments or more. -/
inductive Nest : List RootState → ℕ → Prop where
  | form {argn : ℕ} {place : Place} (h : 2 ≤ argn) :
    Nest [.container .parens false argn place] argn
  | container {delim : Delim} {atsym : Bool} {argn : ℕ} {place : Place} {rest : List RootState}
    {n : ℕ} (h : Nest rest n) : Nest (.container delim atsym argn place :: rest) (argn + n)
  | readermac {c : UInt8} {place : Place} {rest : List RootState} {n : ℕ} (h : Nest rest n) :
    Nest (.readermac c place :: rest) n

/-- A form with the first arguments `v₁` and `v₂` is being read. -/
structure Holding (v₁ v₂ : Value) (p : Parser) : Prop where
  nest : Nest p.states p.args.length
  first : [v₂, v₁] <:+ p.args
  pending : p.pending = 0

/-- It has been read. -/
structure Finished (v₁ v₂ : Value) (p : Parser) : Prop where
  args : ∃ more, p.args = [.tuple false [.tuple false (v₁ :: v₂ :: more)]]
  pending : p.pending = 1

theorem Nest.two_le {s : List RootState} {n : ℕ} (h : Nest s n) : 2 ≤ n := by
  induction h with
  | form h => exact h
  | container _ ih => exact ih.trans (Nat.le_add_left _ _)
  | readermac _ ih => exact ih

theorem Nest.ne_nil {s : List RootState} {n : ℕ} (h : Nest s n) : s ≠ [] := by
  rintro rfl
  cases h

/-- A value goes to the innermost container. -/
theorem Nest.popLoop {s : List RootState} {n : ℕ} (h : Nest s n) (p : Parser) (val : Value) :
    Nest (AhungryJanet.popLoop p val s).states (n + 1) ∧
      ∃ x, (AhungryJanet.popLoop p val s).args = x :: p.args ∧
        (AhungryJanet.popLoop p val s).pending = p.pending := by
  induction h generalizing val with
  | form h => exact ⟨.form (Nat.le_succ_of_le h), val, rfl, rfl⟩
  | @container delim atsym argn place rest n h =>
    refine ⟨?_, val, rfl, rfl⟩
    have heq : argn + n + 1 = argn + 1 + n := by omega
    rw [heq]
    exact .container h
  | readermac _ ih => exact ih _

theorem Holding.popLoop {v₁ v₂ val : Value} {s : List RootState} {p : Parser}
    (hnest : Nest s p.args.length) (hfirst : [v₂, v₁] <:+ p.args) (hpending : p.pending = 0) :
    Holding v₁ v₂ (AhungryJanet.popLoop p val s) := by
  obtain ⟨hnest, x, hargs, hpending'⟩ := hnest.popLoop p val
  refine ⟨?_, ?_, hpending'.trans hpending⟩
  · rwa [hargs, List.length_cons]
  · rw [hargs]
    exact hfirst.trans (List.suffix_cons x p.args)

/-- A closing byte ends a container inside the form, or the form. -/
theorem Holding.closing {v₁ v₂ : Value} {p : Parser} (h : Holding v₁ v₂ p) (c : UInt8) :
    Holding v₁ v₂ (closing p c) ∨ Finished v₁ v₂ (closing p c) := by
  obtain ⟨hnest, hfirst, hpending⟩ := h
  rw [AhungryJanet.closing.eq_def]
  split
  case h_1 hs => exact absurd hs hnest.ne_nil
  case h_3 => exact .inl ⟨hnest, hfirst, hpending⟩
  case h_2 delim atsym argn place rest hs =>
    rw [hs] at hnest
    split
    case isFalse => exact .inl ⟨hs ▸ hnest, hfirst, hpending⟩
    case isTrue =>
      split
      case isTrue => exact .inl ⟨hs ▸ hnest, hfirst, hpending⟩
      case isFalse =>
        generalize hlen : p.args.length = k at hnest
        cases hnest with
        | form h2 =>
          right
          obtain ⟨more, hmore⟩ := hfirst
          have htake : p.args.take argn = p.args := List.take_of_length_le hlen.le
          have hdrop : p.args.drop argn = [] := List.drop_of_length_le hlen.le
          refine ⟨⟨more.reverse, ?_⟩, ?_⟩
          · rw [htake, hdrop]
            simp [AhungryJanet.popLoop, closeContainer, ← hmore]
          · simp [AhungryJanet.popLoop, hpending]
        | container hrest =>
          left
          refine Holding.popLoop ?_ ?_ hpending
          · simpa [hlen] using hrest
          · refine List.suffix_of_suffix_length_le hfirst (List.drop_suffix argn p.args) ?_
            have := hrest.two_le
            rw [List.length_drop, hlen]
            simp only [List.length_cons, List.length_nil]
            omega

/-- The state, the arguments and what is pending are those of another parser. -/
theorem Holding.congr {v₁ v₂ : Value} {p q : Parser} (h : Holding v₁ v₂ p)
    (hstates : q.states = p.states) (hargs : q.args = p.args) (hpending : q.pending = p.pending) :
    Holding v₁ v₂ q := by
  obtain ⟨hnest, hfirst, hzero⟩ := h
  exact ⟨by rwa [hstates, hargs], by rwa [hargs], by rwa [hpending]⟩

theorem Holding.popLeaf {v₁ v₂ : Value} {p : Parser} (h : Holding v₁ v₂ p) (buf : Bytes)
    (val : Value) : Holding v₁ v₂ (popLeaf { p with buf := buf } val) :=
  Holding.popLoop h.nest h.first h.pending

/-- An opening byte, in or behind an argument of the form. -/
theorem Holding.push {v₁ v₂ : Value} {p : Parser} (h : Holding v₁ v₂ p) (delim : Delim)
    (atsym : Bool) : Holding v₁ v₂ (p.pushContainer delim atsym) := by
  obtain ⟨hnest, hfirst, hzero⟩ := h
  have hpush : Nest (.container delim atsym 0 p.place :: p.states) (0 + p.args.length) :=
    .container hnest
  exact ⟨by rwa [Nat.zero_add] at hpush, hfirst, hzero⟩

theorem Holding.root {v₁ v₂ : Value} {p : Parser} (h : Holding v₁ v₂ p) (c : UInt8) :
    Holding v₁ v₂ (root p c).2 ∨ ((root p c).1 = true ∧ Finished v₁ v₂ (root p c).2) := by
  have hleaf : ∀ consumer, Holding v₁ v₂ (p.pushLeaf consumer) := fun _ => h.congr rfl rfl rfl
  have hmac : ∀ c, Holding v₁ v₂ (p.pushReadermac c) := fun _ =>
    ⟨.readermac h.nest, h.first, h.pending⟩
  have hclosing : ∀ c, Holding v₁ v₂ (AhungryJanet.closing p c) ∨
      (true = true ∧ Finished v₁ v₂ (AhungryJanet.closing p c)) := fun c =>
    (h.closing c).imp_right fun hf => ⟨rfl, hf⟩
  rw [AhungryJanet.root.eq_def]
  split
  case h_10 | h_11 | h_12 => exact hclosing _
  case h_13 | h_14 | h_15 => exact .inl (h.push _ _)
  case h_16 =>
    split
    case isTrue => exact .inl h
    case isFalse =>
      split
      case isTrue => exact .inl (h.congr rfl rfl rfl)
      case isFalse => exact .inl (hleaf _)
  all_goals first | exact .inl (hmac _) | exact .inl (hleaf _)

/-- **What one consumer does to the form.** -/
theorem Holding.consumer {v₁ v₂ : Value} {p : Parser} (h : Holding v₁ v₂ p) (c : UInt8) :
    Holding v₁ v₂ (consumer convert p c).2 ∨
      ((consumer convert p c).1 = true ∧ Finished v₁ v₂ (consumer convert p c).2) := by
  rw [AhungryJanet.consumer]
  split
  case h_1 => exact h.root c
  case h_2 s hs =>
    left
    split
    case h_1 argn _ =>
      rw [tokenchar]
      split
      case isTrue => exact h.congr rfl rfl rfl
      case isFalse =>
        split
        case h_1 => exact h.congr rfl rfl rfl
        case h_2 => exact h.popLeaf [] _
    case h_2 =>
      rw [comment]
      split <;> exact h.congr rfl rfl rfl
    case h_3 =>
      have hpop : Holding v₁ v₂ { p with leaf := none } := h.congr rfl rfl rfl
      rw [atsign.eq_def]
      split
      case h_2 | h_3 | h_6 => exact hpop.congr rfl rfl rfl
      all_goals exact hpop.push _ _
    case h_4 =>
      rw [stringchar]
      split_ifs
      case pos => exact h.congr rfl rfl rfl
      case pos => exact h.popLeaf [] _
      case pos => exact h.congr rfl rfl rfl
      case neg => exact h
    case h_5 =>
      rw [escape1]
      split
      case h_1 => exact h.congr rfl rfl rfl
      case h_2 => split_ifs <;> exact h.congr rfl rfl rfl
    case h_6 =>
      rw [escapeh]
      split
      case h_1 => exact h.congr rfl rfl rfl
      case h_2 =>
        simp only
        split <;> exact h.congr rfl rfl rfl
    case h_7 =>
      rw [escapeu]
      split
      case h_1 => exact h.congr rfl rfl rfl
      case h_2 =>
        simp only
        split_ifs <;> exact h.congr rfl rfl rfl
    case h_8 =>
      rw [longstring.eq_def]
      split
      case h_1 => split <;> exact h.congr rfl rfl rfl
      case h_2 =>
        split
        case isTrue => exact h.popLeaf [] _
        case isFalse => split <;> exact h.congr rfl rfl rfl
      case h_3 => split <;> exact h.congr rfl rfl rfl

theorem Holding.consumeLoop {v₁ v₂ : Value} {p : Parser} (h : Holding v₁ v₂ p) (c : UInt8) (n : ℕ) :
    Holding v₁ v₂ (consumeLoop convert n p c) ∨ Finished v₁ v₂ (consumeLoop convert n p c) := by
  induction n generalizing p with
  | zero => exact .inl h
  | succ n ih =>
    rw [AhungryJanet.consumeLoop]
    split
    case isTrue => exact .inl h
    case isFalse =>
      have hstep : Holding v₁ v₂ (AhungryJanet.consumer convert p c).2 ∨ _ := h.consumer c
      split
      case h_1 q hq =>
        rw [hq] at hstep
        exact hstep.imp_right And.right
      case h_2 q hq =>
        rw [hq] at hstep
        rcases hstep with hstep | ⟨hfalse, -⟩
        · exact ih hstep
        · cases hfalse

theorem Holding.consume {v₁ v₂ : Value} {p : Parser} (h : Holding v₁ v₂ p) (c : UInt8) :
    Holding v₁ v₂ (consume convert p c) ∨ Finished v₁ v₂ (consume convert p c) := by
  have hplace : Holding v₁ v₂ { p with place := p.place.advance p.lookback c } :=
    h.congr rfl rfl rfl
  rcases hplace.consumeLoop c 4 with hq | ⟨hargs, hpending⟩
  · exact .inl (hq.congr rfl rfl rfl)
  · exact .inr ⟨hargs, hpending⟩

theorem Finished.dobytes {v₁ v₂ : Value} {p : Parser} (h : Finished v₁ v₂ p) (bytes : Bytes) :
    ∃ more, (dobytes convert p bytes).1.head? = some (.tuple false (v₁ :: v₂ :: more)) := by
  obtain ⟨more, hargs⟩ := h.args
  exact ⟨more, by rw [dobytes_of_form convert h.pending hargs, List.head?_cons]⟩

theorem Holding.isSome_top {v₁ v₂ : Value} {p : Parser} (h : Holding v₁ v₂ p) : p.top.isSome := by
  rw [Parser.top]
  split
  case h_1 => rfl
  case h_2 =>
    obtain ⟨s, rest, hs⟩ := List.exists_cons_of_ne_nil h.nest.ne_nil
    rw [hs]
    rfl

/-- A form that is open at the end of the source is an error. -/
theorem Holding.eof {v₁ v₂ : Value} {p : Parser} (h : Holding v₁ v₂ p) :
    (eof convert p).error.isSome ∨ Finished v₁ v₂ (eof convert p) := by
  have hconsume : Holding v₁ v₂ (AhungryJanet.consume convert p 10) ∨ _ := h.consume 10
  rw [AhungryJanet.eof]
  rcases hconsume with hq | ⟨hargs, hpending⟩
  · left
    simp only [if_pos hq.isSome_top]
    rfl
  · right
    split <;> exact ⟨hargs, hpending⟩

/-- **A form that is being read keeps its first two arguments**, unless the reading fails. -/
theorem Holding.dobytes {v₁ v₂ : Value} {p : Parser} (h : Holding v₁ v₂ p) (bytes : Bytes) :
    (dobytes convert p bytes).2.isSome ∨
      ∃ more, (dobytes convert p bytes).1.head? = some (.tuple false (v₁ :: v₂ :: more)) := by
  induction bytes generalizing p with
  | nil =>
    cases he : p.error with
    | some e =>
      rw [dobytes_of_error convert h.pending he]
      exact .inl rfl
    | none =>
      rw [dobytes_nil convert ⟨h.pending, he⟩]
      rcases h.eof with herror | hq
      · exact .inl herror
      · obtain ⟨more, hargs⟩ := hq.args
        exact .inr ⟨more, by simp [hq.pending, produceAll, produce, hargs]⟩
  | cons c bytes ih =>
    cases he : p.error with
    | some e =>
      rw [dobytes_of_error convert h.pending he]
      exact .inl rfl
    | none =>
      rw [dobytes_cons convert ⟨h.pending, he⟩]
      rcases h.consume c with hq | hq
      · exact ih hq
      · exact .inr (hq.dobytes bytes)

end

end AhungryJanet
