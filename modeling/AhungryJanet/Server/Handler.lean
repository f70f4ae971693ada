import AhungryJanet.Janet.Reading
import AhungryJanet.Library.Search

/-!
# Handing a request to its handler

`janet_universal_cb` of `puny-server-wrap.c` writes the request into Janet source, between two runs
of three backquotes, and has that source read, compiled and run.

## The request in the source

The reader takes all backquotes of the opening run for the delimiter, those at the beginning of the
request included; it ends the string at the first run of as many; and it drops a newline behind
the opening run. So a request stays what it is in three cases out of four.

## Main results

* `embed_eq_some_iff` — for which handlers the source fits in the block that is allocated for it
* `staysData_iff` — the source is an import and one call with the request as a string exactly when
  the request is `Harmless` and the source fits
-/

namespace AhungryJanet

open Search

/-- What `sprintf` prints. -/
def embedText (handler request : Bytes) : Bytes :=
  ascii "(import " ++ (cstr handler ++ (ascii " :as h) (h/main \n```" ++
    (cstr request ++ ascii "\n```)")))

/-- The source that `janet_universal_cb` makes: the text and a NUL, in a block of
`200 + strlen (request)` bytes. Nothing is said of what becomes of a text that does not fit. -/
def embed (handler request : Bytes) : Option Bytes :=
  let text := embedText handler request
  if text.length + 1 ≤ 200 + (cstr request).length then some text else none

/-- The request brings its own room with it; the name of the handler has 166 bytes. -/
theorem embed_eq_some_iff {handler request source : Bytes} :
    embed handler request = some source ↔
      (cstr handler).length ≤ 166 ∧ source = embedText handler request := by
  have hlen : (embedText handler request).length =
      33 + (cstr handler).length + (cstr request).length := by
    have hopen : (ascii "(import ").length = 8 := rfl
    have hcall : (ascii " :as h) (h/main \n```").length = 20 := rfl
    have hclose : (ascii "\n```)").length = 5 := rfl
    simp only [embedText, List.length_append, hopen, hcall, hclose]
    omega
  rw [embed, Option.ite_none_right_eq_some, hlen, Option.some.injEq]
  constructor
  · rintro ⟨hfits, rfl⟩
    exact ⟨by omega, rfl⟩
  · rintro ⟨hfits, rfl⟩
    exact ⟨by omega, rfl⟩

/-- `(import handler :as h)`. -/
def importForm (handler : Bytes) : Value :=
  .tuple false [.symbol (ascii "import"), .symbol handler, .keyword (ascii "as"),
    .symbol (ascii "h")]

/-- `(h/main request)`. -/
def callForm (request : Bytes) : Value :=
  .tuple false [.symbol (ascii "h/main"), .string request]

/-- A letter, a digit, or one of `-`, `.`, `/` and `_`. -/
def PathByte (c : UInt8) : Prop :=
  (48 ≤ c ∧ c ≤ 57) ∨ (65 ≤ c ∧ c ≤ 90) ∨ (97 ≤ c ∧ c ≤ 122) ∨ c ∈ ascii "-./_"

instance (c : UInt8) : Decidable (PathByte c) := inferInstanceAs (Decidable (_ ∨ _))

/-- A plain module path: it cannot be taken for a number, nor for a constant. -/
structure ModulePath (path : Bytes) : Prop where
  bytes : ∀ c ∈ path, PathByte c
  ne_nil : path ≠ []
  start : ∀ c, path.head? = some c → ¬ (48 ≤ c ∧ c ≤ 57) ∧ (c = 45 ∨ c = 46 → 47 ∈ path)
  constant : path ∉ [ascii "nil", ascii "true", ascii "false"]

/-- A request that the reader gives back: it does not begin with a backquote or a newline, and
there are no three backquotes in a row in it. -/
structure Harmless (request : Bytes) : Prop where
  tick : request.head? ≠ some 96
  newline : request.head? ≠ some 10
  run : ¬ ticks 3 <:+: request

theorem PathByte.tokenByte : ∀ c, PathByte c → TokenByte c :=
  forall_byte (by decide +kernel)

theorem ModulePath.nulFree {path : Bytes} (h : ModulePath path) : NulFree path := fun c hc => by
  rintro rfl
  exact absurd (h.bytes 0 hc) (by decide)

section

variable {convert : (neg : Bool) → (mant base : ℕ) → (ex : ℤ) → UInt64}

theorem ModulePath.isToken {path : Bytes} (h : ModulePath path) : IsToken path where
  ne_nil := h.ne_nil
  bytes c hc := (h.bytes c hc).tokenByte
  head hat := absurd (h.bytes 64 (List.mem_of_head? hat)) (by decide)

theorem ModulePath.tokenValue_eq {path : Bytes} (h : ModulePath path) :
    tokenValue convert false path = .ok (.symbol path) := by
  obtain ⟨c, t, hpath⟩ := List.exists_cons_of_ne_nil h.ne_nil
  have hc := h.bytes c (by simp [hpath])
  obtain ⟨hdigit, hslash⟩ := h.start c (by simp [hpath])
  have hconstant := h.constant
  simp only [List.mem_cons, List.not_mem_nil, or_false, not_or] at hconstant
  have hhead : path.headD 0 = c := by simp [hpath]
  have h58 : c ≠ 58 := by
    rintro rfl
    exact absurd hc (by decide)
  have h43 : c ≠ 43 := by
    rintro rfl
    exact absurd hc (by decide)
  have hscan : (if (48 ≤ c ∧ c ≤ 57) ∨ c = 45 ∨ c = 43 ∨ c = 46 then scanNumber convert path
      else none) = none := by
    split
    case isTrue hnum =>
      refine scanNumber_eq_none convert (hslash ?_)
      rcases hnum with hnum | hnum | hnum | hnum
      · exact absurd hnum hdigit
      · exact .inl hnum
      · exact absurd hnum h43
      · exact .inr hnum
    case isFalse => rfl
  simp only [tokenValue, hhead, if_neg h58, hscan, if_neg hconstant.1, if_neg hconstant.2.2,
    if_neg hconstant.2.1, if_neg hdigit]
  rfl

theorem between_init : Between [] [] .init :=
  ⟨rfl, rfl, rfl, rfl, rfl, rfl⟩

variable (convert) in
/-- The import. -/
theorem import_read {handler : Bytes} (h : ModulePath handler) :
    ∃ p, Between [] [] p ∧ ∀ rest,
      dobytes convert .init (ascii "(import " ++ (handler ++ (ascii " :as h)" ++ rest))) =
        (importForm handler :: (dobytes convert p rest).1, (dobytes convert p rest).2) := by
  obtain ⟨p₁, place, h₁, e₁⟩ := between_init.open convert
  obtain ⟨p₂, h₂, e₂⟩ := h₁.token convert (show IsToken (ascii "import") by decide) rfl
    (show isWhitespace 32 from rfl)
  obtain ⟨p₃, h₃, e₃⟩ := h₂.token convert h.isToken h.tokenValue_eq (show isWhitespace 32 from rfl)
  obtain ⟨p₄, h₄, e₄⟩ := h₃.token convert (show IsToken (ascii ":as") by decide) rfl
    (show isWhitespace 32 from rfl)
  obtain ⟨p₅, h₅, e₅⟩ := h₄.inToken convert (show IsToken (ascii "h") by decide)
  obtain ⟨p₆, h₆, e₆⟩ := h₅.finish convert rfl (show ¬ isSymbolChar 41 by decide)
  rw [h₆.consumeLoop_close] at e₆
  refine ⟨{ consume convert p₅ 41 with args := [], pending := 0 }, ?_, fun rest => ?_⟩
  · rw [e₆]
    exact ⟨rfl, rfl, h₆.leaf, h₆.buf, rfl, h₆.quiet.error⟩
  · have htext : ascii "(import " ++ (handler ++ (ascii " :as h)" ++ rest)) =
        [40] ++ (ascii "import" ++ [32]) ++ (handler ++ [32]) ++ (ascii ":as" ++ [32]) ++
          ascii "h" ++ 41 :: rest := by
      simp [ascii]
    have hpasses := (((e₁.trans e₂).trans e₃).trans e₄).trans e₅
    rw [htext, hpasses, dobytes_cons convert h₅.quiet]
    exact dobytes_of_form convert (by rw [e₆]) (by rw [e₆]; rfl) rest

variable (convert) in
/-- The beginning of the call, with the backquotes. -/
theorem call_read {p : Parser} (h : Between [] [] p) :
    ∃ q place, Opening [.symbol (ascii "h/main")] [.container .parens false 1 place] 2 q ∧
      Passes convert p (ascii " (h/main \n```") q := by
  obtain ⟨p₁, h₁, -, e₁⟩ := h.space convert (show isWhitespace 32 from rfl)
  obtain ⟨p₂, place, h₂, e₂⟩ := h₁.open convert
  obtain ⟨p₃, h₃, e₃⟩ := h₂.token convert (show IsToken (ascii "h/main") by decide) rfl
    (show isWhitespace 32 from rfl)
  obtain ⟨p₄, h₄, hcolumn, e₄⟩ := h₃.space convert (show isWhitespace 10 from rfl)
  have h₅ : Opening _ _ 0 (consume convert p₄ 96) := h₄.tick (hcolumn rfl)
  have h₆ : Opening _ _ 1 (consume convert _ 96) := h₅.tick
  have h₇ : Opening _ _ 2 (consume convert _ 96) := h₆.tick
  exact ⟨_, place, h₇, ((((((e₁.trans e₂).trans e₃).trans e₄).trans
    (h₄.quiet.passes 96)).trans (h₅.quiet.passes 96)).trans (h₆.quiet.passes 96))⟩

/-- The request and what `sprintf` puts behind it. -/
def requestText (request : Bytes) : Bytes := request ++ 10 :: (ticks 3 ++ [41])

variable (convert) in
/-- The source is an import, and a call that goes on with the request. -/
theorem dobytes_embed {handler request : Bytes} (h : ModulePath handler) (hr : NulFree request) :
    ∃ p place, Opening [.symbol (ascii "h/main")] [.container .parens false 1 place] 2 p ∧
      dobytes convert .init (embedText handler request) =
        (importForm handler :: (dobytes convert p (requestText request)).1,
          (dobytes convert p (requestText request)).2) := by
  obtain ⟨p, hp, himport⟩ := import_read convert h
  obtain ⟨q, place, hq, hcall⟩ := call_read convert hp
  refine ⟨q, place, hq, ?_⟩
  have hnul := h.nulFree
  have htext : embedText handler request = ascii "(import " ++ (handler ++ (ascii " :as h)" ++
      (ascii " (h/main \n```" ++ requestText request))) := by
    rw [embedText, cstr_of_nulFree hnul, cstr_of_nulFree hr]
    simp [ascii, requestText, ticks]
  rw [htext, himport, hcall]

/-! ### The request in the string -/

theorem dropTrailing_concat (b : Bytes) : dropTrailing (b ++ [10]) = b := by
  simp [dropTrailing]

theorem length_dropTrailing_le (b : Bytes) : (dropTrailing b).length ≤ b.length := by
  rw [dropTrailing]
  split <;> simp

theorem length_dropLeading_le (b : Bytes) : (dropLeading b).length ≤ b.length := by
  rw [dropLeading]
  split <;> simp

/-- The request comes back unless a newline at its beginning is dropped. -/
theorem literal_eq_iff (request : Bytes) :
    dropTrailing (dropLeading (request ++ [10])) = request ↔ request.head? ≠ some 10 := by
  cases request with
  | nil => simp [dropLeading, dropTrailing]
  | cons c t =>
    by_cases hc : c = 10
    · subst hc
      simp [dropLeading, dropTrailing_concat]
    · have hhead : (c :: t ++ [10]).head? ≠ some 10 := by simpa using hc
      rw [dropLeading, if_neg hhead, dropTrailing_concat]
      simpa using hc

theorem not_mem_ticks (n : ℕ) : 10 ∉ ticks n := fun h => by
  cases (List.mem_replicate.mp h).2

theorem ticks_ne_nil (n : ℕ) : ticks (3 + n) ≠ [] := by
  rw [Nat.add_comm]
  simp [ticks]

/-- Where the string ends: inside the request, or with the template. -/
theorem requestText_cut {k : ℕ} {request u v : Bytes}
    (h : CutAt (ticks (3 + k)) (requestText request) u v) :
    (∃ v', CutAt (ticks (3 + k)) request u v') ∨
      (k = 0 ∧ ¬ ticks 3 <:+: request ∧ u = request ++ [10] ∧ v = [41]) := by
  rcases h.of_append_cons (not_mem_ticks _) (ticks_ne_nil k) with hin | ⟨hno, u', rfl, hcut⟩
  · exact .inl hin
  · right
    have hcount := hcut.isInfix.sublist.count_le 96
    have hk : k = 0 := by
      simp only [ticks, List.count_append, List.count_replicate_self] at hcount
      have h41 : List.count (96 : UInt8) [41] = 0 := by decide
      omega
    subst hk
    obtain ⟨rfl, rfl⟩ := hcut.unique (cutAt_self_append (ticks 3) [41])
    exact ⟨rfl, hno, by simp, rfl⟩

/-- The closing run of the template is the first one, if there is none in the request. -/
theorem cutAt_requestText {request : Bytes} (h : ¬ ticks 3 <:+: request) :
    CutAt (ticks 3) (requestText request) (request ++ [10]) [41] := by
  rcases not_isInfix_or_exists_cutAt (ticks 3) (requestText request) (ticks_ne_nil 0) with
    hno | ⟨u, v, hcut⟩
  · exact absurd ⟨request ++ [10], [41], by simp [requestText]⟩ hno
  · rcases requestText_cut (k := 0) hcut with ⟨v', hin⟩ | ⟨-, -, rfl, rfl⟩
    · exact absurd hin.isInfix h
    · exact hcut

/-- What follows the string: the form keeps it, whatever comes. -/
theorem Between.holding {lit : Bytes} {place : Place} {p : Parser}
    (h : Between [.string lit, .symbol (ascii "h/main")] [.container .parens false 2 place] p) :
    Holding (.symbol (ascii "h/main")) (.string lit) p where
  nest := by
    rw [h.states, h.args]
    exact .form (le_refl 2)
  first := by rw [h.args]
  pending := h.quiet.pending

/-- The request with its first backquotes in the opening run. -/
theorem exists_ticks (request : Bytes) :
    ∃ k r, request = ticks k ++ r ∧ r.head? ≠ some 96 := by
  induction request with
  | nil => exact ⟨0, [], rfl, by simp⟩
  | cons c t ih =>
    by_cases hc : c = 96
    · obtain ⟨k, r, rfl, hr⟩ := ih
      refine ⟨k + 1, r, ?_, hr⟩
      rw [hc, ticks, ticks, List.replicate_succ, List.cons_append]
    · exact ⟨0, c :: t, rfl, by simpa using hc⟩

/-- **How the call is read**: with an error, or as a form whose second element is the text up to
the first run that is as long as the opening one, without its newlines. -/
theorem requestText_read {p : Parser} {place : Place}
    (h : Opening [.symbol (ascii "h/main")] [.container .parens false 1 place] 2 p) {k : ℕ}
    {r : Bytes} (hr : r.head? ≠ some 96) :
    (dobytes convert p (requestText (ticks k ++ r))).2.isSome ∨
      ∃ u v more, CutAt (ticks (3 + k)) (requestText r) u v ∧
        (dobytes convert p (requestText (ticks k ++ r))).1.head? =
          some (.tuple false (.symbol (ascii "h/main") ::
            .string (dropTrailing (dropLeading u)) :: more)) := by
  obtain ⟨q, hq, hticks⟩ := h.ticks convert k
  have htext : requestText (ticks k ++ r) = ticks k ++ requestText r := by
    simp [requestText]
  obtain ⟨c, t, hct, hc⟩ : ∃ c t, requestText r = c :: t ∧ c ≠ 96 := by
    cases r with
    | nil => exact ⟨10, _, rfl, by decide⟩
    | cons c r => exact ⟨c, _, rfl, by simpa using hr⟩
  have hsum : 2 + k + 1 = 3 + k := by omega
  rw [htext, hticks]
  rcases not_isInfix_or_exists_cutAt (ticks (3 + k)) (requestText r) (ticks_ne_nil k) with
    hno | ⟨u, v, hcut⟩
  · left
    rw [← hsum, hct] at hno
    obtain ⟨s, hs, hpasses⟩ := hq.unclosed convert hc hno
    have hend := hpasses []
    rw [List.append_nil, ← hct] at hend
    rw [hend]
    exact hs.dobytes_nil (trailing_lt fun hsuffix => hno hsuffix.isInfix)
  · obtain ⟨s, hs, hpasses⟩ := hq.closed convert hc (hct ▸ hsum ▸ hcut)
    obtain ⟨htrailing, hstem⟩ := trailing_append_ticks (getLast?_of_cutAt hcut) (2 + k + 1)
    -- the source ends with a parenthesis, so a byte follows the closing run
    have hv : v ≠ [] := by
      rintro rfl
      have hlast := congrArg List.getLast? hcut.eq
      simp [requestText, ticks, List.getLast?_append, List.getLast?_replicate] at hlast
    obtain ⟨d, v, rfl⟩ := List.exists_cons_of_ne_nil hv
    obtain ⟨b, hb, hconsume⟩ := hs.finish convert htrailing (by omega) d
    rw [hstem] at hb
    have hdobytes : dobytes convert q (requestText r) =
        dobytes convert { consumeLoop convert 3 b d with lookback := some d } v := by
      rw [hcut.eq, ← List.append_assoc, ← hsum, hpasses, dobytes_cons convert hs.quiet, hconsume]
    rw [hdobytes]
    have hstep : Holding _ _ (consumeLoop convert 3 b d) ∨ _ := hb.holding.consumeLoop d 3
    rcases hstep with hq | ⟨hargs, hpending⟩
    · have hq' : Holding _ _ { consumeLoop convert 3 b d with lookback := some d } :=
        hq.congr rfl rfl rfl
      have hrest :
          (dobytes convert { consumeLoop convert 3 b d with lookback := some d } v).2.isSome ∨ _ :=
        hq'.dobytes v
      rcases hrest with herror | ⟨more, hmore⟩
      · exact .inl herror
      · exact .inr ⟨u, _, more, hcut, hmore⟩
    · have hq' : Finished _ _ { consumeLoop convert 3 b d with lookback := some d } :=
        ⟨hargs, hpending⟩
      obtain ⟨more, hmore⟩ : ∃ more, (dobytes convert
        { consumeLoop convert 3 b d with lookback := some d } v).1.head? = some _ := hq'.dobytes v
      exact .inr ⟨u, _, more, hcut, hmore⟩

theorem Between.dobytes_nil {p : Parser} (h : Between [] [] p) :
    dobytes convert p [] = ([], none) := by
  have hplace : Between [] [] { p with place := p.place.advance p.lookback 10 } :=
    ⟨h.args, h.states, h.leaf, h.buf, h.quiet.pending, h.quiet.error⟩
  have hconsume : consume convert p 10 =
      { p with place := p.place.advance p.lookback 10, lookback := some 10 } := by
    rw [consume, hplace.consumeLoop_space (show isWhitespace 10 from rfl)]
  rw [AhungryJanet.dobytes_nil convert h.quiet, eof, hconsume]
  simp [Parser.top, h.leaf, h.states, h.quiet.pending, h.quiet.error, produceAll]

/-- A harmless request is read to its end, and the call is complete. -/
theorem requestText_harmless {p : Parser} {place : Place}
    (h : Opening [.symbol (ascii "h/main")] [.container .parens false 1 place] 2 p)
    {request : Bytes} (hr : Harmless request) :
    dobytes convert p (requestText request) = ([callForm request], none) := by
  obtain ⟨c, t, hct, hc⟩ : ∃ c t, requestText request = c :: t ∧ c ≠ 96 := by
    cases request with
    | nil => exact ⟨10, _, rfl, by decide⟩
    | cons c r => exact ⟨c, _, rfl, by simpa using hr.tick⟩
  have hcut := cutAt_requestText hr.run
  obtain ⟨s, hs, hpasses⟩ := h.closed convert hc (hct ▸ hcut)
  obtain ⟨htrailing, hstem⟩ := trailing_append_ticks (getLast?_of_cutAt hcut) 3
  obtain ⟨b, hb, hconsume⟩ := hs.finish convert htrailing (by decide) 41
  rw [hstem, (literal_eq_iff request).mpr hr.newline] at hb
  rw [hb.consumeLoop_close] at hconsume
  have hend : Between [] [] { consume convert s 41 with args := [], pending := 0 } := by
    rw [hconsume]
    exact ⟨rfl, rfl, hb.leaf, hb.buf, rfl, hb.quiet.error⟩
  rw [hcut.eq, ← List.append_assoc, hpasses, dobytes_cons convert hs.quiet,
    dobytes_of_form convert (by rw [hconsume]) (by rw [hconsume]), hend.dobytes_nil]
  rfl

variable (convert) in
/-- A harmless request: the import, and the call with the request. -/
theorem dobytes_harmless {handler request : Bytes} (h : ModulePath handler) (hr : NulFree request)
    (hh : Harmless request) :
    dobytes convert .init (embedText handler request) =
      ([importForm handler, callForm request], none) := by
  obtain ⟨p, place, hp, hembed⟩ := dobytes_embed convert h hr
  rw [hembed, requestText_harmless hp hh]

end

/-! ### Main result -/

/-- The source is read as two forms, the import and a call of `h/main` with the request as a
string. -/
def StaysData (convert : (neg : Bool) → (mant base : ℕ) → (ex : ℤ) → UInt64)
    (handler request : Bytes) : Prop :=
  ∃ source, embed handler request = some source ∧
    dobytes convert .init source = ([importForm handler, callForm request], none)

theorem staysData_iff_dobytes {convert : (neg : Bool) → (mant base : ℕ) → (ex : ℤ) → UInt64}
    {handler request : Bytes} (h : ModulePath handler) :
    StaysData convert handler request ↔
      dobytes convert .init (embedText handler request) =
        ([importForm handler, callForm request], none) ∧ handler.length ≤ 166 := by
  simp only [StaysData, embed_eq_some_iff, cstr_of_nulFree h.nulFree]
  constructor
  · rintro ⟨source, ⟨hlen, rfl⟩, hread⟩
    exact ⟨hread, hlen⟩
  · rintro ⟨hread, hlen⟩
    exact ⟨_, ⟨hlen, rfl⟩, hread⟩

/-- **A request stays data exactly when it is harmless**, and the source fits in its block. -/
theorem staysData_iff (convert : (neg : Bool) → (mant base : ℕ) → (ex : ℤ) → UInt64)
    {handler request : Bytes} (h : ModulePath handler) (hr : NulFree request) :
    StaysData convert handler request ↔ Harmless request ∧ handler.length ≤ 166 := by
  obtain ⟨p, place, hp, hembed⟩ := dobytes_embed convert h hr
  rw [staysData_iff_dobytes h, hembed]
  refine and_congr_left' ?_
  constructor
  · intro heq
    obtain ⟨hforms, herror⟩ := Prod.mk.inj heq
    have hforms := (List.cons.inj hforms).2
    obtain ⟨k, r, rfl, htick⟩ := exists_ticks request
    rcases requestText_read hp htick with hsome | ⟨u, v, more, hcut, hmore⟩
    · rw [herror] at hsome
      cases hsome
    · rw [hforms, List.head?_cons, callForm] at hmore
      have hlit : ticks k ++ r = dropTrailing (dropLeading u) := by
        simp only [Option.some.injEq, Value.tuple.injEq, List.cons.injEq,
          Value.string.injEq] at hmore
        exact hmore.2.2.1
      rcases requestText_cut hcut with ⟨v', hin⟩ | ⟨rfl, hno, rfl, -⟩
      · -- the string ends inside the request, so it is shorter
        have hlen := congrArg List.length hlit
        have hin := congrArg List.length hin.eq
        have htrail := length_dropTrailing_le (dropLeading u)
        have hlead := length_dropLeading_le u
        simp only [List.length_append, ticks, List.length_replicate] at hlen hin
        omega
      · rw [ticks, List.replicate_zero, List.nil_append] at hlit ⊢
        exact ⟨htick, (literal_eq_iff r).mp hlit.symm, hno⟩
  · intro hharmless
    rw [requestText_harmless hp hharmless]

/-- A request as browsers make it. -/
def getRoot : Bytes := ascii "GET / HTTP/1.1\r\nHost: a\r\n\r\n"

theorem modulePath_handler : ModulePath (ascii "./examples/webserver-handler") where
  bytes := by decide
  ne_nil := by decide
  start c hc := by
    cases hc
    decide
  constant := by decide

theorem staysData_getRoot :
    StaysData (fun _ _ _ _ => 0) (ascii "./examples/webserver-handler") getRoot :=
  (staysData_iff _ modulePath_handler (by decide)).mpr
    ⟨⟨by decide, by decide, by decide⟩, by decide⟩

/-- The length of a second form. -/
def argumentCount (forms : List Value) : ℕ :=
  match forms with
  | [_, .tuple _ items] => items.length
  | _ => 0

/-- Three backquotes in the url end the string, and what follows is code. -/
theorem not_staysData_ticks :
    ¬ StaysData (fun _ _ _ _ => 0) (ascii "./examples/webserver-handler")
      (ascii "GET /```(os/exit)``` HTTP/1.1\r\n\r\n") := by
  intro h
  have hread := ((staysData_iff_dobytes modulePath_handler).mp h).1
  have hcount := congrArg (fun x => argumentCount x.1) hread
  have hfour : argumentCount (dobytes (fun _ _ _ _ => 0) .init
      (embedText (ascii "./examples/webserver-handler")
        (ascii "GET /```(os/exit)``` HTTP/1.1\r\n\r\n"))).1 = 4 := by decide +kernel
  rw [hfour] at hcount
  cases hcount

end AhungryJanet
