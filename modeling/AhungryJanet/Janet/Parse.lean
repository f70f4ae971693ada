import AhungryJanet.Janet.Number

/-!
# The Janet reader

The incremental parser of `amalg/janet.c`: `janet_parser_consume`, `janet_parser_eof`,
`janet_parser_produce`, and the order in which `janet_dobytes` calls them.

## States

A parse state of the source has a consumer, flags, two counters and the place where it was pushed.
Every state below the last one has the consumer `root`, so the stack is kept as a list of
`RootState` and, on top, at most one `LeafState` with another consumer; flags and counters are
fields of the state that uses them. The state at the bottom is not in the list: its counter is
never read.

The stack of arguments is a list with the last one first.

## Not modelled

A struct or a table is the list of its entries as they are read: which of two equal keys wins, and
that `nil` keys are dropped, is left to `janet_struct_put`. The counters are not cut down to 32
bits.

## Main results

* `consumeLoop_add` — no byte is looked at more than four times
* `dobytes_cons`, `dobytes_of_form` — how the driver goes from byte to byte and from form to form
-/

namespace AhungryJanet

/-! ### Characters -/

/-- `is_whitespace`. -/
def isWhitespace (c : UInt8) : Bool :=
  c = 32 || c = 9 || c = 10 || c = 13 || c = 0 || c = 11 || c = 12

/-- `symchars`. -/
def symchars : List ℕ :=
  [0x00000000, 0xf7ffec72, 0xc7ffffff, 0x07fffffe, 0xffffffff, 0xffffffff, 0xffffffff, 0xffffffff]

/-- `janet_is_symbol_char`. -/
def isSymbolChar (c : UInt8) : Bool :=
  (symchars.getD (c.toNat / 32) 0).testBit (c.toNat % 32)

/-- A trailing byte of a code point. -/
def isTrailing (c : UInt8) : Bool := c >>> 6 = 2

/-- `janet_valid_utf8`. -/
def validUtf8 : Bytes → Bool
  | [] => true
  | c :: t =>
    if c < 0x80 then validUtf8 t
    else if c >>> 5 = 0x06 then
      match t with
      | d :: t => isTrailing d && 0xC2 ≤ c && validUtf8 t
      | _ => false
    else if c >>> 4 = 0x0E then
      match t with
      | d :: e :: t => isTrailing d && isTrailing e && (c ≠ 0xE0 || 0xA0 ≤ d) && validUtf8 t
      | _ => false
    else if c >>> 3 = 0x1E then
      match t with
      | d :: e :: f :: t =>
        isTrailing d && isTrailing e && isTrailing f && (c ≠ 0xF0 || 0x90 ≤ d) && validUtf8 t
      | _ => false
    else false

/-- `to_hex`. -/
def toHex (c : UInt8) : Option ℕ :=
  if 48 ≤ c ∧ c ≤ 57 then some (c.toNat - 48)
  else if 65 ≤ c ∧ c ≤ 70 then some (c.toNat - 55)
  else if 97 ≤ c ∧ c ≤ 102 then some (c.toNat - 87)
  else none

/-- `write_codepoint`. -/
def parserCodepoint (codepoint : ℕ) : Bytes :=
  if codepoint ≤ 0x7F then [UInt8.ofNat codepoint]
  else if codepoint ≤ 0x7FF then
    [UInt8.ofNat (0xC0 + codepoint / 64 % 32), UInt8.ofNat (0x80 + codepoint % 64)]
  else if codepoint ≤ 0xFFFF then
    [UInt8.ofNat (0xE0 + codepoint / 4096 % 16), UInt8.ofNat (0x80 + codepoint / 64 % 64),
      UInt8.ofNat (0x80 + codepoint % 64)]
  else
    [UInt8.ofNat (0xF0 + codepoint / 262144 % 8), UInt8.ofNat (0x80 + codepoint / 4096 % 64),
      UInt8.ofNat (0x80 + codepoint / 64 % 64), UInt8.ofNat (0x80 + codepoint % 64)]

/-! ### The parser -/

/-- `line` and `column`. -/
structure Place where
  line : ℕ
  column : ℕ

/-- The flags `PFLAG_PARENS`, `PFLAG_SQRBRACKETS` and `PFLAG_CURLYBRACKETS`. -/
inductive Delim where
  | parens
  | sqrbrackets
  | curlybrackets
  deriving DecidableEq

/-- A state with the consumer `root`, except the one at the bottom. -/
inductive RootState where
  /-- `PFLAG_CONTAINER`. -/
  | container (delim : Delim) (atsym : Bool) (argn : ℕ) (place : Place)
  /-- `PFLAG_READERMAC`. -/
  | readermac (c : UInt8) (place : Place)

/-- Where in a long string the parser is. -/
inductive LongPhase where
  /-- Neither flag: at its beginning. -/
  | opening
  /-- `PFLAG_INSTRING`. -/
  | instring
  /-- `PFLAG_END_CANDIDATE`. -/
  | candidate (counter : ℕ)

/-- The other consumers. `buffer` is `PFLAG_BUFFER`. -/
inductive Consumer where
  | tokenchar (argn : Bool)
  | comment
  | atsign
  | stringchar (buffer : Bool)
  | escape1 (buffer : Bool)
  | escapeh (buffer : Bool) (counter argn : ℕ)
  | escapeu (buffer : Bool) (counter argn : ℕ)
  | longstring (buffer : Bool) (phase : LongPhase) (argn : ℕ)

/-- A state with another consumer than `root`. -/
structure LeafState where
  consumer : Consumer
  place : Place

/-- `JanetParser`. -/
structure Parser where
  args : List Value
  leaf : Option LeafState
  states : List RootState
  buf : Bytes
  place : Place
  lookback : Option UInt8
  pending : ℕ
  error : Option Bytes
  dead : Bool

/-- `janet_parser_init`. -/
def Parser.init : Parser where
  args := []
  leaf := none
  states := []
  buf := []
  place := ⟨1, 0⟩
  lookback := none
  pending := 0
  error := none
  dead := false

/-- What a consumer returns: whether it consumed the byte. -/
abbrev Consumed := Bool × Parser

/-- `p->error = msg`. -/
def Parser.fail (p : Parser) (msg : String) : Parser := { p with error := some (ascii msg) }

/-- `push_buf`. -/
def Parser.pushBuf (p : Parser) (c : UInt8) : Parser := { p with buf := p.buf ++ [c] }

/-- `pushstate` for another consumer than `root`. -/
def Parser.pushLeaf (p : Parser) (consumer : Consumer) : Parser :=
  { p with leaf := some ⟨consumer, p.place⟩ }

/-- `pushstate (p, root, PFLAG_CONTAINER | ...)`. -/
def Parser.pushContainer (p : Parser) (delim : Delim) (atsym : Bool) : Parser :=
  { p with states := .container delim atsym 0 p.place :: p.states }

/-- `pushstate (p, root, PFLAG_READERMAC | c)`. -/
def Parser.pushReadermac (p : Parser) (c : UInt8) : Parser :=
  { p with states := .readermac c p.place :: p.states }

/-- The symbol a reader macro stands for. -/
def readermacName (c : UInt8) : Bytes :=
  if c = 39 then ascii "quote"
  else if c = 44 then ascii "unquote"
  else if c = 59 then ascii "splice"
  else if c = 124 then ascii "short-fn"
  else if c = 126 then ascii "quasiquote"
  else ascii "<unknown>"

/-- The loop of `popstate`, with the states below the one that has been popped. -/
def popLoop (p : Parser) (val : Value) : List RootState → Parser
  | [] => { p with states := [], args := .tuple false [val] :: p.args, pending := p.pending + 1 }
  | .container delim atsym argn place :: rest =>
    { p with states := .container delim atsym (argn + 1) place :: rest, args := val :: p.args }
  | .readermac c _ :: rest => popLoop p (.tuple false [.symbol (readermacName c), val]) rest

/-- `popstate` in a state with another consumer than `root`. -/
def popLeaf (p : Parser) (val : Value) : Parser := popLoop { p with leaf := none } val p.states

/-- What `delim_error` prints for the state it is called with. -/
inductive Opened where
  | root (s : RootState)
  | leaf (s : LeafState)

/-- `, ( opened at line 1, column 1`. -/
def Opened.text (s : Opened) : Bytes :=
  let (sign, place) : Bytes × Place :=
    match s with
    | .root (.container .parens _ _ place) => ([40], place)
    | .root (.container .sqrbrackets _ _ place) => ([91], place)
    | .root (.container .curlybrackets _ _ place) => ([123], place)
    | .root (.readermac _ place) => ([], place)
    | .leaf ⟨.stringchar _, place⟩ => ([34], place)
    | .leaf ⟨.escape1 _, place⟩ => ([34], place)
    | .leaf ⟨.escapeh _ _ _, place⟩ => ([34], place)
    | .leaf ⟨.escapeu _ _ _, place⟩ => ([34], place)
    | .leaf ⟨.longstring _ _ argn, place⟩ => (List.replicate argn 96, place)
    | .leaf ⟨_, place⟩ => ([], place)
  ascii ", " ++ sign ++ ascii s!" opened at line {place.line}, column {place.column}"

/-- The last state, if it is not the one at the bottom. -/
def Parser.top (p : Parser) : Option Opened :=
  match p.leaf with
  | some s => some (.leaf s)
  | none => p.states.head?.map .root

/-- `delim_error`, for the last state. -/
def delimError (p : Parser) (c : Option UInt8) (msg : String) : Parser :=
  { p with error := some (ascii msg ++ c.toList ++ (p.top.map Opened.text).getD []) }

/-! ### Strings and tokens -/

/-- Whether each line of a long string begins with `indentCol` spaces, as far as it goes. `j` counts
the columns of the current line that are still to be checked. -/
def canReindent (indentCol : ℕ) : (j : ℕ) → Bytes → Bool
  | _, [] => true
  | j, c :: r =>
    if c = 10 then canReindent indentCol indentCol r
    else
      match j with
      | 0 => canReindent indentCol 0 r
      | j + 1 => c = 32 && canReindent indentCol j r

/-- Leave out these columns. -/
def reindent (indentCol : ℕ) : (j : ℕ) → Bytes → Bytes
  | _, [] => []
  | j, c :: r =>
    if c = 10 then c :: reindent indentCol indentCol r
    else
      match j with
      | 0 => c :: reindent indentCol 0 r
      | j + 1 => reindent indentCol j r

/-- Drop a leading newline. -/
def dropLeading (b : Bytes) : Bytes := if b.head? = some 10 then b.tail else b

/-- Remove a trailing newline. -/
def dropTrailing (b : Bytes) : Bytes := if b.getLast? = some 10 then b.dropLast else b

/-- What `stringend` makes of the bytes of a long string. -/
def longstringValue (indentCol : ℕ) (buf : Bytes) : Bytes :=
  dropTrailing (dropLeading (if canReindent indentCol 0 buf then reindent indentCol 0 buf else buf))

/-- `stringend`. -/
def stringend (p : Parser) (buffer : Bool) (buf : Bytes) : Consumed :=
  (true, popLeaf { p with buf := [] } (if buffer then .buffer buf else .string buf))

/-- `checkescape`; `none` if there is no such escape, and 1 for those with digits. -/
def checkescape (c : UInt8) : Option UInt8 :=
  match c with
  | 120 | 117 | 85 => some 1
  | 110 => some 10
  | 116 => some 9
  | 114 => some 13
  | 48 => some 0
  | 122 => some 0
  | 102 => some 12
  | 118 => some 11
  | 97 => some 7
  | 98 => some 8
  | 39 => some 39
  | 63 => some 63
  | 101 => some 27
  | 34 => some 34
  | 92 => some 92
  | _ => none

/-- Another consumer for the last state. -/
def Parser.become (p : Parser) (s : LeafState) (consumer : Consumer) : Parser :=
  { p with leaf := some { s with consumer := consumer } }

/-- `escapeh`. -/
def escapeh (p : Parser) (s : LeafState) (buffer : Bool) (counter argn : ℕ) (c : UInt8) :
    Consumed :=
  match toHex c with
  | none => (true, p.fail "invalid hex digit in hex escape")
  | some digit =>
    let argn := argn * 16 + digit
    if counter - 1 = 0 then (true, (p.pushBuf (UInt8.ofNat argn)).become s (.stringchar buffer))
    else (true, p.become s (.escapeh buffer (counter - 1) argn))

/-- `escapeu`. -/
def escapeu (p : Parser) (s : LeafState) (buffer : Bool) (counter argn : ℕ) (c : UInt8) :
    Consumed :=
  match toHex c with
  | none => (true, p.fail "invalid hex digit in unicode escape")
  | some digit =>
    let argn := argn * 16 + digit
    if counter - 1 = 0 then
      if 0x10FFFF < argn then (true, p.fail "invalid unicode codepoint")
      else
        (true, { p.become s (.stringchar buffer) with buf := p.buf ++ parserCodepoint argn })
    else (true, p.become s (.escapeu buffer (counter - 1) argn))

/-- `escape1`. -/
def escape1 (p : Parser) (s : LeafState) (buffer : Bool) (c : UInt8) : Consumed :=
  match checkescape c with
  | none => (true, p.fail "invalid string escape sequence")
  | some e =>
    if c = 120 then (true, p.become s (.escapeh buffer 2 0))
    else if c = 117 ∨ c = 85 then (true, p.become s (.escapeu buffer (if c = 117 then 4 else 6) 0))
    else (true, (p.pushBuf e).become s (.stringchar buffer))

/-- `stringchar`. -/
def stringchar (p : Parser) (s : LeafState) (buffer : Bool) (c : UInt8) : Consumed :=
  if c = 92 then (true, p.become s (.escape1 buffer))
  else if c = 34 then stringend p buffer p.buf
  else if c ≠ 10 ∧ c ≠ 13 then (true, p.pushBuf c)
  else (true, p)

/-- `longstring`. -/
def longstring (p : Parser) (s : LeafState) (buffer : Bool) (phase : LongPhase) (argn : ℕ)
    (c : UInt8) : Consumed :=
  match phase with
  | .instring =>
    if c = 96 then (true, p.become s (.longstring buffer (.candidate 1) argn))
    else (true, p.pushBuf c)
  | .candidate counter =>
    if counter = argn then
      (false, (stringend p buffer (longstringValue (s.place.column - 1) p.buf)).2)
    else if c = 96 ∧ counter < argn then
      (true, p.become s (.longstring buffer (.candidate (counter + 1)) argn))
    else
      -- failed end candidate
      (true, { p.become s (.longstring buffer .instring argn) with
        buf := p.buf ++ (List.replicate counter 96 ++ [c]) })
  | .opening =>
    if c = 96 then (true, p.become s (.longstring buffer .opening (argn + 1)))
    else (true, (p.pushBuf c).become s (.longstring buffer .instring (argn + 1)))

section

variable (convert : (neg : Bool) → (mant base : ℕ) → (ex : ℤ) → UInt64)

/-- The value of a finished token, or the error it is. `argn` is set if it has a byte above 127. -/
def tokenValue (argn : Bool) (buf : Bytes) : Except String Value :=
  let c := buf.headD 0
  let startDig := 48 ≤ c ∧ c ≤ 57
  if c = 58 then
    if argn ∧ ¬ validUtf8 buf.tail then .error "invalid utf-8 in keyword"
    else .ok (.keyword buf.tail)
  else
    match if startDig ∨ c = 45 ∨ c = 43 ∨ c = 46 then scanNumber convert buf else none with
    | some numval => .ok (.number numval)
    | none =>
      if buf = ascii "nil" then .ok .nil
      else if buf = ascii "false" then .ok (.boolean false)
      else if buf = ascii "true" then .ok (.boolean true)
      else if startDig then .error "symbol literal cannot start with a digit"
      else if argn ∧ ¬ validUtf8 buf then .error "invalid utf-8 in symbol"
      else .ok (.symbol buf)

/-- `tokenchar`. -/
def tokenchar (p : Parser) (s : LeafState) (argn : Bool) (c : UInt8) : Consumed :=
  if isSymbolChar c then (true, (p.pushBuf c).become s (.tokenchar (argn || 127 < c)))
  else
    match tokenValue convert argn p.buf with
    | .error msg => (false, p.fail msg)
    | .ok ret => (false, popLeaf { p with buf := [] } ret)

/-- `comment`. -/
def comment (p : Parser) (c : UInt8) : Consumed :=
  if c = 10 then (true, { p with leaf := none, buf := [] }) else (true, p.pushBuf c)

/-- `atsign`. -/
def atsign (p : Parser) (c : UInt8) : Consumed :=
  let p := { p with leaf := none }
  match c with
  | 123 => (true, p.pushContainer .curlybrackets true)
  | 34 => (true, p.pushLeaf (.stringchar true))
  | 96 => (true, p.pushLeaf (.longstring true .opening 0))
  | 91 => (true, p.pushContainer .sqrbrackets true)
  | 40 => (true, p.pushContainer .parens true)
  | _ => (false, (p.pushLeaf (.tokenchar false)).pushBuf 64)

/-- Keys and values in turn. -/
def entries : List Value → List (Value × Value)
  | k :: v :: rest => (k, v) :: entries rest
  | _ => []

/-- The delimiter that a closing byte belongs to. -/
def closes (c : UInt8) : Option Delim :=
  if c = 41 then some .parens else if c = 93 then some .sqrbrackets
  else if c = 125 then some .curlybrackets else none

/-- `close_tuple`, `close_array`, `close_struct` and `close_table`. -/
def closeContainer (delim : Delim) (atsym : Bool) (items : List Value) : Value :=
  match delim, atsym with
  | .parens, true => .array items
  | .sqrbrackets, true => .array items
  | .parens, false => .tuple false items
  | .sqrbrackets, false => .tuple true items
  | .curlybrackets, true => .table (entries items)
  | .curlybrackets, false => .struct (entries items)

/-- `root` for a closing byte. -/
def closing (p : Parser) (c : UInt8) : Parser :=
  match p.states with
  | [] => delimError p (some c) "unexpected closing delimiter "
  | .container delim atsym argn _ :: rest =>
    if closes c = some delim then
      if delim = .curlybrackets ∧ argn % 2 = 1 then
        p.fail "struct and table literals expect even number of arguments"
      else
        popLoop { p with args := p.args.drop argn }
          (closeContainer delim atsym (p.args.take argn).reverse) rest
    else delimError p (some c) "mismatched delimiter "
  | .readermac _ _ :: _ => delimError p (some c) "mismatched delimiter "

/-- `root`. -/
def root (p : Parser) (c : UInt8) : Consumed :=
  match c with
  | 39 | 44 | 59 | 126 | 124 => (true, p.pushReadermac c)
  | 34 => (true, p.pushLeaf (.stringchar false))
  | 35 => (true, p.pushLeaf .comment)
  | 64 => (true, p.pushLeaf .atsign)
  | 96 => (true, p.pushLeaf (.longstring false .opening 0))
  | 41 | 93 | 125 => (true, closing p c)
  | 40 => (true, p.pushContainer .parens false)
  | 91 => (true, p.pushContainer .sqrbrackets false)
  | 123 => (true, p.pushContainer .curlybrackets false)
  | _ =>
    if isWhitespace c then (true, p)
    else if ¬ isSymbolChar c then (true, p.fail "unexpected character")
    else (false, p.pushLeaf (.tokenchar false))

/-- The consumer of the last state. -/
def consumer (p : Parser) (c : UInt8) : Consumed :=
  match p.leaf with
  | none => root p c
  | some s =>
    match s.consumer with
    | .tokenchar argn => tokenchar convert p s argn c
    | .comment => comment p c
    | .atsign => atsign p c
    | .stringchar buffer => stringchar p s buffer c
    | .escape1 buffer => escape1 p s buffer c
    | .escapeh buffer counter argn => escapeh p s buffer counter argn c
    | .escapeu buffer counter argn => escapeu p s buffer counter argn c
    | .longstring buffer phase argn => longstring p s buffer phase argn c

/-- `while (! consumed && ! parser->error)`. -/
def consumeLoop : (fuel : ℕ) → Parser → UInt8 → Parser
  | 0, p, _ => p
  | fuel + 1, p, c =>
    if p.error.isSome then p
    else
      match consumer convert p c with
      | (true, p) => p
      | (false, p) => consumeLoop fuel p c

/-- The place behind a byte. -/
def Place.advance (place : Place) (lookback : Option UInt8) (c : UInt8) : Place :=
  if c = 13 then ⟨place.line + 1, 0⟩
  else if c = 10 then ⟨if lookback = some 13 then place.line else place.line + 1, 0⟩
  else ⟨place.line, place.column + 1⟩

/-- `janet_parser_consume`. -/
def consume (p : Parser) (c : UInt8) : Parser :=
  { consumeLoop convert 4 { p with place := p.place.advance p.lookback c } c with
    lookback := some c }

/-- `janet_parser_eof`. -/
def eof (p : Parser) : Parser :=
  let q := consume convert p 10
  let q := if q.top.isSome then delimError q none "unexpected end of source" else q
  { q with place := p.place, dead := true }

/-- `janet_parser_produce`: the first argument, which is a root item in its tuple. -/
def produce (p : Parser) : Option (Value × Parser) :=
  match p.args.getLast? with
  | some (.tuple _ (ret :: _)) =>
    some (ret, { p with args := p.args.dropLast, pending := p.pending - 1 })
  | _ => none

/-- Produce what is pending. -/
def produceAll : (pending : ℕ) → Parser → List Value × Parser
  | 0, p => ([], p)
  | n + 1, p =>
    match produce p with
    | none => ([], p)
    | some (form, p) => ((form :: (produceAll n p).1), (produceAll n p).2)

/-- The forms `janet_dobytes` hands to the compiler, if each of them compiles and runs, and the
error that ends the reading. -/
def dobytes (p : Parser) (bytes : Bytes) : List Value × Option Bytes :=
  let forms := (produceAll p.pending p).1
  let p := (produceAll p.pending p).2
  match p.error with
  | some e => (forms, some e)
  | none =>
    match bytes with
    | [] =>
      let p := eof convert p
      (forms ++ (produceAll p.pending p).1, p.error)
    | c :: rest =>
      let more := dobytes (consume convert p c) rest
      (forms ++ more.1, more.2)

/-! ### The inner loop -/

/-- How many more consumers a byte can go through, at most. -/
def rank (p : Parser) (c : UInt8) : ℕ :=
  match p.leaf with
  | none => 1
  | some s =>
    match s.consumer with
    | .atsign => 3
    | .longstring _ _ _ => 2
    | .tokenchar _ => if isSymbolChar c then 0 else 2
    | _ => 0

@[simp] theorem popLoop_leaf (p : Parser) (val : Value) (rest : List RootState) :
    (popLoop p val rest).leaf = p.leaf := by
  induction rest generalizing val with
  | nil => rfl
  | cons s rest ih =>
    cases s with
    | container => rfl
    | readermac => exact ih _

theorem root_eq_false {p p' : Parser} {c : UInt8} (h : root p c = (false, p')) :
    isSymbolChar c ∧ p' = p.pushLeaf (.tokenchar false) := by
  rw [root.eq_def] at h
  split at h
  case h_16 =>
    split at h
    case isTrue => cases h
    case isFalse =>
      split at h
      case isTrue => cases h
      case isFalse hsymbol =>
        cases h
        exact ⟨by simpa using hsymbol, rfl⟩
  all_goals cases h

theorem tokenchar_eq_false {p p' : Parser} {s : LeafState} {argn : Bool} {c : UInt8}
    (h : tokenchar convert p s argn c = (false, p')) :
    ¬ isSymbolChar c ∧ (p'.error.isSome ∨ p'.leaf = none) := by
  rw [tokenchar] at h
  split at h
  case isTrue => cases h
  case isFalse hsymbol =>
    refine ⟨hsymbol, ?_⟩
    split at h
    case h_1 =>
      cases h
      exact .inl rfl
    case h_2 =>
      cases h
      exact .inr (popLoop_leaf _ _ _)

theorem atsign_eq_false {p p' : Parser} {c : UInt8} (h : atsign p c = (false, p')) :
    p' = (({ p with leaf := none } : Parser).pushLeaf (.tokenchar false)).pushBuf 64 := by
  rw [atsign.eq_def] at h
  split at h
  case h_6 =>
    cases h
    rfl
  all_goals cases h

theorem longstring_eq_false {p p' : Parser} {s : LeafState} {buffer : Bool} {phase : LongPhase}
    {argn : ℕ} {c : UInt8} (h : longstring p s buffer phase argn c = (false, p')) :
    p'.leaf = none := by
  rw [longstring.eq_def] at h
  split at h
  case h_1 => split at h <;> cases h
  case h_2 =>
    split at h
    case isTrue =>
      cases h
      exact popLoop_leaf _ _ _
    case isFalse => split at h <;> cases h
  case h_3 => split at h <;> cases h

/-- The other consumers always consume. -/
theorem consumer_eq_false {p p' : Parser} {c : UInt8} (h : consumer convert p c = (false, p')) :
    p.leaf = none ∨ ∃ s, p.leaf = some s ∧
      ((∃ argn, s.consumer = .tokenchar argn) ∨ s.consumer = .atsign ∨
        ∃ buffer phase argn, s.consumer = .longstring buffer phase argn) := by
  rw [consumer] at h
  split at h
  case h_1 hleaf => exact .inl hleaf
  case h_2 s hleaf =>
    refine .inr ⟨s, hleaf, ?_⟩
    split at h
    case h_1 argn hs => exact .inl ⟨argn, hs⟩
    case h_2 =>
      rw [comment] at h
      split at h <;> cases h
    case h_3 hs => exact .inr (.inl hs)
    case h_4 =>
      rw [stringchar] at h
      split_ifs at h <;> cases h
    case h_5 =>
      rw [escape1] at h
      split at h
      · cases h
      · split_ifs at h <;> cases h
    case h_6 =>
      rw [escapeh] at h
      split at h
      · cases h
      · simp only at h
        split_ifs at h <;> cases h
    case h_7 =>
      rw [escapeu] at h
      split at h
      · cases h
      · simp only at h
        split_ifs at h <;> cases h
    case h_8 buffer phase argn hs => exact .inr (.inr ⟨buffer, phase, argn, hs⟩)

/-- A consumer that does not consume the byte hands it to one of lower rank, or fails. -/
theorem rank_lt {p p' : Parser} {c : UInt8} (h : consumer convert p c = (false, p')) :
    p'.error.isSome ∨ rank p' c < rank p c := by
  rcases consumer_eq_false convert h with hleaf | ⟨s, hleaf, ⟨argn, hs⟩ | hs | ⟨b, phase, argn, hs⟩⟩
  · rw [consumer, hleaf] at h
    obtain ⟨hsymbol, rfl⟩ := root_eq_false h
    right
    simp [rank, hleaf, Parser.pushLeaf, hsymbol]
  · simp only [consumer, hleaf, hs] at h
    obtain ⟨hsymbol, herror | hnone⟩ := tokenchar_eq_false convert h
    · exact .inl herror
    · right
      simp [rank, hleaf, hs, hnone, hsymbol]
  · simp only [consumer, hleaf, hs] at h
    rw [atsign_eq_false h]
    right
    simp only [rank, hleaf, hs, Parser.pushLeaf, Parser.pushBuf]
    split <;> decide
  · simp only [consumer, hleaf, hs] at h
    right
    simp [rank, hleaf, hs, longstring_eq_false h]

theorem rank_lt_four (p : Parser) (c : UInt8) : rank p c < 4 := by
  rw [rank]
  split
  · decide
  · split
    · decide
    · decide
    · split <;> decide
    · decide

theorem consumeLoop_of_error {p : Parser} (h : p.error.isSome) (n : ℕ) (c : UInt8) :
    consumeLoop convert n p c = p := by
  cases n with
  | zero => rfl
  | succ n => rw [consumeLoop, if_pos h]

/-- **No byte is looked at more than four times.** -/
theorem consumeLoop_add (p : Parser) (c : UInt8) (n : ℕ) :
    consumeLoop convert (4 + n) p c = consumeLoop convert 4 p c := by
  have hrank : ∀ k p, rank p c < k →
      consumeLoop convert (k + n) p c = consumeLoop convert k p c := by
    intro k
    induction k with
    | zero => intro p h; exact absurd h (Nat.not_lt_zero _)
    | succ k ih =>
      intro p h
      rw [Nat.succ_add, consumeLoop, consumeLoop]
      split
      · rfl
      · split
        · rfl
        · next p' hp =>
          rcases rank_lt convert hp with herror | hlt
          · rw [consumeLoop_of_error convert herror, consumeLoop_of_error convert herror]
          · exact ih p' (by omega)
  exact hrank 4 p (rank_lt_four p c)

/-! ### Forms and bytes -/

/-- Nothing is to be produced, and nothing has failed. -/
structure Quiet (p : Parser) : Prop where
  pending : p.pending = 0
  error : p.error = none

/-- While nothing is finished, `janet_dobytes` goes on to the next byte. -/
theorem dobytes_cons {p : Parser} (h : Quiet p) (c : UInt8) (rest : Bytes) :
    dobytes convert p (c :: rest) = dobytes convert (consume convert p c) rest := by
  rw [dobytes]
  simp [h.pending, h.error, produceAll]

/-- The end of the source. -/
theorem dobytes_nil {p : Parser} (h : Quiet p) :
    dobytes convert p [] =
      ((produceAll (eof convert p).pending (eof convert p)).1, (eof convert p).error) := by
  rw [dobytes]
  simp [h.pending, h.error, produceAll]

/-- An error ends the reading. -/
theorem dobytes_of_error {p : Parser} (h : p.pending = 0) {e : Bytes} (he : p.error = some e)
    (bytes : Bytes) : dobytes convert p bytes = ([], some e) := by
  cases bytes <;> simp [dobytes, h, he, produceAll]

/-- A finished form is handed over first. -/
theorem dobytes_of_form {p : Parser} (h : p.pending = 1) {b : Bool} {form : Value}
    (hargs : p.args = [.tuple b [form]]) (bytes : Bytes) :
    dobytes convert p bytes =
      (form :: (dobytes convert { p with args := [], pending := 0 } bytes).1,
        (dobytes convert { p with args := [], pending := 0 } bytes).2) := by
  have hproduce : produceAll p.pending p = ([form], { p with args := [], pending := 0 }) := by
    simp [h, produceAll, produce, hargs]
  cases bytes with
  | nil =>
    rw [dobytes, dobytes, hproduce]
    cases p.error <;> simp [produceAll]
  | cons c rest =>
    rw [dobytes, dobytes, hproduce]
    cases p.error <;> simp [produceAll]

end

end AhungryJanet
