import AhungryJanet.Janet.Parse

/-!
# The evaluation loop

`janet_dobytes` and `janet_dostring` with what they do to the forms they read. `Parse` has the order
in which the parser is called, for forms that compile and run; here a form may also fail to compile,
or its fiber may stop with a signal, and the loop ends there.

What a form does when it is compiled and run is a parameter, `evaluate`: all that matters is which
of the ways out of the loop it takes, and the value it leaves in `ret` on the way.

## Main results

* `Ready.consume` — a byte finishes one form at most, so a failure is never followed by another form
* `janetDobytes_eq` — the loop reads forms as `dobytes` says, and runs them one after another up to
  the first failure
* `ret_janetDobytes` — `ret` is what the last thing that happened left there, whatever it was
-/

namespace AhungryJanet

/-- How the evaluation of a form ends. -/
inductive Evaluated where
  /-- `cres.status` is not `JANET_COMPILE_OK`; the message is `cres.error`. -/
  | uncompiled (error : Bytes)
  /-- `JANET_SIGNAL_OK`. -/
  | returned (ret : Value)
  /-- `JANET_SIGNAL_EVENT`: the fiber waits for the event loop, where it returns `later`, if it
  returns. -/
  | suspended (ret : Value) (later : Option Value)
  /-- Any other signal: something was raised, or yielded to nobody. -/
  | signalled (ret : Value)

/-- The variables of `janet_dobytes`. -/
structure Progress (σ : Type) where
  env : σ
  ret : Value
  errflags : ℕ
  done : Bool

section

variable {σ : Type}

/-- A form has been evaluated. -/
def Progress.evaluated (s : Progress σ) (env : σ) (how : Evaluated) : Progress σ :=
  match how with
  | .uncompiled error => { env, ret := .string error, errflags := s.errflags ||| 2, done := true }
  | .returned ret => { s with env, ret }
  | .suspended ret _ => { s with env, ret }
  | .signalled ret => { env, ret, errflags := s.errflags ||| 1, done := true }

/-- A parse error. -/
def Progress.unread (s : Progress σ) (error : Bytes) : Progress σ :=
  { s with ret := .string error, errflags := s.errflags ||| 4, done := true }

variable (evaluate : σ → Value → σ × Evaluated)

/-- Compile and run one form. -/
def evalForm (s : Progress σ) (form : Value) : Progress σ :=
  let r := evaluate s.env form
  s.evaluated r.1 r.2

/-- `while (janet_parser_has_more (&parser))`. -/
def evalPending (p : Parser) (s : Progress σ) : Progress σ :=
  (produceAll p.pending p).1.foldl (evalForm evaluate) s

/-- `switch (janet_parser_status (&parser))`, up to the branch that goes on reading. -/
def parseState (p : Parser) (s : Progress σ) : Progress σ :=
  match p.error with
  | some e => s.unread e
  | none => if p.dead then { s with done := true } else s

/-- The body of the outer loop, up to the branch that goes on reading. -/
def settle (p : Parser) (s : Progress σ) : Progress σ :=
  let s := evalPending evaluate p s
  if s.done then s else parseState (produceAll p.pending p).2 s

variable (convert : (neg : Bool) → (mant base : ℕ) → (ex : ℤ) → UInt64)

/-- `while (! done)`. -/
def dobytesLoop (p : Parser) (bytes : Bytes) (s : Progress σ) : Progress σ :=
  let s := settle evaluate p s
  if s.done then s
  else
    match bytes with
    -- one more round, and it is the last: the parser is dead
    | [] => settle evaluate (eof convert (produceAll p.pending p).2) s
    | c :: rest => dobytesLoop (consume convert (produceAll p.pending p).2 c) rest s

/-- `janet_dobytes`. -/
def janetDobytes (env : σ) (bytes : Bytes) : Progress σ :=
  dobytesLoop evaluate convert .init bytes
    { env, ret := .nil, errflags := 0, done := false }

/-- `janet_dostring`. -/
def janetDostring (env : σ) (str : Bytes) : Progress σ :=
  janetDobytes evaluate convert env (cstr str)

end

/-! ### One form at a time -/

/-- The arguments the states have collected. -/
def argCount : List RootState → ℕ
  | [] => 0
  | .container _ _ argn _ :: rest => argn + argCount rest
  | .readermac _ _ :: rest => argCount rest

/-- The parser between two bytes: every argument belongs to a state, and if a form is finished, it
is the only argument. -/
structure Ready (p : Parser) : Prop where
  args : p.args.length = p.pending + argCount p.states
  dead : p.dead = false
  pending : p.pending = 0 ∨ (p.pending = 1 ∧ ∃ v, p.args = [.tuple false [v]])

/-- The parser while a byte is looked at: behind a finished form there may be the beginning of a
token. -/
structure Reading (c : UInt8) (p : Parser) : Prop extends Ready p where
  finished : p.pending = 1 → p.states = [] ∧ (p.leaf = none ∨
    (isSymbolChar c ∧ ∃ s argn, p.leaf = some s ∧ s.consumer = .tokenchar argn))

theorem ready_init : Ready .init := ⟨rfl, rfl, .inl rfl⟩

/-- What `Ready` is about. -/
theorem Ready.congr {p q : Parser} (h : Ready p) (hargs : q.args = p.args)
    (hpending : q.pending = p.pending) (hstates : argCount q.states = argCount p.states)
    (hdead : q.dead = p.dead) : Ready q where
  args := by rw [hargs, hpending, hstates, h.args]
  dead := hdead.trans h.dead
  pending := by rw [hargs, hpending]; exact h.pending

/-- A value that goes to a container, or is a finished form. -/
theorem reading_popLoop {p : Parser} {val : Value} {states : List RootState} (c : UInt8)
    (hargs : p.args.length = argCount states) (hdead : p.dead = false) (hpending : p.pending = 0)
    (hleaf : p.leaf = none) : Reading c (popLoop p val states) := by
  induction states generalizing val with
  | nil =>
    have hnil : p.args = [] := List.eq_nil_of_length_eq_zero hargs
    exact ⟨⟨by simp [popLoop, hnil, hpending, argCount], hdead,
      .inr ⟨by simp [popLoop, hpending], val, by simp [popLoop, hnil]⟩⟩, fun _ => ⟨rfl, .inl hleaf⟩⟩
  | cons s rest ih =>
    cases s with
    | container delim atsym argn place =>
      refine ⟨⟨?_, hdead, .inl hpending⟩, fun hone => ?_⟩
      · rw [argCount] at hargs
        simp only [popLoop, List.length_cons, hargs, hpending, argCount]
        omega
      · rw [popLoop, hpending] at hone
        cases hone
    | readermac c place => exact ih hargs

theorem Ready.popLeaf {p : Parser} (h : Ready p) (h0 : p.pending = 0) (c : UInt8) (val : Value) :
    Reading c (popLeaf p val) :=
  reading_popLoop c (by rw [h.args, h0, Nat.zero_add]) h.dead h0 rfl

/-- An error changes nothing else. -/
theorem Ready.delimError {p : Parser} (h : Ready p) (c : Option UInt8) (msg : String) :
    Ready (delimError p c msg) :=
  h.congr rfl rfl rfl rfl

theorem Reading.closing {p : Parser} {c : UInt8} (h : Reading c p) (hleaf : p.leaf = none) :
    Ready (closing p c) := by
  rw [closing.eq_def]
  split
  case h_1 => exact h.toReady.delimError _ _
  case h_2 delim atsym argn place rest hstates =>
    -- behind a finished form there is no container
    have h0 : p.pending = 0 := by
      rcases h.pending with h0 | ⟨h1, -⟩
      · exact h0
      · have hnil := (h.finished h1).1
        rw [hstates] at hnil
        cases hnil
    have hargs := h.args
    rw [h0, hstates, argCount] at hargs
    split
    · split
      · exact h.toReady.congr rfl rfl rfl rfl
      · refine (reading_popLoop (p := { p with args := p.args.drop argn }) c ?_ h.dead h0
          hleaf).toReady
        rw [List.length_drop, hargs]
        omega
    · exact h.toReady.delimError _ _
  case h_3 => exact h.toReady.delimError _ _

theorem Reading.root {p : Parser} {c : UInt8} (h : Reading c p) (hleaf : p.leaf = none) :
    Ready (root p c).2 := by
  rw [root.eq_def]
  split
  case h_16 =>
    split
    · exact h.toReady
    · split
      · exact h.toReady.congr rfl rfl rfl rfl
      · exact h.toReady.congr rfl rfl rfl rfl
  all_goals first
    | exact h.closing hleaf
    | exact h.toReady.congr rfl rfl rfl rfl
    | exact h.toReady.congr rfl rfl (by simp [Parser.pushContainer, argCount]) rfl

theorem Reading.of_pending {p : Parser} (h : Ready p) (h0 : p.pending = 0) (c : UInt8) :
    Reading c p :=
  ⟨h, fun h1 => by rw [h0] at h1; cases h1⟩

/-- In the middle of anything but a token, no form is finished. -/
theorem Reading.pending_eq_zero {p : Parser} {c : UInt8} (h : Reading c p) {s : LeafState}
    (hleaf : p.leaf = some s) (hs : isSymbolChar c → ∀ argn, s.consumer ≠ .tokenchar argn) :
    p.pending = 0 := by
  rcases h.pending with h0 | ⟨h1, -⟩
  · exact h0
  · rcases (h.finished h1).2 with hnone | ⟨hc, t, argn, ht, htoken⟩
    · rw [hleaf] at hnone
      cases hnone
    · rw [hleaf] at ht
      cases ht
      exact absurd htoken (hs hc argn)

theorem Ready.stringend {p : Parser} (h : Ready p) (h0 : p.pending = 0) (c : UInt8) (buffer : Bool)
    (buf : Bytes) : Reading c (stringend p buffer buf).2 := by
  have hbuf : Ready { p with buf := [] } := h.congr rfl rfl rfl rfl
  exact hbuf.popLeaf h0 c _

/-- What a consumer leaves behind: a byte it has not taken is looked at again. -/
def Leaves (c : UInt8) (r : Consumed) : Prop := Ready r.2 ∧ (r.1 = false → Reading c r.2)

theorem Reading.leaves {c : UInt8} {r : Consumed} (h : Reading c r.2) : Leaves c r :=
  ⟨h.toReady, fun _ => h⟩

/-- The byte is taken, and no argument. -/
theorem Ready.taken {p q : Parser} (h : Ready p) (c : UInt8) (hargs : q.args = p.args)
    (hpending : q.pending = p.pending) (hstates : argCount q.states = argCount p.states)
    (hdead : q.dead = p.dead) : Leaves c (true, q) :=
  ⟨h.congr hargs hpending hstates hdead, fun htrue => by cases htrue⟩

theorem Ready.comment {p : Parser} (h : Ready p) (c : UInt8) : Leaves c (comment p c) := by
  rw [AhungryJanet.comment]
  split
  · exact h.taken c rfl rfl rfl rfl
  · exact h.taken c rfl rfl rfl rfl

theorem Ready.atsign {p : Parser} (h : Ready p) (h0 : p.pending = 0) (c : UInt8) :
    Leaves c (atsign p c) := by
  rw [AhungryJanet.atsign.eq_def]
  split
  case h_6 =>
    -- the byte begins a token
    have hpush :
        Ready ((({ p with leaf := none } : Parser).pushLeaf (.tokenchar false)).pushBuf 64) :=
      h.congr rfl rfl rfl rfl
    exact ⟨hpush, fun _ => .of_pending hpush h0 _⟩
  all_goals first
    | exact h.taken _ rfl rfl rfl rfl
    | exact h.taken _ rfl rfl (by simp [Parser.pushContainer, argCount]) rfl

section

variable {p : Parser} (s : LeafState) (buffer : Bool)

theorem Ready.stringchar (h : Ready p) (h0 : p.pending = 0) (c : UInt8) :
    Leaves c (stringchar p s buffer c) := by
  rw [AhungryJanet.stringchar]
  split
  · exact h.taken c rfl rfl rfl rfl
  · split
    · exact (h.stringend h0 c buffer p.buf).leaves
    · split
      · exact h.taken c rfl rfl rfl rfl
      · exact h.taken c rfl rfl rfl rfl

theorem Ready.escape1 (h : Ready p) (c : UInt8) : Leaves c (escape1 p s buffer c) := by
  rw [AhungryJanet.escape1]
  split
  · exact h.taken c rfl rfl rfl rfl
  · split
    · exact h.taken c rfl rfl rfl rfl
    · split
      · exact h.taken c rfl rfl rfl rfl
      · exact h.taken c rfl rfl rfl rfl

theorem Ready.escapeh (h : Ready p) (counter argn : ℕ) (c : UInt8) :
    Leaves c (escapeh p s buffer counter argn c) := by
  rw [AhungryJanet.escapeh]
  split
  · exact h.taken c rfl rfl rfl rfl
  · simp only
    split
    · exact h.taken c rfl rfl rfl rfl
    · exact h.taken c rfl rfl rfl rfl

theorem Ready.escapeu (h : Ready p) (counter argn : ℕ) (c : UInt8) :
    Leaves c (escapeu p s buffer counter argn c) := by
  rw [AhungryJanet.escapeu]
  split
  · exact h.taken c rfl rfl rfl rfl
  · simp only
    split
    · split
      · exact h.taken c rfl rfl rfl rfl
      · exact h.taken c rfl rfl rfl rfl
    · exact h.taken c rfl rfl rfl rfl

theorem Ready.longstring (h : Ready p) (h0 : p.pending = 0) (phase : LongPhase) (argn : ℕ)
    (c : UInt8) : Leaves c (longstring p s buffer phase argn c) := by
  rw [AhungryJanet.longstring.eq_def]
  split
  case h_1 =>
    split
    · exact h.taken c rfl rfl rfl rfl
    · exact h.taken c rfl rfl rfl rfl
  case h_2 =>
    split
    · have hend := h.stringend h0 c buffer (longstringValue (s.place.column - 1) p.buf)
      exact ⟨hend.toReady, fun _ => hend⟩
    · split
      · exact h.taken c rfl rfl rfl rfl
      · exact h.taken c rfl rfl rfl rfl
  case h_3 =>
    split
    · exact h.taken c rfl rfl rfl rfl
    · exact h.taken c rfl rfl rfl rfl

end

section

variable (convert : (neg : Bool) → (mant base : ℕ) → (ex : ℤ) → UInt64)

theorem Reading.tokenchar {p : Parser} {c : UInt8} (h : Reading c p) {s : LeafState} {argn : Bool}
    (hleaf : p.leaf = some s) {b : Bool} {p' : Parser}
    (htoken : tokenchar convert p s argn c = (b, p')) :
    Ready p' ∧ (b = false → p'.error.isSome ∨ Reading c p') := by
  rw [AhungryJanet.tokenchar] at htoken
  split at htoken
  case isTrue =>
    cases htoken
    exact ⟨h.toReady.congr rfl rfl rfl rfl, by simp⟩
  case isFalse hsymbol =>
    split at htoken
    case h_1 =>
      cases htoken
      exact ⟨h.toReady.congr rfl rfl rfl rfl, fun _ => .inl rfl⟩
    case h_2 =>
      cases htoken
      have h0 := h.pending_eq_zero hleaf fun hc => absurd hc hsymbol
      have hbuf : Ready { p with buf := [] } := h.toReady.congr rfl rfl rfl rfl
      have hpop := hbuf.popLeaf h0 c
      exact ⟨(hpop _).toReady, fun _ => .inr (hpop _)⟩

/-- The consumers of comments and strings. -/
theorem Ready.leaf {p : Parser} {c : UInt8} (h : Ready p) (h0 : p.pending = 0) {s : LeafState}
    (hleaf : p.leaf = some s) (hs : ∀ argn, s.consumer ≠ .tokenchar argn) :
    Leaves c (consumer convert p c) := by
  simp only [consumer, hleaf]
  split
  case h_1 argn htoken => exact absurd htoken (hs argn)
  case h_2 => exact h.comment c
  case h_3 => exact h.atsign h0 c
  case h_4 => exact h.stringchar s _ h0 c
  case h_5 => exact h.escape1 s _ c
  case h_6 => exact h.escapeh s _ _ _ c
  case h_7 => exact h.escapeu s _ _ _ c
  case h_8 => exact h.longstring s _ h0 _ _ c

/-- What one consumer keeps. -/
theorem Reading.consumer {p p' : Parser} {c : UInt8} (h : Reading c p) {b : Bool}
    (hconsumer : consumer convert p c = (b, p')) :
    Ready p' ∧ (b = false → p'.error.isSome ∨ Reading c p') := by
  cases hleaf : p.leaf with
  | none =>
    simp only [AhungryJanet.consumer, hleaf] at hconsumer
    have hroot := h.root hleaf
    rw [hconsumer] at hroot
    refine ⟨hroot, fun hb => .inr ⟨hroot, fun hone => ?_⟩⟩
    subst hb
    obtain ⟨hsymbol, rfl⟩ := root_eq_false hconsumer
    exact ⟨(h.finished hone).1, .inr ⟨hsymbol, _, false, rfl, rfl⟩⟩
  | some s =>
    by_cases htoken : ∃ argn, s.consumer = .tokenchar argn
    · obtain ⟨argn, hs⟩ := htoken
      simp only [AhungryJanet.consumer, hleaf, hs] at hconsumer
      exact h.tokenchar convert hleaf hconsumer
    · have hs : ∀ argn, s.consumer ≠ .tokenchar argn := fun argn hs => htoken ⟨argn, hs⟩
      have h0 := h.pending_eq_zero hleaf fun _ => hs
      obtain ⟨hready, hreading⟩ := h.toReady.leaf convert h0 hleaf hs (c := c)
      rw [hconsumer] at hready hreading
      exact ⟨hready, fun hb => .inr (hreading hb)⟩

theorem Reading.consumeLoop {p : Parser} {c : UInt8} (h : Reading c p) (n : ℕ) :
    Ready (consumeLoop convert n p c) := by
  induction n generalizing p with
  | zero => exact h.toReady
  | succ n ih =>
    rw [AhungryJanet.consumeLoop]
    split
    · exact h.toReady
    · split
      case h_1 p' hp => exact (h.consumer convert hp).1
      case h_2 p' hp =>
        obtain ⟨hready, hfalse⟩ := h.consumer convert hp
        rcases hfalse rfl with herror | hreading
        · rwa [consumeLoop_of_error convert herror]
        · exact ih hreading

/-- **A byte finishes one form at most.** -/
theorem Ready.consume {p : Parser} (h : Ready p) (h0 : p.pending = 0) (c : UInt8) :
    Ready (consume convert p c) := by
  have hplace : Ready { p with place := p.place.advance p.lookback c } := h.congr rfl rfl rfl rfl
  have hloop := (Reading.of_pending hplace h0 c).consumeLoop convert 4
  exact hloop.congr rfl rfl rfl rfl

end

/-! ### Reading, then evaluating -/

/-- Handing over what is pending. -/
theorem Ready.produceAll {p : Parser} (h : Ready p) :
    (produceAll p.pending p).1.length ≤ 1 ∧ Ready (produceAll p.pending p).2 ∧
      (produceAll p.pending p).2.pending = 0 := by
  rcases h.pending with h0 | ⟨h1, v, hargs⟩
  · rw [h0]
    exact ⟨Nat.zero_le 1, h, h0⟩
  · have hproduce : AhungryJanet.produceAll 1 p = ([v], { p with args := [], pending := 0 }) := by
      simp [AhungryJanet.produceAll, produce, hargs, h1]
    have hcount := h.args
    rw [hargs, h1, List.length_singleton] at hcount
    rw [h1, hproduce]
    refine ⟨le_refl 1, ⟨?_, h.dead, .inl rfl⟩, rfl⟩
    simp only [List.length_nil]
    omega

theorem produceAll_setDead (n : ℕ) (p : Parser) (d : Bool) :
    produceAll n { p with dead := d } =
      ((produceAll n p).1, { (produceAll n p).2 with dead := d }) := by
  induction n generalizing p with
  | zero => rfl
  | succ n ih =>
    have hproduce : produce { p with dead := d } =
        (produce p).map fun r => (r.1, { r.2 with dead := d }) := by
      simp only [produce]
      split <;> rfl
    rw [produceAll, produceAll, hproduce]
    cases produce p with
    | none => rfl
    | some r =>
      obtain ⟨form, q⟩ := r
      simp only [Option.map_some]
      rw [ih]

theorem error_produceAll (n : ℕ) (p : Parser) : (produceAll n p).2.error = p.error := by
  induction n generalizing p with
  | zero => rfl
  | succ n ih =>
    rw [produceAll]
    cases hproduce : produce p with
    | none => rfl
    | some r =>
      obtain ⟨form, q⟩ := r
      rw [produce] at hproduce
      split at hproduce
      · cases hproduce
        exact ih _
      · cases hproduce

/-- The end of the source finishes one form at most, too. -/
theorem produceAll_eof (convert : (neg : Bool) → (mant base : ℕ) → (ex : ℤ) → UInt64) {p : Parser}
    (h : Ready p) (h0 : p.pending = 0) :
    (produceAll (eof convert p).pending (eof convert p)).1.length ≤ 1 ∧
      (produceAll (eof convert p).pending (eof convert p)).2.dead := by
  obtain ⟨q, hq, heof⟩ : ∃ q, Ready q ∧ eof convert p = { q with dead := true } := by
    have hconsume := h.consume convert h0 10
    rw [eof]
    split
    · exact ⟨{ delimError (consume convert p 10) none "unexpected end of source" with
          place := p.place },
        hconsume.congr rfl rfl rfl rfl, rfl⟩
    · exact ⟨{ consume convert p 10 with place := p.place }, hconsume.congr rfl rfl rfl rfl, rfl⟩
  rw [heof, produceAll_setDead]
  exact ⟨hq.produceAll.1, rfl⟩

section

variable {σ : Type} (evaluate : σ → Value → σ × Evaluated)

/-- Evaluate the forms of a source one after another, up to the first that fails, and report the
error that ends the source. -/
def runForms (forms : List Value) (error : Option Bytes) (s : Progress σ) : Progress σ :=
  match forms with
  | form :: forms =>
    if (evalForm evaluate s form).done then evalForm evaluate s form
    else runForms forms error (evalForm evaluate s form)
  | [] =>
    match error with
    | some e => s.unread e
    | none => { s with done := true }

/-- A form that is evaluated on its own. -/
theorem runForms_append {forms : List Value} (hone : forms.length ≤ 1) (more : List Value)
    (error : Option Bytes) {s : Progress σ} (hs : s.done = false) :
    runForms evaluate (forms ++ more) error s =
      if (forms.foldl (evalForm evaluate) s).done then forms.foldl (evalForm evaluate) s
      else runForms evaluate more error (forms.foldl (evalForm evaluate) s) := by
  match forms, hone with
  | [], _ => simp [hs]
  | [form], _ => rfl

variable (convert : (neg : Bool) → (mant base : ℕ) → (ex : ℤ) → UInt64)

theorem runForms_pending {p : Parser} (hone : (produceAll p.pending p).1.length ≤ 1)
    (more : List Value) (error : Option Bytes) {s : Progress σ} (hs : s.done = false) :
    runForms evaluate ((produceAll p.pending p).1 ++ more) error s =
      if (evalPending evaluate p s).done then evalPending evaluate p s
      else runForms evaluate more error (evalPending evaluate p s) :=
  runForms_append evaluate hone more error hs

/-- A round in which a form fails. -/
theorem settle_failed {p : Parser} {s : Progress σ} (hdone : (evalPending evaluate p s).done) :
    settle evaluate p s = evalPending evaluate p s := by
  simp only [settle, hdone, if_true]

/-- The other rounds. -/
theorem settle_going {p : Parser} {s : Progress σ}
    (hdone : (evalPending evaluate p s).done = false) :
    settle evaluate p s = parseState (produceAll p.pending p).2 (evalPending evaluate p s) := by
  simp only [settle, hdone, Bool.false_eq_true, if_false]

/-- The last round. -/
theorem settle_dead {p : Parser} (hone : (produceAll p.pending p).1.length ≤ 1)
    (hdead : (produceAll p.pending p).2.dead) {s : Progress σ} (hs : s.done = false) :
    settle evaluate p s = runForms evaluate (produceAll p.pending p).1 p.error s := by
  have hrun := runForms_pending evaluate hone [] p.error hs
  rw [List.append_nil] at hrun
  rw [hrun]
  cases hdone : (evalPending evaluate p s).done with
  | true => rw [settle_failed evaluate hdone, if_pos rfl]
  | false =>
    rw [settle_going evaluate hdone, if_neg (by simp), parseState, error_produceAll, hdead]
    rfl

/-- One round, and then `go` for the rest of the source. -/
theorem round_eq {p : Parser} (h : Ready p) {s : Progress σ} (hs : s.done = false)
    {go : Progress σ → Progress σ} {r : List Value × Option Bytes}
    (hgo : ∀ s', s'.done = false → go s' = runForms evaluate r.1 r.2 s') :
    (if (settle evaluate p s).done then settle evaluate p s else go (settle evaluate p s)) =
      match p.error with
      | some e => runForms evaluate (produceAll p.pending p).1 (some e) s
      | none => runForms evaluate ((produceAll p.pending p).1 ++ r.1) r.2 s := by
  obtain ⟨hone, hready, -⟩ := h.produceAll
  have hrun := fun more error => runForms_pending evaluate hone more error hs
  have hall := fun error => hrun [] error
  simp only [List.append_nil] at hall
  simp only [hall, hrun]
  cases hdone : (evalPending evaluate p s).done with
  | true =>
    rw [settle_failed evaluate hdone, hdone]
    cases p.error <;> rfl
  | false =>
    rw [settle_going evaluate hdone, parseState, error_produceAll, hready.dead]
    cases p.error with
    | some e => rfl
    | none =>
      simp only [Bool.false_eq_true, if_false, hdone]
      exact hgo _ hdone

/-- **The loop reads forms and evaluates them in order**, up to the first failure. -/
theorem dobytesLoop_eq {p : Parser} (h : Ready p) (bytes : Bytes) {s : Progress σ}
    (hs : s.done = false) : dobytesLoop evaluate convert p bytes s =
      runForms evaluate (dobytes convert p bytes).1 (dobytes convert p bytes).2 s := by
  induction bytes generalizing p s with
  | nil =>
    obtain ⟨-, hready, h0⟩ := h.produceAll
    obtain ⟨hone, hdead⟩ := produceAll_eof convert hready h0
    have hround := round_eq evaluate h hs (r := (_, (eof convert (produceAll p.pending p).2).error))
      fun s' hs' => settle_dead evaluate hone hdead hs'
    rw [dobytesLoop.eq_def, dobytes.eq_def]
    simp only [error_produceAll]
    rw [hround]
    cases p.error <;> rfl
  | cons c rest ih =>
    obtain ⟨-, hready, h0⟩ := h.produceAll
    have hround := round_eq evaluate h hs fun s' hs' => ih (hready.consume convert h0 c) hs'
    rw [dobytesLoop.eq_def, dobytes.eq_def]
    simp only [error_produceAll]
    rw [hround]
    cases p.error <;> rfl

theorem janetDobytes_eq (env : σ) (bytes : Bytes) : janetDobytes evaluate convert env bytes =
    runForms evaluate (dobytes convert .init bytes).1 (dobytes convert .init bytes).2
      { env, ret := .nil, errflags := 0, done := false } :=
  dobytesLoop_eq evaluate convert ready_init bytes rfl

end

/-! ### What is left in `ret` -/

/-- Something that happens to a source: a form of it is evaluated, or it cannot be read on. -/
inductive Stage where
  | form (form : Value) (how : Evaluated)
  | unread (error : Bytes)

/-- The value it leaves in `ret`. -/
def Stage.left : Stage → Value
  | .unread error => .string error
  | .form _ (.uncompiled error) => .string error
  | .form _ (.returned ret) => ret
  | .form _ (.suspended ret _) => ret
  | .form _ (.signalled ret) => ret

section

variable {σ : Type} (evaluate : σ → Value → σ × Evaluated)

/-- What happens to a source, in order. -/
def stages (env : σ) (forms : List Value) (error : Option Bytes) : List Stage :=
  match forms with
  | form :: forms =>
    match evaluate env form with
    | (_, .uncompiled e) => [.form form (.uncompiled e)]
    | (_, .signalled ret) => [.form form (.signalled ret)]
    | (env, how) => .form form how :: stages env forms error
  | [] => (error.map Stage.unread).toList

theorem ret_runForms (forms : List Value) (error : Option Bytes) {s : Progress σ}
    (hs : s.done = false) : (runForms evaluate forms error s).ret =
      ((stages evaluate s.env forms error).getLast?.map Stage.left).getD s.ret := by
  induction forms generalizing s with
  | nil => cases error <;> simp [runForms, stages, Progress.unread, Stage.left]
  | cons form forms ih =>
    rw [runForms, stages]
    rcases heval : evaluate s.env form with ⟨env, how⟩
    cases how with
    | uncompiled e => simp [evalForm, heval, Progress.evaluated, Stage.left]
    | signalled ret => simp [evalForm, heval, Progress.evaluated, Stage.left]
    | returned ret =>
      simp only [evalForm, heval, Progress.evaluated, hs]
      rw [if_neg (by simp), ih rfl, List.getLast?_cons]
      cases (stages evaluate env forms error).getLast? <;> rfl
    | suspended ret later =>
      simp only [evalForm, heval, Progress.evaluated, hs]
      rw [if_neg (by simp), ih rfl, List.getLast?_cons]
      cases (stages evaluate env forms error).getLast? <;> rfl

/-- **Values and messages of every kind are left in the one place.** -/
theorem ret_janetDobytes (convert : (neg : Bool) → (mant base : ℕ) → (ex : ℤ) → UInt64) (env : σ)
    (bytes : Bytes) : (janetDobytes evaluate convert env bytes).ret =
      ((stages evaluate env (dobytes convert .init bytes).1
        (dobytes convert .init bytes).2).getLast?.map Stage.left).getD .nil := by
  rw [janetDobytes_eq, ret_runForms evaluate _ _ rfl]

end

end AhungryJanet
