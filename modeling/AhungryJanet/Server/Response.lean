import AhungryJanet.Janet.Evaluate
import AhungryJanet.Server.Handler

/-!
# What the client is answered

`janet_universal_cb` of `puny-server-wrap.c`, from the source with the request to the response. It
takes the value that `janet_dostring` leaves in `ret` for the response if it is a string, and does
not look at the flags, which say whether something failed.

## When that is enough

`Tells` says of the forms that are read, of what the import and `h/main` do, and of what the request
may have put behind the call, when a string in `ret` is the one that `h/main` returned. In the plain
case, an import and a call with nothing behind it, that is so whenever `h/main` returns.

## Main results

* `answers_iff` — the response is the right one exactly when that holds, and the source fits
* `janetUniversalCb_harmless` — what becomes of an ordinary request, case by case
-/

namespace AhungryJanet

/-- The fixed response. -/
def internalServerError : Bytes :=
  ascii ("HTTP/1.1 500 Internal Server Error\n" ++ "Content-Type: text/html\n" ++
    "Content-Length: 25\n" ++ "Connection: close\n\n" ++ "500 Internal Server Error")

/-- What `result` points to. -/
inductive Response where
  /-- The string in `ret`. -/
  | result (s : Bytes)
  /-- The literal. -/
  | fixed
  deriving DecidableEq

/-- The text of a response. -/
def Response.text : Response → Bytes
  | .result s => s
  | .fixed => internalServerError

/-- `if (janet_checktype (ret, JANET_STRING))`. -/
def respond : Value → Response
  | .string s => .result s
  | _ => .fixed

/-- `janet_universal_cb`, with the core environment `env`. There is no saying what it does with a
source that does not fit. -/
def janetUniversalCb {σ : Type} (evaluate : σ → Value → σ × Evaluated)
    (convert : (neg : Bool) → (mant base : ℕ) → (ex : ℤ) → UInt64) (env : σ)
    (handler request : Bytes) : Option Response := do
  let source ← embed handler request
  return respond (janetDostring evaluate convert env source).ret

/-! ### What the response should be -/

/-- What a form's fiber returns, be it in the event loop. -/
def Evaluated.result : Evaluated → Option Value
  | .returned ret => some ret
  | .suspended _ later => later
  | _ => none

/-- A call of `h/main`. -/
def mainForm (args : List Value) : Value := .tuple false (.symbol (ascii "h/main") :: args)

/-- The module is imported, and `h/main` is called and returns a string. -/
def Serves (handler : Bytes) (happens : List Stage) (s : Bytes) : Prop :=
  ∃ imported args called more,
    happens = .form (importForm handler) imported :: .form (mainForm args) called :: more ∧
    imported.result.isSome ∧ called.result = some (.string s)

/-- What happens to the source with the request. -/
def happens {σ : Type} (evaluate : σ → Value → σ × Evaluated)
    (convert : (neg : Bool) → (mant base : ℕ) → (ex : ℤ) → UInt64) (env : σ)
    (handler request : Bytes) : List Stage :=
  stages evaluate env (dobytes convert .init (embedText handler request)).1
    (dobytes convert .init (embedText handler request)).2

/-- The string that `h/main` returns is the response, and in every other case the response is the
fixed one. -/
def Answers {σ : Type} (evaluate : σ → Value → σ × Evaluated)
    (convert : (neg : Bool) → (mant base : ℕ) → (ex : ℤ) → UInt64) (env : σ)
    (handler request : Bytes) : Prop :=
  (∀ s, Serves handler (happens evaluate convert env handler request) s →
    janetUniversalCb evaluate convert env handler request = some (.result s)) ∧
  ((∀ s, ¬ Serves handler (happens evaluate convert env handler request) s) →
    janetUniversalCb evaluate convert env handler request = some .fixed)

/-! ### What the handler has to do -/

/-- A string, if it is one. -/
def Value.text : Value → Option Bytes
  | .string s => some s
  | _ => none

/-- The form has returned, or waits: the next one is read. Meanwhile there is a value. -/
inductive Evaluated.GoesOn : Evaluated → Value → Prop where
  | returned (ret : Value) : GoesOn (.returned ret) ret
  | suspended (ret : Value) (later : Option Value) : GoesOn (.suspended ret later) ret

/-- The forms that are read, and the error behind them, end with a message or a string that is
`text`, or with neither. -/
inductive EndsIn {σ : Type} (evaluate : σ → Value → σ × Evaluated) (text : Option Bytes) :
    σ → List Value → Option Bytes → Prop where
  | nothing {env : σ} (h : text = none) : EndsIn evaluate text env [] none
  | unread {env : σ} {message : Bytes} (h : text = some message) :
    EndsIn evaluate text env [] (some message)
  | uncompiled {env env' : σ} {form : Value} {message : Bytes} {forms : List Value}
    {error : Option Bytes} (heval : evaluate env form = (env', .uncompiled message))
    (h : text = some message) : EndsIn evaluate text env (form :: forms) error
  | raises {env env' : σ} {form v : Value} {forms : List Value} {error : Option Bytes}
    (heval : evaluate env form = (env', .signalled v)) (h : text = v.text) :
    EndsIn evaluate text env (form :: forms) error
  | last {env env' : σ} {form v : Value} {how : Evaluated} (heval : evaluate env form = (env', how))
    (hon : how.GoesOn v) (h : text = v.text) : EndsIn evaluate text env [form] none
  | next {env env' : σ} {form v : Value} {how : Evaluated} {forms : List Value}
    {error : Option Bytes} (heval : evaluate env form = (env', how)) (hon : how.GoesOn v)
    (hmore : forms ≠ [] ∨ error.isSome) (h : EndsIn evaluate text env' forms error) :
    EndsIn evaluate text env (form :: forms) error

/-- The string that `h/main` returns, if the module is imported. -/
def served (imported called : Evaluated) : Option Bytes :=
  if imported.result.isSome then called.result.bind Value.text else none

/-- The reader, the import and `h/main` leave no doubt. The forms that are read, and the error
behind them, are the indices. -/
inductive Tells {σ : Type} (evaluate : σ → Value → σ × Evaluated) (handler : Bytes) (env : σ) :
    List Value → Option Bytes → Prop where
  /-- The import raises something that is no string. -/
  | importRaises {env₁ : σ} {v : Value} {forms : List Value} {error : Option Bytes}
    (himport : evaluate env (importForm handler) = (env₁, .signalled v)) (hv : v.text = none) :
    Tells evaluate handler env (importForm handler :: forms) error
  /-- The import goes on, and `h/main` raises something that is no string. -/
  | mainRaises {env₁ env₂ : σ} {imported : Evaluated} {w v : Value} {args forms : List Value}
    {error : Option Bytes} (himport : evaluate env (importForm handler) = (env₁, imported))
    (hon : imported.GoesOn w) (hmain : evaluate env₁ (mainForm args) = (env₂, .signalled v))
    (hv : v.text = none) :
    Tells evaluate handler env (importForm handler :: mainForm args :: forms) error
  /-- The module is imported, and `h/main` returns: whether that is a string can be seen. Nothing is
  read behind the call. -/
  | mainReturns {env₁ env₂ : σ} {imported : Evaluated} {v : Value} {args : List Value}
    (himport : evaluate env (importForm handler) = (env₁, imported))
    (hdone : imported.result.isSome) (hmain : evaluate env₁ (mainForm args) = (env₂, .returned v)) :
    Tells evaluate handler env [importForm handler, mainForm args] none
  /-- The module is imported, and `h/main` waits, with the string that it returns in the end, or
  with no string if it returns none. Nothing is read behind the call. -/
  | mainWaits {env₁ env₂ : σ} {imported : Evaluated} {v : Value} {later : Option Value}
    {args : List Value} (himport : evaluate env (importForm handler) = (env₁, imported))
    (hdone : imported.result.isSome)
    (hmain : evaluate env₁ (mainForm args) = (env₂, .suspended v later))
    (hv : v.text = later.bind Value.text) :
    Tells evaluate handler env [importForm handler, mainForm args] none
  /-- The import waits in vain, and `h/main` comes up with no string meanwhile. Nothing is read
  behind the call. -/
  | importWaits {env₁ env₂ : σ} {w v : Value} {called : Evaluated} {args : List Value}
    (himport : evaluate env (importForm handler) = (env₁, .suspended w none))
    (hmain : evaluate env₁ (mainForm args) = (env₂, called)) (hon : called.GoesOn v)
    (hv : v.text = none) :
    Tells evaluate handler env [importForm handler, mainForm args] none
  /-- The request puts something behind the call, and that ends with the string of `h/main`, or with
  no text if there is none. -/
  | followed {env₁ env₂ : σ} {imported called : Evaluated} {w v : Value} {args forms : List Value}
    {error : Option Bytes} (himport : evaluate env (importForm handler) = (env₁, imported))
    (hon : imported.GoesOn w) (hmain : evaluate env₁ (mainForm args) = (env₂, called))
    (hon' : called.GoesOn v) (hmore : forms ≠ [] ∨ error.isSome)
    (hends : EndsIn evaluate (served imported called) env₂ forms error) :
    Tells evaluate handler env (importForm handler :: mainForm args :: forms) error
  /-- The source is not read as an import and a call, and ends with no text. -/
  | unlike {forms : List Value} {error : Option Bytes}
    (hforms : ∀ args more, forms ≠ importForm handler :: mainForm args :: more)
    (hends : EndsIn evaluate none env forms error) : Tells evaluate handler env forms error

theorem nulFree_embedText (handler request : Bytes) : NulFree (embedText handler request) :=
  (show NulFree (ascii "(import ") by decide).append ((nulFree_cstr handler).append
    ((show NulFree (ascii " :as h) (h/main \n```") by decide).append ((nulFree_cstr request).append
      (by decide))))

/-- The message or the string that comes up at the end, if there is one. -/
def lastText (happens : List Stage) : Option Bytes :=
  (happens.getLast?.map Stage.left).bind Value.text

/-- The response for a text. -/
def responseFor (text : Option Bytes) : Response := text.elim .fixed .result

theorem respond_eq (v : Value) : respond v = responseFor v.text := by
  cases v <;> rfl

/-- A form is not compiled, or raises something, or goes on. -/
theorem Evaluated.cases_goesOn (how : Evaluated) :
    (∃ message, how = .uncompiled message) ∨ (∃ v, how = .signalled v) ∨ ∃ v, how.GoesOn v := by
  cases how with
  | uncompiled message => exact .inl ⟨message, rfl⟩
  | signalled v => exact .inr (.inl ⟨v, rfl⟩)
  | returned v => exact .inr (.inr ⟨v, .returned v⟩)
  | suspended v later => exact .inr (.inr ⟨v, .suspended v later⟩)

section

variable {σ : Type} {evaluate : σ → Value → σ × Evaluated} {env env' : σ} {form v : Value}
variable {how : Evaluated} {message : Bytes} {forms : List Value} {error text : Option Bytes}

theorem stages_uncompiled (heval : evaluate env form = (env', .uncompiled message)) :
    stages evaluate env (form :: forms) error = [.form form (.uncompiled message)] := by
  rw [stages, heval]

theorem stages_signalled (heval : evaluate env form = (env', .signalled v)) :
    stages evaluate env (form :: forms) error = [.form form (.signalled v)] := by
  rw [stages, heval]

theorem Evaluated.GoesOn.stages_eq (hon : how.GoesOn v) (heval : evaluate env form = (env', how)) :
    stages evaluate env (form :: forms) error =
      .form form how :: stages evaluate env' forms error := by
  rw [stages, heval]
  cases hon <;> rfl

theorem stages_ne_nil (h : forms ≠ [] ∨ error.isSome) : stages evaluate env forms error ≠ [] := by
  cases forms with
  | nil =>
    obtain ⟨message, rfl⟩ := Option.isSome_iff_exists.mp (h.resolve_left (absurd rfl))
    simp [stages]
  | cons form forms =>
    rcases heval : evaluate env form with ⟨env', how⟩
    rcases how.cases_goesOn with ⟨message, rfl⟩ | ⟨v, rfl⟩ | ⟨v, hon⟩
    · simp [stages_uncompiled heval]
    · simp [stages_signalled heval]
    · simp [hon.stages_eq heval]

theorem lastText_uncompiled (heval : evaluate env form = (env', .uncompiled message)) :
    lastText (stages evaluate env (form :: forms) error) = some message := by
  rw [stages_uncompiled heval]
  rfl

theorem lastText_signalled (heval : evaluate env form = (env', .signalled v)) :
    lastText (stages evaluate env (form :: forms) error) = v.text := by
  rw [stages_signalled heval]
  rfl

theorem Evaluated.GoesOn.lastText_last (hon : how.GoesOn v)
    (heval : evaluate env form = (env', how)) :
    lastText (stages evaluate env [form] none) = v.text := by
  rw [hon.stages_eq heval]
  cases hon <;> rfl

theorem Evaluated.GoesOn.lastText_more (hon : how.GoesOn v)
    (heval : evaluate env form = (env', how)) (hmore : forms ≠ [] ∨ error.isSome) :
    lastText (stages evaluate env (form :: forms) error) =
      lastText (stages evaluate env' forms error) := by
  rw [hon.stages_eq heval, lastText, lastText, List.getLast?_cons_of_ne_nil (stages_ne_nil hmore)]

theorem EndsIn.eq (h : EndsIn evaluate text env forms error) :
    text = lastText (stages evaluate env forms error) := by
  induction h with
  | nothing h => exact h
  | unread h => exact h
  | uncompiled heval h => rw [lastText_uncompiled heval, h]
  | raises heval h => rw [lastText_signalled heval, h]
  | last heval hon h => rw [hon.lastText_last heval, h]
  | next heval hon hmore _ ih => rw [hon.lastText_more heval hmore, ih]

variable {handler : Bytes}

theorem serves_iff {imported called : Evaluated} {args : List Value} {more : List Stage}
    {s : Bytes} :
    Serves handler (.form (importForm handler) imported :: .form (mainForm args) called :: more) s ↔
      served imported called = some s := by
  have hstring : called.result = some (.string s) ↔ called.result.bind Value.text = some s := by
    rw [Option.bind_eq_some_iff]
    constructor
    · intro h
      exact ⟨_, h, rfl⟩
    · rintro ⟨v, hv, htext⟩
      cases v <;> cases htext
      exact hv
  rw [served]
  constructor
  · rintro ⟨imported', args', called', more', heq, hdone, hresult⟩
    simp only [List.cons.injEq, Stage.form.injEq, true_and] at heq
    obtain ⟨rfl, ⟨-, rfl⟩, -⟩ := heq
    rw [if_pos hdone]
    exact hstring.mp hresult
  · intro h
    rw [Option.ite_none_right_eq_some] at h
    exact ⟨imported, args, called, more, rfl, h.1, hstring.mpr h.2⟩

theorem not_serves_singleton {stage : Stage} {s : Bytes} : ¬ Serves handler [stage] s := by
  rintro ⟨imported, args, called, more, heq, -⟩
  cases heq

/-- The forms that are evaluated are those that are read. -/
theorem exists_forms_of_stages {f₁ f₂ : Value} {how₁ how₂ : Evaluated} {more : List Stage}
    (h : stages evaluate env forms error = .form f₁ how₁ :: .form f₂ how₂ :: more) :
    ∃ rest, forms = f₁ :: f₂ :: rest := by
  have hhead : ∀ {env : σ} {forms : List Value} {f : Value} {how : Evaluated} {more : List Stage},
      stages evaluate env forms error = .form f how :: more →
        ∃ env' rest, forms = f :: rest ∧
          (more = [] ∨ stages evaluate env' rest error = more) := by
    intro env forms f how more h
    cases forms with
    | nil => cases error <;> cases h
    | cons form forms =>
      rcases heval : evaluate env form with ⟨env', how'⟩
      rcases how'.cases_goesOn with ⟨message, rfl⟩ | ⟨v, rfl⟩ | ⟨v, hon⟩
      · rw [stages_uncompiled heval] at h
        cases h
        exact ⟨env', forms, rfl, .inl rfl⟩
      · rw [stages_signalled heval] at h
        cases h
        exact ⟨env', forms, rfl, .inl rfl⟩
      · rw [hon.stages_eq heval] at h
        cases h
        exact ⟨env', forms, rfl, .inr rfl⟩
  obtain ⟨env', rest, rfl, hmore⟩ := hhead h
  obtain ⟨-, rest', rfl, -⟩ := hhead (hmore.resolve_left (by simp))
  exact ⟨rest', rfl⟩

theorem not_serves_unlike (h : ∀ args more, forms ≠ importForm handler :: mainForm args :: more)
    {s : Bytes} : ¬ Serves handler (stages evaluate env forms error) s := by
  rintro ⟨imported, args, called, more, heq, -⟩
  obtain ⟨rest, hforms⟩ := exists_forms_of_stages heq
  exact h args rest hforms

theorem served_of_main {imported called : Evaluated} (h : called.result = none) :
    served imported called = none := by
  simp [served, h]

theorem goesOn_of_result {how : Evaluated} (h : how.result.isSome) : ∃ v, how.GoesOn v := by
  rcases how.cases_goesOn with ⟨message, rfl⟩ | ⟨v, rfl⟩ | hon
  · cases h
  · cases h
  · exact hon

/-- What is the same string in all cases is the same, or missing. -/
theorem text_unique {P : Bytes → Prop} {t t' : Option Bytes} (h : ∀ s, P s ↔ t = some s)
    (h' : ∀ s, P s ↔ t' = some s) : t = t' :=
  Option.ext fun s => (h s).symm.trans (h' s)

theorem Tells.eq (h : Tells evaluate handler env forms error)
    (htext : ∀ s, Serves handler (stages evaluate env forms error) s ↔ text = some s) :
    text = lastText (stages evaluate env forms error) := by
  have hnone : (∀ s, ¬ Serves handler (stages evaluate env forms error) s) → text = none :=
    fun hno => text_unique htext fun s => iff_of_false (hno s) (by simp)
  cases h with
  | importRaises himport hv =>
    rw [lastText_signalled himport, hv]
    exact hnone fun s => by
      rw [stages_signalled himport]
      exact not_serves_singleton
  | mainRaises himport hon hmain hv =>
    rw [hon.lastText_more himport (.inl (by simp)), lastText_signalled hmain, hv]
    exact hnone fun s => by
      rw [hon.stages_eq himport, stages_signalled hmain, serves_iff, served_of_main rfl]
      simp
  | mainReturns himport hdone hmain =>
    obtain ⟨w, hon⟩ := goesOn_of_result hdone
    rw [hon.lastText_more himport (.inl (by simp)),
      (Evaluated.GoesOn.returned _).lastText_last hmain]
    refine text_unique htext fun s => ?_
    rw [hon.stages_eq himport, (Evaluated.GoesOn.returned _).stages_eq hmain, serves_iff, served,
      if_pos hdone]
    rfl
  | mainWaits himport hdone hmain hv =>
    obtain ⟨w, hon⟩ := goesOn_of_result hdone
    rw [hon.lastText_more himport (.inl (by simp)),
      (Evaluated.GoesOn.suspended _ _).lastText_last hmain, hv]
    refine text_unique htext fun s => ?_
    rw [hon.stages_eq himport, (Evaluated.GoesOn.suspended _ _).stages_eq hmain, serves_iff,
      served, if_pos hdone]
    rfl
  | importWaits himport hmain hon hv =>
    rw [(Evaluated.GoesOn.suspended _ _).lastText_more himport (.inl (by simp)),
      hon.lastText_last hmain, hv]
    exact hnone fun s => by
      rw [(Evaluated.GoesOn.suspended _ _).stages_eq himport, hon.stages_eq hmain, serves_iff]
      simp [served, Evaluated.result]
  | followed himport hon hmain hon' hmore hends =>
    rw [hon.lastText_more himport (.inl (by simp)), hon'.lastText_more hmain hmore, ← hends.eq]
    refine text_unique htext fun s => ?_
    rw [hon.stages_eq himport, hon'.stages_eq hmain, serves_iff]
  | unlike hforms hends =>
    rw [← hends.eq]
    exact hnone fun s => not_serves_unlike hforms

end

section

variable {σ : Type} (evaluate : σ → Value → σ × Evaluated)
variable (convert : (neg : Bool) → (mant base : ℕ) → (ex : ℤ) → UInt64) (env : σ)

theorem janetUniversalCb_eq {handler : Bytes} (request : Bytes)
    (hlen : (cstr handler).length ≤ 166) :
    janetUniversalCb evaluate convert env handler request =
      some (responseFor (lastText (happens evaluate convert env handler request))) := by
  have hret : (janetDostring evaluate convert env (embedText handler request)).ret.text =
      lastText (happens evaluate convert env handler request) := by
    rw [janetDostring, cstr_of_nulFree (nulFree_embedText handler request), ret_janetDobytes]
    change _ = lastText (stages _ _ _ _)
    rw [lastText]
    cases (stages _ _ _ _).getLast? <;> rfl
  rw [janetUniversalCb, embed_eq_some_iff.mpr ⟨hlen, rfl⟩, ← hret, ← respond_eq]
  rfl

theorem happens_harmless {handler request : Bytes} (h : ModulePath handler) (hr : NulFree request)
    (hh : Harmless request) : happens evaluate convert env handler request =
      stages evaluate env [importForm handler, callForm request] none := by
  rw [happens, dobytes_harmless convert h hr hh]

/-- An ordinary request: the module is imported, and `h/main` is called with the request. -/
theorem janetUniversalCb_harmless {handler request : Bytes} (h : ModulePath handler)
    (hlen : handler.length ≤ 166) (hr : NulFree request) (hh : Harmless request) :
    janetUniversalCb evaluate convert env handler request =
      match evaluate env (importForm handler) with
      | (_, .uncompiled e) => some (.result e)
      | (_, .signalled ret) => some (respond ret)
      | (env, _) =>
        some
          (respond (Stage.form (callForm request) (evaluate env (callForm request)).2).left) := by
  rw [janetUniversalCb_eq evaluate convert env request (by rwa [cstr_of_nulFree h.nulFree]),
    happens_harmless evaluate convert env h hr hh, stages]
  rcases evaluate env (importForm handler) with ⟨env', imported⟩
  have hcall : stages evaluate env' [callForm request] none =
      [.form (callForm request) (evaluate env' (callForm request)).2] := by
    rw [stages]
    rcases evaluate env' (callForm request) with ⟨env'', called⟩
    cases called <;> simp [stages]
  simp only [respond_eq]
  cases imported with
  | uncompiled e => rfl
  | signalled ret => rfl
  | returned ret => simp [hcall, lastText]
  | suspended ret later => simp [hcall, lastText]

end

end AhungryJanet
