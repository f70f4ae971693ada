import AhungryJanet.Janet.Strings

/-!
# Parsing a request

`com.ahungry.net.tcp.server`: `parse-method-url`, `parse-req-headers` and `parse-req`.

## Where the head ends

`parse-req` cuts the whole request at every CR LF. It never looks for the empty line that ends the
head: the headers are the pieces from the second one up to two before the end, and the body is the
last piece. `pieces_request` says what the pieces of a request are, and everything else follows by
counting them.

## Main results

* `parseReq_eq` — parsing never panics, and what it returns
* `parseReq_request` — a body without CR LF is the last piece, and the head is what it should be
* `bodyIsolated_iff` — a body leaves the parsed head alone, and arrives whole, exactly when it
  contains no CR LF
-/

namespace AhungryJanet

open Search

/-- `"\r\n"`. -/
def crlf : Bytes := [13, 10]

theorem crlf_ne_nil : crlf ≠ [] := by decide

theorem unbordered_crlf : Unbordered crlf := unbordered_pair (by decide)

/-- What `parse-req` returns. Headers are a table from keywords to values. -/
structure Request where
  method : Value
  url : Value
  headers : List (Bytes × Value)
  body : Value

/-- `(get (req :headers) name)`. -/
def Request.header (r : Request) (name : Bytes) : Value := (r.headers.lookup name).getD .nil

/-- `parse-method-url`. -/
def parseMethodUrl (s : Bytes) : Call (Value × Value) := do
  let xs ← stringSplit (ascii " ") s
  return (getString xs 0, getString xs 1)

/-- One round of `(each x xs …)` in `parse-req-headers`. -/
def putHeader (m : List (Bytes × Value)) (x : Bytes) : Call (List (Bytes × Value)) := do
  let ds ← stringSplit (ascii ": ") x
  return janetTablePut m (asciiLower (ds.headD [])) (getString ds (ds.length - 1))

/-- `parse-req-headers`. -/
def parseReqHeaders (xs : List Bytes) : Call (List (Bytes × Value)) := xs.foldlM putHeader []

/-- `parse-req`. -/
def parseReq (req : Bytes) : Call Request := do
  let xs ← stringSplit crlf req
  let headers ← arraySlice xs 1 ((xs.length : ℤ) - 2)
  let methodUrl ← parseMethodUrl (xs.headD [])
  return {
    headers := ← parseReqHeaders headers
    method := methodUrl.1
    url := methodUrl.2
    body := getString xs (xs.length - 1) }

/-! ### Parsing never panics -/

/-- The header entry a line puts into the table. -/
def headerEntry (x : Bytes) : Bytes × Value :=
  let ds := pieces (ascii ": ") x
  (asciiLower (ds.headD []), getString ds (ds.length - 1))

/-- The table the header lines make. -/
def headerTable (xs : List Bytes) : List (Bytes × Value) :=
  xs.foldl (fun m x => janetTablePut m (headerEntry x).1 (headerEntry x).2) []

theorem parseReqHeaders_eq (xs : List Bytes) : parseReqHeaders xs = .ok (headerTable xs) := by
  have hput : ∀ m x, putHeader m x =
      .ok (janetTablePut m (headerEntry x).1 (headerEntry x).2) := by
    intro m x
    simp [putHeader, stringSplit_eq (show ascii ": " ≠ [] by decide), headerEntry, bind,
      Except.bind, pure, Except.pure]
  rw [parseReqHeaders, headerTable]
  generalize ([] : List (Bytes × Value)) = m
  induction xs generalizing m with
  | nil => rfl
  | cons x xs ih => simpa [List.foldlM_cons, hput, bind, Except.bind] using ih _

/-- The pieces between the first one and the last two. -/
theorem arraySlice_header {α : Type} {xs : List α} (h : xs ≠ []) :
    arraySlice xs 1 ((xs.length : ℤ) - 2) = .ok ((xs.drop 1).take (xs.length - 3)) := by
  have hpos := List.length_pos_iff.mpr h
  have hstart : getHalfRange 1 xs.length = .ok 1 := by
    simp only [getHalfRange]
    rw [if_neg (by omega), if_neg (by omega)]
    rfl
  have hstop : getHalfRange ((xs.length : ℤ) - 2) xs.length =
      .ok (if xs.length = 1 then 1 else xs.length - 2) := by
    simp only [getHalfRange]
    by_cases h1 : xs.length = 1
    · rw [h1]
      rfl
    · rw [if_neg (by omega), if_neg (by omega), if_neg h1]
      congr 1
      omega
  simp only [arraySlice, hstart, hstop, bind, Except.bind, pure, Except.pure]
  congr 2
  split <;> split <;> omega

/-- What the pieces of a request become. -/
theorem parseReq_eq (req : Bytes) :
    parseReq req = .ok
      { method := getString (pieces (ascii " ") ((pieces crlf req).headD [])) 0
        url := getString (pieces (ascii " ") ((pieces crlf req).headD [])) 1
        headers := headerTable (((pieces crlf req).drop 1).take ((pieces crlf req).length - 3))
        body := getString (pieces crlf req) ((pieces crlf req).length - 1) } := by
  have hne : pieces crlf req ≠ [] := (pieces_isSplit crlf_ne_nil).ne_nil crlf_ne_nil req
  simp [parseReq, parseMethodUrl, stringSplit_eq crlf_ne_nil, arraySlice_header hne,
    stringSplit_eq (show ascii " " ≠ [] by decide), parseReqHeaders_eq, bind, Except.bind, pure,
    Except.pure]

/-! ### Head and body -/

/-- A request on the wire: the head, the empty line, the body. -/
def request (head body : Bytes) : Bytes := head ++ (crlf ++ (crlf ++ body))

/-- The pieces of a request are those of its head, an empty one, and those of its body. -/
theorem pieces_request (head body : Bytes) :
    pieces crlf (request head body) = pieces crlf head ++ [] :: pieces crlf body := by
  have hs := pieces_isSplit crlf_ne_nil
  have hempty : pieces crlf (crlf ++ body) = [] :: pieces crlf body := by
    have h := hs.append unbordered_crlf crlf_ne_nil [] body
    rwa [hs.of_not_isInfix (show ¬ crlf <:+: ([] : Bytes) by decide)] at h
  rw [request, hs.append unbordered_crlf crlf_ne_nil, hempty]

/-- A body without CR LF is one piece, so the head is parsed from its own lines alone. -/
theorem parseReq_request {body : Bytes} (h : ¬ crlf <:+: body) (head : Bytes) :
    parseReq (request head body) = .ok
      { method := getString (pieces (ascii " ") ((pieces crlf head).headD [])) 0
        url := getString (pieces (ascii " ") ((pieces crlf head).headD [])) 1
        headers := headerTable ((pieces crlf head).drop 1)
        body := .string body } := by
  obtain ⟨line, lines, hlines⟩ :=
    List.exists_cons_of_ne_nil ((pieces_isSplit crlf_ne_nil).ne_nil crlf_ne_nil head)
  rw [parseReq_eq, pieces_request, (pieces_isSplit crlf_ne_nil).of_not_isInfix h, hlines]
  simp [getString]

/-- The body `parse-req` returns is the last piece, which contains no CR LF. -/
theorem body_not_isInfix {req : Bytes} {r : Request} {body : Bytes} (h : parseReq req = .ok r)
    (hbody : r.body = .string body) : ¬ crlf <:+: body := by
  rw [parseReq_eq] at h
  cases h
  simp only [getString] at hbody
  split at hbody
  case h_1 s hs =>
    cases hbody
    exact (pieces_isSplit crlf_ne_nil).not_isInfix_of_mem crlf_ne_nil (List.mem_of_getElem? hs)
  case h_2 => cases hbody

/-- Two requests with equal `:method`, `:url` and `:headers`. -/
structure SameHead (r₁ r₂ : Request) : Prop where
  method : r₁.method = r₂.method
  url : r₁.url = r₂.url
  header : ∀ name, r₁.header name = r₂.header name

/-- With either body behind the head, the parsed head is the same, and each body arrives whole. -/
def BodyIsolated (head b₁ b₂ : Bytes) : Prop :=
  ∃ r₁ r₂, parseReq (request head b₁) = .ok r₁ ∧ parseReq (request head b₂) = .ok r₂ ∧
    SameHead r₁ r₂ ∧ r₁.body = .string b₁ ∧ r₂.body = .string b₂

/-- **Bodies and heads are kept apart exactly when no body contains CR LF.** -/
theorem bodyIsolated_iff (head b₁ b₂ : Bytes) :
    BodyIsolated head b₁ b₂ ↔ ¬ crlf <:+: b₁ ∧ ¬ crlf <:+: b₂ := by
  constructor
  · rintro ⟨r₁, r₂, h₁, h₂, -, hb₁, hb₂⟩
    exact ⟨body_not_isInfix h₁ hb₁, body_not_isInfix h₂ hb₂⟩
  · rintro ⟨h₁, h₂⟩
    exact ⟨_, _, parseReq_request h₁ head, parseReq_request h₂ head, ⟨rfl, rfl, fun _ => rfl⟩,
      rfl, rfl⟩

/-- A line of the body overwrites a header of the head. -/
theorem not_bodyIsolated_injected :
    ¬ BodyIsolated (ascii "GET / HTTP/1.1\r\nHost: a") (ascii "Host: b\r\nx\r\ny") [] := by
  rintro ⟨r₁, r₂, h₁, h₂, hsame, -, -⟩
  have hb : (parseReq (request (ascii "GET / HTTP/1.1\r\nHost: a")
      (ascii "Host: b\r\nx\r\ny"))).map (fun r => r.header (ascii "host")) =
      .ok (.string (ascii "b")) := by rfl
  have ha : (parseReq (request (ascii "GET / HTTP/1.1\r\nHost: a") [])).map
      (fun r => r.header (ascii "host")) = .ok (.string (ascii "a")) := by rfl
  rw [h₁] at hb
  rw [h₂] at ha
  have heq := hsame.header (ascii "host")
  simp only [Except.map, Except.ok.injEq] at ha hb
  rw [ha, hb] at heq
  simp [ascii] at heq

end AhungryJanet
