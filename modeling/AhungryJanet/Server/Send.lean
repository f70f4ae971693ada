import AhungryJanet.Janet.Number
import AhungryJanet.Server.DeclaredLength
import AhungryJanet.Server.Response

/-!
# The response on the wire

A response from the function a user hands to `make-fn` to the bytes on the socket: `add-headers`
puts a head in front that announces the length of the string, `janet_universal_cb` returns a pointer
to the bytes of the result, and `http_send_client_response` offers what `strlen` sees there to one
`send`.

## What stands between the two

The pointer outlives the string: `janet_deinit` frees every block of the interpreter before the
callback returns. `left` is what can be read at the pointer afterwards. `strlen` stops at the first
NUL of it, whatever length the head announces, and how much of that `send` takes is not looked at.

## Main results

* `framedText_responseText` — the texts of `add-headers` are framed by the length they announce
* `sendsFramed_iff` — exactly when that text is what the client gets
-/

namespace AhungryJanet

/-- `janet_length`. -/
def janetLength : Value → Call ℕ
  | .string s | .symbol s | .keyword s | .buffer s => .ok s.length
  | .tuple _ items | .array items => .ok items.length
  | .struct kvs | .table kvs => .ok kvs.length
  | _ => .error (.badSlot 0)

/-- What `add-headers` joins. -/
def responseParts (length : ℕ) (res : Value) : List Value :=
  [.string (ascii "HTTP/1.1 200 OK\n"),
    .string (ascii "Content-Type: text/html\n"),
    .string (ascii "Content-Length: "), .string (numeral length), .string (ascii "\n"),
    .string (ascii "Connection: close\n\n"), res]

/-- `add-headers`. -/
def addHeaders (res : Value) : Call Bytes := do
  let length ← janetLength res
  let joined ← stringJoin (responseParts length res) []
  checkFinallen joined

/-- The function that `make-fn` makes of `f`. -/
def makeFn (f : Request → Call Value) (request : Bytes) : Call Value := do
  let req ← parseReq request
  let res ← f req
  return .string (← addHeaders res)

/-- The socket of a client: of the bytes offered to one `send`, how many it takes. -/
structure Socket where
  send : ℕ → ℕ
  send_le : ∀ n, send n ≤ n

/-- What can be read where the response is. The literal stays, and a string is gone: there is `left`
in its place. -/
def Response.memory (left : Bytes) : Response → Bytes
  | .result _ => left
  | .fixed => internalServerError ++ [0]

/-- `http_send_client_response` from the response on: what gets onto the socket. Without a NUL in
reach, `strlen` runs into memory that is not mapped, and the process ends. -/
def httpSendClientResponse (response : Response) (left : Bytes) (socket : Socket) : Option Bytes :=
  let memory := response.memory left
  if 0 ∈ memory then
    let offered := cstr memory
    some (offered.take (socket.send offered.length))
  else none

/-! ### Framing -/

/-- Lines, each with its end. -/
def endedLines (lines : List Bytes) : Bytes := (lines.map fun line => line ++ [10]).flatten

/-- A head that ends in an empty line, and a body as long as the one length in the head says. -/
structure FramedText (text body : Bytes) : Prop where
  framed : ∃ lines digits, text = endedLines lines ++ 10 :: body ∧
    (∀ line ∈ lines, line ≠ [] ∧ 10 ∉ line) ∧
    lines.filterMap (headerValue (ascii "content-length")) = [digits] ∧
    (∀ c ∈ digits, isdigit c) ∧ decimal digits = body.length

/-- What the user's function returned for `request` arrives: the text of `add-headers` is what the
socket gets, and it is framed. -/
structure SendsFramed (f : Request → Call Value) (request body left : Bytes) (socket : Socket) :
    Prop where
  sent : ∃ text, makeFn f request = .ok (.string text) ∧
    httpSendClientResponse (respond (.string text)) left socket = some text ∧ FramedText text body

/-- The lines of the head. -/
def responseLines (length : ℕ) : List Bytes :=
  [ascii "HTTP/1.1 200 OK", ascii "Content-Type: text/html",
    ascii "Content-Length: " ++ numeral length, ascii "Connection: close"]

/-- The text that `add-headers` joins. -/
def responseText (body : Bytes) : Bytes := endedLines (responseLines body.length) ++ 10 :: body

theorem forall_mem_responseLines {P : Bytes → Prop} {n : ℕ} (hstatus : P (ascii "HTTP/1.1 200 OK"))
    (htype : P (ascii "Content-Type: text/html"))
    (hlength : P (ascii "Content-Length: " ++ numeral n))
    (hconnection : P (ascii "Connection: close")) : ∀ line ∈ responseLines n, P line := by
  intro line hline
  simp only [responseLines, List.mem_cons, List.not_mem_nil, or_false] at hline
  rcases hline with rfl | rfl | rfl | rfl
  · exact hstatus
  · exact htype
  · exact hlength
  · exact hconnection

theorem notMem_numeral {c : UInt8} (h : ¬ isdigit c) (n : ℕ) : c ∉ numeral n :=
  fun hmem => h (isdigit_of_mem_numeral hmem)

/-- The length field has the length for its value. -/
theorem headerValue_contentLength (n : ℕ) :
    headerValue (ascii "content-length") (ascii "Content-Length: " ++ numeral n) =
      some (numeral n) := by
  have hblank : ∀ c ∈ numeral n, ¬ isBlank c := by
    intro c hc hblank
    have hdigit := isdigit_iff.mp (isdigit_of_mem_numeral hc)
    simp only [isBlank, Bool.or_eq_true, decide_eq_true_eq] at hblank
    rcases hblank with rfl | rfl
    · exact absurd hdigit.1 (by decide)
    · exact absurd hdigit.1 (by decide)
  have hline : ascii "Content-Length: " ++ numeral n =
      ascii "Content-Length" ++ 58 :: 32 :: numeral n := rfl
  have hname : ∀ c ∈ ascii "Content-Length", (c ≠ 58 : Bool) := by decide
  have hvalue : (ascii "Content-Length" ++ 58 :: 32 :: numeral n).dropWhile (· ≠ 58) =
      58 :: 32 :: numeral n := by
    rw [List.dropWhile_append_of_pos hname]
    rfl
  have htake : (ascii "Content-Length" ++ 58 :: 32 :: numeral n).takeWhile (· ≠ 58) =
      ascii "Content-Length" := by
    rw [List.takeWhile_append_of_pos hname]
    rfl
  have hfront : (32 :: numeral n).dropWhile isBlank = numeral n :=
    List.dropWhile_eq_self_iff.mpr fun hpos => hblank _ (List.getElem_mem hpos)
  have hback : (numeral n).rdropWhile isBlank = numeral n :=
    List.rdropWhile_eq_self_iff.mpr fun hne => hblank _ (List.getLast_mem hne)
  simp only [headerValue, hline, hvalue, htake, List.tail_cons, hfront, hback]
  exact if_pos ⟨by decide, by simp⟩

/-- **The texts of `add-headers` are framed by the length they announce.** -/
theorem framedText_responseText (body : Bytes) : FramedText (responseText body) body := by
  refine ⟨responseLines body.length, numeral body.length, rfl, ?_, ?_, ?_,
    decimal_numeral body.length⟩
  · refine forall_mem_responseLines (by decide) (by decide) ⟨by simp [ascii], fun hmem => ?_⟩
      (by decide)
    rcases List.mem_append.mp hmem with hmem | hmem
    · exact absurd hmem (by decide)
    · exact notMem_numeral (by decide) body.length hmem
  · have hother : ∀ line ∈ [ascii "HTTP/1.1 200 OK", ascii "Content-Type: text/html",
        ascii "Connection: close"], headerValue (ascii "content-length") line = none := by decide
    simp only [List.forall_mem_cons] at hother
    obtain ⟨hstatus, htype, hconnection, -⟩ := hother
    rw [responseLines, List.filterMap_cons_none hstatus, List.filterMap_cons_none htype,
      List.filterMap_cons_some (headerValue_contentLength _), List.filterMap_cons_none hconnection]
    rfl
  · intro c hc
    exact isdigit_of_mem_numeral hc

theorem addHeaders_eq {res : Value} {body : Bytes} (h : bytesView res = some body) :
    addHeaders res = checkFinallen (responseText body) := by
  have hlength : janetLength res = .ok body.length := by
    unfold bytesView at h
    split at h
    all_goals cases h
    all_goals rfl
  have hviews : (responseParts body.length res).map bytesView =
      [ascii "HTTP/1.1 200 OK\n", ascii "Content-Type: text/html\n", ascii "Content-Length: ",
        numeral body.length, ascii "\n", ascii "Connection: close\n\n", body].map some := by
    simp only [responseParts, List.map_cons, List.map_nil, h]
    rfl
  have htext : List.intercalate [] [ascii "HTTP/1.1 200 OK\n", ascii "Content-Type: text/html\n",
      ascii "Content-Length: ", numeral body.length, ascii "\n", ascii "Connection: close\n\n",
      body] = responseText body := by
    simp [List.intercalate, responseText, endedLines, responseLines, ascii]
  simp only [addHeaders, hlength, stringJoin_of_bytesView hviews, htext, bind, Except.bind]

theorem makeFn_eq {f : Request → Call Value} {request body : Bytes} {res : Value}
    (hres : ∀ req, parseReq request = .ok req → f req = .ok res)
    (hbody : bytesView res = some body) :
    makeFn f request = (checkFinallen (responseText body)).map .string := by
  rw [makeFn, parseReq_eq, ← addHeaders_eq hbody]
  have hf := hres _ (parseReq_eq request)
  simp only [bind, Except.bind, hf]
  cases addHeaders res <;> rfl

theorem nulFree_responseText_iff {body : Bytes} : NulFree (responseText body) ↔ NulFree body := by
  have hnumeral : NulFree (numeral body.length) := by
    intro c hc hzero
    exact notMem_numeral (by decide) body.length (hzero ▸ hc)
  have hlines : ∀ line ∈ responseLines body.length, NulFree (line ++ [10]) :=
    forall_mem_responseLines (by decide) (by decide)
      ((NulFree.append (by decide) hnumeral).append (by decide)) (by decide)
  have hhead : NulFree (endedLines (responseLines body.length) ++ [10]) := by
    refine NulFree.append (fun c hc => ?_) (by decide)
    obtain ⟨line, hline, hc⟩ := List.mem_flatten.mp hc
    obtain ⟨line', hline', rfl⟩ := List.mem_map.mp hline
    exact hlines line' hline' c hc
  have htext : responseText body = endedLines (responseLines body.length) ++ [10] ++ body := by
    rw [responseText, List.append_assoc]
    rfl
  rw [htext]
  exact ⟨fun h c hc => h c (List.mem_append_right _ hc), hhead.append⟩

/-! ### Sending -/

/-- What `send` takes of a string is a beginning of what is left, and free of NUL. -/
theorem sent_eq_iff {s left sent : Bytes} {socket : Socket} :
    httpSendClientResponse (.result s) left socket = some sent ↔
      NulFree sent ∧ 0 ∈ left ∧ sent <+: left ∧
        socket.send (cstr left).length = sent.length := by
  have hmemory : (Response.result s).memory left = left := rfl
  rw [httpSendClientResponse, hmemory]
  constructor
  · intro h
    split at h
    case isTrue hzero =>
      cases h
      have hle := socket.send_le (cstr left).length
      refine ⟨fun c hc => nulFree_cstr left c (List.mem_of_mem_take hc), hzero,
        (List.take_prefix _ _).trans (List.takeWhile_prefix _), ?_⟩
      rw [List.length_take, Nat.min_eq_left hle]
    case isFalse => cases h
  · rintro ⟨hfree, hzero, ⟨rest, rfl⟩, hlen⟩
    rw [if_pos hzero]
    dsimp only
    rw [hlen, cstr_append hfree, List.take_left]

/-- **Exactly when the client gets the response whole.** The body contains no NUL and is not too
long for a string, what is left in the freed memory begins with the response and has a NUL
somewhere, and `send` takes as many bytes as the response has. -/
theorem sendsFramed_iff {f : Request → Call Value} {request body left : Bytes} {socket : Socket}
    {res : Value} (hres : ∀ req, parseReq request = .ok req → f req = .ok res)
    (hbody : bytesView res = some body) :
    SendsFramed f request body left socket ↔
      NulFree body ∧ (responseText body).length ≤ int32Max ∧
        0 ∈ left ∧ responseText body <+: left ∧
        socket.send (cstr left).length = (responseText body).length := by
  have hmake := makeFn_eq hres hbody
  rw [checkFinallen] at hmake
  constructor
  · rintro ⟨text, htext, hsent, -⟩
    rw [hmake] at htext
    split at htext
    case isTrue => cases htext
    case isFalse hlen =>
      cases htext
      obtain ⟨hfree, hzero, hprefix, htaken⟩ := sent_eq_iff.mp hsent
      exact ⟨nulFree_responseText_iff.mp hfree, Nat.not_lt.mp hlen, hzero, hprefix, htaken⟩
  · rintro ⟨hfree, hlen, hzero, hprefix, htaken⟩
    rw [if_neg (Nat.not_lt.mpr hlen)] at hmake
    exact ⟨responseText body, hmake,
      sent_eq_iff.mpr ⟨nulFree_responseText_iff.mpr hfree, hzero, hprefix, htaken⟩,
      framedText_responseText body⟩

/-- A socket that takes everything. -/
def Socket.ready : Socket where
  send n := n
  send_le _ := Nat.le_refl _

/-- `"hello"`, with the memory of the response as it was. -/
theorem sendsFramed_hello :
    SendsFramed (fun _ => .ok (.string (ascii "hello"))) getRoot (ascii "hello")
      (responseText (ascii "hello") ++ [0]) .ready := by
  refine (sendsFramed_iff (fun _ _ => rfl) rfl).mpr
    ⟨by decide, by decide, by decide, List.prefix_append _ _, ?_⟩
  rw [cstr_append_zero (by decide)]
  rfl

/-- A body with a NUL in it is cut there, be the memory intact and the socket ready. -/
theorem not_sendsFramed_nul : ¬ ∀ (res : Value) (body : Bytes), bytesView res = some body →
    SendsFramed (fun _ => .ok res) getRoot body (responseText body ++ [0]) .ready := by
  intro h
  obtain ⟨text, htext, hsent, -⟩ := (h (.string [97, 0, 98]) [97, 0, 98] rfl).sent
  have hfree := (sent_eq_iff.mp hsent).1
  have hmake : makeFn (fun _ => .ok (.string [97, 0, 98])) getRoot =
      (checkFinallen (responseText [97, 0, 98])).map .string := makeFn_eq (fun _ _ => rfl) rfl
  have hshort : checkFinallen (responseText [97, 0, 98]) = .ok (responseText [97, 0, 98]) :=
    if_neg (by decide)
  rw [hmake, hshort] at htext
  cases htext
  exact absurd (nulFree_responseText_iff.mp hfree) (by decide)

end AhungryJanet
