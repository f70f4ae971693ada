import AhungryJanet.Server.Request

/-!
# Header lines

A request made of a request line and header lines, and what `parse-req` makes of it. Each line is
one piece of the split at CR LF, and the name is the first piece of the split at `": "`. The value
is the last piece of that split, and not what is left behind the name, so a value that contains
`": "` loses everything up to the last one.

## Main results

* `parseReq_head` — what is returned for any request line and header lines
* `headersSurvive_iff` — the values survive exactly when no value that counts contains `": "`
-/

namespace AhungryJanet

open Search

/-- `": "`. -/
def separator : Bytes := ascii ": "

theorem separator_ne_nil : separator ≠ [] := by decide

theorem unbordered_separator : Unbordered separator := unbordered_pair (by decide)

/-- A line of a head. -/
def IsLine (line : Bytes) : Prop := ¬ crlf <:+: line

/-- A header line: a name without colon, and a value of any bytes. -/
structure Header where
  name : Bytes
  value : Bytes
  name_ne_nil : name ≠ []
  name_colon : (58 : UInt8) ∉ name
  name_line : IsLine name
  value_line : IsLine value

/-- `Name: value`. -/
def Header.line (h : Header) : Bytes := h.name ++ (separator ++ h.value)

/-- The key of the entry: the name in lower case. -/
def Header.key (h : Header) : Bytes := asciiLower h.name

/-- The head of a request: the request line and the header lines. -/
def head (requestLine : Bytes) (hs : List Header) : Bytes :=
  List.intercalate crlf (requestLine :: hs.map Header.line)

/-- The last header with this name. -/
def lastNamed (hs : List Header) (key : Bytes) : Option Header :=
  (hs.filter fun h => h.key = key).getLast?

/-- The words of the request line, which lie between its spaces, arrive as `:method` and `:url`, and
the keys of the table are the names in lower case, each with the whole value of the last line with
that name. -/
structure HeadersSurvive (requestLine : Bytes) (hs : List Header) : Prop where
  parsed : ∃ r, parseReq (request (head requestLine hs) []) = .ok r ∧
    r.method = getString (requestLine.splitOn 32) 0 ∧
    r.url = getString (requestLine.splitOn 32) 1 ∧
    ∀ key, r.headers.lookup key = (lastNamed hs key).map fun h => .string h.value

/-! ### The pieces of a head -/

theorem Header.isLine_line (h : Header) : IsLine h.line := by
  have hsplit : h.line = h.name ++ 58 :: ([] ++ 32 :: h.value) := rfl
  have hempty : ¬ crlf <:+: ([] : Bytes) := by decide
  rw [IsLine, hsplit, isInfix_append_cons_iff (by decide) crlf_ne_nil,
    isInfix_append_cons_iff (by decide) crlf_ne_nil]
  rintro (hname | hnil | hvalue)
  · exact h.name_line hname
  · exact hempty hnil
  · exact h.value_line hvalue

theorem pieces_head {requestLine : Bytes} (hline : IsLine requestLine) (hs : List Header) :
    pieces crlf (head requestLine hs) = requestLine :: hs.map Header.line := by
  refine (pieces_isSplit crlf_ne_nil).of_intercalate unbordered_crlf crlf_ne_nil (by simp) ?_
  intro line hmem
  rcases List.mem_cons.mp hmem with rfl | hmem
  · exact hline
  · obtain ⟨h, -, rfl⟩ := List.mem_map.mp hmem
    exact h.isLine_line

/-- A header line splits into the name and the pieces of the value. -/
theorem Header.pieces_line (h : Header) :
    pieces separator h.line = h.name :: pieces separator h.value := by
  have hs := pieces_isSplit separator_ne_nil
  have hname : ¬ separator <:+: h.name := fun hin => h.name_colon (hin.subset (by decide))
  rw [Header.line, hs.append unbordered_separator separator_ne_nil, hs.of_not_isInfix hname]
  rfl

/-- What is kept of a value: its last piece. -/
def lastPiece (value : Bytes) : Value :=
  getString (pieces separator value) ((pieces separator value).length - 1)

theorem Header.headerEntry_line (h : Header) : headerEntry h.line = (h.key, lastPiece h.value) := by
  have hne := (pieces_isSplit separator_ne_nil).ne_nil separator_ne_nil h.value
  obtain ⟨p, ps, hps⟩ := List.exists_cons_of_ne_nil hne
  have hline := h.pieces_line
  rw [headerEntry, show ascii ": " = separator from rfl, hline, lastPiece, hps]
  rfl

/-- The last piece is the whole value if it is the only one. -/
theorem lastPiece_eq_iff {value : Bytes} :
    lastPiece value = .string value ↔ ¬ separator <:+: value := by
  have hs := pieces_isSplit separator_ne_nil
  constructor
  · intro h
    rw [lastPiece, getString] at h
    split at h
    case h_1 s hget =>
      cases h
      exact hs.not_isInfix_of_mem separator_ne_nil (List.mem_of_getElem? hget)
    case h_2 => cases h
  · intro h
    rw [lastPiece, hs.of_not_isInfix h]
    rfl

/-! ### The table -/

theorem headerTable_concat (xs : List Bytes) (x : Bytes) :
    headerTable (xs ++ [x]) =
      janetTablePut (headerTable xs) (headerEntry x).1 (headerEntry x).2 := by
  rw [headerTable, List.foldl_append]
  rfl

/-- The last line with a name decides what is under it. -/
theorem lookup_headerTable (hs : List Header) (key : Bytes) :
    (headerTable (hs.map Header.line)).lookup key =
      (lastNamed hs key).map fun h => lastPiece h.value := by
  induction hs using List.reverseRecOn with
  | nil => rfl
  | append_singleton hs h ih =>
    rw [List.map_append, List.map_singleton, headerTable_concat, lookup_janetTablePut,
      h.headerEntry_line, ih, lastNamed, lastNamed, List.filter_append]
    by_cases hkey : h.key = key
    · simp [hkey]
    · rw [if_neg (Ne.symm hkey)]
      simp [hkey]

/-- **What is returned** for a request line and header lines. -/
theorem parseReq_head {requestLine : Bytes} (hline : IsLine requestLine) (hs : List Header) :
    parseReq (request (head requestLine hs) []) = .ok
      { method := getString (requestLine.splitOn 32) 0
        url := getString (requestLine.splitOn 32) 1
        headers := headerTable (hs.map Header.line)
        body := .string [] } := by
  have hbody : ¬ crlf <:+: ([] : Bytes) := by decide
  have hwords : pieces (ascii " ") requestLine = requestLine.splitOn 32 := pieces_singleton 32 _
  rw [parseReq_request hbody, pieces_head hline, ← hwords]
  rfl

/-- **The values survive exactly when none that counts contains `": "`.** -/
theorem headersSurvive_iff {requestLine : Bytes} (hline : IsLine requestLine) (hs : List Header) :
    HeadersSurvive requestLine hs ↔
      ∀ key, ∀ h ∈ lastNamed hs key, ¬ separator <:+: h.value := by
  constructor
  · rintro ⟨r, hr, -, -, hlookup⟩ key h hlast
    rw [parseReq_head hline] at hr
    cases hr
    have hkey := hlookup key
    rw [lookup_headerTable, hlast] at hkey
    exact lastPiece_eq_iff.mp (Option.some.inj hkey)
  · intro h
    refine ⟨_, parseReq_head hline hs, rfl, rfl, fun key => ?_⟩
    rw [lookup_headerTable]
    cases hlast : lastNamed hs key with
    | none => rfl
    | some last => exact congrArg some (lastPiece_eq_iff.mpr (h key last hlast))

/-- `Host: 127.0.0.1:12345`. -/
def hostHeader : Header where
  name := ascii "Host"
  value := ascii "127.0.0.1:12345"
  name_ne_nil := by decide
  name_colon := by decide
  name_line := by unfold IsLine; decide
  value_line := by unfold IsLine; decide

/-- The colon of a port does no harm. -/
theorem headersSurvive_host : HeadersSurvive (ascii "GET / HTTP/1.1") [hostHeader] := by
  have hline : IsLine (ascii "GET / HTTP/1.1") := by unfold IsLine; decide
  refine (headersSurvive_iff hline [hostHeader]).mpr fun key h hlast => ?_
  have hmem := List.mem_filter.mp (List.mem_of_getLast? hlast)
  rw [List.mem_singleton.mp hmem.1]
  decide

/-- `Subject: Re: hello`. -/
def subjectHeader : Header where
  name := ascii "Subject"
  value := ascii "Re: hello"
  name_ne_nil := by decide
  name_colon := by decide
  name_line := by unfold IsLine; decide
  value_line := by unfold IsLine; decide

/-- It arrives as `"hello"`. -/
theorem not_headersSurvive_subject : ¬ ∀ (requestLine : Bytes) (hs : List Header),
    IsLine requestLine → HeadersSurvive requestLine hs := by
  intro h
  have hline : IsLine (ascii "GET / HTTP/1.1") := by unfold IsLine; decide
  obtain ⟨r, hr, -, -, hlookup⟩ := (h (ascii "GET / HTTP/1.1") [subjectHeader] hline).parsed
  rw [parseReq_head hline] at hr
  cases hr
  have hsubject := hlookup (ascii "subject")
  rw [lookup_headerTable] at hsubject
  have hlast : lastNamed [subjectHeader] (ascii "subject") = some subjectHeader := by rfl
  rw [hlast] at hsubject
  have hkept := lastPiece_eq_iff.mp (Option.some.inj hsubject)
  exact absurd (show separator <:+: subjectHeader.value by decide) hkept

end AhungryJanet
