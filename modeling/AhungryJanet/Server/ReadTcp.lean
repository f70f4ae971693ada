import AhungryJanet.Library.Polling
import AhungryJanet.Server.Request
import Mathlib.Algebra.Group.Int.Defs
import Mathlib.Algebra.Group.Nat.Defs

/-!
# Reading a request from a socket

`read_tcp` of `puny-server.c`, the branches for Linux. A client is the list of what `recv` answers:
each answer is a chunk, or nothing (a time-out, a closed connection or an error, which the code
does not tell apart).

## Memory

`realloc` and `malloc` do not clear what they return, and `read_tcp` searches `buf` with string
functions before it terminates it. So what is in that memory is an argument of the model, `Memory`,
and a string function that runs past the end of its block is an outcome, `overread`.

## The two loops

Both are `poll` loops. The first one searches `buf` again after every chunk; the second one, for
the body, only appends. The state of either after some chunks is a function of these chunks,
`Locals.after`, so a run is described by the texts that `buf` shows on the way.

## Main results

* `receive_chunks`, `appendChunk_chunks` — the state behind a list of chunks
* `readTcp_eq_returned_iff` — when `read_tcp` returns, and what
-/

namespace AhungryJanet

open Polling Search

/-! ### Strings in C -/

/-- `strstr`: the rest of the text from the first occurrence on. -/
def strstr (haystack needle : Bytes) : Option Bytes :=
  if needle.isPrefixOf haystack then some haystack
  else
    match haystack with
    | [] => none
    | _ :: t => strstr t needle

/-- `isspace` in the C locale. -/
def isspace (c : UInt8) : Bool := c = 32 || (9 ≤ c && c ≤ 13)

/-- `atoi`, as glibc defines it: `strtol` stops at the ends of `long`, and the result is cut down to
an `int`. -/
def atoi (s : Bytes) : ℤ :=
  let s := s.dropWhile isspace
  let negative := s.head? = some 45
  let digits := (if s.head? = some 45 ∨ s.head? = some 43 then s.tail else s).takeWhile isdigit
  let n : ℤ := if negative then -decimal digits else decimal digits
  (max (-2 ^ 63) (min n (2 ^ 63 - 1))).bmod (2 ^ 32)

/-! ### The model -/

/-- `CLIENT_CHUNK`. -/
def clientChunk : ℕ := 1024

/-- Every `int` is smaller. -/
def intBound : ℕ := 2 ^ 31

/-- What `recv` answers, one call after the other. Behind the end it always answers nothing. -/
abbrev Delivery := List (Option Bytes)

/-- What the memory contains that `realloc` and `malloc` hand out. -/
structure Memory where
  /-- The byte at a position of `buf` before anything is stored there. -/
  buf : ℕ → UInt8
  /-- The bytes of `clen_string` behind the copied text, in the round of the `i`-th chunk. -/
  clen : (i : ℕ) → ℕ → UInt8

/-- Memory that has been cleared. -/
def Memory.zeroed : Memory := ⟨fun _ => 0, fun _ _ => 0⟩

/-- Positions of `buf` that nothing has been stored at. -/
def Memory.block (m : Memory) (start stop : ℕ) : Bytes :=
  (List.range' start (stop - start)).map m.buf

/-- What the C standard leaves undefined. -/
inductive Undefined where
  /-- `tmp[n] = 0` behind the end of `tmp`. -/
  | tmpOverrun
  /-- A store behind the end of `buf`. -/
  | bufOverrun
  /-- A `memcpy` of a negative length. -/
  | invalidCopy
  /-- A string function runs past the end of its block. -/
  | overread
  | intOverflow
  deriving DecidableEq

/-- The local variables of `read_tcp`. -/
structure Locals where
  buf : Bytes
  i : ℕ
  offset : ℕ
  hasSeenReqTerminator : Bool
  finalContentLength : ℤ

/-- Their initial values. -/
def Locals.init : Locals := ⟨[], 0, 0, false, 0⟩

/-- A block as a string function sees it. -/
def cString (block : Bytes) : Except Undefined Bytes :=
  if 0 ∈ block then .ok (cstr block) else .error .overread

/-- `memcpy (dst + offset, src, strlen (src))`. -/
def memcpy (dst : Bytes) (offset : ℕ) (src : Bytes) : Except Undefined Bytes :=
  if dst.length < offset + src.length then .error .bufOverrun
  else .ok (dst.take offset ++ (src ++ dst.drop (offset + src.length)))

/-- The statements both inner loops begin with: terminate `tmp`, make `buf` larger, append. -/
def appendChunk (m : Memory) (s : Locals) (tmp : Bytes) : Except Undefined Locals :=
  if clientChunk ≤ tmp.length then .error .tmpOverrun
  else if intBound ≤ (s.i + 1) * clientChunk then .error .intOverflow
  else do
    let buf := s.buf ++ m.block (s.i * clientChunk) ((s.i + 1) * clientChunk)
    let buf ← memcpy buf s.offset (cstr tmp)
    if intBound ≤ s.offset + tmp.length then .error .intOverflow
    else return { s with buf := buf, i := s.i + 1, offset := s.offset + tmp.length }

/-- `"\r\n\r\n"`. -/
def reqTerminator : Bytes := [13, 10, 13, 10]

/-- The text from the header's name on. -/
def contentLength (buf : Bytes) : Option Bytes :=
  match strstr buf (ascii "content-length: ") with
  | none => strstr buf (ascii "Content-Length: ")
  | some contentLength1 => some contentLength1

/-- Where the next `\r` is; 0 if there is none. -/
def nlOffset (contentLength : Bytes) : ℕ :=
  if 13 ∈ contentLength then contentLength.idxOf 13 else 0

/-- The length of `content-length: `. -/
def textlen : ℕ := 16

/-- `clen_string`: the value, and what was in the block behind it. It is never terminated. -/
def clenString (m : Memory) (i : ℕ) (contentLength : Bytes) : Bytes :=
  (contentLength.drop textlen).take (nlOffset contentLength - textlen) ++
    (List.range textlen).map (m.clen i)

/-- The copy of the value and its conversion. -/
def readContentLength (m : Memory) (i : ℕ) (contentLength : Bytes) : Except Undefined ℤ :=
  if nlOffset contentLength < textlen then .error .invalidCopy
  else do
    let clen ← cString (clenString m i contentLength)
    return atoi clen

/-- The body of the first inner loop. -/
def receive (m : Memory) (s : Locals) (tmp : Bytes) : Except Undefined Locals := do
  let s ← appendChunk m s tmp
  let buf ← cString s.buf
  let s := { s with hasSeenReqTerminator := (strstr buf reqTerminator).isSome }
  match contentLength buf with
  | none => return s
  | some contentLength =>
    let n ← readContentLength m s.i contentLength
    return { s with finalContentLength := n }

/-- `header_length`: up to the end of the empty line, which has been seen. -/
def headerLength (buf : Bytes) : ℕ :=
  buf.length - ((strstr buf reqTerminator).getD []).length + 4

/-- `header_length + final_content_length`. -/
def requestLength (s : Locals) : Except Undefined ℤ := do
  let buf ← cString s.buf
  let n := headerLength buf + s.finalContentLength
  if intBound ≤ n then .error .intOverflow else return n

/-- The condition of the second loop, negated. -/
def hasBody (n : ℤ) (s : Locals) : Except Undefined Bool := do
  let buf ← cString s.buf
  return n ≤ buf.length

/-- `buf[offset] = 0`, and the string that is returned. -/
def finish (s : Locals) : Except Undefined Bytes :=
  if s.offset < s.buf.length then .ok (cstr (s.buf.set s.offset 0)) else .error .bufOverrun

/-- `read_tcp`. -/
def readTcp (m : Memory) (d : Delivery) : Polling.Outcome Undefined Bytes :=
  (poll (fun s => .ok s.hasSeenReqTerminator) (receive m) .init d).bind fun (s, d) =>
    if s.finalContentLength = 0 then .ofExcept (finish s)
    else (Outcome.ofExcept (requestLength s)).bind fun n =>
      (poll (hasBody n) (appendChunk m) s d).bind fun (s, _) => .ofExcept (finish s)

/-! ### The state behind a list of chunks -/

/-- The bytes of `buf` below `offset` behind some chunks: each of them up to its first NUL, and then
what the memory contained. -/
def filled (m : Memory) (c : List Bytes) : Bytes :=
  c.foldl
    (fun t b => t ++ (cstr b ++ m.block (t.length + (cstr b).length) (t.length + b.length))) []

/-- All of `buf` there. -/
def storage (m : Memory) (c : List Bytes) : Bytes :=
  filled m c ++ m.block c.flatten.length (c.length * clientChunk)

/-- What the string functions see of `buf` there. -/
def text (m : Memory) (c : List Bytes) : Bytes := cstr (storage m c)

/-- The number that is read from the header there, if the name is there. -/
def declared (m : Memory) (c : List Bytes) : Option ℤ :=
  (contentLength (text m c)).map fun p => atoi (cstr (clenString m c.length p))

/-- The last number that was read on the way. -/
def announced (m : Memory) (c : List Bytes) : ℤ :=
  ((c.inits.filterMap (declared m)).getLast?).getD 0

/-- The locals behind some chunks. -/
@[simps]
def Locals.after (m : Memory) (c : List Bytes) (seen : Bool) (n : ℤ) : Locals where
  buf := storage m c
  i := c.length
  offset := c.flatten.length
  hasSeenReqTerminator := seen
  finalContentLength := n

/-- No chunk fills `tmp`, and `buf` stays below the largest `int`. -/
structure Fits (c : List Bytes) : Prop where
  small : ∀ b ∈ c, b.length < clientChunk
  few : c.length < 2 ^ 21

/-- There is a NUL in `buf`. -/
def Terminated (m : Memory) (c : List Bytes) : Prop := 0 ∈ storage m c

/-- The string functions find the ends they look for: of `buf`, of the header line in it, and of
`clen_string`. -/
structure Readable (m : Memory) (c : List Bytes) : Prop where
  terminated : Terminated m c
  line : ∀ p, contentLength (text m c) = some p → 13 ∈ p
  value : ∀ p, contentLength (text m c) = some p → 0 ∈ (List.range textlen).map (m.clen c.length)

theorem Memory.block_append (m : Memory) {i j k : ℕ} (hij : i ≤ j) (hjk : j ≤ k) :
    m.block i j ++ m.block j k = m.block i k := by
  obtain ⟨a, rfl⟩ := Nat.exists_eq_add_of_le hij
  obtain ⟨b, rfl⟩ := Nat.exists_eq_add_of_le hjk
  rw [block, block, block, ← List.map_append, Nat.add_sub_cancel_left, Nat.add_sub_cancel_left,
    List.range'_append_1, Nat.add_assoc, Nat.add_sub_cancel_left]

@[simp] theorem Memory.length_block (m : Memory) (i j : ℕ) : (m.block i j).length = j - i := by
  simp [block]

theorem Memory.drop_block (m : Memory) (i j k : ℕ) :
    (m.block i j).drop k = m.block (i + k) j := by
  rw [block, block, ← List.map_drop, List.drop_range', Nat.mul_one, Nat.sub_sub]

/-- What has been stored fits below `i * CLIENT_CHUNK`. -/
theorem Fits.length_flatten_le {c : List Bytes} (h : Fits c) :
    c.flatten.length + c.length ≤ c.length * clientChunk := by
  obtain ⟨h, -⟩ := h
  induction c with
  | nil => simp
  | cons b c ih =>
    have hb := h b (by simp)
    have hc := ih fun x hx => h x (List.mem_cons_of_mem b hx)
    simp only [List.flatten_cons, List.length_append, List.length_cons, Nat.succ_mul]
    omega

theorem Fits.left {c c' : List Bytes} (h : Fits (c ++ c')) : Fits c where
  small b hb := h.small b (List.mem_append_left c' hb)
  few := lt_of_le_of_lt (by simp) h.few

theorem fits_nil : Fits [] := ⟨by simp, by decide⟩

theorem Fits.append_singleton {c : List Bytes} (h : Fits c) {b : Bytes} :
    Fits (c ++ [b]) ↔ b.length < clientChunk ∧ (c.length + 1) * clientChunk < intBound := by
  constructor
  · intro h'
    have hfew := h'.few
    simp only [List.length_append, List.length_singleton] at hfew
    exact ⟨h'.small b (by simp), by simp only [clientChunk, intBound]; omega⟩
  · rintro ⟨hsmall, hfew⟩
    refine ⟨fun x hx => ?_, ?_⟩
    · rcases List.mem_append.mp hx with hx | hx
      · exact h.small x hx
      · rwa [List.mem_singleton.mp hx]
    · simp only [List.length_append, List.length_singleton, clientChunk, intBound] at hfew ⊢
      omega

theorem filled_append (m : Memory) (c : List Bytes) (b : Bytes) :
    filled m (c ++ [b]) = filled m c ++ (cstr b ++
      m.block ((filled m c).length + (cstr b).length) ((filled m c).length + b.length)) := by
  rw [filled, List.foldl_concat, ← filled]

theorem length_cstr_le (b : Bytes) : (cstr b).length ≤ b.length :=
  (List.takeWhile_prefix _).length_le

@[simp] theorem length_filled (m : Memory) (c : List Bytes) :
    (filled m c).length = c.flatten.length := by
  induction c using List.reverseRecOn with
  | nil => rfl
  | append_singleton c b ih =>
    have hle := length_cstr_le b
    simp only [filled_append, ih, List.length_append, Memory.length_block, List.flatten_append,
      List.flatten_singleton]
    omega

/-- Without NULs nothing but what was received is there. -/
theorem filled_of_nulFree (m : Memory) {c : List Bytes} (h : ∀ b ∈ c, NulFree b) :
    filled m c = c.flatten := by
  induction c using List.reverseRecOn with
  | nil => rfl
  | append_singleton c b ih =>
    have hb : NulFree b := h b (by simp)
    have hc := ih fun x hx => h x (List.mem_append_left _ hx)
    rw [filled_append, hc, cstr_of_nulFree hb]
    simp [Memory.block]

theorem cstr_filled (m : Memory) {c : List Bytes} (h : ∀ b ∈ c, NulFree b) :
    cstr (filled m c) = c.flatten := by
  rw [filled_of_nulFree m h, cstr_eq_self_iff]
  intro x hx
  obtain ⟨b, hb, hx⟩ := List.mem_flatten.mp hx
  exact h b hb x hx

/-- `buf` grows by a block, of which the chunk takes the front. -/
theorem memcpy_after {m : Memory} {c : List Bytes} {b : Bytes} (h : Fits (c ++ [b])) :
    memcpy (storage m c ++ m.block (c.length * clientChunk) ((c.length + 1) * clientChunk))
      c.flatten.length (cstr b) = .ok (storage m (c ++ [b])) := by
  have hle := h.left.length_flatten_le
  have hle' := h.length_flatten_le
  have hb := length_cstr_le b
  have hlen : (c ++ [b]).flatten.length = c.flatten.length + b.length := by simp
  rw [hlen, List.length_append, List.length_singleton] at hle'
  rw [storage, storage, hlen, List.length_append, List.length_singleton, List.append_assoc,
    m.block_append (by omega) (Nat.mul_le_mul_right _ (Nat.le_add_right _ 1)), memcpy,
    if_neg (by rw [List.length_append, length_filled, Memory.length_block]; omega)]
  rw [List.take_left' (length_filled m c), List.drop_append, length_filled,
    Nat.add_sub_cancel_left, List.drop_of_length_le (by rw [length_filled]; omega),
    Memory.drop_block, filled_append, length_filled, List.append_assoc, List.append_assoc,
    m.block_append (by omega) (by omega), List.nil_append]

/-- What the statements both loops begin with do. -/
theorem appendChunk_after {m : Memory} {c : List Bytes} (hc : Fits c) {b : Bytes}
    (seen : Bool) (n : ℤ) {s : Locals} :
    appendChunk m (.after m c seen n) b = .ok s ↔
      Fits (c ++ [b]) ∧ s = .after m (c ++ [b]) seen n := by
  rw [appendChunk]
  split
  case isTrue hsmall =>
    simp [hc.append_singleton, Nat.not_lt.mpr hsmall]
  case isFalse hsmall =>
    split
    case isTrue hfew =>
      rw [Locals.after_i] at hfew
      simp [hc.append_singleton, Nat.not_lt.mpr hfew]
    case isFalse hfew =>
      have hfits : Fits (c ++ [b]) := hc.append_singleton.mpr ⟨Nat.not_le.mp hsmall,
        Nat.not_le.mp hfew⟩
      have hle := hfits.length_flatten_le
      have hint : ¬ intBound ≤ c.flatten.length + b.length := by
        rw [Locals.after_i] at hfew
        simp only [List.flatten_append, List.flatten_singleton, List.length_append,
          List.length_singleton] at hle
        omega
      simp only [Locals.after_buf, Locals.after_i, Locals.after_offset, memcpy_after hfits]
      simp only [bind, Except.bind, if_neg hint, pure, Except.pure, hfits, true_and,
        Except.ok.injEq]
      rw [eq_comm]
      simp [Locals.after]

theorem exists_cutAt_of_isPrefixOf {haystack needle : Bytes} (h : needle.isPrefixOf haystack) :
    ∃ a b, CutAt needle haystack a b ∧ haystack = needle ++ b := by
  obtain ⟨b, hb⟩ := List.isPrefixOf_iff_prefix.mp h
  exact ⟨[], b, hb ▸ cutAt_self_append needle b, hb.symm⟩

theorem strstr_eq_some {haystack needle p : Bytes} (h : strstr haystack needle = some p) :
    ∃ a b, CutAt needle haystack a b ∧ p = needle ++ b := by
  induction haystack with
  | nil =>
    rw [strstr] at h
    split at h
    case isTrue hpre =>
      cases h
      exact exists_cutAt_of_isPrefixOf hpre
    case isFalse => cases h
  | cons x t ih =>
    rw [strstr] at h
    split at h
    case isTrue hpre =>
      cases h
      exact exists_cutAt_of_isPrefixOf hpre
    case isFalse hpre =>
      obtain ⟨a, b, hcut, rfl⟩ := ih h
      exact ⟨x :: a, b, hcut.cons fun h => hpre (List.isPrefixOf_iff_prefix.mpr h), rfl⟩

theorem strstr_isSome_iff {haystack needle : Bytes} :
    (strstr haystack needle).isSome ↔ needle <:+: haystack := by
  constructor
  · intro h
    obtain ⟨p, hp⟩ := Option.isSome_iff_exists.mp h
    obtain ⟨a, b, hcut, -⟩ := strstr_eq_some hp
    exact hcut.isInfix
  · intro h
    induction haystack with
    | nil =>
      rw [List.infix_nil.mp h]
      rfl
    | cons x t ih =>
      rw [strstr]
      split
      case isTrue => rfl
      case isFalse hpre =>
        rcases List.infix_cons_iff.mp h with h | h
        · exact absurd (List.isPrefixOf_iff_prefix.mpr h) hpre
        · exact ih h

theorem strstr_of_cutAt {haystack needle a b : Bytes} (h : CutAt needle haystack a b) :
    strstr haystack needle = some (needle ++ b) := by
  obtain ⟨p, hp⟩ := Option.isSome_iff_exists.mp (strstr_isSome_iff.mpr h.isInfix)
  obtain ⟨a', b', hcut, rfl⟩ := strstr_eq_some hp
  rw [hp, (h.unique hcut).2]

/-- The two spellings that are searched for. -/
def lengthNames : List Bytes := [ascii "content-length: ", ascii "Content-Length: "]

theorem length_of_mem_lengthNames {name : Bytes} (h : name ∈ lengthNames) :
    name.length = textlen := by
  revert name
  decide

theorem not_mem_of_mem_lengthNames {name : Bytes} (h : name ∈ lengthNames) : 13 ∉ name := by
  revert name
  decide

theorem contentLength_eq_some {buf p : Bytes} (h : contentLength buf = some p) :
    ∃ name ∈ lengthNames, ∃ a b, CutAt name buf a b ∧ p = name ++ b := by
  rw [contentLength] at h
  split at h
  case h_1 => exact ⟨_, by simp [lengthNames], strstr_eq_some h⟩
  case h_2 hp =>
    cases h
    exact ⟨_, by simp [lengthNames], strstr_eq_some hp⟩

theorem contentLength_eq_none_iff {buf : Bytes} :
    contentLength buf = none ↔ ∀ name ∈ lengthNames, ¬ name <:+: buf := by
  simp only [lengthNames, List.forall_mem_cons, List.not_mem_nil, false_implies, implies_true,
    and_true, ← strstr_isSome_iff, Option.not_isSome_iff_eq_none]
  rw [contentLength]
  cases strstr buf (ascii "content-length: ") <;> simp

/-- The name is longer than every place a `\r` can be at. -/
theorem textlen_le_idxOf {buf p : Bytes} (h : contentLength buf = some p) :
    textlen ≤ p.idxOf 13 := by
  obtain ⟨name, hname, a, b, -, rfl⟩ := contentLength_eq_some h
  rw [List.idxOf_append_of_notMem (not_mem_of_mem_lengthNames hname),
    length_of_mem_lengthNames hname]
  exact Nat.le_add_right _ _

theorem cString_eq_ok_iff {block t : Bytes} :
    cString block = .ok t ↔ 0 ∈ block ∧ t = cstr block := by
  rw [cString]
  split
  case isTrue h => simp [h, eq_comm]
  case isFalse h => simp [h]

/-- The length of the copy is negative if and only if there is no carriage return. -/
theorem nlOffset_lt_iff {buf p : Bytes} (hp : contentLength buf = some p) :
    nlOffset p < textlen ↔ 13 ∉ p := by
  rw [nlOffset]
  split
  case isTrue h13 => exact iff_of_false (Nat.not_lt.mpr (textlen_le_idxOf hp)) (not_not.mpr h13)
  case isFalse h13 => exact iff_of_true (by decide) h13

theorem readContentLength_eq_ok_iff {m : Memory} {i : ℕ} {buf p : Bytes}
    (hp : contentLength buf = some p) (hbuf : NulFree buf) {n : ℤ} :
    readContentLength m i p = .ok n ↔
      13 ∈ p ∧ 0 ∈ (List.range textlen).map (m.clen i) ∧ n = atoi (cstr (clenString m i p)) := by
  have hnul : 0 ∈ clenString m i p ↔ 0 ∈ (List.range textlen).map (m.clen i) := by
    rw [clenString, List.mem_append, or_iff_right]
    intro h0
    obtain ⟨name, -, a, b, hcut, rfl⟩ := contentLength_eq_some hp
    have hmem := List.mem_of_mem_drop (List.mem_of_mem_take h0)
    exact hbuf 0 (by rw [hcut.eq]; exact List.mem_append_right a hmem) rfl
  by_cases h13 : 13 ∈ p
  · have hle : ¬ nlOffset p < textlen := fun hlt => (nlOffset_lt_iff hp).mp hlt h13
    rw [readContentLength, if_neg hle, bind_eq_ok_iff]
    simp [cString_eq_ok_iff, hnul, h13, pure, Except.pure, eq_comm]
  · have hlt : nlOffset p < textlen := (nlOffset_lt_iff hp).mpr h13
    simp [readContentLength, if_pos hlt, h13]

/-- The empty line that ends the head is in the text. -/
def HasHead (m : Memory) (c : List Bytes) : Prop := reqTerminator <:+: text m c

instance (m : Memory) (c : List Bytes) : Decidable (HasHead m c) :=
  decidable_of_iff _ strstr_isSome_iff

theorem cString_after {m : Memory} {c : List Bytes} {t : Bytes} :
    cString (storage m c) = .ok t ↔ Terminated m c ∧ t = text m c := by
  rw [cString_eq_ok_iff, Terminated, text]

theorem receive_after {m : Memory} {c : List Bytes} (hc : Fits c) {b : Bytes} (seen : Bool) (n : ℤ)
    {s : Locals} :
    receive m (.after m c seen n) b = .ok s ↔
      Fits (c ++ [b]) ∧ Readable m (c ++ [b]) ∧
        s = .after m (c ++ [b]) (decide (HasHead m (c ++ [b])))
          ((declared m (c ++ [b])).getD n) := by
  have hseen :
      (strstr (text m (c ++ [b])) reqTerminator).isSome = decide (HasHead m (c ++ [b])) := by
    rw [Bool.eq_iff_iff, strstr_isSome_iff, decide_eq_true_iff, HasHead]
  have htext : NulFree (text m (c ++ [b])) := nulFree_cstr _
  simp only [receive, bind_eq_ok_iff, appendChunk_after hc]
  constructor
  · rintro ⟨_, ⟨hfits, rfl⟩, t, ht, h⟩
    obtain ⟨h0, rfl⟩ := cString_after.mp ht
    refine ⟨hfits, ?_⟩
    split at h
    case h_1 hnone =>
      refine ⟨⟨h0, by simp [hnone], by simp [hnone]⟩, ?_⟩
      cases h
      simp [Locals.after, declared, hnone, hseen]
    case h_2 p hp =>
      obtain ⟨v, hv, h⟩ := bind_eq_ok_iff.mp h
      obtain ⟨h13, hclen, rfl⟩ := (readContentLength_eq_ok_iff hp htext).mp hv
      have hline : ∀ q, contentLength (text m (c ++ [b])) = some q → q = p := fun q hq =>
        Option.some.inj (hq.symm.trans hp)
      refine ⟨⟨h0, fun q hq => hline q hq ▸ h13, fun _ _ => hclen⟩, ?_⟩
      cases h
      simp [Locals.after, declared, hp, hseen]
  · rintro ⟨hfits, hread, rfl⟩
    refine ⟨_, ⟨hfits, rfl⟩, _, cString_after.mpr ⟨hread.terminated, rfl⟩, ?_⟩
    split
    case h_1 hnone =>
      simp [Locals.after, declared, hnone, hseen, pure, Except.pure]
    case h_2 p hp =>
      have hv := (readContentLength_eq_ok_iff hp htext).mpr
        ⟨hread.line p hp, hread.value p hp, rfl⟩
      refine bind_eq_ok_iff.mpr ⟨_, hv, ?_⟩
      simp [Locals.after, declared, hp, hseen, pure, Except.pure]

/-! ### The two loops -/

theorem declared_nil (m : Memory) : declared m [] = none := by
  simp [declared, text, storage, filled, Memory.block, cstr, contentLength, strstr, ascii]

theorem not_hasHead_nil (m : Memory) : ¬ HasHead m [] := by
  simp [HasHead, text, storage, filled, Memory.block, cstr, reqTerminator]

theorem announced_nil (m : Memory) : announced m [] = 0 := by
  simp [announced, declared_nil]

theorem announced_append (m : Memory) (c : List Bytes) (b : Bytes) :
    announced m (c ++ [b]) = (declared m (c ++ [b])).getD (announced m c) := by
  have hinits : (c ++ [b]).inits = c.inits ++ [c ++ [b]] := by
    simp [List.inits_append]
  rw [announced, announced, hinits, List.filterMap_append]
  cases hd : declared m (c ++ [b]) with
  | none => simp [hd]
  | some n => simp [hd]

/-- **The locals in the first loop are a function of the chunks.** -/
theorem receive_chunks {m : Memory} {c : List Bytes} {s : Locals} :
    c.foldlM (receive m) .init = .ok s ↔
      Fits c ∧ (∀ c', c' <+: c → c' ≠ [] → Readable m c') ∧
        s = .after m c (decide (HasHead m c)) (announced m c) := by
  induction c using List.reverseRecOn generalizing s with
  | nil =>
    have hinit : Locals.after m [] (decide (HasHead m [])) (announced m []) = .init := by
      simp [Locals.after, Locals.init, not_hasHead_nil, announced_nil, storage, filled,
        Memory.block]
    rw [hinit]
    simp [fits_nil, pure, Except.pure, eq_comm]
  | append_singleton c b ih =>
    rw [List.foldlM_append, bind_eq_ok_iff, announced_append]
    simp only [List.foldlM_cons, List.foldlM_nil, bind_pure]
    constructor
    · rintro ⟨t, ht, h⟩
      obtain ⟨hfits, hread, rfl⟩ := ih.mp ht
      obtain ⟨hfits', hread', rfl⟩ := (receive_after hfits _ _).mp h
      refine ⟨hfits', fun c' hc' hne => ?_, rfl⟩
      rcases List.prefix_concat_iff.mp hc' with rfl | hc'
      · exact hread'
      · exact hread c' hc' hne
    · rintro ⟨hfits, hread, rfl⟩
      have hpre : c <+: c ++ [b] := List.prefix_append c [b]
      refine ⟨_, ih.mpr ⟨hfits.left, fun c' hc' => hread c' (hc'.trans hpre), rfl⟩, ?_⟩
      exact (receive_after hfits.left _ _).mpr
        ⟨hfits, hread _ List.prefix_rfl (by simp), rfl⟩

/-- **The locals in the second loop are a function of the chunks.** -/
theorem appendChunk_chunks {m : Memory} {c c' : List Bytes} (hc : Fits c) (seen : Bool) (n : ℤ)
    {s : Locals} :
    c'.foldlM (appendChunk m) (.after m c seen n) = .ok s ↔
      Fits (c ++ c') ∧ s = .after m (c ++ c') seen n := by
  induction c' generalizing c with
  | nil => simp [hc, pure, Except.pure, eq_comm]
  | cons b c' ih =>
    have happ : c ++ b :: c' = (c ++ [b]) ++ c' := by simp
    rw [List.foldlM_cons, bind_eq_ok_iff, happ]
    constructor
    · rintro ⟨t, ht, h⟩
      obtain ⟨hfits, rfl⟩ := (appendChunk_after hc seen n).mp ht
      exact (ih hfits).mp h
    · rintro ⟨hfits, rfl⟩
      exact ⟨_, (appendChunk_after hc seen n).mpr ⟨hfits.left, rfl⟩,
        (ih hfits.left).mpr ⟨hfits, rfl⟩⟩

/-- The first loop ends with the chunks of `d₁`: the head is there at this pause and at none
before, and behind every chunk `buf` could be searched. -/
structure ReadsHead (m : Memory) (d₁ d₂ : Delivery) : Prop where
  pause : AtPause d₂
  readable : ∀ c, c <+: d₁.reduceOption → c ≠ [] → Readable m c
  head : HasHead m d₁.reduceOption
  first : ∀ e, e ++ [none] <+: d₁ → ¬ HasHead m e.reduceOption

/-- The second loop, behind the chunks `c`, ends with those of `d₂`: the text is as long as `n` at
this pause and at none before. -/
structure ReadsBody (m : Memory) (c : List Bytes) (n : ℤ) (d₂ d₃ : Delivery) : Prop where
  pause : AtPause d₃
  terminated : Terminated m (c ++ d₂.reduceOption)
  enough : n ≤ (text m (c ++ d₂.reduceOption)).length
  first : ∀ e, e ++ [none] <+: d₂ →
    Terminated m (c ++ e.reduceOption) ∧ ¬ n ≤ (text m (c ++ e.reduceOption)).length

theorem reduceOption_isPrefix {e : Delivery} {x : Option Bytes} {d : Delivery}
    (h : e ++ [x] <+: d) : e.reduceOption <+: d.reduceOption := by
  obtain ⟨t, rfl⟩ := h
  rw [List.append_assoc, List.reduceOption_append]
  exact List.prefix_append _ _

/-- Where the first loop comes to: behind every chunk `buf` could be searched, and the head was at
no pause there. -/
theorem comesTo_receive_iff {m : Memory} {d : Delivery} {s : Locals} :
    ComesTo (fun s => .ok s.hasSeenReqTerminator) (receive m) .init d s ↔
      Fits d.reduceOption ∧ (∀ c, c <+: d.reduceOption → c ≠ [] → Readable m c) ∧
        (∀ e, e ++ [none] <+: d → ¬ HasHead m e.reduceOption) ∧
        s = .after m d.reduceOption (decide (HasHead m d.reduceOption))
          (announced m d.reduceOption) := by
  constructor
  · rintro ⟨hsteps, hon⟩
    obtain ⟨hfits, hread, rfl⟩ := receive_chunks.mp hsteps
    refine ⟨hfits, hread, fun e he => ?_, rfl⟩
    obtain ⟨t, ht, hstop⟩ := hon e he
    obtain ⟨-, -, rfl⟩ := receive_chunks.mp ht
    simpa using hstop
  · rintro ⟨hfits, hread, hfirst, rfl⟩
    refine ⟨receive_chunks.mpr ⟨hfits, hread, rfl⟩, fun e he => ?_⟩
    have hpre := reduceOption_isPrefix he
    obtain ⟨t, ht⟩ := hpre
    refine ⟨_, receive_chunks.mpr ⟨(ht ▸ hfits).left,
      fun c hc => hread c (hc.trans (reduceOption_isPrefix he)), rfl⟩, ?_⟩
    simp [hfirst e he]

theorem ends_receive_iff {m : Memory} {d₁ d₂ : Delivery} {s : Locals} :
    Ends (fun s => .ok s.hasSeenReqTerminator) (receive m) .init d₁ d₂ s ↔
      Fits d₁.reduceOption ∧ ReadsHead m d₁ d₂ ∧
        s = .after m d₁.reduceOption true (announced m d₁.reduceOption) := by
  rw [ends_iff, comesTo_receive_iff]
  constructor
  · rintro ⟨hpause, ⟨hfits, hread, hfirst, rfl⟩, hstop⟩
    have hhead : HasHead m d₁.reduceOption := by simpa using hstop
    exact ⟨hfits, ⟨hpause, hread, hhead, hfirst⟩, by simp [hhead]⟩
  · rintro ⟨hfits, hhead, rfl⟩
    exact ⟨hhead.pause, ⟨hfits, hhead.readable, hhead.first, by simp [hhead.head]⟩, rfl⟩

theorem hasBody_after {m : Memory} {c : List Bytes} (seen : Bool) (k n : ℤ) {r : Bool} :
    hasBody n (.after m c seen k) = .ok r ↔
      Terminated m c ∧ r = decide (n ≤ (text m c).length) := by
  simp only [hasBody, bind_eq_ok_iff, Locals.after_buf, cString_after]
  simp [pure, Except.pure, eq_comm]

/-- Where the second loop comes to: the text was too short at every pause there. -/
theorem comesTo_appendChunk_iff {m : Memory} {c : List Bytes} (hc : Fits c) {d : Delivery}
    (seen : Bool) (k n : ℤ) {s : Locals} :
    ComesTo (hasBody n) (appendChunk m) (.after m c seen k) d s ↔
      Fits (c ++ d.reduceOption) ∧
        (∀ e, e ++ [none] <+: d →
          Terminated m (c ++ e.reduceOption) ∧ ¬ n ≤ (text m (c ++ e.reduceOption)).length) ∧
        s = .after m (c ++ d.reduceOption) seen k := by
  constructor
  · rintro ⟨hsteps, hon⟩
    obtain ⟨hfits, rfl⟩ := (appendChunk_chunks hc seen k).mp hsteps
    refine ⟨hfits, fun e he => ?_, rfl⟩
    obtain ⟨t, ht, hstop⟩ := hon e he
    obtain ⟨-, rfl⟩ := (appendChunk_chunks hc seen k).mp ht
    simpa using (hasBody_after seen k n).mp hstop
  · rintro ⟨hfits, hfirst, rfl⟩
    refine ⟨(appendChunk_chunks hc seen k).mpr ⟨hfits, rfl⟩, fun e he => ?_⟩
    obtain ⟨t, ht⟩ := reduceOption_isPrefix he
    have hfits' : Fits (c ++ e.reduceOption) := by
      rw [← ht, ← List.append_assoc] at hfits
      exact hfits.left
    obtain ⟨hterm, hlt⟩ := hfirst e he
    exact ⟨_, (appendChunk_chunks hc seen k).mpr ⟨hfits', rfl⟩,
      (hasBody_after seen k n).mpr ⟨hterm, by simpa using hlt⟩⟩

theorem ends_appendChunk_iff {m : Memory} {c : List Bytes} (hc : Fits c) {d₂ d₃ : Delivery}
    (seen : Bool) (k n : ℤ) {s : Locals} :
    Ends (hasBody n) (appendChunk m) (.after m c seen k) d₂ d₃ s ↔
      Fits (c ++ d₂.reduceOption) ∧ ReadsBody m c n d₂ d₃ ∧
        s = .after m (c ++ d₂.reduceOption) seen k := by
  rw [ends_iff, comesTo_appendChunk_iff hc]
  constructor
  · rintro ⟨hpause, ⟨hfits, hfirst, rfl⟩, hstop⟩
    obtain ⟨hterm, hle⟩ := (hasBody_after seen k n).mp hstop
    exact ⟨hfits, ⟨hpause, hterm, by simpa using hle, hfirst⟩, rfl⟩
  · rintro ⟨hfits, hbody, rfl⟩
    exact ⟨hbody.pause, ⟨hfits, hbody.first, rfl⟩,
      (hasBody_after seen k n).mpr ⟨hbody.terminated, by simpa using hbody.enough⟩⟩

/-! ### What is returned -/

theorem HasHead.ne_nil {m : Memory} {c : List Bytes} (h : HasHead m c) : c ≠ [] := by
  rintro rfl
  exact not_hasHead_nil m h

/-- The terminator is stored behind the last byte received. -/
theorem finish_after {m : Memory} {c : List Bytes} (hfits : Fits c) (hne : c ≠ []) (seen : Bool)
    (n : ℤ) : finish (.after m c seen n) = .ok (cstr (filled m c)) := by
  have hle := hfits.length_flatten_le
  have hpos := List.length_pos_iff.mpr hne
  have hroom : 0 < (m.block c.flatten.length (c.length * clientChunk)).length := by
    rw [Memory.length_block]
    omega
  obtain ⟨x, t, ht⟩ := List.exists_cons_of_length_pos hroom
  rw [finish, Locals.after_buf, Locals.after_offset, storage, List.length_append, length_filled,
    if_pos (Nat.lt_add_of_pos_right hroom), List.set_append_right _ _ (length_filled m c).le,
    length_filled, Nat.sub_self, ht, List.set_cons_zero, cstr_append_cons_zero]

theorem length_text_lt {m : Memory} {c : List Bytes} (hfits : Fits c) :
    (text m c).length < intBound := by
  have hle := hfits.length_flatten_le
  have hfew := hfits.few
  have htake := length_cstr_le (storage m c)
  rw [storage, List.length_append, length_filled, Memory.length_block, ← storage] at htake
  simp only [text, clientChunk, intBound] at *
  omega

theorem requestLength_after {m : Memory} {c : List Bytes} (seen : Bool) (k : ℤ) {n : ℤ} :
    requestLength (.after m c seen k) = .ok n ↔
      Terminated m c ∧ n = headerLength (text m c) + k ∧ n < intBound := by
  simp only [requestLength, bind_eq_ok_iff, Locals.after_buf, cString_after]
  constructor
  · rintro ⟨t, ⟨hterm, rfl⟩, h⟩
    split at h
    case isTrue => cases h
    case isFalse hlt =>
      cases h
      exact ⟨hterm, rfl, Int.not_le.mp hlt⟩
  · rintro ⟨hterm, rfl, hlt⟩
    refine ⟨_, ⟨hterm, rfl⟩, ?_⟩
    rw [Locals.after_finalContentLength, if_neg (Int.not_le.mpr hlt)]
    rfl

/-- A run that returns: `d₁` is read for the head, `d₂` for the body, and `d₃` not at all. -/
structure Reads (m : Memory) (d₁ d₂ d₃ : Delivery) : Prop where
  fits : Fits (d₁ ++ d₂).reduceOption
  head : ReadsHead m d₁ (d₂ ++ d₃)
  none : announced m d₁.reduceOption = 0 → d₂ = []
  body : announced m d₁.reduceOption ≠ 0 →
    ReadsBody m d₁.reduceOption
      (headerLength (text m d₁.reduceOption) + announced m d₁.reduceOption) d₂ d₃

/-- **When `read_tcp` returns, and what.** -/
theorem readTcp_eq_returned_iff {m : Memory} {d : Delivery} {r : Bytes} :
    readTcp m d = .returned r ↔
      ∃ d₁ d₂ d₃, d = d₁ ++ (d₂ ++ d₃) ∧ Reads m d₁ d₂ d₃ ∧
        cstr (filled m (d₁ ++ d₂).reduceOption) = r := by
  simp only [readTcp, Outcome.bind_eq_returned_iff, Prod.exists, poll_eq_returned_iff]
  constructor
  · rintro ⟨s, d', ⟨d₁, hd, hends⟩, h⟩
    obtain ⟨hfits, hhead, rfl⟩ := ends_receive_iff.mp hends
    have hne := hhead.head.ne_nil
    split at h
    case isTrue hzero =>
      rw [Outcome.ofExcept_eq_returned_iff, finish_after hfits hne] at h
      cases h
      exact ⟨d₁, [], d', hd, ⟨by simpa using hfits, hhead, fun _ => rfl,
        fun hn => absurd hzero hn⟩, by simp⟩
    case isFalse hn =>
      simp only [Outcome.bind_eq_returned_iff, Outcome.ofExcept_eq_returned_iff, Prod.exists,
        poll_eq_returned_iff] at h
      obtain ⟨n, hlen, s, d₃, ⟨d₂, rfl, hends⟩, h⟩ := h
      obtain ⟨-, rfl, -⟩ := (requestLength_after _ _).mp hlen
      obtain ⟨hfits, hbody, rfl⟩ := (ends_appendChunk_iff hfits _ _ _).mp hends
      rw [finish_after hfits (by simp [hne])] at h
      cases h
      exact ⟨d₁, d₂, d₃, hd, ⟨by rwa [List.reduceOption_append], hhead,
        fun hz => absurd hz hn, fun _ => hbody⟩, by rw [List.reduceOption_append]⟩
  · rintro ⟨d₁, d₂, d₃, hd, ⟨hfits, hhead, hnone, hbody⟩, rfl⟩
    have hne := hhead.head.ne_nil
    rw [List.reduceOption_append] at hfits ⊢
    refine ⟨_, _, ⟨d₁, hd, ends_receive_iff.mpr ⟨hfits.left, hhead, rfl⟩⟩, ?_⟩
    split
    case isTrue hzero =>
      obtain rfl := hnone hzero
      rw [Outcome.ofExcept_eq_returned_iff, finish_after hfits.left hne]
      simp
    case isFalse hn =>
      have hbody := hbody hn
      have hlt := Int.lt_of_le_of_lt hbody.enough
        (Int.ofNat_lt.mpr (length_text_lt (m := m) hfits))
      have hterm := (hhead.readable _ List.prefix_rfl hne).terminated
      simp only [Outcome.bind_eq_returned_iff, Outcome.ofExcept_eq_returned_iff, Prod.exists,
        poll_eq_returned_iff]
      refine ⟨_, (requestLength_after _ _).mpr ⟨hterm, rfl, hlt⟩, _, d₃,
        ⟨d₂, rfl, (ends_appendChunk_iff hfits.left _ _ _).mpr ⟨hfits, hbody, rfl⟩⟩, ?_⟩
      exact finish_after hfits (by simp [hne]) _ _

/-! ### Cleared memory -/

@[simp] theorem block_zeroed (i j : ℕ) : Memory.zeroed.block i j = List.replicate (j - i) 0 := by
  simp [Memory.block, Memory.zeroed, List.map_const']

theorem text_zeroed {c : List Bytes} (h : NulFree c.flatten) : text .zeroed c = c.flatten := by
  have hc : ∀ b ∈ c, NulFree b := fun b hb x hx => h x (List.mem_flatten_of_mem hb hx)
  rw [text, storage, filled_of_nulFree _ hc, block_zeroed]
  cases c.length * clientChunk - c.flatten.length with
  | zero => simpa using cstr_of_nulFree h
  | succ n => exact cstr_append_zero h _

theorem terminated_zeroed {c : List Bytes} (h : Fits c) (hne : c ≠ []) : Terminated .zeroed c := by
  have hle := h.length_flatten_le
  have hpos := List.length_pos_iff.mpr hne
  rw [Terminated, storage, block_zeroed, List.mem_append, List.mem_replicate]
  exact .inr ⟨by omega, rfl⟩

end AhungryJanet
