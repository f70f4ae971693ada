import Mathlib.Data.List.DropRight
import AhungryJanet.Server.Split

/-!
# The length a head declares

A head declares the length of the body in a header line, whose name may be spelled in any letter
case. `read_tcp` does not look at lines: it searches all of the text for one spelling, then for
another, and reads the number behind the first place it finds. Here a request arrives in one chunk,
and the two numbers are compared.

## Main results

* `readsDeclared_iff` — when `read_tcp` takes the body for as long as the head says, and returns the
  request
-/

namespace AhungryJanet

open Polling Search

/-! ### What a head says -/

/-- The blanks that may stand around a value. -/
def isBlank (c : UInt8) : Bool := c = 32 || c = 9

/-- The value of a header line, if it has this name. -/
def headerValue (name line : Bytes) : Option Bytes :=
  let value := line.dropWhile (· ≠ 58)
  if asciiLower (line.takeWhile (· ≠ 58)) = name ∧ value ≠ [] then
    some ((value.tail.dropWhile isBlank).rdropWhile isBlank)
  else none

/-- The length that the head of a request declares, if it does so once or not at all. -/
def declaredLength (head : Bytes) : Option ℕ :=
  match (pieces crlf head).tail.filterMap (headerValue (ascii "content-length")) with
  | [] => some 0
  | [digits] => if digits ≠ [] ∧ digits.all isdigit then some (decimal digits) else none
  | _ => none

/-! ### What is read -/

/-- The request comes in one chunk and is returned without waiting for more, with the length that
the head declares. -/
structure ReadsDeclared (m : Memory) (head body : Bytes) : Prop where
  returned : ∀ timeouts,
    readTcp m (some (request head body) :: List.replicate timeouts none) =
      .returned (request head body)
  declared : ∃ s n, receive m .init (request head body) = .ok s ∧ declaredLength head = some n ∧
    s.finalContentLength = n

/-- The number behind the first place in the text where one of the two spellings is found. -/
def Counts (m : Memory) (t : Bytes) (n : ℕ) : Prop :=
  match contentLength t with
  | none => n = 0
  | some p => ∃ value rest, p.drop textlen = value ++ 13 :: rest ∧ 13 ∉ value ∧
      0 ∈ (List.range textlen).map (m.clen 1) ∧
      atoi (value ++ cstr ((List.range textlen).map (m.clen 1))) = n

/-- The request fits into `tmp`, has no NUL in it, and the search finds the number of its body. -/
structure CountsBody (m : Memory) (head body : Bytes) : Prop where
  nulFree : NulFree (request head body)
  small : (request head body).length < clientChunk
  terminated : Terminated m [request head body]
  counts : Counts m (text m [request head body]) body.length

/-- What stands behind a spelling: the value, up to the first `\r`. -/
theorem cstr_clenString {m : Memory} {i : ℕ} {t p value rest : Bytes} (ht : NulFree t)
    (hp : contentLength t = some p) (hvalue : p.drop textlen = value ++ 13 :: rest)
    (h13 : 13 ∉ value) :
    cstr (clenString m i p) = value ++ cstr ((List.range textlen).map (m.clen i)) := by
  obtain ⟨name, hname, a, b, hcut, rfl⟩ := contentLength_eq_some hp
  have hlen := length_of_mem_lengthNames hname
  rw [← hlen, List.drop_left] at hvalue
  subst hvalue
  have hoffset : nlOffset (name ++ (value ++ 13 :: rest)) = textlen + value.length := by
    rw [nlOffset, if_pos (by simp), List.idxOf_append_of_notMem (not_mem_of_mem_lengthNames hname),
      List.idxOf_append_of_notMem h13, hlen]
    simp
  have hnul : NulFree value := fun x hx => ht x (by
    rw [hcut.eq]
    simp [hx])
  rw [clenString, hoffset, Nat.add_sub_cancel_left, ← hlen, List.drop_left, List.take_left,
    cstr_append hnul]

theorem counts_iff {m : Memory} {r : Bytes} {n : ℕ} :
    Counts m (text m [r]) n ↔
      (∀ p, contentLength (text m [r]) = some p → 13 ∈ p) ∧
        (∀ p, contentLength (text m [r]) = some p → 0 ∈ (List.range textlen).map (m.clen 1)) ∧
        (declared m [r]).getD 0 = n := by
  have htext : NulFree (text m [r]) := nulFree_cstr _
  rw [Counts, declared]
  cases hp : contentLength (text m [r]) with
  | none => simp [eq_comm]
  | some p =>
    simp only [Option.some.injEq, forall_eq', Option.map_some, Option.getD_some,
      List.length_singleton]
    constructor
    · rintro ⟨value, rest, hvalue, h13, hclen, hnumber⟩
      refine ⟨List.mem_of_mem_drop (i := textlen) (by simp [hvalue]), hclen, ?_⟩
      rw [cstr_clenString htext hp hvalue h13, hnumber]
    · rintro ⟨h13, hclen, hnumber⟩
      obtain ⟨name, hname, a, b, -, rfl⟩ := contentLength_eq_some hp
      have hb : 13 ∈ b :=
        (List.mem_append.mp h13).resolve_left (not_mem_of_mem_lengthNames hname)
      obtain ⟨value, rest, rfl, hvalue⟩ := List.eq_append_cons_of_mem hb
      have hdrop : (name ++ (value ++ 13 :: rest)).drop textlen = value ++ 13 :: rest := by
        rw [← length_of_mem_lengthNames hname, List.drop_left]
      exact ⟨value, rest, hdrop, hvalue, hclen, by
        rw [← cstr_clenString htext hp hdrop hvalue, hnumber]⟩

/-- One round of the first loop, on the whole request. -/
theorem receive_init_iff {m : Memory} {r : Bytes} {s : Locals} :
    receive m .init r = .ok s ↔
      Fits [r] ∧ Readable m [r] ∧
        s = .after m [r] (decide (HasHead m [r])) ((declared m [r]).getD 0) := by
  have hinit : Locals.after m [] false 0 = .init := by
    simp [Locals.after, Locals.init, storage, filled, Memory.block]
  rw [← hinit]
  exact receive_after fits_nil false 0

theorem fits_singleton {r : Bytes} : Fits [r] ↔ r.length < clientChunk :=
  ⟨fun h => h.small r (by simp), fun h => ⟨by simpa using h, by simp⟩⟩

theorem text_singleton {m : Memory} {r : Bytes} (h : NulFree r) :
    text m [r] = r ++ cstr (m.block r.length clientChunk) := by
  rw [text, storage, filled_of_nulFree m (by simpa using h), List.flatten_singleton, cstr_append h]
  simp

/-- The request is read to its end when its number is. -/
theorem reads_request {m : Memory} {head body : Bytes}
    (hhead : CutAt reqTerminator (request head []) head [])
    (h : CountsBody m head body) (timeouts : ℕ) :
    Reads m [some (request head body)] [] (List.replicate timeouts none) := by
  obtain ⟨hnul, hsmall, hterm, hcounts⟩ := h
  obtain ⟨hline, hvalue, hnumber⟩ := counts_iff.mp hcounts
  have hread : Readable m [request head body] := ⟨hterm, hline, hvalue⟩
  have hpause : AtPause (List.replicate timeouts (none : Option Bytes)) := by
    cases timeouts with
    | zero => exact atPause_nil
    | succ k => exact atPause_none _
  have hcut : CutAt reqTerminator (text m [request head body]) head
      (body ++ cstr (m.block (request head body).length clientChunk)) := by
    have happ := hhead.append_right (body ++ cstr (m.block (request head body).length clientChunk))
    rw [text_singleton hnul]
    simpa [request] using happ
  have hannounced : announced m [request head body] = body.length := by
    have happ := announced_append m [] (request head body)
    rw [announced_nil, List.nil_append, hnumber] at happ
    exact happ
  have hheader : headerLength (text m [request head body]) = head.length + 4 := by
    have hlen := congrArg List.length hcut.eq
    rw [headerLength, strstr_of_cutAt hcut]
    simp only [List.length_append, Option.getD_some] at hlen ⊢
    omega
  refine ⟨fits_singleton.mpr hsmall, ⟨hpause, fun c hc hne => ?_, hcut.isInfix, fun e he => ?_⟩,
    fun _ => rfl, fun _ => ⟨hpause, hterm, ?_, fun e he => ?_⟩⟩
  · rcases List.prefix_concat_iff.mp (show c <+: [] ++ [request head body] from hc) with rfl | hc
    · exact hread
    · exact absurd (List.prefix_nil.mp hc) hne
  · obtain ⟨t, ht⟩ := he
    cases e <;> simp at ht
  · have hlen := congrArg List.length hcut.eq
    rw [List.length_append, List.length_append, List.length_append] at hlen
    change (headerLength (text m [request head body]) : ℤ) + announced m [request head body] ≤
      (text m ([request head body] ++ [])).length
    rw [hannounced, hheader, List.append_nil, hlen, reqTerminator]
    simp only [List.length_cons, List.length_nil]
    omega
  · simp at he

/-- **The body is as long as the head declares exactly when the first spelling in the text is
followed by that number.** -/
theorem readsDeclared_iff {m : Memory} {head body : Bytes}
    (hhead : CutAt reqTerminator (request head []) head [])
    (hlength : declaredLength head = some body.length) :
    ReadsDeclared m head body ↔ CountsBody m head body := by
  constructor
  · rintro ⟨hreturned, s, n, hs, hn, hdeclared⟩
    obtain rfl := Option.some.inj (hlength.symm.trans hn)
    obtain ⟨hfits, ⟨hterm, hline, hvalue⟩, rfl⟩ := receive_init_iff.mp hs
    obtain ⟨d₁, d₂, d₃, -, -, hr⟩ := readTcp_eq_returned_iff.mp (hreturned 0)
    exact ⟨hr ▸ nulFree_cstr _, fits_singleton.mp hfits, hterm,
      counts_iff.mpr ⟨hline, hvalue, hdeclared⟩⟩
  · intro h
    have ⟨hnul, hsmall, hterm, hcounts⟩ := h
    obtain ⟨hline, hvalue, hnumber⟩ := counts_iff.mp hcounts
    refine ⟨fun timeouts => readTcp_eq_returned_iff.mpr
      ⟨[some (request head body)], [], List.replicate timeouts none, rfl,
        reads_request hhead h timeouts, ?_⟩, _, body.length,
      receive_init_iff.mpr ⟨fits_singleton.mpr hsmall, ⟨hterm, hline, hvalue⟩, rfl⟩,
      hlength, hnumber⟩
    have hall : ([some (request head body)] ++ []).reduceOption = [request head body] := rfl
    rw [hall, cstr_filled m (by simpa using hnul), List.flatten_singleton]

/-- A head that declares three bytes. -/
theorem readsDeclared_post :
    ReadsDeclared .zeroed (ascii "POST / HTTP/1.1\r\nContent-Length: 3") (ascii "abc") := by
  have hfound : contentLength (text .zeroed [request
      (ascii "POST / HTTP/1.1\r\nContent-Length: 3") (ascii "abc")]) =
      some (ascii "Content-Length: 3\r\n\r\nabc") := by decide +kernel
  refine (readsDeclared_iff ⟨by decide, by simp only [OccursAt]; decide⟩ (by decide +kernel)).mpr
    ⟨by decide, by decide, by rw [Terminated]; decide +kernel, ?_⟩
  rw [Counts, hfound]
  exact ⟨ascii "3", ascii "\n\r\nabc", by decide, by decide, by decide, by decide⟩

/-- A line in the body that has the preferred spelling is taken for the header. -/
theorem not_readsDeclared_body :
    declaredLength (ascii "POST / HTTP/1.1\r\nContent-Length: 22") =
        some (ascii "content-length: 99999\r").length ∧
      ¬ ReadsDeclared .zeroed (ascii "POST / HTTP/1.1\r\nContent-Length: 22")
        (ascii "content-length: 99999\r") := by
  refine ⟨by decide +kernel, fun h => ?_⟩
  have hwaits : readTcp .zeroed [some (request (ascii "POST / HTTP/1.1\r\nContent-Length: 22")
      (ascii "content-length: 99999\r"))] = .waits := by decide +kernel
  have hreturned := h.returned 0
  rw [List.replicate_zero, hwaits] at hreturned
  cases hreturned

end AhungryJanet
