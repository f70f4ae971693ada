import AhungryJanet.Janet.Kmp

/-!
# String functions of the Janet core

The `string/…` functions the Janet modules call, and `array/slice`, as the C code of the core
computes them. Lengths are natural numbers: the `int32_t` bound on the length of a Janet string is
not part of these definitions. Only `string/join` can make a string too long for it out of strings
that are not; its check is `checkFinallen`, for the callers that join what may be too long.

## One specification for each function

A caller needs to know what a function returns, not how it searches. `pieces_isSplit` says that
`string/split` cuts at every delimiter, `stringReplace_of_cutAt` and
`stringReplace_of_not_isInfix` say that `string/replace` replaces the first occurrence only, and
`stringTrim_eq` says what is left by `string/trim`.
-/

namespace AhungryJanet

open Search

/-! ### `string/split` -/

/-- The loop of `cfun_string_split` without a limit: cut at each result of `kmp_next`, and go on
behind it. -/
def splitLoop (s : KmpState) : (fuel lastindex : ℕ) → List Bytes
  | 0, lastindex => [s.text.drop lastindex]
  | fuel + 1, lastindex =>
    match kmpNext (kmpSeti s lastindex) with
    | some (result, _) =>
      (s.text.drop lastindex).take (result - lastindex) ::
        splitLoop s fuel (result + s.pat.length)
    | none => [s.text.drop lastindex]

/-- `(string/split delim str)`. -/
def stringSplit (delim str : Bytes) : Call (List Bytes) := do
  let s ← kmpInit str delim
  return splitLoop s (str.length + 1) 0

/-- The pieces `string/split` returns. -/
def pieces (delim str : Bytes) : List Bytes :=
  match stringSplit delim str with
  | .ok ps => ps
  | .error _ => []

theorem exists_kmpInit (text : Bytes) {pat : Bytes} (h : pat ≠ []) :
    ∃ s, kmpInit text pat = .ok s := by
  have : pat.length ≠ 0 := by simpa using h
  simp [kmpInit, this]

theorem stringSplit_eq {delim : Bytes} (h : delim ≠ []) (str : Bytes) :
    stringSplit delim str = .ok (pieces delim str) := by
  obtain ⟨s, hs⟩ := exists_kmpInit str h
  simp [pieces, stringSplit, hs, bind, Except.bind, pure, Except.pure]

private theorem occursAt_drop {pat text : Bytes} {n s : ℕ} :
    OccursAt pat (text.drop n) s ↔ OccursAt pat text (n + s) := by
  refine forall_congr' fun k => forall_congr' fun _ => ?_
  rw [List.getElem?_drop, Nat.add_assoc]

/-- A first occurrence from `n` on cuts the rest of the text. -/
private theorem IsFirstFrom.cutAt {pat text : Bytes} {n p : ℕ} (h : IsFirstFrom pat text n p)
    (hpat : pat ≠ []) :
    CutAt pat (text.drop n) ((text.drop n).take (p - n)) (text.drop (p + pat.length)) := by
  obtain ⟨hnp, hocc, hmin⟩ := h
  have hle := hocc.le_length hpat
  have hocc' : OccursAt pat (text.drop n) (p - n) := by
    rwa [occursAt_drop, Nat.add_sub_cancel' hnp]
  have hlen : ((text.drop n).take (p - n)).length = p - n := by simp; omega
  have hbehind : (text.drop n).drop (p - n + pat.length) = text.drop (p + pat.length) := by
    rw [List.drop_drop]
    congr 1
    omega
  refine ⟨by rw [← hbehind]; exact hocc'.eq_append hpat, fun s hs hsocc => ?_⟩
  rw [occursAt_drop] at hsocc
  exact hmin (n + s) (by omega) (by omega) hsocc

/-- The loop, started at position `n`, cuts the rest of the text. -/
private theorem splitLoop_eq_cuts {str delim : Bytes} {s : KmpState}
    (h : kmpInit str delim = .ok s) (hpat : delim ≠ []) :
    ∀ {fuel n : ℕ}, str.length < n + fuel → n ≤ str.length →
      splitLoop s fuel n = cuts delim hpat (str.drop n) := by
  obtain ⟨htext, hpat', -, -⟩ := kmpInit_lookup h
  have hpos := List.length_pos_iff.mpr hpat
  intro fuel
  induction fuel with
  | zero => intro n hfuel hn; omega
  | succ fuel ih =>
    intro n hfuel hn
    simp only [splitLoop]
    rcases kmpNext_spec h n with ⟨p, t, hnext, hfirst⟩ | ⟨hnext, hnone⟩
    · have hle := hfirst.2.1.le_length hpat
      have hnp := hfirst.1
      rw [hnext, (isSplit_cuts hpat).of_cutAt (hfirst.cutAt hpat), ← ih (by omega) hle]
      simp [htext, hpat']
    · rw [hnext, (isSplit_cuts hpat).of_not_isInfix, htext]
      intro hin
      obtain ⟨q, hq⟩ := (isInfix_iff_occursAt hpat).mp hin
      exact hnone (n + q) (by omega) (occursAt_drop.mp hq)

/-- `string/split` cuts at every delimiter. -/
theorem pieces_isSplit {delim : Bytes} (hpat : delim ≠ []) : IsSplit delim (pieces delim) := by
  have hcuts : pieces delim = cuts delim hpat := by
    funext str
    obtain ⟨s, hs⟩ := exists_kmpInit str hpat
    simp only [pieces, stringSplit, hs, bind, Except.bind, pure, Except.pure]
    rw [splitLoop_eq_cuts hs hpat (by omega) (by omega), List.drop_zero]
  rw [hcuts]
  exact isSplit_cuts hpat

/-- With a delimiter of one byte, the pieces are what lies between these bytes. -/
theorem pieces_singleton (c : UInt8) (str : Bytes) : pieces [c] str = str.splitOn c := by
  have hpat : [c] ≠ [] := by simp
  have hs := pieces_isSplit hpat
  have hfree : ∀ piece ∈ pieces [c] str, c ∉ piece := by
    intro piece hpiece hc
    exact hs.not_isInfix_of_mem hpat hpiece ((List.singleton_infix_iff c piece).mpr hc)
  have hsplit := List.splitOn_intercalate c hfree (hs.ne_nil hpat str)
  rw [hs.intercalate hpat] at hsplit
  exact hsplit.symm

/-! ### `string/replace` -/

/-- `(string/replace patt subst str)` with a byte sequence to put in. -/
def stringReplace (patt subst str : Bytes) : Call Bytes := do
  let s ← kmpInit str patt
  match kmpNext s with
  | none => return s.text
  | some (result, _) =>
    return s.text.take result ++ (subst ++ s.text.drop (result + s.pat.length))

private theorem kmpSeti_of_kmpInit {text pat : Bytes} {s : KmpState}
    (h : kmpInit text pat = .ok s) : kmpSeti s 0 = s := by
  unfold kmpInit at h
  split at h
  · cases h
  · cases h
    rfl

theorem stringReplace_of_not_isInfix {patt str : Bytes} (hpat : patt ≠ []) (subst : Bytes)
    (h : ¬ patt <:+: str) : stringReplace patt subst str = .ok str := by
  obtain ⟨s, hs⟩ := exists_kmpInit str hpat
  obtain ⟨htext, -, -, -⟩ := kmpInit_lookup hs
  rcases kmpNext_spec hs 0 with ⟨p, t, -, hfirst⟩ | ⟨hnext, -⟩
  · exact absurd ((isInfix_iff_occursAt hpat).mpr ⟨p, hfirst.2.1⟩) h
  · rw [kmpSeti_of_kmpInit hs] at hnext
    simp [stringReplace, hs, hnext, htext, bind, Except.bind, pure, Except.pure]

/-- Only the first occurrence is replaced. -/
theorem stringReplace_of_cutAt {patt str a b : Bytes} (hpat : patt ≠ []) (subst : Bytes)
    (h : CutAt patt str a b) : stringReplace patt subst str = .ok (a ++ (subst ++ b)) := by
  obtain ⟨s, hs⟩ := exists_kmpInit str hpat
  obtain ⟨htext, hpat', -, -⟩ := kmpInit_lookup hs
  rcases kmpNext_spec hs 0 with ⟨p, t, hnext, hfirst⟩ | ⟨-, hnone⟩
  · rw [kmpSeti_of_kmpInit hs] at hnext
    have hcut := hfirst.cutAt hpat
    rw [List.drop_zero, Nat.sub_zero] at hcut
    obtain ⟨rfl, rfl⟩ := hcut.unique h
    simp [stringReplace, hs, hnext, htext, hpat', bind, Except.bind, pure, Except.pure]
  · refine absurd ?_ (hnone a.length (by omega))
    rw [h.eq]
    exact occursAt_length_append patt a b

/-! ### `string/trim` -/

/-- `trim_help_checkset`. -/
def trimHelpCheckset (set : Bytes) (x : UInt8) : Bool := set.any (· == x)

/-- `trim_help_leftedge`. -/
def trimHelpLeftedge (set : Bytes) : Bytes → ℕ
  | [] => 0
  | x :: str => if trimHelpCheckset set x then trimHelpLeftedge set str + 1 else 0

/-- The loop of `trim_help_rightedge`, counting down from `i`. -/
def trimHelpRightedge (str set : Bytes) : (i : ℕ) → ℕ
  | 0 => 0
  | i + 1 =>
    if trimHelpCheckset set (str.getD i 0) then trimHelpRightedge str set i else i + 1

/-- `(string/trim str set)`. -/
def stringTrim (str set : Bytes) : Bytes :=
  let left := trimHelpLeftedge set str
  let right := trimHelpRightedge str set str.length
  if right < left then [] else (str.drop left).take (right - left)

private theorem trimHelpLeftedge_of_not {set : Bytes} {x : UInt8}
    (h : trimHelpCheckset set x = false)
    (str : Bytes) : trimHelpLeftedge set (x :: str) = 0 := by
  simp [trimHelpLeftedge, h]

private theorem trimHelpRightedge_append {set a b : Bytes} (hb : ∀ x ∈ b, trimHelpCheckset set x) :
    ∀ {n : ℕ}, n ≤ b.length →
      trimHelpRightedge (a ++ b) set (a.length + n) = trimHelpRightedge (a ++ b) set a.length := by
  intro n
  induction n with
  | zero => intro _; rfl
  | succ n ih =>
    intro hn
    have hget : (a ++ b).getD (a.length + n) 0 = b[n] := by
      rw [List.getD_eq_getElem?_getD, List.getElem?_append_right (by omega)]
      simp [List.getElem?_eq_getElem (show n < b.length by omega)]
    rw [← Nat.add_assoc, trimHelpRightedge, hget, if_pos (hb _ (List.getElem_mem _))]
    exact ih (by omega)

/-- A text whose ends are not in the set loses exactly what was put behind it. -/
theorem stringTrim_append {set a b : Bytes} (hhead : ∀ x ∈ a.head?, trimHelpCheckset set x = false)
    (hlast : ∀ x ∈ a.getLast?, trimHelpCheckset set x = false)
    (hb : ∀ x ∈ b, trimHelpCheckset set x) : stringTrim (a ++ b) set = a := by
  have hright : trimHelpRightedge (a ++ b) set (a ++ b).length = a.length := by
    rw [List.length_append, trimHelpRightedge_append hb le_rfl]
    rcases List.eq_nil_or_concat a with rfl | ⟨a', x, rfl⟩
    · rfl
    · have hx := hlast x (by simp)
      simp [trimHelpRightedge, hx]
  rw [stringTrim, hright]
  cases a with
  | nil =>
    split
    · rfl
    · simp
  | cons x a =>
    have hx := hhead x (by simp)
    rw [List.cons_append, trimHelpLeftedge_of_not hx]
    simp

/-! ### `string/join` and `string/ascii-lower` -/

/-- The bytes of a value, as `janet_bytes_view` sees them. -/
def bytesView : Value → Option Bytes
  | .string s | .symbol s | .keyword s | .buffer s => some s
  | _ => none

/-- The check of `cfun_string_join`, from item `i` on. -/
def joinParts : (i : ℕ) → List Value → Call (List Bytes)
  | _, [] => .ok []
  | i, v :: parts =>
    match bytesView v with
    | some chunk => do return chunk :: (← joinParts (i + 1) parts)
    | none => .error (.badPart i)

/-- `(string/join parts sep)`. -/
def stringJoin (parts : List Value) (sep : Bytes) : Call Bytes := do
  return List.intercalate sep (← joinParts 0 parts)

/-- The check of `finallen` in `cfun_string_join`. -/
def checkFinallen (joined : Bytes) : Call Bytes :=
  if joined.length > int32Max then .error .tooLong else .ok joined

/-- Byte sequences are joined, whatever type they have. -/
theorem stringJoin_of_bytesView {parts : List Value} {chunks : List Bytes}
    (h : parts.map bytesView = chunks.map some) (sep : Bytes) :
    stringJoin parts sep = .ok (List.intercalate sep chunks) := by
  have hparts : ∀ i, joinParts i parts = .ok chunks := by
    induction chunks generalizing parts with
    | nil =>
      intro i
      rw [List.map_eq_nil_iff.mp h]
      rfl
    | cons chunk chunks ih =>
      intro i
      obtain ⟨v, parts, rfl, hv, hparts⟩ := List.map_eq_cons_iff.mp h
      simp [joinParts, hv, ih hparts, bind, Except.bind, pure, Except.pure]
  simp [stringJoin, hparts, bind, Except.bind, pure, Except.pure]

theorem stringJoin_strings (parts : List Bytes) (sep : Bytes) :
    stringJoin (parts.map .string) sep = .ok (List.intercalate sep parts) := by
  refine stringJoin_of_bytesView ?_ sep
  rw [List.map_map]
  rfl

/-- `(string/ascii-lower str)`. -/
def asciiLower (str : Bytes) : Bytes :=
  str.map fun c => if 65 ≤ c ∧ c ≤ 90 then c + 32 else c

/-! ### `array/slice` -/

/-- `janet_gethalfrange`: a negative index counts from the end. -/
def getHalfRange (raw : ℤ) (length : ℕ) : Call ℕ :=
  let notRaw := if raw < 0 then raw + length + 1 else raw
  if notRaw < 0 ∨ notRaw > length then .error .outOfRange else .ok notRaw.toNat

/-- `(array/slice xs start end)`. -/
def arraySlice {α : Type} (xs : List α) (start stop : ℤ) : Call (List α) := do
  let first ← getHalfRange start xs.length
  let last ← getHalfRange stop xs.length
  let last := if last < first then first else last
  return (xs.drop first).take (last - first)

/-- `(get xs i)` on an array of strings. -/
def getString (xs : List Bytes) (i : ℕ) : Value :=
  match xs[i]? with
  | some s => .string s
  | none => .nil

end AhungryJanet
