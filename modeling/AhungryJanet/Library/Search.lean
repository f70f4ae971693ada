import Mathlib.Data.List.Basic
import Mathlib.Data.List.Infix
import Mathlib.Data.Nat.Find

/-!
# Occurrences, borders and splitting

The general facts behind a text search, over an arbitrary alphabet. Nothing here mentions a
particular searching algorithm: `OccursAt` says where a pattern stands, `IsBorder` is the relation
a failure table tabulates, `CutAt` is the result of a search, and `IsSplit` is what it means for a
function to cut a text at every delimiter.

## Positions, not substrings

An occurrence is stated position by position, through `getElem?`. A search compares letters at
indices, so its loop invariants are equalities of letters; the substring form is recovered once,
in `occursAt_length_append` and `OccursAt.eq_append`.

## Main results

* `IsBorder.trans`, `IsBorder.of_lt` — borders of borders
* `CutAt.append_right`, `cutAt_of_unbordered` — first occurrences in a longer text
* `IsSplit.unique`, `IsSplit.append` — a split is determined by its two rules, and is
  compositional for a delimiter that cannot overlap itself
-/

namespace Search

variable {α : Type*}

/-! ### Occurrences -/

/-- `pat` stands in `text` at position `s`. -/
def OccursAt (pat text : List α) (s : ℕ) : Prop :=
  ∀ k < pat.length, text[s + k]? = pat[k]?

theorem OccursAt.le_length {pat text : List α} {s : ℕ} (h : OccursAt pat text s)
    (hpat : pat ≠ []) : s + pat.length ≤ text.length := by
  have hpos : 0 < pat.length := List.length_pos_iff.mpr hpat
  have hk := h (pat.length - 1) (by omega)
  rw [List.getElem?_eq_getElem (l := pat) (by omega)] at hk
  obtain ⟨hlt, _⟩ := List.getElem?_eq_some_iff.mp hk
  omega

/-- A pattern written down at the end of `a` occurs at position `a.length`. -/
theorem occursAt_length_append (pat a b : List α) : OccursAt pat (a ++ (pat ++ b)) a.length := by
  intro k hk
  rw [List.getElem?_append_right (by omega), List.getElem?_append_left (by omega)]
  congr 1
  omega

theorem OccursAt.eq_append {pat text : List α} {s : ℕ} (h : OccursAt pat text s)
    (hpat : pat ≠ []) : text = text.take s ++ (pat ++ text.drop (s + pat.length)) := by
  have hle := h.le_length hpat
  have hmid : (text.drop s).take pat.length = pat := by
    apply List.ext_getElem?
    intro k
    rcases Nat.lt_or_ge k pat.length with hk | hk
    · rw [List.getElem?_take_of_lt hk, List.getElem?_drop]
      exact h k hk
    · rw [List.getElem?_eq_none (by simp; omega), List.getElem?_eq_none hk]
  calc text = text.take s ++ text.drop s := (List.take_append_drop s text).symm
    _ = text.take s ++ ((text.drop s).take pat.length ++ (text.drop s).drop pat.length) := by
        rw [List.take_append_drop pat.length]
    _ = text.take s ++ (pat ++ text.drop (s + pat.length)) := by
        rw [hmid, List.drop_drop]

theorem isInfix_iff_occursAt {pat text : List α} (hpat : pat ≠ []) :
    pat <:+: text ↔ ∃ s, OccursAt pat text s := by
  constructor
  · rintro ⟨a, b, rfl⟩
    exact ⟨a.length, by simpa using occursAt_length_append pat a b⟩
  · rintro ⟨s, h⟩
    exact ⟨text.take s, _, by rw [List.append_assoc]; exact (h.eq_append hpat).symm⟩

/-- An occurrence that ends inside the first part of a text is an occurrence in that part. -/
theorem occursAt_append_iff {pat a b : List α} {s : ℕ} (h : s + pat.length ≤ a.length) :
    OccursAt pat (a ++ b) s ↔ OccursAt pat a s := by
  refine forall_congr' fun k => forall_congr' fun hk => ?_
  rw [List.getElem?_append_left (by omega)]

/-- An occurrence behind the first part of a text is an occurrence in the rest. -/
theorem occursAt_append_left_iff {pat a b : List α} {s : ℕ} :
    OccursAt pat (a ++ b) (a.length + s) ↔ OccursAt pat b s := by
  refine forall_congr' fun k => forall_congr' fun hk => ?_
  have heq : a.length + s + k - a.length = s + k := by omega
  rw [List.getElem?_append_right (by omega), heq]

/-! ### Borders -/

/-- `b` is the length of a proper border of the first `j` letters of `pat`: a shorter prefix that
is also a suffix of them. -/
def IsBorder (pat : List α) (j b : ℕ) : Prop :=
  b < j ∧ ∀ k < b, pat[j - b + k]? = pat[k]?

theorem isBorder_zero {pat : List α} {j : ℕ} (h : 0 < j) : IsBorder pat j 0 :=
  ⟨h, fun _ hk => absurd hk (Nat.not_lt_zero _)⟩

theorem IsBorder.trans {pat : List α} {i j b : ℕ} (hj : IsBorder pat i j)
    (hb : IsBorder pat j b) : IsBorder pat i b := by
  obtain ⟨hji, hj⟩ := hj
  obtain ⟨hbj, hb⟩ := hb
  refine ⟨by omega, fun k hk => ?_⟩
  rw [← hb k hk, ← hj (j - b + k) (by omega)]
  congr 1
  omega

/-- Of two borders of the same prefix, the shorter is a border of the longer. -/
theorem IsBorder.of_lt {pat : List α} {i j b : ℕ} (hj : IsBorder pat i j)
    (hb : IsBorder pat i b) (hbj : b < j) : IsBorder pat j b := by
  obtain ⟨hji, hj⟩ := hj
  obtain ⟨hbi, hb⟩ := hb
  refine ⟨hbj, fun k hk => ?_⟩
  rw [← hb k hk, ← hj (j - b + k) (by omega)]
  congr 1
  omega

theorem IsBorder.extend {pat : List α} {i b : ℕ} (hb : IsBorder pat i b)
    (hlast : pat[b]? = pat[i]?) : IsBorder pat (i + 1) (b + 1) := by
  obtain ⟨hbi, hb⟩ := hb
  refine ⟨by omega, fun k hk => ?_⟩
  rcases Nat.lt_or_ge k b with h | h
  · rw [← hb k h]
    congr 1
    omega
  · have hkb : k = b := by omega
    subst hkb
    rw [hlast]
    congr 1
    omega

theorem IsBorder.shrink {pat : List α} {i b : ℕ} (hb : IsBorder pat (i + 1) (b + 1)) :
    IsBorder pat i b ∧ pat[b]? = pat[i]? := by
  obtain ⟨hbi, hb⟩ := hb
  refine ⟨⟨by omega, fun k hk => ?_⟩, ?_⟩
  · rw [← hb k (by omega)]
    congr 1
    omega
  · rw [← hb b (by omega)]
    congr 1
    omega

/-- The longest proper border of the first `j` letters. -/
def IsLongestBorder (pat : List α) (j b : ℕ) : Prop :=
  IsBorder pat j b ∧ ∀ b', IsBorder pat j b' → b' ≤ b

/-! ### Cutting a text at its first occurrence -/

/-- The first occurrence of `pat` cuts `text` into `a` before it and `b` behind it. -/
structure CutAt (pat text a b : List α) : Prop where
  /-- The three parts. -/
  eq : text = a ++ (pat ++ b)
  /-- Nothing earlier. -/
  first : ∀ s < a.length, ¬ OccursAt pat text s

theorem CutAt.isInfix {pat text a b : List α} (h : CutAt pat text a b) : pat <:+: text :=
  ⟨a, b, by rw [h.eq, List.append_assoc]⟩

theorem CutAt.unique {pat text a b a' b' : List α} (h : CutAt pat text a b)
    (h' : CutAt pat text a' b') : a = a' ∧ b = b' := by
  have hocc : OccursAt pat text a.length := by rw [h.eq]; exact occursAt_length_append _ _ _
  have hocc' : OccursAt pat text a'.length := by rw [h'.eq]; exact occursAt_length_append _ _ _
  have hlen : a.length = a'.length := by
    rcases Nat.lt_trichotomy a.length a'.length with hlt | heq | hgt
    · exact absurd hocc (h'.first _ hlt)
    · exact heq
    · exact absurd hocc' (h.first _ hgt)
  obtain ⟨ha, hb⟩ := List.append_inj (h.eq.symm.trans h'.eq) hlen
  exact ⟨ha, List.append_cancel_left hb⟩

/-- What is behind the first occurrence does not matter for where it stands. -/
theorem CutAt.append_right {pat text a b : List α} (h : CutAt pat text a b) (c : List α) :
    CutAt pat (text ++ c) a (b ++ c) := by
  refine ⟨by rw [h.eq]; simp, fun s hs hocc => h.first s hs ?_⟩
  have hlen : s + pat.length ≤ text.length := by rw [h.eq]; simp; omega
  exact (occursAt_append_iff hlen).mp hocc

/-- The front of a text is cut at the same place if it reaches that far. -/
theorem CutAt.of_isPrefix {pat text a b t : List α} (h : CutAt pat text a b) (ht : t <+: text)
    (hle : a.length + pat.length ≤ t.length) : ∃ b', CutAt pat t a b' := by
  have hleft : a ++ pat <+: text := ⟨b, by rw [h.eq, List.append_assoc]⟩
  have hpre : a ++ pat <+: t :=
    List.prefix_of_prefix_length_le hleft ht (by rwa [List.length_append])
  obtain ⟨b', rfl⟩ := hpre
  obtain ⟨u, rfl⟩ := ht
  refine ⟨b', by rw [List.append_assoc], fun s hs hocc => h.first s hs ?_⟩
  exact (occursAt_append_iff (by simp; omega)).mpr hocc

theorem CutAt.isInfix_iff {pat text a b t : List α} (h : CutAt pat text a b) (hpat : pat ≠ [])
    (ht : t <+: text) : pat <:+: t ↔ a.length + pat.length ≤ t.length := by
  constructor
  · intro hin
    obtain ⟨s, hs⟩ := (isInfix_iff_occursAt hpat).mp hin
    have hle := hs.le_length hpat
    obtain ⟨u, rfl⟩ := ht
    have hge := Nat.not_lt.mp fun hlt => h.first s hlt ((occursAt_append_iff hle).mpr hs)
    omega
  · intro hle
    obtain ⟨b', hcut⟩ := h.of_isPrefix ht hle
    exact hcut.isInfix

/-- An occurrence does not reach over a letter that the pattern does not have. -/
theorem OccursAt.of_append_cons {pat a b : List α} {x : α} {s : ℕ} (hx : x ∉ pat)
    (h : OccursAt pat (a ++ x :: b) s) : s + pat.length ≤ a.length ∨ a.length < s := by
  by_contra hcon
  have hlt : a.length - s < pat.length := by omega
  have hk := h (a.length - s) hlt
  rw [Nat.add_sub_cancel' (by omega), List.getElem?_append_right (le_refl _), Nat.sub_self,
    List.getElem?_cons_zero] at hk
  exact hx (List.mem_of_getElem? hk.symm)

/-- The first occurrence is on one side of such a letter. -/
theorem CutAt.of_append_cons {pat a b u v : List α} {x : α} (h : CutAt pat (a ++ x :: b) u v)
    (hx : x ∉ pat) (hpat : pat ≠ []) :
    (∃ v', CutAt pat a u v') ∨
      (¬ pat <:+: a ∧ ∃ u', u = a ++ x :: u' ∧ CutAt pat b u' v) := by
  have hocc : OccursAt pat (a ++ x :: b) u.length := by
    rw [h.eq]
    exact occursAt_length_append pat u v
  rcases hocc.of_append_cons hx with hle | hlt
  · exact .inl (h.of_isPrefix (List.prefix_append a _) hle)
  · right
    refine ⟨fun hin => ?_, ?_⟩
    · obtain ⟨s, hs⟩ := (isInfix_iff_occursAt hpat).mp hin
      have hle := hs.le_length hpat
      exact h.first s (by omega) ((occursAt_append_iff hle).mpr hs)
    · have hleft : a ++ [x] <+: a ++ x :: b := ⟨b, by simp⟩
      have hpre : a ++ [x] <+: u :=
        List.prefix_of_prefix_length_le hleft ⟨pat ++ v, h.eq.symm⟩
          (by simpa using Nat.succ_le_of_lt hlt)
      obtain ⟨u', rfl⟩ := hpre
      have happ : a ++ x :: b = (a ++ [x]) ++ b := by simp
      have heq := h.eq
      rw [happ, List.append_assoc (a ++ [x])] at heq
      refine ⟨u', by simp, List.append_cancel_left heq, fun s hs hocc' => ?_⟩
      refine h.first ((a ++ [x]).length + s) (by simp at hs ⊢; omega) ?_
      rw [happ]
      exact occursAt_append_left_iff.mpr hocc'

theorem cutAt_self_append (pat b : List α) : CutAt pat (pat ++ b) [] b :=
  ⟨rfl, fun _ hs => absurd hs (Nat.not_lt_zero _)⟩

/-- A search that fails at the first position goes on at the next. -/
theorem CutAt.cons {pat text a b : List α} {x : α} (h : CutAt pat text a b)
    (hx : ¬ pat <+: x :: text) : CutAt pat (x :: text) (x :: a) b := by
  refine ⟨by rw [h.eq]; rfl, fun s hs hocc => ?_⟩
  cases s with
  | zero =>
    have hpat : pat ≠ [] := by
      rintro rfl
      exact hx List.nil_prefix
    exact hx ⟨_, by simpa using (hocc.eq_append hpat).symm⟩
  | succ s =>
    refine h.first s (Nat.lt_of_succ_lt_succ hs) fun k hk => ?_
    have hk := hocc k hk
    rwa [Nat.succ_add, List.getElem?_cons_succ] at hk

/-- A pattern without borders cannot overlap itself. -/
def Unbordered (pat : List α) : Prop := ∀ b, 0 < b → ¬ IsBorder pat pat.length b

/-- For a pattern that cannot overlap itself, a delimiter written behind a part free of it is
found exactly there. -/
theorem cutAt_of_unbordered {pat a : List α} (hu : Unbordered pat) (hpat : pat ≠ [])
    (ha : ¬ pat <:+: a) (b : List α) : CutAt pat (a ++ (pat ++ b)) a b := by
  refine ⟨rfl, fun s hs hocc => ?_⟩
  rcases Nat.lt_or_ge a.length (s + pat.length) with hlt | hle
  · -- the occurrence straddles the end of `a`, so its tail is a head of `pat`
    refine hu (s + pat.length - a.length) (by omega) ⟨by omega, fun k hk => ?_⟩
    have h1 := hocc (pat.length - (s + pat.length - a.length) + k) (by omega)
    have h2 := occursAt_length_append pat a b k (by omega)
    rw [← h1, ← h2]
    congr 1
    omega
  · exact ha ((isInfix_iff_occursAt hpat).mpr ⟨s, (occursAt_append_iff hle).mp hocc⟩)

theorem not_isInfix_or_exists_cutAt (pat text : List α) (hpat : pat ≠ []) :
    ¬ pat <:+: text ∨ ∃ a b, CutAt pat text a b := by
  classical
  by_cases h : pat <:+: text
  · right
    have hex := (isInfix_iff_occursAt hpat).mp h
    refine ⟨text.take (Nat.find hex), _, (Nat.find_spec hex).eq_append hpat,
      fun s hs => Nat.find_min hex ?_⟩
    exact lt_of_lt_of_le hs (List.length_take_le _ _)
  · exact Or.inl h

/-! ### Splitting -/

/-- `split` cuts a text at every delimiter `pat`, from left to right. -/
structure IsSplit (pat : List α) (split : List α → List (List α)) : Prop where
  /-- A text without a delimiter is one piece. -/
  of_not_isInfix : ∀ {text}, ¬ pat <:+: text → split text = [text]
  /-- Otherwise the first delimiter ends the first piece. -/
  of_cutAt : ∀ {text a b}, CutAt pat text a b → split text = a :: split b

/-- So the text contains the pattern if one side does. -/
theorem isInfix_append_cons_iff {pat a b : List α} {x : α} (hx : x ∉ pat) (hpat : pat ≠ []) :
    pat <:+: a ++ x :: b ↔ pat <:+: a ∨ pat <:+: b := by
  constructor
  · intro h
    rcases not_isInfix_or_exists_cutAt pat (a ++ x :: b) hpat with hnot | ⟨u, v, hcut⟩
    · exact absurd h hnot
    rcases hcut.of_append_cons hx hpat with ⟨v', hleft⟩ | ⟨-, u', -, hright⟩
    · exact .inl hleft.isInfix
    · exact .inr hright.isInfix
  · rintro (h | h)
    · exact h.trans (List.prefix_append a _).isInfix
    · exact h.trans ((List.suffix_cons x b).isInfix.trans (List.suffix_append a _).isInfix)

theorem CutAt.length_lt {pat text a b : List α} (h : CutAt pat text a b) (hpat : pat ≠ []) :
    b.length < text.length := by
  have := List.length_pos_iff.mpr hpat
  rw [h.eq]
  simp
  omega

/-- The two rules leave no freedom. -/
theorem IsSplit.unique {pat : List α} {f g : List α → List (List α)} (hf : IsSplit pat f)
    (hg : IsSplit pat g) (hpat : pat ≠ []) (text : List α) : f text = g text := by
  rcases not_isInfix_or_exists_cutAt pat text hpat with h | ⟨a, b, h⟩
  · rw [hf.of_not_isInfix h, hg.of_not_isInfix h]
  · have hlt := h.length_lt hpat
    rw [hf.of_cutAt h, hg.of_cutAt h, hf.unique hg hpat b]
termination_by text.length

theorem IsSplit.ne_nil {pat : List α} {f : List α → List (List α)} (hf : IsSplit pat f)
    (hpat : pat ≠ []) (text : List α) : f text ≠ [] := by
  rcases not_isInfix_or_exists_cutAt pat text hpat with h | ⟨a, b, h⟩
  · rw [hf.of_not_isInfix h]; simp
  · rw [hf.of_cutAt h]; simp

open Classical in
/-- The split itself, by choice of the first cut. -/
noncomputable def cuts (pat : List α) (hpat : pat ≠ []) (text : List α) : List (List α) :=
  if h : ∃ ab : List α × List α, CutAt pat text ab.1 ab.2 then
    have := h.choose_spec.length_lt hpat
    h.choose.1 :: cuts pat hpat h.choose.2
  else [text]
termination_by text.length

theorem isSplit_cuts {pat : List α} (hpat : pat ≠ []) : IsSplit pat (cuts pat hpat) := by
  refine ⟨fun h => ?_, fun {text a b} h => ?_⟩
  · rw [cuts, dif_neg]
    rintro ⟨ab, hab⟩
    exact h hab.isInfix
  · have hex : ∃ ab : List α × List α, CutAt pat text ab.1 ab.2 := ⟨(a, b), h⟩
    obtain ⟨ha, hb⟩ := hex.choose_spec.unique h
    rw [cuts, dif_pos hex]
    simp only [ha, hb]

/-- A delimiter that cannot overlap itself splits a concatenation piece by piece. -/
theorem IsSplit.append {pat : List α} {f : List α → List (List α)} (hf : IsSplit pat f)
    (hu : Unbordered pat) (hpat : pat ≠ []) (text rest : List α) :
    f (text ++ (pat ++ rest)) = f text ++ f rest := by
  rcases not_isInfix_or_exists_cutAt pat text hpat with h | ⟨a, b, h⟩
  · rw [hf.of_not_isInfix h, hf.of_cutAt (cutAt_of_unbordered hu hpat h rest)]
    simp
  · have hlt := h.length_lt hpat
    rw [hf.of_cutAt h, hf.of_cutAt (h.append_right (pat ++ rest)), hf.append hu hpat b rest]
    simp
termination_by text.length

/-- No piece contains a delimiter. -/
theorem IsSplit.not_isInfix_of_mem {pat : List α} {f : List α → List (List α)} (hf : IsSplit pat f)
    (hpat : pat ≠ []) {text piece : List α} (hp : piece ∈ f text) : ¬ pat <:+: piece := by
  rcases not_isInfix_or_exists_cutAt pat text hpat with h | ⟨a, b, h⟩
  · rw [hf.of_not_isInfix h, List.mem_singleton] at hp
    rwa [hp]
  · have hlt := h.length_lt hpat
    rw [hf.of_cutAt h] at hp
    rcases List.mem_cons.mp hp with rfl | hp
    · intro hin
      obtain ⟨s, hs⟩ := (isInfix_iff_occursAt hpat).mp hin
      have hle := hs.le_length hpat
      have hpos := List.length_pos_iff.mpr hpat
      refine h.first s (by omega) ?_
      rw [h.eq]
      exact (occursAt_append_iff hle).mpr hs
    · exact hf.not_isInfix_of_mem hpat hp
termination_by text.length

/-- Joining the pieces with the delimiter gives the text back. -/
theorem IsSplit.intercalate {pat : List α} {f : List α → List (List α)} (hf : IsSplit pat f)
    (hpat : pat ≠ []) (text : List α) : List.intercalate pat (f text) = text := by
  rcases not_isInfix_or_exists_cutAt pat text hpat with h | ⟨a, b, h⟩
  · rw [hf.of_not_isInfix h]
    simp [List.intercalate]
  · have hlt := h.length_lt hpat
    have ih := hf.intercalate hpat b
    rw [hf.of_cutAt h]
    obtain ⟨p, ps, hps⟩ := List.exists_cons_of_ne_nil (hf.ne_nil hpat b)
    rw [hps] at ih ⊢
    rw [h.eq, ← ih]
    simp [List.intercalate]
termination_by text.length

/-- **Splitting undoes joining** parts that are free of the delimiter. -/
theorem IsSplit.of_intercalate {pat : List α} {f : List α → List (List α)} (hf : IsSplit pat f)
    (hu : Unbordered pat) (hpat : pat ≠ []) :
    ∀ {parts : List (List α)}, parts ≠ [] → (∀ p ∈ parts, ¬ pat <:+: p) →
      f (List.intercalate pat parts) = parts
  | [], hne, _ => absurd rfl hne
  | [p], _, h => by simpa [List.intercalate] using hf.of_not_isInfix (h p (by simp))
  | p :: q :: parts, _, h => by
    have ih : f (List.intercalate pat (q :: parts)) = q :: parts :=
      hf.of_intercalate hu hpat (by simp) fun r hr => h r (List.mem_cons_of_mem p hr)
    have hjoin : List.intercalate pat (p :: q :: parts) =
        p ++ (pat ++ List.intercalate pat (q :: parts)) := by
      simp [List.intercalate]
    rw [hjoin, hf.of_cutAt (cutAt_of_unbordered hu hpat (h p (by simp)) _), ih]

/-- Before the first occurrence of a letter there is none. -/
theorem CutAt.not_mem_of_singleton {x : α} {text a b : List α} (h : CutAt [x] text a b) :
    x ∉ a := by
  intro hx
  obtain ⟨s, hs, rfl⟩ := List.getElem_of_mem hx
  refine h.first s hs fun k hk => ?_
  have hk0 : k = 0 := by simpa using hk
  rw [hk0, h.eq, Nat.add_zero, List.getElem?_append_left hs]
  simp [hs]

/-- A letter is an unbordered delimiter. -/
theorem unbordered_singleton (a : α) : Unbordered [a] := by
  intro b hb h
  have := h.1
  simp only [List.length_singleton] at this
  omega

/-- So are two different letters. -/
theorem unbordered_pair {a b : α} (hab : a ≠ b) : Unbordered [a, b] := by
  intro n hn h
  obtain ⟨hlt, h⟩ := h
  simp only [List.length_cons, List.length_nil] at hlt h
  have hn1 : n = 1 := by omega
  subst hn1
  have := h 0 (by omega)
  simp at this
  exact hab this.symm

end Search
