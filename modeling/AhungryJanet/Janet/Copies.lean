import AhungryJanet.Janet.Memory
import Mathlib.Data.List.Perm.Basic

/-!
# Copies

What it means that data somewhere else is a copy: there is a one-to-one correspondence between the
addresses of the two, and what is at corresponding addresses is the same up to it. So what is shared
or circular in one is so in the other, in the same way. The order of the slots of a table or a
struct does not matter, as it depends on addresses.

## Main results

* `Copy.of_equals` — a copy of a value is a copy of an equal one
* `equals_of_copies` — values with equal copies are equal
-/

namespace AhungryJanet.Marshal

variable {R S : ℕ → ℕ → Prop}

/-- What is in a struct, and the same with its entries in another order. -/
def Reordered (hasProto : Bool) (xs ys : List Datum) : Prop :=
  ∃ (proto : Option Datum) (kvs kvs' : Entries), hasProto = proto.isSome ∧
    xs = proto.toList ++ flatten kvs ∧ ys = proto.toList ++ flatten kvs' ∧ kvs'.Perm kvs

mutual

/-- The same value up to a relation of addresses. -/
def Copy (R : ℕ → ℕ → Prop) : Datum → Datum → Prop
  | .nil, .nil => True
  | .boolean b, .boolean b' => b = b'
  | .number x, .number y => SameNumber x y
  | .text kind s, .text kind' s' => kind = kind' ∧ s = s'
  | .tuple b xs, .tuple b' ys => b = b' ∧ CopyItems R xs ys
  | .struct p xs, .struct p' ys => p = p' ∧ ∃ copies, CopyItems R xs copies ∧ Reordered p copies ys
  | .ref a, .ref a' => R a a'
  | _, _ => False

def CopyItems (R : ℕ → ℕ → Prop) : List Datum → List Datum → Prop
  | [], [] => True
  | x :: xs, y :: ys => Copy R x y ∧ CopyItems R xs ys
  | _, _ => False

end

/-- Entry by entry. -/
def CopyEntry (R : ℕ → ℕ → Prop) (e e' : Datum × Datum) : Prop := Copy R e.1 e'.1 ∧ Copy R e.2 e'.2

/-- The same object up to a relation of addresses, and the order of slots. -/
inductive CopyObj (R : ℕ → ℕ → Prop) : Obj → Obj → Prop
  | buffer (s : Bytes) : CopyObj R (.buffer s) (.buffer s)
  | array {xs ys : List Datum} (h : List.Forall₂ (Copy R) xs ys) : CopyObj R (.array xs) (.array ys)
  | table {proto proto' : Option ℕ} {kvs kvs' walked : Entries} (hproto : Option.Rel R proto proto')
      (h : List.Forall₂ (CopyEntry R) kvs kvs') (hwalk : walked.Perm kvs') :
      CopyObj R (.table proto kvs) (.table proto' walked)

/-- `y` in one heap is a copy of `x` in another, made of objects from `base` on. -/
structure IsCopy (heap : Heap) (x : Datum) (heap' : Heap) (base : ℕ) (y : Datum)
    (R : ℕ → ℕ → Prop) : Prop where
  copy : Copy R x y
  object : ∀ a b, R a b →
    ∃ o o', heap[a]? = some o ∧ heap'[b]? = some o' ∧ CopyObj R o o'
  one : ∀ a b b', R a b → R a b' → b = b'
  only : ∀ a a' b, R a b → R a' b → a = a'
  /-- The objects from `base` on are the copies, and nothing else. -/
  fresh : ∀ b, (∃ a, R a b) ↔ base ≤ b ∧ b < heap'.length

theorem copyItems_iff {xs ys : List Datum} :
    CopyItems R xs ys ↔ List.Forall₂ (Copy R) xs ys := by
  induction xs generalizing ys with
  | nil => cases ys <;> simp [CopyItems]
  | cons x xs ih => cases ys <;> simp [CopyItems, ih]

mutual

theorem Copy.mono (hRS : ∀ a b, R a b → S a b) : ∀ {x y : Datum}, Copy R x y → Copy S x y
  | .nil, y, h => by cases y <;> simp_all [Copy]
  | .boolean _, y, h => by cases y <;> simp_all [Copy]
  | .number _, y, h => by cases y <;> simp_all [Copy]
  | .text _ _, y, h => by cases y <;> simp_all [Copy]
  | .tuple _ xs, y, h => by
    cases y with
    | tuple b' ys =>
      rw [Copy] at h ⊢
      exact ⟨h.1, CopyItems.mono hRS h.2⟩
    | _ => simp [Copy] at h
  | .struct _ xs, y, h => by
    cases y with
    | struct p' ys =>
      rw [Copy] at h ⊢
      obtain ⟨hp, copies, hcopies, horder⟩ := h
      exact ⟨hp, copies, CopyItems.mono hRS hcopies, horder⟩
    | _ => simp [Copy] at h
  | .ref a, y, h => by
    cases y with
    | ref b =>
      rw [Copy] at h ⊢
      exact hRS a b h
    | _ => simp [Copy] at h

theorem CopyItems.mono (hRS : ∀ a b, R a b → S a b) :
    ∀ {xs ys : List Datum}, CopyItems R xs ys → CopyItems S xs ys
  | [], ys, h => by cases ys <;> simp_all [CopyItems]
  | x :: xs, ys, h => by
    cases ys with
    | nil => simp [CopyItems] at h
    | cons y ys =>
      rw [CopyItems] at h ⊢
      exact ⟨Copy.mono hRS h.1, CopyItems.mono hRS h.2⟩

end

mutual

/-- A copy of a value is a copy of an equal one. -/
theorem Copy.of_equals : ∀ {x x' y : Datum}, janetEquals x x' = true → Copy R x y → Copy R x' y
  | .nil, x', y, h, hcopy => by cases x' <;> simp_all [janetEquals]
  | .boolean _, x', y, h, hcopy => by cases x' <;> simp_all [janetEquals]
  | .number n, x', y, h, hcopy => by
    cases x' with
    | number n' =>
      cases y with
      | number m =>
        rw [janetEquals] at h
        rw [Copy] at hcopy ⊢
        exact (SameNumber.symm (.inl h)).trans hcopy
      | _ => simp [Copy] at hcopy
    | _ => simp [janetEquals] at h
  | .text _ _, x', y, h, hcopy => by cases x' <;> simp_all [janetEquals]
  | .tuple b xs, x', y, h, hcopy => by
    cases x' with
    | tuple b' xs' =>
      cases y with
      | tuple c ys =>
        rw [janetEquals, Bool.and_eq_true, beq_iff_eq] at h
        rw [Copy] at hcopy ⊢
        exact ⟨h.1 ▸ hcopy.1, CopyItems.of_equals h.2 hcopy.2⟩
      | _ => simp [Copy] at hcopy
    | _ => simp [janetEquals] at h
  | .struct p xs, x', y, h, hcopy => by
    cases x' with
    | struct p' xs' =>
      cases y with
      | struct q ys =>
        rw [janetEquals, Bool.and_eq_true, beq_iff_eq] at h
        rw [Copy] at hcopy ⊢
        obtain ⟨hp, copies, hcopies, horder⟩ := hcopy
        exact ⟨h.1 ▸ hp, copies, CopyItems.of_equals h.2 hcopies, h.1 ▸ horder⟩
      | _ => simp [Copy] at hcopy
    | _ => simp [janetEquals] at h
  | .ref a, x', y, h, hcopy => by cases x' <;> simp_all [janetEquals]

theorem CopyItems.of_equals : ∀ {xs xs' ys : List Datum}, equalItems xs xs' = true →
    CopyItems R xs ys → CopyItems R xs' ys
  | [], xs', ys, h, hcopy => by cases xs' <;> simp_all [equalItems]
  | x :: xs, xs', ys, h, hcopy => by
    cases xs' with
    | nil => simp [equalItems] at h
    | cons x' xs' =>
      cases ys with
      | nil => simp [CopyItems] at hcopy
      | cons y ys =>
        rw [equalItems, Bool.and_eq_true] at h
        rw [CopyItems] at hcopy ⊢
        exact ⟨Copy.of_equals h.1 hcopy.1, CopyItems.of_equals h.2 hcopy.2⟩

end

theorem SameNumber.doubleEq {x x' y y' : UInt64} (h : SameNumber x y) (h' : SameNumber x' y')
    (heq : doubleEq y y' = true) : doubleEq x x' = true := by
  have hsame := h.trans (SameNumber.trans (.inl heq) h'.symm)
  rcases hsame with hsame | ⟨hx, -⟩
  · exact hsame
  · rcases h with h | ⟨-, hy⟩
    · exact absurd hx (by simp [(doubleEq_iff.mp h).1])
    · exact absurd hy (by simp [(doubleEq_iff.mp heq).1])

/-! ### Entries -/

/-- Keys and values in turn, compared one by one, are entries compared one by one. -/
theorem forall₂_flatten_iff {r : Datum → Datum → Prop} {kvs kvs' : Entries} :
    List.Forall₂ r (flatten kvs) (flatten kvs') ↔
      List.Forall₂ (fun e e' => r e.1 e'.1 ∧ r e.2 e'.2) kvs kvs' := by
  induction kvs generalizing kvs' with
  | nil => cases kvs' <;> simp [flatten]
  | cons e kvs ih =>
    cases kvs' with
    | nil => simp [flatten]
    | cons e' kvs' =>
      have hcons : ∀ (e : Datum × Datum) (kvs : Entries),
          flatten (e :: kvs) = e.1 :: e.2 :: flatten kvs := fun _ _ => rfl
      rw [hcons, hcons, List.forall₂_cons, List.forall₂_cons, ih, List.forall₂_cons, and_assoc]

/-- Two structs, part by part: prototypes and entries. -/
theorem forall₂_struct_iff {r : Datum → Datum → Prop} {proto proto' : Option Datum}
    {kvs kvs' : Entries} (h : proto.isSome = proto'.isSome) :
    List.Forall₂ r (proto.toList ++ flatten kvs) (proto'.toList ++ flatten kvs') ↔
      (∀ p ∈ proto, ∀ p' ∈ proto', r p p') ∧
        List.Forall₂ (fun e e' => r e.1 e'.1 ∧ r e.2 e'.2) kvs kvs' := by
  cases proto <;> cases proto' <;> simp [forall₂_flatten_iff] at h ⊢

/-- If the copies of entries are put in another order, so can the entries be. -/
theorem exists_perm_of_copies {kvs copies kvs' : Entries}
    (h : List.Forall₂ (CopyEntry R) kvs copies) (hperm : kvs'.Perm copies) :
    ∃ put, kvs.Perm put ∧ List.Forall₂ (CopyEntry R) put kvs' := by
  have hcomp : Relation.Comp (List.Forall₂ (CopyEntry R)) List.Perm kvs kvs' :=
    ⟨copies, h, hperm.symm⟩
  rwa [List.forall₂_comp_perm_eq_perm_comp_forall₂] at hcomp

/-! ### Equal values -/

variable {O : SlotOrder}

/-- Values with equal copies are equal, as long as those in them are. -/
theorem equalItems_of_copies {xs xs' ys ys' : List Datum}
    (ih : ∀ x ∈ xs, ∀ x' ∈ xs', ∀ y y', Copy R x y → Copy R x' y' → janetEquals y y' = true →
      janetEquals x x' = true)
    (h : CopyItems R xs ys) (h' : CopyItems R xs' ys') (heq : equalItems ys ys' = true) :
    equalItems xs xs' = true := by
  induction xs generalizing xs' ys ys' with
  | nil => cases ys <;> cases ys' <;> cases xs' <;> simp_all [CopyItems, equalItems]
  | cons x xs ihs =>
    cases ys with
    | nil => simp [CopyItems] at h
    | cons y ys =>
      cases ys' with
      | nil => simp [equalItems] at heq
      | cons y' ys' =>
        cases xs' with
        | nil => simp [CopyItems] at h'
        | cons x' xs' =>
          rw [equalItems, Bool.and_eq_true] at heq ⊢
          rw [CopyItems] at h h'
          refine ⟨ih x (List.mem_cons_self ..) x' (List.mem_cons_self ..) y y' h.1 h'.1 heq.1, ?_⟩
          exact ihs (fun z hz z' hz' => ih z (List.mem_cons_of_mem _ hz) z'
            (List.mem_cons_of_mem _ hz')) h.2 h'.2 heq.2

/-- The parts of a copied struct, in the order in which its slots are. -/
theorem exists_put_of_copy {proto : Option Datum} {kvs : Entries} {copies ys : List Datum}
    (h : CopyItems R (proto.toList ++ flatten kvs) copies)
    (horder : Reordered proto.isSome copies ys) :
    ∃ put, kvs.Perm put ∧ CopyItems R (proto.toList ++ flatten put) ys := by
  obtain ⟨proto', kvs₁, kvs₂, hsome, rfl, rfl, hperm⟩ := horder
  rw [copyItems_iff, forall₂_struct_iff hsome] at h
  obtain ⟨put, hput, hcopy⟩ := exists_perm_of_copies h.2 hperm
  exact ⟨put, hput, copyItems_iff.mpr ((forall₂_struct_iff hsome).mpr ⟨h.1, hcopy⟩)⟩

theorem mem_ofEntries {proto : Option Datum} {kvs put : Entries} (hput : kvs.Perm put) {x : Datum}
    (hx : x ∈ proto.toList ++ flatten put) : x ∈ proto.toList ++ flatten kvs := by
  have hflat : (flatten put).Perm (flatten kvs) := hput.symm.flatMap_right _
  exact (List.Perm.append_left _ hflat).mem_iff.mp hx

/-- **Values with equal copies are equal.** Two structs have their entries in the same order, since
they are equal in some order. -/
theorem equals_of_copies (hR : ∀ a a' b, R a b → R a' b → a = a') {x x' y y' : Datum}
    (hx : Fits O x) (hx' : Fits O x') (h : Copy R x y) (h' : Copy R x' y')
    (heq : janetEquals y y' = true) : janetEquals x x' = true := by
  induction x using Datum.induct generalizing x' y y' with
  | nil =>
    cases y <;> simp only [Copy] at h
    cases y' <;> simp only [janetEquals, Bool.false_eq_true] at heq
    cases x' <;> simp only [Copy] at h'
    rfl
  | boolean b =>
    cases y <;> simp only [Copy] at h
    cases y' <;> simp only [janetEquals, Bool.false_eq_true] at heq
    cases x' <;> simp only [Copy] at h'
    rw [janetEquals, h, h', heq]
  | number n =>
    cases y <;> simp only [Copy] at h
    cases y' <;> simp only [janetEquals, Bool.false_eq_true] at heq
    cases x' <;> simp only [Copy] at h'
    rw [janetEquals]
    exact h.doubleEq h' heq
  | text kind s =>
    cases y <;> simp only [Copy] at h
    cases y' <;> simp only [janetEquals, Bool.false_eq_true] at heq
    cases x' <;> simp only [Copy] at h'
    rw [janetEquals, h.1, h.2, h'.1, h'.2]
    exact heq
  | tuple b xs ih =>
    cases y <;> simp only [Copy] at h
    cases y' <;> simp only [janetEquals, Bool.false_eq_true] at heq
    cases x' <;> simp only [Copy] at h'
    rw [janetEquals, Bool.and_eq_true, beq_iff_eq]
    rw [Bool.and_eq_true, beq_iff_eq] at heq
    refine ⟨h.1.trans (heq.1.trans h'.1.symm), equalItems_of_copies ?_ h.2 h'.2 heq.2⟩
    intro z hz z' hz' w w'
    exact ih z hz (fitsItems_iff.mp hx.2.2 z hz) (fitsItems_iff.mp hx'.2.2 z' hz')
  | struct p xs ih =>
    cases y <;> simp only [Copy] at h
    cases y' <;> simp only [janetEquals, Bool.false_eq_true] at heq
    cases x' <;> simp only [Copy] at h'
    obtain ⟨-, hitems, proto, kvs, hstruct, -, -, -, hsettled⟩ := hx
    obtain ⟨-, hitems', proto', kvs', hstruct', -, -, -, hsettled'⟩ := hx'
    cases hstruct
    cases hstruct'
    obtain ⟨rfl, copies, hcopies, horder⟩ := h
    obtain ⟨hp', copies', hcopies', horder'⟩ := h'
    rw [Bool.and_eq_true, beq_iff_eq] at heq
    have hsome : proto.isSome = proto'.isSome := heq.1.trans hp'.symm
    obtain ⟨put, hput, hcopy⟩ := exists_put_of_copy hcopies horder
    obtain ⟨put', hput', hcopy'⟩ := exists_put_of_copy hcopies' horder'
    have hequal := equalItems_of_copies (fun z hz z' hz' w w' =>
      ih z (mem_ofEntries hput hz) (fitsItems_iff.mp hitems z (mem_ofEntries hput hz))
        (fitsItems_iff.mp hitems' z' (mem_ofEntries hput' hz'))) hcopy hcopy' heq.2
    rw [equalItems_iff, forall₂_struct_iff hsome] at hequal
    rw [janetEquals, Bool.and_eq_true, beq_iff_eq, equalItems_iff, forall₂_struct_iff hsome]
    exact ⟨hsome, hequal.1, O.unique hsettled hsettled' hput hput' hequal.2⟩
  | ref a =>
    cases y <;> simp only [Copy] at h
    cases y' <;> simp only [janetEquals, Bool.false_eq_true] at heq
    cases x' <;> simp only [Copy] at h'
    rw [janetEquals, beq_iff_eq]
    rw [beq_iff_eq] at heq
    exact hR _ _ _ h (heq ▸ h')

/-! ### Copies of objects -/

theorem CopyEntry.mono (hRS : ∀ a b, R a b → S a b) {e e' : Datum × Datum} (h : CopyEntry R e e') :
    CopyEntry S e e' :=
  ⟨h.1.mono hRS, h.2.mono hRS⟩

theorem CopyObj.mono (hRS : ∀ a b, R a b → S a b) {o o' : Obj} (h : CopyObj R o o') :
    CopyObj S o o' := by
  cases h with
  | buffer s => exact .buffer s
  | array h => exact .array (h.imp fun _ _ hxy => hxy.mono hRS)
  | table hproto h hwalk =>
    refine .table ?_ (h.imp fun _ _ hxy => hxy.mono hRS) hwalk
    cases hproto with
    | some hab => exact .some (hRS _ _ hab)
    | none => exact .none

theorem CopyObj.isTable {o o' : Obj} (h : CopyObj R o o') : o'.isTable = o.isTable := by
  cases h <;> rfl

theorem Copy.isnan {x y : Datum} (h : Copy R x y) : y.isnan = x.isnan := by
  cases x <;> cases y <;> simp only [Copy, Datum.isnan] at h ⊢
  rcases h with h | ⟨hx, hy⟩
  · obtain ⟨hx, hy, -⟩ := doubleEq_iff.mp h
    rw [hx, hy]
  · rw [hx, hy]

theorem exists_of_mem_right {α β : Type} {r : α → β → Prop} {xs : List α} {ys : List β}
    (h : List.Forall₂ r xs ys) {y : β} (hy : y ∈ ys) : ∃ x ∈ xs, r x y := by
  induction h with
  | nil => cases hy
  | @cons x y' xs ys hxy _ ih =>
    rcases List.mem_cons.mp hy with rfl | hy
    · exact ⟨x, List.mem_cons_self .., hxy⟩
    · obtain ⟨x', hx', hr⟩ := ih hy
      exact ⟨x', List.mem_cons_of_mem _ hx', hr⟩

/-- Entries whose keys and values are copies can be in a table if the entries that they are copies
of can. -/
theorem Proper.of_copies (hR : ∀ a a' b, R a b → R a' b → a = a') {kvs kvs' : Entries}
    (h : Proper kvs) (hfits : ∀ kv ∈ kvs, Fits O kv.1)
    (hcopy : List.Forall₂ (CopyEntry R) kvs kvs') : Proper kvs' := by
  induction hcopy with
  | nil => exact ⟨by simp, by simp, .nil⟩
  | @cons e e' kvs kvs' hentry hrest ih =>
    obtain ⟨hkey, hvalue, hdistinct⟩ := h
    rw [List.pairwise_cons] at hdistinct
    obtain ⟨hkey', hvalue', hdistinct'⟩ := ih ⟨fun kv hkv => hkey kv (List.mem_cons_of_mem _ hkv),
      fun kv hkv => hvalue kv (List.mem_cons_of_mem _ hkv), hdistinct.2⟩
      fun kv hkv => hfits kv (List.mem_cons_of_mem _ hkv)
    have hfirst := hkey e (List.mem_cons_self ..)
    have hfirstValue := hvalue e (List.mem_cons_self ..)
    obtain ⟨hcopyKey, hcopyValue⟩ := hentry
    refine ⟨fun kv hkv => ?_, fun kv hkv => ?_,
      List.pairwise_cons.mpr ⟨fun kv hkv => ?_, hdistinct'⟩⟩
    · rcases List.mem_cons.mp hkv with rfl | hkv
      · refine ⟨fun hnil => ?_, ?_⟩
        · rw [hnil] at hcopyKey
          cases hk : e.1 <;> simp_all [Copy]
        · rw [hcopyKey.isnan]
          exact hfirst.2
      · exact hkey' kv hkv
    · rcases List.mem_cons.mp hkv with rfl | hkv
      · intro hnil
        rw [hnil] at hcopyValue
        cases hk : e.2 <;> simp_all [Copy]
      · exact hvalue' kv hkv
    · obtain ⟨e₀, he₀, hcopy₀⟩ := exists_of_mem_right hrest hkv
      by_contra heq
      rw [Bool.not_eq_false] at heq
      have hequal := equals_of_copies hR (hfits e (List.mem_cons_self ..))
        (hfits e₀ (List.mem_cons_of_mem _ he₀)) hcopyKey hcopy₀.1 heq
      rw [hdistinct.1 e₀ he₀] at hequal
      cases hequal

end AhungryJanet.Marshal
