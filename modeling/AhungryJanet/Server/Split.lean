import AhungryJanet.Server.ReadTcp

/-!
# Splitting a request

One request can reach `read_tcp` in many ways: TCP decides where a chunk ends and when the peer
seems to pause. `Reads` says of a delivery that it is read to its end, in terms of the texts that
`buf` shows on the way; the first main result is that two deliveries agree exactly when it holds
of both.

For a request in which only one line looks like a `Content-Length` header, and memory that has been
cleared, nothing is left of that but the chunks: none may end inside the number of that line or
right behind it, where its `\r` is missing, none may fill `tmp`, and they may not be too many.

## Main results

* `splitIndependent_iff` — two ways of splitting a request make no difference exactly when both
  can be read
* `OneLength.returned_iff`, `NoLength.returned_iff` — which ways of splitting a request with one
  length header, or with none, can be read
-/

namespace AhungryJanet

open Polling Search

/-! ### Two ways of splitting a request -/

/-- The peer sends `r`, in chunks as `recv` hands them out, and then nothing more. -/
structure Delivers (d : Delivery) (r : Bytes) : Prop where
  bytes : d.reduceOption.flatten = r
  chunks : ∀ b ∈ d.reduceOption, b ≠ [] ∧ b.length ≤ clientChunk

/-- The reading stops where nothing but pauses follows. -/
def ReadsAll (m : Memory) (d : Delivery) : Prop :=
  ∃ d₁ d₂ d₃, d = d₁ ++ (d₂ ++ d₃) ∧ Reads m d₁ d₂ d₃ ∧ d₃.reduceOption = []

/-- Once all bytes are there, only pauses follow. -/
theorem Delivers.reduceOption_eq_nil {d d' : Delivery} {r : Bytes} (h : Delivers (d ++ d') r)
    (hle : r.length ≤ d.reduceOption.flatten.length) : d'.reduceOption = [] := by
  by_contra hne
  obtain ⟨b, c, hbc⟩ := List.exists_cons_of_ne_nil hne
  have hlen := congrArg List.length h.bytes
  have hpos := List.length_pos_iff.mpr (h.chunks b (by simp [List.reduceOption_append, hbc])).1
  rw [List.reduceOption_append, List.flatten_append, hbc, List.flatten_cons, List.length_append,
    List.length_append] at hlen
  omega

theorem Delivers.returned_iff {d : Delivery} {r : Bytes} (h : Delivers d r) (hr : NulFree r)
    (m : Memory) : readTcp m d = .returned r ↔ ReadsAll m d := by
  have hnul : ∀ b ∈ d.reduceOption, NulFree b := fun b hb x hx =>
    hr x (h.bytes ▸ List.mem_flatten_of_mem hb hx)
  rw [readTcp_eq_returned_iff, ReadsAll]
  refine exists_congr fun d₁ => exists_congr fun d₂ => exists_congr fun d₃ =>
    and_congr_right fun hd => and_congr_right fun _ => ?_
  rw [← List.append_assoc] at hd
  subst hd
  rw [List.reduceOption_append] at hnul
  rw [cstr_filled m fun b hb => hnul b (List.mem_append_left _ hb)]
  constructor
  · intro hall
    exact h.reduceOption_eq_nil (by rw [hall])
  · intro hnone
    rw [← h.bytes, List.reduceOption_append _ d₃, hnone, List.append_nil]

/-- **Two ways of splitting a request make no difference exactly when both can be read.** -/
theorem splitIndependent_iff {r : Bytes} (hr : NulFree r) {d d' : Delivery} (h : Delivers d r)
    (h' : Delivers d' r) (m m' : Memory) :
    (readTcp m d = .returned r ∧ readTcp m' d' = .returned r) ↔ ReadsAll m d ∧ ReadsAll m' d' :=
  and_congr (h.returned_iff hr m) (h'.returned_iff hr m')

/-- A request with two bytes of body. -/
def postAb : Bytes := request (ascii "POST / HTTP/1.1\r\nContent-Length: 2") (ascii "ab")

/-- It can come in one piece, or the body can wait for two time-outs. -/
theorem splitIndependent_postAb :
    ReadsAll .zeroed [some postAb] ∧
      ReadsAll .zeroed [some (postAb.take 38), none, none, some (ascii "ab")] :=
  (splitIndependent_iff (r := postAb) (by decide) ⟨by decide, by decide⟩ ⟨by decide, by decide⟩
    .zeroed .zeroed).mp ⟨by decide +kernel, by decide +kernel⟩

/-- A chunk that ends right behind the number leaves no `\r` to be found. -/
theorem not_splitIndependent_postAb :
    Delivers [some postAb] postAb ∧
      Delivers [some (postAb.take 34), some (postAb.drop 34)] postAb ∧
      ¬ (readTcp .zeroed [some postAb] = .returned postAb ∧
        readTcp .zeroed [some (postAb.take 34), some (postAb.drop 34)] = .returned postAb) :=
  ⟨⟨by decide, by decide⟩, ⟨by decide, by decide⟩, by decide +kernel⟩

/-! ### One length header -/

/-- A request in which one line looks like a length header: it stands behind `a`, in the head, and
its number is the length of the body. -/
structure OneLength (r a digits head body : Bytes) : Prop where
  nulFree : NulFree r
  cut : CutAt reqTerminator r head body
  line : ∃ name ∈ lengthNames, a ++ (name ++ (digits ++ [13])) <+: head ++ [13]
  only : ∀ name ∈ lengthNames, ∀ s, OccursAt name r s → s = a.length
  isdigit : ∀ c ∈ digits, isdigit c
  number : decimal digits = body.length

theorem atoi_of_isdigit {digits : Bytes} (h : ∀ c ∈ digits, isdigit c)
    (hlt : decimal digits < intBound) : atoi digits = decimal digits := by
  have hspace : digits.dropWhile isspace = digits := by
    cases digits with
    | nil => rfl
    | cons c t =>
      have hc := h c (by simp)
      refine List.dropWhile_cons_of_neg ?_
      simp only [isdigit, isspace, Bool.and_eq_true, Bool.or_eq_true, decide_eq_true_eq,
        UInt8.le_iff_toNat_le, ← UInt8.toNat_inj, UInt8.reduceToNat] at hc ⊢
      omega
  have hsign : ∀ c, ¬ isdigit c → digits.head? ≠ some c := by
    rintro c hc hhead
    exact hc (h c (List.mem_of_head? hhead))
  simp only [atoi, hspace, hsign 45 (by decide), hsign 43 (by decide), if_false, or_self,
    List.takeWhile_eq_self_iff.mpr h]
  rw [intBound] at hlt
  have hlong : max (-2 ^ 63) (min (decimal digits : ℤ) (2 ^ 63 - 1)) = decimal digits := by omega
  rw [hlong]
  exact Int.bmod_eq_of_le (by omega) (by omega)

section

variable {r a digits head body : Bytes}

theorem OneLength.length_eq (h : OneLength r a digits head body) :
    r.length = head.length + 4 + body.length := by
  rw [h.cut.eq]
  simp [reqTerminator]
  omega

/-- The line ends in the head, or with it. -/
theorem OneLength.le_length_head (h : OneLength r a digits head body) :
    a.length + textlen + digits.length ≤ head.length := by
  obtain ⟨name, hname, hline⟩ := h.line
  have hle := hline.length_le
  simp only [List.length_append, length_of_mem_lengthNames hname, List.length_singleton] at hle
  omega

theorem OneLength.exists_eq (h : OneLength r a digits head body) :
    ∃ name ∈ lengthNames, ∃ rest, r = a ++ (name ++ (digits ++ 13 :: rest)) := by
  obtain ⟨name, hname, rest, hrest⟩ := h.line
  refine ⟨name, hname, rest ++ ([10, 13, 10] ++ body), ?_⟩
  have hr : r = (head ++ [13]) ++ ([10, 13, 10] ++ body) := by
    rw [h.cut.eq]
    simp [reqTerminator]
  rw [hr, ← hrest]
  simp

/-- What the search finds in the front of the request. -/
theorem OneLength.contentLength_eq (h : OneLength r a digits head body) {t : Bytes} (ht : t <+: r) :
    contentLength t = if t.length < a.length + textlen then none else some (t.drop a.length) := by
  obtain ⟨u, hu⟩ := ht
  split
  case isTrue hlt =>
    refine contentLength_eq_none_iff.mpr fun name hname hin => ?_
    have hne : name ≠ [] := by
      rintro rfl
      cases length_of_mem_lengthNames hname
    obtain ⟨s, hs⟩ := (isInfix_iff_occursAt hne).mp hin
    have hle := hs.le_length hne
    have hs : s = a.length :=
      h.only name hname s (hu ▸ (occursAt_append_iff hle).mpr hs)
    rw [length_of_mem_lengthNames hname] at hle
    omega
  case isFalse hge =>
    obtain ⟨name, hname, rest, hr⟩ := h.exists_eq
    have hsome : contentLength t ≠ none := fun hnone => by
      refine contentLength_eq_none_iff.mp hnone name hname ?_
      have hleft : a ++ name <+: r := ⟨digits ++ 13 :: rest, by rw [hr]; simp⟩
      have hpre : a ++ name <+: t := by
        refine List.prefix_of_prefix_length_le hleft ⟨u, hu⟩ ?_
        rw [List.length_append, length_of_mem_lengthNames hname]
        exact Nat.not_lt.mp hge
      exact (List.suffix_append a name).isInfix.trans hpre.isInfix
    obtain ⟨p, hp⟩ := Option.ne_none_iff_exists'.mp hsome
    obtain ⟨name', hname', a', b, hcut, rfl⟩ := contentLength_eq_some hp
    have hocc : OccursAt name' r a'.length := by
      rw [← hu, hcut.eq]
      simpa using occursAt_length_append name' a' (b ++ u)
    rw [hp, ← h.only name' hname' _ hocc, hcut.eq, List.drop_left]

/-- The `\r` of the line comes right behind the number. -/
theorem OneLength.idxOf_eq (h : OneLength r a digits head body) :
    13 ∈ r.drop a.length ∧ (r.drop a.length).idxOf 13 = textlen + digits.length := by
  obtain ⟨name, hname, rest, rfl⟩ := h.exists_eq
  have hdigits : 13 ∉ digits := fun h13 => by
    have := h.isdigit 13 h13
    contradiction
  rw [List.drop_left]
  refine ⟨by simp, ?_⟩
  rw [List.idxOf_append_of_notMem (not_mem_of_mem_lengthNames hname),
    List.idxOf_append_of_notMem hdigits, length_of_mem_lengthNames hname]
  simp

theorem OneLength.mem_drop_iff (h : OneLength r a digits head body) {t : Bytes} (ht : t <+: r) :
    13 ∈ t.drop a.length ↔ a.length + textlen + digits.length < t.length := by
  obtain ⟨h13, hidx⟩ := h.idxOf_eq
  rw [List.prefix_iff_eq_take.mp ht, List.drop_take, List.mem_take_iff_idxOf_lt h13, hidx,
    List.length_take, min_eq_left ht.length_le]
  omega

/-- The line is there as soon as its `\r` is. -/
theorem OneLength.exists_line (h : OneLength r a digits head body) {t : Bytes} (ht : t <+: r)
    (hlt : a.length + textlen + digits.length < t.length) :
    ∃ name ∈ lengthNames, ∃ rest, t.drop a.length = name ++ (digits ++ 13 :: rest) := by
  obtain ⟨name, hname, rest, hr⟩ := h.exists_eq
  have hleft : a ++ (name ++ (digits ++ [13])) <+: r := ⟨rest, by rw [hr]; simp⟩
  have hpre : a ++ (name ++ (digits ++ [13])) <+: t := by
    refine List.prefix_of_prefix_length_le hleft ht ?_
    simp only [List.length_append, length_of_mem_lengthNames hname, List.length_singleton]
    omega
  obtain ⟨u, rfl⟩ := hpre
  exact ⟨name, hname, u, by simp⟩

end

/-! ### One length header in cleared memory -/

section

variable {r a digits head body : Bytes}

theorem OneLength.contentLength_text (h : OneLength r a digits head body) {c : List Bytes}
    (hc : c.flatten <+: r) :
    contentLength (text .zeroed c) =
      if c.flatten.length < a.length + textlen then none else some (c.flatten.drop a.length) := by
  rw [text_zeroed fun x hx => h.nulFree x (hc.subset hx), h.contentLength_eq hc]

theorem OneLength.declared_eq (h : OneLength r a digits head body) (hr : r.length < intBound)
    {c : List Bytes} (hc : c.flatten <+: r)
    (hlt : a.length + textlen + digits.length < c.flatten.length) :
    declared .zeroed c = some (body.length : ℤ) := by
  obtain ⟨name, hname, rest, hline⟩ := h.exists_line hc hlt
  have hlen := length_of_mem_lengthNames hname
  have hdigits : 13 ∉ digits := fun h13 => by
    have := h.isdigit 13 h13
    contradiction
  have hoffset : nlOffset (name ++ (digits ++ 13 :: rest)) = textlen + digits.length := by
    rw [nlOffset, if_pos (by simp), List.idxOf_append_of_notMem (not_mem_of_mem_lengthNames hname),
      List.idxOf_append_of_notMem hdigits, hlen]
    simp
  have hnul : NulFree digits := fun x hx => h.nulFree x (hc.subset
    (List.mem_of_mem_drop (i := a.length) (by rw [hline]; simp [hx])))
  have hclen : cstr (clenString .zeroed c.length (name ++ (digits ++ 13 :: rest))) = digits := by
    rw [clenString, hoffset, Nat.add_sub_cancel_left, ← hlen, List.drop_left, List.take_left, hlen]
    exact cstr_append_zero hnul _
  have hbound := h.length_eq
  rw [declared, h.contentLength_text hc, if_neg (by omega), Option.map_some, hline, hclen,
    atoi_of_isdigit h.isdigit (by rw [h.number]; omega), h.number]

theorem OneLength.announced_eq (h : OneLength r a digits head body) (hr : r.length < intBound)
    {c : List Bytes} (hc : c.flatten <+: r)
    (hlt : a.length + textlen + digits.length < c.flatten.length) :
    announced .zeroed c = body.length := by
  rcases List.eq_nil_or_concat c with rfl | ⟨c, b, rfl⟩
  · simp at hlt
  · rw [List.concat_eq_append] at *
    rw [announced_append, h.declared_eq hr hc hlt]
    rfl

theorem OneLength.hasHead_iff (h : OneLength r a digits head body) {c : List Bytes}
    (hc : c.flatten <+: r) : HasHead .zeroed c ↔ head.length + 4 ≤ c.flatten.length := by
  rw [HasHead, text_zeroed fun x hx => h.nulFree x (hc.subset hx)]
  exact h.cut.isInfix_iff (by decide) hc

theorem OneLength.headerLength_eq (h : OneLength r a digits head body) {c : List Bytes}
    (hc : c.flatten <+: r) (hlt : head.length + 4 ≤ c.flatten.length) :
    headerLength (text .zeroed c) = head.length + 4 := by
  obtain ⟨b, hcut⟩ := h.cut.of_isPrefix hc hlt
  have hlen := congrArg List.length hcut.eq
  rw [text_zeroed fun x hx => h.nulFree x (hc.subset hx), headerLength, strstr_of_cutAt hcut]
  simp only [List.length_append, Option.getD_some] at hlen ⊢
  omega

/-- **A request with one length header can be split anywhere but in its number.** -/
theorem OneLength.returned_iff (h : OneLength r a digits head body) {d : Delivery}
    (hd : Delivers d r) :
    readTcp .zeroed d = .returned r ↔
      Fits d.reduceOption ∧ ∀ c, c <+: d.reduceOption →
        ¬ (a.length + textlen ≤ c.flatten.length ∧
          c.flatten.length ≤ a.length + textlen + digits.length) := by
  have hpre : ∀ {c}, c <+: d.reduceOption → c.flatten <+: r := by
    rintro c ⟨c', hc'⟩
    exact ⟨c'.flatten, by rw [← hd.bytes, ← hc', List.flatten_append]⟩
  have hline := h.le_length_head
  have hlen := h.length_eq
  rw [hd.returned_iff h.nulFree]
  constructor
  · rintro ⟨d₁, d₂, d₃, rfl, hreads, hnone⟩
    have hfits : Fits (d₁ ++ (d₂ ++ d₃)).reduceOption := by
      have := hreads.fits
      rwa [← List.append_assoc, List.reduceOption_append, hnone, List.append_nil]
    refine ⟨hfits, fun c hc hbad => ?_⟩
    have hd₁ : d₁.reduceOption <+: (d₁ ++ (d₂ ++ d₃)).reduceOption := by
      rw [List.reduceOption_append]
      exact List.prefix_append _ _
    have hhead := (h.hasHead_iff (hpre hd₁)).mp hreads.head.head
    -- the chunk ends before the head does, so `buf` is searched behind it
    have hc₁ : c <+: d₁.reduceOption := by
      rcases List.prefix_or_prefix_of_prefix hc hd₁ with hc₁ | ⟨u, rfl⟩
      · exact hc₁
      · simp only [List.flatten_append, List.length_append] at hbad
        omega
    have hne : c ≠ [] := by
      rintro rfl
      simp [textlen] at hbad
    have hread := hreads.head.readable c hc₁ hne
    have h13 := hread.line _ (by rw [h.contentLength_text (hpre hc), if_neg (by omega)])
    have := (h.mem_drop_iff (hpre hc)).mp h13
    omega
  · rintro ⟨hfits, hgood⟩
    have hall : d.reduceOption.flatten.length = r.length := by rw [hd.bytes]
    have hbound : r.length < intBound := by
      have hlt := length_text_lt (m := .zeroed) hfits
      rwa [text_zeroed (by rw [hd.bytes]; exact h.nulFree), hall] at hlt
    obtain ⟨d₁, d', rfl, hpause, hhead, hfirst⟩ := @exists_first_pause _
      (fun e => HasHead .zeroed e.reduceOption) d
      ((h.hasHead_iff (hpre List.prefix_rfl)).mpr (by omega))
    have hd₁ : d₁.reduceOption <+: (d₁ ++ d').reduceOption := by
      rw [List.reduceOption_append]
      exact List.prefix_append _ _
    have hge := (h.hasHead_iff (hpre hd₁)).mp hhead
    have hfront : ∀ {c}, c <+: (d₁ ++ d').reduceOption → Fits c := by
      rintro c ⟨u, hu⟩
      exact (hu ▸ hfits).left
    have hreads : ReadsHead .zeroed d₁ d' := by
      refine ⟨hpause,
        fun c hc hne => ⟨terminated_zeroed (hfront (hc.trans hd₁)) hne, fun p hp => ?_,
        fun _ _ => List.mem_map.mpr ⟨0, by decide, rfl⟩⟩, hhead, hfirst⟩
      rw [h.contentLength_text (hpre (hc.trans hd₁))] at hp
      have hlt := hgood c (hc.trans hd₁)
      split at hp
      case isTrue => cases hp
      case isFalse =>
        cases hp
        exact (h.mem_drop_iff (hpre (hc.trans hd₁))).mpr (by omega)
    have hnumber := h.announced_eq hbound (hpre hd₁) (by omega)
    have hheader := h.headerLength_eq (hpre hd₁) hge
    rcases Nat.eq_zero_or_pos body.length with hzero | hpos
    · refine ⟨d₁, [], d', rfl, ⟨?_, hreads, fun _ => rfl, fun hne => ?_⟩, ?_⟩
      · rw [List.append_nil]
        exact hfront hd₁
      · rw [hnumber, hzero] at hne
        exact absurd rfl hne
      · exact hd.reduceOption_eq_nil (by omega)
    · obtain ⟨d₂, d₃, rfl, hpause₂, henough, hfirst₂⟩ := @exists_first_pause _
        (fun e => r.length ≤ (d₁.reduceOption ++ e.reduceOption).flatten.length) d'
        (by rw [← List.reduceOption_append, hd.bytes])
      have hne := HasHead.ne_nil hhead
      have htext : ∀ {e}, e <+: d₂ → Terminated .zeroed (d₁.reduceOption ++ e.reduceOption) ∧
          text .zeroed (d₁.reduceOption ++ e.reduceOption) =
            (d₁.reduceOption ++ e.reduceOption).flatten := by
        rintro e ⟨u, rfl⟩
        have hin : d₁.reduceOption ++ e.reduceOption <+:
            (d₁ ++ ((e ++ u) ++ d₃)).reduceOption := by
          simp only [List.reduceOption_append, List.append_assoc]
          exact ⟨_, by rw [List.append_assoc]⟩
        exact ⟨terminated_zeroed (hfront hin) (by simp [hne]),
          text_zeroed fun x hx => h.nulFree x ((hpre hin).subset hx)⟩
      refine ⟨d₁, d₂, d₃, rfl,
        ⟨?_, hreads, fun hz => ?_, fun _ => ⟨hpause₂, ?_, ?_, fun e he => ?_⟩⟩,
        ?_⟩
      · refine hfront ?_
        rw [← List.append_assoc, List.reduceOption_append _ d₃]
        exact List.prefix_append _ _
      · rw [hnumber] at hz
        omega
      · exact (htext List.prefix_rfl).1
      · rw [(htext List.prefix_rfl).2, hnumber, hheader]
        omega
      · obtain ⟨hterm, heq⟩ := htext ((List.prefix_append e _).trans he)
        refine ⟨hterm, ?_⟩
        have hlt := hfirst₂ e he
        rw [heq, hnumber, hheader]
        omega
      · rw [← List.append_assoc] at hd
        exact hd.reduceOption_eq_nil (by rwa [List.reduceOption_append])

end

/-! ### No length header in cleared memory -/

/-- A request in which nothing looks like a length header. -/
structure NoLength (r head body : Bytes) : Prop where
  nulFree : NulFree r
  cut : CutAt reqTerminator r head body
  none : ∀ name ∈ lengthNames, ¬ name <:+: r

section

variable {r head body : Bytes}

theorem NoLength.contentLength_text (h : NoLength r head body) {c : List Bytes}
    (hc : c.flatten <+: r) : contentLength (text .zeroed c) = Option.none := by
  rw [text_zeroed fun x hx => h.nulFree x (hc.subset hx), contentLength_eq_none_iff]
  exact fun name hname hin => h.none name hname (hin.trans hc.isInfix)

theorem NoLength.announced_eq (h : NoLength r head body) {c : List Bytes} (hc : c.flatten <+: r) :
    announced .zeroed c = 0 := by
  have hnil : c.inits.filterMap (declared .zeroed) = [] := by
    refine List.filterMap_eq_nil_iff.mpr fun c' hc' => ?_
    obtain ⟨u, rfl⟩ := (List.mem_inits _ _).mp hc'
    have hpre : c'.flatten <+: r :=
      (List.prefix_append c'.flatten u.flatten).trans (by rwa [List.flatten_append] at hc)
    rw [declared, h.contentLength_text hpre, Option.map_none]
  rw [announced, hnil]
  rfl

theorem NoLength.hasHead_iff (h : NoLength r head body) {c : List Bytes} (hc : c.flatten <+: r) :
    HasHead .zeroed c ↔ head.length + 4 ≤ c.flatten.length := by
  rw [HasHead, text_zeroed fun x hx => h.nulFree x (hc.subset hx)]
  exact h.cut.isInfix_iff (by decide) hc

/-- **A request without a length header can be split anywhere**, as long as no pause behind the head
comes before the end of the body. -/
theorem NoLength.returned_iff (h : NoLength r head body) {d : Delivery} (hd : Delivers d r) :
    readTcp .zeroed d = .returned r ↔
      Fits d.reduceOption ∧ ∀ d₁ d₂, d = d₁ ++ d₂ → AtPause d₂ →
        head.length + 4 ≤ d₁.reduceOption.flatten.length → d₂.reduceOption = [] := by
  have hpre : ∀ {d₁ d₂}, d = d₁ ++ d₂ → d₁.reduceOption.flatten <+: r := by
    rintro d₁ d₂ rfl
    rw [← hd.bytes, List.reduceOption_append, List.flatten_append]
    exact List.prefix_append _ _
  rw [hd.returned_iff h.nulFree]
  constructor
  · rintro ⟨d₁, d₂, d₃, hsplit, hreads, hnone⟩
    obtain rfl := hreads.none (h.announced_eq (hpre hsplit))
    have hfits := hreads.fits
    rw [List.append_nil] at hfits
    rw [List.nil_append] at hsplit
    refine ⟨by rwa [hsplit, List.reduceOption_append, hnone, List.append_nil],
      fun e₁ e₂ he hpause hlen => ?_⟩
    rcases List.append_eq_append_iff.mp (hsplit.symm.trans he) with ⟨u, rfl, rfl⟩ | ⟨u, rfl, rfl⟩
    · rw [List.reduceOption_append, List.append_eq_nil_iff] at hnone
      exact hnone.2
    · -- an earlier pause at which the head is there
      cases u with
      | nil => simpa using hnone
      | cons x u =>
        cases x with
        | some b => exact absurd rfl (hpause b (u ++ d₃))
        | none =>
          have hfirst := hreads.head.first e₁ ⟨u, by simp⟩
          exact absurd ((h.hasHead_iff (hpre he)).mpr hlen) hfirst
  · rintro ⟨hfits, hgood⟩
    have hall : HasHead .zeroed d.reduceOption := by
      have hlen := congrArg List.length h.cut.eq
      rw [h.hasHead_iff (hpre (List.append_nil d).symm), hd.bytes, hlen]
      simp [reqTerminator]
    obtain ⟨d₁, d', rfl, hpause, hhead, hfirst⟩ :=
      @exists_first_pause _ (fun e => HasHead .zeroed e.reduceOption) d hall
    have hnone := hgood d₁ d' rfl hpause ((h.hasHead_iff (hpre rfl)).mp hhead)
    rw [List.reduceOption_append, hnone, List.append_nil] at hfits
    have hread : ∀ c, c <+: d₁.reduceOption → c ≠ [] → Readable .zeroed c := by
      rintro c ⟨u, hu⟩ hne
      have hc : c.flatten <+: r := by
        refine List.IsPrefix.trans ?_ (hpre rfl)
        rw [← hu, List.flatten_append]
        exact List.prefix_append _ _
      have hline := h.contentLength_text hc
      refine ⟨terminated_zeroed (hu ▸ hfits).left hne, fun p hp => ?_, fun p hp => ?_⟩
      · rw [hline] at hp
        cases hp
      · rw [hline] at hp
        cases hp
    refine ⟨d₁, [], d', rfl, ⟨by rwa [List.append_nil], ⟨hpause, hread, hhead, hfirst⟩,
      fun _ => rfl, fun hne => absurd (h.announced_eq (hpre rfl)) hne⟩, hnone⟩

end

end AhungryJanet
