import AhungryJanet.Server.Bounds

/-!
# What the heap contained

`read_tcp` searches memory that `realloc` and `malloc` have handed out and that it has not written.
Here two runs on one delivery are compared that differ in nothing but this memory.

They are the same where there is a NUL behind what was received, in `buf` and in `clen_string`. That
is luck: a delivery with a chunk in it leads to different runs for some memory.

## Main results

* `sameRun_of_clears` — with a NUL behind everything received, two runs are the same
* `sameRun_iff` — which deliveries leave the memory no say
-/

namespace AhungryJanet

open Polling Search

/-! ### Two runs -/

/-- The first loop comes to the end of `d`: whether it has seen the terminator, and
`final_content_length`. -/
def Decides (m : Memory) (d : Delivery) (seen : Bool) (n : ℤ) : Prop :=
  ∃ s, HeadComesTo m d s ∧ s.hasSeenReqTerminator = seen ∧ s.finalContentLength = n

/-- The second loop stops behind `d₂`. -/
def BodyStops (m : Memory) (d₁ d₂ d₃ : Delivery) : Prop :=
  ∃ s n t, HeadEnds m d₁ (d₂ ++ d₃) s ∧ s.finalContentLength ≠ 0 ∧ requestLength s = .ok n ∧
    Ends (hasBody n) (appendChunk m) s d₂ d₃ t

/-- Two memories lead to the same decisions and to the same bytes. -/
structure SameRun (m m' : Memory) (d : Delivery) : Prop where
  head : ∀ d₁ seen n, d₁ <+: d → (Decides m d₁ seen n ↔ Decides m' d₁ seen n)
  body : ∀ d₁ d₂ d₃, d = d₁ ++ (d₂ ++ d₃) → (BodyStops m d₁ d₂ d₃ ↔ BodyStops m' d₁ d₂ d₃)
  outcome : readTcp m d = readTcp m' d

/-! ### A NUL behind everything received -/

/-- The first byte behind some chunks is NUL, and the first one behind the number copied there. -/
structure Clears (m : Memory) (c : List Bytes) : Prop where
  buf : m.buf c.flatten.length = 0
  clen : m.clen c.length 0 = 0

theorem Clears.storage_eq {m : Memory} {c : List Bytes} (h : Clears m c) (hfits : Fits c)
    (hne : c ≠ []) (hnul : ∀ b ∈ c, NulFree b) :
    storage m c =
      c.flatten ++ 0 :: m.block (c.flatten.length + 1) (c.length * clientChunk) := by
  have hle := hfits.length_flatten_le
  have hpos := List.length_pos_iff.mpr hne
  have hone : m.block c.flatten.length (c.flatten.length + 1) = [0] := by
    rw [Memory.block, Nat.add_sub_cancel_left, List.range'_one, List.map_singleton, h.buf]
  rw [storage, filled_of_nulFree m hnul, ← m.block_append (Nat.le_add_right _ 1) (by omega), hone]
  rfl

theorem Clears.terminated {m : Memory} {c : List Bytes} (h : Clears m c) (hfits : Fits c)
    (hne : c ≠ []) (hnul : ∀ b ∈ c, NulFree b) : Terminated m c := by
  rw [Terminated, h.storage_eq hfits hne hnul]
  simp

theorem Clears.text_eq {m : Memory} {c : List Bytes} (h : Clears m c) (hfits : Fits c)
    (hne : c ≠ []) (hnul : ∀ b ∈ c, NulFree b) : text m c = c.flatten := by
  rw [text, h.storage_eq hfits hne hnul, cstr_append_cons_zero, ← filled_of_nulFree m hnul,
    cstr_filled m hnul, filled_of_nulFree m hnul]

theorem Clears.cString_eq {m : Memory} {c : List Bytes} (h : Clears m c) (hfits : Fits c)
    (hne : c ≠ []) (hnul : ∀ b ∈ c, NulFree b) : cString (storage m c) = .ok c.flatten :=
  cString_after.mpr ⟨h.terminated hfits hne hnul, (h.text_eq hfits hne hnul).symm⟩

/-- The number is read from its own bytes alone. -/
theorem readContentLength_of_clen {m : Memory} {i : ℕ} (h : m.clen i 0 = 0) (p : Bytes) :
    readContentLength m i p =
      if nlOffset p < textlen then .error .invalidCopy
      else .ok (atoi (cstr ((p.drop textlen).take (nlOffset p - textlen)))) := by
  have hclen : clenString m i p = (p.drop textlen).take (nlOffset p - textlen) ++
      0 :: ((List.range textlen).map (m.clen i)).tail := by
    rw [clenString]
    congr 1
    rw [textlen, List.range_succ_eq_map]
    simp [h]
  have hread : cString (clenString m i p) =
      .ok (cstr ((p.drop textlen).take (nlOffset p - textlen))) := by
    rw [cString_eq_ok_iff, hclen, cstr_append_cons_zero]
    simp
  rw [readContentLength, hread]
  rfl

theorem receive_of_clears {m : Memory} {c : List Bytes} {b : Bytes} (h : Clears m (c ++ [b]))
    (hfits : Fits (c ++ [b])) (hnul : ∀ x ∈ c ++ [b], NulFree x) (seen : Bool) (n : ℤ) :
    receive m (.after m c seen n) b =
      match contentLength (c ++ [b]).flatten with
      | none => .ok (.after m (c ++ [b]) (strstr (c ++ [b]).flatten reqTerminator).isSome n)
      | some p =>
        if nlOffset p < textlen then .error .invalidCopy
        else .ok (.after m (c ++ [b]) (strstr (c ++ [b]).flatten reqTerminator).isSome
          (atoi (cstr ((p.drop textlen).take (nlOffset p - textlen))))) := by
  rw [receive, (appendChunk_after hfits.left seen n).mpr ⟨hfits, rfl⟩]
  simp only [bind, Except.bind, Locals.after_buf, h.cString_eq hfits (by simp) hnul]
  cases contentLength (c ++ [b]).flatten with
  | none => rfl
  | some p =>
    simp only [Locals.after_i, readContentLength_of_clen h.clen]
    by_cases hlt : nlOffset p < textlen
    · simp only [hlt, if_true]
    · simp only [hlt, if_false]
      rfl

/-- The two runs hold the same chunks and have decided alike. -/
def InStep (m m' : Memory) (chunks : List Bytes) (d : Delivery) (s t : Locals) : Prop :=
  ∃ c seen n, c ++ d.reduceOption = chunks ∧ Fits c ∧ s = .after m c seen n ∧ t = .after m' c seen n

section

variable {m m' : Memory} {chunks : List Bytes} (hnul : ∀ b ∈ chunks, NulFree b)
  (hm : ∀ c, c <+: chunks → c ≠ [] → Clears m c) (hm' : ∀ c, c <+: chunks → c ≠ [] → Clears m' c)

theorem InStep.init (m m' : Memory) (d : Delivery) :
    InStep m m' d.reduceOption d .init .init :=
  ⟨[], false, 0, rfl, fits_nil, by simp [Locals.after, Locals.init, storage, filled, Memory.block],
    by simp [Locals.after, Locals.init, storage, filled, Memory.block]⟩

theorem InStep.pause {d : Delivery} {s t : Locals} (h : InStep m m' chunks (none :: d) s t) :
    InStep m m' chunks d s t := by
  simpa [InStep] using h

theorem InStep.finalContentLength_eq {d : Delivery} {s t : Locals} (h : InStep m m' chunks d s t) :
    s.finalContentLength = t.finalContentLength := by
  obtain ⟨c, seen, n, -, -, rfl, rfl⟩ := h
  rfl

include hnul

theorem InStep.finish_eq {d : Delivery} {s t : Locals} (h : InStep m m' chunks d s t) :
    finish s = finish t := by
  obtain ⟨c, seen, n, hc, hfits, rfl, rfl⟩ := h
  have hpre : c <+: chunks := ⟨_, hc⟩
  rcases c with _ | ⟨b, c⟩
  · simp [Locals.after, storage, filled, Memory.block, finish]
  · have hc : ∀ x ∈ b :: c, NulFree x := fun x hx => hnul x (hpre.subset hx)
    rw [finish_after hfits (by simp), finish_after hfits (by simp), cstr_filled m hc,
      cstr_filled m' hc]

include hm hm'

theorem InStep.cString_eq {d : Delivery} {s t : Locals} (h : InStep m m' chunks d s t) :
    cString s.buf = cString t.buf := by
  obtain ⟨c, seen, n, hc, hfits, rfl, rfl⟩ := h
  have hpre : c <+: chunks := ⟨_, hc⟩
  rcases c with _ | ⟨b, c⟩
  · simp [Locals.after, storage, filled, Memory.block]
  · have hc : ∀ x ∈ b :: c, NulFree x := fun x hx => hnul x (hpre.subset hx)
    rw [Locals.after_buf, Locals.after_buf, (hm _ hpre (by simp)).cString_eq hfits (by simp) hc,
      (hm' _ hpre (by simp)).cString_eq hfits (by simp) hc]

theorem simulates_receive :
    Simulates (InStep m m' chunks) (fun s => .ok s.hasSeenReqTerminator) (receive m)
      (fun s => .ok s.hasSeenReqTerminator) (receive m') where
  stop := by
    rintro d s t ⟨c, seen, n, -, -, rfl, rfl⟩ -
    rfl
  pause := InStep.pause
  item := by
    rintro d s t b ⟨c, seen, n, hc, hfits, rfl, rfl⟩
    have hc : (c ++ [b]) ++ d.reduceOption = chunks := by simpa using hc
    have hpre : c ++ [b] <+: chunks := ⟨_, hc⟩
    by_cases hfits' : Fits (c ++ [b])
    · have hnul' : ∀ x ∈ c ++ [b], NulFree x := fun x hx => hnul x (hpre.subset hx)
      rw [receive_of_clears (hm _ hpre (by simp)) hfits' hnul',
        receive_of_clears (hm' _ hpre (by simp)) hfits' hnul']
      cases contentLength (c ++ [b]).flatten with
      | none => exact ⟨_, _, _, hc, hfits', rfl, rfl⟩
      | some p =>
        dsimp only
        split
        · rfl
        · exact ⟨_, _, _, hc, hfits', rfl, rfl⟩
    · have hroom : ∀ m, ¬ Room (.after m c seen n) b :=
        fun m h => hfits' ((room_after_iff hfits).mp h)
      rw [receive, receive, appendChunk_of_not_room m (hroom m),
        appendChunk_of_not_room m' (hroom m')]
      rfl

theorem simulates_appendChunk (k : ℤ) :
    Simulates (InStep m m' chunks) (hasBody k) (appendChunk m) (hasBody k) (appendChunk m') where
  stop := by
    intro d s t h _
    rw [hasBody, hasBody, h.cString_eq hnul hm hm']
  pause := InStep.pause
  item := by
    rintro d s t b ⟨c, seen, n, hc, hfits, rfl, rfl⟩
    have hc : (c ++ [b]) ++ d.reduceOption = chunks := by simpa using hc
    by_cases hfits' : Fits (c ++ [b])
    · rw [(appendChunk_after hfits seen n).mpr ⟨hfits', rfl⟩,
        (appendChunk_after hfits seen n).mpr ⟨hfits', rfl⟩]
      exact ⟨_, _, _, hc, hfits', rfl, rfl⟩
    · have hroom : ∀ m, ¬ Room (.after m c seen n) b :=
        fun m h => hfits' ((room_after_iff hfits).mp h)
      rw [appendChunk_of_not_room m (hroom m), appendChunk_of_not_room m' (hroom m')]
      rfl

theorem InStep.requestLength_eq {d : Delivery} {s t : Locals} (h : InStep m m' chunks d s t) :
    requestLength s = requestLength t := by
  rw [requestLength, requestLength, h.cString_eq hnul hm hm']
  obtain ⟨c, seen, n, -, -, rfl, rfl⟩ := h
  rfl

theorem readTcp_eq_of_clears {d : Delivery} (hd : d.reduceOption = chunks) :
    readTcp m d = readTcp m' d := by
  subst hd
  rw [← Outcome.rel_eq_iff, readTcp, readTcp]
  refine ((simulates_receive hnul hm hm').poll (InStep.init m m' d)).bind ?_
  rintro ⟨s, d'⟩ ⟨t, d'⟩ ⟨rfl, hst⟩
  dsimp only at hst ⊢
  rw [hst.finalContentLength_eq, hst.requestLength_eq hnul hm hm',
    hst.finish_eq hnul]
  split
  case isTrue => exact Outcome.rel_eq_iff.mpr rfl
  case isFalse =>
    refine (Outcome.rel_eq_iff.mpr rfl).bind fun k k' hk => ?_
    obtain rfl := hk
    refine ((simulates_appendChunk hnul hm hm' k).poll hst).bind ?_
    rintro ⟨s', d''⟩ ⟨t', d''⟩ ⟨rfl, hst'⟩
    rw [hst'.finish_eq hnul]
    exact Outcome.rel_eq_iff.mpr rfl

theorem Decides.of_clears {d d₁ : Delivery} (hd : d.reduceOption = chunks) (hd₁ : d₁ <+: d)
    {seen : Bool} {n : ℤ} (h : Decides m d₁ seen n) : Decides m' d₁ seen n := by
  obtain ⟨d₂, rfl⟩ := hd₁
  subst hd
  obtain ⟨s, hcomes, rfl, rfl⟩ := h
  obtain ⟨t, hcomes', c, seen, n, -, -, rfl, rfl⟩ :=
    (simulates_receive hnul hm hm').comesTo (InStep.init m m' (d₁ ++ d₂)) hcomes
  exact ⟨_, hcomes', rfl, rfl⟩

theorem BodyStops.of_clears {d₁ d₂ d₃ : Delivery}
    (hd : (d₁ ++ (d₂ ++ d₃)).reduceOption = chunks) (h : BodyStops m d₁ d₂ d₃) :
    BodyStops m' d₁ d₂ d₃ := by
  subst hd
  obtain ⟨s, n, t, hhead, hn, hlength, hbody⟩ := h
  obtain ⟨s', hhead', hst⟩ := (simulates_receive hnul hm hm').ends (InStep.init m m' _) hhead
  obtain ⟨t', hbody', -⟩ := (simulates_appendChunk hnul hm hm' n).ends hst hbody
  exact ⟨s', n, t', hhead', hst.finalContentLength_eq ▸ hn,
    hst.requestLength_eq hnul hm hm' ▸ hlength, hbody'⟩

end

/-- **With a NUL behind everything received, the rest of memory has no say.** -/
theorem sameRun_of_clears {m m' : Memory} {d : Delivery} (hnul : ∀ b ∈ d.reduceOption, NulFree b)
    (hm : ∀ c, c <+: d.reduceOption → c ≠ [] → Clears m c)
    (hm' : ∀ c, c <+: d.reduceOption → c ≠ [] → Clears m' c) : SameRun m m' d where
  head d₁ seen n hd₁ := ⟨.of_clears hnul hm hm' rfl hd₁, .of_clears hnul hm' hm rfl hd₁⟩
  body d₁ d₂ d₃ hd := by
    subst hd
    exact ⟨.of_clears hnul hm hm' rfl, .of_clears hnul hm' hm rfl⟩
  outcome := readTcp_eq_of_clears hnul hm hm' rfl

/-! ### Memory without a NUL -/

/-- Nothing in this memory ends a string in `buf`. -/
def Memory.full : Memory := ⟨fun _ => 1, fun _ _ => 0⟩

theorem not_terminated_full (b : Bytes) : ¬ Terminated .full [b] := by
  have hblock : ∀ i j, 0 ∉ Memory.full.block i j := fun i j => by simp [Memory.block, Memory.full]
  have hcstr : 0 ∉ cstr b := fun h => nulFree_cstr b 0 h rfl
  simp [Terminated, storage, filled, hblock, hcstr]

theorem readTcp_of_receive_error {m : Memory} {d₁ d₂ : Delivery} {s : Locals} {b : Bytes}
    {e : Undefined} (hcomes : HeadComesTo m d₁ s) (h : receive m s b = .error e) :
    readTcp m (d₁ ++ some b :: d₂) = .failed e := by
  rw [readTcp, Outcome.bind_eq_failed_iff]
  exact .inl (poll_eq_failed_iff.mpr ⟨d₁, _, s, rfl, hcomes, .inl ⟨b, d₂, rfl, h⟩⟩)

theorem exists_first_chunk {d : Delivery} (h : d.reduceOption ≠ []) :
    ∃ d₁ b d₂, d = d₁ ++ some b :: d₂ ∧ d₁.reduceOption = [] := by
  induction d with
  | nil => exact absurd rfl h
  | cons x d ih =>
    cases x with
    | none =>
      obtain ⟨d₁, b, d₂, rfl, hd₁⟩ := ih h
      exact ⟨none :: d₁, b, d₂, rfl, hd₁⟩
    | some b => exact ⟨[], b, d, rfl, rfl⟩

theorem headComesTo_of_pauses (m : Memory) {d : Delivery} (hd : d.reduceOption = []) :
    HeadComesTo m d (.after m [] false 0) := by
  refine comesTo_receive_iff.mpr ?_
  rw [hd]
  refine ⟨fits_nil, by simp, fun e he => ?_, by simp [not_hasHead_nil, announced_nil]⟩
  have hnil := List.prefix_nil.mp (hd ▸ reduceOption_isPrefix he)
  rw [hnil]
  exact not_hasHead_nil m

/-- Without a NUL in `buf`, the first search runs past its end. -/
theorem receive_full {b : Bytes} (hfits : Fits [b]) :
    receive .full (.after .full [] false 0) b = .error .overread := by
  have hroom : Room (.after .full [] false 0) b := (room_after_iff fits_nil).mpr hfits
  cases hb : receive .full (.after .full [] false 0) b with
  | error e =>
    have hread := (receive_inBounds_iff fits_nil).mpr
      ⟨hroom, fun hterm => absurd hterm (not_terminated_full b)⟩
    rw [hread e hb]
  | ok s =>
    obtain ⟨-, hread, -⟩ := (receive_after fits_nil _ _).mp hb
    exact absurd hread.terminated (not_terminated_full b)

theorem not_decides_full {d : Delivery} (hd : d.reduceOption = []) (b : Bytes) (seen : Bool)
    (n : ℤ) :
    ¬ Decides .full (d ++ [some b]) seen n := by
  rintro ⟨t, ht, -, -⟩
  obtain ⟨-, hread, -, -⟩ := comesTo_receive_iff.mp ht
  rw [List.reduceOption_append, hd] at hread
  exact not_terminated_full b (hread [b] (by simp) (by simp)).terminated

/-- In cleared memory, no search runs past the end of `buf`. -/
theorem receive_zeroed_ne {b : Bytes} (hfits : Fits [b]) :
    receive .zeroed (.after .zeroed [] false 0) b ≠ .error .overread := by
  intro hb
  have hterm : Terminated .zeroed [b] := terminated_zeroed hfits (by simp)
  have hclean : ∀ e, receive .zeroed (.after .zeroed [] false 0) b = .error e → e = .overread := by
    intro e he
    rw [hb] at he
    cases he
    rfl
  have hline := (receive_inBounds_iff fits_nil).mp hclean
  have hread : Readable .zeroed [b] :=
    ⟨hterm, hline.2 hterm, fun _ _ => List.mem_map.mpr ⟨0, by decide, rfl⟩⟩
  rw [(receive_after fits_nil _ _).mpr ⟨hfits, hread, rfl⟩] at hb
  cases hb

/-- **Only a delivery without a chunk leaves memory no say.** -/
theorem sameRun_iff {d : Delivery} (hsmall : ∀ b ∈ d.reduceOption, b.length < clientChunk) :
    (∀ m m', SameRun m m' d) ↔ d.reduceOption = [] := by
  constructor
  · intro h
    by_contra hne
    obtain ⟨d₁, b, d₂, rfl, hd₁⟩ := exists_first_chunk hne
    have hfits : Fits [b] :=
      ⟨by simpa using hsmall b (by simp [List.reduceOption_append]), by simp⟩
    have hcomes := fun m => headComesTo_of_pauses m hd₁
    cases hb : receive .zeroed (.after .zeroed [] false 0) b with
    | ok s =>
      have hdecides :
          Decides .zeroed (d₁ ++ [some b]) s.hasSeenReqTerminator s.finalContentLength :=
        ⟨s, (hcomes .zeroed).trans (.item hb (.here s)), rfl, rfl⟩
      exact not_decides_full hd₁ b _ _ (((h .zeroed .full).head _ _ _ ⟨d₂, by simp⟩).mp hdecides)
    | error e =>
      have houtcome := (h .zeroed .full).outcome
      rw [readTcp_of_receive_error (hcomes _) hb,
        readTcp_of_receive_error (hcomes _) (receive_full hfits)] at houtcome
      cases houtcome
      exact receive_zeroed_ne hfits hb
  · intro hd
    have hnone : ∀ c, c <+: d.reduceOption → c ≠ [] → False := by
      intro c hc hne
      rw [hd, List.prefix_nil] at hc
      exact hne hc
    exact fun m m' => sameRun_of_clears (by simp [hd]) (fun c hc hne => (hnone c hc hne).elim)
      fun c hc hne => (hnone c hc hne).elim

/-- Any memory can have a say where a chunk is received. -/
theorem not_sameRun_get : ¬ ∀ m m', SameRun m m' [some (ascii "GET")] :=
  fun h => absurd ((sameRun_iff (by decide)).mp h) (by decide)

/-- What is left there of an earlier request. -/
def Memory.stale : Memory := ⟨fun i => ([0, 0, 0, 13, 10, 13, 10]).getD i 0, fun _ _ => 0⟩

/-- Behind three bytes of a request the end of another one is found. -/
theorem not_sameRun_stale :
    (∀ b ∈ [ascii "GET"], NulFree b ∧ b.length < clientChunk) ∧
      ¬ SameRun .stale .zeroed [some (ascii "GET")] := by
  refine ⟨by decide, fun h => ?_⟩
  have hstale : readTcp .stale [some (ascii "GET")] = .returned (ascii "GET") := by decide +kernel
  have hzeroed : readTcp .zeroed [some (ascii "GET")] = .waits := by decide +kernel
  rw [h.outcome, hzeroed] at hstale
  cases hstale

end AhungryJanet
