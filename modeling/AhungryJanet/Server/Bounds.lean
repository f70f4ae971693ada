import AhungryJanet.Server.ReadTcp

/-!
# The buffers and integers of `read_tcp`

Every store of `read_tcp`, every length it copies and every `int` it computes is checked in the
model, and a check that fails ends the run. This file says which runs meet no such check: what has
to hold at each chunk that one of the two loops comes to, and between them.

A string function that runs past its block is not among these checks. It ends a run as well.

## Main results

* `receive_inBounds_iff`, `appendChunk_inBounds_iff` — one round of either loop
* `inBounds_iff` — a whole run
-/

namespace AhungryJanet

open Polling

/-- No store is out of bounds, no copy has a negative length and no `int` overflows. -/
def InBounds (m : Memory) (d : Delivery) : Prop := (readTcp m d).FailsOnly (· = .overread)

/-- `tmp` and `buf` have room for a chunk. -/
structure Room (s : Locals) (tmp : Bytes) : Prop where
  small : tmp.length < clientChunk
  few : (s.i + 1) * clientChunk < intBound

/-- If the search for a length header gets through `buf` and finds one, then with a `\r`. -/
def LineEnds (m : Memory) (c : List Bytes) : Prop :=
  Terminated m c → ∀ p, contentLength (text m c) = some p → 13 ∈ p

/-- The first loop comes to `s` behind `d`. -/
def HeadComesTo (m : Memory) (d : Delivery) (s : Locals) : Prop :=
  ComesTo (fun s => .ok s.hasSeenReqTerminator) (receive m) .init d s

/-- The first loop ends with `s` behind `d₁`. -/
def HeadEnds (m : Memory) (d₁ d₂ : Delivery) (s : Locals) : Prop :=
  Ends (fun s => .ok s.hasSeenReqTerminator) (receive m) .init d₁ d₂ s

/-- The second loop, which waits for a text of the length `n`, comes from `s` to `t` behind `d`. -/
def BodyComesTo (m : Memory) (n : ℤ) (s : Locals) (d : Delivery) (t : Locals) : Prop :=
  ComesTo (hasBody n) (appendChunk m) s d t

/-! ### One round -/

theorem room_after_iff {m : Memory} {c : List Bytes} (hc : Fits c) {b : Bytes} {seen : Bool}
    {n : ℤ} : Room (.after m c seen n) b ↔ Fits (c ++ [b]) := by
  rw [hc.append_singleton]
  exact ⟨fun h => ⟨h.small, h.few⟩, fun h => ⟨h.1, h.2⟩⟩

/-- A chunk that does not fit is not stored, whatever memory contains. -/
theorem appendChunk_of_not_room (m : Memory) {s : Locals} {tmp : Bytes} (h : ¬ Room s tmp) :
    appendChunk m s tmp =
      .error (if clientChunk ≤ tmp.length then .tmpOverrun else .intOverflow) := by
  rw [appendChunk]
  split
  case isTrue => rfl
  case isFalse hsmall =>
    rw [if_pos]
    by_contra hfew
    exact h ⟨Nat.not_le.mp hsmall, Nat.not_le.mp hfew⟩

theorem overrun_ne_overread (tmp : Bytes) :
    (if clientChunk ≤ tmp.length then Undefined.tmpOverrun else .intOverflow) ≠ .overread := by
  split <;> decide

/-- A round of the second loop. -/
theorem appendChunk_inBounds_iff {m : Memory} {c : List Bytes} (hc : Fits c) {b : Bytes}
    {seen : Bool} {n : ℤ} :
    (∀ e, appendChunk m (.after m c seen n) b = .error e → e = .overread) ↔
      Room (.after m c seen n) b := by
  constructor
  · intro h
    by_contra hroom
    exact overrun_ne_overread b (h _ (appendChunk_of_not_room m hroom))
  · intro hroom e he
    rw [(appendChunk_after hc seen n).mpr ⟨(room_after_iff hc).mp hroom, rfl⟩] at he
    cases he

theorem cString_eq_error {block : Bytes} {e : Undefined} (h : cString block = .error e) :
    e = .overread := by
  rw [cString] at h
  split at h <;> cases h
  rfl

theorem readContentLength_inBounds_iff {m : Memory} {i : ℕ} {buf p : Bytes}
    (hp : contentLength buf = some p) :
    (∀ e, readContentLength m i p = .error e → e = .overread) ↔ 13 ∈ p := by
  rw [readContentLength]
  by_cases h13 : 13 ∈ p
  · have hle : ¬ nlOffset p < textlen := fun hlt => (nlOffset_lt_iff hp).mp hlt h13
    rw [if_neg hle]
    refine iff_of_true (fun e he => ?_) h13
    cases hclen : cString (clenString m i p) with
    | error e' =>
      rw [hclen] at he
      cases he
      exact cString_eq_error hclen
    | ok t =>
      rw [hclen] at he
      cases he
  · have hlt : nlOffset p < textlen := (nlOffset_lt_iff hp).mpr h13
    rw [if_pos hlt]
    simp [h13]

/-- A round of the first loop. -/
theorem receive_inBounds_iff {m : Memory} {c : List Bytes} (hc : Fits c) {b : Bytes} {seen : Bool}
    {n : ℤ} :
    (∀ e, receive m (.after m c seen n) b = .error e → e = .overread) ↔
      Room (.after m c seen n) b ∧ LineEnds m (c ++ [b]) := by
  by_cases hroom : Room (.after m c seen n) b
  case neg =>
    rw [receive, appendChunk_of_not_room m hroom]
    simp [bind, Except.bind, overrun_ne_overread, hroom]
  case pos =>
    have happend := (appendChunk_after (m := m) hc seen n).mpr ⟨(room_after_iff hc).mp hroom, rfl⟩
    rw [receive, happend]
    simp only [bind, Except.bind, hroom, true_and, Locals.after_buf]
    by_cases hterm : Terminated m (c ++ [b])
    · rw [cString_after.mpr ⟨hterm, rfl⟩]
      simp only [LineEnds, hterm, true_implies]
      split
      case h_1 hnone => simp [hnone, pure, Except.pure]
      case h_2 p hp =>
        have hline := readContentLength_inBounds_iff (m := m) (i := (c ++ [b]).length) hp
        simp only [hp, Option.some.injEq, forall_eq', Locals.after_i]
        rw [← hline]
        cases readContentLength m (c ++ [b]).length p <;> simp [pure, Except.pure]
    · have hover : cString (storage m (c ++ [b])) = .error .overread := by
        rw [cString, if_neg (by rwa [Terminated] at hterm)]
      rw [hover]
      simp [LineEnds, hterm]

/-! ### A whole run -/

/-- What has to hold where a run comes to. -/
structure Bounded (m : Memory) (d : Delivery) : Prop where
  /-- At a chunk that the first loop receives. -/
  head : ∀ d₁ b s, d₁ ++ [some b] <+: d → HeadComesTo m d₁ s →
    Room s b ∧ LineEnds m (d₁.reduceOption ++ [b])
  /-- Between the loops. -/
  length : ∀ d₁ d' s, d = d₁ ++ d' → HeadEnds m d₁ d' s → s.finalContentLength ≠ 0 →
    headerLength (text m d₁.reduceOption) + s.finalContentLength < intBound
  /-- At a chunk that the second loop receives. -/
  body : ∀ d₁ d' s, d = d₁ ++ d' → HeadEnds m d₁ d' s → s.finalContentLength ≠ 0 →
    ∀ d₂ b t, d₂ ++ [some b] <+: d' →
      BodyComesTo m (headerLength (text m d₁.reduceOption) + s.finalContentLength) s d₂ t → Room t b

theorem requestLength_inBounds_iff {m : Memory} {c : List Bytes} (hterm : Terminated m c)
    {seen : Bool} {n : ℤ} :
    (∀ e, requestLength (.after m c seen n) = .error e → e = .overread) ↔
      headerLength (text m c) + n < intBound := by
  rw [requestLength, Locals.after_buf, cString_after.mpr ⟨hterm, rfl⟩]
  simp only [bind, Except.bind, Locals.after_finalContentLength]
  split
  case isTrue hle => simp [hle]
  case isFalse hlt => simp [pure, Except.pure, Int.not_le.mp hlt]

theorem hasBody_eq_error {n : ℤ} {s : Locals} {e : Undefined} (h : hasBody n s = .error e) :
    e = .overread := by
  rw [hasBody] at h
  cases hbuf : cString s.buf with
  | error e' =>
    rw [hbuf] at h
    cases h
    exact cString_eq_error hbuf
  | ok buf =>
    rw [hbuf] at h
    cases h

theorem headLoop_inBounds_iff {m : Memory} {d : Delivery} :
    (poll (fun s => .ok s.hasSeenReqTerminator) (receive m) .init d).FailsOnly (· = .overread) ↔
      ∀ d₁ b s, d₁ ++ [some b] <+: d → HeadComesTo m d₁ s →
        Room s b ∧ LineEnds m (d₁.reduceOption ++ [b]) := by
  rw [failsOnly_poll_iff, and_iff_left (by simp)]
  refine forall_congr' fun d₁ => forall_congr' fun b => forall_congr' fun s =>
    imp_congr_right fun _ => imp_congr_right fun hcomes => ?_
  obtain ⟨hfits, -, -, rfl⟩ := comesTo_receive_iff.mp hcomes
  exact receive_inBounds_iff hfits

theorem bodyLoop_inBounds_iff {m : Memory} {c : List Bytes} (hc : Fits c) {seen : Bool} {k n : ℤ}
    {d : Delivery} :
    (poll (hasBody n) (appendChunk m) (.after m c seen k) d).FailsOnly (· = .overread) ↔
      ∀ d₂ b t, d₂ ++ [some b] <+: d → BodyComesTo m n (.after m c seen k) d₂ t → Room t b := by
  rw [failsOnly_poll_iff, and_iff_left fun _ _ _ _ _ _ _ => hasBody_eq_error]
  refine forall_congr' fun d₂ => forall_congr' fun b => forall_congr' fun t =>
    imp_congr_right fun _ => imp_congr_right fun hcomes => ?_
  obtain ⟨hfits, -, rfl⟩ := (comesTo_appendChunk_iff hc seen k n).mp hcomes
  exact appendChunk_inBounds_iff hfits

/-- Everything behind the first loop, when there is a body to wait for. -/
theorem bodyRun_inBounds_iff {m : Memory} {c : List Bytes} (hc : Fits c) (hne : c ≠ [])
    (hterm : Terminated m c) {seen : Bool} {k : ℤ} {d : Delivery} :
    ((Outcome.ofExcept (requestLength (.after m c seen k))).bind fun n =>
        (poll (hasBody n) (appendChunk m) (.after m c seen k) d).bind fun (s, _) =>
          .ofExcept (finish s)).FailsOnly (· = .overread) ↔
      headerLength (text m c) + k < intBound ∧
        ∀ d₂ b t, d₂ ++ [some b] <+: d →
          BodyComesTo m (headerLength (text m c) + k) (.after m c seen k) d₂ t → Room t b := by
  rw [Outcome.failsOnly_bind_iff, Outcome.failsOnly_ofExcept_iff, requestLength_inBounds_iff hterm]
  refine and_congr_right fun hlt => ?_
  rw [← bodyLoop_inBounds_iff hc]
  have hlength : ∀ n, Outcome.ofExcept (requestLength (.after m c seen k)) = .returned n ↔
      n = headerLength (text m c) + k := fun n => by
    rw [Outcome.ofExcept_eq_returned_iff, requestLength_after]
    exact ⟨fun h => h.2.1, fun h => ⟨hterm, h, h ▸ hlt⟩⟩
  simp only [hlength, forall_eq, Outcome.failsOnly_bind_iff]
  refine and_iff_left ?_
  rintro ⟨s, d'⟩ hpoll
  obtain ⟨d₂, -, hends⟩ := poll_eq_returned_iff.mp hpoll
  obtain ⟨hfits, -, rfl⟩ := (ends_appendChunk_iff hc seen k _).mp hends
  rw [finish_after hfits (by simp [hne])]
  exact Outcome.failsOnly_returned _ _

/-- Everything behind the first loop. -/
theorem afterHead_inBounds_iff {m : Memory} {d₁ d' : Delivery} {s : Locals}
    (hends : HeadEnds m d₁ d' s) :
    ((if s.finalContentLength = 0 then Outcome.ofExcept (finish s)
      else (Outcome.ofExcept (requestLength s)).bind fun n =>
        (poll (hasBody n) (appendChunk m) s d').bind fun (s, _) =>
          .ofExcept (finish s)).FailsOnly (· = .overread) ↔
      (s.finalContentLength ≠ 0 →
        headerLength (text m d₁.reduceOption) + s.finalContentLength < intBound ∧
        ∀ d₂ b t, d₂ ++ [some b] <+: d' →
          BodyComesTo m (headerLength (text m d₁.reduceOption) + s.finalContentLength) s d₂ t →
            Room t b)) := by
  obtain ⟨hfits, hhead, rfl⟩ := ends_receive_iff.mp hends
  have hne := hhead.head.ne_nil
  split
  case isTrue hzero =>
    rw [finish_after hfits hne]
    exact iff_of_true (Outcome.failsOnly_returned _ _) fun hn => absurd hzero hn
  case isFalse hn =>
    rw [bodyRun_inBounds_iff hfits hne (hhead.readable _ List.prefix_rfl hne).terminated]
    exact ⟨fun h _ => h, fun h => h hn⟩

/-- **`read_tcp` stays in bounds when every chunk leaves room for a terminator, no length line is
cut and the length of the request is an `int`.** -/
theorem inBounds_iff {m : Memory} {d : Delivery} : InBounds m d ↔ Bounded m d := by
  rw [InBounds, readTcp, Outcome.failsOnly_bind_iff, headLoop_inBounds_iff]
  constructor
  · rintro ⟨hhead, hafter⟩
    have hbody : ∀ d₁ d' s, d = d₁ ++ d' → HeadEnds m d₁ d' s → _ := fun d₁ d' s hd hends =>
      (afterHead_inBounds_iff hends).mp (hafter (s, d') (poll_eq_returned_iff.mpr ⟨d₁, hd, hends⟩))
    exact ⟨hhead, fun d₁ d' s hd hends hn => (hbody d₁ d' s hd hends hn).1,
      fun d₁ d' s hd hends hn => (hbody d₁ d' s hd hends hn).2⟩
  · rintro ⟨hhead, hlength, hbody⟩
    refine ⟨hhead, ?_⟩
    rintro ⟨s, d'⟩ hpoll
    obtain ⟨d₁, hd, hends⟩ := poll_eq_returned_iff.mp hpoll
    exact (afterHead_inBounds_iff hends).mpr fun hn => ⟨hlength d₁ d' s hd hends hn,
      hbody d₁ d' s hd hends hn⟩

/-- A chunk of `CLIENT_CHUNK` bytes has its terminator stored behind `tmp`. -/
theorem not_inBounds_fullChunk :
    ¬ InBounds .zeroed [some (List.replicate clientChunk 65)] := fun h => by
  have hoverrun : readTcp .zeroed [some (List.replicate clientChunk 65)] = .failed .tmpOverrun := by
    decide +kernel
  cases h _ hoverrun

end AhungryJanet
