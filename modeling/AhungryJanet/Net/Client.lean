import AhungryJanet.Json.Decode
import Mathlib.Algebra.Group.Int.Defs
import Mathlib.Algebra.Group.Nat.Defs

/-!
# The HTTP client

`com.ahungry.net.tcp.client` and the callback of `curl_wrap_app.c` that collects a body for it.

`libcurl` is outside of the repository. What it does is a `Transfer`: the blocks it hands to the
callback, and the status `curl_easy_perform` returns in the end. Of its documentation one sentence
is used: a callback that returns something else than the size of its block makes the transfer fail.

## The status is not looked at

Both functions bind the status to `res-status` and go on with whatever the buffer holds. So what was
received before a failure is returned, or decoded, as if it were the body.

## Main results

* `fetchesWhole_iff` — exactly which transfers are dealt with as they should be
-/

namespace AhungryJanet

/-- A block that is handed to the callback, and whether `realloc` finds room for it. -/
structure Block where
  data : Bytes
  room : Bool

/-- `dummy_callback`: what the memory holds afterwards, and what is returned. -/
def dummyCallback (mem : Bytes) (block : Block) : Bytes × ℕ :=
  let realsize := block.data.length
  if block.room then (mem ++ block.data, realsize) else (mem, 0)

/-- `CURLE_OK`. -/
def curleOk : ℕ := 0

/-- What `libcurl` does in `curl_easy_perform`. -/
structure Transfer where
  /-- The blocks the callback is called with, in order. -/
  blocks : List Block
  /-- The `CURLcode` returned. -/
  status : ℕ
  /-- With `CURLE_OK`, the callback took every block. -/
  taken : status = curleOk →
    ∀ block ∈ blocks, ∀ mem, (dummyCallback mem block).2 = block.data.length

/-- What is behind `curl-make-buffer` after the transfer. -/
def Transfer.collected (t : Transfer) : Bytes :=
  t.blocks.foldl (fun mem block => (dummyCallback mem block).1) []

/-- The body: the blocks one after another. -/
def Transfer.body (t : Transfer) : Bytes := (t.blocks.map Block.data).flatten

/-- A `size_t` passed for an `int32_t`. -/
def toInt32 (size : ℕ) : ℤ := Int.bmod size (2 ^ 32)

/-- `janet_string (mem->response, mem->size)`. A negative length makes the process end, since there
is no memory for it. -/
def curlGetBufferContent (mem : Bytes) : Option Bytes :=
  let len := toInt32 mem.length
  if len < 0 then none else some (mem.take len.toNat)

/-- `http-get`, with the transfer that `curl-easy-perform` makes of its settings. `none` means that
the process ends. -/
def httpGet (t : Transfer) : Option (Call Bytes) := do
  let res ← curlGetBufferContent t.collected
  return .ok res

/-- `json-get`. -/
def jsonGet (C : Libc) (t : Transfer) : Option (Call Value) := do
  let res ← curlGetBufferContent t.collected
  return jsonDecode C ⟨false, false⟩ res

/-- After `CURLE_OK`, the body is returned, and decoded; after any other status both functions raise
an error. -/
structure FetchesWhole (C : Libc) (t : Transfer) : Prop where
  http : t.status = curleOk → httpGet t = some (.ok t.body)
  json : t.status = curleOk → jsonGet C t = some (jsonDecode C ⟨false, false⟩ t.body)
  http_failed : t.status ≠ curleOk → ∃ err, httpGet t = some (.error err)
  json_failed : t.status ≠ curleOk → ∃ err, jsonGet C t = some (.error err)

/-! ### The buffer -/

theorem dummyCallback_taken {block : Block} {mem : Bytes}
    (h : (dummyCallback mem block).2 = block.data.length) :
    (dummyCallback mem block).1 = mem ++ block.data := by
  rw [dummyCallback] at h ⊢
  split at h
  case isTrue hroom => rw [if_pos hroom]
  case isFalse hroom =>
    -- Without room the callback returns 0, which is the size of an empty block.
    rw [if_neg hroom, List.eq_nil_of_length_eq_zero h.symm, List.append_nil]

/-- With `CURLE_OK` the buffer holds the body. -/
theorem Transfer.collected_eq_body {t : Transfer} (h : t.status = curleOk) :
    t.collected = t.body := by
  have hfold : ∀ (blocks : List Block) (mem : Bytes),
      (∀ block ∈ blocks, ∀ mem, (dummyCallback mem block).2 = block.data.length) →
      blocks.foldl (fun mem block => (dummyCallback mem block).1) mem =
        mem ++ (blocks.map Block.data).flatten := by
    intro blocks
    induction blocks with
    | nil => intro mem _; simp
    | cons block blocks ih =>
      intro mem htaken
      have hblock := dummyCallback_taken (htaken block (List.mem_cons_self ..) mem)
      rw [List.foldl_cons, hblock, ih _ fun b hb => htaken b (List.mem_cons_of_mem _ hb)]
      simp
  rw [collected, hfold t.blocks [] (t.taken h)]
  rfl

theorem toInt32_of_lt {size : ℕ} (h : size < 2 ^ 31) : toInt32 size = size :=
  Int.bmod_eq_of_le (by omega) (by omega)

/-- The string is what the buffer holds as long as its size fits. -/
theorem curlGetBufferContent_eq_iff {mem : Bytes} :
    curlGetBufferContent mem = some mem ↔ mem.length < 2 ^ 31 := by
  constructor
  · intro h
    rw [curlGetBufferContent] at h
    split at h
    case isTrue => cases h
    case isFalse hlen =>
      have htake := (List.take_eq_self_iff mem).mp (Option.some.inj h)
      have hlt : toInt32 mem.length < (2 ^ 32 + 1) / 2 := Int.bmod_lt (by decide)
      omega
  · intro h
    rw [curlGetBufferContent, toInt32_of_lt h, if_neg (by omega), Int.toNat_natCast,
      List.take_length]

theorem httpGet_eq (t : Transfer) :
    httpGet t = (curlGetBufferContent t.collected).map .ok := by
  rw [httpGet]
  cases curlGetBufferContent t.collected <;> rfl

theorem jsonGet_eq (C : Libc) (t : Transfer) :
    jsonGet C t = (curlGetBufferContent t.collected).map (jsonDecode C ⟨false, false⟩) := by
  rw [jsonGet]
  cases curlGetBufferContent t.collected <;> rfl

/-- **A transfer is dealt with as it should be exactly when it ends in `CURLE_OK`** and the body
fits a Janet string. -/
theorem fetchesWhole_iff (C : Libc) (t : Transfer) :
    FetchesWhole C t ↔ t.status = curleOk ∧ t.body.length < 2 ^ 31 := by
  constructor
  · intro h
    have hstatus : t.status = curleOk := by
      by_contra hfailed
      obtain ⟨err, herr⟩ := h.http_failed hfailed
      rw [httpGet_eq] at herr
      obtain ⟨res, -, hres⟩ := Option.map_eq_some_iff.mp herr
      cases hres
    have hhttp := h.http hstatus
    rw [httpGet_eq, t.collected_eq_body hstatus] at hhttp
    obtain ⟨res, hres, hbody⟩ := Option.map_eq_some_iff.mp hhttp
    rw [Except.ok.inj hbody] at hres
    exact ⟨hstatus, curlGetBufferContent_eq_iff.mp hres⟩
  · rintro ⟨hstatus, hlen⟩
    have hres : curlGetBufferContent t.collected = some t.body := by
      rw [t.collected_eq_body hstatus, curlGetBufferContent_eq_iff.mpr hlen]
    refine ⟨fun _ => ?_, fun _ => ?_, fun hfailed => absurd hstatus hfailed,
      fun hfailed => absurd hstatus hfailed⟩
    · rw [httpGet_eq, hres, Option.map_some]
    · rw [jsonGet_eq, hres, Option.map_some]

/-- A transfer that is cut short behind `12`, with `CURLE_PARTIAL_FILE`. -/
def cutShort : Transfer where
  blocks := [⟨ascii "12", true⟩]
  status := 18
  taken := fun h => absurd h (by decide)

/-- What was received is returned. -/
theorem not_fetchesWhole_cutShort :
    ¬ ∀ (C : Libc) (t : Transfer), FetchesWhole C t := by
  intro h
  obtain ⟨err, herr⟩ := (h Libc.zero cutShort).http_failed (by decide)
  have hcollected : cutShort.collected = ascii "12" := by rfl
  rw [httpGet_eq, hcollected, curlGetBufferContent_eq_iff.mpr (by decide)] at herr
  cases herr

end AhungryJanet
