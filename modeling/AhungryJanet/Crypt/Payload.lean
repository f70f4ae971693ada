import AhungryJanet.Crypt.Jwt
import AhungryJanet.Json.RoundTrip
import Mathlib.Data.List.Forall2
import Mathlib.Data.List.Nodup

/-!
# The payload of a token

What `get-payload` returns of the payload that `make` was given. Between the two stand JSON, base64
without padding, and the zeros that decoding a block leaves behind the text; the zeros are harmless,
since `json/decode` reads up to the first of them.

What does not come back are characters above U+FFFF: `encode_one` takes the last byte of four twice.
And a payload whose text has more than `payloadMax` bytes becomes no token at all.

## Main results

* `deepEq_iff` — a value that went through JSON is the same if and only if its characters are
* `carriesPayload_iff` — which payloads a token carries
-/

namespace AhungryJanet

open Base64

/-! ### Deep equality -/

/-- The bits of a double that is a NaN. -/
def isNaN (x : UInt64) : Prop := (2 ^ 11 - 1) * 2 ^ 52 < x.toNat % 2 ^ 63

/-- `=` on numbers: the two zeros are equal, and a NaN is not equal to itself. -/
def numberEq (x y : UInt64) : Prop :=
  ¬ isNaN x ∧ (x = y ∨ x.toNat % 2 ^ 63 = 0 ∧ y.toNat % 2 ^ 63 = 0)

/-- `deep=`: as `=`, but arrays, tables and buffers are equal if they have the same contents. Two
tables have the same contents if they have the same keys and, under each, values that are `deep=`,
in whatever order. -/
inductive DeepEq : Value → Value → Prop
  | nil : DeepEq .nil .nil
  | boolean (b : Bool) : DeepEq (.boolean b) (.boolean b)
  | number {x y : UInt64} (h : numberEq x y) : DeepEq (.number x) (.number y)
  | string {s t : Bytes} (h : s = t) : DeepEq (.string s) (.string t)
  | symbol {s t : Bytes} (h : s = t) : DeepEq (.symbol s) (.symbol t)
  | keyword {s t : Bytes} (h : s = t) : DeepEq (.keyword s) (.keyword t)
  | buffer {s t : Bytes} (h : s = t) : DeepEq (.buffer s) (.buffer t)
  | tuple (b b' : Bool) {xs ys : List Value} (h : List.Forall₂ DeepEq xs ys) :
      DeepEq (.tuple b xs) (.tuple b' ys)
  | array {xs ys : List Value} (h : List.Forall₂ DeepEq xs ys) : DeepEq (.array xs) (.array ys)
  | struct {kvs kvs' : List (Value × Value)}
      (keys : ∀ k, k ∈ kvs.map Prod.fst ↔ k ∈ kvs'.map Prod.fst)
      (values : ∀ e ∈ kvs, ∀ e' ∈ kvs', e.1 = e'.1 → DeepEq e.2 e'.2) :
      DeepEq (.struct kvs) (.struct kvs')
  | table {kvs kvs' : List (Value × Value)}
      (keys : ∀ k, k ∈ kvs.map Prod.fst ↔ k ∈ kvs'.map Prod.fst)
      (values : ∀ e ∈ kvs, ∀ e' ∈ kvs', e.1 = e'.1 → DeepEq e.2 e'.2) :
      DeepEq (.table kvs) (.table kvs')
  | other (address : ℕ) : DeepEq (.other address) (.other address)

theorem numberEq_self {x : UInt64} (h : isFinite x) : numberEq x x := by
  refine ⟨fun hnan => ?_, .inl rfl⟩
  rw [isFinite] at h
  rw [isNaN] at hnan
  omega

theorem deepEq_string_iff {s t : Bytes} : DeepEq (.string s) (.string t) ↔ s = t := by
  constructor
  · intro h
    cases h with
    | string h => exact h
  · exact .string

theorem deepEq_array_iff {xs ys : List Value} :
    DeepEq (.array xs) (.array ys) ↔ List.Forall₂ DeepEq xs ys := by
  constructor
  · intro h
    cases h with
    | array h => exact h
  · exact .array

theorem deepEq_table_iff {kvs kvs' : List (Value × Value)} :
    DeepEq (.table kvs) (.table kvs') ↔
      (∀ k, k ∈ kvs.map Prod.fst ↔ k ∈ kvs'.map Prod.fst) ∧
        ∀ e ∈ kvs, ∀ e' ∈ kvs', e.1 = e'.1 → DeepEq e.2 e'.2 := by
  constructor
  · intro h
    cases h with
    | table keys values => exact ⟨keys, values⟩
  · exact fun h => .table h.1 h.2

/-! ### Characters -/

/-- Every character of a string or a key of a value has the property. -/
inductive EveryChar (P : Char → Prop) : Value → Prop
  | boolean (b : Bool) : EveryChar P (.boolean b)
  | number (x : UInt64) : EveryChar P (.number x)
  | string {b : Bytes} (s : List Char) (hb : b = utf8 s) (h : ∀ c ∈ s, P c) :
      EveryChar P (.string b)
  | array {items : List Value} (h : ∀ x ∈ items, EveryChar P x) : EveryChar P (.array items)
  | table {kvs : List (Value × Value)}
      (hkeys : ∀ e ∈ kvs, ∃ s, e.1 = .string (utf8 s) ∧ ∀ c ∈ s, P c)
      (h : ∀ e ∈ kvs, EveryChar P e.2) : EveryChar P (.table kvs)

/-- A character that comes back: not above U+FFFF, or with the same six bits twice at its end. -/
def Kept (c : Char) : Prop := c.toNat < 0x10000 ∨ c.toNat / 0x40 % 0x40 = c.toNat % 0x40

instance (c : Char) : Decidable (Kept c) := inferInstanceAs (Decidable (_ ∨ _))

theorem utf8_injective : Function.Injective utf8 := by
  intro s t h
  have harray : s.utf8Encode = t.utf8Encode := congrArg List.toByteArray h
  rw [← String.toByteArray_ofList, ← String.toByteArray_ofList, String.toByteArray_inj] at harray
  exact String.ofList_injective harray

theorem everyChar_string_iff {P : Char → Prop} {s : List Char} :
    EveryChar P (.string (utf8 s)) ↔ ∀ c ∈ s, P c := by
  constructor
  · intro h
    cases h with
    | string t hb h =>
      rw [utf8_injective hb]
      exact h
  · exact .string s rfl

theorem everyChar_array_iff {P : Char → Prop} {items : List Value} :
    EveryChar P (.array items) ↔ ∀ x ∈ items, EveryChar P x := by
  constructor
  · intro h
    cases h with
    | array h => exact h
  · exact .array

theorem everyChar_source_iff {P : Char → Prop} {entries : Entries} :
    EveryChar P (.table entries.source) ↔
      (∀ e ∈ entries, ∀ c ∈ e.1, P c) ∧ ∀ e ∈ entries, EveryChar P e.2.1 := by
  constructor
  · intro h
    cases h with
    | table hkeys h =>
      refine ⟨fun e he => ?_, fun e he => h _ (List.mem_map_of_mem he)⟩
      obtain ⟨s, hs, hall⟩ := hkeys _ (List.mem_map_of_mem he)
      rw [utf8_injective (Value.string.inj hs)]
      exact hall
  · rintro ⟨hkeys, h⟩
    refine .table (fun e' he' => ?_) fun e' he' => ?_
    · obtain ⟨e, he, rfl⟩ := List.mem_map.mp he'
      exact ⟨e.1, rfl, hkeys e he⟩
    · obtain ⟨e, he, rfl⟩ := List.mem_map.mp he'
      exact h e he

theorem map_echo_eq_iff {s : List Char} : s.map echo = s ↔ ∀ c ∈ s, Kept c := by
  have hid : s.map echo = s ↔ s.map echo = s.map id := by rw [List.map_id]
  rw [hid, List.map_inj_left]
  exact forall₂_congr fun _ _ => echo_eq_self_iff

theorem map_echo_echo (s : List Char) : (s.map echo).map echo = s.map echo := by
  rw [List.map_map]
  exact List.map_congr_left fun c _ => echo_echo c

/-! ### Tables that come back -/

theorem mem_keys_foldl_put {entries : Entries} {t : List (Bytes × Value)} {k : Bytes} :
    k ∈ (entries.foldl (fun t e => janetTablePut t (utf8 (e.1.map echo)) e.2.2) t).map Prod.fst ↔
      k ∈ t.map Prod.fst ∨ ∃ e ∈ entries, k = utf8 (e.1.map echo) := by
  induction entries generalizing t with
  | nil => simp
  | cons e entries ih =>
    rw [List.foldl_cons, ih, mem_keys_janetTablePut, List.exists_mem_cons_iff]
    tauto

/-- The keys of the table that is read. -/
theorem mem_keys_target {entries : Entries} {k : Bytes} :
    k ∈ entries.target.map Prod.fst ↔ ∃ e ∈ entries, k = utf8 (e.1.map echo) := by
  rw [Entries.target, mem_keys_foldl_put]
  simp

theorem foldl_put_of_nodup {entries : Entries} (hkept : ∀ e ∈ entries, e.1.map echo = e.1)
    (hnodup : (entries.map Prod.fst).Nodup) {t : List (Bytes × Value)}
    (hnew : ∀ e ∈ entries, utf8 e.1 ∉ t.map Prod.fst) :
    entries.foldl (fun t e => janetTablePut t (utf8 (e.1.map echo)) e.2.2) t =
      t ++ entries.map fun e => (utf8 e.1, e.2.2) := by
  induction entries generalizing t with
  | nil => simp
  | cons e entries ih =>
    rw [List.map_cons, List.nodup_cons] at hnodup
    rw [List.foldl_cons, hkept e (by simp), janetTablePut_of_notMem (hnew e (by simp)),
      ih (fun e' he' => hkept e' (List.mem_cons_of_mem e he')) hnodup.2]
    · simp
    · intro e' he' hmem
      rw [List.map_append, List.mem_append] at hmem
      rcases hmem with hmem | hmem
      · exact hnew e' (List.mem_cons_of_mem e he') hmem
      · have hkey : e'.1 = e.1 := utf8_injective (by simpa using hmem)
        exact hnodup.1 (hkey ▸ List.mem_map_of_mem he')

/-- If every key comes back, the table that is read has the entries of the one that was written. -/
theorem target_of_kept {entries : Entries} (hkept : ∀ e ∈ entries, e.1.map echo = e.1)
    (hnodup : (entries.map Prod.fst).Nodup) :
    (entries.target.map fun e => (Value.string e.1, e.2)) =
      entries.map fun e => (.string (utf8 e.1), e.2.2) := by
  rw [Entries.target, foldl_put_of_nodup hkept hnodup (by simp), List.nil_append, List.map_map]
  rfl

theorem nodup_keys_of_source {entries : Entries} (h : (entries.source.map Prod.fst).Nodup) :
    (entries.map Prod.fst).Nodup := by
  have hmap : entries.source.map Prod.fst =
      (entries.map Prod.fst).map fun s => Value.string (utf8 s) := by
    simp [Entries.source]
  rw [hmap] at h
  exact h.of_map _

/-- A table comes back if every key does, and every value. -/
theorem deepEq_target_iff {entries : Entries} (hnodup : (entries.map Prod.fst).Nodup) :
    DeepEq (.table (entries.target.map fun e => (.string e.1, e.2))) (.table entries.source) ↔
      (∀ e ∈ entries, e.1.map echo = e.1) ∧ ∀ e ∈ entries, DeepEq e.2.2 e.2.1 := by
  have hkeys : ∀ k, Value.string k ∈
      (entries.target.map fun e => (Value.string e.1, e.2)).map Prod.fst ↔
        ∃ e ∈ entries, k = utf8 (e.1.map echo) := fun k => by
    rw [← mem_keys_target]
    simp
  rw [deepEq_table_iff]
  constructor
  · rintro ⟨hsame, hvalues⟩
    -- a key that was written is one that was read, and such a key comes back
    have hkept : ∀ e ∈ entries, e.1.map echo = e.1 := by
      intro e he
      have hmem : Value.string (utf8 e.1) ∈ entries.source.map Prod.fst := by
        rw [Entries.source, List.map_map]
        exact List.mem_map_of_mem (f := fun e => Value.string (utf8 e.1)) he
      obtain ⟨e', -, hkey⟩ := (hkeys _).mp ((hsame _).mpr hmem)
      rw [utf8_injective hkey, map_echo_echo]
    refine ⟨hkept, fun e he => ?_⟩
    rw [target_of_kept hkept hnodup] at hvalues
    exact hvalues _ (List.mem_map_of_mem he) _ (List.mem_map_of_mem he) rfl
  · rintro ⟨hkept, hvalues⟩
    rw [target_of_kept hkept hnodup, Entries.source]
    -- entries of the two tables with one key are one entry
    refine ⟨fun k => by simp, fun x hx y hy hkey => ?_⟩
    obtain ⟨e, he, rfl⟩ := List.mem_map.mp hx
    obtain ⟨e', he', rfl⟩ := List.mem_map.mp hy
    have hkey : e.1 = e'.1 := utf8_injective (Value.string.inj hkey)
    have hsame : e = e' := List.inj_on_of_nodup_map hnodup he he' hkey
    subst hsame
    exact hvalues e he

/-- **A value that went through JSON is the same if and only if its characters are.** -/
theorem deepEq_iff {n : ℕ} {v w : Value} (hv : IsPayload n v) (h : ComesBack v w) :
    DeepEq w v ↔ EveryChar Kept v := by
  induction h generalizing n with
  | boolean b => exact iff_of_true (.boolean b) (.boolean b)
  | number x =>
    cases hv with
    | number _ hx => exact iff_of_true (.number (numberEq_self hx)) (.number x)
  | string s => rw [deepEq_string_iff, utf8_injective.eq_iff, map_echo_eq_iff, everyChar_string_iff]
  | array items h ih =>
    cases hv with
    | array hn hitems =>
      rw [deepEq_array_iff, List.forall₂_map_left_iff, List.forall₂_map_right_iff,
        List.forall₂_same, everyChar_array_iff, List.forall_mem_map]
      exact forall₂_congr fun p hp => ih p hp (hitems _ (List.mem_map_of_mem hp))
  | table entries h ih =>
    cases hv with
    | table hn hkeys hnodup hvalues =>
      rw [deepEq_target_iff (nodup_keys_of_source hnodup), everyChar_source_iff]
      refine and_congr (forall₂_congr fun e _ => map_echo_eq_iff) ?_
      exact forall₂_congr fun e he => ih e he (hvalues _ (List.mem_map_of_mem he))

/-! ### Tokens -/

/-- `get-payload` returns what `make` was given. -/
def CarriesPayload (C : Libc) (L : OpenSsl) (stack : ℕ → UInt8) (secret : Bytes) (payload : Value) :
    Prop :=
  ∃ token w, make C L secret payload = .ok token ∧ getPayload C L stack token = .ok w ∧
    DeepEq w payload

/-- The segment of the payload decodes to its text and zeros, which are not read. -/
theorem getPayload_madeToken (C : Libc) (L : OpenSsl) (stack : ℕ → UInt8) (secret text : Bytes) :
    getPayload C L stack (madeToken L secret text) = jsonDecode C ⟨false, false⟩ text := by
  rw [← jsonDecode_append_zeros C _ text (padding text.length)]
  simp [getPayload, stringSplit_eq dot_ne_nil, pieces_madeToken, getString, base64Decode_digits,
    bind, Except.bind]

theorem exists_getPayload_make {C : Libc} (hC : C.Exact) (L : OpenSsl) (stack : ℕ → UInt8)
    {secret : Bytes} (hsecret : NulFree secret) {payload : Value}
    (hpayload : IsPayload recursionGuard payload) (hlen : jsonLength C payload ≤ payloadMax) :
    ∃ token w, make C L secret payload = .ok token ∧ getPayload C L stack token = .ok w ∧
      ComesBack payload w := by
  obtain ⟨text, w, hencode, hdecode, hback, hlength⟩ := jsonDecode_jsonEncode hC hpayload
  refine ⟨madeToken L secret text, w, make_eq L hsecret hencode (hlength ▸ hlen), ?_, hback⟩
  rw [getPayload_madeToken, hdecode]

/-- A payload whose text is longer becomes no token. -/
theorem make_ne_ok {C : Libc} (hC : C.Exact) (L : OpenSsl) {secret : Bytes}
    (hsecret : NulFree secret) {payload : Value} (hpayload : IsPayload recursionGuard payload)
    (hlong : payloadMax < jsonLength C payload) (token : Bytes) :
    make C L secret payload ≠ .ok token := by
  obtain ⟨text, w, hencode, -, -, hlength⟩ := jsonDecode_jsonEncode hC hpayload
  intro hmake
  have hlen := (make_returns_iff L hsecret hencode).mp ⟨token, hmake⟩
  exact absurd (hlength ▸ hlen) (Nat.not_le.mpr hlong)

theorem carriesPayload_iff_deepEq {C : Libc} {L : OpenSsl} {stack : ℕ → UInt8} {secret : Bytes}
    {payload : Value} {token : Bytes} {w : Value} (hmake : make C L secret payload = .ok token)
    (hget : getPayload C L stack token = .ok w) :
    CarriesPayload C L stack secret payload ↔ DeepEq w payload := by
  constructor
  · rintro ⟨token', w', hmake', hget', heq⟩
    rw [hmake, Except.ok.injEq] at hmake'
    subst hmake'
    rw [hget, Except.ok.injEq] at hget'
    subst hget'
    exact heq
  · exact fun heq => ⟨token, w, hmake, hget, heq⟩

/-- **Exactly which payloads a token carries**: those in which every character above U+FFFF, of a
string or a key, has the same six bits twice at its end, and whose text is not too long. -/
theorem carriesPayload_iff {C : Libc} (hC : C.Exact) (L : OpenSsl) (stack : ℕ → UInt8)
    {secret : Bytes} (hsecret : NulFree secret) {payload : Value}
    (hpayload : IsPayload recursionGuard payload) :
    CarriesPayload C L stack secret payload ↔
      EveryChar Kept payload ∧ jsonLength C payload ≤ payloadMax := by
  by_cases hlen : jsonLength C payload ≤ payloadMax
  · obtain ⟨token, w, hmake, hget, hback⟩ :=
      exists_getPayload_make hC L stack hsecret hpayload hlen
    rw [carriesPayload_iff_deepEq hmake hget, deepEq_iff hpayload hback, and_iff_left hlen]
  · refine iff_of_false ?_ fun h => hlen h.2
    rintro ⟨token, w, hmake, -⟩
    exact make_ne_ok hC L hsecret hpayload (Nat.not_le.mp hlen) token hmake

/-- The MACs of two tokens with the secret `secure`. -/
def payloadOpenSsl : OpenSsl := .recorded
  [((ascii "secure", ascii ("eyJhbGciOiJIUzI1NiIsInR5cCI6IkpXVCJ9" ++
      ".eyJcdTAwRTlcdTIwQUNcdTAwMDAiOlt0cnVlLDAsIlx1RDgwMFx1REMwMCJdfQ")),
    [48, 124, 22, 239, 38, 66, 223, 1, 95, 253, 105, 248, 150, 65, 47, 128, 173, 151, 159, 73, 214,
      155, 230, 200, 38, 195, 28, 14, 19, 12, 40, 25]),
   ((ascii "secure", ascii ("eyJhbGciOiJIUzI1NiIsInR5cCI6IkpXVCJ9" ++
      ".eyJzbWlsZSI6Ilx1RDgzQ1x1REMwMCJ9")),
    [121, 237, 207, 46, 33, 9, 254, 223, 96, 163, 37, 132, 93, 194, 130, 237, 251, 90, 130, 140,
      148, 202, 115, 32, 135, 60, 206, 131, 189, 162, 104, 144])] (by decide)

/-- A table with one key: U+00E9, U+20AC and NUL. Below it are `true`, zero, and U+10000. -/
def mixedPayload : Value :=
  .table [(.string (utf8 [Char.ofNat 0xE9, Char.ofNat 0x20AC, Char.ofNat 0]),
    .array [.boolean true, .number 0, .string (utf8 [Char.ofNat 0x10000])])]

theorem isPayload_mixed : IsPayload recursionGuard mixedPayload := by
  refine .table (fun _ => by decide) ?_ (List.nodup_singleton _) ?_
  · exact List.forall_mem_singleton.mpr ⟨_, rfl⟩
  · refine List.forall_mem_singleton.mpr (.array (fun _ => by decide) ?_)
    simp only [List.forall_mem_cons]
    exact ⟨.boolean _ _, .number _ (by decide), .string _ _, by simp⟩

/-- Every character of this payload comes back: the one above U+FFFF ends with zeros. -/
theorem carriesPayload_mixed :
    CarriesPayload Libc.bits payloadOpenSsl (fun _ => 0) (ascii "secure") mixedPayload := by
  have hkey : ∀ c ∈ [Char.ofNat 0xE9, Char.ofNat 0x20AC, Char.ofNat 0], Kept c := by
    simp only [List.forall_mem_cons]
    exact ⟨by decide, by decide, by decide, by simp⟩
  have hlast : ∀ c ∈ [Char.ofNat 0x10000], Kept c := List.forall_mem_singleton.mpr (by decide)
  refine (carriesPayload_iff Libc.exact_bits payloadOpenSsl (fun _ => 0) nulFree_secure
    isPayload_mixed).mpr ⟨.table ?_ ?_, by decide⟩
  · exact List.forall_mem_singleton.mpr ⟨_, rfl, hkey⟩
  · refine List.forall_mem_singleton.mpr (.array ?_)
    simp only [List.forall_mem_cons]
    exact ⟨.boolean _, .number _, .string _ rfl hlast, by simp⟩

/-- A table with one string, under `smile`: U+1F600. -/
def smilePayload : Value :=
  .table [(.string (ascii "smile"), .string (utf8 [Char.ofNat 0x1F600]))]

theorem isPayload_smile : IsPayload recursionGuard smilePayload := by
  refine .table (fun _ => by decide) ?_ (List.nodup_singleton _) ?_
  · exact List.forall_mem_singleton.mpr ⟨"smile".toList, rfl⟩
  · exact List.forall_mem_singleton.mpr (.string _ _)

theorem not_everyChar_smile : ¬ EveryChar Kept smilePayload := by
  intro h
  cases h with
  | table hkeys h =>
    have hchar := everyChar_string_iff.mp (h _ (List.mem_singleton_self _)) _
      (List.mem_singleton_self _)
    exact absurd hchar (by decide)

/-- U+1F600 comes back as U+1F000. -/
theorem not_carriesPayload_smile :
    ¬ ∀ (C : Libc) (L : OpenSsl) (stack : ℕ → UInt8) (secret : Bytes) (payload : Value), C.Exact →
      NulFree secret → IsPayload recursionGuard payload →
        CarriesPayload C L stack secret payload := by
  intro h
  obtain ⟨token, w, hmake, hget, hback⟩ := exists_getPayload_make Libc.exact_bits payloadOpenSsl
    (fun _ => 0) nulFree_secure isPayload_smile (by decide)
  have hsmile := h Libc.bits payloadOpenSsl (fun _ => 0) (ascii "secure") smilePayload
    Libc.exact_bits nulFree_secure isPayload_smile
  rw [carriesPayload_iff_deepEq hmake hget, deepEq_iff isPayload_smile hback] at hsmile
  exact not_everyChar_smile hsmile

end AhungryJanet
