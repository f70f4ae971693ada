import AhungryJanet.Janet.Value
import Mathlib.Data.List.Forall2
import Mathlib.Data.List.ReduceOption

/-!
# Datagrams

`udp.c`: `send-string` hands the kernel one datagram, and `listen` returns what one `recvfrom` puts
into a buffer that belongs to the whole process, with the length it leaves there.

## Two ways to measure

The sender takes `strlen` of a Janet string, the receiver the count of the kernel. So a string
arrives up to its first NUL, and what earlier datagrams left in the buffer is cut off.

## What a failure leaves

A failed `recvfrom` is reported on the standard error and changes nothing, and `j_listen` goes on to
make a string of the buffer: the last datagram once more, or an empty string if there was none.

## Main results

* `arrives_iff` — which strings arrive as they were sent
* `deliversOwn_iff` — in which runs every call of `listen` returns its own datagram
-/

namespace AhungryJanet

/-- The payload of a datagram: 65535 bytes less the headers of IP and UDP. -/
structure Datagram where
  bytes : Bytes
  length_le : bytes.length ≤ 65507

/-- `MAXBUF`. -/
def maxbuf : ℕ := 1024 * 1024

/-- `struct world`: the bytes received last, in front of older ones, and how many they are. -/
structure World where
  udpListenReceived : Bytes
  udpListenReceivedLen : ℕ
  length_received : udpListenReceived.length = maxbuf
  len_le : udpListenReceivedLen ≤ maxbuf

/-- The static `world`, all zero. -/
def World.zero : World where
  udpListenReceived := List.replicate maxbuf 0
  udpListenReceivedLen := 0
  length_received := List.length_replicate
  len_le := Nat.zero_le _

/-- `strlen` of a Janet string, which has a NUL behind it. -/
def strlen (s : Bytes) : ℕ := (cstr s).length

/-- `send_udp`, up to the datagram it gives to `sendto`, which fails if it is too long; then the
process exits. -/
def sendUdp (s : Bytes) : Option Datagram :=
  let slen := strlen s
  if h : (s.take slen).length ≤ 65507 then some ⟨s.take slen, h⟩ else none

theorem length_received_append (w : World) (d : Datagram) :
    (d.bytes ++ w.udpListenReceived.drop d.bytes.length).length = maxbuf := by
  have hd := d.length_le
  have hlen := w.length_received
  rw [maxbuf] at hlen
  rw [List.length_append, List.length_drop, maxbuf]
  omega

/-- `receive_udp`, with what `recvfrom` brings: a datagram, or -1. -/
def receiveUdp (w : World) : Option Datagram → World
  | none => w
  | some d =>
    let n := d.bytes.length
    { udpListenReceived := (d.bytes ++ w.udpListenReceived.drop n).set (n + 1) 0
      udpListenReceivedLen := n
      length_received := by rw [List.length_set]; exact length_received_append w d
      len_le := d.length_le.trans (by decide) }

/-- `j_listen`. -/
def jListen (w : World) (received : Option Datagram) : World × Value :=
  let w := receiveUdp w received
  (w, .string (w.udpListenReceived.take w.udpListenReceivedLen))

/-- Calls of `listen` one after another. -/
def jListens (w : World) : List (Option Datagram) → World × List Value
  | [] => (w, [])
  | received :: more =>
    let call := jListen w received
    let rest := jListens call.1 more
    (rest.1, call.2 :: rest.2)

/-- `listen-on-udp` as far as the datagrams go, and what `f` is applied to. A panic in `f` ends the
loop. -/
def listenOnUdp {σ ε : Type} (f : Value → σ → Except ε σ) (w : World) (s : σ) :
    List (Option Datagram) → List Value
  | [] => []
  | received :: more =>
    let call := jListen w received
    call.2 :: match f call.2 s with
      | .ok s => listenOnUdp f call.1 s more
      | .error _ => []

/-! ### One call -/

theorem take_strlen (s : Bytes) : s.take (strlen s) = cstr s :=
  (List.prefix_iff_eq_take.mp (List.takeWhile_prefix _)).symm

/-- A received datagram is returned, whatever was received before. -/
theorem jListen_some (w : World) (d : Datagram) : (jListen w (some d)).2 = .string d.bytes := by
  refine congrArg Value.string ?_
  change ((d.bytes ++ w.udpListenReceived.drop d.bytes.length).set (d.bytes.length + 1) 0).take
    d.bytes.length = d.bytes
  rw [List.take_set_of_le (Nat.le_succ _), List.take_left]

/-- A failed receive returns the last datagram again. -/
theorem jListen_none_again (w : World) (d : Datagram) :
    (jListen (jListen w (some d)).1 none).2 = .string d.bytes := jListen_some w d

/-- Whatever was received before, the datagram that `send-string` sends for `s` makes `listen`
return `s`. -/
def Arrives (s : Bytes) : Prop :=
  ∃ d, sendUdp s = some d ∧
    ∀ earlier, (jListen (jListens .zero earlier).1 (some d)).2 = .string s

/-- **A string arrives as it was sent exactly when it contains no NUL.** -/
theorem arrives_iff {s : Bytes} (hs : s.length ≤ 65507) : Arrives s ↔ NulFree s := by
  have hsend : ∃ d, sendUdp s = some d ∧ d.bytes = cstr s := by
    have hle : (s.take (strlen s)).length ≤ 65507 := (List.length_take_le' _ _).trans hs
    exact ⟨⟨_, hle⟩, dif_pos hle, take_strlen s⟩
  obtain ⟨d, hd, hbytes⟩ := hsend
  rw [← cstr_eq_self_iff]
  constructor
  · rintro ⟨d', hd', harrives⟩
    obtain rfl : d = d' := Option.some.inj (hd.symm.trans hd')
    have heq := harrives []
    rw [jListen_some, hbytes] at heq
    exact Value.string.inj heq
  · intro h
    refine ⟨d, hd, fun earlier => ?_⟩
    rw [jListen_some, hbytes, h]

theorem arrives_hello : Arrives (ascii "hello") :=
  (arrives_iff (by decide)).mpr (by decide)

/-- Three bytes with a NUL in the middle arrive as one. -/
theorem not_arrives_nul : ¬ ∀ s : Bytes, s.length ≤ 65507 → Arrives s := by
  intro h
  obtain ⟨d, hd, harrives⟩ := h [97, 0, 98] (by decide)
  have hsent : sendUdp [97, 0, 98] = some ⟨[97], by decide⟩ := by rfl
  rw [hsent] at hd
  cases hd
  have heq := harrives []
  rw [jListen_some] at heq
  exact absurd (Value.string.inj heq) (by decide)

/-! ### Runs -/

/-- A call that receives a datagram returns it, and one whose receive fails returns no string. -/
def OwnResult : Option Datagram → Value → Prop
  | some d, v => v = .string d.bytes
  | none, v => ∀ s, v ≠ .string s

/-- The datagrams of a run, as Janet strings. -/
def delivered (receives : List (Option Datagram)) : List Value :=
  receives.reduceOption.map fun d => .string d.bytes

/-- Every call returns its own datagram or no string, and `listen-on-udp` hands its function the
datagrams in order, each once, as far as it comes. -/
structure DeliversOwn (w : World) (receives : List (Option Datagram)) : Prop where
  results : List.Forall₂ OwnResult receives (jListens w receives).2
  applied : ∀ {σ ε : Type} (f : Value → σ → Except ε σ) (s : σ),
    listenOnUdp f w s receives <+: delivered receives

/-- `f` is applied to what the calls return. -/
theorem listenOnUdp_isPrefix {σ ε : Type} (f : Value → σ → Except ε σ) (w : World) (s : σ)
    (receives : List (Option Datagram)) :
    listenOnUdp f w s receives <+: (jListens w receives).2 := by
  induction receives generalizing w s with
  | nil => exact List.prefix_refl _
  | cons received more ih =>
    refine (List.prefix_cons_inj _).mpr ?_
    split
    case h_1 s' hs => exact ih _ s'
    case h_2 => exact List.nil_prefix

/-- In a run without a failure the results are the datagrams. -/
theorem jListens_of_received {receives : List (Option Datagram)} (h : none ∉ receives) (w : World) :
    (jListens w receives).2 = delivered receives := by
  induction receives generalizing w with
  | nil => rfl
  | cons received more ih =>
    rw [List.mem_cons, not_or] at h
    obtain ⟨d, rfl⟩ := Option.ne_none_iff_exists'.mp (Ne.symm h.1)
    rw [delivered, List.reduceOption_cons_of_some, List.map_cons, ← jListen_some w d]
    exact congrArg (_ :: ·) (ih h.2 _)

/-- A failed receive does not deliver nothing: it delivers a string that is not its own. -/
theorem received_of_ownResults {receives : List (Option Datagram)} {w : World}
    (h : List.Forall₂ OwnResult receives (jListens w receives).2) : none ∉ receives := by
  induction receives generalizing w with
  | nil => exact List.not_mem_nil
  | cons received more ih =>
    rw [jListens, List.forall₂_cons] at h
    rw [List.mem_cons, not_or]
    refine ⟨fun hnone => ?_, ih h.2⟩
    have hown := h.1
    rw [← hnone] at hown
    exact hown _ rfl

theorem ownResults_of_received {receives : List (Option Datagram)} (h : none ∉ receives) :
    List.Forall₂ OwnResult receives (delivered receives) := by
  induction receives with
  | nil => exact .nil
  | cons received more ih =>
    rw [List.mem_cons, not_or] at h
    obtain ⟨d, rfl⟩ := Option.ne_none_iff_exists'.mp (Ne.symm h.1)
    exact .cons rfl (ih h.2)

/-- **Every call delivers its own datagram exactly when no receive fails.** -/
theorem deliversOwn_iff (w : World) (receives : List (Option Datagram)) :
    DeliversOwn w receives ↔ none ∉ receives := by
  constructor
  · intro h
    exact received_of_ownResults h.results
  · intro h
    have hresults := jListens_of_received h w
    refine ⟨?_, fun f s => ?_⟩
    · rw [hresults]
      exact ownResults_of_received h
    · rw [← hresults]
      exact listenOnUdp_isPrefix f w s receives

/-- A failure behind a datagram delivers it again. -/
theorem not_deliversOwn_failure :
    ¬ ∀ receives : List (Option Datagram), DeliversOwn .zero receives := by
  intro h
  let ping : Datagram := ⟨ascii "ping", by decide⟩
  have hprefix := (h [some ping, none]).applied (fun _ s => (.ok s : Except Unit Unit)) ()
  have happlied : listenOnUdp (fun _ s => (.ok s : Except Unit Unit)) .zero ()
      [some ping, none] = [.string ping.bytes, .string ping.bytes] := by
    have hfirst := jListen_some .zero ping
    have hagain := jListen_none_again .zero ping
    simp only [listenOnUdp, hfirst, hagain]
  rw [happlied] at hprefix
  exact absurd hprefix.length_le (by decide)

end AhungryJanet
