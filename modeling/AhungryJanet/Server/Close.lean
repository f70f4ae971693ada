import AhungryJanet.Server.Split

/-!
# A peer that closes

Behind the end of a delivery `recv` answers nothing any more. `read_tcp` does not look at that
answer: each of its loops ends when the text in `buf` says so, and a peer that closes too early
leaves it polling for ever.

## Main results

* `returns_iff` — which deliveries `read_tcp` returns from
* `OneLength.not_returns_of_cut` — none that ends inside a request
-/

namespace AhungryJanet

open Polling Search

/-- `read_tcp` returns, rather than poll for ever or do what C leaves undefined. -/
def Returns (m : Memory) (d : Delivery) : Prop := ∃ r, readTcp m d = .returned r

/-- All of a request arrives before the peer closes: its head, and as many bytes behind it as the
head has announced. -/
def Complete (m : Memory) (d : Delivery) : Prop :=
  ∃ d₁ d₂ d₃, d = d₁ ++ (d₂ ++ d₃) ∧ Reads m d₁ d₂ d₃

/-- **`read_tcp` returns exactly when all of a request arrives.** -/
theorem returns_iff {m : Memory} {d : Delivery} : Returns m d ↔ Complete m d := by
  simp only [Returns, readTcp_eq_returned_iff]
  constructor
  · rintro ⟨_, d₁, d₂, d₃, hd, hreads, -⟩
    exact ⟨d₁, d₂, d₃, hd, hreads⟩
  · rintro ⟨d₁, d₂, d₃, hd, hreads⟩
    exact ⟨_, d₁, d₂, d₃, hd, hreads, rfl⟩

/-- The peer closes behind the first line of the head. -/
theorem not_returns_closed : ¬ Returns .zeroed [some (ascii "GET / HTTP/1.1\r\n")] := by
  rintro ⟨r, hr⟩
  have hwaits : readTcp .zeroed [some (ascii "GET / HTTP/1.1\r\n")] = .waits := by decide +kernel
  rw [hwaits] at hr
  cases hr

/-- **However a request is cut short, `read_tcp` does not return.** -/
theorem OneLength.not_returns_of_cut {r a digits head body t : Bytes}
    (h : OneLength r a digits head body) (hr : r.length < intBound) {d : Delivery}
    (hd : Delivers d t) (ht : t <+: r) (hcut : t.length < r.length) : ¬ Returns .zeroed d := by
  rw [returns_iff]
  rintro ⟨d₁, d₂, d₃, rfl, hreads⟩
  have hfront : ∀ {d' d''}, d₁ ++ (d₂ ++ d₃) = d' ++ d'' → d'.reduceOption.flatten <+: t := by
    intro d' d'' h'
    rw [← hd.bytes, h', List.reduceOption_append, List.flatten_append]
    exact List.prefix_append _ _
  have hd₁ := hfront rfl
  have hd₂ := hfront (List.append_assoc d₁ d₂ d₃).symm
  have hlen := h.length_eq
  have hhead := (h.hasHead_iff (hd₁.trans ht)).mp hreads.head.head
  have hline := h.le_length_head
  have hnumber := h.announced_eq hr (hd₁.trans ht) (by omega)
  rcases Nat.eq_zero_or_pos body.length with hzero | hpos
  · have hle := hd₁.length_le
    omega
  · have hbody := (hreads.body (by rw [hnumber]; omega)).enough
    have hle := hd₂.length_le
    rw [hnumber, h.headerLength_eq (hd₁.trans ht) hhead, ← List.reduceOption_append,
      text_zeroed fun x hx => h.nulFree x ((hd₂.trans ht).subset hx)] at hbody
    omega

end AhungryJanet
