import Mathlib.Data.List.Basic

/-!
# Writing behind the end

A list in which everything behind the end counts as a default value: `List.rightpad` shows as much
of it as is asked for. A write behind the end first fills up to its position, and does to the padded
list what any write does.
-/

namespace Rightpad

variable {α : Type} {a : α} {l : List α}

/-- A list is long enough already. -/
theorem rightpad_of_le {n : ℕ} (h : n ≤ l.length) : l.rightpad n a = l := by
  rw [List.rightpad, Nat.sub_eq_zero_of_le h, List.replicate_zero, List.append_nil]

theorem rightpad_succ {n : ℕ} (h : l.length ≤ n) :
    l.rightpad (n + 1) a = l.rightpad n a ++ [a] := by
  rw [List.rightpad, List.rightpad, Nat.succ_sub h, List.replicate_succ', List.append_assoc]

/-- What is padded twice is padded to the larger length. -/
theorem rightpad_rightpad {m n : ℕ} (h : m ≤ n) :
    (l.rightpad m a).rightpad n a = l.rightpad n a := by
  have hcount : m - l.length + (n - max m l.length) = n - l.length := by omega
  rw [List.rightpad, List.length_rightpad, List.rightpad, List.append_assoc,
    List.replicate_append_replicate, hcount, List.rightpad]

/-- A write changes the padded list at its position, whether the list was filled up before or
after. -/
theorem rightpad_set {i n : ℕ} (h : i < n) (x : α) :
    ((l.rightpad (i + 1) a).set i x).rightpad n a = (l.rightpad n a).set i x := by
  have hlt : i < (l.rightpad (i + 1) a).length := by
    rw [List.length_rightpad]
    omega
  have hpad : (l.rightpad (i + 1) a).rightpad n a = l.rightpad n a :=
    rightpad_rightpad (Nat.succ_le_of_lt h)
  rw [← hpad]
  generalize l.rightpad (i + 1) a = p at hlt ⊢
  rw [List.rightpad, List.length_set, List.rightpad, List.set_append_left i x hlt]

/-- Writing right behind a padded list. -/
theorem rightpad_set_succ {n : ℕ} (h : l.length ≤ n) (x : α) :
    (l.rightpad (n + 1) a).set n x = l.rightpad n a ++ [x] := by
  have hlen : (l.rightpad n a).length = n := by rw [List.length_rightpad, Nat.max_eq_left h]
  rw [rightpad_succ h, List.set_append_right n x (Nat.le_of_eq hlen), hlen, Nat.sub_self]
  rfl

end Rightpad
