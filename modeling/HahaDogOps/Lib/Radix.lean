import Mathlib

/-!
# Digits of a fixed number

Numbers as a given number of digits to some base, the highest digit first, as they stand in buffers and in texts.
`value` and `digits` undo each other; a number is cut into digits of another base through its value.
-/

namespace Radix

/-- The number that the digits make. -/
def value (b : Nat) (l : List Nat) : Nat := l.foldl (fun n d => n * b + d) 0

/-- The last `k` digits of `n`. -/
def digits (b : Nat) : Nat → Nat → List Nat
  | 0, _ => []
  | k + 1, n => digits b k (n / b) ++ [n % b]

section
variable {b k n : Nat} {l : List Nat}

@[simp] theorem value_nil : value b [] = 0 := rfl

@[simp] theorem value_concat (l : List Nat) (d : Nat) : value b (l ++ [d]) = value b l * b + d := by
  simp [value]

@[simp] theorem length_digits : (digits b k n).length = k := by
  induction k generalizing n with
  | zero => rfl
  | succ k ih => simp [digits, ih]

theorem digits_lt (hb : 0 < b) : ∀ d ∈ digits b k n, d < b := by
  induction k generalizing n with
  | zero => simp [digits]
  | succ k ih =>
    intro d hd
    rw [digits, List.mem_append, List.mem_singleton] at hd
    rcases hd with hd | rfl
    · exact ih d hd
    · exact Nat.mod_lt _ hb

theorem value_digits (b k n : Nat) : value b (digits b k n) = n % b ^ k := by
  induction k generalizing n with
  | zero => simp [digits, Nat.mod_one]
  | succ k ih =>
    rw [digits, value_concat, ih, pow_succ', Nat.mod_mul]
    ring

theorem value_lt (h : ∀ d ∈ l, d < b) : value b l < b ^ l.length := by
  induction l using List.reverseRecOn with
  | nil => simp
  | append_singleton l d ih =>
    have hl := ih fun d' hd' => h d' (by simp [hd'])
    have hd := h d (by simp)
    rw [value_concat, List.length_append, List.length_singleton, pow_succ]
    calc value b l * b + d < value b l * b + b := by omega
      _ = (value b l + 1) * b := by ring
      _ ≤ b ^ l.length * b := Nat.mul_le_mul_right b hl

theorem digits_value (h : ∀ d ∈ l, d < b) : digits b l.length (value b l) = l := by
  induction l using List.reverseRecOn with
  | nil => rfl
  | append_singleton l d ih =>
    have hl := ih fun d' hd' => h d' (by simp [hd'])
    have hd := h d (by simp)
    have hdiv : (value b l * b + d) / b = value b l := by
      rw [Nat.add_comm, Nat.add_mul_div_right _ _ (by omega), Nat.div_eq_of_lt hd, Nat.zero_add]
    have hmod : (value b l * b + d) % b = d := by
      rw [Nat.add_comm, Nat.add_mul_mod_self_right, Nat.mod_eq_of_lt hd]
    rw [List.length_append, List.length_singleton, digits, value_concat, hdiv, hmod, hl]

/-- **Changing the base**: digits to the base `b` that are cut anew to the base `b'`, and back. -/
theorem digits_value_digits {b' k' : Nat} (h : ∀ d ∈ l, d < b) (hpow : b ^ l.length ≤ b' ^ k') :
    digits b l.length (value b' (digits b' k' (value b l))) = l := by
  rw [value_digits, Nat.mod_eq_of_lt ((value_lt h).trans_le hpow), digits_value h]

end

end Radix
