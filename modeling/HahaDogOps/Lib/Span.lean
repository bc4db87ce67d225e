import Mathlib

/-!
# Pieces of files

A disk as cells under a file and a position. Reading and writing a piece, and what a write leaves alone.
-/

namespace Span

variable {ι β : Type*} [DecidableEq ι]

/-- The `n` cells of `f` from `off` on. -/
def read (d : ι → Nat → β) (f : ι) (off n : Nat) : List β := (List.range n).map fun i => d f (off + i)

/-- The disk after `bs` is written to `f` from `off` on. -/
def write (d : ι → Nat → β) (f : ι) (off : Nat) (bs : List β) : ι → Nat → β := fun g i =>
  if g = f ∧ off ≤ i then bs[i - off]?.getD (d g i) else d g i

section
variable {d d' : ι → Nat → β} {f g : ι} {off off' n m : Nat} {bs : List β}

omit [DecidableEq ι] in
@[simp] theorem length_read : (read d f off n).length = n := by simp [read]

omit [DecidableEq ι] in
theorem getElem?_read {i : Nat} (hi : i < n) : (read d f off n)[i]? = some (d f (off + i)) := by
  simp [read, hi]

omit [DecidableEq ι] in
theorem read_congr (h : ∀ i < n, d f (off + i) = d' f (off + i)) : read d f off n = read d' f off n := by
  refine List.map_congr_left fun i hi => h i (List.mem_range.1 hi)

omit [DecidableEq ι] in
theorem read_add : read d f off (n + m) = read d f off n ++ read d f (off + n) m := by
  simp [read, List.range_add, Nat.add_assoc]

omit [DecidableEq ι] in
/-- A piece of a piece. -/
theorem read_within {k : Nat} (h : k + m ≤ n) : read d f (off + k) m = ((read d f off n).drop k).take m := by
  obtain ⟨r, rfl⟩ : ∃ r, n = k + m + r := ⟨n - (k + m), by omega⟩
  have hk : (read d f off k).length = k := length_read
  have hm : (read d f (off + k) m).length = m := length_read
  rw [read_add, read_add, List.append_assoc, List.drop_left' hk, List.take_left' hm]

omit [DecidableEq ι] in
theorem read_front (h : m ≤ n) : read d f off m = (read d f off n).take m := by
  obtain ⟨r, rfl⟩ : ∃ r, n = m + r := ⟨n - m, by omega⟩
  rw [read_add, List.take_left' length_read]

theorem write_apart {i : Nat} (h : g ≠ f ∨ i < off ∨ off + bs.length ≤ i) : write d f off bs g i = d g i := by
  unfold write
  split
  · next hin =>
    have hi := h.resolve_left fun hne => hne hin.1
    rw [List.getElem?_eq_none (by omega), Option.getD_none]
  · rfl

/-- A piece apart from the written one is as before. -/
theorem read_write_apart (h : g ≠ f ∨ off' + n ≤ off ∨ off + bs.length ≤ off') :
    read (write d f off bs) g off' n = read d g off' n := by
  refine read_congr fun i hi => write_apart (h.imp_right fun h => ?_)
  omega

theorem read_write (d : ι → Nat → β) (f : ι) (off : Nat) (bs : List β) :
    read (write d f off bs) f off bs.length = bs := by
  apply List.ext_getElem?
  intro i
  by_cases hi : i < bs.length
  · rw [getElem?_read hi, write, if_pos ⟨rfl, by omega⟩, Nat.add_sub_cancel_left, List.getElem?_eq_getElem hi]
    rfl
  · rw [List.getElem?_eq_none (by simpa using hi), List.getElem?_eq_none (by omega)]

end

end Span
