import HahaDogOps.Lib.Ordered

/-!
# Bisection

A search that halves a range of a list, with a three-way `probe`: `.lt` says that what is wanted lies behind the
entry, `.gt` that it lies before it. Besides the answer the loop leaves the index it looked at last, from which a
caller derives where a new entry goes.
-/

namespace Bisect

variable {α : Type*}

/-- Look between `lo` and `hi` (not included). The answer: whether there was a hit, and the last index probed. -/
def bisect (probe : α → Ordering) (l : List α) : Nat → Nat → Nat → Nat → Bool × Nat
  | 0, _, _, mid => (false, mid)
  | fuel + 1, lo, hi, mid =>
    if lo < hi then
      match l[(lo + hi - 1) / 2]? with
      | none => (false, mid)
      | some a =>
        match probe a with
        | .gt => bisect probe l fuel lo ((lo + hi - 1) / 2) ((lo + hi - 1) / 2)
        | .eq => (true, (lo + hi - 1) / 2)
        | .lt => bisect probe l fuel ((lo + hi - 1) / 2 + 1) hi ((lo + hi - 1) / 2)
    else (false, mid)

/-- The probe turns from `.lt` to `.gt` at most once along the list, with its hits in between. -/
def Rising (probe : α → Ordering) (l : List α) : Prop :=
  l.Pairwise fun a b => (probe a = .gt → probe b = .gt) ∧ (probe b = .lt → probe a = .lt)

/-- Everything before `lo` is too small, everything from `hi` on is too large. -/
structure Between (probe : α → Ordering) (l : List α) (lo hi : Nat) : Prop where
  below : ∀ a ∈ l.take lo, probe a = .lt
  above : ∀ a ∈ l.drop hi, probe a = .gt
  le : lo ≤ hi
  len : hi ≤ l.length

/-- The last entry probed is at the border that it moved. -/
def Last (probe : α → Ordering) (l : List α) (lo hi mid : Nat) : Prop :=
  ∃ a, l[mid]? = some a ∧ (probe a = .gt ∧ hi = mid ∨ probe a = .lt ∧ lo = mid + 1)

variable {probe : α → Ordering} {l : List α} {lo hi mid fuel : Nat} {a x : α}

theorem eq_take_append_drop (h : l[mid]? = some a) : l = l.take mid ++ a :: l.drop (mid + 1) := by
  obtain ⟨hlt, rfl⟩ := List.getElem?_eq_some_iff.1 h
  rw [List.cons_getElem_drop_succ, List.take_append_drop]

/-- One probe splits a rising list. -/
theorem Rising.split (hr : Rising probe l) (h : l[mid]? = some a) :
    (probe a = .lt → ∀ b ∈ l.take (mid + 1), probe b = .lt) ∧ (probe a = .gt → ∀ b ∈ l.drop mid, probe b = .gt) := by
  obtain ⟨hlt, rfl⟩ := List.getElem?_eq_some_iff.1 h
  rw [Rising, eq_take_append_drop h, List.pairwise_append, List.pairwise_cons] at hr
  obtain ⟨-, ⟨hafter, -⟩, hbefore⟩ := hr
  constructor
  · intro ha b hb
    rw [List.take_succ_eq_append_getElem hlt, List.mem_append, List.mem_singleton] at hb
    rcases hb with hb | rfl
    · exact (hbefore b hb _ List.mem_cons_self).2 ha
    · exact ha
  · intro ha b hb
    rw [List.drop_eq_getElem_cons hlt, List.mem_cons] at hb
    rcases hb with rfl | hb
    · exact ha
    · exact (hafter b hb).1 ha

theorem bisect_step {m : Nat} (hm : m = (lo + hi - 1) / 2) (hlt : lo < hi) (hget : l[m]? = some a) :
    bisect probe l (fuel + 1) lo hi mid =
      match probe a with
      | .gt => bisect probe l fuel lo m m
      | .eq => (true, m)
      | .lt => bisect probe l fuel (m + 1) hi m := by
  subst hm
  simp only [bisect, hlt, if_true, hget]

/-- **Bisection is right**: a hit is an entry the probe accepts; after a miss the list is cut where the probe
turns, at the last index probed or just behind it. -/
theorem bisect_spec (hr : Rising probe l) (hb : Between probe l lo hi) (hfuel : hi ≤ lo + fuel)
    (hlast : lo < hi ∨ Last probe l lo hi mid) :
    ((bisect probe l fuel lo hi mid).1 = true →
      ∃ a, l[(bisect probe l fuel lo hi mid).2]? = some a ∧ probe a = .eq) ∧
    ((bisect probe l fuel lo hi mid).1 = false →
      ∃ pos, Between probe l pos pos ∧ Last probe l pos pos (bisect probe l fuel lo hi mid).2) := by
  induction fuel generalizing lo hi mid with
  | zero =>
    have := hb.le
    obtain rfl : lo = hi := by omega
    exact ⟨nofun, fun _ => ⟨lo, hb, hlast.resolve_left (by omega)⟩⟩
  | succ fuel ih =>
    by_cases hlt : lo < hi
    · obtain ⟨m, hm⟩ : ∃ m, m = (lo + hi - 1) / 2 := ⟨_, rfl⟩
      have hlen : m < l.length := by have := hb.len; omega
      have hget : l[m]? = some l[m] := List.getElem?_eq_getElem hlen
      obtain ⟨hbelow, habove⟩ := hr.split hget
      rw [bisect_step hm hlt hget]
      cases hp : probe l[m] with
      | lt =>
        have hb' : Between probe l (m + 1) hi := ⟨hbelow hp, hb.above, by omega, hb.len⟩
        exact ih hb' (by omega) (.inr ⟨_, hget, .inr ⟨hp, rfl⟩⟩)
      | eq => exact ⟨fun _ => ⟨_, hget, hp⟩, nofun⟩
      | gt =>
        have hb' : Between probe l lo m := ⟨hb.below, habove hp, by omega, by omega⟩
        exact ih hb' (by omega) (.inr ⟨_, hget, .inl ⟨hp, rfl⟩⟩)
    · have := hb.le
      obtain rfl : lo = hi := by omega
      simp only [bisect, lt_irrefl, if_false]
      exact ⟨nofun, fun _ => ⟨lo, hb, hlast.resolve_left hlt⟩⟩

/-- The search over the whole list. -/
theorem bisect_all (hr : Rising probe l) (hne : 0 < l.length) :
    ((bisect probe l l.length 0 l.length 0).1 = true →
      ∃ a, l[(bisect probe l l.length 0 l.length 0).2]? = some a ∧ probe a = .eq) ∧
    ((bisect probe l l.length 0 l.length 0).1 = false →
      ∃ pos, Between probe l pos pos ∧ Last probe l pos pos (bisect probe l l.length 0 l.length 0).2) :=
  bisect_spec hr ⟨by simp, by simp, Nat.zero_le _, le_rfl⟩ (by omega) (.inl hne)

/-! ## In a sorted list -/

section
variable {cmp : α → α → Ordering} [Std.TransCmp cmp]

theorem rising_of_sorted (hs : Ordered.Sorted cmp l) (x : α) : Rising (cmp · x) l := by
  refine List.Pairwise.imp ?_ hs
  intro a b hab
  constructor
  · intro ha
    exact Std.TransCmp.gt_trans (Std.OrientedCmp.gt_of_lt hab) ha
  · intro hb
    exact Std.TransCmp.lt_trans hab hb

/-- A hit is where the entry with the key is, and taking it out erases the key. -/
theorem bisect_hit (hs : Ordered.Sorted cmp l) (h : (bisect (cmp · x) l l.length 0 l.length 0).1 = true) :
    (∃ a, Ordered.find? cmp x l = some a) ∧
      l.eraseIdx (bisect (cmp · x) l l.length 0 l.length 0).2 = Ordered.erase cmp x l := by
  have hne : 0 < l.length := by
    by_contra hn
    obtain rfl : l = [] := List.length_eq_zero_iff.1 (by omega)
    simp [bisect] at h
  obtain ⟨a, hget, ha⟩ := (bisect_all (rising_of_sorted hs x) hne).1 h
  generalize (bisect (cmp · x) l l.length 0 l.length 0).2 = m at hget
  have hsplit := eq_take_append_drop hget
  have hs' := hs
  rw [hsplit] at hs'
  obtain ⟨-, -, hbefore, -⟩ := Ordered.sorted_node.1 hs'
  have hlt : ∀ b ∈ l.take m, cmp b x = .lt := Ordered.left_lt hbefore (by simp [ha])
  refine ⟨⟨a, (Ordered.find?_eq_some_iff hs).2 ⟨List.mem_of_getElem? hget, ha⟩⟩, ?_⟩
  rw [List.eraseIdx_eq_take_drop_succ]
  nth_rewrite 3 [hsplit]
  rw [Ordered.erase, Ordered.edit_append_eq hlt ha, List.nil_append]

/-- After a miss the key is not there, and the last index probed tells where it goes. -/
theorem bisect_miss (hs : Ordered.Sorted cmp l) (hne : l ≠ [])
    (h : (bisect (cmp · x) l l.length 0 l.length 0).1 = false) :
    Ordered.find? cmp x l = none ∧
      ∃ a, l[(bisect (cmp · x) l l.length 0 l.length 0).2]? = some a ∧ cmp a x ≠ .eq ∧ ∀ pos,
        pos = (bisect (cmp · x) l l.length 0 l.length 0).2 + (if cmp a x = .gt then 0 else 1) →
          l.take pos ++ x :: l.drop pos = Ordered.insert cmp x l := by
  have hlen : 0 < l.length := List.length_pos_iff.2 hne
  obtain ⟨pos, hb, a, hget, hlast⟩ := (bisect_all (rising_of_sorted hs x) hlen).2 h
  generalize (bisect (cmp · x) l l.length 0 l.length 0).2 = m at hget hlast ⊢
  have hnone : Ordered.find? cmp x l = none := by
    rw [Ordered.find?, List.find?_eq_none]
    intro b hmem
    rw [← List.take_append_drop pos l, List.mem_append] at hmem
    rcases hmem with hmem | hmem
    · simp [hb.below b hmem]
    · simp [hb.above b hmem]
  have hins : l.take pos ++ x :: l.drop pos = Ordered.insert cmp x l := by
    nth_rewrite 3 [← List.take_append_drop pos l]
    rw [Ordered.insert, Ordered.edit_append_lt hb.below]
    cases hd : l.drop pos with
    | nil => rfl
    | cons b r =>
      have hgt := hb.above b (by simp [hd])
      simp [Ordered.edit, hgt]
  refine ⟨hnone, a, hget, ?_, fun pos' hpos' => ?_⟩
  · rcases hlast with ⟨hp, -⟩ | ⟨hp, -⟩ <;> simp [hp]
  · obtain rfl : pos' = pos := by
      rcases hlast with ⟨hp, rfl⟩ | ⟨hp, rfl⟩ <;> simp_all
    exact hins

end

end Bisect
