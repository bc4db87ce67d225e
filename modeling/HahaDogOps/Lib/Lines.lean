import Mathlib
/-!
# Sequences cut at a separator, and trimming both ends

General list facts, over any type: a sequence is cut into the pieces that end in a separator plus
whatever follows the last separator (`cut`), pieces are put together again by `joined`, and `strip`
removes a class of elements from both ends. Text files are the instance the rest of the development
uses (separator newline, blanks stripped), but nothing here knows that.
-/

namespace Lines

variable {α : Type*}

/-- `∀ x ∈ l, p x` is decided along `l`, also where the type of `x` is itself finite. -/
instance (priority := 2000) decidableForallMem (p : α → Prop) [DecidablePred p] (l : List α) :
    Decidable (∀ x ∈ l, p x) := List.decidableBAll p l

/-! ## Cutting at a separator -/

section
variable (sep : α)

/-- Put `x` in front of the first complete piece, or of the unfinished one if no piece is complete. -/
def push (x : α) : List (List α) × List α → List (List α) × List α
  | ([], r) => ([], x :: r)
  | (l :: ls, r) => ((x :: l) :: ls, r)

/-- Every piece followed by the separator. -/
def joined (ls : List (List α)) : List α := ls.flatMap (· ++ [sep])

@[simp] theorem joined_nil : joined sep ([] : List (List α)) = [] := rfl

@[simp] theorem joined_cons (l : List α) (ls : List (List α)) :
    joined sep (l :: ls) = l ++ sep :: joined sep ls := by simp [joined]

theorem joined_append (ls ms : List (List α)) : joined sep (ls ++ ms) = joined sep ls ++ joined sep ms := by
  simp [joined]

theorem getLast?_joined : ∀ {ls : List (List α)}, ls ≠ [] → (joined sep ls).getLast? = some sep
  | [l], _ => by simp
  | l :: m :: ls, _ => by
    have ih := @getLast?_joined (m :: ls) (by simp)
    rw [joined_cons, List.getLast?_append, List.getLast?_cons, ih]; simp

variable [DecidableEq α]

/-- The pieces that end in `sep` (without it), and the unfinished rest. -/
def cut : List α → List (List α) × List α
  | [] => ([], [])
  | x :: t => if x = sep then ([] :: (cut t).1, (cut t).2) else push x (cut t)

/-- All pieces, an unfinished last one included. -/
def pieces (t : List α) : List (List α) :=
  if (cut sep t).2 = [] then (cut sep t).1 else (cut sep t).1 ++ [(cut sep t).2]

theorem cut_cons_sep (t : List α) : cut sep (sep :: t) = ([] :: (cut sep t).1, (cut sep t).2) := by
  simp [cut]

theorem cut_cons_ne {x : α} (hx : x ≠ sep) (t : List α) : cut sep (x :: t) = push x (cut sep t) := by
  simp [cut, hx]

theorem cut_of_not_mem {r : List α} (h : sep ∉ r) : cut sep r = ([], r) := by
  induction r with
  | nil => rfl
  | cons x r ih =>
    simp only [List.mem_cons, not_or] at h
    rw [cut_cons_ne sep (Ne.symm h.1), ih h.2]; rfl

theorem cut_line_append {l : List α} (h : sep ∉ l) (t : List α) :
    cut sep (l ++ sep :: t) = (l :: (cut sep t).1, (cut sep t).2) := by
  induction l with
  | nil => exact cut_cons_sep sep t
  | cons x l ih =>
    simp only [List.mem_cons, not_or] at h
    rw [List.cons_append, cut_cons_ne sep (Ne.symm h.1), ih h.2]; rfl

/-- Separator-free pieces and rest are recovered by `cut`. -/
theorem cut_joined_append : ∀ {ls : List (List α)} {r : List α}, (∀ l ∈ ls, sep ∉ l) → sep ∉ r →
    cut sep (joined sep ls ++ r) = (ls, r)
  | [], r, _, hr => cut_of_not_mem sep hr
  | l :: ls, r, hls, hr => by
    rw [joined_cons, List.append_assoc, List.cons_append, cut_line_append sep (hls l (by simp)),
      cut_joined_append (fun l' h' => hls l' (by simp [h'])) hr]

theorem cut_joined {ls : List (List α)} (h : ∀ l ∈ ls, sep ∉ l) : cut sep (joined sep ls) = (ls, []) := by
  simpa using cut_joined_append sep h (r := []) (by simp)

theorem pieces_joined {ls : List (List α)} (h : ∀ l ∈ ls, sep ∉ l) : pieces sep (joined sep ls) = ls := by
  simp [pieces, cut_joined sep h]

/-- Cutting loses nothing. -/
theorem joined_cut : ∀ t : List α, joined sep (cut sep t).1 ++ (cut sep t).2 = t
  | [] => rfl
  | x :: t => by
    have ih := joined_cut t
    by_cases hx : x = sep
    · subst hx; rw [cut_cons_sep]; simp [ih]
    · rw [cut_cons_ne sep hx]
      match h : cut sep t, ih with
      | ([], r), ih => simpa [push] using ih
      | (l :: ls, r), ih => simpa [push] using ih

theorem sep_not_mem_cut : ∀ t : List α, (∀ l ∈ (cut sep t).1, sep ∉ l) ∧ sep ∉ (cut sep t).2
  | [] => by simp [cut]
  | x :: t => by
    have ih := sep_not_mem_cut t
    by_cases hx : x = sep
    · subst hx; rw [cut_cons_sep]; simpa using ih
    · rw [cut_cons_ne sep hx]
      match h : cut sep t, ih with
      | ([], r), ih => simpa [push, Ne.symm hx] using ih
      | (l :: ls, r), ih => simpa [push, Ne.symm hx] using ih

theorem sep_not_mem_pieces {t l : List α} (h : l ∈ pieces sep t) : sep ∉ l := by
  have hc := sep_not_mem_cut sep t
  unfold pieces at h
  split at h
  · exact hc.1 l h
  · rcases List.mem_append.1 h with h | h
    · exact hc.1 l h
    · rw [List.mem_singleton.1 h]; exact hc.2

theorem mem_of_mem_pieces {t l : List α} (h : l ∈ pieces sep t) {x : α} (hx : x ∈ l) : x ∈ t := by
  rw [← joined_cut sep t, List.mem_append]
  have hj : l ∈ (cut sep t).1 → x ∈ joined sep (cut sep t).1 := fun hl =>
    List.mem_flatMap.2 ⟨l, hl, List.mem_append_left _ hx⟩
  unfold pieces at h
  split at h
  · exact .inl (hj h)
  · rcases List.mem_append.1 h with h | h
    · exact .inl (hj h)
    · rw [List.mem_singleton.1 h] at hx; exact .inr hx

/-- Nothing is left unfinished iff the sequence is empty or ends in the separator. -/
theorem cut_snd_eq_nil_iff (t : List α) : (cut sep t).2 = [] ↔ t = [] ∨ t.getLast? = some sep := by
  have hj := joined_cut sep t
  have hc := (sep_not_mem_cut sep t).2
  constructor
  · intro h
    rw [h, List.append_nil] at hj
    by_cases hl : (cut sep t).1 = []
    · left; rw [← hj, hl]; rfl
    · right; rw [← hj]; exact getLast?_joined sep hl
  · rintro (rfl | h)
    · rfl
    · by_contra hne
      rw [← hj, List.getLast?_append, List.getLast?_eq_some_getLast hne] at h
      simp only [Option.some_or, Option.some.injEq] at h
      have hmem := List.getLast_mem hne
      rw [h] at hmem; exact hc hmem

theorem eq_joined_of_cut {t : List α} (h : (cut sep t).2 = []) : t = joined sep (pieces sep t) := by
  have hj := joined_cut sep t
  rw [h, List.append_nil] at hj
  simp [pieces, h, hj]

end

/-! ## The first occurrence of an element -/

section
variable [DecidableEq α] {x : α}

theorem takeWhile_ne_append {k : List α} (h : x ∉ k) (r : List α) :
    (k ++ x :: r).takeWhile (fun c => decide (c ≠ x)) = k := by
  have hk : ∀ c ∈ k, decide (c ≠ x) = true := fun c hc => decide_eq_true fun e : c = x => h (e ▸ hc)
  rw [List.takeWhile_append_of_pos hk]; simp

theorem dropWhile_ne_append {k : List α} (h : x ∉ k) (r : List α) :
    (k ++ x :: r).dropWhile (fun c => decide (c ≠ x)) = x :: r := by
  have hk : ∀ c ∈ k, decide (c ≠ x) = true := fun c hc => decide_eq_true fun e : c = x => h (e ▸ hc)
  rw [List.dropWhile_append_of_pos hk]; simp

theorem eq_append_of_mem {t : List α} (h : x ∈ t) : t = t.takeWhile (fun c => decide (c ≠ x)) ++
    x :: (t.dropWhile (fun c => decide (c ≠ x))).tail := by
  obtain ⟨a, b, rfl, ha⟩ := List.eq_append_cons_of_mem h
  rw [takeWhile_ne_append ha, dropWhile_ne_append ha, List.tail_cons]

theorem not_mem_takeWhile_ne (t : List α) : x ∉ t.takeWhile (fun c => decide (c ≠ x)) := fun hm => by
  simpa using List.mem_takeWhile_imp hm

end

/-! ## Stripping both ends -/

section
variable (p : α → Bool)

/-- `t` without its leading and trailing `p`-elements. -/
def strip (t : List α) : List α := (t.dropWhile p).rdropWhile p

@[simp] theorem strip_nil : strip p [] = [] := rfl

/-- What `strip` leaves has no `p`-element at either end. -/
def Tight (m : List α) : Prop := (∀ x ∈ m.head?, p x = false) ∧ ∀ x ∈ m.getLast?, p x = false

theorem dropWhile_append_all {a m : List α} (ha : ∀ x ∈ a, p x = true) (hm : ∀ x ∈ m.head?, p x = false) :
    (a ++ m).dropWhile p = m := by
  rw [List.dropWhile_append_of_pos ha]
  cases m with
  | nil => rfl
  | cons x m => simp [hm x (by simp)]

theorem rdropWhile_append_all {m b : List α} (hb : ∀ x ∈ b, p x = true) (hm : ∀ x ∈ m.getLast?, p x = false) :
    (m ++ b).rdropWhile p = m := by
  rw [List.rdropWhile, List.reverse_append, dropWhile_append_all p (by simpa using hb) (by simpa using hm),
    List.reverse_reverse]

/-- `strip` is determined by a decomposition with a tight middle. -/
theorem strip_eq_of_tight {a m b : List α} (ha : ∀ x ∈ a, p x = true) (hb : ∀ x ∈ b, p x = true)
    (hm : Tight p m) : strip p (a ++ m ++ b) = m := by
  unfold strip
  by_cases h0 : m = []
  · subst h0
    have hall : (a ++ [] ++ b).dropWhile p = [] := by
      rw [List.dropWhile_eq_nil_iff]; simpa using fun x hx => hx.elim (ha x) (hb x)
    rw [hall]; rfl
  · rw [List.append_assoc, dropWhile_append_all p ha, rdropWhile_append_all p hb hm.2]
    rw [List.head?_append_of_ne_nil _ h0]; exact hm.1

theorem strip_spec (t : List α) : ∃ a b, t = a ++ strip p t ++ b ∧ (∀ x ∈ a, p x = true) ∧
    (∀ x ∈ b, p x = true) ∧ Tight p (strip p t) := by
  refine ⟨t.takeWhile p, (t.dropWhile p).rtakeWhile p, ?_, fun x hx => List.mem_takeWhile_imp hx,
    fun x hx => List.mem_rtakeWhile_imp hx, ?_, ?_⟩
  · rw [strip, List.append_assoc, List.rdropWhile_append_rtakeWhile, List.takeWhile_append_dropWhile]
  · intro x hx
    have hpre : strip p t <+: t.dropWhile p := List.rdropWhile_prefix p _
    obtain ⟨u, hu⟩ := hpre
    have hd : x ∈ (t.dropWhile p).head? := by
      rw [← hu]
      cases hs : strip p t with
      | nil => simp [hs] at hx
      | cons y ys => rw [hs] at hx; simpa using hx
    have := List.head?_dropWhile_not p t
    rw [Option.mem_def.1 hd] at this
    simpa using this
  · intro x hx
    obtain ⟨hne, rfl⟩ := List.mem_getLast?_eq_getLast hx
    have hlast := List.rdropWhile_last_not p (t.dropWhile p) hne
    exact Bool.eq_false_iff.2 hlast

theorem tight_strip (t : List α) : Tight p (strip p t) := by
  obtain ⟨_, _, _, _, _, h⟩ := strip_spec p t; exact h

theorem strip_of_tight {m : List α} (h : Tight p m) : strip p m = m := by
  simpa using strip_eq_of_tight p (a := []) (b := []) (by simp) (by simp) h

@[simp] theorem strip_strip (t : List α) : strip p (strip p t) = strip p t := strip_of_tight p (tight_strip p t)

/-- Stripping fewer elements first changes nothing. -/
theorem strip_strip_of_le {q : α → Bool} (hpq : ∀ x, p x = true → q x = true) (t : List α) :
    strip q (strip p t) = strip q t := by
  obtain ⟨a, b, ht, ha, hb, _⟩ := strip_spec p t
  obtain ⟨a', b', ht', ha', hb', hm'⟩ := strip_spec q (strip p t)
  have ht2 : t = a ++ a' ++ strip q (strip p t) ++ (b' ++ b) := by
    conv => lhs; rw [ht, ht']
    simp only [List.append_assoc]
  have hs := strip_eq_of_tight q (a := a ++ a') (b := b' ++ b) (m := strip q (strip p t))
    (by simpa using fun x hx => hx.elim (fun h => hpq x (ha x h)) (ha' x))
    (by simpa using fun x hx => hx.elim (hb' x) (fun h => hpq x (hb x h))) hm'
  rw [← ht2] at hs; exact hs.symm

/-- Only the right end can lose anything behind a part that is tight itself. -/
theorem strip_append_of_tight {x : List α} (hx : Tight p x) (hne : x ≠ []) (r : List α) :
    strip p (x ++ r) = x ++ r.rdropWhile p := by
  have h1 := strip_eq_of_tight p (a := []) (m := x ++ r.rdropWhile p) (b := r.rtakeWhile p) (by simp)
    (fun y hy => List.mem_rtakeWhile_imp hy)
  simp only [List.nil_append, List.append_assoc, List.rdropWhile_append_rtakeWhile] at h1
  refine h1 ⟨?_, ?_⟩
  · rw [List.head?_append_of_ne_nil _ hne]; exact hx.1
  · by_cases h0 : r.rdropWhile p = []
    · rw [h0, List.append_nil]; exact hx.2
    · rw [List.getLast?_append_of_ne_nil _ h0]
      intro y hy
      obtain ⟨_, rfl⟩ := List.mem_getLast?_eq_getLast hy
      exact Bool.eq_false_iff.2 (List.rdropWhile_last_not p r h0)

theorem tight_of_all_not {m : List α} (h : ∀ x ∈ m, p x = false) : Tight p m :=
  ⟨fun x hx => h x (List.mem_of_mem_head? hx), fun x hx => h x (List.mem_of_mem_getLast? hx)⟩

theorem rdropWhile_append_of_exists (x : List α) {r : List α} (h : ∃ c ∈ r, p c = false) :
    (x ++ r).rdropWhile p = x ++ r.rdropWhile p := by
  have hne : r.reverse.dropWhile p ≠ [] := by
    rw [Ne, List.dropWhile_eq_nil_iff]
    obtain ⟨c, hc, hp⟩ := h
    intro hall
    rw [hall c (List.mem_reverse.2 hc)] at hp; cases hp
  rw [List.rdropWhile, List.reverse_append, List.dropWhile_append]
  simp [hne, List.rdropWhile]

theorem strip_of_head_not {t : List α} (h : ∀ x ∈ t.head?, p x = false) : strip p t = t.rdropWhile p := by
  rw [strip]
  cases t with
  | nil => rfl
  | cons x t => rw [List.dropWhile_cons_of_neg (by simp [h x (by simp)])]

theorem strip_rdropWhile {q : α → Bool} (hpq : ∀ x, p x = true → q x = true) (t : List α) :
    strip q (t.rdropWhile p) = strip q t := by
  obtain ⟨a, b, ht, ha, hb, hm⟩ := strip_spec q (t.rdropWhile p)
  have h2 := strip_eq_of_tight q (b := b ++ t.rtakeWhile p) ha
    (by simpa using fun x hx => hx.elim (hb x) fun h => hpq x (List.mem_rtakeWhile_imp h)) hm
  rw [← h2]; congr 1
  rw [← List.append_assoc, ← ht, List.rdropWhile_append_rtakeWhile]

theorem strip_map {β : Type*} (f : β → α) (t : List β) : strip p (t.map f) = (strip (p ∘ f) t).map f := by
  simp only [strip, List.rdropWhile, List.dropWhile_map, ← List.map_reverse]

theorem strip_sublist (t : List α) : (strip p t).Sublist t := by
  obtain ⟨a, b, ht, _, _, _⟩ := strip_spec p t
  conv => rhs; rw [ht]
  exact (List.sublist_append_right _ _).trans (List.sublist_append_left _ _)

theorem mem_of_mem_strip {t : List α} {x : α} (h : x ∈ strip p t) : x ∈ t := (strip_sublist p t).mem h

theorem all_of_strip_eq_nil {t : List α} (h : strip p t = []) : ∀ x ∈ t, p x = true := by
  obtain ⟨a, b, ht, ha, hb, _⟩ := strip_spec p t
  rw [h, List.append_nil] at ht
  intro x hx
  rw [ht, List.mem_append] at hx
  exact hx.elim (ha x) (hb x)

/-- Elements that are not stripped keep their multiplicity. -/
theorem count_strip [BEq α] [LawfulBEq α] {x : α} (hx : p x = false) (t : List α) :
    (strip p t).count x = t.count x := by
  obtain ⟨a, b, ht, ha, hb, _⟩ := strip_spec p t
  have h0 : ∀ u : List α, (∀ y ∈ u, p y = true) → u.count x = 0 := fun u hu =>
    List.count_eq_zero.2 fun hm => by simp [hu x hm] at hx
  conv => rhs; rw [ht]
  simp [List.count_append, h0 a ha, h0 b hb]

end

end Lines
