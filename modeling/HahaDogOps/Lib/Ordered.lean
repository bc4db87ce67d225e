import Mathlib

/-!
# Lists kept in order by a comparison

What a search structure holds, read from its first entry to its last: a list that increases strictly under
`cmp`. `edit` rewrites the place of one key; inserting, replacing, erasing and changing an entry are cases of
it. The lemmas about `l ++ a :: r` are the ones a search tree needs at a node that holds `a`.
-/

namespace Ordered

variable {α : Type*} (cmp : α → α → Ordering)

/-- Strictly increasing. -/
def Sorted (l : List α) : Prop := l.Pairwise fun a b => cmp a b = .lt

/-- Put `f` in the place of the key `x`; `f` is given the entry found there. -/
def edit (x : α) (f : Option α → List α) : List α → List α
  | [] => f none
  | a :: l =>
    match cmp a x with
    | .lt => a :: edit x f l
    | .eq => f (some a) ++ l
    | .gt => f none ++ a :: l

/-- The entry with the key `x`. -/
def find? (x : α) (l : List α) : Option α := l.find? fun a => cmp a x == .eq

/-- The first entry that is not below `x`. -/
def findGe? (x : α) (l : List α) : Option α := l.find? fun a => cmp a x != .lt

/-- Add `x` unless an entry with its key is there. -/
def insert (x : α) : List α → List α := edit cmp x fun o => [o.getD x]

/-- Add `x`, in place of an entry with its key. -/
def replace (x : α) : List α → List α := edit cmp x fun _ => [x]

/-- Drop the entry with the key `x`. -/
def erase (x : α) : List α → List α := edit cmp x fun _ => []

/-- Change the entry with the key `x`. -/
def modify (x : α) (g : α → α) : List α → List α := edit cmp x fun o => (o.map g).toList

/-- What `f` puts in the place of `x` is at most one entry, with the same key. -/
def Fits (x : α) (f : Option α → List α) : Prop :=
  ∀ o, (∀ a ∈ o, cmp a x = .eq) → (f o).length ≤ 1 ∧ ∀ y ∈ f o, cmp y x = .eq

variable {cmp}
variable {x : α} {f : Option α → List α}

/-! ## At a node -/

theorem edit_append_gt {a : α} (h : cmp a x = .gt) (l r : List α) :
    edit cmp x f (l ++ a :: r) = edit cmp x f l ++ a :: r := by
  induction l with
  | nil => simp [edit, h]
  | cons b l ih =>
    simp only [List.cons_append, edit, ih]
    cases cmp b x <;> simp

theorem edit_append_lt {l : List α} (h : ∀ b ∈ l, cmp b x = .lt) (r : List α) :
    edit cmp x f (l ++ r) = l ++ edit cmp x f r := by
  induction l with
  | nil => rfl
  | cons b l ih =>
    rw [List.forall_mem_cons] at h
    simp only [List.cons_append, edit, h.1, ih h.2]

theorem edit_append_eq {a : α} {l : List α} (hl : ∀ b ∈ l, cmp b x = .lt) (h : cmp a x = .eq) (r : List α) :
    edit cmp x f (l ++ a :: r) = l ++ (f (some a) ++ r) := by
  rw [edit_append_lt hl, edit, h]

theorem find?_append_lt {l : List α} (h : ∀ b ∈ l, cmp b x = .lt) (r : List α) :
    find? cmp x (l ++ r) = find? cmp x r := by
  have hn : l.find? (fun a => cmp a x == .eq) = none := by
    rw [List.find?_eq_none]
    intro b hb
    simp [h b hb]
  rw [find?, List.find?_append, hn]
  rfl

theorem findGe?_append_lt {l : List α} (h : ∀ b ∈ l, cmp b x = .lt) (r : List α) :
    findGe? cmp x (l ++ r) = findGe? cmp x r := by
  have hn : l.find? (fun a => cmp a x != .lt) = none := by
    rw [List.find?_eq_none]
    intro b hb
    simp [h b hb]
  rw [findGe?, List.find?_append, hn]
  rfl

theorem eq_of_find? {l : List α} {a : α} (h : find? cmp x l = some a) : a ∈ l ∧ cmp a x = .eq :=
  ⟨List.mem_of_find?_eq_some h, by simpa using List.find?_some h⟩

theorem fits_erase : Fits cmp x fun _ => [] := fun _ _ => ⟨by simp, by simp⟩

theorem edit_of_gt {l : List α} (h : ∀ b ∈ l, cmp b x = .gt) : edit cmp x f l = f none ++ l := by
  cases l with
  | nil => simp [edit]
  | cons a l => simp [edit, h a (by simp)]

/-- What `f` puts in the place of `x` is found there by a second edit. -/
theorem edit_append_of_fits {g : Option α → List α} {o : Option α} (hf : Fits cmp x f)
    (ho : ∀ a ∈ o, cmp a x = .eq) {l : List α} (hl : ∀ b ∈ l, cmp b x = .gt) :
    edit cmp x g (f o ++ l) = g (f o).head? ++ l := by
  obtain ⟨hlen, heq⟩ := hf o ho
  match hfo : f o with
  | [] => simpa using edit_of_gt hl
  | [y] =>
    have hy := heq y (by simp [hfo])
    simp [edit, hy]
  | y :: z :: r => rw [hfo] at hlen; simp at hlen

section
variable [Std.TransCmp cmp]

theorem sorted_node {a : α} {l r : List α} : Sorted cmp (l ++ a :: r) ↔
    Sorted cmp l ∧ Sorted cmp r ∧ (∀ b ∈ l, cmp b a = .lt) ∧ ∀ b ∈ r, cmp a b = .lt := by
  simp only [Sorted, List.pairwise_append, List.pairwise_cons, List.mem_cons]
  constructor
  · rintro ⟨hl, ⟨har, hr⟩, hlr⟩
    exact ⟨hl, hr, fun b hb => hlr b hb a (.inl rfl), har⟩
  · rintro ⟨hl, hr, hla, har⟩
    refine ⟨hl, ⟨har, hr⟩, fun b hb c hc => ?_⟩
    rcases hc with rfl | hc
    · exact hla b hb
    · exact Std.TransCmp.lt_trans (hla b hb) (har c hc)

/-- Where `x` lies right of a node, everything left of the node is below `x`. -/
theorem left_lt {a : α} {l : List α} (hl : ∀ b ∈ l, cmp b a = .lt) (h : cmp a x ≠ .gt) :
    ∀ b ∈ l, cmp b x = .lt := by
  intro b hb
  refine Std.TransCmp.lt_of_lt_of_isLE (hl b hb) ?_
  cases hc : cmp a x <;> simp_all

/-- Where `x` lies left of a node, everything right of the node is above `x`. -/
theorem right_gt {a : α} {r : List α} (hr : ∀ b ∈ r, cmp a b = .lt) (h : cmp a x ≠ .lt) :
    ∀ b ∈ r, cmp b x = .gt := by
  intro b hb
  refine Std.TransCmp.gt_of_gt_of_isGE (Std.OrientedCmp.gt_of_lt (hr b hb)) ?_
  cases hc : cmp a x <;> simp_all

theorem find?_append_gt {a : α} {r : List α} (hr : ∀ b ∈ r, cmp a b = .lt) (h : cmp a x = .gt) (l : List α) :
    find? cmp x (l ++ a :: r) = find? cmp x l := by
  have hn : (a :: r).find? (fun a => cmp a x == .eq) = none := by
    rw [List.find?_eq_none]
    intro b hb
    rcases List.mem_cons.1 hb with rfl | hb
    · simp [h]
    · have hb' : cmp b x = .gt := right_gt hr (by simp [h]) b hb
      simp [hb']
  rw [find?, List.find?_append, hn, Option.or_none]
  rfl

/-! ## Edits of a sorted list -/

/-- What an edited list holds: the entries with another key, and what was put in the place of `x`. -/
theorem mem_edit {l : List α} (hs : Sorted cmp l) {y : α} :
    y ∈ edit cmp x f l ↔ y ∈ f (find? cmp x l) ∨ (y ∈ l ∧ cmp y x ≠ .eq) := by
  induction l with
  | nil => simp [edit, find?]
  | cons a l ih =>
    obtain ⟨ha, hl⟩ := List.pairwise_cons.1 hs
    cases hc : cmp a x with
    | lt =>
      have hf : find? cmp x (a :: l) = find? cmp x l := by simp [find?, hc]
      have hne : y = a → cmp y x ≠ .eq := by rintro rfl; simp [hc]
      simp only [edit, hc, List.mem_cons, ih hl, hf]
      tauto
    | eq =>
      have hf : find? cmp x (a :: l) = some a := by simp [find?, hc]
      have hgt : ∀ b ∈ l, cmp b x ≠ .eq := by
        intro b hb
        have hb' : cmp b x = .gt := right_gt ha (by simp [hc]) b hb
        simp [hb']
      simp only [edit, hc, List.mem_append, hf, List.mem_cons]
      constructor
      · rintro (h | h)
        · exact .inl h
        · exact .inr ⟨.inr h, hgt y h⟩
      · rintro (h | ⟨rfl | h, hne⟩)
        · exact .inl h
        · exact absurd hc hne
        · exact .inr h
    | gt =>
      have hf : find? cmp x (a :: l) = none := by
        have := find?_append_gt ha hc []
        simpa [find?] using this
      have hne : ∀ b ∈ a :: l, cmp b x ≠ .eq := by
        intro b hb
        rcases List.mem_cons.1 hb with rfl | hb
        · simp [hc]
        · have hb' : cmp b x = .gt := right_gt ha (by simp [hc]) b hb
          simp [hb']
      simp only [edit, hc, List.mem_append, hf]
      constructor
      · rintro (h | h)
        · exact .inl h
        · exact .inr ⟨h, hne y h⟩
      · rintro (h | ⟨h, -⟩)
        · exact .inl h
        · exact .inr h

/-- A key is there once. -/
theorem find?_eq_some_iff {l : List α} (hs : Sorted cmp l) {a : α} :
    find? cmp x l = some a ↔ a ∈ l ∧ cmp a x = .eq := by
  constructor
  · exact eq_of_find?
  · rintro ⟨ha, hc⟩
    obtain ⟨p, q, rfl⟩ := List.append_of_mem ha
    obtain ⟨-, -, hp, -⟩ := sorted_node.1 hs
    rw [find?_append_lt (left_lt hp (by simp [hc]))]
    simp [find?, hc]

theorem findGe?_eq_some_iff {l : List α} (hs : Sorted cmp l) {a : α} :
    findGe? cmp x l = some a ↔
      a ∈ l ∧ cmp a x ≠ .lt ∧ ∀ c ∈ l, cmp c x ≠ .lt → c = a ∨ cmp a c = .lt := by
  constructor
  · intro h
    obtain ⟨hc, p, q, rfl, hp⟩ := List.find?_eq_some_iff_append.1 h
    obtain ⟨-, -, -, haq⟩ := sorted_node.1 hs
    refine ⟨by simp, by simpa using hc, fun c hc hcx => ?_⟩
    rcases List.mem_append.1 hc with hcp | hcq
    · exact absurd (by simpa using hp c hcp) hcx
    · rcases List.mem_cons.1 hcq with rfl | hcq
      · exact .inl rfl
      · exact .inr (haq c hcq)
  · rintro ⟨ha, hax, hmin⟩
    obtain ⟨p, q, rfl⟩ := List.append_of_mem ha
    obtain ⟨-, -, hpa, -⟩ := sorted_node.1 hs
    have hp : ∀ c ∈ p, cmp c x = .lt := by
      intro c hc
      by_contra hcx
      rcases hmin c (by simp [hc]) hcx with rfl | hlt
      · exact Std.OrientedCmp.not_lt_of_lt (hpa c hc) (hpa c hc)
      · exact Std.OrientedCmp.not_lt_of_lt (hpa c hc) hlt
    rw [findGe?_append_lt hp]
    simp [findGe?, hax]

/-- **Edits keep the order.** -/
theorem sorted_edit (hf : Fits cmp x f) {l : List α} (hs : Sorted cmp l) : Sorted cmp (edit cmp x f l) := by
  have short : ∀ o, (∀ a ∈ o, cmp a x = .eq) → Sorted cmp (f o) := by
    intro o ho
    have := (hf o ho).1
    match hfo : f o with
    | [] => exact List.Pairwise.nil
    | [y] => exact List.pairwise_singleton _ _
    | y :: z :: r => rw [hfo] at this; simp at this
  induction l with
  | nil => exact short none (by simp)
  | cons a l ih =>
    obtain ⟨ha, hl⟩ := List.pairwise_cons.1 hs
    cases hc : cmp a x with
    | lt =>
      simp only [edit, hc]
      refine List.pairwise_cons.2 ⟨fun y hy => ?_, ih hl⟩
      rcases (mem_edit hl).1 hy with h | ⟨h, -⟩
      · have hy := (hf _ fun b hb => (eq_of_find? hb).2).2 y h
        exact Std.TransCmp.lt_of_lt_of_eq hc (Std.OrientedCmp.eq_symm hy)
      · exact ha y h
    | eq =>
      have ho : ∀ b ∈ some a, cmp b x = .eq := by simpa using hc
      simp only [edit, hc]
      refine List.pairwise_append.2 ⟨short _ ho, hl, fun y hy z hz => ?_⟩
      refine Std.TransCmp.lt_of_eq_of_lt ?_ (ha z hz)
      exact Std.TransCmp.eq_trans ((hf _ ho).2 y hy) (Std.OrientedCmp.eq_symm hc)
    | gt =>
      simp only [edit, hc]
      refine List.pairwise_append.2 ⟨short _ (by simp), hs, fun y hy z hz => ?_⟩
      refine Std.TransCmp.lt_of_eq_of_lt ((hf none (by simp)).2 y hy) (Std.OrientedCmp.lt_of_gt ?_)
      rcases List.mem_cons.1 hz with rfl | hz
      · exact hc
      · exact right_gt ha (by simp [hc]) z hz

theorem fits_insert : Fits cmp x fun o => [o.getD x] := by
  intro o ho
  refine ⟨by simp, fun y hy => ?_⟩
  cases o with
  | none => simp_all [Std.ReflCmp.compare_self]
  | some a => simp_all

/-- An edit looks only at the entry with the key. -/
theorem edit_congr {g : Option α → List α} {l : List α} (hs : Sorted cmp l)
    (h : f (find? cmp x l) = g (find? cmp x l)) : edit cmp x f l = edit cmp x g l := by
  induction l with
  | nil => exact h
  | cons a l ih =>
    obtain ⟨ha, hl⟩ := List.pairwise_cons.1 hs
    cases hc : cmp a x with
    | lt =>
      have hf : find? cmp x (a :: l) = find? cmp x l := by simp [find?, hc]
      rw [hf] at h
      simp only [edit, hc, ih hl h]
    | eq =>
      have hf : find? cmp x (a :: l) = some a := by simp [find?, hc]
      rw [hf] at h
      simp only [edit, hc, h]
    | gt =>
      have hf : find? cmp x (a :: l) = none := by simpa [find?] using find?_append_gt ha hc []
      rw [hf] at h
      simp only [edit, hc, h]

/-- Keys that compare equal name the same place. -/
theorem edit_key_congr {y : α} (h : cmp x y = .eq) (l : List α) : edit cmp x f l = edit cmp y f l := by
  induction l with
  | nil => rfl
  | cons a l ih => simp only [edit, Std.TransCmp.congr_right h, ih]

theorem find?_key_congr {y : α} (h : cmp x y = .eq) (l : List α) : find? cmp x l = find? cmp y l := by
  simp only [find?, Std.TransCmp.congr_right h]

/-- **Two edits of one place are one edit.** -/
theorem edit_edit {g : Option α → List α} (hf : Fits cmp x f) {l : List α} (hs : Sorted cmp l) :
    edit cmp x g (edit cmp x f l) = edit cmp x (fun o => g (f o).head?) l := by
  induction l with
  | nil =>
    have h := edit_append_of_fits (g := g) (o := none) hf (by simp) (l := []) (by simp)
    simpa [edit] using h
  | cons a l ih =>
    obtain ⟨ha, hl⟩ := List.pairwise_cons.1 hs
    cases hc : cmp a x with
    | lt => simp only [edit, hc, ih hl]
    | eq =>
      simp only [edit, hc]
      exact edit_append_of_fits hf (by simpa using hc) (right_gt ha (by simp [hc]))
    | gt =>
      simp only [edit, hc]
      refine edit_append_of_fits hf (by simp) fun b hb => ?_
      rcases List.mem_cons.1 hb with rfl | hb
      · exact hc
      · exact right_gt ha (by simp [hc]) b hb

theorem find?_edit (hf : Fits cmp x f) {l : List α} (hs : Sorted cmp l) :
    find? cmp x (edit cmp x f l) = (f (find? cmp x l)).head? := by
  have hnone : ∀ {r : List α}, (∀ b ∈ r, cmp b x ≠ .eq) → find? cmp x r = none := by
    intro r hr
    rw [find?, List.find?_eq_none]
    intro b hb
    simp [hr b hb]
  have ho : ∀ a ∈ find? cmp x l, cmp a x = .eq := fun a ha => (eq_of_find? ha).2
  obtain ⟨hlen, heq⟩ := hf _ ho
  match hfo : f (find? cmp x l) with
  | [] =>
    refine hnone fun b hb => ?_
    rw [mem_edit hs, hfo] at hb
    simpa using hb.imp id (·.2)
  | [y] =>
    refine (find?_eq_some_iff (sorted_edit hf hs)).2 ⟨?_, heq y (by simp [hfo])⟩
    rw [mem_edit hs, hfo]
    simp
  | y :: z :: r => rw [hfo] at hlen; simp at hlen

/-- An edit touches one place: the rest is what erasing the key leaves. -/
theorem edit_perm {l : List α} (hs : Sorted cmp l) : (edit cmp x f l).Perm (f (find? cmp x l) ++ erase cmp x l) := by
  induction l with
  | nil => simp [edit, find?, erase]
  | cons a l ih =>
    obtain ⟨ha, hl⟩ := List.pairwise_cons.1 hs
    cases hc : cmp a x with
    | lt =>
      have hf : find? cmp x (a :: l) = find? cmp x l := by simp [find?, hc]
      simp only [edit, erase, hc, hf]
      exact ((ih hl).cons a).trans List.perm_middle.symm
    | eq =>
      have hf : find? cmp x (a :: l) = some a := by simp [find?, hc]
      simp [edit, erase, hc, hf]
    | gt =>
      have hf : find? cmp x (a :: l) = none := by simpa [find?] using find?_append_gt ha hc []
      simp [edit, erase, hc, hf]

/-- A sorted list is the entry with a key, if there is one, and the rest. -/
theorem perm_find?_erase {l : List α} (hs : Sorted cmp l) (x : α) :
    l.Perm ((find? cmp x l).toList ++ erase cmp x l) := by
  induction l with
  | nil => simp [find?, erase, edit]
  | cons a l ih =>
    obtain ⟨ha, hl⟩ := List.pairwise_cons.1 hs
    cases hc : cmp a x with
    | lt =>
      have hf : find? cmp x (a :: l) = find? cmp x l := by simp [find?, hc]
      simp only [edit, erase, hc, hf]
      exact ((ih hl).cons a).trans List.perm_middle.symm
    | eq =>
      have hf : find? cmp x (a :: l) = some a := by simp [find?, hc]
      simp [edit, erase, hc, hf]
    | gt =>
      have hf : find? cmp x (a :: l) = none := by simpa [find?] using find?_append_gt ha hc []
      simp [edit, erase, hc, hf]

/-- The same for entries that are collections: what all of them hold after an edit. -/
theorem flatMap_edit_perm {β : Type*} {l : List α} (hs : Sorted cmp l) (items : α → List β) :
    ((edit cmp x f l).flatMap items).Perm
      ((f (find? cmp x l)).flatMap items ++ (erase cmp x l).flatMap items) := by
  rw [← List.flatMap_append]
  exact (edit_perm hs).flatMap_right items

theorem flatMap_perm {β : Type*} {l : List α} (hs : Sorted cmp l) (x : α) (items : α → List β) :
    (l.flatMap items).Perm (((find? cmp x l).map items).getD [] ++ (erase cmp x l).flatMap items) := by
  refine ((perm_find?_erase hs x).flatMap_right items).trans ?_
  rw [List.flatMap_append]
  cases find? cmp x l <;> simp

end

end Ordered
