import HahaDogOps.Lib.Ordered
import HahaDogOps.Lib.Run
import HahaDogOps.Storage.AvlTree

/-!
# What an AVL tree holds

Read in order, the tree is a list sorted by `cmp`, and every call on the tree is the call of the same name on
that list. The rotations do not show; `find` and `findGe` may drop one side at each node because it is sorted.
-/

namespace HahaDog.Avl

open TreeNode
open Ordered (Sorted edit erase find? findGe? sorted_node left_lt edit_append_lt edit_append_eq edit_append_gt
  find?_append_lt find?_append_gt findGe?_append_lt)

variable {α σ : Type*} {l r t : TreeNode α} {a x : α} {b : Balance} {h : Nat}

/-! ## Contents -/

@[simp] theorem toList_rotateLeft (t : TreeNode α) : (rotateLeft t).toList = t.toList := by
  unfold rotateLeft; split <;> simp

@[simp] theorem toList_rotateRight (t : TreeNode α) : (rotateRight t).toList = t.toList := by
  unfold rotateRight; split <;> simp

@[simp] theorem toList_leftBalanceWhenInsert (t : TreeNode α) :
    (leftBalanceWhenInsert t).1.toList = t.toList := by
  unfold leftBalanceWhenInsert; split <;> simp [raiseLeftRight]

@[simp] theorem toList_rightBalanceWhenInsert (t : TreeNode α) :
    (rightBalanceWhenInsert t).1.toList = t.toList := by
  unfold rightBalanceWhenInsert; split <;> simp [raiseRightLeft]

@[simp] theorem toList_leftBalanceWhenDelete (t : TreeNode α) :
    (leftBalanceWhenDelete t).1.toList = t.toList := by
  unfold leftBalanceWhenDelete; split <;> simp [raiseLeftRight]

@[simp] theorem toList_rightBalanceWhenDelete (t : TreeNode α) :
    (rightBalanceWhenDelete t).1.toList = t.toList := by
  unfold rightBalanceWhenDelete; split <;> simp [raiseRightLeft]

@[simp] theorem toList_leftGrown : (leftGrown l a b r).1.toList = l.toList ++ a :: r.toList := by
  cases b <;> simp [leftGrown]

@[simp] theorem toList_rightGrown : (rightGrown l a b r).1.toList = l.toList ++ a :: r.toList := by
  cases b <;> simp [rightGrown]

@[simp] theorem toList_leftShrunk : (leftShrunk l a b r).1.toList = l.toList ++ a :: r.toList := by
  cases b <;> simp [leftShrunk]

@[simp] theorem toList_rightShrunk : (rightShrunk l a b r).1.toList = l.toList ++ a :: r.toList := by
  cases b <;> simp [rightShrunk]

theorem toList_deleteLast : (deleteLast l a b r).2.1.toList ++ [(deleteLast l a b r).1] =
    l.toList ++ a :: r.toList := by
  induction r generalizing l a b with
  | nil => simp [deleteLast]
  | node rl ra rb rr _ ih =>
    rw [toList_node, ← ih (b := rb)]
    cases hshorter : (deleteLast rl ra rb rr).2.2 <;> simp [deleteLast, hshorter]

section
variable {cmp : α → α → Ordering} [Std.TransCmp cmp] {old : α → α}

theorem toList_putLoop (hs : Sorted cmp t.toList) :
    (putLoop cmp x old t).1.toList = edit cmp x (fun o => [o.elim x old]) t.toList ∧
      (putLoop cmp x old t).2.1 = (find? cmp x t.toList).isNone := by
  induction t with
  | nil => exact ⟨rfl, rfl⟩
  | node l a b r ihl ihr =>
    obtain ⟨hl, hr, hla, har⟩ := sorted_node.1 hs
    cases hc : cmp a x with
    | lt =>
      have hlt : ∀ y ∈ l.toList, cmp y x = .lt := left_lt hla (by simp [hc])
      obtain ⟨ih, ihn⟩ := ihr hr
      rw [toList_node, edit_append_lt hlt, find?_append_lt hlt]
      have he : edit cmp x (fun o => [o.elim x old]) (a :: r.toList) = a :: (putLoop cmp x old r).1.toList := by
        simp [edit, hc, ih]
      have hf : find? cmp x (a :: r.toList) = find? cmp x r.toList := by simp [find?, hc]
      rw [he, hf, ← ihn]
      cases htaller : (putLoop cmp x old r).2.2 <;> simp [putLoop, hc, htaller]
    | eq =>
      have hlt : ∀ y ∈ l.toList, cmp y x = .lt := left_lt hla (by simp [hc])
      rw [toList_node, edit_append_eq hlt hc, find?_append_lt hlt]
      simp [putLoop, hc, find?]
    | gt =>
      obtain ⟨ih, ihn⟩ := ihl hl
      rw [toList_node, edit_append_gt hc, find?_append_gt har hc, ← ih, ← ihn]
      cases htaller : (putLoop cmp x old l).2.2 <;> simp [putLoop, hc, htaller]

theorem toList_deleteLoop (hs : Sorted cmp t.toList) :
    (deleteLoop cmp x t).1.toList = erase cmp x t.toList ∧
      (deleteLoop cmp x t).2.1 = (find? cmp x t.toList).isSome := by
  induction t with
  | nil => exact ⟨rfl, rfl⟩
  | node l a b r ihl ihr =>
    obtain ⟨hl, hr, hla, har⟩ := sorted_node.1 hs
    cases hc : cmp a x with
    | lt =>
      have hlt : ∀ y ∈ l.toList, cmp y x = .lt := left_lt hla (by simp [hc])
      obtain ⟨ih, ihn⟩ := ihr hr
      rw [toList_node, erase, edit_append_lt hlt, find?_append_lt hlt]
      have he : edit cmp x (fun _ => []) (a :: r.toList) = a :: (deleteLoop cmp x r).1.toList := by
        simp [edit, hc, ih, erase]
      have hf : find? cmp x (a :: r.toList) = find? cmp x r.toList := by simp [find?, hc]
      rw [he, hf, ← ihn]
      cases hshorter : (deleteLoop cmp x r).2.2 <;> simp [deleteLoop, hc, hshorter]
    | eq =>
      have hlt : ∀ y ∈ l.toList, cmp y x = .lt := left_lt hla (by simp [hc])
      rw [toList_node, erase, edit_append_eq hlt hc, find?_append_lt hlt]
      cases l with
      | nil => simp [deleteLoop, hc, find?]
      | node ll la lb lr =>
        cases r with
        | nil => simp [deleteLoop, hc, find?]
        | node rl ra rb rr =>
          have hd := toList_deleteLast (l := ll) (a := la) (b := lb) (r := lr)
          rw [toList_node, ← hd]
          cases hshorter : (deleteLast ll la lb lr).2.2 <;> simp [deleteLoop, hc, hshorter, find?]
    | gt =>
      obtain ⟨ih, ihn⟩ := ihl hl
      rw [toList_node, erase, edit_append_gt hc, find?_append_gt har hc, ← erase, ← ih, ← ihn]
      cases hshorter : (deleteLoop cmp x l).2.2 <;> simp [deleteLoop, hc, hshorter]

theorem find_eq (hs : Sorted cmp t.toList) : find cmp x t = find? cmp x t.toList := by
  induction t with
  | nil => rfl
  | node l a b r ihl ihr =>
    obtain ⟨hl, hr, hla, har⟩ := sorted_node.1 hs
    cases hc : cmp a x with
    | lt =>
      have hlt : ∀ y ∈ l.toList, cmp y x = .lt := left_lt hla (by simp [hc])
      rw [toList_node, find?_append_lt hlt, find, hc, ihr hr]
      simp [find?, hc]
    | eq =>
      have hlt : ∀ y ∈ l.toList, cmp y x = .lt := left_lt hla (by simp [hc])
      rw [toList_node, find?_append_lt hlt, find, hc]
      simp [find?, hc]
    | gt => rw [toList_node, find?_append_gt har hc, find, hc, ihl hl]

theorem findGe_eq (hs : Sorted cmp t.toList) : findGe cmp x t = findGe? cmp x t.toList := by
  induction t with
  | nil => rfl
  | node l a b r ihl ihr =>
    obtain ⟨hl, hr, hla, har⟩ := sorted_node.1 hs
    cases hc : cmp a x with
    | lt =>
      have hlt : ∀ y ∈ l.toList, cmp y x = .lt := left_lt hla (by simp [hc])
      rw [toList_node, findGe?_append_lt hlt, findGe, hc, ihr hr]
      simp [findGe?, hc]
    | eq =>
      have hlt : ∀ y ∈ l.toList, cmp y x = .lt := left_lt hla (by simp [hc])
      rw [toList_node, findGe?_append_lt hlt, findGe, hc]
      simp [findGe?, hc]
    | gt =>
      rw [toList_node, findGe?, List.find?_append, ← findGe?, ← ihl hl, findGe, hc]
      cases findGe cmp x l <;> simp [hc]

theorem toList_modify {g : α → α} (hs : Sorted cmp t.toList) :
    (modify cmp x g t).toList = Ordered.modify cmp x g t.toList := by
  induction t with
  | nil => rfl
  | node l a b r ihl ihr =>
    obtain ⟨hl, hr, hla, har⟩ := sorted_node.1 hs
    cases hc : cmp a x with
    | lt =>
      have hlt : ∀ y ∈ l.toList, cmp y x = .lt := left_lt hla (by simp [hc])
      rw [toList_node, Ordered.modify, edit_append_lt hlt]
      simp [modify, edit, hc, ihr hr, Ordered.modify]
    | eq =>
      have hlt : ∀ y ∈ l.toList, cmp y x = .lt := left_lt hla (by simp [hc])
      rw [toList_node, Ordered.modify, edit_append_eq hlt hc]
      simp [modify, hc]
    | gt =>
      rw [toList_node, Ordered.modify, edit_append_gt hc, ← Ordered.modify, ← ihl hl]
      simp [modify, hc]

end

theorem modify_balanced {cmp : α → α → Ordering} {g : α → α} (hb : Balanced t h) :
    Balanced (modify cmp x g t) h := by
  induction t generalizing h with
  | nil => exact hb
  | node l a b r ihl ihr =>
    obtain ⟨⟨k, hl⟩, ⟨j, hr⟩⟩ := hb.children
    cases hc : cmp a x with
    | lt => simpa [modify, hc] using hb.with_right hr (ihr hr)
    | eq => simpa [modify, hc] using hb.with_left hl hl
    | gt => simpa [modify, hc] using hb.with_left hl (ihl hl)

theorem count_eq (t : TreeNode α) : count t = t.toList.length := by
  induction t with
  | nil => rfl
  | node l a b r ihl ihr => simp [count, ihl, ihr]; omega

/-- The number of nodes a tree of some depth needs. -/
theorem Balanced.fib_le (hb : Balanced t h) : Nat.fib (h + 2) ≤ count t + 1 := by
  induction hb with
  | nil => simp [count]
  | @left l r a h _ _ ihl ihr =>
    have hfib : Nat.fib (h + 2 + 2) = Nat.fib (h + 2) + Nat.fib (h + 1 + 2) := Nat.fib_add_two
    simp only [count]
    omega
  | @even l r a h _ _ ihl ihr =>
    have hfib : Nat.fib (h + 1 + 2) = Nat.fib (h + 1) + Nat.fib (h + 2) := Nat.fib_add_two
    have hle : Nat.fib (h + 1) ≤ Nat.fib (h + 2) := Nat.fib_le_fib_succ
    simp only [count]
    omega
  | @right l r a h _ _ ihl ihr =>
    have hfib : Nat.fib (h + 2 + 2) = Nat.fib (h + 2) + Nat.fib (h + 1 + 2) := Nat.fib_add_two
    simp only [count]
    omega

theorem walk_eq (op : α → σ → Int × σ) : ∀ (t : TreeNode α) (s : σ), walk op t s = Run.visit op t.toList s
  | .nil, s => rfl
  | node l a b r, s => by
    rw [toList_node, Run.visit_append, walk, walk_eq op l]
    by_cases h : (Run.visit op l.toList s).1 = 0
    · simp only [h, ne_eq, not_true_eq_false, if_false, Run.visit, walk_eq op r]
    · simp [h]

/-! ## Whole runs -/

/-- What holds of a tree between two calls. -/
structure Valid (cmp : α → α → Ordering) (t : TreeNode α) : Prop where
  sorted : Sorted cmp t.toList
  balanced : Balanced t (depth t)

theorem Valid.nil {cmp : α → α → Ordering} : Valid cmp (.nil : TreeNode α) := ⟨List.Pairwise.nil, .nil⟩

theorem valid_of {cmp : α → α → Ordering} (hs : Sorted cmp t.toList) (hb : Balanced t h) : Valid cmp t :=
  ⟨hs, hb.depth_eq.symm ▸ hb⟩

section
variable {cmp : α → α → Ordering} [Std.TransCmp cmp]

theorem toList_insert (hv : Valid cmp t) : (insert cmp x t).1.toList = Ordered.insert cmp x t.toList ∧
    (insert cmp x t).2 = (find? cmp x t.toList).isNone := by
  have hf : (fun o : Option α => [o.elim x id]) = fun o => [o.getD x] := by
    funext o
    cases o <;> rfl
  rw [Ordered.insert, ← hf]
  exact toList_putLoop hv.sorted

theorem toList_replace (hv : Valid cmp t) : (replace cmp x t).1.toList = Ordered.replace cmp x t.toList ∧
    (replace cmp x t).2 = (find? cmp x t.toList).isNone := by
  have hf : (fun o : Option α => [o.elim x fun _ => x]) = fun _ => [x] := by
    funext o
    cases o <;> rfl
  rw [Ordered.replace, ← hf]
  exact toList_putLoop hv.sorted

theorem toList_delete (hv : Valid cmp t) : (delete cmp x t).1.toList = erase cmp x t.toList ∧
    (delete cmp x t).2 = (find? cmp x t.toList).isSome :=
  toList_deleteLoop hv.sorted

theorem Valid.insert (hv : Valid cmp t) : Valid cmp (insert cmp x t).1 := by
  refine valid_of ?_ (putLoop_balanced cmp x id hv.balanced).1
  rw [(toList_insert hv).1]
  exact Ordered.sorted_edit Ordered.fits_insert hv.sorted

theorem Valid.replace (hv : Valid cmp t) : Valid cmp (replace cmp x t).1 := by
  refine valid_of ?_ (putLoop_balanced cmp x (fun _ => x) hv.balanced).1
  rw [(toList_replace hv).1]
  exact Ordered.sorted_edit (fun o _ => ⟨by simp, by simp [Std.ReflCmp.compare_self]⟩) hv.sorted

theorem Valid.delete (hv : Valid cmp t) : Valid cmp (delete cmp x t).1 := by
  obtain ⟨j, hb, -⟩ := deleteLoop_balanced cmp x hv.balanced
  refine valid_of ?_ hb
  rw [(toList_delete hv).1]
  exact Ordered.sorted_edit Ordered.fits_erase hv.sorted

/-- A change in place keeps the tree valid when it keeps the key. -/
theorem Valid.modify {g : α → α} (hv : Valid cmp t) (hg : ∀ a, cmp a x = .eq → cmp (g a) x = .eq) :
    Valid cmp (modify cmp x g t) := by
  refine valid_of ?_ (modify_balanced hv.balanced)
  rw [toList_modify hv.sorted]
  refine Ordered.sorted_edit (fun o ho => ?_) hv.sorted
  cases o with
  | none => simp
  | some a => simpa using hg a (ho a rfl)

end

/-- The calls that change a tree. -/
inductive Op (α : Type*)
  | insert (x : α)
  | replace (x : α)
  | delete (x : α)

/-- One call on the tree, and the answer. -/
def step (cmp : α → α → Ordering) (t : TreeNode α) : Op α → TreeNode α × List Bool
  | .insert x => ((insert cmp x t).1, [(insert cmp x t).2])
  | .replace x => ((replace cmp x t).1, [(replace cmp x t).2])
  | .delete x => ((delete cmp x t).1, [(delete cmp x t).2])

/-- What the tree is for: the same call on an ordered list. -/
def specStep (cmp : α → α → Ordering) (l : List α) : Op α → List α × List Bool
  | .insert x => (Ordered.insert cmp x l, [(find? cmp x l).isNone])
  | .replace x => (Ordered.replace cmp x l, [(find? cmp x l).isNone])
  | .delete x => (erase cmp x l, [(find? cmp x l).isSome])

section
variable {cmp : α → α → Ordering} [Std.TransCmp cmp]

theorem step_refines (hv : Valid cmp t) (op : Op α) : Valid cmp (step cmp t op).1 ∧
    (step cmp t op).1.toList = (specStep cmp t.toList op).1 ∧ (step cmp t op).2 = (specStep cmp t.toList op).2 := by
  cases op with
  | insert x =>
    obtain ⟨hl, hc⟩ := toList_insert (x := x) hv
    exact ⟨hv.insert, hl, by simp [step, specStep, hc]⟩
  | replace x =>
    obtain ⟨hl, hc⟩ := toList_replace (x := x) hv
    exact ⟨hv.replace, hl, by simp [step, specStep, hc]⟩
  | delete x =>
    obtain ⟨hl, hc⟩ := toList_delete (x := x) hv
    exact ⟨hv.delete, hl, by simp [step, specStep, hc]⟩

variable (cmp) in
theorem run_valid (ops : List (Op α)) : Valid cmp (Run.feed (step cmp) .nil ops).1 ∧
    (Run.feed (step cmp) .nil ops).1.toList = (Run.feed (specStep cmp) [] ops).1 ∧
    (Run.feed (step cmp) .nil ops).2 = (Run.feed (specStep cmp) [] ops).2 := by
  have hstep : ∀ op ∈ ops, ∀ (t : TreeNode α) (l : List α), (Valid cmp t ∧ t.toList = l) →
      (Valid cmp (step cmp t op).1 ∧ (step cmp t op).1.toList = (specStep cmp l op).1) ∧
        (step cmp t op).2 = (specStep cmp l op).2 := by
    rintro op - t l ⟨hv, rfl⟩
    obtain ⟨hv', hl, hc⟩ := step_refines hv op
    exact ⟨⟨hv', hl⟩, hc⟩
  obtain ⟨⟨hv, hl⟩, hc⟩ := Run.feed_sim ops .nil [] hstep ⟨Valid.nil, rfl⟩
  exact ⟨hv, hl, hc⟩

variable (cmp) in
/-- **The tree is an ordered list.** After any calls, in any order and on any data, the tree holds in key order
what the same calls leave in an ordered list, it gave the same answers, every node's `balance` is right, and
`avl_tree_depth` is the height, which a number of entries growing like the Fibonacci numbers has to pay for. -/
theorem tree_refines_ordered_list (ops : List (Op α)) :
    let t := (Run.feed (step cmp) .nil ops).1
    let l := (Run.feed (specStep cmp) [] ops).1
    (Run.feed (step cmp) .nil ops).2 = (Run.feed (specStep cmp) [] ops).2 ∧ t.toList = l ∧ Sorted cmp l ∧
      Balanced t (depth t) ∧ Nat.fib (depth t + 2) ≤ l.length + 1 := by
  obtain ⟨hv, hl, hc⟩ := run_valid cmp ops
  refine ⟨hc, hl, hl ▸ hv.sorted, hv.balanced, ?_⟩
  rw [← hl, ← count_eq]
  exact hv.balanced.fib_le

theorem tree_refines_ordered_list_numbers :
    let t := (Run.feed (step compare) .nil [.insert 3, .insert 2, .insert 1, .delete 2]).1
    t.toList = [1, 3] ∧ Nat.fib (depth t + 2) ≤ 3 :=
  have h := tree_refines_ordered_list (compare : Nat → Nat → Ordering) [.insert 3, .insert 2, .insert 1, .delete 2]
  ⟨h.2.1, h.2.2.2.2⟩

variable (cmp) in
/-- **Queries see the ordered list.** In every tree that calls can build: `find` gives the entry with the key,
`findGe` the least entry that is not below it, a walk calls back in key order, and `count` counts. -/
theorem queries_agree_with_ordered_list (ops : List (Op α)) (x : α) :
    let t := (Run.feed (step cmp) .nil ops).1
    let l := (Run.feed (specStep cmp) [] ops).1
    (∀ a, find cmp x t = some a ↔ a ∈ l ∧ cmp a x = .eq) ∧
    (∀ a, findGe cmp x t = some a ↔ a ∈ l ∧ cmp a x ≠ .lt ∧ ∀ c ∈ l, cmp c x ≠ .lt → c = a ∨ cmp a c = .lt) ∧
    (∀ (op : α → σ → Int × σ) s, walk op t s = Run.visit op l s) ∧ count t = l.length := by
  obtain ⟨hv, hl, -⟩ := run_valid cmp ops
  have hs := hv.sorted
  rw [hl] at hs
  refine ⟨fun a => ?_, fun a => ?_, fun op s => ?_, ?_⟩
  · rw [find_eq hv.sorted, hl]
    exact Ordered.find?_eq_some_iff hs
  · rw [findGe_eq hv.sorted, hl]
    exact Ordered.findGe?_eq_some_iff hs
  · rw [walk_eq, hl]
  · rw [count_eq, hl]

theorem queries_agree_with_ordered_list_numbers :
    findGe compare 2 (Run.feed (step compare) .nil [.insert 3, .insert 1, .insert 5, .delete 3]).1 = some 5 :=
  ((queries_agree_with_ordered_list (σ := Unit) (compare : Nat → Nat → Ordering)
    [.insert 3, .insert 1, .insert 5, .delete 3] 2).2.1 5).2 (by decide)

end

end HahaDog.Avl
