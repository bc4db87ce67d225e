import Mathlib

/-!
# The AVL tree (`common/avl_tree.c`)

The storage daemon keeps its free space in AVL trees. A node carries its balance, and the loops report
through `taller` and `shorter` whether the subtree they return has another height.

| here | `avl_tree.c` |
|---|---|
| `rotateLeft`, `rotateRight` | `avlRotateLeft`, `avlRotateRight` (66-78) |
| `leftBalanceWhenInsert`, `rightBalanceWhenInsert` | lines 80-156 |
| `putLoop` | `avl_tree_insert_loop` (158), `avl_tree_replace_loop` (238) |
| `find`, `findGe` | `avl_tree_find_loop` (324), `avl_tree_find_ge_loop` (359) |
| `leftBalanceWhenDelete`, `rightBalanceWhenDelete` | lines 427-507 |
| `deleteLast`, `deleteLoop` | `avl_tree_delete_loop` (509), with and without `pDeletedDataNode` |
| `walk`, `count`, `depth` | lines 652-759 |

`compare_func` is `cmp`; only the sign of its answer is used. Memory is not modelled: `createTreeNode` always
succeeds, and the data of a deleted node is dropped.
-/

namespace HahaDog.Avl

/-- The `balance` of a node, `-1`, `0` or `1` in the source: which subtree is the higher one. -/
inductive Balance
  | left
  | even
  | right
  deriving DecidableEq, Repr

/-- `AVLTreeNode`, with `nil` for `NULL`. -/
inductive TreeNode (α : Type*)
  | nil
  | node (left : TreeNode α) (data : α) (balance : Balance) (right : TreeNode α)
  deriving DecidableEq, Repr

variable {α σ : Type*}

namespace TreeNode

/-- The entries, from the smallest to the largest. -/
def toList : TreeNode α → List α
  | nil => []
  | node l a _ r => l.toList ++ a :: r.toList

@[simp] theorem toList_nil : (nil : TreeNode α).toList = [] := rfl

@[simp] theorem toList_node (l : TreeNode α) (a : α) (b : Balance) (r : TreeNode α) :
    (node l a b r).toList = l.toList ++ a :: r.toList := rfl

end TreeNode

open TreeNode

/-! ## Rotations -/

def rotateLeft : TreeNode α → TreeNode α
  | node l a b (node rl c d rr) => node (node l a b rl) c d rr
  | t => t

def rotateRight : TreeNode α → TreeNode α
  | node (node ll c d lr) a b r => node ll c d (node lr a b r)
  | t => t

/-- The balances of the two nodes that a double rotation leaves below the one it raises, by the balance the
raised one had. -/
def raised : Balance → Balance × Balance
  | .left => (.even, .right)
  | .even => (.even, .even)
  | .right => (.left, .even)

/-- The double rotation of `avlLeftBalanceWhenInsert` and `avlLeftBalanceWhenDelete`. -/
def raiseLeftRight (ll : TreeNode α) (la : α) (m : TreeNode α) (c : α) (b : Balance) (n : TreeNode α) (a : α) (r : TreeNode α) :
    TreeNode α :=
  rotateRight (node (rotateLeft (node ll la (raised b).1 (node m c .even n))) a (raised b).2 r)

/-- The double rotation of `avlRightBalanceWhenInsert` and `avlRightBalanceWhenDelete`. -/
def raiseRightLeft (l : TreeNode α) (a : α) (m : TreeNode α) (c : α) (b : Balance) (n : TreeNode α) (ra : α) (rr : TreeNode α) :
    TreeNode α :=
  rotateLeft (node l a (raised b).1 (rotateRight (node (node m c .even n) ra (raised b).2 rr)))

/-! ## Insertion -/

/-- The new tree and `taller`. In the last case the source does nothing, or reads through `NULL`. -/
def leftBalanceWhenInsert : TreeNode α → TreeNode α × Bool
  | node (node ll la .left lr) a _ r => (rotateRight (node (node ll la .even lr) a .even r), false)
  | node (node ll la .right (node m c b n)) a _ r => (raiseLeftRight ll la m c b n a r, false)
  | t => (t, true)

def rightBalanceWhenInsert : TreeNode α → TreeNode α × Bool
  | node l a _ (node rl ra .right rr) => (rotateLeft (node l a .even (node rl ra .even rr)), false)
  | node l a _ (node (node m c b n) ra .left rr) => (raiseRightLeft l a m c b n ra rr, false)
  | t => (t, true)

/-- The switch after the left subtree became taller. -/
def leftGrown (l : TreeNode α) (a : α) (b : Balance) (r : TreeNode α) : TreeNode α × Bool :=
  match b with
  | .left => leftBalanceWhenInsert (node l a .left r)
  | .even => (node l a .left r, true)
  | .right => (node l a .even r, false)

/-- The switch after the right subtree became taller. -/
def rightGrown (l : TreeNode α) (a : α) (b : Balance) (r : TreeNode α) : TreeNode α × Bool :=
  match b with
  | .left => (node l a .even r, false)
  | .even => (node l a .right r, true)
  | .right => rightBalanceWhenInsert (node l a .right r)

/-- Both loops that put `x` into the tree: the tree, `success` and `taller`. They differ in what the data of a
node with the same key becomes. -/
def putLoop (cmp : α → α → Ordering) (x : α) (old : α → α) : TreeNode α → TreeNode α × Bool × Bool
  | nil => (node nil x .even nil, true, true)
  | node l a b r =>
    match cmp a x with
    | .gt =>
      let (l', success, taller) := putLoop cmp x old l
      let (t, taller) := if taller then leftGrown l' a b r else (node l' a b r, false)
      (t, success, taller)
    | .lt =>
      let (r', success, taller) := putLoop cmp x old r
      let (t, taller) := if taller then rightGrown l a b r' else (node l a b r', false)
      (t, success, taller)
    | .eq => (node l (old a) b r, false, false)

/-- `avl_tree_insert`: the tree, and whether `x` was added. -/
def insert (cmp : α → α → Ordering) (x : α) (t : TreeNode α) : TreeNode α × Bool :=
  ((putLoop cmp x id t).1, (putLoop cmp x id t).2.1)

/-- `avl_tree_replace`. -/
def replace (cmp : α → α → Ordering) (x : α) (t : TreeNode α) : TreeNode α × Bool :=
  ((putLoop cmp x (fun _ => x) t).1, (putLoop cmp x (fun _ => x) t).2.1)

/-! ## Search -/

/-- `avl_tree_find`. -/
def find (cmp : α → α → Ordering) (x : α) : TreeNode α → Option α
  | nil => none
  | node l a _ r =>
    match cmp a x with
    | .gt => find cmp x l
    | .lt => find cmp x r
    | .eq => some a

/-- `avl_tree_find_ge`. -/
def findGe (cmp : α → α → Ordering) (x : α) : TreeNode α → Option α
  | nil => none
  | node l a _ r =>
    match cmp a x with
    | .gt => some ((findGe cmp x l).getD a)
    | .lt => findGe cmp x r
    | .eq => some a

/-- What a caller does to the data that `avl_tree_find` returned: a change in place. -/
def modify (cmp : α → α → Ordering) (x : α) (g : α → α) : TreeNode α → TreeNode α
  | nil => nil
  | node l a b r =>
    match cmp a x with
    | .gt => node (modify cmp x g l) a b r
    | .lt => node l a b (modify cmp x g r)
    | .eq => node l (g a) b r

/-! ## Deletion -/

/-- The new tree and `shorter`. -/
def leftBalanceWhenDelete : TreeNode α → TreeNode α × Bool
  | node (node ll la .left lr) a _ r => (rotateRight (node (node ll la .even lr) a .even r), true)
  | node (node ll la .even lr) a b r => (rotateRight (node (node ll la .right lr) a b r), false)
  | node (node ll la .right (node m c b n)) a _ r => (raiseLeftRight ll la m c b n a r, true)
  | t => (t, true)

def rightBalanceWhenDelete : TreeNode α → TreeNode α × Bool
  | node l a _ (node rl ra .right rr) => (rotateLeft (node l a .even (node rl ra .even rr)), true)
  | node l a b (node rl ra .even rr) => (rotateLeft (node l a b (node rl ra .left rr)), false)
  | node l a _ (node (node m c b n) ra .left rr) => (raiseRightLeft l a m c b n ra rr, true)
  | t => (t, true)

/-- The switch after the left subtree became shorter. -/
def leftShrunk (l : TreeNode α) (a : α) (b : Balance) (r : TreeNode α) : TreeNode α × Bool :=
  match b with
  | .left => (node l a .even r, true)
  | .even => (node l a .right r, false)
  | .right => rightBalanceWhenDelete (node l a .right r)

/-- The switch after the right subtree became shorter. -/
def rightShrunk (l : TreeNode α) (a : α) (b : Balance) (r : TreeNode α) : TreeNode α × Bool :=
  match b with
  | .left => leftBalanceWhenDelete (node l a .left r)
  | .even => (node l a .left r, false)
  | .right => (node l a .even r, true)

/-- `avl_tree_delete_loop` with `pDeletedDataNode`: take the last node out and hand its data to the node that
is to be deleted. -/
def deleteLast (l : TreeNode α) (a : α) (b : Balance) : TreeNode α → α × TreeNode α × Bool
  | nil => (a, l, true)
  | node rl ra rb rr =>
    let (d, r', shorter) := deleteLast rl ra rb rr
    (d, if shorter then rightShrunk l a b r' else (node l a b r', false))

/-- `avl_tree_delete_loop`: the tree, the result and `shorter`. -/
def deleteLoop (cmp : α → α → Ordering) (x : α) : TreeNode α → TreeNode α × Bool × Bool
  | nil => (nil, false, false)
  | node l a b r =>
    match cmp a x with
    | .gt =>
      let (l', result, shorter) := deleteLoop cmp x l
      let (t, shorter) := if shorter then leftShrunk l' a b r else (node l' a b r, false)
      (t, result, shorter)
    | .lt =>
      let (r', result, shorter) := deleteLoop cmp x r
      let (t, shorter) := if shorter then rightShrunk l a b r' else (node l a b r', false)
      (t, result, shorter)
    | .eq =>
      match l, r with
      | nil, r => (r, true, true)
      | l, nil => (l, true, true)
      | node ll la lb lr, r =>
        -- the data of the last node on the left takes the place of the deleted one
        let (d, l', shorter) := deleteLast ll la lb lr
        let (t, shorter) := if shorter then leftShrunk l' d b r else (node l' d b r, false)
        (t, true, shorter)

/-- `avl_tree_delete`. -/
def delete (cmp : α → α → Ordering) (x : α) (t : TreeNode α) : TreeNode α × Bool :=
  ((deleteLoop cmp x t).1, (deleteLoop cmp x t).2.1)

/-! ## Walks -/

/-- `avl_tree_walk`: `op` is called on every entry until one call does not return `0`. -/
def walk (op : α → σ → Int × σ) : TreeNode α → σ → Int × σ
  | nil, s => (0, s)
  | node l a _ r, s =>
    let (result, s) := walk op l s
    if result ≠ 0 then (result, s)
    else
      let (result, s) := op a s
      if result ≠ 0 then (result, s) else walk op r s

/-- `avl_tree_count`. -/
def count : TreeNode α → Nat
  | nil => 0
  | node l _ _ r => count l + 1 + count r

/-- `avl_tree_depth`: down the higher side. -/
def depth : TreeNode α → Nat
  | nil => 0
  | node l _ b r => (if b = .left then depth l else depth r) + 1

/-! ## Balance -/

/-- Every node's `balance` tells the heights of its subtrees apart; the index is the height. -/
inductive Balanced : TreeNode α → Nat → Prop
  | nil : Balanced nil 0
  | left {l r : TreeNode α} {a : α} {h : Nat} :
      Balanced l (h + 1) → Balanced r h → Balanced (node l a .left r) (h + 2)
  | even {l r : TreeNode α} {a : α} {h : Nat} :
      Balanced l h → Balanced r h → Balanced (node l a .even r) (h + 1)
  | right {l r : TreeNode α} {a : α} {h : Nat} :
      Balanced l h → Balanced r (h + 1) → Balanced (node l a .right r) (h + 2)

variable {l l' r r' m n t : TreeNode α} {a c x : α} {b : Balance} {h k : Nat}

theorem Balanced.depth_eq (hb : Balanced t h) : depth t = h := by
  induction hb with
  | nil => rfl
  | left _ _ ihl _ => simp [depth, ihl]
  | even _ _ _ ihr => simp [depth, ihr]
  | right _ _ _ ihr => simp [depth, ihr]

theorem Balanced.unique (hb : Balanced t h) (hb' : Balanced t k) : h = k :=
  hb.depth_eq.symm.trans hb'.depth_eq

theorem Balanced.children (hb : Balanced (node l a b r) h) : (∃ k, Balanced l k) ∧ ∃ k, Balanced r k := by
  cases hb with
  | left hl hr => exact ⟨⟨_, hl⟩, _, hr⟩
  | even hl hr => exact ⟨⟨_, hl⟩, _, hr⟩
  | right hl hr => exact ⟨⟨_, hl⟩, _, hr⟩

/-- A subtree may be exchanged for one of the same height, and the data for any other. -/
theorem Balanced.with_left (hb : Balanced (node l a b r) h) (hl : Balanced l k) (hl' : Balanced l' k) :
    Balanced (node l' c b r) h := by
  cases hb with
  | left hl₀ hr => exact .left (hl.unique hl₀ ▸ hl') hr
  | even hl₀ hr => exact .even (hl.unique hl₀ ▸ hl') hr
  | right hl₀ hr => exact .right (hl.unique hl₀ ▸ hl') hr

theorem Balanced.with_right (hb : Balanced (node l a b r) h) (hr : Balanced r k) (hr' : Balanced r' k) :
    Balanced (node l c b r') h := by
  cases hb with
  | left hl hr₀ => exact .left hl (hr.unique hr₀ ▸ hr')
  | even hl hr₀ => exact .even hl (hr.unique hr₀ ▸ hr')
  | right hl hr₀ => exact .right hl (hr.unique hr₀ ▸ hr')

/-- A node without one subtree is one higher than its other subtree. -/
theorem Balanced.of_nil_left (hb : Balanced (node .nil a b r) h) : ∃ j, Balanced r j ∧ j + 1 = h := by
  cases hb with
  | left hl hr => nomatch hl
  | even hl hr => cases hl; exact ⟨_, hr, rfl⟩
  | right hl hr => cases hl; exact ⟨_, hr, rfl⟩

theorem Balanced.of_nil_right (hb : Balanced (node l a b .nil) h) : ∃ j, Balanced l j ∧ j + 1 = h := by
  cases hb with
  | left hl hr => cases hr; exact ⟨_, hl, rfl⟩
  | even hl hr => cases hr; exact ⟨_, hl, rfl⟩
  | right hl hr => nomatch hr

theorem raiseLeftRight_balanced {ll : TreeNode α} {la : α} (hll : Balanced ll k)
    (hm : Balanced (node m c b n) (k + 1)) (hr : Balanced r k) :
    Balanced (raiseLeftRight ll la m c b n a r) (k + 2) := by
  cases hm with
  | left hm hn => exact .even (.even hll hm) (.right hn hr)
  | even hm hn => exact .even (.even hll hm) (.even hn hr)
  | right hm hn => exact .even (.left hll hm) (.even hn hr)

theorem raiseRightLeft_balanced {rr : TreeNode α} {ra : α} (hl : Balanced l k)
    (hm : Balanced (node m c b n) (k + 1)) (hrr : Balanced rr k) :
    Balanced (raiseRightLeft l a m c b n ra rr) (k + 2) := by
  cases hm with
  | left hm hn => exact .even (.even hl hm) (.right hn hrr)
  | even hm hn => exact .even (.even hl hm) (.even hn hrr)
  | right hm hn => exact .even (.left hl hm) (.even hn hrr)

/-- One subtree is higher than the other. A tree that grew leans to a side, unless it was empty. -/
def Leaning : TreeNode α → Prop
  | node _ _ .even _ => False
  | _ => True

theorem leftBalanceWhenInsert_balanced (hl : Balanced l (k + 2)) (hlean : Leaning l) (hr : Balanced r k) :
    Balanced (leftBalanceWhenInsert (node l a .left r)).1 (k + 2) ∧
      (leftBalanceWhenInsert (node l a .left r)).2 = false := by
  cases hl with
  | left hll hlr => exact ⟨.even hll (.even hlr hr), rfl⟩
  | even => exact hlean.elim
  | @right _ lr _ _ hll hlr =>
    cases lr with
    | nil => nomatch hlr
    | node m c b n => exact ⟨raiseLeftRight_balanced hll hlr hr, rfl⟩

theorem rightBalanceWhenInsert_balanced (hl : Balanced l k) (hr : Balanced r (k + 2)) (hlean : Leaning r) :
    Balanced (rightBalanceWhenInsert (node l a .right r)).1 (k + 2) ∧
      (rightBalanceWhenInsert (node l a .right r)).2 = false := by
  cases hr with
  | @left rl _ _ _ hrl hrr =>
    cases rl with
    | nil => nomatch hrl
    | node m c b n => exact ⟨raiseRightLeft_balanced hl hrl hrr, rfl⟩
  | even => exact hlean.elim
  | right hrl hrr => exact ⟨.even (.even hl hrl) hrr, rfl⟩

/-- The left subtree `l` became the taller `l'`: the node is repaired, and `taller` tells its new height. -/
theorem leftGrown_balanced (hb : Balanced (node l a b r) h) (hl : Balanced l k) (hl' : Balanced l' (k + 1))
    (hlean : k = 0 ∨ Leaning l') :
    Balanced (leftGrown l' a b r).1 (h + (leftGrown l' a b r).2.toNat) ∧
      ((leftGrown l' a b r).2 = true → Leaning (leftGrown l' a b r).1) := by
  cases hb with
  | left hl₀ hr =>
    obtain rfl := hl.unique hl₀
    obtain ⟨hbal, htaller⟩ := leftBalanceWhenInsert_balanced (a := a) hl' (hlean.resolve_left (by omega)) hr
    simp [leftGrown, htaller, hbal]
  | even hl₀ hr =>
    obtain rfl := hl.unique hl₀
    exact ⟨.left hl' hr, fun _ => trivial⟩
  | right hl₀ hr =>
    obtain rfl := hl.unique hl₀
    exact ⟨.even hl' hr, nofun⟩

theorem rightGrown_balanced (hb : Balanced (node l a b r) h) (hr : Balanced r k) (hr' : Balanced r' (k + 1))
    (hlean : k = 0 ∨ Leaning r') :
    Balanced (rightGrown l a b r').1 (h + (rightGrown l a b r').2.toNat) ∧
      ((rightGrown l a b r').2 = true → Leaning (rightGrown l a b r').1) := by
  cases hb with
  | left hl hr₀ =>
    obtain rfl := hr.unique hr₀
    exact ⟨.even hl hr', nofun⟩
  | even hl hr₀ =>
    obtain rfl := hr.unique hr₀
    exact ⟨.right hl hr', fun _ => trivial⟩
  | right hl hr₀ =>
    obtain rfl := hr.unique hr₀
    obtain ⟨hbal, htaller⟩ := rightBalanceWhenInsert_balanced (a := a) hl hr' (hlean.resolve_left (by omega))
    simp [rightGrown, htaller, hbal]

/-- **Insertion keeps the balance**, and `taller` is exactly by how much the tree grew. -/
theorem putLoop_balanced (cmp : α → α → Ordering) (x : α) (old : α → α) (hb : Balanced t h) :
    Balanced (putLoop cmp x old t).1 (h + (putLoop cmp x old t).2.2.toNat) ∧
      ((putLoop cmp x old t).2.2 = true → h = 0 ∨ Leaning (putLoop cmp x old t).1) := by
  induction t generalizing h with
  | nil =>
    cases hb
    exact ⟨.even .nil .nil, fun _ => .inl rfl⟩
  | node l a b r ihl ihr =>
    obtain ⟨⟨k, hl⟩, ⟨j, hr⟩⟩ := hb.children
    cases hc : cmp a x with
    | lt =>
      obtain ⟨hbal, hlean⟩ := ihr hr
      cases htaller : (putLoop cmp x old r).2.2 with
      | true =>
        simp only [htaller, Bool.toNat_true, forall_const] at hbal hlean
        obtain ⟨hbal', hlean'⟩ := rightGrown_balanced hb hr hbal hlean
        simpa [putLoop, hc, htaller] using ⟨hbal', fun ht => .inr (hlean' ht)⟩
      | false =>
        simp only [htaller, Bool.toNat_false, Nat.add_zero] at hbal
        simpa [putLoop, hc, htaller] using hb.with_right hr hbal
    | eq => simpa [putLoop, hc] using hb.with_left hl hl
    | gt =>
      obtain ⟨hbal, hlean⟩ := ihl hl
      cases htaller : (putLoop cmp x old l).2.2 with
      | true =>
        simp only [htaller, Bool.toNat_true, forall_const] at hbal hlean
        obtain ⟨hbal', hlean'⟩ := leftGrown_balanced hb hl hbal hlean
        simpa [putLoop, hc, htaller] using ⟨hbal', fun ht => .inr (hlean' ht)⟩
      | false =>
        simp only [htaller, Bool.toNat_false, Nat.add_zero] at hbal
        simpa [putLoop, hc, htaller] using hb.with_left hl hbal

theorem leftBalanceWhenDelete_balanced (hl : Balanced l (k + 2)) (hr : Balanced r k) :
    ∃ j, Balanced (leftBalanceWhenDelete (node l a .left r)).1 j ∧
      j + (leftBalanceWhenDelete (node l a .left r)).2.toNat = k + 3 := by
  cases hl with
  | left hll hlr => exact ⟨_, .even hll (.even hlr hr), rfl⟩
  | even hll hlr => exact ⟨_, .right hll (.left hlr hr), rfl⟩
  | @right _ lr _ _ hll hlr =>
    cases lr with
    | nil => nomatch hlr
    | node m c b n => exact ⟨_, raiseLeftRight_balanced hll hlr hr, rfl⟩

theorem rightBalanceWhenDelete_balanced (hl : Balanced l k) (hr : Balanced r (k + 2)) :
    ∃ j, Balanced (rightBalanceWhenDelete (node l a .right r)).1 j ∧
      j + (rightBalanceWhenDelete (node l a .right r)).2.toNat = k + 3 := by
  cases hr with
  | @left rl _ _ _ hrl hrr =>
    cases rl with
    | nil => nomatch hrl
    | node m c b n => exact ⟨_, raiseRightLeft_balanced hl hrl hrr, rfl⟩
  | even hrl hrr => exact ⟨_, .left (.right hl hrl) hrr, rfl⟩
  | right hrl hrr => exact ⟨_, .even (.even hl hrl) hrr, rfl⟩

/-- The left subtree `l` became the shorter `l'`: the node is repaired, and `shorter` tells its new height. -/
theorem leftShrunk_balanced (hb : Balanced (node l a b r) h) (hl : Balanced l (k + 1)) (hl' : Balanced l' k) :
    ∃ j, Balanced (leftShrunk l' c b r).1 j ∧ j + (leftShrunk l' c b r).2.toNat = h := by
  cases hb with
  | left hl₀ hr =>
    obtain rfl := Nat.succ_injective (hl.unique hl₀)
    exact ⟨_, .even hl' hr, rfl⟩
  | even hl₀ hr =>
    obtain rfl := hl.unique hl₀
    exact ⟨_, .right hl' hr, rfl⟩
  | right hl₀ hr =>
    obtain rfl := hl.unique hl₀
    exact rightBalanceWhenDelete_balanced hl' hr

theorem rightShrunk_balanced (hb : Balanced (node l a b r) h) (hr : Balanced r (k + 1)) (hr' : Balanced r' k) :
    ∃ j, Balanced (rightShrunk l c b r').1 j ∧ j + (rightShrunk l c b r').2.toNat = h := by
  cases hb with
  | left hl hr₀ =>
    obtain rfl := hr.unique hr₀
    exact leftBalanceWhenDelete_balanced hl hr'
  | even hl hr₀ =>
    obtain rfl := hr.unique hr₀
    exact ⟨_, .left hl hr', rfl⟩
  | right hl hr₀ =>
    obtain rfl := Nat.succ_injective (hr.unique hr₀)
    exact ⟨_, .even hl hr', rfl⟩

theorem deleteLast_balanced (hb : Balanced (node l a b r) h) :
    ∃ j, Balanced (deleteLast l a b r).2.1 j ∧ j + (deleteLast l a b r).2.2.toNat = h := by
  induction r generalizing l a b h with
  | nil => exact hb.of_nil_right
  | node rl ra rb rr _ ih =>
    obtain ⟨-, j, hr⟩ := hb.children
    obtain ⟨i, hbal, hi⟩ := ih hr
    cases hshorter : (deleteLast rl ra rb rr).2.2 with
    | true =>
      simp only [hshorter, Bool.toNat_true] at hi
      subst hi
      simpa [deleteLast, hshorter] using rightShrunk_balanced hb hr hbal
    | false =>
      simp only [hshorter, Bool.toNat_false, Nat.add_zero] at hi
      subst hi
      exact ⟨h, by simpa [deleteLast, hshorter] using hb.with_right hr hbal⟩

/-- **Deletion keeps the balance**, and `shorter` is exactly by how much the tree shrank. -/
theorem deleteLoop_balanced (cmp : α → α → Ordering) (x : α) (hb : Balanced t h) :
    ∃ j, Balanced (deleteLoop cmp x t).1 j ∧ j + (deleteLoop cmp x t).2.2.toNat = h := by
  induction t generalizing h with
  | nil => exact ⟨h, hb, rfl⟩
  | node l a b r ihl ihr =>
    obtain ⟨⟨k, hl⟩, ⟨j, hr⟩⟩ := hb.children
    cases hc : cmp a x with
    | lt =>
      obtain ⟨i, hbal, hi⟩ := ihr hr
      cases hshorter : (deleteLoop cmp x r).2.2 with
      | true =>
        simp only [hshorter, Bool.toNat_true] at hi
        subst hi
        simpa [deleteLoop, hc, hshorter] using rightShrunk_balanced hb hr hbal
      | false =>
        simp only [hshorter, Bool.toNat_false, Nat.add_zero] at hi
        subst hi
        exact ⟨h, by simpa [deleteLoop, hc, hshorter] using hb.with_right hr hbal⟩
    | gt =>
      obtain ⟨i, hbal, hi⟩ := ihl hl
      cases hshorter : (deleteLoop cmp x l).2.2 with
      | true =>
        simp only [hshorter, Bool.toNat_true] at hi
        subst hi
        simpa [deleteLoop, hc, hshorter] using leftShrunk_balanced hb hl hbal
      | false =>
        simp only [hshorter, Bool.toNat_false, Nat.add_zero] at hi
        subst hi
        exact ⟨h, by simpa [deleteLoop, hc, hshorter] using hb.with_left hl hbal⟩
    | eq =>
      cases l with
      | nil => simpa [deleteLoop, hc] using hb.of_nil_left
      | node ll la lb lr =>
        cases r with
        | nil => simpa [deleteLoop, hc] using hb.of_nil_right
        | node rl ra rb rr =>
          obtain ⟨i, hbal, hi⟩ := deleteLast_balanced hl
          cases hshorter : (deleteLast ll la lb lr).2.2 with
          | true =>
            simp only [hshorter, Bool.toNat_true] at hi
            subst hi
            simpa [deleteLoop, hc, hshorter] using leftShrunk_balanced hb hl hbal
          | false =>
            simp only [hshorter, Bool.toNat_false, Nat.add_zero] at hi
            subst hi
            exact ⟨h, by simpa [deleteLoop, hc, hshorter] using hb.with_left hl hbal⟩

end HahaDog.Avl
