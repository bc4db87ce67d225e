import Mathlib
/-!
# Nested blocks in a sequence

A sequence in which some elements open a block of some kind and others close the innermost one. `nest`
keeps the stack of open blocks, `blocks` lists every block with what stands directly in it. The last
section says what happens when elements are replaced by sequences of other elements. The elements are
arbitrary; `shape` says which of them open and close.
-/

namespace Nest

variable {α β κ : Type*}

/-- What an element does to the nesting. -/
inductive Shape (κ : Type*) where
  | inner
  | opens (k : κ)
  | closes

section
variable (shape : α → Shape κ)

/-- The stack of open blocks after one element; `none` when there is nothing to close. -/
def push (stk : List κ) (x : α) : Option (List κ) :=
  match shape x, stk with
  | .inner, stk => some stk
  | .opens k, stk => some (k :: stk)
  | .closes, _ :: stk => some stk
  | .closes, [] => none

def nest (stk : List κ) (xs : List α) : Option (List κ) := xs.foldlM (push shape) stk

@[simp] theorem nest_nil (stk : List κ) : nest shape stk [] = some stk := rfl

theorem nest_cons (stk : List κ) (x : α) (xs : List α) :
    nest shape stk (x :: xs) = (push shape stk x).bind fun stk' => nest shape stk' xs := List.foldlM_cons

theorem nest_append (stk : List κ) (xs ys : List α) :
    nest shape stk (xs ++ ys) = (nest shape stk xs).bind fun stk' => nest shape stk' ys := List.foldlM_append

/-- Every closed block, in the order of closing, with its kind and the elements directly in it (a nested
block counts as the element that opens it). The stack holds the blocks that are still open. -/
def blocks : List (κ × List α) → List α → List (κ × List α)
  | _, [] => []
  | [], _ => []
  | (k, b) :: fs, x :: xs =>
    match shape x with
    | .inner => blocks ((k, b ++ [x]) :: fs) xs
    | .opens k' => blocks ((k', []) :: (k, b ++ [x]) :: fs) xs
    | .closes => (k, b) :: blocks fs xs

@[simp] theorem blocks_nil (fs : List (κ × List α)) : blocks shape fs [] = [] := by
  cases fs <;> rfl

@[simp] theorem blocks_no_frame (xs : List α) : blocks shape [] xs = [] := by
  cases xs <;> rfl

end

/-! ## Replacing elements -/

section
variable {shape : α → Shape κ} {shape' : β → Shape κ}

/-- A sequence that, put anywhere, leaves the nesting as it was: it adds `direct` to the block it
stands in, and closes the blocks `closed` of its own. -/
structure Balanced (shape' : β → Shape κ) (ys direct : List β) (closed : List (κ × List β)) : Prop where
  nest : ∀ stk, nest shape' stk ys = some stk
  blocks : ∀ k b fs rest, blocks shape' ((k, b) :: fs) (ys ++ rest) =
    closed ++ Nest.blocks shape' ((k, b ++ direct) :: fs) rest

theorem Balanced.nil : Balanced shape' [] [] [] := ⟨fun _ => rfl, fun k b fs rest => by simp⟩

theorem Balanced.inner {y : β} (hy : shape' y = .inner) : Balanced shape' [y] [y] [] := by
  refine ⟨fun stk => by simp [nest_cons, push, hy], fun k b fs rest => ?_⟩
  rw [List.singleton_append, Nest.blocks]
  simp [hy]

theorem Balanced.append {ys zs d e : List β} {c c' : List (κ × List β)} (hy : Balanced shape' ys d c)
    (hz : Balanced shape' zs e c') : Balanced shape' (ys ++ zs) (d ++ e) (c ++ c') := by
  refine ⟨fun stk => ?_, fun k b fs rest => ?_⟩
  · rw [nest_append, hy.nest]
    exact hz.nest stk
  · rw [List.append_assoc, hy.blocks, hz.blocks]
    simp only [List.append_assoc]

/-- A block around a balanced sequence. -/
theorem Balanced.block {x y : β} {k : κ} (hx : shape' x = .opens k) (hy : shape' y = .closes) {ys d : List β}
    {c : List (κ × List β)} (h : Balanced shape' ys d c) :
    Balanced shape' (x :: ys ++ [y]) [x] (c ++ [(k, d)]) := by
  refine ⟨fun stk => ?_, fun k' b fs rest => ?_⟩
  · have hopen : push shape' stk x = some (k :: stk) := by simp only [push, hx]
    rw [List.cons_append, nest_cons, hopen, Option.bind_some, nest_append, h.nest, Option.bind_some, nest_cons]
    simp only [push, hy, Option.bind_some, nest_nil]
  · rw [List.cons_append, List.cons_append, Nest.blocks, hx, List.append_assoc]
    simp only
    rw [h.blocks, List.singleton_append, Nest.blocks, hy]
    simp

/-- `ys` may stand for `x`: what opens or closes a block is replaced by one element of the same shape, any
other element by a balanced sequence. -/
inductive Replaced (shape : α → Shape κ) (shape' : β → Shape κ) (x : α) :
    List β → List β → List (κ × List β) → Prop
  | inner {ys direct closed} : shape x = .inner → Balanced shape' ys direct closed →
      Replaced shape shape' x ys direct closed
  | outer {y} : shape' y = shape x → shape x ≠ .inner → Replaced shape shape' x [y] [y] []

theorem Replaced.nest {x : α} {ys direct : List β} {closed : List (κ × List β)}
    (h : Replaced shape shape' x ys direct closed) (stk : List κ) : nest shape' stk ys = push shape stk x := by
  cases h with
  | inner hx hb =>
    rw [hb.nest]
    simp only [push, hx]
  | outer hs _ =>
    simp only [nest_cons, nest_nil, push, hs]
    exact Option.bind_fun_some _

variable {f : α → List β} {direct : α → List β} {closed : α → List (κ × List β)}

/-- The nesting is the same. -/
theorem nest_flatMap : ∀ {xs : List α}, (∀ x ∈ xs, Replaced shape shape' x (f x) (direct x) (closed x)) →
    ∀ stk, nest shape' stk (xs.flatMap f) = nest shape stk xs
  | [], _, _ => rfl
  | x :: xs, h, stk => by
    rw [List.flatMap_cons, nest_append, nest_cons, (h x (by simp)).nest]
    cases push shape stk x with
    | none => rfl
    | some stk' => exact nest_flatMap (fun y hy => h y (by simp [hy])) stk'

/-- A block with its elements replaced. -/
def mapBlock (direct : α → List β) (p : κ × List α) : κ × List β := (p.1, p.2.flatMap direct)

/-- One element closes at most the innermost block, and what replaces it closes the same one besides its own. -/
theorem Replaced.blocks {x : α} (h : Replaced shape shape' x (f x) (direct x) (closed x)) (k : κ) (c : List α)
    (fs : List (κ × List α)) : ∃ done fs', (∀ xs, blocks shape ((k, c) :: fs) (x :: xs) = done ++ blocks shape fs' xs) ∧
      ∀ rest, Nest.blocks shape' (((k, c) :: fs).map (mapBlock direct)) (f x ++ rest) =
        closed x ++ (done.map (mapBlock direct) ++ Nest.blocks shape' (fs'.map (mapBlock direct)) rest) := by
  generalize hf : f x = ys at h
  generalize hd : direct x = ds at h
  generalize hc : closed x = cs at h
  cases h with
  | inner hx hb =>
    refine ⟨[], (k, c ++ [x]) :: fs, fun xs => ?_, fun rest => ?_⟩
    · rw [Nest.blocks, hx]; rfl
    · rw [List.map_cons, mapBlock, hb.blocks]
      simp [mapBlock, hd]
  | @outer y hs hx =>
    cases hsx : shape x with
    | inner => exact absurd hsx hx
    | opens k' =>
      refine ⟨[], (k', []) :: (k, c ++ [x]) :: fs, fun xs => ?_, fun rest => ?_⟩
      · rw [Nest.blocks, hsx]; rfl
      · rw [List.map_cons, mapBlock, List.singleton_append, Nest.blocks, hs, hsx]
        simp [mapBlock, hd]
    | closes =>
      refine ⟨[(k, c)], fs, fun xs => ?_, fun rest => ?_⟩
      · rw [Nest.blocks, hsx]; rfl
      · rw [List.map_cons, mapBlock, List.singleton_append, Nest.blocks, hs, hsx]
        simp [mapBlock]

/-- Every block from before is there, with its elements replaced. -/
theorem mapBlock_mem_blocks : ∀ {xs : List α}, (∀ x ∈ xs, Replaced shape shape' x (f x) (direct x) (closed x)) →
    ∀ (fs : List (κ × List α)), ∀ p ∈ blocks shape fs xs,
      mapBlock direct p ∈ blocks shape' (fs.map (mapBlock direct)) (xs.flatMap f)
  | [], _, fs, p, hp => by simp at hp
  | x :: xs, _, [], p, hp => by simp at hp
  | x :: xs, h, (k, c) :: fs, p, hp => by
    obtain ⟨done, fs', hbefore, hafter⟩ := (h x (by simp)).blocks k c fs
    rw [hbefore] at hp
    rw [List.flatMap_cons, hafter]
    refine List.mem_append_right _ (List.mem_append.2 ?_)
    rcases List.mem_append.1 hp with hp | hp
    · exact .inl (List.mem_map_of_mem hp)
    · exact .inr (mapBlock_mem_blocks (fun y hy => h y (by simp [hy])) fs' p hp)

/-- **Every block after the replacement** is one the replaced elements bring, or a block from before with
its elements replaced. -/
theorem mem_blocks_flatMap : ∀ {xs : List α}, (∀ x ∈ xs, Replaced shape shape' x (f x) (direct x) (closed x)) →
    ∀ (fs : List (κ × List α)), ∀ b ∈ blocks shape' (fs.map (mapBlock direct)) (xs.flatMap f),
      (∃ x ∈ xs, b ∈ closed x) ∨ ∃ p ∈ blocks shape fs xs, b = mapBlock direct p
  | [], _, fs, b, hb => by simp at hb
  | x :: xs, _, [], b, hb => by simp at hb
  | x :: xs, h, (k, c) :: fs, b, hb => by
    obtain ⟨done, fs', hbefore, hafter⟩ := (h x (by simp)).blocks k c fs
    rw [List.flatMap_cons, hafter] at hb
    rw [hbefore]
    rcases List.mem_append.1 hb with hb | hb
    · exact .inl ⟨x, by simp, hb⟩
    rcases List.mem_append.1 hb with hb | hb
    · obtain ⟨p, hp, rfl⟩ := List.mem_map.1 hb
      exact .inr ⟨p, List.mem_append_left _ hp, rfl⟩
    · rcases mem_blocks_flatMap (fun y hy => h y (by simp [hy])) fs' b hb with ⟨y, hy, hb⟩ | ⟨p, hp, rfl⟩
      · exact .inl ⟨y, by simp [hy], hb⟩
      · exact .inr ⟨p, List.mem_append_right _ hp, rfl⟩

end

/-- What stands in a block comes from the sequence, or was there when it was still open. -/
theorem mem_of_mem_blocks {shape : α → Shape κ} : ∀ {xs : List α} {fs : List (κ × List α)} {p : κ × List α},
    p ∈ blocks shape fs xs → ∀ x ∈ p.2, x ∈ xs ∨ ∃ q ∈ fs, x ∈ q.2
  | [], fs, p, hp => by simp at hp
  | y :: ys, [], p, hp => by simp at hp
  | y :: ys, (k, c) :: fs, p, hp => by
    intro x hx
    rw [blocks] at hp
    cases hy : shape y with
    | inner =>
      rw [hy] at hp
      have := mem_of_mem_blocks hp x hx
      simp only [List.mem_cons, exists_eq_or_imp, List.mem_append, List.not_mem_nil, or_false] at this ⊢
      tauto
    | opens k' =>
      rw [hy] at hp
      have := mem_of_mem_blocks hp x hx
      simp only [List.mem_cons, exists_eq_or_imp, List.mem_append, List.not_mem_nil, or_false, false_or] at this ⊢
      tauto
    | closes =>
      rw [hy] at hp
      rcases List.mem_cons.1 hp with rfl | hp
      · exact .inr ⟨(k, c), by simp, hx⟩
      · have := mem_of_mem_blocks hp x hx
        simp only [List.mem_cons, exists_eq_or_imp] at this ⊢
        tauto

end Nest
