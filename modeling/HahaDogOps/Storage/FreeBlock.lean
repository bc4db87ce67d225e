import HahaDogOps.Lib.Bisect
import HahaDogOps.Storage.AvlContents

/-!
# The free block checker (`storage/trunk_mgr/trunk_free_block_checker.c`)

For every trunk file the checker holds the free blocks of the file in an array sorted by offset; the arrays
are found through an AVL tree by trunk file. It is asked before a block is added to the free space.

| here | source |
|---|---|
| `Block`, `PathInfo` | `FDFSTrunkFullInfo` without its `status`, `FDFSTrunkPathInfo` (`trunk_shared.h:80-97`) |
| `FileIdentifier`, `BlockArray`, `TrunksById` | `trunk_free_block_checker.h:29-43` |
| `nodeCompareEntry` | `storage_trunk_node_compare_entry` (35) |
| `freeBlockCheckDuplicate` | `trunk_free_block_check_duplicate` (90) |
| `freeBlockDoInsert`, `freeBlockInsert` | `trunk_free_block_do_insert` (228), `trunk_free_block_insert` (310) |
| `freeBlockDelete` | `trunk_free_block_delete` (351) |

The C searches keep `right` inclusive; here `hi = right + 1`. Memory is never short.
-/

namespace HahaDog.Trunk

open Avl Bisect

/-- The error codes of the trunk functions. -/
inductive Errno
  | eexist
  | enoent
  | einval
  | eio
  | eisdir
  | enospc
  deriving DecidableEq, Repr

structure PathInfo where
  storePathIndex : Nat
  subPathHigh : Nat
  subPathLow : Nat
  deriving DecidableEq, Repr

/-- A piece of a trunk file. -/
structure Block where
  path : PathInfo
  id : Nat
  offset : Nat
  size : Nat
  deriving DecidableEq, Repr

structure FileIdentifier where
  path : PathInfo
  id : Nat
  deriving DecidableEq, Repr

/-- `FILL_FILE_IDENTIFIER`. -/
def Block.file (b : Block) : FileIdentifier := ⟨b.path, b.id⟩

/-- `end_offset`. -/
def Block.stop (b : Block) : Nat := b.offset + b.size

structure BlockArray where
  alloc : Nat
  blocks : List Block

structure TrunksById where
  trunkFileId : FileIdentifier
  blockArray : BlockArray

/-- The bytes that `memcmp` sees: the path, one byte of padding, and the `int` with its low byte first. -/
def FileIdentifier.bytes (f : FileIdentifier) : List Nat :=
  [f.path.storePathIndex, f.path.subPathHigh, f.path.subPathLow, 0,
    f.id % 256, f.id / 256 % 256, f.id / 65536 % 256, f.id / 16777216]

def nodeCompareEntry : TrunksById → TrunksById → Ordering := compareOn fun e => e.trunkFileId.bytes

/-- The entry that is looked for: only its key counts. -/
def target (b : Block) : TrunksById := ⟨b.file, ⟨0, []⟩⟩

/-! ## The functions -/

/-- One turn of the search in `trunk_free_block_check_duplicate`, `.eq` for `EEXIST`. -/
def overlapProbe (b c : Block) : Ordering :=
  if b.offset < c.offset then
    if c.offset < b.stop then .eq else .gt
  else if b.offset = c.offset then .eq
  else if b.offset < c.stop then .eq else .lt

/-- The part of `trunk_free_block_check_duplicate` behind the look-up. -/
def checkBlocks (b : Block) (blocks : List Block) : Except Errno Unit :=
  match blocks.head?, blocks.getLast? with
  | some first, some last =>
    if b.stop ≤ first.offset then .ok ()
    else if last.stop ≤ b.offset then .ok ()
    else if (bisect (overlapProbe b) blocks blocks.length 0 blocks.length 0).1 then .error .eexist
    else .ok ()
  | _, _ => .ok ()

def freeBlockCheckDuplicate (b : Block) (t : TreeNode TrunksById) : Except Errno Unit :=
  match find nodeCompareEntry (target b) t with
  | none => .ok ()
  | some e => checkBlocks b e.blockArray.blocks

/-- `TRUNK_FREE_BLOCK_ARRAY_INIT_SIZE`. -/
def arrayInitSize : Nat := 32

def byOffset : Block → Block → Ordering := compareOn (·.offset)

/-- Where `trunk_free_block_do_insert` puts the block, `none` when there is one with its offset. -/
def insertBlocks (b : Block) (blocks : List Block) : Option (List Block) :=
  match blocks.head?, blocks.getLast? with
  | some first, some last =>
    if b.offset < first.offset then some (b :: blocks)
    else if last.offset < b.offset then some (blocks ++ [b])
    else
      let (found, mid) := bisect (byOffset · b) blocks blocks.length 0 blocks.length 0
      if found then none
      else
        match blocks[mid]? with
        | none => none
        | some c =>
          let pos := if b.offset < c.offset then mid else mid + 1
          some (blocks.take pos ++ b :: blocks.drop pos)
  | _, _ => some [b]

def freeBlockDoInsert (b : Block) (a : BlockArray) : BlockArray × Except Errno Unit :=
  -- `trunk_free_block_realloc`, also when the block turns out to be there
  let alloc := if a.alloc ≤ a.blocks.length then (if a.alloc = 0 then arrayInitSize else 2 * a.alloc) else a.alloc
  match insertBlocks b a.blocks with
  | some blocks => (⟨alloc, blocks⟩, .ok ())
  | none => (⟨alloc, a.blocks⟩, .error .eexist)

def freeBlockInsert (b : Block) (t : TreeNode TrunksById) : TreeNode TrunksById × Except Errno Unit :=
  let t := match find nodeCompareEntry (target b) t with
    | some _ => t
    | none => (insert nodeCompareEntry (target b) t).1
  match find nodeCompareEntry (target b) t with
  | none => (t, .error .eio)
  | some e =>
    let (a, result) := freeBlockDoInsert b e.blockArray
    (modify nodeCompareEntry (target b) (fun e => { e with blockArray := a }) t, result)

def freeBlockDelete (b : Block) (t : TreeNode TrunksById) : TreeNode TrunksById × Except Errno Unit :=
  match find nodeCompareEntry (target b) t with
  | none => (t, .error .enoent)
  | some e =>
    let blocks := e.blockArray.blocks
    let (found, mid) := bisect (byOffset · b) blocks blocks.length 0 blocks.length 0
    if !found then (t, .error .enoent)
    else
      let blocks := blocks.eraseIdx mid
      if blocks = [] then
        let (t, deleted) := delete nodeCompareEntry e t
        if deleted then (t, .ok ())
        else (modify nodeCompareEntry e (fun e => { e with blockArray := ⟨0, []⟩ }) t, .error .enoent)
      else
        let alloc := e.blockArray.alloc
        let alloc := if blocks.length < alloc / 2 ∧ arrayInitSize / 2 < blocks.length then alloc / 2 else alloc
        (modify nodeCompareEntry e (fun e => { e with blockArray := ⟨alloc, blocks⟩ }) t, .ok ())

/-! ## Keys -/

instance : Std.TransCmp nodeCompareEntry := inferInstanceAs (Std.TransCmp (compareOn _))

instance : Std.TransCmp byOffset := inferInstanceAs (Std.TransCmp (compareOn _))

theorem bytes_injective : Function.Injective FileIdentifier.bytes := by
  rintro ⟨⟨i, h, l⟩, n⟩ ⟨⟨i', h', l'⟩, n'⟩ hb
  simp only [FileIdentifier.bytes, List.cons.injEq, and_true] at hb
  obtain ⟨rfl, rfl, rfl, -, h0, h1, h2, h3⟩ := hb
  obtain rfl : n = n' := by omega
  rfl

theorem nodeCompareEntry_eq_iff {e e' : TrunksById} :
    nodeCompareEntry e e' = .eq ↔ e.trunkFileId = e'.trunkFileId := by
  rw [nodeCompareEntry, compareOn, Std.LawfulEqCmp.compare_eq_iff_eq]
  exact bytes_injective.eq_iff

theorem byOffset_lt {b c : Block} : byOffset b c = .lt ↔ b.offset < c.offset := Nat.compare_eq_lt

theorem byOffset_eq {b c : Block} : byOffset b c = .eq ↔ b.offset = c.offset := Nat.compare_eq_eq

theorem byOffset_gt {b c : Block} : byOffset b c = .gt ↔ c.offset < b.offset := Nat.compare_eq_gt

/-! ## The array of one file -/

/-- The blocks `b` and `c` of one file have a byte in common. -/
def Meets (b c : Block) : Prop := c.offset < b.stop ∧ b.offset < c.stop

instance : DecidableRel Meets := fun _ _ => inferInstanceAs (Decidable (_ ∧ _))

/-- The blocks of one file as the checker keeps them: none empty, one after the other. -/
structure Apart (blocks : List Block) : Prop where
  pos : ∀ c ∈ blocks, 0 < c.size
  pairwise : blocks.Pairwise fun c d => c.stop ≤ d.offset

theorem Apart.sorted {blocks : List Block} (h : Apart blocks) : Ordered.Sorted byOffset blocks := by
  refine List.Pairwise.imp_of_mem ?_ h.pairwise
  intro c d hc _ hcd
  have := h.pos c hc
  rw [byOffset_lt]
  simp only [Block.stop] at hcd
  omega

theorem overlapProbe_eq_iff {b c : Block} (hb : 0 < b.size) (hc : 0 < c.size) :
    overlapProbe b c = .eq ↔ Meets b c := by
  unfold overlapProbe Meets Block.stop
  split_ifs <;> simp <;> omega

theorem Apart.rising {blocks : List Block} (h : Apart blocks) (b : Block) : Rising (overlapProbe b) blocks := by
  refine List.Pairwise.imp_of_mem ?_ h.pairwise
  intro c d hc hd hcd
  have hc := h.pos c hc
  have hd := h.pos d hd
  unfold overlapProbe Block.stop at *
  constructor
  · intro hp
    split_ifs at hp ⊢ <;> first | rfl | omega
  · intro hp
    split_ifs at hp ⊢ <;> first | rfl | omega

/-- **The search for an overlap is complete**: with its two shortcuts it finds a common byte iff there is one. -/
theorem checkBlocks_eq {b : Block} {blocks : List Block} (h : Apart blocks) (hb : 0 < b.size) :
    checkBlocks b blocks = if ∃ c ∈ blocks, Meets b c then .error .eexist else .ok () := by
  cases hblocks : blocks with
  | nil => simp [checkBlocks]
  | cons first rest =>
    rw [← hblocks]
    have hne : blocks ≠ [] := by simp [hblocks]
    have hfirst : blocks.head? = some first := by simp [hblocks]
    obtain ⟨init, last, hinit⟩ : ∃ init last, blocks = init ++ [last] :=
      ⟨_, _, (List.dropLast_append_getLast hne).symm⟩
    have hlast : blocks.getLast? = some last := by simp [hinit]
    have hbefore : ∀ c ∈ blocks, first.offset ≤ c.offset := by
      have hp := h.pairwise
      rw [hblocks, List.pairwise_cons] at hp
      intro c hc
      rw [hblocks, List.mem_cons] at hc
      rcases hc with rfl | hc
      · exact le_rfl
      · have := hp.1 c hc
        simp only [Block.stop] at this
        omega
    have hafter : ∀ c ∈ blocks, c.stop ≤ last.stop := by
      have hp := h.pairwise
      rw [hinit, List.pairwise_append] at hp
      intro c hc
      rw [hinit, List.mem_append, List.mem_singleton] at hc
      rcases hc with hc | rfl
      · have := hp.2.2 c hc last (by simp)
        simp only [Block.stop] at this ⊢
        omega
      · exact le_rfl
    simp only [checkBlocks, hfirst, hlast]
    by_cases h₁ : b.stop ≤ first.offset
    · have hno : ¬ ∃ c ∈ blocks, Meets b c := by
        rintro ⟨c, hc, hm, -⟩
        have := hbefore c hc
        omega
      rw [if_pos h₁, if_neg hno]
    by_cases h₂ : last.stop ≤ b.offset
    · have hno : ¬ ∃ c ∈ blocks, Meets b c := by
        rintro ⟨c, hc, -, hm⟩
        have := hafter c hc
        omega
      rw [if_neg h₁, if_pos h₂, if_neg hno]
    have hlen : 0 < blocks.length := List.length_pos_iff.2 hne
    obtain ⟨hhit, hmiss⟩ := bisect_all (h.rising b) hlen
    rw [if_neg h₁, if_neg h₂]
    cases hr : (bisect (overlapProbe b) blocks blocks.length 0 blocks.length 0).1 with
    | true =>
      obtain ⟨c, hget, hc⟩ := hhit hr
      have hmem := List.mem_of_getElem? hget
      rw [if_pos rfl, if_pos ⟨c, hmem, (overlapProbe_eq_iff hb (h.pos c hmem)).1 hc⟩]
    | false =>
      obtain ⟨pos, hbt, -⟩ := hmiss hr
      have hno : ¬ ∃ c ∈ blocks, Meets b c := by
        rintro ⟨c, hc, hm⟩
        rw [← overlapProbe_eq_iff hb (h.pos c hc)] at hm
        rw [← List.take_append_drop pos blocks, List.mem_append] at hc
        rcases hc with hc | hc
        · simp [hbt.below c hc] at hm
        · simp [hbt.above c hc] at hm
      rw [if_neg (by simp), if_neg hno]

/-- The three ways `trunk_free_block_do_insert` finds the place lead to the same one. -/
theorem insertBlocks_eq {b : Block} {blocks : List Block} (hs : Ordered.Sorted byOffset blocks) :
    insertBlocks b blocks =
      if (Ordered.find? byOffset b blocks).isSome then none else some (Ordered.insert byOffset b blocks) := by
  cases hblocks : blocks with
  | nil => simp [insertBlocks, Ordered.find?, Ordered.insert, Ordered.edit]
  | cons first rest =>
    rw [← hblocks]
    have hne : blocks ≠ [] := by simp [hblocks]
    have hfirst : blocks.head? = some first := by simp [hblocks]
    obtain ⟨init, last, hinit⟩ : ∃ init last, blocks = init ++ [last] :=
      ⟨_, _, (List.dropLast_append_getLast hne).symm⟩
    have hlast : blocks.getLast? = some last := by simp [hinit]
    simp only [insertBlocks, hfirst, hlast]
    by_cases h₁ : b.offset < first.offset
    · have hgt : byOffset first b = .gt := byOffset_gt.2 h₁
      have hrest := (List.pairwise_cons.1 (hblocks ▸ hs)).1
      have hnone : Ordered.find? byOffset b blocks = none := by
        rw [hblocks]
        simpa [Ordered.find?] using Ordered.find?_append_gt hrest hgt []
      rw [if_pos h₁, hnone, hblocks]
      simp [Ordered.insert, Ordered.edit, hgt]
    by_cases h₂ : last.offset < b.offset
    · have hlt : ∀ c ∈ blocks, byOffset c b = .lt := by
        have hp := hs
        rw [hinit, Ordered.sorted_node] at hp
        intro c hc
        rw [hinit, List.mem_append, List.mem_singleton] at hc
        rcases hc with hc | rfl
        · exact Std.TransCmp.lt_trans (hp.2.2.1 c hc) (byOffset_lt.2 h₂)
        · exact byOffset_lt.2 h₂
      have hfind : Ordered.find? byOffset b blocks = none := by
        have := Ordered.find?_append_lt hlt []
        simpa [Ordered.find?] using this
      have hins : Ordered.insert byOffset b blocks = blocks ++ [b] := by
        have := Ordered.edit_append_lt (f := fun o => [o.getD b]) hlt []
        simpa [Ordered.insert, Ordered.edit] using this
      rw [if_neg h₁, if_pos h₂, hfind, hins]
      rfl
    rw [if_neg h₁, if_neg h₂]
    cases hr : (bisect (byOffset · b) blocks blocks.length 0 blocks.length 0).1 with
    | true =>
      obtain ⟨⟨c, hc⟩, -⟩ := bisect_hit hs hr
      simp [hc]
    | false =>
      obtain ⟨hnone, c, hget, hne', hins⟩ := bisect_miss hs hne hr
      have hpos : (if b.offset < c.offset then (bisect (byOffset · b) blocks blocks.length 0 blocks.length 0).2
          else (bisect (byOffset · b) blocks blocks.length 0 blocks.length 0).2 + 1) =
          (bisect (byOffset · b) blocks blocks.length 0 blocks.length 0).2 +
            if byOffset c b = .gt then 0 else 1 := by
        simp only [byOffset_gt]
        split_ifs <;> rfl
      simp [hget, hnone, hins _ hpos]

/-! ## All files -/

/-- Two blocks have a byte in common. -/
def Overlap (b c : Block) : Prop := c.file = b.file ∧ Meets b c

instance : DecidableRel Overlap := fun _ _ => inferInstanceAs (Decidable (_ ∧ _))

theorem Overlap.symm {b c : Block} (h : Overlap b c) : Overlap c b := ⟨h.1.symm, h.2.2, h.2.1⟩

/-- One entry of the tree: the blocks belong to its file, and the array has room for them. -/
structure EntryOk (e : TrunksById) : Prop where
  nonempty : e.blockArray.blocks ≠ []
  file : ∀ b ∈ e.blockArray.blocks, b.file = e.trunkFileId
  apart : Apart e.blockArray.blocks
  room : e.blockArray.blocks.length ≤ e.blockArray.alloc

/-- The state of the checker between two calls. -/
structure CheckerOk (t : TreeNode TrunksById) : Prop where
  valid : Valid nodeCompareEntry t
  entries : ∀ e ∈ t.toList, EntryOk e

/-- All blocks the checker knows. -/
def held (t : TreeNode TrunksById) : List Block := t.toList.flatMap (·.blockArray.blocks)

/-- The blocks of the file of `b`. -/
def blocksAt (b : Block) (t : TreeNode TrunksById) : List Block :=
  ((Ordered.find? nodeCompareEntry (target b) t.toList).map (·.blockArray.blocks)).getD []

section
variable {t : TreeNode TrunksById} {b c : Block}

theorem checkerOk_nil : CheckerOk .nil := ⟨Valid.nil, by simp⟩

theorem CheckerOk.found (ht : CheckerOk t) {e : TrunksById}
    (he : Ordered.find? nodeCompareEntry (target b) t.toList = some e) : EntryOk e ∧ e.trunkFileId = b.file := by
  obtain ⟨hmem, hkey⟩ := Ordered.eq_of_find? he
  exact ⟨ht.entries e hmem, nodeCompareEntry_eq_iff.1 hkey⟩

/-- The known blocks of a file are in the array that is found for it. -/
theorem mem_blocksAt (ht : CheckerOk t) : c ∈ blocksAt b t ↔ c ∈ held t ∧ c.file = b.file := by
  simp only [blocksAt, held, List.mem_flatMap]
  constructor
  · intro hc
    cases hf : Ordered.find? nodeCompareEntry (target b) t.toList with
    | none => simp [hf] at hc
    | some e =>
      obtain ⟨hok, hfile⟩ := ht.found hf
      simp only [hf, Option.map_some, Option.getD_some] at hc
      exact ⟨⟨e, (Ordered.eq_of_find? hf).1, hc⟩, (hok.file c hc).trans hfile⟩
  · rintro ⟨⟨e, he, hc⟩, hfile⟩
    have hkey : nodeCompareEntry e (target b) = .eq :=
      nodeCompareEntry_eq_iff.2 (((ht.entries e he).file c hc).symm.trans hfile)
    rw [(Ordered.find?_eq_some_iff ht.valid.sorted).2 ⟨he, hkey⟩]
    exact hc

theorem CheckerOk.apart (ht : CheckerOk t) : Apart (blocksAt b t) := by
  unfold blocksAt
  cases hf : Ordered.find? nodeCompareEntry (target b) t.toList with
  | none => exact ⟨by simp, by simp⟩
  | some e => exact (ht.found hf).1.apart

/-- No two known blocks have a byte in common. -/
theorem CheckerOk.pairwise (ht : CheckerOk t) : (held t).Pairwise fun b c => ¬ Overlap b c := by
  rw [held, List.pairwise_flatMap]
  constructor
  · intro e he
    refine (ht.entries e he).apart.pairwise.imp ?_
    intro b c hbc ho
    have := ho.2.1
    omega
  · refine List.Pairwise.imp_of_mem ?_ ht.valid.sorted
    intro e e' he he' hlt b hb c hc ho
    have hfile : e.trunkFileId = e'.trunkFileId :=
      ((ht.entries e he).file b hb).symm.trans (ho.1.symm.trans ((ht.entries e' he').file c hc))
    rw [nodeCompareEntry_eq_iff.2 hfile] at hlt
    cases hlt

theorem CheckerOk.size_pos (ht : CheckerOk t) (hb : b ∈ held t) : 0 < b.size := by
  obtain ⟨e, he, hb⟩ := List.mem_flatMap.1 hb
  exact (ht.entries e he).apart.pos b hb

theorem overlap_self (hb : 0 < b.size) : Overlap b b := by
  refine ⟨rfl, ?_⟩
  simp only [Meets, Block.stop]
  omega

theorem CheckerOk.nodup (ht : CheckerOk t) : (held t).Nodup := by
  refine List.Pairwise.imp_of_mem ?_ ht.pairwise
  rintro b c hb - hno rfl
  exact hno (overlap_self (ht.size_pos hb))

/-- **The duplicate check**: `EEXIST` exactly for a block that has a byte in common with a known one. -/
theorem freeBlockCheckDuplicate_eq (ht : CheckerOk t) (hb : 0 < b.size) : freeBlockCheckDuplicate b t =
    if ∃ c ∈ held t, Overlap b c then .error .eexist else .ok () := by
  have hiff : (∃ c ∈ held t, Overlap b c) ↔ ∃ c ∈ blocksAt b t, Meets b c := by
    simp only [mem_blocksAt ht, Overlap, and_assoc]
  have hcheck := checkBlocks_eq (ht.apart (b := b)) hb
  simp only [← hiff] at hcheck
  rw [← hcheck, freeBlockCheckDuplicate, find_eq ht.valid.sorted, blocksAt]
  cases Ordered.find? nodeCompareEntry (target b) t.toList <;> rfl

/-- What one entry contributes is apart from what the others do. -/
def elsewhere (b : Block) (t : TreeNode TrunksById) : List Block :=
  (Ordered.erase nodeCompareEntry (target b) t.toList).flatMap (·.blockArray.blocks)

theorem held_perm (ht : CheckerOk t) : (held t).Perm (blocksAt b t ++ elsewhere b t) :=
  Ordered.flatMap_perm ht.valid.sorted _ _

/-- A change of one entry, seen from outside. -/
theorem checkerOk_edit {t' : TreeNode TrunksById} {f : Option TrunksById → List TrunksById} (ht : CheckerOk t)
    (hv : Valid nodeCompareEntry t') (hl : t'.toList = Ordered.edit nodeCompareEntry (target b) f t.toList)
    (hnew : ∀ e ∈ f (Ordered.find? nodeCompareEntry (target b) t.toList), EntryOk e) :
    CheckerOk t' ∧ (held t').Perm
      ((f (Ordered.find? nodeCompareEntry (target b) t.toList)).flatMap (·.blockArray.blocks) ++ elsewhere b t) := by
  refine ⟨⟨hv, fun e he => ?_⟩, ?_⟩
  · rw [hl, Ordered.mem_edit ht.valid.sorted] at he
    rcases he with he | ⟨he, -⟩
    · exact hnew e he
    · exact ht.entries e he
  · rw [held, hl]
    exact Ordered.flatMap_edit_perm ht.valid.sorted _

/-! ## Adding a block -/

/-- The entry after `trunk_free_block_do_insert`. -/
def withBlock (b : Block) (o : Option TrunksById) : TrunksById :=
  { o.getD (target b) with blockArray := (freeBlockDoInsert b (o.getD (target b)).blockArray).1 }

theorem toList_freeBlockInsert (hv : Valid nodeCompareEntry t) : Valid nodeCompareEntry (freeBlockInsert b t).1 ∧
    (freeBlockInsert b t).1.toList = Ordered.edit nodeCompareEntry (target b) (fun o => [withBlock b o]) t.toList ∧
    (freeBlockInsert b t).2 = (freeBlockDoInsert b
      ((Ordered.find? nodeCompareEntry (target b) t.toList).getD (target b)).blockArray).2 := by
  have hkeep : ∀ (a : BlockArray) (e : TrunksById), nodeCompareEntry e (target b) = .eq →
      nodeCompareEntry { e with blockArray := a } (target b) = .eq := by
    intro a e he
    exact nodeCompareEntry_eq_iff.2 (nodeCompareEntry_eq_iff.1 he)
  cases hf : Ordered.find? nodeCompareEntry (target b) t.toList with
  | some e =>
    have hfind : find nodeCompareEntry (target b) t = some e := (find_eq hv.sorted).trans hf
    simp only [freeBlockInsert, hfind]
    refine ⟨hv.modify (hkeep _), ?_, rfl⟩
    rw [toList_modify hv.sorted]
    refine Ordered.edit_congr hv.sorted ?_
    simp [hf, withBlock]
  | none =>
    have hfind : find nodeCompareEntry (target b) t = none := (find_eq hv.sorted).trans hf
    have hv' : Valid nodeCompareEntry (insert nodeCompareEntry (target b) t).1 := hv.insert
    have hl := (toList_insert (x := target b) hv).1
    have hfind' : find nodeCompareEntry (target b) (insert nodeCompareEntry (target b) t).1 = some (target b) := by
      rw [find_eq hv'.sorted, hl, Ordered.insert, Ordered.find?_edit Ordered.fits_insert hv.sorted, hf]
      rfl
    simp only [freeBlockInsert, hfind, hfind']
    refine ⟨hv'.modify (hkeep _), ?_, rfl⟩
    rw [toList_modify hv'.sorted, hl, Ordered.modify, Ordered.insert,
      Ordered.edit_edit Ordered.fits_insert hv.sorted]
    refine Ordered.edit_congr hv.sorted ?_
    simp [hf, withBlock]

theorem Apart.not_meets {blocks : List Block} (h : Apart blocks) (hb : b ∈ blocks) (hc : c ∈ blocks) (hne : b ≠ c) :
    ¬ Meets b c := by
  have hp : blocks.Pairwise fun c d => ¬ Meets c d := by
    refine h.pairwise.imp ?_
    intro c d hcd hm
    exact absurd hm.1 (by omega)
  have : Std.Symm fun c d : Block => ¬ Meets c d := ⟨fun c d hcd hm => hcd ⟨hm.2, hm.1⟩⟩
  exact hp.forall hb hc hne

theorem apart_of_sorted {blocks : List Block} (hs : Ordered.Sorted byOffset blocks) (hpos : ∀ c ∈ blocks, 0 < c.size)
    (hm : ∀ c ∈ blocks, ∀ d ∈ blocks, c ≠ d → ¬ Meets c d) : Apart blocks := by
  refine ⟨hpos, List.Pairwise.imp_of_mem ?_ hs⟩
  intro c d hc hd hcd
  rw [byOffset_lt] at hcd
  have hne : c ≠ d := by
    rintro rfl
    omega
  have := hm c hc d hd hne
  have := hpos d hd
  simp only [Meets, Block.stop] at *
  omega

theorem apart_insert {blocks : List Block} (h : Apart blocks) (hb : 0 < b.size) (hm : ∀ c ∈ blocks, ¬ Meets b c) :
    Apart (Ordered.insert byOffset b blocks) ∧ (Ordered.insert byOffset b blocks).Perm (b :: blocks) ∧
      Ordered.find? byOffset b blocks = none := by
  have hnone : Ordered.find? byOffset b blocks = none := by
    rw [Ordered.find?, List.find?_eq_none]
    intro c hc hcb
    have hoff : c.offset = b.offset := byOffset_eq.1 (by simpa using hcb)
    have := h.pos c hc
    refine hm c hc ?_
    simp only [Meets, Block.stop]
    omega
  have hperm : (Ordered.insert byOffset b blocks).Perm (b :: blocks) := by
    have h₁ := Ordered.edit_perm (f := fun o => [o.getD b]) (x := b) h.sorted
    have h₂ := Ordered.perm_find?_erase h.sorted b
    rw [hnone] at h₁ h₂
    exact h₁.trans (h₂.symm.cons b)
  refine ⟨apart_of_sorted (Ordered.sorted_edit Ordered.fits_insert h.sorted) ?_ ?_, hperm, hnone⟩
  · intro c hc
    rcases List.mem_cons.1 (hperm.mem_iff.1 hc) with rfl | hc
    · exact hb
    · exact h.pos c hc
  · intro c hc d hd hne
    rw [hperm.mem_iff, List.mem_cons] at hc hd
    rcases hc with rfl | hc
    · rcases hd with rfl | hd
      · exact absurd rfl hne
      · exact hm d hd
    · rcases hd with rfl | hd
      · exact fun hcd => hm c hc ⟨hcd.2, hcd.1⟩
      · exact h.not_meets hc hd hne

/-- **Adding a block that overlaps no known one** always succeeds, and the checker then knows it. -/
theorem freeBlockInsert_spec (ht : CheckerOk t) (hb : 0 < b.size) (hfree : ∀ c ∈ held t, ¬ Overlap b c) :
    (freeBlockInsert b t).2 = .ok () ∧ CheckerOk (freeBlockInsert b t).1 ∧
      (held (freeBlockInsert b t).1).Perm (b :: held t) := by
  obtain ⟨hv, hl, hres⟩ := toList_freeBlockInsert (b := b) ht.valid
  have hm : ∀ c ∈ blocksAt b t, ¬ Meets b c := by
    intro c hc hm
    obtain ⟨hc, hfile⟩ := (mem_blocksAt ht).1 hc
    exact hfree c hc ⟨hfile, hm⟩
  obtain ⟨hap, hperm, hnone⟩ := apart_insert ht.apart hb hm
  obtain ⟨o, ho⟩ : ∃ o, Ordered.find? nodeCompareEntry (target b) t.toList = o := ⟨_, rfl⟩
  have hblocks : (o.getD (target b)).blockArray.blocks = blocksAt b t := by
    rw [blocksAt, ho]
    cases o <;> rfl
  have hfile : (o.getD (target b)).trunkFileId = b.file := by
    cases o with
    | none => rfl
    | some e => exact (ht.found ho).2
  have hins : insertBlocks b (o.getD (target b)).blockArray.blocks =
      some (Ordered.insert byOffset b (blocksAt b t)) := by
    rw [hblocks, insertBlocks_eq ht.apart.sorted, hnone]
    rfl
  have hnew : (withBlock b o).blockArray.blocks = Ordered.insert byOffset b (blocksAt b t) := by
    simp only [withBlock, freeBlockDoInsert, hins]
  have hroom : (blocksAt b t).length ≤ (o.getD (target b)).blockArray.alloc := by
    rw [← hblocks]
    cases o with
    | none => simp [target]
    | some e => exact (ht.found ho).1.room
  have hok : EntryOk (withBlock b o) := by
    refine ⟨?_, ?_, hnew ▸ hap, ?_⟩
    · rw [hnew]
      exact List.ne_nil_of_mem (hperm.mem_iff.2 List.mem_cons_self)
    · intro c hc
      rw [hnew, hperm.mem_iff, List.mem_cons] at hc
      rcases hc with rfl | hc
      · exact hfile.symm
      · exact ((mem_blocksAt ht).1 hc).2.trans hfile.symm
    · rw [hnew, hperm.length_eq, List.length_cons]
      simp only [withBlock, freeBlockDoInsert, hins, arrayInitSize]
      rw [hblocks]
      split_ifs <;> omega
  obtain ⟨hok', hheld⟩ := checkerOk_edit ht hv hl (by simpa [ho] using hok)
  refine ⟨?_, hok', ?_⟩
  · rw [hres, ho]
    simp only [freeBlockDoInsert, hins]
  · rw [ho] at hheld
    refine hheld.trans ?_
    rw [List.flatMap_singleton, hnew]
    exact (hperm.append_right _).trans ((held_perm ht).symm.cons b)

/-! ## Deleting a block -/

/-- The offset is all that `trunk_free_block_delete` compares inside a file. -/
def SamePlace (b c : Block) : Prop := c.file = b.file ∧ c.offset = b.offset

theorem freeBlockDelete_absent (ht : CheckerOk t) (hno : ∀ c ∈ held t, ¬ SamePlace b c) :
    freeBlockDelete b t = (t, .error .enoent) := by
  cases hf : Ordered.find? nodeCompareEntry (target b) t.toList with
  | none =>
    have hfind : find nodeCompareEntry (target b) t = none := (find_eq ht.valid.sorted).trans hf
    simp only [freeBlockDelete, hfind]
  | some e =>
    have hfind : find nodeCompareEntry (target b) t = some e := (find_eq ht.valid.sorted).trans hf
    have hblocks : e.blockArray.blocks = blocksAt b t := by simp [blocksAt, hf]
    have hmiss : (bisect (byOffset · b) e.blockArray.blocks e.blockArray.blocks.length 0
        e.blockArray.blocks.length 0).1 = false := by
      by_contra hhit
      rw [Bool.not_eq_false, hblocks] at hhit
      obtain ⟨⟨c, hc⟩, -⟩ := bisect_hit ht.apart.sorted hhit
      obtain ⟨hmem, hoff⟩ := Ordered.eq_of_find? hc
      obtain ⟨hheld, hfile⟩ := (mem_blocksAt ht).1 hmem
      exact hno c hheld ⟨hfile, byOffset_eq.1 hoff⟩
    simp [freeBlockDelete, hfind, hmiss]

/-- A file whose blocks are `blocks` afterwards, or no longer there when that is none. -/
theorem entryOk_erase {e : TrunksById} {blocks : List Block} {alloc : Nat} (he : EntryOk e)
    (hsub : blocks.Sublist e.blockArray.blocks) (hne : blocks ≠ []) (hroom : blocks.length ≤ alloc) :
    EntryOk { e with blockArray := ⟨alloc, blocks⟩ } :=
  ⟨hne, fun b hb => he.file b (hsub.subset hb),
    ⟨fun b hb => he.apart.pos b (hsub.subset hb), he.apart.pairwise.sublist hsub⟩, hroom⟩

/-- **Deleting a known block** succeeds, and the checker knows all the others afterwards. -/
theorem freeBlockDelete_spec (ht : CheckerOk t) (hc : c ∈ held t) (hsame : SamePlace b c) :
    (freeBlockDelete b t).2 = .ok () ∧ CheckerOk (freeBlockDelete b t).1 ∧
      (held t).Perm (c :: held (freeBlockDelete b t).1) := by
  have hat : c ∈ blocksAt b t := (mem_blocksAt ht).2 ⟨hc, hsame.1⟩
  obtain ⟨e, hf⟩ : ∃ e, Ordered.find? nodeCompareEntry (target b) t.toList = some e := by
    cases hf : Ordered.find? nodeCompareEntry (target b) t.toList with
    | none => simp [blocksAt, hf] at hat
    | some e => exact ⟨e, rfl⟩
  have hfind : find nodeCompareEntry (target b) t = some e := (find_eq ht.valid.sorted).trans hf
  have hblocks : e.blockArray.blocks = blocksAt b t := by simp [blocksAt, hf]
  obtain ⟨hok, hfile⟩ := ht.found hf
  have hkey : nodeCompareEntry e (target b) = .eq := (Ordered.eq_of_find? hf).2
  have hs : Ordered.Sorted byOffset e.blockArray.blocks := hok.apart.sorted
  have hfc : Ordered.find? byOffset b e.blockArray.blocks = some c :=
    (Ordered.find?_eq_some_iff hs).2 ⟨hblocks ▸ hat, byOffset_eq.2 hsame.2⟩
  obtain ⟨r, hr⟩ : ∃ r, r = bisect (byOffset · b) e.blockArray.blocks e.blockArray.blocks.length 0
    e.blockArray.blocks.length 0 := ⟨_, rfl⟩
  have hhit : r.1 = true := by
    by_contra hmiss
    rw [Bool.not_eq_true, hr] at hmiss
    rw [(bisect_miss hs hok.nonempty hmiss).1] at hfc
    cases hfc
  have herase : e.blockArray.blocks.eraseIdx r.2 = Ordered.erase byOffset b e.blockArray.blocks := by
    rw [hr] at hhit ⊢
    exact (bisect_hit hs hhit).2
  have hperm : (blocksAt b t).Perm (c :: e.blockArray.blocks.eraseIdx r.2) := by
    have := Ordered.perm_find?_erase hs b
    rw [hfc] at this
    rw [← hblocks, herase]
    exact this
  have hheld : (held t).Perm (c :: (e.blockArray.blocks.eraseIdx r.2 ++ elsewhere b t)) :=
    (held_perm ht).trans (hperm.append_right _)
  have hsub : (e.blockArray.blocks.eraseIdx r.2).Sublist e.blockArray.blocks := List.eraseIdx_sublist ..
  by_cases hempty : e.blockArray.blocks.eraseIdx r.2 = []
  · -- the last block of the file: the entry goes too
    have hdel := toList_delete (x := e) ht.valid
    rw [Ordered.find?_key_congr hkey, hf, Ordered.erase, Ordered.edit_key_congr hkey] at hdel
    obtain ⟨hl, hdeleted⟩ := hdel
    have hstep : freeBlockDelete b t = ((delete nodeCompareEntry e t).1, .ok ()) := by
      simp [freeBlockDelete, hfind, ← hr, hhit, hempty, hdeleted]
    rw [hstep]
    obtain ⟨hok', hheld'⟩ := checkerOk_edit ht ht.valid.delete hl (by simp)
    refine ⟨rfl, hok', hheld.trans (List.Perm.cons c ?_)⟩
    rw [hempty]
    exact hheld'.symm
  · obtain ⟨alloc, halloc⟩ : ∃ alloc, alloc = if (e.blockArray.blocks.eraseIdx r.2).length < e.blockArray.alloc / 2 ∧
        arrayInitSize / 2 < (e.blockArray.blocks.eraseIdx r.2).length then e.blockArray.alloc / 2
        else e.blockArray.alloc := ⟨_, rfl⟩
    have hstep : freeBlockDelete b t = (modify nodeCompareEntry e
        (fun e' => { e' with blockArray := ⟨alloc, e.blockArray.blocks.eraseIdx r.2⟩ }) t, .ok ()) := by
      simp [freeBlockDelete, hfind, ← hr, hhit, hempty, ← halloc]
    have hroom : (e.blockArray.blocks.eraseIdx r.2).length ≤ alloc := by
      have := hsub.length_le
      have := hok.room
      split_ifs at halloc <;> omega
    have hv : Valid nodeCompareEntry (modify nodeCompareEntry e
        (fun e' => { e' with blockArray := ⟨alloc, e.blockArray.blocks.eraseIdx r.2⟩ }) t) :=
      ht.valid.modify fun a ha => nodeCompareEntry_eq_iff.2 (nodeCompareEntry_eq_iff.1 ha)
    have hl := toList_modify (x := e)
      (g := fun e' => { e' with blockArray := ⟨alloc, e.blockArray.blocks.eraseIdx r.2⟩ }) ht.valid.sorted
    rw [Ordered.modify, Ordered.edit_key_congr hkey] at hl
    rw [hstep]
    obtain ⟨hok', hheld'⟩ := checkerOk_edit ht hv hl (by
      rw [hf]
      simpa using entryOk_erase hok hsub hempty hroom)
    refine ⟨rfl, hok', hheld.trans (List.Perm.cons c ?_)⟩
    rw [hf] at hheld'
    simpa using hheld'.symm

end

/-! ## Whole runs -/

instance : DecidableRel SamePlace := fun _ _ => inferInstanceAs (Decidable (_ ∧ _))

/-- How `trunk_mem.c` uses the checker: a block is looked up before it is added. -/
inductive CheckerOp
  | add (b : Block)
  | delete (b : Block)

def checkerStep (t : TreeNode TrunksById) : CheckerOp → TreeNode TrunksById × List (Except Errno Unit)
  | .add b =>
    match freeBlockCheckDuplicate b t with
    | .error e => (t, [.error e])
    | .ok () => ((freeBlockInsert b t).1, [(freeBlockInsert b t).2])
  | .delete b => ((freeBlockDelete b t).1, [(freeBlockDelete b t).2])

/-- What the checker is for: some blocks, no two of which overlap. -/
def blocksStep (l : List Block) : CheckerOp → List Block × List (Except Errno Unit)
  | .add b => if ∃ c ∈ l, Overlap b c then (l, [.error .eexist]) else (b :: l, [.ok ()])
  | .delete b =>
    if ∃ c ∈ l, SamePlace b c then (l.filter fun c => ¬ SamePlace b c, [.ok ()]) else (l, [.error .enoent])

/-- An added block is not empty. -/
def CheckerOp.Sized : CheckerOp → Prop
  | .add b => 0 < b.size
  | .delete _ => True

theorem overlap_of_samePlace {b d : Block} (h : SamePlace b d) (hb : 0 < b.size) (hd : 0 < d.size) : Overlap b d := by
  refine ⟨h.1, ?_⟩
  have := h.2
  simp only [Meets, Block.stop]
  omega

section
variable {t : TreeNode TrunksById} {l : List Block}

theorem checkerStep_refines (ht : CheckerOk t) (hl : (held t).Perm l) {op : CheckerOp} (hop : op.Sized) :
    (CheckerOk (checkerStep t op).1 ∧ (held (checkerStep t op).1).Perm (blocksStep l op).1) ∧
      (checkerStep t op).2 = (blocksStep l op).2 := by
  cases op with
  | add b =>
    have hcheck := freeBlockCheckDuplicate_eq ht hop
    have hiff : (∃ c ∈ held t, Overlap b c) ↔ ∃ c ∈ l, Overlap b c := by simp only [hl.mem_iff]
    by_cases ho : ∃ c ∈ held t, Overlap b c
    · rw [if_pos ho] at hcheck
      simp only [checkerStep, blocksStep, hcheck, if_pos (hiff.1 ho)]
      exact ⟨⟨ht, hl⟩, trivial⟩
    · rw [if_neg ho] at hcheck
      obtain ⟨hres, hok, hperm⟩ := freeBlockInsert_spec ht hop (by simpa using ho)
      simp only [checkerStep, blocksStep, hcheck, if_neg (mt hiff.2 ho), hres]
      exact ⟨⟨hok, hperm.trans (hl.cons b)⟩, trivial⟩
  | delete b =>
    have hiff : (∃ c ∈ held t, SamePlace b c) ↔ ∃ c ∈ l, SamePlace b c := by simp only [hl.mem_iff]
    by_cases ho : ∃ c ∈ held t, SamePlace b c
    · obtain ⟨c, hc, hsame⟩ := ho
      obtain ⟨hres, hok, hperm⟩ := freeBlockDelete_spec ht hc hsame
      simp only [checkerStep, blocksStep, if_pos (hiff.1 ⟨c, hc, hsame⟩), hres]
      refine ⟨⟨hok, ?_⟩, trivial⟩
      -- no other block is at that place
      have hothers : ∀ d ∈ held (freeBlockDelete b t).1, ¬ SamePlace b d := by
        intro d hd hsame'
        have hpair := (hperm.pairwise_iff fun h h' => h h'.symm).1 ht.pairwise
        have hcd : SamePlace c d := ⟨hsame'.1.trans hsame.1.symm, hsame'.2.trans hsame.2.symm⟩
        have hd' : d ∈ held t := hperm.mem_iff.2 (List.mem_cons_of_mem _ hd)
        exact (List.pairwise_cons.1 hpair).1 d hd (overlap_of_samePlace hcd (ht.size_pos hc) (ht.size_pos hd'))
      have hfilter := (hperm.symm.trans hl).filter fun c => ¬ SamePlace b c
      rw [List.filter_cons_of_neg (by simpa using hsame), List.filter_eq_self.2 (by simpa using hothers)] at hfilter
      exact hfilter
    · simp only [checkerStep, blocksStep, if_neg (mt hiff.2 ho), freeBlockDelete_absent ht (by simpa using ho)]
      exact ⟨⟨ht, hl⟩, trivial⟩

end

end HahaDog.Trunk
