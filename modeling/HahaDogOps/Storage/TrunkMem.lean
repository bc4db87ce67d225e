import HahaDogOps.Storage.FreeBlock

/-!
# The trunk allocator (`storage/trunk_mgr/trunk_mem.c`)

Small files are packed into trunk files. The trunk server hands out space in them: free blocks are kept, for each
store path, in an AVL tree of slots by size, and all of them once more in the free block checker. Every change is
written to the trunk binlog.

| here | `trunk_mem.c` |
|---|---|
| `memBinlogWrite` | `trunk_mem_binlog_write` (83) |
| `nodeCompareSize` | `storage_trunk_node_compare_size` (100) |
| `trunkFreeSpace` | `trunk_free_space` (1051) |
| `addFreeBlock` | `trunk_add_free_block` (1104) |
| `removeNode` | `trunk_delete_size_tree_entry` (1189) and the unlinking in its two callers |
| `deleteSpace` | `trunk_delete_space` (1205), up to the binlog |
| `restoreNode` | `trunk_restore_node` (1282) |
| `findFree`, `allocTake` | the locked part of `trunk_alloc_space` (1436) |
| `createTrunkFile`, `nextFileId` | `trunk_create_trunk_file` (1379), `trunk_create_next_file` (1562) |

A function that takes `trunk_mem_lock` once is one definition here; where the source lets go of the lock in the
middle of a call, the call is cut there and put together again in `TrunkRuns`. What the outside world answers (the
binlog file, a new trunk file) comes in as an argument. The sizes are those of existing files and fit an `int`.
-/

namespace HahaDog.Trunk

open Avl

/-- `FDFS_TRUNK_STATUS_FREE`, `FDFS_TRUNK_STATUS_HOLD`. -/
inductive Status
  | free
  | hold
  deriving DecidableEq, Repr

/-- `FDFSTrunkNode`: a block with its `status`. -/
structure Node where
  status : Status
  block : Block
  deriving DecidableEq, Repr

/-- `FDFSTrunkSlot`: the blocks of one size, the newest first. -/
structure Slot where
  size : Nat
  chain : List Node

def nodeCompareSize : Slot → Slot → Ordering := compareOn (·.size)

/-- `TRUNK_OP_TYPE_ADD_SPACE`, `TRUNK_OP_TYPE_DEL_SPACE`. -/
inductive OpType
  | addSpace
  | delSpace
  deriving DecidableEq, Repr

/-- A line of the trunk binlog, without its time. -/
structure Record where
  opType : OpType
  block : Block
  deriving DecidableEq, Repr

/-- The parameters the tracker hands out, as it checks and adjusts them (`tracker_func.c:460-535`), and
`g_fdfs_store_paths.count`. -/
structure Config where
  storePathCount : Nat
  slotMinSize : Nat
  slotMaxSize : Nat
  trunkFileSize : Nat
  slotMinSize_pos : 0 < slotMinSize
  slotMinSize_lt : slotMinSize < slotMaxSize
  slotMaxSize_le : slotMaxSize ≤ trunkFileSize / 2

/-- The static variables of `trunk_mem.c` and `trunk_free_block_checker.c`, the binlog and the trunk files. -/
structure Mem where
  sizes : Nat → TreeNode Slot
  byId : TreeNode TrunksById
  totalFreeSpace : Int
  currentTrunkFileId : Nat
  binlog : List Record
  files : List FileIdentifier

/-- What `storage_trunk_init` starts from when there is no binlog yet. -/
def Mem.init : Mem := ⟨fun _ => .nil, .nil, 0, 0, [], []⟩

/-! ## Free space -/

/-- The binlog buffer takes the record in any case; `g_trunk_total_free_space` is kept with it. -/
def memBinlogWrite (op : OpType) (b : Block) (m : Mem) : Mem :=
  { m with
    totalFreeSpace := match op with
      | .addSpace => m.totalFreeSpace + b.size
      | .delSpace => m.totalFreeSpace - b.size
    binlog := m.binlog ++ [⟨op, b⟩] }

/-- The slot tree with one more node. -/
def addToSlot (n : Node) (t : TreeNode Slot) : TreeNode Slot :=
  match find nodeCompareSize ⟨n.block.size, []⟩ t with
  | none => (insert nodeCompareSize ⟨n.block.size, [n]⟩ t).1
  | some _ => modify nodeCompareSize ⟨n.block.size, []⟩ (fun slot => { slot with chain := n :: slot.chain }) t

/-- `io` is what writing the binlog returns. -/
def addFreeBlock (n : Node) (writeBinLog : Bool) (io : Except Errno Unit) (m : Mem) : Mem × Except Errno Unit :=
  match freeBlockCheckDuplicate n.block m.byId with
  | .error e => (m, .error e)
  | .ok () =>
    let p := n.block.path.storePathIndex
    let m := { m with sizes := Function.update m.sizes p (addToSlot n (m.sizes p)) }
    let (m, result) :=
      if writeBinLog then (memBinlogWrite .addSpace n.block m, io)
      else ({ m with totalFreeSpace := m.totalFreeSpace + n.block.size }, .ok ())
    let (byId, inserted) := freeBlockInsert n.block m.byId
    ({ m with byId := byId }, match result with
      | .ok () => inserted
      | .error e => .error e)

def trunkFreeSpace (c : Config) (b : Block) (writeBinLog : Bool) (io : Except Errno Unit) (m : Mem) :
    Mem × Except Errno Unit :=
  if b.size < c.slotMinSize then (m, .ok ()) else addFreeBlock ⟨.free, b⟩ writeBinLog io m

/-- The slot tree with `chain` in place of the chain of `slot`; an empty slot leaves the tree. -/
def setChain (slot : Slot) (chain : List Node) (t : TreeNode Slot) : TreeNode Slot :=
  if chain = [] then (delete nodeCompareSize slot t).1
  else modify nodeCompareSize slot (fun slot => { slot with chain := chain }) t

/-- Unlink `n` from the chain of `slot`. -/
def removeNode (slot : Slot) (n : Node) (m : Mem) : Mem :=
  let p := n.block.path.storePathIndex
  { m with
    sizes := Function.update m.sizes p (setChain slot (slot.chain.erase n) (m.sizes p))
    byId := (freeBlockDelete n.block m.byId).1 }

/-- `trunk_delete_space` until it gives back `trunk_mem_lock`: the node that was unlinked. -/
def deleteSpace (n : Node) (m : Mem) : Mem × Except Errno Node :=
  match find nodeCompareSize ⟨n.block.size, []⟩ (m.sizes n.block.path.storePathIndex) with
  | none => (m, .error .enoent)
  | some slot => if n ∈ slot.chain then (removeNode slot n m, .ok n) else (m, .error .enoent)

/-- Set the first node equal to `n` free, in place. -/
def restoreNode (n : Node) (m : Mem) : Mem × Except Errno Unit :=
  let p := n.block.path.storePathIndex
  match find nodeCompareSize ⟨n.block.size, []⟩ (m.sizes p) with
  | none => (m, .error .enoent)
  | some slot =>
    if n ∈ slot.chain then
      let chain := slot.chain.replace n { n with status := .free }
      ({ m with sizes := Function.update m.sizes p (setChain slot chain (m.sizes p)) }, .ok ())
    else (m, .error .enoent)

/-! ## Allocation -/

/-- The search loop: the next larger slot while all nodes of a slot are held. -/
def findFree : Nat → Nat → TreeNode Slot → Option (Slot × Node)
  | 0, _, _ => none
  | fuel + 1, size, t =>
    match findGe nodeCompareSize ⟨size, []⟩ t with
    | none => none
    | some slot =>
      match slot.chain.find? fun n => n.status ≠ .hold with
      | some n => some (slot, n)
      | none => findFree fuel (slot.size + 1) t

/-- The name of a trunk file: `sub` is how `storage_get_store_path` spreads the files over the directories. -/
def fileName (path : Nat) (sub : Nat → Nat × Nat) (id : Nat) : FileIdentifier :=
  ⟨⟨path, (sub id).1, (sub id).2⟩, id⟩

/-- The next number whose file does not exist. -/
def nextFileId (path : Nat) (sub : Nat → Nat × Nat) (files : List FileIdentifier) : Nat → Nat → Nat
  | 0, id => id + 1
  | fuel + 1, id => if fileName path sub (id + 1) ∈ files then nextFileId path sub files fuel (id + 1) else id + 1

/-- A new trunk file, all of it one node. `io` is what creating the file returns. -/
def createTrunkFile (c : Config) (path : Nat) (sub : Nat → Nat × Nat) (io : Except Errno Unit) (m : Mem) :
    Mem × Except Errno Node :=
  let id := nextFileId path sub m.files m.files.length m.currentTrunkFileId
  let m := { m with currentTrunkFileId := id }
  match io with
  | .error e => (m, .error e)
  | .ok () =>
    let f := fileName path sub id
    let b : Block := ⟨f.path, f.id, 0, c.trunkFileSize⟩
    (memBinlogWrite .addSpace b { m with files := f :: m.files }, .ok ⟨.free, b⟩)

/-- `trunk_alloc_space` until it gives back `trunk_mem_lock`: the node that it will cut. -/
def allocTake (c : Config) (path size : Nat) (sub : Nat → Nat × Nat) (io : Except Errno Unit) (m : Mem) :
    Mem × Except Errno Node :=
  let wanted := if c.slotMinSize < size then size else c.slotMinSize
  match findFree (count (m.sizes path) + 1) wanted (m.sizes path) with
  | some (slot, n) => (removeNode slot n m, .ok n)
  | none => createTrunkFile c path sub io m

end HahaDog.Trunk
