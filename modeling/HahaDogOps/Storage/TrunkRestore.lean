import HahaDogOps.Lib.Journal
import HahaDogOps.Storage.TrunkPool

/-!
# Snapshot and recovery of the free space (`storage/trunk_mgr/trunk_mem.c`)

The free space is written to `storage_trunk.dat` when the server stops or has recovered, together with the size the
trunk binlog had. On start it is read back, and the rest of the binlog is gone through; without the file (or with
`trunk_init_reload_from_binlog`) the whole binlog is, in a tree of its own.

| here | `trunk_mem.c` |
|---|---|
| `nodeCompareOffset` | `storage_trunk_node_compare_offset` (105) |
| `storageTrunkSave` | `tree_walk_callback` (335), `storage_trunk_save` (382) |
| `addSpaceByTrunk`, `addSpaceByNode` | lines 520-558 |
| `storageTrunkDoAddSpace` | `storage_trunk_do_add_space` (560) |
| `replayRecord`, `redoRecord` | the loop of `storage_trunk_restore` (599) |
| `storageTrunkRestore`, `storageTrunkLoad` | `storage_trunk_restore`, `storage_trunk_load` (871) |
| `storageTrunkInit` | `storage_trunk_init` (147) |

The files are taken as lists of lines that are read without error; `offset` counts records where the source
counts bytes.
-/

namespace HahaDog.Trunk

open Avl

/-- The trunk data file: what had been written of the binlog, and the blocks. -/
structure Snapshot where
  offset : Nat
  lines : List Block

/-- What `memcmp` sees of a path, then the file id and the offset. -/
def nodeCompareOffset : Node → Node → Ordering := compareOn fun n =>
  [n.block.path.storePathIndex, n.block.path.subPathHigh, n.block.path.subPathLow, n.block.id, n.block.offset]

def Errno.code : Errno → Int
  | .eexist => 17
  | .enoent => 2
  | .einval => 22
  | .eio => 5
  | .eisdir => 21
  | .enospc => 28

/-! ## Writing -/

/-- The lines of one slot tree after those of others. -/
def saveTree (t : TreeNode Slot) (lines : List Block) : List Block :=
  (walk (fun slot lines => (0, lines ++ slot.chain.map (·.block))) t lines).2

/-- `written` is the size of the binlog file, which lags behind the binlog. -/
def storageTrunkSave (c : Config) (written : Nat) (m : Mem) : Snapshot :=
  ⟨written, (List.range c.storePathCount).foldl (fun lines i => saveTree (m.sizes i) lines) []⟩

/-! ## Reading -/

/-- Space that is there already is no error. -/
def addSpaceByTrunk (c : Config) (b : Block) (m : Mem) : Int × Mem :=
  match trunkFreeSpace c b false (.ok ()) m with
  | (m, .ok ()) => (0, m)
  | (m, .error .eexist) => (0, m)
  | (m, .error e) => (e.code, m)

def addSpaceByNode (c : Config) (n : Node) (m : Mem) : Int × Mem :=
  if n.block.size < c.slotMinSize then (0, m)
  else
    match addFreeBlock n false (.ok ()) m with
    | (m, .ok ()) => (0, m)
    | (m, .error .eexist) => (0, m)
    | (m, .error e) => (e.code, m)

/-- `occupied` is what the trunk file has at the place, when `trunk_init_check_occupying` has it looked up. -/
def storageTrunkDoAddSpace (c : Config) (occupied : Block → Bool) (b : Block) (m : Mem) : Int × Mem :=
  if occupied b then (0, m) else addSpaceByTrunk c b m

/-- A record in the tree by offset. -/
def replayRecord (t : TreeNode Node) (r : Record) : TreeNode Node :=
  match r.opType with
  | .addSpace => (insert nodeCompareOffset ⟨.free, r.block⟩ t).1
  | .delSpace => (delete nodeCompareOffset ⟨.free, r.block⟩ t).1

/-- A record on top of the snapshot. -/
def redoRecord (c : Config) (r : Record) (m : Mem) : Int × Mem :=
  match r.opType with
  | .addSpace => addSpaceByTrunk c r.block m
  | .delSpace =>
    match deleteSpace ⟨.free, r.block⟩ m with
    | (m, .ok n) => (0, { m with totalFreeSpace := m.totalFreeSpace - n.block.size })
    | (m, .error .enoent) => (0, m)
    | (m, .error e) => (e.code, m)

/-- The new data file at the end of a recovery. `io` is what writing it returns. -/
def saveRestored (c : Config) (io : Except Errno Unit) (data : Option Snapshot) (m : Mem) :
    Int × Mem × Option Snapshot :=
  match io with
  | .ok () => (0, m, some (storageTrunkSave c m.binlog.length m))
  | .error e => (e.code, m, data)

def storageTrunkRestore (c : Config) (offset : Nat) (io : Except Errno Unit) (data : Option Snapshot) (m : Mem) :
    Int × Mem × Option Snapshot :=
  if offset = m.binlog.length then (0, m, data)
  else if m.binlog.length < offset then saveRestored c io data m
  else
    let (result, m) :=
      if offset = 0 then walk (addSpaceByNode c) (m.binlog.foldl replayRecord .nil) m
      else Run.visit (redoRecord c) (m.binlog.drop offset) m
    if result = 0 then saveRestored c io data m else (result, m, data)

/-- `reload` is `trunk_init_reload_from_binlog`: the data file is removed. -/
def storageTrunkLoad (c : Config) (reload : Bool) (occupied : Block → Bool) (io : Except Errno Unit)
    (data : Option Snapshot) (m : Mem) : Int × Mem × Option Snapshot :=
  if reload then storageTrunkRestore c 0 io none m
  else
    match data with
    | none => storageTrunkRestore c 0 io none m
    | some d =>
      let (result, m) := Run.visit (storageTrunkDoAddSpace c occupied) d.lines m
      if result = 0 then storageTrunkRestore c d.offset io data m else (result, m, data)

/-- A new process: the trees are empty. -/
def Mem.cleared (m : Mem) : Mem := { m with sizes := fun _ => .nil, byId := .nil, totalFreeSpace := 0 }

def storageTrunkInit (c : Config) (reload : Bool) (occupied : Block → Bool) (io : Except Errno Unit)
    (data : Option Snapshot) (m : Mem) : Int × Mem × Option Snapshot :=
  storageTrunkLoad c reload occupied io data m.cleared

/-! ## What the binlog says -/

def Record.entry (r : Record) : Journal.Entry Block :=
  match r.opType with
  | .addSpace => .add r.block
  | .delSpace => .del r.block

/-- The blocks that are free by the binlog. -/
def freeBy (log : List Record) : Set Block := Run.run Journal.book ∅ (log.map Record.entry)

/-- The binlog is true, and says that `l` is the free space. -/
structure Logs (log : List Record) (l : List Block) : Prop where
  kept : Journal.Kept Overlap ∅ (log.map Record.entry)
  pos : ∀ r ∈ log, r.opType = .addSpace → 0 < r.block.size
  free : freeBy log = {b | b ∈ l}

instance : Std.Symm Overlap := ⟨fun _ _ h => h.symm⟩

theorem freeBy_append (log log' : List Record) :
    freeBy (log ++ log') = Run.run Journal.book (freeBy log) (log'.map Record.entry) := by
  rw [freeBy, List.map_append, Run.run_append, freeBy]

section
variable {log : List Record} {l l' : List Block} {b : Block}

theorem Logs.nil : Logs [] [] := ⟨trivial, by simp, by simp [freeBy]⟩

theorem Logs.perm (h : Logs log l) (hp : l'.Perm l) : Logs log l' :=
  ⟨h.kept, h.pos, h.free.trans (Set.ext fun _ => hp.mem_iff.symm)⟩

theorem Logs.add (h : Logs log l) (hb : 0 < b.size) (hfree : ∀ c ∈ l, ¬ Overlap b c) :
    Logs (log ++ [⟨.addSpace, b⟩]) (b :: l) := by
  refine ⟨?_, by simpa [or_imp, forall_and] using ⟨h.pos, hb⟩, ?_⟩
  · rw [List.map_append, Journal.kept_append]
    refine ⟨h.kept, ?_, trivial⟩
    have hfreeBy := h.free
    rw [freeBy] at hfreeBy
    rw [hfreeBy]
    exact hfree
  · rw [freeBy_append, h.free]
    ext c
    simp [Record.entry, Journal.book]

theorem Logs.del (h : Logs log (b :: l)) (hb : b ∉ l) : Logs (log ++ [⟨.delSpace, b⟩]) l := by
  have hfreeBy := h.free
  have hmem : b ∈ freeBy log := by simp [hfreeBy]
  refine ⟨?_, by simpa [or_imp, forall_and] using h.pos, ?_⟩
  · rw [List.map_append, Journal.kept_append]
    exact ⟨h.kept, hmem, trivial⟩
  · rw [freeBy_append, hfreeBy]
    ext c
    simp only [Record.entry, List.map_cons, List.map_nil, Run.run_cons, Run.run_nil, Journal.book, Set.mem_sdiff,
      Set.mem_ofPred_eq, List.mem_cons, Set.mem_singleton_iff]
    constructor
    · rintro ⟨rfl | hc, hne⟩
      · exact absurd rfl hne
      · exact hc
    · intro hc
      refine ⟨.inr hc, ?_⟩
      rintro rfl
      exact hb hc

theorem Logs.apart (h : Logs log l) : Journal.Apart Overlap (freeBy log) :=
  Journal.Apart.run (Set.pairwise_empty _) h.kept

end

/-- The bytes of some blocks. -/
def bytes (l : List Block) : Int := (l.map fun b => (b.size : Int)).sum

theorem bytes_perm {l l' : List Block} (h : l.Perm l') : bytes l = bytes l' := (h.map _).sum_eq

@[simp] theorem bytes_cons (b : Block) (l : List Block) : bytes (b :: l) = b.size + bytes l := by simp [bytes]

theorem bytes_append (l l' : List Block) : bytes (l ++ l') = bytes l + bytes l' := by simp [bytes]

/-! ## What is read back -/

/-- The memory `m` while it is read back: exactly the blocks of `R` are there, all of them free. -/
structure Loaded (R : Set Block) (m₀ m : Mem) : Prop where
  ok : MemOk m
  held : ∀ b, b ∈ held m.byId ↔ b ∈ R
  free : ∀ n, InPool m n → n.status = .free
  total : m.totalFreeSpace = bytes (Trunk.held m.byId)
  rest : m.binlog = m₀.binlog ∧ m.files = m₀.files ∧ m.currentTrunkFileId = m₀.currentTrunkFileId

/-- The blocks that are worth keeping. -/
def Large (c : Config) (b : Block) : Prop := c.slotMinSize ≤ b.size

theorem loaded_cleared (m : Mem) : Loaded ∅ m m.cleared := by
  refine ⟨⟨fun _ => ⟨Valid.nil, by simp [Mem.cleared], by simp [Mem.cleared]⟩, checkerOk_nil, fun _ => ?_⟩,
    ?_, ?_, ?_, rfl, rfl, rfl⟩
  · simp [Mem.cleared, nodes, held]
  · simp [Mem.cleared, held]
  · simp [InPool, Mem.cleared, nodes]
  · simp [Mem.cleared, held, bytes]

section
variable {c : Config} {R S : Set Block} {m₀ m : Mem} {b : Block} {n : Node}

theorem addSpaceByNode_spec (hm : Loaded R m₀ m) (hn : n.status = .free) :
    (addSpaceByNode c n m).1 = 0 ∧
      Loaded (Journal.redo Overlap (Large c) R (.add n.block)) m₀ (addSpaceByNode c n m).2 := by
  by_cases hsize : n.block.size < c.slotMinSize
  · have hredo : Journal.redo Overlap (Large c) R (.add n.block) = R :=
      if_neg fun h => absurd h.1 (by simpa [Large] using hsize)
    rw [hredo]
    simp only [addSpaceByNode, hsize, if_true]
    exact ⟨trivial, hm⟩
  · have hpos : 0 < n.block.size := by
      have := c.slotMinSize_pos
      omega
    by_cases hfit : ∀ d ∈ held m.byId, ¬ Overlap n.block d
    · have hredo : Journal.redo Overlap (Large c) R (.add n.block) = insert n.block R :=
        if_pos ⟨by simpa [Large] using hsize, fun d hd => hfit d ((hm.held d).2 hd)⟩
      obtain ⟨hstep, hadd⟩ := addFreeBlock_spec hm.ok hpos hfit false (.ok ())
      rw [if_neg (by simp)] at hstep
      simp only [addSpaceByNode, hsize, if_false, hstep, hredo]
      refine ⟨trivial, hadd.ok, fun d => ?_, fun n' hn' => ?_, ?_, ?_⟩
      · rw [hadd.held.mem_iff, List.mem_cons, hm.held, Set.mem_insert_iff]
      · rcases (hadd.pool n').1 hn' with rfl | h
        · exact hn
        · exact hm.free n' h
      · have htotal := hm.total
        show m.totalFreeSpace + n.block.size = _
        rw [bytes_perm hadd.held, bytes_cons, htotal]
        omega
      · exact ⟨hm.rest.1, hadd.files.1.trans hm.rest.2.1, hadd.files.2.trans hm.rest.2.2⟩
    · have hredo : Journal.redo Overlap (Large c) R (.add n.block) = R := by
        refine if_neg fun h => hfit fun d hd => ?_
        exact h.2 d ((hm.held d).1 hd)
      have hclash : ∃ d ∈ held m.byId, Overlap n.block d := by simpa using hfit
      simp only [addSpaceByNode, hsize, if_false, addFreeBlock_of_overlap hm.ok hpos hclash, hredo]
      exact ⟨trivial, hm⟩

theorem addSpaceByTrunk_eq : addSpaceByTrunk c b m = addSpaceByNode c ⟨.free, b⟩ m := by
  unfold addSpaceByTrunk addSpaceByNode trunkFreeSpace
  split_ifs with h
  · rfl
  · rfl

theorem redoRecord_spec (hm : Loaded R m₀ m) (r : Record) : (redoRecord c r m).1 = 0 ∧
    Loaded (Journal.redo Overlap (Large c) R r.entry) m₀ (redoRecord c r m).2 := by
  obtain ⟨op, b⟩ := r
  cases op with
  | addSpace =>
    simp only [redoRecord, addSpaceByTrunk_eq, Record.entry]
    exact addSpaceByNode_spec (n := ⟨.free, b⟩) hm rfl
  | delSpace =>
    obtain ⟨hin, hout⟩ := deleteSpace_spec (n := ⟨.free, b⟩) hm.ok
    have hredo : Journal.redo Overlap (Large c) R (.del b) = R \ {b} := rfl
    simp only [redoRecord, Record.entry, hredo]
    by_cases h : InPool m ⟨.free, b⟩
    · obtain ⟨m', hstep, hrem⟩ := hin h
      have hrest := hrem.rest
      have hmem : b ∉ held m'.byId := by
        intro hb
        have hnodup := hrem.held.nodup_iff.1 hm.ok.checker.nodup
        exact (List.nodup_cons.1 hnodup).1 hb
      simp only [hstep]
      refine ⟨trivial, ⟨hrem.ok.slots, hrem.ok.checker, hrem.ok.agree⟩, fun d => ?_, fun n' hn' => ?_, ?_, ?_⟩
      · rw [Set.mem_sdiff, ← hm.held, hrem.held.mem_iff, List.mem_cons, Set.mem_singleton_iff]
        constructor
        · intro hd
          refine ⟨.inr hd, ?_⟩
          rintro rfl
          exact hmem hd
        · rintro ⟨rfl | hd, hne⟩
          · exact absurd rfl hne
          · exact hd
      · exact hm.free n' ((hrem.pool n').2 (.inr hn'))
      · have htotal := hm.total
        have hsum : bytes (held m.byId) = b.size + bytes (held m'.byId) := by
          rw [bytes_perm hrem.held, bytes_cons]
        rw [hrest]
        show m.totalFreeSpace - b.size = bytes (held m'.byId)
        omega
      · rw [hrest]
        exact hm.rest
    · have hno : b ∉ R := by
        intro hb
        obtain ⟨status, hs⟩ := hm.ok.mem_held.1 ((hm.held b).2 hb)
        obtain rfl : status = .free := hm.free _ hs
        exact h hs
      simp only [hout h]
      rw [Set.sdiff_singleton_eq_self hno]
      exact ⟨trivial, hm⟩

/-- Blocks that are apart, added one by one: the large ones that are let through. -/
theorem redo_lines {skip : Block → Bool} {l : List Block} (hS : Journal.Apart Overlap S) (hR : R ⊆ S)
    (hl : ∀ b ∈ l, b ∈ S) :
    Run.run (fun R b => if skip b then R else Journal.redo Overlap (Large c) R (.add b)) R l =
      R ∪ {b | b ∈ l ∧ Large c b ∧ skip b = false} := by
  induction l generalizing R with
  | nil => simp
  | cons b l ih =>
    rw [Run.run_cons]
    have hb := hl b List.mem_cons_self
    have hstep : (if skip b then R else Journal.redo Overlap (Large c) R (.add b)) =
        R ∪ {d | d = b ∧ Large c d ∧ skip d = false} := by
      cases hskip : skip b with
      | true =>
        ext d
        simp only [if_true, Set.mem_union, Set.mem_ofPred_eq]
        constructor
        · exact .inl
        · rintro (h | ⟨rfl, -, h⟩)
          · exact h
          · rw [hskip] at h
            cases h
      | false =>
        ext d
        simp only [Bool.false_eq_true, if_false, Journal.redo, Set.mem_union, Set.mem_ofPred_eq]
        split_ifs with hfit
        · rw [Set.mem_insert_iff]
          constructor
          · rintro (rfl | h)
            · exact .inr ⟨rfl, hfit.1, hskip⟩
            · exact .inl h
          · rintro (h | ⟨rfl, -⟩)
            · exact .inr h
            · exact .inl rfl
        · refine ⟨.inl, ?_⟩
          rintro (h | ⟨rfl, hlarge, -⟩)
          · exact h
          · -- it does not fit: it is there already
            obtain ⟨e, he, ho⟩ : ∃ e ∈ R, Overlap d e := by simpa [hlarge] using hfit
            by_contra hd
            exact hS hb (hR he) (fun h => hd (h ▸ he)) ho
    rw [hstep, ih]
    · ext d
      simp only [Set.mem_union, Set.mem_ofPred_eq, List.mem_cons]
      tauto
    · rintro d (h | ⟨rfl, -⟩)
      · exact hR h
      · exact hb
    · exact fun d hd => hl d (List.mem_cons_of_mem _ hd)

end

/-! ## The whole binlog -/

instance : Std.TransCmp nodeCompareOffset := inferInstanceAs (Std.TransCmp (compareOn _))

theorem nodeCompareOffset_eq {n n' : Node} : nodeCompareOffset n n' = .eq ↔ SamePlace n'.block n.block := by
  obtain ⟨-, ⟨⟨p, h, l⟩, id, offset, -⟩⟩ := n
  obtain ⟨-, ⟨⟨p', h', l'⟩, id', offset', -⟩⟩ := n'
  simp [nodeCompareOffset, compareOn, SamePlace, Block.file, and_assoc]

/-- The tree by offset, after records that leave the blocks of `S` free. -/
structure Replayed (S : Set Block) (t : TreeNode Node) : Prop where
  valid : Valid nodeCompareOffset t
  nodes : ∀ n, n ∈ t.toList ↔ n.status = .free ∧ n.block ∈ S
  pos : ∀ b ∈ S, 0 < b.size
  apart : Journal.Apart Overlap S

theorem replayed_nil : Replayed ∅ .nil := ⟨Valid.nil, by simp, by simp, Set.pairwise_empty _⟩

section
variable {S : Set Block} {t : TreeNode Node} {r : Record}

theorem Replayed.step (h : Replayed S t) (hr : Journal.Honest Overlap S r.entry)
    (hpos : r.opType = .addSpace → 0 < r.block.size) : Replayed (Journal.book S r.entry) (replayRecord t r) := by
  obtain ⟨op, b⟩ := r
  have hapart := h.apart.book hr
  cases op with
  | addSpace =>
    have hb : 0 < b.size := hpos rfl
    have hnone : Ordered.find? nodeCompareOffset ⟨.free, b⟩ t.toList = none := by
      rw [Ordered.find?, List.find?_eq_none]
      intro n hn heq
      have hn' := ((h.nodes n).1 hn).2
      exact hr n.block hn' (overlap_of_samePlace (nodeCompareOffset_eq.1 (by simpa using heq)) hb (h.pos _ hn'))
    refine ⟨h.valid.insert, fun n => ?_, fun d hd => ?_, hapart⟩
    · simp only [replayRecord]
      rw [(toList_insert h.valid).1, Ordered.insert, Ordered.mem_edit h.valid.sorted, hnone]
      constructor
      · intro hn
        rcases hn with hn | ⟨hn, -⟩
        · obtain rfl : n = ⟨.free, b⟩ := by simpa using hn
          exact ⟨rfl, .inl rfl⟩
        · exact ((h.nodes n).1 hn).imp_right .inr
      · rintro ⟨hfree, rfl | hn⟩
        · exact .inl (by simp [← hfree])
        · have hn' := (h.nodes n).2 ⟨hfree, hn⟩
          refine .inr ⟨hn', fun heq => ?_⟩
          rw [Ordered.find?, List.find?_eq_none] at hnone
          exact hnone n hn' (by simp [heq])
    · rcases hd with rfl | hd
      · exact hb
      · exact h.pos d hd
  | delSpace =>
    refine ⟨h.valid.delete, fun n => ?_, fun d hd => h.pos d hd.1, hapart⟩
    simp only [replayRecord]
    rw [(toList_delete h.valid).1, Ordered.erase, Ordered.mem_edit h.valid.sorted, h.nodes]
    have hkey : n.block ∈ S → (nodeCompareOffset n ⟨.free, b⟩ = .eq ↔ n.block = b) := by
      intro hn
      rw [nodeCompareOffset_eq]
      constructor
      · intro hsame
        by_contra hne
        exact h.apart hr hn (Ne.symm hne) (overlap_of_samePlace hsame (h.pos b hr) (h.pos _ hn))
      · rintro rfl
        exact ⟨rfl, rfl⟩
    constructor
    · rintro (hn | ⟨⟨hfree, hn⟩, hne⟩)
      · cases hn
      · exact ⟨hfree, hn, fun he => hne ((hkey hn).2 he)⟩
    · rintro ⟨hfree, hn, hne⟩
      exact .inr ⟨⟨hfree, hn⟩, fun he => hne ((hkey hn).1 he)⟩

theorem Replayed.run {log : List Record} (h : Replayed S t) (hlog : Journal.Kept Overlap S (log.map Record.entry))
    (hpos : ∀ r ∈ log, r.opType = .addSpace → 0 < r.block.size) :
    Replayed (Run.run Journal.book S (log.map Record.entry)) (log.foldl replayRecord t) := by
  induction log generalizing S t with
  | nil => exact h
  | cons r log ih =>
    exact ih (h.step hlog.1 (hpos r (by simp))) hlog.2 fun r' hr' => hpos r' (by simp [hr'])

end

/-! ## The data file -/

/-- A data file that can be trusted: at some time since `offset` the binlog said that its blocks are free, and it
left out only blocks of `missed`. One that begins at the beginning of the binlog has no blocks: they would be
kept although the binlog is gone through in a tree of its own. -/
structure Trusted (log : List Record) (missed : Set Block) (d : Snapshot) : Prop where
  taken : ∃ t, d.offset ≤ t ∧ t ≤ log.length ∧ (∀ b ∈ d.lines, b ∈ freeBy (log.take t)) ∧
    ∀ b ∈ freeBy (log.take t), b ∈ d.lines ∨ b ∈ missed
  start : d.offset = 0 → d.lines = []

section
variable {c : Config} {m : Mem} {log log' : List Record} {missed missed' : Set Block} {d : Snapshot}

theorem Trusted.later (h : Trusted log missed d) : Trusted (log ++ log') missed d := by
  obtain ⟨t, hle, hlen, h₁⟩ := h.taken
  refine ⟨⟨t, hle, ?_, ?_⟩, h.start⟩
  · rw [List.length_append]
    omega
  · rwa [List.take_append_of_le_length hlen]

theorem Trusted.mono (h : Trusted log missed d) (hm : missed ⊆ missed') : Trusted log missed' d := by
  obtain ⟨t, hle, hlen, h₁, h₂⟩ := h.taken
  exact ⟨⟨t, hle, hlen, h₁, fun b hb => (h₂ b hb).imp_right fun hb => hm hb⟩, h.start⟩

theorem saveTree_eq (t : TreeNode Slot) (lines : List Block) :
    saveTree t lines = lines ++ (nodes t).map (·.block) := by
  rw [saveTree, walk_eq, nodes]
  induction t.toList generalizing lines with
  | nil => simp [Run.visit]
  | cons slot l ih => simp [Run.visit, ih]

theorem mem_save (hm : MemOk m) {written : Nat} {b : Block} : b ∈ (storageTrunkSave c written m).lines ↔
    b ∈ held m.byId ∧ b.path.storePathIndex < c.storePathCount := by
  have hlines : ∀ (is : List Nat) (lines : List Block),
      is.foldl (fun lines i => saveTree (m.sizes i) lines) lines =
        lines ++ is.flatMap fun i => (nodes (m.sizes i)).map (·.block) := by
    intro is
    induction is with
    | nil => simp
    | cons i is ih =>
      intro lines
      rw [List.foldl_cons, ih, saveTree_eq, List.flatMap_cons, List.append_assoc]
  have hnode : ∀ i, b ∈ (nodes (m.sizes i)).map (·.block) ↔ b ∈ held m.byId ∧ b.path.storePathIndex = i := by
    intro i
    rw [(hm.agree i).mem_iff]
    simp
  simp only [storageTrunkSave, hlines, List.nil_append, List.mem_flatMap, List.mem_range, hnode]
  constructor
  · rintro ⟨i, hi, hb, rfl⟩
    exact ⟨hb, hi⟩
  · rintro ⟨hb, hi⟩
    exact ⟨_, hi, hb, rfl⟩

/-- What is written between two calls can be trusted. -/
theorem trusted_save {written : Nat} (hm : MemOk m) (hw : written ≤ m.binlog.length)
    (hheld : ∀ b ∈ held m.byId, b ∈ freeBy m.binlog) (hzero : written = 0 → held m.byId = [])
    (hmissed : ∀ b ∈ freeBy m.binlog, b ∈ held m.byId ∧ b.path.storePathIndex < c.storePathCount ∨ b ∈ missed) :
    Trusted m.binlog missed (storageTrunkSave c written m) := by
  refine ⟨⟨m.binlog.length, hw, le_rfl, ?_⟩, fun h0 => ?_⟩
  · rw [List.take_length]
    exact ⟨fun b hb => hheld b ((mem_save hm).1 hb).1, fun b hb => (hmissed b hb).imp_left (mem_save hm).2⟩
  · refine List.eq_nil_iff_forall_not_mem.2 fun b hb => ?_
    have := ((mem_save hm).1 hb).1
    rw [hzero h0] at this
    cases this

end

/-! ## Recovery -/

section
variable {c : Config} {m₀ m : Mem} {l : List Block} {R : Set Block}

/-- The whole binlog on top of `m`, in which nothing is yet. -/
theorem walk_replay_spec (hlog : Logs m.binlog l) (hm : Loaded ∅ m₀ m) :
    (walk (addSpaceByNode c) (m.binlog.foldl replayRecord .nil) m).1 = 0 ∧
      Loaded {b | b ∈ freeBy m.binlog ∧ Large c b} m₀
        (walk (addSpaceByNode c) (m.binlog.foldl replayRecord .nil) m).2 := by
  have htree := replayed_nil.run hlog.kept hlog.pos
  obtain ⟨t, ht⟩ : ∃ t, m.binlog.foldl replayRecord .nil = t := ⟨_, rfl⟩
  rw [ht] at htree ⊢
  rw [walk_eq]
  obtain ⟨hzero, hload⟩ := Run.visit_sim (addSpaceByNode c)
    (fun R (n : Node) => Journal.redo Overlap (Large c) R (.add n.block)) (fun R m => Loaded R m₀ m) t.toList ∅ m
    (fun n hn R m hm => addSpaceByNode_spec hm ((htree.nodes n).1 hn).1) hm
  refine ⟨hzero, ?_⟩
  have hrun : Run.run (fun R (n : Node) => Journal.redo Overlap (Large c) R (.add n.block)) ∅ t.toList =
      Run.run (fun R b => if (fun _ => false) b then R else Journal.redo Overlap (Large c) R (.add b)) ∅
        (t.toList.map (·.block)) := by
    simp [Run.run, List.foldl_map]
  have hmem : ∀ b, b ∈ t.toList.map (·.block) ↔ b ∈ freeBy m.binlog := by
    intro b
    rw [List.mem_map]
    constructor
    · rintro ⟨n, hn, rfl⟩
      exact ((htree.nodes n).1 hn).2
    · intro hb
      exact ⟨⟨.free, b⟩, (htree.nodes _).2 ⟨rfl, hb⟩, rfl⟩
  rw [hrun, redo_lines hlog.apart (Set.empty_subset _) fun b hb => (hmem b).1 hb] at hload
  have hset : (∅ ∪ {b | b ∈ t.toList.map (·.block) ∧ Large c b ∧ (fun _ => false) b = false} : Set Block) =
      {b | b ∈ freeBy m.binlog ∧ Large c b} := by
    ext b
    simp only [Set.empty_union, Set.mem_ofPred_eq, hmem, and_true]
  rwa [hset] at hload

/-- The rest of the binlog on top of `m`. -/
theorem visit_redo_spec (hm : Loaded R m₀ m) (log : List Record) : (Run.visit (redoRecord c) log m).1 = 0 ∧
    Loaded (Run.run (Journal.redo Overlap (Large c)) R (log.map Record.entry)) m₀
      (Run.visit (redoRecord c) log m).2 := by
  obtain ⟨hzero, hload⟩ := Run.visit_sim (redoRecord c)
    (fun R (r : Record) => Journal.redo Overlap (Large c) R r.entry) (fun R m => Loaded R m₀ m) log R m
    (fun r _ R m hm => redoRecord_spec hm r) hm
  refine ⟨hzero, ?_⟩
  rwa [Run.run, List.foldl_map]

/-- The lines of a data file on top of `m`. -/
theorem visit_doAddSpace (hm : Loaded R m₀ m) (occupied : Block → Bool) (lines : List Block) :
    (Run.visit (storageTrunkDoAddSpace c occupied) lines m).1 = 0 ∧
      Loaded (Run.run (fun R b => if occupied b then R else Journal.redo Overlap (Large c) R (.add b)) R lines) m₀
        (Run.visit (storageTrunkDoAddSpace c occupied) lines m).2 := by
  refine Run.visit_sim (storageTrunkDoAddSpace c occupied)
    (fun R b => if occupied b then R else Journal.redo Overlap (Large c) R (.add b)) (fun R m => Loaded R m₀ m)
    lines R m (fun b _ R m hm => ?_) hm
  simp only [storageTrunkDoAddSpace]
  split_ifs with hocc
  · exact ⟨rfl, hm⟩
  · rw [addSpaceByTrunk_eq]
    exact addSpaceByNode_spec (n := ⟨.free, b⟩) hm rfl

/-- A data file and what the binlog has behind its offset. -/
theorem redo_trusted {log : List Record} {offset t : Nat} (hlog : Logs log l) (ho : offset ≤ t) (ht : t ≤ log.length)
    (hR : R ⊆ freeBy (log.take t)) (hlarge : ∀ b ∈ R, Large c b) :
    Run.run (Journal.redo Overlap (Large c)) R ((log.drop offset).map Record.entry) ⊆ freeBy log ∧
      ∀ b ∈ freeBy log, Large c b →
        b ∉ Run.run (Journal.redo Overlap (Large c)) R ((log.drop offset).map Record.entry) →
        b ∈ freeBy (log.take t) ∧ b ∉ R := by
  have hlen : offset ≤ (log.take t).length := by
    rw [List.length_take]
    omega
  have hdrop : log.drop offset = (log.take t).drop offset ++ log.drop t := by
    rw [← List.drop_append_of_le_length hlen, List.take_append_drop]
  have htake : log.take t = log.take offset ++ (log.take t).drop offset := by
    conv_lhs => rw [← List.take_append_drop offset (log.take t), List.take_take, min_eq_left ho]
  have hall : log = log.take offset ++ log.drop offset := (List.take_append_drop offset log).symm
  have hkept := hlog.kept
  rw [hall, List.map_append, Journal.kept_append] at hkept
  rw [htake, freeBy_append] at hR
  have hapart : Journal.Apart Overlap (freeBy (log.take offset)) :=
    Journal.Apart.run (Set.pairwise_empty _) hkept.1
  have hfree : freeBy log = Run.run Journal.book (freeBy (log.take offset)) ((log.drop offset).map Record.entry) := by
    conv_lhs => rw [hall, freeBy_append]
  rw [htake, freeBy_append, hfree]
  have hrest := hkept.2
  rw [hdrop, List.map_append] at hrest ⊢
  exact Journal.redo_snapshot hapart hrest hR hlarge

/-- What recovery promises: only space that is free by the binlog, and all of it that is large enough except
some of `gap`; a new data file that can be trusted. -/
structure Recovered (c : Config) (gap : Set Block) (m₀ : Mem) (data : Option Snapshot) (m : Mem)
    (data' : Option Snapshot) : Prop where
  loaded : Loaded {b | b ∈ held m.byId} m₀ m
  free : ∀ b ∈ held m.byId, b ∈ freeBy m₀.binlog ∧ Large c b
  gap : ∀ b ∈ freeBy m₀.binlog, Large c b → b ∉ held m.byId → b ∈ gap
  data : ∀ d ∈ data', d ∈ data ∨ Trusted m₀.binlog {b | b ∈ freeBy m₀.binlog ∧ b ∉ held m.byId} d

theorem recovered_of_loaded {gap : Set Block} (hm : Loaded R m₀ m) (hfree : R ⊆ freeBy m₀.binlog)
    (hlarge : ∀ b ∈ R, Large c b) (hgap : ∀ b ∈ freeBy m₀.binlog, Large c b → b ∉ R → b ∈ gap)
    (data : Option Snapshot) : Recovered c gap m₀ data m data := by
  obtain rfl : {b | b ∈ held m.byId} = R := Set.ext hm.held
  exact ⟨hm, fun b hb => ⟨hfree hb, hlarge b hb⟩, hgap, fun d hd => .inl hd⟩

/-- Whatever was read, the new data file has it. -/
theorem saveRestored_spec {gap : Set Block} {data : Option Snapshot}
    (hpaths : ∀ b ∈ freeBy m₀.binlog, b.path.storePathIndex < c.storePathCount)
    (hm : Recovered c gap m₀ data m data) (io : Except Errno Unit) :
    ∃ code data', saveRestored c io data m = (code, m, data') ∧ (io = .ok () → code = 0) ∧
      Recovered c gap m₀ data m data' := by
  cases io with
  | error e => exact ⟨e.code, data, rfl, nofun, hm⟩
  | ok u =>
    refine ⟨0, _, rfl, fun _ => rfl, hm.loaded, hm.free, hm.gap, fun d hd => .inr ?_⟩
    obtain rfl : storageTrunkSave c m.binlog.length m = d := Option.some.inj hd
    have hsame := hm.loaded.rest.1
    rw [← hsame]
    refine trusted_save hm.loaded.ok le_rfl (fun b hb => hsame ▸ (hm.free b hb).1) (fun h0 => ?_) fun b hb => ?_
    · refine List.eq_nil_iff_forall_not_mem.2 fun b hb => ?_
      have hb' := (hm.free b hb).1
      rw [← hsame, List.eq_nil_of_length_eq_zero h0] at hb'
      exact hb'
    · by_cases hin : b ∈ held m.byId
      · exact .inl ⟨hin, hpaths b (hsame ▸ hb)⟩
      · exact .inr ⟨hb, hin⟩

theorem storageTrunkRestore_spec {gap : Set Block} {offset t : Nat} (hlog : Logs m₀.binlog l)
    (hpaths : ∀ b ∈ freeBy m₀.binlog, b.path.storePathIndex < c.storePathCount) (hm : Loaded R m₀ m)
    (ho : offset ≤ t) (ht : t ≤ m₀.binlog.length) (hR : R ⊆ freeBy (m₀.binlog.take t)) (hlarge : ∀ b ∈ R, Large c b)
    (hgap : ∀ b ∈ freeBy (m₀.binlog.take t), Large c b → b ∉ R → b ∈ gap) (hzero : offset = 0 → R = ∅)
    (io : Except Errno Unit) (data : Option Snapshot) :
    ∃ code m' data', storageTrunkRestore c offset io data m = (code, m', data') ∧ (io = .ok () → code = 0) ∧
      Recovered c gap m₀ data m' data' := by
  have hbin := hm.rest.1
  unfold storageTrunkRestore
  rw [hbin]
  by_cases heq : offset = m₀.binlog.length
  · have hfull : m₀.binlog.take t = m₀.binlog := List.take_of_length_le (by omega)
    rw [hfull] at hR hgap
    rw [if_pos heq]
    exact ⟨0, m, data, rfl, fun _ => rfl, recovered_of_loaded hm hR hlarge hgap data⟩
  · rw [if_neg heq, if_neg (by omega)]
    by_cases h0 : offset = 0
    · obtain rfl := hzero h0
      obtain ⟨hcode, hload⟩ := walk_replay_spec (c := c) (hbin ▸ hlog) hm
      rw [if_pos h0]
      rw [hbin] at hcode hload
      simp only [hcode, if_true]
      obtain ⟨code, data', hsave⟩ := saveRestored_spec hpaths (recovered_of_loaded hload (fun b hb => hb.1)
        (fun b hb => hb.2) (fun b hb hbl hn => absurd ⟨hb, hbl⟩ hn) data) io
      exact ⟨code, _, data', hsave⟩
    · obtain ⟨hcode, hload⟩ := visit_redo_spec (c := c) hm (m₀.binlog.drop offset)
      obtain ⟨hsub, hmiss⟩ := redo_trusted hlog ho ht hR hlarge
      rw [if_neg h0]
      simp only [hcode, if_true]
      have hgap' : ∀ b ∈ freeBy m₀.binlog, Large c b →
          b ∉ Run.run (Journal.redo Overlap (Large c)) R ((m₀.binlog.drop offset).map Record.entry) → b ∈ gap := by
        intro b hb hbl hn
        obtain ⟨hbt, hbR⟩ := hmiss b hb hbl hn
        exact hgap b hbt hbl hbR
      obtain ⟨code, data', hsave⟩ := saveRestored_spec hpaths
        (recovered_of_loaded hload hsub (Journal.keep_redo hlarge) hgap' data) io
      exact ⟨code, _, data', hsave⟩

/-- **Recovery.** What a new process reads back is free by the binlog and large enough; it misses at most what the
data file missed, or what was found occupied. -/
theorem storageTrunkInit_spec {missed : Set Block} {data : Option Snapshot} (hlog : Logs m.binlog l)
    (hpaths : ∀ b ∈ freeBy m.binlog, b.path.storePathIndex < c.storePathCount)
    (hdata : ∀ d ∈ data, Trusted m.binlog missed d) (reload : Bool) (occupied : Block → Bool)
    (io : Except Errno Unit) :
    ∃ code m' data', storageTrunkInit c reload occupied io data m = (code, m', data') ∧ (io = .ok () → code = 0) ∧
      Recovered c {b | reload = false ∧ data.isSome ∧ (b ∈ missed ∨ occupied b = true)} m data m' data' := by
  have hclear := loaded_cleared m
  -- without a data file
  have hall : ∀ gap : Set Block, ∃ code m' data', storageTrunkRestore c 0 io none m.cleared = (code, m', data') ∧
      (io = .ok () → code = 0) ∧ Recovered c gap m none m' data' := fun gap =>
    storageTrunkRestore_spec hlog hpaths hclear le_rfl (Nat.zero_le _) (Set.empty_subset _) (by simp)
      (by simp [freeBy]) (fun _ => rfl) io none
  have hweak : ∀ {gap : Set Block} {m' : Mem} {data' : Option Snapshot}, Recovered c gap m none m' data' →
      Recovered c gap m data m' data' :=
    fun h => ⟨h.loaded, h.free, h.gap, fun d hd => .inr ((h.data d hd).resolve_left nofun)⟩
  unfold storageTrunkInit storageTrunkLoad
  cases reload with
  | true =>
    obtain ⟨code, m', data', hstep, hcode, hrec⟩ := hall _
    exact ⟨code, m', data', by simpa using hstep, hcode, hweak hrec⟩
  | false =>
    cases data with
    | none =>
      obtain ⟨code, m', data', hstep, hcode, hrec⟩ := hall _
      exact ⟨code, m', data', by simpa using hstep, hcode, hrec⟩
    | some d =>
      obtain ⟨⟨t, hot, htl, hlines, hrest⟩, hstart⟩ := hdata d rfl
      have hkept := hlog.kept
      rw [← List.take_append_drop t m.binlog, List.map_append, Journal.kept_append] at hkept
      have hapart : Journal.Apart Overlap (freeBy (m.binlog.take t)) :=
        Journal.Apart.run (Set.pairwise_empty _) hkept.1
      obtain ⟨hzero, hload⟩ := visit_doAddSpace (c := c) hclear occupied d.lines
      rw [redo_lines hapart (Set.empty_subset _) hlines, Set.empty_union] at hload
      have hgap : ∀ b ∈ freeBy (m.binlog.take t), Large c b →
          b ∉ ({b | b ∈ d.lines ∧ Large c b ∧ occupied b = false} : Set Block) →
          b ∈ ({b | b ∈ missed ∨ occupied b = true} : Set Block) := by
        intro b hb hbl hn
        rcases hrest b hb with hline | hmiss
        · refine .inr ?_
          by_contra hocc
          exact hn ⟨hline, hbl, by simpa using hocc⟩
        · exact .inl hmiss
      obtain ⟨code, m', data', hstep, hcode, hrec⟩ := storageTrunkRestore_spec hlog hpaths hload hot htl
        (fun b hb => hlines b hb.1) (fun b hb => hb.2.1) hgap (fun h0 => by simp [hstart h0]) io (some d)
      refine ⟨code, m', data', ?_, hcode, hrec.loaded, hrec.free, fun b hb hbl hn => ?_, hrec.data⟩
      · simp only [Bool.false_eq_true, if_false, hzero, if_true]
        exact hstep
      · exact ⟨rfl, rfl, hrec.gap b hb hbl hn⟩

/-! ## Any files at all -/

/-- Whatever the binlog says, the tree by offset is a tree of free nodes. -/
theorem replay_free (log : List Record) : ∀ {t : TreeNode Node}, Valid nodeCompareOffset t →
    (∀ n ∈ t.toList, n.status = .free) → ∀ n ∈ (log.foldl replayRecord t).toList, n.status = .free := by
  induction log with
  | nil => exact fun _ h => h
  | cons r log ih =>
    intro t hv hfree
    obtain ⟨op, b⟩ := r
    cases op with
    | addSpace =>
      refine ih hv.insert fun n hn => ?_
      simp only [replayRecord] at hn
      rw [(toList_insert hv).1, Ordered.insert, Ordered.mem_edit hv.sorted] at hn
      rcases hn with hn | ⟨hn, -⟩
      · cases hf : Ordered.find? nodeCompareOffset ⟨.free, b⟩ t.toList with
        | none =>
          obtain rfl : n = ⟨.free, b⟩ := by simpa [hf] using hn
          rfl
        | some n' =>
          obtain rfl : n = n' := by simpa [hf] using hn
          exact hfree n (Ordered.eq_of_find? hf).1
      · exact hfree n hn
    | delSpace =>
      refine ih hv.delete fun n hn => ?_
      simp only [replayRecord] at hn
      rw [(toList_delete hv).1, Ordered.erase, Ordered.mem_edit hv.sorted] at hn
      exact hfree n (hn.resolve_left (by simp)).1

/-- Whatever the data file and the binlog say, the memory is in order. -/
theorem storageTrunkInit_ok (reload : Bool) (occupied : Block → Bool) (io : Except Errno Unit)
    (data : Option Snapshot) : MemOk (storageTrunkInit c reload occupied io data m).2.1 := by
  have hsave : ∀ {m' : Mem} {data : Option Snapshot}, MemOk m' → MemOk (saveRestored c io data m').2.1 := by
    intro m' data hm'
    cases io <;> exact hm'
  have hrestore : ∀ {m' : Mem} (R : Set Block) (offset : Nat) (data : Option Snapshot), Loaded R m m' →
      MemOk (storageTrunkRestore c offset io data m').2.1 := by
    intro m' R offset data hm'
    have hwalk := Run.visit_sim (addSpaceByNode c)
      (fun R (n : Node) => Journal.redo Overlap (Large c) R (.add n.block)) (fun R m' => Loaded R m m')
      (m'.binlog.foldl replayRecord .nil).toList R m' (fun n hn R m' hm' =>
        addSpaceByNode_spec hm' (replay_free _ Valid.nil (by simp) n hn)) hm'
    rw [← walk_eq] at hwalk
    have hredo := visit_redo_spec (c := c) hm' (m'.binlog.drop offset)
    unfold storageTrunkRestore
    split_ifs
    · exact hm'.ok
    · exact hsave hm'.ok
    · simp only [hwalk.1, if_true]
      exact hsave hwalk.2.ok
    · simp only [hredo.1, if_true]
      exact hsave hredo.2.ok
  unfold storageTrunkInit storageTrunkLoad
  split_ifs
  · exact hrestore ∅ 0 none (loaded_cleared m)
  · cases data with
    | none => exact hrestore ∅ 0 none (loaded_cleared m)
    | some d =>
      obtain ⟨hzero, hload⟩ := visit_doAddSpace (c := c) (loaded_cleared m) occupied d.lines
      simp only [hzero, if_true]
      exact hrestore _ d.offset (some d) hload

end

end HahaDog.Trunk
