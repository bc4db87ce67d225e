import HahaDogOps.Storage.TrunkRestore

/-!
# The trunk server over whole runs

The trunk server works on many requests at once, and lets go of `trunk_mem_lock` inside a request. Here a call
of `trunk_mem.c` is a `Job` that is taken one locked section (or binlog write) further at a time, in any order with
the others:

| act | source |
|---|---|
| `alloc` | `trunk_alloc_space` (1436) until the lock is given back |
| `logCut`, `addRest` | the two halves of `trunk_split` (1327) |
| `grant` | the end of `trunk_alloc_space`: the block is held, and goes to the client |
| `confirm`, `logDone` | `trunk_alloc_confirm` (1525), `trunk_delete_space` (1205), `trunk_restore_node` (1282) |
| `free` | `trunk_free_space` (1051) |
| `advance`, `addFresh` | one turn of `trunk_create_trunk_file_advance` (1846) |
| `save` | `storage_trunk_save` (382) at any time; `written` is what the binlog file has got so far |
| `restart` | the process stops, all of its binlog written, and starts again (`storage_trunk_init`) |

`granted` and `live` are not in memory: they are the blocks that clients were given and have not confirmed, and
those that hold a file. Neither are `lost`, the blocks that are free by the binlog but were not read back, and
`missed`, those that the data file does not have. A request that fails in the middle loses its block too.
-/

namespace HahaDog.Trunk

/-- A call under way, with the block that is in none of the trees meanwhile. -/
inductive Job
  | cut (b : Block) (size : Nat)
  | rest (b : Block) (size : Nat)
  | grant (b : Block)
  | done (b : Block) (stored : Bool)
  | fresh (b : Block)

def Job.block : Job → Block
  | .cut b _ => b
  | .rest b _ => b
  | .grant b => b
  | .done b _ => b
  | .fresh b => b

structure Sys where
  mem : Mem
  data : Option Snapshot
  jobs : List Job
  granted : List Block
  live : List Block
  lost : List Block
  missed : List Block
  advanced : Nat

def Sys.init : Sys := ⟨Mem.init, none, [], [], [], [], [], 0⟩

/-- The acts. `i` picks a job, `io` is what the outside world answers. -/
inductive Act
  | alloc (path size : Nat) (sub : Nat → Nat × Nat) (io : Except Errno Unit)
  | logCut (i : Nat) (io : Except Errno Unit)
  | addRest (i : Nat) (io : Except Errno Unit)
  | grant (i : Nat) (io : Except Errno Unit)
  | confirm (b : Block) (status : Except Errno Unit)
  | logDone (i : Nat) (io : Except Errno Unit)
  | free (b : Block) (io : Except Errno Unit)
  | advance (path : Nat) (sub : Nat → Nat × Nat) (io : Except Errno Unit)
  | addFresh (i : Nat)
  | save (written : Nat)
  | restart (reload : Bool) (occupied : Block → Bool) (io : Except Errno Unit)

/-- The part of a node that `trunk_split` leaves free. -/
def Block.behind (b : Block) (size : Nat) : Block := { b with offset := b.offset + size, size := b.size - size }

/-- `trunk_alloc_confirm` drops the space when the file was written, or when something else was found there. -/
def confirmDeletes : Except Errno Unit → Bool
  | .ok () => true
  | .error e => e = .eexist

/-- The blocks that the binlog still counts as free although a job has them. -/
def Job.booked : Job → List Block
  | .cut b _ => [b]
  | .done b _ => [b]
  | .fresh b => [b]
  | .rest _ _ => []
  | .grant _ => []

/-- The free space as the binlog has it, less what is lost. -/
def booked (s : Sys) : List Block := held s.mem.byId ++ s.jobs.flatMap Job.booked

def step (c : Config) (s : Sys) : Act → Sys
  | .alloc path size sub io =>
    match allocTake c path size sub io s.mem with
    | (m, .ok n) => { s with mem := m, jobs := .cut n.block size :: s.jobs }
    | (m, .error _) => { s with mem := m }
  | .logCut i io =>
    match s.jobs[i]? with
    | some (.cut b size) =>
      let s := { s with mem := memBinlogWrite .delSpace b s.mem, jobs := s.jobs.eraseIdx i }
      match io with
      | .error _ => s
      | .ok () =>
        if b.size - size < c.slotMinSize then { s with jobs := .grant b :: s.jobs }
        else { s with jobs := .rest b size :: s.jobs }
    | _ => s
  | .addRest i io =>
    match s.jobs[i]? with
    | some (.rest b size) =>
      let s := { s with jobs := s.jobs.eraseIdx i }
      match addFreeBlock ⟨.free, b.behind size⟩ true io s.mem with
      | (m, .ok ()) => { s with mem := m, jobs := .grant { b with size := size } :: s.jobs }
      | (m, .error _) => { s with mem := m }
    | _ => s
  | .grant i io =>
    match s.jobs[i]? with
    | some (.grant b) =>
      let s := { s with jobs := s.jobs.eraseIdx i }
      match addFreeBlock ⟨.hold, b⟩ true io s.mem with
      | (m, .ok ()) => { s with mem := m, granted := b :: s.granted }
      | (m, .error _) => { s with mem := m }
    | _ => s
  | .confirm b status =>
    let s := { s with granted := s.granted.erase b }
    if confirmDeletes status then
      match deleteSpace ⟨.hold, b⟩ s.mem with
      | (m, .ok n) => { s with mem := m, jobs := .done n.block (status.toBool) :: s.jobs }
      | (m, .error _) => { s with mem := m }
    else { s with mem := (restoreNode ⟨.hold, b⟩ s.mem).1 }
  | .logDone i io =>
    match s.jobs[i]? with
    | some (.done b stored) =>
      let s := { s with mem := memBinlogWrite .delSpace b s.mem, jobs := s.jobs.eraseIdx i }
      if stored && io.toBool then { s with live := b :: s.live } else s
    | _ => s
  | .free b io => { s with mem := (trunkFreeSpace c b true io s.mem).1, live := s.live.erase b }
  | .advance path sub io =>
    match createTrunkFile c path sub io s.mem with
    | (m, .ok n) => { s with mem := m, jobs := .fresh n.block :: s.jobs }
    | (m, .error _) => { s with mem := m }
  | .addFresh i =>
    match s.jobs[i]? with
    | some (.fresh b) =>
      let s := { s with jobs := s.jobs.eraseIdx i }
      match addFreeBlock ⟨.free, b⟩ false (.ok ()) s.mem with
      | (m, .ok ()) => { s with mem := m, advanced := s.advanced + 1 }
      | (m, .error _) => { s with mem := m }
    | _ => s
  | .save written =>
    { s with
      data := some (storageTrunkSave c written s.mem)
      missed := s.jobs.flatMap Job.booked ++ s.lost }
  | .restart reload occupied io =>
    let (_, m, data) := storageTrunkInit c reload occupied io s.data s.mem
    let lost := (booked s ++ s.lost).filter (· ∉ held m.byId)
    { s with mem := m, data := data, jobs := [], granted := [], lost := lost, missed := s.missed ++ lost, advanced := 0 }

/-! ## Blocks that share no byte -/

/-- The blocks lie in existing files of some size, and no two of them have a byte in common. -/
structure Tiled (size : Nat) (files : List FileIdentifier) (l : List Block) : Prop where
  apart : l.Pairwise fun b c => ¬ Overlap b c
  inside : ∀ b ∈ l, 0 < b.size ∧ b.stop ≤ size ∧ b.file ∈ files

section
variable {size : Nat} {files : List FileIdentifier} {l l' : List Block} {b : Block}

instance : Std.Symm fun b c : Block => ¬ Overlap b c := ⟨fun _ _ h h' => h h'.symm⟩

theorem Tiled.perm (h : Tiled size files l) (hp : l'.Perm l) : Tiled size files l' :=
  ⟨(hp.pairwise_iff fun h h' => h h'.symm).2 h.apart, fun b hb => h.inside b (hp.mem_iff.1 hb)⟩

theorem Tiled.tail (h : Tiled size files (b :: l)) : Tiled size files l :=
  ⟨(List.pairwise_cons.1 h.apart).2, fun c hc => h.inside c (List.mem_cons_of_mem _ hc)⟩

/-- A block of a new file. -/
theorem Tiled.fresh (h : Tiled size files l) (hb : 0 < b.size) (hs : b.stop ≤ size) (hf : b.file ∉ files) :
    Tiled size (b.file :: files) (b :: l) := by
  refine ⟨List.pairwise_cons.2 ⟨fun c hc ho => ?_, h.apart⟩, fun c hc => ?_⟩
  · exact hf (ho.1 ▸ (h.inside c hc).2.2)
  · rcases List.mem_cons.1 hc with rfl | hc
    · exact ⟨hb, hs, List.mem_cons_self⟩
    · obtain ⟨h₁, h₂, h₃⟩ := h.inside c hc
      exact ⟨h₁, h₂, List.mem_cons_of_mem _ h₃⟩

/-- Cutting a block in two. -/
theorem Tiled.cut {k : Nat} (h : Tiled size files (b :: l)) (hk : 0 < k) (hkb : k < b.size) :
    Tiled size files (b.behind k :: { b with size := k } :: l) := by
  obtain ⟨hbl, hl⟩ := List.pairwise_cons.1 h.apart
  obtain ⟨-, hstop, hfile⟩ := h.inside b List.mem_cons_self
  have hpart : ∀ d : Block, d.file = b.file → b.offset ≤ d.offset → d.stop ≤ b.stop → ∀ c ∈ l, ¬ Overlap d c := by
    intro d hd hlo hhi c hc ho
    refine hbl c hc ⟨ho.1.trans hd, ?_, ?_⟩
    · have := ho.2.1
      omega
    · have := ho.2.2
      omega
  have hback : (b.behind k).stop = b.stop := by
    simp only [Block.behind, Block.stop]
    omega
  have hfront : Block.stop { b with size := k } ≤ b.stop := by
    simp only [Block.stop]
    omega
  refine ⟨List.pairwise_cons.2 ⟨fun c hc => ?_, List.pairwise_cons.2 ⟨hpart _ rfl le_rfl hfront, hl⟩⟩, ?_⟩
  · rcases List.mem_cons.1 hc with rfl | hc
    · rintro ⟨-, -, hm⟩
      simp only [Block.behind, Block.stop] at hm
      omega
    · exact hpart (b.behind k) rfl (by simp [Block.behind]) hback.le c hc
  · intro c hc
    rcases List.mem_cons.1 hc with rfl | hc
    · exact ⟨by simp only [Block.behind]; omega, hback.le.trans hstop, hfile⟩
    · rcases List.mem_cons.1 hc with rfl | hc
      · exact ⟨hk, hfront.trans hstop, hfile⟩
      · exact h.inside c (List.mem_cons_of_mem _ hc)

end

/-! ## The invariant -/

/-- The sizes a job works with. -/
def Job.Ok (c : Config) : Job → Prop
  | .cut b size => 0 < size ∧ size ≤ b.size
  | .rest b size => 0 < size ∧ c.slotMinSize ≤ b.size - size
  | .fresh b => b.size = c.trunkFileSize
  | _ => True

/-- Every block there is: free or held space, the jobs, the files, and what is lost. -/
def everything (s : Sys) : List Block := held s.mem.byId ++ (s.jobs.map Job.block ++ (s.live ++ s.lost))

structure Inv (c : Config) (s : Sys) : Prop where
  mem : MemOk s.mem
  tiled : Tiled c.trunkFileSize s.mem.files (everything s)
  jobs : ∀ j ∈ s.jobs, j.Ok c
  granted_nodup : s.granted.Nodup
  granted_held : ∀ b ∈ s.granted, InPool s.mem ⟨.hold, b⟩
  paths : ∀ f ∈ s.mem.files, f.path.storePathIndex < c.storePathCount
  logs : Logs s.mem.binlog (booked s ++ s.lost)
  data : ∀ d ∈ s.data, Trusted s.mem.binlog {b | b ∈ s.missed} d
  total : s.mem.totalFreeSpace = bytes (booked s) + c.trunkFileSize * s.advanced

/-- The clients keep to the protocol: they ask for space of a size that `trunk_check_size` lets pass, confirm what
they were granted, and free what holds their files. The store path is one of those there are, and a data file with
blocks is written only when the binlog file has something: a data file with offset `0` is not told from none. -/
def Proper (c : Config) (s : Sys) : Act → Prop
  | .alloc path size _ _ => 0 < size ∧ size ≤ c.slotMaxSize ∧ path < c.storePathCount
  | .confirm b _ => b ∈ s.granted
  | .free b _ => b ∈ s.live
  | .advance path _ _ => path < c.storePathCount
  | .save written => written ≤ s.mem.binlog.length ∧ (written = 0 → held s.mem.byId = [])
  | _ => True

instance (c : Config) (s : Sys) : ∀ a, Decidable (Proper c s a)
  | .alloc .. => inferInstanceAs (Decidable (_ ∧ _ ∧ _))
  | .confirm b _ => inferInstanceAs (Decidable (b ∈ s.granted))
  | .free b _ => inferInstanceAs (Decidable (b ∈ s.live))
  | .advance path _ _ => inferInstanceAs (Decidable (path < _))
  | .save _ => inferInstanceAs (Decidable (_ ∧ (_ → _)))
  | .logCut .. | .addRest .. | .grant .. | .logDone .. | .addFresh .. | .restart .. => isTrue trivial

theorem inv_init (c : Config) : Inv c Sys.init :=
  ⟨memOk_init, ⟨by simp [everything, Sys.init, held, Mem.init], by simp [everything, Sys.init, held, Mem.init]⟩,
    by simp [Sys.init], by simp [Sys.init], by simp [Sys.init], by simp [Sys.init, Mem.init],
    by simpa [booked, Sys.init, held, Mem.init] using Logs.nil, by simp [Sys.init],
    by simp [booked, Sys.init, held, Mem.init, bytes]⟩

section
variable {c : Config} {s : Sys} {i : Nat} {j : Job} {b : Block}

theorem jobs_perm (h : s.jobs[i]? = some j) : s.jobs.Perm (j :: s.jobs.eraseIdx i) := by
  obtain ⟨hi, rfl⟩ := List.getElem?_eq_some_iff.1 h
  exact (List.getElem_cons_eraseIdx_perm hi).symm

/-- Everything, seen from the job `i`. -/
theorem everything_perm (h : s.jobs[i]? = some j) : (everything s).Perm
    (j.block :: (held s.mem.byId ++ ((s.jobs.eraseIdx i).map Job.block ++ (s.live ++ s.lost)))) := by
  have hj := ((jobs_perm h).map Job.block).append_right (s.live ++ s.lost)
  exact (hj.append_left (held s.mem.byId)).trans List.perm_middle

theorem booked_perm (h : s.jobs[i]? = some j) : (booked s).Perm
    (j.booked ++ (held s.mem.byId ++ (s.jobs.eraseIdx i).flatMap Job.booked)) := by
  have hj := (jobs_perm h).flatMap_right Job.booked
  rw [List.flatMap_cons] at hj
  refine (hj.append_left (held s.mem.byId)).trans ?_
  rw [← List.append_assoc, ← List.append_assoc]
  exact List.perm_append_comm.append_right _

theorem booked_block : ∀ {j : Job} {b : Block}, b ∈ j.booked → b = j.block
  | .cut _ _, _, h => by simpa [Job.booked, Job.block] using h
  | .done _ _, _, h => by simpa [Job.booked, Job.block] using h
  | .fresh _, _, h => by simpa [Job.booked, Job.block] using h
  | .rest _ _, _, h => by simp [Job.booked] at h
  | .grant _, _, h => by simp [Job.booked] at h

/-- What is free by the binlog, or holds a file, is part of everything. -/
theorem booked_subperm (s : Sys) : (booked s ++ s.lost ++ s.live).Subperm (everything s) := by
  have hjobs : ∀ jobs : List Job, (jobs.flatMap Job.booked).Sublist (jobs.map Job.block) := by
    intro jobs
    induction jobs with
    | nil => exact .refl _
    | cons j jobs ih =>
      rw [List.flatMap_cons, List.map_cons, ← List.singleton_append]
      refine List.Sublist.append ?_ ih
      cases j <;> simp [Job.booked, Job.block]
  have hsub := ((List.Sublist.refl (held s.mem.byId)).append (hjobs s.jobs)).append (.refl (s.live ++ s.lost))
  have hperm : (booked s ++ s.lost ++ s.live).Perm (booked s ++ (s.live ++ s.lost)) := by
    rw [List.append_assoc]
    exact List.perm_append_comm.append_left _
  refine hperm.subperm.trans (hsub.subperm.trans (List.Perm.of_eq ?_).subperm)
  rw [everything, List.append_assoc]

theorem booked_subset (s : Sys) : ∀ b ∈ booked s ++ s.lost, b ∈ everything s := fun _ hb =>
  (booked_subperm s).subset (List.mem_append_left _ hb)

theorem Tiled.nodup {size : Nat} {files : List FileIdentifier} {l : List Block} (h : Tiled size files l) : l.Nodup := by
  refine List.Pairwise.imp_of_mem ?_ h.apart
  rintro b d hb - hno rfl
  exact hno (overlap_self (h.inside b hb).1)

theorem Tiled.subperm {size : Nat} {files : List FileIdentifier} {l l' : List Block} (h : Tiled size files l)
    (hp : l'.Subperm l) : Tiled size files l' := by
  obtain ⟨l₀, hp₀, hsub⟩ := hp
  have h₀ : Tiled size files l₀ := ⟨h.apart.sublist hsub, fun b hb => h.inside b (hsub.subset hb)⟩
  exact h₀.perm hp₀.symm

theorem Inv.logs_nodup (hs : Inv c s) : (booked s ++ s.lost).Nodup :=
  (hs.tiled.subperm (booked_subperm s)).nodup.of_append_left

theorem Inv.mem_jobs (hs : Inv c s) (h : s.jobs[i]? = some j) : j.Ok c ∧ ∀ j' ∈ s.jobs.eraseIdx i, j'.Ok c :=
  ⟨hs.jobs j (List.mem_of_getElem? h), fun j' hj' => hs.jobs j' (List.mem_of_mem_eraseIdx hj')⟩

/-! ## One act -/

/-- A new trunk file, first in the hands of a job. -/
theorem Inv.fresh_file (hs : Inv c s) {id : Nat} (hfile : b.file ∉ s.mem.files) (hoff : b.offset = 0)
    (hsize : b.size = c.trunkFileSize) (hpath : b.path.storePathIndex < c.storePathCount) {j : Job}
    (hj : j.block = b) (hbooked : j.booked = [b]) (hok : j.Ok c) :
    Inv c { s with
      mem := memBinlogWrite .addSpace b { s.mem with currentTrunkFileId := id, files := b.file :: s.mem.files }
      jobs := j :: s.jobs } := by
  have hpos : 0 < b.size := by
    have := c.slotMinSize_pos
    have := c.slotMinSize_lt
    have := c.slotMaxSize_le
    omega
  have hstop : b.stop ≤ c.trunkFileSize := by
    simp only [Block.stop]
    omega
  have hbk : (held s.mem.byId ++ (j :: s.jobs).flatMap Job.booked).Perm (b :: booked s) := by
    rw [List.flatMap_cons, hbooked]
    exact List.perm_middle
  refine ⟨⟨hs.mem.slots, hs.mem.checker, hs.mem.agree⟩, ?_, ?_, hs.granted_nodup, hs.granted_held, ?_, ?_,
    fun d hd => (hs.data d hd).later, ?_⟩
  · refine (hs.tiled.fresh hpos hstop hfile).perm ?_
    rw [everything, List.map_cons, hj]
    exact List.perm_middle
  · exact List.forall_mem_cons.2 ⟨hok, hs.jobs⟩
  · exact List.forall_mem_cons.2 ⟨hpath, hs.paths⟩
  · refine (hs.logs.add hpos fun d hd ho => ?_).perm (hbk.append_right _)
    exact hfile (ho.1 ▸ (hs.tiled.inside d (booked_subset _ d hd)).2.2)
  · have := hs.total
    simp only [memBinlogWrite, booked]
    rw [bytes_perm hbk, bytes_cons, this]
    omega

theorem Inv.alloc (hs : Inv c s) {path size : Nat} {sub : Nat → Nat × Nat} {io : Except Errno Unit}
    (hsize : 0 < size ∧ size ≤ c.slotMaxSize ∧ path < c.storePathCount) :
    Inv c (step c s (.alloc path size sub io)) := by
  rcases allocTake_cases hs.mem path size sub io (c := c) with ⟨n, m, hstep, hrem, hfree, -, hle, -⟩ | ⟨hstep, -⟩
  · -- a node moves from the trees to the job
    have hkeep := hrem.rest
    have hperm : (held m.byId ++ (n.block :: s.jobs.map Job.block ++ (s.live ++ s.lost))).Perm (everything s) :=
      List.perm_middle.trans (hrem.held.symm.append_right _)
    have hbk : (held m.byId ++ (.cut n.block size :: s.jobs).flatMap Job.booked).Perm (booked s) :=
      List.perm_middle.trans (hrem.held.symm.append_right _)
    simp only [step, hstep]
    refine ⟨hrem.ok, ?_, ?_, hs.granted_nodup, fun b hb => ?_, hkeep ▸ hs.paths, ?_, hkeep ▸ hs.data, ?_⟩
    · rw [hkeep]
      exact hs.tiled.perm hperm
    · exact List.forall_mem_cons.2 ⟨⟨hsize.1, by omega⟩, hs.jobs⟩
    · refine ((hrem.pool _).1 (hs.granted_held b hb)).resolve_left ?_
      rintro rfl
      cases hfree
    · rw [hkeep]
      exact hs.logs.perm (hbk.append_right _)
    · have := hs.total
      simp only [booked] at hbk ⊢
      rw [hkeep, bytes_perm hbk]
      exact this
  · rcases createTrunkFile_cases c path sub io s.mem with ⟨b, id, hfile, hoff, hb, hpath, hnew⟩ | ⟨e, id, hnew⟩
    · simp only [step, hstep, hnew]
      refine hs.fresh_file hfile hoff hb (hpath ▸ hsize.2.2) rfl rfl ⟨hsize.1, ?_⟩
      have := c.slotMaxSize_le
      omega
    · simp only [step, hstep, hnew]
      exact ⟨⟨hs.mem.slots, hs.mem.checker, hs.mem.agree⟩, hs.tiled, hs.jobs, hs.granted_nodup, hs.granted_held,
        hs.paths, hs.logs, hs.data, hs.total⟩

theorem Inv.advance (hs : Inv c s) {path : Nat} {sub : Nat → Nat × Nat} {io : Except Errno Unit}
    (hp : path < c.storePathCount) : Inv c (step c s (.advance path sub io)) := by
  rcases createTrunkFile_cases c path sub io s.mem with ⟨b, id, hfile, hoff, hb, hpath, hnew⟩ | ⟨e, id, hnew⟩
  · simp only [step, hnew]
    exact hs.fresh_file hfile hoff hb (hpath ▸ hp) rfl rfl hb
  · simp only [step, hnew]
    exact ⟨⟨hs.mem.slots, hs.mem.checker, hs.mem.agree⟩, hs.tiled, hs.jobs, hs.granted_nodup, hs.granted_held,
      hs.paths, hs.logs, hs.data, hs.total⟩

/-- A job writes that its block is no longer free, and hands the block on to another job or to a client. -/
theorem Inv.log_del (hs : Inv c s) (h : s.jobs[i]? = some j) (hj : j.booked = [b]) (jobs : List Job)
    (live : List Block) (hok : ∀ j ∈ jobs, j.Ok c) (hbooked : jobs.flatMap Job.booked = [])
    (hkeep : (jobs.map Job.block ++ live).Perm [b] ∨ jobs.map Job.block ++ live = []) :
    Inv c { s with
      mem := memBinlogWrite .delSpace b s.mem
      jobs := jobs ++ s.jobs.eraseIdx i
      live := live ++ s.live } := by
  have hblock : j.block = b := (booked_block (hj ▸ List.mem_singleton_self b)).symm
  have hbk : (booked s).Perm (b :: (held s.mem.byId ++ (jobs ++ s.jobs.eraseIdx i).flatMap Job.booked)) := by
    have := booked_perm h
    rw [hj] at this
    simpa [hbooked] using this
  have htiled := hs.tiled.perm (everything_perm h).symm
  refine ⟨⟨hs.mem.slots, hs.mem.checker, hs.mem.agree⟩, ?_, ?_, hs.granted_nodup, hs.granted_held, hs.paths, ?_,
    fun d hd => (hs.data d hd).later, ?_⟩
  · have hperm : (everything { s with
        mem := memBinlogWrite .delSpace b s.mem
        jobs := jobs ++ s.jobs.eraseIdx i
        live := live ++ s.live }).Perm ((jobs.map Job.block ++ live) ++
          (held s.mem.byId ++ ((s.jobs.eraseIdx i).map Job.block ++ (s.live ++ s.lost)))) := by
      rw [← Multiset.coe_eq_coe]
      simp only [everything, memBinlogWrite, List.map_append, ← Multiset.coe_add]
      abel
    rcases hkeep with hkeep | hkeep
    · exact htiled.perm (hperm.trans (hblock ▸ hkeep.append_right _))
    · rw [hkeep] at hperm
      exact htiled.tail.perm hperm
  · intro j' hj'
    rcases List.mem_append.1 hj' with h' | h'
    · exact hok j' h'
    · exact (hs.mem_jobs h).2 j' h'
  · have hlogs := hs.logs.perm (hbk.append_right s.lost).symm
    refine hlogs.del fun hb => ?_
    have hnodup := hs.logs_nodup
    rw [(hbk.append_right s.lost).nodup_iff] at hnodup
    exact (List.nodup_cons.1 hnodup).1 hb
  · have := hs.total
    rw [bytes_perm hbk, bytes_cons] at this
    simp only [memBinlogWrite, booked]
    omega

/-- What is left besides a block that is about to become free keeps away from it. -/
theorem Inv.add_cases {n : Node} {jobs : List Job} {live : List Block} (hs : Inv c s)
    (htiled : Tiled c.trunkFileSize s.mem.files (n.block :: (held s.mem.byId ++ (jobs.map Job.block ++ live))))
    (writeBinLog : Bool) (io : Except Errno Unit) :
    addFreeBlock n writeBinLog io s.mem = (afterAdd n writeBinLog s.mem, if writeBinLog then io else .ok ()) ∧
      Added n s.mem (afterAdd n writeBinLog s.mem) := by
  refine addFreeBlock_spec hs.mem (htiled.inside _ List.mem_cons_self).1 (fun c hc => ?_) writeBinLog io
  exact (List.pairwise_cons.1 htiled.apart).1 c (List.mem_append_left _ hc)

/-- A block becomes free space, or held space that `granted` may speak of, and the binlog says so. -/
theorem Inv.add_logged {n : Node} {jobs : List Job} {granted live : List Block} (hs : Inv c s)
    (htiled : Tiled c.trunkFileSize s.mem.files
      (n.block :: (held s.mem.byId ++ (jobs.map Job.block ++ (live ++ s.lost)))))
    (hjobs : ∀ j ∈ jobs, j.Ok c) (hbooked : (booked s).Perm (held s.mem.byId ++ jobs.flatMap Job.booked))
    (hnodup : granted.Nodup) (hgranted : ∀ b ∈ granted, (⟨.hold, b⟩ : Node) = n ∨ b ∈ s.granted) :
    Inv c { s with mem := afterAdd n true s.mem, jobs := jobs, granted := granted, live := live } := by
  obtain ⟨-, hadd⟩ := hs.add_cases htiled true (.ok ())
  have hbk : (held (afterAdd n true s.mem).byId ++ jobs.flatMap Job.booked).Perm (n.block :: booked s) :=
    (hadd.held.append_right _).trans (hbooked.symm.cons _)
  refine ⟨hadd.ok, ?_, hjobs, hnodup, fun b hb => ?_, hadd.files.1 ▸ hs.paths, ?_,
    fun d hd => (hs.data d hd).later, ?_⟩
  · rw [hadd.files.1]
    exact htiled.perm (hadd.held.append_right _)
  · exact (hadd.pool _).2 ((hgranted b hb).imp_right (hs.granted_held b))
  · refine (hs.logs.add (htiled.inside _ List.mem_cons_self).1 fun d hd => ?_).perm (hbk.append_right _)
    have hd' := (hbooked.append_right s.lost).mem_iff.1 hd
    exact (List.pairwise_cons.1 htiled.apart).1 d (booked_subset { s with jobs := jobs, live := live } d hd')
  · have hsum := bytes_perm hbk
    rw [bytes_cons] at hsum
    show s.mem.totalFreeSpace + n.block.size = bytes (held (afterAdd n true s.mem).byId ++ jobs.flatMap Job.booked) +
      c.trunkFileSize * s.advanced
    rw [hsum, hs.total]
    omega

theorem Inv.logCut (hs : Inv c s) {io : Except Errno Unit} : Inv c (step c s (.logCut i io)) := by
  cases h : s.jobs[i]? with
  | none => simpa [step, h] using hs
  | some j =>
    cases j with
    | cut b size =>
      obtain ⟨hsize, hle⟩ : 0 < size ∧ size ≤ b.size := (hs.mem_jobs h).1
      cases io with
      | error e => simpa [step, h] using hs.log_del h rfl [] [] (by simp) rfl (.inr rfl)
      | ok u =>
        by_cases hmin : b.size - size < c.slotMinSize
        · simpa [step, h, hmin] using hs.log_del h rfl [.grant b] [] (by simp [Job.Ok]) rfl
            (.inl (.refl _))
        · have hok : ∀ j ∈ [Job.rest b size], j.Ok c := by simpa [Job.Ok] using ⟨hsize, by omega⟩
          simpa [step, h, hmin] using hs.log_del h rfl [.rest b size] [] hok rfl (.inl (.refl _))
    | rest b size => simpa [step, h] using hs
    | grant b => simpa [step, h] using hs
    | done b stored => simpa [step, h] using hs
    | fresh b => simpa [step, h] using hs

theorem Inv.logDone (hs : Inv c s) {io : Except Errno Unit} : Inv c (step c s (.logDone i io)) := by
  cases h : s.jobs[i]? with
  | none => simpa [step, h] using hs
  | some j =>
    cases j with
    | done b stored =>
      by_cases hlive : (stored && io.toBool) = true
      · simpa [step, h, hlive] using hs.log_del h rfl [] [b] (by simp) rfl (.inl (.refl _))
      · simpa [step, h, hlive] using hs.log_del h rfl [] [] (by simp) rfl (.inr rfl)
    | cut b size => simpa [step, h] using hs
    | rest b size => simpa [step, h] using hs
    | grant b => simpa [step, h] using hs
    | fresh b => simpa [step, h] using hs

theorem Inv.addRest (hs : Inv c s) {io : Except Errno Unit} : Inv c (step c s (.addRest i io)) := by
  cases h : s.jobs[i]? with
  | none => simpa [step, h] using hs
  | some j =>
    cases j with
    | rest b size =>
      obtain ⟨hsize, hmin⟩ : 0 < size ∧ c.slotMinSize ≤ b.size - size := (hs.mem_jobs h).1
      have hpos := c.slotMinSize_pos
      have hcut := (hs.tiled.perm (everything_perm h).symm).cut hsize (show size < b.size by omega)
      have hbk : (booked s).Perm (held s.mem.byId ++ (s.jobs.eraseIdx i).flatMap Job.booked) := booked_perm h
      -- the front part: to the job, or lost
      have hgrant : Tiled c.trunkFileSize s.mem.files (b.behind size ::
          (held s.mem.byId ++ ((Job.grant { b with size := size } :: s.jobs.eraseIdx i).map Job.block ++
            (s.live ++ s.lost)))) :=
        hcut.perm (List.perm_middle.cons _)
      have hlost : Tiled c.trunkFileSize s.mem.files (b.behind size ::
          (held s.mem.byId ++ ((s.jobs.eraseIdx i).map Job.block ++ (s.live ++ s.lost)))) :=
        (hcut.perm (List.Perm.swap ..)).tail
      obtain ⟨hadd, -⟩ := hs.add_cases (n := ⟨.free, b.behind size⟩) hlost true io
      rw [if_pos rfl] at hadd
      cases io with
      | ok u =>
        have hok : ∀ j ∈ Job.grant { b with size := size } :: s.jobs.eraseIdx i, j.Ok c :=
          List.forall_mem_cons.2 ⟨trivial, (hs.mem_jobs h).2⟩
        simpa [step, h, hadd] using hs.add_logged (n := ⟨.free, b.behind size⟩) hgrant hok hbk hs.granted_nodup
          fun b hb => .inr hb
      | error e =>
        simpa [step, h, hadd] using hs.add_logged (n := ⟨.free, b.behind size⟩) hlost (hs.mem_jobs h).2 hbk
          hs.granted_nodup fun b hb => .inr hb
    | cut b size => simpa [step, h] using hs
    | grant b => simpa [step, h] using hs
    | done b stored => simpa [step, h] using hs
    | fresh b => simpa [step, h] using hs

/-- A block of a job is not in the trees, so no client holds it. -/
theorem Inv.not_granted (hs : Inv c s) (h : s.jobs[i]? = some j) : j.block ∉ s.granted := by
  intro hb
  have htiled := hs.tiled.perm (everything_perm h).symm
  have hheld : j.block ∈ held s.mem.byId := hs.mem.mem_held.2 ⟨_, hs.granted_held _ hb⟩
  refine (List.pairwise_cons.1 htiled.apart).1 _ (List.mem_append_left _ hheld) ⟨rfl, ?_⟩
  have := (htiled.inside _ List.mem_cons_self).1
  simp only [Meets, Block.stop]
  omega

theorem Inv.grant (hs : Inv c s) {io : Except Errno Unit} : Inv c (step c s (.grant i io)) := by
  cases h : s.jobs[i]? with
  | none => simpa [step, h] using hs
  | some j =>
    cases j with
    | grant b =>
      have htiled := hs.tiled.perm (everything_perm h).symm
      have hbk : (booked s).Perm (held s.mem.byId ++ (s.jobs.eraseIdx i).flatMap Job.booked) := booked_perm h
      obtain ⟨hadd, -⟩ := hs.add_cases (n := ⟨.hold, b⟩) htiled true io
      rw [if_pos rfl] at hadd
      cases io with
      | ok u =>
        have hnodup : (b :: s.granted).Nodup := List.nodup_cons.2 ⟨hs.not_granted h, hs.granted_nodup⟩
        have hgranted : ∀ d ∈ b :: s.granted, (⟨.hold, d⟩ : Node) = ⟨.hold, b⟩ ∨ d ∈ s.granted := by
          intro d hd
          rcases List.mem_cons.1 hd with rfl | hd
          · exact .inl rfl
          · exact .inr hd
        simpa [step, h, hadd] using hs.add_logged htiled (hs.mem_jobs h).2 hbk hnodup hgranted
      | error e =>
        simpa [step, h, hadd] using hs.add_logged (n := ⟨.hold, b⟩) htiled (hs.mem_jobs h).2 hbk hs.granted_nodup
          fun b hb => .inr hb
    | cut b size => simpa [step, h] using hs
    | rest b size => simpa [step, h] using hs
    | done b stored => simpa [step, h] using hs
    | fresh b => simpa [step, h] using hs

/-- A file created in advance is counted twice: when it is made, and when it is added. -/
theorem Inv.addFresh (hs : Inv c s) : Inv c (step c s (.addFresh i)) := by
  cases h : s.jobs[i]? with
  | none => simpa [step, h] using hs
  | some j =>
    cases j with
    | fresh b =>
      have hsize : b.size = c.trunkFileSize := (hs.mem_jobs h).1
      have htiled := hs.tiled.perm (everything_perm h).symm
      obtain ⟨hstep, hadd⟩ := hs.add_cases (n := ⟨.free, b⟩) htiled false (.ok ())
      rw [if_neg (by simp)] at hstep
      have hbk : (held (afterAdd ⟨.free, b⟩ false s.mem).byId ++ (s.jobs.eraseIdx i).flatMap Job.booked).Perm
          (booked s) := (hadd.held.append_right _).trans (booked_perm h).symm
      simp only [step, h, hstep]
      refine ⟨hadd.ok, ?_, (hs.mem_jobs h).2, hs.granted_nodup, fun d hd => ?_, hadd.files.1 ▸ hs.paths, ?_, hs.data, ?_⟩
      · rw [hadd.files.1]
        exact htiled.perm (hadd.held.append_right _)
      · exact (hadd.pool _).2 (.inr (hs.granted_held d hd))
      · exact hs.logs.perm (hbk.append_right _)
      · show s.mem.totalFreeSpace + b.size = bytes (held (afterAdd ⟨.free, b⟩ false s.mem).byId ++
          (s.jobs.eraseIdx i).flatMap Job.booked) + c.trunkFileSize * (s.advanced + 1 : Nat)
        rw [bytes_perm hbk, hs.total, hsize]
        push_cast
        ring
    | cut b size => simpa [step, h] using hs
    | rest b size => simpa [step, h] using hs
    | grant b => simpa [step, h] using hs
    | done b stored => simpa [step, h] using hs

theorem Inv.confirm (hs : Inv c s) {status : Except Errno Unit} (hb : b ∈ s.granted) :
    Inv c (step c s (.confirm b status)) := by
  have hin := hs.granted_held b hb
  have hother : ∀ d ∈ s.granted.erase b, (⟨.hold, d⟩ : Node) ≠ ⟨.hold, b⟩ := by
    intro d hd he
    obtain rfl : d = b := congrArg Node.block he
    exact hs.granted_nodup.not_mem_erase hd
  by_cases hdel : confirmDeletes status = true
  · obtain ⟨m, hstep, hrem⟩ := (deleteSpace_spec hs.mem).1 hin
    have hkeep := hrem.rest
    have hperm : (held m.byId ++ (b :: s.jobs.map Job.block ++ (s.live ++ s.lost))).Perm (everything s) :=
      List.perm_middle.trans (hrem.held.symm.append_right _)
    have hbk : (held m.byId ++ (.done b status.toBool :: s.jobs).flatMap Job.booked).Perm (booked s) :=
      List.perm_middle.trans (hrem.held.symm.append_right _)
    simp only [step, hdel, if_true, hstep]
    refine ⟨hrem.ok, ?_, List.forall_mem_cons.2 ⟨trivial, hs.jobs⟩, hs.granted_nodup.erase b, fun d hd => ?_,
      hkeep ▸ hs.paths, ?_, hkeep ▸ hs.data, ?_⟩
    · rw [hkeep]
      exact hs.tiled.perm hperm
    · exact ((hrem.pool _).1 (hs.granted_held d (List.mem_of_mem_erase hd))).resolve_left (hother d hd)
    · rw [hkeep]
      exact hs.logs.perm (hbk.append_right _)
    · show m.totalFreeSpace = bytes (held m.byId ++ (.done b status.toBool :: s.jobs).flatMap Job.booked) +
        c.trunkFileSize * s.advanced
      rw [hkeep, bytes_perm hbk]
      exact hs.total
  · obtain ⟨m, hstep, hok, hkeep, hpool⟩ := (restoreNode_spec hs.mem).1 hin
    simp only [step, hdel, hstep]
    rw [hkeep] at hok ⊢
    refine ⟨hok, hs.tiled, hs.jobs, hs.granted_nodup.erase b, fun d hd => ?_, hs.paths, hs.logs, hs.data, hs.total⟩
    exact hkeep ▸ hpool _ (hs.granted_held d (List.mem_of_mem_erase hd)) (hother d hd)

/-- Everything, seen from a live block. -/
theorem everything_live (hb : b ∈ s.live) : (everything s).Perm
    (b :: (held s.mem.byId ++ (s.jobs.map Job.block ++ (s.live.erase b ++ s.lost)))) := by
  have := ((List.perm_cons_erase hb).append_right s.lost).append_left (held s.mem.byId ++ s.jobs.map Job.block)
  simpa [everything] using this.trans List.perm_middle

theorem Inv.free (hs : Inv c s) {io : Except Errno Unit} (hb : b ∈ s.live) : Inv c (step c s (.free b io)) := by
  have htiled := hs.tiled.perm (everything_live hb).symm
  by_cases hmin : b.size < c.slotMinSize
  · simp only [step, trunkFreeSpace, hmin, if_true]
    exact ⟨hs.mem, htiled.tail, hs.jobs, hs.granted_nodup, hs.granted_held, hs.paths, hs.logs, hs.data, hs.total⟩
  · obtain ⟨hstep, -⟩ := hs.add_cases (n := ⟨.free, b⟩) htiled true io
    simp only [step, trunkFreeSpace, hmin, if_false, hstep]
    exact hs.add_logged (n := ⟨.free, b⟩) htiled hs.jobs (.refl _) hs.granted_nodup fun b hb => .inr hb

theorem Inv.free_paths (hs : Inv c s) : ∀ b ∈ freeBy s.mem.binlog, b.path.storePathIndex < c.storePathCount := by
  intro b hb
  rw [hs.logs.free] at hb
  exact hs.paths _ (hs.tiled.inside b (booked_subset s b hb)).2.2

theorem Inv.save (hs : Inv c s) {written : Nat}
    (hw : written ≤ s.mem.binlog.length ∧ (written = 0 → held s.mem.byId = [])) :
    Inv c (step c s (.save written)) := by
  refine ⟨hs.mem, hs.tiled, hs.jobs, hs.granted_nodup, hs.granted_held, hs.paths, hs.logs, ?_, hs.total⟩
  show ∀ d ∈ some (storageTrunkSave c written s.mem),
    Trusted s.mem.binlog {b | b ∈ s.jobs.flatMap Job.booked ++ s.lost} d
  rintro d hd
  obtain rfl : storageTrunkSave c written s.mem = d := Option.some.inj hd
  have hfree := hs.logs.free
  refine trusted_save hs.mem hw.1 (fun b hb => ?_) hw.2 fun b hb => ?_
  · rw [hfree]
    exact List.mem_append_left _ (List.mem_append_left _ hb)
  · have hpath := hs.free_paths b hb
    rw [hfree] at hb
    rcases List.mem_append.1 hb with hb | hb
    · rcases List.mem_append.1 hb with hb | hb
      · exact .inl ⟨hb, hpath⟩
      · exact .inr (List.mem_append_left _ hb)
    · exact .inr (List.mem_append_right _ hb)

/-- What is read back together with what is lost is what was free by the binlog. -/
theorem restart_perm {l held' : List Block} (hl : l.Nodup) (hnodup : held'.Nodup) (hsub : ∀ b ∈ held', b ∈ l) :
    (held' ++ l.filter (· ∉ held')).Perm l := by
  refine (List.perm_ext_iff_of_nodup ?_ hl).2 fun b => ?_
  · refine hnodup.append (hl.filter _) fun b hb hb' => ?_
    simpa [hb] using (List.mem_filter.1 hb').2
  · simp only [List.mem_append, List.mem_filter, decide_eq_true_eq]
    constructor
    · rintro (hb | hb)
      · exact hsub b hb
      · exact hb.1
    · intro hb
      by_cases hb' : b ∈ held'
      · exact .inl hb'
      · exact .inr ⟨hb, hb'⟩

theorem Inv.restart (hs : Inv c s) {reload : Bool} {occupied : Block → Bool} {io : Except Errno Unit} :
    Inv c (step c s (.restart reload occupied io)) := by
  have hfree := hs.logs.free
  obtain ⟨code, m, data, hstep, -, hrec⟩ := storageTrunkInit_spec hs.logs hs.free_paths hs.data reload occupied io
  have hperm := restart_perm hs.logs_nodup hrec.loaded.ok.checker.nodup fun b hb => by
    have := (hrec.free b hb).1
    rwa [hfree] at this
  obtain ⟨hlog, hfiles, -⟩ := hrec.loaded.rest
  simp only [step, hstep]
  refine ⟨hrec.loaded.ok, ?_, nofun, List.nodup_nil, nofun, hfiles ▸ hs.paths, ?_, fun d hd => ?_, ?_⟩
  · have htiled := hs.tiled.subperm (booked_subperm s)
    rw [hfiles]
    refine htiled.perm ?_
    have hmove := (hperm.append_right s.live).symm
    refine List.Perm.trans ?_ hmove.symm
    simp only [everything, List.map_nil, List.nil_append, List.append_assoc]
    exact List.perm_append_comm.append_left _
  · rw [hlog]
    exact hs.logs.perm (by simpa [booked] using hperm)
  · rw [hlog]
    rcases hrec.data d hd with hold | hnew
    · exact (hs.data d hold).mono fun b hb => List.mem_append_left _ hb
    · refine hnew.mono ?_
      rintro b ⟨hb, hn⟩
      rw [hfree] at hb
      exact List.mem_append_right _ (List.mem_filter.2 ⟨hb, by simpa using hn⟩)
  · have := hrec.loaded.total
    simpa [booked] using this

/-- **One act keeps the invariant.** -/
theorem Inv.step (hs : Inv c s) {a : Act} (ha : Proper c s a) : Inv c (step c s a) := by
  cases a with
  | alloc path size sub io => exact hs.alloc ha
  | logCut i io => exact hs.logCut
  | addRest i io => exact hs.addRest
  | grant i io => exact hs.grant
  | confirm b status => exact hs.confirm ha
  | logDone i io => exact hs.logDone
  | free b io => exact hs.free ha
  | advance path sub io => exact hs.advance ha
  | addFresh i => exact hs.addFresh
  | save written => exact hs.save ha
  | restart reload occupied io => exact hs.restart

theorem inv_run (acts : List Act) (h : Run.Along (step c) (Proper c) Sys.init acts) :
    Inv c (Run.run (step c) Sys.init acts) :=
  Run.inv_run (fun _ _ hs ha => hs.step ha) acts Sys.init (inv_init c) h

end

end HahaDog.Trunk
