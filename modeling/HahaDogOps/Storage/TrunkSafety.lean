import HahaDogOps.Storage.TrunkRuns

/-!
# What the trunk server guarantees

The results about whole runs of `TrunkRuns`: who may use which bytes of the trunk files, what the free space
counter means, what a request gets, and what is left after a restart.
-/

namespace HahaDog.Trunk

open Avl

section
variable {c : Config} {s : Sys} {m : Mem} {b : Block}

/-- A block is in the slot trees once, free or held. -/
theorem MemOk.status_unique (hm : MemOk m) {st st' : Status} (h : InPool m ⟨st, b⟩) (h' : InPool m ⟨st', b⟩) :
    st = st' := by
  have hnodup : ((nodes (m.sizes b.path.storePathIndex)).map (·.block)).Nodup :=
    (hm.agree _).nodup_iff.2 (hm.checker.nodup.filter _)
  have := List.inj_on_of_nodup_map hnodup h h' rfl
  exact congrArg Node.status this

/-- The blocks clients may write to or have files in are part of everything. -/
theorem Inv.tenants (hs : Inv c s) : Tiled c.trunkFileSize s.mem.files (s.granted ++ s.live) := by
  have hgranted : s.granted.Subperm (held s.mem.byId) :=
    hs.granted_nodup.subperm fun b hb => hs.mem.mem_held.2 ⟨_, hs.granted_held b hb⟩
  refine hs.tiled.subperm ((List.subperm_append_right s.live).2 hgranted |>.trans ?_)
  refine List.Sublist.subperm ((List.Sublist.refl _).append ?_)
  exact (List.sublist_append_left s.live s.lost).trans (List.sublist_append_right _ _)

/-- Free space keeps away from the clients' blocks. -/
theorem Inv.free_apart (hs : Inv c s) {n : Node} (hn : InPool s.mem n) (hfree : n.status = .free)
    (hb : b ∈ s.granted ++ s.live) : ¬ Overlap n.block b := by
  obtain ⟨st, d⟩ := n
  obtain rfl : st = .free := hfree
  have hheld : d ∈ held s.mem.byId := hs.mem.mem_held.2 ⟨_, hn⟩
  rcases List.mem_append.1 hb with hb | hb
  · intro ho
    have hb' := hs.granted_held b hb
    have hne : d ≠ b := by
      rintro rfl
      cases hs.mem.status_unique hn hb'
    exact hs.mem.checker.pairwise.forall hheld (hs.mem.mem_held.2 ⟨_, hb'⟩) hne ho
  · have hapart := (List.pairwise_append.1 hs.tiled.apart).2.2 d hheld b
    exact hapart (List.mem_append_right _ (List.mem_append_left _ hb))

end

def smallTrunks : Config := ⟨1, 256, 1024, 4096, by decide, by decide, by decide⟩

/-- One file is stored, a data file is written that is behind the binlog, a second block is granted. -/
def twoUploads : List Act :=
  [.alloc 0 500 (fun _ => (0, 0)) (.ok ()), .logCut 0 (.ok ()), .addRest 0 (.ok ()), .grant 0 (.ok ()),
    .confirm ⟨⟨0, 0, 0⟩, 1, 0, 500⟩ (.ok ()), .logDone 0 (.ok ()), .save 3,
    .alloc 0 600 (fun _ => (0, 0)) (.ok ()), .logCut 0 (.ok ()), .addRest 0 (.ok ()), .grant 0 (.ok ())]

/-- A job that will add nothing empty. -/
def Job.Sized (c : Config) : Job → Prop
  | .cut b size => 0 < b.size ∧ 0 < size
  | .rest b size => c.slotMinSize ≤ b.size - size ∧ 0 < size
  | .grant b => 0 < b.size
  | .fresh b => 0 < b.size
  | .done _ _ => True

/-- The memory is in order, whatever the clients believe. -/
structure Sound (c : Config) (s : Sys) : Prop where
  mem : MemOk s.mem
  jobs : ∀ j ∈ s.jobs, j.Sized c

/-- Nobody asks for nothing. -/
def Asks : Act → Prop
  | .alloc _ size _ _ => 0 < size
  | _ => True

section
variable {c : Config} {s : Sys} {m : Mem} {i : Nat} {j : Job}

theorem MemOk.addFreeBlock (hm : MemOk m) {n : Node} (hpos : 0 < n.block.size) (writeBinLog : Bool)
    (io : Except Errno Unit) : MemOk (addFreeBlock n writeBinLog io m).1 := by
  by_cases hfit : ∀ d ∈ held m.byId, ¬ Overlap n.block d
  · obtain ⟨hstep, hadd⟩ := addFreeBlock_spec hm hpos hfit writeBinLog io
    rw [hstep]
    exact hadd.ok
  · rw [addFreeBlock_of_overlap hm hpos (by simpa using hfit)]
    exact hm

variable (c) in
theorem MemOk.createTrunkFile (hm : MemOk m) (path : Nat) (sub : Nat → Nat × Nat) (io : Except Errno Unit) :
    MemOk (createTrunkFile c path sub io m).1 ∧ ∀ n, (createTrunkFile c path sub io m).2 = .ok n → 0 < n.block.size := by
  have hpos : 0 < c.trunkFileSize := by
    have := c.slotMinSize_pos
    have := c.slotMinSize_lt
    have := c.slotMaxSize_le
    omega
  rcases createTrunkFile_cases c path sub io m with ⟨b, id, -, -, hb, -, hnew⟩ | ⟨e, id, hnew⟩
  · rw [hnew]
    refine ⟨⟨hm.slots, hm.checker, hm.agree⟩, ?_⟩
    rintro _ ⟨⟩
    exact hb ▸ hpos
  · rw [hnew]
    exact ⟨⟨hm.slots, hm.checker, hm.agree⟩, nofun⟩

theorem Sound.mem_jobs (hs : Sound c s) (h : s.jobs[i]? = some j) :
    j.Sized c ∧ ∀ j' ∈ s.jobs.eraseIdx i, j'.Sized c :=
  ⟨hs.jobs j (List.mem_of_getElem? h), fun j' hj' => hs.jobs j' (List.mem_of_mem_eraseIdx hj')⟩

/-- A memory that differs in the binlog and the counters only. -/
theorem MemOk.write (hm : MemOk m) (op : OpType) (b : Block) : MemOk (memBinlogWrite op b m) :=
  ⟨hm.slots, hm.checker, hm.agree⟩

theorem Sound.alloc (hs : Sound c s) {path size : Nat} {sub : Nat → Nat × Nat} {io : Except Errno Unit}
    (hsize : 0 < size) : Sound c (step c s (.alloc path size sub io)) := by
  rcases allocTake_cases hs.mem path size sub io (c := c) with ⟨n, m, hstep, hrem, -, -, hle, -⟩ | ⟨hstep, -⟩
  · simp only [step, hstep]
    exact ⟨hrem.ok, List.forall_mem_cons.2 ⟨⟨by omega, hsize⟩, hs.jobs⟩⟩
  · obtain ⟨hok, hpos⟩ := hs.mem.createTrunkFile c path sub io
    cases hnew : createTrunkFile c path sub io s.mem with
    | mk m r =>
      rw [hnew] at hok hpos
      cases r with
      | ok n =>
        simp only [step, hstep, hnew]
        exact ⟨hok, List.forall_mem_cons.2 ⟨⟨hpos n rfl, hsize⟩, hs.jobs⟩⟩
      | error e =>
        simp only [step, hstep, hnew]
        exact ⟨hok, hs.jobs⟩

theorem Sound.logCut (hs : Sound c s) {io : Except Errno Unit} : Sound c (step c s (.logCut i io)) := by
  simp only [step]
  split
  · next b size h =>
    obtain ⟨hj, hrest⟩ := hs.mem_jobs h
    have hok := hs.mem.write .delSpace b
    cases io with
    | error e => exact ⟨hok, hrest⟩
    | ok u =>
      by_cases hmin : b.size - size < c.slotMinSize
      · simp only [hmin, if_true]
        exact ⟨hok, List.forall_mem_cons.2 ⟨hj.1, hrest⟩⟩
      · simp only [hmin, if_false]
        exact ⟨hok, List.forall_mem_cons.2 ⟨⟨not_lt.1 hmin, hj.2⟩, hrest⟩⟩
  · exact hs

theorem Sound.addRest (hs : Sound c s) {io : Except Errno Unit} : Sound c (step c s (.addRest i io)) := by
  simp only [step]
  split
  · next b size h =>
    obtain ⟨hj, hrest⟩ := hs.mem_jobs h
    have hpos : 0 < (b.behind size).size := lt_of_lt_of_le c.slotMinSize_pos hj.1
    have hok := hs.mem.addFreeBlock (n := ⟨.free, b.behind size⟩) hpos true io
    split
    · next m hadd =>
      rw [hadd] at hok
      exact ⟨hok, List.forall_mem_cons.2 ⟨hj.2, hrest⟩⟩
    · next m e hadd =>
      rw [hadd] at hok
      exact ⟨hok, hrest⟩
  · exact hs

theorem Sound.grant (hs : Sound c s) {io : Except Errno Unit} : Sound c (step c s (.grant i io)) := by
  simp only [step]
  split
  · next b h =>
    obtain ⟨hj, hrest⟩ := hs.mem_jobs h
    have hok := hs.mem.addFreeBlock (n := ⟨.hold, b⟩) hj true io
    split
    · next m hadd =>
      rw [hadd] at hok
      exact ⟨hok, hrest⟩
    · next m e hadd =>
      rw [hadd] at hok
      exact ⟨hok, hrest⟩
  · exact hs

theorem Sound.addFresh (hs : Sound c s) : Sound c (step c s (.addFresh i)) := by
  simp only [step]
  split
  · next b h =>
    obtain ⟨hj, hrest⟩ := hs.mem_jobs h
    have hok := hs.mem.addFreeBlock (n := ⟨.free, b⟩) hj false (.ok ())
    split
    · next m hadd =>
      rw [hadd] at hok
      exact ⟨hok, hrest⟩
    · next m e hadd =>
      rw [hadd] at hok
      exact ⟨hok, hrest⟩
  · exact hs

theorem Sound.logDone (hs : Sound c s) {io : Except Errno Unit} : Sound c (step c s (.logDone i io)) := by
  simp only [step]
  split
  · next b stored h =>
    have hok := hs.mem.write .delSpace b
    have hrest := (hs.mem_jobs h).2
    split
    · exact ⟨hok, hrest⟩
    · exact ⟨hok, hrest⟩
  · exact hs

theorem Sound.confirm (hs : Sound c s) {b : Block} {status : Except Errno Unit} :
    Sound c (step c s (.confirm b status)) := by
  by_cases hdel : confirmDeletes status = true
  · obtain ⟨hin, hout⟩ := deleteSpace_spec (n := ⟨.hold, b⟩) hs.mem
    by_cases h : InPool s.mem ⟨.hold, b⟩
    · obtain ⟨m, hstep, hrem⟩ := hin h
      simp only [step, hdel, if_true, hstep]
      exact ⟨hrem.ok, List.forall_mem_cons.2 ⟨trivial, hs.jobs⟩⟩
    · simp only [step, hdel, if_true, hout h]
      exact ⟨hs.mem, hs.jobs⟩
  · obtain ⟨hin, hout⟩ := restoreNode_spec (n := ⟨.hold, b⟩) hs.mem
    by_cases h : InPool s.mem ⟨.hold, b⟩
    · obtain ⟨m, hstep, hok, -⟩ := hin h
      simp only [step, hdel, hstep]
      exact ⟨hok, hs.jobs⟩
    · simp only [step, hdel, hout h]
      exact ⟨hs.mem, hs.jobs⟩

theorem Sound.step (hs : Sound c s) {a : Act} (ha : Asks a) : Sound c (step c s a) := by
  cases a with
  | alloc path size sub io => exact hs.alloc ha
  | logCut i io => exact hs.logCut
  | addRest i io => exact hs.addRest
  | grant i io => exact hs.grant
  | confirm b status => exact hs.confirm
  | logDone i io => exact hs.logDone
  | free b io =>
    refine ⟨?_, hs.jobs⟩
    by_cases hmin : b.size < c.slotMinSize
    · simpa [Trunk.step, trunkFreeSpace, hmin] using hs.mem
    · have := c.slotMinSize_pos
      simpa [Trunk.step, trunkFreeSpace, hmin] using hs.mem.addFreeBlock (n := ⟨.free, b⟩) (by simp; omega) true io
  | advance path sub io =>
    obtain ⟨hok, hpos⟩ := hs.mem.createTrunkFile c path sub io
    cases hnew : createTrunkFile c path sub io s.mem with
    | mk m r =>
      rw [hnew] at hok hpos
      cases r with
      | ok n =>
        simp only [Trunk.step, hnew]
        exact ⟨hok, List.forall_mem_cons.2 ⟨hpos n rfl, hs.jobs⟩⟩
      | error e =>
        simp only [Trunk.step, hnew]
        exact ⟨hok, hs.jobs⟩
  | addFresh i => exact hs.addFresh
  | save written => exact ⟨hs.mem, hs.jobs⟩
  | restart reload occupied io =>
    exact ⟨storageTrunkInit_ok reload occupied io s.data, fun _ hj => absurd hj List.not_mem_nil⟩

end

/-- Somebody frees what is free already. -/
def bogusFree : List Act := twoUploads ++ [.free ⟨⟨0, 0, 0⟩, 1, 1200, 300⟩ (.ok ())]

/-- `trunk_alloc_space` when nothing else happens meanwhile and nothing fails. -/
def allocSpace (c : Config) (path size : Nat) (sub : Nat → Nat × Nat) (s : Sys) : Sys :=
  Run.run (step c) s [.alloc path size sub (.ok ()), .logCut 0 (.ok ()), .addRest 0 (.ok ()), .grant 0 (.ok ())]

section
variable {c : Config} {s : Sys} {jobs : List Job} {b : Block} {size : Nat}

theorem grant_first (hs : Inv c s) (h : s.jobs = .grant b :: jobs) :
    (step c s (.grant 0 (.ok ()))).granted = b :: s.granted ∧ (step c s (.grant 0 (.ok ()))).jobs = jobs := by
  have h0 : s.jobs[0]? = some (.grant b) := by simp [h]
  obtain ⟨hadd, -⟩ := hs.add_cases (n := ⟨.hold, b⟩) (hs.tiled.perm (everything_perm h0).symm) true (.ok ())
  rw [if_pos rfl] at hadd
  simp [step, h, hadd]

/-- From the moment the node is taken: the request ends with the whole node, or with its front. -/
theorem cut_first (hs : Inv c s) (h : s.jobs = .cut b size :: jobs) :
    ∃ d, (Run.run (step c) s [.logCut 0 (.ok ()), .addRest 0 (.ok ()), .grant 0 (.ok ())]).granted = d :: s.granted ∧
      (Run.run (step c) s [.logCut 0 (.ok ()), .addRest 0 (.ok ()), .grant 0 (.ok ())]).jobs = jobs ∧
      d.file = b.file ∧ d.offset = b.offset ∧ size ≤ d.size ∧ d.size < size + c.slotMinSize := by
  have h0 : s.jobs[0]? = some (.cut b size) := by simp [h]
  obtain ⟨hsize, hle⟩ : 0 < size ∧ size ≤ b.size := (hs.mem_jobs h0).1
  have hpos := c.slotMinSize_pos
  have hs₁ : Inv c (step c s (.logCut 0 (.ok ()))) := hs.logCut
  obtain ⟨s₁, hstep₁⟩ : ∃ s₁, step c s (.logCut 0 (.ok ())) = s₁ := ⟨_, rfl⟩
  rw [hstep₁] at hs₁
  simp only [Run.run_cons, Run.run_nil, hstep₁]
  by_cases hmin : b.size - size < c.slotMinSize
  · -- too little would be left: the request gets all of it
    have hjobs : s₁.jobs = .grant b :: jobs ∧ s₁.granted = s.granted := by
      rw [← hstep₁]
      simp [step, h, hmin]
    have hsame : step c s₁ (.addRest 0 (.ok ())) = s₁ := by simp [step, hjobs.1]
    obtain ⟨hgranted, hrest⟩ := grant_first hs₁ hjobs.1
    rw [hsame, hgranted, hjobs.2]
    exact ⟨b, rfl, hrest, rfl, rfl, hle, by omega⟩
  · have hjobs : s₁.jobs = .rest b size :: jobs ∧ s₁.granted = s.granted := by
      rw [← hstep₁]
      simp [step, h, hmin]
    have h1 : s₁.jobs[0]? = some (.rest b size) := by simp [hjobs.1]
    have hcut := (hs₁.tiled.perm (everything_perm h1).symm).cut hsize (show size < b.size by omega)
    obtain ⟨hadd, -⟩ := hs₁.add_cases (n := ⟨.free, b.behind size⟩) (hcut.perm (List.Perm.swap ..)).tail true (.ok ())
    rw [if_pos rfl] at hadd
    have hs₂ : Inv c (step c s₁ (.addRest 0 (.ok ()))) := hs₁.addRest
    have hjobs₂ : (step c s₁ (.addRest 0 (.ok ()))).jobs = .grant { b with size := size } :: jobs ∧
        (step c s₁ (.addRest 0 (.ok ()))).granted = s.granted := by
      simp [step, hjobs, hadd]
    obtain ⟨hgranted, hrest⟩ := grant_first hs₂ hjobs₂.1
    rw [hgranted, hjobs₂.2]
    exact ⟨_, rfl, hrest, rfl, rfl, le_rfl, by simp; omega⟩

end

end HahaDog.Trunk
