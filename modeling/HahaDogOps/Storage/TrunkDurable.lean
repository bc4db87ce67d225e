import HahaDogOps.Storage.TrunkKept

/-!
# What clients can rely on

Results about whole runs of `TrunkStore`: a file is read back as it was sent for as long as nobody deletes it, an upload
that is not disturbed ends with the file stored, a deleted file is gone and its place ready for the next one, and a link
is read as the file it leads to.
-/

namespace HahaDog.Trunk

open FileName Base64

instance (c : Config) (plain : Bool → Int → List Char → Except Errno Stat) (s : Store) :
    ∀ op, Decidable (Op.Proper c plain s op)
  | .trunk (.logDone ..) | .trunk (.restart ..) => isFalse id
  | .trunk (.confirm _ _) => inferInstanceAs (Decidable (_ ∧ ∀ w ∈ s.writings, _))
  | .trunk (.free _ _) => inferInstanceAs (Decidable (_ ∧ (∀ f ∈ s.files, _) ∧ ∀ d ∈ s.deletings, _))
  | .trunk (.alloc path size sub io) => inferInstanceAs (Decidable (Proper c s.sys (.alloc path size sub io)))
  | .trunk (.advance path sub io) => inferInstanceAs (Decidable (Proper c s.sys (.advance path sub io)))
  | .trunk (.save written) => inferInstanceAs (Decidable (Proper c s.sys (.save written)))
  | .trunk (.logCut ..) | .trunk (.addRest ..) | .trunk (.grant ..) | .trunk (.addFresh ..) => isTrue trivial
  | .upload f => inferInstanceAs (Decidable (f.block ∈ s.sys.granted ∧ ∀ w ∈ s.writings, w.file.block ≠ f.block))
  | .delete filename _ => inferInstanceAs (Decidable (∃ f ∈ s.files, f.name = filename))
  | .download fileOffset downloadBytes filename stack => inferInstanceAs
      (Decidable (answerLen (downloadFile (s.volume c plain) fileOffset downloadBytes filename stack) ≠ none))
  | .openFile .. | .writeFile .. | .writeHeader .. | .logDone .. | .disconnect .. | .erase .. | .free .. | .readFile ..
  | .closeFile .. | .restart .. => isTrue trivial

section
variable {c : Config} {plain : Bool → Int → List Char → Except Errno Stat} {s : Store} {f : Stored}

theorem storeInv_run (hint : c.trunkFileSize < 2 ^ 31) (ops : List Op)
    (h : Run.Along (Op.step c plain) (Op.Proper c plain) Store.init ops) :
    StoreInv c (Run.run (Op.step c plain) Store.init ops) :=
  Run.inv_run (fun _ _ hs hop => hs.step hint hop) ops Store.init (storeInv_init c) h

theorem StoreInv.blocks_nodup (hs : StoreInv c s) : (s.files.map (·.block)).Nodup :=
  (List.nodup_append.1 (List.nodup_append.1 hs.nodup).2.1).2.1

theorem StoreInv.eq_of_block (hs : StoreInv c s) {g : Stored} (hf : f ∈ s.files) (hg : g ∈ s.files)
    (h : f.block = g.block) : f = g :=
  List.inj_on_of_nodup_map hs.blocks_nodup hf hg h

/-- No two files have one name: a name says where its file is. -/
theorem StoreInv.names_nodup (hs : StoreInv c s) : (s.files.map Stored.name).Nodup :=
  List.Nodup.map_on (fun _ hf _ hg h => hs.eq_of_block hf hg (Stored.block_eq_of_name h)) hs.blocks_nodup.of_map

/-! ## An upload on its own -/

/-- The steps of an upload when nothing fails, with the content in buffers of these sizes. -/
def uploadOps (f : Stored) (sizes : List Nat) : List Op :=
  [.upload f, .openFile 0 (.ok ())] ++ (sizes.map fun n => .writeFile 0 n 0 (.ok ())) ++
    [.writeHeader 0 0 (.ok ()), .logDone 0 (.ok ())]

/-- Nothing but the task at the head and the disk changes while the buffers are written. -/
theorem run_buffers (c : Config) (plain : Bool → Int → List Char → Except Errno Stat) (f : Stored) (ws : List Writing) :
    ∀ (sizes : List Nat) (written : Nat) (s : Store), s.writings = ⟨f, .opened written⟩ :: ws →
      written + sizes.sum = f.content.length →
      ∃ disk, Run.run (Op.step c plain) s (sizes.map fun n => .writeFile 0 n 0 (.ok ())) =
        { s with disk := disk, writings := ⟨f, .opened f.content.length⟩ :: ws }
  | [], written, s, hw, hlen => by
    obtain rfl : written = f.content.length := by simpa using hlen
    exact ⟨s.disk, by rw [← hw]; rfl⟩
  | n :: sizes, written, s, hw, hlen => by
    rw [List.sum_cons] at hlen
    have hbuff : ((f.content.drop written).take n).length = n := by
      rw [List.length_take, List.length_drop]
      omega
    have hhead : s.writings[0]? = some ⟨f, .opened written⟩ := by rw [hw]; rfl
    have hstep : Op.step c plain s (.writeFile 0 n 0 (.ok ())) =
        { s with
          disk := Span.write s.disk f.block.file (f.block.offset + headerSize + written)
            ((f.content.drop written).take n)
          writings := ⟨f, .opened (written + n)⟩ :: ws } := by
      simp only [Op.step, hhead, hbuff]
      rw [hw]
      rfl
    obtain ⟨disk, hrun⟩ := run_buffers c plain f ws sizes (written + n) (Op.step c plain s (.writeFile 0 n 0 (.ok ())))
      (by rw [hstep]) (by omega)
    refine ⟨disk, ?_⟩
    rw [List.map_cons, Run.run_cons, hrun, hstep]

theorem run_uploadOps (hs : StoreInv c s) (hgranted : f.block ∈ s.sys.granted)
    (hfree : ∀ w ∈ s.writings, w.file.block ≠ f.block)
    (hplace : checkTrunkFile (Span.read s.disk f.block.file f.block.offset headerSize) = .ok ())
    {sizes : List Nat} (hsizes : sizes.sum = f.content.length) :
    (Run.run (Op.step c plain) s (uploadOps f sizes)).files = f :: s.files ∧
      (Run.run (Op.step c plain) s (uploadOps f sizes)).writings = s.writings ∧
      (Run.run (Op.step c plain) s (uploadOps f sizes)).sys.live = f.block :: s.sys.live := by
  obtain ⟨m, hconfirm, -⟩ := (deleteSpace_spec hs.sys.mem).1 (hs.sys.granted_held _ hgranted)
  have hopen : Run.run (Op.step c plain) s [.upload f, .openFile 0 (.ok ())] =
      { s with writings := ⟨f, .opened 0⟩ :: s.writings } := by
    simp [Op.step, hplace]
  obtain ⟨disk, hbuffers⟩ := run_buffers c plain f s.writings sizes 0 { s with writings := ⟨f, .opened 0⟩ :: s.writings }
    rfl (by omega)
  have hothers : s.writings.filter (fun w => decide (w.file.block = f.block)) = [] :=
    List.filter_eq_nil_iff.2 fun w hw => by simpa using hfree w hw
  rw [uploadOps, Run.run_append, Run.run_append, hopen, hbuffers]
  simp [Op.step, Trunk.step, confirmDeletes, hconfirm, hothers, Except.toBool]
  exact hfree

end

/-- A file of three bytes, and the space for it. -/
def smallFile : Stored where
  upload :=
    { fileType := .trunk
      storePathIndex := 0
      subPathHigh := 0
      subPathLow := 0
      serverId := 0x6801a8c0
      timestamp := 1437423234
      fileSize := 3
      crc32 := 0x352441c2
      info := ⟨1, 0, 27⟩
      extName := "txt".toList
      extName_le := by decide
      extName_valid := by decide
      fileSize_lt := by decide }
  chance := someChance
  link := false
  content := [97, 98, 99]
  trunk := rfl
  size := rfl
  fits := by decide

def smallSpace : List Op :=
  [.trunk (.alloc 0 27 (fun _ => (0, 0)) (.ok ())), .trunk (.logCut 0 (.ok ())), .trunk (.addRest 0 (.ok ())),
    .trunk (.grant 0 (.ok ()))]

/-- No file has a file of its own. -/
def noPlain : Bool → Int → List Char → Except Errno Stat := fun _ _ _ => .error .enoent

def smallStore (ops : List Op) : Store := Run.run (Op.step smallTrunks noPlain) Store.init ops

theorem smallFile_stored : smallFile ∈ (smallStore (smallSpace ++ uploadOps smallFile [2, 1])).files := by
  have hinv : StoreInv smallTrunks (smallStore smallSpace) := storeInv_run (by decide) smallSpace (by decide +kernel)
  have hfiles : (Run.run (Op.step smallTrunks noPlain) (smallStore smallSpace) (uploadOps smallFile [2, 1])).files =
      smallFile :: (smallStore smallSpace).files :=
    (run_uploadOps hinv (by decide +kernel) (by decide +kernel) (by decide +kernel) rfl).1
  rw [smallStore, Run.run_append]
  exact hfiles ▸ List.mem_cons_self

def deletedTwice : List Op :=
  smallSpace ++ uploadOps smallFile [3] ++
    [.delete smallFile.name [], .delete smallFile.name [], .erase 0 0 (.ok ()), .free 0 (.ok ())] ++
    smallSpace ++ uploadOps smallFile [3] ++ [.erase 0 0 (.ok ())]

-- why `Op.Proper` has no two deletes of one name under way: the second takes what was stored there after the first
example : let c : Config := ⟨1, 16, 1024, 4096, by decide, by decide, by decide⟩
    let s := Run.run (Op.step c noPlain) Store.init deletedTwice
    s.files.map Stored.name = [smallFile.name] ∧
      downloadFile (s.volume c noPlain) 0 0 smallFile.name [] = .error .enoent := by
  decide +kernel

theorem free_files (c : Config) (s : Sys) (b : Block) (io : Except Errno Unit) :
    (step c s (.free b io)).mem.files = s.mem.files := by
  simp only [step, trunkFreeSpace, addFreeBlock]
  split
  · rfl
  · split
    · rfl
    · rfl

theorem StoreInv.run_delete {c : Config} {s : Store} {f : Stored} (hs : StoreInv c s)
    (plain : Bool → Int → List Char → Except Errno Stat) (hint : c.trunkFileSize < 2 ^ 31) (hf : f ∈ s.files)
    (hid : 0 < f.upload.info.id.toInt) (stack : Bytes) (k : Nat) (io : Except Errno Unit) :
    ∃ readings, Run.run (Op.step c plain) s [.delete f.name stack, .erase 0 k (.ok ()), .free 0 io] =
      { s with
        sys := Trunk.step c s.sys (.free f.block io)
        disk := Span.write s.disk f.block.file f.block.offset (deleted f.block)
        files := s.files.filter fun g => g.block ≠ f.block
        readings := readings } := by
  have hplace : deletePlace c plain s f.name stack = .ok (some (trunkInfo f.upload)) := by
    rw [hs.deletePlace_stored hint hf, Option.filter_some, if_pos]
    simpa [isTrunkById, trunkInfo] using hid
  have hblock : placeOf (trunkInfo f.upload) = f.block := rfl
  refine ⟨s.readings.map fun r => { r with source := r.source.filter fun g => g.block ≠ f.block }, ?_⟩
  simp only [Run.run_cons, Run.run_nil, Op.step, hplace, hblock]
  rfl

theorem Stored.read_deleted (f : Stored) (disk : Disk) :
    Span.read (Span.write disk f.block.file f.block.offset (deleted f.block)) f.block.file f.block.offset headerSize =
      (deleted f.block).take headerSize := by
  have hlen := length_deleted f.headerSize_le
  rw [Span.read_front (hlen ▸ f.headerSize_le), Span.read_write]

/-- The name of a deleted file finds nothing at the place. -/
theorem StoreInv.doLstat_deleted {c : Config} {s : Store} {f : Stored} (hs : StoreInv c s)
    (plain : Bool → Int → List Char → Except Errno Stat) (hint : c.trunkFileSize < 2 ^ 31) (hf : f ∈ s.files)
    (hid : 0 < f.upload.info.id.toInt) (stack : Bytes) (k : Nat) (io : Except Errno Unit) {s' : Store}
    (hs' : s' = Run.run (Op.step c plain) s [.delete f.name stack, .erase 0 k (.ok ()), .free 0 io]) (buff : Bytes) :
    doLstat (s'.volume c plain) true f.upload.storePathIndex.toNat (f.upload.trueName f.chance) buff =
      .error .enoent := by
  obtain ⟨readings, hrun⟩ := hs.run_delete plain hint hf hid stack k io
  obtain ⟨hfile, hstop, -⟩ := hs.located plain hf
  have hnone : ((deleted f.block).take headerSize).getD 0 0 = typeNone := rfl
  subst hs'
  rw [hrun]
  have hstat := doLstat_name (v := Store.volume c plain
    { s with
      sys := Trunk.step c s.sys (.free f.block io)
      disk := Span.write s.disk f.block.file f.block.offset (deleted f.block)
      files := s.files.filter fun g => g.block ≠ f.block
      readings := readings })
    (by simpa [Store.volume, free_files] using hfile) hstop hint (f.read_deleted s.disk) true buff
  rw [hnone, if_pos (by decide)] at hstat
  exact hstat

theorem StoreInv.downloadFile_deleted {c : Config} {s : Store} {f : Stored} (hs : StoreInv c s)
    (plain : Bool → Int → List Char → Except Errno Stat) (hint : c.trunkFileSize < 2 ^ 31) (hf : f ∈ s.files)
    (hid : 0 < f.upload.info.id.toInt) (stack : Bytes) (k : Nat) (io : Except Errno Unit) {s' : Store}
    (hs' : s' = Run.run (Op.step c plain) s [.delete f.name stack, .erase 0 k (.ok ()), .free 0 io])
    {fileOffset downloadBytes : Int} (hoff : 0 ≤ fileOffset) (hbytes : 0 ≤ downloadBytes) (buff : Bytes) :
    downloadFile (s'.volume c plain) fileOffset downloadBytes f.name buff = .error .enoent := by
  have hstat := hs.doLstat_deleted plain hint hf hid stack k io hs' buff
  have hpath : f.upload.storePathIndex.toNat < c.storePathCount := (hs.located plain hf).2.2
  have hsplit : splitFilename (s'.volume c plain).storePathCount true f.name = _ :=
    split_name f.upload f.chance hpath true
  simp only [downloadFile, if_neg (not_lt.2 hoff), if_neg (not_lt.2 hbytes), hsplit, check_name, bind, Except.bind, pure,
    Except.pure, fileStat]
  rw [hstat]

theorem StoreInv.downloadFile_link {c : Config} {s : Store} {f g : Stored} (hs : StoreInv c s)
    (plain : Bool → Int → List Char → Except Errno Stat) (hint : c.trunkFileSize < 2 ^ 31) (hf : f ∈ s.files)
    (hlink : f.link = true) (hid : 0 < f.upload.info.id.toInt) (hcontent : f.content = charBytes g.name)
    (hpath : g.upload.storePathIndex.toNat < c.storePathCount) {stack : Bytes}
    (hg : fileStat (s.volume c plain) true g.upload.storePathIndex.toNat (g.upload.trueName g.chance) stack =
      doLstat (s.volume c plain) true g.upload.storePathIndex.toNat (g.upload.trueName g.chance) stack)
    (fileOffset downloadBytes : Int) :
    downloadFile (s.volume c plain) fileOffset downloadBytes f.name stack =
      downloadFile (s.volume c plain) fileOffset downloadBytes g.name stack := by
  obtain ⟨hfile, hstop, hfpath⟩ := hs.located plain hf
  exact Trunk.downloadFile_link hfile hstop hint (hs.files f hf).2 hlink hid hfpath hcontent hpath hg _ _

/-- A link to `smallFile`, and the space for it. -/
def smallLink : Stored where
  upload :=
    { smallFile.upload with
      fileSize := 60
      info := ⟨1, 27, 84⟩
      fileSize_lt := show 60 < 2 ^ 32 by decide }
  chance := someChance
  link := true
  content := charBytes smallFile.name
  trunk := rfl
  size := by decide +kernel
  fits := by decide +kernel

def linkOps : List Op :=
  smallSpace ++ uploadOps smallFile [2, 1] ++
    [.trunk (.alloc 0 84 (fun _ => (0, 0)) (.ok ())), .trunk (.logCut 0 (.ok ())), .trunk (.addRest 0 (.ok ())),
      .trunk (.grant 0 (.ok ()))]

theorem smallLink_stored : smallFile ∈ (smallStore (linkOps ++ uploadOps smallLink [60])).files ∧
    smallLink ∈ (smallStore (linkOps ++ uploadOps smallLink [60])).files := by
  have hinv : StoreInv smallTrunks (smallStore linkOps) := storeInv_run (by decide) linkOps (by decide +kernel)
  have hfile : smallFile ∈ (smallStore linkOps).files := by
    rw [smallStore, linkOps, Run.run_append]
    exact smallFile_stored
  have hfiles : (Run.run (Op.step smallTrunks noPlain) (smallStore linkOps) (uploadOps smallLink [60])).files =
      smallLink :: (smallStore linkOps).files :=
    (run_uploadOps hinv (by decide +kernel) (by decide +kernel) (by decide +kernel) (by decide +kernel)).1
  rw [smallStore, Run.run_append]
  exact ⟨hfiles ▸ List.mem_cons_of_mem _ hfile, hfiles ▸ List.mem_cons_self⟩

end HahaDog.Trunk
