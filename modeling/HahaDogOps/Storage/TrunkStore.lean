import HahaDogOps.Storage.TrunkFiles
import HahaDogOps.Storage.TrunkSafety

/-!
# A storage server at work on its trunk files

A storage server that is its own trunk server: uploads, downloads and deletes of files inside trunk files, each a task
that goes one step further at a time, in any order with the others and with the calls of `TrunkRuns`. What is written
goes to `disk`, so it is seen what the blocks handed out are good for.

| op | source |
|---|---|
| `trunk` | a step of the trunk server; `confirm` and `free` come from other servers of the group |
| `upload` | `storage_upload_file` (`storage/storage_service.c:4384`) or `storage_trunk_create_link` (2768), once it has space |
| `openFile` | `dio_check_trunk_file_when_upload` (`storage/storage_dio.c:802`) |
| `writeFile` | `dio_write_file` (419), one buffer |
| `writeHeader` | `dio_write_chunk_header` (892), then `trunk_alloc_confirm` as `storage_upload_file_done_callback` calls it |
| `logDone` | the end of `trunk_alloc_confirm`: the client gets the name, or an error |
| `disconnect` | `dio_trunk_write_finish_clean_up` (727) for a client that went away |
| `delete` | `storage_server_delete_file` (`storage_service.c:7299`), up to the queue |
| `erase`, `free` | `dio_delete_trunk_file` (`storage_dio.c:243`), then `trunk_free_space` as the callback calls it |
| `download` | `storage_server_download_file` (`storage_service.c:6869`) |
| `readFile` | `dio_read_file` (`storage_dio.c:332`), one buffer |
| `restart` | the process stops, and starts again |

`files` is not in memory: it is what clients have the names of and have not asked to delete. Nor is `source`, the file
that a download is for. A write that fails may have written a part: `n` bytes of it, and `k` of the clean-up.
-/

namespace HahaDog.Trunk

open FileName Base64

/-- In the queue, open with so many bytes written, or waiting for the trunk server. -/
inductive Phase
  | queued
  | opened (written : Nat)
  | confirming
  deriving DecidableEq

structure Writing where
  file : Stored
  phase : Phase

structure Deleting where
  block : Block
  erased : Bool

structure Reading where
  fd : Fd
  remain : Nat
  got : Bytes
  source : Option Stored

structure Store where
  sys : Sys
  disk : Disk
  writings : List Writing
  deletings : List Deleting
  readings : List Reading
  files : List Stored

def Store.init : Store := ⟨Sys.init, fun _ _ => 0, [], [], [], []⟩

/-- The ops. `i` picks a task, `io` is what the file system or the binlog answers. -/
inductive Op
  | trunk (a : Act)
  | upload (f : Stored)
  | openFile (i : Nat) (io : Except Errno Unit)
  | writeFile (i n k : Nat) (io : Except Errno Unit)
  | writeHeader (i n : Nat) (io : Except Errno Unit)
  | logDone (i : Nat) (io : Except Errno Unit)
  | disconnect (i k : Nat)
  | delete (filename : List Char) (stack : Bytes)
  | erase (i k : Nat) (io : Except Errno Unit)
  | free (i : Nat) (io : Except Errno Unit)
  | download (fileOffset downloadBytes : Int) (filename : List Char) (stack : Bytes)
  | readFile (i n : Nat)
  | closeFile (i : Nat)
  | restart (reload : Bool) (io : Except Errno Unit)

section
variable (c : Config) (plain : Bool → Int → List Char → Except Errno Stat)

/-- What requests find on the server. -/
def Store.volume (s : Store) : Volume := ⟨s.disk, s.sys.mem.files, c.trunkFileSize, c.storePathCount, plain⟩

/-- A write that did not get to the end is undone. -/
def cleanUp (w : Writing) (k : Nat) (disk : Disk) : Disk :=
  match w.phase with
  | .opened written =>
    if 0 < written ∧ written < w.file.content.length then
      Span.write disk w.file.block.file w.file.block.offset ((deleted w.file.block).take k)
    else disk
  | _ => disk

/-- The task ends, and the trunk server is told why. -/
def fail (i : Nat) (f : Stored) (e : Errno) (s : Store) : Store :=
  { s with sys := step c s.sys (.confirm f.block (.error e)), writings := s.writings.eraseIdx i }

/-- `storage_trunk_is_space_occupied`. -/
def spaceOccupied (disk : Disk) (b : Block) : Bool :=
  checkTrunkFile (Span.read disk b.file b.offset headerSize) = .error .eexist

/-- The trunk file that the name of a delete request means. -/
def deletePlace (s : Store) (filename : List Char) (stack : Bytes) : Except Errno (Option TrunkFullInfo) := do
  let (trueFilename, storePathIndex) ← splitFilename c.storePathCount true filename
  checkDataFilename trueFilename
  let found ← fileStat (s.volume c plain) false storePathIndex trueFilename stack
  return found.info.filter fun info => isTrunkById (some info)

/-- How many bytes an answer from a trunk file has; `none` when there would be fewer than none. -/
def answerLen : Except Errno (Option Fd × Int) → Option Nat
  | .ok (some _, .negSucc _) => none
  | .ok (some _, .ofNat n) => some n
  | _ => some 0

def Op.step (s : Store) : Op → Store
  | .trunk a => { s with sys := Trunk.step c s.sys a }
  | .upload f => { s with writings := ⟨f, .queued⟩ :: s.writings }
  | .openFile i io =>
    match s.writings[i]? with
    | some ⟨f, .queued⟩ =>
      match io with
      | .error e => fail c i f e s
      | .ok () =>
        match checkTrunkFile (Span.read s.disk f.block.file f.block.offset headerSize) with
        | .error e => fail c i f e s
        | .ok () => { s with writings := ⟨f, .opened 0⟩ :: s.writings.eraseIdx i }
    | _ => s
  | .writeFile i n k io =>
    match s.writings[i]? with
    | some ⟨f, .opened written⟩ =>
      let buff := (f.content.drop written).take n
      let disk := Span.write s.disk f.block.file (f.block.offset + headerSize + written) buff
      match io with
      | .ok () => { s with disk := disk, writings := ⟨f, .opened (written + buff.length)⟩ :: s.writings.eraseIdx i }
      | .error e => fail c i f e { s with disk := cleanUp ⟨f, .opened written⟩ k disk }
    | _ => s
  | .writeHeader i n io =>
    match s.writings[i]? with
    | some ⟨f, .opened written⟩ =>
      if written ≠ f.content.length then s
      else
        match io with
        | .ok () =>
          { s with
            disk := Span.write s.disk f.block.file f.block.offset f.header
            sys := Trunk.step c s.sys (.confirm f.block (.ok ()))
            writings := ⟨f, .confirming⟩ :: s.writings.eraseIdx i }
        | .error e =>
          fail c i f e { s with disk := Span.write s.disk f.block.file f.block.offset (f.header.take n) }
    | _ => s
  | .logDone i io =>
    let sys := Trunk.step c s.sys (.logDone i io)
    match s.sys.jobs[i]? with
    | some (.done b true) =>
      let mine := s.writings.filter fun w => w.file.block = b
      { s with
        sys := sys
        writings := s.writings.filter fun w => w.file.block ≠ b
        files := (if io.toBool then mine.map (·.file) else []) ++ s.files }
    | _ => { s with sys := sys }
  | .disconnect i k =>
    match s.writings[i]? with
    | some w =>
      if w.phase = .confirming then s
      else { s with disk := cleanUp w k s.disk, writings := s.writings.eraseIdx i }
    | none => s
  | .delete filename stack =>
    match deletePlace c plain s filename stack with
    | .ok (some info) =>
      let b := placeOf info
      { s with
        deletings := ⟨b, false⟩ :: s.deletings
        files := s.files.filter fun f => f.block ≠ b
        readings := s.readings.map fun r => { r with source := r.source.filter fun f => f.block ≠ b } }
    | _ => s
  | .erase i k io =>
    match s.deletings[i]? with
    | some ⟨b, false⟩ =>
      match io with
      | .ok () =>
        { s with
          disk := Span.write s.disk b.file b.offset (deleted b)
          deletings := ⟨b, true⟩ :: s.deletings.eraseIdx i }
      | .error _ =>
        { s with
          disk := Span.write s.disk b.file b.offset ((deleted b).take k)
          deletings := s.deletings.eraseIdx i }
    | _ => s
  | .free i io =>
    match s.deletings[i]? with
    | some ⟨b, true⟩ =>
      { s with sys := Trunk.step c s.sys (.free b io), deletings := s.deletings.eraseIdx i }
    | _ => s
  | .download fileOffset downloadBytes filename stack =>
    match downloadFile (s.volume c plain) fileOffset downloadBytes filename stack with
    | .ok (some fd, n) =>
      let source := s.files.find? fun f => f.name = filename ∧ f.link = false
      { s with readings := ⟨fd, n.toNat, [], source⟩ :: s.readings }
    | _ => s
  | .readFile i n =>
    match s.readings[i]? with
    | some r =>
      let n := min n r.remain
      if c.trunkFileSize < r.fd.pos + n then { s with readings := s.readings.eraseIdx i }
      else
        let buff := Span.read s.disk r.fd.file r.fd.pos n
        let r := { r with fd := { r.fd with pos := r.fd.pos + n }, remain := r.remain - n, got := r.got ++ buff }
        { s with readings := r :: s.readings.eraseIdx i }
    | none => s
  | .closeFile i => { s with readings := s.readings.eraseIdx i }
  | .restart reload io =>
    { s with
      sys := Trunk.step c s.sys (.restart reload (spaceOccupied s.disk) io)
      writings := []
      deletings := []
      readings := [] }

/-- The clients keep to the protocol: an upload writes to a block that it was granted, and no two to one; who deletes has
the name of a file that nobody is deleting. A download does not start behind the end of the file. -/
def Op.Proper (s : Store) : Op → Prop
  | .trunk a =>
    match a with
    | .logDone .. | .restart .. => False
    | .confirm b _ => b ∈ s.sys.granted ∧ ∀ w ∈ s.writings, w.file.block ≠ b
    | .free b _ => b ∈ s.sys.live ∧ (∀ f ∈ s.files, f.block ≠ b) ∧ ∀ d ∈ s.deletings, d.block ≠ b
    | a => Trunk.Proper c s.sys a
  | .upload f => f.block ∈ s.sys.granted ∧ ∀ w ∈ s.writings, w.file.block ≠ f.block
  | .delete filename _ => ∃ f ∈ s.files, f.name = filename
  | .download fileOffset downloadBytes filename stack =>
    answerLen (downloadFile (s.volume c plain) fileOffset downloadBytes filename stack) ≠ none
  | _ => True

end

end HahaDog.Trunk
