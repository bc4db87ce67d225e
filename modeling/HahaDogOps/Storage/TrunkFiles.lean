import HahaDogOps.Lib.Span
import HahaDogOps.Storage.NameRoundTrip

/-!
# Files inside trunk files

A file in a trunk file is a header of 24 bytes and the content. The header repeats what the name of the file says, and a
name is good only while the header at its place agrees with it.

| here | source |
|---|---|
| `packHeader`, `unpackHeader` | `trunk_pack_header`, `trunk_unpack_header` (`storage/trunk_mgr/trunk_shared.c:340`, `356`) |
| `getContent` | `trunk_file_get_content_ex` (398), from an open file |
| `fileStat`, `doLstat` | `trunk_file_stat_func_ex` (452), `trunk_file_do_lstat_func_ex` (531) |
| `checkTrunkFile` | `dio_check_trunk_file_ex` (`storage/storage_dio.c:841`) |
| `uploadHeader` | the header of `dio_write_chunk_header` (892) |
| `deleted` | what `trunk_file_delete` (`storage/trunk_mgr/trunk_mem.c:1789`) writes |
| `downloadFile` | `storage_server_download_file` (`storage/storage_service.c:6869`), up to the first read |

The trunk files all have the size that `trunk_check_and_init_file` gives them. Files that have a file of their own are
answered for by `plain`.
-/

namespace HahaDog.Trunk

open FileName Base64

abbrev Disk := FileIdentifier → Nat → UInt8

/-! ## Headers -/

/-- `FDFS_TRUNK_FILE_HEADER_SIZE`. -/
def headerSize : Nat := 17 + fileExtNameMaxLen + 1

/-- `FDFS_TRUNK_FILE_TYPE_NONE`. -/
def typeNone : UInt8 := 0

/-- `FDFS_TRUNK_FILE_TYPE_REGULAR`. -/
def typeRegular : UInt8 := 0x46

/-- `FDFS_TRUNK_FILE_TYPE_LINK`. -/
def typeLink : UInt8 := 0x4C

/-- `FDFSTrunkHeader`; the extension is 7 bytes. -/
structure Header where
  fileType : UInt8
  allocSize : BitVec 32
  fileSize : BitVec 32
  crc32 : BitVec 32
  mtime : BitVec 32
  formattedExtName : Bytes
  deriving DecidableEq

def packHeader (h : Header) : Bytes :=
  h.fileType :: (int2buff h.allocSize ++ (int2buff h.fileSize ++ (int2buff h.crc32 ++ (int2buff h.mtime ++
    h.formattedExtName))))

def unpackHeader (buff : Bytes) : Header :=
  ⟨buff.getD 0 0, buff2int (buff.drop 1), buff2int (buff.drop 5), buff2int (buff.drop 9), buff2int (buff.drop 13),
    (buff.drop 17).take (fileExtNameMaxLen + 1)⟩

/-- A new file may overwrite zeros and the header of a deleted file, nothing else. -/
def checkTrunkFile (oldHeader : Bytes) : Except Errno Unit :=
  if oldHeader = List.replicate headerSize 0 then .ok ()
  else if packHeader { unpackHeader oldHeader with allocSize := 0, fileSize := 0, fileType := 0 } =
      List.replicate headerSize 0 then .ok ()
  else .error .eexist

/-- Characters of names are bytes. -/
def charBytes (s : List Char) : Bytes := s.map fun ch => UInt8.ofNat ch.toNat

def byteChars (bs : Bytes) : List Char := bs.map fun b => Char.ofNat b.toNat

/-! ## Places -/

/-- The place as the trunk server knows it. -/
def placeOf (info : TrunkFullInfo) : Block :=
  ⟨⟨info.storePathIndex.toNat, info.subPathHigh.toNat, info.subPathLow.toNat⟩, info.file.id.toNat,
    info.file.offset.toNat, info.file.size.toNat⟩

/-- `IS_TRUNK_FILE_BY_ID`. -/
def isTrunkById (info : Option TrunkFullInfo) : Bool := info.any fun info => 0 < info.file.id.toInt

/-- `trunk_info` of an upload into a trunk file. -/
def trunkInfo (u : Upload) : TrunkFullInfo := ⟨u.storePathIndex, u.subPathHigh, u.subPathLow, u.info⟩

/-- The header that goes to disk when the content is written. -/
def uploadHeader (link : Bool) (u : Upload) (r : Chance) : Header :=
  ⟨if link then typeLink else typeRegular, u.info.size, u.fileSize.setWidth 32, u.crc32, u.timestamp,
    charBytes (formatExtName u.extName r.pad)⟩

/-- The header of a deleted file, and zeros to the end of the block. -/
def deleted (b : Block) : Bytes :=
  packHeader ⟨typeNone, BitVec.ofNat 32 b.size, 0, 0, 0, List.replicate (fileExtNameMaxLen + 1) 0⟩ ++
    List.replicate (b.size - headerSize) 0

/-! ## Reading by name -/

/-- `S_ISREG`, `S_ISLNK`, or neither. -/
inductive Mode
  | reg
  | lnk
  | other
  deriving DecidableEq

/-- `struct stat`, as far as it is filled in. -/
structure Stat where
  mode : Mode
  size : Int
  mtime : Int
  deriving DecidableEq

/-- An open trunk file and the position in it. -/
structure Fd where
  file : FileIdentifier
  pos : Nat
  deriving DecidableEq

/-- The trunk files there are, all of one size, and `stat` (`true`) or `lstat` of the other files. -/
structure Volume where
  disk : Disk
  files : List FileIdentifier
  fileSize : Nat
  storePathCount : Nat
  plain : Bool → Int → List Char → Except Errno Stat

structure Found where
  stat : Stat
  info : Option TrunkFullInfo
  fd : Option Fd
  deriving DecidableEq

/-- `stack` is what the buffer of `trunk_file_info_decode` holds. After the header is read, the file stays open. -/
def doLstat (v : Volume) (follow : Bool) (storePathIndex : Int) (trueFilename : List Char) (stack : Bytes) :
    Except Errno Found :=
  if trueFilename.length ≠ trunkFilenameLength then
    (v.plain follow storePathIndex trueFilename).map fun stat => ⟨stat, none, none⟩
  else
    let buff := (decodeAuto base64Context ((trueFilename.drop trueFilePathLen).take filenameBase64Length)
      (List.replicate 128 0)).1
    let fileSize := fileSizeOf buff
    if !isTrunk fileSize then (v.plain follow storePathIndex trueFilename).map fun stat => ⟨stat, none, none⟩
    else
      let info : TrunkFullInfo := ⟨UInt8.ofInt storePathIndex, UInt8.ofInt (strtol trueFilename).1,
        UInt8.ofInt (strtol (trueFilename.drop 3)).1,
        trunkFileInfoDecode (trueFilename.drop (trueFilePathLen + filenameBase64Length)) stack⟩
      let b := placeOf info
      if b.file ∉ v.files then .error .enoent
      else if info.file.offset.toInt < 0 then .error .einval
      else if v.fileSize < b.offset + headerSize then .error .einval
      else
        let raw := Span.read v.disk b.file b.offset headerSize
        let fileType := raw.getD 0 0
        let header : Header := ⟨fileType, info.file.size, (fileSize &&& 0xFFFFFFFF).setWidth 32,
          buff2int (buff.drop 16), buff2int (buff.drop 4),
          charBytes (trueFilename.drop (trueFilename.length - (fileExtNameMaxLen + 1)))⟩
        if fileType ≠ typeRegular ∧ fileType ≠ typeLink then .error .enoent
        else if packHeader header ≠ raw then .error .enoent
        else .ok ⟨⟨if fileType = typeRegular then .reg else .lnk, header.fileSize.toInt, header.mtime.toInt⟩, some info,
          some ⟨b.file, b.offset + headerSize⟩⟩

/-- Into a buffer of 127 bytes. -/
def getContent (v : Volume) (fd : Fd) (fileSize : Int) : Except Errno Bytes :=
  if 127 < fileSize then .error .enospc
  else if v.fileSize < fd.pos + fileSize.toNat then .error .einval
  else .ok (Span.read v.disk fd.file fd.pos fileSize.toNat)

/-- With `follow`, a link inside a trunk file is followed once. -/
def fileStat (v : Volume) (follow : Bool) (storePathIndex : Int) (trueFilename : List Char) (stack : Bytes) :
    Except Errno Found := do
  let found ← doLstat v follow storePathIndex trueFilename stack
  match found.fd with
  | some fd =>
    if follow && isTrunkById found.info && found.stat.mode = .lnk then
      let content ← getContent v fd found.stat.size
      let (srcTrueFilename, srcStorePathIndex) ← splitFilename v.storePathCount false (byteChars content)
      if srcStorePathIndex < 0 ∨ v.storePathCount ≤ srcStorePathIndex then .error .einval
      else doLstat v follow srcStorePathIndex srcTrueFilename stack
    else .ok found
  | none => .ok found

/-- What is open, and how many bytes the answer will have. `dio_open_file` leaves an open file where it is, so with
`fd` the bytes are read from there, whatever `fileOffset` says. -/
def downloadFile (v : Volume) (fileOffset downloadBytes : Int) (filename : List Char) (stack : Bytes) :
    Except Errno (Option Fd × Int) := do
  if fileOffset < 0 then throw .einval
  if downloadBytes < 0 then throw .einval
  let (trueFilename, storePathIndex) ← splitFilename v.storePathCount true filename
  checkDataFilename trueFilename
  let found ← fileStat v true storePathIndex trueFilename stack
  if found.stat.mode ≠ .reg then throw .eisdir
  if downloadBytes = 0 then return (found.fd, found.stat.size - fileOffset)
  if found.stat.size - fileOffset < downloadBytes then throw .einval
  return (found.fd, downloadBytes)

/-! ## Stored files -/

/-- A file inside a trunk file, with what its name and its header are made of. Space was asked for with
`TRUNK_CALC_SIZE(file_bytes)`, and what is granted is no smaller (`request_granted`). -/
structure Stored where
  upload : Upload
  chance : Chance
  link : Bool
  content : Bytes
  trunk : upload.fileType = .trunk
  size : upload.fileSize.toNat = content.length
  fits : headerSize + content.length ≤ upload.info.size.toNat

namespace Stored

def block (f : Stored) : Block := placeOf (trunkInfo f.upload)

def name (f : Stored) : List Char := f.upload.name f.chance

def header (f : Stored) : Bytes := packHeader (uploadHeader f.link f.upload f.chance)

/-- The header and the content are at the place. -/
def OnDisk (disk : Disk) (f : Stored) : Prop :=
  Span.read disk f.block.file f.block.offset headerSize = f.header ∧
    Span.read disk f.block.file (f.block.offset + headerSize) f.content.length = f.content

end Stored

section
variable {v : Volume} {f : Stored}

theorem length_packHeader (h : Header) : (packHeader h).length = 17 + h.formattedExtName.length := by
  simp [packHeader, int2buff]
  omega

theorem unpackHeader_packHeader {h : Header} (hext : h.formattedExtName.length = fileExtNameMaxLen + 1) :
    unpackHeader (packHeader h) = h := by
  obtain ⟨fileType, allocSize, fileSize, crc32, mtime, ext⟩ := h
  have hdrop : ∀ (n : BitVec 32) (rest : Bytes), (int2buff n ++ rest).drop 4 = rest := fun _ _ => rfl
  have hext' : ext.take (fileExtNameMaxLen + 1) = ext := by rw [← hext, List.take_length]
  have hpack : packHeader ⟨fileType, allocSize, fileSize, crc32, mtime, ext⟩ = fileType :: (int2buff allocSize ++
      (int2buff fileSize ++ (int2buff crc32 ++ (int2buff mtime ++ ext)))) := rfl
  have h1 : (packHeader ⟨fileType, allocSize, fileSize, crc32, mtime, ext⟩).drop 5 =
      int2buff fileSize ++ (int2buff crc32 ++ (int2buff mtime ++ ext)) := rfl
  have h2 : (packHeader ⟨fileType, allocSize, fileSize, crc32, mtime, ext⟩).drop 9 =
      int2buff crc32 ++ (int2buff mtime ++ ext) := rfl
  have h3 : (packHeader ⟨fileType, allocSize, fileSize, crc32, mtime, ext⟩).drop 13 = int2buff mtime ++ ext := rfl
  have h4 : (packHeader ⟨fileType, allocSize, fileSize, crc32, mtime, ext⟩).drop 17 = ext := rfl
  rw [unpackHeader, h1, h2, h3, h4, hext', hpack]
  simp [buff2int_int2buff]

/-- Where a file was deleted there is room for another. -/
theorem checkTrunkFile_deleted (b : Block) : checkTrunkFile ((deleted b).take headerSize) = .ok () := by
  have hlen := length_packHeader ⟨typeNone, BitVec.ofNat 32 b.size, 0, 0, 0, List.replicate (fileExtNameMaxLen + 1) 0⟩
  have htake : (deleted b).take headerSize =
      packHeader ⟨typeNone, BitVec.ofNat 32 b.size, 0, 0, 0, List.replicate (fileExtNameMaxLen + 1) 0⟩ :=
    List.take_left' (hlen.trans rfl)
  have hzero : packHeader ⟨0, 0, 0, 0, 0, List.replicate (fileExtNameMaxLen + 1) 0⟩ = List.replicate headerSize 0 := by
    decide
  rw [checkTrunkFile, htake, unpackHeader_packHeader (by rfl), if_pos hzero]
  exact ite_self _

/-- An extension starts with a digit of the filling or with the dot. -/
theorem getD_formatExtName (extName : List Char) (rand : Nat → Fin 11) :
    (charBytes (formatExtName extName rand)).getD 0 0 ≠ 0 := by
  have hdigit : ∀ d : Fin 11, UInt8.ofNat (Char.ofNat ('0'.toNat + d.val)).toNat ≠ 0 := by decide
  unfold formatExtName
  by_cases hempty : extName.length = 0
  · simpa [hempty, charBytes, List.range_succ_eq_map] using hdigit (rand 0)
  · have hpos : 0 < extName.length := by omega
    simp only [hempty, hpos, if_true, if_false]
    cases fileExtNameMaxLen - extName.length with
    | zero => simp [charBytes]
    | succ n => simpa [charBytes, List.range_succ_eq_map] using hdigit (rand 0)

/-- Where a file begins there is none. -/
theorem checkTrunkFile_header (f : Stored) : checkTrunkFile f.header = .error .eexist := by
  have hext : (uploadHeader f.link f.upload f.chance).formattedExtName.length = fileExtNameMaxLen + 1 := by
    simp [uploadHeader, charBytes, length_formatExtName _ f.upload.extName_le, fileExtNameMaxLen]
  have hfirst := getD_formatExtName f.upload.extName f.chance.pad
  have htype : f.header ≠ List.replicate headerSize 0 := by
    intro h
    have hhead : (if f.link then typeLink else typeRegular) = 0 := congrArg (fun l => l.getD 0 0) h
    cases hlink : f.link <;> simp [hlink, typeLink, typeRegular] at hhead
  have hrest : packHeader { uploadHeader f.link f.upload f.chance with allocSize := 0, fileSize := 0, fileType := 0 } ≠
      List.replicate headerSize 0 := by
    intro h
    have hdrop := congrArg (fun l => (l.drop 17).getD 0 0) h
    exact hfirst (hdrop.trans (by decide))
  rw [checkTrunkFile, if_neg htype, Stored.header, unpackHeader_packHeader hext, if_neg hrest]

theorem Stored.length_header (f : Stored) : f.header.length = headerSize := by
  rw [Stored.header, length_packHeader]
  simp [uploadHeader, charBytes, length_formatExtName _ f.upload.extName_le, headerSize, fileExtNameMaxLen]

theorem Stored.length_content_le (f : Stored) : f.block.offset + headerSize + f.content.length ≤ f.block.stop := by
  have := f.fits
  simp only [Stored.block, Block.stop, placeOf, trunkInfo]
  omega

theorem Stored.headerSize_le (f : Stored) : headerSize ≤ f.block.size := by
  have := f.fits
  simp only [Stored.block, placeOf, trunkInfo]
  omega

/-- The size in the name, under its mark and the random bits. -/
theorem Stored.maskedSize_low (f : Stored) :
    isTrunk (f.upload.maskedSize f.chance) = true ∧ f.upload.maskedSize f.chance &&& 0xFFFFFFFF = f.upload.fileSize := by
  obtain ⟨htrunk, -, hsize⟩ := maskedSize_spec f.upload f.chance
  rw [f.trunk, beq_self_eq_true] at htrunk
  have htrue := hsize (by simp [f.trunk])
  rw [trueFileSize, htrunk, if_pos rfl, ite_self] at htrue
  exact ⟨htrunk, htrue⟩

theorem Stored.decode_fields (f : Stored) (buff : Bytes) : ∃ tail, (decodeAuto base64Context
    (((f.upload.trueName f.chance).drop trueFilePathLen).take filenameBase64Length) buff).1 =
      fieldsBuff (f.upload.fields f.chance) ++ tail := by
  have hchars : ((f.upload.trueName f.chance).drop trueFilePathLen).take filenameBase64Length =
      encode base64Context (fieldsBuff (f.upload.fields f.chance)) false := by
    rw [Upload.trueName, List.drop_left' f.upload.length_dirs]
    exact List.take_left' (length_encoded _)
  rw [hchars]
  exact decodeAuto_starts _ _

/-- What the name of a file finds at the file's place: nothing, unless the header there is the one of the name. -/
theorem doLstat_name (hfile : f.block.file ∈ v.files) (hstop : f.block.stop ≤ v.fileSize) (hint : v.fileSize < 2 ^ 31)
    {raw : Bytes} (hraw : Span.read v.disk f.block.file f.block.offset headerSize = raw) (follow : Bool) (stack : Bytes) :
    doLstat v follow f.upload.storePathIndex.toNat (f.upload.trueName f.chance) stack =
      if raw.getD 0 0 ≠ typeRegular ∧ raw.getD 0 0 ≠ typeLink then .error .enoent
      else if packHeader { uploadHeader f.link f.upload f.chance with fileType := raw.getD 0 0 } ≠ raw then .error .enoent
      else .ok ⟨⟨if raw.getD 0 0 = typeRegular then .reg else .lnk, f.content.length, f.upload.timestamp.toInt⟩,
        some (trunkInfo f.upload), some ⟨f.block.file, f.block.offset + headerSize⟩⟩ := by
  have hlen := f.upload.length_trueName f.chance f.trunk
  obtain ⟨tail, hbuff⟩ := f.decode_fields (List.replicate 128 0)
  obtain ⟨htrunk, hlow⟩ := f.maskedSize_low
  have hinfo := decode_trunk_name f.upload f.chance f.trunk stack
  rw [decodeTrunkInfo, if_neg (by simp [hlen])] at hinfo
  obtain ⟨hindex, hhigh, hlowDir, hinfo⟩ := TrunkFullInfo.mk.inj (Except.ok.inj hinfo)
  have hend := f.length_content_le
  have hoffset : ¬ f.upload.info.offset.toInt < 0 := by
    have hlt : f.upload.info.offset.toNat < 2 ^ 31 := by
      simp only [Stored.block, placeOf, trunkInfo] at hend hstop
      omega
    rw [BitVec.toInt_eq_toNat_of_lt (by omega)]
    omega
  have hsize : (f.upload.fileSize.setWidth 32).toInt = f.content.length := by
    have hlt : f.content.length < 2 ^ 31 := by omega
    have hnat : (f.upload.fileSize.setWidth 32).toNat = f.content.length := by
      rw [BitVec.toNat_setWidth, f.size, Nat.mod_eq_of_lt (by omega)]
    rw [BitVec.toInt_eq_toNat_of_lt (by omega), hnat]
  have hplace : placeOf ⟨f.upload.storePathIndex, f.upload.subPathHigh, f.upload.subPathLow, f.upload.info⟩ = f.block := rfl
  have hext := f.upload.drop_trueName f.chance
  have hcrc : buff2int ((fieldsBuff (f.upload.fields f.chance) ++ tail).drop 16) = f.upload.crc32 :=
    crc32_fieldsBuff _ _
  have hmtime : buff2int ((fieldsBuff (f.upload.fields f.chance) ++ tail).drop 4) = f.upload.timestamp :=
    timestamp_fieldsBuff _ _
  have hmasked : fileSizeOf (fieldsBuff (f.upload.fields f.chance) ++ tail) = f.upload.maskedSize f.chance :=
    fileSize_fieldsBuff _ _
  have hfits : ¬ v.fileSize < f.block.offset + headerSize := by omega
  rw [doLstat, if_neg (by simp [hlen])]
  simp only [hbuff, hmasked, htrunk, hlow, hindex, hhigh, hlowDir, hinfo, hplace, hraw, hext, hcrc, hmtime, hsize,
    uploadHeader, if_neg hfits, if_neg hoffset]
  simp [hfile, trunkInfo]

/-- The header that the name stands for is the one on disk. -/
theorem doLstat_stored (hfile : f.block.file ∈ v.files) (hstop : f.block.stop ≤ v.fileSize)
    (hint : v.fileSize < 2 ^ 31) (hdisk : f.OnDisk v.disk) (follow : Bool) (stack : Bytes) :
    doLstat v follow f.upload.storePathIndex.toNat (f.upload.trueName f.chance) stack =
      .ok ⟨⟨if f.link then .lnk else .reg, f.content.length, f.upload.timestamp.toInt⟩, some (trunkInfo f.upload),
        some ⟨f.block.file, f.block.offset + headerSize⟩⟩ := by
  have htype : f.header.getD 0 0 = if f.link then typeLink else typeRegular := rfl
  have hsame : packHeader { uploadHeader f.link f.upload f.chance with
      fileType := if f.link then typeLink else typeRegular } = f.header := rfl
  rw [doLstat_name hfile hstop hint hdisk.1, htype, hsame]
  cases f.link <;> simp [typeLink, typeRegular]

/-- A request for a part of the content, or with `0` for what is behind the offset. The answer starts at the first byte
of the content, wherever the part does. -/
theorem downloadFile_stored (hfile : f.block.file ∈ v.files) (hstop : f.block.stop ≤ v.fileSize)
    (hint : v.fileSize < 2 ^ 31) (hdisk : f.OnDisk v.disk) (hpath : f.upload.storePathIndex.toNat < v.storePathCount)
    (hlink : f.link = false) (fileOffset downloadBytes : Int) (stack : Bytes) :
    downloadFile v fileOffset downloadBytes f.name stack =
      if fileOffset < 0 ∨ downloadBytes < 0 ∨ downloadBytes ≠ 0 ∧ f.content.length - fileOffset < downloadBytes then
        .error .einval
      else .ok (some ⟨f.block.file, f.block.offset + headerSize⟩,
        if downloadBytes = 0 then f.content.length - fileOffset else downloadBytes) := by
  have hstat := doLstat_stored hfile hstop hint hdisk true stack
  rw [hlink] at hstat
  have hsplit := split_name f.upload f.chance hpath true
  have hcheck := check_name f.upload f.chance
  by_cases hoff : fileOffset < 0
  · simp [downloadFile, hoff]
    rfl
  by_cases hbytes : downloadBytes < 0
  · simp [downloadFile, hoff, hbytes]
    rfl
  simp only [downloadFile, Stored.name, if_neg hoff, if_neg hbytes, hsplit, hcheck, fileStat, hstat, bind, Except.bind,
    pure, Except.pure]
  by_cases hzero : downloadBytes = 0
  · simp [hzero, hoff]
  · by_cases hlong : f.content.length - fileOffset < downloadBytes
    · simp [hzero, hoff, hbytes, hlong]
      rfl
    · simp [hzero, hoff, hbytes, hlong]

/-- The place that a delete request finds. -/
theorem fileStat_stored (hfile : f.block.file ∈ v.files) (hstop : f.block.stop ≤ v.fileSize)
    (hint : v.fileSize < 2 ^ 31) (hdisk : f.OnDisk v.disk) (stack : Bytes) :
    fileStat v false f.upload.storePathIndex.toNat (f.upload.trueName f.chance) stack =
      .ok ⟨⟨if f.link then .lnk else .reg, f.content.length, f.upload.timestamp.toInt⟩, some (trunkInfo f.upload),
        some ⟨f.block.file, f.block.offset + headerSize⟩⟩ := by
  rw [fileStat, doLstat_stored hfile hstop hint hdisk false stack]
  rfl

theorem byteChars_charBytes {s : List Char} (h : ∀ ch ∈ s, ch.toNat < 128) : byteChars (charBytes s) = s := by
  have hback : ∀ ch ∈ s, Char.ofNat (UInt8.ofNat ch.toNat).toNat = ch := by
    intro ch hch
    have hlt := h ch hch
    rw [UInt8.toNat_ofNat', Nat.mod_eq_of_lt (by omega), Char.ofNat_toNat]
  rw [byteChars, charBytes, List.map_map]
  exact (List.map_congr_left hback).trans s.map_id

/-- A link is followed to the file whose name is its content. -/
theorem fileStat_link (hfile : f.block.file ∈ v.files) (hstop : f.block.stop ≤ v.fileSize) (hint : v.fileSize < 2 ^ 31)
    (hdisk : f.OnDisk v.disk) (hlink : f.link = true) (hid : 0 < f.upload.info.id.toInt) {g : Stored}
    (hcontent : f.content = charBytes g.name) (hpath : g.upload.storePathIndex.toNat < v.storePathCount) (stack : Bytes) :
    fileStat v true f.upload.storePathIndex.toNat (f.upload.trueName f.chance) stack =
      doLstat v true g.upload.storePathIndex.toNat (g.upload.trueName g.chance) stack := by
  have hlen : f.content.length = trunkLogicFilenameLength := by
    rw [hcontent, charBytes, List.length_map, Stored.name, Upload.length_name, if_pos g.trunk]
  have hend := f.length_content_le
  have hcontents : getContent v ⟨f.block.file, f.block.offset + headerSize⟩ f.content.length = .ok f.content := by
    have hroom : ¬ v.fileSize < f.block.offset + headerSize + f.content.length := by omega
    rw [getContent, if_neg (by rw [hlen]; decide), Int.toNat_natCast, if_neg hroom, hdisk.2]
  have hsplit : splitFilename v.storePathCount false (byteChars f.content) =
      .ok (g.upload.trueName g.chance, (g.upload.storePathIndex.toNat : Int)) := by
    rw [hcontent, Stored.name, byteChars_charBytes (g.upload.name_ascii g.chance)]
    exact split_name g.upload g.chance hpath false
  have hindex : ¬ ((g.upload.storePathIndex.toNat : Int) < 0 ∨
      (v.storePathCount : Int) ≤ g.upload.storePathIndex.toNat) := by omega
  have hby : isTrunkById (some (trunkInfo f.upload)) = true := by simpa [isTrunkById, trunkInfo] using hid
  have hstat := doLstat_stored hfile hstop hint hdisk true stack
  rw [hlink, if_pos rfl] at hstat
  simp only [fileStat, hstat, bind, Except.bind]
  simp only [hby, hcontents, hsplit, Bool.and_true, decide_true, if_true, if_neg hindex]

/-- A request by the name of a link is answered as one by the name that the link leads to. -/
theorem downloadFile_link (hfile : f.block.file ∈ v.files) (hstop : f.block.stop ≤ v.fileSize) (hint : v.fileSize < 2 ^ 31)
    (hdisk : f.OnDisk v.disk) (hlink : f.link = true) (hid : 0 < f.upload.info.id.toInt)
    (hfpath : f.upload.storePathIndex.toNat < v.storePathCount) {g : Stored}
    (hcontent : f.content = charBytes g.name) (hpath : g.upload.storePathIndex.toNat < v.storePathCount) {stack : Bytes}
    (hg : fileStat v true g.upload.storePathIndex.toNat (g.upload.trueName g.chance) stack =
      doLstat v true g.upload.storePathIndex.toNat (g.upload.trueName g.chance) stack) (fileOffset downloadBytes : Int) :
    downloadFile v fileOffset downloadBytes f.name stack = downloadFile v fileOffset downloadBytes g.name stack := by
  have hf : splitFilename v.storePathCount true f.name = _ := split_name f.upload f.chance hfpath true
  have hgsplit : splitFilename v.storePathCount true g.name = _ := split_name g.upload g.chance hpath true
  simp only [downloadFile, hf, hgsplit, check_name, bind, Except.bind,
    fileStat_link hfile hstop hint hdisk hlink hid hcontent hpath, hg]

/-- A name says where its file is. -/
theorem Stored.block_eq_of_name {f g : Stored} (h : f.name = g.name) : f.block = g.block := by
  have hf : splitFilename 256 false f.name = _ := split_name f.upload f.chance f.upload.storePathIndex.toNat_lt false
  have hg : splitFilename 256 false g.name = _ := split_name g.upload g.chance g.upload.storePathIndex.toNat_lt false
  have hsplit : (f.upload.trueName f.chance, (f.upload.storePathIndex.toNat : Int)) =
      (g.upload.trueName g.chance, (g.upload.storePathIndex.toNat : Int)) := by
    refine Except.ok.inj (hf.symm.trans (Eq.trans ?_ hg))
    exact congrArg _ h
  obtain ⟨htrue, hindex⟩ := Prod.mk.inj hsplit
  have hdf := decode_trunk_name f.upload f.chance f.trunk []
  have hdg := decode_trunk_name g.upload g.chance g.trunk []
  rw [htrue, hindex, hdg] at hdf
  exact congrArg placeOf (Except.ok.inj hdf).symm

end

end HahaDog.Trunk
