import HahaDogOps.Storage.Base64
import HahaDogOps.Storage.FreeBlock

/-!
# Names of stored files

The name that an upload gets says where the file is and what it is: `M00/0A/1F/` is the store path and the directory,
27 characters carry the source server, the time, the size and the CRC, then, for a file inside a trunk file, 16
characters its place, and 7 characters the extension, filled up with digits. Nothing else is stored about a file, so
clients, tracker and storage servers all work from the name.

| here | source |
|---|---|
| `int2buff`, `buff2int`, `long2buff`, `buff2long` | `common/shared_func.c` (1143-1187) |
| `combineRandFileSize`, `genFilename`, `formatExtName`, `getFilename` | `storage/storage_service.c` (2075-2235) |
| `sizeInName`, `fname2log` | `storage_service_upload_file_done` (2335) |
| `splitFilename` | `SPLIT_FILENAME_BODY` (`storage/trunk_mgr/trunk_shared.c:195`) |
| `trunkFileInfoEncode`, `trunkFileInfoDecode` | `trunk_shared.c` (373, 386) |
| `isTrunkFile`, `decodeTrunkInfo` | `trunk_shared.c` (708, 728) |
| `storageIsSlaveFile` | `storage_is_slave_file` (`storage_service.c:334`) |
| `trackerNameInfo` | `tracker_mem_get_storage_by_filename` (`tracker/tracker_mem.c:5429-5462`) |
| `getFileInfo` | `fdfs_get_file_info_ex` (`client/storage_client.c:2102`), from the name alone |
| `genSlaveFilename`, `checkDataFilename` | `common/fdfs_global.c` (67, 35) |

What `rand` and the file system answer comes in as an argument. The hosts are little-endian.
-/

namespace HahaDog.FileName

open Base64 Trunk

/-! ## Integers in buffers -/

def byteAt {w : Nat} (n : BitVec w) (k : Nat) : UInt8 := UInt8.ofNat (n.sshiftRight k &&& 0xFF#w).toNat

def int2buff (n : BitVec 32) : Bytes := [24, 16, 8, 0].map (byteAt n)

def buff2int (buff : Bytes) : BitVec 32 :=
  let p (i : Nat) : BitVec 32 := (buff.getD i 0).toBitVec.setWidth 32
  p 0 <<< 24 ||| p 1 <<< 16 ||| p 2 <<< 8 ||| p 3

def long2buff (n : BitVec 64) : Bytes := [56, 48, 40, 32, 24, 16, 8, 0].map (byteAt n)

def buff2long (buff : Bytes) : BitVec 64 :=
  let p (i : Nat) : BitVec 64 := (buff.getD i 0).toBitVec.setWidth 64
  p 0 <<< 56 ||| p 1 <<< 48 ||| p 2 <<< 40 ||| p 3 <<< 32 ||| p 4 <<< 24 ||| p 5 <<< 16 ||| p 6 <<< 8 ||| p 7

def htonl (n : BitVec 32) : BitVec 32 := buff2int (int2buff n).reverse

def ntohl (n : BitVec 32) : BitVec 32 := buff2int (int2buff n).reverse

/-! ## Hexadecimal numbers -/

def hexChar (d : Nat) : Char := if d < 10 then Char.ofNat ('0'.toNat + d) else Char.ofNat ('A'.toNat + (d - 10))

/-- `%02X`. -/
def hex02 (n : Nat) : List Char := (Radix.digits 16 (max 2 (Nat.log 16 n + 1)) n).map hexChar

def hexValue (ch : Char) : Option Nat :=
  if '0' ≤ ch ∧ ch ≤ '9' then some (ch.toNat - '0'.toNat)
  else if 'A' ≤ ch ∧ ch ≤ 'F' then some (ch.toNat - 'A'.toNat + 10)
  else if 'a' ≤ ch ∧ ch ≤ 'f' then some (ch.toNat - 'a'.toNat + 10)
  else none

def takeSign : List Char → Bool × List Char
  | '-' :: t => (true, t)
  | '+' :: t => (false, t)
  | t => (false, t)

/-- `0x` counts only before a digit. -/
def skip0x : List Char → List Char
  | '0' :: x :: d :: rest => if (x = 'x' ∨ x = 'X') ∧ (hexValue d).isSome then d :: rest else '0' :: x :: d :: rest
  | t => t

/-- `strtol(s, &end, 16)`: the number and what is left of the text. -/
def strtol (s : List Char) : Int × List Char :=
  let (negative, t) := takeSign (s.dropWhile (· ∈ [' ', '\t', '\n', '\x0b', '\x0c', '\r']))
  let t := skip0x t
  let ds := t.takeWhile fun ch => (hexValue ch).isSome
  if ds = [] then (0, s)
  else
    let n : Int := Radix.value 16 (ds.filterMap hexValue)
    (if negative then max (-2 ^ 63) (-n) else min (2 ^ 63 - 1) n, t.drop ds.length)

/-! ## Layout -/

/-- `g_fdfs_base64_context` after `trunk_shared_init`, and the client's `the_base64_context`. -/
def base64Context : Context := ⟨0, ['\n'], '-', '_', '.'⟩

/-- `FDFS_LOGIC_FILE_PATH_LEN`. -/
def logicFilePathLen : Nat := 10

/-- `FDFS_TRUE_FILE_PATH_LEN`. -/
def trueFilePathLen : Nat := 6

/-- `FDFS_FILENAME_BASE64_LENGTH`. -/
def filenameBase64Length : Nat := 27

/-- `FDFS_TRUNK_FILE_INFO_LEN`. -/
def trunkFileInfoLen : Nat := 16

/-- `FDFS_FILE_EXT_NAME_MAX_LEN`. -/
def fileExtNameMaxLen : Nat := 6

/-- `FDFS_NORMAL_LOGIC_FILENAME_LENGTH`. -/
def normalLogicFilenameLength : Nat := logicFilePathLen + filenameBase64Length + fileExtNameMaxLen + 1

/-- `FDFS_TRUNK_FILENAME_LENGTH`. -/
def trunkFilenameLength : Nat :=
  trueFilePathLen + filenameBase64Length + trunkFileInfoLen + 1 + fileExtNameMaxLen

/-- `FDFS_TRUNK_LOGIC_FILENAME_LENGTH`. -/
def trunkLogicFilenameLength : Nat := trunkFilenameLength + (logicFilePathLen - trueFilePathLen)

/-- `FDFS_APPENDER_FILE_SIZE`. -/
def appenderFileSize : BitVec 64 := 256 * 1024 * 1024 * 1024 * 1024 * 1024

/-- `FDFS_TRUNK_FILE_MARK_SIZE`. -/
def trunkFileMarkSize : BitVec 64 := 512 * 1024 * 1024 * 1024 * 1024 * 1024

/-- `IS_APPENDER_FILE`. -/
def isAppender (fileSize : BitVec 64) : Bool := fileSize &&& appenderFileSize ≠ 0

/-- `IS_TRUNK_FILE`. -/
def isTrunk (fileSize : BitVec 64) : Bool := fileSize &&& trunkFileMarkSize ≠ 0

/-- `IS_SLAVE_FILE`. -/
def isSlave (filenameLen : Nat) (fileSize : BitVec 64) : Bool :=
  trunkLogicFilenameLength < filenameLen || normalLogicFilenameLength < filenameLen && !isTrunk fileSize

/-! ## Writing a name -/

/-- `COMBINE_RAND_FILE_SIZE`. -/
def combineRandFileSize (rand : BitVec 32) (fileSize : BitVec 64) : BitVec 64 :=
  ((rand &&& 0x007FFFFF ||| 0x80000000).signExtend 64) <<< 32 ||| fileSize

/-- What the 27 characters carry. -/
structure Fields where
  serverId : BitVec 32
  timestamp : BitVec 32
  fileSize : BitVec 64
  crc32 : BitVec 32
  deriving DecidableEq

def fieldsBuff (f : Fields) : Bytes :=
  int2buff (htonl f.serverId) ++ int2buff f.timestamp ++ long2buff f.fileSize ++ int2buff f.crc32

def genFilename (rand : BitVec 32) (f : Fields) (formattedExt : List Char) (subPathHigh subPathLow : Nat) : List Char :=
  let maskedFileSize := if f.fileSize.sshiftRight 32 ≠ 0 then f.fileSize else combineRandFileSize rand f.fileSize
  let encoded := encode base64Context (fieldsBuff { f with fileSize := maskedFileSize }) false
  hex02 subPathHigh ++ '/' :: (hex02 subPathLow ++ '/' :: (encoded ++ formattedExt))

/-- `rand i` is the number `(int)(10.0 * (double)rand() / RAND_MAX)`, which can be ten. -/
def formatExtName (fileExtName : List Char) (rand : Nat → Fin 11) : List Char :=
  let padLen := if fileExtName.length = 0 then fileExtNameMaxLen + 1 else fileExtNameMaxLen - fileExtName.length
  let pad := (List.range padLen).map fun i => Char.ofNat ('0'.toNat + (rand i).val)
  pad ++ (if 0 < fileExtName.length then '.' :: fileExtName else [])

/-- At most `tries` names are tried; `fileExists` looks the name up in the store path. -/
def getFilename (fileExists : List Char → Bool) (name : BitVec 32 → List Char) (rand : Nat → BitVec 32) :
    Nat → Except Errno (List Char)
  | 0 => .error .enoent
  | tries + 1 =>
    let filename := name (rand tries)
    if fileExists filename then getFilename fileExists name rand tries else .ok filename

/-- `_FILE_TYPE_TRUNK`, `_FILE_TYPE_APPENDER`, or neither. -/
inductive FileType
  | regular
  | appender
  | trunk
  deriving DecidableEq

/-- The size that goes into the name. -/
def sizeInName (rand : BitVec 32) (fileSize : BitVec 64) : FileType → BitVec 64
  | .regular => fileSize
  | .appender => combineRandFileSize rand 0 ||| appenderFileSize
  | .trunk => combineRandFileSize rand fileSize ||| trunkFileMarkSize

/-- `FDFSTrunkFileInfo`. -/
structure TrunkFileInfo where
  id : BitVec 32
  offset : BitVec 32
  size : BitVec 32
  deriving DecidableEq

def trunkFileInfoEncode (info : TrunkFileInfo) : List Char :=
  encode base64Context (int2buff info.id ++ int2buff info.offset ++ int2buff info.size) false

/-- The name that is logged and returned, from the one that `storage_get_filename` found. -/
def fname2log (storePathIndex : Nat) (fileType : FileType) (info : TrunkFileInfo) (newFilename : List Char) :
    List Char :=
  let name := 'M' :: (hex02 storePathIndex ++ '/' :: newFilename)
  match fileType with
  | .trunk => name.take (logicFilePathLen + filenameBase64Length) ++ (trunkFileInfoEncode info ++
      newFilename.drop (trueFilePathLen + filenameBase64Length))
  | _ => name

/-! ## Reading a name -/

/-- The name inside the store path, and which path that is. -/
def splitFilename (storePathCount : Nat) (checkPathIndex : Bool) (logicFilename : List Char) :
    Except Errno (List Char × Int) :=
  if logicFilename.length ≤ logicFilePathLen then .error .einval
  else if logicFilename.getD 0 '\x00' ≠ 'M' then .ok (logicFilename, 0)
  else if logicFilename.getD 3 '\x00' ≠ '/' then .error .einval
  else
    let (storePathIndex, rest) := strtol [logicFilename.getD 1 '\x00', logicFilename.getD 2 '\x00']
    if rest ≠ [] then .error .einval
    else if checkPathIndex ∧ (storePathIndex < 0 ∨ (storePathCount : Int) ≤ storePathIndex) then .error .einval
    else .ok (logicFilename.drop 4, storePathIndex)

/-- The buffer after the 27 characters of a logic name are decoded into it. -/
def nameBuff (filename : List Char) (buff : Bytes) : Bytes :=
  (decodeAuto base64Context ((filename.drop logicFilePathLen).take filenameBase64Length) buff).1

def fileSizeOf (buff : Bytes) : BitVec 64 := buff2long (buff.drop 8)

def isTrunkFile (remoteFilename : List Char) : Bool :=
  if remoteFilename.length ≠ trunkLogicFilenameLength then false
  else isTrunk (fileSizeOf (nameBuff remoteFilename (List.replicate 64 0)))

def storageIsSlaveFile (remoteFilename : List Char) : Bool :=
  if remoteFilename.length < normalLogicFilenameLength then false
  else if isTrunk (fileSizeOf (nameBuff remoteFilename (List.replicate 64 0))) then
    trunkLogicFilenameLength < remoteFilename.length
  else normalLogicFilenameLength < remoteFilename.length

def trunkFileInfoDecode (str : List Char) (buff : Bytes) : TrunkFileInfo :=
  let buff := (decodeAuto base64Context (str.take trunkFileInfoLen) buff).1
  ⟨buff2int buff, buff2int (buff.drop 4), buff2int (buff.drop 8)⟩

/-- `FDFSTrunkFullInfo`, without the status. -/
structure TrunkFullInfo where
  storePathIndex : UInt8
  subPathHigh : UInt8
  subPathLow : UInt8
  file : TrunkFileInfo
  deriving DecidableEq

def decodeTrunkInfo (storePathIndex : Int) (trueFilename : List Char) (buff : Bytes) : Except Errno TrunkFullInfo :=
  if trueFilename.length ≠ trunkFilenameLength then .error .einval
  else .ok ⟨UInt8.ofInt storePathIndex, UInt8.ofInt (strtol trueFilename).1, UInt8.ofInt (strtol (trueFilename.drop 3)).1,
    trunkFileInfoDecode (trueFilename.drop (trueFilePathLen + filenameBase64Length)) buff⟩

/-- `fdfs_get_server_id_type`: `FDFS_ID_TYPE_SERVER_ID` or `FDFS_ID_TYPE_IP_ADDRESS`. -/
def isServerId (id : BitVec 32) : Bool := 0 < id.toInt && id.toInt ≤ 2 ^ 24 - 1

/-- What the tracker takes from a name. -/
structure NameInfo where
  storageIp : BitVec 32
  storageId : Option (BitVec 32)
  fileTimestamp : BitVec 32
  normalFile : Bool
  deriving DecidableEq

/-- `buff` is what the stack holds. -/
def trackerNameInfo (filename : List Char) (buff : Bytes) : NameInfo :=
  if filename.length < 32 + (fileExtNameMaxLen + 1) then ⟨0xFFFFFFFF, none, 0, true⟩
  else
    let buff := nameBuff filename buff
    let storageIp := ntohl (buff2int buff)
    let fileSize := fileSizeOf buff
    ⟨storageIp, if isServerId storageIp then some storageIp else none, buff2int (buff.drop 4),
      !(isSlave filename.length fileSize || isAppender fileSize)⟩

/-- `FDFSFileInfo`; `sourceIpAddr` before `inet_ntop`. -/
structure FileInfo where
  sourceId : BitVec 32
  sourceIpAddr : Option (BitVec 32)
  createTimestamp : BitVec 32
  fileSize : BitVec 64
  crc32 : BitVec 32
  deriving DecidableEq

/-- The size of a master file, from the one in its name. -/
def trueFileSize (fileSize : BitVec 64) : BitVec 64 :=
  if fileSize.sshiftRight 63 ≠ 0 then fileSize &&& 0xFFFFFFFF
  else if isTrunk fileSize then fileSize &&& 0xFFFFFFFF
  else fileSize

/-- `fdfs_get_file_info_ex` with `get_from_server` off. -/
def getFileInfo (remoteFilename : List Char) : Except Errno FileInfo :=
  if remoteFilename.length < normalLogicFilenameLength then .error .einval
  else
    let buff := nameBuff remoteFilename (List.replicate 64 0)
    let ip := ntohl (buff2int buff)
    let (sourceId, sourceIpAddr) := if isServerId ip then (ip, none) else (0, some ip)
    let createTimestamp := buff2int (buff.drop 4)
    let fileSize := fileSizeOf buff
    if isSlave remoteFilename.length fileSize || isAppender fileSize then
      .ok ⟨sourceId, sourceIpAddr, createTimestamp, -1, 0⟩
    else .ok ⟨sourceId, sourceIpAddr, createTimestamp, trueFileSize fileSize, buff2int (buff.drop 16)⟩

/-! ## Slave files -/

/-- `snprintf` into 8 bytes. -/
def trueExtName (extName : List Char) : List Char :=
  match extName with
  | [] => []
  | '.' :: rest => ('.' :: rest).take (fileExtNameMaxLen + 1)
  | ext => ('.' :: ext).take (fileExtNameMaxLen + 1)

/-- From the first dot among the last characters of the name. -/
def dotted (masterFilename : List Char) : List Char :=
  (masterFilename.drop (masterFilename.length - (fileExtNameMaxLen + 1))).dropWhile (· ≠ '.')

/-- Without `extName` the master's extension is used. -/
def slaveExtName (masterFilename : List Char) : Option (List Char) → List Char
  | some extName => trueExtName extName
  | none => dotted masterFilename

def genSlaveFilename (masterFilename prefixName : List Char) (extName : Option (List Char)) :
    Except Errno (List Char) :=
  if masterFilename.length < 28 + fileExtNameMaxLen then .error .einval
  else
    let ext := slaveExtName masterFilename extName
    if ext = [] ∧ prefixName = ['-', 'm'] then .error .einval
    else if prefixName = [] ∧ dotted masterFilename = ext then .error .einval
    else .ok (masterFilename.take (masterFilename.length - (dotted masterFilename).length) ++ (prefixName ++ ext))

/-- `fdfs_validate_filename` (`tracker/tracker_proto.c:247`), for extensions and prefixes. -/
def validateFilename (filename : List Char) : Bool :=
  filename.all fun ch =>
    'a' ≤ ch && ch ≤ 'z' || 'A' ≤ ch && ch ≤ 'Z' || '0' ≤ ch && ch ≤ '9' || ch == '-' || ch == '_' || ch == '.'

/-- `IS_UPPER_HEX`. -/
def isUpperHex (ch : Char) : Bool := '0' ≤ ch && ch ≤ '9' || 'A' ≤ ch && ch ≤ 'F'

def checkDataFilename (filename : List Char) : Except Errno Unit :=
  match filename with
  | a :: b :: c :: d :: e :: f :: rest =>
    if isUpperHex a && isUpperHex b && c == '/' && isUpperHex d && isUpperHex e && f == '/' then
      if '/' ∈ rest then .error .einval else .ok ()
    else .error .einval
  | _ => .error .einval

end HahaDog.FileName
