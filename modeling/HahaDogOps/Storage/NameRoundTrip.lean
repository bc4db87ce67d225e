import HahaDogOps.Storage.FileName

/-!
# What a name says is what the upload said

Clients, tracker and storage servers read back from a name what `storage_service_upload_file_done` put into it.
-/

namespace HahaDog.FileName

open Base64 Trunk

/-! ## Integers in buffers -/

theorem byteAt_toBitVec {w : Nat} (n : BitVec w) {k : Nat} (hk : k + 8 ≤ w) :
    (byteAt n k).toBitVec = n.extractLsb' k 8 := by
  apply BitVec.eq_of_getLsbD_eq
  intro i hi
  have hmask : (255).testBit i = true := by
    interval_cases i <;> rfl
  have hw : i < w := by omega
  have hkw : k + i < w := by omega
  simp only [byteAt, UInt8.toBitVec_ofNat', BitVec.getLsbD_ofNat, BitVec.toNat_and, Nat.testBit_and,
    BitVec.testBit_toNat, BitVec.getLsbD_sshiftRight, BitVec.getLsbD_extractLsb', hmask]
  simp [hi, hw, hkw]

@[simp] theorem length_int2buff (n : BitVec 32) : (int2buff n).length = 4 := rfl

@[simp] theorem length_long2buff (n : BitVec 64) : (long2buff n).length = 8 := rfl

theorem buff2int_int2buff (n : BitVec 32) (rest : Bytes) : buff2int (int2buff n ++ rest) = n := by
  apply BitVec.eq_of_getLsbD_eq
  intro i hi
  simp only [buff2int, int2buff]
  simp [byteAt_toBitVec]
  interval_cases i <;> simp

theorem buff2long_long2buff (n : BitVec 64) (rest : Bytes) : buff2long (long2buff n ++ rest) = n := by
  apply BitVec.eq_of_getLsbD_eq
  intro i hi
  simp only [buff2long, long2buff]
  simp [byteAt_toBitVec]
  interval_cases i <;> simp

theorem int2buff_buff2int (a b c d : UInt8) : int2buff (buff2int [a, b, c, d]) = [a, b, c, d] := by
  have hbyte : ∀ (x : UInt8) (k : Nat), k + 8 ≤ 32 →
      (∀ i < 8, (buff2int [a, b, c, d]).getLsbD (k + i) = x.toBitVec.getLsbD i) →
      byteAt (buff2int [a, b, c, d]) k = x := by
    intro x k hk h
    apply UInt8.toBitVec_inj.1
    rw [byteAt_toBitVec _ hk]
    apply BitVec.eq_of_getLsbD_eq
    intro i hi
    simp [hi, h]
  simp only [int2buff, List.map_cons, List.map_nil]
  rw [hbyte a 24 (by decide), hbyte b 16 (by decide), hbyte c 8 (by decide), hbyte d 0 (by decide)]
  all_goals
    intro i hi
    simp only [buff2int]
    interval_cases i <;> simp

theorem ntohl_htonl (n : BitVec 32) : ntohl (htonl n) = n := by
  have hbuff : int2buff (htonl n) = (int2buff n).reverse := int2buff_buff2int _ _ _ _
  rw [ntohl, hbuff, List.reverse_reverse]
  simpa using buff2int_int2buff n []

/-! ## Hexadecimal numbers -/

theorem hexValue_hexChar : ∀ d < 16, hexValue (hexChar d) = some d := by decide

theorem hex02_eq {n : Nat} (hn : n < 256) : hex02 n = [hexChar (n / 16), hexChar (n % 16)] := by
  have hlog : Nat.log 16 n ≤ 1 := by
    have := Nat.log_lt_of_lt_pow' (b := 16) (x := 2) (by decide) (show n < 16 ^ 2 by omega)
    omega
  have hmod : n / 16 % 16 = n / 16 := by omega
  rw [hex02, max_eq_left (by omega)]
  simp [Radix.digits, hmod]

/-- A number of two digits ends at a character that is none. -/
theorem strtol_hex02 {n : Nat} (hn : n < 256) {rest : List Char} (hrest : ∀ ch ∈ rest.head?, hexValue ch = none) :
    strtol (hex02 n ++ rest) = ((n : Int), rest) := by
  have hhigh : n / 16 < 16 := by omega
  have hlow : n % 16 < 16 := by omega
  have hplain : ∀ d < 16, hexChar d ∉ [' ', '\t', '\n', '\x0b', '\x0c', '\r', '-', '+', 'x', 'X'] := by decide
  have hspace := hplain _ hhigh
  have hx := hplain _ hlow
  have htake : rest.takeWhile (fun ch => (hexValue ch).isSome) = [] := by
    cases rest with
    | nil => rfl
    | cons ch rest => simp [hrest ch (by simp)]
  have hva := hexValue_hexChar _ hhigh
  have hvb := hexValue_hexChar _ hlow
  rw [hex02_eq hn]
  generalize hexChar (n / 16) = a at *
  generalize hexChar (n % 16) = b at *
  simp only [List.mem_cons, List.not_mem_nil, or_false, not_or] at hspace hx
  have hsign : takeSign (a :: b :: rest) = (false, a :: b :: rest) := by
    unfold takeSign
    split
    · simp_all
    · simp_all
    · rfl
  have hpre : skip0x (a :: b :: rest) = a :: b :: rest := by
    unfold skip0x
    split
    · simp_all
    · rfl
  have hvalue : min (2 ^ 63 - 1) ((Radix.value 16 [n / 16, n % 16] : Nat) : Int) = n := by
    simp only [Radix.value, List.foldl_cons, List.foldl_nil]
    omega
  simp only [strtol, List.cons_append, List.nil_append]
  rw [List.dropWhile_cons_of_neg (by simp [hspace])]
  simp only [hsign, hpre]
  simpa [hva, hvb, htake] using hvalue

/-! ## The size in a name -/

section
variable {rand : BitVec 32} {size x : BitVec 64} {i k : Nat}

theorem trunkFileMarkSize_eq : trunkFileMarkSize = BitVec.twoPow 64 59 := by decide

theorem appenderFileSize_eq : appenderFileSize = BitVec.twoPow 64 58 := by decide

theorem isTrunk_eq (size : BitVec 64) : isTrunk size = size.getLsbD 59 := by
  have hne : BitVec.twoPow 64 59 ≠ 0#64 := by decide
  rw [isTrunk, trunkFileMarkSize_eq, BitVec.and_twoPow]
  cases size.getLsbD 59 <;> simp [hne]

theorem isAppender_eq (size : BitVec 64) : isAppender size = size.getLsbD 58 := by
  have hne : BitVec.twoPow 64 58 ≠ 0#64 := by decide
  rw [isAppender, appenderFileSize_eq, BitVec.and_twoPow]
  cases size.getLsbD 58 <;> simp [hne]

theorem getLsbD_of_size_lt (h : size.toNat < 2 ^ k) (hi : k ≤ i) : size.getLsbD i = false := by
  rw [← BitVec.testBit_toNat]
  exact Nat.testBit_lt_two_pow (h.trans_le (Nat.pow_le_pow_right (by decide) hi))

/-- Above the size: the sign, eight zeros, and 23 bits of chance. -/
theorem getLsbD_combine (rand : BitVec 32) (size : BitVec 64) (hi : i < 64) :
    (combineRandFileSize rand size).getLsbD i =
      (size.getLsbD i || (decide (i = 63) || decide (32 ≤ i ∧ i < 55) && rand.getLsbD (i - 32))) := by
  rw [combineRandFileSize, BitVec.getLsbD_or, Bool.or_comm]
  congr 1
  interval_cases i <;> simp [BitVec.getElem_signExtend]

theorem sshiftRight_ne_zero (h : x.getLsbD 63 = true) (k : Nat) : x.sshiftRight k ≠ 0 := by
  intro hzero
  have hmsb : (x.sshiftRight k).msb = x.msb := BitVec.msb_sshiftRight
  rw [hzero, BitVec.msb_eq_getLsbD_last x, h] at hmsb
  simp at hmsb

theorem sshiftRight_eq_zero_iff (h : x.toNat < 2 ^ 63) : x.sshiftRight k = 0 ↔ x.toNat < 2 ^ k := by
  have hmsb : x.msb = false := by
    rw [BitVec.msb_eq_getLsbD_last]
    exact getLsbD_of_size_lt h le_rfl
  rw [BitVec.sshiftRight_eq_of_msb_false hmsb, ← BitVec.toNat_inj]
  simp [Nat.shiftRight_eq_div_pow]

/-- The low half is the size. -/
theorem and_low_half (h : size.toNat < 2 ^ 32) (hx : ∀ i < 32, x.getLsbD i = size.getLsbD i) :
    x &&& 0xFFFFFFFF = size := by
  have hmask : ∀ i < 64, (0xFFFFFFFF : BitVec 64).getLsbD i = decide (i < 32) := by decide
  apply BitVec.eq_of_getLsbD_eq
  intro i hi
  rw [BitVec.getLsbD_and, hmask i hi]
  by_cases hlow : i < 32
  · simp [hlow, hx i hlow]
  · simp [hlow, getLsbD_of_size_lt h (by omega : 32 ≤ i)]

/-- A size below the sign and the random bits, with or without a mark. -/
theorem trueFileSize_disguised (h : size.toNat < 2 ^ 32) (hsign : x.getLsbD 63 = true)
    (hlow : ∀ i < 32, x.getLsbD i = size.getLsbD i) : trueFileSize x = size := by
  rw [trueFileSize, if_pos (sshiftRight_ne_zero hsign 63), and_low_half h hlow]

theorem getLsbD_combine_mark (rand : BitVec 32) (h : size.toNat < 2 ^ 32) {mark : BitVec 64} {m : Nat} (hmark : mark = BitVec.twoPow 64 m)
    (hi : i < 64) : (combineRandFileSize rand size ||| mark).getLsbD i =
      (decide (m = i) || (decide (i < 32) && size.getLsbD i) ||
        (decide (i = 63) || decide (32 ≤ i ∧ i < 55) && rand.getLsbD (i - 32))) := by
  have hsize : size.getLsbD i = (decide (i < 32) && size.getLsbD i) := by
    by_cases hlow : i < 32
    · simp [hlow]
    · simp [hlow, getLsbD_of_size_lt h (by omega : 32 ≤ i)]
  rw [BitVec.getLsbD_or, getLsbD_combine _ _ hi, hmark, BitVec.getLsbD_twoPow, ← hsize]
  by_cases hm : m = i
  · simp [hm, hi]
  · simp [hm]

end

/-! ## Names of uploads -/

theorem base64Context_ok : base64Context.Ok := by
  have hnodup : ((List.range 64).map base64Context.valueToChar).Nodup := by decide +kernel
  have hnewline : ∀ v < 64, '\n' ≠ base64Context.valueToChar v := by decide +kernel
  refine ⟨?_, by decide +kernel, ?_⟩
  · intro v hv w hw h
    exact List.inj_on_of_nodup_map hnodup (by simpa using hv) (by simpa using hw) h
  · intro ch hch
    obtain rfl : ch = '\n' := by simpa [base64Context] using hch
    exact ⟨by decide, hnewline⟩

/-- An upload as `storage_service_upload_file_done` names it. The directories are bytes in `FDFSTrunkPathInfo`, and the
extension comes from 6 bytes of the request. -/
structure Upload where
  fileType : FileType
  storePathIndex : UInt8
  subPathHigh : UInt8
  subPathLow : UInt8
  serverId : BitVec 32
  timestamp : BitVec 32
  fileSize : BitVec 64
  crc32 : BitVec 32
  info : TrunkFileInfo
  extName : List Char
  extName_le : extName.length ≤ fileExtNameMaxLen
  extName_valid : validateFilename extName = true
  fileSize_lt : match fileType with
    | .regular => fileSize.toNat < 2 ^ 58
    | .appender => True
    | .trunk => fileSize.toNat < 2 ^ 32

/-- What the three calls of `rand` return. -/
structure Chance where
  sizeInName : BitVec 32
  masked : BitVec 32
  pad : Nat → Fin 11

namespace Upload

/-- The size that the name carries. -/
def maskedSize (u : Upload) (r : Chance) : BitVec 64 :=
  let size := FileName.sizeInName r.sizeInName u.fileSize u.fileType
  if size.sshiftRight 32 ≠ 0 then size else combineRandFileSize r.masked size

def fields (u : Upload) (r : Chance) : Fields := ⟨u.serverId, u.timestamp, u.maskedSize r, u.crc32⟩

/-- The name inside the store path. -/
def newFilename (u : Upload) (r : Chance) : List Char :=
  genFilename r.masked ⟨u.serverId, u.timestamp, sizeInName r.sizeInName u.fileSize u.fileType, u.crc32⟩
    (formatExtName u.extName r.pad) u.subPathHigh.toNat u.subPathLow.toNat

def name (u : Upload) (r : Chance) : List Char :=
  fname2log u.storePathIndex.toNat u.fileType u.info (u.newFilename r)

end Upload

section
variable (u : Upload) (r : Chance)

theorem length_fieldsBuff (f : Fields) : (fieldsBuff f).length = 20 := rfl

theorem length_encoded (f : Fields) : (encode base64Context (fieldsBuff f) false).length = 27 := by
  have h := length_encode_false (c := base64Context) (m := 0) rfl (fieldsBuff f)
  simpa [length_fieldsBuff, lacking] using h

theorem length_trunkFileInfoEncode (info : TrunkFileInfo) : (trunkFileInfoEncode info).length = 16 := by
  have h := length_encode_false (c := base64Context) (m := 0) rfl
    (int2buff info.id ++ int2buff info.offset ++ int2buff info.size)
  simpa [lacking, trunkFileInfoEncode] using h

theorem length_formatExtName (extName : List Char) (hle : extName.length ≤ fileExtNameMaxLen) (rand : Nat → Fin 11) :
    (formatExtName extName rand).length = 7 := by
  simp only [formatExtName, fileExtNameMaxLen] at *
  by_cases h : extName.length = 0
  · simp [h]
  · simp [h, show 0 < extName.length by omega]
    omega

/-- What decoding leaves in a buffer starts with what was encoded, whatever the buffer held. -/
theorem decodeAuto_starts (src buff : Bytes) :
    ∃ tail, (decodeAuto base64Context (encode base64Context src false) buff).1 = src ++ tail := by
  have hdecoded := decodeAuto_encode base64Context_ok rfl src buff
  generalize decodeAuto base64Context (encode base64Context src false) buff = d at hdecoded
  refine ⟨d.1.drop d.2, ?_⟩
  rw [← hdecoded, content, List.take_append_drop]

/-- The 27 characters give back the fields. -/
theorem nameBuff_eq {filename : List Char} {f : Fields} {path rest : List Char} (hpath : path.length = logicFilePathLen)
    (h : filename = path ++ (encode base64Context (fieldsBuff f) false ++ rest)) (buff : Bytes) :
    ∃ tail, nameBuff filename buff = fieldsBuff f ++ tail := by
  have hchars : (filename.drop logicFilePathLen).take filenameBase64Length =
      encode base64Context (fieldsBuff f) false := by
    rw [h, ← hpath, List.drop_left]
    exact List.take_left' (length_encoded f)
  rw [nameBuff, hchars]
  exact decodeAuto_starts (fieldsBuff f) buff

/-- The marks in a name tell the kinds of files apart, and the size survives its disguise. -/
theorem maskedSize_spec : isTrunk (u.maskedSize r) = (u.fileType == .trunk) ∧
    isAppender (u.maskedSize r) = (u.fileType == .appender) ∧
    (u.fileType ≠ .appender → trueFileSize (u.maskedSize r) = u.fileSize) := by
  have hlt := u.fileSize_lt
  rw [isTrunk_eq, isAppender_eq]
  cases htype : u.fileType with
  | regular =>
    rw [htype] at hlt
    have hbits : ∀ i, 58 ≤ i → u.fileSize.getLsbD i = false := fun i hi => getLsbD_of_size_lt hlt hi
    by_cases hsmall : u.fileSize.toNat < 2 ^ 32
    · have hmasked : u.maskedSize r = combineRandFileSize r.masked u.fileSize := by
        have hzero := (sshiftRight_eq_zero_iff (by omega)).2 hsmall
        simp [Upload.maskedSize, htype, sizeInName, hzero]
      rw [hmasked, getLsbD_combine _ _ (by decide), hbits 59 (by decide), getLsbD_combine _ _ (by decide),
        hbits 58 (by decide)]
      refine ⟨by simp, by simp, fun _ => trueFileSize_disguised hsmall ?_ fun i hi => ?_⟩
      · rw [getLsbD_combine _ _ (by decide)]
        simp
      · rw [getLsbD_combine _ _ (by omega)]
        simp [show i ≠ 63 by omega, show ¬ 32 ≤ i by omega]
    · have hmasked : u.maskedSize r = u.fileSize := by
        have hne := mt (sshiftRight_eq_zero_iff (x := u.fileSize) (k := 32) (by omega)).1 hsmall
        simp only [Upload.maskedSize, htype, sizeInName, if_pos hne]
      have hsign : u.fileSize.sshiftRight 63 = 0 := (sshiftRight_eq_zero_iff (by omega)).2 (by omega)
      have htrunk : isTrunk u.fileSize = false := by rw [isTrunk_eq, hbits 59 (by decide)]
      rw [hmasked, hbits 59 (by decide), hbits 58 le_rfl]
      refine ⟨rfl, rfl, fun _ => ?_⟩
      simp [trueFileSize, hsign, htrunk]
  | appender =>
    have hbit : ∀ i < 64, _ := fun i hi =>
      getLsbD_combine_mark r.sizeInName (show (0 : BitVec 64).toNat < 2 ^ 32 by decide) appenderFileSize_eq hi
    have hmasked : u.maskedSize r = combineRandFileSize r.sizeInName 0 ||| appenderFileSize := by
      simp only [Upload.maskedSize, htype, sizeInName]
      exact if_pos (sshiftRight_ne_zero (by rw [hbit 63 (by decide)]; simp) 32)
    rw [hmasked, hbit 59 (by decide), hbit 58 (by decide)]
    simp
  | trunk =>
    rw [htype] at hlt
    have hbit : ∀ i < 64, _ := fun i hi =>
      getLsbD_combine_mark r.sizeInName hlt trunkFileMarkSize_eq hi
    have hsign : (combineRandFileSize r.sizeInName u.fileSize ||| trunkFileMarkSize).getLsbD 63 = true := by
      rw [hbit 63 (by decide)]
      simp
    have hmasked : u.maskedSize r = combineRandFileSize r.sizeInName u.fileSize ||| trunkFileMarkSize := by
      simp only [Upload.maskedSize, htype, sizeInName]
      exact if_pos (sshiftRight_ne_zero hsign 32)
    rw [hmasked, hbit 59 (by decide), hbit 58 (by decide)]
    refine ⟨by simp, by simp, fun _ => trueFileSize_disguised hlt hsign fun i hi => ?_⟩
    rw [hbit i (by omega)]
    simp [hi, show ¬ 59 = i by omega, show i ≠ 63 by omega, show ¬ 32 ≤ i by omega]

/-- `HH/HH/`. -/
def Upload.dirs : List Char := hex02 u.subPathHigh.toNat ++ '/' :: (hex02 u.subPathLow.toNat ++ ['/'])

/-- The place in a trunk file and the extension. -/
def Upload.tail : List Char :=
  (if u.fileType = .trunk then trunkFileInfoEncode u.info else []) ++ formatExtName u.extName r.pad

/-- The name inside the store path; for a file inside a trunk file there is no file of that name. -/
def Upload.trueName : List Char := u.dirs ++ (encode base64Context (fieldsBuff (u.fields r)) false ++ u.tail r)

/-- `MHH/HH/HH/`. -/
def Upload.path : List Char := 'M' :: (hex02 u.storePathIndex.toNat ++ '/' :: u.dirs)

theorem length_hex02 (b : UInt8) : (hex02 b.toNat).length = 2 := by
  rw [hex02_eq b.toNat_lt]
  rfl

theorem Upload.length_dirs : u.dirs.length = trueFilePathLen := by
  simp [Upload.dirs, length_hex02, trueFilePathLen]

theorem Upload.length_path : u.path.length = logicFilePathLen := by
  simp [Upload.path, length_hex02, u.length_dirs, trueFilePathLen, logicFilePathLen]

theorem Upload.length_tail : (u.tail r).length = if u.fileType = .trunk then 23 else 7 := by
  rw [Upload.tail, List.length_append, length_formatExtName _ u.extName_le]
  split
  · rw [length_trunkFileInfoEncode]
  · rfl

theorem Upload.newFilename_eq : u.newFilename r =
    u.dirs ++ (encode base64Context (fieldsBuff (u.fields r)) false ++ formatExtName u.extName r.pad) := by
  simp [Upload.newFilename, genFilename, Upload.dirs, Upload.fields, Upload.maskedSize]

theorem Upload.name_eq : u.name r =
    u.path ++ (encode base64Context (fieldsBuff (u.fields r)) false ++ u.tail r) := by
  have hlen : (u.dirs ++ encode base64Context (fieldsBuff (u.fields r)) false).length =
      trueFilePathLen + filenameBase64Length := by
    rw [List.length_append, u.length_dirs, length_encoded]
    rfl
  have hlen' : (u.path ++ encode base64Context (fieldsBuff (u.fields r)) false).length =
      logicFilePathLen + filenameBase64Length := by
    rw [List.length_append, u.length_path, length_encoded]
    rfl
  have hfull : 'M' :: (hex02 u.storePathIndex.toNat ++ '/' :: u.newFilename r) =
      (u.path ++ encode base64Context (fieldsBuff (u.fields r)) false) ++ formatExtName u.extName r.pad := by
    simp [u.newFilename_eq, Upload.path]
  cases htype : u.fileType with
  | regular => simp [Upload.name, fname2log, htype, Upload.tail, hfull]
  | appender => simp [Upload.name, fname2log, htype, Upload.tail, hfull]
  | trunk =>
    simp only [Upload.name, fname2log, htype, Upload.tail, hfull]
    rw [u.newFilename_eq, ← List.append_assoc u.dirs, List.take_left' hlen', List.drop_left' hlen]
    simp

theorem Upload.name_eq_cons : u.name r = 'M' :: (hex02 u.storePathIndex.toNat ++ '/' :: u.trueName r) := by
  rw [u.name_eq, Upload.path, Upload.trueName]
  simp

theorem Upload.length_name :
    (u.name r).length = if u.fileType = .trunk then trunkLogicFilenameLength else normalLogicFilenameLength := by
  rw [u.name_eq, List.length_append, List.length_append, u.length_path, length_encoded, u.length_tail]
  split <;> rfl

/-! ## Reading -/

section
variable (f : Fields) (tail : Bytes)

theorem fieldsBuff_append : fieldsBuff f ++ tail =
    int2buff (htonl f.serverId) ++ (int2buff f.timestamp ++ (long2buff f.fileSize ++ (int2buff f.crc32 ++ tail))) := by
  simp [fieldsBuff]

theorem serverId_fieldsBuff : ntohl (buff2int (fieldsBuff f ++ tail)) = f.serverId := by
  rw [fieldsBuff_append, buff2int_int2buff, ntohl_htonl]

theorem timestamp_fieldsBuff : buff2int ((fieldsBuff f ++ tail).drop 4) = f.timestamp := by
  rw [fieldsBuff_append]
  exact buff2int_int2buff f.timestamp _

theorem fileSize_fieldsBuff : fileSizeOf (fieldsBuff f ++ tail) = f.fileSize := by
  rw [fileSizeOf, fieldsBuff_append]
  exact buff2long_long2buff f.fileSize _

theorem crc32_fieldsBuff : buff2int ((fieldsBuff f ++ tail).drop 16) = f.crc32 := by
  rw [fieldsBuff_append]
  exact buff2int_int2buff f.crc32 _

end

theorem Upload.not_isSlave : isSlave (u.name r).length (u.maskedSize r) = false := by
  obtain ⟨htrunk, -, -⟩ := maskedSize_spec u r
  rw [isSlave, htrunk, u.length_name]
  split
  · next h => simp [h]
  · next h => simp [trunkLogicFilenameLength, normalLogicFilenameLength, trunkFilenameLength, logicFilePathLen,
      trueFilePathLen, filenameBase64Length, fileExtNameMaxLen, trunkFileInfoLen]

/-- A client gets from the name what was uploaded. The size of an appender file is not in the name. -/
theorem client_reads_name : getFileInfo (u.name r) = .ok
    ⟨if isServerId u.serverId then u.serverId else 0, if isServerId u.serverId then none else some u.serverId,
      u.timestamp, if u.fileType = .appender then -1 else u.fileSize, if u.fileType = .appender then 0 else u.crc32⟩ := by
  obtain ⟨htrunk, happender, hsize⟩ := maskedSize_spec u r
  obtain ⟨tail, hbuff⟩ := nameBuff_eq u.length_path (u.name_eq r) (List.replicate 64 0)
  have hlong : ¬ (u.name r).length < normalLogicFilenameLength := by
    rw [u.length_name]
    split <;> decide
  simp only [getFileInfo, if_neg hlong, hbuff, serverId_fieldsBuff, timestamp_fieldsBuff, fileSize_fieldsBuff,
    crc32_fieldsBuff]
  simp only [Upload.fields, u.not_isSlave, happender, Bool.false_or]
  by_cases happ : u.fileType = .appender
  · by_cases hid : isServerId u.serverId = true <;> simp [happ, hid]
  · by_cases hid : isServerId u.serverId = true <;> simp [happ, hid, hsize happ]

theorem tracker_reads_name (buff : Bytes) : trackerNameInfo (u.name r) buff =
    ⟨u.serverId, if isServerId u.serverId then some u.serverId else none, u.timestamp, u.fileType != .appender⟩ := by
  obtain ⟨htrunk, happender, -⟩ := maskedSize_spec u r
  obtain ⟨tail, hbuff⟩ := nameBuff_eq u.length_path (u.name_eq r) buff
  have hlong : ¬ (u.name r).length < 32 + (fileExtNameMaxLen + 1) := by
    rw [u.length_name]
    split <;> decide
  simp only [trackerNameInfo, if_neg hlong, hbuff, serverId_fieldsBuff, timestamp_fieldsBuff, fileSize_fieldsBuff]
  simp only [Upload.fields, u.not_isSlave, happender, Bool.false_or]
  rfl

theorem storage_classifies_name : isTrunkFile (u.name r) = (u.fileType == .trunk) ∧
    storageIsSlaveFile (u.name r) = false := by
  obtain ⟨htrunk, -, -⟩ := maskedSize_spec u r
  obtain ⟨tail, hbuff⟩ := nameBuff_eq u.length_path (u.name_eq r) (List.replicate 64 0)
  simp only [isTrunkFile, storageIsSlaveFile, hbuff, fileSize_fieldsBuff, Upload.fields, htrunk,
    u.length_name]
  by_cases htype : u.fileType = .trunk
  · simp [htype]
  · simp [htype]

theorem split_name {storePathCount : Nat} (hcount : u.storePathIndex.toNat < storePathCount) (check : Bool) :
    splitFilename storePathCount check (u.name r) = .ok (u.trueName r, (u.storePathIndex.toNat : Int)) := by
  have hlong : ¬ (u.name r).length ≤ logicFilePathLen := by
    rw [u.length_name]
    split <;> decide
  have hnumber : strtol (hex02 u.storePathIndex.toNat ++ []) = _ := strtol_hex02 u.storePathIndex.toNat_lt (by simp)
  simp only [splitFilename, if_neg hlong]
  rw [u.name_eq_cons, hex02_eq u.storePathIndex.toNat_lt]
  rw [hex02_eq u.storePathIndex.toNat_lt] at hnumber
  simp only [List.cons_append, List.nil_append] at hnumber ⊢
  simp [hnumber]
  omega

theorem Upload.length_trueName (htype : u.fileType = .trunk) : (u.trueName r).length = trunkFilenameLength := by
  rw [Upload.trueName, List.length_append, List.length_append, u.length_dirs, length_encoded, u.length_tail,
    if_pos htype]
  rfl

theorem decode_trunk_name (htype : u.fileType = .trunk) (buff : Bytes) :
    decodeTrunkInfo u.storePathIndex.toNat (u.trueName r) buff =
      .ok ⟨u.storePathIndex, u.subPathHigh, u.subPathLow, u.info⟩ := by
  have hlen := u.length_trueName r htype
  have hhigh : (strtol (u.trueName r)).1 = u.subPathHigh.toNat := by
    have hname : u.trueName r = hex02 u.subPathHigh.toNat ++ '/' :: (hex02 u.subPathLow.toNat ++ '/' ::
        (encode base64Context (fieldsBuff (u.fields r)) false ++ u.tail r)) := by
      simp [Upload.trueName, Upload.dirs]
    rw [hname, strtol_hex02 u.subPathHigh.toNat_lt (by simp; decide)]
  have hlow : (strtol ((u.trueName r).drop 3)).1 = u.subPathLow.toNat := by
    have hname : (u.trueName r).drop 3 = hex02 u.subPathLow.toNat ++ '/' ::
        (encode base64Context (fieldsBuff (u.fields r)) false ++ u.tail r) := by
      rw [Upload.trueName, Upload.dirs, hex02_eq u.subPathHigh.toNat_lt]
      simp
    rw [hname, strtol_hex02 u.subPathLow.toNat_lt (by simp; decide)]
  have hinfo : ((u.trueName r).drop (trueFilePathLen + filenameBase64Length)).take trunkFileInfoLen =
      trunkFileInfoEncode u.info := by
    have hlen : (u.dirs ++ encode base64Context (fieldsBuff (u.fields r)) false).length =
        trueFilePathLen + filenameBase64Length := by
      rw [List.length_append, u.length_dirs, length_encoded]
      rfl
    rw [Upload.trueName, ← List.append_assoc, List.drop_left' hlen, Upload.tail, if_pos htype]
    exact List.take_left' (length_trunkFileInfoEncode u.info)
  have hbyte : ∀ b : UInt8, UInt8.ofInt b.toNat = b := by
    intro b
    have hmod : ((b.toNat : Int) % 2 ^ 8).toNat = b.toNat := by
      have := b.toNat_lt
      omega
    rw [UInt8.ofInt, hmod, UInt8.ofNat_toNat]
  obtain ⟨tail, hbuff⟩ := decodeAuto_starts (int2buff u.info.id ++ int2buff u.info.offset ++ int2buff u.info.size) buff
  simp only [List.append_assoc] at hbuff
  have hoffset : buff2int ((int2buff u.info.id ++ (int2buff u.info.offset ++ (int2buff u.info.size ++ tail))).drop 4) =
      u.info.offset := buff2int_int2buff u.info.offset _
  have hsize : buff2int ((int2buff u.info.id ++ (int2buff u.info.offset ++ (int2buff u.info.size ++ tail))).drop 8) =
      u.info.size := buff2int_int2buff u.info.size _
  simp only [decodeTrunkInfo, hlen, hhigh, hlow, trunkFileInfoDecode, hinfo]
  rw [trunkFileInfoEncode, List.append_assoc, hbuff, buff2int_int2buff, hoffset, hsize, hbyte, hbyte, hbyte,
    if_neg (by simp)]

theorem validateFilename_spec {filename : List Char} (h : validateFilename filename = true) :
    ∀ ch ∈ filename, ch ≠ '/' ∧ ch.toNat < 128 := by
  intro ch hch
  have hall := List.all_eq_true.1 h ch hch
  refine ⟨?_, ?_⟩
  · rintro rfl
    revert hall
    decide
  · have hle : ∀ d : Char, ch ≤ d → d.toNat < 128 → ch.toNat < 128 := fun _ hd hlt => Nat.lt_of_le_of_lt hd hlt
    simp only [Bool.or_eq_true, Bool.and_eq_true, decide_eq_true_eq, beq_iff_eq] at hall
    rcases hall with ((((⟨-, hz⟩ | ⟨-, hz⟩) | ⟨-, hz⟩) | rfl) | rfl) | rfl
    · exact hle _ hz (by decide)
    · exact hle _ hz (by decide)
    · exact hle _ hz (by decide)
    all_goals decide

/-- Behind the directories there is no `/`, and a name is ASCII. The filling may have a `:` among its digits, which
`validateFilename` does not let in. -/
theorem Upload.code_chars : ∀ ch ∈ encode base64Context (fieldsBuff (u.fields r)) false ++ u.tail r,
    ch ≠ '/' ∧ ch.toNat < 128 := by
  have halphabet : ∀ v < 64, base64Context.valueToChar v ≠ '/' ∧ (base64Context.valueToChar v).toNat < 128 := by
    decide +kernel
  have hdigit : ∀ d : Fin 11, Char.ofNat ('0'.toNat + d.val) ≠ '/' ∧ (Char.ofNat ('0'.toNat + d.val)).toNat < 128 := by
    decide
  have hcode : ∀ src, ∀ ch ∈ encode base64Context src false, ch ≠ '/' ∧ ch.toNat < 128 := by
    intro src ch hch
    obtain ⟨v, hv, rfl⟩ := mem_encode (c := base64Context) rfl hch
    exact halphabet v hv
  have hext : ∀ ch ∈ formatExtName u.extName r.pad, ch ≠ '/' ∧ ch.toNat < 128 := by
    intro ch hch
    simp only [formatExtName, List.mem_append, List.mem_map] at hch
    rcases hch with ⟨i, -, rfl⟩ | hch
    · exact hdigit _
    · split at hch
      · rcases List.mem_cons.1 hch with rfl | hch
        · decide
        · exact validateFilename_spec u.extName_valid ch hch
      · simp at hch
  intro ch hch
  rw [Upload.tail, List.mem_append, List.mem_append] at hch
  rcases hch with hch | hch | hch
  · exact hcode _ ch hch
  · split at hch
    · exact hcode _ ch hch
    · simp at hch
  · exact hext ch hch

/-- The name inside the store path has the form that every request checks. -/
theorem check_name : checkDataFilename (u.trueName r) = .ok () := by
  have hchar : ∀ d < 16, isUpperHex (hexChar d) = true := by decide
  have hbytes : ∀ b : UInt8, isUpperHex (hexChar (b.toNat / 16)) = true ∧ isUpperHex (hexChar (b.toNat % 16)) = true :=
    fun b => ⟨hchar _ (by have := b.toNat_lt; omega), hchar _ (Nat.mod_lt _ (by decide))⟩
  have hslash : '/' ∉ encode base64Context (fieldsBuff (u.fields r)) false ++ u.tail r := fun h =>
    (u.code_chars r _ h).1 rfl
  rw [List.mem_append, not_or] at hslash
  rw [Upload.trueName, Upload.dirs, hex02_eq u.subPathHigh.toNat_lt, hex02_eq u.subPathLow.toNat_lt]
  simp [checkDataFilename, hbytes, hslash]

theorem Upload.name_ascii : ∀ ch ∈ u.name r, ch.toNat < 128 := by
  have hchar : ∀ d < 16, (hexChar d).toNat < 128 := by decide
  have hhex : ∀ b : UInt8, ∀ ch ∈ hex02 b.toNat, ch.toNat < 128 := by
    intro b ch hch
    have := b.toNat_lt
    rw [hex02_eq b.toNat_lt] at hch
    simp only [List.mem_cons, List.not_mem_nil, or_false] at hch
    rcases hch with rfl | rfl
    · exact hchar _ (by omega)
    · exact hchar _ (by omega)
  intro ch hch
  rw [u.name_eq, Upload.path, Upload.dirs, List.mem_append] at hch
  rcases hch with hpath | hcode
  · simp only [List.mem_cons, List.mem_append, List.not_mem_nil, or_false] at hpath
    rcases hpath with rfl | hindex | rfl | hhigh | rfl | hlow | rfl
    · decide
    · exact hhex _ _ hindex
    · decide
    · exact hhex _ _ hhigh
    · decide
    · exact hhex _ _ hlow
    · decide
  · exact (u.code_chars r ch hcode).2

/-! ## Slave files -/

theorem dotted_le (masterFilename : List Char) : (dotted masterFilename).length ≤ 7 := by
  refine (List.length_dropWhile_le _ _).trans ?_
  simp [fileExtNameMaxLen]
  omega

/-- The logic name of a slave file. -/
def Upload.slaveName (s : List Char) : List Char := 'M' :: (hex02 u.storePathIndex.toNat ++ '/' :: s)

/-- The slave's name starts like the master's, and its length shows by how much it is longer. -/
theorem slaveName_eq {prefixName s : List Char} {extName : Option (List Char)}
    (h : genSlaveFilename (u.trueName r) prefixName extName = .ok s) :
    ∃ rest, u.slaveName s = u.path ++ (encode base64Context (fieldsBuff (u.fields r)) false ++ rest) ∧
      (u.slaveName s).length + (dotted (u.trueName r)).length =
        (u.name r).length + (prefixName ++ slaveExtName (u.trueName r) extName).length := by
  have hs : s = (u.trueName r).take ((u.trueName r).length - (dotted (u.trueName r)).length) ++
      (prefixName ++ slaveExtName (u.trueName r) extName) := by
    simp only [genSlaveFilename] at h
    split at h
    · cases h
    split at h
    · cases h
    split at h
    · cases h
    · exact (Except.ok.inj h).symm
  have hdot := dotted_le (u.trueName r)
  have htail : 7 ≤ (u.tail r).length := by
    rw [u.length_tail]
    split <;> decide
  have hlen : (u.trueName r).length = (u.dirs ++ encode base64Context (fieldsBuff (u.fields r)) false).length +
      (u.tail r).length := by
    simp [Upload.trueName]
    omega
  generalize dotted (u.trueName r) = d at *
  refine ⟨(u.tail r).take ((u.tail r).length - d.length) ++ (prefixName ++ slaveExtName (u.trueName r) extName), ?_, ?_⟩
  · have htake : (u.trueName r).take ((u.trueName r).length - d.length) =
        u.dirs ++ encode base64Context (fieldsBuff (u.fields r)) false ++ (u.tail r).take ((u.tail r).length - d.length) := by
      rw [hlen, Nat.add_sub_assoc (by omega), Upload.trueName, ← List.append_assoc, List.take_length_add_append]
    rw [hs, htake, Upload.slaveName, Upload.path]
    simp
  · rw [hs, u.name_eq_cons, Upload.slaveName]
    simp
    omega

theorem Upload.drop_trueName :
    (u.trueName r).drop ((u.trueName r).length - (fileExtNameMaxLen + 1)) = formatExtName u.extName r.pad := by
  obtain ⟨front, hfront⟩ : ∃ front, u.trueName r = front ++ formatExtName u.extName r.pad :=
    ⟨u.dirs ++ (encode base64Context (fieldsBuff (u.fields r)) false ++
      if u.fileType = .trunk then trunkFileInfoEncode u.info else []), by simp [Upload.trueName, Upload.tail]⟩
  rw [hfront, List.drop_left']
  rw [List.length_append, length_formatExtName _ u.extName_le r.pad]
  rfl

/-- The digits before an extension are no dots. -/
theorem dotted_trueName : dotted (u.trueName r) = if u.extName = [] then [] else '.' :: u.extName := by
  have hlast := u.drop_trueName r
  have hdigit : ∀ d : Fin 11, Char.ofNat ('0'.toNat + d.val) ≠ '.' := by decide
  have hpad : ∀ n, ∀ ch ∈ (List.range n).map fun i => Char.ofNat ('0'.toNat + (r.pad i).val), ch ≠ '.' := by
    simp only [List.mem_map]
    rintro n ch ⟨i, -, rfl⟩
    exact hdigit _
  rw [dotted, hlast, formatExtName]
  rw [List.dropWhile_append_of_pos (fun ch hch => by simpa using hpad _ ch hch)]
  by_cases hempty : u.extName = []
  · simp [hempty]
  · simp [hempty, List.length_pos_iff]

/-- By how much a slave's name must be longer than its master's extension to be told from a master's. -/
theorem slave_classified {prefixName s : List Char} {extName : Option (List Char)}
    (h : genSlaveFilename (u.trueName r) prefixName extName = .ok s) :
    storageIsSlaveFile (u.slaveName s) =
        decide ((dotted (u.trueName r)).length < (prefixName ++ slaveExtName (u.trueName r) extName).length) ∧
      isSlave (u.slaveName s).length (u.maskedSize r) =
        decide ((dotted (u.trueName r)).length < (prefixName ++ slaveExtName (u.trueName r) extName).length) ∧
      isTrunkFile (u.slaveName s) = decide (u.fileType = .trunk ∧
        (dotted (u.trueName r)).length = (prefixName ++ slaveExtName (u.trueName r) extName).length) := by
  obtain ⟨rest, hname, hlen⟩ := slaveName_eq u r h
  obtain ⟨htrunk, -, -⟩ := maskedSize_spec u r
  obtain ⟨tail, hbuff⟩ := nameBuff_eq u.length_path hname (List.replicate 64 0)
  have hdot := dotted_le (u.trueName r)
  have hnormal : normalLogicFilenameLength = 44 := rfl
  have htrunkLen : trunkLogicFilenameLength = 60 := rfl
  rw [u.length_name, hnormal, htrunkLen] at hlen
  simp only [storageIsSlaveFile, isSlave, isTrunkFile, hbuff, fileSize_fieldsBuff, Upload.fields, htrunk, hnormal,
    htrunkLen]
  generalize (dotted (u.trueName r)).length = d at *
  generalize (prefixName ++ slaveExtName (u.trueName r) extName).length = e at *
  generalize (u.slaveName s).length = l at *
  by_cases htype : u.fileType = .trunk
  · rw [if_pos htype] at hlen
    have hlonger : 60 < l ↔ d < e := by omega
    have hsame : l = 60 ↔ d = e := by omega
    simp [htype, hlonger, hsame, show ¬ l < 44 by omega]
  · rw [if_neg htype] at hlen
    have hlonger : 44 < l ↔ d < e := by omega
    by_cases hgrows : d < e
    · simp [htype, hlonger, hgrows, show ¬ l < 44 by omega]
    · simp [htype, hlonger, hgrows, show ¬ 60 < l by omega]

theorem slave_reads_name {prefixName s : List Char} {extName : Option (List Char)}
    (h : genSlaveFilename (u.trueName r) prefixName extName = .ok s) (buff : Bytes) :
    storageIsSlaveFile (u.slaveName s) =
        decide ((dotted (u.trueName r)).length < (prefixName ++ slaveExtName (u.trueName r) extName).length) ∧
      isTrunkFile (u.slaveName s) = decide (u.fileType = .trunk ∧
        (dotted (u.trueName r)).length = (prefixName ++ slaveExtName (u.trueName r) extName).length) ∧
      (storageIsSlaveFile (u.slaveName s) = true →
        trackerNameInfo (u.slaveName s) buff =
            ⟨u.serverId, if isServerId u.serverId then some u.serverId else none, u.timestamp, false⟩ ∧
          getFileInfo (u.slaveName s) = .ok ⟨if isServerId u.serverId then u.serverId else 0,
            if isServerId u.serverId then none else some u.serverId, u.timestamp, -1, 0⟩) := by
  obtain ⟨hstorage, hslave, htrunk⟩ := slave_classified u r h
  refine ⟨hstorage, htrunk, fun hlonger => ?_⟩
  rw [← hstorage, hlonger] at hslave
  obtain ⟨rest, hname, hlen⟩ := slaveName_eq u r h
  have hlong : normalLogicFilenameLength < (u.slaveName s).length := by
    have hmaster : normalLogicFilenameLength ≤ (u.name r).length := by
      rw [u.length_name]
      split <;> decide
    rw [hstorage, decide_eq_true_eq] at hlonger
    omega
  have hold : ¬ (u.slaveName s).length < 32 + (fileExtNameMaxLen + 1) := by
    simp only [normalLogicFilenameLength, logicFilePathLen, filenameBase64Length, fileExtNameMaxLen] at *
    omega
  constructor
  · obtain ⟨tail, hbuff⟩ := nameBuff_eq u.length_path hname buff
    simp only [trackerNameInfo, if_neg hold, hbuff, serverId_fieldsBuff, timestamp_fieldsBuff, fileSize_fieldsBuff]
    by_cases hid : isServerId u.serverId = true <;> simp [Upload.fields, hslave, hid]
  · obtain ⟨tail, hbuff⟩ := nameBuff_eq u.length_path hname (List.replicate 64 0)
    simp only [getFileInfo, if_neg hlong.not_gt, hbuff, serverId_fieldsBuff, timestamp_fieldsBuff, fileSize_fieldsBuff]
    by_cases hid : isServerId u.serverId = true <;> simp [Upload.fields, hslave, hid]

/-! ## Results -/

/-- **A storage server finds the file that a name means**: the store path, a well-formed name inside it, whether the file
is inside a trunk file, and then which place it has there. -/
theorem name_located {storePathCount : Nat} (hcount : u.storePathIndex.toNat < storePathCount) (check : Bool)
    (buff : Bytes) :
    splitFilename storePathCount check (u.name r) = .ok (u.trueName r, (u.storePathIndex.toNat : Int)) ∧
      checkDataFilename (u.trueName r) = .ok () ∧ isTrunkFile (u.name r) = (u.fileType == .trunk) ∧
      storageIsSlaveFile (u.name r) = false ∧
      (u.fileType = .trunk → decodeTrunkInfo u.storePathIndex.toNat (u.trueName r) buff =
        .ok ⟨u.storePathIndex, u.subPathHigh, u.subPathLow, u.info⟩) := by
  obtain ⟨htrunk, hslave⟩ := storage_classifies_name u r
  exact ⟨split_name u r hcount check, check_name u r, htrunk, hslave, fun htype => decode_trunk_name u r htype buff⟩

/-- The dot and the extension of an upload. -/
def Upload.dottedExt : List Char := if u.extName = [] then [] else '.' :: u.extName

/-- **A slave's name is told from a master's exactly when it is longer**: when prefix and extension of the slave outgrow
the master's extension. Then everyone takes it for a slave file of the master's server and time. With a name as long as
the master's, a slave of a file inside a trunk file is taken for the file inside the trunk file. -/
theorem slave_name_told_apart {prefixName s : List Char} {extName : Option (List Char)}
    (h : genSlaveFilename (u.trueName r) prefixName extName = .ok s) (buff : Bytes) :
    (storageIsSlaveFile (u.slaveName s) = true ↔
        u.dottedExt.length < (prefixName ++ slaveExtName (u.trueName r) extName).length) ∧
      (isTrunkFile (u.slaveName s) = true ↔ u.fileType = .trunk ∧
        u.dottedExt.length = (prefixName ++ slaveExtName (u.trueName r) extName).length) ∧
      (storageIsSlaveFile (u.slaveName s) = true →
        trackerNameInfo (u.slaveName s) buff =
            ⟨u.serverId, if isServerId u.serverId then some u.serverId else none, u.timestamp, false⟩ ∧
          getFileInfo (u.slaveName s) = .ok ⟨if isServerId u.serverId then u.serverId else 0,
            if isServerId u.serverId then none else some u.serverId, u.timestamp, -1, 0⟩) := by
  obtain ⟨hslave, htrunk, hread⟩ := slave_reads_name u r h buff
  have hdotted : u.dottedExt = dotted (u.trueName r) := (dotted_trueName u r).symm
  refine ⟨?_, ?_, hread⟩
  · rw [hslave, hdotted, decide_eq_true_eq]
  · rw [htrunk, hdotted, decide_eq_true_eq]

end

/-- A small picture in a trunk file. -/
def picture : Upload where
  fileType := .trunk
  storePathIndex := 2
  subPathHigh := 10
  subPathLow := 31
  serverId := 0x6801a8c0
  timestamp := 1437423234
  fileSize := 5000
  crc32 := 0xdeadbeef
  info := ⟨7, 4096, 6000⟩
  extName := ['j', 'p', 'g']
  extName_le := by decide
  extName_valid := by decide
  fileSize_lt := by decide

def someChance : Chance := ⟨777, 12345, fun _ => 3⟩

theorem name_located_picture : isTrunkFile (picture.name someChance) = true ∧
    decodeTrunkInfo 2 (picture.trueName someChance) [] = .ok ⟨2, 10, 31, ⟨7, 4096, 6000⟩⟩ := by
  obtain ⟨-, -, htrunk, -, hplace⟩ := name_located picture someChance (show 2 < 3 by decide) true []
  exact ⟨htrunk, hplace rfl⟩

theorem slave_name_told_apart_picture : ∃ s, genSlaveFilename (picture.trueName someChance) "_big".toList none = .ok s ∧
    storageIsSlaveFile (picture.slaveName s) = true := by
  have hgen : genSlaveFilename (picture.trueName someChance) "_big".toList none = .ok _ := rfl
  exact ⟨_, hgen, (slave_name_told_apart picture someChance hgen []).1.2 (by decide +kernel)⟩

end HahaDog.FileName
