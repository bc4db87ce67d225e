import HahaDogOps.Lib.Radix
import HahaDogOps.Lib.Run

/-!
# Base64 (`common/base64.c`)

File names carry binary data as base64 with an alphabet of the program's own. Names are encoded without padding;
`base64_decode_auto` puts the padding back.

| here | `base64.c` |
|---|---|
| `Context.valueToChar`, `Context.charToValue` | the tables that `base64_init_ex` (55) builds |
| `getEncodeLength` | `base64_get_encode_length` (97) |
| `encodeGroups`, `encode` | `base64_encode_ex` (126) |
| `decodeChar`, `decode` | `base64_decode` (309) |
| `decodeAuto` | `base64_decode_auto` (257) |

A buffer of 24 bits is a number below `2 ^ 24`: four digits to the base 64, or three to the base 256.
-/

namespace HahaDog.Base64

open Radix

abbrev Bytes := List UInt8

/-- `struct base64_context`, without the tables. -/
structure Context where
  lineLength : Nat
  lineSeparator : List Char
  chPlus : Char
  chSplash : Char
  chPad : Char

/-- An entry of `charToValue`. -/
inductive CharValue
  | ignore
  | pad
  | value (v : Nat)
  deriving DecidableEq

namespace Context

def valueToChar (c : Context) (v : Nat) : Char :=
  if v ≤ 25 then Char.ofNat ('A'.toNat + v)
  else if v ≤ 51 then Char.ofNat ('a'.toNat + (v - 26))
  else if v ≤ 61 then Char.ofNat ('0'.toNat + (v - 52))
  else if v = 62 then c.chPlus
  else c.chSplash

/-- The table is filled in this order, so the padding character wins. -/
def charToValue (c : Context) : Char → CharValue :=
  Function.update
    ((List.range 64).foldl (fun table i => Function.update table (c.valueToChar i) (.value i)) fun _ => .ignore)
    c.chPad .pad

end Context

/-! ## Encoding -/

def getEncodeLength (c : Context) (srcLen : Nat) : Nat :=
  let outputLength := (srcLen + 2) / 3 * 4
  if c.lineLength = 0 then outputLength
  else
    let lines : Int := ((outputLength + c.lineLength - 1) / c.lineLength : Nat) - 1
    if 0 < lines then outputLength + lines.toNat * c.lineSeparator.length else outputLength

/-- Three bytes as four characters. -/
def encodeTriple (c : Context) (x y z : UInt8) : List Char :=
  let combined := x.toNat <<< 16 ||| y.toNat <<< 8 ||| z.toNat
  [combined >>> 18 &&& 0x3f, combined >>> 12 &&& 0x3f, combined >>> 6 &&& 0x3f, combined &&& 0x3f].map c.valueToChar

/-- The inner loop: `linePos` is where the current line is. -/
def encodeGroups (c : Context) : Nat → Bytes → List Char
  | linePos, x :: y :: z :: rest =>
    let full := linePos + 4 > c.lineLength
    (if full ∧ c.lineLength ≠ 0 then c.lineSeparator else []) ++
      encodeTriple c x y z ++ encodeGroups c (if full then 4 else linePos + 4) rest
  | _, _ => []

/-- What the last group lacks. -/
def lacking (srcLen : Nat) : Nat := if srcLen % 3 = 0 then 0 else 3 - srcLen % 3

/-- `base64_encode_ex`: an incomplete group is filled up with zeros, and its last characters are padding or
left out. -/
def encode (c : Context) (src : Bytes) (bPad : Bool) : List Char :=
  let missing := lacking src.length
  let out := encodeGroups c 0 (src ++ List.replicate missing 0)
  out.take (out.length - missing) ++ (if bPad then List.replicate missing c.chPad else [])

/-! ## Decoding -/

structure DecodeState where
  cycle : Nat
  combined : Nat
  dummies : Nat
  dest : Bytes
  deriving DecidableEq

/-- A character that stands for `value`. -/
def decodeValue (value : Nat) (s : DecodeState) : DecodeState :=
  match s.cycle with
  | 0 => { s with combined := value, cycle := 1 }
  | 3 =>
    let combined := s.combined <<< 6 ||| value
    { s with
      combined := combined
      cycle := 0
      dest := s.dest ++
        [combined >>> 16, (combined &&& 0x0000FF00) >>> 8, combined &&& 0x000000FF].map UInt8.ofNat }
  | n => { s with combined := s.combined <<< 6 ||| value, cycle := n + 1 }

def decodeChar (c : Context) (s : DecodeState) (ch : Char) : DecodeState :=
  match c.charToValue ch with
  | .ignore => s
  | .pad => decodeValue 0 { s with dummies := s.dummies + 1 }
  | .value v => decodeValue v s

/-- What `base64_decode` leaves in `dest`, which holds `buff` before, and `dest_len`. The bytes are written before the
number of characters is known to be wrong. -/
def decode (c : Context) (src : List Char) (buff : Bytes) : Bytes × Nat :=
  let s := Run.run (decodeChar c) ⟨0, 0, 0, []⟩ src
  let dest := s.dest ++ buff.drop s.dest.length
  if s.cycle ≠ 0 then (dest.set 0 0, 0)
  else (dest.set (s.dest.length - s.dummies) 0, s.dest.length - s.dummies)

def decodeAuto (c : Context) (src : List Char) (buff : Bytes) : Bytes × Nat :=
  if src.length % 4 = 0 then decode c src buff
  else decode c (src ++ List.replicate (4 - src.length % 4) c.chPad) buff

/-- The decoded bytes. -/
def content (r : Bytes × Nat) : Bytes := r.1.take r.2

/-! ## The alphabet -/

/-- The characters of the alphabet differ from each other and from the padding, and a line separator has none of
them. -/
structure Context.Ok (c : Context) : Prop where
  inj : ∀ v < 64, ∀ w < 64, c.valueToChar v = c.valueToChar w → v = w
  pad : ∀ v < 64, c.valueToChar v ≠ c.chPad
  separator : ∀ ch ∈ c.lineSeparator, ch ≠ c.chPad ∧ ∀ v < 64, ch ≠ c.valueToChar v

section
variable {c : Context}

theorem Context.Ok.charToValue (hc : c.Ok) {v : Nat} (hv : v < 64) : c.charToValue (c.valueToChar v) = .value v := by
  have htable : ∀ (n : Nat) (table : Char → CharValue), n ≤ 64 →
      (v < n ∨ table (c.valueToChar v) = .value v) →
      (List.range n).foldl (fun table i => Function.update table (c.valueToChar i) (.value i)) table
        (c.valueToChar v) = .value v := by
    intro n
    induction n with
    | zero => exact fun table _ h => h.resolve_left (by omega)
    | succ n ih =>
      intro table hn h
      rw [List.range_succ, List.foldl_append]
      by_cases heq : v = n
      · subst heq
        simp
      · have hne : c.valueToChar v ≠ c.valueToChar n := fun h => heq (hc.inj v hv n (by omega) h)
        have hlt : v < n ∨ table (c.valueToChar v) = .value v := h.imp_left (by omega)
        simpa [hne] using ih table (by omega) hlt
  rw [Context.charToValue, Function.update_of_ne (hc.pad v hv)]
  exact htable 64 _ le_rfl (.inl hv)

theorem charToValue_pad : c.charToValue c.chPad = .pad := Function.update_self ..

theorem Context.Ok.charToValue_separator (hc : c.Ok) {ch : Char} (h : ch ∈ c.lineSeparator) :
    c.charToValue ch = .ignore := by
  obtain ⟨hpad, hch⟩ := hc.separator ch h
  have htable : ∀ n ≤ 64, (List.range n).foldl
      (fun table i => Function.update table (c.valueToChar i) (.value i)) (fun _ => CharValue.ignore) ch = .ignore := by
    intro n
    induction n with
    | zero => exact fun _ => rfl
    | succ n ih =>
      intro hn
      rw [List.range_succ, List.foldl_append]
      simpa [hch n (by omega)] using ih (by omega)
  rw [Context.charToValue, Function.update_of_ne hpad]
  exact htable 64 le_rfl

end

/-! ## A group of 24 bits -/

section
variable {x y z : UInt8} {n : Nat}

theorem combined_eq (x y z : UInt8) : x.toNat <<< 16 ||| y.toNat <<< 8 ||| z.toNat =
    value 256 [x.toNat, y.toNat, z.toNat] := by
  have hy := y.toNat_lt
  have hz := z.toNat_lt
  have h₁ : x.toNat <<< 16 ||| y.toNat <<< 8 = (x.toNat <<< 8 + y.toNat) <<< 8 := by
    rw [← Nat.shiftLeft_add_eq_or_of_lt (by rw [Nat.shiftLeft_eq]; omega)]
    simp only [Nat.shiftLeft_eq]
    ring
  rw [h₁, ← Nat.shiftLeft_add_eq_or_of_lt hz]
  simp [Nat.shiftLeft_eq, value]

/-- The four values of a group. -/
theorem sextets_eq (n : Nat) :
    [n >>> 18 &&& 0x3f, n >>> 12 &&& 0x3f, n >>> 6 &&& 0x3f, n &&& 0x3f] = digits 64 4 n := by
  have hmask : ∀ m, m &&& 0x3f = m % 64 := fun m => Nat.and_two_pow_sub_one_eq_mod m 6
  simp only [hmask, Nat.shiftRight_eq_div_pow, digits, List.nil_append, List.cons_append, Nat.div_div_eq_div_mul]

theorem bytes_eq (hn : n < 2 ^ 24) :
    [n >>> 16, (n &&& 0x0000FF00) >>> 8, n &&& 0x000000FF] = digits 256 3 n := by
  have hmask : ∀ m, m &&& 0xFF = m % 256 := fun m => Nat.and_two_pow_sub_one_eq_mod m 8
  have hmid : (n &&& 0x0000FF00) >>> 8 = n / 256 % 256 := by
    rw [Nat.shiftRight_and_distrib, Nat.shiftRight_eq_div_pow]
    exact hmask (n / 256)
  simp only [hmask, hmid, Nat.shiftRight_eq_div_pow, digits, List.nil_append, List.cons_append,
    Nat.div_div_eq_div_mul]
  congr 1
  omega

end

/-- The character stands for `v`, as a padding character (`p = 1`) or as one of the alphabet. -/
def Stands (c : Context) (ch : Char) (v p : Nat) : Prop :=
  c.charToValue ch = .value v ∧ p = 0 ∨ c.charToValue ch = .pad ∧ v = 0 ∧ p = 1

section
variable {c : Context} {s : DecodeState} {x y z : UInt8}

theorem decodeChar_of_stands {ch : Char} {v p : Nat} (h : Stands c ch v p) :
    decodeChar c s ch = decodeValue v { s with dummies := s.dummies + p } := by
  rcases h with ⟨h, rfl⟩ | ⟨h, rfl, rfl⟩
  · simp [decodeChar, h]
  · simp [decodeChar, h]

/-- Four characters that stand for the values of a group give back its bytes. -/
theorem run_group {c₀ c₁ c₂ c₃ : Char} {v₀ v₁ v₂ v₃ p₀ p₁ p₂ p₃ : Nat} (h₀ : Stands c c₀ v₀ p₀)
    (h₁ : Stands c c₁ v₁ p₁) (h₂ : Stands c c₂ v₂ p₂) (h₃ : Stands c c₃ v₃ p₃)
    (hv : [v₀, v₁, v₂, v₃] = digits 64 4 (value 256 [x.toNat, y.toNat, z.toNat])) (hs : s.cycle = 0) :
    ∃ k, Run.run (decodeChar c) s [c₀, c₁, c₂, c₃] =
      ⟨0, k, s.dummies + (p₀ + p₁ + p₂ + p₃), s.dest ++ [x, y, z]⟩ := by
  obtain ⟨cycle, combined, dummies, dest⟩ := s
  obtain rfl : cycle = 0 := hs
  have hlt : ∀ v ∈ [v₀, v₁, v₂, v₃], v < 64 := hv ▸ digits_lt (by decide)
  have hcombined : ((v₀ <<< 6 ||| v₁) <<< 6 ||| v₂) <<< 6 ||| v₃ = value 64 [v₀, v₁, v₂, v₃] := by
    have h₁ : v₁ < 2 ^ 6 := hlt v₁ (by simp)
    have h₂ : v₂ < 2 ^ 6 := hlt v₂ (by simp)
    have h₃ : v₃ < 2 ^ 6 := hlt v₃ (by simp)
    rw [← Nat.shiftLeft_add_eq_or_of_lt h₁, ← Nat.shiftLeft_add_eq_or_of_lt h₂, ← Nat.shiftLeft_add_eq_or_of_lt h₃]
    simp [Nat.shiftLeft_eq, value]
  have hbound : value 64 [v₀, v₁, v₂, v₃] < 2 ^ 24 := by
    have := value_lt hlt
    norm_num at this ⊢
    exact this
  have hxyz : ∀ d ∈ [x.toNat, y.toNat, z.toNat], d < 256 := by
    have := x.toNat_lt
    have := y.toNat_lt
    have := z.toNat_lt
    simp
    omega
  have hbytes := digits_value_digits hxyz (show 256 ^ 3 ≤ 64 ^ 4 by decide)
  rw [← hv] at hbytes
  refine ⟨value 64 [v₀, v₁, v₂, v₃], ?_⟩
  simp only [Run.run_cons, Run.run_nil, decodeChar_of_stands h₀, decodeChar_of_stands h₁, decodeChar_of_stands h₂,
    decodeChar_of_stands h₃, decodeValue]
  rw [hcombined, bytes_eq hbound]
  have hlen : [x.toNat, y.toNat, z.toNat].length = 3 := rfl
  rw [hlen] at hbytes
  rw [hbytes]
  simp
  omega

/-- A complete group, and one with `missing` bytes. -/
theorem run_triple (hc : c.Ok) (hs : s.cycle = 0) (missing : Nat)
    (hm : missing = 0 ∨ missing = 1 ∧ z = 0 ∨ missing = 2 ∧ y = 0 ∧ z = 0) :
    ∃ k, Run.run (decodeChar c) s ((encodeTriple c x y z).take (4 - missing) ++ List.replicate missing c.chPad) =
      ⟨0, k, s.dummies + missing, s.dest ++ [x, y, z]⟩ := by
  obtain ⟨v₀, v₁, v₂, v₃, hv⟩ : ∃ v₀ v₁ v₂ v₃,
      [v₀, v₁, v₂, v₃] = digits 64 4 (value 256 [x.toNat, y.toNat, z.toNat]) := ⟨_, _, _, _, sextets_eq _⟩
  have hlt : ∀ v ∈ [v₀, v₁, v₂, v₃], v < 64 := hv ▸ digits_lt (by decide)
  have hchar : ∀ v ∈ [v₀, v₁, v₂, v₃], Stands c (c.valueToChar v) v 0 := fun v h =>
    .inl ⟨hc.charToValue (hlt v h), rfl⟩
  have hpad : Stands c c.chPad 0 1 := .inr ⟨charToValue_pad, rfl, rfl⟩
  have htriple : encodeTriple c x y z = [v₀, v₁, v₂, v₃].map c.valueToChar := by
    simp only [encodeTriple]
    rw [combined_eq, sextets_eq, ← hv]
  have hlast : z = 0 → v₃ = 0 := by
    rintro rfl
    simp [digits, value] at hv
    omega
  have hlast₂ : y = 0 → z = 0 → v₂ = 0 := by
    rintro rfl rfl
    simp [digits, value] at hv
    omega
  rw [htriple]
  rcases hm with rfl | ⟨rfl, hz⟩ | ⟨rfl, hy, hz⟩
  · exact run_group (hchar v₀ (by simp)) (hchar v₁ (by simp)) (hchar v₂ (by simp)) (hchar v₃ (by simp)) hv hs
  · rw [hlast hz] at hv
    exact run_group (hchar v₀ (by simp)) (hchar v₁ (by simp)) (hchar v₂ (by simp)) hpad hv hs
  · rw [hlast hz, hlast₂ hy hz] at hv
    exact run_group (hchar v₀ (by simp)) (hchar v₁ (by simp)) hpad hpad hv hs

theorem run_separator (hc : c.Ok) {sep : List Char} (hsep : sep = [] ∨ sep = c.lineSeparator) :
    Run.run (decodeChar c) s sep = s := by
  have hignore : ∀ ch ∈ sep, c.charToValue ch = .ignore := by
    rcases hsep with rfl | rfl
    · simp
    · exact fun ch => hc.charToValue_separator
  clear hsep
  induction sep with
  | nil => rfl
  | cons ch sep ih =>
    have hch : decodeChar c s ch = s := by simp [decodeChar, hignore ch (by simp)]
    rw [Run.run_cons, hch]
    exact ih fun ch' h => hignore ch' (by simp [h])

/-- Complete groups are taken three bytes at a time. -/
theorem triples_induction {motive : (bs : Bytes) → bs.length % 3 = 0 → Prop} (nil : motive [] rfl)
    (triple : ∀ x y z rest h h', motive rest h → motive (x :: y :: z :: rest) h') : ∀ bs h, motive bs h
  | [], _ => nil
  | [_], h => absurd h (by simp)
  | [_, _], h => absurd h (by simp)
  | x :: y :: z :: rest, h =>
    have hrest : rest.length % 3 = 0 := by simp at h; omega
    triple x y z rest hrest h (triples_induction nil triple rest hrest)

theorem run_encodeGroups (hc : c.Ok) (linePos : Nat) (bs : Bytes) (hlen : bs.length % 3 = 0) (hs : s.cycle = 0) :
    ∃ k, Run.run (decodeChar c) s (encodeGroups c linePos bs) = ⟨0, k, s.dummies, s.dest ++ bs⟩ := by
  induction bs, hlen using triples_induction generalizing linePos s with
  | nil =>
    obtain ⟨cycle, combined, dummies, dest⟩ := s
    obtain rfl : cycle = 0 := hs
    exact ⟨combined, by simp [encodeGroups]⟩
  | triple x y z rest hrest hlen ih =>
    obtain ⟨k, htriple⟩ := run_triple (x := x) (y := y) (z := z) hc hs 0 (.inl rfl)
    rw [Nat.sub_zero, List.replicate_zero, List.append_nil, List.take_of_length_le (by simp [encodeTriple])] at htriple
    rw [encodeGroups, Run.run_append, Run.run_append, run_separator hc (ite_eq_or_eq _ _ _).symm, htriple]
    obtain ⟨k', hdone⟩ := ih (s := ⟨0, k, s.dummies + 0, s.dest ++ [x, y, z]⟩)
      (if linePos + 4 > c.lineLength then 4 else linePos + 4) rfl
    exact ⟨k', by simpa using hdone⟩

theorem encodeGroups_concat (c : Context) (linePos : Nat) (bs : Bytes) (hlen : bs.length % 3 = 0) (x y z : UInt8) :
    ∃ sep, (sep = [] ∨ sep = c.lineSeparator) ∧
      encodeGroups c linePos (bs ++ [x, y, z]) = encodeGroups c linePos bs ++ sep ++ encodeTriple c x y z := by
  induction bs, hlen using triples_induction generalizing linePos with
  | nil =>
    refine ⟨if linePos + 4 > c.lineLength ∧ c.lineLength ≠ 0 then c.lineSeparator else [], ?_, ?_⟩
    · split <;> simp
    · simp [encodeGroups]
  | triple x' y' z' rest hrest hlen ih =>
    obtain ⟨sep, hsep, heq⟩ := ih (if linePos + 4 > c.lineLength then 4 else linePos + 4)
    refine ⟨sep, hsep, ?_⟩
    rw [List.cons_append, List.cons_append, List.cons_append, encodeGroups, heq, encodeGroups]
    simp

theorem mem_encodeGroups (hline : c.lineLength = 0) {ch : Char} :
    ∀ linePos bs, ch ∈ encodeGroups c linePos bs → ∃ v < 64, ch = c.valueToChar v
  | linePos, x :: y :: z :: rest, h => by
    rw [encodeGroups, if_neg (by simp [hline]), List.nil_append, List.mem_append] at h
    rcases h with htriple | hrest
    · simp only [encodeTriple] at htriple
      rw [combined_eq, sextets_eq, List.mem_map] at htriple
      obtain ⟨v, hv, rfl⟩ := htriple
      exact ⟨v, digits_lt (by decide) v hv, rfl⟩
    · exact mem_encodeGroups hline _ rest hrest
  | _, [], h => by simp [encodeGroups] at h
  | _, [_], h => by simp [encodeGroups] at h
  | _, [_, _], h => by simp [encodeGroups] at h

/-- Without lines an encoding is made of the alphabet alone. -/
theorem mem_encode (hline : c.lineLength = 0) {src : Bytes} {ch : Char} (h : ch ∈ encode c src false) :
    ∃ v < 64, ch = c.valueToChar v := by
  simp only [encode, Bool.false_eq_true, if_false, List.append_nil] at h
  exact mem_encodeGroups hline _ _ (List.mem_of_mem_take h)

/-! ## Round trips -/

/-- The source of an encoding, filled up with zeros: complete groups and a last one. -/
theorem filled_eq {src : Bytes} (hne : src ≠ []) : ∃ bs x y z, bs.length % 3 = 0 ∧
    src ++ List.replicate (lacking src.length) 0 = bs ++ [x, y, z] ∧
    (lacking src.length = 0 ∨ lacking src.length = 1 ∧ z = 0 ∨ lacking src.length = 2 ∧ y = 0 ∧ z = 0) := by
  have hpos := List.length_pos_iff.2 hne
  have hm : lacking src.length = 0 ∨ lacking src.length = 1 ∨ lacking src.length = 2 := by
    unfold lacking
    split <;> omega
  have hlen : (src.length + lacking src.length) % 3 = 0 := by
    unfold lacking
    split <;> omega
  generalize hmissing : lacking src.length = missing at hm hlen ⊢
  obtain ⟨x, y, z, hxyz⟩ := List.length_eq_three.1
    (show ((src ++ List.replicate missing 0).drop (src.length + missing - 3)).length = 3 by simp; omega)
  have hsplit := List.take_append_drop (src.length + missing - 3) (src ++ List.replicate missing 0)
  rw [hxyz] at hsplit
  refine ⟨_, x, y, z, ?_, hsplit.symm, ?_⟩
  · rw [List.length_take, List.length_append, List.length_replicate]
    omega
  · generalize (src ++ List.replicate missing 0).take (src.length + missing - 3) = bs at hsplit
    rcases hm with rfl | rfl | rfl
    · exact .inl rfl
    · have hz : (bs ++ [x, y]) ++ [z] = src ++ [0] := by simpa using hsplit
      exact .inr (.inl ⟨rfl, by simpa using List.append_inj_right' hz rfl⟩)
    · have hyz : (bs ++ [x]) ++ [y, z] = src ++ [0, 0] := by simpa using hsplit
      exact .inr (.inr ⟨rfl, by simpa using List.append_inj_right' hyz rfl⟩)

theorem encode_eq (c : Context) {src : Bytes} (hne : src ≠ []) :
    ∃ bs x y z sep, bs.length % 3 = 0 ∧ (sep = [] ∨ sep = c.lineSeparator) ∧
      src ++ List.replicate (lacking src.length) 0 = bs ++ [x, y, z] ∧
      (lacking src.length = 0 ∨ lacking src.length = 1 ∧ z = 0 ∨ lacking src.length = 2 ∧ y = 0 ∧ z = 0) ∧
      ∀ bPad, encode c src bPad = encodeGroups c 0 bs ++ sep ++ ((encodeTriple c x y z).take (4 - lacking src.length) ++
        if bPad then List.replicate (lacking src.length) c.chPad else []) := by
  obtain ⟨bs, x, y, z, hlen, hfilled, hlast⟩ := filled_eq hne
  obtain ⟨sep, hsep, hgroups⟩ := encodeGroups_concat c 0 bs hlen x y z
  refine ⟨bs, x, y, z, sep, hlen, hsep, hfilled, hlast, fun bPad => ?_⟩
  have htriple : (encodeTriple c x y z).length = 4 := by simp [encodeTriple]
  have hle : lacking src.length ≤ 4 := by omega
  simp only [encode]
  rw [hfilled, hgroups, List.length_append, htriple, Nat.add_sub_assoc hle, List.take_length_add_append,
    List.append_assoc]

theorem decode_encode (hc : c.Ok) (src buff : Bytes) : content (decode c (encode c src true) buff) = src := by
  by_cases hne : src = []
  · subst hne
    rfl
  obtain ⟨bs, x, y, z, sep, hlen, hsep, hfilled, hlast, heq⟩ := encode_eq c hne
  obtain ⟨k, hgroups⟩ := run_encodeGroups (s := ⟨0, 0, 0, []⟩) hc 0 bs hlen rfl
  obtain ⟨k', hgroup⟩ := run_triple (x := x) (s := ⟨0, k, 0, bs⟩) hc rfl _ hlast
  have hrun : Run.run (decodeChar c) ⟨0, 0, 0, []⟩ (encode c src true) =
      ⟨0, k', lacking src.length, src ++ List.replicate (lacking src.length) 0⟩ := by
    rw [heq, if_pos rfl, Run.run_append _ _ (_ ++ sep), Run.run_append _ _ _ sep, hgroups, run_separator hc hsep, hfilled]
    simpa using hgroup
  simp only [decode, hrun, content]
  simp

/-- Lines of `4 * m` characters: a separator stands before each group that starts a line but the first. Without a
line length there is none. -/
theorem length_encodeGroups {m j : Nat} (hline : c.lineLength = 4 * m) (hj : j ≤ m ∨ m = 0) (bs : Bytes)
    (hlen : bs.length % 3 = 0) : (encodeGroups c (4 * j) bs).length =
      4 * (bs.length / 3) + (j + bs.length / 3 - 1) / m * c.lineSeparator.length := by
  induction bs, hlen using triples_induction generalizing j with
  | nil =>
    have : (j - 1) / m = 0 := by
      rcases hj with hj | rfl
      · by_cases h : j = 0
        · simp [h]
        · exact Nat.div_eq_of_lt (by omega)
      · exact Nat.div_zero _
    simp [encodeGroups, this]
  | triple x y z rest hrest hlen ih =>
    have hg : (x :: y :: z :: rest).length / 3 = rest.length / 3 + 1 := by
      simp only [List.length_cons]
      omega
    have htriple : (encodeTriple c x y z).length = 4 := by simp [encodeTriple]
    rw [encodeGroups, hg]
    simp only [List.length_append, htriple, hline]
    by_cases hm : m = 0
    · subst hm
      have hone := ih (j := 1) (.inr rfl)
      rw [Nat.mul_one] at hone
      rw [if_neg (by omega), if_pos (by omega), hone]
      simp
      ring
    by_cases hfull : j = m
    · subst hfull
      have hone := ih (j := 1) (.inl (by omega))
      have hdiv : (j + (rest.length / 3 + 1) - 1) / j = (1 + rest.length / 3 - 1) / j + 1 := by
        rw [show j + (rest.length / 3 + 1) - 1 = (1 + rest.length / 3 - 1) + j by omega,
          Nat.add_div_right _ (by omega)]
      rw [Nat.mul_one] at hone
      rw [if_pos (by omega), if_pos (by omega), hdiv, hone]
      ring
    · have hnext := ih (j := j + 1) (.inl (by omega))
      have hpos : 4 * j + 4 = 4 * (j + 1) := by ring
      have hgroups : j + (rest.length / 3 + 1) = j + 1 + rest.length / 3 := by omega
      rw [if_neg (by omega), if_neg (by omega), hpos, hnext, hgroups]
      simp
      ring

theorem add_lacking (n : Nat) : n + lacking n = 3 * ((n + 2) / 3) := by
  unfold lacking
  split <;> omega

/-- The encoding and the last characters that it lacks without padding. -/
theorem encode_true (c : Context) (src : Bytes) :
    encode c src true = encode c src false ++ List.replicate (lacking src.length) c.chPad := by
  simp [encode]

theorem length_encode_false {m : Nat} (hline : c.lineLength = 4 * m) (src : Bytes) :
    (encode c src false).length + lacking src.length =
      4 * ((src.length + 2) / 3) + ((src.length + 2) / 3 - 1) / m * c.lineSeparator.length := by
  have hfill : (src ++ List.replicate (lacking src.length) 0).length = 3 * ((src.length + 2) / 3) := by
    rw [List.length_append, List.length_replicate, add_lacking]
  have hout := length_encodeGroups (j := 0) hline (.inl (Nat.zero_le m)) (src ++ List.replicate (lacking src.length) 0)
    (by omega)
  rw [hfill, Nat.mul_div_cancel_left _ (by decide), Nat.zero_add, Nat.mul_zero] at hout
  have hle : lacking src.length ≤ 4 * ((src.length + 2) / 3) := by
    have := add_lacking src.length
    omega
  simp only [encode, List.length_append, List.length_take, hout]
  simp
  omega

/-- The room that `base64_get_encode_length` asks for is what an encoding takes up. -/
theorem length_encode (hline : 4 ∣ c.lineLength) (src : Bytes) :
    (encode c src true).length = getEncodeLength c src.length := by
  obtain ⟨m, hm⟩ := hline
  rw [encode_true, List.length_append, List.length_replicate, length_encode_false hm]
  simp only [getEncodeLength, hm]
  generalize (src.length + 2) / 3 = g
  by_cases hzero : m = 0
  · simp [hzero]
    ring
  rw [if_neg (by omega)]
  by_cases hg : g = 0
  · have hlines : (g * 4 + 4 * m - 1) / (4 * m) = 0 := Nat.div_eq_of_lt (by omega)
    rw [hlines, hg]
    simp
  have hlines : (g * 4 + 4 * m - 1) / (4 * m) = (g - 1) / m + 1 := by
    rw [show g * 4 + 4 * m - 1 = (g * 4 - 1) + 4 * m by omega, Nat.add_div_right _ (by omega), ← Nat.div_div_eq_div_mul]
    congr 2
    omega
  rw [hlines]
  generalize (g - 1) / m = lines
  have hcast : ((lines + 1 : Nat) : Int) - 1 = lines := by omega
  rw [hcast, Int.toNat_natCast]
  split
  · ring
  · have : lines = 0 := by omega
    rw [this]
    ring

theorem decodeAuto_encode (hc : c.Ok) (hline : c.lineLength = 0) (src buff : Bytes) :
    content (decodeAuto c (encode c src false) buff) = src := by
  have hlen := length_encode_false (m := 0) hline src
  have hpad := decode_encode hc src buff
  rw [encode_true] at hpad
  have hmissing : lacking src.length ≤ 2 := by
    unfold lacking
    split <;> omega
  simp only [Nat.div_zero, Nat.zero_mul, Nat.add_zero] at hlen
  unfold decodeAuto
  split
  · have : lacking src.length = 0 := by omega
    simpa [this] using hpad
  · have : 4 - (encode c src false).length % 4 = lacking src.length := by omega
    rw [this, hpad]

/-- **Decoding gives back what was encoded**, with padding over lines of any length and without it on one line, and an
encoding takes up the room that was asked for. -/
theorem base64_round_trip (hc : c.Ok) (hline : 4 ∣ c.lineLength) (src buff : Bytes) :
    content (decode c (encode c src true) buff) = src ∧
      (encode c src true).length = getEncodeLength c src.length ∧
      (c.lineLength = 0 → content (decodeAuto c (encode c src false) buff) = src) :=
  ⟨decode_encode hc src buff, length_encode hline src, fun hzero => decodeAuto_encode hc hzero src buff⟩

end

/-- The usual alphabet, on lines of four characters. -/
def mimeContext : Context := ⟨4, ['\n'], '+', '/', '='⟩

theorem mimeContext_ok : mimeContext.Ok := by
  have hnodup : ((List.range 64).map mimeContext.valueToChar).Nodup := by decide +kernel
  have hnewline : ∀ v < 64, '\n' ≠ mimeContext.valueToChar v := by decide +kernel
  refine ⟨?_, by decide +kernel, ?_⟩
  · intro v hv w hw h
    exact List.inj_on_of_nodup_map hnodup (by simpa using hv) (by simpa using hw) h
  · intro ch hch
    obtain rfl : ch = '\n' := by simpa [mimeContext] using hch
    exact ⟨by decide, hnewline⟩

theorem base64_round_trip_lines : encode mimeContext [1, 2, 3, 4, 5] true = "AQID\nBAU=".toList ∧
    content (decode mimeContext (encode mimeContext [1, 2, 3, 4, 5] true) []) = [1, 2, 3, 4, 5] :=
  ⟨by decide +kernel, (base64_round_trip mimeContext_ok (by decide) [1, 2, 3, 4, 5] []).1⟩

end HahaDog.Base64
