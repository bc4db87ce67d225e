import HahaDogOps.Shell.Read
/-!
# The FastDFS INI reader (`FastDFS_v4.08/common/ini_file_reader.c`)

| here | there |
| --- | --- |
| `isSpace`, `trim`      | `trim_left`, `trim_right`, `trim` (`shared_func.c:551-611`) |
| `Line`, `classify`     | the tests of one line in `iniDoLoadItemsFromBuffer` (`ini_file_reader.c:276-466`) |
| `fullName`             | the include file name put together at `:291-308` |
| `bufferLines`          | the `strchr(pLine, '\n')` loop over a NUL-terminated buffer (`:267-274`) |
| `doLine`, `load`       | the body of that loop; `fromFile` (`iniDoLoadFromFile`, `:173`) is called for an include (`:322`) |

The context keeps what `IniContext` has before `iniSortItems`: the current section (the empty name
is the global one) and the items in the order they are loaded. An item carries the mark whether it
was written in the loaded file itself or in a file it includes. Includes may nest without end, so
`load` takes the nesting depth it may use up.
-/

namespace HahaDog.Ini

/-- What `trim` removes: `' '`, `'\n'`, `'\r'`, `'\t'`. -/
def isSpace (c : Char) : Bool := c == ' ' || c == '\n' || c == '\r' || c == '\t'

def trim (t : Text) : Text := Lines.strip isSpace t

/-- The shell strips less than the reader, so it does not matter that it did. -/
theorem trim_stripBlanks (l : Text) : trim (stripBlanks l) = trim l :=
  Lines.strip_strip_of_le isBlank (fun c hc => by
    simp only [isBlank, isSpace, Bool.or_eq_true, beq_iff_eq] at hc ⊢; tauto) l

/-- `FAST_INI_ITEM_NAME_LEN` and `FAST_INI_ITEM_VALUE_LEN` (`ini_file_reader.h:19-20`). -/
def itemNameLen : Nat := 64
def itemValueLen : Nat := 256

/-- `MAX_PATH_SIZE` (`common_define.h:79`). -/
def maxPathSize : Nat := 256

/-- What the reader takes a line for. -/
inductive Line where
  | incl (file : Text)
  /-- Blank, or a comment. -/
  | skip
  | sect (name : Text)
  | item (key value : Text)
  /-- Neither a section nor an assignment: ignored. -/
  | noise
deriving DecidableEq, Repr

/-- `#include` in column 0, in any case, followed by a space or a tab (`:276-278`). -/
def isInclude : Text → Bool
  | '#' :: t => (t.take 7).map Char.toLower == "include".toList && (t.drop 7).head?.any isBlank
  | _ => false

/-- `'['` first and `']'` last (`:350`). -/
def isSection (t : Text) : Bool := t.head? == some '[' && t.getLast? == some ']'

/-- A trimmed line that is neither blank, comment nor section is cut at its first `'='`; name and
value are copied up to their limits and trimmed (`:424-466`). -/
def assignment (t : Text) : Line :=
  if '=' ∈ t then
    .item (trim ((t.takeWhile (· ≠ '=')).take itemNameLen)) (trim ((t.dropWhile (· ≠ '=')).tail.take itemValueLen))
  else .noise

/-- The tests after `trim(pLine)` (`:343-428`). -/
def classifyTrimmed (t : Text) : Line :=
  if t = [] ∨ t.head? = some '#' then .skip
  else if isSection t then .sect (trim t.tail.dropLast)
  else assignment t

/-- One line of the buffer (`:276-428`). The include test comes before trimming. -/
def classify (l : Text) : Line :=
  if isInclude l then .incl (trim (l.drop 9)) else classifyTrimmed (trim l)

/-! ## Loading -/

structure Item where
  /-- Written in the loaded file itself. -/
  own : Bool
  sect : Text
  key : Text
  value : Text
deriving DecidableEq, Repr

structure Context where
  sect : Text
  items : List Item
deriving DecidableEq, Repr

/-- The context `iniInitContext` gives. -/
def Context.init : Context := ⟨[], []⟩

inductive Error where
  /-- The `errno` of a file or URL that cannot be read. -/
  | errno (n : Nat)
  /-- Includes nest deeper than allowed. -/
  | depth
deriving DecidableEq, Repr

/-- `full_filename` for an include (`:291-308`), cut by `snprintf`. -/
def fullName (configPath file : Text) : Text :=
  if (file.take 7).map Char.toLower = "http://".toList ∨ file.head? = some '/' then file.take (maxPathSize - 1)
  else (configPath ++ '/' :: file).take (maxPathSize - 1)

/-- The lines of a NUL-terminated buffer; the text after the last newline counts as a line. -/
def bufferLines (content : Text) : List Text :=
  let c := Lines.cut '\n' (content.takeWhile (· ≠ '\x00'))
  c.1 ++ [c.2]

/-- One round of the loop; `inc` loads an included file. -/
def doLine (inc : Text → Context → Except Error Context) (configPath : Text) (own : Bool) (ctx : Context)
    (l : Text) : Except Error Context :=
  match classify l with
  | .incl file => inc (fullName configPath file) ctx
  | .skip => .ok ctx
  | .sect name => .ok { ctx with sect := name }
  | .item key value => .ok { ctx with items := ctx.items ++ [⟨own, ctx.sect, key, value⟩] }
  | .noise => .ok ctx

/-- `iniDoLoadFromFile`; `files` is what reading a file or a URL gives. -/
def fromFile (files : Text → Except Nat Text) (loadText : Text → Context → Except Error Context) (name : Text)
    (ctx : Context) : Except Error Context :=
  match files name with
  | .error e => .error (.errno e)
  | .ok text => loadText text ctx

/-- `iniDoLoadItemsFromBuffer`. -/
def load (files : Text → Except Nat Text) (configPath : Text) : Nat → Bool → Text → Context → Except Error Context
  | 0, _, _, _ => .error .depth
  | depth + 1, own, content, ctx =>
    (bufferLines content).foldlM
      (doLine (fromFile files fun text c => load files configPath depth false text c) configPath own) ctx

/-- The items the reader loads from a file with this content. -/
def loadItems (files : Text → Except Nat Text) (configPath : Text) (depth : Nat) (content : Text) :
    Except Error (List Item) :=
  (load files configPath depth true content .init).map Context.items

/-! ## Lines -/

theorem bufferLines_unlines {ls : List Text} (hl : ∀ l ∈ ls, '\n' ∉ l) (hn : ∀ l ∈ ls, NulFree l) :
    bufferLines (unlines ls) = ls ++ [[]] := by
  have hnul : ∀ c ∈ unlines ls, decide (c ≠ '\x00') = true := by
    intro c hc
    simp only [unlines, Lines.joined, List.mem_flatMap, List.mem_append, List.mem_singleton] at hc
    obtain ⟨l, hl', hc | rfl⟩ := hc
    · exact decide_eq_true fun h : c = '\x00' => hn l hl' (h ▸ hc)
    · decide
  simp only [bufferLines]
  rw [List.takeWhile_eq_self_iff.2 hnul, unlines, Lines.cut_joined '\n' hl]

/-- A key the reader takes as it stands. -/
@[mk_iff] structure PlainKey (k : Text) : Prop where
  ne : k ≠ []
  short : k.length ≤ itemNameLen
  noSpace : ∀ c ∈ k, isSpace c = false
  noEq : '=' ∉ k
  noHash : k.head? ≠ some '#'
  noBracket : k.head? ≠ some '['

instance (k : Text) : Decidable (PlainKey k) := decidable_of_iff _ (plainKey_iff k).symm

theorem isInclude_eq_false {l : Text} (h : l.head? ≠ some '#') : isInclude l = false := by
  unfold isInclude
  split
  · simp at h
  · rfl

theorem trim_assign {k : Text} (hk : PlainKey k) (r : Text) : trim (k ++ '=' :: r) = k ++ '=' :: r.rdropWhile isSpace := by
  have htight : Lines.Tight isSpace (k ++ ['=']) := Lines.tight_of_all_not _ (by
    simpa using fun c hc => hc.elim (hk.noSpace c) fun e => e ▸ rfl)
  have := Lines.strip_append_of_tight isSpace htight (by simp) r
  simpa [trim] using this

/-- **A line that starts with `key=` is an assignment to `key`.** -/
theorem classify_assign {k : Text} (hk : PlainKey k) (r : Text) :
    classify (k ++ '=' :: r) = .item k (trim ((r.rdropWhile isSpace).take itemValueLen)) := by
  obtain ⟨c, k', rfl⟩ := List.exists_cons_of_ne_nil hk.ne
  have hh := hk.noHash
  have hb := hk.noBracket
  simp only [List.head?_cons, ne_eq, Option.some.injEq] at hh hb
  rw [classify, isInclude_eq_false (by simpa using hh), if_neg (by simp), trim_assign hk, classifyTrimmed]
  have hsec : isSection (c :: k' ++ '=' :: r.rdropWhile isSpace) = false := by simp [isSection, hb]
  rw [if_neg (by simp [hh]), hsec, if_neg (by simp), assignment, if_pos (by simp),
    Lines.takeWhile_ne_append hk.noEq, Lines.dropWhile_ne_append hk.noEq, List.take_of_length_le hk.short, List.tail_cons,
    trim, Lines.strip_of_tight isSpace (Lines.tight_of_all_not _ hk.noSpace)]

/-- A value without blanks and within the limit is loaded as it is written. -/
theorem classify_assign_value {k v : Text} (hk : PlainKey k) (hv : ∀ c ∈ v, isSpace c = false)
    (hlen : v.length ≤ itemValueLen) : classify (k ++ '=' :: v) = .item k v := by
  have hr : v.rdropWhile isSpace = v := by
    rw [List.rdropWhile_eq_self_iff]
    intro h; simpa using hv _ (List.getLast_mem h)
  rw [classify_assign hk, hr, List.take_of_length_le hlen, trim,
    Lines.strip_of_tight isSpace (Lines.tight_of_all_not _ hv)]

theorem classifyTrimmed_item {t k v : Text} (h : classifyTrimmed t = .item k v) :
    '=' ∈ t ∧ k = trim ((t.takeWhile (· ≠ '=')).take itemNameLen) := by
  simp only [classifyTrimmed, assignment] at h
  split at h
  · simp at h
  · split at h
    · simp at h
    · split at h
      · rename_i heq
        simp only [Line.item.injEq] at h
        exact ⟨heq, h.1.symm⟩
      · simp at h

/-- Conversely, an assignment to `key` with no blank before the `'='` is a line that starts with `key=`. -/
theorem prefix_of_item {l k v : Text} (hk : k.length < itemNameLen) (h : classify l = .item k v)
    (hsp : ∀ c ∈ l.takeWhile (· ≠ '='), isSpace c = false) : k ++ ['='] <+: l := by
  have hinc : isInclude l = false := by
    by_contra hi
    rw [Bool.not_eq_false] at hi
    simp [classify, hi] at h
  simp only [classify, hinc, Bool.false_eq_true, ↓reduceIte] at h
  obtain ⟨heq, hkey⟩ := classifyTrimmed_item h
  obtain ⟨a, b, hl, ha, hb, _⟩ := Lines.strip_spec isSpace l
  change l = a ++ trim l ++ b at hl
  -- the name is everything before the `'='`, cut at the limit
  have hsplit := Lines.eq_append_of_mem heq
  have hprene := Lines.not_mem_takeWhile_ne (x := '=') (trim l)
  generalize (trim l).takeWhile (fun c => decide (c ≠ '=')) = pre at *
  have hane : '=' ∉ a := fun hm => by simpa [isSpace] using ha '=' hm
  have htw : l.takeWhile (· ≠ '=') = a ++ pre := by
    conv => lhs; rw [hl, hsplit]
    rw [show a ++ (pre ++ '=' :: ((trim l).dropWhile (· ≠ '=')).tail) ++ b =
      (a ++ pre) ++ '=' :: (((trim l).dropWhile (· ≠ '=')).tail ++ b) by simp]
    exact Lines.takeWhile_ne_append (by simp [hane, hprene]) _
  rw [htw] at hsp
  have ha0 : a = [] := by
    cases a with
    | nil => rfl
    | cons c a => have h1 := ha c (by simp); rw [hsp c (by simp)] at h1; cases h1
  have hpt : trim (pre.take itemNameLen) = pre.take itemNameLen := by
    exact Lines.strip_of_tight isSpace (Lines.tight_of_all_not _ fun c hc =>
      hsp c (List.mem_append_right _ (List.mem_of_mem_take hc)))
  rw [hpt] at hkey
  have hlen : pre.length < itemNameLen := by
    rw [hkey, List.length_take] at hk; omega
  rw [List.take_of_length_le hlen.le] at hkey
  rw [hkey, hl, ha0, hsplit]
  exact ⟨((trim l).dropWhile (· ≠ '=')).tail ++ b, by simp⟩

end HahaDog.Ini
