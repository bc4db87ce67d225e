import HahaDogOps.Lib.Lines
/-!
# The template loops of `entrypoint.sh`: `while read line` and `echo >> file`

Every generated file goes through the same pair of loops (`entrypoint.sh:30-43`, `:64-80`,
`:91-107`, `:110-120`): `while read line; do arr[$n]="${line}"; ((n++)); done < template` fills an
array, and `for i in "${!arr[@]}"; do ...; echo "${arr[$i]}" >> file; done` writes it out.

| here | there |
| --- | --- |
| `readScan`, `readLines` | bash's `read` without `-r` under the default `IFS`, called until it fails |
| `echoOption`, `echo`    | the `echo` builtin with one (quoted) argument |
| `appendLine`            | `echo "${arr[$i]}" >> file` |
| `copyLoop`              | the pair of loops of `:110-120`, after `rm` |

A text is the list of its characters; a template that holds bytes which are no characters is
covered by reading each byte as the character of that number.

Main theorem `copyLoop_eq_stripped_iff`: the exact texts the loops copy line by line.
-/

namespace HahaDog

abbrev Text := List Char

/-- A text that holds no NUL byte. -/
def NulFree (t : Text) : Prop := '\x00' ∉ t

instance (t : Text) : Decidable (NulFree t) := inferInstanceAs (Decidable ('\x00' ∉ t))

/-- The lines of a text, an unterminated last one included. -/
def lines (t : Text) : List Text := Lines.pieces '\n' t

/-- Every line followed by a newline. -/
def unlines (ls : List Text) : Text := Lines.joined '\n' ls

/-- A space or a tab. -/
def isBlank (c : Char) : Bool := c == ' ' || c == '\t'

/-- A line without its leading and trailing spaces and tabs. -/
def stripBlanks (l : Text) : Text := Lines.strip isBlank l

namespace Shell

/-! ## `read` -/

/-- `read`'s character loop: the characters up to the first unescaped newline, each with the mark
whether it was escaped, and the input after it; `none` when the input ends first. The flag says that
the previous character was an unescaped backslash (`pass_next`). NUL bytes are skipped. -/
def readOne : Bool → Text → Option (List (Char × Bool) × Text)
  | _, [] => none
  | true, c :: t =>
    -- backslash-newline disappears, any other escaped character is kept as it is
    if c = '\n' then readOne false t else (readOne false t).map fun r => ((c, true) :: r.1, r.2)
  | false, c :: t =>
    if c = '\\' then readOne true t
    else if c = '\n' then some ([], t)
    else if c = '\x00' then readOne false t
    else (readOne false t).map fun r => ((c, false) :: r.1, r.2)

/-- The same loop run over the whole input: the logical lines that end in a newline, and what is
pending at the end of the input. -/
def readScan : Bool → Text → List (List (Char × Bool)) × List (Char × Bool)
  | _, [] => ([], [])
  | true, c :: t =>
    if c = '\n' then readScan false t else Lines.push (c, true) (readScan false t)
  | false, c :: t =>
    if c = '\\' then readScan true t
    else if c = '\n' then ([] :: (readScan false t).1, (readScan false t).2)
    else if c = '\x00' then readScan false t
    else Lines.push (c, false) (readScan false t)

/-- The variable `read` assigns: blanks at both ends are dropped unless they were escaped. An escaped
NUL byte is kept by the loop, but ends the string. -/
def readValue (raw : List (Char × Bool)) : Text :=
  (Lines.strip (fun x => !x.2 && isBlank x.1) (raw.takeWhile fun x => x.1 ≠ '\x00')).map Prod.fst

/-- What `while read line` collects. At the end of the input `read` fails, so the body never sees
an unterminated line. -/
def readLines (t : Text) : List Text := (readScan false t).1.map readValue

/-- The lines of a scan whose first call of `read` gave `r`. -/
def afterRead : Option (List (Char × Bool) × Text) → List (List (Char × Bool))
  | none => []
  | some (raw, rest) => raw :: (readScan false rest).1

theorem push_afterRead (x : Char × Bool) {t : Text} (h : (readScan false t).1 = afterRead (readOne false t)) :
    (Lines.push x (readScan false t)).1 = afterRead ((readOne false t).map fun r => (x :: r.1, r.2)) := by
  rcases hr : readOne false t with _ | ⟨raw, rest⟩ <;> rcases hs : readScan false t with ⟨_ | ⟨l, ls⟩, r⟩ <;>
    simp_all [Lines.push, afterRead]

/-- `while read`: one call of `read` after the other until one fails. -/
theorem readScan_eq : ∀ (t : Text) (esc : Bool), (readScan esc t).1 = afterRead (readOne esc t)
  | [], _ => by simp [readScan, readOne, afterRead]
  | c :: t, true => by
    have ih := readScan_eq t false
    simp only [readScan, readOne]
    split
    · exact ih
    · exact push_afterRead _ ih
  | c :: t, false => by
    have ih := readScan_eq t false
    simp only [readScan, readOne]
    split
    · exact readScan_eq t true
    · split
      · rfl
      · split
        · exact ih
        · exact push_afterRead _ ih

theorem readLines_eq (t : Text) : readLines t = match readOne false t with
    | none => []
    | some (raw, rest) => readValue raw :: readLines rest := by
  rw [readLines, readScan_eq]
  cases readOne false t <;> rfl

theorem readScan_plain {t : Text} (hb : '\\' ∉ t) (hn : NulFree t) :
    readScan false t = ((Lines.cut '\n' t).1.map (·.map (·, false)), (Lines.cut '\n' t).2.map (·, false)) := by
  induction t with
  | nil => rfl
  | cons c t ih =>
    simp only [NulFree, List.mem_cons, not_or] at hb hn ih
    have ih := ih hb.2 hn.2
    by_cases hc : c = '\n'
    · subst hc
      rw [Lines.cut_cons_sep]
      simp [readScan, ih]
    · rw [Lines.cut_cons_ne _ hc]
      simp only [readScan, Ne.symm hb.1, hc, Ne.symm hn.1, ↓reduceIte, ih]
      rcases Lines.cut '\n' t with ⟨_ | ⟨l, ls⟩, r⟩ <;> simp [Lines.push]

theorem readValue_plain {l : Text} (hn : NulFree l) : readValue (l.map (·, false)) = stripBlanks l := by
  have hnul : ∀ x ∈ l.map (·, false), decide (x.1 ≠ '\x00') = true := by
    intro x hx
    obtain ⟨c, hc, rfl⟩ := List.mem_map.1 hx
    exact decide_eq_true fun e : c = '\x00' => hn (e ▸ hc)
  rw [readValue, List.takeWhile_eq_self_iff.2 hnul, Lines.strip_map, List.map_map]
  simp [stripBlanks, Function.comp_def]

/-- On a text without backslashes `read` only strips the complete lines. -/
theorem readLines_plain {t : Text} (hb : '\\' ∉ t) (hn : NulFree t) :
    readLines t = (Lines.cut '\n' t).1.map stripBlanks := by
  rw [readLines, readScan_plain hb hn, List.map_map]
  refine List.map_congr_left fun l hl => readValue_plain fun hm => hn ?_
  rw [← Lines.joined_cut '\n' t, List.mem_append]
  exact .inl (List.mem_flatMap.2 ⟨l, hl, List.mem_append_left _ hm⟩)

theorem readLines_terminated {t : Text} (hb : '\\' ∉ t) (hn : NulFree t)
    (ht : t = [] ∨ t.getLast? = some '\n') : readLines t = (lines t).map stripBlanks := by
  rw [readLines_plain hb hn, lines, Lines.pieces, if_pos ((Lines.cut_snd_eq_nil_iff _ t).2 ht)]

/-! ### What a read line cannot hold -/

theorem readValue_sublist (raw : List (Char × Bool)) : (readValue raw).Sublist (raw.map Prod.fst) :=
  ((Lines.strip_sublist _ _).trans (List.takeWhile_sublist fun x : Char × Bool => decide (x.1 ≠ '\x00'))).map _

/-- No newline gets into the scanned lines. -/
def NoNewline (r : List (List (Char × Bool)) × List (Char × Bool)) : Prop :=
  (∀ raw ∈ r.1, ∀ x ∈ raw, x.1 ≠ '\n') ∧ ∀ x ∈ r.2, x.1 ≠ '\n'

theorem noNewline_push {x : Char × Bool} (hx : x.1 ≠ '\n') {r : List (List (Char × Bool)) × List (Char × Bool)}
    (h : NoNewline r) : NoNewline (Lines.push x r) := by
  rcases r with ⟨_ | ⟨l, ls⟩, r⟩
  · exact ⟨h.1, List.forall_mem_cons.2 ⟨hx, h.2⟩⟩
  · have hl := List.forall_mem_cons.1 h.1
    exact ⟨List.forall_mem_cons.2 ⟨List.forall_mem_cons.2 ⟨hx, hl.1⟩, hl.2⟩, h.2⟩

theorem readScan_noNewline : ∀ (t : Text) (esc : Bool), NoNewline (readScan esc t)
  | [], _ => by simp [readScan, NoNewline]
  | c :: t, true => by
    have ih := readScan_noNewline t false
    simp only [readScan]
    split
    · exact ih
    · rename_i hc; exact noNewline_push hc ih
  | c :: t, false => by
    have ih := readScan_noNewline t false
    simp only [readScan]
    split
    · exact readScan_noNewline t true
    · split
      · exact ⟨by simpa using ih.1, ih.2⟩
      · split
        · exact ih
        · rename_i hc _; exact noNewline_push hc ih

theorem newline_not_mem_readLines {t l : Text} (h : l ∈ readLines t) : '\n' ∉ l := by
  obtain ⟨raw, hraw, rfl⟩ := List.mem_map.1 h
  intro hm
  obtain ⟨x, hx, hn⟩ := List.mem_map.1 ((readValue_sublist raw).mem hm)
  exact (readScan_noNewline t false).1 raw hraw x hx hn

/-! ### Backslashes: at least half of them are consumed -/

/-- The backslashes among the characters a scan kept. -/
def keptBackslashes (r : List (List (Char × Bool)) × List (Char × Bool)) : Nat :=
  (r.1.flatten.map Prod.fst).count '\\' + (r.2.map Prod.fst).count '\\'

theorem keptBackslashes_push (x : Char × Bool) (r : List (List (Char × Bool)) × List (Char × Bool)) :
    keptBackslashes (Lines.push x r) = keptBackslashes r + if x.1 = '\\' then 1 else 0 := by
  rcases r with ⟨_ | ⟨l, ls⟩, r⟩
  · simp [keptBackslashes, Lines.push, List.count_cons, beq_iff_eq]
  · simp [keptBackslashes, Lines.push, List.count_cons, beq_iff_eq]; omega

theorem readScan_backslashes : ∀ (t : Text) (esc : Bool),
    2 * keptBackslashes (readScan esc t) ≤ t.count '\\' + if esc then 1 else 0
  | [], esc => by simp [readScan, keptBackslashes]
  | c :: t, true => by
    have ih := readScan_backslashes t false
    simp only [readScan, Bool.false_eq_true, ↓reduceIte] at ih ⊢
    split
    · rename_i hc; subst hc; simp; omega
    · rw [keptBackslashes_push, List.count_cons]
      by_cases hb : c = '\\' <;> simp [hb] <;> omega
  | c :: t, false => by
    have ih := readScan_backslashes t false
    have ih' := readScan_backslashes t true
    simp only [readScan, Bool.false_eq_true, ↓reduceIte, Nat.add_zero] at ih ih' ⊢
    by_cases hb : c = '\\'
    · simp only [hb, ↓reduceIte, List.count_cons_self]; exact ih'
    · rw [List.count_cons_of_ne (by simpa using hb)]
      simp only [hb, ↓reduceIte]
      split
      · simpa [keptBackslashes] using ih
      · split
        · exact ih
        · rw [keptBackslashes_push]; simpa [hb] using ih

theorem count_readValue (raw : List (Char × Bool)) : (readValue raw).count '\\' ≤ (raw.map Prod.fst).count '\\' :=
  (readValue_sublist raw).count_le _

theorem readLines_backslashes (t : Text) : 2 * (readLines t).flatten.count '\\' ≤ t.count '\\' := by
  have h := readScan_backslashes t false
  have hle : ∀ raws : List (List (Char × Bool)),
      (raws.map readValue).flatten.count '\\' ≤ (raws.flatten.map Prod.fst).count '\\' := by
    intro raws
    induction raws with
    | nil => simp
    | cons r rs ih =>
      have := count_readValue r
      simp only [List.map_cons, List.flatten_cons, List.count_append, List.map_append]; omega
  have := hle (readScan false t).1
  simp only [keptBackslashes, Bool.false_eq_true, ↓reduceIte, Nat.add_zero] at h
  rw [readLines]; omega

/-! ## `echo` -/

/-- `-n`, `-e`, `-E` and their combinations: `echo` takes such a sole argument as options. -/
def echoOption : Text → Bool
  | '-' :: c :: w => (c :: w).all fun x => x == 'n' || x == 'e' || x == 'E'
  | _ => false

/-- Such a word has only these characters. -/
theorem not_mem_of_echoOption {w : Text} (h : echoOption w = true) {c : Char} (hc : c ∉ "-neE".toList) : c ∉ w := by
  unfold echoOption at h
  split at h
  · rename_i d w
    intro hm
    rcases List.mem_cons.1 hm with rfl | hm
    · exact hc (by decide)
    · have := List.all_eq_true.1 h _ hm
      simp only [Bool.or_eq_true, beq_iff_eq] at this
      rcases this with (rfl | rfl) | rfl <;> exact hc (by decide)
  · cases h

/-- `echo "$w"`. With only options there is nothing to print but the newline, which `-n` suppresses. -/
def echo (w : Text) : Text :=
  if echoOption w then (if 'n' ∈ w then [] else ['\n']) else w ++ ['\n']

theorem length_echo (w : Text) :
    (echo w).length ≤ w.length + 1 ∧ (echoOption w = true → (echo w).length < w.length + 1) := by
  unfold echo
  by_cases h : echoOption w = true
  · have : 2 ≤ w.length := by
      unfold echoOption at h
      split at h
      · simp
      · simp at h
    simp only [h, ↓reduceIte, forall_const]
    split
    · simp
    · simp; omega
  · simp [h]

theorem count_echo (w : Text) : (echo w).count '\\' ≤ w.count '\\' := by
  unfold echo
  split
  · split <;> simp
  · simp

theorem length_flatMap_echo (ws : List Text) : (ws.flatMap echo).length ≤ (unlines ws).length ∧
    ((∃ w ∈ ws, echoOption w = true) → (ws.flatMap echo).length < (unlines ws).length) := by
  induction ws with
  | nil => simp [unlines]
  | cons w ws ih =>
    have hw := length_echo w
    simp only [unlines, List.flatMap_cons, List.length_append, Lines.joined_cons, List.length_cons] at ih ⊢
    refine ⟨by omega, ?_⟩
    rintro ⟨u, hu, ho⟩
    rcases List.mem_cons.1 hu with rfl | hu
    · have := hw.2 ho; omega
    · have := ih.2 ⟨u, hu, ho⟩; omega

/-- Echoing words prints them line by line iff none of them is an option. -/
theorem flatMap_echo_eq_iff (ws : List Text) : ws.flatMap echo = unlines ws ↔ ∀ w ∈ ws, echoOption w = false := by
  constructor
  · intro h w hw
    by_contra ho
    have := (length_flatMap_echo ws).2 ⟨w, hw, by simpa using ho⟩
    rw [h] at this; omega
  · intro h
    induction ws with
    | nil => rfl
    | cons w ws ih =>
      have ih := ih fun v hv => h v (by simp [hv])
      simp only [unlines] at ih ⊢
      rw [List.flatMap_cons, ih, Lines.joined_cons, echo, h w (by simp)]
      simp

/-- What a word echoed into a file leaves there as a line. -/
def echoLine (w : Text) : Option Text :=
  if echoOption w then (if 'n' ∈ w then none else some []) else some w

theorem lines_flatMap_echo {ws : List Text} (h : ∀ w ∈ ws, '\n' ∉ w) :
    lines (ws.flatMap echo) = ws.filterMap echoLine := by
  have hj : ws.flatMap echo = unlines (ws.filterMap echoLine) := by
    clear h
    induction ws with
    | nil => rfl
    | cons w ws ih =>
      simp only [unlines, List.flatMap_cons, List.filterMap_cons, echo, echoLine] at ih ⊢
      split <;> split <;> simp_all
  rw [hj]
  refine Lines.pieces_joined '\n' fun l hl => ?_
  obtain ⟨w, hw, he⟩ := List.mem_filterMap.1 hl
  unfold echoLine at he
  split at he
  · split at he
    · cases he
    · cases he; simp
  · cases he; exact h _ hw

/-! ## The loops -/

/-- `echo "$w" >> file`; `none` is a file that does not exist. -/
def appendLine (file : Option Text) (w : Text) : Option Text := some (file.getD [] ++ echo w)

theorem foldl_appendLine (ws : List Text) (file : Option Text) :
    (ws.foldl appendLine file).getD [] = file.getD [] ++ ws.flatMap echo := by
  induction ws generalizing file with
  | nil => simp
  | cons w ws ih => rw [List.foldl_cons, ih]; simp [appendLine]

theorem foldl_appendLine_isSome (ws : List Text) (file : Option Text) :
    (ws.foldl appendLine file).isSome = (file.isSome || !ws.isEmpty) := by
  induction ws generalizing file with
  | nil => simp
  | cons w ws ih => rw [List.foldl_cons, ih]; simp [appendLine]

/-- The loop pair of `entrypoint.sh:110-120` on a template: the array of the lines read, echoed one
by one into the file just removed. -/
def copyLoop (t : Text) : Option Text := (readLines t).foldl appendLine none

theorem copyLoop_getD (t : Text) : (copyLoop t).getD [] = (readLines t).flatMap echo := by
  simp [copyLoop, foldl_appendLine]

/-- The faithful copy: every line of the template stripped and terminated. -/
def strippedCopy (t : Text) : Text := unlines ((lines t).map stripBlanks)

theorem count_strippedCopy (t : Text) : (strippedCopy t).count '\\' = t.count '\\' := by
  have hj : ∀ ls : List Text, (unlines (ls.map stripBlanks)).count '\\' = (unlines ls).count '\\' := by
    intro ls
    induction ls with
    | nil => rfl
    | cons l ls ih =>
      have := Lines.count_strip isBlank (x := '\\') (by decide) l
      simp only [unlines] at ih ⊢
      simp [ih, stripBlanks, this]
  have ht := congrArg (List.count '\\') (Lines.joined_cut '\n' t)
  rw [strippedCopy, hj, ← ht, lines, Lines.pieces]
  split
  · rename_i h; simp [unlines, h]
  · simp [unlines, Lines.joined_append]

/-- An unterminated line is missing from the copy. -/
theorem terminated_of_copy {t : Text} (hb : '\\' ∉ t) (hn : NulFree t)
    (h : (readLines t).flatMap echo = strippedCopy t) : (Lines.cut '\n' t).2 = [] := by
  by_contra hne
  have h1 := (length_flatMap_echo (readLines t)).1
  rw [h, readLines_plain hb hn, strippedCopy, lines, Lines.pieces, if_neg hne, List.map_append] at h1
  simp only [unlines, Lines.joined_append, List.length_append] at h1
  simp at h1

/-- **The loop pair of `entrypoint.sh:110-120` copies a template line by line exactly when** it holds
no backslash, is empty or ends with a newline, and has no line that `echo` takes as options. -/
theorem copyLoop_eq_stripped_iff (t : Text) (hnul : NulFree t) :
    (copyLoop t).getD [] = strippedCopy t ↔
      '\\' ∉ t ∧ (t = [] ∨ t.getLast? = some '\n') ∧ ∀ l ∈ lines t, echoOption (stripBlanks l) = false := by
  rw [copyLoop_getD]
  constructor
  · intro h
    -- half of the backslashes are gone, so there were none
    have hb : '\\' ∉ t := by
      have h1 := readLines_backslashes t
      have h2 : ((readLines t).flatMap echo).count '\\' ≤ (readLines t).flatten.count '\\' := by
        induction readLines t with
        | nil => simp
        | cons w ws ih =>
          have := count_echo w
          simp only [List.flatMap_cons, List.flatten_cons, List.count_append]; omega
      rw [h, count_strippedCopy] at h2
      exact List.count_eq_zero.1 (by omega)
    have ht := (Lines.cut_snd_eq_nil_iff '\n' t).1 (terminated_of_copy hb hnul h)
    rw [readLines_terminated hb hnul ht, strippedCopy, flatMap_echo_eq_iff] at h
    exact ⟨hb, ht, fun l hl => h _ (List.mem_map_of_mem hl)⟩
  · rintro ⟨hb, ht, ho⟩
    rw [readLines_terminated hb hnul ht, strippedCopy, flatMap_echo_eq_iff]
    intro w hw
    obtain ⟨l, hl, rfl⟩ := List.mem_map.1 hw
    exact ho l hl

theorem copyLoop_indented_setting : NulFree "# port\n  port=80 \n".toList ∧
    (copyLoop "# port\n  port=80 \n".toList).getD [] = "# port\nport=80\n".toList :=
  ⟨by decide, (copyLoop_eq_stripped_iff _ (by decide)).2 (by decide)⟩

/-- A text the loops copy line by line. -/
@[mk_iff] structure Copied (t : Text) : Prop where
  nulFree : NulFree t
  noBackslash : '\\' ∉ t
  terminated : t = [] ∨ t.getLast? = some '\n'
  noOption : ∀ l ∈ lines t, echoOption (stripBlanks l) = false

instance (t : Text) : Decidable (Copied t) := decidable_of_iff _ (copied_iff t).symm

theorem Copied.readLines_eq {t : Text} (h : Copied t) : readLines t = (lines t).map stripBlanks :=
  readLines_terminated h.noBackslash h.nulFree h.terminated

theorem Copied.eq_unlines {t : Text} (h : Copied t) : t = unlines (lines t) :=
  Lines.eq_joined_of_cut '\n' ((Lines.cut_snd_eq_nil_iff '\n' t).2 h.terminated)

theorem Copied.lines_ne_nil {t : Text} (h : Copied t) (hne : t ≠ []) : lines t ≠ [] := by
  intro h0
  have := h.eq_unlines
  rw [h0] at this
  exact hne this

end Shell

end HahaDog
