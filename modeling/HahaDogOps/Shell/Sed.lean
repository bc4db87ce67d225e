import HahaDogOps.Shell.Read
/-!
# The `sed -i` commands the scripts use

`entrypoint.sh:122-129` runs `/pat/d`, `/pat/i\text` and `/pat/a\text`, the deploy scripts run
`14c \text` (or `15c`). The patterns hold no character that is special in a basic regular
expression, so an address matches the lines that contain it.

What GNU sed makes of the escapes in the text of `i` and `a` is outside the repository: `TextArg` is
any reading of that text under which `\n` is a newline (the only escape the scripts write
themselves). An operator's word inside the text may hold other escapes, or one that sed rejects.
-/

namespace HahaDog.Sed

/-- The address `/pat/` selects the line. -/
def selects (pat l : Text) : Bool := decide (pat <:+: l)

/-- `/pat/d` -/
def delete (pat : Text) (ls : List Text) : List Text := ls.filter fun l => !selects pat l

/-- `/pat/i\text` -/
def insert (pat : Text) (text : List Text) (ls : List Text) : List Text :=
  ls.flatMap fun l => if selects pat l then text ++ [l] else [l]

/-- `/pat/a\text` -/
def append (pat : Text) (text : List Text) (ls : List Text) : List Text :=
  ls.flatMap fun l => if selects pat l then l :: text else [l]

/-- `Nc \text`: line `n` becomes `text`; a file with fewer lines stays as it is. -/
def change (n : Nat) (text : Text) (ls : List Text) : List Text := ls.set (n - 1) text

/-- `sed -i` on a file that ends with a newline; a file that does not exist is an error and stays so. -/
def inPlace (edit : List Text → List Text) (file : Option Text) : Option Text :=
  file.map fun t => unlines (edit (lines t))

theorem lines_inPlace {edit : List Text → List Text} (h0 : edit [] = []) {file : Option Text}
    (hn : ∀ l ∈ edit (lines (file.getD [])), '\n' ∉ l) :
    lines ((inPlace edit file).getD []) = edit (lines (file.getD [])) := by
  cases file with
  | none => exact h0.symm
  | some t => exact Lines.pieces_joined '\n' hn

theorem mem_insert {pat l : Text} {text ls : List Text} :
    l ∈ insert pat text ls ↔ l ∈ ls ∨ ((∃ m ∈ ls, selects pat m = true) ∧ l ∈ text) := by
  simp only [insert, List.mem_flatMap]
  constructor
  · rintro ⟨m, hm, h⟩
    split at h
    · rename_i hs
      rcases List.mem_append.1 h with h | h
      · exact .inr ⟨⟨m, hm, hs⟩, h⟩
      · exact .inl (List.mem_singleton.1 h ▸ hm)
    · exact .inl (List.mem_singleton.1 h ▸ hm)
  · rintro (h | ⟨⟨m, hm, hs⟩, h⟩)
    · exact ⟨l, h, by split <;> simp⟩
    · exact ⟨m, hm, by rw [if_pos hs]; exact List.mem_append_left _ h⟩

/-- How the one-line text of `i` and `a` is read: the lines it stands for, or `none` when sed
rejects the script (and leaves the file alone). -/
structure TextArg where
  read : Text → Option (List Text)
  /-- Lines without backslashes, put together with `\n`, are read as these lines. -/
  read_newlines : ∀ ls : List Text, ls ≠ [] → (∀ l ∈ ls, '\\' ∉ l) →
    read (List.intercalate ['\\', 'n'] ls) = some ls
  /-- What is read from one line are lines. -/
  read_line : ∀ (t : Text) (ls : List Text), read t = some ls → '\n' ∉ t → ∀ l ∈ ls, '\n' ∉ l

/-! ## A reading that satisfies the law -/

/-- `\n` ends a line, any other escaped character stands for itself. -/
def basicScan : Bool → Text → List Text
  | _, [] => [[]]
  | true, c :: t => if c = 'n' then [] :: basicScan false t else (basicScan false t).modifyHead (c :: ·)
  | false, c :: t => if c = '\\' then basicScan true t else (basicScan false t).modifyHead (c :: ·)

theorem basicScan_append {l : Text} (h : '\\' ∉ l) (t : Text) :
    basicScan false (l ++ t) = (basicScan false t).modifyHead (l ++ ·) := by
  induction l with
  | nil => rw [List.nil_append]; cases basicScan false t <;> rfl
  | cons c l ih =>
    simp only [List.mem_cons, not_or] at h
    rw [List.cons_append, basicScan, if_neg (Ne.symm h.1), ih h.2]
    cases basicScan false t <;> rfl

theorem basicScan_intercalate : ∀ {ls : List Text}, ls ≠ [] → (∀ l ∈ ls, '\\' ∉ l) →
    basicScan false (List.intercalate ['\\', 'n'] ls) = ls
  | [l], _, h => by
    rw [show List.intercalate ['\\', 'n'] [l] = l ++ [] by simp [List.intercalate],
      basicScan_append (h l (by simp))]
    simp [basicScan]
  | l :: m :: ls, _, h => by
    have ih := @basicScan_intercalate (m :: ls) (by simp) fun l' h' => h l' (by simp [h'])
    rw [show List.intercalate ['\\', 'n'] (l :: m :: ls) =
        l ++ ('\\' :: 'n' :: List.intercalate ['\\', 'n'] (m :: ls)) by simp [List.intercalate],
      basicScan_append (h l (by simp))]
    simp [basicScan, ih]

theorem basicScan_modifyHead {c : Char} (hc : c ≠ '\n') {ls : List Text} (h : ∀ l ∈ ls, '\n' ∉ l) :
    ∀ l ∈ ls.modifyHead (c :: ·), '\n' ∉ l := by
  cases ls with
  | nil => simp
  | cons m ls =>
    have hm := List.forall_mem_cons.1 h
    rw [List.modifyHead_cons, List.forall_mem_cons]
    exact ⟨by simp [Ne.symm hc, hm.1], hm.2⟩

theorem basicScan_line : ∀ (t : Text) (esc : Bool), '\n' ∉ t → ∀ l ∈ basicScan esc t, '\n' ∉ l
  | [], _, _ => by simp [basicScan]
  | c :: t, esc, h => by
    simp only [List.mem_cons, not_or] at h
    have ih := basicScan_line t false h.2
    cases esc with
    | true =>
      rw [basicScan]
      split
      · exact List.forall_mem_cons.2 ⟨by simp, ih⟩
      · exact basicScan_modifyHead (Ne.symm h.1) ih
    | false =>
      rw [basicScan]
      split
      · exact basicScan_line t true h.2
      · exact basicScan_modifyHead (Ne.symm h.1) ih

/-- The reading with `\n` and plain characters only. -/
def TextArg.basic : TextArg where
  read t := some (basicScan false t)
  read_newlines ls hne h := by rw [basicScan_intercalate hne h]
  read_line t ls h ht := by cases h; exact basicScan_line t false ht

end HahaDog.Sed
