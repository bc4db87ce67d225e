import HahaDogOps.Entrypoint.NginxFile
import HahaDogOps.Nginx.Conf
/-!
# How nginx reads the edited `nginx.conf`

`entrypoint.sh:109-129` copies the template and edits it line by line: lines with `listen` go, `listen
NGX_PORT;` is put before lines with `server_name  localhost;` and a location block behind lines with
`server {`. nginx reads directives and blocks, which may begin and end anywhere on a line
(`Nginx/Conf.lean`).

The bridge are the `marks` of a template: its tokens in order, each kept or dropped with its line, and the
places where the edits put something. `flatMap`ping them one way gives the tokens of the template
(`marks_original`), the other way those of the result if the edits cut no directive in two
(`readTokens_edited`).
-/

namespace HahaDog.Entrypoint

open Shell Nginx

/-! ## The added tokens -/

def locationName : Text := "location".toList
def storeEnd : Text := "/M00".toList

/-- The directive `listen`, with any arguments. -/
def isListen : Token → Bool
  | .ok (w :: _) => w == listenPat
  | _ => false

def listenToken (port : Text) : Token := .ok [listenPat, port]

def locationPath (group : Text) : Text := '/' :: (group ++ storeEnd)

def locationToken (group : Text) : Token := .blockStart [locationName, locationPath group]

/-- The two directives of the added location. -/
def locationBody : List Token :=
  [.ok ["root".toList, "/fastdfs/store_path/data".toList], .ok ["ngx_fastdfs_module".toList]]

def locationTokens (group : Text) : List Token := locationToken group :: locationBody ++ [.blockDone]

/-! ## Marks -/

/-- A token of the template whose line is kept or dropped, or a place where something is added. -/
inductive Mark where
  | keep (t : Token)
  | drop (t : Token)
  | listen
  | location
deriving DecidableEq

namespace Mark

def original : Mark → List Token
  | .keep t => [t]
  | .drop t => [t]
  | .listen => []
  | .location => []

def result (port group : Text) : Mark → List Token
  | .keep t => [t]
  | .drop _ => []
  | .listen => [listenToken port]
  | .location => locationTokens group

end Mark

/-- The marks of one line, read from state `s`. The edits see the line without the blanks around it. -/
def lineMarks (s : Lexer) (l : Text) : List Mark :=
  let ts := (readTokens s (l ++ ['\n'])).2
  let w := stripBlanks l
  if Sed.selects listenPat w then ts.map .drop
  else (if Sed.selects serverNamePat w then [.listen] else []) ++ ts.map .keep ++
    (if Sed.selects serverPat w then [.location] else [])

def marks : Lexer → List Text → List Mark
  | _, [] => []
  | s, l :: ls => lineMarks s l ++ marks (readTokens s (l ++ ['\n'])).1 ls

/-! ## Lines that are cut well -/

/-- A kept line finds nginx in the same state in the template (`s`) and in the result (`o`), is read the
same without its blanks, and begins (ends) between two directives when something is put before (behind) it. -/
def KeptWell (s o : Lexer) (l : Text) : Prop :=
  o = s ∧ readTokens s (stripBlanks l ++ ['\n']) = readTokens s (l ++ ['\n']) ∧
    (Sed.selects serverNamePat (stripBlanks l) = true → s = .init) ∧
    (Sed.selects serverPat (stripBlanks l) = true → (readTokens s (l ++ ['\n'])).1 = .init)

instance (s o : Lexer) (l : Text) : Decidable (KeptWell s o l) :=
  inferInstanceAs (Decidable (_ = _ ∧ _ = _ ∧ (_ = _ → _ = _) ∧ (_ = _ → _ = _)))

/-- Along the lines of a template: the result stays where it is while lines are dropped, and every other line
is kept well. -/
def Aligned : Lexer → Lexer → List Text → Prop
  | s, o, [] => o = s
  | s, o, l :: ls =>
    let after := (readTokens s (l ++ ['\n'])).1
    if Sed.selects listenPat (stripBlanks l) = true then Aligned after o ls
    else KeptWell s o l ∧ Aligned after after ls

instance decidableAligned : ∀ (s o : Lexer) (ls : List Text), Decidable (Aligned s o ls)
  | s, o, [] => inferInstanceAs (Decidable (o = s))
  | s, o, l :: ls =>
    -- one recursive call only: both branches together would take exponential time
    if h : Sed.selects listenPat (stripBlanks l) = true then
      have := decidableAligned (readTokens s (l ++ ['\n'])).1 o ls
      decidable_of_iff (Aligned (readTokens s (l ++ ['\n'])).1 o ls) (by rw [Aligned, if_pos h])
    else
      have := decidableAligned (readTokens s (l ++ ['\n'])).1 (readTokens s (l ++ ['\n'])).1 ls
      decidable_of_iff (KeptWell s o l ∧ Aligned (readTokens s (l ++ ['\n'])).1 (readTokens s (l ++ ['\n'])).1 ls)
        (by rw [Aligned, if_neg h])

/-! ## The lines of the result -/

/-- The line put before `server_name  localhost;`. -/
def listenLine (port : Text) : Text := listenPat ++ ' ' :: (port ++ [';'])

/-- What the edits make of one line. -/
def editLine (port group w : Text) : List Text :=
  if Sed.selects listenPat w then []
  else (if Sed.selects serverNamePat w then [listenLine port] else []) ++
    w :: if Sed.selects serverPat w then locationBlock group storePath else []

/-- Digits only. -/
def Word.Numeric (w : Word) : Prop := ∀ c ∈ w.text, c.isDigit = true

instance (w : Word) : Decidable w.Numeric := inferInstanceAs (Decidable (∀ c ∈ w.text, c.isDigit = true))

theorem Word.Numeric.alnum {w : Word} (h : w.Numeric) : w.Alnum := fun c hc => by
  rw [Char.isAlphanum, h c hc, Bool.or_true]

theorem listenArg_numeric {port : Word} (h : port.Numeric) : listenArg port = listenLine port.text := by
  have hcut : "listen ".toList = listenPat ++ [' '] := by decide
  rw [listenArg_eq, h.alnum.echoed, hcut, listenLine, List.append_assoc, List.append_assoc, List.singleton_append]

theorem brace_not_mem_listenLine {port : Word} (h : port.Numeric) : '{' ∉ listenLine port.text := by
  have hp : '{' ∉ port.text := no_char_of_alnum h.alnum (by decide)
  simp [listenLine, hp, show '{' ∉ listenPat by decide]

/-- The three commands one after the other, line by line. -/
theorem edits_eq_flatMap {port : Word} (h : port.Numeric) (group : Text) (ws : List Text) :
    Sed.append serverPat (locationBlock group storePath)
        (Sed.insert serverNamePat [listenLine port.text] (Sed.delete listenPat ws)) =
      ws.flatMap (editLine port.text group) := by
  have hlisten : Sed.selects serverPat (listenLine port.text) = false := Bool.eq_false_iff.2 fun hs =>
    brace_not_mem_listenLine h (mem_of_selects hs (by decide))
  induction ws with
  | nil => rfl
  | cons w ws ih =>
    rw [List.flatMap_cons, ← ih, editLine]
    by_cases hd : Sed.selects listenPat w = true
    · rw [Sed.delete, List.filter_cons_of_neg (by simp [hd]), if_pos hd]
      rfl
    · rw [Sed.delete, List.filter_cons_of_pos (by simpa using hd), if_neg hd, Sed.insert, List.flatMap_cons, Sed.append,
        List.flatMap_append]
      congr 1
      by_cases hs : Sed.selects serverNamePat w = true <;> simp [hs, hlisten] <;> split <;> rfl

/-- The result for a template that is copied line by line. -/
theorem start_nginx_lines (sed : Sed.TextArg) {env : Env} {port : Word} (hn : env.ngxPort = some port)
    (hp : port.Numeric) (hg : ∀ w ∈ env.groupName, w.Alnum) {t : Templates} (ht : Copied t.nginx) (f : Files) :
    (start sed .storage env t f).nginx.getD [] =
      unlines (((lines t.nginx).map stripBlanks).flatMap (editLine port.text (locationGroup env))) := by
  have hcopied : (readLines t.nginx).filterMap echoLine = (lines t.nginx).map stripBlanks := by
    rw [ht.readLines_eq, List.filterMap_congr (g := some), List.filterMap_some]
    intro w hw
    obtain ⟨l, hl, rfl⟩ := List.mem_map.1 hw
    simp [echoLine, ht.noOption l hl]
  have hread : sed.read (listenArg port) = some [listenLine port.text] := by
    rw [listenArg_numeric hp]
    have hb : '\\' ∉ listenLine port.text := by
      have hw : '\\' ∉ port.text := no_char_of_alnum hp.alnum (by decide)
      simp [listenLine, hw, show '\\' ∉ listenPat by decide]
    simpa [List.intercalate] using sed.read_newlines [listenLine port.text] (by simp) (by simpa using hb)
  have hbase := lines_nginxBase sed env t.nginx
  simp only [hn, hread, hcopied] at hbase
  rw [start_nginx sed hg, ← edits_eq_flatMap hp, ← hbase]
  cases nginxBase sed env t.nginx with
  | none => rfl
  | some text => rfl

/-! ## Reading the result -/

theorem plainWord_of_alnum {w : Text} (hne : w ≠ []) (h : ∀ c ∈ w, c.isAlphanum = true) : PlainWord w := by
  refine ⟨hne, fun c hc => isPlain_iff.2 ?_⟩
  have ha := h c hc
  refine ⟨Bool.eq_false_iff.2 fun hs => ?_, ?_, ?_, ?_, ?_, ?_, ?_, ?_, ?_⟩
  · rcases isSpace_iff.1 hs with rfl | rfl | rfl | rfl <;> exact absurd ha (by decide)
  all_goals
    rintro rfl
    exact absurd ha (by decide)

theorem readTokens_listenLine {port : Word} (h : port.Numeric) :
    readTokens .init (listenLine port.text ++ ['\n']) = (.init, [listenToken port.text]) := by
  have hl : PlainWord listenPat := by decide
  have hw : PlainWord port.text := plainWord_of_alnum port.ne h.alnum
  rw [listenLine, List.append_assoc, List.cons_append, List.append_assoc, Lexer.init, hl.readTokens_space]
  exact hw.readTokens_ok _

theorem plainWord_locationPath {group : Text} (h : ∀ c ∈ group, c.isAlphanum = true) :
    PlainWord (locationPath group) := by
  refine ⟨by simp [locationPath], fun c hc => ?_⟩
  rw [locationPath, List.mem_cons, List.mem_append] at hc
  rcases hc with rfl | hc | hc
  · rfl
  · exact (plainWord_of_alnum (List.ne_nil_of_mem hc) h).plain c hc
  · revert c; decide

theorem readTokens_locationBlock {group : Text} (h : ∀ c ∈ group, c.isAlphanum = true) :
    readTokens .init (unlines (locationBlock group storePath)) = (.init, locationTokens group) := by
  have hn : PlainWord locationName := by decide
  have hfirst : "location /".toList ++ group ++ "/M00 \x7b".toList ++ ['\n'] =
      locationName ++ ' ' :: (locationPath group ++ ' ' :: ['{', '\n']) := by
    have h1 : "location /".toList = locationName ++ [' ', '/'] := by decide
    have h2 : "/M00 \x7b".toList = storeEnd ++ [' ', '{'] := by decide
    rw [h1, h2, locationPath]
    simp only [List.append_assoc, List.cons_append, List.nil_append]
  have hbody : readTokens .init (Lines.joined '\n' ["root ".toList ++ storePath ++ "/data;".toList, "ngx_fastdfs_module;".toList,
      "\x7d".toList]) = (.init, locationBody ++ [.blockDone]) := by decide
  have hopen : readTokens .init ("location /".toList ++ group ++ "/M00 \x7b".toList ++ ['\n']) =
      (.init, [locationToken group]) := by
    rw [hfirst, Lexer.init, hn.readTokens_space, (plainWord_locationPath h).readTokens_space]
    exact readTokens_blockStart (by simp)
  rw [locationBlock, unlines, Lines.joined_cons, ← List.singleton_append, ← List.append_assoc, readTokens_append, hopen]
  rw [hbody]
  rfl

/-! ## The marks stand for both texts -/

theorem readTokens_unlines_cons (s : Lexer) (l : Text) (ls : List Text) : readTokens s (unlines (l :: ls)) =
    ((readTokens (readTokens s (l ++ ['\n'])).1 (unlines ls)).1,
      (readTokens s (l ++ ['\n'])).2 ++ (readTokens (readTokens s (l ++ ['\n'])).1 (unlines ls)).2) := by
  rw [← readTokens_append]
  simp [unlines]

theorem flatMap_map_of_singleton {f : Token → Mark} {g : Mark → List Token} (h : ∀ t, g (f t) = [t])
    (ts : List Token) : (ts.map f).flatMap g = ts := by
  simp only [List.flatMap_map, h]
  exact List.flatMap_singleton' ts

theorem lineMarks_original (s : Lexer) (l : Text) :
    (lineMarks s l).flatMap Mark.original = (readTokens s (l ++ ['\n'])).2 := by
  simp only [lineMarks]
  split
  · exact flatMap_map_of_singleton (fun _ => rfl) _
  · rw [List.flatMap_append, List.flatMap_append, flatMap_map_of_singleton fun _ => rfl]
    split <;> split <;> simp [Mark.original]

/-- The tokens of the template. -/
theorem marks_original : ∀ (ls : List Text) (s : Lexer),
    (marks s ls).flatMap Mark.original = (readTokens s (unlines ls)).2
  | [], _ => rfl
  | l :: ls, s => by
    rw [marks, List.flatMap_append, lineMarks_original, marks_original ls, readTokens_unlines_cons]

section
variable {port : Word} (hp : port.Numeric) {group : Text} (hg : ∀ c ∈ group, c.isAlphanum = true)

include hp hg

theorem readTokens_editLine {s : Lexer} {l : Text} (hk : Sed.selects listenPat (stripBlanks l) ≠ true)
    (h : KeptWell s s l) : readTokens s (unlines (editLine port.text group (stripBlanks l))) =
      ((readTokens s (l ++ ['\n'])).1, (lineMarks s l).flatMap (Mark.result port.text group)) := by
  obtain ⟨-, hread, hbefore, hbehind⟩ := h
  have hpre : readTokens s (unlines (if Sed.selects serverNamePat (stripBlanks l) then [listenLine port.text] else [])) =
      (s, if Sed.selects serverNamePat (stripBlanks l) then [listenToken port.text] else []) := by
    split
    · rename_i hs
      rw [hbefore hs, unlines, Lines.joined_cons, Lines.joined_nil]
      exact readTokens_listenLine hp
    · rfl
  have hpost : ∀ a, a = (readTokens s (l ++ ['\n'])).1 →
      readTokens a (unlines (if Sed.selects serverPat (stripBlanks l) then locationBlock group storePath else [])) =
        (a, if Sed.selects serverPat (stripBlanks l) then locationTokens group else []) := by
    rintro a rfl
    split
    · rename_i hs
      rw [hbehind hs]
      exact readTokens_locationBlock hg
    · rfl
  have hkeep := flatMap_map_of_singleton (f := Mark.keep) (g := Mark.result port.text group) fun _ => rfl
  have hsplit : ∀ pre post : List Text, unlines (pre ++ stripBlanks l :: post) =
      unlines pre ++ ((stripBlanks l ++ ['\n']) ++ unlines post) := fun pre post => by simp [unlines, Lines.joined_append]
  rw [editLine, if_neg hk, hsplit, readTokens_append, hpre, readTokens_append, hread, hpost _ rfl]
  simp only [lineMarks, if_neg hk, List.flatMap_append, hkeep, List.append_assoc]
  refine Prod.ext rfl ?_
  split <;> split <;> simp [Mark.result]

/-- The tokens of the result, which ends in the same state. -/
theorem readTokens_edited : ∀ (ls : List Text) (s o : Lexer), Aligned s o ls →
    readTokens o (unlines ((ls.map stripBlanks).flatMap (editLine port.text group))) =
      ((readTokens s (unlines ls)).1, (marks s ls).flatMap (Mark.result port.text group))
  | [], s, o, h => by
    rw [h]; rfl
  | l :: ls, s, o, h => by
    rw [Aligned] at h
    rw [List.map_cons, List.flatMap_cons, unlines, Lines.joined_append, ← unlines, ← unlines, readTokens_append, marks,
      List.flatMap_append, readTokens_unlines_cons]
    split at h
    · -- the line is dropped, and with it its tokens
      rename_i hd
      have hline : editLine port.text group (stripBlanks l) = [] := by rw [editLine, if_pos hd]
      have hmarks : (lineMarks s l).flatMap (Mark.result port.text group) = [] := by
        simp [lineMarks, hd, List.flatMap_map, Mark.result]
      rw [hline, hmarks]
      exact readTokens_edited ls _ _ h
    · rename_i hd
      obtain ⟨hk, h⟩ := h
      obtain rfl := hk.1
      rw [readTokens_editLine hp hg hd hk, readTokens_edited ls _ _ h]

end

/-! ## Kept tokens -/

theorem listenPat_mem_args {t : Token} (h : isListen t = true) : listenPat ∈ t.args := by
  unfold isListen at h
  split at h
  · rw [← eq_of_beq h]
    exact List.mem_cons_self
  · cases h

theorem mem_lineMarks_keep {s : Lexer} {l : Text} {t : Token} (h : Mark.keep t ∈ lineMarks s l) :
    Sed.selects listenPat (stripBlanks l) ≠ true ∧ t ∈ (readTokens s (l ++ ['\n'])).2 := by
  simp only [lineMarks] at h
  split at h
  · simp at h
  · rename_i hd
    refine ⟨hd, ?_⟩
    rw [List.mem_append, List.mem_append] at h
    rcases h with (h | h) | h
    · split at h <;> simp at h
    · simpa using h
    · split at h <;> simp at h

/-- No `listen` directive is kept: the word would stand on a kept line. -/
theorem not_isListen_of_keep : ∀ (ls : List Text) (s o : Lexer), Aligned s o ls → Avoids listenPat [] o →
    (∀ l ∈ ls, '\\' ∉ l) → ∀ t, Mark.keep t ∈ marks s ls → isListen t = false
  | [], _, _, _, _, _, _, hm => by cases hm
  | l :: ls, s, o, ha, ho, hb, t, hm => by
    have hb' : ∀ l' ∈ ls, '\\' ∉ l' := fun l' h' => hb l' (by simp [h'])
    rw [marks, List.mem_append] at hm
    rw [Aligned] at ha
    split at ha
    · rename_i hd
      rcases hm with hm | hm
      · exact absurd hd (mem_lineMarks_keep hm).1
      · exact not_isListen_of_keep ls _ o ha ho hb' t hm
    · rename_i hd
      obtain ⟨⟨rfl, hread, -⟩, ha⟩ := ha
      have hline := ho.readLine (by decide) (l := stripBlanks l)
        (fun hm => hb l (by simp) (Lines.mem_of_mem_strip isBlank hm)) fun hi => hd (decide_eq_true hi)
      rw [hread] at hline
      rcases hm with hm | hm
      · exact Bool.eq_false_iff.2 fun hl => hline.2 t (mem_lineMarks_keep hm).2 (listenPat_mem_args hl)
      · exact not_isListen_of_keep ls _ _ ha hline.1 hb' t hm

end HahaDog.Entrypoint
