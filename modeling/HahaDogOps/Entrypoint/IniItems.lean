import HahaDogOps.Lib.Run
import HahaDogOps.Ini.Reader
import HahaDogOps.Entrypoint.Restart
/-!
# `tracker.conf` and `storage.conf` keep their meaning

The loops of `entrypoint.sh:29-43` and `:63-80` rewrite a template line by line; the FastDFS INI reader
loads items from the result. The two commute: the items loaded from the generated file are those of
the template, in the same order, with the values of `port` (and `group_name`) replaced where the
template itself assigns them.

Stripping a line is harmless to the reader except for `#include`, which it only recognises in column 0
and before it trims (`ini_file_reader.c:276`): stripping turns an indented `#include` on and one
without a file name off. `Plain` leaves these out, together with what `read` and `echo` distort and
assignments the anchored tests miss because a blank stands before the `'='`.
-/

namespace HahaDog.Entrypoint

open Shell Ini

/-! ## Plain templates -/

/-- `#include` and nothing but blanks. -/
def filelessInclude (l : Text) : Bool := isInclude l && (l.drop 9).all isBlank

/-- An `#include` behind blanks, which the reader takes for a comment. -/
def indentedInclude (l : Text) : Bool := l.head?.any isBlank && isInclude (stripBlanks l)

/-- An assignment to `port` or `group_name` has no blank (as the reader trims them) between the
indentation and its `'='`. -/
def tightKey (l : Text) : Bool :=
  match classify l with
  | .item k _ =>
    !(k == portKey || k == groupKey) || ((stripBlanks l).takeWhile (fun c => decide (c ≠ '='))).all (!isSpace ·)
  | _ => true

/-- The templates the rewriting is meant for. -/
@[mk_iff] structure Plain (t : Text) : Prop extends Copied t where
  ne : t ≠ []
  noFileless : ∀ l ∈ lines t, filelessInclude l = false
  noIndented : ∀ l ∈ lines t, indentedInclude l = false
  tight : ∀ l ∈ lines t, tightKey l = true

instance (t : Text) : Decidable (Plain t) := decidable_of_iff _ (plain_iff t).symm

/-! ## Stripping and the reader's classification -/

theorem isInclude_take (l : Text) : isInclude (l.take 9) = isInclude l := by
  cases l with
  | nil => rfl
  | cons c t =>
    by_cases hc : c = '#'
    · subst hc
      have h1 : ((t.take 8).drop 7).head? = (t.drop 7).head? := by
        rw [List.drop_take]; cases t.drop 7 <;> rfl
      simp [isInclude, h1, List.take_take]
    · rw [isInclude_eq_false (by simpa using hc), isInclude_eq_false (by simpa using hc)]

theorem length_of_isInclude {l : Text} (h : isInclude l = true) : 9 ≤ l.length := by
  unfold isInclude at h
  split at h
  · rename_i t
    simp only [Bool.and_eq_true] at h
    have hne : t.drop 7 ≠ [] := by
      intro h0; simp [h0] at h
    have := List.length_pos_of_ne_nil hne
    simp at this ⊢; omega
  · cases h

theorem isInclude_extend {l m : Text} (hp : m <+: l) (h : isInclude m = true) : isInclude l = true := by
  obtain ⟨r, rfl⟩ := hp
  have hlen := length_of_isInclude h
  rw [← isInclude_take, List.take_append_of_le_length hlen, isInclude_take, h]

theorem head_not_blank_of_isInclude {l : Text} (h : isInclude l = true) : ∀ c ∈ l.head?, isBlank c = false := by
  unfold isInclude at h
  split at h
  · intro c hc
    rw [List.head?_cons, Option.mem_some] at hc
    subst hc; rfl
  · cases h

/-- An include with a file name stays the same include. -/
theorem classify_strip_include {l : Text} (h : isInclude l = true) (hf : filelessInclude l = false) :
    classify (stripBlanks l) = classify l := by
  have hex : ∃ c ∈ l.drop 9, isBlank c = false := by
    simpa [filelessInclude, h] using hf
  have hlen := length_of_isInclude h
  have hs : stripBlanks l = l.take 9 ++ (l.drop 9).rdropWhile isBlank := by
    rw [stripBlanks, Lines.strip_of_head_not _ (head_not_blank_of_isInclude h)]
    conv => lhs; rw [← List.take_append_drop 9 l]
    exact Lines.rdropWhile_append_of_exists _ _ hex
  have h9 : (l.take 9).length = 9 := by simp; omega
  have hinc : isInclude (stripBlanks l) = true := by
    refine isInclude_extend (hs ▸ List.prefix_append _ _) ?_
    rw [isInclude_take]; exact h
  have hdrop : trim ((stripBlanks l).drop 9) = trim (l.drop 9) := by
    rw [hs, List.drop_append_of_le_length (by omega), List.drop_eq_nil_of_le (by omega), List.nil_append]
    exact Lines.strip_rdropWhile _ (fun c hc => by
      simp only [isBlank, isSpace, Bool.or_eq_true, beq_iff_eq] at hc ⊢; tauto) _
  rw [classify, if_pos hinc, classify, if_pos h, hdrop]

/-- **The reader sees the same line before and after stripping**, the two kinds of `#include` apart. -/
theorem classify_stripBlanks {l : Text} (hf : filelessInclude l = false) (hi : indentedInclude l = false) :
    classify (stripBlanks l) = classify l := by
  by_cases h : isInclude l = true
  · exact classify_strip_include h hf
  · have hs : isInclude (stripBlanks l) = false := by
      by_contra hs
      rw [Bool.not_eq_false] at hs
      have hhead : ∀ c ∈ l.head?, isBlank c = false := by
        intro c hc
        rw [Option.mem_def] at hc
        by_contra hb
        simp [indentedInclude, hs, hc] at hi
        exact hb hi
      have hp : stripBlanks l <+: l := by
        rw [stripBlanks, Lines.strip_of_head_not _ hhead]; exact List.rdropWhile_prefix _ _
      exact h (isInclude_extend hp hs)
    rw [classify, hs, classify, trim_stripBlanks]
    simp [h]

/-! ## One line -/

/-- The values an environment puts in place of those in the template, by key. -/
def trackerOverrides (env : Env) (k : Text) : Option Text :=
  if k = portKey then env.trPort.map Word.text else none

def storageOverrides (env : Env) (k : Text) : Option Text :=
  if k = portKey then env.stPort.map Word.text
  else if k = groupKey then env.groupName.map Word.text else none

def overrideLine (o : Text → Option Text) : Ini.Line → Ini.Line
  | .item k v => .item k ((o k).getD v)
  | l => l

/-- Only the key `k`. -/
def only (k : Text) (x : Option Text) (k' : Text) : Option Text := if k' = k then x else none

theorem overrideLine_only_none (k : Text) (l : Ini.Line) : overrideLine (only k none) l = l := by
  cases l <;> simp [overrideLine, only]

/-- 1 to 64 letters and digits. -/
def ShortName (w : Word) : Prop := w.Alnum ∧ w.text.length ≤ 64

instance (w : Word) : Decidable (ShortName w) := inferInstanceAs (Decidable (_ ∧ _))

theorem isSpace_of_alnum {c : Char} (h : c.isAlphanum = true) : isSpace c = false := by
  by_contra hc
  simp only [isSpace, Bool.not_eq_false, Bool.or_eq_true, beq_iff_eq] at hc
  rcases hc with ((rfl | rfl) | rfl) | rfl <;> exact absurd h (by decide)

theorem plainKey_port : PlainKey portKey := by decide
theorem plainKey_group : PlainKey groupKey := by decide

/-- A value the reader loads as it is written. -/
def PlainValue (v : Text) : Prop := (∀ c ∈ v, isSpace c = false) ∧ v.length ≤ itemValueLen

theorem plainValue_of_shortName {w : Word} (h : ShortName w) : PlainValue w.text :=
  ⟨fun c hc => isSpace_of_alnum (h.1 c hc), h.2.trans (by decide)⟩

theorem plainValue_of_shortNames {x : Option Word} (h : ∀ w ∈ x, ShortName w) : ∀ v ∈ x.map Word.text, PlainValue v := by
  intro v hv
  obtain ⟨w, hw, rfl⟩ := Option.map_eq_some_iff.1 hv
  exact plainValue_of_shortName (h w hw)

/-- The anchored rewrite is the override of one key, provided it sees every assignment to it. -/
theorem classify_assign_startsWith {k : Text} (hk : PlainKey k) {x : Option Text} (hx : ∀ v ∈ x, PlainValue v)
    {s : Text} (hs : ∀ v, classify s = .item k v → k ++ ['='] <+: s) :
    classify (assign startsWith k x s) = overrideLine (only k x) (classify s) := by
  cases x with
  | none => rw [overrideLine_only_none]; rfl
  | some v =>
    by_cases hp : k ++ ['='] <+: s
    · obtain ⟨r, rfl⟩ := hp
      have hst : startsWith (k ++ ['=']) (k ++ ['='] ++ r) = true :=
        List.isPrefixOf_iff_prefix.2 (List.prefix_append _ _)
      rw [assign_some hst, classify_assign_value hk (hx v rfl).1 (hx v rfl).2, List.append_assoc, List.singleton_append,
        classify_assign hk]
      simp [overrideLine, only]
    · have hnot : startsWith (k ++ ['=']) s = false := Bool.eq_false_iff.2 fun h => hp (List.isPrefixOf_iff_prefix.1 h)
      rw [assign_of_not _ hnot]
      cases hc : classify s with
      | item k' v' =>
        have hne : k' ≠ k := by
          rintro rfl; exact hp (hs v' hc)
        simp [overrideLine, only, hne]
      | _ => rfl

theorem prefix_of_tightKey {l k v : Text} (hk : k = portKey ∨ k = groupKey) (ht : tightKey l = true)
    (hf : filelessInclude l = false) (hi : indentedInclude l = false)
    (h : classify (stripBlanks l) = .item k v) : k ++ ['='] <+: stripBlanks l := by
  refine prefix_of_item (by rcases hk with rfl | rfl <;> decide) h ?_
  rw [classify_stripBlanks hf hi] at h
  have hkey : (!(k == portKey || k == groupKey)) = false := by rcases hk with rfl | rfl <;> decide
  simp only [tightKey, h, hkey, Bool.false_or, List.all_eq_true, Bool.not_eq_true'] at ht
  exact ht

section
variable {env : Env} {l : Text} (hf : filelessInclude l = false) (hi : indentedInclude l = false)
  (ht : tightKey l = true)
include hf hi ht

theorem classify_rewriteTracker (hw : ∀ w ∈ env.trPort, ShortName w) :
    classify (rewriteTracker env (stripBlanks l)) = overrideLine (trackerOverrides env) (classify l) := by
  rw [rewriteTracker, classify_assign_startsWith plainKey_port (plainValue_of_shortNames hw),
    classify_stripBlanks hf hi]
  · rfl
  · exact fun v hv => prefix_of_tightKey (.inl rfl) ht hf hi hv

theorem classify_rewriteStorage (hp : ∀ w ∈ env.stPort, ShortName w) (hg : ∀ w ∈ env.groupName, ShortName w) :
    classify (rewriteStorage env (stripBlanks l)) = overrideLine (storageOverrides env) (classify l) := by
  have hfirst : classify (assign startsWith portKey (env.stPort.map Word.text) (stripBlanks l)) =
      overrideLine (only portKey (env.stPort.map Word.text)) (classify l) := by
    rw [classify_assign_startsWith plainKey_port (plainValue_of_shortNames hp), classify_stripBlanks hf hi]
    exact fun v hv => prefix_of_tightKey (.inl rfl) ht hf hi hv
  rw [rewriteStorage, classify_assign_startsWith plainKey_group (plainValue_of_shortNames hg), hfirst]
  · cases classify l with
    | item k v =>
      by_cases h1 : k = portKey
      · subst h1; simp [overrideLine, storageOverrides, only, show portKey ≠ groupKey by decide]
      · simp [overrideLine, storageOverrides, only, h1]
    | _ => rfl
  · -- a line rewritten for `port` is no assignment to `group_name`
    intro v hv
    rcases assign_cases startsWith portKey (env.stPort.map Word.text) (stripBlanks l) with h | ⟨p, -, -, h⟩
    · rw [h] at hv ⊢
      exact prefix_of_tightKey (.inr rfl) ht hf hi hv
    · rw [h, classify_assign plainKey_port] at hv
      exact absurd hv (by simp [show portKey ≠ groupKey by decide])

end

/-! ## The whole file -/

/-- An item of the template itself takes the new value; one from an included file does not. -/
def override (o : Text → Option Text) (it : Item) : Item :=
  if it.own then { it with value := (o it.key).getD it.value } else it

def overrideContext (o : Text → Option Text) (ctx : Context) : Context :=
  { ctx with items := ctx.items.map (override o) }

theorem doLine_override (o : Text → Option Text) (own : Bool) (cfg : Text)
    {inc : Text → Context → Except Ini.Error Context}
    (hinc : ∀ name ctx, inc name (overrideContext o ctx) = (inc name ctx).map (overrideContext o))
    {l l' : Text} (hl : classify l' = if own then overrideLine o (classify l) else classify l) (ctx : Context) :
    doLine inc cfg own (overrideContext o ctx) l' = (doLine inc cfg own ctx l).map (overrideContext o) := by
  simp only [doLine, hl]
  cases hc : classify l with
  | incl file => cases own <;> exact hinc _ _
  | skip => cases own <;> rfl
  | sect name => cases own <;> rfl
  | noise => cases own <;> rfl
  | item k v => cases own <;> simp [overrideLine, overrideContext, override, Except.map]

theorem fromFile_override (o : Text → Option Text) (files : Text → Except Nat Text)
    {loadText : Text → Context → Except Ini.Error Context}
    (h : ∀ text ctx, loadText text (overrideContext o ctx) = (loadText text ctx).map (overrideContext o))
    (name : Text) (ctx : Context) :
    fromFile files loadText name (overrideContext o ctx) = (fromFile files loadText name ctx).map (overrideContext o) := by
  unfold fromFile
  cases files name with
  | error e => rfl
  | ok text => exact h text ctx

/-- Loading an included file does not look at the items loaded before, and adds none of the template's. -/
theorem load_included (o : Text → Option Text) (files : Text → Except Nat Text) (cfg : Text) :
    ∀ (depth : Nat) (text : Text) (ctx : Context),
      load files cfg depth false text (overrideContext o ctx) =
        (load files cfg depth false text ctx).map (overrideContext o)
  | 0, _, _ => rfl
  | depth + 1, text, ctx => by
    have hstep : ∀ l ∈ bufferLines text, ∀ c : Context,
        doLine (fromFile files fun t c => load files cfg depth false t c) cfg false (overrideContext o c) (id l) =
          (doLine (fromFile files fun t c => load files cfg depth false t c) cfg false c l).map (overrideContext o) :=
      fun l _ c => doLine_override o false cfg (fromFile_override o files (load_included o files cfg depth)) rfl c
    have hcomm := Run.foldlM_comm (overrideContext o) id (bufferLines text) ctx hstep
    rwa [List.map_id] at hcomm

/-- What a loop pair writes for a plain template. -/
theorem writeLoop_plain {t : Text} (ht : Plain t) (rewrite : Text → Text)
    (ho : ∀ l ∈ lines t, echoOption (rewrite (stripBlanks l)) = false) :
    writeLoop rewrite t (rm none) = some (unlines ((lines t).map fun l => rewrite (stripBlanks l))) := by
  apply file_ext
  · rw [writeLoop, foldl_appendLine_isSome, ht.readLines_eq]
    simp [ht.lines_ne_nil ht.ne]
  · rw [writeLoop, foldl_appendLine, echo_rewritten ht.toCopied ho]
    rfl

theorem map_items (o : Text → Option Text) (r : Except Ini.Error Context) :
    (r.map (overrideContext o)).map Context.items = (r.map Context.items).map (List.map (override o)) := by
  cases r <;> rfl

/-- **The commuting square**: a line-wise rewrite that overrides what the reader sees of each line
overrides what it loads from the file. -/
theorem loadItems_rewritten {t : Text} (ht : Plain t) (o : Text → Option Text) (rewrite : Text → Text)
    (hnl : ∀ l ∈ lines t, '\n' ∉ rewrite (stripBlanks l)) (hnul : ∀ l ∈ lines t, NulFree (rewrite (stripBlanks l)))
    (h0 : rewrite [] = []) (hl : ∀ l ∈ lines t, classify (rewrite (stripBlanks l)) = overrideLine o (classify l))
    (files : Text → Except Nat Text) (cfg : Text) (depth : Nat) :
    loadItems files cfg depth (unlines ((lines t).map fun l => rewrite (stripBlanks l))) =
      (loadItems files cfg depth t).map (List.map (override o)) := by
  cases depth with
  | zero => rfl
  | succ depth =>
    have hT : bufferLines t = lines t ++ [[]] := by
      have hj := ht.eq_unlines
      conv => lhs; rw [hj]
      refine bufferLines_unlines (fun l h => Lines.sep_not_mem_pieces '\n' h) fun l h hm => ht.nulFree ?_
      exact Lines.mem_of_mem_pieces '\n' h hm
    have hG : bufferLines (unlines ((lines t).map fun l => rewrite (stripBlanks l))) =
        (lines t ++ [[]]).map fun l => rewrite (stripBlanks l) := by
      rw [bufferLines_unlines (by simpa using hnl) (by simpa using hnul), List.map_append]
      simp [stripBlanks, h0]
    have hstep : ∀ l ∈ lines t ++ [[]], ∀ c : Context,
        doLine (fromFile files fun t c => load files cfg depth false t c) cfg true (overrideContext o c)
            (rewrite (stripBlanks l)) =
          (doLine (fromFile files fun t c => load files cfg depth false t c) cfg true c l).map (overrideContext o) := by
      intro l hmem c
      refine doLine_override o true cfg (fromFile_override o files (load_included o files cfg depth)) ?_ c
      rcases List.mem_append.1 hmem with hm | hm
      · exact hl l hm
      · rw [List.mem_singleton.1 hm, stripBlanks, Lines.strip_nil, h0]; rfl
    have hcomm := Run.foldlM_comm (overrideContext o) (fun l => rewrite (stripBlanks l)) _ Context.init hstep
    rw [show overrideContext o Context.init = Context.init from rfl] at hcomm
    simp only [loadItems, load, hT, hG]
    rw [hcomm]
    exact map_items o _

/-! ## The two files -/

/-- A character other than `'='` in a rewritten line comes from the line, the key or the value. -/
theorem not_mem_assign {test : Text → Text → Bool} {key : Text} {value : Option Text} {l : Text} {c : Char}
    (hc : c ≠ '=') (hk : c ∉ key) (hv : ∀ v ∈ value, c ∉ v) (hl : c ∉ l) : c ∉ assign test key value l := by
  rcases assign_cases test key value l with h | ⟨v, hv', -, h⟩
  · rw [h]; exact hl
  · rw [h]; simpa [hc, hk] using hv v hv'

theorem not_mem_stripBlanks {t l : Text} (hl : l ∈ lines t) {c : Char} (hc : c = '\n' ∨ c ∉ t) :
    c ∉ stripBlanks l := by
  intro hm
  have hm' := Lines.mem_of_mem_strip _ hm
  rcases hc with rfl | hc
  · exact Lines.sep_not_mem_pieces '\n' hl hm'
  · exact hc (Lines.mem_of_mem_pieces '\n' hl hm')

section
variable (sed : Sed.TextArg) (env : Env) (t : Templates) (f : Files) (files : Text → Except Nat Text) (cfg : Text)
  (depth : Nat)

theorem tracker_items (hw : ∀ w ∈ env.trPort, ShortName w) (ht : Plain t.tracker) :
    ∃ text, (start sed .tracker env t f).tracker = some text ∧
      loadItems files cfg depth text =
        (loadItems files cfg depth t.tracker).map (List.map (override (trackerOverrides env))) := by
  have hclean : ∀ c : Char, c ≠ '=' → c ∉ portKey → c.isAlphanum = false → (c = '\n' ∨ c ∉ t.tracker) →
      ∀ l ∈ lines t.tracker, c ∉ rewriteTracker env (stripBlanks l) := by
    intro c hne hk ha hc l hl
    refine not_mem_assign hne hk (fun v hv => ?_) (not_mem_stripBlanks hl hc)
    obtain ⟨w, hw', rfl⟩ := Option.map_eq_some_iff.1 hv
    exact no_char_of_alnum (hw w hw').1 ha
  refine ⟨_, writeLoop_plain ht (rewriteTracker env) fun l hl => ?_, ?_⟩
  · exact echoOption_assign_eq _ (by decide) (by decide) _ (ht.noOption l hl)
  · refine loadItems_rewritten ht (trackerOverrides env) (rewriteTracker env) ?_ ?_ ?_ ?_ files cfg depth
    · exact hclean '\n' (by decide) (by decide) (by decide) (.inl rfl)
    · exact hclean '\x00' (by decide) (by decide) (by decide) (.inr ht.nulFree)
    · exact assign_of_not _ rfl
    · exact fun l hl => classify_rewriteTracker (ht.noFileless l hl) (ht.noIndented l hl) (ht.tight l hl) hw

theorem storage_items (hp : ∀ w ∈ env.stPort, ShortName w) (hg : ∀ w ∈ env.groupName, ShortName w)
    (ht : Plain t.storage) :
    ∃ text, (start sed .storage env t f).storage = some text ∧
      loadItems files cfg depth text =
        (loadItems files cfg depth t.storage).map (List.map (override (storageOverrides env))) := by
  have hclean : ∀ c : Char, c ≠ '=' → c ∉ portKey → c ∉ groupKey → c.isAlphanum = false →
      (c = '\n' ∨ c ∉ t.storage) → ∀ l ∈ lines t.storage, c ∉ rewriteStorage env (stripBlanks l) := by
    intro c hne hk hk' ha hc l hl
    refine not_mem_assign hne hk' (fun v hv => ?_) (not_mem_assign hne hk (fun v hv => ?_) (not_mem_stripBlanks hl hc))
    · obtain ⟨w, hw', rfl⟩ := Option.map_eq_some_iff.1 hv
      exact no_char_of_alnum (hg w hw').1 ha
    · obtain ⟨w, hw', rfl⟩ := Option.map_eq_some_iff.1 hv
      exact no_char_of_alnum (hp w hw').1 ha
  refine ⟨_, writeLoop_plain ht (rewriteStorage env) fun l hl => ?_, ?_⟩
  · refine echoOption_assign_eq _ (by decide) (by decide) _ ?_
    exact echoOption_assign_eq _ (by decide) (by decide) _ (ht.noOption l hl)
  · refine loadItems_rewritten ht (storageOverrides env) (rewriteStorage env) ?_ ?_ ?_ ?_ files cfg depth
    · exact hclean '\n' (by decide) (by decide) (by decide) (by decide) (.inl rfl)
    · exact hclean '\x00' (by decide) (by decide) (by decide) (by decide) (.inr ht.nulFree)
    · rw [rewriteStorage, show assign startsWith portKey _ [] = [] from assign_of_not _ rfl]
      exact assign_of_not _ rfl
    · exact fun l hl => classify_rewriteStorage (ht.noFileless l hl) (ht.noIndented l hl) (ht.tight l hl) hp hg

end

/-- **Rewriting preserves meaning.** For plain templates, the items the reader loads from the generated
`tracker.conf` and `storage.conf` are those of the template with the values of `port` and, in
`storage.conf`, `group_name` overridden where the template itself assigns them. -/
theorem generated_items_eq_overridden (sed : Sed.TextArg) (env : Env) (t : Templates) (f : Files)
    (files : Text → Except Nat Text) (cfg : Text) (depth : Nat)
    (hw : ∀ w, w ∈ env.trPort ∨ w ∈ env.stPort ∨ w ∈ env.groupName → ShortName w) :
    (Plain t.tracker → ∃ text, (start sed .tracker env t f).tracker = some text ∧
      loadItems files cfg depth text =
        (loadItems files cfg depth t.tracker).map (List.map (override (trackerOverrides env)))) ∧
    (Plain t.storage → ∃ text, (start sed .storage env t f).storage = some text ∧
      loadItems files cfg depth text =
        (loadItems files cfg depth t.storage).map (List.map (override (storageOverrides env)))) :=
  ⟨tracker_items sed env t f files cfg depth fun w h => hw w (.inl h),
   storage_items sed env t f files cfg depth (fun w h => hw w (.inr (.inl h))) fun w h => hw w (.inr (.inr h))⟩

/-- A section, a repeated key and a key that ends in `port` beside the two overridden ones. -/
def smallTemplates : Templates where
  tracker := "port=22122\n# port=1\nallow_hosts=a\nallow_hosts=b\n".toList
  storage := " port=23001 \ngroup_name=group1\n[x]\nhttp.server_port=80\n".toList
  modFastdfs := []
  nginx := []

theorem generated_items_small :
    (∀ w, w ∈ some portWord ∨ w ∈ some portWord ∨ w ∈ some groupWord → ShortName w) ∧ Plain smallTemplates.tracker ∧
    Plain smallTemplates.storage ∧
    (∃ text, (start .basic .tracker ⟨some portWord, some portWord, none, some groupWord⟩ smallTemplates
        (fresh [] [] [])).tracker = some text ∧
      loadItems (fun _ => .error 2) [] 1 text = (loadItems (fun _ => .error 2) [] 1 smallTemplates.tracker).map
        (List.map (override (trackerOverrides ⟨some portWord, some portWord, none, some groupWord⟩)))) ∧
    ∃ text, (start .basic .storage ⟨some portWord, some portWord, none, some groupWord⟩ smallTemplates
        (fresh [] [] [])).storage = some text ∧
      loadItems (fun _ => .error 2) [] 1 text = (loadItems (fun _ => .error 2) [] 1 smallTemplates.storage).map
        (List.map (override (storageOverrides ⟨some portWord, some portWord, none, some groupWord⟩))) := by
  have hw : ∀ w, w ∈ some portWord ∨ w ∈ some portWord ∨ w ∈ some groupWord → ShortName w := by
    rintro w (h | h | h)
    · cases h; decide
    · cases h; decide
    · cases h; decide
  have htr : Plain smallTemplates.tracker := by decide
  have hst : Plain smallTemplates.storage := by decide
  have h := generated_items_eq_overridden .basic ⟨some portWord, some portWord, none, some groupWord⟩ smallTemplates
    (fresh [] [] []) (fun _ => .error 2) [] 1 hw
  exact ⟨hw, htr, hst, h.1 htr, h.2 hst⟩

end HahaDog.Entrypoint
