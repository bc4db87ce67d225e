import HahaDogOps.Ini.Settings
import HahaDogOps.Entrypoint.IniItems
/-!
# What the rewriting of `mod_fastdfs.conf` does to comments

The loop of `entrypoint.sh:98-107` rewrites three keys. `group_name=` is matched at the start of the
line (`==` with a glob), `store_path0=` and `storage_server_port=` anywhere in it (`=~`). The template
keeps commented examples of the same keys for further groups (`mod_fastdfs.conf:116-134`), and these
match too: `#store_path0=/home/yuqing/fastdfs` becomes a setting (`commented_path_activated`).

`modFastdfs_respects_iff` says for which templates the loop respects every line.
-/

namespace HahaDog.Entrypoint

open Shell Ini

/-! ## What the loop is to respect -/

/-- The lines to be left alone: comments, section headers, settings of other keys. -/
def Framed (l : Text) : Prop :=
  (trim l).head? = some '#' ∨ (∃ name, classify l = .sect name) ∨
    ∃ k, settingKey l = some k ∧ k ≠ groupKey ∧ k ≠ pathKey ∧ k ≠ serverPortKey

/-- Line by line, no setting appears or changes its key, and the framed lines stay. -/
structure Respects (template out : List Text) : Prop where
  setting : ∀ (i : Nat) o k, out[i]? = some o → settingKey o = some k → ∃ l, template[i]? = some l ∧ settingKey l = some k
  frame : ∀ (i : Nat) l, template[i]? = some l → Framed l → ∃ o, out[i]? = some o ∧ stripBlanks o = stripBlanks l

/-- The line is matched for what it is, or not at all. -/
def SafeLine (env : Env) (l : Text) : Prop :=
  (env.groupName.isSome = true ∧ startsWith (groupKey ++ ['=']) (stripBlanks l) = true) ∨
  ((contains (pathKey ++ ['=']) (stripBlanks l) = true → settingKey l = some pathKey) ∧
    (env.stPort.isSome = true → contains (serverPortKey ++ ['=']) (stripBlanks l) = true →
      contains (pathKey ++ ['=']) (stripBlanks l) = false → settingKey l = some serverPortKey))

/-! ## One line -/

theorem plainKey_path : PlainKey pathKey := by decide
theorem plainKey_serverPort : PlainKey serverPortKey := by decide

/-- Behind `key=` and a value without `'='` there is no other key. -/
theorem contains_assign {k k' v : Text} (hk : '=' ∉ k) (hv : '=' ∉ v) (hs : ¬ k' <:+ k) :
    contains (k' ++ ['=']) (k ++ '=' :: v) = false := by
  rw [contains, decide_eq_false_iff_not]
  rintro ⟨a, b, h⟩
  have hcount := congrArg (List.count '=') h
  simp only [List.count_append, List.count_cons_self, List.count_nil, List.count_eq_zero.2 hk,
    List.count_eq_zero.2 hv] at hcount
  have ha : '=' ∉ a ++ k' := by
    rw [← List.count_eq_zero, List.count_append]; omega
  have htw := congrArg (List.takeWhile fun c => decide (c ≠ '=')) h
  rw [Lines.takeWhile_ne_append hk, show a ++ (k' ++ ['=']) ++ b = (a ++ k') ++ '=' :: b by simp,
    Lines.takeWhile_ne_append ha] at htw
  exact hs ⟨a, htw⟩

section
variable {env : Env} (hg : ∀ w ∈ env.groupName, w.Alnum) (hp : ∀ w ∈ env.stPort, w.Alnum) {s : Text}

include hg in
theorem rewriteModFastdfs_group {w : Word} (hw : env.groupName = some w)
    (h : startsWith (groupKey ++ ['=']) s = true) : rewriteModFastdfs env s = groupKey ++ '=' :: w.text := by
  have hv : '=' ∉ w.text := no_char_of_alnum (hg w hw) (by decide)
  rw [rewriteModFastdfs, hw, Option.map_some, assign_some h, assign_of_not _ (contains_assign (by decide) hv (by decide)),
    assign_of_not _ (contains_assign (by decide) hv (by decide))]

theorem rewriteModFastdfs_path (h : env.groupName.isSome = true → startsWith (groupKey ++ ['=']) s = false)
    (hc : contains (pathKey ++ ['=']) s = true) : rewriteModFastdfs env s = pathKey ++ '=' :: storePath := by
  have h1 : assign startsWith groupKey (env.groupName.map Word.text) s = s := by
    cases hgn : env.groupName with
    | none => rfl
    | some w => exact assign_of_not _ (h (by rw [hgn]; rfl))
  rw [rewriteModFastdfs, h1, assign_some hc, assign_of_not _ (contains_assign (by decide) (by decide) (by decide))]

theorem rewriteModFastdfs_port (h : env.groupName.isSome = true → startsWith (groupKey ++ ['=']) s = false)
    (hc : contains (pathKey ++ ['=']) s = false) :
    rewriteModFastdfs env s = assign contains serverPortKey (env.stPort.map Word.text) s := by
  have h1 : assign startsWith groupKey (env.groupName.map Word.text) s = s := by
    cases hgn : env.groupName with
    | none => rfl
    | some w => exact assign_of_not _ (h (by rw [hgn]; rfl))
  rw [rewriteModFastdfs, h1, assign_of_not _ hc]

end

/-- What `Respects` asks of one line and its rewriting. -/
def RespectsLine (l o : Text) : Prop :=
  (∀ k, settingKey o = some k → settingKey l = some k) ∧ (Framed l → stripBlanks o = stripBlanks l)

theorem not_framed_of_settingKey {l k : Text} (h : settingKey l = some k)
    (hk : k = groupKey ∨ k = pathKey ∨ k = serverPortKey) : ¬ Framed l := by
  rintro (h1 | ⟨name, h1⟩ | ⟨k', h1, h2⟩)
  · rw [settingKey_of_hash h1] at h; cases h
  · simp [settingKey, h1] at h
  · rw [h] at h1
    cases h1
    rcases hk with rfl | rfl | rfl <;> simp at h2

/-- A line rewritten to `key=value` is respected iff it was a setting of that key. -/
theorem respectsLine_assign {k : Text} (hk : PlainKey k) (hkey : k = groupKey ∨ k = pathKey ∨ k = serverPortKey)
    (l v : Text) : RespectsLine l (k ++ '=' :: v) ↔ settingKey l = some k := by
  constructor
  · intro h
    exact h.1 k (settingKey_assign hk v)
  · intro h
    refine ⟨fun k' hk' => ?_, fun hf => absurd hf (not_framed_of_settingKey h hkey)⟩
    rw [settingKey_assign hk] at hk'
    rw [h, hk']

theorem respectsLine_stripBlanks (l : Text) : RespectsLine l (stripBlanks l) :=
  ⟨fun k h => by rwa [settingKey_stripBlanks] at h, fun _ => Lines.strip_strip isBlank l⟩

/-- **One line is respected iff it is safe**: one case for each of the three tests. -/
theorem respectsLine_rewrite_iff {env : Env} (hg : ∀ w ∈ env.groupName, w.Alnum) (l : Text) :
    RespectsLine l (rewriteModFastdfs env (stripBlanks l)) ↔ SafeLine env l := by
  by_cases h1 : env.groupName.isSome = true ∧ startsWith (groupKey ++ ['=']) (stripBlanks l) = true
  · obtain ⟨w, hw⟩ := Option.isSome_iff_exists.1 h1.1
    rw [rewriteModFastdfs_group hg hw h1.2, respectsLine_assign plainKey_group (.inl rfl)]
    refine ⟨fun _ => .inl h1, fun _ => ?_⟩
    obtain ⟨r, hr⟩ := List.isPrefixOf_iff_prefix.1 h1.2
    rw [← settingKey_stripBlanks, ← hr, List.append_assoc, List.singleton_append]
    exact settingKey_assign plainKey_group r
  · have h1' : env.groupName.isSome = true → startsWith (groupKey ++ ['=']) (stripBlanks l) = false :=
      fun h => Bool.eq_false_iff.2 fun h' => h1 ⟨h, h'⟩
    rw [SafeLine, or_iff_right h1]
    cases h2 : contains (pathKey ++ ['=']) (stripBlanks l) with
    | true =>
      rw [rewriteModFastdfs_path h1' h2, respectsLine_assign plainKey_path (.inr (.inl rfl))]
      simp
    | false =>
      rw [rewriteModFastdfs_port h1' h2]
      cases hst : env.stPort with
      | none => exact iff_of_true (respectsLine_stripBlanks l) ⟨by simp, by simp⟩
      | some w =>
        cases h3 : contains (serverPortKey ++ ['=']) (stripBlanks l) with
        | true =>
          rw [Option.map_some, assign_some h3, respectsLine_assign plainKey_serverPort (.inr (.inr rfl))]
          simp
        | false =>
          rw [Option.map_some, assign_of_not _ h3]
          simpa using respectsLine_stripBlanks l

/-! ## The whole file -/

theorem respects_map_iff (ls : List Text) (f : Text → Text) :
    Respects ls (ls.map f) ↔ ∀ l ∈ ls, RespectsLine l (f l) := by
  constructor
  · intro h l hl
    obtain ⟨i, hi⟩ := List.mem_iff_getElem?.1 hl
    have hmap : (ls.map f)[i]? = some (f l) := by rw [List.getElem?_map, hi]; rfl
    refine ⟨fun k hk => ?_, fun hf => ?_⟩
    · obtain ⟨l', hl', hk'⟩ := h.setting i (f l) k hmap hk
      rw [hi] at hl'; cases hl'; exact hk'
    · obtain ⟨o, ho, hs⟩ := h.frame i l hi hf
      rw [hmap] at ho; cases ho; exact hs
  · intro h
    refine ⟨fun i o k ho hk => ?_, fun i l hi hf => ?_⟩
    · rw [List.getElem?_map, Option.map_eq_some_iff] at ho
      obtain ⟨l, hi, rfl⟩ := ho
      exact ⟨l, hi, (h l (List.mem_of_getElem? hi)).1 k hk⟩
    · exact ⟨f l, by rw [List.getElem?_map, hi]; rfl, (h l (List.mem_of_getElem? hi)).2 hf⟩

/-- A storage start appends `appended` to the file. -/
theorem start_modFastdfs (sed : Sed.TextArg) (env : Env) (t : Templates) (f : Files) :
    (start sed .storage env t f).modFastdfs.getD [] = f.modFastdfs.getD [] ++ appended env t.modFastdfs := by
  simp [start, modFastdfsConf, writeLoop, foldl_appendLine, appended]

theorem lines_appended {env : Env} (hg : ∀ w ∈ env.groupName, w.Alnum) (hp : ∀ w ∈ env.stPort, w.Alnum)
    {template : Text} (ht : Copied template) :
    lines (appended env template) = (lines template).map fun l => rewriteModFastdfs env (stripBlanks l) := by
  rw [appended, echo_rewritten ht fun l hl => by rw [echoOption_rewriteModFastdfs]; exact ht.noOption l hl]
  refine Lines.pieces_joined '\n' ?_
  intro o ho
  obtain ⟨l, hl, rfl⟩ := List.mem_map.1 ho
  have hval : ∀ x : Option Word, (∀ w ∈ x, w.Alnum) → ∀ v ∈ x.map Word.text, '\n' ∉ v := by
    intro x hx v hv
    obtain ⟨w, hw, rfl⟩ := Option.map_eq_some_iff.1 hv
    exact no_char_of_alnum (hx w hw) (by decide)
  refine not_mem_assign (by decide) (by decide) (hval _ hp) ?_
  refine not_mem_assign (by decide) (by decide) (fun v hv => by cases hv; decide) ?_
  exact not_mem_assign (by decide) (by decide) (hval _ hg) (not_mem_stripBlanks hl (.inl rfl))

/-- **The text a storage start appends respects the template iff every line is safe**: a line with
`store_path0=` anywhere in it must be the setting of `store_path0`, and, when `ST_PORT` is set, any
other line with `storage_server_port=` in it the setting of that key. Lines rewritten for
`group_name` first are safe. -/
theorem modFastdfs_respects_iff (sed : Sed.TextArg) (env : Env) (t : Templates) (f : Files)
    (hg : ∀ w ∈ env.groupName, w.Alnum) (hp : ∀ w ∈ env.stPort, w.Alnum) (ht : Copied t.modFastdfs) :
    ∃ out, (start sed .storage env t f).modFastdfs.getD [] = f.modFastdfs.getD [] ++ out ∧
      (Respects (lines t.modFastdfs) (lines out) ↔ ∀ l ∈ lines t.modFastdfs, SafeLine env l) := by
  refine ⟨appended env t.modFastdfs, start_modFastdfs sed env t f, ?_⟩
  rw [lines_appended hg hp ht, respects_map_iff]
  exact forall₂_congr fun l _ => respectsLine_rewrite_iff hg l

/-- A template whose comments do not mention the rewritten keys. -/
def quietTemplates : Templates := ⟨[], [], "#[group1]\nstore_path0=/x\nstorage_server_port=1\n".toList, []⟩

theorem quiet_template_respected :
    (∀ w ∈ some groupWord, w.Alnum) ∧ (∀ w ∈ some portWord, w.Alnum) ∧ Copied quietTemplates.modFastdfs ∧
    ∃ out, (start .basic .storage ⟨none, some portWord, none, some groupWord⟩ quietTemplates
        (fresh [] [] [])).modFastdfs.getD [] = out ∧ Respects (lines quietTemplates.modFastdfs) (lines out) := by
  have hg : ∀ w ∈ some groupWord, w.Alnum := by rintro w h; cases h; decide
  have hp : ∀ w ∈ some portWord, w.Alnum := by rintro w h; cases h; decide
  have ht : Copied quietTemplates.modFastdfs := by decide
  obtain ⟨out, ho, hiff⟩ := modFastdfs_respects_iff .basic ⟨none, some portWord, none, some groupWord⟩ quietTemplates
    (fresh [] [] []) hg hp ht
  refine ⟨hg, hp, ht, out, ho, hiff.2 ?_⟩
  unfold SafeLine
  decide

/-- The commented path of another group, as `mod_fastdfs.conf:123` has it. -/
def commentedPath : Templates := ⟨[], [], "#store_path0=/home/yuqing/fastdfs\n".toList, []⟩

/-- A commented `store_path0` becomes a setting. -/
theorem commented_path_activated : Copied commentedPath.modFastdfs ∧
    (start .basic .storage ⟨none, none, none, none⟩ commentedPath (fresh [] [] [])).modFastdfs =
      some "store_path0=/fastdfs/store_path\n".toList ∧
    ¬ Respects (lines commentedPath.modFastdfs) (lines "store_path0=/fastdfs/store_path\n".toList) := by
  refine ⟨by decide, by decide, fun h => ?_⟩
  obtain ⟨l, hl, hk⟩ := h.setting 0 "store_path0=/fastdfs/store_path".toList pathKey (by decide) (by decide)
  have : l = "#store_path0=/home/yuqing/fastdfs".toList := by
    rw [show (lines commentedPath.modFastdfs)[0]? = some "#store_path0=/home/yuqing/fastdfs".toList by decide] at hl
    exact (Option.some.inj hl).symm
  rw [this] at hk
  exact absurd hk (by decide)

end HahaDog.Entrypoint
