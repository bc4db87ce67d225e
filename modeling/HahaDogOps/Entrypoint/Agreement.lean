import HahaDogOps.Entrypoint.ModRewrite
import HahaDogOps.Entrypoint.NginxFile
/-!
# Do the three files of a storage container describe the same server?

`storage.conf`, `mod_fastdfs.conf` and the location added to `nginx.conf` each name the group, the port
or the store path of one storage server ("must same as storage.conf", `mod_fastdfs.conf:57`, `:62`). They
are written by separate code (`entrypoint.sh:72-80`, `:98-107`, `:125-129`):

| | group | port | path |
| --- | --- | --- | --- |
| `storage.conf`     | `GROUP_NAME`, or the template's | `ST_PORT`, or the template's | the template's |
| `mod_fastdfs.conf` | `GROUP_NAME`, or the template's | `ST_PORT`, or the template's | `/fastdfs/store_path` |
| `nginx.conf`       | `GROUP_NAME`, or `group1`       |                              | `/fastdfs/store_path` |

`storage_files_agree_iff`: for which templates and environments the columns come out constant.
-/

namespace HahaDog.Entrypoint

open Shell Ini

/-! ## Templates and what is asked of the files -/

/-- The three settings of a template, each set once. -/
@[mk_iff] structure Describes (ls : List Text) (portK group port path : Text) : Prop where
  group : SetsOnce ls groupKey group
  port : SetsOnce ls portK port
  path : SetsOnce ls pathKey path

instance (ls : List Text) (portK group port path : Text) : Decidable (Describes ls portK group port path) :=
  decidable_of_iff _ (describes_iff ls portK group port path).symm

/-- `read` gives back the settings the template sets once as they stand, and makes no further ones. -/
def ReadBack (t : Text) : Prop :=
  ∀ k ∈ [groupKey, portKey, serverPortKey, pathKey], ∀ l,
    SetsOnce ((lines t).map stripBlanks) k l → SetsOnce (readLines t) k l

/-- A template that is copied line by line is read back. -/
theorem readBack_of_copied {t : Text} (h : Copied t) : ReadBack t := by
  intro k _ l hl
  rwa [h.readLines_eq]

/-- One group, one port and one path in all three files. -/
def SameServer (f : Files) (base : Option Text) : Prop :=
  ∃ g p d,
    (Gives (lines (f.storage.getD [])) groupKey g ∧ Gives (lines (f.modFastdfs.getD [])) groupKey g) ∧
    (Gives (lines (f.storage.getD [])) portKey p ∧ Gives (lines (f.modFastdfs.getD [])) serverPortKey p) ∧
    (Gives (lines (f.storage.getD [])) pathKey d ∧ Gives (lines (f.modFastdfs.getD [])) pathKey d) ∧
    f.nginx = Sed.inPlace (Sed.append serverPat (locationBlock g d)) base

/-! ## When they agree -/

/-- A line with `server {` reaches the last `sed`: one of the template, or one the listen edit put in. -/
def ServerLine (sed : Sed.TextArg) (env : Env) (template : Text) : Prop :=
  (∃ l ∈ readLines template, Sed.selects serverPat l = true ∧
    (env.ngxPort.isSome = true → Sed.selects listenPat l = false)) ∨
  ∃ port ∈ env.ngxPort, ∃ new, sed.read (listenArg port) = some new ∧ (∃ l ∈ new, Sed.selects serverPat l = true) ∧
    ∃ l ∈ readLines template, Sed.selects serverNamePat l = true ∧ Sed.selects listenPat l = false

/-- The last two tests of the `mod_fastdfs.conf` loop pass the line by. -/
def PassedBy (env : Env) (l : Text) : Prop :=
  contains (pathKey ++ ['=']) l = false ∧
    (env.stPort.isSome = true → contains (serverPortKey ++ ['=']) l = false)

/-- A line outside sections is, or becomes, the setting of `storage_server_port`. -/
def PortKept (env : Env) (ls : List Text) : Prop :=
  ∃ A l B, ls = A ++ l :: B ∧ sectionAfter [] (A.map (rewriteModFastdfs env)) = [] ∧
    contains (pathKey ++ ['=']) l = false ∧
    (env.groupName.isSome = true → startsWith (groupKey ++ ['=']) l = false) ∧
    (settingKey l = some serverPortKey ∨ (env.stPort.isSome = true ∧ contains (serverPortKey ++ ['=']) l = true))

/-- The group of `storage.conf` (line `sg`) and of `mod_fastdfs.conf` (line `mg`) is the one the location has. -/
def GroupKept (sed : Sed.TextArg) (env : Env) (nginx sg mg : Text) : Prop :=
  match env.groupName with
  | some w => ServerLine sed env nginx → w.text.length ≤ itemValueLen
  | none => PassedBy env mg ∧ (ServerLine sed env nginx → settingValue sg = "group1".toList)

/-! ## Reading a generated file back -/

/-- The reader ignores what `echo` swallows. -/
theorem classify_of_echoOption {w : Text} (h : echoOption w = true) :
    settingKey w = none ∧ ∀ sec, nextSection sec w = sec := by
  have hmem : ∀ c ∈ trim w, c ∈ w := fun c hc => Lines.mem_of_mem_strip isSpace hc
  have hinc : isInclude w = false := isInclude_eq_false fun h' =>
    not_mem_of_echoOption h (by decide) (List.mem_of_mem_head? h')
  constructor
  · by_contra hk
    obtain ⟨k, hk⟩ := Option.ne_none_iff_exists'.1 hk
    have hc := settingKey_eq_some.1 hk
    simp only [classify, hinc, Bool.false_eq_true, ↓reduceIte] at hc
    exact not_mem_of_echoOption h (by decide) (hmem _ (classifyTrimmed_item hc).1)
  · intro sec
    unfold nextSection
    split
    · rename_i name hc
      obtain ⟨m, hm, _⟩ := trim_of_sect hc
      exact absurd (hmem '[' (by rw [hm]; simp)) (not_mem_of_echoOption h (by decide))
    · rfl

theorem settingLines_echoLine (k : Text) : ∀ (ws : List Text) (sec : Text),
    settingLines k sec (ws.filterMap echoLine) = settingLines k sec ws
  | [], _ => rfl
  | w :: ws, sec => by
    have ih := settingLines_echoLine k ws
    by_cases ho : echoOption w = true
    · obtain ⟨hk, hs⟩ := classify_of_echoOption ho
      have hcons : settingLines k sec (w :: ws) = settingLines k sec ws := by
        rw [settingLines, hk, hs, if_neg (by simp)]
      have hnil : settingLines k sec ([] :: ws.filterMap echoLine) = settingLines k sec (ws.filterMap echoLine) := rfl
      rw [hcons, ← ih, List.filterMap_cons]
      simp only [echoLine, ho, ↓reduceIte]
      split
      · rfl
      · rename_i heq
        split at heq
        · cases heq
        · cases heq; exact hnil
    · rw [List.filterMap_cons_some (b := w) (by simp [echoLine, ho]), settingLines, settingLines, ih]

theorem gives_echoLine (ws : List Text) (k v : Text) : Gives (ws.filterMap echoLine) k v ↔ Gives ws k v := by
  simp only [Gives, globalValues, settingLines_echoLine]

/-- The reader on a generated file is the reader on the rewritten lines. -/
theorem gives_written {rewrite : Text → Text} {template : Text}
    (hn : ∀ l ∈ readLines template, '\n' ∉ rewrite l) (k v : Text) :
    Gives (lines ((writeLoop rewrite template none).getD [])) k v ↔ Gives ((readLines template).map rewrite) k v := by
  have hn' : ∀ w ∈ (readLines template).map rewrite, '\n' ∉ w := by
    intro w hw
    obtain ⟨l, hl, rfl⟩ := List.mem_map.1 hw
    exact hn l hl
  rw [writeLoop, foldl_appendLine, Option.getD_none, List.nil_append, lines_flatMap_echo hn', gives_echoLine]

/-- A key set once in the lines, and in no more of the rewritten lines. -/
theorem gives_rewritten_iff {ls : List Text} {k l : Text} (h : SetsOnce ls k l) {rewrite : Text → Text}
    (hg : KeepsGlobal rewrite) (hk : ∀ m, settingKey (rewrite m) = some k → settingKey m = some k) (v : Text) :
    Gives (ls.map rewrite) k v ↔ settingKey (rewrite l) = some k ∧ v = settingValue (rewrite l) := by
  have hall : ∀ m ∈ ls, ∀ v', classify (rewrite m) = .item k v' → m = l ∧ settingKey (rewrite l) = some k ∧
      v' = settingValue (rewrite l) := by
    intro m hm v' hc
    have hv := settingValue_of_item hc
    have hkey : settingKey (rewrite m) = some k := settingKey_eq_some.2 (hv ▸ hc)
    have hml := h.eq_of_key hm (hk m hkey)
    subst hml
    exact ⟨rfl, hkey, hv.symm⟩
  constructor
  · rintro ⟨hne, hv⟩
    obtain ⟨x, hx⟩ := List.exists_mem_of_ne_nil _ hne
    have hxv := hv x hx
    subst hxv
    obtain ⟨A, m, B, rfl, _, hc⟩ := mem_globalValues_map.1 hx
    exact (hall m (by simp) x hc).2
  · rintro ⟨hkey, rfl⟩
    exact h.gives_map hg (settingKey_eq_some.1 hkey) fun m hm v' hc => (hall m hm v' hc).2.2

theorem settingValue_assign {k : Text} (hk : PlainKey k) (v : Text) :
    settingValue (k ++ '=' :: v) = trim ((v.rdropWhile isSpace).take itemValueLen) :=
  settingValue_of_item (classify_assign hk v)

/-- A value of letters and digits is cut at the limit. -/
theorem settingValue_assign_alnum {k : Text} (hk : PlainKey k) {w : Word} (hw : w.Alnum) :
    settingValue (k ++ '=' :: w.text) = w.text.take itemValueLen := by
  have hsp : ∀ c ∈ w.text, isSpace c = false := fun c hc => isSpace_of_alnum (hw c hc)
  have hr : w.text.rdropWhile isSpace = w.text := by
    rw [List.rdropWhile_eq_self_iff]
    intro h; simpa using hsp _ (List.getLast_mem h)
  rw [settingValue_assign hk, hr, trim]
  exact Lines.strip_of_tight isSpace (Lines.tight_of_all_not _ fun c hc => hsp c (List.mem_of_mem_take hc))

/-! ## The two rewritings seen by the reader -/

/-- A rewriting leaves a line alone or makes it a setting; a line without `'='` is left alone. -/
theorem keepsGlobal_of {rewrite : Text → Text}
    (hset : ∀ l, rewrite l = l ∨ ∃ k v, PlainKey k ∧ rewrite l = k ++ '=' :: v)
    (heq : ∀ l, '=' ∉ l → rewrite l = l) : KeepsGlobal rewrite where
  opens l name h := by
    rcases hset l with hl | ⟨k, v, hk, hl⟩
    · rwa [hl] at h
    · rw [hl, classify_assign hk] at h; cases h
  closes l h := by rw [heq l (eq_not_mem_of_closing h)]; exact h

theorem settingKey_of_startsWith {k l : Text} (hk : PlainKey k) (h : startsWith (k ++ ['=']) l = true) :
    settingKey l = some k := by
  obtain ⟨r, rfl⟩ := List.isPrefixOf_iff_prefix.1 h
  rw [List.append_assoc, List.singleton_append]
  exact settingKey_assign hk r

/-- An anchored rewriting changes no key. -/
theorem settingKey_assign_startsWith {k : Text} (hk : PlainKey k) (x : Option Text) (l : Text) :
    settingKey (assign startsWith k x l) = settingKey l := by
  rcases assign_cases startsWith k x l with h | ⟨v, -, ht, h⟩
  · rw [h]
  · rw [h, settingKey_assign hk, settingKey_of_startsWith hk ht]

theorem startsWith_of_form {k l : Text} (h : k ++ ['='] <+: l) : startsWith (k ++ ['=']) l = true :=
  List.isPrefixOf_iff_prefix.2 h

theorem not_startsWith_of_key {k k' l : Text} (hk : PlainKey k) (h : settingKey l = some k') (hne : k ≠ k') :
    startsWith (k ++ ['=']) l = false := by
  by_contra ht
  rw [Bool.not_eq_false] at ht
  rw [settingKey_of_startsWith hk ht] at h
  exact hne (Option.some.inj h)

theorem contains_of_form {k l : Text} (h : k ++ ['='] <+: l) : contains (k ++ ['=']) l = true :=
  decide_eq_true h.isInfix

theorem settingKey_rewriteStorage (env : Env) (l : Text) : settingKey (rewriteStorage env l) = settingKey l := by
  rw [rewriteStorage, settingKey_assign_startsWith plainKey_group, settingKey_assign_startsWith plainKey_port]

theorem keepsGlobal_rewriteStorage (env : Env) : KeepsGlobal (rewriteStorage env) := by
  refine keepsGlobal_of (fun l => ?_) fun l hl => ?_
  · rcases assign_cases startsWith groupKey (env.groupName.map Word.text)
      (assign startsWith portKey (env.stPort.map Word.text) l) with h | ⟨v, -, -, h⟩
    · rcases assign_cases startsWith portKey (env.stPort.map Word.text) l with h' | ⟨v, -, -, h'⟩
      · exact .inl (by rw [rewriteStorage, h, h'])
      · exact .inr ⟨_, v, plainKey_port, by rw [rewriteStorage, h, h']⟩
    · exact .inr ⟨_, v, plainKey_group, h⟩
  · have hs : ∀ key, startsWith (key ++ ['=']) l = false := fun key =>
      Bool.eq_false_iff.2 fun hp => hl (eq_mem_of_startsWith hp)
    rw [rewriteStorage, assign_of_not _ (hs portKey), assign_of_not _ (hs groupKey)]

theorem rewriteModFastdfs_cases (env : Env) (l : Text) :
    rewriteModFastdfs env l = l ∨
    (∃ v, startsWith (groupKey ++ ['=']) l = true ∧ rewriteModFastdfs env l = groupKey ++ '=' :: v) ∨
    rewriteModFastdfs env l = pathKey ++ '=' :: storePath ∨
    ∃ w, env.stPort = some w ∧ rewriteModFastdfs env l = serverPortKey ++ '=' :: w.text := by
  rcases assign_cases contains serverPortKey (env.stPort.map Word.text)
    (assign contains pathKey (some storePath) (assign startsWith groupKey (env.groupName.map Word.text) l))
    with h | ⟨v, hv, -, h⟩
  · rw [rewriteModFastdfs, h]
    rcases assign_cases contains pathKey (some storePath) (assign startsWith groupKey (env.groupName.map Word.text) l)
      with h' | ⟨v, hv, -, h'⟩
    · rw [h']
      rcases assign_cases startsWith groupKey (env.groupName.map Word.text) l with h'' | ⟨v, -, ht, h''⟩
      · exact .inl h''
      · exact .inr (.inl ⟨v, ht, h''⟩)
    · cases hv; exact .inr (.inr (.inl h'))
  · obtain ⟨w, hw, rfl⟩ := Option.map_eq_some_iff.1 hv
    exact .inr (.inr (.inr ⟨w, hw, h⟩))

theorem keepsGlobal_rewriteModFastdfs (env : Env) : KeepsGlobal (rewriteModFastdfs env) := by
  refine keepsGlobal_of (fun l => ?_) fun l hl => rewriteModFastdfs_of_no_eq env hl
  rcases rewriteModFastdfs_cases env l with h | ⟨v, -, h⟩ | h | ⟨w, -, h⟩
  · exact .inl h
  · exact .inr ⟨_, v, plainKey_group, h⟩
  · exact .inr ⟨_, _, plainKey_path, h⟩
  · exact .inr ⟨_, _, plainKey_serverPort, h⟩

/-! ## The settings of `mod_fastdfs.conf` -/

section
variable {env : Env}

theorem settingKey_group_of_rewrite (m : Text) (h : settingKey (rewriteModFastdfs env m) = some groupKey) :
    settingKey m = some groupKey := by
  rcases rewriteModFastdfs_cases env m with hm | ⟨v, ht, -⟩ | hm | ⟨w, -, hm⟩
  · rwa [hm] at h
  · exact settingKey_of_startsWith plainKey_group ht
  · rw [hm, settingKey_assign plainKey_path] at h; exact absurd h (by decide)
  · rw [hm, settingKey_assign plainKey_serverPort] at h; exact absurd h (by decide)

/-- Without `GROUP_NAME` the group stays if the other tests pass its line by. -/
theorem settingKey_group_none (hgn : env.groupName = none) {l : Text} (hk : settingKey l = some groupKey) :
    settingKey (rewriteModFastdfs env l) = some groupKey ↔ PassedBy env l := by
  have h1 : env.groupName.isSome = true → startsWith (groupKey ++ ['=']) l = false := by simp [hgn]
  cases hc : contains (pathKey ++ ['=']) l with
  | true =>
    rw [rewriteModFastdfs_path h1 hc, settingKey_assign plainKey_path]
    exact iff_of_false (by decide) fun h => by rw [h.1] at hc; cases hc
  | false =>
    rw [rewriteModFastdfs_port h1 hc]
    unfold PassedBy
    cases hst : env.stPort with
    | none => exact iff_of_true hk ⟨hc, by simp⟩
    | some w =>
      cases hc' : contains (serverPortKey ++ ['=']) l with
      | true =>
        rw [Option.map_some, assign_some hc', settingKey_assign plainKey_serverPort]
        exact iff_of_false (by decide) fun h => by simpa using h.2
      | false =>
        rw [Option.map_some, assign_of_not _ hc']
        exact iff_of_true hk ⟨hc, fun _ => rfl⟩

/-- A line passed by the last two tests is left alone when `GROUP_NAME` is unset. -/
theorem rewriteModFastdfs_passedBy (hgn : env.groupName = none) {l : Text} (h : PassedBy env l) :
    rewriteModFastdfs env l = l := by
  rw [rewriteModFastdfs_port (by simp [hgn]) h.1]
  cases hst : env.stPort with
  | none => rfl
  | some w => exact assign_of_not _ (h.2 (by rw [hst]; rfl))

/-- The path is the fixed one, whatever the template says. -/
theorem gives_path {ls : List Text} {l : Text} (h : SetsOnce ls pathKey l) :
    Gives (ls.map (rewriteModFastdfs env)) pathKey storePath := by
  have hval : classify (pathKey ++ '=' :: storePath) = .item pathKey storePath :=
    classify_assign_value plainKey_path (by decide) (by decide)
  have hrw : ∀ m, startsWith (groupKey ++ ['=']) m = false → contains (pathKey ++ ['=']) m = true →
      rewriteModFastdfs env m = pathKey ++ '=' :: storePath := fun m h1 h2 => rewriteModFastdfs_path (fun _ => h1) h2
  have hl := hrw l (not_startsWith_of_key plainKey_group h.key (by decide)) (contains_of_form h.form)
  refine h.gives_map (keepsGlobal_rewriteModFastdfs env) (hl ▸ hval) fun m hm v hc => ?_
  rcases rewriteModFastdfs_cases env m with hm' | ⟨x, -, hm'⟩ | hm' | ⟨w, -, hm'⟩
  · -- a line left alone that sets the path is the path's own line, which is not left alone
    have hkey : settingKey m = some pathKey := by
      rw [← hm', settingKey_eq_some, settingValue_of_item hc]; exact hc
    have := h.eq_of_key hm hkey
    subst this
    rw [hl, hval] at hc
    exact (Line.item.inj hc).2.symm
  · rw [hm', classify_assign plainKey_group] at hc
    exact absurd (Line.item.inj hc).1 (by decide)
  · rw [hm', hval] at hc
    exact (Line.item.inj hc).2.symm
  · rw [hm', classify_assign plainKey_serverPort] at hc
    exact absurd (Line.item.inj hc).1 (by decide)

/-- The value of `storage_server_port`: `ST_PORT`, or the one of line `l`. -/
def portValue (env : Env) (l : Text) : Text :=
  match env.stPort with
  | some w => settingValue (serverPortKey ++ '=' :: w.text)
  | none => settingValue l

/-- Which rewritten lines set the port, and to what. -/
theorem settingKey_serverPort_iff (hgm : ∀ w ∈ env.groupName, w.Alnum) (m : Text) :
    settingKey (rewriteModFastdfs env m) = some serverPortKey ↔
      contains (pathKey ++ ['=']) m = false ∧
      (env.groupName.isSome = true → startsWith (groupKey ++ ['=']) m = false) ∧
      (settingKey m = some serverPortKey ∨ (env.stPort.isSome = true ∧ contains (serverPortKey ++ ['=']) m = true)) := by
  by_cases h1 : env.groupName.isSome = true → startsWith (groupKey ++ ['=']) m = false
  · cases hc : contains (pathKey ++ ['=']) m with
    | true =>
      rw [rewriteModFastdfs_path h1 hc, settingKey_assign plainKey_path]
      exact iff_of_false (by decide) (by simp)
    | false =>
      rw [rewriteModFastdfs_port h1 hc]
      cases hst : env.stPort with
      | none => simpa [assign] using fun _ => h1
      | some w =>
        cases hc' : contains (serverPortKey ++ ['=']) m with
        | true =>
          rw [Option.map_some, assign_some hc', settingKey_assign plainKey_serverPort]
          exact iff_of_true rfl ⟨rfl, h1, .inr ⟨rfl, rfl⟩⟩
        | false =>
          rw [Option.map_some, assign_of_not _ hc']
          simpa using fun _ => h1
  · simp only [Classical.not_imp, Bool.not_eq_false] at h1
    obtain ⟨w, hw⟩ := Option.isSome_iff_exists.1 h1.1
    rw [rewriteModFastdfs_group hgm hw h1.2, settingKey_assign plainKey_group]
    refine iff_of_false (by decide) fun h2 => ?_
    rw [h2.2.1 h1.1] at h1
    cases h1.2

theorem gives_serverPort_iff {ls : List Text} {l : Text} (h : SetsOnce ls serverPortKey l)
    (hgm : ∀ w ∈ env.groupName, w.Alnum) (v : Text) :
    Gives (ls.map (rewriteModFastdfs env)) serverPortKey v ↔ PortKept env ls ∧ v = portValue env l := by
  -- every rewritten line that sets the port sets it to the same value
  have hval : ∀ m ∈ ls, ∀ v', classify (rewriteModFastdfs env m) = .item serverPortKey v' → v' = portValue env l := by
    intro m hm v' hc
    have hv := settingValue_of_item hc
    rcases rewriteModFastdfs_cases env m with hm' | ⟨x, -, hm'⟩ | hm' | ⟨w, hw, hm'⟩
    · have hkey : settingKey m = some serverPortKey := by
        rw [← hm', settingKey_eq_some, hv]; exact hc
      have hml := h.eq_of_key hm hkey
      subst hml
      cases hst : env.stPort with
      | none => rw [portValue, hst, ← hv, hm']
      | some w =>
        have h2 := (settingKey_serverPort_iff hgm m).1 (by rw [hm']; exact hkey)
        rw [rewriteModFastdfs_port h2.2.1 h2.1, hst, Option.map_some, assign_some (contains_of_form h.form)] at hv
        rw [portValue, hst, ← hv]
    · rw [hm', classify_assign plainKey_group] at hc
      exact absurd (Line.item.inj hc).1 (by decide)
    · rw [hm', classify_assign plainKey_path] at hc
      exact absurd (Line.item.inj hc).1 (by decide)
    · rw [portValue, hw, ← hv, hm']
  constructor
  · rintro ⟨hne, hall⟩
    obtain ⟨x, hx⟩ := List.exists_mem_of_ne_nil _ hne
    have hxv := hall x hx
    subst hxv
    obtain ⟨A, m, B, rfl, hs, hc⟩ := mem_globalValues_map.1 hx
    have hkey : settingKey (rewriteModFastdfs env m) = some serverPortKey := by
      rw [settingKey_eq_some, settingValue_of_item hc]; exact hc
    exact ⟨⟨A, m, B, rfl, hs, (settingKey_serverPort_iff hgm m).1 hkey⟩, hval m (by simp) x hc⟩
  · rintro ⟨⟨A, m, B, rfl, hs, hc⟩, rfl⟩
    have hkey := settingKey_eq_some.1 ((settingKey_serverPort_iff hgm m).2 hc)
    refine ⟨List.ne_nil_of_mem (mem_globalValues_map.2 ⟨A, m, B, rfl, hs, hkey⟩), fun v' hv' => ?_⟩
    obtain ⟨A', m', B', hAB, _, hc'⟩ := mem_globalValues_map.1 hv'
    exact hval m' (by rw [hAB]; simp) v' hc'

end

/-! ## The location in `nginx.conf` -/

section
variable (pat : Text)

theorem unlines_append_text (b ls : List Text) : unlines (Sed.append pat b ls) =
    ls.flatMap fun l => if Sed.selects pat l then l ++ '\n' :: unlines b else l ++ ['\n'] := by
  induction ls with
  | nil => rfl
  | cons l ls ih =>
    simp only [Sed.append, unlines, List.flatMap_cons, Lines.joined_append] at ih ⊢
    rw [ih]
    split <;> simp

theorem length_append_text (b ls : List Text) : (unlines (Sed.append pat b ls)).length =
    (unlines ls).length + (ls.filter (Sed.selects pat)).length * (unlines b).length := by
  induction ls with
  | nil => simp [Sed.append, unlines]
  | cons l ls ih =>
    rw [unlines_append_text] at ih ⊢
    rw [List.flatMap_cons, List.length_append, ih]
    by_cases h : Sed.selects pat l = true
    · simp [h, unlines]; ring
    · simp [h, unlines]; ring

/-- Two texts added after the same lines give the same file iff there is no such line or they are the same. -/
theorem unlines_append_inj {b b' : List Text} (ls : List Text) :
    unlines (Sed.append pat b ls) = unlines (Sed.append pat b' ls) ↔
      ((∃ l ∈ ls, Sed.selects pat l = true) → unlines b = unlines b') := by
  constructor
  · intro h hsel
    -- equal lengths first, so that the texts can be compared piece by piece
    have hlen : (unlines b).length = (unlines b').length := by
      have hl := congrArg List.length h
      rw [length_append_text, length_append_text] at hl
      have hpos : 0 < (ls.filter (Sed.selects pat)).length := by
        obtain ⟨l, hl, hs⟩ := hsel
        exact List.length_pos_of_mem (List.mem_filter.2 ⟨hl, hs⟩)
      exact Nat.eq_of_mul_eq_mul_left hpos (by omega)
    rw [unlines_append_text, unlines_append_text] at h
    induction ls with
    | nil => simp at hsel
    | cons l ls ih =>
      simp only [List.flatMap_cons] at h
      by_cases hs : Sed.selects pat l = true
      · simp only [hs, ↓reduceIte, List.append_assoc, List.cons_append, List.append_cancel_left_eq, List.cons.injEq,
          true_and] at h
        exact (List.append_inj h hlen).1
      · simp only [hs, Bool.false_eq_true, ↓reduceIte, List.append_cancel_left_eq] at h
        exact ih h (by simpa [hs] using hsel)
  · intro h
    by_cases hsel : ∃ l ∈ ls, Sed.selects pat l = true
    · rw [unlines_append_text, unlines_append_text, h hsel]
    · have hnone : ∀ l ∈ ls, Sed.selects pat l = false := by simpa using hsel
      have hid : ∀ b : List Text, Sed.append pat b ls = ls := by
        intro b
        simp only [Sed.append]
        rw [List.flatMap_congr (g := fun l => [l]) fun l hl => by simp [hnone l hl]]
        simp
      rw [hid, hid]

end

theorem unlines_locationBlock_inj (g g' d : Text) :
    unlines (locationBlock g d) = unlines (locationBlock g' d) ↔ g = g' := by
  constructor
  · intro h
    simp only [locationBlock, unlines, Lines.joined_cons, List.append_assoc, List.append_cancel_left_eq] at h
    exact List.append_cancel_right h
  · rintro rfl; rfl

/-- What holds of a line with a blank is not lost by `echo`. -/
theorem exists_echoLine {Q : Text → Prop} (hQ : ∀ w, Q w → ' ' ∈ w) (ws : List Text) :
    (∃ l ∈ ws.filterMap echoLine, Q l) ↔ ∃ w ∈ ws, Q w := by
  constructor
  · rintro ⟨l, hl, hq⟩
    obtain ⟨w, hw, he⟩ := List.mem_filterMap.1 hl
    unfold echoLine at he
    split at he
    · split at he
      · cases he
      · cases he; exact absurd (hQ _ hq) (by simp)
    · cases he; exact ⟨_, hw, hq⟩
  · rintro ⟨w, hw, hq⟩
    have ho : echoOption w ≠ true := fun ho => not_mem_of_echoOption ho (by decide) (hQ w hq)
    exact ⟨w, List.mem_filterMap.2 ⟨w, hw, by simp [echoLine, ho]⟩, hq⟩

theorem serverLine_iff (sed : Sed.TextArg) (env : Env) (template : Text) :
    (∃ l ∈ lines ((nginxBase sed env template).getD []), Sed.selects serverPat l = true) ↔
      ServerLine sed env template := by
  have hblank : ∀ w, Sed.selects serverPat w = true → ' ' ∈ w := fun w h => mem_of_selects h (by decide)
  have hblank' : ∀ w, Sed.selects serverNamePat w = true → ' ' ∈ w := fun w h => mem_of_selects h (by decide)
  have hdel : ∀ pat, (∀ w, Sed.selects pat w = true → ' ' ∈ w) →
      ((∃ l ∈ Sed.delete listenPat ((readLines template).filterMap echoLine), Sed.selects pat l = true) ↔
        ∃ l ∈ readLines template, Sed.selects pat l = true ∧ Sed.selects listenPat l = false) := by
    intro pat hpat
    have hQ : ∀ w, Sed.selects pat w = true ∧ Sed.selects listenPat w = false → ' ' ∈ w := fun w h => hpat w h.1
    rw [← exists_echoLine hQ]
    constructor
    · rintro ⟨l, hl, hs⟩
      obtain ⟨hl, hd⟩ := List.mem_filter.1 hl
      exact ⟨l, hl, hs, by simpa using hd⟩
    · rintro ⟨l, hl, hs, hd⟩
      exact ⟨l, List.mem_filter.2 ⟨hl, by simp [hd]⟩, hs⟩
  rw [lines_nginxBase, ServerLine]
  cases hn : env.ngxPort with
  | none =>
    simp only [Option.isSome_none, Bool.false_eq_true, false_imp_iff, and_true, Option.not_mem_none, false_and,
      exists_false, or_false]
    exact exists_echoLine hblank _
  | some port =>
    simp only [Option.isSome_some, forall_const, Option.mem_some_iff, exists_eq_left']
    cases hr : sed.read (listenArg port) with
    | none => simpa using hdel serverPat hblank
    | some new =>
      simp only [Option.some.injEq, exists_eq_left']
      rw [← hdel serverPat hblank, ← hdel serverNamePat hblank']
      constructor
      · rintro ⟨l, hl, hs⟩
        rcases Sed.mem_insert.1 hl with hl | ⟨hm, hl⟩
        · exact .inl ⟨l, hl, hs⟩
        · exact .inr ⟨⟨l, hl, hs⟩, hm⟩
      · rintro (⟨l, hl, hs⟩ | ⟨⟨l, hl, hs⟩, hm⟩)
        · exact ⟨l, Sed.mem_insert.2 (.inl hl), hs⟩
        · exact ⟨l, Sed.mem_insert.2 (.inr ⟨hm, hl⟩), hs⟩

/-- The added location is the one of group `g` iff no location is added or `g` is its group. -/
theorem start_nginx_iff (sed : Sed.TextArg) {env : Env} (hg : ∀ w ∈ env.groupName, w.Alnum) (t : Templates) (f : Files)
    (g : Text) :
    (start sed .storage env t f).nginx =
        Sed.inPlace (Sed.append serverPat (locationBlock g storePath)) (nginxBase sed env t.nginx) ↔
      (ServerLine sed env t.nginx → locationGroup env = g) := by
  rw [start_nginx sed hg, ← serverLine_iff]
  cases nginxBase sed env t.nginx with
  | none => exact iff_of_true rfl fun ⟨l, hl, _⟩ => by cases hl
  | some text =>
    simp only [Sed.inPlace, Option.map_some, Option.some.injEq, Option.getD_some]
    rw [unlines_append_inj, unlines_locationBlock_inj]

/-! ## The three files together -/

section
variable {env : Env} (hg : ∀ w ∈ env.groupName, w.Alnum) (hp : ∀ w ∈ env.stPort, w.Alnum)

theorem newline_not_mem_value {x : Option Word} (hx : ∀ w ∈ x, w.Alnum) : ∀ v ∈ x.map Word.text, '\n' ∉ v := by
  intro v hv
  obtain ⟨w, hw, rfl⟩ := Option.map_eq_some_iff.1 hv
  exact no_char_of_alnum (hx w hw) (by decide)

include hg hp

theorem gives_storage (template k v : Text) :
    Gives (lines ((writeLoop (rewriteStorage env) template none).getD [])) k v ↔
      Gives ((readLines template).map (rewriteStorage env)) k v := by
  refine gives_written (fun l hl => ?_) k v
  refine not_mem_assign (by decide) (by decide) (newline_not_mem_value hg) ?_
  exact not_mem_assign (by decide) (by decide) (newline_not_mem_value hp) (newline_not_mem_readLines hl)

theorem gives_modFastdfs (template k v : Text) :
    Gives (lines ((writeLoop (rewriteModFastdfs env) template none).getD [])) k v ↔
      Gives ((readLines template).map (rewriteModFastdfs env)) k v := by
  refine gives_written (fun l hl => ?_) k v
  refine not_mem_assign (by decide) (by decide) (newline_not_mem_value hp) ?_
  refine not_mem_assign (by decide) (by decide) (fun v hv => by cases hv; decide) ?_
  exact not_mem_assign (by decide) (by decide) (newline_not_mem_value hg) (newline_not_mem_readLines hl)

end

/-- The value of `group_name`: `GROUP_NAME`, or the one of line `l`. -/
def groupValue (env : Env) (l : Text) : Text :=
  match env.groupName with
  | some w => settingValue (groupKey ++ '=' :: w.text)
  | none => settingValue l

section
variable {env : Env} {ls : List Text} {l : Text}

theorem gives_rewriteStorage_iff {k : Text} (h : SetsOnce ls k l) (v : Text) :
    Gives (ls.map (rewriteStorage env)) k v ↔ v = settingValue (rewriteStorage env l) := by
  rw [gives_rewritten_iff h (keepsGlobal_rewriteStorage env) (fun m hm => by rwa [settingKey_rewriteStorage] at hm),
    settingKey_rewriteStorage]
  exact and_iff_right h.key

theorem gives_storage_group (h : SetsOnce ls groupKey l) (v : Text) :
    Gives (ls.map (rewriteStorage env)) groupKey v ↔ v = groupValue env l := by
  rw [gives_rewriteStorage_iff h, rewriteStorage,
    assign_of_not _ (not_startsWith_of_key plainKey_port h.key (by decide)), groupValue]
  cases env.groupName with
  | none => rfl
  | some w => rw [Option.map_some, assign_some (startsWith_of_form h.form)]

theorem gives_storage_port (h : SetsOnce ls portKey l) (v : Text) :
    Gives (ls.map (rewriteStorage env)) portKey v ↔ v = portValue env l := by
  have hng : ∀ m, settingKey m = some portKey → startsWith (groupKey ++ ['=']) m = false := fun m hm =>
    not_startsWith_of_key plainKey_group hm (by decide)
  rw [gives_rewriteStorage_iff h, rewriteStorage, portValue,
    assign_of_not _ (hng _ (by rw [settingKey_assign_startsWith plainKey_port, h.key]))]
  cases env.stPort with
  | none => rfl
  | some w =>
    simp only [Option.map_some, assign_some (startsWith_of_form h.form), settingValue_assign plainKey_port,
      settingValue_assign plainKey_serverPort]

theorem gives_storage_path (h : SetsOnce ls pathKey l) (v : Text) :
    Gives (ls.map (rewriteStorage env)) pathKey v ↔ v = settingValue l := by
  rw [gives_rewriteStorage_iff h, rewriteStorage,
    assign_of_not _ (not_startsWith_of_key plainKey_port h.key (by decide)),
    assign_of_not _ (not_startsWith_of_key plainKey_group h.key (by decide))]

theorem gives_modFastdfs_group (hg : ∀ w ∈ env.groupName, w.Alnum) (h : SetsOnce ls groupKey l) (v : Text) :
    Gives (ls.map (rewriteModFastdfs env)) groupKey v ↔
      (env.groupName = none → PassedBy env l) ∧ v = groupValue env l := by
  rw [gives_rewritten_iff h (keepsGlobal_rewriteModFastdfs env) settingKey_group_of_rewrite]
  cases hgn : env.groupName with
  | none =>
    rw [settingKey_group_none hgn h.key]
    have hval : PassedBy env l → settingValue (rewriteModFastdfs env l) = groupValue env l := fun hpass => by
      rw [rewriteModFastdfs_passedBy hgn hpass, groupValue, hgn]
    constructor
    · rintro ⟨hpass, rfl⟩
      exact ⟨fun _ => hpass, hval hpass⟩
    · rintro ⟨hpass, rfl⟩
      exact ⟨hpass rfl, (hval (hpass rfl)).symm⟩
  | some w =>
    rw [rewriteModFastdfs_group hg hgn (startsWith_of_form h.form), settingKey_assign plainKey_group, groupValue, hgn]
    simp

end

/-- The group of the location is the one of the files. -/
theorem locationGroup_eq_groupValue {env : Env} (hg : ∀ w ∈ env.groupName, w.Alnum) (l : Text) :
    locationGroup env = groupValue env l ↔ match env.groupName with
      | some w => w.text.length ≤ itemValueLen
      | none => settingValue l = "group1".toList := by
  cases hgn : env.groupName with
  | none =>
    rw [locationGroup, groupValue, hgn]
    exact eq_comm
  | some w =>
    have ha := hg w hgn
    rw [locationGroup_some hgn ha, groupValue, hgn]
    simp only
    rw [settingValue_assign_alnum plainKey_group ha, eq_comm, List.take_eq_self_iff]

/-- **The three files of a storage container describe the same server iff** the `storage.conf` template
has the fixed store path, its group is the one the added location has (`GROUP_NAME` within the reader's
limit, or `group1`), and the group and port lines of `mod_fastdfs.conf` survive the unanchored tests. -/
theorem storage_files_agree_iff (sed : Sed.TextArg) (env : Env) (t : Templates) (tracker storage nginx : Text)
    {sg sp sd mg mp md : Text} (hg : ∀ w ∈ env.groupName, w.Alnum) (hp : ∀ w ∈ env.stPort, w.Alnum)
    (hS : Describes ((lines t.storage).map stripBlanks) portKey sg sp sd)
    (hM : Describes ((lines t.modFastdfs).map stripBlanks) serverPortKey mg mp md)
    (hgroup : settingValue sg = settingValue mg) (hport : settingValue sp = settingValue mp)
    (rS : ReadBack t.storage) (rM : ReadBack t.modFastdfs) :
    SameServer (start sed .storage env t (fresh tracker storage nginx)) (nginxBase sed env t.nginx) ↔
      settingValue sd = storePath ∧ GroupKept sed env t.nginx sg mg ∧ PortKept env (readLines t.modFastdfs) := by
  have sG := rS groupKey (by decide) sg hS.group
  have sP := rS portKey (by decide) sp hS.port
  have sD := rS pathKey (by decide) sd hS.path
  have mG := rM groupKey (by decide) mg hM.group
  have mP := rM serverPortKey (by decide) mp hM.port
  have mD := rM pathKey (by decide) md hM.path
  have hgv : groupValue env mg = groupValue env sg := by
    unfold groupValue; cases env.groupName <;> simp [hgroup]
  have hpv : portValue env mp = portValue env sp := by
    unfold portValue; cases env.stPort <;> simp [hport]
  have hstorage : (start sed .storage env t (fresh tracker storage nginx)).storage =
    writeLoop (rewriteStorage env) t.storage none := rfl
  have hmod : (start sed .storage env t (fresh tracker storage nginx)).modFastdfs =
    writeLoop (rewriteModFastdfs env) t.modFastdfs none := rfl
  have hkept : GroupKept sed env t.nginx sg mg ↔ (env.groupName = none → PassedBy env mg) ∧
      (ServerLine sed env t.nginx → locationGroup env = groupValue env sg) := by
    rw [locationGroup_eq_groupValue hg sg, GroupKept]
    cases env.groupName <;> simp
  simp only [SameServer, hstorage, hmod, gives_storage hg hp, gives_modFastdfs hg hp, gives_storage_group sG,
    gives_storage_port sP, gives_storage_path sD, gives_modFastdfs_group hg mG, gives_serverPort_iff mP hg, hgv, hpv,
    (gives_path mD).iff_eq, hkept]
  constructor
  · rintro ⟨g, p, d, ⟨rfl, hpass, -⟩, ⟨rfl, hkp, -⟩, ⟨rfl, hd⟩, hn⟩
    rw [hd, start_nginx_iff sed hg] at hn
    exact ⟨hd, ⟨hpass, hn⟩, hkp⟩
  · rintro ⟨hd, ⟨hpass, hn⟩, hkp⟩
    refine ⟨_, _, _, ⟨rfl, hpass, rfl⟩, ⟨rfl, hkp, rfl⟩, ⟨rfl, hd⟩, ?_⟩
    rw [hd]
    exact (start_nginx_iff sed hg t _ _).2 hn

/-- Templates with the three settings each; the store path of `storage.conf` is `path`. -/
def serverTemplates (path : Text) : Templates where
  tracker := []
  storage := "group_name=group1\nport=23000\nstore_path0=".toList ++ path ++ ['\n']
  modFastdfs := "group_name=group1\nstorage_server_port=23000\nstore_path0=/home/yuqing/fastdfs\n".toList
  nginx := "server \x7b\n\x7d\n".toList

theorem serverTemplates_fixed_path_agree :
    (∀ w ∈ some groupWord, w.Alnum) ∧ (∀ w ∈ some portWord, w.Alnum) ∧
    Describes ((lines (serverTemplates storePath).storage).map stripBlanks) portKey "group_name=group1".toList
      "port=23000".toList "store_path0=/fastdfs/store_path".toList ∧
    Describes ((lines (serverTemplates storePath).modFastdfs).map stripBlanks) serverPortKey "group_name=group1".toList
      "storage_server_port=23000".toList "store_path0=/home/yuqing/fastdfs".toList ∧
    ReadBack (serverTemplates storePath).storage ∧ ReadBack (serverTemplates storePath).modFastdfs ∧
    SameServer (start .basic .storage ⟨none, some portWord, none, some groupWord⟩ (serverTemplates storePath)
        (fresh [] [] []))
      (nginxBase .basic ⟨none, some portWord, none, some groupWord⟩ (serverTemplates storePath).nginx) := by
  have hg : ∀ w ∈ some groupWord, w.Alnum := by rintro w h; cases h; decide
  have hp : ∀ w ∈ some portWord, w.Alnum := by rintro w h; cases h; decide
  have hS : Describes ((lines (serverTemplates storePath).storage).map stripBlanks) portKey "group_name=group1".toList
      "port=23000".toList "store_path0=/fastdfs/store_path".toList := by decide
  have hM : Describes ((lines (serverTemplates storePath).modFastdfs).map stripBlanks) serverPortKey
      "group_name=group1".toList "storage_server_port=23000".toList "store_path0=/home/yuqing/fastdfs".toList := by decide
  have rS : ReadBack (serverTemplates storePath).storage := readBack_of_copied (by decide)
  have rM : ReadBack (serverTemplates storePath).modFastdfs :=
    readBack_of_copied (by decide)
  refine ⟨hg, hp, hS, hM, rS, rM, ?_⟩
  refine (storage_files_agree_iff .basic _ (serverTemplates storePath) [] [] [] hg hp hS hM rfl rfl rS rM).2 ⟨?_, ?_, ?_⟩
  · decide
  · exact fun _ => by decide
  · exact ⟨["group_name=group1".toList], "storage_server_port=23000".toList, ["store_path0=/home/yuqing/fastdfs".toList],
      by decide, by decide, by decide, by decide, .inl (by decide)⟩

/-- `storage.conf` keeps its store path, `mod_fastdfs.conf` gets the fixed one. -/
theorem other_store_path_disagrees :
    Describes ((lines (serverTemplates "/data0".toList).storage).map stripBlanks) portKey "group_name=group1".toList
      "port=23000".toList "store_path0=/data0".toList ∧
    Describes ((lines (serverTemplates "/data0".toList).modFastdfs).map stripBlanks) serverPortKey
      "group_name=group1".toList "storage_server_port=23000".toList "store_path0=/home/yuqing/fastdfs".toList ∧
    ¬ SameServer (start .basic .storage ⟨none, none, none, none⟩ (serverTemplates "/data0".toList) (fresh [] [] []))
      (nginxBase .basic ⟨none, none, none, none⟩ (serverTemplates "/data0".toList).nginx) := by
  refine ⟨by decide, by decide, ?_⟩
  rintro ⟨g, p, d, -, -, ⟨hs, hm⟩, -⟩
  have h1 : "/data0".toList = d := Gives.unique (by decide) hs
  have h2 : storePath = d := Gives.unique (by decide) hm
  rw [← h2] at h1
  exact absurd h1 (by decide)

end HahaDog.Entrypoint
