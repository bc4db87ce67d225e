import HahaDogOps.Shell.Sed
/-!
# `fastdfs/FastDFS/entrypoint.sh`: the files a container start generates

| here | there |
| --- | --- |
| `Env`, `Word`         | the variables `TR_PORT`, `ST_PORT`, `NGX_PORT`, `GROUP_NAME` given to `docker run -e` (`fastdfs/run.sh`) |
| `assign`              | `[[ "${arr[$i]}" == "key="* ]] && arr[$i]="key=..."`, and the same with `=~ "key="` |
| `trackerConf`         | `/etc/fdfs/tracker.conf` (`entrypoint.sh:29-43`) |
| `storageConf`         | `/etc/fdfs/storage.conf` (`:63-80`) |
| `modFastdfsConf`      | `/etc/fdfs/mod_fastdfs.conf` (`:90-107`) |
| `nginxConf`           | `/usr/local/nginx/nginx.conf` (`:109-129`) |
| `start`               | one run of the script with argument `tracker` or `storage` |

Only the four generated files are kept: the log files and the daemons the script starts touch none
of them. A variable is unset or one word. `[ ${X} ]` has no argument in the first case and one
non-empty argument in the second.
-/

namespace HahaDog.Entrypoint

open Shell

/-- A value that its unquoted expansion leaves as one word: no field separator, no pathname pattern. -/
structure Word where
  text : Text
  ne : text ≠ []
  noSplit : ∀ c ∈ text, isBlank c = false ∧ c ≠ '\n'
  noGlob : ∀ c ∈ text, c ≠ '*' ∧ c ≠ '?' ∧ c ≠ '['

/-- Letters and digits only. -/
def Word.Alnum (w : Word) : Prop := ∀ c ∈ w.text, c.isAlphanum = true

instance (w : Word) : Decidable w.Alnum := inferInstanceAs (Decidable (∀ c ∈ w.text, c.isAlphanum = true))

/-- `$(echo $X)`: the word, or nothing when `echo` takes it as options. -/
def Word.echoed (w : Word) : Text := if echoOption w.text then [] else w.text

/-- The word `23000`. -/
def portWord : Word := ⟨"23000".toList, by decide, by decide, by decide⟩

/-- The word `group2`. -/
def groupWord : Word := ⟨"group2".toList, by decide, by decide, by decide⟩

structure Env where
  trPort : Option Word
  stPort : Option Word
  ngxPort : Option Word
  groupName : Option Word

/-- The four files under `/fdfs_conf`. -/
structure Templates where
  tracker : Text
  storage : Text
  modFastdfs : Text
  nginx : Text

/-- The four generated files; `none` is a file that does not exist. -/
structure Files where
  tracker : Option Text
  storage : Option Text
  modFastdfs : Option Text
  nginx : Option Text
deriving DecidableEq

inductive Role where
  | tracker
  | storage
deriving DecidableEq, Repr

/-! ## Rewriting one line -/

/-- `[[ "$l" == "pat"* ]]` -/
def startsWith (pat l : Text) : Bool := pat.isPrefixOf l

/-- `[[ "$l" =~ "pat" ]]`, where a quoted pattern is a literal. -/
def contains (pat l : Text) : Bool := decide (pat <:+: l)

/-- A line that passes the test for `key=` becomes `key=value`; nothing happens without a value. -/
def assign (test : Text → Text → Bool) (key : Text) (value : Option Text) (l : Text) : Text :=
  match value with
  | some v => if test (key ++ ['=']) l then key ++ '=' :: v else l
  | none => l

def portKey : Text := "port".toList
def groupKey : Text := "group_name".toList
def pathKey : Text := "store_path0".toList
def serverPortKey : Text := "storage_server_port".toList
def storePath : Text := "/fastdfs/store_path".toList

/-- `entrypoint.sh:39-41` -/
def rewriteTracker (env : Env) (l : Text) : Text := assign startsWith portKey (env.trPort.map Word.text) l

/-- `entrypoint.sh:73-78` -/
def rewriteStorage (env : Env) (l : Text) : Text :=
  assign startsWith groupKey (env.groupName.map Word.text)
    (assign startsWith portKey (env.stPort.map Word.text) l)

/-- `entrypoint.sh:99-105`. The last two tests are not anchored. -/
def rewriteModFastdfs (env : Env) (l : Text) : Text :=
  assign contains serverPortKey (env.stPort.map Word.text)
    (assign contains pathKey (some storePath)
      (assign startsWith groupKey (env.groupName.map Word.text) l))

/-! ## Writing the files -/

/-- `rm file` -/
def rm (_ : Option Text) : Option Text := none

/-- Both loops: read the template, rewrite each line, append it to the file. -/
def writeLoop (rewrite : Text → Text) (template : Text) (file : Option Text) : Option Text :=
  ((readLines template).map rewrite).foldl appendLine file

def trackerConf (env : Env) (template : Text) (file : Option Text) : Option Text :=
  writeLoop (rewriteTracker env) template (rm file)

def storageConf (env : Env) (template : Text) (file : Option Text) : Option Text :=
  writeLoop (rewriteStorage env) template (rm file)

/-- There is no `rm` between the loops of `mod_fastdfs.conf`. -/
def modFastdfsConf (env : Env) (template : Text) (file : Option Text) : Option Text :=
  writeLoop (rewriteModFastdfs env) template file

def listenPat : Text := "listen".toList
def serverNamePat : Text := "server_name  localhost;".toList
def serverPat : Text := "server \x7b".toList

/-- The text of the `i` command (`entrypoint.sh:123`). -/
def listenArg (port : Word) : Text := "listen ".toList ++ port.echoed ++ [';']

/-- The text of the `a` command (`entrypoint.sh:126`, `:128`). -/
def locationArg (group : Text) : Text :=
  "location /".toList ++ group ++ "/M00 \x7b\\nroot /fastdfs/store_path/data;\\nngx_fastdfs_module;\\n\x7d".toList

/-- The group in the added location: `GROUP_NAME`, or `group1` when it is unset. -/
def locationGroup (env : Env) : Text :=
  match env.groupName with
  | some g => g.echoed
  | none => "group1".toList

/-- `sed -i` with an `i` or `a` command whose text is `arg`. -/
def sedText (sed : Sed.TextArg) (edit : List Text → List Text → List Text) (arg : Text) (file : Option Text) :
    Option Text :=
  match sed.read arg with
  | some new => Sed.inPlace (edit new) file
  | none => file

/-- `entrypoint.sh:121-124` -/
def editListen (sed : Sed.TextArg) (env : Env) (file : Option Text) : Option Text :=
  match env.ngxPort with
  | some p => sedText sed (Sed.insert serverNamePat) (listenArg p) (Sed.inPlace (Sed.delete listenPat) file)
  | none => file

/-- `entrypoint.sh:125-129` -/
def editLocation (sed : Sed.TextArg) (env : Env) (file : Option Text) : Option Text :=
  sedText sed (Sed.append serverPat) (locationArg (locationGroup env)) file

def nginxConf (sed : Sed.TextArg) (env : Env) (template : Text) (file : Option Text) : Option Text :=
  editLocation sed env (editListen sed env (writeLoop id template (rm file)))

/-- One container start (`entrypoint.sh:26-57`, `:60-138`). -/
def start (sed : Sed.TextArg) (role : Role) (env : Env) (t : Templates) (f : Files) : Files :=
  match role with
  | .tracker => { f with tracker := trackerConf env t.tracker f.tracker }
  | .storage =>
    { f with
      storage := storageConf env t.storage f.storage
      modFastdfs := modFastdfsConf env t.modFastdfs f.modFastdfs
      nginx := nginxConf sed env t.nginx f.nginx }

/-! ## Small facts -/

theorem no_char_of_alnum {w : Word} (h : w.Alnum) {c : Char} (hc : c.isAlphanum = false) : c ∉ w.text :=
  fun hm => by rw [h c hm] at hc; cases hc

theorem listenArg_eq (port : Word) : listenArg port = "listen ".toList ++ port.echoed ++ [';'] := rfl

theorem assign_cases (test : Text → Text → Bool) (key : Text) (value : Option Text) (l : Text) :
    assign test key value l = l ∨
      ∃ v, value = some v ∧ test (key ++ ['=']) l = true ∧ assign test key value l = key ++ '=' :: v := by
  unfold assign
  cases value with
  | none => exact .inl rfl
  | some v =>
    by_cases h : test (key ++ ['=']) l = true
    · exact .inr ⟨v, rfl, h, by simp [h]⟩
    · exact .inl (by simp [h])

theorem assign_of_not {test : Text → Text → Bool} {key : Text} (value : Option Text) {l : Text}
    (h : test (key ++ ['=']) l = false) : assign test key value l = l := by
  unfold assign; cases value <;> simp [h]

theorem assign_some {test : Text → Text → Bool} {key v l : Text} (h : test (key ++ ['=']) l = true) :
    assign test key (some v) l = key ++ '=' :: v := by
  simp [assign, h]

theorem eq_mem_of_startsWith {key l : Text} (h : startsWith (key ++ ['=']) l = true) : '=' ∈ l := by
  obtain ⟨r, rfl⟩ := List.isPrefixOf_iff_prefix.1 h
  simp

theorem eq_mem_of_contains {key l : Text} (h : contains (key ++ ['=']) l = true) : '=' ∈ l := by
  obtain ⟨a, b, rfl⟩ := of_decide_eq_true h
  simp

/-- A line without `'='` passes no test. -/
theorem rewriteModFastdfs_of_no_eq (env : Env) {l : Text} (h : '=' ∉ l) : rewriteModFastdfs env l = l := by
  have hs : ∀ key, startsWith (key ++ ['=']) l = false := fun key =>
    Bool.eq_false_iff.2 fun hp => h (eq_mem_of_startsWith hp)
  have hc : ∀ key, contains (key ++ ['=']) l = false := fun key =>
    Bool.eq_false_iff.2 fun hp => h (eq_mem_of_contains hp)
  simp only [rewriteModFastdfs, assign_of_not _ (hs _), assign_of_not _ (hc _)]

/-- What the loops append for a template they copy line by line. -/
theorem echo_rewritten {t : Text} (ht : Copied t) {rewrite : Text → Text}
    (ho : ∀ l ∈ lines t, echoOption (rewrite (stripBlanks l)) = false) :
    ((readLines t).map rewrite).flatMap echo = unlines ((lines t).map fun l => rewrite (stripBlanks l)) := by
  have hmap : (readLines t).map rewrite = (lines t).map fun l => rewrite (stripBlanks l) := by
    rw [ht.readLines_eq, List.map_map]; rfl
  rw [hmap, flatMap_echo_eq_iff]
  intro w hw
  obtain ⟨l, hl, rfl⟩ := List.mem_map.1 hw
  exact ho l hl

end HahaDog.Entrypoint
