import HahaDogOps.Entrypoint.Model
/-!
# The lines of a generated `nginx.conf` (`entrypoint.sh:109-129`)

The file is copied, then edited by `sed`: `nginxBase` is the file before the last edit, `locationBlock` what
that edit adds for a group of letters and digits (`start_nginx`). What sed makes of a port is left open
(`lines_nginxBase`).
-/

namespace HahaDog.Entrypoint

open Shell

/-- The block for group `g` with the files under `d`. -/
def locationBlock (g d : Text) : List Text :=
  ["location /".toList ++ g ++ "/M00 \x7b".toList, "root ".toList ++ d ++ "/data;".toList,
    "ngx_fastdfs_module;".toList, "\x7d".toList]

/-- `nginx.conf` before the last `sed` adds the location. -/
def nginxBase (sed : Sed.TextArg) (env : Env) (template : Text) : Option Text :=
  editListen sed env (writeLoop id template none)

/-! ## The added location -/

theorem intercalate_four (sep a b c d : Text) :
    List.intercalate sep [a, b, c, d] = a ++ (sep ++ (b ++ (sep ++ (c ++ (sep ++ d))))) := by
  simp [List.intercalate]

/-- The text behind the group, cut where `\n` stands. -/
theorem locationArg_tail : "/M00 \x7b\\nroot /fastdfs/store_path/data;\\nngx_fastdfs_module;\\n\x7d".toList =
    "/M00 \x7b".toList ++ (['\\', 'n'] ++ (("root ".toList ++ storePath ++ "/data;".toList) ++
      (['\\', 'n'] ++ ("ngx_fastdfs_module;".toList ++ (['\\', 'n'] ++ "\x7d".toList))))) := by decide

theorem locationArg_eq (g : Text) : locationArg g = List.intercalate ['\\', 'n'] (locationBlock g storePath) := by
  have hcut := congrArg (fun tail => "location /".toList ++ g ++ tail) locationArg_tail
  rw [← List.append_assoc] at hcut
  exact hcut.trans (intercalate_four _ _ _ _ _).symm

theorem read_locationArg (sed : Sed.TextArg) {g : Text} (hb : '\\' ∉ g) :
    sed.read (locationArg g) = some (locationBlock g storePath) := by
  rw [locationArg_eq]
  refine sed.read_newlines _ (by simp [locationBlock]) ?_
  simp only [locationBlock, List.forall_mem_cons, List.mem_append, not_or, List.not_mem_nil, false_imp_iff, implies_true,
    and_true]
  exact ⟨⟨⟨by decide, hb⟩, by decide⟩, by decide, by decide, by decide⟩

/-- `echo` takes no word of letters and digits as options. -/
theorem Word.Alnum.echoed {w : Word} (ha : w.Alnum) : w.echoed = w.text := by
  have ho : echoOption w.text = false := by
    by_contra ho
    rw [Bool.not_eq_false] at ho
    unfold echoOption at ho
    split at ho
    · rename_i heq
      have := ha '-' (by rw [heq]; simp)
      exact absurd this (by decide)
    · cases ho
  simp [Word.echoed, ho]

theorem locationGroup_some {env : Env} {w : Word} (hw : env.groupName = some w) (ha : w.Alnum) :
    locationGroup env = w.text := by
  simp [locationGroup, hw, ha.echoed]

theorem backslash_not_mem_locationGroup {env : Env} (hg : ∀ w ∈ env.groupName, w.Alnum) :
    '\\' ∉ locationGroup env := by
  cases hgn : env.groupName with
  | none => rw [locationGroup, hgn]; decide
  | some w =>
    rw [locationGroup_some hgn (hg w hgn)]
    exact no_char_of_alnum (hg w hgn) (by decide)

theorem start_nginx (sed : Sed.TextArg) {env : Env} (hg : ∀ w ∈ env.groupName, w.Alnum) (t : Templates) (f : Files) :
    (start sed .storage env t f).nginx =
      Sed.inPlace (Sed.append serverPat (locationBlock (locationGroup env) storePath)) (nginxBase sed env t.nginx) := by
  simp only [start, nginxConf, editLocation, sedText, read_locationArg sed (backslash_not_mem_locationGroup hg)]
  rfl

/-! ## The lines before it is added -/

theorem mem_of_selects {pat l : Text} (h : Sed.selects pat l = true) {c : Char} (hc : c ∈ pat) : c ∈ l :=
  (of_decide_eq_true h).subset hc

theorem lines_copied (template : Text) :
    lines ((writeLoop id template none).getD []) = (readLines template).filterMap echoLine := by
  rw [writeLoop, foldl_appendLine, Option.getD_none, List.nil_append, List.map_id]
  exact lines_flatMap_echo fun w hw => newline_not_mem_readLines hw

theorem newline_not_mem_listenArg (port : Word) : '\n' ∉ listenArg port := by
  have hw : '\n' ∉ port.echoed := by
    unfold Word.echoed
    split
    · simp
    · exact fun hm => (port.noSplit _ hm).2 rfl
  rw [listenArg_eq, List.mem_append, List.mem_append]
  rintro ((h | h) | h)
  · exact absurd h (by decide)
  · exact hw h
  · exact absurd h (by decide)

/-- The lines of `nginx.conf` before the location is added. -/
theorem lines_nginxBase (sed : Sed.TextArg) (env : Env) (template : Text) :
    lines ((nginxBase sed env template).getD []) =
      match env.ngxPort with
      | none => (readLines template).filterMap echoLine
      | some port =>
        match sed.read (listenArg port) with
        | none => Sed.delete listenPat ((readLines template).filterMap echoLine)
        | some new => Sed.insert serverNamePat new (Sed.delete listenPat ((readLines template).filterMap echoLine)) := by
  have hbase : ∀ l ∈ (readLines template).filterMap echoLine, '\n' ∉ l := by
    intro l hl
    rw [← lines_copied] at hl
    exact Lines.sep_not_mem_pieces '\n' hl
  have hdel : lines ((Sed.inPlace (Sed.delete listenPat) (writeLoop id template none)).getD []) =
      Sed.delete listenPat ((readLines template).filterMap echoLine) := by
    rw [← lines_copied] at hbase ⊢
    exact Sed.lines_inPlace rfl fun l hl => hbase l (List.mem_filter.1 hl).1
  unfold nginxBase editListen
  cases env.ngxPort with
  | none => exact lines_copied template
  | some port =>
    simp only [sedText]
    cases hr : sed.read (listenArg port) with
    | none => exact hdel
    | some new =>
      simp only
      rw [Sed.lines_inPlace rfl, hdel]
      intro l hl
      rw [hdel] at hl
      rcases Sed.mem_insert.1 hl with hl | ⟨_, hl⟩
      · exact hbase l (List.mem_filter.1 hl).1
      · exact sed.read_line _ _ hr (newline_not_mem_listenArg port) l hl

end HahaDog.Entrypoint
