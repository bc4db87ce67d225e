import HahaDogOps.Ini.Reader
/-!
# What the lines of a file assign

`Reader` loads a file into a context. Here a file is looked at line by line: which lines are settings,
of which key, and in which section each stands. `globalValues` are the values a lookup outside
sections can find. Included files are not looked into.
-/

namespace HahaDog.Ini

/-- The key of a line the reader takes for a setting. -/
def settingKey (l : Text) : Option Text :=
  match classify l with
  | .item k _ => some k
  | _ => none

/-- The value of a setting. -/
def settingValue (l : Text) : Text :=
  match classify l with
  | .item _ v => v
  | _ => []

/-- The section a line leaves the reader in. -/
def nextSection (sec l : Text) : Text :=
  match classify l with
  | .sect name => name
  | _ => sec

/-- The section after some lines. -/
def sectionAfter (sec : Text) (ls : List Text) : Text := ls.foldl nextSection sec

/-- The lines that set `k`, each with the section it stands in; the empty name is outside sections. -/
def settingLines (k : Text) : Text → List Text → List (Text × Text)
  | _, [] => []
  | sec, l :: ls =>
    if settingKey l = some k then (sec, l) :: settingLines k (nextSection sec l) ls
    else settingLines k (nextSection sec l) ls

/-- The values of `k` outside sections. -/
def globalValues (k : Text) (ls : List Text) : List Text :=
  ((settingLines k [] ls).filter fun x => x.1 == []).map fun x => settingValue x.2

/-! ## One line -/

theorem settingKey_assign {k : Text} (hk : PlainKey k) (v : Text) : settingKey (k ++ '=' :: v) = some k := by
  rw [settingKey, classify_assign hk]

theorem settingKey_of_include {l : Text} (h : isInclude l = true) : settingKey l = none := by
  simp [settingKey, classify, h]

theorem settingKey_of_hash {l : Text} (h : (trim l).head? = some '#') : settingKey l = none := by
  by_cases hi : isInclude l = true
  · exact settingKey_of_include hi
  · simp [settingKey, classify, hi, classifyTrimmed, h]

theorem hash_of_include {l : Text} (h : isInclude l = true) : (trim l).head? = some '#' := by
  cases l with
  | nil => cases h
  | cons c l =>
    have hc : c = '#' := by
      by_contra hc
      rw [isInclude_eq_false (by simpa using hc)] at h
      cases h
    subst hc
    have := Lines.strip_append_of_tight isSpace (x := ['#']) (Lines.tight_of_all_not _ (by decide)) (by simp) l
    rw [trim, ← List.singleton_append, this]; rfl

/-- A line is a setting iff it is one after stripping, of the same key. -/
theorem settingKey_stripBlanks (l : Text) : settingKey (stripBlanks l) = settingKey l := by
  by_cases h1 : isInclude l = true
  · have hh := hash_of_include h1
    rw [settingKey_of_include h1, settingKey_of_hash (by rwa [trim_stripBlanks])]
  · by_cases h2 : isInclude (stripBlanks l) = true
    · have hh := hash_of_include h2
      rw [settingKey_of_include h2, settingKey_of_hash (by rwa [trim_stripBlanks] at hh)]
    · simp [settingKey, classify, h1, h2, trim_stripBlanks]

theorem settingKey_eq_some {l k : Text} : settingKey l = some k ↔ classify l = .item k (settingValue l) := by
  unfold settingKey settingValue
  cases classify l <;> simp

theorem settingValue_of_item {l k v : Text} (h : classify l = .item k v) : settingValue l = v := by
  rw [settingValue, h]

/-! ## All lines -/

theorem mem_settingLines {k : Text} {sec' l : Text} : ∀ {ls : List Text} {sec : Text},
    (sec', l) ∈ settingLines k sec ls ↔
      ∃ A B, ls = A ++ l :: B ∧ sectionAfter sec A = sec' ∧ settingKey l = some k
  | [], sec => by simp [settingLines]
  | m :: ls, sec => by
    have ih := @mem_settingLines k sec' l ls (nextSection sec m)
    constructor
    · intro h
      rw [settingLines] at h
      have htail : (sec', l) ∈ settingLines k (nextSection sec m) ls →
          ∃ A B, m :: ls = A ++ l :: B ∧ sectionAfter sec A = sec' ∧ settingKey l = some k := by
        intro h
        obtain ⟨A, B, rfl, hs, hk⟩ := ih.1 h
        exact ⟨m :: A, B, rfl, hs, hk⟩
      split at h
      · rename_i hk
        rcases List.mem_cons.1 h with h | h
        · cases h; exact ⟨[], ls, rfl, rfl, hk⟩
        · exact htail h
      · exact htail h
    · rintro ⟨A, B, h, hs, hk⟩
      rw [settingLines]
      cases A with
      | nil =>
        cases h; cases hs
        rw [if_pos hk]; exact List.mem_cons_self
      | cons a A =>
        cases h
        have := ih.2 ⟨A, B, rfl, hs, hk⟩
        split
        · exact List.mem_cons_of_mem _ this
        · exact this

/-- A value outside sections comes from a line with no section open before it. -/
theorem mem_globalValues {k v : Text} {ls : List Text} :
    v ∈ globalValues k ls ↔ ∃ A l B, ls = A ++ l :: B ∧ sectionAfter [] A = [] ∧ classify l = .item k v := by
  simp only [globalValues, List.mem_map, List.mem_filter, Prod.exists, beq_iff_eq]
  constructor
  · rintro ⟨sec, l, ⟨hm, rfl⟩, rfl⟩
    obtain ⟨A, B, h, hs, hk⟩ := mem_settingLines.1 hm
    exact ⟨A, l, B, h, hs, settingKey_eq_some.1 hk⟩
  · rintro ⟨A, l, B, h, hs, hc⟩
    have hv := settingValue_of_item hc
    exact ⟨[], l, ⟨mem_settingLines.2 ⟨A, B, h, hs, settingKey_eq_some.2 (hv ▸ hc)⟩, rfl⟩, hv⟩

/-- The lines give `k` the value `v` outside sections, and no other. -/
def Gives (ls : List Text) (k v : Text) : Prop := globalValues k ls ≠ [] ∧ ∀ v' ∈ globalValues k ls, v' = v

instance (ls : List Text) (k v : Text) : Decidable (Gives ls k v) :=
  inferInstanceAs (Decidable (_ ∧ ∀ v' ∈ globalValues k ls, v' = v))

theorem Gives.unique {ls : List Text} {k v v' : Text} (h : Gives ls k v) (h' : Gives ls k v') : v = v' := by
  obtain ⟨x, hx⟩ := List.exists_mem_of_ne_nil _ h.1
  rw [← h.2 x hx, h'.2 x hx]

theorem Gives.iff_eq {ls : List Text} {k v : Text} (h : Gives ls k v) (v' : Text) : Gives ls k v' ↔ v' = v :=
  ⟨fun h' => h'.unique h, fun e => e ▸ h⟩

/-- `k` is set by the line `l` only, which has the form `key=value` and stands outside sections. -/
@[mk_iff] structure SetsOnce (ls : List Text) (k l : Text) : Prop where
  once : settingLines k [] ls = [([], l)]
  form : k ++ ['='] <+: l

instance (ls : List Text) (k l : Text) : Decidable (SetsOnce ls k l) := decidable_of_iff _ (setsOnce_iff ls k l).symm

section
variable {ls : List Text} {k l : Text} (h : SetsOnce ls k l)
include h

theorem SetsOnce.split : ∃ A B, ls = A ++ l :: B ∧ sectionAfter [] A = [] ∧ settingKey l = some k :=
  mem_settingLines.1 (by rw [h.once]; exact List.mem_singleton.2 rfl)

theorem SetsOnce.key : settingKey l = some k := by
  obtain ⟨_, _, _, _, hk⟩ := h.split; exact hk

theorem SetsOnce.mem : l ∈ ls := by
  obtain ⟨A, B, rfl, _, _⟩ := h.split; simp

theorem SetsOnce.eq_of_key {m : Text} (hm : m ∈ ls) (hk : settingKey m = some k) : m = l := by
  obtain ⟨A, B, hAB⟩ := List.append_of_mem hm
  have hmem : (sectionAfter [] A, m) ∈ settingLines k [] ls := mem_settingLines.2 ⟨A, B, hAB, rfl, hk⟩
  rw [h.once, List.mem_singleton] at hmem
  exact (Prod.mk.inj hmem).2

end

/-! ## Lines rewritten one by one -/

/-- A rewriting opens no section, and keeps the headers that lead back outside sections. -/
structure KeepsGlobal (rw : Text → Text) : Prop where
  opens : ∀ l name, classify (rw l) = .sect name → classify l = .sect name
  closes : ∀ l, classify l = .sect [] → classify (rw l) = .sect []

theorem KeepsGlobal.next {rw : Text → Text} (h : KeepsGlobal rw) {s s' : Text} (hs : s = [] → s' = [])
    (l : Text) (h0 : nextSection s l = []) : nextSection s' (rw l) = [] := by
  unfold nextSection at h0 ⊢
  cases hc : classify l with
  | sect name =>
    simp only [hc] at h0
    rw [h.closes l (by rw [hc, h0])]
  | _ =>
    simp only [hc] at h0
    split
    · rename_i name hc'
      rw [h.opens l name hc'] at hc; cases hc
    · exact hs h0

theorem KeepsGlobal.after {rw : Text → Text} (h : KeepsGlobal rw) : ∀ {A : List Text} {s s' : Text},
    (s = [] → s' = []) → sectionAfter s A = [] → sectionAfter s' (A.map rw) = []
  | [], _, _, hs, h0 => hs h0
  | l :: A, s, s', hs, h0 => by
    have h1 : nextSection s l = [] → nextSection s' (rw l) = [] := fun h1 => h.next hs l h1
    exact KeepsGlobal.after (A := A) h h1 h0

theorem mem_globalValues_map {k v : Text} {rw : Text → Text} {ls : List Text} :
    v ∈ globalValues k (ls.map rw) ↔
      ∃ A l B, ls = A ++ l :: B ∧ sectionAfter [] (A.map rw) = [] ∧ classify (rw l) = .item k v := by
  rw [mem_globalValues]
  constructor
  · rintro ⟨A', l', B', h, hs, hc⟩
    obtain ⟨A, R, rfl, rfl, hR⟩ := List.map_eq_append_iff.1 h
    obtain ⟨l, B, rfl, rfl, rfl⟩ := List.map_eq_cons_iff.1 hR
    exact ⟨A, l, B, rfl, hs, hc⟩
  · rintro ⟨A, l, B, rfl, hs, hc⟩
    exact ⟨A.map rw, rw l, B.map rw, by simp, hs, hc⟩

/-- What a rewriting makes of a key that is set once. -/
theorem SetsOnce.gives_map {ls : List Text} {k l v : Text} (h : SetsOnce ls k l) {rw : Text → Text}
    (hrw : KeepsGlobal rw) (hl : classify (rw l) = .item k v)
    (hall : ∀ m ∈ ls, ∀ v', classify (rw m) = .item k v' → v' = v) : Gives (ls.map rw) k v := by
  obtain ⟨A, B, hAB, hs, _⟩ := h.split
  refine ⟨List.ne_nil_of_mem (mem_globalValues_map.2 ⟨A, l, B, hAB, hrw.after id hs, hl⟩), fun v' hv => ?_⟩
  obtain ⟨A', m, B', rfl, _, hc⟩ := mem_globalValues_map.1 hv
  exact hall m (by simp) v' hc

theorem isInclude_of_sect {l name : Text} (h : classify l = .sect name) : isInclude l = false := by
  by_contra hi
  rw [Bool.not_eq_false] at hi
  simp [classify, hi] at h

/-- A section header is bracketed around its name. -/
theorem trim_of_sect {l name : Text} (h : classify l = .sect name) :
    ∃ m, trim l = '[' :: m ++ [']'] ∧ trim m = name := by
  simp only [classify, isInclude_of_sect h, Bool.false_eq_true, ↓reduceIte, classifyTrimmed] at h
  split at h
  · cases h
  · split at h
    · rename_i hsec
      simp only [isSection, Bool.and_eq_true, beq_iff_eq] at hsec
      cases ht : trim l with
      | nil => simp [ht] at hsec
      | cons c t =>
        rw [ht] at hsec h
        have hne : t ≠ [] := by
          rintro rfl
          simp only [List.head?_cons, Option.some.injEq, List.getLast?_singleton] at hsec
          rw [hsec.1] at hsec; exact absurd hsec.2 (by decide)
        rw [List.getLast?_cons_of_ne_nil hne, List.getLast?_eq_some_getLast hne] at hsec
        simp only [List.head?_cons, Option.some.injEq] at hsec
        refine ⟨t.dropLast, ?_, by simpa using h⟩
        conv => lhs; rw [hsec.1, ← List.dropLast_append_getLast hne, hsec.2]
        rfl
    · unfold assignment at h
      split at h <;> cases h

/-- A header that leads back outside sections holds no `'='`. -/
theorem eq_not_mem_of_closing {l : Text} (h : classify l = .sect []) : '=' ∉ l := by
  obtain ⟨a, b, hl, ha, hb, _⟩ := Lines.strip_spec isSpace l
  change l = a ++ trim l ++ b at hl
  obtain ⟨m, hm, hname⟩ := trim_of_sect h
  have hspace : ∀ u : Text, (∀ c ∈ u, isSpace c = true) → '=' ∉ u := fun u hu hmem => by
    simpa [isSpace] using hu '=' hmem
  have hmid : '=' ∉ m := hspace m (Lines.all_of_strip_eq_nil isSpace hname)
  rw [hl, hm]
  simp [hspace a ha, hspace b hb, hmid]

end HahaDog.Ini
