import HahaDogOps.Entrypoint.Model
/-!
# Restarting a container (`docker start`, `--restart unless-stopped`)

`entrypoint.sh` runs again at every start of the same container, over the files the previous start
left. `tracker.conf`, `storage.conf` and `nginx.conf` are removed before they are written
(`entrypoint.sh:37`, `:71`, `:117`), so a start does not see their old content. `mod_fastdfs.conf` is
only ever appended to (`:106`): after `n` starts it holds `n` copies of what one start writes
(`starts_modFastdfs`), and `generated_stable_iff` says for which containers that goes unnoticed.
-/

namespace HahaDog.Entrypoint

open Shell

/-- The files a role generates. -/
def generated : Role → Files → List (Option Text)
  | .tracker, f => [f.tracker]
  | .storage, f => [f.storage, f.modFastdfs, f.nginx]

/-- A new container: stock files of the image, no `mod_fastdfs.conf` yet. -/
def fresh (tracker storage nginx : Text) : Files := ⟨some tracker, some storage, none, some nginx⟩

/-- `n` starts of the same container. -/
def starts (sed : Sed.TextArg) (role : Role) (env : Env) (t : Templates) (n : Nat) (f : Files) : Files :=
  (start sed role env t)^[n] f

/-- What one storage start appends to `mod_fastdfs.conf`. -/
def appended (env : Env) (template : Text) : Text := ((readLines template).map (rewriteModFastdfs env)).flatMap echo

section
variable (sed : Sed.TextArg) (env : Env) (t : Templates)

theorem starts_succ (role : Role) (n : Nat) (f : Files) :
    starts sed role env t (n + 1) f = start sed role env t (starts sed role env t n f) :=
  Function.iterate_succ_apply' _ _ _

/-- **`mod_fastdfs.conf` accumulates**: `n` starts write `n` copies. -/
theorem starts_modFastdfs (f : Files) (n : Nat) :
    (starts sed .storage env t n f).modFastdfs.getD [] =
      f.modFastdfs.getD [] ++ (List.replicate n (appended env t.modFastdfs)).flatten := by
  induction n with
  | zero => simp [starts]
  | succ n ih =>
    rw [starts_succ]
    simp only [start, modFastdfsConf, writeLoop]
    rw [foldl_appendLine, ih, List.replicate_succ', List.flatten_append, List.append_assoc]
    simp [appended]

theorem starts_modFastdfs_isSome (f : Files) (n : Nat) :
    (starts sed .storage env t (n + 1) f).modFastdfs.isSome =
      (f.modFastdfs.isSome || !(readLines t.modFastdfs).isEmpty) := by
  have hstep : ∀ g : Files, (start sed .storage env t g).modFastdfs.isSome =
      (g.modFastdfs.isSome || !(readLines t.modFastdfs).isEmpty) := by
    intro g
    simp [start, modFastdfsConf, writeLoop, foldl_appendLine_isSome]
  induction n with
  | zero => exact hstep f
  | succ n ih => rw [starts_succ, hstep, ih, Bool.or_assoc, Bool.or_self]

/-- The other files of a role do not depend on what was there before. -/
theorem start_rebuilds (f g : Files) :
    (start sed .tracker env t f).tracker = (start sed .tracker env t g).tracker ∧
    (start sed .storage env t f).storage = (start sed .storage env t g).storage ∧
    (start sed .storage env t f).nginx = (start sed .storage env t g).nginx :=
  ⟨rfl, rfl, rfl⟩

end

/-! ## When nothing is appended -/

theorem echo_eq_nil_iff (w : Text) : echo w = [] ↔ echoOption w = true ∧ 'n' ∈ w := by
  unfold echo
  by_cases h : echoOption w = true
  · by_cases hn : 'n' ∈ w <;> simp [h, hn]
  · simp [h]

theorem echoOption_assign {k : Text} (h0 : k.head? ≠ some '-') (hk : k ≠ []) (v : Text) :
    echoOption (k ++ '=' :: v) = false := by
  cases k with
  | nil => exact absurd rfl hk
  | cons c k =>
    unfold echoOption
    split
    · rename_i heq
      simp only [List.cons_append, List.cons.injEq] at heq
      simp [heq.1] at h0
    · rfl

/-- A rewritten line is printed as it is. -/
theorem echoOption_assign_eq (test : Text → Text → Bool) {key : Text} (h0 : key.head? ≠ some '-') (hk : key ≠ [])
    (value : Option Text) {l : Text} (hl : echoOption l = false) : echoOption (assign test key value l) = false := by
  rcases assign_cases test key value l with h | ⟨v, -, -, h⟩
  · rw [h]; exact hl
  · rw [h]; exact echoOption_assign h0 hk v

theorem echoOption_rewriteModFastdfs (env : Env) (l : Text) :
    echoOption (rewriteModFastdfs env l) = echoOption l := by
  by_cases h : echoOption l = true
  · rw [rewriteModFastdfs_of_no_eq env (not_mem_of_echoOption h (by decide))]
  · rw [Bool.not_eq_true] at h
    rw [h]
    refine echoOption_assign_eq _ (by decide) (by decide) _ ?_
    refine echoOption_assign_eq _ (by decide) (by decide) _ ?_
    exact echoOption_assign_eq _ (by decide) (by decide) _ h

theorem echo_rewriteModFastdfs_eq_nil (env : Env) (l : Text) :
    echo (rewriteModFastdfs env l) = [] ↔ echoOption l = true ∧ 'n' ∈ l := by
  rw [echo_eq_nil_iff, echoOption_rewriteModFastdfs]
  constructor
  · rintro ⟨h, hn⟩
    rw [rewriteModFastdfs_of_no_eq env (not_mem_of_echoOption h (by decide))] at hn
    exact ⟨h, hn⟩
  · rintro ⟨h, hn⟩
    rw [rewriteModFastdfs_of_no_eq env (not_mem_of_echoOption h (by decide))]
    exact ⟨h, hn⟩

theorem appended_eq_nil_iff (env : Env) (template : Text) :
    appended env template = [] ↔ ∀ l ∈ readLines template, echoOption l = true ∧ 'n' ∈ l := by
  simp only [appended, List.flatMap_eq_nil_iff, List.forall_mem_map, echo_rewriteModFastdfs_eq_nil]

/-- Two files are equal when they exist together and have the same content. -/
theorem file_ext {a b : Option Text} (hs : a.isSome = b.isSome) (hg : a.getD [] = b.getD []) : a = b := by
  cases a <;> cases b <;> simp_all

/-! ## Restart idempotence -/

/-- **Every start leaves what the first one left** iff the container is a tracker or every line read
from the `mod_fastdfs.conf` template is one `echo` prints nothing for (`-n`, alone or with `e`, `E`). -/
theorem generated_stable_iff (sed : Sed.TextArg) (role : Role) (env : Env) (t : Templates)
    (tracker storage nginx : Text) :
    (∀ n, 1 ≤ n → generated role (starts sed role env t n (fresh tracker storage nginx)) =
        generated role (starts sed role env t 1 (fresh tracker storage nginx))) ↔
      role = .tracker ∨ ∀ l ∈ readLines t.modFastdfs, echoOption l = true ∧ 'n' ∈ l := by
  rw [← appended_eq_nil_iff env]
  constructor
  · intro h
    cases role with
    | tracker => exact .inl rfl
    | storage =>
      -- the second start already shows the second copy
      have h2 := h 2 (by omega)
      simp only [generated, List.cons.injEq, and_true] at h2
      have hg := congrArg (fun f => Option.getD f []) h2.2.1
      simp only [starts_modFastdfs] at hg
      have hlen := congrArg List.length hg
      simp only [fresh, Option.getD_none, List.nil_append, List.replicate_succ, List.replicate_zero,
        List.flatten_cons, List.flatten_nil, List.append_nil, List.length_append] at hlen
      exact .inr (List.eq_nil_of_length_eq_zero (by omega))
  · rintro (rfl | h) n hn
    · obtain ⟨m, rfl⟩ : ∃ m, n = m + 1 := ⟨n - 1, by omega⟩
      rw [starts_succ]; rfl
    · obtain ⟨m, rfl⟩ : ∃ m, n = m + 1 := ⟨n - 1, by omega⟩
      cases role with
      | tracker => rw [starts_succ]; rfl
      | storage =>
        have hmod : (starts sed .storage env t (m + 1) (fresh tracker storage nginx)).modFastdfs =
            (starts sed .storage env t 1 (fresh tracker storage nginx)).modFastdfs := by
          apply file_ext
          · rw [starts_modFastdfs_isSome, starts_modFastdfs_isSome sed env t _ 0]
          · rw [starts_modFastdfs, starts_modFastdfs, h]; simp
        have hrest := start_rebuilds sed env t (starts sed .storage env t m (fresh tracker storage nginx))
          (fresh tracker storage nginx)
        simp only [generated, hmod, List.cons.injEq, and_true, true_and]
        rw [starts_succ]
        exact hrest.2

/-- Templates with one setting in `mod_fastdfs.conf`. -/
def oneSetting : Templates := ⟨[], [], "log_level=info\n".toList, []⟩

/-- The second start of a storage container with no variable set doubles `mod_fastdfs.conf`. -/
theorem second_start_doubles_modFastdfs :
    ¬ ∀ n, 1 ≤ n → generated .storage (starts .basic .storage ⟨none, none, none, none⟩ oneSetting n (fresh [] [] [])) =
      generated .storage (starts .basic .storage ⟨none, none, none, none⟩ oneSetting 1 (fresh [] [] [])) := by
  intro h
  exact absurd (h 2 (by omega)) (by decide)

end HahaDog.Entrypoint
