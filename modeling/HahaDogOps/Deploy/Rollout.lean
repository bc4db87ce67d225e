import HahaDogOps.Deploy.Scripts
/-!
# Deployments that succeed

Every command of every run succeeds, and the runs do not overlap. A run puts its image into the registry
under the tag `VERSION`, writes that tag into the manifest and applies it; the cluster starts a rollout
only if the pod template changed. So a run takes effect when its tag is new, and the tag is the time
of the run: to the day in `fuck-world.sh:5`, to the minute in the other scripts. Jenkins looks for new
commits every minute (`jenkins.md:390`).

`deployments_take_effect_iff`: two runs in a row with one tag must have the same artefact.
-/

namespace HahaDog.Deploy

variable {α : Type}

/-- A run of a script: when, and the artefact Jenkins built for it. -/
structure Deploying (α : Type) where
  clock : Clock
  artefact : α
deriving DecidableEq, Repr

def Script.versionOf (s : Script) (r : Deploying α) : Text := version s.format r.clock

section
variable (lay : Layout) (s : Script)

/-- The world when the script starts. -/
def arrive (w : World α) (r : Deploying α) : World α := { w with workspace := some r.artefact }

/-- A run in which nothing fails from outside. -/
def deployed (w : World α) (r : Deploying α) : World α :=
  s.exec lay (s.versionOf r) (fun _ => true) (arrive w r)

/-- Every command of the run succeeds. -/
def AllSucceed (w : World α) (r : Deploying α) : Prop :=
  failures lay (arrive w r) (s.attempt (s.versionOf r) (fun _ => true) ++ s.rest (s.versionOf r)) = []

instance (w : World α) (r : Deploying α) : Decidable (AllSucceed lay s w r) :=
  inferInstanceAs (Decidable (failures lay (arrive w r)
    (s.attempt (s.versionOf r) (fun _ => true) ++ s.rest (s.versionOf r)) = []))

/-- The manifest differs from `m` in line `line` at most. -/
def OnlyImageLine (line : Nat) (m m' : List Text) : Prop := m'.length = m.length ∧ ∀ j, j ≠ line - 1 → m'[j]? = m[j]?

/-- The manifest is otherwise the original, and the pods run what was built from this run's artefact. -/
def TakesEffect (original w' : World α) (r : Deploying α) : Prop :=
  OnlyImageLine s.line original.manifest w'.manifest ∧ w'.cluster.pods = some (s.built r.artefact)

/-- The run changes the pod template in the cluster, or its image runs there already. -/
def Fresh (w : World α) (r : Deploying α) : Prop :=
  w.cluster.spec.map lay.template ≠
      some (lay.template (lay.deployment (Sed.change s.line (s.imageLine (s.versionOf r)) w.manifest))) ∨
    w.cluster.pods = some (s.built r.artefact)

/-- Two runs in a row have different tags or the same artefact. -/
def TagsDiffer (r r' : Deploying α) : Prop := s.versionOf r ≠ s.versionOf r' ∨ r.artefact = r'.artefact

end

/-! ## The tag in the manifest -/

theorem isBlank_digit (n : Nat) : isBlank (digit n) = false := by
  have h : ∀ k, k < 10 → isBlank (Char.ofNat (48 + k)) = false := by decide
  exact h _ (Nat.mod_lt _ (by decide))

/-- A version ends in a digit. -/
theorem version_last (f : Format) (c : Clock) : ∃ v n, version f c = v ++ [digit n] := by
  cases f with
  | day => exact ⟨two (c.year / 100) ++ two c.year ++ '-' :: two c.month ++ ['-', digit (c.day / 10)], c.day, by
      simp [version, isoDate, two]⟩
  | minute => exact ⟨isoDate c ++ '-' :: two c.hour ++ ['-', digit (c.minute / 10)], c.minute, by simp [version, two]⟩

theorem imageRef_imageLine (s : Script) (c : Clock) : imageRef (s.imageLine (version s.format c)) =
    s.ref (version s.format c) := by
  obtain ⟨v, n, hv⟩ := version_last s.format c
  have htight : Lines.Tight isBlank ("image: ".toList ++ s.ref (version s.format c)) := by
    constructor
    · intro x hx; cases hx; rfl
    · intro x hx
      rw [hv, Script.ref, show "image: ".toList ++ (s.repo ++ ':' :: (v ++ [digit n])) =
        ("image: ".toList ++ s.repo ++ ':' :: v) ++ [digit n] by simp only [List.append_assoc, List.cons_append],
        List.getLast?_append_of_ne_nil _ (by simp)] at hx
      cases hx; exact isBlank_digit n
  have hstrip := Lines.strip_eq_of_tight isBlank (a := List.replicate s.indent ' ') (b := [])
    (fun x hx => by rw [List.eq_of_mem_replicate hx]; rfl) (by simp) htight
  rw [List.append_nil] at hstrip
  rw [imageRef, Script.imageLine, stripBlanks, hstrip]
  rfl

theorem imageLine_inj (s : Script) {v v' : Text} (h : s.imageLine v = s.imageLine v') : v = v' := by
  have h1 := List.append_cancel_left (List.append_cancel_left h)
  have h2 := List.append_cancel_left h1
  exact (List.cons.inj h2).2

/-! ## The line in the manifest -/

theorem length_change (n : Nat) (text : Text) (ls : List Text) : (Sed.change n text ls).length = ls.length :=
  List.length_set

theorem onlyImageLine_change (n : Nat) (text : Text) {m m' : List Text} (h : OnlyImageLine n m m') :
    OnlyImageLine n m (Sed.change n text m') := by
  refine ⟨(length_change _ _ _).trans h.1, fun j hj => ?_⟩
  rw [Sed.change, List.getElem?_set_ne (Ne.symm hj)]
  exact h.2 j hj

/-- The image line lies in the pod template. -/
theorem getElem?_template (lay : Layout) (m : List Text) :
    (lay.template (lay.deployment m))[lay.image - lay.first]? = m[lay.image - 1]? := by
  have h1 := lay.first_pos
  have h2 := lay.first_le
  have h3 := lay.le_last
  have h4 := lay.last_le
  rw [Layout.template, Layout.deployment, List.getElem?_drop, List.getElem?_take_of_lt (by omega),
    List.getElem?_take_of_lt (by omega), show lay.first - 1 + (lay.image - lay.first) = lay.image - 1 by omega]

/-- Two versions give the same pod template iff they are the same. -/
theorem template_change_iff {lay : Layout} {s : Script} (hlay : lay.image = s.line) {m : List Text}
    (hm : s.line - 1 < m.length) (v v' : Text) :
    lay.template (lay.deployment (Sed.change s.line (s.imageLine v) m)) =
      lay.template (lay.deployment (Sed.change s.line (s.imageLine v') m)) ↔ v = v' := by
  constructor
  · intro h
    have h1 := congrArg (fun t : List Text => t[lay.image - lay.first]?) h
    simp only [getElem?_template] at h1
    rw [hlay, Sed.change, Sed.change, List.getElem?_set_self hm, List.getElem?_set_self hm, Option.some.injEq] at h1
    exact imageLine_inj s h1
  · rintro rfl; rfl

theorem change_change (n : Nat) (a b : Text) (ls : List Text) : Sed.change n a (Sed.change n b ls) = Sed.change n a ls :=
  List.set_set ..

/-! ## One run -/

section
variable {lay : Layout} {s : Script}

theorem failures_append (w : World α) (xs ys : List (Cmd × Bool)) :
    failures lay w (xs ++ ys) = failures lay w xs ++ failures lay (Run.run (step lay) w xs) ys := by
  induction xs generalizing w with
  | nil => rfl
  | cons x xs ih =>
    rw [List.cons_append, failures, failures, ih, Run.run_cons]
    split <;> rfl

/-- The three tomcat scripts publish what they built. -/
theorem published_tomcat (repo : Text) (format : Format) (base war v : Text) (w : World α) (r : Deploying α)
    (h : failures lay (arrive w r) ((tomcat repo format base war).attempt v fun _ => true) = []) :
    (Run.run (step lay) (arrive w r) ((tomcat repo format base war).attempt v fun _ => true)).daemon.registry
      ((tomcat repo format base war).ref v) = some ((tomcat repo format base war).built r.artefact) := by
  rcases w with ⟨⟨zzz, images, registry⟩, workspace, staged, manifest, remote, cluster⟩
  cases zzz with
  | some c => cases h
  | none =>
    simp [Script.attempt, tomcat, arrive, step, Cmd.exec, Cmd.request, Cmd.execFile, Daemon.request, putFile,
      Script.built, Script.ref]

/-- The two Dockerfile scripts publish what they built, however the artefact got there. -/
theorem published_dockerfile (repo base place v : Text) (w : World α) (r : Deploying α) {stage : List Cmd}
    (hstage : stage = [.cpArtefact, .rmArtefact] ∨ stage = [.mvArtefact])
    (h : failures lay (arrive w r) ((dockerfile repo base place stage).attempt v fun _ => true) = []) :
    (Run.run (step lay) (arrive w r) ((dockerfile repo base place stage).attempt v fun _ => true)).daemon.registry
      ((dockerfile repo base place stage).ref v) = some ((dockerfile repo base place stage).built r.artefact) := by
  rcases hstage with rfl | rfl
  · simp [Script.attempt, dockerfile, arrive, step, Cmd.exec, Cmd.request, Cmd.execFile, Daemon.request, Script.built,
      Script.ref]
  · rcases w with ⟨daemon, workspace, staged, manifest, remote, cluster⟩
    cases staged with
    | some x => cases h
    | none =>
      simp [Script.attempt, dockerfile, arrive, step, Cmd.exec, Cmd.request, Cmd.execFile, Daemon.request, Script.built,
        Script.ref]

/-- **A run whose commands all succeed publishes the image of its artefact under its tag.** -/
theorem published (hs : s ∈ localScripts) {w : World α} {r : Deploying α} (h : AllSucceed lay s w r) :
    (Run.run (step lay) (arrive w r) (s.attempt (s.versionOf r) fun _ => true)).daemon.registry (s.ref (s.versionOf r)) =
      some (s.built r.artefact) := by
  rw [AllSucceed, failures_append, List.append_eq_nil_iff] at h
  simp only [localScripts, List.mem_cons, List.not_mem_nil, or_false] at hs
  rcases hs with rfl | rfl | rfl | rfl | rfl
  · exact published_tomcat _ _ _ _ _ w r h.1
  · exact published_tomcat _ _ _ _ _ w r h.1
  · exact published_tomcat _ _ _ _ _ w r h.1
  · exact published_dockerfile _ _ _ _ w r (.inl rfl) h.1
  · exact published_dockerfile _ _ _ _ w r (.inr rfl) h.1

theorem deployed_manifest (hs : s ∈ localScripts) (w : World α) (r : Deploying α) :
    (deployed lay s w r).manifest = Sed.change s.line (s.imageLine (s.versionOf r)) w.manifest :=
  (exec_local hs _ _ _).1

theorem deployed_spec (hs : s ∈ localScripts) (w : World α) (r : Deploying α) :
    (deployed lay s w r).cluster.spec =
      some (lay.deployment (Sed.change s.line (s.imageLine (s.versionOf r)) w.manifest)) := by
  rw [deployed, (exec_local hs _ _ _).2.2]; rfl

/-- **A run takes effect iff it changes the pod template**, or its image was running already. -/
theorem deployed_pods_iff (hs : s ∈ localScripts) (hlay : lay.image = s.line) {w : World α} {r : Deploying α}
    (hm : s.line - 1 < w.manifest.length) (h : AllSucceed lay s w r) :
    (deployed lay s w r).cluster.pods = some (s.built r.artefact) ↔ Fresh lay s w r := by
  have himage : (Sed.change s.line (s.imageLine (s.versionOf r)) w.manifest).getD (lay.image - 1) [] =
      s.imageLine (s.versionOf r) := by
    rw [hlay, List.getD_eq_getElem?_getD, Sed.change, List.getElem?_set_self hm]; rfl
  have hpods : (deployed lay s w r).cluster.pods =
      if w.cluster.spec.map lay.template =
          some (lay.template (lay.deployment (Sed.change s.line (s.imageLine (s.versionOf r)) w.manifest)))
      then w.cluster.pods else some (s.built r.artefact) := by
    rw [deployed, (exec_local hs _ _ _).2.2, show (arrive w r).manifest = w.manifest from rfl,
      show (arrive w r).cluster = w.cluster from rfl, Cluster.apply, himage, Script.versionOf, imageRef_imageLine]
    rw [← Script.versionOf, published hs h]
    rfl
  rw [hpods, Fresh]
  split
  · rename_i heq; simp [heq]
  · rename_i heq; exact iff_of_true rfl (.inl heq)

theorem built_inj {x y : α} : s.built x = s.built y ↔ x = y := by
  simp [Script.built]

/-- After a run that took effect, the next one does iff its tag or its artefact is another. -/
theorem fresh_next_iff (hs : s ∈ localScripts) (hlay : lay.image = s.line) {w : World α} {r r' : Deploying α}
    (hm : s.line - 1 < w.manifest.length) (hpods : (deployed lay s w r).cluster.pods = some (s.built r.artefact)) :
    Fresh lay s (deployed lay s w r) r' ↔ TagsDiffer s r r' := by
  rw [Fresh, deployed_spec hs, deployed_manifest hs, change_change, hpods, Option.map_some, Ne, Option.some.injEq,
    template_change_iff hlay hm, Option.some.injEq, built_inj]
  rfl

end

/-! ## Whole histories -/

section
variable {lay : Layout} {s : Script} (hs : s ∈ localScripts) (hlay : lay.image = s.line)
include hs

theorem onlyImageLine_run (original : World α) : ∀ (rs : List (Deploying α)) (w : World α),
    OnlyImageLine s.line original.manifest w.manifest →
      OnlyImageLine s.line original.manifest (Run.run (deployed lay s) w rs).manifest
  | [], _, h => h
  | r :: rs, w, h => by
    refine onlyImageLine_run original rs (deployed lay s w r) ?_
    rw [deployed_manifest hs]
    exact onlyImageLine_change _ _ h

include hlay

theorem fresh_along_iff : ∀ (rs : List (Deploying α)) (w : World α), s.line - 1 < w.manifest.length →
    Run.Along (deployed lay s) (AllSucceed lay s) w rs →
      (Run.Along (deployed lay s) (Fresh lay s) w rs ↔
        (∀ r ∈ rs.head?, Fresh lay s w r) ∧ rs.IsChain (TagsDiffer s))
  | [], _, _, _ => by simp [Run.Along]
  | [r], w, _, _ => by simp [Run.Along]
  | r :: r' :: rs, w, hm, hok => by
    have hm' : s.line - 1 < (deployed lay s w r).manifest.length := by
      rwa [deployed_manifest hs, length_change]
    have ih := fresh_along_iff (r' :: rs) (deployed lay s w r) hm' hok.2
    rw [Run.Along, ih, List.isChain_cons_cons]
    simp only [List.head?_cons, Option.mem_some_iff, forall_eq']
    constructor
    · rintro ⟨h1, h2, h3⟩
      have hpods := (deployed_pods_iff hs hlay hm hok.1).2 h1
      exact ⟨h1, (fresh_next_iff hs hlay hm hpods).1 h2, h3⟩
    · rintro ⟨h1, h2, h3⟩
      have hpods := (deployed_pods_iff hs hlay hm hok.1).2 h1
      exact ⟨h1, (fresh_next_iff hs hlay hm hpods).2 h2, h3⟩

end

/-- **Every run of a history takes effect iff** the first one changes the pod template of the cluster (or its
image runs there already), and no two runs in a row have the same tag for different artefacts. -/
theorem deployments_take_effect_iff {lay : Layout} {s : Script} (hs : s ∈ localScripts) (hlay : lay.image = s.line)
    (w : World α) (hm : s.line - 1 < w.manifest.length) (rs : List (Deploying α))
    (hok : Run.Along (deployed lay s) (AllSucceed lay s) w rs) :
    (∀ qs r, qs ++ [r] <+: rs → TakesEffect s w (Run.run (deployed lay s) w (qs ++ [r])) r) ↔
      (∀ r ∈ rs.head?, Fresh lay s w r) ∧ rs.IsChain (TagsDiffer s) := by
  rw [← fresh_along_iff hs hlay rs w hm hok, Run.along_iff]
  rw [Run.along_iff] at hok
  refine forall₂_congr fun qs r => forall_congr' fun hpre => ?_
  have honly : ∀ ps, OnlyImageLine s.line w.manifest (Run.run (deployed lay s) w ps).manifest := fun ps =>
    onlyImageLine_run hs w ps w ⟨rfl, fun _ _ => rfl⟩
  rw [TakesEffect, and_iff_right (honly _), Run.run_append]
  exact deployed_pods_iff hs hlay (by rwa [(honly qs).1]) (hok qs r hpre)

/-- `FuckWorld/fuck-world.yml` -/
def fuckWorldYml : List Text :=
  ["apiVersion: apps/v1beta1", "kind: Deployment", "metadata:", "  name: fuck-world", "spec:", "  replicas: 2",
    "  template:", "    metadata:", "      labels:", "        run: fuck-world", "    spec:", "      containers:",
    "      - name: fuck-world", "        image: registry.cn-qingdao.aliyuncs.com/caonima/fuck-world:2018-08-22",
    "        ports:", "        - containerPort: 8080", "---", "apiVersion: v1", "kind: Service", "metadata:",
    "  name: fuck-world-svc", "spec:", "  selector:", "    run: fuck-world", "  type: NodePort", "  ports:",
    "  - nodePort: 30250", "    port: 8080", "    targetPort: 8080"].map String.toList

def fuckWorldLayout : Layout := ⟨8, 14, 16, 16, by decide, by decide, by decide, by decide⟩

/-- The service as `fuck-world.yml` describes it. -/
def fuckWorldService : World Nat where
  daemon := ⟨none, fun _ => none, fun _ => none⟩
  workspace := none
  staged := none
  manifest := fuckWorldYml
  remote := none
  cluster := ⟨some (fuckWorldLayout.deployment fuckWorldYml), none⟩

/-- A run in the morning, and one with another artefact at the hour `hour` of the day `day`. -/
def twoRuns (day hour : Nat) : List (Deploying Nat) := [⟨⟨2018, 8, 23, 9, 0, 0⟩, 1⟩, ⟨⟨2018, 8, day, hour, 0, 0⟩, 2⟩]

theorem two_days_take_effect : fuckWorld ∈ localScripts ∧ fuckWorldLayout.image = fuckWorld.line ∧
    fuckWorld.line - 1 < fuckWorldService.manifest.length ∧
    Run.Along (deployed fuckWorldLayout fuckWorld) (AllSucceed fuckWorldLayout fuckWorld) fuckWorldService (twoRuns 24 9) ∧
    ∀ qs r, qs ++ [r] <+: twoRuns 24 9 →
      TakesEffect fuckWorld fuckWorldService (Run.run (deployed fuckWorldLayout fuckWorld) fuckWorldService (qs ++ [r])) r := by
  have hmem : fuckWorld ∈ localScripts := by simp [localScripts]
  have hok : Run.Along (deployed fuckWorldLayout fuckWorld) (AllSucceed fuckWorldLayout fuckWorld) fuckWorldService
      (twoRuns 24 9) := ⟨by decide, by decide, trivial⟩
  refine ⟨hmem, rfl, by decide, hok, ?_⟩
  refine (deployments_take_effect_iff hmem rfl fuckWorldService (by decide) (twoRuns 24 9) hok).2 ⟨fun r hr => ?_, ?_⟩
  · cases hr; exact .inl (by decide)
  · exact List.isChain_pair.2 (.inl (by decide))

/-- The second run of a day has the tag of the first: nothing is rolled out. -/
theorem second_run_of_day_without_effect :
    (twoRuns 23 10).Pairwise (fun a b => a.clock.le b.clock) ∧
    Run.Along (deployed fuckWorldLayout fuckWorld) (AllSucceed fuckWorldLayout fuckWorld) fuckWorldService (twoRuns 23 10) ∧
    ¬ ∀ qs r, qs ++ [r] <+: twoRuns 23 10 →
      TakesEffect fuckWorld fuckWorldService (Run.run (deployed fuckWorldLayout fuckWorld) fuckWorldService (qs ++ [r])) r := by
  refine ⟨?_, ⟨by decide, by decide, trivial⟩, fun h => ?_⟩
  · unfold Clock.le; decide
  · have h2 := (h [⟨⟨2018, 8, 23, 9, 0, 0⟩, 1⟩] ⟨⟨2018, 8, 23, 10, 0, 0⟩, 2⟩ ⟨[], rfl⟩).2
    exact absurd h2 (by decide)

end HahaDog.Deploy
