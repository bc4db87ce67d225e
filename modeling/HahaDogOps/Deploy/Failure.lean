import HahaDogOps.Deploy.Scripts
/-!
# A deployment that fails

The scripts run `sed` and `kubectl apply` whatever happened before: no command's exit status is looked at, and
the artefact may already be gone (`liam/cao.sh:9`, `assets.sh:9`). So a run in which the image was never
built or pushed still points the manifest and the Deployment at its tag. Jenkins itself is told to go on
only after a successful build (`jenkins.md:407`, the stages and the `&&` of the Jenkinsfiles).

`failed_run_unchanged_iff`: a failed run leaves the service alone only when there was nothing to change.
-/

namespace HahaDog.Deploy

variable {α : Type}

/-- The commands that make and publish the image. -/
def Cmd.needed : Cmd → Bool
  | .dockerRun _ | .dockerCp _ | .dockerStop | .dockerCommit _ | .dockerBuild _ _ _ _ | .dockerPush _ | .cpArtefact
  | .mvArtefact => true
  | _ => false

/-- A needed command failed. -/
def Failed (lay : Layout) (s : Script) (v : Text) (ok : Nat → Bool) (w : World α) : Prop :=
  ∃ c ∈ failures lay w (s.attempt v ok), c.needed = true

instance (lay : Layout) (s : Script) (v : Text) (ok : Nat → Bool) (w : World α) : Decidable (Failed lay s v ok w) :=
  inferInstanceAs (Decidable (∃ c ∈ failures lay w (s.attempt v ok), c.needed = true))

/-- The manifest, its copy on the other host and the Deployment are as before. -/
def Unchanged (w w' : World α) : Prop :=
  w'.manifest = w.manifest ∧ w'.remote = w.remote ∧ w'.cluster.spec = w.cluster.spec

/-- The manifest names this version already, and is what the cluster has. -/
structure AlreadyDeployed (lay : Layout) (s : Script) (v : Text) (w : World α) : Prop where
  line : ∀ l, w.manifest[s.line - 1]? = some l → l = s.imageLine v
  remote : s ∈ remoteScripts → w.remote = some w.manifest
  spec : w.cluster.spec = some (lay.deployment w.manifest)

theorem change_eq_self_iff (n : Nat) (text : Text) (ls : List Text) :
    Sed.change n text ls = ls ↔ ∀ l, ls[n - 1]? = some l → l = text := by
  constructor
  · intro h l hl
    obtain ⟨hlt, -⟩ := List.getElem?_eq_some_iff.1 hl
    have := congrArg (fun m : List Text => m[n - 1]?) h
    simp only [Sed.change, List.getElem?_set_self hlt, hl, Option.some.injEq] at this
    exact this.symm
  · intro h
    by_cases hlt : n - 1 < ls.length
    · have := h ls[n - 1] (List.getElem?_eq_getElem hlt)
      rw [Sed.change, ← this, List.set_getElem_self]
    · exact List.set_eq_of_length_le (by omega)

theorem unchanged_iff {lay : Layout} {s : Script} (hs : s ∈ localScripts ++ remoteScripts) (v : Text) (ok : Nat → Bool)
    (w : World α) : Unchanged w (s.exec lay v ok w) ↔ AlreadyDeployed lay s v w := by
  have hcluster : ∀ registry, (w.cluster.apply lay registry (Sed.change s.line (s.imageLine v) w.manifest)).spec =
      some (lay.deployment (Sed.change s.line (s.imageLine v) w.manifest)) := fun _ => rfl
  rcases List.mem_append.1 hs with hl | hr
  · obtain ⟨h1, h2, h3⟩ := @exec_local α lay s hl v ok w
    rw [Unchanged, h1, h2, h3, hcluster]
    constructor
    · rintro ⟨hm, -, hc⟩
      rw [hm] at hc
      exact ⟨(change_eq_self_iff _ _ _).1 hm, fun hr => absurd hr (not_remote_of_local hl), hc.symm⟩
    · rintro ⟨hline, -, hc⟩
      have hm := (change_eq_self_iff s.line (s.imageLine v) w.manifest).2 hline
      rw [hm]
      exact ⟨rfl, rfl, hc.symm⟩
  · obtain ⟨h1, h2, h3⟩ := @exec_remote α lay s hr v ok w
    rw [Unchanged, h1, h2, h3, hcluster]
    constructor
    · rintro ⟨hm, hr', hc⟩
      rw [hm] at hc hr'
      exact ⟨(change_eq_self_iff _ _ _).1 hm, fun _ => hr'.symm, hc.symm⟩
    · rintro ⟨hline, hr', hc⟩
      have hm := (change_eq_self_iff s.line (s.imageLine v) w.manifest).2 hline
      rw [hm]
      exact ⟨rfl, (hr' hr).symm, hc.symm⟩

/-- **A run in which a needed command failed leaves the service as it was iff** the manifest already had this
version's image line, and was what the other host and the cluster already had. -/
theorem failed_run_unchanged_iff (lay : Layout) {s : Script} (hs : s ∈ localScripts ++ remoteScripts) (clock : Clock)
    (ok : Nat → Bool) (w : World α) :
    (Failed lay s (version s.format clock) ok w → Unchanged w (s.exec lay (version s.format clock) ok w)) ↔
      (Failed lay s (version s.format clock) ok w → AlreadyDeployed lay s (version s.format clock) w) := by
  rw [unchanged_iff hs]

/-- `项目/liam/liam.yaml` -/
def liamYaml : List Text :=
  ["apiVersion: apps/v1beta1", "kind: Deployment", "metadata:", "  name: liam", "  namespace: cao", "spec:",
    "  replicas: 3", "  template:", "    metadata:", "      labels:", "        run: liam", "    spec:",
    "      containers:", "      - name: liam", "        image: 192.168.240.73/test/liam:2019-05-14-17-06",
    "        ports:", "        - containerPort: 8090", "---", "apiVersion: v1", "kind: Service", "metadata:",
    "  name: liam", "  namespace: cao", "spec:", "  selector:", "    run: liam", "  type: NodePort", "  ports:",
    "  - nodePort: 30011", "    port: 8090", "    targetPort: 8090"].map String.toList

def liamLayout : Layout := ⟨9, 15, 17, 17, by decide, by decide, by decide, by decide⟩

/-- The service runs what `liam.yaml` says; a new artefact waits in the workspace. -/
def liamWorld (manifest : List Text) : World Nat where
  daemon := ⟨none, fun _ => none, fun _ => none⟩
  workspace := some 1
  staged := none
  manifest := manifest
  remote := none
  cluster := ⟨some (liamLayout.deployment manifest), none⟩

/-- A minute after the version in `liam.yaml`. -/
def laterMinute : Clock := ⟨2019, 5, 14, 17, 7, 0⟩

theorem repeated_minute_unchanged : liam ∈ localScripts ++ remoteScripts ∧
    Failed liamLayout liam (version .minute ⟨2019, 5, 14, 17, 6, 0⟩) (fun i => i != 4) (liamWorld liamYaml) ∧
    Unchanged (liamWorld liamYaml)
      (liam.exec liamLayout (version .minute ⟨2019, 5, 14, 17, 6, 0⟩) (fun i => i != 4) (liamWorld liamYaml)) := by
  have hmem : liam ∈ localScripts ++ remoteScripts := by simp [localScripts]
  have hfail : Failed liamLayout liam (version .minute ⟨2019, 5, 14, 17, 6, 0⟩) (fun i => i != 4) (liamWorld liamYaml) :=
    ⟨.dockerPush (liam.ref (version .minute ⟨2019, 5, 14, 17, 6, 0⟩)), by decide, rfl⟩
  refine ⟨hmem, hfail, (failed_run_unchanged_iff liamLayout hmem ⟨2019, 5, 14, 17, 6, 0⟩ _ _).2 (fun _ => ?_) hfail⟩
  refine ⟨fun l hl => ?_, fun hr => ?_, rfl⟩
  · rw [show (liamWorld liamYaml).manifest[liam.line - 1]? = some (liam.imageLine
      (version .minute ⟨2019, 5, 14, 17, 6, 0⟩)) by decide] at hl
    exact (Option.some.inj hl).symm
  · exact absurd hr (not_remote_of_local (by simp [localScripts]))

/-- `docker push` fails, and the Deployment is pointed at the image that was not pushed. -/
theorem failed_push_changes_deployment :
    Failed liamLayout liam (version .minute laterMinute) (fun i => i != 4) (liamWorld liamYaml) ∧
    ¬ Unchanged (liamWorld liamYaml)
      (liam.exec liamLayout (version .minute laterMinute) (fun i => i != 4) (liamWorld liamYaml)) := by
  refine ⟨⟨.dockerPush (liam.ref (version .minute laterMinute)), by decide, rfl⟩, fun h => ?_⟩
  exact absurd h.1 (by decide)

end HahaDog.Deploy
