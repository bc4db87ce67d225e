import HahaDogOps.Lib.Run
import HahaDogOps.Shell.Sed
import HahaDogOps.Deploy.Docker
/-!
# The deploy scripts

| here | there |
| --- | --- |
| `fuckWorld`, `assets`, `examen` | `FuckWorld/fuck-world.sh`, `项目/assets/assets.sh`, `项目/examen/examen.sh` |
| `liam`, `suede`                 | `项目/liam/cao.sh`, `项目/suede/cao.sh` |
| `endTest`, `frontTest`          | `cao.sh` of `jenkins/部署实例/git+pipeline/springboot-proc` and `vue-proc` |
| `Cmd`                           | their commands; a command that fails does not stop the script |
| `version`                       | ``VERSION=`date "+%F"` `` (`fuck-world.sh:5`) or ``date "+%F-%H-%M"`` |
| `imageLine`                     | the text `sed -i '14c \        \image: ...'` puts into the manifest |
| `Cluster.apply`                 | `kubectl apply -f manifest` |

All of them make an image out of the artefact Jenkins built, push it, write its name into one line of
a manifest and apply that. They differ in how the image is made, in the format of the version and in
where the manifest is applied (`endTest` and `frontTest` copy it to another host first).
-/

namespace HahaDog.Deploy

variable {α : Type}

/-! ## Versions -/

/-- A local time, as `date` reads it. -/
structure Clock where
  year : Nat
  month : Nat
  day : Nat
  hour : Nat
  minute : Nat
  second : Nat
deriving DecidableEq, Repr

/-- The order of times. -/
def Clock.le (a b : Clock) : Prop :=
  [a.year, a.month, a.day, a.hour, a.minute, a.second] ≤ [b.year, b.month, b.day, b.hour, b.minute, b.second]

inductive Format where
  /-- `%F` -/
  | day
  /-- `%F-%H-%M` -/
  | minute
deriving DecidableEq, Repr

def digit (n : Nat) : Char := Char.ofNat (48 + n % 10)

/-- Two digits, as `%m`, `%d`, `%H`, `%M` print. -/
def two (n : Nat) : Text := [digit (n / 10), digit n]

/-- `%F` -/
def isoDate (c : Clock) : Text := two (c.year / 100) ++ two c.year ++ '-' :: two c.month ++ '-' :: two c.day

def version (f : Format) (c : Clock) : Text :=
  match f with
  | .day => isoDate c
  | .minute => isoDate c ++ '-' :: two c.hour ++ '-' :: two c.minute

/-! ## Manifests and the cluster -/

/-- Which lines of a manifest are what, counted from 1: the pod template is `first` to `last`, with the
image on line `image`; the Deployment ends on line `doc`, before the Service. -/
structure Layout where
  first : Nat
  image : Nat
  last : Nat
  doc : Nat
  first_pos : 1 ≤ first
  first_le : first ≤ image
  le_last : image ≤ last
  last_le : last ≤ doc

def Layout.deployment (lay : Layout) (manifest : List Text) : List Text := manifest.take lay.doc

def Layout.template (lay : Layout) (deployment : List Text) : List Text := (deployment.take lay.last).drop (lay.first - 1)

/-- What stands behind `image: `. -/
def imageRef (l : Text) : Text := (stripBlanks l).drop 7

structure Cluster (α : Type) where
  /-- The Deployment, as last applied. -/
  spec : Option (List Text)
  /-- The image its pods run. -/
  pods : Option (Image α)

/-- A rollout starts when the pod template changes. It takes the image from the registry; if it is not
there, the old pods go on running. -/
def Cluster.apply (lay : Layout) (registry : Text → Option (Image α)) (manifest : List Text) (c : Cluster α) :
    Cluster α where
  spec := some (lay.deployment manifest)
  pods :=
    if c.spec.map lay.template = some (lay.template (lay.deployment manifest)) then c.pods
    else (registry (imageRef (manifest.getD (lay.image - 1) []))).or c.pods

/-! ## Commands -/

/-- Where `docker build` finds the artefact. -/
inductive Source where
  | workspace
  | staged
deriving DecidableEq, Repr

inductive Cmd where
  | dockerRun (base : Text)
  | dockerCp (war : Text)
  | dockerStop
  | dockerCommit (ref : Text)
  | dockerBuild (source : Source) (ref base place : Text)
  | dockerPush (ref : Text)
  | dockerRm
  /-- `cp` of the artefact into the build directory. -/
  | cpArtefact
  /-- `mv` of the artefact into the build directory. -/
  | mvArtefact
  /-- `rm -rf` of the artefact in the Jenkins workspace. -/
  | rmArtefact
  /-- `rm -rf` of the artefact in the build directory. -/
  | rmStaged
  | sedChange (line : Nat) (text : Text)
  | kubectlApply
  /-- `ssh ... mkdir -p` on the other host. -/
  | sshMkdir
  /-- `scp` of the manifest to the other host. -/
  | scpManifest
  /-- `ssh ... kubectl apply` of the copy on the other host. -/
  | sshApply
deriving DecidableEq, Repr

/-- What a script can see and change. -/
structure World (α : Type) where
  daemon : Daemon α
  /-- The artefact in the Jenkins workspace. -/
  workspace : Option α
  /-- The artefact in the build directory. -/
  staged : Option α
  manifest : List Text
  /-- The copy of the manifest on the other host. -/
  remote : Option (List Text)
  cluster : Cluster α

/-- The request a docker command sends; `workspace` and `staged` are the artefacts it finds. -/
def Cmd.request (workspace staged : Option α) : Cmd → Option (Request α)
  | .dockerRun base => some (.run base)
  | .dockerCp war => some (.cp war workspace)
  | .dockerStop => some .stop
  | .dockerCommit ref => some (.commit ref)
  | .dockerBuild .workspace ref base place => some (.build ref base place workspace)
  | .dockerBuild .staged ref base place => some (.build ref base place staged)
  | .dockerPush ref => some (.push ref)
  | .dockerRm => some .rm
  | _ => none

/-- The commands that are no request to the daemon. `mv` does not replace a directory that is not empty. -/
def Cmd.execFile (lay : Layout) (w : World α) : Cmd → Option (World α)
  | .cpArtefact => w.workspace.map fun x => { w with staged := some x }
  | .mvArtefact =>
    match w.workspace, w.staged with
    | some x, none => some { w with workspace := none, staged := some x }
    | _, _ => none
  | .rmArtefact => some { w with workspace := none }
  | .rmStaged => some { w with staged := none }
  | .sedChange line text => some { w with manifest := Sed.change line text w.manifest }
  | .kubectlApply => some { w with cluster := w.cluster.apply lay w.daemon.registry w.manifest }
  | .scpManifest => some { w with remote := some w.manifest }
  | .sshApply => w.remote.map fun m => { w with cluster := w.cluster.apply lay w.daemon.registry m }
  | _ => some w

/-- The world after a command; `none` when it fails. -/
def Cmd.exec (lay : Layout) (w : World α) (c : Cmd) : Option (World α) :=
  match c.request w.workspace w.staged with
  | some r => (w.daemon.request r).map fun d => { w with daemon := d }
  | none => c.execFile lay w

/-! ## Scripts -/

structure Script where
  repo : Text
  format : Format
  /-- The manifest line the script changes, and its indentation. -/
  line : Nat
  indent : Nat
  /-- The image built on, and the place of the artefact in it. -/
  base : Text
  place : Text
  /-- The commands before the manifest is changed; the argument is the new image's name. -/
  prepare : Text → List Cmd
  /-- The commands after it. -/
  deploy : List Cmd

def Script.ref (s : Script) (v : Text) : Text := s.repo ++ ':' :: v

def Script.imageLine (s : Script) (v : Text) : Text :=
  List.replicate s.indent ' ' ++ ("image: ".toList ++ s.ref v)

def Script.commands (s : Script) (v : Text) : List Cmd :=
  s.prepare (s.ref v) ++ .sedChange s.line (s.imageLine v) :: s.deploy

/-- What the image made from an artefact is. -/
def Script.built (s : Script) (x : α) : Image α := ⟨s.base, [(s.place, x)]⟩

/-- The three scripts that put a war into a running tomcat and commit the container. The second `rm -rf`
of each removes the unpacked war beside it. -/
def tomcat (repo : Text) (format : Format) (base war : Text) : Script where
  repo := repo
  format := format
  line := 14
  indent := 8
  base := base
  place := war
  prepare ref := [.dockerRun base, .dockerCp war, .rmArtefact, .dockerStop, .dockerCommit ref, .dockerPush ref, .dockerRm]
  deploy := [.kubectlApply]

/-- `FuckWorld/fuck-world.sh` -/
def fuckWorld : Script :=
  tomcat "registry.cn-qingdao.aliyuncs.com/caonima/fuck-world".toList .day
    "registry.cn-qingdao.aliyuncs.com/caonima/tomcat7:1.8-redis".toList "fuck-world.war".toList

/-- `项目/assets/assets.sh` -/
def assets : Script :=
  tomcat "registry.cn-qingdao.aliyuncs.com/caonima/assets".toList .minute
    "registry.cn-qingdao.aliyuncs.com/caonima/tomcat:7.0.92-jre8-alpine".toList "assets.war".toList

/-- `项目/examen/examen.sh` -/
def examen : Script :=
  tomcat "registry.cn-qingdao.aliyuncs.com/caonima/examen".toList .minute
    "docker.io/tomcat:7.0.90-jre8-alpine".toList "examen.war".toList

/-- The two scripts that bring the artefact into the directory of a Dockerfile (`stage`) and build there. -/
def dockerfile (repo base place : Text) (stage : List Cmd) : Script where
  repo := repo
  format := .minute
  line := 15
  indent := 8
  base := base
  place := place
  prepare ref := stage ++ [.dockerBuild .staged ref base place, .rmStaged, .dockerPush ref]
  deploy := [.kubectlApply]

/-- `项目/liam/cao.sh`: the artefact is copied, then removed from the workspace. -/
def liam : Script :=
  dockerfile "192.168.240.73/test/liam".toList "tomcat:8-jre8-alpine".toList "/liam.jar".toList [.cpArtefact, .rmArtefact]

/-- `项目/suede/cao.sh`: the artefact is moved. -/
def suede : Script :=
  dockerfile "192.168.240.73/test/suede".toList "192.168.240.73/test/node:10.15.3-cnpm".toList "/suede".toList
    [.mvArtefact]

/-- The two scripts that build in the workspace and apply the manifest on another host. -/
def pipeline (repo base place : Text) (before : List Cmd) : Script where
  repo := repo
  format := .minute
  line := 14
  indent := 10
  base := base
  place := place
  prepare ref := before ++ [.dockerBuild .workspace ref base place, .dockerPush ref]
  deploy := [.scpManifest, .sshApply]

/-- `springboot-proc/cao.sh` -/
def endTest : Script :=
  pipeline "192.168.100.7/bzyq/end-test".toList "tomcat:8-jre8-alpine".toList "/liam.jar".toList []

/-- `vue-proc/cao.sh`: the directory on the other host is made first. -/
def frontTest : Script :=
  pipeline "192.168.100.7/bzyq/front-test".toList "nginx:alpine".toList "/usr/share/nginx/html/".toList [.sshMkdir]

/-- The scripts that apply the manifest where they run. -/
def localScripts : List Script := [fuckWorld, assets, examen, liam, suede]

/-- The scripts that apply a copy of the manifest on another host. -/
def remoteScripts : List Script := [endTest, frontTest]

/-! ## Running a script -/

section
variable (lay : Layout)

/-- One command; the mark says whether it may succeed. A failed command changes nothing, and the
script goes on. -/
def step (w : World α) (x : Cmd × Bool) : World α := if x.2 then (x.1.exec lay w).getD w else w

def succeeds (w : World α) (x : Cmd × Bool) : Bool := x.2 && (x.1.exec lay w).isSome

/-- The commands of a run that fail. -/
def failures : World α → List (Cmd × Bool) → List Cmd
  | _, [] => []
  | w, x :: xs => if succeeds lay w x then failures (step lay w x) xs else x.1 :: failures (step lay w x) xs

/-- The first commands of a script with their marks. -/
def Script.attempt (s : Script) (v : Text) (ok : Nat → Bool) : List (Cmd × Bool) :=
  (s.prepare (s.ref v)).mapIdx fun i c => (c, ok i)

/-- The commands from the change of the manifest on. -/
def Script.rest (s : Script) (v : Text) : List (Cmd × Bool) :=
  (.sedChange s.line (s.imageLine v) :: s.deploy).map fun c => (c, true)

/-- A run in which the commands before the change of the manifest succeed or fail as `ok` says. -/
def Script.exec (s : Script) (v : Text) (ok : Nat → Bool) (w : World α) : World α :=
  Run.run (step lay) w (s.attempt v ok ++ s.rest v)

end

/-! ## What the first commands leave alone -/

/-- The commands that touch neither a manifest nor the cluster. -/
def Cmd.prepares : Cmd → Bool
  | .sedChange _ _ | .kubectlApply | .scpManifest | .sshApply => false
  | _ => true

theorem prepare_prepares {s : Script} (hs : s ∈ localScripts ++ remoteScripts) (ref : Text) :
    ∀ c ∈ s.prepare ref, c.prepares = true := by
  simp only [localScripts, remoteScripts, List.cons_append, List.nil_append, List.mem_cons, List.not_mem_nil,
    or_false] at hs
  refine List.all_eq_true.1 ?_
  rcases hs with rfl | rfl | rfl | rfl | rfl | rfl | rfl <;> rfl

/-- The manifests and the cluster are the same. -/
def SameService (w w' : World α) : Prop :=
  w'.manifest = w.manifest ∧ w'.remote = w.remote ∧ w'.cluster = w.cluster

section
variable {lay : Layout}

theorem sameService_exec {w w' : World α} {c : Cmd} (hc : c.prepares = true) (h : c.exec lay w = some w') :
    SameService w w' := by
  unfold Cmd.exec at h
  split at h
  · obtain ⟨d, -, rfl⟩ := Option.map_eq_some_iff.1 h
    exact ⟨rfl, rfl, rfl⟩
  · unfold Cmd.execFile at h
    split at h
    · obtain ⟨x, -, rfl⟩ := Option.map_eq_some_iff.1 h
      exact ⟨rfl, rfl, rfl⟩
    · split at h
      · cases h; exact ⟨rfl, rfl, rfl⟩
      · cases h
    all_goals first
      | (cases h; exact ⟨rfl, rfl, rfl⟩)
      | cases hc

theorem sameService_step (w : World α) {x : Cmd × Bool} (hc : x.1.prepares = true) : SameService w (step lay w x) := by
  unfold step
  split
  · cases h : x.1.exec lay w with
    | none => exact ⟨rfl, rfl, rfl⟩
    | some w' => exact sameService_exec hc h
  · exact ⟨rfl, rfl, rfl⟩

theorem sameService_run : ∀ (xs : List (Cmd × Bool)) (w : World α), (∀ x ∈ xs, x.1.prepares = true) →
    SameService w (Run.run (step lay) w xs)
  | [], _, _ => ⟨rfl, rfl, rfl⟩
  | x :: xs, w, h => by
    have h1 : SameService w (step lay w x) := sameService_step w (h x (by simp))
    have h2 := sameService_run xs (step lay w x) fun y hy => h y (by simp [hy])
    exact ⟨h2.1.trans h1.1, h2.2.1.trans h1.2.1, h2.2.2.trans h1.2.2⟩

theorem sameService_attempt {s : Script} (hs : s ∈ localScripts ++ remoteScripts) (v : Text) (ok : Nat → Bool)
    (w : World α) : SameService w (Run.run (step lay) w (s.attempt v ok)) := by
  refine sameService_run _ _ fun x hx => ?_
  obtain ⟨i, hi, rfl⟩ := List.mem_mapIdx.1 hx
  exact prepare_prepares hs _ _ (List.getElem_mem hi)

theorem deploy_of_local {s : Script} (hs : s ∈ localScripts) : s.deploy = [.kubectlApply] := by
  simp only [localScripts, List.mem_cons, List.not_mem_nil, or_false] at hs
  rcases hs with rfl | rfl | rfl | rfl | rfl <;> rfl

theorem deploy_of_remote {s : Script} (hs : s ∈ remoteScripts) : s.deploy = [.scpManifest, .sshApply] := by
  simp only [remoteScripts, List.mem_cons, List.not_mem_nil, or_false] at hs
  rcases hs with rfl | rfl <;> rfl

theorem not_remote_of_local {s : Script} (hs : s ∈ localScripts) : s ∉ remoteScripts := by
  intro hr
  have h := deploy_of_local hs
  rw [deploy_of_remote hr] at h
  cases h

/-- What a run of a local script does to the manifest and the cluster, whatever failed before. -/
theorem exec_local {s : Script} (hs : s ∈ localScripts) (v : Text) (ok : Nat → Bool) (w : World α) :
    (s.exec lay v ok w).manifest = Sed.change s.line (s.imageLine v) w.manifest ∧
    (s.exec lay v ok w).remote = w.remote ∧
    (s.exec lay v ok w).cluster = w.cluster.apply lay (Run.run (step lay) w (s.attempt v ok)).daemon.registry
      (Sed.change s.line (s.imageLine v) w.manifest) := by
  have hsame : SameService w (Run.run (step lay) w (s.attempt v ok)) :=
    sameService_attempt (List.mem_append_left _ hs) v ok w
  rw [Script.exec, Run.run_append, Script.rest, deploy_of_local hs]
  generalize Run.run (step lay) w (s.attempt v ok) = w1 at hsame ⊢
  obtain ⟨h1, h2, h3⟩ := hsame
  rw [← h1, ← h2, ← h3]
  exact ⟨rfl, rfl, rfl⟩

/-- The same for a script that applies a copy on another host. -/
theorem exec_remote {s : Script} (hs : s ∈ remoteScripts) (v : Text) (ok : Nat → Bool) (w : World α) :
    (s.exec lay v ok w).manifest = Sed.change s.line (s.imageLine v) w.manifest ∧
    (s.exec lay v ok w).remote = some (Sed.change s.line (s.imageLine v) w.manifest) ∧
    (s.exec lay v ok w).cluster = w.cluster.apply lay (Run.run (step lay) w (s.attempt v ok)).daemon.registry
      (Sed.change s.line (s.imageLine v) w.manifest) := by
  have hsame : SameService w (Run.run (step lay) w (s.attempt v ok)) :=
    sameService_attempt (List.mem_append_right _ hs) v ok w
  rw [Script.exec, Run.run_append, Script.rest, deploy_of_remote hs]
  generalize Run.run (step lay) w (s.attempt v ok) = w1 at hsame ⊢
  obtain ⟨h1, h2, h3⟩ := hsame
  rw [← h1, ← h3]
  exact ⟨rfl, rfl, rfl⟩

end

end HahaDog.Deploy
