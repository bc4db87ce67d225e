import HahaDogOps.Deploy.Scripts
/-!
# The tomcat image builds on one host

`fuck-world.sh`, `assets.sh` and `examen.sh` each start a container, copy their war into it, stop it,
commit it as their image, push that and remove the container. All three call the container `ZZZ`, a name
the daemon has only once, and no command looks at whether the one before it succeeded. Jenkins runs
jobs of different projects side by side, and a job can be aborted.

`System` holds any number of runs; a schedule names the run that sends its next request to the daemon. A
run that is cut off is one the schedule does not name again. While every `docker run` finds the
name free, at most one run is between its `docker run` and its `docker rm` (`Exclusive`), and every
pushed image is its script's own (`pushed_own_of_free`). Otherwise two runs share a container
(`second_run_pushes_first_base`).
-/

namespace HahaDog.Deploy

variable {α : Type}

/-- One run of one of the three scripts: its version, and the war it finds. -/
structure Job (α : Type) where
  script : Script
  isTomcat : script = fuckWorld ∨ script = assets ∨ script = examen
  version : Text
  war : α

/-- The requests of a run, in order. -/
def Job.requests (j : Job α) : List (Request α) :=
  (j.script.commands j.version).filterMap (Cmd.request (some j.war) none)

/-- The script's own base image with the script's own war. -/
def Job.own (j : Job α) : Image α := j.script.built j.war

theorem Job.requests_eq (j : Job α) : j.requests =
    [.run j.script.base, .cp j.script.place (some j.war), .stop, .commit (j.script.ref j.version),
      .push (j.script.ref j.version), .rm] := by
  rcases j with ⟨script, rfl | rfl | rfl, version, war⟩ <;> rfl

structure System (α : Type) where
  daemon : Daemon α
  /-- How many of its requests each run has sent. -/
  sent : Nat → Nat
  /-- The images pushed, each with the run that pushed it. -/
  pushed : List (Nat × Image α)

/-- No container `ZZZ` and no run yet. -/
def System.init (images registry : Text → Option (Image α)) : System α := ⟨⟨none, images, registry⟩, fun _ => 0, []⟩

/-- The image a request pushes. -/
def Daemon.pushes (d : Daemon α) : Request α → Option (Image α)
  | .push ref => d.images ref
  | _ => none

section
variable (jobs : Nat → Job α)

/-- Run `i` sends its next request. -/
def System.next (s : System α) (i : Nat) : System α :=
  match (jobs i).requests[s.sent i]? with
  | none => s
  | some r =>
    { daemon := (s.daemon.request r).getD s.daemon
      sent := Function.update s.sent i (s.sent i + 1)
      pushed := ((s.daemon.pushes r).map (i, ·)).toList ++ s.pushed }

/-- A run that is about to start finds the name `ZZZ` free. -/
def Free (s : System α) (i : Nat) : Prop := s.sent i = 0 → s.daemon.zzz = none

/-- A run that is not between its first and its last request. -/
def Outside (s : System α) (i : Nat) : Prop := s.sent i = 0 ∨ s.sent i = 6

/-- Run `i` alone is inside, and the container `c` is what it made of it so far. -/
structure Owns (s : System α) (i : Nat) (c : Container α) : Prop where
  pos : 1 ≤ s.sent i
  lt : s.sent i ≤ 5
  others : ∀ j, j ≠ i → Outside s j
  image : c.image = if s.sent i = 1 then ⟨(jobs i).script.base, []⟩ else (jobs i).own
  stopped : 3 ≤ s.sent i → c.running = false
  committed : 4 ≤ s.sent i → s.daemon.images ((jobs i).script.ref (jobs i).version) = some (jobs i).own

/-- **The invariant**: `ZZZ` belongs to the one run that is inside. -/
structure Exclusive (s : System α) : Prop where
  idle : s.daemon.zzz = none → ∀ i, Outside s i
  busy : ∀ c, s.daemon.zzz = some c → ∃ i, Owns jobs s i c
  pushed : ∀ p ∈ s.pushed, p.2 = (jobs p.1).own

end

/-! ## One step -/

section
variable {jobs : Nat → Job α} {s : System α} {i : Nat}

theorem outside_update {j : Nat} (hj : j ≠ i) (h : Outside s j) (d : Daemon α) (n : Nat) (p : List (Nat × Image α)) :
    Outside ⟨d, Function.update s.sent i n, p⟩ j := by
  simpa [Outside, hj] using h

/-- A run that has sent everything does nothing. -/
theorem next_of_done (h : s.sent i = 6) : s.next jobs i = s := by
  rw [System.next, h, Job.requests_eq]; rfl

/-- The first request of a run that finds the name free. -/
theorem next_start (hs : Exclusive jobs s) (h0 : s.sent i = 0) (hz : s.daemon.zzz = none) :
    Exclusive jobs (s.next jobs i) := by
  have hnext : s.next jobs i = ⟨{ s.daemon with zzz := some ⟨⟨(jobs i).script.base, []⟩, true⟩ },
      Function.update s.sent i 1, s.pushed⟩ := by
    rw [System.next, h0, Job.requests_eq]
    simp [Daemon.request, Daemon.pushes, hz]
  rw [hnext]
  refine ⟨by simp, ?_, hs.pushed⟩
  rintro c hc
  cases hc
  refine ⟨i, ?_, ?_, fun j hj => outside_update hj (hs.idle hz j) _ _ _, ?_, ?_, ?_⟩
  all_goals simp

/-- A request of the run that owns the container. -/
theorem next_owner (hs : Exclusive jobs s) {c : Container α} (hz : s.daemon.zzz = some c) (ho : Owns jobs s i c) :
    Exclusive jobs (s.next jobs i) := by
  obtain ⟨hpos, hlt, hothers, himage, hstopped, hcommitted⟩ := ho
  have hout : ∀ d n p, ∀ j, j ≠ i → Outside ⟨d, Function.update s.sent i n, p⟩ j := fun d n p j hj =>
    outside_update hj (hothers j hj) d n p
  have hsent : s.sent i = 1 ∨ s.sent i = 2 ∨ s.sent i = 3 ∨ s.sent i = 4 ∨ s.sent i = 5 := by omega
  unfold System.next
  rw [Job.requests_eq]
  rcases hsent with h | h | h | h | h <;> simp only [h] at himage hstopped hcommitted ⊢
  · -- `cp` puts the war in
    refine ⟨by simp [Daemon.request, hz], ?_, by simpa [Daemon.pushes] using hs.pushed⟩
    rintro c' hc'
    have hc'' : c' = { c with image := (jobs i).own } := by
      simp [Daemon.request, hz, himage, putFile] at hc'
      rw [← hc']; rfl
    subst hc''
    exact ⟨i, by simp, by simp, hout _ _ _, by simp, by simp, by simp⟩
  · -- `stop`
    refine ⟨by simp [Daemon.request, hz], ?_, by simpa [Daemon.pushes] using hs.pushed⟩
    rintro c' hc'
    have hc'' : c' = { c with running := false } := by
      simp [Daemon.request, hz] at hc'
      exact hc'.symm
    subst hc''
    exact ⟨i, by simp, by simp, hout _ _ _, by simpa using himage, by simp, by simp⟩
  · -- `commit`
    refine ⟨by simp [Daemon.request, hz], ?_, by simpa [Daemon.pushes] using hs.pushed⟩
    rintro c' hc'
    have hc'' : c' = c := by
      simp [Daemon.request, hz] at hc'
      exact hc'.symm
    subst hc''
    exact ⟨i, by simp, by simp, hout _ _ _, by simpa using himage, by simpa using hstopped, by
      simpa [Daemon.request, hz] using himage⟩
  · -- `push` sends what was committed
    have hown := hcommitted (by omega)
    refine ⟨by simp [Daemon.request, hz, hown], ?_, ?_⟩
    · rintro c' hc'
      have hc'' : c' = c := by
        simp [Daemon.request, hz, hown] at hc'
        exact hc'.symm
      subst hc''
      exact ⟨i, by simp, by simp, hout _ _ _, by simpa using himage, by simpa using hstopped, by
        simp [Daemon.request, hown]⟩
    · intro p hp
      simp [Daemon.pushes, hown] at hp
      rcases hp with rfl | hp
      · rfl
      · exact hs.pushed p hp
  · -- `rm` succeeds, since the container is stopped
    have hrun := hstopped (by omega)
    have hd : s.daemon.request .rm = some { s.daemon with zzz := none } := by
      rcases c with ⟨image, running⟩
      cases hrun
      simp [Daemon.request, hz]
    refine ⟨fun _ j => ?_, by simp [hd], by simpa [Daemon.pushes] using hs.pushed⟩
    by_cases hj : j = i
    · subst hj; exact .inr (by simp)
    · exact hout _ _ _ j hj

/-- **Every step that finds the name free when it starts a run keeps the invariant.** -/
theorem exclusive_next (hs : Exclusive jobs s) (hfree : Free s i) : Exclusive jobs (s.next jobs i) := by
  cases hz : s.daemon.zzz with
  | none =>
    rcases hs.idle hz i with h | h
    · exact next_start hs h hz
    · rwa [next_of_done h]
  | some c =>
    obtain ⟨o, ho⟩ := hs.busy c hz
    by_cases hi : i = o
    · subst hi; exact next_owner hs hz ho
    · rcases ho.others i hi with h | h
      · rw [hfree h] at hz; cases hz
      · rwa [next_of_done h]

end

/-! ## Whole schedules -/

theorem exclusive_init (jobs : Nat → Job α) (images registry : Text → Option (Image α)) :
    Exclusive jobs (System.init images registry) := by
  refine ⟨fun _ _ => .inl rfl, ?_, ?_⟩
  · intro c hc; cases hc
  · intro p hp; cases hp

/-- **Isolation.** In every schedule of any number of runs, some perhaps cut off, in which each `docker run`
is sent while no container `ZZZ` exists, every pushed image is the own base with the own war of the
run that pushed it. -/
theorem pushed_own_of_free (jobs : Nat → Job α) (images registry : Text → Option (Image α)) (schedule : List Nat)
    (hfree : Run.Along (System.next jobs) Free (System.init images registry) schedule) :
    ∀ p ∈ (Run.run (System.next jobs) (System.init images registry) schedule).pushed, p.2 = (jobs p.1).own := by
  have h := Run.inv_run (fun s i (hs : Exclusive jobs s) hi => exclusive_next hs hi) schedule
    (System.init images registry) (exclusive_init jobs images registry) hfree
  exact h.pushed

/-- Two runs: `assets.sh` with war 1, `examen.sh` with war 2. -/
def twoJobs (i : Nat) : Job Nat :=
  if i = 0 then ⟨assets, by simp, "2019-05-14-17-06".toList, 1⟩ else ⟨examen, by simp, "2019-05-14-17-06".toList, 2⟩

theorem one_after_the_other :
    Run.Along (System.next twoJobs) Free (System.init (fun _ => none) fun _ => none) [0, 0, 0, 0, 0, 0, 1, 1, 1, 1, 1] ∧
    ∀ p ∈ (Run.run (System.next twoJobs) (System.init (fun _ => none) fun _ => none)
      [0, 0, 0, 0, 0, 0, 1, 1, 1, 1, 1]).pushed, p.2 = (twoJobs p.1).own := by
  have h : Run.Along (System.next twoJobs) Free (System.init (fun _ => none) fun _ => none)
      [0, 0, 0, 0, 0, 0, 1, 1, 1, 1, 1] := by
    refine ⟨?_, ?_, ?_, ?_, ?_, ?_, ?_, ?_, ?_, ?_, ?_, trivial⟩
    all_goals unfold Free; decide
  exact ⟨h, pushed_own_of_free twoJobs _ _ _ h⟩

/-- `examen.sh` starts while the container of `assets.sh` is there: it commits and pushes that one. -/
theorem second_run_pushes_first_base :
    ¬ ∀ p ∈ (Run.run (System.next twoJobs) (System.init (fun _ => none) fun _ => none)
      [0, 0, 1, 1, 1, 1, 1]).pushed, p.2 = (twoJobs p.1).own := by
  decide

end HahaDog.Deploy
