import Mathlib
/-!
# Runs of a step function

A system that takes one step after another: `run` for a step that always succeeds, `List.foldlM` for
one that may fail, `feed` for one that puts something out. The rules say what a whole run keeps when each
step keeps it, and when two runs stay in step. No system is fixed here.
-/

namespace Run

variable {σ τ ι κ ε : Type*}

/-- The state after the steps `is`. -/
def run (step : σ → ι → σ) (s : σ) (is : List ι) : σ := is.foldl step s

/-- The guard holds before every step of the run. -/
def Along (step : σ → ι → σ) (guard : σ → ι → Prop) : σ → List ι → Prop
  | _, [] => True
  | s, i :: is => guard s i ∧ Along step guard (step s i) is

instance decidableAlong {step : σ → ι → σ} {guard : σ → ι → Prop} [∀ s i, Decidable (guard s i)] :
    ∀ (s : σ) (is : List ι), Decidable (Along step guard s is)
  | _, [] => isTrue trivial
  | s, i :: is => @instDecidableAnd _ _ inferInstance (decidableAlong (step s i) is)

@[simp] theorem run_nil (step : σ → ι → σ) (s : σ) : run step s [] = s := rfl

@[simp] theorem run_cons (step : σ → ι → σ) (s : σ) (i : ι) (is : List ι) :
    run step s (i :: is) = run step (step s i) is := rfl

theorem run_append (step : σ → ι → σ) (s : σ) (is js : List ι) :
    run step s (is ++ js) = run step (run step s is) js := List.foldl_append

/-- **Invariant rule**: what holds first and is kept by every guarded step holds after a guarded run. -/
theorem inv_run {step : σ → ι → σ} {guard : σ → ι → Prop} {inv : σ → Prop}
    (hstep : ∀ s i, inv s → guard s i → inv (step s i)) :
    ∀ (is : List ι) (s : σ), inv s → Along step guard s is → inv (run step s is)
  | [], _, hs, _ => hs
  | i :: is, s, hs, h => inv_run hstep is (step s i) (hstep s i hs h.1) h.2

/-! ## Guarded runs -/

/-- A run is guarded iff the guard holds at the end of each part of it before the next step. -/
theorem along_iff {step : σ → ι → σ} {guard : σ → ι → Prop} : ∀ {is : List ι} {s : σ},
    Along step guard s is ↔ ∀ js i, js ++ [i] <+: is → guard (run step s js) i
  | [], s => by simp [Along]
  | i :: is, s => by
    rw [Along, along_iff]
    constructor
    · rintro ⟨hi, h⟩ js j hjs
      cases js with
      | nil =>
        obtain ⟨rfl, -⟩ := List.cons_prefix_cons.1 hjs
        exact hi
      | cons k js =>
        obtain ⟨rfl, hjs'⟩ := List.cons_prefix_cons.1 hjs
        exact h js j hjs'
    · intro h
      refine ⟨h [] i ⟨is, rfl⟩, fun js j hjs => ?_⟩
      exact h (i :: js) j (List.cons_prefix_cons.2 ⟨rfl, hjs⟩)

/-- **Something good is never lost.** Suppose the steps in `makes` establish `good`, no other step brings
it back, and `guard` is exactly what a step needs to keep it. Then a run that starts or makes something good
still has it after every part of the run iff every step is guarded. -/
theorem never_lost_iff {step : σ → ι → σ} {guard : σ → ι → Prop} {good : σ → Prop} {makes : ι → Prop}
    (hmakes : ∀ s i, makes i → good (step s i)) (hfrom : ∀ s i, good (step s i) → good s ∨ makes i)
    (hguard : ∀ s i, guard s i ↔ (good s → good (step s i))) :
    ∀ (is : List ι) (s : σ),
      (∀ js, js <+: is → good s ∨ (∃ i ∈ js, makes i) → good (run step s js)) ↔ Along step guard s is
  | [], s => by
    refine iff_of_true (fun js hjs h => ?_) trivial
    rw [List.prefix_nil.1 hjs] at h ⊢
    simpa using h
  | i :: is, s => by
    rw [Along, ← never_lost_iff hmakes hfrom hguard is (step s i), hguard]
    constructor
    · intro h
      refine ⟨fun hs => h [i] ⟨is, rfl⟩ (.inl hs), fun js hjs hg => ?_⟩
      refine h (i :: js) (List.cons_prefix_cons.2 ⟨rfl, hjs⟩) ?_
      rcases hg with hg | ⟨j, hj, hm⟩
      · rcases hfrom s i hg with hs | hm
        · exact .inl hs
        · exact .inr ⟨i, by simp, hm⟩
      · exact .inr ⟨j, by simp [hj], hm⟩
    · rintro ⟨hi, h⟩ js hjs hg
      cases js with
      | nil => simpa using hg
      | cons j js =>
        obtain ⟨rfl, hjs'⟩ := List.cons_prefix_cons.1 hjs
        refine h js hjs' ?_
        rcases hg with hs | ⟨k, hk, hm⟩
        · exact .inl (hi hs)
        · rcases List.mem_cons.1 hk with rfl | hk
          · exact .inl (hmakes s k hm)
          · exact .inr ⟨k, hk, hm⟩

/-! ## Loops that may fail -/

/-- **Commuting rule** for loops that may fail: if one round on the image of a state is the image of
one round, the whole loop is. -/
theorem foldlM_comm {step : σ → ι → Except ε σ} {step' : τ → κ → Except ε τ} (g : σ → τ) (h : ι → κ) :
    ∀ (is : List ι) (s : σ), (∀ i ∈ is, ∀ s, step' (g s) (h i) = (step s i).map g) →
      (is.map h).foldlM step' (g s) = (is.foldlM step s).map g
  | [], _, _ => rfl
  | i :: is, s, hs => by
    rw [List.map_cons, List.foldlM_cons, List.foldlM_cons, hs i (by simp)]
    cases hi : step s i with
    | error e => rfl
    | ok s' => exact foldlM_comm g h is s' fun j hj => hs j (by simp [hj])

/-! ## Steps with output -/

/-- The state after the steps and everything they put out. -/
def feed (step : σ → ι → σ × List κ) : σ → List ι → σ × List κ
  | s, [] => (s, [])
  | s, i :: is => ((feed step (step s i).1 is).1, (step s i).2 ++ (feed step (step s i).1 is).2)

@[simp] theorem feed_nil (step : σ → ι → σ × List κ) (s : σ) : feed step s [] = (s, []) := rfl

theorem feed_append (step : σ → ι → σ × List κ) : ∀ (is js : List ι) (s : σ),
    feed step s (is ++ js) =
      ((feed step (feed step s is).1 js).1, (feed step s is).2 ++ (feed step (feed step s is).1 js).2)
  | [], js, s => by simp
  | i :: is, js, s => by
    rw [List.cons_append, feed, feed_append step is js, feed, List.append_assoc]

/-- **Simulation rule**: two systems that answer alike in related states, and stay related, answer a whole run
alike. -/
theorem feed_sim {step : σ → ι → σ × List κ} {step' : τ → ι → τ × List κ} {rel : σ → τ → Prop} :
    ∀ (is : List ι) (s : σ) (t : τ),
      (∀ i ∈ is, ∀ s t, rel s t → rel (step s i).1 (step' t i).1 ∧ (step s i).2 = (step' t i).2) → rel s t →
      rel (feed step s is).1 (feed step' t is).1 ∧ (feed step s is).2 = (feed step' t is).2
  | [], _, _, _, h => ⟨h, rfl⟩
  | i :: is, s, t, hstep, h => by
    obtain ⟨hrel, hout⟩ := hstep i (by simp) s t h
    obtain ⟨hrel', hout'⟩ := feed_sim is _ _ (fun j hj => hstep j (by simp [hj])) hrel
    exact ⟨hrel', by simp only [feed, hout, hout']⟩

/-! ## A callback over a list -/

/-- Call `op` on every entry until a call returns something other than `0`. -/
def visit (op : ι → σ → Int × σ) : List ι → σ → Int × σ
  | [], s => (0, s)
  | i :: is, s => if (op i s).1 ≠ 0 then op i s else visit op is (op i s).2

theorem visit_append (op : ι → σ → Int × σ) : ∀ (is js : List ι) (s : σ), visit op (is ++ js) s =
    if (visit op is s).1 ≠ 0 then visit op is s else visit op js (visit op is s).2
  | [], js, s => rfl
  | i :: is, js, s => by
    by_cases h : (op i s).1 = 0
    · simp only [List.cons_append, visit, h, ne_eq, not_true_eq_false, if_false]
      exact visit_append op is js (op i s).2
    · simp [visit, h]

/-- **Simulation rule** for callbacks that never fail: the loop goes through, in step with `step`. -/
theorem visit_sim (op : ι → σ → Int × σ) (step : τ → ι → τ) (rel : τ → σ → Prop) :
    ∀ (is : List ι) (t : τ) (s : σ),
      (∀ i ∈ is, ∀ t s, rel t s → (op i s).1 = 0 ∧ rel (step t i) (op i s).2) → rel t s →
      (visit op is s).1 = 0 ∧ rel (run step t is) (visit op is s).2
  | [], _, _, _, h => ⟨rfl, h⟩
  | i :: is, t, s, hop, h => by
    obtain ⟨hzero, hrel⟩ := hop i (by simp) t s h
    simp only [visit, hzero, ne_eq, not_true_eq_false, if_false, run_cons]
    exact visit_sim op step rel is _ _ (fun j hj => hop j (by simp [hj])) hrel

end Run
