import HahaDogOps.Lib.Run

/-!
# Journals of what is there

A keeper adds things and takes them away, and writes each change down. `book` is what an entry means, `Kept` says
that the journal was true when it was written: nothing was added that clashes with what was there, nothing was
taken away that was not. `redo` is how a careless reader goes over it later: an addition that does not fit is
skipped, so is the removal of something absent. `redo_snapshot` says that such a reader, who starts from a
snapshot that is newer than the place in the journal where he begins, still ends right.
-/

namespace Journal

variable {α : Type*}

/-- An entry of a journal. -/
inductive Entry (α : Type*)
  | add (a : α)
  | del (a : α)

/-- What an entry says. -/
def book (S : Set α) : Entry α → Set α
  | .add a => insert a S
  | .del a => S \ {a}

/-- No two things clash. -/
def Apart (clash : α → α → Prop) (S : Set α) : Prop := S.Pairwise fun a b => ¬ clash a b

section
variable (clash : α → α → Prop)

/-- An entry that is true where it is written. -/
def Honest (S : Set α) : Entry α → Prop
  | .add a => ∀ b ∈ S, ¬ clash a b
  | .del a => a ∈ S

/-- A journal that was true from `S` on. -/
def Kept (S : Set α) (j : List (Entry α)) : Prop := Run.Along book (Honest clash) S j

open Classical in
/-- A reader who takes only things of the kind `keep`, and skips what does not fit. -/
noncomputable def redo (keep : α → Prop) (R : Set α) : Entry α → Set α
  | .add a => if keep a ∧ ∀ b ∈ R, ¬ clash a b then insert a R else R
  | .del a => R \ {a}

end

section
variable {clash : α → α → Prop} {keep : α → Prop} {S R M : Set α} {j k : List (Entry α)}

theorem kept_append : Kept clash S (j ++ k) ↔ Kept clash S j ∧ Kept clash (Run.run book S j) k := by
  induction j generalizing S with
  | nil => simp [Kept, Run.Along]
  | cons e j ih =>
    simp only [Kept, List.cons_append, Run.Along, Run.run_cons] at ih ⊢
    rw [ih, and_assoc]

theorem Apart.book [Std.Symm clash] {e : Entry α} (hS : Apart clash S) (he : Honest clash S e) :
    Apart clash (book S e) := by
  cases e with
  | add a =>
    refine hS.insert fun b hb _ => ⟨he b hb, fun h => he b hb (Std.Symm.symm _ _ h)⟩
  | del a => exact hS.mono Set.sdiff_subset

theorem Apart.run [Std.Symm clash] (hS : Apart clash S) (hj : Kept clash S j) : Apart clash (Run.run Journal.book S j) :=
  Run.inv_run (fun _ _ h he => h.book he) j S hS hj

theorem keep_redo (hR : ∀ a ∈ R, keep a) : ∀ a ∈ Run.run (redo clash keep) R j, keep a := by
  induction j generalizing R with
  | nil => exact hR
  | cons e j ih =>
    refine ih fun a ha => ?_
    cases e with
    | add b =>
      simp only [redo] at ha
      split_ifs at ha with hb
      · rcases ha with rfl | ha
        · exact hb.1
        · exact hR a ha
      · exact hR a ha
    | del b => exact hR a ha.1

variable (keep) in
/-- A reader who knows nothing that is not there takes every entry as it is. -/
theorem redo_of_subset (hR : R ⊆ S) (hj : Kept clash S j) :
    Run.run (redo clash keep) R j ⊆ Run.run book S j ∧
      ∀ a ∈ Run.run book S j, keep a → a ∉ Run.run (redo clash keep) R j → a ∈ S ∧ a ∉ R := by
  induction j generalizing S R with
  | nil => exact ⟨hR, fun a ha _ hn => ⟨ha, hn⟩⟩
  | cons e j ih =>
    obtain ⟨he, hj⟩ := hj
    cases e with
    | add a =>
      have hfit : ∀ b ∈ R, ¬ clash a b := fun b hb => he b (hR hb)
      by_cases hk : keep a
      · have hredo : redo clash keep R (.add a) = insert a R := if_pos ⟨hk, hfit⟩
        simp only [Run.run_cons, hredo]
        obtain ⟨h₁, h₂⟩ := ih (Set.insert_subset_insert hR) hj
        refine ⟨h₁, fun b hb hkb hn => ?_⟩
        obtain ⟨hbS, hbR⟩ := h₂ b hb hkb hn
        rw [Set.mem_insert_iff, not_or] at hbR
        exact ⟨hbS.resolve_left hbR.1, hbR.2⟩
      · have hredo : redo clash keep R (.add a) = R := if_neg fun h => hk h.1
        simp only [Run.run_cons, hredo]
        obtain ⟨h₁, h₂⟩ := ih (hR.trans (Set.subset_insert a S)) hj
        refine ⟨h₁, fun b hb hkb hn => ?_⟩
        obtain ⟨hbS, hbR⟩ := h₂ b hb hkb hn
        refine ⟨hbS.resolve_left ?_, hbR⟩
        rintro rfl
        exact hk hkb
    | del a =>
      obtain ⟨h₁, h₂⟩ := ih (Set.sdiff_subset_sdiff_left hR) hj
      refine ⟨h₁, fun b hb hkb hn => ?_⟩
      obtain ⟨⟨hbS, hba⟩, hbR⟩ := h₂ b hb hkb hn
      exact ⟨hbS, fun hb => hbR ⟨hb, hba⟩⟩

/-- **A snapshot from the future.** The reader has `M`, part of what is there at the end of the journal, and goes
over the journal from its beginning: he ends between `M` and what is there. -/
theorem redo_ahead [Std.Symm clash] (hS : Apart clash S) (hj : Kept clash S j) (hM : M ⊆ Run.run book S j)
    (hkeep : ∀ a ∈ M, keep a) :
    M ⊆ Run.run (redo clash keep) M j ∧ Run.run (redo clash keep) M j ⊆ Run.run book S j := by
  obtain ⟨E, hE⟩ : ∃ E, Run.run book S j = E := ⟨_, rfl⟩
  have hEapart : Apart clash E := hE ▸ hS.run hj
  -- on the way the reader's things are there, or will be at the end; what he misses of `M` is still to come
  suffices h : ∀ {j : List (Entry α)} {S R : Set α}, Kept clash S j → Run.run book S j = E → R ⊆ S ∪ E →
      (∀ a ∈ M, a ∉ R → a ∉ S) →
      M ⊆ Run.run (redo clash keep) R j ∧ Run.run (redo clash keep) R j ⊆ Run.run book S j by
    exact h hj hE (fun a ha => .inr (hE ▸ hM ha)) fun a ha hn => absurd ha hn
  intro j
  induction j with
  | nil =>
    rintro S R - rfl hR hmiss
    refine ⟨fun a ha => ?_, by simpa using hR⟩
    by_contra hn
    exact hmiss a ha hn (by simpa [hE] using hM ha)
  | cons e j ih =>
    rintro S R ⟨he, hj⟩ hend hR hmiss
    cases e with
    | add a =>
      have hgrow : R ⊆ book S (.add a) ∪ E := hR.trans (Set.union_subset_union_left E (Set.subset_insert a S))
      by_cases hfit : keep a ∧ ∀ b ∈ R, ¬ clash a b
      · have hredo : redo clash keep R (.add a) = insert a R := if_pos hfit
        simp only [Run.run_cons, hredo]
        refine ih hj hend (Set.insert_subset (.inl (Set.mem_insert a S)) hgrow) fun b hb hn => ?_
        rw [Set.mem_insert_iff, not_or] at hn
        rintro (rfl | hbS)
        · exact hn.1 rfl
        · exact hmiss b hb hn.2 hbS
      · have hredo : redo clash keep R (.add a) = R := if_neg hfit
        simp only [Run.run_cons, hredo]
        refine ih hj hend hgrow fun b hb hn => ?_
        rintro (rfl | hbS)
        · -- `b` itself was skipped: it would clash with something that is there at the end as well
          have hbE : b ∈ E := hE ▸ hM hb
          refine hfit ⟨hkeep b hb, fun d hd hclash => ?_⟩
          rcases hR hd with hdS | hdE
          · exact he d hdS hclash
          · exact hEapart hbE hdE (fun h => hn (h ▸ hd)) hclash
        · exact hmiss b hb hn hbS
    | del a =>
      refine ih hj hend ?_ fun b hb hn hbS => ?_
      · rintro b ⟨hb, hba⟩
        exact (hR hb).imp_left fun h => ⟨h, hba⟩
      · exact hmiss b hb (fun h => hn ⟨h, hbS.2⟩) hbS.1

/-- **A snapshot and the journal.** `M` was taken, perhaps not complete, between `j` and `k`; the reader begins at
`j` all the same. He ends with nothing that is not there, and misses only what the snapshot missed. -/
theorem redo_snapshot [Std.Symm clash] (hS : Apart clash S) (hj : Kept clash S (j ++ k)) (hM : M ⊆ Run.run book S j)
    (hkeep : ∀ a ∈ M, keep a) :
    Run.run (redo clash keep) M (j ++ k) ⊆ Run.run book S (j ++ k) ∧
      ∀ a ∈ Run.run book S (j ++ k), keep a → a ∉ Run.run (redo clash keep) M (j ++ k) →
        a ∈ Run.run book S j ∧ a ∉ M := by
  obtain ⟨hj, hk⟩ := kept_append.1 hj
  obtain ⟨hle, hsub⟩ := redo_ahead hS hj hM hkeep
  rw [Run.run_append, Run.run_append]
  obtain ⟨h₁, h₂⟩ := redo_of_subset keep hsub hk
  refine ⟨h₁, fun a ha hka hn => ?_⟩
  obtain ⟨haS, haR⟩ := h₂ a ha hka hn
  exact ⟨haS, fun h => haR (hle h)⟩

end

end Journal
