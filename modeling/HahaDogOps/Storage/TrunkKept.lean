import HahaDogOps.Storage.TrunkStore

/-!
# Stored files stay as they are

The invariant of `TrunkStore`: every task and every file has a block of its own, granted, in the hands of
`trunk_alloc_confirm`, or live. A task writes inside its own block, and the blocks share no byte
(`TrunkSafety`), so the others see nothing of it.
-/

namespace HahaDog.Trunk

open FileName Base64

/-! ## What the trunk server leaves alone -/

/-- Blocks outside `skip` stay granted, live, or about to be confirmed. -/
structure Keeps (skip : Block → Prop) (s s' : Sys) : Prop where
  granted : ∀ b ∈ s.granted, ¬ skip b → b ∈ s'.granted
  live : ∀ b ∈ s.live, ¬ skip b → b ∈ s'.live
  done : ∀ b, .done b true ∈ s.jobs → ¬ skip b → .done b true ∈ s'.jobs

/-- The block that an act is about. -/
def Act.skips (s : Sys) : Act → Block → Prop
  | .confirm b _, d => d = b
  | .free b _, d => d = b
  | .logDone i _, d => s.jobs[i]? = some (.done d true)
  | .restart .., _ => True
  | _, _ => False

section
variable {c : Config} {s s' : Sys} {skip skip' : Block → Prop}

theorem Keeps.refl : Keeps skip s s := ⟨fun _ h _ => h, fun _ h _ => h, fun _ h _ => h⟩

theorem Keeps.mono (h : Keeps skip s s') (hskip : ∀ b, skip b → skip' b) : Keeps skip' s s' :=
  ⟨fun b hb hn => h.granted b hb fun hs => hn (hskip b hs), fun b hb hn => h.live b hb fun hs => hn (hskip b hs),
    fun b hb hn => h.done b hb fun hs => hn (hskip b hs)⟩

theorem done_mem_eraseIdx {i : Nat} {j : Job} {b : Block} (h : s.jobs[i]? = some j) (hne : j ≠ .done b true)
    (hb : .done b true ∈ s.jobs) : .done b true ∈ s.jobs.eraseIdx i := by
  rcases List.mem_cons.1 ((jobs_perm h).mem_iff.1 hb) with he | hb
  · exact absurd he.symm hne
  · exact hb

theorem keeps_step (c : Config) (s : Sys) (a : Act) : Keeps (a.skips s) s (step c s a) := by
  cases a with
  | alloc path size sub io =>
    simp only [step]
    split
    · exact ⟨fun _ h _ => h, fun _ h _ => h, fun _ h _ => List.mem_cons_of_mem _ h⟩
    · exact ⟨fun _ h _ => h, fun _ h _ => h, fun _ h _ => h⟩
  | logCut i io =>
    simp only [step]
    split
    · next b size h =>
      have hdone : ∀ d, .done d true ∈ s.jobs → .done d true ∈ s.jobs.eraseIdx i := fun d =>
        done_mem_eraseIdx h (by simp)
      split
      · exact ⟨fun _ h _ => h, fun _ h _ => h, fun d h _ => hdone d h⟩
      · split <;> exact ⟨fun _ h _ => h, fun _ h _ => h, fun d h _ => List.mem_cons_of_mem _ (hdone d h)⟩
    · exact .refl
  | addRest i io =>
    simp only [step]
    split
    · next b size h =>
      have hdone : ∀ d, .done d true ∈ s.jobs → .done d true ∈ s.jobs.eraseIdx i := fun d =>
        done_mem_eraseIdx h (by simp)
      split
      · exact ⟨fun _ h _ => h, fun _ h _ => h, fun d h _ => List.mem_cons_of_mem _ (hdone d h)⟩
      · exact ⟨fun _ h _ => h, fun _ h _ => h, fun d h _ => hdone d h⟩
    · exact .refl
  | grant i io =>
    simp only [step]
    split
    · next b h =>
      have hdone : ∀ d, .done d true ∈ s.jobs → .done d true ∈ s.jobs.eraseIdx i := fun d =>
        done_mem_eraseIdx h (by simp)
      split
      · exact ⟨fun _ h _ => List.mem_cons_of_mem _ h, fun _ h _ => h, fun d h _ => hdone d h⟩
      · exact ⟨fun _ h _ => h, fun _ h _ => h, fun d h _ => hdone d h⟩
    · exact .refl
  | confirm b status =>
    have hgranted : ∀ d ∈ s.granted, d ≠ b → d ∈ s.granted.erase b := fun d hd hne =>
      (List.mem_erase_of_ne hne).2 hd
    simp only [step]
    split
    · split
      · exact ⟨hgranted, fun _ h _ => h, fun _ h _ => List.mem_cons_of_mem _ h⟩
      · exact ⟨hgranted, fun _ h _ => h, fun _ h _ => h⟩
    · exact ⟨hgranted, fun _ h _ => h, fun _ h _ => h⟩
  | logDone i io =>
    simp only [step]
    split
    · next b stored h =>
      have hdone : ∀ d, .done d true ∈ s.jobs → ¬ s.jobs[i]? = some (.done d true) → .done d true ∈ s.jobs.eraseIdx i := by
        intro d hd hn
        refine done_mem_eraseIdx h (fun he => hn ?_) hd
        rw [h, he]
      split
      · exact ⟨fun _ h _ => h, fun _ h _ => List.mem_cons_of_mem _ h, hdone⟩
      · exact ⟨fun _ h _ => h, fun _ h _ => h, hdone⟩
    · exact .refl
  | free b io =>
    exact ⟨fun _ h _ => h, fun d hd hne => (List.mem_erase_of_ne hne).2 hd, fun _ h _ => h⟩
  | advance path sub io =>
    simp only [step]
    split
    · exact ⟨fun _ h _ => h, fun _ h _ => h, fun _ h _ => List.mem_cons_of_mem _ h⟩
    · exact ⟨fun _ h _ => h, fun _ h _ => h, fun _ h _ => h⟩
  | addFresh i =>
    simp only [step]
    split
    · next b h =>
      have hdone : ∀ d, .done d true ∈ s.jobs → .done d true ∈ s.jobs.eraseIdx i := fun d =>
        done_mem_eraseIdx h (by simp)
      split <;> exact ⟨fun _ h _ => h, fun _ h _ => h, fun d h _ => hdone d h⟩
    · exact .refl
  | save written => exact ⟨fun _ h _ => h, fun _ h _ => h, fun _ h _ => h⟩
  | restart reload occupied io =>
    exact ⟨fun _ _ h => absurd trivial h, fun _ _ h => absurd trivial h, fun _ _ h => absurd trivial h⟩

theorem keeps_confirm (c : Config) (s : Sys) (b : Block) (status : Except Errno Unit) :
    Keeps (· = b) s (step c s (.confirm b status)) := keeps_step c s (.confirm b status)

/-- A confirmed block is out of the trees, and its record is to be written. -/
theorem confirm_done (hs : Inv c s) {b : Block} (hb : b ∈ s.granted) :
    .done b true ∈ (step c s (.confirm b (.ok ()))).jobs := by
  obtain ⟨m, hstep, -⟩ := (deleteSpace_spec hs.mem).1 (hs.granted_held b hb)
  simp only [step, confirmDeletes, if_true, hstep]
  exact List.mem_cons_self

theorem logDone_live {i : Nat} {b : Block} (h : s.jobs[i]? = some (.done b true)) :
    b ∈ (step c s (.logDone i (.ok ()))).live := by
  simp only [step, h]
  exact List.mem_cons_self

theorem Inv.ne_apart (hs : Inv c s) {b d : Block} (hb : b ∈ everything s) (hd : d ∈ everything s) (hne : b ≠ d) :
    ¬ Overlap b d := hs.tiled.apart.forall hb hd hne

theorem Inv.granted_everything (hs : Inv c s) {b : Block} (hb : b ∈ s.granted) : b ∈ everything s :=
  List.mem_append_left _ (hs.mem.mem_held.2 ⟨_, hs.granted_held b hb⟩)

theorem live_everything {b : Block} (hb : b ∈ s.live) : b ∈ everything s :=
  List.mem_append_right _ (List.mem_append_right _ (List.mem_append_left _ hb))

theorem done_everything {b : Block} (hb : .done b true ∈ s.jobs) : b ∈ everything s :=
  List.mem_append_right _ (List.mem_append_left _ (List.mem_map.2 ⟨_, hb, rfl⟩))

theorem Inv.granted_not_live (hs : Inv c s) {b : Block} (hb : b ∈ s.granted) : b ∉ s.live := fun hlive =>
  List.disjoint_of_nodup_append hs.tenants.nodup hb hlive

theorem Inv.done_not_live (hs : Inv c s) {b : Block} (hb : .done b true ∈ s.jobs) : b ∉ s.live := by
  intro hlive
  have hdisj := List.disjoint_of_nodup_append (List.nodup_append.1 hs.tiled.nodup).2.1
  exact hdisj (List.mem_map.2 ⟨_, hb, rfl⟩) (List.mem_append_left _ hlive)

end

/-! ## Writing inside a block -/

/-- The disks differ inside `b` at most. -/
def Within (b : Block) (d d' : Disk) : Prop := ∀ f i, ¬ (f = b.file ∧ b.offset ≤ i ∧ i < b.stop) → d' f i = d f i

/-- The disks agree inside `b`. -/
def SameIn (b : Block) (d d' : Disk) : Prop := ∀ off n, b.offset ≤ off → off + n ≤ b.stop →
  Span.read d' b.file off n = Span.read d b.file off n

section
variable {b e : Block} {d d' d'' : Disk}

theorem SameIn.refl : SameIn b d d := fun _ _ _ _ => rfl

theorem Within.refl : Within b d d := fun _ _ _ => rfl

theorem Within.trans (h : Within b d d') (h' : Within b d' d'') : Within b d d'' := fun f i hi =>
  (h' f i hi).trans (h f i hi)

theorem within_write {off : Nat} {bs : Bytes} (hlo : b.offset ≤ off) (hhi : off + bs.length ≤ b.stop) :
    Within b d (Span.write d b.file off bs) := by
  intro f i hi
  apply Span.write_apart
  by_cases hf : f = b.file
  · by_cases hlt : i < off
    · exact .inr (.inl hlt)
    · refine .inr (.inr ?_)
      by_contra hn
      exact hi ⟨hf, by omega, by omega⟩
  · exact .inl hf

theorem Within.sameIn (h : Within b d d') (hno : ¬ Overlap b e) : SameIn e d d' := by
  intro off n hlo hhi
  refine Span.read_congr fun i hi => h _ _ ?_
  rintro ⟨hf, hge, hlt⟩
  exact hno ⟨hf, by omega, by omega⟩

theorem Stored.OnDisk.frame {f : Stored} (h : f.OnDisk d) (hsame : SameIn f.block d d') : f.OnDisk d' := by
  have hend := f.length_content_le
  refine ⟨?_, ?_⟩
  · rw [hsame _ _ le_rfl (by omega)]
    exact h.1
  · rw [hsame _ _ (by omega) hend]
    exact h.2

/-- The header and the zeros fill the block. -/
theorem length_deleted (hsize : headerSize ≤ b.size) : (deleted b).length = b.size := by
  rw [deleted, List.length_append, length_packHeader, List.length_replicate, List.length_replicate]
  simp only [headerSize] at *
  omega

theorem within_deleted (hsize : headerSize ≤ b.size) (k : Nat) :
    Within b d (Span.write d b.file b.offset ((deleted b).take k)) := by
  refine within_write le_rfl ?_
  have := length_deleted hsize
  simp only [List.length_take, Block.stop]
  omega

end

/-! ## The invariant -/

def Writing.Ok (sys : Sys) (disk : Disk) (w : Writing) : Prop :=
  match w.phase with
  | .queued => w.file.block ∈ sys.granted
  | .opened written => w.file.block ∈ sys.granted ∧ written ≤ w.file.content.length ∧
      Span.read disk w.file.block.file (w.file.block.offset + headerSize) written = w.file.content.take written
  | .confirming => .done w.file.block true ∈ sys.jobs ∧ w.file.OnDisk disk

def Deleting.Ok (sys : Sys) (d : Deleting) : Prop := d.block ∈ sys.live ∧ headerSize ≤ d.block.size

/-- What was read is the front of the content, and the rest comes next. -/
def Reading.Ok (files : List Stored) (r : Reading) : Prop := ∀ f, r.source = some f →
  f ∈ files ∧ r.fd = ⟨f.block.file, f.block.offset + headerSize + r.got.length⟩ ∧
    r.got.length + r.remain ≤ f.content.length ∧ r.got = f.content.take r.got.length

/-- The blocks of the tasks that write, and of the files. -/
def used (s : Store) : List Block :=
  s.writings.map (·.file.block) ++ (s.deletings.map (·.block) ++ s.files.map (·.block))

structure StoreInv (c : Config) (s : Store) : Prop where
  sys : Inv c s.sys
  nodup : (used s).Nodup
  writings : ∀ w ∈ s.writings, w.Ok s.sys s.disk
  deletings : ∀ d ∈ s.deletings, d.Ok s.sys
  files : ∀ f ∈ s.files, f.block ∈ s.sys.live ∧ f.OnDisk s.disk
  readings : ∀ r ∈ s.readings, r.Ok s.files

theorem storeInv_init (c : Config) : StoreInv c Store.init :=
  ⟨inv_init c, by simp [used, Store.init], by simp [Store.init], by simp [Store.init], by simp [Store.init],
    by simp [Store.init]⟩

section
variable {c : Config} {s s' : Store} {skip : Block → Prop} {sys' : Sys} {d' : Disk} {i : Nat} {w w' : Writing}
  {d : Deleting}

theorem Writing.Ok.everything (hs : Inv c s.sys) (h : w.Ok s.sys s.disk) : w.file.block ∈ everything s.sys := by
  unfold Writing.Ok at h
  split at h
  · exact hs.granted_everything h
  · exact hs.granted_everything h.1
  · exact done_everything h.1

theorem Writing.Ok.not_live (hs : Inv c s.sys) (h : w.Ok s.sys s.disk) : w.file.block ∉ s.sys.live := by
  unfold Writing.Ok at h
  split at h
  · exact hs.granted_not_live h
  · exact hs.granted_not_live h.1
  · exact hs.done_not_live h.1

theorem Writing.Ok.frame (h : w.Ok s.sys s.disk) (hkeep : Keeps skip s.sys sys') (hskip : ¬ skip w.file.block)
    (hsame : SameIn w.file.block s.disk d') : w.Ok sys' d' := by
  have hend := w.file.length_content_le
  unfold Writing.Ok at h ⊢
  split at h
  · exact hkeep.granted _ h hskip
  · obtain ⟨hg, hle, hread⟩ := h
    refine ⟨hkeep.granted _ hg hskip, hle, ?_⟩
    rw [hsame _ _ (by omega) (by omega), hread]
  · exact ⟨hkeep.done _ h.1 hskip, h.2.frame hsame⟩

theorem StoreInv.used_everything (hs : StoreInv c s) : ∀ b ∈ used s, b ∈ everything s.sys := by
  intro b hb
  simp only [used, List.mem_append, List.mem_map] at hb
  rcases hb with ⟨w, hw, rfl⟩ | ⟨d, hd, rfl⟩ | ⟨f, hf, rfl⟩
  · exact (hs.writings w hw).everything hs.sys
  · exact live_everything (hs.deletings d hd).1
  · exact live_everything (hs.files f hf).1

/-- **Frame rule**: what is not about the blocks in `skip` stays right when the trunk server keeps those blocks and the
disk is the same inside them; the rest has to be shown. -/
theorem StoreInv.next (hs : StoreInv c s) (skip : Block → Prop) (hsys : Inv c s'.sys) (hkeep : Keeps skip s.sys s'.sys)
    (hsame : ∀ b ∈ used s, ¬ skip b → SameIn b s.disk s'.disk) (hnodup : (used s').Nodup)
    (hw : ∀ w ∈ s'.writings, w ∈ s.writings ∧ ¬ skip w.file.block ∨ w.Ok s'.sys s'.disk)
    (hd : ∀ d ∈ s'.deletings, d ∈ s.deletings ∧ ¬ skip d.block ∨ d.Ok s'.sys)
    (hf : ∀ f ∈ s'.files, f ∈ s.files ∧ ¬ skip f.block ∨ f.block ∈ s'.sys.live ∧ f.OnDisk s'.disk)
    (hr : ∀ r ∈ s'.readings, r.Ok s'.files) : StoreInv c s' := by
  refine ⟨hsys, hnodup, fun w hmem => ?_, fun d hmem => ?_, fun f hmem => ?_, hr⟩
  · rcases hw w hmem with ⟨hold, hn⟩ | hok
    · have hused : w.file.block ∈ used s := List.mem_append_left _ (List.mem_map_of_mem hold)
      exact (hs.writings w hold).frame hkeep hn (hsame _ hused hn)
    · exact hok
  · rcases hd d hmem with ⟨hold, hn⟩ | hok
    · exact ⟨hkeep.live _ (hs.deletings d hold).1 hn, (hs.deletings d hold).2⟩
    · exact hok
  · rcases hf f hmem with ⟨hold, hn⟩ | hok
    · have hused : f.block ∈ used s :=
        List.mem_append_right _ (List.mem_append_right _ (List.mem_map_of_mem hold))
      exact ⟨hkeep.live _ (hs.files f hold).1 hn, (hs.files f hold).2.frame (hsame _ hused hn)⟩
    · exact hok

theorem perm_cons_eraseIdx {α : Type*} {l : List α} {a : α} (h : l[i]? = some a) : l.Perm (a :: l.eraseIdx i) := by
  obtain ⟨hi, rfl⟩ := List.getElem?_eq_some_iff.1 h
  exact (List.getElem_cons_eraseIdx_perm hi).symm

theorem used_writing (h : s.writings[i]? = some w) : (used s).Perm (w.file.block ::
    used { s with writings := s.writings.eraseIdx i }) :=
  ((perm_cons_eraseIdx h).map _).append_right _

theorem used_deleting (h : s.deletings[i]? = some d) : (used s).Perm (d.block ::
    used { s with deletings := s.deletings.eraseIdx i }) :=
  ((((perm_cons_eraseIdx h).map _).append_right _).append_left _).trans List.perm_middle

/-- A block that nothing else uses. -/
def Alone (b : Block) (s : Store) : Prop :=
  (∀ w ∈ s.writings, w.file.block ≠ b) ∧ (∀ d ∈ s.deletings, d.block ≠ b) ∧ ∀ f ∈ s.files, f.block ≠ b

theorem alone_iff {b : Block} : Alone b s ↔ b ∉ used s := by
  simp only [Alone, used, List.mem_append, List.mem_map, not_or, not_exists, not_and]

theorem StoreInv.writing_alone (hs : StoreInv c s) (h : s.writings[i]? = some w) :
    Alone w.file.block { s with writings := s.writings.eraseIdx i } :=
  alone_iff.2 (List.nodup_cons.1 ((used_writing h).nodup_iff.1 hs.nodup)).1

theorem StoreInv.deleting_alone (hs : StoreInv c s) (h : s.deletings[i]? = some d) :
    Alone d.block { s with deletings := s.deletings.eraseIdx i } :=
  alone_iff.2 (List.nodup_cons.1 ((used_deleting h).nodup_iff.1 hs.nodup)).1

/-- Writing inside a used block is not seen in the others. -/
theorem StoreInv.sameIn (hs : StoreInv c s) {b : Block} (hb : b ∈ everything s.sys) (hwithin : Within b s.disk d') :
    ∀ e ∈ used s, ¬ e = b → SameIn e s.disk d' := fun e he hne =>
  hwithin.sameIn (hs.sys.ne_apart hb (hs.used_everything e he) (Ne.symm hne))

/-- A write task goes on, or is done: its block is the only one concerned. -/
theorem StoreInv.writing_step (hs : StoreInv c s) (h : s.writings[i]? = some w) (new : List Writing)
    (hwithin : Within w.file.block s.disk d') (hsys : Inv c sys') (hkeep : Keeps (· = w.file.block) s.sys sys')
    (hnew : ∀ w' ∈ new, w'.file = w.file ∧ w'.Ok sys' d') (hlen : new.length ≤ 1) :
    StoreInv c { s with sys := sys', disk := d', writings := new ++ s.writings.eraseIdx i } := by
  have halone := hs.writing_alone h
  have hb := (hs.writings w (List.mem_of_getElem? h)).everything hs.sys
  refine hs.next (· = w.file.block) hsys hkeep (hs.sameIn hb hwithin) ?_ (fun w' hw' => ?_)
    (fun d hd => .inl ⟨hd, halone.2.1 d hd⟩) (fun f hf => .inl ⟨hf, halone.2.2 f hf⟩) hs.readings
  · have hnodup := (used_writing h).nodup_iff.1 hs.nodup
    match new, hlen with
    | [], _ => exact (List.nodup_cons.1 hnodup).2
    | [w'], _ =>
      have heq := (hnew w' List.mem_cons_self).1
      rw [← heq] at hnodup
      exact hnodup
  · rcases List.mem_append.1 hw' with hw' | hw'
    · exact .inr (hnew w' hw').2
    · exact .inl ⟨List.mem_of_mem_eraseIdx hw', halone.1 w' hw'⟩

/-! ## Uploads -/

theorem within_cleanUp (w : Writing) (k : Nat) (disk : Disk) : Within w.file.block disk (cleanUp w k disk) := by
  unfold cleanUp
  split
  · split
    · exact within_deleted w.file.headerSize_le k
    · exact .refl
  · exact .refl

theorem StoreInv.fail (hs : StoreInv c s) (h : s.writings[i]? = some w) (hgranted : w.file.block ∈ s.sys.granted)
    (hwithin : Within w.file.block s.disk d') (e : Errno) : StoreInv c (fail c i w.file e { s with disk := d' }) :=
  hs.writing_step h [] hwithin (hs.sys.confirm hgranted) (keeps_confirm c s.sys _ _) (by simp) (by simp)

variable {plain : Bool → Int → List Char → Except Errno Stat}

theorem StoreInv.upload (hs : StoreInv c s) {f : Stored} (hgranted : f.block ∈ s.sys.granted)
    (hfree : ∀ w ∈ s.writings, w.file.block ≠ f.block) : StoreInv c (Op.step c plain s (.upload f)) := by
  have hlive := hs.sys.granted_not_live hgranted
  have halone : Alone f.block s := by
    refine ⟨hfree, fun d hd he => ?_, fun g hg he => ?_⟩
    · exact hlive (he ▸ (hs.deletings d hd).1)
    · exact hlive (he ▸ (hs.files g hg).1)
  refine hs.next (fun _ => False) hs.sys .refl (fun _ _ _ => .refl) ?_ (fun w hw => ?_) (fun d hd => .inl ⟨hd, id⟩)
    (fun g hg => .inl ⟨hg, id⟩) hs.readings
  · exact List.nodup_cons.2 ⟨alone_iff.1 halone, hs.nodup⟩
  · rcases List.mem_cons.1 hw with rfl | hw
    · exact .inr hgranted
    · exact .inl ⟨hw, id⟩

theorem StoreInv.openFile (hs : StoreInv c s) {io : Except Errno Unit} :
    StoreInv c (Op.step c plain s (.openFile i io)) := by
  simp only [Op.step]
  split
  · next f h =>
    have hgranted : f.block ∈ s.sys.granted := hs.writings _ (List.mem_of_getElem? h)
    split
    · next e => exact hs.fail h hgranted .refl e
    · split
      · next e _ => exact hs.fail h hgranted .refl e
      · refine hs.writing_step h [⟨f, .opened 0⟩] .refl hs.sys .refl ?_ le_rfl
        simpa [Writing.Ok, Span.read] using hgranted
  · exact hs

theorem StoreInv.writeFile (hs : StoreInv c s) {n k : Nat} {io : Except Errno Unit} :
    StoreInv c (Op.step c plain s (.writeFile i n k io)) := by
  simp only [Op.step]
  split
  · next f written h =>
    obtain ⟨hgranted, hle, hread⟩ : f.block ∈ s.sys.granted ∧ written ≤ f.content.length ∧
        Span.read s.disk f.block.file (f.block.offset + headerSize) written = f.content.take written :=
      hs.writings _ (List.mem_of_getElem? h)
    have hend := f.length_content_le
    have hlen : ((f.content.drop written).take n).length = min n (f.content.length - written) := by simp
    have hwithin : Within f.block s.disk (Span.write s.disk f.block.file (f.block.offset + headerSize + written)
        ((f.content.drop written).take n)) := within_write (by omega) (by omega)
    split
    · -- what is on disk grows by the buffer
      refine hs.writing_step h [⟨f, _⟩] hwithin hs.sys .refl ?_ le_rfl
      simp only [List.mem_singleton, forall_eq, Writing.Ok, true_and]
      refine ⟨hgranted, by omega, ?_⟩
      have htake : (f.content.drop written).take ((f.content.drop written).take n).length =
          (f.content.drop written).take n := by
        rw [List.take_eq_take_iff]
        simp
      rw [Span.read_add, Span.read_write_apart (.inr (.inl le_rfl)), hread, Span.read_write, List.take_add, htake]
    · next e =>
      exact hs.fail h hgranted (hwithin.trans (within_cleanUp ⟨f, .opened written⟩ k _)) e
  · exact hs

theorem StoreInv.writeHeader (hs : StoreInv c s) {n : Nat} {io : Except Errno Unit} :
    StoreInv c (Op.step c plain s (.writeHeader i n io)) := by
  simp only [Op.step]
  split
  · next f written h =>
    obtain ⟨hgranted, -, hread⟩ : f.block ∈ s.sys.granted ∧ written ≤ f.content.length ∧
        Span.read s.disk f.block.file (f.block.offset + headerSize) written = f.content.take written :=
      hs.writings _ (List.mem_of_getElem? h)
    have hend := f.length_content_le
    have hlen := f.length_header
    have hwithin : ∀ n, Within f.block s.disk (Span.write s.disk f.block.file f.block.offset (f.header.take n)) := by
      intro n
      refine within_write le_rfl ?_
      rw [List.length_take]
      omega
    split
    · exact hs
    · next hall =>
      obtain rfl : written = f.content.length := by simpa using hall
      split
      · have hwhole := hwithin f.header.length
        rw [List.take_length] at hwhole
        refine hs.writing_step h [⟨f, .confirming⟩] hwhole (hs.sys.confirm hgranted)
          (keeps_confirm c s.sys _ _) ?_ le_rfl
        simp only [List.mem_singleton, forall_eq, Writing.Ok, true_and]
        refine ⟨confirm_done hs.sys hgranted, ?_, ?_⟩
        · rw [← hlen, Span.read_write]
        · rw [Span.read_write_apart (.inr (.inr (by omega))), hread, List.take_length]
      · next e =>
        exact hs.fail h hgranted (hwithin n) e
  · exact hs

theorem StoreInv.disconnect (hs : StoreInv c s) {k : Nat} : StoreInv c (Op.step c plain s (.disconnect i k)) := by
  simp only [Op.step]
  split
  · next w h =>
    split
    · exact hs
    · exact hs.writing_step h [] (within_cleanUp w k s.disk) hs.sys .refl (by simp) (by simp)
  · exact hs

/-- The client is told: what was confirmed becomes a file, or nothing. -/
theorem StoreInv.logDone (hs : StoreInv c s) {io : Except Errno Unit} :
    StoreInv c (Op.step c plain s (.logDone i io)) := by
  have hkeep := keeps_step c s.sys (.logDone i io)
  simp only [Op.step]
  split
  · next b h =>
    have hskip : ∀ d, Act.skips s.sys (.logDone i io) d → d = b := by
      intro d hd
      have := h.symm.trans hd
      simpa using this.symm
    have hlive : b ∉ s.sys.live := hs.sys.done_not_live (List.mem_of_getElem? h)
    have hmine : ∀ w ∈ s.writings, w.file.block = b → w.file.OnDisk s.disk := by
      rintro w hw rfl
      have hok := hs.writings w hw
      have hnot : w.file.block ∉ s.sys.granted := hs.sys.not_granted h
      unfold Writing.Ok at hok
      split at hok
      · exact absurd hok hnot
      · exact absurd hok.1 hnot
      · exact hok.2
    have hmove : ((s.writings.filter fun w => w.file.block ≠ b).map (·.file.block) ++ (s.deletings.map (·.block) ++
        (((s.writings.filter fun w => w.file.block = b).map (·.file)) ++ s.files).map (·.block))).Perm (used s) := by
      have hsplit := (List.filter_append_perm (fun w : Writing => decide (w.file.block = b)) s.writings).map
        (·.file.block)
      simp only [List.map_append, List.map_map, used] at hsplit ⊢
      rw [← Multiset.coe_eq_coe] at hsplit ⊢
      simp only [← Multiset.coe_add] at hsplit ⊢
      rw [← hsplit]
      simp only [Function.comp_def, decide_not]
      abel
    refine hs.next (· = b) hs.sys.logDone (hkeep.mono hskip) (fun _ _ _ => .refl) ?_ (fun w hw => .inl ?_)
      (fun d hd => .inl ⟨hd, ?_⟩) (fun f hf => ?_) fun r hr => ?_
    · have hnodup := hmove.nodup_iff.2 hs.nodup
      cases io.toBool
      · refine hnodup.sublist ?_
        simp only [used, Bool.false_eq_true, if_false, List.nil_append, List.map_append]
        exact .append_left (.append_left (List.sublist_append_right _ _) _) _
      · exact hnodup
    · obtain ⟨hmem, hne⟩ := List.mem_filter.1 hw
      exact ⟨hmem, by simpa using hne⟩
    · rintro rfl
      exact hlive (hs.deletings d hd).1
    · rcases List.mem_append.1 hf with hnew | hold
      · cases io with
        | error e => simp [Except.toBool] at hnew
        | ok u =>
          simp only [Except.toBool, if_true, List.mem_map, List.mem_filter, decide_eq_true_eq] at hnew
          obtain ⟨w, ⟨hw, hb⟩, rfl⟩ := hnew
          refine .inr ⟨?_, hmine w hw hb⟩
          rw [hb]
          exact logDone_live (c := c) h
      · refine .inl ⟨hold, ?_⟩
        rintro rfl
        exact hlive (hs.files f hold).1
    · intro f hf
      obtain ⟨hmem, hrest⟩ := hs.readings r hr f hf
      exact ⟨List.mem_append_right _ hmem, hrest⟩
  · next hno =>
    refine hs.next (fun _ => False) hs.sys.logDone (hkeep.mono fun d hd => hno d hd) (fun _ _ _ => .refl) hs.nodup
      (fun w hw => .inl ⟨hw, id⟩) (fun d hd => .inl ⟨hd, id⟩) (fun f hf => .inl ⟨hf, id⟩) hs.readings

/-! ## Requests by name -/

variable (plain) in
/-- A live block is where requests look for it. -/
theorem StoreInv.located (hs : StoreInv c s) {f : Stored} (hf : f ∈ s.files) :
    f.block.file ∈ (s.volume c plain).files ∧ f.block.stop ≤ (s.volume c plain).fileSize ∧
      f.upload.storePathIndex.toNat < (s.volume c plain).storePathCount := by
  obtain ⟨-, hstop, hfile⟩ := hs.sys.tiled.inside _ (live_everything (hs.files f hf).1)
  exact ⟨hfile, hstop, hs.sys.paths _ hfile⟩

theorem StoreInv.deletePlace_stored (hs : StoreInv c s) (hint : c.trunkFileSize < 2 ^ 31) {f : Stored} (hf : f ∈ s.files)
    (stack : Bytes) : deletePlace c plain s f.name stack =
      .ok ((some (trunkInfo f.upload)).filter fun info => isTrunkById (some info)) := by
  obtain ⟨hfile, hstop, hpath⟩ := hs.located plain hf
  have hstat := fileStat_stored hfile hstop hint (hs.files f hf).2 stack
  have hsplit : splitFilename c.storePathCount true f.name = _ := split_name f.upload f.chance hpath true
  simp only [deletePlace, hsplit, check_name, hstat, bind, Except.bind, pure, Except.pure]

theorem StoreInv.delete (hs : StoreInv c s) (hint : c.trunkFileSize < 2 ^ 31) {filename : List Char} {stack : Bytes}
    (hname : ∃ f ∈ s.files, f.name = filename) : StoreInv c (Op.step c plain s (.delete filename stack)) := by
  obtain ⟨f, hf, rfl⟩ := hname
  simp only [Op.step]
  split
  · next info h =>
    rw [hs.deletePlace_stored hint hf] at h
    obtain ⟨hinfo, -⟩ := Option.filter_eq_some_iff.1 (Except.ok.inj h)
    obtain rfl := Option.some.inj hinfo
    have hplace : placeOf (trunkInfo f.upload) = f.block := rfl
    rw [hplace]
    have hnodup := hs.nodup
    have hmem : f.block ∈ s.files.map (·.block) := List.mem_map_of_mem hf
    obtain ⟨hw, hrest, hwrest⟩ := List.nodup_append'.1 hnodup
    obtain ⟨hd, hfiles, hdfiles⟩ := List.nodup_append'.1 hrest
    refine hs.next (fun _ => False) hs.sys .refl (fun _ _ _ => .refl) ?_ (fun w hw => .inl ⟨hw, id⟩) (fun d hd => ?_)
      (fun g hg => .inl ⟨(List.mem_filter.1 hg).1, id⟩) fun r hr => ?_
    · have hkept : ((s.files.filter fun g => g.block ≠ f.block).map (·.block)).Sublist (s.files.map (·.block)) :=
        List.filter_sublist.map _
      have hless : (s.writings.map (·.file.block) ++ (s.deletings.map (·.block) ++
          (s.files.filter fun g => g.block ≠ f.block).map (·.block))).Nodup :=
        hnodup.sublist (.append_left (.append_left hkept _) _)
      have hperm : (used { s with
          deletings := ⟨f.block, false⟩ :: s.deletings
          files := s.files.filter fun g => g.block ≠ f.block }).Perm
          (f.block :: (s.writings.map (·.file.block) ++ (s.deletings.map (·.block) ++
            (s.files.filter fun g => g.block ≠ f.block).map (·.block)))) := List.perm_middle
      refine hperm.nodup_iff.2 (List.nodup_cons.2 ⟨?_, hless⟩)
      simp only [List.mem_append, not_or]
      refine ⟨fun h => hwrest h (List.mem_append_right _ hmem), fun h => hdfiles h hmem, fun h => ?_⟩
      obtain ⟨g, hg, he⟩ := List.mem_map.1 h
      simpa [he] using (List.mem_filter.1 hg).2
    · rcases List.mem_cons.1 hd with rfl | hd
      · exact .inr ⟨(hs.files f hf).1, f.headerSize_le⟩
      · exact .inl ⟨hd, id⟩
    · -- downloads of the file are on their own now
      obtain ⟨r, hold, rfl⟩ := List.mem_map.1 hr
      intro g hg
      obtain ⟨hsource, hne⟩ := Option.filter_eq_some_iff.1 hg
      obtain ⟨hmem, hok⟩ := hs.readings r hold g hsource
      exact ⟨List.mem_filter.2 ⟨hmem, hne⟩, hok⟩
  · exact hs

theorem StoreInv.erase (hs : StoreInv c s) {k : Nat} {io : Except Errno Unit} :
    StoreInv c (Op.step c plain s (.erase i k io)) := by
  simp only [Op.step]
  split
  · next b h =>
    have hok : b ∈ s.sys.live ∧ headerSize ≤ b.size := hs.deletings _ (List.mem_of_getElem? h)
    have halone : Alone b { s with deletings := s.deletings.eraseIdx i } := hs.deleting_alone h
    have hused : (used s).Perm (b :: used { s with deletings := s.deletings.eraseIdx i }) := used_deleting h
    have hnodup := hused.nodup_iff.1 hs.nodup
    have hb := live_everything hok.1
    split
    · have hwithin := within_deleted (d := s.disk) hok.2 (deleted b).length
      rw [List.take_length] at hwithin
      refine hs.next (· = b) hs.sys .refl (hs.sameIn hb hwithin) ?_ (fun w hw => .inl ⟨hw, halone.1 w hw⟩) (fun d hd => ?_)
        (fun f hf => .inl ⟨hf, halone.2.2 f hf⟩) hs.readings
      · exact List.perm_middle.nodup_iff.2 hnodup
      · rcases List.mem_cons.1 hd with rfl | hd
        · exact .inr hok
        · exact .inl ⟨List.mem_of_mem_eraseIdx hd, halone.2.1 d hd⟩
    · refine hs.next (· = b) hs.sys .refl (hs.sameIn hb (within_deleted hok.2 k)) (List.nodup_cons.1 hnodup).2
        (fun w hw => .inl ⟨hw, halone.1 w hw⟩) (fun d hd => .inl ⟨List.mem_of_mem_eraseIdx hd, halone.2.1 d hd⟩)
        (fun f hf => .inl ⟨hf, halone.2.2 f hf⟩) hs.readings
  · exact hs

theorem StoreInv.free (hs : StoreInv c s) {io : Except Errno Unit} : StoreInv c (Op.step c plain s (.free i io)) := by
  simp only [Op.step]
  split
  · next b h =>
    have hok : b ∈ s.sys.live ∧ headerSize ≤ b.size := hs.deletings _ (List.mem_of_getElem? h)
    have halone : Alone b { s with deletings := s.deletings.eraseIdx i } := hs.deleting_alone h
    have hused : (used s).Perm (b :: used { s with deletings := s.deletings.eraseIdx i }) := used_deleting h
    exact hs.next (· = b) (hs.sys.free hok.1) (keeps_step c s.sys (.free b io)) (fun _ _ _ => .refl)
      (List.nodup_cons.1 (hused.nodup_iff.1 hs.nodup)).2 (fun w hw => .inl ⟨hw, halone.1 w hw⟩)
      (fun d hd => .inl ⟨List.mem_of_mem_eraseIdx hd, halone.2.1 d hd⟩) (fun f hf => .inl ⟨hf, halone.2.2 f hf⟩)
      hs.readings
  · exact hs

/-! ## Downloads -/

/-- Downloads do not concern the other tasks. -/
theorem StoreInv.set_readings (hs : StoreInv c s) {readings : List Reading} (hr : ∀ r ∈ readings, r.Ok s.files) :
    StoreInv c { s with readings := readings } :=
  ⟨hs.sys, hs.nodup, hs.writings, hs.deletings, hs.files, hr⟩

theorem StoreInv.downloadFile_stored (hs : StoreInv c s) (hint : c.trunkFileSize < 2 ^ 31) {f : Stored} (hf : f ∈ s.files)
    (hlink : f.link = false) (fileOffset downloadBytes : Int) (stack : Bytes) :
    downloadFile (s.volume c plain) fileOffset downloadBytes f.name stack =
      if fileOffset < 0 ∨ downloadBytes < 0 ∨ downloadBytes ≠ 0 ∧ f.content.length - fileOffset < downloadBytes then
        .error .einval
      else .ok (some ⟨f.block.file, f.block.offset + headerSize⟩,
        if downloadBytes = 0 then f.content.length - fileOffset else downloadBytes) := by
  obtain ⟨hfile, hstop, hpath⟩ := hs.located plain hf
  exact Trunk.downloadFile_stored hfile hstop hint (hs.files f hf).2 hpath hlink fileOffset downloadBytes stack

theorem StoreInv.download (hs : StoreInv c s) (hint : c.trunkFileSize < 2 ^ 31) {fileOffset downloadBytes : Int}
    {filename : List Char} {stack : Bytes} :
    StoreInv c (Op.step c plain s (.download fileOffset downloadBytes filename stack)) := by
  simp only [Op.step]
  split
  · next fd n h =>
    refine hs.set_readings fun r hr => ?_
    rcases List.mem_cons.1 hr with rfl | hr
    · intro f hf
      have hmem := List.mem_of_find?_eq_some hf
      obtain ⟨rfl, hlink⟩ : f.name = filename ∧ f.link = false := by simpa using List.find?_some hf
      rw [hs.downloadFile_stored hint hmem hlink] at h
      split at h
      · cases h
      · next hgood =>
        obtain ⟨hfd, hn⟩ := Prod.mk.inj (Except.ok.inj h)
        refine ⟨hmem, ?_, ?_, rfl⟩
        · rw [← Option.some.inj hfd]
          rfl
        · rw [← hn]
          simp only [List.length_nil]
          split <;> omega
    · exact hs.readings r hr
  · exact hs

theorem StoreInv.readFile (hs : StoreInv c s) {n : Nat} : StoreInv c (Op.step c plain s (.readFile i n)) := by
  simp only [Op.step]
  split
  · next r h =>
    have hrest : ∀ r' ∈ s.readings.eraseIdx i, r'.Ok s.files := fun r' hr' =>
      hs.readings r' (List.mem_of_mem_eraseIdx hr')
    split
    · exact hs.set_readings hrest
    · refine hs.set_readings (List.forall_mem_cons.2 ⟨fun f hf => ?_, hrest⟩)
      obtain ⟨hmem, hfd, hle, hgot⟩ := hs.readings r (List.mem_of_getElem? h) f hf
      have hdisk := (hs.files f hmem).2.2
      -- the next piece of the content
      have hbuff : Span.read s.disk r.fd.file r.fd.pos (min n r.remain) =
          (f.content.drop r.got.length).take (min n r.remain) := by
        rw [hfd, Span.read_within (n := f.content.length) (by omega), hdisk]
      refine ⟨hmem, ?_, ?_, ?_⟩
      · simp [hfd, Nat.add_assoc]
      · simp only [List.length_append, Span.length_read]
        omega
      · rw [List.length_append, Span.length_read, List.take_add, ← hgot, hbuff]
  · exact hs

/-! ## Every op -/

theorem StoreInv.trunk (hs : StoreInv c s) {a : Act} (h : Op.Proper c plain s (.trunk a)) :
    StoreInv c (Op.step c plain s (.trunk a)) := by
  have hkeep := keeps_step c s.sys a
  have hquiet : (∀ b, ¬ a.skips s.sys b) → Trunk.Proper c s.sys a → StoreInv c (Op.step c plain s (.trunk a)) := by
    intro hskip ha
    exact hs.next (a.skips s.sys) (hs.sys.step ha) hkeep (fun _ _ _ => .refl) hs.nodup
      (fun w hw => .inl ⟨hw, hskip _⟩) (fun d hd => .inl ⟨hd, hskip _⟩) (fun f hf => .inl ⟨hf, hskip _⟩) hs.readings
  cases a with
  | confirm b status =>
    obtain ⟨hgranted, hw⟩ := h
    have hlive := hs.sys.granted_not_live hgranted
    refine hs.next (· = b) (hs.sys.confirm hgranted) hkeep (fun _ _ _ => .refl) hs.nodup
      (fun w' hw' => .inl ⟨hw', hw w' hw'⟩) (fun d hd => .inl ⟨hd, ?_⟩) (fun f hf => .inl ⟨hf, ?_⟩) hs.readings
    · rintro rfl
      exact hlive (hs.deletings d hd).1
    · rintro rfl
      exact hlive (hs.files f hf).1
  | free b io =>
    obtain ⟨hlive, hf, hd⟩ := h
    refine hs.next (· = b) (hs.sys.free hlive) hkeep (fun _ _ _ => .refl) hs.nodup (fun w hw => ?_)
      (fun d hd' => .inl ⟨hd', hd d hd'⟩) (fun f hf' => .inl ⟨hf', hf f hf'⟩) hs.readings
    refine .inl ⟨hw, ?_⟩
    rintro rfl
    exact (hs.writings w hw).not_live hs.sys hlive
  | logDone i io => exact h.elim
  | restart reload occupied io => exact h.elim
  | alloc path size sub io => exact hquiet (fun _ => id) h
  | logCut i io => exact hquiet (fun _ => id) h
  | addRest i io => exact hquiet (fun _ => id) h
  | grant i io => exact hquiet (fun _ => id) h
  | advance path sub io => exact hquiet (fun _ => id) h
  | addFresh i => exact hquiet (fun _ => id) h
  | save written => exact hquiet (fun _ => id) h

theorem StoreInv.restart (hs : StoreInv c s) {reload : Bool} {io : Except Errno Unit} :
    StoreInv c (Op.step c plain s (.restart reload io)) := by
  refine ⟨hs.sys.restart, ?_, by simp [Op.step], by simp [Op.step], hs.files, by simp [Op.step]⟩
  exact hs.nodup.sublist ((List.sublist_append_right _ _).trans (List.sublist_append_right _ _))

/-- **One op keeps the invariant.** -/
theorem StoreInv.step (hs : StoreInv c s) (hint : c.trunkFileSize < 2 ^ 31) {op : Op} (h : op.Proper c plain s) :
    StoreInv c (op.step c plain s) := by
  cases op with
  | trunk a => exact hs.trunk h
  | upload f => exact hs.upload h.1 h.2
  | openFile i io => exact hs.openFile
  | writeFile i n k io => exact hs.writeFile
  | writeHeader i n io => exact hs.writeHeader
  | logDone i io => exact hs.logDone
  | disconnect i k => exact hs.disconnect
  | delete filename stack => exact hs.delete hint h
  | erase i k io => exact hs.erase
  | free i io => exact hs.free
  | download fileOffset downloadBytes filename stack => exact hs.download hint
  | readFile i n => exact hs.readFile
  | closeFile i => exact hs.set_readings fun r hr => hs.readings r (List.mem_of_mem_eraseIdx hr)
  | restart reload io => exact hs.restart

end

end HahaDog.Trunk
