import HahaDogOps.Lib.Run
import HahaDogOps.Storage.Base64

/-!
# Spreading files over directories

`storage_get_store_path` (`storage/storage_service.c:2019`) picks the directory for a new file, in turn or by a hash of
its name. In turn, three counters make an odometer: files in the current directory, low and high directory.
-/

namespace HahaDog.StorePath

open Base64

/-! ## Model -/

/-- `FDFS_FILE_DIST_PATH_ROUND_ROBIN`, `FDFS_FILE_DIST_PATH_RANDOM`. -/
inductive DistMode
  | roundRobin
  | random
  deriving DecidableEq

/-- `g_file_distribute_path_mode`, `g_subdir_count_per_path`, `g_file_distribute_rotate_count`, as `storage_func_init`
checks them. -/
structure DistConfig where
  mode : DistMode
  subdirCount : Nat
  rotateCount : Nat
  subdirCount_pos : 0 < subdirCount
  subdirCount_le : subdirCount ≤ 256
  rotateCount_pos : 0 < rotateCount

/-- `g_dist_path_index_high`, `g_dist_path_index_low`, `g_dist_write_file_count`. -/
structure DistState where
  pathIndexHigh : Nat
  pathIndexLow : Nat
  writeFileCount : Nat
  deriving DecidableEq

/-- One round of `PJW_HASH_FUNC` (`common/hash.c:736`). -/
def pjwStep (hash : BitVec 32) (key : UInt8) : BitVec 32 :=
  let hash := hash <<< 4 + key.toBitVec.setWidth 32
  let test := hash &&& 0xF0000000
  if test ≠ 0 then (hash ^^^ test.sshiftRight 24) &&& ~~~0xF0000000 else hash

def pjwHash (key : Bytes) : BitVec 32 := Run.run pjwStep 0 key

/-- The counters after one more file. -/
def rotate (c : DistConfig) (s : DistState) : DistState :=
  if s.writeFileCount + 1 ≥ c.rotateCount then
    if s.pathIndexLow + 1 ≥ c.subdirCount then
      if s.pathIndexHigh + 1 ≥ c.subdirCount then ⟨0, 0, 0⟩ else ⟨s.pathIndexHigh + 1, 0, 0⟩
    else ⟨s.pathIndexHigh, s.pathIndexLow + 1, 0⟩
  else ⟨s.pathIndexHigh, s.pathIndexLow, s.writeFileCount + 1⟩

/-- `storage_get_store_path`: the directories of the file, and the counters after it. -/
def getStorePath (c : DistConfig) (s : DistState) (filename : Bytes) : DistState × List (Nat × Nat) :=
  match c.mode with
  | .roundRobin => (rotate c s, [(s.pathIndexHigh, s.pathIndexLow)])
  | .random =>
    let n := (pjwHash filename).srem 0x10000
    (s, [((n.sshiftRight 8 &&& 0xFF).toNat % c.subdirCount, (n &&& 0xFF).toNat % c.subdirCount)])

/-! ## The odometer -/

/-- The counters are digits. -/
structure DistState.Ok (c : DistConfig) (s : DistState) : Prop where
  high : s.pathIndexHigh < c.subdirCount
  low : s.pathIndexLow < c.subdirCount
  count : s.writeFileCount < c.rotateCount

/-- Files after which the first directory is used again. -/
def DistConfig.period (c : DistConfig) : Nat := c.subdirCount * c.subdirCount * c.rotateCount

/-- The number that the odometer shows. -/
def position (c : DistConfig) (s : DistState) : Nat :=
  (s.pathIndexHigh * c.subdirCount + s.pathIndexLow) * c.rotateCount + s.writeFileCount

/-- The directories at a position. -/
def dirsAt (c : DistConfig) (p : Nat) : Nat × Nat :=
  (p / c.rotateCount % (c.subdirCount * c.subdirCount) / c.subdirCount, p / c.rotateCount % c.subdirCount)

section
variable {c : DistConfig} {s : DistState}

theorem position_div (hs : s.Ok c) :
    position c s / c.rotateCount = s.pathIndexHigh * c.subdirCount + s.pathIndexLow := by
  rw [position, Nat.add_comm, Nat.add_mul_div_right _ _ c.rotateCount_pos, Nat.div_eq_of_lt hs.count, Nat.zero_add]

theorem dirs_lt (hs : s.Ok c) : s.pathIndexHigh * c.subdirCount + s.pathIndexLow < c.subdirCount * c.subdirCount :=
  calc s.pathIndexHigh * c.subdirCount + s.pathIndexLow < s.pathIndexHigh * c.subdirCount + c.subdirCount := by
        have := hs.low
        omega
    _ = (s.pathIndexHigh + 1) * c.subdirCount := by ring
    _ ≤ c.subdirCount * c.subdirCount := Nat.mul_le_mul_right _ hs.high

theorem dirsAt_position (hs : s.Ok c) : dirsAt c (position c s) = (s.pathIndexHigh, s.pathIndexLow) := by
  rw [dirsAt, position_div hs, Nat.mod_eq_of_lt (dirs_lt hs), Nat.add_comm,
    Nat.add_mul_div_right _ _ c.subdirCount_pos, Nat.div_eq_of_lt hs.low, Nat.add_mul_mod_self_right,
    Nat.mod_eq_of_lt hs.low, Nat.zero_add]

theorem dirsAt_add_period (p : Nat) : dirsAt c (p + c.period) = dirsAt c p := by
  rw [dirsAt, DistConfig.period, Nat.add_mul_div_right _ _ c.rotateCount_pos, Nat.add_mod_right,
    Nat.add_mul_mod_self_right, dirsAt]

theorem rotate_ok (hs : s.Ok c) : (rotate c s).Ok c := by
  obtain ⟨hhigh, hlow, hcount⟩ := hs
  have hrot := c.rotateCount_pos
  have hsub := c.subdirCount_pos
  unfold rotate
  split
  · split
    · split
      · exact ⟨hsub, hsub, hrot⟩
      · next h => exact ⟨Nat.not_le.1 h, hsub, hrot⟩
    · next h => exact ⟨hhigh, Nat.not_le.1 h, hrot⟩
  · next h => exact ⟨hhigh, hlow, Nat.not_le.1 h⟩

/-- One file moves the odometer by one. -/
theorem position_rotate (hs : s.Ok c) :
    position c (rotate c s) = position c s + 1 ∨ position c (rotate c s) + c.period = position c s + 1 := by
  obtain ⟨hhigh, hlow, hcount⟩ := hs
  -- a full digit carries one into the next
  have hcarry : s.writeFileCount + 1 = c.rotateCount →
      position c s + 1 = (s.pathIndexHigh * c.subdirCount + (s.pathIndexLow + 1)) * c.rotateCount := by
    intro h
    rw [position, Nat.add_assoc, h]
    ring
  unfold rotate
  split
  · rw [hcarry (by omega)]
    split
    · have hlast : s.pathIndexLow + 1 = c.subdirCount := by omega
      rw [hlast]
      split
      · have hlast : s.pathIndexHigh + 1 = c.subdirCount := by omega
        right
        calc position c ⟨0, 0, 0⟩ + c.period = c.subdirCount * c.subdirCount * c.rotateCount := by
              simp [position, DistConfig.period]
          _ = (s.pathIndexHigh + 1) * c.subdirCount * c.rotateCount := by rw [hlast]
          _ = (s.pathIndexHigh * c.subdirCount + c.subdirCount) * c.rotateCount := by ring
      · left
        simp only [position]
        ring
    · left
      simp only [position]
      ring
  · left
    simp only [position]
    ring

/-- The i-th file of a run goes to the directories at its position. -/
theorem feed_dirs (hmode : c.mode = .roundRobin) (names : List Bytes) (hs : s.Ok c) :
    (Run.feed (getStorePath c) s names).2 = (List.range names.length).map fun i => dirsAt c (position c s + i) := by
  induction names generalizing s with
  | nil => rfl
  | cons name names ih =>
    have hstep : getStorePath c s name = (rotate c s, [dirsAt c (position c s)]) := by
      rw [dirsAt_position hs]
      simp [getStorePath, hmode]
    have hdirs : ∀ i, dirsAt c (position c (rotate c s) + i) = dirsAt c (position c s + (i + 1)) := by
      intro i
      rcases position_rotate hs with hpos | hpos
      · rw [hpos]
        congr 1
        omega
      · rw [← dirsAt_add_period]
        congr 1
        omega
    rw [Run.feed, hstep, ih (rotate_ok hs), List.length_cons, List.range_succ_eq_map, List.map_cons, List.map_map]
    simp [Function.comp_def, hdirs]

/-! ## Every directory gets its share -/

theorem count_map_range {α : Type*} [DecidableEq α] [BEq α] [LawfulBEq α] (f : Nat → α) (a : α) (n : Nat) :
    ((List.range n).map f).count a = Nat.count (fun i => f i = a) n := by
  induction n with
  | zero => rfl
  | succ n ih => simp [List.range_succ, ih, Nat.count_succ, List.count_singleton]

/-- What repeats after `n` steps happens equally often in any `n` consecutive ones. -/
theorem count_window {p : Nat → Prop} [DecidablePred p] {n : Nat} (hp : ∀ i, p (i + n) ↔ p i) (start : Nat) :
    Nat.count (fun i => p (start + i)) n = Nat.count p n := by
  induction start with
  | zero => simp
  | succ start ih =>
    have hfirst := Nat.count_succ' (fun i => p (start + i)) n
    have hlast := Nat.count_succ (fun i => p (start + i)) n
    have hsame : p (start + n) ↔ p (start + 0) := by simpa using hp start
    have hshift : (fun i => p (start + 1 + i)) = fun i => p (start + (i + 1)) := by
      funext i
      congr 1
      omega
    simp only [hshift]
    simp only [hsame] at hlast
    omega

/-- `c.rotateCount` of the positions below the period belong to each pair of directories. -/
theorem count_dirsAt {high low : Nat} (hhigh : high < c.subdirCount) (hlow : low < c.subdirCount) :
    Nat.count (fun i => dirsAt c i = (high, low)) c.period = c.rotateCount := by
  have hrot := c.rotateCount_pos
  let s : DistState := ⟨high, low, 0⟩
  have hs : s.Ok c := ⟨hhigh, hlow, hrot⟩
  have hlt := dirs_lt hs
  have hmem : ∀ i, i < c.period ∧ dirsAt c i = (high, low) ↔
      (high * c.subdirCount + low) * c.rotateCount ≤ i ∧ i < (high * c.subdirCount + low) * c.rotateCount + c.rotateCount := by
    intro i
    have hdirs : i < c.period ∧ dirsAt c i = (high, low) ↔ i / c.rotateCount = high * c.subdirCount + low := by
      constructor
      · rintro ⟨hi, heq⟩
        have hdiv : i / c.rotateCount < c.subdirCount * c.subdirCount := Nat.div_lt_of_lt_mul (by
          rw [Nat.mul_comm]
          exact hi)
        rw [dirsAt, Nat.mod_eq_of_lt hdiv, Prod.mk.injEq] at heq
        rw [← heq.1, ← heq.2, Nat.mul_comm, Nat.div_add_mod]
      · intro heq
        have hi : i < c.period := by
          rw [DistConfig.period, ← Nat.div_lt_iff_lt_mul hrot, heq]
          exact hlt
        have hzero : position c s / c.rotateCount = high * c.subdirCount + low := position_div hs
        exact ⟨hi, by rw [dirsAt, heq, ← hzero]; exact dirsAt_position hs⟩
    rw [hdirs, Nat.div_eq_iff hrot]
    omega
  rw [Nat.count_eq_card_filter_range]
  have : (Finset.range c.period).filter (fun i => dirsAt c i = (high, low)) =
      Finset.Ico ((high * c.subdirCount + low) * c.rotateCount)
        ((high * c.subdirCount + low) * c.rotateCount + c.rotateCount) := by
    ext i
    simpa using hmem i
  rw [this, Nat.card_Ico, Nat.add_sub_cancel_left]

/-- In either mode a file goes to a directory that exists, and the counters stay digits. -/
theorem getStorePath_ok (hs : s.Ok c) (filename : Bytes) : (getStorePath c s filename).1.Ok c ∧
    ∀ d ∈ (getStorePath c s filename).2, d.1 < c.subdirCount ∧ d.2 < c.subdirCount := by
  have hsub := c.subdirCount_pos
  cases hmode : c.mode with
  | roundRobin => simpa [getStorePath, hmode] using ⟨rotate_ok hs, hs.high, hs.low⟩
  | random => simpa [getStorePath, hmode] using ⟨hs, Nat.mod_lt _ hsub, Nat.mod_lt _ hsub⟩

theorem feed_ok (names : List Bytes) (hs : s.Ok c) :
    ∀ d ∈ (Run.feed (getStorePath c) s names).2, d.1 < c.subdirCount ∧ d.2 < c.subdirCount := by
  induction names generalizing s with
  | nil => simp
  | cons name names ih =>
    obtain ⟨hok, hout⟩ := getStorePath_ok hs name
    intro d hd
    rw [Run.feed, List.mem_append] at hd
    exact hd.elim (hout d) (ih hok d)

/-- **Every directory gets its share.** Files only go to directories that exist; in turn, of any `c.period` consecutive
files, wherever the counters stand, exactly `c.rotateCount` go to each of them. -/
theorem directories_share_files (hs : s.Ok c) (names : List Bytes) :
    (∀ d ∈ (Run.feed (getStorePath c) s names).2, d.1 < c.subdirCount ∧ d.2 < c.subdirCount) ∧
      (c.mode = .roundRobin → names.length = c.period → ∀ high < c.subdirCount, ∀ low < c.subdirCount,
        (Run.feed (getStorePath c) s names).2.count (high, low) = c.rotateCount) := by
  refine ⟨feed_ok names hs, fun hmode hlen high hhigh low hlow => ?_⟩
  rw [feed_dirs hmode names hs, count_map_range, hlen]
  rw [count_window (p := fun i => dirsAt c i = (high, low)) (fun i => by rw [dirsAt_add_period])]
  exact count_dirsAt hhigh hlow

end

/-- Two directories of each level, three files in turn. -/
def smallDist : DistConfig := ⟨.roundRobin, 2, 3, by decide, by decide, by decide⟩

theorem directories_share_files_small :
    (Run.feed (getStorePath smallDist) ⟨1, 0, 2⟩ (List.replicate 12 [])).2.count (0, 1) = 3 :=
  (directories_share_files (c := smallDist) (s := ⟨1, 0, 2⟩) ⟨by decide, by decide, by decide⟩ (List.replicate 12 [])).2
    rfl rfl 0 (by decide) 1 (by decide)

end HahaDog.StorePath
