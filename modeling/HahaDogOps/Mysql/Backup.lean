import HahaDogOps.Lib.Run
import HahaDogOps.Shell.Read
/-!
# The nightly dump of a MySQL pod (`mysql/HTYQ-mysql/bak/bak.sh`, `mysql/BZYQ-mysql/bak/bak.sh`)

For each pod the script runs

    time=`date "+%F"`
    mysqldump ... > /var/lib/mysql/MysqlBak/MysqlBak-$time.sql
    find /var/lib/mysql/MysqlBak/ -name "*" -type f -mtime +5 -exec rm -rf {} \;

| here | there |
| --- | --- |
| `Dir`      | the directory `MysqlBak` of one pod: names, modification times, and whether a file is a complete dump |
| `dump`     | the redirection, which truncates the file of the day before `mysqldump` writes to it |
| `expire`   | the `find`; `-mtime +5` drops the fraction of a day, so a file goes from its sixth day on |
| `bak`      | one run |

The exit status of `mysqldump` is not looked at. A failed run still truncates the dump of its own day,
and still deletes the old ones. The script in `Crontab.md:58-66` names its files to the second.
`complete_dump_never_lost_iff` says which runs are harmless.
-/

namespace HahaDog.Backup

structure File where
  /-- In seconds. -/
  mtime : Nat
  complete : Bool
deriving DecidableEq, Repr

/-- A directory: no name occurs twice. -/
structure Dir where
  files : List (Text × File)
  nodup : (files.map Prod.fst).Nodup

/-- One run of the script: when, on which date (as `%F` prints it), and whether the dump succeeds. -/
structure RunOf where
  time : Nat
  date : Text
  ok : Bool
deriving DecidableEq, Repr

/-- `MysqlBak-$time.sql` -/
def dumpName (date : Text) : Text := "MysqlBak-".toList ++ date ++ ".sql".toList

/-- Age in whole 24-hour periods. -/
def age (now : Nat) (f : File) : Nat := (now - f.mtime) / 86400

theorem nodup_filter {files : List (Text × File)} (h : (files.map Prod.fst).Nodup) (p : Text × File → Bool) :
    ((files.filter p).map Prod.fst).Nodup := h.sublist (List.filter_sublist.map _)

/-- The file of the day is created or truncated, and filled completely or in part. -/
def dump (r : RunOf) (d : Dir) : Dir where
  files := (dumpName r.date, ⟨r.time, r.ok⟩) :: d.files.filter fun x => x.1 ≠ dumpName r.date
  nodup := by
    rw [List.map_cons, List.nodup_cons]
    refine ⟨fun hm => ?_, nodup_filter d.nodup _⟩
    obtain ⟨x, hx, he⟩ := List.mem_map.1 hm
    have := (List.mem_filter.1 hx).2
    simp [he] at this

/-- `find ... -mtime +5 -exec rm` -/
def expire (now : Nat) (d : Dir) : Dir where
  files := d.files.filter fun x => !decide (5 < age now x.2)
  nodup := nodup_filter d.nodup _

def bak (d : Dir) (r : RunOf) : Dir := expire r.time (dump r d)

/-- A complete dump is there. -/
def Holds (d : Dir) : Prop := ∃ x ∈ d.files, x.2.complete = true

instance (d : Dir) : Decidable (Holds d) := inferInstanceAs (Decidable (∃ x ∈ d.files, x.2.complete = true))

/-- A complete dump of another day is there that is not too old yet. -/
def Spare (d : Dir) (r : RunOf) : Prop :=
  ∃ x ∈ d.files, x.2.complete = true ∧ x.1 ≠ dumpName r.date ∧ age r.time x.2 ≤ 5

/-- What a run must not do: with a complete dump there, fail when no other one is left to keep. -/
def Harmless (d : Dir) (r : RunOf) : Prop := Holds d → r.ok = true ∨ Spare d r

/-! ## One run -/

theorem mem_bak {d : Dir} {r : RunOf} {x : Text × File} : x ∈ (bak d r).files ↔
    (x = (dumpName r.date, ⟨r.time, r.ok⟩) ∨ (x ∈ d.files ∧ x.1 ≠ dumpName r.date)) ∧ age r.time x.2 ≤ 5 := by
  simp [bak, expire, dump, List.mem_filter]

/-- **What one run leaves**: its own dump if it succeeded, and the others that are recent. -/
theorem holds_bak_iff (d : Dir) (r : RunOf) : Holds (bak d r) ↔ r.ok = true ∨ Spare d r := by
  constructor
  · rintro ⟨x, hx, hc⟩
    obtain ⟨rfl | ⟨hm, hne⟩, hage⟩ := mem_bak.1 hx
    · exact .inl hc
    · exact .inr ⟨x, hm, hc, hne, hage⟩
  · rintro (hok | ⟨x, hm, hc, hne, hage⟩)
    · exact ⟨(dumpName r.date, ⟨r.time, r.ok⟩), mem_bak.2 ⟨.inl rfl, by simp [age]⟩, hok⟩
    · exact ⟨x, mem_bak.2 ⟨.inr ⟨hm, hne⟩, hage⟩, hc⟩

theorem harmless_iff (d : Dir) (r : RunOf) : Harmless d r ↔ (Holds d → Holds (bak d r)) := by
  rw [Harmless, holds_bak_iff]

theorem holds_of_spare {d : Dir} {r : RunOf} (h : Spare d r) : Holds d := by
  obtain ⟨x, hm, hc, _⟩ := h
  exact ⟨x, hm, hc⟩

/-! ## Whole histories -/

/-- A good backup survives a history: if one was there, or some run made one, one is there at the end. -/
def Retained (d : Dir) (rs : List RunOf) : Prop :=
  Holds d ∨ (∃ r ∈ rs, r.ok = true) → Holds (Run.run bak d rs)

/-- **A good backup is never lost, at any point of a history, iff every run of it is harmless.** -/
theorem complete_dump_never_lost_iff (d : Dir) (rs : List RunOf) :
    (∀ qs, qs <+: rs → Retained d qs) ↔ Run.Along bak Harmless d rs := by
  refine Run.never_lost_iff (fun d r hok => ?_) (fun d r h => ?_) harmless_iff rs d
  · exact (holds_bak_iff d r).2 (.inl hok)
  · exact ((holds_bak_iff d r).1 h).symm.imp_left holds_of_spare

/-- A dump at half past eleven at night, and a second run one minute later that fails. -/
def rerun : List RunOf := [⟨84600, "2019-07-25".toList, true⟩, ⟨84660, "2019-07-25".toList, false⟩]

/-- The re-run truncates the only dump. -/
theorem failed_rerun_loses_dump :
    rerun.Pairwise (fun a b => a.time ≤ b.time) ∧ ¬ Retained ⟨[], List.nodup_nil⟩ rerun := by
  refine ⟨by decide, fun h => ?_⟩
  exact absurd (h (.inr (by decide))) (by decide)

end HahaDog.Backup
