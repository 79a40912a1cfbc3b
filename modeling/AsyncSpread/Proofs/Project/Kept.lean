import Mathlib.Data.List.Nodup
import AsyncSpread.Proofs.Project.Accounts

/-!
What jobs leave of the files of other jobs.

A job writes no file but its own.  So each job finds its file as it was before the first job
(`holds_of_mem_turns`), and what it writes is there behind the last one (`holds_runAll_of_written`).
-/

namespace AsyncSpread.Project

open Python Rewrite

variable {c : Config} {disk disk' : Disk} {job : Job} {js : List Job} {turn : Turn} {path : Path}
  {bytes : List UInt8} {r : Rewritten} {outcome : Outcome} {report : Report}

/-- The disk holds the files of some jobs, and no two jobs have one file. -/
structure Held (disk : Disk) (js : List Job) : Prop where
  holds : ∀ job ∈ js, ∃ bytes, disk.Holds job.file.path bytes
  apart : js.Pairwise fun a b => a.file.path ≠ b.file.path

theorem held_jobs {root top : Path} {parts : List (String × Plan)} (hd : disk.Sound)
    (hroot : disk.canonical root = .ok top) : Held disk (jobs parts (walk disk top c).files) :=
  ⟨fun _ hjob => holds_of_mem_walk hd hroot (mem_jobs.1 hjob).1.mem,
    pairwise_path_jobs parts disk top c⟩

theorem Held.eq_of_path {a b : Job} (h : Held disk js) (ha : a ∈ js) (hb : b ∈ js)
    (hpath : a.file.path = b.file.path) : a = b := by
  have hnodup : (js.map fun job => job.file.path).Nodup := List.pairwise_map.2 h.apart
  exact List.inj_on_of_nodup_map hnodup ha hb hpath

variable [Parser]

/-- A job writes its file, or it leaves the disk as it is. -/
theorem disk_of_run (hold : disk.Holds job.file.path bytes)
    (h : job.run disk c = .ok (r, outcome, disk')) :
    disk' = if outcome.written then disk.written job.file.path r.source else disk := by
  obtain ⟨-, ⟨rfl, hwrite⟩ | ⟨rfl, rfl⟩⟩ := run_cases h
  · exact (hold.writeText_eq_ok.1 hwrite).2
  · rfl

theorem left_cases (c : Config) (hold : disk.Holds job.file.path bytes) :
    Turn.left c ⟨disk, job⟩ = disk ∨ ∃ text, Turn.left c ⟨disk, job⟩ =
      disk.written job.file.path text := by
  unfold Turn.left Turn.result
  cases hr : job.run disk c with
  | error why => exact .inl rfl
  | ok found =>
    obtain ⟨r, outcome, disk'⟩ := found
    have hdisk := disk_of_run hold hr
    show disk' = disk ∨ ∃ text, disk' = disk.written job.file.path text
    split at hdisk
    · exact .inr ⟨r.source, hdisk⟩
    · exact .inl hdisk

theorem holds_left {old : List UInt8} (hold : disk.Holds job.file.path old)
    (hne : path ≠ job.file.path) (h : disk.Holds path bytes) :
    (Turn.left c ⟨disk, job⟩).Holds path bytes := by
  rcases left_cases c hold with hleft | ⟨text, hleft⟩
  · rwa [hleft]
  · rw [hleft]
    exact hold.written_of_ne h hne text

theorem guard_left (c : Config) (hold : disk.Holds job.file.path bytes) :
    (Turn.left c ⟨disk, job⟩).guard = disk.guard := by
  rcases left_cases c hold with hleft | ⟨text, hleft⟩
  · rw [hleft]
  · rw [hleft, Disk.guard_written]

theorem holds_left_of_written {old : List UInt8} (hold : disk.Holds job.file.path old)
    (h : job.run disk c = .ok (r, outcome, disk')) (hwritten : outcome.written = true) :
    (Turn.left c ⟨disk, job⟩).Holds job.file.path (Text.encodeUtf8 r.source) := by
  have hdisk := disk_of_run hold h
  rw [if_pos hwritten] at hdisk
  unfold Turn.left Turn.result
  rw [h]
  show disk'.Holds job.file.path _
  rw [hdisk]
  exact hold.written_self r.source

/-- A turn leaves the files of the jobs behind it where they are. -/
theorem Held.left (h : Held disk (job :: js)) : Held (Turn.left c ⟨disk, job⟩) js := by
  obtain ⟨hne, hapart⟩ := List.pairwise_cons.1 h.apart
  obtain ⟨old, hold⟩ := h.holds job List.mem_cons_self
  refine ⟨fun other hother => ?_, hapart⟩
  obtain ⟨bytes, hbytes⟩ := h.holds other (List.mem_cons_of_mem _ hother)
  exact ⟨bytes, holds_left hold (hne other hother).symm hbytes⟩

theorem mem_of_mem_turns (h : turn ∈ turns c disk js) : turn.job ∈ js := by
  rw [← map_job_turns c disk js]
  exact List.mem_map_of_mem h

theorem holds_of_mem_turns (hheld : Held disk js) (h : turn ∈ turns c disk js)
    (hbytes : disk.Holds turn.job.file.path bytes) : turn.disk.Holds turn.job.file.path bytes := by
  induction js generalizing disk with
  | nil => cases h
  | cons job js ih =>
    rw [turns] at h
    rcases List.mem_cons.1 h with rfl | h
    · exact hbytes
    · obtain ⟨old, hold⟩ := hheld.holds job List.mem_cons_self
      have hne := (List.pairwise_cons.1 hheld.apart).1 turn.job (mem_of_mem_turns h)
      exact ih hheld.left h (holds_left hold hne.symm hbytes)

theorem guard_of_mem_turns (hheld : Held disk js) (h : turn ∈ turns c disk js) :
    turn.disk.guard = disk.guard := by
  induction js generalizing disk with
  | nil => cases h
  | cons job js ih =>
    rw [turns] at h
    rcases List.mem_cons.1 h with rfl | h
    · rfl
    · obtain ⟨old, hold⟩ := hheld.holds job List.mem_cons_self
      rw [ih hheld.left h, guard_left c hold]

/-- The disk behind some jobs is what the last turn leaves. -/
theorem exists_runAll_cons (c : Config) (disk : Disk) (report : Report) (job : Job)
    (js : List Job) :
    ∃ report', runAll c disk report (job :: js) = runAll c
      (Turn.left c ⟨disk, job⟩) report' js := by
  rw [runAll]
  simp only [Turn.left, Turn.result]
  cases job.run disk c with
  | error why => exact ⟨_, rfl⟩
  | ok found => exact ⟨_, rfl⟩

theorem guard_runAll (hheld : Held disk js) : (runAll c disk report js).2.guard = disk.guard := by
  induction js generalizing disk report with
  | nil => rfl
  | cons job js ih =>
    obtain ⟨report', hrun⟩ := exists_runAll_cons c disk report job js
    obtain ⟨old, hold⟩ := hheld.holds job List.mem_cons_self
    rw [hrun, ih hheld.left, guard_left c hold]

theorem holds_runAll (hheld : Held disk js) (hne : ∀ job ∈ js, path ≠ job.file.path)
    (h : disk.Holds path bytes) : (runAll c disk report js).2.Holds path bytes := by
  induction js generalizing disk report with
  | nil => exact h
  | cons job js ih =>
    obtain ⟨report', hrun⟩ := exists_runAll_cons c disk report job js
    obtain ⟨old, hold⟩ := hheld.holds job List.mem_cons_self
    rw [hrun]
    exact ih hheld.left (fun other hother => hne other (List.mem_cons_of_mem _ hother))
      (holds_left hold (hne job List.mem_cons_self) h)

theorem holds_runAll_of_written (report : Report) (hheld : Held disk js)
    (h : turn ∈ turns c disk js) (hresult : turn.result c = .ok (r, outcome, disk'))
    (hwritten : outcome.written = true) :
    (runAll c disk report js).2.Holds turn.job.file.path (Text.encodeUtf8 r.source) := by
  induction js generalizing disk report with
  | nil => cases h
  | cons job js ih =>
    obtain ⟨report', hrun⟩ := exists_runAll_cons c disk report job js
    rw [hrun]
    rw [turns] at h
    rcases List.mem_cons.1 h with rfl | h
    · obtain ⟨old, hold⟩ := hheld.holds job List.mem_cons_self
      exact holds_runAll hheld.left (List.pairwise_cons.1 hheld.apart).1
        (holds_left_of_written hold hresult hwritten)
    · exact ih report' hheld.left h

/-- What a job makes of its file depends on nothing else on the disk. -/
theorem rewrite_congr (h : disk.Holds job.file.path bytes) (h' : disk'.Holds job.file.path bytes)
    (hguard : disk'.guard = disk.guard) : job.rewrite disk' c = job.rewrite disk c := by
  rw [Job.rewrite, Job.rewrite, readSource_congr h h' hguard]

theorem rewrite_of_mem_turns (hheld : Held disk js) (h : turn ∈ turns c disk js) :
    turn.job.rewrite turn.disk c = turn.job.rewrite disk c := by
  obtain ⟨bytes, hbytes⟩ := hheld.holds turn.job (mem_of_mem_turns h)
  exact rewrite_congr hbytes (holds_of_mem_turns hheld h hbytes) (guard_of_mem_turns hheld h)

theorem readText_runAll_of_written (report : Report) (hheld : Held disk js)
    (h : turn ∈ turns c disk js) (hresult : turn.result c = .ok (r, outcome, disk'))
    (hwritten : outcome.written = true) :
    (runAll c disk report js).2.readText turn.job.file.path = .ok r.source := by
  obtain ⟨bytes, hbytes⟩ := hheld.holds turn.job (mem_of_mem_turns h)
  obtain ⟨source, -, -, hread, -⟩ := of_rewrite (of_rewrite_run hresult).1
  have hturn := holds_of_mem_turns hheld h hbytes
  have hlast := holds_runAll_of_written report hheld h hresult hwritten
  refine hlast.readText ?_
  rw [hturn.permits_congr hlast (by rw [guard_runAll hheld, guard_of_mem_turns hheld h])]
  exact permits_of_readSource hturn hread

end AsyncSpread.Project
