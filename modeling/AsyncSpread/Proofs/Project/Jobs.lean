import AsyncSpread.Proofs.Fallible
import AsyncSpread.Proofs.Project.Owners

/-!
The jobs of a project, and what is reported of them.

A job is the first file of a module that has a part of the plan, so no two jobs have one module.
Each job has its turn, on the disk that the jobs before it leave, and gives the report one entry
(`entries_runAll`).
-/

namespace AsyncSpread.Project

open Python Rewrite

def partOf? (parts : List (String × Plan)) (module : String) : Option Plan :=
  (parts.find? fun (m, _) => m == module).map (·.2)

theorem partOf?_filter {module gone : String} (h : module ≠ gone) (parts : List (String × Plan)) :
    partOf? (parts.filter fun (m, _) => m != gone) module = partOf? parts module := by
  unfold partOf?
  rw [List.find?_filter]
  congr 2
  funext part
  by_cases hm : part.1 = module
  · have hne : part.1 ≠ gone := by
      rw [hm]
      exact h
    simp [hm, bne_iff_ne.2 h]
  · simp [hm]

theorem partOf?_filter_self (module : String) (parts : List (String × Plan)) :
    partOf? (parts.filter fun (m, _) => m != module) module = none := by
  unfold partOf?
  rw [Option.map_eq_none_iff, List.find?_eq_none]
  intro part hpart
  have hne := (List.mem_filter.1 hpart).2
  simpa using hne

theorem partOf?_split {plan part : Plan} {modules : List String} {module : String} :
    partOf? (plan.split modules) module = some part ↔
      module ∈ modules ∧ part = plan.ownedBy modules module ∧ part ≠ ∅ := by
  rw [← Plan.mem_split]
  unfold partOf?
  constructor
  · intro h
    obtain ⟨⟨m, p⟩, hfind, heq⟩ := Option.map_eq_some_iff.1 h
    have hm : m = module := by simpa using List.find?_some hfind
    cases heq
    rw [← hm]
    exact List.mem_of_find?_eq_some hfind
  · intro h
    cases hfind : (plan.split modules).find? fun x => x.1 == module with
    | none =>
      have hno := List.find?_eq_none.1 hfind _ h
      simp at hno
    | some found =>
      obtain ⟨m, p⟩ := found
      have hm : m = module := by simpa using List.find?_some hfind
      subst hm
      have hp := (Plan.mem_split.1 (List.mem_of_find?_eq_some hfind)).2.1
      rw [hp, (Plan.mem_split.1 h).2.1]
      rfl

variable {parts : List (String × Plan)} {job : Job}

theorem jobs_cons (parts : List (String × Plan)) (file : SourceFile) (files : List SourceFile) :
    jobs parts (file :: files) = match partOf? parts file.module with
      | some p => ⟨file, p⟩ :: jobs (parts.filter fun (m, _) => m != file.module) files
      | none => jobs parts files := by
  rw [jobs, partOf?]
  cases parts.find? fun (m, _) => m == file.module <;> rfl

def FirstOf (files : List SourceFile) (file : SourceFile) : Prop :=
  ∃ before after, files = before ++ file :: after ∧ ∀ f ∈ before, f.module ≠ file.module

theorem FirstOf.mem {files : List SourceFile} {file : SourceFile} (h : FirstOf files file) :
    file ∈ files := by
  obtain ⟨before, after, rfl, -⟩ := h
  exact List.mem_append_right _ List.mem_cons_self

theorem firstOf_cons {file other : SourceFile} {files : List SourceFile} :
    FirstOf (other :: files) file ↔ other = file ∨ other.module ≠ file.module ∧
      FirstOf files file := by
  constructor
  · intro hex
    obtain ⟨before, after, hfiles, hbefore⟩ := hex
    cases before with
    | nil => exact .inl (List.cons.inj hfiles).1
    | cons f before =>
      obtain ⟨rfl, htail⟩ := List.cons.inj hfiles
      exact .inr ⟨hbefore _ List.mem_cons_self, before, after, htail,
        fun f hf => hbefore f (List.mem_cons_of_mem _ hf)⟩
  · intro hor
    rcases hor with rfl | ⟨hne, before, after, rfl, hbefore⟩
    · exact ⟨[], files, rfl, nofun⟩
    · refine ⟨other :: before, after, rfl, fun f hf => ?_⟩
      rcases List.mem_cons.1 hf with rfl | hf
      · exact hne
      · exact hbefore f hf

theorem exists_firstOf {files : List SourceFile} {file : SourceFile} (h : file ∈ files) :
    ∃ first, FirstOf files first ∧ first.module = file.module := by
  induction files with
  | nil => cases h
  | cons other files ih =>
    by_cases heq : other.module = file.module
    · exact ⟨other, firstOf_cons.2 (.inl rfl), heq⟩
    · have hmem : file ∈ files := by
        rcases List.mem_cons.1 h with rfl | h
        · exact absurd rfl heq
        · exact h
      obtain ⟨first, hfirst, hm⟩ := ih hmem
      exact ⟨first, firstOf_cons.2 (.inr ⟨fun he => heq (he.trans hm), hfirst⟩), hm⟩

theorem FirstOf.unique {files : List SourceFile} {a b : SourceFile} (ha : FirstOf files a)
    (hb : FirstOf files b) (h : a.module = b.module) : a = b := by
  induction files with
  | nil => exact absurd ha.mem List.not_mem_nil
  | cons other files ih =>
    rcases firstOf_cons.1 ha with rfl | ⟨hna, ha⟩
    · rcases firstOf_cons.1 hb with rfl | ⟨hnb, -⟩
      · rfl
      · exact absurd h hnb
    · rcases firstOf_cons.1 hb with rfl | ⟨-, hb⟩
      · exact absurd h.symm hna
      · exact ih ha hb

/-- The jobs are the first files of the modules that have a part of the plan. -/
theorem mem_jobs {files : List SourceFile} :
    job ∈ jobs parts files ↔ FirstOf files job.file ∧
      partOf? parts job.file.module = some job.plan := by
  induction files generalizing parts with
  | nil =>
    refine ⟨nofun, fun h => ?_⟩
    exact absurd h.1.mem List.not_mem_nil
  | cons file files ih =>
    rw [jobs_cons, firstOf_cons]
    cases hpart : partOf? parts file.module with
    | none =>
      simp only
      rw [ih]
      constructor
      · intro h
        refine ⟨.inr ⟨fun heq => ?_, h.1⟩, h.2⟩
        rw [heq, h.2] at hpart
        cases hpart
      · intro h
        obtain ⟨rfl | ⟨-, hfirst⟩, hp⟩ := h
        · rw [hp] at hpart
          cases hpart
        · exact ⟨hfirst, hp⟩
    | some p =>
      simp only
      rw [List.mem_cons, ih]
      constructor
      · intro hor
        rcases hor with rfl | ⟨hfirst, hp⟩
        · exact ⟨.inl rfl, hpart⟩
        · have hne : file.module ≠ job.file.module := by
            intro heq
            rw [heq, partOf?_filter_self] at hp
            cases hp
          rw [partOf?_filter hne.symm] at hp
          exact ⟨.inr ⟨hne, hfirst⟩, hp⟩
      · intro h
        obtain ⟨rfl | ⟨hne, hfirst⟩, hp⟩ := h
        · rw [hpart] at hp
          cases hp
          exact .inl rfl
        · rw [← partOf?_filter hne.symm] at hp
          exact .inr ⟨hfirst, hp⟩

theorem sublist_jobs (parts : List (String × Plan)) (files : List SourceFile) :
    ((jobs parts files).map Job.file).Sublist files := by
  induction files generalizing parts with
  | nil => exact .slnil
  | cons file files ih =>
    rw [jobs_cons]
    cases partOf? parts file.module with
    | none => exact (ih parts).cons file
    | some p => exact (ih _).cons_cons file

theorem pairwise_jobs (parts : List (String × Plan)) (files : List SourceFile) :
    (jobs parts files).Pairwise fun a b => a.file.module ≠ b.file.module := by
  induction files generalizing parts with
  | nil => exact .nil
  | cons file files ih =>
    rw [jobs_cons]
    cases partOf? parts file.module with
    | none => exact ih parts
    | some p =>
      refine List.pairwise_cons.2 ⟨fun job hjob heq => ?_, ih _⟩
      have hp := (mem_jobs.1 hjob).2
      rw [← heq, partOf?_filter_self] at hp
      cases hp

/-! ## Turns -/

variable [Parser]

/-- A job and the disk that it finds. -/
structure Turn where
  disk : Disk
  job : Job

namespace Turn

def result (c : Config) (turn : Turn) :
    Except Fault (Rewritten × Outcome × Disk) := turn.job.run turn.disk c

def outcome? (c : Config) (turn : Turn) : Option Outcome :=
  (turn.result c).toOption.map fun (_, outcome, _) => outcome

def failure? (c : Config) (turn : Turn) : Option Failure :=
  match turn.result c with
  | .ok _ => none
  | .error why => some ⟨turn.job.file.path, why⟩

/-- The disk behind a turn. -/
def left (c : Config) (turn : Turn) : Disk :=
  match turn.result c with
  | .ok (_, _, disk) => disk
  | .error _ => turn.disk

end Turn

def turns (c : Config) (disk : Disk) : List Job → List Turn
  | [] => []
  | job :: rest => ⟨disk, job⟩ :: turns c (Turn.left c ⟨disk, job⟩) rest

variable {c : Config} {disk : Disk} {report : Report}

theorem map_job_turns (c : Config) (disk : Disk) (js : List Job) :
    (turns c disk js).map Turn.job = js := by
  induction js generalizing disk with
  | nil => rfl
  | cons job js ih => rw [turns, List.map_cons, ih]

/-- What is reported of some jobs is what their turns give. -/
theorem runAll_eq (c : Config) (disk : Disk) (report : Report) (js : List Job) :
    (runAll c disk report js).1.outcomes = report.outcomes ++ (turns c disk js).filterMap
      (Turn.outcome? c) ∧
    (runAll c disk report js).1.failures = report.failures ++ (turns c disk js).filterMap
      (Turn.failure? c) ∧ (runAll c disk report js).1.unowned = report.unowned := by
  induction js generalizing disk report with
  | nil => simp [runAll, turns]
  | cons job js ih =>
    rw [runAll, turns, List.filterMap_cons, List.filterMap_cons]
    simp only [Turn.outcome?, Turn.failure?, Turn.left, Turn.result]
    cases job.run disk c with
    | error why =>
      obtain ⟨ho, hf, hu⟩ := ih disk (report.add job (.error why))
      refine ⟨ho, ?_, hu⟩
      exact hf.trans (List.append_assoc _ _ _)
    | ok found =>
      obtain ⟨r, outcome, disk'⟩ := found
      obtain ⟨ho, hf, hu⟩ := ih disk' (report.add job (.ok (r, outcome)))
      refine ⟨?_, hf, hu⟩
      exact ho.trans (List.append_assoc _ _ _)

/-- What a job does that does not fail: it rewrites its file, and writes it back or leaves the disk
as it is. -/
theorem run_cases {r : Rewritten} {outcome : Outcome} {disk' : Disk}
    (h : job.run disk c = .ok (r, outcome, disk')) :
    job.rewrite disk c = .ok r ∧
      (outcome = .of job.file r true ∧ disk.writeText job.file.path r.source = .ok disk' ∨
        outcome = .of job.file r false ∧ disk' = disk) := by
  unfold Job.run at h
  obtain ⟨r', hr, h⟩ := Fallible.exists_of_bind h
  split at h
  · split at h
    · rename_i hwrite
      cases h
      exact ⟨hr, .inl ⟨rfl, hwrite⟩⟩
    · cases h
  · cases h
    exact ⟨hr, .inr ⟨rfl, rfl⟩⟩

theorem of_rewrite_run {r : Rewritten} {outcome : Outcome} {disk' : Disk}
    (h : job.run disk c = .ok (r, outcome, disk')) :
    job.rewrite disk c = .ok r ∧ ∃ written, outcome = .of job.file r written := by
  obtain ⟨hr, ⟨rfl, -⟩ | ⟨rfl, -⟩⟩ := run_cases h
  · exact ⟨hr, true, rfl⟩
  · exact ⟨hr, false, rfl⟩

def Report.entries (report : Report) (path : Path) : Nat :=
  report.outcomes.countP (fun o => o.file.path = path) + report.failures.countP fun f =>
    f.path = path

theorem countP_turns (c : Config) (ts : List Turn) (path : Path) :
    (ts.filterMap (Turn.outcome? c)).countP (fun o => o.file.path = path) +
      (ts.filterMap (Turn.failure? c)).countP (fun f => f.path = path) =
    (ts.map Turn.job).countP fun job => job.file.path = path := by
  induction ts with
  | nil => rfl
  | cons turn ts ih =>
    rw [List.filterMap_cons, List.filterMap_cons, List.map_cons, List.countP_cons, ← ih]
    cases hr : turn.result c with
    | error why =>
      simp only [Turn.outcome?, Turn.failure?, hr, Except.toOption, Option.map_none,
        List.countP_cons]
      omega
    | ok found =>
      obtain ⟨r, outcome, disk⟩ := found
      obtain ⟨-, written, rfl⟩ := of_rewrite_run hr
      simp only [Turn.outcome?, Turn.failure?, hr, Except.toOption, Option.map_some,
        List.countP_cons, Outcome.of]
      omega

theorem entries_runAll (c : Config) (disk : Disk) (report : Report) (js : List Job) (path : Path) :
    (runAll c disk report js).1.entries path = report.entries path + js.countP fun job =>
      job.file.path = path := by
  obtain ⟨ho, hf, -⟩ := runAll_eq c disk report js
  have hcount := countP_turns c (turns c disk js) path
  rw [map_job_turns] at hcount
  rw [Report.entries, ho, hf, List.countP_append, List.countP_append, ← hcount, Report.entries]
  omega

end AsyncSpread.Project
