import AsyncSpread.Proofs.Disk.Writes
import AsyncSpread.Proofs.Project.Kept

/-!
The results of jobs.

What a job reports and what it writes can be told from the disk that is there before all jobs
(`Job.result`).  So a run reports the results of the jobs, in their order, and leaves the disk with
all that they write (`runAll_eq_results`).
-/

namespace AsyncSpread.Project

open Python Rewrite

variable {c : Config} {disk now : Disk} {job : Job} {js : List Job} {bytes : List UInt8}
  {report : Report}

def Job.write? (job : Job) : Except Fault (Rewritten × Outcome) → Option (Path × List Char)
  | .ok (r, outcome) => if outcome.written then some (job.file.path, r.source) else none
  | .error _ => none

theorem Job.write?_eq_some {given : Except Fault (Rewritten × Outcome)} {w : Path × List Char} :
    job.write? given = some w ↔
    ∃ r outcome, given = .ok (r, outcome) ∧ outcome.written = true ∧
      w = (job.file.path, r.source) := by
  cases given with
  | error why => simp [write?]
  | ok found =>
    obtain ⟨r, outcome⟩ := found
    simp only [write?, Option.ite_none_right_eq_some, Option.some.injEq]
    constructor
    · intro hand
      exact ⟨r, outcome, rfl, hand.1, hand.2.symm⟩
    · intro hex
      obtain ⟨r', outcome', heq, hwritten, hw⟩ := hex
      cases heq
      exact ⟨hwritten, hw.symm⟩

theorem foldl_add (results : Job → Except Fault (Rewritten × Outcome)) (js : List Job)
    (report : Report) :
    (js.foldl (fun report job => report.add job (results job)) report).outcomes =
      report.outcomes ++ js.filterMap (fun job => (results job).toOption.map Prod.snd) ∧
    (js.foldl (fun report job => report.add job (results job)) report).failures =
      report.failures ++ js.filterMap (fun job => match results job with
        | .ok _ => none
        | .error why => some ⟨job.file.path, why⟩) ∧
    (js.foldl (fun report job => report.add job (results job)) report).unowned =
      report.unowned := by
  induction js generalizing report with
  | nil => simp
  | cons job js ih =>
    obtain ⟨ho, hf, hu⟩ := ih (report.add job (results job))
    rw [List.foldl_cons, ho, hf, hu, List.filterMap_cons, List.filterMap_cons]
    cases results job with
    | error why => simp [Report.add, Except.toOption]
    | ok found => simp [Report.add, Except.toOption]

variable [Parser]

/-- What a job gives: the rewritten text and what is reported of it, if it is not refused to write
that. -/
def Job.result (c : Config) (disk : Disk) (job : Job) : Except Fault (Rewritten × Outcome) := do
  let r ← job.rewrite disk c
  if r.isChanged && !c.dryRun then
    match disk.permits .write job.file.path with
    | .ok () => return (r, .of job.file r true)
    | .error why => throw (.file job.file.path why)
  else return (r, .of job.file r false)

theorem Job.result_eq_ok {r : Rewritten} {outcome : Outcome} :
    job.result c disk = .ok (r, outcome) ↔
    job.rewrite disk c = .ok r ∧ outcome = .of job.file r (r.isChanged && !c.dryRun) ∧
      (outcome.written = true → disk.permits .write job.file.path = .ok ()) := by
  unfold result
  cases job.rewrite disk c with
  | error why => exact ⟨nofun, nofun⟩
  | ok r' =>
    simp only [bind, Except.bind, pure, Except.pure, Except.ok.injEq]
    by_cases hw : (r'.isChanged && !c.dryRun) = true
    · rw [if_pos hw]
      cases disk.permits .write job.file.path with
      | error why =>
        refine ⟨nofun, ?_⟩
        rintro ⟨rfl, rfl, hno⟩
        exact nomatch hno hw
      | ok =>
        constructor
        · rintro ⟨⟩
          exact ⟨rfl, by rw [hw], fun _ => rfl⟩
        · rintro ⟨rfl, rfl, -⟩
          rw [hw]
    · rw [if_neg hw]
      constructor
      · rintro ⟨⟩
        exact ⟨rfl, by rw [Bool.eq_false_iff.2 hw], fun hwritten => nomatch hwritten⟩
      · rintro ⟨rfl, rfl, -⟩
        rw [Bool.eq_false_iff.2 hw]

theorem Job.result_congr (h : disk.Holds job.file.path bytes) (h' : now.Holds job.file.path bytes)
    (hguard : now.guard = disk.guard) : job.result c now = job.result c disk := by
  rw [result, result, rewrite_congr h h' hguard, h.permits_congr h' hguard]

/-- A job that finds its file gives its result and leaves the disk with what it writes. -/
theorem run_eq (h : disk.Holds job.file.path bytes) : job.run disk c =
    (job.result c disk).map fun (r, outcome) =>
      (r, outcome, disk.writeAll (job.write? (.ok (r, outcome))).toList) := by
  unfold Job.run Job.result
  cases job.rewrite disk c with
  | error why => rfl
  | ok r =>
    simp only [bind, Except.bind, pure, Except.pure]
    by_cases hw : (r.isChanged && !c.dryRun) = true
    · rw [if_pos hw, if_pos hw, h.writeText r.source]
      cases disk.permits .write job.file.path <;> rfl
    · rw [if_neg hw, if_neg hw]
      rfl

theorem left_eq (h : disk.Holds job.file.path bytes) :
    Turn.left c ⟨disk, job⟩ = disk.writeAll (job.write? (job.result c disk)).toList := by
  unfold Turn.left Turn.result
  rw [run_eq h]
  cases job.result c disk <;> rfl

def writes (c : Config) (disk : Disk) (js : List Job) : List (Path × List Char) :=
  js.filterMap fun job => job.write? (job.result c disk)

theorem mem_writes {w : Path × List Char} : w ∈ writes c disk js ↔
    ∃ job ∈ js, ∃ r outcome, job.result c disk = .ok (r, outcome) ∧ outcome.written = true ∧
      w = (job.file.path, r.source) := by
  simp only [writes, List.mem_filterMap, Job.write?_eq_some]

theorem Held.takes (h : Held disk js) : disk.Takes (writes c disk js) := by
  refine ⟨fun w hw => ?_, ?_⟩
  · obtain ⟨job, hjob, r, outcome, -, -, rfl⟩ := mem_writes.1 hw
    exact h.holds job hjob
  · refine List.pairwise_filterMap.2 (h.apart.imp fun {a b} hne w hw w' hw' => ?_)
    obtain ⟨-, -, -, -, rfl⟩ := Job.write?_eq_some.1 hw
    obtain ⟨-, -, -, -, rfl⟩ := Job.write?_eq_some.1 hw'
    exact hne

/-- A run reports the results that its jobs have before all of them, and leaves the disk with what
they write. -/
theorem runAll_results (hheld : Held now js)
    (hsame : ∀ job ∈ js, job.result c now = job.result c disk) :
    runAll c now report js =
      (js.foldl (fun report job => report.add job (job.result c disk)) report,
        now.writeAll (writes c disk js)) := by
  induction js generalizing now report with
  | nil => rfl
  | cons job js ih =>
    obtain ⟨old, hold⟩ := hheld.holds job List.mem_cons_self
    have hresult := hsame job List.mem_cons_self
    -- The jobs behind this one give what they would have given before it.
    have hrest : ∀ other ∈ js, other.result c (Turn.left c ⟨now, job⟩) = other.result c disk := by
      intro other hother
      obtain ⟨bytes, hbytes⟩ := hheld.holds other (List.mem_cons_of_mem _ hother)
      have hne := (List.pairwise_cons.1 hheld.apart).1 other hother
      rw [← hsame other (List.mem_cons_of_mem _ hother)]
      exact Job.result_congr hbytes (holds_left hold hne.symm hbytes) (guard_left c hold)
    have hrun (report : Report) : runAll c (Turn.left c ⟨now, job⟩) report js =
        (js.foldl (fun report job => report.add job (job.result c disk)) report,
          (Turn.left c ⟨now, job⟩).writeAll (writes c disk js)) := ih hheld.left hrest
    have hleft := left_eq (c := c) hold
    have hwrites : writes c disk (job :: js) = (job.write? (job.result c disk)).toList ++
        writes c disk js := by
      rw [writes, List.filterMap_eq_flatMap_toList,
        List.flatMap_cons, ← List.filterMap_eq_flatMap_toList, writes]
    rw [runAll, run_eq hold, List.foldl_cons, hwrites, Disk.writeAll_append, ← hresult, ← hleft]
    rw [hleft] at hrun ⊢
    cases hr : job.result c now with
    | error why =>
      rw [hr] at hrun
      exact hrun _
    | ok found =>
      rw [hr] at hrun
      exact hrun _

theorem runAll_eq_results (hheld : Held disk js) : runAll c disk report js =
    (js.foldl (fun report job => report.add job (job.result c disk)) report,
      disk.writeAll (writes c disk js)) :=
  runAll_results hheld fun _ _ => rfl

/-! ## Reports of results -/

theorem mem_outcomes_runAll (hheld : Held disk js) (hnil : report.outcomes = [])
    {outcome : Outcome} :
    outcome ∈ (runAll c disk report js).1.outcomes ↔
      ∃ job ∈ js, ∃ r, job.result c disk = .ok (r, outcome) := by
  rw [runAll_eq_results hheld, (foldl_add _ js report).1, hnil, List.nil_append, List.mem_filterMap]
  refine exists_congr fun job => and_congr_right fun _ => ?_
  cases job.result c disk with
  | error why => simp [Except.toOption]
  | ok found => simp [Except.toOption, Prod.ext_iff]

theorem mem_failures_runAll (hheld : Held disk js) {failure : Failure} :
    failure ∈ (runAll c disk report js).1.failures ↔
      failure ∈ report.failures ∨ ∃ job ∈ js, job.result c disk = .error failure.why ∧
        job.file.path = failure.path := by
  rw [runAll_eq_results hheld, (foldl_add _ js report).2.1, List.mem_append, List.mem_filterMap]
  refine or_congr_right (exists_congr fun job => and_congr_right fun _ => ?_)
  obtain ⟨path, why⟩ := failure
  cases job.result c disk with
  | error => simp [and_comm]
  | ok found => simp

/-! ## Files behind a run -/

/-- A file that is reported as written holds what its own text was rewritten to. -/
theorem holds_of_written (hheld : Held disk js) (hnil : report.outcomes = []) {outcome : Outcome}
    (h : outcome ∈ (runAll c disk report js).1.outcomes) (hwritten : outcome.written = true) :
    ∃ job ∈ js, ∃ r, outcome.file = job.file ∧ job.rewrite disk c = .ok r ∧
      (runAll c disk report js).2.Holds outcome.file.path (Text.encodeUtf8 r.source) := by
  obtain ⟨job, hjob, r, hresult⟩ := (mem_outcomes_runAll hheld hnil).1 h
  have hmem : (job.file.path, r.source) ∈ writes c disk js :=
    mem_writes.2 ⟨job, hjob, r, outcome, hresult, hwritten, rfl⟩
  obtain ⟨hr, rfl, -⟩ := Job.result_eq_ok.1 hresult
  refine ⟨job, hjob, r, rfl, hr, ?_⟩
  rw [runAll_eq_results hheld]
  exact Disk.holds_writeAll_of_mem hheld.takes hmem

/-- A file that is not reported as written keeps its bytes. -/
theorem holds_of_not_written (hheld : Held disk js) (hnil : report.outcomes = []) {path : Path}
    (hpath : disk.Holds path bytes)
    (hno : ∀ outcome ∈ (runAll c disk report js).1.outcomes, outcome.written = true →
      outcome.file.path ≠ path) : (runAll c disk report js).2.Holds path bytes := by
  rw [runAll_eq_results hheld]
  refine Disk.holds_writeAll hheld.takes hpath fun w hw => ?_
  obtain ⟨job, hjob, r, outcome, hresult, hwritten, rfl⟩ := mem_writes.1 hw
  have hne := hno outcome ((mem_outcomes_runAll hheld hnil).2 ⟨job, hjob, r, hresult⟩) hwritten
  obtain ⟨-, rfl, -⟩ := Job.result_eq_ok.1 hresult
  exact hne

/-- A file that a job fails on is not reported as written. -/
theorem ne_of_failed (hheld : Held disk js) (hnil : report.outcomes = []) {why : Fault}
    (hjob : job ∈ js) (hfailed : job.result c disk = .error why) {outcome : Outcome}
    (h : outcome ∈ (runAll c disk report js).1.outcomes) : outcome.file.path ≠ job.file.path := by
  intro hpath
  obtain ⟨other, hother, r, hresult⟩ := (mem_outcomes_runAll hheld hnil).1 h
  have hfile := (Job.result_eq_ok.1 hresult).2.1
  rw [hfile] at hpath
  rw [hheld.eq_of_path hother hjob hpath, hfailed] at hresult
  cases hresult

/-! ## Projects -/

omit [Parser] in
theorem held_jobsFor {root top : Path} (hd : disk.Sound) (hroot : disk.canonical root = .ok top)
    (plan : Plan) :
    Held disk (jobsFor plan (walk disk top c)) := held_jobs hd hroot

end AsyncSpread.Project
