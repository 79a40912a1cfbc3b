import Mathlib.Data.List.Perm.Basic
import AsyncSpread.Proofs.Project.Results

/-!
The counters of a report.

Metrics are merged without regard to order and grouping, and what they count is told by
`Metrics.count` from the outcomes and the failures.  The metrics of the turns count what the turns
report (`total_metrics`), so those of a run agree with its report (`consistent_runAll`).
-/

namespace AsyncSpread

namespace Metrics

theorem merge_comm (m n : Metrics) : m.merge n = n.merge m := by
  simp only [merge, UInt64.add_comm, Nat.add_comm]

theorem merge_assoc (m n k : Metrics) : (m.merge n).merge k = m.merge (n.merge k) := by
  simp only [merge, UInt64.add_assoc, Nat.add_assoc]

theorem merge_zero (m : Metrics) : m.merge zero = m := by
  simp [merge, zero]

theorem zero_merge (m : Metrics) : zero.merge m = m := by
  rw [merge_comm, merge_zero]

instance : Std.Commutative merge := ⟨merge_comm⟩

instance : Std.Associative merge := ⟨merge_assoc⟩

def total (ms : List Metrics) : Metrics := ms.foldr merge zero

theorem total_append (ms ns : List Metrics) : total (ms ++ ns) = (total ms).merge (total ns) := by
  induction ms with
  | nil => exact (zero_merge _).symm
  | cons m ms ih =>
    show m.merge (total (ms ++ ns)) = (m.merge (total ms)).merge (total ns)
    rw [ih, merge_assoc]

theorem total_perm {ms ns : List Metrics} (h : ms.Perm ns) : total ms = total ns := h.foldr_op_eq

/-- A way to merge metrics: in which order, and in which groups. -/
inductive Merging where
  | none
  | one (m : Metrics)
  | both (first second : Merging)

namespace Merging

/-- The metrics that are merged. -/
def parts : Merging → List Metrics
  | none => []
  | one m => [m]
  | both first second => first.parts ++ second.parts

def result : Merging → Metrics
  | none => zero
  | one m => m
  | both first second => first.result.merge second.result

theorem result_eq_total (way : Merging) : way.result = total way.parts := by
  induction way with
  | none => rfl
  | one m => exact (merge_zero m).symm
  | both first second ihf ihs =>
    show first.result.merge second.result = total (first.parts ++ second.parts)
    rw [ihf, ihs, total_append]

end Merging

open Project

/-- The metrics for the outcomes of some files, a number of failures and a time.  The counters are
words, so they hold the numbers as words. -/
def count (outcomes : List Outcome) (failed nanos : Nat) : Metrics where
  attempted := .ofNat (outcomes.length + failed)
  succeeded := .ofNat outcomes.length
  failed := .ofNat failed
  changed := .ofNat (outcomes.countP Outcome.changed)
  madeAsync := .ofNat (outcomes.map Outcome.madeAsync).sum
  awaited := .ofNat (outcomes.map Outcome.awaited).sum
  marked := .ofNat (outcomes.map Outcome.marked).sum
  importsAdded := .ofNat (outcomes.countP Outcome.importAdded)
  nanos := nanos

theorem ofSuccess_merge_count (file : SourceFile) (r : Rewrite.Rewritten) (written : Bool)
    (outcomes : List Outcome) (failed nanos more : Nat) :
    (ofSuccess r nanos).merge (count outcomes failed more) =
      count (.of file r written :: outcomes) failed (nanos + more) := by
  simp only [merge, ofSuccess, count, mk.injEq, List.length_cons, List.countP_cons, List.map_cons,
    List.sum_cons, UInt64.ofNat_add, UInt64.zero_add]
  refine ⟨?_, UInt64.add_comm _ _, trivial, ?_, rfl, rfl, rfl, ?_, trivial⟩
  · rw [UInt64.add_comm, UInt64.add_assoc, UInt64.add_assoc, UInt64.add_comm (.ofNat failed)]
    rfl
  · rw [UInt64.add_comm, Outcome.of]
    cases r.isChanged <;> rfl
  · rw [UInt64.add_comm, Outcome.of]
    cases r.importAdded <;> rfl

theorem ofFailure_merge_count (outcomes : List Outcome) (failed nanos more : Nat) :
    (ofFailure nanos).merge (count outcomes failed more) = count outcomes (failed + 1)
      (nanos + more) := by
  simp only [merge, ofFailure, count, zero, mk.injEq, UInt64.ofNat_add, UInt64.zero_add,
    true_and, and_true]
  refine ⟨?_, UInt64.add_comm _ _⟩
  rw [UInt64.add_comm, UInt64.add_assoc]
  rfl

end Metrics

namespace Project

variable {c : Config} {disk : Disk} {job : Job} {js : List Job} {report : Report}

def Report.paths (report : Report) : List Path :=
  report.outcomes.map (fun o => o.file.path) ++ report.failures.map Failure.path

theorem count_paths (report : Report) (path : Path) :
    report.paths.count path = report.entries path := by
  simp only [Report.paths, List.count, List.countP_append, List.countP_map]
  rfl

section

variable [Python.Parser]

def Turn.metrics (c : Config) (turn : Turn) (nanos : Nat) : Metrics :=
  match turn.result c with
  | .ok (r, _, _) => .ofSuccess r nanos
  | .error _ => .ofFailure nanos

/-- The metrics of some turns count what the turns report. -/
theorem total_metrics (c : Config) (elapsed : Turn → Nat) (ts : List Turn) :
    Metrics.total (ts.map fun turn => turn.metrics c (elapsed turn)) =
      .count (ts.filterMap (Turn.outcome? c)) (ts.filterMap (Turn.failure? c)).length
        (ts.map elapsed).sum := by
  induction ts with
  | nil => rfl
  | cons turn ts ih =>
    show (turn.metrics c (elapsed turn)).merge
      (Metrics.total (ts.map fun turn => turn.metrics c (elapsed turn))) = _
    rw [ih, List.map_cons, List.sum_cons, List.filterMap_cons, List.filterMap_cons, Turn.metrics]
    cases hr : turn.result c with
    | error why =>
      simp only [Turn.outcome?, Turn.failure?, hr, Except.toOption, Option.map_none,
        List.length_cons]
      exact Metrics.ofFailure_merge_count _ _ _ _
    | ok found =>
      obtain ⟨r, outcome, disk⟩ := found
      obtain ⟨-, written, rfl⟩ := of_rewrite_run hr
      simp only [Turn.outcome?, Turn.failure?, hr, Except.toOption, Option.map_some]
      exact Metrics.ofSuccess_merge_count _ _ _ _ _ _ _

/-- A run adds the metrics of its turns to those of the report. -/
theorem metrics_runAll (c : Config) (disk : Disk) (report : Report) (js : List Job) :
    (runAll c disk report js).1.metrics =
      report.metrics.merge (.total ((turns c disk js).map fun turn => turn.metrics c 0)) := by
  induction js generalizing disk report with
  | nil => exact (Metrics.merge_zero _).symm
  | cons job js ih =>
    show _ = report.metrics.merge
      ((Turn.metrics c ⟨disk, job⟩ 0).merge
        (.total ((turns c (Turn.left c ⟨disk, job⟩) js).map fun turn => turn.metrics c 0)))
    rw [← Metrics.merge_assoc, runAll]
    simp only [Turn.metrics, Turn.left, Turn.result]
    cases job.run disk c with
    | error why => exact ih disk (report.add job (.error why))
    | ok found => exact ih found.2.2 (report.add job (.ok (found.1, found.2.1)))

/-- A run adds the files of its jobs to those of the report. -/
theorem paths_runAll (c : Config) (disk : Disk) (report : Report) (js : List Job) :
    (runAll c disk report js).1.paths.Perm (report.paths ++ js.map fun job => job.file.path) := by
  rw [List.perm_iff_count]
  intro path
  rw [count_paths, entries_runAll, List.count_append, count_paths, List.count, List.countP_map]
  rfl

/-- A report is consistent with the turns of a run and the failures that were found before it.  Each
turn has an outcome or a failure, and the counters count the outcomes and the failed turns.  Each
file is in the report once: with its outcome, or as one that failed.  However the metrics of the
turns are merged, and whatever time each of them takes, the result has the counters of the report
and the time of all turns. -/
structure Report.Consistent (report : Report) (c : Config) (found : List Failure)
    (ts : List Turn) : Prop where
  outcomes : report.outcomes = ts.filterMap (Turn.outcome? c)
  failures : report.failures = found ++ ts.filterMap (Turn.failure? c)
  counted : report.metrics = .count report.outcomes (ts.filterMap (Turn.failure? c)).length 0
  once : report.paths.Nodup
  reported : ∀ turn ∈ ts, turn.job.file.path ∈ report.paths
  merged : ∀ (elapsed : Turn → Nat) (way : Metrics.Merging),
    way.parts.Perm (ts.map fun turn => turn.metrics c (elapsed turn)) →
    way.result = { report.metrics with nanos := (ts.map elapsed).sum }

/-- A run from an empty report gives a consistent one, if no file has two jobs or has failed
before. -/
theorem consistent_runAll (disk : Disk) {first : Report} (houtcomes : first.outcomes = [])
    (hmetrics : first.metrics = .zero)
    (hnodup : (first.failures.map Failure.path ++ js.map fun job => job.file.path).Nodup) :
    (runAll c disk first js).1.Consistent c first.failures (turns c disk js) := by
  obtain ⟨ho, hf, -⟩ := runAll_eq c disk first js
  have hpaths := paths_runAll c disk first js
  have hbefore : first.paths = first.failures.map Failure.path := by
    rw [Report.paths, houtcomes, List.map_nil, List.nil_append]
  rw [hbefore] at hpaths
  rw [houtcomes, List.nil_append] at ho
  have hcounted : (runAll c disk first js).1.metrics =
      .count ((turns c disk js).filterMap (Turn.outcome? c))
      ((turns c disk js).filterMap (Turn.failure? c)).length 0 := by
    have htotal := total_metrics c (fun _ => 0) (turns c disk js)
    have hsum : ((turns c disk js).map fun _ => 0).sum = 0 := by simp
    rw [hsum] at htotal
    rw [metrics_runAll, hmetrics, Metrics.zero_merge, htotal]
  refine ⟨ho, hf, ?_, hpaths.nodup_iff.2 hnodup, fun turn hturn => ?_, fun elapsed way hway => ?_⟩
  · rw [ho]
    exact hcounted
  · have hjob : turn.job ∈ js := by
      rw [← map_job_turns c disk js]
      exact List.mem_map_of_mem hturn
    exact hpaths.mem_iff.2 (List.mem_append_right _ (List.mem_map_of_mem hjob))
  · rw [way.result_eq_total, Metrics.total_perm hway, total_metrics, hcounted]
    rfl

/-- The report on a project is consistent. -/
theorem asyncify_consistent (hdisk : disk.Sound) (plan : Plan) {root top : Path}
    (hc : c.validate = .ok ()) (hroot : disk.canonical root = .ok top) :
    ∃ report disk', asyncify disk root plan c = .ok (report, disk') ∧
      report.Consistent c (walk disk top c).failures
        (turns c disk (jobsFor plan (walk disk top c))) :=
  ⟨_, _, asyncify_eq_runAll plan hc hroot,
    consistent_runAll disk rfl rfl (nodup_paths_jobs hdisk top c _)⟩

end

/-- A project with a file that is changed, one that cannot be rewritten, one that needs no change,
one that may not be written, and a directory that may not be listed. -/
def yard : Disk where
  top := [
    ("gate.py", .file (Text.encodeUtf8 "def lift(): pass\nlift()\n".toList)),
    ("shed.py", .file (Text.encodeUtf8 "def lock():\n    (lambda: 1)()\n".toList)),
    ("sign.py", .file (Text.encodeUtf8 "def read(): pass\n".toList)),
    ("vault", .dir [("gold.py", .file (Text.encodeUtf8 "def take(): pass\n".toList))]),
    ("wall.py", .file (Text.encodeUtf8 "async def climb(): pass\n".toList))]
  cwd := []
  guard := ⟨fun access place =>
    if access = .write ∧ place = ["sign.py"] then .error .readOnly
    else if access = .list ∧ place = ["vault"] then .error .permissionDenied
    else .ok ()⟩

def yardPlan : Plan :=
  (((Plan.empty.addFunction "gate.lift").addFunction "shed.lock").addFunction
    "sign.read").addFunction "wall.climb"

theorem asyncify_consistent_yard :
    yard.Sound ∧ Config.standard.validate = .ok () ∧ yard.canonical ⟨"/"⟩ = .ok ⟨"/"⟩ ∧
    ∃ report disk', asyncify yard ⟨"/"⟩ yardPlan .standard = .ok (report, disk') ∧
      report.Consistent .standard (walk yard ⟨"/"⟩ .standard).failures
        (turns .standard yard (jobsFor yardPlan (walk yard ⟨"/"⟩ .standard))) ∧
      report.metrics = ⟨4, 2, 2, 1, 1, 0, 0, 0, 0⟩ ∧
      report.failures.map Failure.why = [.walk ⟨"/vault"⟩ .permissionDenied,
        .target ⟨.lambda, 2, 5⟩, .file ⟨"/sign.py"⟩ .readOnly] := by
  have hdisk : yard.Sound := by decide +kernel
  have hc : Config.standard.validate = .ok () := toOption_eq_some (by decide +kernel)
  have hroot : yard.canonical ⟨"/"⟩ = .ok ⟨"/"⟩ := toOption_eq_some (by decide +kernel)
  obtain ⟨report, disk', hok, hconsistent⟩ := asyncify_consistent hdisk yardPlan hc hroot
  have hreport : (asyncify yard ⟨"/"⟩ yardPlan .standard).toOption.map (fun run =>
      (run.1.metrics, run.1.failures.map Failure.why)) =
      some (⟨4, 2, 2, 1, 1, 0, 0, 0, 0⟩, [.walk ⟨"/vault"⟩ .permissionDenied,
        .target ⟨.lambda, 2, 5⟩, .file ⟨"/sign.py"⟩ .readOnly]) := by decide +kernel
  rw [hok] at hreport
  obtain ⟨hmetrics, hfailures⟩ := Prod.mk.inj (Option.some.inj hreport)
  exact ⟨hdisk, hc, hroot, report, disk', hok, hconsistent, hmetrics, hfailures⟩

end Project

end AsyncSpread
