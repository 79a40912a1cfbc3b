import AsyncSpread.Metrics
import AsyncSpread.Project.Walk
import AsyncSpread.Rewrite.Source

/-!
Rewriting the source files of a project.

The plan is split over the modules of the files.  Where several files have one module, the first on
the walk has its part.  A file that cannot be rewritten is reported and keeps its text.
-/

namespace AsyncSpread.Project

open Python Rewrite

variable [Parser]

structure Outcome where
  file : SourceFile
  changed : Bool
  /-- Whether the file was written back. -/
  written : Bool
  madeAsync : Nat
  awaited : Nat
  marked : Nat
  importAdded : Bool
  unconverted : SortedSet String
deriving DecidableEq

def Outcome.of (file : SourceFile) (r : Rewritten) (written : Bool) : Outcome :=
  ⟨file, r.isChanged, written, r.madeAsync, r.awaited, r.marked, r.importAdded, r.unconverted⟩

structure Report where
  outcomes : List Outcome
  failures : List Failure
  /-- The planned functions that belong to no file. -/
  unowned : SortedSet String
  metrics : Metrics

def Report.changed (r : Report) : List Outcome := r.outcomes.filter Outcome.changed

structure Job where
  file : SourceFile
  plan : Plan

/-- The files that have a part of the plan, each module's part with its first file. -/
def jobs (parts : List (String × Plan)) : List SourceFile → List Job
  | [] => []
  | file :: rest =>
    match parts.find? fun (m, _) => m == file.module with
    | some (_, p) => ⟨file, p⟩ :: jobs (parts.filter fun (m, _) => m != file.module) rest
    | none => jobs parts rest

def unownedBy (plan : Plan) (parts : List (String × Plan)) : SortedSet String :=
  plan.functions.filter fun name => !parts.any fun (_, p) => p.hasFunction name

def Job.rewrite (disk : Disk) (c : Config) (job : Job) : Except Fault Rewritten := do
  let source ← readSource disk job.file.path c
  let tree ← parseSource job.file.path.text source
  rewriteParsed ⟨source, NameIndex.ofTree source job.file.module tree, job.plan, c⟩ tree

/-- Rewrites a file, and writes it back if it changed and the run is not a dry one. -/
def Job.run (disk : Disk) (c : Config) (job : Job) : Except Fault (Rewritten × Outcome × Disk) := do
  let r ← job.rewrite disk c
  if r.isChanged && !c.dryRun then
    match disk.writeText job.file.path r.source with
    | .ok disk => return (r, .of job.file r true, disk)
    | .error why => throw (.file job.file.path why)
  else return (r, .of job.file r false, disk)

def Report.add (report : Report) (job : Job) (result : Except Fault (Rewritten × Outcome)) :
    Report :=
  match result with
  | .ok (r, outcome) =>
    { report with outcomes := report.outcomes ++ [outcome], metrics :=
      report.metrics.addSuccess r 0 }
  | .error e =>
    { report with
      failures := report.failures ++ [⟨job.file.path, e⟩]
      metrics := report.metrics.addFailure 0 }

def runAll (c : Config) (disk : Disk) (report : Report) : List Job → Report × Disk
  | [] => (report, disk)
  | job :: rest =>
    match job.run disk c with
    | .ok (r, outcome, disk) => runAll c disk (report.add job (.ok (r, outcome))) rest
    | .error e => runAll c disk (report.add job (.error e)) rest

def asyncify (disk : Disk) (root : Path) (plan : Plan) (c : Config) :
    Except Fault (Report × Disk) := do
  let root ← prepare disk root c
  let found := walk disk root c
  let parts := plan.split (found.files.map SourceFile.module)
  return runAll c disk ⟨[], found.failures, unownedBy plan parts, .zero⟩ (jobs parts found.files)

end AsyncSpread.Project
