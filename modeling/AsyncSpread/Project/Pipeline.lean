import AsyncSpread.Calls.Builder
import AsyncSpread.Calls.Spread
import AsyncSpread.Project.Index
import AsyncSpread.Project.Rewrite
import AsyncSpread.Python.Parse
import AsyncSpread.Trace.Reader

/-!
From a project and a profile of it to a rewritten project.
-/

namespace AsyncSpread

def Calls.ofTrace (disk : Disk) (keep : Trace.FileFilter) (lookup : Calls.NameLookup)
    (trace : List Char) : Except Calls.BuildFault Calls.Builder :=
  match Trace.read disk keep trace with
  | .error e => .error (.profile (.trace e))
  | .ok raws => (Calls.Builder.start ∅).addAll disk lookup raws

namespace Project

inductive PipelineFault where
  | project (why : Fault)
  | build (why : Calls.BuildFault)
  /-- A seed that is not in the graph. -/
  | seed (why : Calls.Fault)
deriving DecidableEq

structure Run where
  index : Index
  graph : CallGraph
  tally : Calls.Tally
  plan : Plan
  report : Report
  disk : Disk

/-- Indexes a project, builds the call graph of a trace, spreads asynchrony from the seeds, and
rewrites. -/
def pipeline [Python.Parser] (disk : Disk) (root : Path) (keep : Trace.FileFilter)
    (trace : List Char) (seeds : List String) (c : Config) : Except PipelineFault Run := do
  let index ← (Index.build disk root c).mapError .project
  let built ← (Calls.ofTrace disk keep (index.nameAt? disk) trace).mapError .build
  let plan ← (built.graph.propagate seeds c.testPrefix).mapError .seed
  let (report, disk) ← (asyncify disk root plan c).mapError .project
  return ⟨index, built.graph, built.tally, plan, report, disk⟩

end Project

end AsyncSpread
