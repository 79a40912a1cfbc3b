import AsyncSpread.Proofs.Project.Jobs
import AsyncSpread.Proofs.Project.Walked
import AsyncSpread.Proofs.Rewrite.Openings

/-!
What becomes of a planned function in a project.

A planned function lies in no module of the project and is reported as such, or one file owns it.
That file has one entry in the report, and if it was rewritten the function opens with `async` in it
or is reported as not found.
-/

namespace AsyncSpread

open Python

namespace Rewrite

variable {t : Task} {root : Node} {p : Progress} {module name : String}

/-- Of the functions of one name in a tree there is a first one. -/
theorem exists_isFirst (t : Task) {d : Node} (hd : d ∈ root.all)
    (hk : d.kind = .functionDefinition) :
    ∃ e ∈ root.all, e.kind = .functionDefinition ∧
      t.index.nameAt? e.startLine = t.index.nameAt? d.startLine ∧ t.isFirst root e = true := by
  induction hn : d.start.byte using Nat.strongRecOn generalizing d with
  | _ n ih =>
    by_cases hf : t.isFirst root d = true
    · exact ⟨d, hd, hk, rfl, hf⟩
    · rw [Task.isFirst_iff] at hf
      simp only [Classical.not_forall, Nat.not_le] at hf
      obtain ⟨e, he, hek, hname, hlt⟩ := hf
      obtain ⟨f, hf, hfk, hfname, hfirst⟩ := ih e.start.byte (hn ▸ hlt) he hek rfl
      exact ⟨f, hf, hfk, hfname.trans hname, hfirst⟩

/-- A planned name that is not left pending is that of a function, and the first of that name opens
with `async`. -/
theorem exists_opensAsync (h : root.Lawful t.source)
    (hix : t.index = NameIndex.ofTree t.source module root) (hg : gather t root = .ok p)
    (hplan : name ∈ t.plan.functions) (hp : name ∉ p.pending) :
    ∃ d ∈ root.all, d.kind = .functionDefinition ∧ t.index.nameAt? d.startLine = some name ∧
      t.isFirst root d = true ∧ Edit.opensAsync t.source (p.insertions t root) d = true := by
  have hrun := hg
  rw [gather_eq_run] at hrun
  rw [Task.mem_pending_run hrun] at hp
  have hleft : ∃ pl, Event.leave pl ∈ eventsOf [] false root ∧ pl.defined? t = some name := by
    refine Classical.byContradiction fun hno => hp ⟨hplan, fun pl hpl hd => ?_⟩
    exact hno ⟨pl, hpl, hd⟩
  obtain ⟨pl, hpl, hd⟩ := hleft
  obtain ⟨hk, hd⟩ := Place.defined?_eq_some.1 hd
  obtain ⟨d, hd', hdk, hname, hfirst⟩ := exists_isFirst t (node_mem_all (mem_left.2 hpl)) hk
  have hname := hname.trans hd
  have hopens := Task.async_prefix_opening (begins_opening h hix hg hd' hdk hname hplan)
  exact ⟨d, hd', hdk, hname, hfirst, hopens.2 (.inr hfirst)⟩

theorem mem_functions_of_mem_pending (hg : gather t root = .ok p) (h : name ∈ p.pending) :
    name ∈ t.plan.functions := by
  rw [gather_eq_run] at hg
  exact ((Task.mem_pending_run hg).1 h).1

end Rewrite

namespace Project

open Rewrite

def Job.task (c : Config) (job : Job) (source : List Char) (root : Node) : Task :=
  ⟨source, NameIndex.ofTree source job.file.module root, job.plan, c⟩

variable {c : Config} {disk : Disk} {job : Job} {name : String}

section Turns

variable [Parser]

theorem of_rewrite {r : Rewritten} (h : job.rewrite disk c = .ok r) : ∃ source root p,
    readSource disk job.file.path c = .ok source ∧ parse source = .ok root ∧
    gather (job.task c source root) root = .ok p ∧ r.unconverted = p.pending ∧
    r.source = Edit.apply source (p.insertions (job.task c source root) root) := by
  unfold Job.rewrite at h
  obtain ⟨source, hs, h⟩ := Fallible.exists_of_bind h
  obtain ⟨root, hroot, h⟩ := Fallible.exists_of_bind h
  have h : rewriteParsed (job.task c source root) root = .ok r := h
  obtain ⟨p, hg, rfl⟩ := exists_gather (rewriteTree_of_rewriteParsed h)
  exact ⟨source, root, p, hs, parse_of_parseSource hroot, hg, rfl, rfl⟩

/-- At a turn a name is that of a function in the text that is read, and the first function of that
name opens with `async` in the rewritten text. -/
def Turn.Converts (c : Config) (turn : Turn) (name : String) : Prop :=
  ∃ source root p d, readSource turn.disk turn.job.file.path c = .ok source ∧
    parse source = .ok root ∧ gather (turn.job.task c source root) root = .ok p ∧
    (turn.job.rewrite turn.disk c).map Rewritten.source =
      .ok (Edit.apply source (p.insertions (turn.job.task c source root) root)) ∧
    d ∈ root.all ∧ d.kind = .functionDefinition ∧
    (turn.job.task c source root).index.nameAt? d.startLine = some name ∧
    (turn.job.task c source root).isFirst root d = true ∧
    Edit.opensAsync source (p.insertions (turn.job.task c source root) root) d = true

theorem of_outcome? {turn : Turn} {outcome : Outcome} (h : turn.outcome? c = some outcome) :
    ∃ r written, turn.job.rewrite turn.disk c = .ok r ∧ outcome = .of turn.job.file r written := by
  unfold Turn.outcome? at h
  obtain ⟨⟨r, o, disk⟩, hresult, rfl⟩ := Option.map_eq_some_iff.1 h
  obtain ⟨hr, written, rfl⟩ := of_rewrite_run (toOption_eq_some hresult)
  exact ⟨r, written, hr, rfl⟩

/-- What a turn gives for a planned name: it is reported as not found, or it is converted. -/
theorem Turn.mem_unconverted_or_converts [LawfulParser] {turn : Turn} {outcome : Outcome}
    (h : turn.outcome? c = some outcome) (hplan : name ∈ turn.job.plan.functions) :
    name ∈ outcome.unconverted ∨ turn.Converts c name := by
  obtain ⟨r, written, hr, rfl⟩ := of_outcome? h
  obtain ⟨source, root, p, hread, hroot, hg, hun, hsource⟩ := of_rewrite hr
  by_cases hp : name ∈ p.pending
  · refine .inl ?_
    change name ∈ r.unconverted
    rw [hun]
    exact hp
  · obtain ⟨d, hd, hk, hname, hfirst, hopens⟩ :=
      exists_opensAsync (t := turn.job.task c source root) (lawful_of_parse hroot) rfl hg hplan hp
    refine .inr ⟨source, root, p, d, hread, hroot, hg, ?_, hd, hk, hname, hfirst, hopens⟩
    rw [hr, ← hsource]
    rfl

theorem Turn.mem_functions_of_unconverted {turn : Turn} {outcome : Outcome}
    (h : turn.outcome? c = some outcome) (hname : name ∈ outcome.unconverted) :
    outcome.file = turn.job.file ∧ name ∈ turn.job.plan.functions := by
  obtain ⟨r, written, hr, rfl⟩ := of_outcome? h
  obtain ⟨source, root, p, -, -, hg, hun, -⟩ := of_rewrite hr
  refine ⟨rfl, mem_functions_of_mem_pending hg ?_⟩
  rw [← hun]
  exact hname

end Turns

/-! ## Files that own names -/

/-- A file owns a name: its module is the longest that the name lies in, and it is the first file of
that module. -/
def Owns (files : List SourceFile) (file : SourceFile) (name : String) : Prop :=
  FirstOf files file ∧ (∃ inner, name = below file.module inner) ∧
    ∀ f ∈ files, (∃ inner, name = below f.module inner) → f.module.length ≤ file.module.length

variable {files : List SourceFile} {plan : Plan}

theorem owns_iff {file : SourceFile} : Owns files file name ↔
    FirstOf files file ∧ owner? (files.map SourceFile.module) name = some file.module := by
  unfold Owns
  refine and_congr_right fun hfirst => ?_
  have hmem : file.module ∈ files.map SourceFile.module := List.mem_map_of_mem hfirst.mem
  constructor
  · intro h
    obtain ⟨⟨inner, hin⟩, hlongest⟩ := h
    cases ho : owner? (files.map SourceFile.module) name with
    | none => exact absurd hin (owner?_eq_none_iff.1 ho _ hmem inner)
    | some m =>
      -- Both modules are the longest, and a beginning of the name is told by its length.
      obtain ⟨hm, hmin, hmost⟩ := of_owner? ho
      obtain ⟨f, hf, rfl⟩ := List.mem_map.1 hm
      have hle := hmost _ hmem ⟨inner, hin⟩
      have hge := hlongest f hf hmin
      rw [← String.length_toList, ← String.length_toList] at hge
      obtain ⟨rest, hrest⟩ := eq_below_iff.1 hmin
      obtain ⟨rest', hrest'⟩ := eq_below_iff.1 ⟨inner, hin⟩
      rw [hrest] at hrest'
      have hsame := (List.append_inj hrest' (Nat.le_antisymm hge hle)).1
      rw [String.toList_inj.1 hsame]
  · intro ho
    obtain ⟨-, hin, hmost⟩ := of_owner? ho
    refine ⟨hin, fun f hf hex => ?_⟩
    rw [← String.length_toList, ← String.length_toList]
    exact hmost _ (List.mem_map_of_mem hf) hex

/-- The jobs whose part of the plan has a name are those of the files that own it. -/
theorem owns_of_mem_jobs (h : job ∈ jobs (plan.split (files.map SourceFile.module)) files)
    (hname : name ∈ job.plan.functions) : Owns files job.file name := by
  obtain ⟨hfirst, hpart⟩ := mem_jobs.1 h
  obtain ⟨-, hown, -⟩ := partOf?_split.1 hpart
  rw [hown] at hname
  exact owns_iff.2 ⟨hfirst, (Plan.mem_functions_ownedBy.1 hname).2⟩

theorem exists_job_of_owns {file : SourceFile} (h : Owns files file name)
    (hplan : name ∈ plan.functions) :
    ∃ job ∈ jobs (plan.split (files.map SourceFile.module)) files, job.file = file ∧
      name ∈ job.plan.functions := by
  obtain ⟨hfirst, ho⟩ := owns_iff.1 h
  refine ⟨⟨file, plan.ownedBy (files.map SourceFile.module) file.module⟩,
    mem_jobs.2 ⟨hfirst, ?_⟩, rfl, Plan.mem_functions_ownedBy.2 ⟨.inl hplan, ho⟩⟩
  exact partOf?_split.2 ⟨(of_owner? ho).1, rfl, Plan.ownedBy_ne_empty hplan ho⟩

theorem exists_owns {m : String} (h : owner? (files.map SourceFile.module) name = some m) :
    ∃ file, Owns files file name := by
  obtain ⟨f, hf, rfl⟩ := List.mem_map.1 (of_owner? h).1
  obtain ⟨first, hfirst, hm⟩ := exists_firstOf hf
  refine ⟨first, owns_iff.2 ⟨hfirst, ?_⟩⟩
  rw [hm]
  exact h

/-! ## The report -/

/-- A path names its module, so no two jobs have one path. -/
theorem pairwise_path_jobs (parts : List (String × Plan)) (disk : Disk) (root : Path) (c : Config) :
    (jobs parts (walk disk root c).files).Pairwise fun a b => a.file.path ≠ b.file.path := by
  refine (pairwise_jobs parts _).imp_of_mem fun {a b} ha hb hne heq => hne ?_
  have hma := module_of_mem_walk (mem_jobs.1 ha).1.mem
  have hmb := module_of_mem_walk (mem_jobs.1 hb).1.mem
  rw [heq, hmb] at hma
  exact (Option.some.inj hma).symm

/-- No file of a job has failed before, or has another job. -/
theorem nodup_paths_jobs (hd : disk.Sound) (root : Path) (c : Config)
    (parts : List (String × Plan)) :
    ((walk disk root c).failures.map Failure.path ++
      (jobs parts (walk disk root c).files).map fun job => job.file.path).Nodup := by
  have hsub := (sublist_jobs parts (walk disk root c).files).map SourceFile.path
  rw [List.map_map] at hsub
  exact ((List.Sublist.refl _).append hsub).nodup (nodup_paths_walk hd root c)

def Report.before (plan : Plan) (found : Walk) : Report :=
  ⟨[], found.failures, unownedBy plan (plan.split (found.files.map SourceFile.module)), .zero⟩

def jobsFor (plan : Plan) (found : Walk) : List Job :=
  jobs (plan.split (found.files.map SourceFile.module)) found.files

section Report

variable [Parser]

theorem asyncify_eq_map (disk : Disk) (root : Path) (plan : Plan) (c : Config) :
    asyncify disk root plan c = (prepare disk root c).map fun top =>
      runAll c disk (.before plan (walk disk top c)) (jobsFor plan (walk disk top c)) := by
  unfold asyncify
  cases prepare disk root c <;> rfl

/-- A valid configuration and a root that is there make a run. -/
theorem asyncify_eq_runAll (plan : Plan) {root top : Path} (hc : c.validate = .ok ())
    (hroot : disk.canonical root = .ok top) :
    asyncify disk root plan c =
      .ok (runAll c disk (.before plan (walk disk top c)) (jobsFor plan (walk disk top c))) := by
  rw [asyncify_eq_map, prepare_eq_ok.2 ⟨hc, hroot⟩]
  rfl

theorem entries_runAll_of_mem (hd : disk.Sound) {root : Path} {parts : List (String × Plan)}
    {first : Report} (houtcomes : first.outcomes = [])
    (hfailures : first.failures = (walk disk root c).failures)
    (h : job ∈ jobs parts (walk disk root c).files) :
    (runAll c disk first (jobs parts (walk disk root c).files)).1.entries job.file.path = 1 := by
  have hpaths := (nodup_paths_jobs hd root c parts).count (a := job.file.path)
  rw [if_pos (List.mem_append_right _ (List.mem_map_of_mem h))] at hpaths
  simp only [List.count, List.countP_append, List.countP_map] at hpaths
  rw [entries_runAll, Report.entries, houtcomes, hfailures, List.countP_nil, Nat.zero_add]
  exact hpaths

def Report.LeavesOut (report : Report) (files : List SourceFile) (name : String) : Prop :=
  name ∈ report.unowned ∧ ∀ file ∈ files, ∀ inner, name ≠ below file.module inner

/-- A file owns a planned name and is reported once.  If it was rewritten, that was at its turn, and
the name is reported as not found or was converted then. -/
def Report.Accounts (report : Report) (c : Config) (ts : List Turn) (files : List SourceFile)
    (name : String) : Prop :=
  ∃ file, Owns files file name ∧ report.entries file.path = 1 ∧
    ∀ outcome ∈ report.outcomes, outcome.file.path = file.path → ∃ turn ∈ ts, turn.job.file = file ∧
      turn.outcome? c = some outcome ∧ (name ∈ outcome.unconverted ∨ turn.Converts c name)

theorem mem_turns_of_outcome {report : Report} {js : List Job} {outcome : Outcome}
    (hnil : report.outcomes = []) (h : outcome ∈ (runAll c disk report js).1.outcomes) :
    ∃ turn ∈ turns c disk js, turn.job ∈ js ∧ turn.outcome? c = some outcome := by
  obtain ⟨ho, -, -⟩ := runAll_eq c disk report js
  rw [ho, hnil, List.nil_append] at h
  obtain ⟨turn, hturn, hout⟩ := List.mem_filterMap.1 h
  refine ⟨turn, hturn, ?_, hout⟩
  rw [← map_job_turns c disk js]
  exact List.mem_map_of_mem hturn

theorem file_of_outcome {turn : Turn} {outcome : Outcome} (h : turn.outcome? c = some outcome) :
    outcome.file = turn.job.file := by
  obtain ⟨r, written, -, rfl⟩ := of_outcome? h
  rfl

section

variable {root : Path} {first : Report} (hfiles : files = (walk disk root c).files)
  (houtcomes : first.outcomes = [])

include hfiles houtcomes

/-- The report on some files that were walked over accounts for what one of them owns. -/
theorem accounts_of_owns [LawfulParser] (hd : disk.Sound)
    (hfailures : first.failures = (walk disk root c).failures) {file : SourceFile}
    (hown : Owns files file name) (hplan : name ∈ plan.functions) :
    (runAll c disk first (jobs (plan.split (files.map SourceFile.module)) files)).1.Accounts c
      (turns c disk (jobs (plan.split (files.map SourceFile.module)) files)) files name := by
  obtain ⟨job, hjob, rfl, hpart⟩ := exists_job_of_owns hown hplan
  refine ⟨job.file, hown, ?_, fun outcome hmem hpath => ?_⟩
  · rw [hfiles] at hjob ⊢
    exact entries_runAll_of_mem hd houtcomes hfailures hjob
  · obtain ⟨turn, hturn, hturnjob, hout⟩ := mem_turns_of_outcome houtcomes hmem
    rw [file_of_outcome hout] at hpath
    -- The turn is that of the same file, and so has the same part of the plan.
    obtain ⟨hfirst, hsome⟩ := mem_jobs.1 hturnjob
    obtain ⟨hfirst', hsome'⟩ := mem_jobs.1 hjob
    have hmodule : turn.job.file.module = job.file.module := by
      have hm := module_of_mem_walk (hfiles ▸ hfirst.mem)
      have hm' := module_of_mem_walk (hfiles ▸ hfirst'.mem)
      rw [hpath, hm'] at hm
      exact (Option.some.inj hm).symm
    rw [hmodule, hsome'] at hsome
    rw [Option.some.inj hsome] at hpart
    exact ⟨turn, hturn, hfirst.unique hfirst' hmodule, hout,
      Turn.mem_unconverted_or_converts hout hpart⟩

omit hfiles in
/-- Only the file that owns a name reports it as not found. -/
theorem owns_of_mem_unconverted {outcome : Outcome}
    (hmem : outcome ∈ (runAll c disk first
      (jobs (plan.split (files.map SourceFile.module)) files)).1.outcomes)
    (hun : name ∈ outcome.unconverted) : Owns files outcome.file name := by
  obtain ⟨turn, -, hjob, hout⟩ := mem_turns_of_outcome houtcomes hmem
  obtain ⟨hfile, hpart⟩ := Turn.mem_functions_of_unconverted hout hun
  rw [hfile]
  exact owns_of_mem_jobs hjob hpart

end

/-- Every planned function is either left out or accounted for by the one file that owns it, and
only that file reports it as not found. -/
theorem asyncify_accounts [LawfulParser] (hdisk : disk.Sound) (plan : Plan) {root top : Path}
    (hc : c.validate = .ok ()) (hroot : disk.canonical root = .ok top) :
    ∃ report disk' files ts, asyncify disk root plan c = .ok (report, disk') ∧
      files = (walk disk top c).files ∧
      ts = turns c disk (jobs (plan.split (files.map SourceFile.module)) files) ∧
      ∀ name ∈ plan.functions,
        ((report.LeavesOut files name ∧ ¬ report.Accounts c ts files name) ∨
          (¬ report.LeavesOut files name ∧ report.Accounts c ts files name)) ∧
        ∀ outcome ∈ report.outcomes, name ∈ outcome.unconverted → Owns files outcome.file name := by
  generalize hfirst : Report.before plan (walk disk top c) = first
  have houtcomes : first.outcomes = [] := by rw [← hfirst]; rfl
  have hfailures : first.failures = (walk disk top c).failures := by rw [← hfirst]; rfl
  have hok := asyncify_eq_runAll plan hc hroot
  rw [hfirst, jobsFor] at hok
  generalize hfiles : (walk disk top c).files = files at hok
  refine ⟨_, _, files, _, hok, rfl, rfl, fun name hname => ⟨?_, ?_⟩⟩
  · cases ho : owner? (files.map SourceFile.module) name with
    | none =>
      have hout := owner?_eq_none_iff.1 ho
      refine .inl ⟨⟨?_, fun file hfile inner => hout _ (List.mem_map_of_mem hfile) inner⟩, ?_⟩
      · rw [(runAll_eq c disk first _).2.2, ← hfirst, Report.before, hfiles]
        exact mem_unownedBy.2 ⟨hname, ho⟩
      · intro hex
        obtain ⟨file, hown, -⟩ := hex
        rw [(owns_iff.1 hown).2] at ho
        cases ho
    | some m =>
      obtain ⟨file, hown⟩ := exists_owns ho
      obtain ⟨inner, hinner⟩ := hown.2.1
      exact .inr ⟨fun hleft => hleft.2 file hown.1.mem inner hinner,
        accounts_of_owns hfiles.symm houtcomes hdisk hfailures hown hname⟩
  · exact fun outcome hmem hun => owns_of_mem_unconverted houtcomes hmem hun

end Report

def shop : Disk where
  top := [("shop", .dir [
    ("__init__.py", .file (Text.encodeUtf8 "def open(): pass\n".toList)),
    ("till.py", .file (Text.encodeUtf8 "def open(): pass\n".toList))])]
  cwd := []

/-- A plan with a function of each, one that is not there, and one of another project. -/
def shopPlan : Plan :=
  (((Plan.empty.addFunction "shop.open").addFunction "shop.till.open").addFunction
    "shop.till.shut").addFunction "bank.open"

theorem asyncify_accounts_shop :
    shop.Sound ∧ Config.standard.validate = .ok () ∧ shop.canonical ⟨"/"⟩ = .ok ⟨"/"⟩ ∧
    ∃ report disk' files ts, asyncify shop ⟨"/"⟩ shopPlan .standard = .ok (report, disk') ∧
      ∀ name ∈ shopPlan.functions, (report.LeavesOut files name ∧
        ¬ report.Accounts .standard ts files name) ∨
        (¬ report.LeavesOut files name ∧ report.Accounts .standard ts files name) := by
  have hdisk : shop.Sound := by decide +kernel
  have hc : Config.standard.validate = .ok () := toOption_eq_some (by decide +kernel)
  have hroot : shop.canonical ⟨"/"⟩ = .ok ⟨"/"⟩ := toOption_eq_some (by decide +kernel)
  obtain ⟨report, disk', files, ts, hok, -, -, hall⟩ := asyncify_accounts hdisk shopPlan hc hroot
  exact ⟨hdisk, hc, hroot, report, disk', files, ts, hok, fun name hname => (hall name hname).1⟩

end Project

end AsyncSpread
