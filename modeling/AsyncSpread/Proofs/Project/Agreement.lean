import AsyncSpread.Project.Index
import AsyncSpread.Proofs.Project.Kept
import AsyncSpread.Proofs.Python.Enclosing

/-!
The index of a file and the rewriting of a project.

A name that the index of a file gives to a function begins with the module of the file.  A longer
module in front of it would be the name of a definition around the function, so where no module is
called like a definition the name goes to its own file, which has the function and makes it
asynchronous (`asyncify_agrees`).
-/

namespace AsyncSpread

open Python Rewrite

namespace Project

/-- No two files have one module, and no module is called like a class or function of one of the
files. -/
structure Unambiguous [Parser] (disk : Disk) (c : Config) (files : List SourceFile) : Prop where
  modules : files.Pairwise fun a b => a.module ≠ b.module
  names : ∀ file ∈ files, ∀ ix, Index.ofFile disk c file = .ok ix → ∀ f ∈ files, f.module ∉ ix.names

variable {c : Config} {disk : Disk} {plan : Plan} {files : List SourceFile} {file : SourceFile}
  {source : List Char} {tree d : Node} {name : String}

theorem Index.ofFile_eq [Parser] (hread : readSource disk file.path c = .ok source)
    (hparse : parse source = .ok tree) :
    Index.ofFile disk c file = .ok (NameIndex.ofTree source file.module tree) := by
  rw [Index.ofFile, hread]
  simp [parseSource, hparse, bind, Except.bind, pure, Except.pure]

theorem firstOf_of_pairwise (h : files.Pairwise fun a b => a.module ≠ b.module)
    (hfile : file ∈ files) : FirstOf files file := by
  obtain ⟨before, after, rfl⟩ := List.append_of_mem hfile
  obtain ⟨-, -, hbefore⟩ := List.pairwise_append.1 h
  exact ⟨before, after, rfl, fun f hf => hbefore f hf file List.mem_cons_self⟩

/-- A file owns the names that its index gives to its definitions. -/
theorem Unambiguous.owns [Parser] [LawfulParser] (h : Unambiguous disk c files)
    (hfile : file ∈ files) (hmodule : file.module ≠ "")
    (hread : readSource disk file.path c = .ok source) (hparse : parse source = .ok tree)
    (hd : d ∈ tree.all) (hs : d.IsScope)
    (hname : (NameIndex.ofTree source file.module tree).nameAt? d.startLine = some name) :
    Owns files file name := by
  refine ⟨firstOf_of_pairwise h.modules hfile,
    NameIndex.exists_below (lawful_of_parse hparse) hd hs hmodule hname, fun f hf hin => ?_⟩
  obtain ⟨inner, hcut⟩ := hin
  rw [← String.length_toList, ← String.length_toList]
  refine Nat.le_of_not_lt fun hlt => h.names file hfile _ (Index.ofFile_eq hread hparse) f hf ?_
  exact NameIndex.mem_names_of_below (lawful_of_parse hparse) hd hs hmodule hname hcut hlt

end Project

namespace Rewrite

variable {t : Task} {root d : Node} {p : Progress} {module name : String}

/-- A name that a function of the text has does not stay pending. -/
theorem not_mem_pending (hg : gather t root = .ok p) (hd : d ∈ root.all)
    (hk : d.kind = .functionDefinition) (hname : t.index.nameAt? d.startLine = some name) :
    name ∉ p.pending := by
  rw [gather_eq_run] at hg
  rw [Task.mem_pending_run hg]
  intro h
  obtain ⟨pl, hpl, rfl⟩ := exists_left [] false hd
  exact h.2 pl (mem_left.1 hpl) (Place.defined?_eq_some.2 ⟨hk, hname⟩)

/-- The first function of a name opens with `async` behind some insertions, and with `async def` if
it did not open with `async` before. -/
def OpensFirst (t : Task) (root : Node) (edits : List Edit) (name : String) : Prop :=
  ∃ e ∈ root.all, e.kind = .functionDefinition ∧ t.index.nameAt? e.startLine = some name ∧
    t.isFirst root e = true ∧ Edit.opensAsync t.source edits e = true ∧ (isAsync e = false →
      "async def".toList <+: Text.dropBytes (Edit.landing edits e.start.byte .async)
        (Edit.apply t.source edits))

theorem opensFirst (h : root.Lawful t.source)
    (hix : t.index = NameIndex.ofTree t.source module root) (hg : gather t root = .ok p)
    (hd : d ∈ root.all) (hk : d.kind = .functionDefinition)
    (hname : t.index.nameAt? d.startLine = some name) (hplan : name ∈ t.plan.functions) :
    OpensFirst t root (p.insertions t root) name := by
  obtain ⟨e, he, hek, hsame, hfirst⟩ := exists_isFirst t hd hk
  have hbegins := begins_opening h hix hg he hek (hsame.trans hname) hplan
  refine ⟨e, he, hek, hsame.trans hname, hfirst,
    (Task.async_prefix_opening hbegins).2 (.inr hfirst), fun hdef => ?_⟩
  rw [Task.opening, hdef, if_neg Bool.false_ne_true, if_pos hfirst] at hbegins
  exact hbegins

end Rewrite

namespace Project

variable {c : Config} {disk : Disk} {plan : Plan} {files : List SourceFile} {file : SourceFile}
  {source : List Char} {tree d : Node} {name : String}

theorem asyncify_eq [Parser] {root top : Path} (plan : Plan) (hc : c.validate = .ok ())
    (hroot : disk.canonical root = .ok top) (hfiles : files = (walk disk top c).files) :
    ∃ first : Report, first.outcomes = [] ∧
      first.unowned = unownedBy plan (plan.split (files.map SourceFile.module)) ∧
      asyncify disk root plan c =
        .ok (runAll c disk first (jobs (plan.split (files.map SourceFile.module)) files)) := by
  rw [hfiles]
  exact ⟨.before plan (walk disk top c), rfl, rfl, asyncify_eq_runAll plan hc hroot⟩

theorem eq_of_mem_jobs {parts : List (String × Plan)} {a b : Job} (ha : a ∈ jobs parts files)
    (hb : b ∈ jobs parts files) (h : a.file.module = b.file.module) : a = b := by
  obtain ⟨hfirst, hpart⟩ := mem_jobs.1 ha
  obtain ⟨hfirst', hpart'⟩ := mem_jobs.1 hb
  have hfile := hfirst.unique hfirst' h
  rw [h, hpart'] at hpart
  obtain ⟨fa, pa⟩ := a
  obtain ⟨fb, pb⟩ := b
  cases hfile
  cases Option.some.inj hpart
  rfl

/-! ## The report on one job -/

section

variable [Parser] {js : List Job} {job : Job} {first : Report} {r : Rewritten}
  (hheld : Held disk js)

include hheld

/-- A job that is not reported as failed rewrites its file, as it was before all jobs. -/
theorem exists_outcome (hjob : job ∈ js)
    (h : ∀ failure ∈ (runAll c disk first js).1.failures, failure.path ≠ job.file.path) :
    ∃ r, job.rewrite disk c = .ok r ∧ ∃ outcome ∈ (runAll c disk first js).1.outcomes,
      outcome.file = job.file := by
  obtain ⟨houtcomes, hfailures, -⟩ := runAll_eq c disk first js
  rw [← map_job_turns c disk js] at hjob
  obtain ⟨turn, hturn, rfl⟩ := List.mem_map.1 hjob
  cases hresult : turn.result c with
  | error why =>
    have hfailure : turn.failure? c = some ⟨turn.job.file.path, why⟩ := by
      rw [Turn.failure?, hresult]
    refine absurd rfl (h ⟨turn.job.file.path, why⟩ ?_)
    rw [hfailures]
    exact List.mem_append_right _ (List.mem_filterMap.2 ⟨turn, hturn, hfailure⟩)
  | ok found =>
    obtain ⟨r, outcome, left⟩ := found
    obtain ⟨hr, written, hof⟩ := of_rewrite_run hresult
    have hout : turn.outcome? c = some outcome := by
      rw [Turn.outcome?, hresult]
      rfl
    refine ⟨r, by rwa [← rewrite_of_mem_turns hheld hturn], outcome, ?_, by rw [hof]; rfl⟩
    rw [houtcomes]
    exact List.mem_append_right _ (List.mem_filterMap.2 ⟨turn, hturn, hout⟩)

/-- What is reported on the file of a job is what the job made of it, and if it was written it is on
the disk. -/
theorem of_mem_outcomes (hone : ∀ other ∈ js, other.file = job.file → other = job)
    (hr : job.rewrite disk c = .ok r) (hnil : first.outcomes = []) {outcome : Outcome}
    (h : outcome ∈ (runAll c disk first js).1.outcomes) (hfile : outcome.file = job.file) :
    outcome = .of job.file r outcome.written ∧
      (outcome.written = true → (runAll c disk first js).2.readText job.file.path =
        .ok r.source) := by
  obtain ⟨turn, hturn, hmem, hout⟩ := mem_turns_of_outcome hnil h
  obtain ⟨⟨r', o, left⟩, hresult, rfl⟩ := Option.map_eq_some_iff.1 hout
  have hresult : turn.result c = .ok (r', o, left) := toOption_eq_some hresult
  obtain ⟨hr', written, hof⟩ := of_rewrite_run hresult
  have hsame : turn.job = job := by
    refine hone _ hmem ?_
    rw [← hfile, hof]
    rfl
  rw [rewrite_of_mem_turns hheld hturn, hsame, hr] at hr'
  cases hr'
  refine ⟨by rw [hof, hsame]; rfl, fun hwritten => ?_⟩
  have htext := readText_runAll_of_written first hheld hturn hresult hwritten
  rwa [hsame] at htext

end

/-- Where names are not ambiguous, a planned function that the index of a file names goes to that
file, and if the file was not reported as failed then the first function of the name opens with
`async` in its rewritten text. -/
theorem asyncify_agrees [Parser] [LawfulParser] {root top : Path} (hdisk : disk.Sound)
    (hc : c.validate = .ok ()) (hroot : disk.canonical root = .ok top)
    (hfiles : files = (walk disk top c).files) (hun : Unambiguous disk c files)
    (hfile : file ∈ files) (hread : readSource disk file.path c = .ok source)
    (hparse : parse source = .ok tree) (hd : d ∈ tree.all) (hk : d.kind = .functionDefinition)
    (hname : (NameIndex.ofTree source file.module tree).nameAt? d.startLine = some name)
    (hplan : name ∈ plan.functions) :
    ∃ report disk' job, asyncify disk root plan c = .ok (report, disk') ∧ name ∉ report.unowned ∧
      job ∈ jobs (plan.split (files.map SourceFile.module)) files ∧ job.file = file ∧
      (∀ other ∈ jobs (plan.split (files.map SourceFile.module)) files,
        name ∈ other.plan.functions ↔ other = job) ∧
      ((∀ failure ∈ report.failures, failure.path ≠ file.path) →
        ∃ r p, job.rewrite disk c = .ok r ∧ gather (job.task c source tree) tree = .ok p ∧
          r.source = Edit.apply source (p.insertions (job.task c source tree) tree) ∧
          OpensFirst (job.task c source tree) tree
            (p.insertions (job.task c source tree) tree) name ∧
          (∃ outcome ∈ report.outcomes, outcome.file = file) ∧
          ∀ outcome ∈ report.outcomes, outcome.file = file → outcome = .of file r outcome.written ∧
            name ∉ outcome.unconverted ∧
            (outcome.written = true → disk'.readText file.path = .ok r.source)) := by
  obtain ⟨first, houtcomes, hunowned, hok⟩ := asyncify_eq plan hc hroot hfiles
  have hheld : Held disk (jobs (plan.split (files.map SourceFile.module)) files) :=
    hfiles ▸ held_jobs hdisk hroot
  have hmodule : file.module ≠ "" := by
    intro hempty
    have hm := module_of_mem_walk (hfiles ▸ hfile)
    rw [hempty] at hm
    exact moduleName?_ne_empty hm
  have hs : d.IsScope := Node.isScope_iff.2 (.inl hk)
  have hown := hun.owns hfile hmodule hread hparse hd hs hname
  obtain ⟨job, hjob, rfl, hpart⟩ := exists_job_of_owns hown hplan
  have hone : ∀ other ∈ jobs (plan.split (files.map SourceFile.module)) files,
      other.file = job.file → other = job :=
    fun other hother heq => eq_of_mem_jobs hother hjob (congrArg SourceFile.module heq)
  refine ⟨_, _, job, hok, ?_, hjob, rfl, fun other hother => ⟨fun hmem => ?_, ?_⟩,
    fun hnofail => ?_⟩
  · rw [(runAll_eq c disk first _).2.2, hunowned, mem_unownedBy, (owns_iff.1 hown).2]
    exact fun h => nomatch h.2
  · have hother' := owns_of_mem_jobs hother hmem
    have hmodules := (owns_iff.1 hother').2.symm.trans (owns_iff.1 hown).2
    exact eq_of_mem_jobs hother hjob (Option.some.inj hmodules)
  · rintro rfl
    exact hpart
  · obtain ⟨r, hr, houtcome⟩ := exists_outcome hheld hjob hnofail
    obtain ⟨source', tree', p, hread', hparse', hg, hunconverted, hsource⟩ := of_rewrite hr
    cases hread'.symm.trans hread
    cases hparse'.symm.trans hparse
    refine ⟨r, p, hr, hg, hsource, opensFirst (lawful_of_parse hparse) rfl hg hd hk hname hpart,
      houtcome, fun outcome ho hof => ?_⟩
    obtain ⟨heq, hwritten⟩ := of_mem_outcomes hheld hone hr houtcomes ho hof
    refine ⟨heq, ?_, hwritten⟩
    rw [heq]
    show name ∉ r.unconverted
    rw [hunconverted]
    exact not_mem_pending hg hd hk hname

def tillText : List Char := "class Till:\n    def open(self): pass\n".toList

def till : SourceFile := ⟨⟨"/shop/__init__.py"⟩, "shop"⟩

/-- A package with a class, and a module in it that is called like the class but for a capital. -/
def stand : Disk where
  top := [("shop", .dir [("__init__.py", .file (Text.encodeUtf8 tillText)),
    ("till.py", .file (Text.encodeUtf8 "def open(): pass\n".toList))])]
  cwd := []

def standPlan : Plan := Plan.empty.addFunction "shop.Till.open"

theorem unambiguous_stand : Unambiguous stand .standard (walk stand ⟨"/"⟩ .standard).files := by
  have hwalk : (walk stand ⟨"/"⟩ .standard).files = [till, ⟨⟨"/shop/till.py"⟩, "shop.till"⟩] := by
    decide +kernel
  have hnames : ∀ file ∈ (walk stand ⟨"/"⟩ .standard).files,
      (Index.ofFile stand .standard file).toOption.all (fun ix =>
      (walk stand ⟨"/"⟩ .standard).files.all fun f => !ix.names.contains f.module) =
        true := by decide +kernel
  refine ⟨by rw [hwalk]; decide, fun file hfile ix hix f hf => ?_⟩
  have hno := hnames file hfile
  rw [hix] at hno
  simpa using List.all_eq_true.1 hno f hf

theorem asyncify_agrees_stand :
    stand.Sound ∧ Config.standard.validate = .ok () ∧ stand.canonical ⟨"/"⟩ = .ok ⟨"/"⟩ ∧
    till ∈ (walk stand ⟨"/"⟩ .standard).files ∧ ∃ report disk', ∃ job : Job,
      asyncify stand ⟨"/"⟩ standPlan .standard = .ok (report, disk') ∧
      "shop.Till.open" ∉ report.unowned ∧ job.file = till ∧ "shop.Till.open" ∈ job.plan.functions ∧
      (∀ outcome ∈ report.outcomes, outcome.file = till → "shop.Till.open" ∉ outcome.unconverted) ∧
      (disk'.readText till.path).toOption =
        some "class Till:\n    async def open(self): pass\n".toList := by
  have hdisk : stand.Sound := by decide +kernel
  have hc : Config.standard.validate = .ok () := toOption_eq_some (by decide +kernel)
  have hroot : stand.canonical ⟨"/"⟩ = .ok ⟨"/"⟩ := toOption_eq_some (by decide +kernel)
  have hfile : till ∈ (walk stand ⟨"/"⟩ .standard).files := by decide +kernel
  have hread : readSource stand till.path .standard = .ok tillText :=
    toOption_eq_some (by decide +kernel)
  have hfunction : (parse tillText).toOption.any
      (fun tree => tree.all.any fun d => d.kind = .functionDefinition &&
      (NameIndex.ofTree tillText till.module tree).nameAt? d.startLine = some "shop.Till.open") =
        true := by decide +kernel
  obtain ⟨tree, htree, hany⟩ := (Option.any_eq_true _ _).1 hfunction
  obtain ⟨d, hd, hnamed⟩ := List.any_eq_true.1 hany
  rw [Bool.and_eq_true, decide_eq_true_eq, decide_eq_true_eq] at hnamed
  have hplan : "shop.Till.open" ∈ standPlan.functions := SortedSet.mem_insert.2 (.inl rfl)
  obtain ⟨report, disk', job, hok, hun, hjob, hjobfile, hothers, hrewritten⟩ :=
    asyncify_agrees hdisk hc hroot rfl
    unambiguous_stand hfile hread (toOption_eq_some htree) hd hnamed.1 hnamed.2 hplan
  have hrun : (asyncify stand ⟨"/"⟩ standPlan .standard).toOption.map (fun run =>
      (run.1.failures.length, (run.2.readText till.path).toOption)) =
        some (0, some "class Till:\n    async def open(self): pass\n".toList) := by decide +kernel
  rw [hok] at hrun
  obtain ⟨hfailures, htext⟩ := Prod.mk.inj (Option.some.inj hrun)
  rw [List.length_eq_zero_iff] at hfailures
  obtain ⟨r, p, -, -, -, -, -, houtcomes⟩ := hrewritten (by rw [hfailures]; exact nofun)
  exact ⟨hdisk, hc, hroot, hfile, report, disk', job, hok, hun, hjobfile, (hothers job hjob).2 rfl,
    fun outcome ho hof => (houtcomes outcome ho hof).2.1, htext⟩

end Project

end AsyncSpread
