import AsyncSpread.Proofs.Project.Agreement
import AsyncSpread.Proofs.Rewrite.Narrowed
import AsyncSpread.Proofs.Rewrite.Woven

/-!
A file of a project that is rewritten on its own.

In a project a name goes to the file with the longest module around it.  A text on its own has to
guess which names lie in modules below.  On the names of the file both ways leave what the plan says
(`agreesOn_job`, `agreesOn_ownPart`), so the same insertions are made at its functions and calls
(`rewriteParsed_withPlan`).  A test that is not defined in the file may be counted among its own by
only one of the two, and then only one text gets the import of the marker (`outcome_alone`).
-/

namespace AsyncSpread

open Python

namespace Plan

variable {names : List String} {p q r : Plan}

theorem AgreesOn.symm (h : AgreesOn names p q) : AgreesOn names q p :=
  ⟨fun name hname => (h.functions name hname).symm, fun name hname => (h.tests name hname).symm,
    fun k hk => (h.calls k hk).symm⟩

theorem AgreesOn.trans (h : AgreesOn names p q) (h' : AgreesOn names q r) : AgreesOn names p r :=
  ⟨fun name hname => (h.functions name hname).trans (h'.functions name hname),
    fun name hname => (h.tests name hname).trans (h'.tests name hname),
      fun k hk => (h.calls k hk).trans (h'.calls k hk)⟩

theorem hasTests_iff : p.hasTests = true ↔ ∃ name, name ∈ p.tests := by
  have hmem (name : String) : name ∈ p.tests ↔ name ∈ p.tests.toList := Iff.rfl
  rw [hasTests, SortedSet.isEmpty, Bool.not_eq_true', List.isEmpty_eq_false_iff_exists_mem]
  simp only [hmem]

end Plan

namespace Rewrite

/-- Two rewritings of a text that differ in the import of the marker, if at all. -/
structure Rewritten.Alike (r s : Rewritten) : Prop where
  madeAsync : r.madeAsync = s.madeAsync
  awaited : r.awaited = s.awaited
  marked : r.marked = s.marked
  source : r.source = s.source ↔ r.importAdded = s.importAdded

variable {t : Task} {root : Node} {p : Progress} {plan : Plan} {r s : Rewritten}

theorem Edit.length_apply (source : List Char) (es : List Edit) :
    (apply source es).length = source.length + (es.map fun e => e.text.length).sum := by
  have hperm := (sortStable_perm precedes es).map fun e : Edit => e.text.length
  rw [apply, (woven_insertAll source 0 _).length_eq, List.map_map]
  exact congrArg (source.length + ·) hperm.sum_eq

theorem text_importEdit_ne_nil (t : Task) (root : Node) : (importEdit t root).text ≠ [] := by
  rw [← text_inlayOf_import]
  exact Inlay.text_ne_nil _

/-- The import of the marker is the only one of the insertions that the length of the text tells. -/
theorem length_apply_insertions (t : Task) (root : Node) (p : Progress) :
    (Edit.apply t.source (p.insertions t root)).length =
      t.source.length + (p.edits.map fun e => e.text.length).sum +
      if p.needsImport t then (importEdit t root).text.length else 0 := by
  rw [Edit.length_apply, Progress.insertions]
  split
  · rw [List.map_append, List.sum_append, List.map_singleton, List.sum_singleton, Nat.add_assoc]
  · rfl

/-- With a plan that agrees on the names of the text the same is done in it, but for the import of
the marker. -/
theorem rewriteParsed_withPlan (hf : root.Fits t.source) (h : plan.AgreesOn t.index.names t.plan)
    (hr : rewriteParsed t root = .ok r) :
    ∃ s, rewriteParsed (t.withPlan plan) root = .ok s ∧ r.Alike s := by
  rw [rewriteParsed_eq] at hr
  rcases gather_withPlan hf h with ⟨what, -, hq⟩ | ⟨p, q, hp, hq, -⟩
  · rw [hq] at hr
    cases hr
  · rw [hq] at hr
    cases hr
    have hedits : p.edits = q.edits := by
      rw [edits_gather (t := t.withPlan plan) hf hp, edits_gather hf hq, Task.declared_withPlan h]
    have htally (kind : EditKind) : q.tally kind = p.tally kind := by
      rw [Progress.tally, Progress.tally, hedits]
    have hcp := counted_gather hp
    have hcq := counted_gather hq
    rw [rewriteParsed_eq, hp]
    refine ⟨_, rfl, ?_, ?_, ?_, ?_⟩
    · exact hcq.madeAsync.trans ((htally _).trans hcp.madeAsync.symm)
    · exact hcq.awaited.trans ((htally _).trans hcp.awaited.symm)
    · exact hcq.marked.trans ((htally _).trans hcp.marked.symm)
    · show Edit.apply t.source (q.insertions t root) =
        Edit.apply t.source (p.insertions (t.withPlan plan) root) ↔
        q.needsImport t = p.needsImport (t.withPlan plan)
      have himport : importEdit (t.withPlan plan) root = importEdit t root := rfl
      have hsource : t.source = (t.withPlan plan).source := rfl
      constructor
      · intro heq
        have hpos := List.length_pos_of_ne_nil (text_importEdit_ne_nil t root)
        have hlen := congrArg List.length heq
        rw [length_apply_insertions, hsource, length_apply_insertions, himport, hedits] at hlen
        rw [Bool.eq_iff_iff]
        split at hlen <;> split at hlen <;> rename_i hqi hpi
        · exact iff_of_true hqi hpi
        · omega
        · omega
        · exact iff_of_false hqi hpi
      · intro heq
        rw [Progress.insertions, Progress.insertions, heq, himport, hedits]

/-- Whether the marker is imported depends on no more of a plan than whether it has tests. -/
theorem importAdded_withPlan (h : plan.hasTests = t.plan.hasTests) (hr : rewriteTree t root = .ok r)
    (hs : rewriteTree (t.withPlan plan) root = .ok s) : r.importAdded = s.importAdded := by
  have hbinds (pl : Place) : (t.withPlan plan).bindsMarker pl = t.bindsMarker pl := by
    show (plan.hasTests && _ && _ && _) = _
    rw [h]
    rfl
  rw [Bool.eq_iff_iff, rewriteTree_importAdded hr, rewriteTree_importAdded hs]
  simp only [hbinds]
  exact and_congr_left fun _ => by rw [← h]; rfl

end Rewrite

open Rewrite

namespace Project

variable {c : Config} {disk : Disk} {plan : Plan} {files : List SourceFile} {job : Job}
  {source : List Char} {tree : Node} {name : String} {r : Rewritten}

theorem Unambiguous.owns_name [Parser] [LawfulParser] (h : Unambiguous disk c files)
    (hfile : job.file ∈ files) (hmodule : job.file.module ≠ "")
    (hread : readSource disk job.file.path c = .ok source) (hparse : parse source = .ok tree)
    (hname : name ∈ (NameIndex.ofTree source job.file.module tree).names) :
      Owns files job.file name := by
  obtain ⟨d, hd, hs, hat⟩ := NameIndex.exists_definition (lawful_of_parse hparse) hname
  exact h.owns hfile hmodule hread hparse hd hs hat

theorem plan_of_mem_jobs (h : job ∈ jobs (plan.split (files.map SourceFile.module)) files) :
    FirstOf files job.file ∧ job.plan = plan.ownedBy
      (files.map SourceFile.module) job.file.module := by
  obtain ⟨hfirst, hpart⟩ := mem_jobs.1 h
  obtain ⟨-, hown, -⟩ := partOf?_split.1 hpart
  exact ⟨hfirst, hown⟩

theorem mem_tests_of_mem_jobs (h : job ∈ jobs (plan.split (files.map SourceFile.module)) files) :
    name ∈ job.plan.tests ↔ name ∈ plan.tests ∧ Owns files job.file name := by
  obtain ⟨hfirst, hown⟩ := plan_of_mem_jobs h
  rw [hown, Plan.mem_tests_ownedBy, owns_iff, and_iff_right hfirst]

/-- Where the file owns what it defines, no name of it is lost to the job's part of the plan. -/
theorem agreesOn_job {names : List String}
    (h : job ∈ jobs (plan.split (files.map SourceFile.module)) files)
    (htests : ∀ name ∈ plan.tests, name ∈ plan.functions)
    (howns : ∀ name ∈ names, Owns files job.file name) : Plan.AgreesOn names job.plan plan := by
  have howner (name : String) (hname : name ∈ names) :
      owner? (files.map SourceFile.module) name = some job.file.module :=
    (owns_iff.1 (howns name hname)).2
  rw [(plan_of_mem_jobs h).2]
  refine ⟨fun name hname => ?_, fun name hname => ?_, fun k hk => ?_⟩
  · rw [Plan.mem_functions_ownedBy, and_iff_left (howner name hname),
      or_iff_left_of_imp (htests name)]
  · rw [Plan.mem_tests_ownedBy, and_iff_left (howner name hname)]
  · rw [Plan.mem_calls_ownedBy, and_iff_left (howner k.caller hk)]

/-- What a project makes of one of its files, and what is made of its text alone. -/
structure Alone (files : List SourceFile) (file : SourceFile) (ix : NameIndex) (plan : Plan)
    (r s : Rewritten) : Prop where
  alike : r.Alike s
  /-- In the project the file imports the marker for the planned tests that it owns. -/
  owned : r.importAdded = true → ∃ name ∈ plan.tests, Owns files file name
  /-- Alone it imports the marker for those that its names cover. -/
  covered : s.importAdded = true → ∃ name ∈ plan.tests, ix.Covers name
  same : ((∃ name ∈ plan.tests, Owns files file name) ↔ ∃ name ∈ plan.tests, ix.Covers name) →
    r.source = s.source
  /-- A planned test that the file defines is counted in both cases. -/
  defined : (∃ name ∈ plan.tests, name ∈ ix.names) → r.source = s.source

/-- A file that is rewritten in a project without ambiguous names can be rewritten on its own, and
the same is inserted but for the import of the marker. -/
theorem rewrite_alone [Parser] [LawfulParser] {top : Path} (hc : c.validate = .ok ())
    (hfiles : files = (walk disk top c).files) (hun : Unambiguous disk c files)
    (htests : ∀ name ∈ plan.tests, name ∈ plan.functions)
    (hjob : job ∈ jobs (plan.split (files.map SourceFile.module)) files)
    (hr : job.rewrite disk c = .ok r) :
    ∃ source tree s, readSource disk job.file.path c = .ok source ∧ parse source = .ok tree ∧
      AsyncSpread.asyncify source job.file.module plan c = .ok s ∧
      Alone files job.file (NameIndex.ofTree source job.file.module tree) plan r s := by
  obtain ⟨source, tree, p, hread, hparse, -⟩ := of_rewrite hr
  have hfile : job.file ∈ files := (plan_of_mem_jobs hjob).1.mem
  have hmodule : job.file.module ≠ "" := by
    intro hempty
    have hm := module_of_mem_walk (hfiles ▸ hfile)
    rw [hempty] at hm
    exact moduleName?_ne_empty hm
  -- Both parts of the plan agree with it on the names of the file, so they agree with each other.
  have howns (name : String) (hname : name ∈ (NameIndex.ofTree source job.file.module tree).names) :
      Owns files job.file name := hun.owns_name hfile hmodule hread hparse hname
  have hown := Plan.agreesOn_ownPart (lawful_of_parse hparse) hmodule htests
  have hagrees := hown.trans (agreesOn_job hjob htests howns).symm
  have hparsed : rewriteParsed (job.task c source tree) tree = .ok r := by
    rw [Job.rewrite, hread] at hr
    have hr : (parseSource job.file.path.text source).bind
        (fun root => rewriteParsed (job.task c source root) root) = .ok r := hr
    rwa [parseSource, hparse] at hr
  obtain ⟨s, hs, halike⟩ :=
    rewriteParsed_withPlan (t := job.task c source tree)
      (lawful_of_parse hparse).fits hagrees hparsed
  have hasyncify : AsyncSpread.asyncify source job.file.module plan c = .ok s := by
    rw [AsyncSpread.asyncify, hc, parseSource, hparse]
    exact hs
  refine ⟨source, tree, s, hread, hparse, hasyncify, ?_⟩
  have htree := rewriteTree_of_rewriteParsed hparsed
  have htree' := rewriteTree_of_rewriteParsed hs
  have howned : job.plan.hasTests = true ↔ ∃ name ∈ plan.tests, Owns files job.file name := by
    rw [Plan.hasTests_iff]
    exact exists_congr fun name => mem_tests_of_mem_jobs hjob
  have hcovered : (plan.ownPart (NameIndex.ofTree source job.file.module tree)).hasTests = true ↔
      ∃ name ∈ plan.tests, (NameIndex.ofTree source job.file.module tree).Covers name := by
    rw [Plan.hasTests_iff]
    exact exists_congr (Plan.mem_ownPart hmodule htests).2.1
  have hsame (h : (∃ name ∈ plan.tests, Owns files job.file name) ↔
      ∃ name ∈ plan.tests, (NameIndex.ofTree source job.file.module tree).Covers name) : r.source =
        s.source := by
    refine halike.source.2 (importAdded_withPlan ?_ htree htree')
    exact Bool.eq_iff_iff.2 (hcovered.trans (h.symm.trans howned.symm))
  refine ⟨halike, fun h => howned.1 ((rewriteTree_importAdded htree).1 h).1,
    fun h => hcovered.1 ((rewriteTree_importAdded htree').1 h).1, hsame, fun hdefined => hsame ?_⟩
  obtain ⟨name, htest, hname⟩ := hdefined
  exact iff_of_true ⟨name, htest, howns name hname⟩
    ⟨name, htest, NameIndex.covers_of_mem_names (lawful_of_parse hparse) hmodule hname⟩

/-- What is reported of a file, and written to it, is made of its text as if it were alone, but for
the import of the marker. -/
theorem outcome_alone [Parser] [LawfulParser] {root top : Path} {report : Report} {disk' : Disk}
    {outcome : Outcome} (hdisk : disk.Sound) (hroot : disk.canonical root = .ok top)
    (hfiles : files = (walk disk top c).files) (hun : Unambiguous disk c files)
    (htests : ∀ name ∈ plan.tests, name ∈ plan.functions)
    (hrun : asyncify disk root plan c = .ok (report, disk'))
    (houtcome : outcome ∈ report.outcomes) :
    ∃ source tree r s, readSource disk outcome.file.path c = .ok source ∧ parse source = .ok tree ∧
      AsyncSpread.asyncify source outcome.file.module plan c = .ok s ∧
      outcome = .of outcome.file r outcome.written ∧
      (outcome.written = true → disk'.readText outcome.file.path = .ok r.source) ∧
      Alone files outcome.file (NameIndex.ofTree source outcome.file.module tree) plan r s := by
  have hc : c.validate = .ok () := by
    cases hc : c.validate with
    | ok => rfl
    | error why =>
      rw [asyncify, prepare, hc] at hrun
      cases hrun
  obtain ⟨first, hnil, -, hok⟩ := asyncify_eq plan hc hroot hfiles
  rw [hok, Except.ok.injEq] at hrun
  have hheld : Held disk (jobs (plan.split (files.map SourceFile.module)) files) :=
    hfiles ▸ held_jobs hdisk hroot
  have hmem : outcome ∈ (runAll c disk first
      (jobs (plan.split (files.map SourceFile.module)) files)).1.outcomes := by
    rwa [hrun]
  obtain ⟨turn, hturn, hjob, hout⟩ := mem_turns_of_outcome hnil hmem
  have hfile := file_of_outcome hout
  obtain ⟨r, -, hr, -⟩ := of_outcome? hout
  rw [rewrite_of_mem_turns hheld hturn] at hr
  have hone : ∀ other ∈ jobs (plan.split (files.map SourceFile.module)) files,
      other.file = turn.job.file →
      other = turn.job := fun other hother heq =>
        eq_of_mem_jobs hother hjob (congrArg SourceFile.module heq)
  obtain ⟨hof, hwritten⟩ := of_mem_outcomes hheld hone hr hnil hmem hfile
  obtain ⟨source, tree, s, hread, hparse, hs, halone⟩ := rewrite_alone hc hfiles hun htests hjob hr
  rw [hrun] at hwritten
  rw [hfile]
  exact ⟨source, tree, r, s, hread, hparse, hs, hof, hwritten, halone⟩

def bench : Disk where
  top := [("pkg", .dir [("__init__.py", .file (Text.encodeUtf8 "def setup(): pass\n".toList))])]
  cwd := []

def benchPlan : Plan := (Plan.empty.addFunction "pkg.setup").addTest "pkg.tests.test_a"

-- The package owns the test in the project.  Alone it takes it for one of a module below.
example : ((asyncify bench ⟨"/"⟩ benchPlan .standard).toOption.bind fun run =>
      (run.2.readText ⟨"/pkg/__init__.py"⟩).toOption) =
        some "import pytest\nasync def setup(): pass\n".toList ∧
    (AsyncSpread.asyncify "def setup(): pass\n".toList "pkg" benchPlan .standard).toOption.map
      Rewritten.source = some "async def setup(): pass\n".toList := by decide +kernel

end Project

end AsyncSpread
