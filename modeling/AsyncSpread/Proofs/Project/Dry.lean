import AsyncSpread.Proofs.Project.Results

/-!
Dry runs.

Nothing that is read, rewritten or counted depends on whether files are written, and no job reads
what another one has written.  So a dry run reports what the real run reports, but for what was
written (`asyncify_dry`).
-/

namespace AsyncSpread

open Python

def Config.withDryRun (c : Config) (dry : Bool) : Config := { c with dryRun := dry }

namespace Rewrite

def Task.withConfig (t : Task) (c : Config) : Task := { t with config := c }

theorem Task.step_withDryRun (t : Task) (dry : Bool) (p : Progress) (e : Event) :
    (t.withConfig (t.config.withDryRun dry)).step p e = t.step p e := by
  cases e <;> rfl

theorem Task.run_withDryRun (t : Task) (dry : Bool) (es : List Event) (p : Progress) :
    (t.withConfig (t.config.withDryRun dry)).run es p = t.run es p := by
  induction es generalizing p with
  | nil => rfl
  | cons e es ih =>
    rw [run, run, step_withDryRun]
    cases t.step p e with
    | error what => rfl
    | ok q => exact ih q

/-- What becomes of a module does not depend on whether it is written. -/
theorem rewriteParsed_withDryRun (t : Task) (dry : Bool) (root : Node) :
    rewriteParsed (t.withConfig (t.config.withDryRun dry)) root = rewriteParsed t root := by
  have hgather : gather (t.withConfig (t.config.withDryRun dry)) root = gather t root := by
    rw [gather_eq_run, gather_eq_run]
    exact t.run_withDryRun dry _ _
  unfold rewriteParsed rewriteTree
  rw [hgather]
  cases gather t root <;> rfl

end Rewrite

namespace Project

open Rewrite

variable {c : Config} {disk : Disk}

theorem metIn_withDryRun {dry : Bool} {place : List String} {entries : Directory}
    (h : ∀ part ∈ entries, metAt disk (c.withDryRun dry) (place ++ [part.1]) part.1 part.2 =
      metAt disk c (place ++ [part.1]) part.1 part.2) :
    metIn disk (c.withDryRun dry) place entries = metIn disk c place entries := by
  rw [metIn_eq_map, metIn_eq_map]
  exact List.map_congr_left fun part hpart => by rw [h part hpart]

theorem metAt_withDryRun (disk : Disk) (c : Config) (dry : Bool) (place : List String)
    (name : String) (e : Entry) :
    metAt disk (c.withDryRun dry) place name e = metAt disk c place name e := by
  induction e using Entry.induct generalizing place name with
  | file | link => rfl
  | dir entries ih =>
    rw [metAt, metAt, metIn_withDryRun fun part hpart => ih part hpart _ _]
    rfl

theorem walk_withDryRun (disk : Disk) (root : Path) (c : Config) (dry : Bool) :
    walk disk root (c.withDryRun dry) = walk disk root c := by
  unfold walk met
  simp only [metIn_withDryRun fun part _ => metAt_withDryRun disk c dry _ _ part.2]
  rfl

/-! ## Reports -/

def Report.unwritten (report : Report) : Report :=
  { report with outcomes := report.outcomes.map fun outcome => { outcome with written := false } }

theorem unwritten_add (report : Report) (job : Job) (given : Except Fault (Rewritten × Outcome)) :
    (report.add job given).unwritten =
      report.unwritten.add job
        (given.map fun (r, outcome) => (r, { outcome with written := false })) := by
  cases given with
  | error why => rfl
  | ok found => simp [Report.add, Report.unwritten, Except.map]

section

variable [Parser]

theorem rewrite_withDryRun (disk : Disk) (c : Config) (dry : Bool) (job : Job) :
    job.rewrite disk (c.withDryRun dry) = job.rewrite disk c := by
  unfold Job.rewrite
  have hread : readSource disk job.file.path (c.withDryRun dry) = readSource disk job.file.path c :=
    rfl
  rw [hread]
  cases readSource disk job.file.path c with
  | error why => rfl
  | ok source =>
    show (parseSource job.file.path.text source).bind _ =
      (parseSource job.file.path.text source).bind _
    congr 1
    funext tree
    exact rewriteParsed_withDryRun (job.task c source tree) dry tree

theorem result_dry {job : Job} (hwrite : disk.permits .write job.file.path = .ok ()) (c : Config) :
    job.result (c.withDryRun true) disk =
      (job.result (c.withDryRun false) disk).map fun (r, outcome) =>
        (r, { outcome with written := false }) := by
  unfold Job.result
  rw [rewrite_withDryRun, rewrite_withDryRun, hwrite]
  cases job.rewrite disk c with
  | error why => rfl
  | ok r =>
    show (if (r.isChanged && !true) then _ else _) =
      Except.map _ (if (r.isChanged && !false) then _ else _)
    rw [Bool.not_true, Bool.and_false, if_neg Bool.false_ne_true]
    split <;> rfl

theorem foldl_add_dry {js : List Job}
    (hwrite : ∀ job ∈ js, disk.permits .write job.file.path = .ok ()) (c : Config)
    (report : Report) :
    js.foldl (fun report job => report.add job (job.result (c.withDryRun true) disk))
      report.unwritten =
      (js.foldl (fun report job => report.add job (job.result (c.withDryRun false) disk))
        report).unwritten := by
  induction js generalizing report with
  | nil => rfl
  | cons job js ih =>
    rw [List.foldl_cons, List.foldl_cons, ← ih fun other hother =>
      hwrite other (List.mem_cons_of_mem _ hother),
      unwritten_add, result_dry (hwrite job List.mem_cons_self)]

theorem writes_dry (disk : Disk) (c : Config) (js : List Job) :
    writes (c.withDryRun true) disk js = [] := by
  refine List.eq_nil_iff_forall_not_mem.2 fun w hw => ?_
  obtain ⟨job, -, r, outcome, hresult, hwritten, -⟩ := mem_writes.1 hw
  obtain ⟨-, rfl, -⟩ := Job.result_eq_ok.1 hresult
  have hdry : (r.isChanged && !true) = true := hwritten
  rw [Bool.not_true, Bool.and_false] at hdry
  cases hdry

theorem runAll_dry {js : List Job} (hheld : Held disk js)
    (hwrite : ∀ job ∈ js, disk.permits .write job.file.path = .ok ()) (c : Config) {report : Report}
    (hreport : report.outcomes = []) :
    runAll (c.withDryRun true) disk report js =
      ((runAll (c.withDryRun false) disk report js).1.unwritten, disk) := by
  have hstart : report.unwritten = report := by
    unfold Report.unwritten
    rw [hreport, List.map_nil, ← hreport]
  have hfold := foldl_add_dry hwrite c report
  rw [hstart] at hfold
  rw [runAll_eq_results hheld, runAll_eq_results hheld, writes_dry, hfold]
  rfl

theorem written_eq_changed {js : List Job} {report : Report} (hheld : Held disk js)
    (hdry : c.dryRun = false) (hreport : report.outcomes = []) {outcome : Outcome}
    (h : outcome ∈ (runAll c disk report js).1.outcomes) : outcome.written = outcome.changed := by
  obtain ⟨job, -, r, hresult⟩ := (mem_outcomes_runAll hheld hreport).1 h
  obtain ⟨-, rfl, -⟩ := Job.result_eq_ok.1 hresult
  show (r.isChanged && !c.dryRun) = r.isChanged
  rw [hdry, Bool.not_false, Bool.and_true]

/-- A dry run fails as the real run fails.  Otherwise it leaves the disk as it is and reports what
the real run reports, but that nothing is written, where the real run writes just what has
changed. -/
theorem asyncify_dry (hdisk : disk.Sound) (hwrites : disk.Writable) (root : Path) (plan : Plan)
    (c : Config) :
    asyncify disk root plan (c.withDryRun true) =
      (asyncify disk root plan (c.withDryRun false)).map
        (fun (report, _) => (report.unwritten, disk)) ∧
    ∀ report disk', asyncify disk root plan (c.withDryRun false) = .ok (report, disk') →
      ∀ outcome ∈ report.outcomes, outcome.written = outcome.changed := by
  rw [asyncify_eq_map, asyncify_eq_map]
  have hprepare : prepare disk root (c.withDryRun true) = prepare disk root (c.withDryRun false) :=
    rfl
  rw [hprepare]
  cases htop : prepare disk root (c.withDryRun false) with
  | error why => exact ⟨rfl, nofun⟩
  | ok top =>
    have hroot := (prepare_eq_ok.1 htop).2
    have hheld := held_jobsFor (c := c) hdisk hroot plan
    simp only [Except.map, walk_withDryRun]
    refine ⟨congrArg Except.ok (runAll_dry hheld (fun job hjob => ?_) c rfl),
      fun report disk' hrun outcome houtcome => ?_⟩
    · obtain ⟨bytes, hbytes⟩ := hheld.holds job hjob
      exact hbytes.permits_write hwrites
    · have hreport : report = (runAll (c.withDryRun false) disk _ _).1 :=
        congrArg Prod.fst (Except.ok.inj hrun).symm
      rw [hreport] at houtcome
      exact written_eq_changed hheld rfl rfl houtcome

end

/-- Both files of the shop change in a dry run, and the report says that none was written. -/
theorem asyncify_dry_shop : shop.Sound ∧ shop.Writable ∧
    asyncify shop ⟨"/"⟩ shopPlan (Config.standard.withDryRun true) =
      (asyncify shop ⟨"/"⟩ shopPlan (Config.standard.withDryRun false)).map
        (fun (report, _) => (report.unwritten, shop)) ∧
    (asyncify shop ⟨"/"⟩ shopPlan (Config.standard.withDryRun true)).toOption.map (fun run =>
      run.1.outcomes.map fun outcome => (outcome.file.path.text, outcome.changed,
        outcome.written)) =
        some [("/shop/__init__.py", true, false), ("/shop/till.py", true, false)] := by
  have hdisk : shop.Sound := by decide +kernel
  exact ⟨hdisk, fun _ => rfl,
    (asyncify_dry hdisk (fun _ => rfl) ⟨"/"⟩ shopPlan .standard).1, by decide +kernel⟩

end Project

end AsyncSpread
