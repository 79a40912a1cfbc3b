import Mathlib.Logic.Relation
import AsyncSpread.Proofs.Project.Results

/-!
Jobs that run side by side.

Each job has a worker, who reads the file and rewrites its text, and later writes it back.  Between
the two any other worker may go on, so what a worker finds on the disk depends on who was there
before.  It finds its own file as it was before all jobs, though (`Crew.Sound.step`), and so any run
that comes to its end leaves the disk and the report of the run that takes the jobs in turn
(`asyncify_interleaved`).
-/

namespace AsyncSpread.Project

open Python Rewrite

/-- How far a worker has come. -/
inductive Stage where
  | waiting
  /-- The file was read, and this is what becomes of it. -/
  | rewritten (r : Rewritten)
  | ended (given : Except Fault (Rewritten × Outcome))

structure Worker where
  job : Job
  stage : Stage

namespace Worker

/-- What a worker does next, and the disk behind it: it reads its file once and writes it once. -/
def next? [Parser] (c : Config) (disk : Disk) (w : Worker) : Option (Worker × Disk) :=
  match w.stage with
  | .waiting =>
    match w.job.rewrite disk c with
    | .ok r => some (⟨w.job, .rewritten r⟩, disk)
    | .error why => some (⟨w.job, .ended (.error why)⟩, disk)
  | .rewritten r =>
    if r.isChanged && !c.dryRun then
      match disk.writeText w.job.file.path r.source with
      | .ok disk => some (⟨w.job, .ended (.ok (r, .of w.job.file r true))⟩, disk)
      | .error why => some (⟨w.job, .ended (.error (.file w.job.file.path why))⟩, disk)
    else some (⟨w.job, .ended (.ok (r, .of w.job.file r false))⟩, disk)
  | .ended _ => none

def write? (w : Worker) : Option (Path × List Char) :=
  match w.stage with
  | .ended given => w.job.write? given
  | _ => none

def tell (w : Worker) (report : Report) : Report :=
  match w.stage with
  | .ended given => report.add w.job given
  | _ => report

def toGo (w : Worker) : Nat :=
  match w.stage with
  | .waiting => 2
  | .rewritten _ => 1
  | .ended _ => 0

/-- A worker has made of its file what its job makes of it on some disk. -/
def Sound [Parser] (c : Config) (origin : Disk) (w : Worker) : Prop :=
  match w.stage with
  | .waiting => True
  | .rewritten r => w.job.rewrite origin c = .ok r
  | .ended given => given = w.job.result c origin

end Worker

/-- Workers and the disk that they share. -/
structure Crew where
  disk : Disk
  workers : List Worker

namespace Crew

inductive Step [Parser] (c : Config) : Crew → Crew → Prop where
  | take {disk disk' : Disk} {w w' : Worker} (before after : List Worker)
      (h : w.next? c disk = some (w', disk')) :
    Step c ⟨disk, before ++ w :: after⟩ ⟨disk', before ++ w' :: after⟩

/-- A crew comes to another one by steps of its workers, in any order. -/
def Reaches [Parser] (c : Config) : Crew → Crew → Prop := Relation.ReflTransGen (Step c)

def start (disk : Disk) (js : List Job) : Crew := ⟨disk, js.map fun job => ⟨job, .waiting⟩⟩

def Done (crew : Crew) : Prop := ∀ w ∈ crew.workers, w.toGo = 0

def report (first : Report) (crew : Crew) : Report :=
  crew.workers.foldl (fun report w => w.tell report) first

def toGo (crew : Crew) : Nat := (crew.workers.map Worker.toGo).sum

/-- The workers have their jobs, and they have left the disk with what they wrote, in some order. -/
structure Sound [Parser] (c : Config) (origin : Disk) (js : List Job) (crew : Crew) : Prop where
  jobs : crew.workers.map Worker.job = js
  workers : ∀ w ∈ crew.workers, w.Sound c origin
  disk : ∃ log, log.Perm (crew.workers.filterMap Worker.write?) ∧ crew.disk = origin.writeAll log

end Crew

section

variable [Parser] {c : Config} {disk disk' origin : Disk} {job : Job} {js : List Job}
  {w w' : Worker} {crew crew' : Crew} {bytes : List UInt8}

/-! ## One worker -/

def Turn.worker (c : Config) (turn : Turn) : Worker :=
  ⟨turn.job, .ended ((turn.result c).map fun (r, outcome, _) => (r, outcome))⟩

/-- A worker who takes both steps at once runs the job. -/
theorem Worker.run_alone (c : Config) (disk : Disk) (job : Job) :
    Relation.ReflTransGen (fun a b : Worker × Disk => a.1.next? c a.2 = some b)
      (⟨job, .waiting⟩, disk) (Turn.worker c ⟨disk, job⟩, Turn.left c ⟨disk, job⟩) := by
  unfold Turn.worker Turn.left Turn.result Job.run
  cases hr : job.rewrite disk c with
  | error why =>
    refine .single ?_
    simp [next?, hr, bind, Except.bind, Except.map]
  | ok r =>
    have hread : (⟨job, .waiting⟩ : Worker).next? c disk = some (⟨job, .rewritten r⟩, disk) := by
      simp [next?, hr]
    refine .tail (.single hread) ?_
    simp only [next?, bind, Except.bind, pure, Except.pure]
    split
    · cases disk.writeText job.file.path r.source <;> rfl
    · rfl

theorem Worker.exists_next? (c : Config) (disk : Disk) (h : w.toGo ≠ 0) :
    ∃ w' disk', w.next? c disk = some (w', disk') := by
  obtain ⟨job, stage⟩ := w
  cases stage with
  | waiting =>
    unfold next?
    cases job.rewrite disk c <;> exact ⟨_, _, rfl⟩
  | rewritten r =>
    unfold next?
    dsimp only
    split
    · split <;> exact ⟨_, _, rfl⟩
    · exact ⟨_, _, rfl⟩
  | ended given => exact absurd rfl h

/-- A worker that finds its file as it was goes on as it would have then, and writes no other
file. -/
theorem Worker.Sound.next (hw : w.Sound c origin) (horigin : origin.Holds w.job.file.path bytes)
    (hnow : disk.Holds w.job.file.path bytes) (hguard : disk.guard = origin.guard)
    (h : w.next? c disk = some (w', disk')) :
    w'.job = w.job ∧ w'.Sound c origin ∧ w'.toGo < w.toGo ∧
    disk' = disk.writeAll w'.write?.toList := by
  obtain ⟨job, stage⟩ := w
  cases stage with
  | waiting =>
    have hsame : job.rewrite disk c = job.rewrite origin c := rewrite_congr horigin hnow hguard
    unfold next? at h
    dsimp only at h
    rw [hsame] at h
    cases hr : job.rewrite origin c with
    | error why =>
      rw [hr] at h
      cases h
      refine ⟨rfl, ?_, Nat.zero_lt_two, rfl⟩
      show Except.error why = job.result c origin
      rw [Job.result, hr]
      rfl
    | ok r =>
      rw [hr] at h
      cases h
      exact ⟨rfl, hr, Nat.one_lt_two, rfl⟩
  | rewritten r =>
    have hr : job.rewrite origin c = .ok r := hw
    unfold next? at h
    dsimp only at h
    by_cases hwrite : (r.isChanged && !c.dryRun) = true
    · rw [if_pos hwrite, hnow.writeText r.source, horigin.permits_congr hnow hguard] at h
      cases hp : origin.permits .write job.file.path with
      | error why =>
        rw [hp] at h
        cases h
        refine ⟨rfl, ?_, Nat.zero_lt_one, rfl⟩
        show _ = job.result c origin
        simp only [Job.result, hr, bind, Except.bind, if_pos hwrite, hp]
        rfl
      | ok =>
        rw [hp] at h
        cases h
        refine ⟨rfl, ?_, Nat.zero_lt_one, rfl⟩
        show _ = job.result c origin
        simp only [Job.result, hr, bind, Except.bind, if_pos hwrite, hp]
        rfl
    · rw [if_neg hwrite] at h
      cases h
      refine ⟨rfl, ?_, Nat.zero_lt_one, rfl⟩
      show _ = job.result c origin
      simp only [Job.result, hr, bind, Except.bind, if_neg hwrite]
      rfl
  | ended given => cases h

theorem Worker.write?_of_next? (h : w.next? c disk = some (w', disk')) : w.write? = none := by
  obtain ⟨job, stage⟩ := w
  cases stage with
  | waiting | rewritten => rfl
  | ended given => cases h

omit [Parser] in
theorem Worker.path_of_write? {x : Path × List Char} (h : w.write? = some x) :
    x.1 = w.job.file.path := by
  obtain ⟨job, stage⟩ := w
  cases stage with
  | waiting | rewritten => cases h
  | ended given =>
    obtain ⟨-, -, -, -, rfl⟩ := Job.write?_eq_some.1 h
    rfl

/-! ## Crews -/

namespace Crew

/-- The run that takes the jobs in turn is one that a crew can take. -/
theorem reaches_inTurn (c : Config) (disk : Disk) (report : Report) (js : List Job)
    (before : List Worker) :
    Reaches c ⟨disk, before ++ js.map fun job => ⟨job, .waiting⟩⟩
      ⟨(runAll c disk report js).2, before ++ (turns c disk js).map (Turn.worker c)⟩ := by
  induction js generalizing disk report before with
  | nil => exact .refl
  | cons job js ih =>
    obtain ⟨report', hrun⟩ := exists_runAll_cons c disk report job js
    have hlift := (Worker.run_alone c disk job).lift
      (fun a => (⟨a.2, before ++ a.1 :: js.map fun job => ⟨job, .waiting⟩⟩ : Crew)) fun _ _ h =>
        Step.take before _ h
    have hrest := ih (Turn.left c ⟨disk, job⟩) report' (before ++ [Turn.worker c ⟨disk, job⟩])
    rw [List.append_assoc, List.append_assoc] at hrest
    rw [hrun, turns]
    exact hlift.trans hrest

theorem sound_start (c : Config) (origin : Disk) (js : List Job) :
    (start origin js).Sound c origin js where
  jobs := by
    show (js.map _).map Worker.job = js
    rw [List.map_map]
    exact List.map_id js
  workers := by
    intro w hw
    obtain ⟨job, -, rfl⟩ := List.mem_map.1 hw
    trivial
  disk := by
    refine ⟨[], ?_, rfl⟩
    show List.Perm [] ((js.map _).filterMap Worker.write?)
    rw [List.filterMap_map]
    exact .of_eq (List.filterMap_eq_nil_iff.2 fun _ _ => rfl).symm

theorem Sound.eq_of_done (h : crew.Sound c origin js) (hdone : crew.Done) :
    crew.workers = js.map fun job => ⟨job, .ended (job.result c origin)⟩ := by
  rw [← h.jobs, List.map_map]
  refine (List.map_id crew.workers).symm.trans (List.map_congr_left fun w hw => ?_)
  have hsound := h.workers w hw
  have hgo := hdone w hw
  obtain ⟨job, stage⟩ := w
  cases stage with
  | waiting | rewritten => cases hgo
  | ended given =>
    have hgiven : given = job.result c origin := hsound
    rw [hgiven]
    rfl

theorem Sound.mem (h : crew.Sound c origin js) (hw : w ∈ crew.workers) : w.job ∈ js := by
  rw [← h.jobs]
  exact List.mem_map_of_mem hw

theorem Sound.apart (h : crew.Sound c origin js) (hheld : Held origin js) :
    crew.workers.Pairwise fun v w => v.job.file.path ≠ w.job.file.path := by
  have hapart := hheld.apart
  rw [← h.jobs, List.pairwise_map] at hapart
  exact hapart

theorem Sound.takes (h : crew.Sound c origin js) (hheld : Held origin js) :
    origin.Takes (crew.workers.filterMap Worker.write?) := by
  refine ⟨fun x hx => ?_, ?_⟩
  · obtain ⟨w, hw, hwrite⟩ := List.mem_filterMap.1 hx
    rw [Worker.path_of_write? hwrite]
    exact hheld.holds w.job (h.mem hw)
  · refine List.pairwise_filterMap.2 ((h.apart hheld).imp fun {a b} hne x hx y hy => ?_)
    rw [Worker.path_of_write? hx, Worker.path_of_write? hy]
    exact hne

theorem Sound.guard_eq (h : crew.Sound c origin js) : crew.disk.guard = origin.guard := by
  obtain ⟨log, -, hdisk⟩ := h.disk
  rw [hdisk, Disk.guard_writeAll]

/-- While a worker has written nothing, its file is as it was. -/
theorem Sound.holds {before after : List Worker}
    (h : Sound c origin js ⟨disk, before ++ w :: after⟩) (hheld : Held origin js)
    (hw : w.write? = none) (horigin : origin.Holds w.job.file.path bytes) :
    disk.Holds w.job.file.path bytes := by
  obtain ⟨log, hperm, hdisk⟩ := h.disk
  have hdisk : disk = origin.writeAll log := hdisk
  rw [hdisk]
  refine Disk.holds_writeAll ((h.takes hheld).perm hperm.symm) horigin fun x hx => ?_
  have hx := hperm.mem_iff.1 hx
  -- What is written is that of another worker.
  obtain ⟨-, hafter, hbefore⟩ := List.pairwise_append.1 (h.apart hheld)
  obtain ⟨v, hv, hwrite⟩ := List.mem_filterMap.1 hx
  rw [Worker.path_of_write? hwrite]
  rcases List.mem_append.1 hv with hv | hv
  · exact hbefore v hv w List.mem_cons_self
  · rcases List.mem_cons.1 hv with rfl | hv
    · rw [hw] at hwrite
      cases hwrite
    · exact ((List.pairwise_cons.1 hafter).1 v hv).symm

/-- A step of a worker keeps the crew sound, and the crew has less to do behind it. -/
theorem Sound.step (hheld : Held origin js) (h : crew.Sound c origin js)
    (hstep : Step c crew crew') : crew'.Sound c origin js ∧ crew'.toGo < crew.toGo := by
  obtain ⟨before, after, hnext⟩ := hstep
  rename_i disk disk' w w'
  have hmem : w ∈ before ++ w :: after := List.mem_append_right _ List.mem_cons_self
  obtain ⟨bytes, horigin⟩ := hheld.holds w.job (h.mem hmem)
  have hnow := h.holds hheld (Worker.write?_of_next? hnext) horigin
  obtain ⟨hjob, hsound, hgo, hdisk⟩ := (h.workers w hmem).next horigin hnow h.guard_eq hnext
  refine ⟨⟨?_, fun v hv => ?_, ?_⟩, ?_⟩
  · rw [← h.jobs, List.map_append, List.map_cons, hjob, ← List.map_cons, ← List.map_append]
  · rcases List.mem_append.1 hv with hv | hv
    · exact h.workers v (List.mem_append_left _ hv)
    · rcases List.mem_cons.1 hv with rfl | hv
      · exact hsound
      · exact h.workers v (List.mem_append_right _ (List.mem_cons_of_mem _ hv))
  · obtain ⟨log, hperm, hlog⟩ := h.disk
    have hlog : disk = origin.writeAll log := hlog
    refine ⟨log ++ w'.write?.toList, ?_, ?_⟩
    · simp only [List.filterMap_eq_flatMap_toList, List.flatMap_append, List.flatMap_cons,
        Worker.write?_of_next? hnext, Option.toList_none, List.nil_append] at hperm ⊢
      refine (hperm.append_right _).trans ?_
      rw [List.append_assoc]
      exact List.perm_append_comm.append_left _
    · show disk' = _
      rw [hdisk, hlog, ← Disk.writeAll_append]
  · show ((before ++ w' :: after).map Worker.toGo).sum <
      ((before ++ w :: after).map Worker.toGo).sum
    simp only [List.map_append, List.map_cons, List.sum_append, List.sum_cons]
    omega

theorem Sound.reaches (hheld : Held origin js) (h : crew.Sound c origin js)
    (hreach : crew.Reaches c crew') : crew'.Sound c origin js := by
  induction hreach with
  | refl => exact h
  | tail _ hstep ih => exact (ih.step hheld hstep).1

theorem exists_step (c : Config) (h : ¬ crew.Done) : ∃ crew', Step c crew crew' := by
  unfold Done at h
  obtain ⟨w, hw, hgo⟩ : ∃ w ∈ crew.workers, w.toGo ≠ 0 := by simpa using h
  obtain ⟨before, after, hworkers⟩ := List.append_of_mem hw
  obtain ⟨w', disk', hnext⟩ := Worker.exists_next? c crew.disk hgo
  have hstep := Step.take before after hnext
  rw [← hworkers] at hstep
  exact ⟨_, hstep⟩

theorem Sound.exists_done (hheld : Held origin js) (h : crew.Sound c origin js) :
    ∃ last, crew.Reaches c last ∧ last.Done := by
  induction hn : crew.toGo using Nat.strongRecOn generalizing crew with
  | _ n ih =>
    by_cases hdone : crew.Done
    · exact ⟨crew, .refl, hdone⟩
    · obtain ⟨next, hstep⟩ := exists_step c hdone
      obtain ⟨hnext, hless⟩ := h.step hheld hstep
      obtain ⟨last, hreach, hlast⟩ := ih next.toGo (hn ▸ hless) hnext rfl
      exact ⟨last, .head hstep hreach, hlast⟩

/-- A crew that is done leaves what the jobs leave in turn. -/
theorem Sound.eq_runAll (hheld : Held origin js) (h : crew.Sound c origin js) (hdone : crew.Done)
    (first : Report) : (crew.report first, crew.disk) = runAll c origin first js := by
  obtain ⟨log, hperm, hdisk⟩ := h.disk
  have htakes := h.takes hheld
  have hworkers := h.eq_of_done hdone
  have hwrites : crew.workers.filterMap Worker.write? = writes c origin js := by
    rw [hworkers, List.filterMap_map]
    rfl
  have hreport : crew.report first = js.foldl
      (fun report job => report.add job (job.result c origin)) first := by
    rw [Crew.report, hworkers, List.foldl_map]
    rfl
  rw [runAll_eq_results hheld, hreport, hdisk,
    Disk.writeAll_perm hperm (htakes.perm hperm.symm), hwrites]

end Crew

/-! ## Projects -/

/-- In whatever order the jobs of a project go on, they come to an end, and then the disk and the
report are those of the run that takes them in turn.  There each file that is reported as written
holds what its own text was rewritten to, and all other files keep their bytes, those with a failure
among them. -/
theorem asyncify_interleaved {root top : Path} (hdisk : disk.Sound) (plan : Plan)
    (hc : c.validate = .ok ()) (hroot : disk.canonical root = .ok top) :
    ∃ report disk', asyncify disk root plan c = .ok (report, disk') ∧
      (∀ crew, Crew.Reaches c (.start disk (jobsFor plan (walk disk top c))) crew →
        (∃ last, crew.Reaches c last ∧ last.Done) ∧
        (crew.Done → crew.report (.before plan (walk disk top c)) = report ∧ crew.disk = disk')) ∧
      (∀ outcome ∈ report.outcomes, outcome.written = true →
        ∃ job ∈ jobsFor plan (walk disk top c), ∃ r,
        outcome.file = job.file ∧ job.rewrite disk c = .ok r ∧ disk'.Holds outcome.file.path
          (Text.encodeUtf8 r.source)) ∧
      (∀ path bytes, disk.Holds path bytes →
        (∀ outcome ∈ report.outcomes, outcome.written = true → outcome.file.path ≠ path) →
          disk'.Holds path bytes) ∧
      (∀ failure ∈ report.failures, ∀ bytes, disk.Holds failure.path bytes →
        disk'.Holds failure.path bytes) := by
  have hheld := held_jobsFor (c := c) hdisk hroot plan
  have hnil : (Report.before plan (walk disk top c)).outcomes = [] := rfl
  refine ⟨_, _, asyncify_eq_runAll plan hc hroot, fun crew hreach => ?_,
    fun outcome => holds_of_written hheld hnil, fun path bytes => holds_of_not_written hheld hnil,
    fun failure hfailure bytes hbytes => ?_⟩
  · have hsound := (Crew.sound_start c disk _).reaches hheld hreach
    refine ⟨hsound.exists_done hheld, fun hdone => ?_⟩
    have hrun := hsound.eq_runAll hheld hdone (.before plan (walk disk top c))
    exact ⟨congrArg Prod.fst hrun, congrArg Prod.snd hrun⟩
  · refine holds_of_not_written hheld hnil hbytes fun outcome houtcome _ => ?_
    rcases (mem_failures_runAll hheld).1 hfailure with hwalk | ⟨job, hjob, hfailed, hpath⟩
    · -- No file of a job has failed on the walk.
      obtain ⟨job, hjob, r, hresult⟩ := (mem_outcomes_runAll hheld hnil).1 houtcome
      obtain ⟨-, rfl, -⟩ := Job.result_eq_ok.1 hresult
      have hapart := (List.nodup_append.1
        (nodup_paths_jobs hdisk top c
        (plan.split ((walk disk top c).files.map SourceFile.module)))).2.2
      exact (hapart _ (List.mem_map_of_mem hwalk) _ (List.mem_map_of_mem hjob)).symm
    · rw [← hpath]
      exact ne_of_failed hheld hnil hjob hfailed houtcome

end

/-- Both files of the shop are written, by whichever worker comes first. -/
theorem asyncify_interleaved_shop :
    shop.Sound ∧ Config.standard.validate = .ok () ∧ shop.canonical ⟨"/"⟩ = .ok ⟨"/"⟩ ∧
    ∃ report disk', asyncify shop ⟨"/"⟩ shopPlan .standard = .ok (report, disk') ∧
      (report.outcomes.map fun outcome => (outcome.file.path.text, outcome.written)) =
        [("/shop/__init__.py", true), ("/shop/till.py", true)] ∧
      ∀ crew, Crew.Reaches .standard
        (.start shop (jobsFor shopPlan (walk shop ⟨"/"⟩ .standard))) crew → crew.Done →
        crew.report (.before shopPlan (walk shop ⟨"/"⟩ .standard)) = report ∧
        crew.disk = disk' := by
  have hdisk : shop.Sound := by decide +kernel
  have hc : Config.standard.validate = .ok () := toOption_eq_some (by decide +kernel)
  have hroot : shop.canonical ⟨"/"⟩ = .ok ⟨"/"⟩ := toOption_eq_some (by decide +kernel)
  obtain ⟨report, disk', hok, hcrews, -⟩ := asyncify_interleaved hdisk shopPlan hc hroot
  refine ⟨hdisk, hc, hroot, report, disk', hok, ?_, fun crew hreach => (hcrews crew hreach).2⟩
  have hrun : (asyncify shop ⟨"/"⟩ shopPlan .standard).toOption.map (fun run =>
      run.1.outcomes.map fun outcome => (outcome.file.path.text, outcome.written)) =
        some [("/shop/__init__.py", true), ("/shop/till.py", true)] := by decide +kernel
  rw [hok] at hrun
  exact Option.some.inj hrun

end AsyncSpread.Project
