import AsyncSpread.Proofs.Project.Tallies

/-!
The time per file.

The time of some metrics is divided by the lower half of their count.  There is no answer exactly if
this half is 0 and the count is not (`averageNanos?_eq_none_iff`), and the answer is the time per
file exactly if the count has no more than this half, or the time is less than it
(`averageNanos?_eq_some_div_iff`).

However metrics are collected, they are a total (`recordAll_eq_total`).  As long as fewer than
`2 ^ 32` files are counted, there is an answer, the time per file of all that is collected
(`averageNanos?_total`), which lies between the answers for the parts (`between_total`).  So it is
for the report on a project (`Report.Consistent.averageNanos?`).
-/

namespace AsyncSpread

namespace Metrics

variable {m : Metrics} {ms : List Metrics}

def divisor (m : Metrics) : Nat := m.attempted.toNat % 2 ^ 32

theorem attempted_eq_zero_iff : m.attempted = 0 ↔ m.attempted.toNat = 0 := UInt64.toNat_inj.symm

theorem averageNanos?_of_attempted (h : m.attempted = 0) :
    m.averageNanos? = some 0 := by rw [averageNanos?, if_pos h]

theorem averageNanos?_of_divisor (hm : m.attempted ≠ 0) (h : m.divisor = 0) :
    m.averageNanos? = none := by
  rw [averageNanos?, if_neg hm]
  exact if_pos h

theorem averageNanos?_of_divisor_ne (h : m.divisor ≠ 0) :
    m.averageNanos? = some (m.nanos / m.divisor) := by
  have hm : m.attempted ≠ 0 := by
    intro hzero
    rw [divisor, attempted_eq_zero_iff.1 hzero] at h
    exact h rfl
  rw [averageNanos?, if_neg hm]
  exact if_neg h

/-- There is no answer exactly if the lower half of the count is 0 and the count is not. -/
theorem averageNanos?_eq_none_iff :
    m.averageNanos? = none ↔ m.attempted ≠ 0 ∧ 2 ^ 32 ∣ m.attempted.toNat := by
  rw [Nat.dvd_iff_mod_eq_zero]
  change _ ↔ m.attempted ≠ 0 ∧ m.divisor = 0
  by_cases hm : m.attempted = 0
  · simp [averageNanos?_of_attempted hm, hm]
  · by_cases h : m.divisor = 0
    · simp [averageNanos?_of_divisor hm h, hm, h]
    · simp [averageNanos?_of_divisor_ne h, h]

example : { zero with attempted := 2 ^ 32, nanos := 1000 }.averageNanos? = none := by decide

theorem averageNanos?_of_lt (h : m.attempted.toNat < 2 ^ 32) :
    m.averageNanos? = some (m.nanos / m.attempted.toNat) := by
  have hdivisor : m.divisor = m.attempted.toNat := Nat.mod_eq_of_lt h
  by_cases hm : m.attempted.toNat = 0
  · rw [averageNanos?_of_attempted (attempted_eq_zero_iff.2 hm), hm, Nat.div_zero]
  · rw [averageNanos?_of_divisor_ne (by rwa [hdivisor]), hdivisor]

/-- Division by at most half of a divisor gives the same quotient only if both are 0. -/
theorem div_eq_div_iff_lt {n small large : Nat} (hpos : 0 < small) (h : 2 * small ≤ large) :
    n / small = n / large ↔ n < small := by
  constructor
  · intro heq
    by_contra hnlt
    have hone : 1 ≤ n / small := (Nat.one_le_div_iff hpos).2 (Nat.le_of_not_lt hnlt)
    have htwice : n / large * 2 * small ≤ n := calc
      n / large * 2 * small = n / large * (2 * small) := Nat.mul_assoc _ _ _
      _ ≤ n / large * large := Nat.mul_le_mul_left _ h
      _ ≤ n := Nat.div_mul_le_self n large
    have hle := (Nat.le_div_iff_mul_le hpos).2 htwice
    omega
  · intro hlt
    rw [Nat.div_eq_of_lt hlt, Nat.div_eq_of_lt (by omega)]

/-- The answer is the time per file exactly if the count fits its lower half, or the time is less
than this half. -/
theorem averageNanos?_eq_some_div_iff : m.averageNanos? = some (m.nanos / m.attempted.toNat) ↔
    m.attempted.toNat < 2 ^ 32 ∨ m.nanos < m.divisor := by
  by_cases hlt : m.attempted.toNat < 2 ^ 32
  · exact iff_of_true (averageNanos?_of_lt hlt) (.inl hlt)
  · rw [or_iff_right hlt]
    by_cases h : m.divisor = 0
    · have hm : m.attempted ≠ 0 := by
        rw [ne_eq, attempted_eq_zero_iff]
        omega
      simp [averageNanos?_of_divisor hm h, h]
    · have hhalf : 2 * m.divisor ≤ m.attempted.toNat := by
        rw [divisor]
        omega
      rw [averageNanos?_of_divisor_ne h, Option.some.injEq]
      exact div_eq_div_iff_lt (Nat.pos_of_ne_zero h) hhalf

/-! ## Collected metrics -/

/-- The number of files that some metrics count together, which need not fit a word. -/
def files (ms : List Metrics) : Nat := (ms.map fun m => m.attempted.toNat).sum

def time (ms : List Metrics) : Nat := (ms.map nanos).sum

theorem files_cons (m : Metrics) (ms : List Metrics) :
    files (m :: ms) = m.attempted.toNat + files ms := rfl

theorem time_cons (m : Metrics) (ms : List Metrics) : time (m :: ms) = m.nanos + time ms := rfl

theorem nanos_total (ms : List Metrics) : (total ms).nanos = time ms := by
  induction ms with
  | nil => rfl
  | cons m ms ih =>
    show m.nanos + (total ms).nanos = _
    rw [ih, time_cons]

theorem attempted_total (ms : List Metrics) : (total ms).attempted = .ofNat (files ms) := by
  induction ms with
  | nil => rfl
  | cons m ms ih =>
    show m.attempted + (total ms).attempted = _
    rw [ih, files_cons, UInt64.ofNat_add, UInt64.ofNat_toNat]

inductive Step where
  | success (r : Rewrite.Rewritten) (nanos : Nat)
  | failure (nanos : Nat)
  | merge (other : Metrics)

def Step.added : Step → Metrics
  | .success r nanos => .ofSuccess r nanos
  | .failure nanos => .ofFailure nanos
  | .merge other => other

def record (m : Metrics) : Step → Metrics
  | .success r nanos => m.addSuccess r nanos
  | .failure nanos => m.addFailure nanos
  | .merge other => m.merge other

theorem record_eq_merge (m : Metrics) (step : Step) : m.record step = m.merge step.added := by
  cases step <;> rfl

def recordAll (m : Metrics) (steps : List Step) : Metrics := steps.foldl record m

/-- Metrics that are collected are a total: of those at the start, and of those that the steps
add. -/
theorem recordAll_eq_total (m : Metrics) (steps : List Step) :
    m.recordAll steps = total (m :: steps.map Step.added) := by
  induction steps generalizing m with
  | nil => exact (merge_zero m).symm
  | cons step steps ih =>
    show (m.record step).recordAll steps = m.merge (step.added.merge (total (steps.map Step.added)))
    rw [ih, record_eq_merge, ← merge_assoc]
    rfl

/-- A total has no answer exactly if the number of its files is a multiple of `2 ^ 32`, but not one
of `2 ^ 64`. -/
theorem averageNanos?_total_eq_none_iff :
    (total ms).averageNanos? = none ↔ 2 ^ 32 ∣ files ms ∧ ¬2 ^ 64 ∣ files ms := by
  rw [averageNanos?_eq_none_iff, ne_eq, attempted_eq_zero_iff, attempted_total, UInt64.toNat_ofNat']
  omega

/-- The answer for a total of fewer than `2 ^ 32` files is the time per file. -/
theorem averageNanos?_total (h : files ms < 2 ^ 32) :
    (total ms).averageNanos? = some (time ms / files ms) := by
  have hfiles : (total ms).attempted.toNat = files ms := by
    rw [attempted_total, UInt64.toNat_ofNat']
    omega
  rw [averageNanos?_of_lt (by rwa [hfiles]), nanos_total, hfiles]

/-- Steps that count fewer than `2 ^ 32` files lead to metrics with an answer. -/
theorem averageNanos?_recordAll {steps : List Step}
    (h : files (m :: steps.map Step.added) < 2 ^ 32) :
    (m.recordAll steps).averageNanos? =
      some (time (m :: steps.map Step.added) / files (m :: steps.map Step.added)) := by
  rw [recordAll_eq_total, averageNanos?_total h]

/-- With `2 ^ 32 + 1` files at one millisecond each the time is taken for that of one file. -/
example : ({ zero with attempted := 2 ^ 32 - 1, nanos := (2 ^ 32 - 1) * 1000000 }.recordAll
    [.merge { zero with attempted := 2, nanos := 2 * 1000000 }]).averageNanos? =
      some ((2 ^ 32 + 1) * 1000000) := by decide

/-! ## Answers between answers -/

/-- Time is spent on files only. -/
def Timed (m : Metrics) : Prop := m.attempted = 0 → m.nanos = 0

/-- The answer is there and lies between two times. -/
def Between (least most : Nat) (m : Metrics) : Prop :=
  ∃ t, m.averageNanos? = some t ∧ least ≤ t ∧ t ≤ most

variable {least most : Nat}

theorem le_nanos_of_between (hlt : m.attempted.toNat < 2 ^ 32) (h : m.Between least most) :
    least * m.attempted.toNat ≤ m.nanos := by
  obtain ⟨t, ht, hleast, -⟩ := h
  rw [averageNanos?_of_lt hlt] at ht
  cases ht
  exact (Nat.mul_le_mul_right _ hleast).trans (Nat.div_mul_le_self _ _)

/-- The bound is the last time before `most + 1` for each file, and 0 without files. -/
theorem nanos_le_of_between (hlt : m.attempted.toNat < 2 ^ 32) (htimed : m.Timed)
    (h : m.Between least most) : m.nanos ≤ (most + 1) * m.attempted.toNat - 1 := by
  by_cases hm : m.attempted.toNat = 0
  · rw [htimed (attempted_eq_zero_iff.2 hm)]
    exact Nat.zero_le _
  · obtain ⟨t, ht, -, hmost⟩ := h
    rw [averageNanos?_of_lt hlt] at ht
    cases ht
    have hnanos := (Nat.div_lt_iff_lt_mul (Nat.pos_of_ne_zero hm)).1 (Nat.lt_succ_of_le hmost)
    exact Nat.le_sub_one_of_lt hnanos

theorem time_of_between (hlt : files ms < 2 ^ 32) (htimed : ∀ m ∈ ms, m.Timed)
    (h : ∀ m ∈ ms, m.Between least most) :
    least * files ms ≤ time ms ∧ time ms ≤ (most + 1) * files ms - 1 := by
  induction ms with
  | nil => exact ⟨Nat.le_refl 0, Nat.le_refl 0⟩
  | cons m ms ih =>
    rw [files_cons] at hlt
    obtain ⟨hleast, hmost⟩ := ih (by omega) (fun n hn => htimed n (List.mem_cons_of_mem _ hn))
      fun n hn => h n (List.mem_cons_of_mem _ hn)
    have hbetween := h m List.mem_cons_self
    have hm := le_nanos_of_between (by omega) hbetween
    have hm' := nanos_le_of_between (by omega) (htimed m List.mem_cons_self) hbetween
    rw [files_cons, time_cons, Nat.mul_add, Nat.mul_add]
    omega

/-- The answer for a total lies between the answers for its parts. -/
theorem between_total (hne : ms ≠ []) (hlt : files ms < 2 ^ 32) (htimed : ∀ m ∈ ms, m.Timed)
    (h : ∀ m ∈ ms, m.Between least most) : (total ms).Between least most := by
  refine ⟨_, averageNanos?_total hlt, ?_⟩
  by_cases hfiles : files ms = 0
  · -- No part has a file, so each has the answer 0.
    obtain ⟨m, rest, rfl⟩ := List.exists_cons_of_ne_nil hne
    rw [files_cons] at hfiles
    obtain ⟨t, ht, hleast, -⟩ := h m List.mem_cons_self
    rw [averageNanos?_of_attempted (attempted_eq_zero_iff.2 (by omega))] at ht
    cases ht
    rw [files_cons, hfiles, Nat.div_zero]
    exact ⟨hleast, Nat.zero_le most⟩
  · have hpos := Nat.pos_of_ne_zero hfiles
    obtain ⟨hleast, hmost⟩ := time_of_between hlt htimed h
    have hlast : time ms < (most + 1) * files ms :=
      Nat.lt_of_le_sub_one (Nat.mul_pos (Nat.succ_pos most) hpos) hmost
    exact ⟨(Nat.le_div_iff_mul_le hpos).2 hleast,
      Nat.le_of_lt_succ ((Nat.div_lt_iff_lt_mul hpos).2 hlast)⟩

end Metrics

/-! ## Projects -/

namespace Project

open Metrics

variable {c : Config} {disk : Disk} {report : Report} {found : List Failure} {ts : List Turn}
  {elapsed : Turn → Nat}

def metricsOfTurns (c : Config) (elapsed : Turn → Nat) (ts : List Turn) : List Metrics :=
  ts.map fun turn => turn.metrics c (elapsed turn)

theorem attempted_metrics (c : Config) (turn : Turn) (nanos : Nat) :
    (turn.metrics c nanos).attempted = 1 := by
  unfold Turn.metrics
  split <;> rfl

theorem nanos_metrics (c : Config) (turn : Turn) (nanos : Nat) :
    (turn.metrics c nanos).nanos = nanos := by
  unfold Turn.metrics
  split <;> rfl

theorem files_metricsOfTurns (c : Config) (elapsed : Turn → Nat) (ts : List Turn) :
    files (metricsOfTurns c elapsed ts) = ts.length := by
  induction ts with
  | nil => rfl
  | cons turn ts ih =>
    show (turn.metrics c (elapsed turn)).attempted.toNat + files (metricsOfTurns c elapsed ts) =
      ts.length + 1
    rw [ih, attempted_metrics]
    exact Nat.add_comm 1 _

theorem time_metricsOfTurns (c : Config) (elapsed : Turn → Nat) (ts : List Turn) :
    time (metricsOfTurns c elapsed ts) = (ts.map elapsed).sum := by
  rw [time, metricsOfTurns, List.map_map]
  congr 1
  exact List.map_congr_left fun turn _ => nanos_metrics c turn (elapsed turn)

/-- The metrics of a consistent report with a time for each turn are the total of the turns. -/
theorem Report.Consistent.eq_total (h : report.Consistent c found ts) (elapsed : Turn → Nat) :
    { report.metrics with nanos := (ts.map elapsed).sum } = total
      (metricsOfTurns c elapsed ts) := by
  rw [metricsOfTurns, total_metrics, h.counted, h.outcomes]
  rfl

/-- The answer for a consistent report on fewer than `2 ^ 32` turns is the time per turn. -/
theorem Report.Consistent.averageNanos? (h : report.Consistent c found ts)
    (hlt : ts.length < 2 ^ 32) (elapsed : Turn → Nat) :
    { report.metrics with nanos := (ts.map elapsed).sum }.averageNanos? =
      some ((ts.map elapsed).sum / ts.length) := by
  rw [h.eq_total, averageNanos?_total (by rwa [files_metricsOfTurns]), files_metricsOfTurns,
    time_metricsOfTurns]

/-- The answer lies between the times that the turns take. -/
theorem Report.Consistent.between (h : report.Consistent c found ts) (hne : ts ≠ [])
    (hlt : ts.length < 2 ^ 32) {least most : Nat}
    (helapsed : ∀ turn ∈ ts, least ≤ elapsed turn ∧ elapsed turn ≤ most) :
    { report.metrics with nanos := (ts.map elapsed).sum }.Between least most := by
  rw [h.eq_total]
  refine between_total (by simpa [metricsOfTurns] using hne) (by rwa [files_metricsOfTurns]) ?_ ?_
  · intro m hm hzero
    obtain ⟨turn, -, rfl⟩ := List.mem_map.1 hm
    rw [attempted_metrics] at hzero
    cases hzero
  · intro m hm
    obtain ⟨turn, hturn, rfl⟩ := List.mem_map.1 hm
    refine ⟨elapsed turn, ?_, helapsed turn hturn⟩
    rw [averageNanos?_of_lt (by rw [attempted_metrics]; decide), attempted_metrics, nanos_metrics]
    exact congrArg some (Nat.div_one _)

/-- The report on a project of fewer than `2 ^ 32` source files has an answer, whatever time its
turns take. -/
theorem exists_averageNanos?_asyncify (hdisk : disk.Sound) (plan : Plan) {root top : Path}
    (hc : c.validate = .ok ()) (hroot : disk.canonical root = .ok top)
    (hlt : (walk disk top c).files.length < 2 ^ 32) :
    ∃ report disk', asyncify disk root plan c = .ok (report, disk') ∧ ∀ (elapsed : Turn → Nat)
      (ts : List Turn), ts = turns c disk (jobsFor plan (walk disk top c)) →
      { report.metrics with nanos := (ts.map elapsed).sum }.averageNanos? =
        some ((ts.map elapsed).sum / ts.length) := by
  refine ⟨_, _, asyncify_eq_runAll plan hc hroot, fun elapsed ts hts => ?_⟩
  have hconsistent :
      (runAll c disk (.before plan (walk disk top c)) (jobsFor plan (walk disk top c))).1.Consistent
      c (walk disk top c).failures (turns c disk (jobsFor plan (walk disk top c))) :=
    consistent_runAll disk rfl rfl (nodup_paths_jobs hdisk top c _)
  have hlength : (turns c disk (jobsFor plan (walk disk top c))).length ≤
      (walk disk top c).files.length := by
    rw [← List.length_map Turn.job, map_job_turns, ← List.length_map Job.file]
    exact (sublist_jobs _ _).length_le
  rw [hts]
  exact hconsistent.averageNanos? (hlength.trans_lt hlt) elapsed

end Project

end AsyncSpread
