import Mathlib.Logic.Relation
import AsyncSpread.Calls.Spread
import AsyncSpread.Proofs.Calls.Built
import AsyncSpread.Proofs.Fallible

/-!
What the search for callers finds, and what is planned from it.

The search keeps an invariant: whoever is reached leads to a seed, every seed is reached, and a
caller of someone reached is reached, too, unless that someone still waits to be looked up
(`Search.Correct`).  When nobody waits the second part says that the set is closed, so it holds
exactly those that lead to a seed (`CallGraph.mem_reaching_iff`).
-/

namespace AsyncSpread

open Calls Relation

namespace Search

theorem mem_reached_meet {s : Search} {id x : Nat} :
    x ∈ (s.meet id).reached ↔ x = id ∨ x ∈ s.reached := by
  unfold meet
  split
  · rename_i h
    constructor
    · exact .inr
    · intro hor
      rcases hor with rfl | hx
      · exact SortedSet.contains_iff_mem.1 h
      · exact hx
  · exact SortedSet.mem_insert

theorem mem_reached_meetAll {s : Search} {ids : List Nat} {x : Nat} :
    x ∈ (s.meetAll ids).reached ↔ x ∈ ids ∨ x ∈ s.reached := by
  induction ids generalizing s with
  | nil => simp
  | cons id ids ih =>
    rw [meetAll_cons, ih, mem_reached_meet, List.mem_cons]
    constructor
    · intro hor
      rcases hor with h | h | h
      · exact .inl (.inr h)
      · exact .inl (.inl h)
      · exact .inr h
    · intro hor
      rcases hor with (h | h) | h
      · exact .inr (.inl h)
      · exact .inl h
      · exact .inr (.inr h)

theorem mem_queue_meet {s : Search} {id x : Nat} (h : x ∈ s.queue) : x ∈ (s.meet id).queue := by
  unfold meet
  split
  · exact h
  · exact List.mem_append_left _ h

theorem mem_queue_meetAll {s : Search} {ids : List Nat} {x : Nat} (h : x ∈ s.queue) :
    x ∈ (s.meetAll ids).queue := by
  induction ids generalizing s with
  | nil => exact h
  | cons id ids ih => exact ih (mem_queue_meet h)

theorem mem_queue_meet_of_new {s : Search} {id x : Nat} (h : x ∈ (s.meet id).reached)
    (hs : x ∉ s.reached) : x ∈ (s.meet id).queue := by
  unfold meet at h ⊢
  split at h
  · exact absurd h hs
  · rename_i hc
    rw [if_neg hc]
    rcases SortedSet.mem_insert.1 h with rfl | h
    · exact List.mem_append_right _ (List.mem_singleton_self _)
    · exact absurd h hs

theorem mem_queue_meetAll_of_new {s : Search} {ids : List Nat} {x : Nat}
    (h : x ∈ (s.meetAll ids).reached) (hs : x ∉ s.reached) : x ∈ (s.meetAll ids).queue := by
  induction ids generalizing s with
  | nil => exact absurd h hs
  | cons id ids ih =>
    rw [meetAll_cons] at h ⊢
    by_cases hx : x ∈ (s.meet id).reached
    · exact mem_queue_meetAll (mem_queue_meet_of_new hx hs)
    · exact ih h hx

theorem mem_reached_of_mem_queue_meet {s : Search} (hs : ∀ x ∈ s.queue, x ∈ s.reached) {id x : Nat}
    (h : x ∈ (s.meet id).queue) : x ∈ (s.meet id).reached := by
  unfold meet at h ⊢
  split at h
  · rename_i hc
    rw [if_pos hc]
    exact hs x h
  · rename_i hc
    rw [if_neg hc]
    rcases List.mem_append.1 h with h | h
    · exact SortedSet.mem_insert.2 (.inr (hs x h))
    · exact SortedSet.mem_insert.2 (.inl (List.mem_singleton.1 h))

theorem mem_reached_of_mem_queue_meetAll {s : Search} (hs : ∀ x ∈ s.queue, x ∈ s.reached)
    {ids : List Nat} {x : Nat} (h : x ∈ (s.meetAll ids).queue) : x ∈ (s.meetAll ids).reached := by
  induction ids generalizing s with
  | nil => exact hs x h
  | cons id ids ih => exact ih (fun _ hy => mem_reached_of_mem_queue_meet hs hy) h

/-- The invariant of the search. -/
structure Correct (s : Search) (g : CallGraph) (seeds : List Nat) : Prop where
  waits : ∀ x ∈ s.queue, x ∈ s.reached
  /-- Whoever is reached leads to a seed. -/
  sound : ∀ x ∈ s.reached, g.Reaches seeds x
  seed : ∀ x ∈ seeds, x ∈ s.reached
  /-- The callers of someone who is reached and does not wait are reached. -/
  caller : ∀ c ∈ g.calls, c.callee ∈ s.reached → c.callee ∉ s.queue → c.caller ∈ s.reached

variable {g : CallGraph} {seeds : List Nat}

theorem correct_start : (start.meetAll seeds).Correct g seeds where
  waits x hx := mem_reached_of_mem_queue_meetAll (fun _ hy => (List.not_mem_nil hy).elim) hx
  sound x hx := by
    rcases mem_reached_meetAll.1 hx with hx | hx
    · exact .seed hx
    · exact absurd hx SortedSet.not_mem_empty
  seed x hx := mem_reached_meetAll.2 (.inl hx)
  caller c _ hr hq := absurd (mem_queue_meetAll_of_new hr SortedSet.not_mem_empty) hq

theorem mem_callersOf_iff (hg : g.Indexed) {id x : Nat} :
    x ∈ g.callersOf id ↔ ∃ c ∈ g.calls, c.callee = id ∧ c.caller = x := by
  simp only [CallGraph.callersOf, hg.callsTo, List.mem_map, List.mem_filter, beq_iff_eq]
  constructor
  · intro hand
    obtain ⟨c, ⟨hc, hid⟩, hx⟩ := hand
    exact ⟨c, hc, hid, hx⟩
  · intro hand
    obtain ⟨c, hc, hid, hx⟩ := hand
    exact ⟨c, ⟨hc, hid⟩, hx⟩

/-- Looking up the callers of one that waits keeps the invariant. -/
theorem Correct.step (hg : g.Indexed) {reached : SortedSet Nat} {id : Nat} {queue : List Nat}
    (h : Correct ⟨reached, id :: queue⟩ g seeds) :
    Correct (meetAll ⟨reached, queue⟩ (g.callersOf id)) g seeds where
  waits x hx := mem_reached_of_mem_queue_meetAll (s := ⟨reached, queue⟩)
    (fun y hy => h.waits y (List.mem_cons_of_mem _ hy)) hx
  sound x hx := by
    rcases mem_reached_meetAll.1 hx with hx | hx
    · obtain ⟨c, hc, rfl, rfl⟩ := (mem_callersOf_iff hg).1 hx
      exact .caller hc (h.sound _ (h.waits _ List.mem_cons_self))
    · exact h.sound x hx
  seed x hx := mem_reached_meetAll.2 (.inr (h.seed x hx))
  caller c hc hr hq := by
    by_cases hid : c.callee = id
    · exact mem_reached_meetAll.2 (.inl ((mem_callersOf_iff hg).2 ⟨c, hc, hid, rfl⟩))
    · by_cases hold : c.callee ∈ reached
      · have hwait : c.callee ∉ id :: queue := by
          intro hm
          rcases List.mem_cons.1 hm with hm | hm
          · exact hid hm
          · exact hq (mem_queue_meetAll hm)
        exact mem_reached_meetAll.2 (.inr (h.caller c hc hold hwait))
      · exact absurd (mem_queue_meetAll_of_new hr hold) hq

/-- When nobody waits, whoever leads to a seed is reached. -/
theorem Correct.mem_of_reaches {reached : SortedSet Nat} (h : Correct ⟨reached, []⟩ g seeds)
    {x : Nat} (hx : g.Reaches seeds x) : x ∈ reached := by
  induction hx with
  | seed hs => exact h.seed _ hs
  | caller hc _ ih => exact h.caller _ hc ih List.not_mem_nil

end Search

namespace CallGraph

variable {g : CallGraph}

/-- A search that keeps the invariant ends with exactly those that lead to a seed. -/
theorem mem_spreadFrom_iff (hg : g.Indexed) {s : Search} {seeds : List Nat} (h : s.Correct g seeds)
    {x : Nat} : x ∈ g.spreadFrom s ↔ g.Reaches seeds x := by
  induction s using spreadFrom.induct (g := g) with
  | case1 reached =>
    rw [spreadFrom]
    exact ⟨h.sound x, h.mem_of_reaches⟩
  | case2 reached id queue ih =>
    rw [spreadFrom]
    exact ih (h.step hg)

theorem mem_reaching_iff (hg : g.Indexed) {seeds : List Nat} {x : Nat} :
    x ∈ g.reaching seeds ↔ g.Reaches seeds x :=
  mem_spreadFrom_iff hg Search.correct_start

/-! ## Reaching by names -/

def Calling (g : CallGraph) (caller callee : String) : Prop :=
  ∃ c ∈ g.calls, g.name c.caller = .ok caller ∧ g.name c.callee = .ok callee

def LeadsTo (g : CallGraph) : String → String → Prop := ReflTransGen g.Calling

theorem Has.of_calling {n m : String} (h : g.Calling n m) : g.Has n := by
  obtain ⟨c, _, hn, _⟩ := h
  exact ⟨c.caller, hn⟩

variable {seeds : List Nat}

/-- Numbers that lead to the numbers of some names have names that lead to those. -/
theorem exists_leadsTo_of_reaches (names : List String) (hg : g.Consistent)
    (hs : ∀ i ∈ seeds, ∃ n ∈ names, g.name i = .ok n) {i : Nat} (h : g.Reaches seeds i) :
    ∃ n, g.name i = .ok n ∧ ∃ m ∈ names, g.LeadsTo n m := by
  induction h with
  | seed hi =>
    obtain ⟨n, hn, hname⟩ := hs _ hi
    exact ⟨n, hname, n, hn, .refl⟩
  | @caller c hc _ ih =>
    obtain ⟨n, hn, m, hm, hlead⟩ := ih
    obtain ⟨f, hf⟩ := hg.caller hc
    have hcaller : g.name c.caller = .ok f.name := name_eq_ok_iff.2 ⟨f, hf, rfl⟩
    exact ⟨f.name, hcaller, m, hm, .head ⟨c, hc, hcaller, hn⟩ hlead⟩

variable {names : List String}

theorem reaches_of_leadsTo (hg : g.Consistent) {n m : String} (h : g.LeadsTo n m) {j : Nat}
    (hj : j ∈ seeds) (hm : g.name j = .ok m) {i : Nat} (hi : g.name i = .ok n) :
    g.Reaches seeds i := by
  induction h using ReflTransGen.head_induction_on generalizing i with
  | refl =>
    rw [name_injective hg hi hm]
    exact .seed hj
  | head hcall _ ih =>
    obtain ⟨c, hc, hcaller, hcallee⟩ := hcall
    rw [name_injective hg hi hcaller]
    exact .caller hc (ih hcallee)

/-! ## The plan -/

/-- What is planned when seeds become asynchronous: the names that lead to a seed; a call to such a
name, by its caller and what is written at it; and those of the names whose last component begins
like a test. -/
structure Plans (g : CallGraph) (names : List String) (testPrefix : String) (p : Plan) : Prop where
  functions : ∀ n, n ∈ p.functions ↔ ∃ m ∈ names, g.LeadsTo n m
  calls : ∀ k, k ∈ p.calls ↔ ∃ c ∈ g.calls, g.name c.caller = .ok k.caller ∧ c.name = k.callee ∧
    ∃ n ∈ p.functions, g.name c.callee = .ok n
  tests : ∀ n, n ∈ p.tests ↔ n ∈ p.functions ∧ ∃ last, (dotted n).getLast? = some last ∧
    testPrefix.toList <+: last.toList

/-- Such a plan is determined by the graph, the set of seeds and the beginning of tests. -/
theorem Plans.eq {testPrefix : String} {p q : Plan} {names' : List String}
    (hp : g.Plans names testPrefix p) (hq : g.Plans names' testPrefix q)
    (h : ∀ n, n ∈ names' ↔ n ∈ names) : p = q := by
  have hf : p.functions = q.functions := by
    refine SortedSet.eq_of_mem_iff fun n => ?_
    rw [hp.functions, hq.functions]
    simp only [h]
  refine Plan.ext hf (SortedSet.eq_of_mem_iff fun k => ?_) (SortedSet.eq_of_mem_iff fun n => ?_)
  · rw [hp.calls, hq.calls, hf]
  · rw [hp.tests, hq.tests, hf]

/-- The planned functions are the least set that has the seeds and the callers of its members. -/
theorem Plans.least {testPrefix : String} {p : Plan} (hp : g.Plans names testPrefix p)
    {S : String → Prop} (hseed : ∀ n ∈ names, S n) (hcall : ∀ n m, g.Calling n m → S m → S n)
    {n : String} (hn : n ∈ p.functions) : S n := by
  obtain ⟨m, hm, hlead⟩ := (hp.functions n).1 hn
  induction hlead using ReflTransGen.head_induction_on with
  | refl => exact hseed m hm
  | head hc hrest ih => exact hcall _ _ hc (ih ((hp.functions _).2 ⟨m, hm, hrest⟩))

theorem Plans.caller_mem {testPrefix : String} {p : Plan} (hp : g.Plans names testPrefix p)
    {k : CallKey} (hk : k ∈ p.calls) : k.caller ∈ p.functions := by
  obtain ⟨c, hc, hcaller, _, n, hn, hcallee⟩ := (hp.calls k).1 hk
  obtain ⟨m, hm, hlead⟩ := (hp.functions n).1 hn
  exact (hp.functions _).2 ⟨m, hm, .head ⟨c, hc, hcaller, hcallee⟩ hlead⟩

theorem isTest_iff {testPrefix : String} {i : Nat} {n : String} (hi : g.name i = .ok n) :
    g.isTest testPrefix i = true ↔ ∃ last, (dotted n).getLast? = some last ∧
      testPrefix.toList <+: last.toList := by
  obtain ⟨f, hf, rfl⟩ := name_eq_ok_iff.1 hi
  simp only [isTest, hf, Option.any_some, List.isPrefixOf_iff_prefix, Function.shortName,
    getLast?_dotted, Option.some.injEq, exists_eq_left']

/-- The numbers that are reached are numbers of names that lead to a seed. -/
theorem mem_reaching_iff_leadsTo (hg : g.Consistent) (hs : names.mapM g.number = .ok seeds)
    {i : Nat} {n : String} (hi : g.name i = .ok n) :
    i ∈ g.reaching seeds ↔ ∃ m ∈ names, g.LeadsTo n m := by
  have hseeds : ∀ j, j ∈ seeds ↔ ∃ m ∈ names, g.name j = .ok m := by
    intro j
    rw [Fallible.mem_of_mapM hs]
    simp only [number_eq_ok_iff hg]
  rw [mem_reaching_iff hg.indexed]
  constructor
  · intro h
    obtain ⟨m, hm, hlead⟩ := exists_leadsTo_of_reaches names hg (fun j hj => (hseeds j).1 hj) h
    rw [hi] at hm
    cases hm
    exact hlead
  · intro hand
    obtain ⟨m, hm, hlead⟩ := hand
    obtain ⟨j, hj, hnum⟩ := Fallible.exists_of_mapM hs hm
    exact reaches_of_leadsTo hg hlead hj ((number_eq_ok_iff hg).1 hnum) hi

/-- Selecting functions, calls and tests that the graph knows plans their names. -/
theorem exists_ofSelection (functions : List Nat) (calls : List Call) (tests : List Nat)
    (hf : ∀ i ∈ functions, ∃ n, g.name i = .ok n) (hc : ∀ c ∈ calls, ∃ n, g.name c.caller = .ok n)
    (ht : ∀ i ∈ tests, ∃ n, g.name i = .ok n) :
    ∃ p, Plan.ofSelection g functions calls tests = .ok p ∧
      (∀ n, n ∈ p.functions ↔ ∃ i ∈ functions ++ tests, g.name i = .ok n) ∧
      (∀ k, k ∈ p.calls ↔ ∃ c ∈ calls, g.name c.caller = .ok k.caller ∧ c.name = k.callee) ∧
      (∀ n, n ∈ p.tests ↔ ∃ i ∈ tests, g.name i = .ok n) := by
  have hkey : ∀ c : Call, ∀ k : CallKey,
      ((g.name c.caller).map fun caller => (⟨caller, c.name⟩ : CallKey)) = .ok k ↔
      g.name c.caller = .ok k.caller ∧ c.name = k.callee := by
    intro c k
    cases k
    cases g.name c.caller <;> simp [Except.map]
  obtain ⟨fs, hfs⟩ := Fallible.exists_mapM hf
  obtain ⟨ks, hks⟩ := Fallible.exists_mapM (f := fun c : Call =>
      (g.name c.caller).map fun caller => (⟨caller, c.name⟩ : CallKey)) (l := calls) (by
    intro c hmem
    obtain ⟨n, hn⟩ := hc c hmem
    exact ⟨⟨n, c.name⟩, (hkey c _).2 ⟨hn, rfl⟩⟩)
  obtain ⟨ts, hts⟩ := Fallible.exists_mapM ht
  refine ⟨⟨.ofList (fs ++ ts), .ofList ks, .ofList ts⟩, ?_, fun n => ?_, fun k => ?_, fun n => ?_⟩
  · simp only [Plan.ofSelection, hfs, hks, hts]
    rfl
  · rw [SortedSet.mem_ofList, List.mem_append, Fallible.mem_of_mapM hfs, Fallible.mem_of_mapM hts]
    simp only [List.mem_append, or_and_right, exists_or]
  · rw [SortedSet.mem_ofList, Fallible.mem_of_mapM hks]
    simp only [hkey]
  · rw [SortedSet.mem_ofList, Fallible.mem_of_mapM hts]

theorem has_of_reaches (hg : g.Consistent) (hs : names.mapM g.number = .ok seeds) {i : Nat}
    (h : i ∈ g.reaching seeds) : ∃ n, g.name i = .ok n := by
  obtain ⟨n, hn, _⟩ := exists_leadsTo_of_reaches names hg (fun j hj => by
    obtain ⟨m, hm, hnum⟩ := (Fallible.mem_of_mapM hs).1 hj
    exact ⟨m, hm, (number_eq_ok_iff hg).1 hnum⟩) ((mem_reaching_iff hg.indexed).1 h)
  exact ⟨n, hn⟩

/-- When the seeds are known, the plan is the one that they spread to. -/
theorem exists_propagate (hg : g.Consistent) (names : List String) (testPrefix : String)
    (hnames : ∀ n ∈ names, g.Has n) :
    ∃ p, g.propagate names testPrefix = .ok p ∧ g.Plans names testPrefix p := by
  obtain ⟨seeds, hs⟩ := Fallible.exists_mapM (f := g.number) (l := names) fun n hn =>
    (hnames n hn).imp fun _ => (number_eq_ok_iff hg).2
  obtain ⟨p, hp, hfun, hcalls, htests⟩ := exists_ofSelection (g := g) (g.reaching seeds).toList
    (g.calls.filter fun c => (g.reaching seeds).contains c.callee)
    ((g.reaching seeds).toList.filter (g.isTest testPrefix))
    (fun i hi => has_of_reaches hg hs hi)
    (fun c hc => (hg.caller (List.mem_filter.1 hc).1).elim fun f hf =>
      ⟨f.name, name_eq_ok_iff.2 ⟨f, hf, rfl⟩⟩)
    (fun i hi => has_of_reaches hg hs (List.mem_filter.1 hi).1)
  have hmem : ∀ n, n ∈ p.functions ↔ ∃ m ∈ names, g.LeadsTo n m := by
    intro n
    rw [hfun]
    constructor
    · intro hand
      obtain ⟨i, hi, hn⟩ := hand
      rcases List.mem_append.1 hi with hi | hi
      · exact (mem_reaching_iff_leadsTo hg hs hn).1 hi
      · exact (mem_reaching_iff_leadsTo hg hs hn).1 (List.mem_filter.1 hi).1
    · intro hand
      obtain ⟨m, hm, hlead⟩ := hand
      obtain ⟨i, hi⟩ : g.Has n := by
        rcases hlead.cases_head with rfl | ⟨_, hcall, _⟩
        · exact hnames n hm
        · exact .of_calling hcall
      exact ⟨i, List.mem_append_left _ ((mem_reaching_iff_leadsTo hg hs hi).2 ⟨m, hm, hlead⟩), hi⟩
  refine ⟨p, ?_, hmem, fun k => ?_, fun n => ?_⟩
  · simp only [propagate, hs]
    exact hp
  · rw [hcalls]
    constructor
    · intro hand
      obtain ⟨c, hc, hcaller, hname⟩ := hand
      obtain ⟨hc, hreach⟩ := List.mem_filter.1 hc
      obtain ⟨f, hf⟩ := hg.callee hc
      have hcallee : g.name c.callee = .ok f.name := name_eq_ok_iff.2 ⟨f, hf, rfl⟩
      have hlead := (mem_reaching_iff_leadsTo hg hs hcallee).1 (SortedSet.contains_iff_mem.1 hreach)
      exact ⟨c, hc, hcaller, hname, f.name, (hmem _).2 hlead, hcallee⟩
    · intro hand
      obtain ⟨c, hc, hcaller, hname, n, hn, hcallee⟩ := hand
      have hreach := (mem_reaching_iff_leadsTo hg hs hcallee).2 ((hmem n).1 hn)
      exact ⟨c, List.mem_filter.2 ⟨hc, SortedSet.contains_iff_mem.2 hreach⟩, hcaller, hname⟩
  · rw [htests, hmem]
    constructor
    · intro hand
      obtain ⟨i, hi, hn⟩ := hand
      obtain ⟨hi, htest⟩ := List.mem_filter.1 hi
      exact ⟨(mem_reaching_iff_leadsTo hg hs hn).1 hi, (isTest_iff hn).1 htest⟩
    · intro hand
      obtain ⟨hlead, htest⟩ := hand
      obtain ⟨i, hi, hn⟩ := (hfun n).1 ((hmem n).2 hlead)
      have hreach := (mem_reaching_iff_leadsTo hg hs hn).2 hlead
      exact ⟨i, List.mem_filter.2 ⟨hreach, (isTest_iff hn).2 htest⟩, hn⟩

/-- Without a plan, the first unknown seed is to blame. -/
theorem propagate_eq_error_iff (hg : g.Consistent) {testPrefix : String} {e : Calls.Fault} :
    g.propagate names testPrefix = .error e ↔
      ∃ before n after, names = before ++ n :: after ∧ (∀ m ∈ before, g.Has m) ∧ ¬ g.Has n ∧
        e = .noName n := by
  have hfirst : names.mapM g.number = .error e ↔
      ∃ before n after, names = before ++ n :: after ∧ (∀ m ∈ before, g.Has m) ∧ ¬ g.Has n ∧
        e = .noName n := by
    rw [Fallible.mapM_eq_error_iff]
    simp only [number_eq_error_iff hg, number_eq_ok_iff hg, Has]
  rw [← hfirst]
  cases hs : names.mapM g.number with
  | error e' =>
    have hp : g.propagate names testPrefix = .error e' := by
      simp only [propagate, hs]
      rfl
    simp only [hp, Except.error.injEq]
  | ok seeds =>
    obtain ⟨p, hp, _⟩ := exists_propagate hg names testPrefix fun n hn =>
      (Fallible.exists_of_mapM hs hn).imp fun _ h => (number_eq_ok_iff hg).1 h.2
    rw [hp]
    simp

/-- Asynchrony spreads from seeds that are known to exactly the functions that lead to one of them,
whatever cycles the graph has and however often and in which order the seeds are named. -/
theorem propagate_of_built (hg : g.Built) (names : List String) (testPrefix : String) :
    (∀ e, g.propagate names testPrefix = .error e ↔
      ∃ before n after, names = before ++ n :: after ∧ (∀ m ∈ before, g.Has m) ∧ ¬ g.Has n ∧
        e = .noName n) ∧
    ((∀ n ∈ names, g.Has n) → ∃ p, g.propagate names testPrefix = .ok p ∧
      g.Plans names testPrefix p ∧
      (∀ S : String → Prop, (∀ n ∈ names, S n) → (∀ n m, g.Calling n m → S m → S n) →
        ∀ n ∈ p.functions, S n) ∧
      (∀ k ∈ p.calls, k.caller ∈ p.functions) ∧
      ∀ names', (∀ n, n ∈ names' ↔ n ∈ names) → g.propagate names' testPrefix = .ok p) := by
  have hc := hg.consistent
  refine ⟨fun e => propagate_eq_error_iff hc, fun hnames => ?_⟩
  obtain ⟨p, hp, hplans⟩ := exists_propagate hc names testPrefix hnames
  refine ⟨p, hp, hplans, fun S hseed hcall n hn => hplans.least hseed hcall hn,
    fun k hk => hplans.caller_mem hk, fun names' hsame => ?_⟩
  obtain ⟨q, hq, hplans'⟩ := exists_propagate hc names' testPrefix fun n hn =>
    hnames n ((hsame n).1 hn)
  rw [hq, hplans.eq hplans' hsame]

/-- Two functions that call each other, one of them from two places, and a test that calls one of
them. -/
def ring : CallGraph :=
  let g := ((∅ : CallGraph).addFunction "app.fetch" ⟨"app.py"⟩ 8).2
  let g := (g.addFunction "app.run" ⟨"app.py"⟩ 1).2
  let g := (g.addFunction "tests.test_run" ⟨"tests.py"⟩ 3).2
  [⟨1, 0, "fetch", 2⟩, ⟨0, 1, "run", 9⟩, ⟨1, 0, "fetch", 5⟩, ⟨2, 1, "run", 4⟩].foldl append g

theorem ring_built : ring.Built := by
  have h0 := Built.empty.addFunction "app.fetch" ⟨"app.py"⟩ 8
  have h1 := (h0.addFunction "app.run" ⟨"app.py"⟩ 1).addFunction "tests.test_run" ⟨"tests.py"⟩ 3
  have h2 := h1.addCall (c := ⟨1, 0, "fetch", 2⟩) rfl
  have h3 := h2.addCall (c := ⟨0, 1, "run", 9⟩) rfl
  have h4 := h3.addCall (c := ⟨1, 0, "fetch", 5⟩) rfl
  exact h4.addCall (c := ⟨2, 1, "run", 4⟩) rfl

theorem propagate_ring : ring.Built ∧ (∀ n ∈ ["app.fetch", "app.fetch"], ring.Has n) ∧
    ∃ p, ring.propagate ["app.fetch", "app.fetch"] "test" = .ok p ∧
      p.functions.toList = ["app.fetch", "app.run", "tests.test_run"] ∧
      p.tests.toList = ["tests.test_run"] ∧ ring.Plans ["app.fetch", "app.fetch"] "test" p := by
  have hnames : ∀ n ∈ ["app.fetch", "app.fetch"], ring.Has n := by
    intro n hn
    have hn : n = "app.fetch" := by simpa using hn
    exact ⟨0, by rw [hn]; rfl⟩
  obtain ⟨p, hp, hplans, _⟩ :=
    (propagate_of_built ring_built ["app.fetch", "app.fetch"] "test").2 hnames
  have hfunctions : (ring.propagate ["app.fetch", "app.fetch"] "test").map
      (fun p => (p.functions.toList,
      p.tests.toList)) = .ok (["app.fetch", "app.run", "tests.test_run"], ["tests.test_run"]) :=
    toOption_eq_some (by decide +kernel)
  rw [hp] at hfunctions
  simp only [Except.map, Except.ok.injEq, Prod.mk.injEq] at hfunctions
  exact ⟨ring_built, hnames, p, hp, hfunctions.1, hfunctions.2, hplans⟩

end CallGraph

end AsyncSpread
