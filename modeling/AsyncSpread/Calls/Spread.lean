import AsyncSpread.Calls.Graph

/-!
Spreading asynchrony: a function that calls an asynchronous one has to become asynchronous itself.

From some seeds on, everything that reaches a seed by calls is planned, and every call of something
planned is awaited. The search goes backwards along the calls.  Whoever is reached for the first
time joins a queue, so the search ends when every function that can be reached has been looked up
once (`Search.left_meetAll_le`).
-/

namespace AsyncSpread

open Calls

namespace CallGraph

/-- `g.Reaches seeds id` says that calls lead from a function to one of the seeds. -/
inductive Reaches (g : CallGraph) (seeds : List Nat) : Nat → Prop where
  | seed {id : Nat} (h : id ∈ seeds) : Reaches g seeds id
  | caller {c : Call} (h : c ∈ g.calls) (r : Reaches g seeds c.callee) : Reaches g seeds c.caller

end CallGraph

/-- A search for callers: the functions that have been reached, and those of them whose callers have
not been looked up yet, in the order of their coming. -/
structure Search where
  reached : SortedSet Nat
  queue : List Nat

namespace Search

def start : Search := ⟨∅, []⟩

/-- Reaches a function.  One that is new has to wait for its callers to be looked up. -/
def meet (s : Search) (id : Nat) : Search :=
  if s.reached.contains id then s else ⟨s.reached.insert id, s.queue ++ [id]⟩

def meetAll (s : Search) (ids : List Nat) : Search := ids.foldl meet s

@[simp] theorem meetAll_nil (s : Search) : s.meetAll [] = s := rfl

@[simp] theorem meetAll_cons (s : Search) (id : Nat) (ids : List Nat) :
    s.meetAll (id :: ids) = (s.meet id).meetAll ids := rfl

/-- How many of some calls have a caller that has not been reached. -/
def missing (s : Search) (calls : List Call) : Nat :=
  (calls.filter fun c => !s.reached.contains c.caller).length

/-- What a search can still do: reach a caller, or look up who waits. -/
def left (s : Search) (calls : List Call) : Nat := s.missing calls + s.queue.length

theorem missing_insert_lt (s : Search) {id : Nat} (hs : id ∉ s.reached) (queue : List Nat)
    {calls : List Call} (h : id ∈ calls.map Call.caller) :
    missing ⟨s.reached.insert id, queue⟩ calls < s.missing calls := by
  obtain ⟨c, hc, rfl⟩ := List.mem_map.1 h
  simp only [missing, ← List.countP_eq_length_filter]
  -- Whoever is missing afterwards was missing before, and the caller of `c` is missing no more.
  have hsub : ∀ l : List Call, l.countP (fun d => !(s.reached.insert c.caller).contains d.caller) ≤
      l.countP fun d => !s.reached.contains d.caller := by
    intro l
    refine List.countP_mono_left fun d _ hd => ?_
    simp only [Bool.not_eq_true', ← Bool.not_eq_true, SortedSet.contains_iff_mem,
      SortedSet.mem_insert, not_or] at hd ⊢
    exact hd.2
  obtain ⟨before, after, rfl⟩ := List.append_of_mem hc
  have hnew : (!(s.reached.insert c.caller).contains c.caller) = false := by simp
  have hold : (!s.reached.contains c.caller) = true := by
    simp only [Bool.not_eq_true', ← Bool.not_eq_true, SortedSet.contains_iff_mem]
    exact hs
  have hb := hsub before
  have ha := hsub after
  simp only [List.countP_append, List.countP_cons, hnew, hold, if_true, if_false,
    Bool.false_eq_true]
  omega

theorem left_meet_le (s : Search) {id : Nat} {calls : List Call} (h : id ∈ calls.map Call.caller) :
    (s.meet id).left calls ≤ s.left calls := by
  unfold meet
  split
  · exact Nat.le_refl _
  · rename_i hs
    have hlt := s.missing_insert_lt (fun hm => hs (SortedSet.contains_iff_mem.2 hm))
      (s.queue ++ [id]) h
    simp only [left, List.length_append, List.length_cons, List.length_nil]
    omega

/-- Reaching callers leaves no more to do, since one that begins to wait is missing no longer. -/
theorem left_meetAll_le (s : Search) {ids : List Nat} {calls : List Call}
    (h : ∀ id ∈ ids, id ∈ calls.map Call.caller) : (s.meetAll ids).left calls ≤ s.left calls := by
  induction ids generalizing s with
  | nil => exact Nat.le_refl _
  | cons id ids ih =>
    rw [meetAll_cons]
    exact Nat.le_trans (ih (s.meet id) fun i hi => h i (List.mem_cons_of_mem _ hi))
      (s.left_meet_le (h id List.mem_cons_self))

end Search

namespace CallGraph

def callersOf (g : CallGraph) (id : Nat) : List Nat := (g.callsTo id).map Call.caller

theorem mem_calls_of_mem_callersOf {g : CallGraph} {id caller : Nat} (h : caller ∈ g.callersOf id) :
    caller ∈ g.calls.map Call.caller := by
  obtain ⟨c, hc, rfl⟩ := List.mem_map.1 h
  obtain ⟨place, _, hplace⟩ := List.mem_filterMap.1 hc
  exact List.mem_map_of_mem (List.mem_of_getElem? hplace)

/-- Looks up the callers of those who wait, until nobody waits. -/
def spreadFrom (g : CallGraph) (s : Search) : SortedSet Nat :=
  match s with
  | ⟨reached, []⟩ => reached
  | ⟨reached, id :: queue⟩ => g.spreadFrom (Search.meetAll ⟨reached, queue⟩ (g.callersOf id))
termination_by s.left g.calls
decreasing_by
  have h : (Search.meetAll ⟨reached, queue⟩ (g.callersOf id)).left g.calls ≤
    Search.left ⟨reached, queue⟩ g.calls :=
    Search.left_meetAll_le _ fun _ => mem_calls_of_mem_callersOf
  simp only [Search.left, Search.missing, List.length_cons] at h ⊢
  omega

def reaching (g : CallGraph) (seeds : List Nat) : SortedSet Nat :=
  g.spreadFrom (Search.start.meetAll seeds)

end CallGraph

/-- The plan for selected functions, calls and tests of a graph. -/
def Plan.ofSelection (g : CallGraph) (functions : List Nat) (calls : List Call) (tests : List Nat) :
    Except Calls.Fault Plan := do
  let functionNames ← functions.mapM g.name
  let keys ← calls.mapM fun c => (g.name c.caller).map fun caller => (⟨caller, c.name⟩ : CallKey)
  let testNames ← tests.mapM g.name
  return ⟨SortedSet.ofList (functionNames ++ testNames), .ofList keys, .ofList testNames⟩

namespace CallGraph

/-- Whether a number is that of a test: a function whose short name has the given beginning. -/
def isTest (g : CallGraph) (beginning : String) (id : Nat) : Bool :=
  (g.function? id).any fun f => beginning.toList.isPrefixOf f.shortName.toList

def propagate (g : CallGraph) (seeds : List String) (testPrefix : String) :
    Except Calls.Fault Plan := do
  let reached := g.reaching (← seeds.mapM g.number)
  Plan.ofSelection g reached.toList (g.calls.filter fun c => reached.contains c.callee)
    (reached.toList.filter (g.isTest testPrefix))

end CallGraph

end AsyncSpread
