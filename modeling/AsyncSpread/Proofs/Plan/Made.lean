import AsyncSpread.Calls.Spread
import AsyncSpread.Proofs.Fallible
import AsyncSpread.Proofs.Project.Parts

/-!
Plans that come from operations.

A plan is built up name by name, selected from a call graph, spread from seeds, merged from two,
narrowed to a module, or a part of a plan that was split.  Functions and tests are kept in sets of
their own, so that the tests are among the functions is something that each operation has to see to
(`Made.testsPlanned`).
-/

namespace AsyncSpread.Plan

def TestsPlanned (p : Plan) : Prop := ∀ name ∈ p.tests, name ∈ p.functions

variable {p q : Plan}

theorem TestsPlanned.addFunction (h : p.TestsPlanned) (name : String) :
    (p.addFunction name).TestsPlanned :=
  fun n hn => SortedSet.mem_insert.2 (.inr (h n hn))

theorem TestsPlanned.addTest (h : p.TestsPlanned) (name : String) :
    (p.addTest name).TestsPlanned := by
  intro n hn
  rcases SortedSet.mem_insert.1 hn with rfl | hn
  · exact SortedSet.mem_insert.2 (.inl rfl)
  · exact SortedSet.mem_insert.2 (.inr (h n hn))

theorem TestsPlanned.merge (hp : p.TestsPlanned) (hq : q.TestsPlanned) :
    (p.merge q).TestsPlanned := by
  intro n hn
  rcases SortedSet.mem_union.1 hn with hn | hn
  · exact SortedSet.mem_union.2 (.inl (hp n hn))
  · exact SortedSet.mem_union.2 (.inr (hq n hn))

theorem TestsPlanned.restrict (h : p.TestsPlanned) (keep : String → Bool) :
    (p.restrict keep).TestsPlanned := by
  intro n hn
  obtain ⟨hn, hkeep⟩ := SortedSet.mem_filter.1 hn
  exact SortedSet.mem_filter.2 ⟨h n hn, hkeep⟩

/-- A plan that makes nothing asynchronous and awaits nothing has no tests either. -/
theorem TestsPlanned.eq_empty (h : p.TestsPlanned) (hempty : p.isEmpty = true) : p = ∅ := by
  rw [isEmpty, Bool.and_eq_true, SortedSet.isEmpty_iff, SortedSet.isEmpty_iff] at hempty
  have hno (n : String) : n ∉ p.functions := by
    rw [hempty.1]
    exact SortedSet.not_mem_empty
  refine Plan.eq_empty hno (fun n hn => hno n (h n hn)) fun k => ?_
  rw [hempty.2]
  exact SortedSet.not_mem_empty

end AsyncSpread.Plan
