import AsyncSpread.Proofs.Plan.Made
import AsyncSpread.Proofs.Rewrite.Counted

/-!
Rewriting under a plan that plans nothing.

Nothing is pending then, so no function that is left is converted or marked, and no call is planned.
Without tests the import of the marker is not needed either, and this is where the walk relies on
the tests of a plan being among its functions: a plan with tests alone counts as empty and yet adds
the import.  A plan that operations lead to has no tests alone (`Made.testsPlanned`), so it leaves
every text as it is or fails (`testsPlanned_and_idle_of_made`).
-/

namespace AsyncSpread

open Python

namespace Rewrite

variable {t : Task} {p p' : Progress} {root : Node}

/-- Nothing is pending and nothing has been inserted. -/
structure Progress.Idle (p : Progress) : Prop where
  pending : p.pending = ∅
  edits : p.edits = []

theorem leaveFunction_of_pending (h : p.pending = ∅) (s : Site) (d : Node) (name : Option String) :
    leaveFunction t s d name p = p := by
  unfold leaveFunction
  cases name with
  | none => rfl
  | some name =>
    have hno : p.pending.contains name = false := by
      rw [h]
      rfl
    simp only [hno, Bool.not_false, if_true]

theorem Progress.Idle.step (hplan : t.plan = ∅) {e : Event} (hp : p.Idle)
    (h : t.step p e = .ok p') : p'.Idle := by
  rcases Task.step_cases h with ⟨pl, hw, -⟩ | ⟨imported, rfl⟩ | ⟨pl, -, -, rfl⟩ | rfl
  · obtain ⟨-, caller, literal, -, -, hcall⟩ := Task.wraps_iff.1 hw
    rw [hplan] at hcall
    cases hcall
  · exact ⟨hp.pending, hp.edits⟩
  · rw [leaveFunction_of_pending hp.pending]
    exact hp
  · exact hp

end Rewrite

open Rewrite

namespace Plan

def elsewhere : Plan :=
  ((Plan.empty.addTest "shop.test_open").addCall "shop.test_open" "open").inModule "till"

def opening : Task where
  source := "def test_open():\n    open()\n".toList
  index := ⟨"shop", [⟨"shop.test_open", .functionBody, 1, 2⟩]⟩
  plan := elsewhere
  config := .standard

end Plan

end AsyncSpread
