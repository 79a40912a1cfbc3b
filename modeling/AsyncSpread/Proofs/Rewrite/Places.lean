import AsyncSpread.Proofs.Rewrite.Gathered

/-!
The places of a tree, listed by recursion on the tree alone.

The walk comes to them in this order (`met_eventsOf`), so what is said of it can be said without the
walk.
-/

namespace AsyncSpread.Rewrite

open Python

mutual

def placesIn (around : List Node) (first : Bool) : Node → List Place
  | .mk k p q ns => ⟨.mk k p q ns, around, first⟩ :: placesInAll (.mk k p q ns :: around) true ns

def placesInAll (around : List Node) (first : Bool) : List Node → List Place
  | [] => []
  | n :: ns => placesIn around first n ++ placesInAll around false ns

end

def places (root : Node) : List Place := placesIn [] false root

theorem met_append (es fs : List Event) : Task.met (es ++ fs) = Task.met es ++ Task.met fs := by
  induction es with
  | nil => rfl
  | cons e es ih => cases e <;> simp [Task.met, ih]

mutual

theorem met_eventsOf (around : List Node) (first : Bool) (n : Node) :
    Task.met (eventsOf around first n) = placesIn around first n := by
  obtain ⟨k, p, q, ns⟩ := n
  rw [eventsOf, Task.met, met_append, met_eventsOfAll, placesIn]
  exact congrArg _ (List.append_nil _)

theorem met_eventsOfAll (around : List Node) (first : Bool) (ns : List Node) :
    Task.met (eventsOfAll around first ns) = placesInAll around first ns := by
  cases ns with
  | nil => rfl
  | cons n ns =>
    rw [eventsOfAll, met_append, met_eventsOf around first n,
      met_eventsOfAll around false ns, placesInAll]

end

end AsyncSpread.Rewrite
