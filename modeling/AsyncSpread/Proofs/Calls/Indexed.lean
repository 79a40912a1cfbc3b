import Mathlib.Data.List.Basic
import AsyncSpread.Calls.Graph

/-!
What a graph keeps beside its calls follows from them.

The set of the calls and the places of each function's calls grow with every call that comes, and
each time they are what making them anew from the list would give (`CallGraph.Indexed.append`).  So
the calls that are looked up for a function are those of the list that belong to it
(`CallGraph.Indexed.callsFrom`, `CallGraph.Indexed.callsTo`).
-/

namespace AsyncSpread

open Calls

namespace Calls.Adjacency

variable {α : Type}

/-- Going through the members of a list, each number gets the places of its members. -/
theorem places_foldl (number : α → Nat) (l : List α) (n : Nat) (a : Adjacency) (id : Nat) :
    ((l.zipIdx n).foldl (fun a (x, place) => a.push (number x) place) a).places id =
      a.places id ++ ((l.zipIdx n).filter fun (x, _) => number x == id).map Prod.snd := by
  induction l generalizing n a with
  | nil => simp
  | cons x l ih =>
    rw [List.zipIdx_cons, List.foldl_cons, ih, places_push, List.append_assoc]
    by_cases h : number x = id
    · simp [h]
    · simp [h]

theorem places_ofList (number : α → Nat) (l : List α) (id : Nat) :
    (ofList number l).places id = (l.zipIdx.filter fun (x, _) => number x == id).map Prod.snd :=
  places_foldl number l 0 ∅ id

/-- What stands at the places of a number is what belongs to it. -/
theorem filterMap_places (number : α → Nat) (l : List α) (id : Nat) :
    ((ofList number l).places id).filterMap (fun place => l[place]?) = l.filter fun x =>
      number x == id := by
  have hget : ∀ z ∈ l.zipIdx.filter (fun (x, _) => number x == id),
      l[z.2]? = some z.1 := fun z hz =>
    List.mk_mem_zipIdx_iff_getElem?.1 (List.mem_filter.1 hz).1
  calc ((ofList number l).places id).filterMap (fun place => l[place]?)
      = (l.zipIdx.filter fun (x, _) => number x == id).filterMap fun z => l[z.2]? := by
        rw [places_ofList, List.filterMap_map]; rfl
    _ = (l.zipIdx.filter fun (x, _) => number x == id).filterMap fun z => some z.1 :=
      List.filterMap_congr hget
    _ = (l.zipIdx.map Prod.fst).filter fun x => number x == id := by
        rw [List.filterMap_eq_map', List.filter_map]; rfl
    _ = l.filter fun x => number x == id := by rw [List.zipIdx_map_fst]

end Calls.Adjacency

namespace CallGraph

/-- What is kept beside the calls is what can be made from them. -/
structure Indexed (g : CallGraph) : Prop where
  seen : g.seen = .ofList g.calls
  outgoing : g.outgoing = .ofList Call.caller g.calls
  incoming : g.incoming = .ofList Call.callee g.calls

theorem indexed_empty : Indexed ∅ := ⟨rfl, rfl, rfl⟩

variable {g : CallGraph}

theorem Indexed.mem_seen (h : g.Indexed) {c : Call} : c ∈ g.seen ↔ c ∈ g.calls := by
  rw [h.seen, SortedSet.mem_ofList]

theorem Indexed.append (h : g.Indexed) (c : Call) : (g.append c).Indexed where
  seen := SortedSet.eq_of_mem_iff fun d => by
    show d ∈ g.seen.insert c ↔ d ∈ SortedSet.ofList (g.calls ++ [c])
    simp only [SortedSet.mem_insert, SortedSet.mem_ofList, List.mem_append,
      List.mem_singleton, h.mem_seen]
    exact or_comm
  outgoing := by
    show g.outgoing.push c.caller g.calls.length = _
    rw [h.outgoing]
    exact (Adjacency.ofList_append_singleton _ _ _).symm
  incoming := by
    show g.incoming.push c.callee g.calls.length = _
    rw [h.incoming]
    exact (Adjacency.ofList_append_singleton _ _ _).symm

theorem Indexed.callsFrom (h : g.Indexed) (id : Nat) :
    g.callsFrom id = g.calls.filter fun c => c.caller == id := by
  rw [CallGraph.callsFrom, h.outgoing]
  exact Adjacency.filterMap_places _ _ _

theorem Indexed.callsTo (h : g.Indexed) (id : Nat) :
    g.callsTo id = g.calls.filter fun c => c.callee == id := by
  rw [CallGraph.callsTo, h.incoming]
  exact Adjacency.filterMap_places _ _ _

end CallGraph

end AsyncSpread
