/-!
Where the members of a list stand that belong to a number.

The places of each number are kept in the order of their coming, so that whoever asks for the
members of a number does not go through the list.
-/

namespace AsyncSpread.Calls

/-- Numbers with their places. -/
structure Adjacency where
  rows : List (Nat × List Nat)
deriving DecidableEq, Repr

namespace Adjacency

variable {α : Type}

def empty : Adjacency := ⟨[]⟩

instance : EmptyCollection Adjacency := ⟨empty⟩

def places (a : Adjacency) (id : Nat) : List Nat := (a.rows.lookup id).getD []

def pushRow (id place : Nat) : List (Nat × List Nat) → List (Nat × List Nat)
  | [] => [(id, [place])]
  | (i, places) :: rest =>
    if id = i then (i, places ++ [place]) :: rest else (i, places) :: pushRow id place rest

def push (a : Adjacency) (id place : Nat) : Adjacency := ⟨pushRow id place a.rows⟩

/-- The places of all members of a list, each with the number of its member. -/
def ofList (number : α → Nat) (l : List α) : Adjacency :=
  l.zipIdx.foldl (fun a (x, place) => a.push (number x) place) ∅

@[simp] theorem places_empty (id : Nat) : (∅ : Adjacency).places id = [] := rfl

theorem places_push (a : Adjacency) (id place j : Nat) :
    (a.push id place).places j = a.places j ++ if id = j then [place] else [] := by
  show ((pushRow id place a.rows).lookup j).getD [] = (a.rows.lookup j).getD [] ++ _
  induction a.rows with
  | nil =>
    by_cases h : id = j
    · simp [pushRow, h]
    · have hj : (j == id) = false := beq_eq_false_iff_ne.2 fun e => h e.symm
      simp [pushRow, List.lookup_cons, h, hj]
  | cons row rows ih =>
    obtain ⟨i, ps⟩ := row
    rw [pushRow]
    by_cases hi : id = i
    · subst hi
      rw [if_pos rfl]
      by_cases h : id = j
      · simp [h]
      · have hj : (j == id) = false := beq_eq_false_iff_ne.2 fun e => h e.symm
        simp [List.lookup_cons, h, hj]
    · rw [if_neg hi]
      by_cases hj : j = i
      · have h : ¬ id = j := fun e => hi (e.trans hj)
        simp [hj, hi]
      · have hb : (j == i) = false := beq_eq_false_iff_ne.2 hj
        simp only [List.lookup_cons, hb]
        exact ih

theorem ofList_append_singleton (number : α → Nat) (l : List α) (x : α) :
    ofList number (l ++ [x]) = (ofList number l).push (number x) l.length := by
  simp [ofList, List.zipIdx_append]

end Adjacency

end AsyncSpread.Calls
