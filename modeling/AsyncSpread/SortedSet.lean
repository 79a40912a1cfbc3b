/-!
Finite sets of ordered things, kept as ascending lists.  The order is part of the type, so two sets
with the same members are the same value and a set has one way to be listed.
-/

namespace AsyncSpread

structure SortedSet (α : Type) [Ord α] where
  toList : List α
  ascending : toList.Pairwise (compare · · = .lt)

namespace SortedSet

variable {α : Type} [Ord α]

@[ext] theorem ext {s t : SortedSet α} (h : s.toList = t.toList) : s = t := by
  cases s; cases t; simp_all

instance [DecidableEq α] : DecidableEq (SortedSet α) := fun s t =>
  decidable_of_iff (s.toList = t.toList) ⟨ext, fun h => h ▸ rfl⟩

instance : Membership α (SortedSet α) := ⟨fun s a => a ∈ s.toList⟩

@[simp] theorem mem_toList {s : SortedSet α} {a : α} : a ∈ s.toList ↔ a ∈ s := Iff.rfl

def empty : SortedSet α := ⟨[], .nil⟩

instance : EmptyCollection (SortedSet α) := ⟨empty⟩

instance : Inhabited (SortedSet α) := ⟨empty⟩

@[simp] theorem toList_empty : (∅ : SortedSet α).toList = [] := rfl

@[simp] theorem not_mem_empty {a : α} : ¬ a ∈ (∅ : SortedSet α) := List.not_mem_nil

/-- Puts an element at its place in an ascending list, unless it is there. -/
def insertList (a : α) : List α → List α
  | [] => [a]
  | b :: l =>
    match compare a b with
    | .lt => a :: b :: l
    | .eq => b :: l
    | .gt => b :: insertList a l

section

variable [Std.TransOrd α] [Std.LawfulEqOrd α]

omit [Std.TransOrd α] in
theorem mem_insertList {a x : α} {l : List α} : x ∈ insertList a l ↔ x = a ∨ x ∈ l := by
  induction l with
  | nil => simp [insertList]
  | cons b l ih =>
    unfold insertList
    split
    · simp
    · rename_i h
      rw [Std.LawfulEqOrd.eq_of_compare h]
      simp
    · simp only [List.mem_cons, ih]
      grind

theorem insertList_ascending {a : α} {l : List α} (h : l.Pairwise (compare · · = .lt)) :
    (insertList a l).Pairwise (compare · · = .lt) := by
  induction l with
  | nil => simp [insertList]
  | cons b l ih =>
    rw [List.pairwise_cons] at h
    unfold insertList
    split
    · rename_i hab
      refine List.pairwise_cons.2 ⟨fun x hx => ?_, List.pairwise_cons.2 h⟩
      rcases List.mem_cons.1 hx with rfl | hx
      · exact hab
      · exact Std.TransCmp.lt_trans hab (h.1 x hx)
    · exact List.pairwise_cons.2 h
    · rename_i hab
      refine List.pairwise_cons.2 ⟨fun x hx => ?_, ih h.2⟩
      rcases mem_insertList.1 hx with rfl | hx
      · exact Std.OrientedCmp.lt_of_gt hab
      · exact h.1 x hx

def insert (s : SortedSet α) (a : α) : SortedSet α :=
  ⟨insertList a s.toList, insertList_ascending s.ascending⟩

@[simp] theorem mem_insert {s : SortedSet α} {a x : α} : x ∈ s.insert a ↔ x = a ∨ x ∈ s :=
  mem_insertList

def insertMany (s : SortedSet α) (l : List α) : SortedSet α := l.foldl insert s

@[simp] theorem mem_insertMany {s : SortedSet α} {l : List α} {x : α} :
    x ∈ s.insertMany l ↔ x ∈ l ∨ x ∈ s := by
  induction l generalizing s with
  | nil => simp [insertMany]
  | cons a l ih =>
    have : s.insertMany (a :: l) = (s.insert a).insertMany l := rfl
    rw [this, ih]
    simp only [mem_insert, List.mem_cons]
    grind

def ofList (l : List α) : SortedSet α := empty.insertMany l

@[simp] theorem mem_ofList {l : List α} {x : α} : x ∈ ofList l ↔ x ∈ l := by
  have h : ¬ x ∈ (empty : SortedSet α) := List.not_mem_nil
  simp [ofList, h]

def union (s t : SortedSet α) : SortedSet α := s.insertMany t.toList

@[simp] theorem mem_union {s t : SortedSet α} {x : α} : x ∈ s.union t ↔ x ∈ s ∨ x ∈ t := by
  simp [union, or_comm]

/-- Sets with the same members are equal, since an ascending list is determined by its members. -/
theorem eq_of_mem_iff {s t : SortedSet α} (h : ∀ x, x ∈ s ↔ x ∈ t) : s = t := by
  have key : ∀ {l m : List α}, l.Pairwise (compare · · = .lt) → m.Pairwise (compare · · = .lt) →
      (∀ x, x ∈ l ↔ x ∈ m) → l = m := by
    intro l
    induction l with
    | nil =>
      intro m _ _ h
      cases m with
      | nil => rfl
      | cons b m => exact absurd ((h b).2 (List.mem_cons_self ..)) List.not_mem_nil
    | cons a l ih =>
      intro m hl hm h
      cases m with
      | nil => exact absurd ((h a).1 (List.mem_cons_self ..)) List.not_mem_nil
      | cons b m =>
        rw [List.pairwise_cons] at hl hm
        have irrefl : ∀ y : α, ¬ compare y y = .lt := fun y => by
          simp [Std.ReflCmp.compare_self]
        have asymm : ∀ {y z : α}, compare y z = .lt → ¬ compare z y = .lt := fun h h' =>
          irrefl _ (Std.TransCmp.lt_trans h h')
        have hab : a = b := by
          rcases List.mem_cons.1 ((h a).1 (List.mem_cons_self ..)) with e | ha
          · exact e
          · rcases List.mem_cons.1 ((h b).2 (List.mem_cons_self ..)) with e | hb
            · exact e.symm
            · exact absurd (hl.1 b hb) (asymm (hm.1 a ha))
        subst hab
        congr 1
        refine ih hl.2 hm.2 fun x => ⟨fun hx => ?_, fun hx => ?_⟩
        · rcases List.mem_cons.1 ((h x).1 (List.mem_cons_of_mem _ hx)) with e | hx'
          · exact absurd (hl.1 x hx) (e ▸ irrefl x)
          · exact hx'
        · rcases List.mem_cons.1 ((h x).2 (List.mem_cons_of_mem _ hx)) with e | hx'
          · exact absurd (hm.1 x hx) (e ▸ irrefl x)
          · exact hx'
  exact ext (key s.ascending t.ascending h)

end

def filter (s : SortedSet α) (p : α → Bool) : SortedSet α :=
  ⟨s.toList.filter p, s.ascending.filter p⟩

@[simp] theorem toList_filter {s : SortedSet α} {p : α → Bool} :
    (s.filter p).toList = s.toList.filter p := rfl

@[simp] theorem mem_filter {s : SortedSet α} {p : α → Bool} {x : α} :
    x ∈ s.filter p ↔ x ∈ s ∧ p x := List.mem_filter

def contains [BEq α] (s : SortedSet α) (a : α) : Bool := s.toList.contains a

@[simp] theorem contains_iff_mem [BEq α] [LawfulBEq α] {s : SortedSet α} {a : α} :
    s.contains a = true ↔ a ∈ s := List.contains_iff_mem

def erase [BEq α] (s : SortedSet α) (a : α) : SortedSet α := s.filter (· != a)

@[simp] theorem mem_erase [BEq α] [LawfulBEq α] {s : SortedSet α} {a x : α} :
    x ∈ s.erase a ↔ x ∈ s ∧ x ≠ a := by
  simp [erase]

def isEmpty (s : SortedSet α) : Bool := s.toList.isEmpty

theorem isEmpty_iff {s : SortedSet α} : s.isEmpty = true ↔ s = ∅ := by
  rw [isEmpty, List.isEmpty_iff]
  exact ⟨fun h => ext h, fun h => congrArg toList h⟩

def size (s : SortedSet α) : Nat := s.toList.length

end SortedSet

end AsyncSpread
