import AsyncSpread.Proofs.Python.Spans
import AsyncSpread.Python.Tree

/-!
How the nodes of a tree lie in the text.

A node spans its children, and these lie in a row (`Node.Nested`).  Of two nodes of such a tree one
is inside the other, or the first one stops before the second begins (`Node.Nested.pairwise_all`).
-/

namespace AsyncSpread.Python

namespace Node

def span (n : Node) : Pos × Pos := (n.start, n.stop)

mutual

/-- A node and all nodes below it, in the order in which they begin; of those that begin together
the outer one comes first. -/
def all : Node → List Node
  | .mk k p q ns => .mk k p q ns :: allOf ns

def allOf : List Node → List Node
  | [] => []
  | n :: ns => all n ++ allOf ns

end

/-- The nodes below a node. -/
def inner (n : Node) : List Node := allOf n.children

theorem all_eq (n : Node) : n.all = n :: n.inner := by
  cases n
  rfl

theorem mem_all_self (n : Node) : n ∈ n.all := by
  rw [all_eq]
  exact List.mem_cons_self

theorem mem_all_of_mem_inner {n x : Node} (h : x ∈ n.inner) : x ∈ n.all := by
  rw [all_eq]
  exact List.mem_cons_of_mem _ h

@[simp] theorem allOf_nil : allOf [] = [] := rfl

@[simp] theorem allOf_cons (n : Node) (ns : List Node) : allOf (n :: ns) = n.all ++ allOf ns := rfl

theorem allOf_append (ns ms : List Node) : allOf (ns ++ ms) = allOf ns ++ allOf ms := by
  induction ns with
  | nil => rfl
  | cons n ns ih => rw [List.cons_append, allOf_cons, allOf_cons, ih, List.append_assoc]

theorem mem_allOf {x : Node} {ns : List Node} : x ∈ allOf ns ↔ ∃ n ∈ ns, x ∈ n.all := by
  induction ns with
  | nil => simp
  | cons n ns ih => simp [ih]

mutual

/-- What is below a node below another one is below that one. -/
theorem mem_all_trans {n x y : Node} (hx : x ∈ n.all) (hy : y ∈ x.inner) : y ∈ n.all := by
  obtain ⟨k, p, q, ns⟩ := n
  rw [all_eq] at hx ⊢
  rcases List.mem_cons.1 hx with rfl | hx
  · exact List.mem_cons_of_mem _ hy
  · exact List.mem_cons_of_mem _ (mem_allOf_trans hx hy)

theorem mem_allOf_trans {ns : List Node} {x y : Node} (hx : x ∈ allOf ns) (hy : y ∈ x.inner) :
    y ∈ allOf ns := by
  cases ns with
  | nil => cases hx
  | cons n ns =>
    rcases List.mem_append.1 hx with hx | hx
    · exact List.mem_append_left _ (mem_all_trans hx hy)
    · exact List.mem_append_right _ (mem_allOf_trans hx hy)

end

theorem mem_all_of_mem_children {n x y : Node} (hx : x ∈ n.children) (hy : y ∈ x.all) : y ∈ n.all :=
  mem_all_of_mem_inner (mem_allOf.2 ⟨x, hx, hy⟩)

theorem mem_all_of_mem_all {n x y : Node} (hx : x ∈ n.all) (hy : y ∈ x.all) : y ∈ n.all := by
  rw [all_eq] at hy
  rcases List.mem_cons.1 hy with rfl | hy
  · exact hx
  · exact mem_all_trans hx hy

theorem mem_all_of_child {n x y : Node} (hx : x ∈ n.all) (hy : y ∈ x.children) : y ∈ n.all :=
  mem_all_trans hx (mem_allOf.2 ⟨y, hy, mem_all_self y⟩)

/-- The children of a node lie in a row between its start and its stop, and so below them. -/
inductive Nested (source : List Char) : Node → Prop
  | mk {k : Kind} {p q : Pos} {ns : List Node} (laid : Laid source p (ns.map span) q)
      (all : ∀ n ∈ ns, Nested source n) : Nested source (.mk k p q ns)

namespace Nested

variable {source : List Char} {n x : Node}

theorem laid (h : n.Nested source) : Laid source n.start (n.children.map span) n.stop := by
  cases h with
  | mk laid => exact laid

theorem span (h : n.Nested source) : Span source n.start n.stop := h.laid.span

theorem child (h : n.Nested source) (hx : x ∈ n.children) : x.Nested source := by
  cases h with
  | mk _ all => exact all x hx

theorem of_mem_all (h : n.Nested source) (hx : x ∈ n.all) :
    x.Nested source ∧ Span source n.start x.start ∧ Span source x.stop n.stop := by
  induction h with
  | @mk k p q ns laid all ih =>
    have hn : Nested source (.mk k p q ns) := .mk laid all
    rw [all_eq] at hx
    rcases List.mem_cons.1 hx with rfl | hx
    · exact ⟨hn, .refl hn.span.left_in, .refl hn.span.right_in⟩
    · obtain ⟨m, hm, hx⟩ := mem_allOf.1 hx
      obtain ⟨h1, h2, h3⟩ := laid.of_mem (List.mem_map_of_mem hm)
      obtain ⟨hx, h4, h5⟩ := ih m hm hx
      exact ⟨hx, h1.trans h4, h5.trans h3⟩

theorem of_mem_inner (h : n.Nested source) (hx : x ∈ n.inner) :
    x.Nested source ∧ Span source n.start x.start ∧ Span source x.stop n.stop :=
  h.of_mem_all (mem_all_of_mem_inner hx)

end Nested

/-- Of two nodes that lie in a tree, the second is below the first or behind it. -/
def Before (x y : Node) : Prop := y ∈ x.inner ∨ x.stop.byte ≤ y.start.byte

theorem pairwise_allOf {source : List Char} {p q : Pos} {ns : List Node}
    (hl : Laid source p (ns.map span) q) (hn : ∀ n ∈ ns, n.Nested source)
    (h : ∀ n ∈ ns, n.all.Pairwise Before) : (allOf ns).Pairwise Before := by
  induction ns generalizing p with
  | nil => exact .nil
  | cons n ns ih =>
    obtain ⟨h1, h2, h3⟩ := hl
    have hns : ∀ m ∈ ns, m.Nested source := fun m hm => hn m (List.mem_cons_of_mem _ hm)
    refine List.pairwise_append.2 ⟨h n List.mem_cons_self,
      ih h3 hns fun m hm => h m (List.mem_cons_of_mem _ hm), fun x hx y hy => .inr ?_⟩
    obtain ⟨m, hm, hy⟩ := mem_allOf.1 hy
    obtain ⟨-, -, hx⟩ := (hn n List.mem_cons_self).of_mem_all hx
    obtain ⟨-, hy, -⟩ := (hns m hm).of_mem_all hy
    obtain ⟨hm, -, -⟩ := h3.of_mem (List.mem_map_of_mem hm)
    exact (hx.trans (hm.trans hy)).byte_le

theorem Nested.pairwise_all {source : List Char} {n : Node} (h : n.Nested source) :
    n.all.Pairwise Before := by
  induction h with
  | mk laid all ih =>
    rw [all_eq]
    exact .cons (fun x hx => .inl hx) (pairwise_allOf laid all ih)

end Node

/-- Of two members of a list in order one comes before the other, or they are the same. -/
theorem pairwise_cases {α : Type} {R : α → α → Prop} {l : List α} (h : l.Pairwise R) {x y : α}
    (hx : x ∈ l) (hy : y ∈ l) : x = y ∨ R x y ∨ R y x := by
  induction h with
  | nil => cases hx
  | cons ha _ ih =>
    rcases List.mem_cons.1 hx with hxa | hxl
    · rcases List.mem_cons.1 hy with hya | hyl
      · exact .inl (hxa.trans hya.symm)
      · rw [hxa]
        exact .inr (.inl (ha _ hyl))
    · rcases List.mem_cons.1 hy with hya | hyl
      · rw [hya]
        exact .inr (.inr (ha _ hxl))
      · exact ih hxl hyl

end AsyncSpread.Python
