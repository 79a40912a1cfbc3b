import AsyncSpread.Proofs.Python.Kinds

/-!
The parts of a function.

Words and marks aside, a function is made of its type parameters, its parameters, its annotation and
its body.  No definition stands in the first three of them, nor in a lambda or a decorator
(`parted_of_parse`).
-/

namespace AsyncSpread.Python

variable {σ : Type}

/-- Whether the nodes that a rule reads are of some kinds, leaves and trivia aside.  What is read
behind a name is said by `named`. -/
def Rule.shows (kinds : List Kind) (named : σ → Bool) : Rule σ → Bool
  | .andThen r s => shows kinds named r && shows kinds named s
  | .orElse r s => shows kinds named r && shows kinds named s
  | .many r => shows kinds named r
  | .only _ r => shows kinds named r
  | .node k _ => kinds.contains k
  | .grow base tails => shows kinds named base && tails.all fun t => kinds.contains t.1
  | .extend base tails => shows kinds named base && tails.all fun t => kinds.contains t.1
  | .rule n => named n
  | _ => true

namespace Node

variable {kinds : List Kind} {n : Node}

theorem shown_of_mem_wrap {k : Kind} {p : Pos} {row : List Node} (hk : k ∈ kinds)
    (h : n ∈ wrap k p row) : n.Shown kinds := by
  rw [wrap_eq] at h
  rcases List.mem_append.1 h with h | h
  · exact .inl (List.all_eq_true.1 List.all_takeWhile n h)
  · rw [List.mem_singleton.1 h]
    exact .inr (.inr hk)

theorem shown_of_mem_trivia {ts : List Trivia} (h : n ∈ ts.map Trivia.node) : n.Shown kinds := by
  obtain ⟨t, -, rfl⟩ := List.mem_map.1 h
  exact .inl (isTrivia_node t)

end Node

/-- A rule that shows some kinds reads no other nodes, leaves and trivia aside. -/
theorem Reads.shows {g : σ → Rule σ} {r : Rule σ} {c c' : Cursor} {ns : List Node}
    {kinds : List Kind} {named : σ → Bool}
    (hg : ∀ n, named n = true → (g n).shows kinds named = true) (h : Reads g r c ns c')
    (hr : r.shows kinds named = true) : ∀ n ∈ ns, n.Shown kinds := by
  have append {ns ms : List Node} (h : ∀ n ∈ ns, n.Shown kinds) (h' : ∀ n ∈ ms, n.Shown kinds) :
      ∀ n ∈ ns ++ ms, n.Shown kinds := by
    intro n hn
    rcases List.mem_append.1 hn with hn | hn
    · exact h n hn
    · exact h' n hn
  induction h with
  | token h =>
    rcases Rule.of_taken? h with ⟨k, -, rfl⟩ | ⟨-, -, -, rfl⟩
    · refine append (fun n hn => Node.shown_of_mem_trivia hn) fun n hn => ?_
      rw [List.mem_singleton.1 hn]
      exact .inr (.inl rfl)
    · exact fun n hn => Node.shown_of_mem_trivia hn
  | nothing | «unless» _ | before _ | done => exact nofun
  | andThen _ _ ih ih' =>
    rw [Rule.shows, Bool.and_eq_true] at hr
    exact append (ih hr.1) (ih' hr.2)
  | first _ ih =>
    rw [Rule.shows, Bool.and_eq_true] at hr
    exact ih hr.1
  | second _ ih =>
    rw [Rule.shows, Bool.and_eq_true] at hr
    exact ih hr.2
  | more _ _ ih ih' => exact append (ih hr) (ih' hr)
  | node _ _ => exact fun n hn => Node.shown_of_mem_wrap (List.contains_iff_mem.1 hr) hn
  | growBase _ ih | extendBase _ ih =>
    rw [Rule.shows, Bool.and_eq_true] at hr
    exact ih hr.1
  | growTail ht _ _ _ _ | extendTail ht _ _ _ _ =>
    rw [Rule.shows, Bool.and_eq_true] at hr
    have hk := List.contains_iff_mem.1 (List.all_eq_true.1 hr.2 _ ht)
    exact fun n hn => Node.shown_of_mem_wrap hk hn
  | only _ _ ih => exact ih hr
  | rule _ ih => exact ih (hg _ hr)

/-- Which nodes a node holds. -/
structure Node.Parted (n : Node) : Prop where
  function : n.kind = .functionDefinition → ∀ c ∈ n.children, c.Shown functionParts
  plain : n.kind ∈ plainKinds → ∀ x ∈ n.inner, x.kind.scope? = none

namespace Grammar

def isFunctionPart (n : Phrase) : Bool := n = .typeExpression || n = .suite

def isParted : R → Bool
  | .node k r =>
    if k = .functionDefinition then r.shows functionParts isFunctionPart
      else !plainKinds.contains k || r.each isPure
  | .grow _ tails => tails.all fun t => t.1 ≠ .functionDefinition && !plainKinds.contains t.1
  | .extend base tails => tails.all fun t =>
      t.1 ≠ .functionDefinition &&
        (!plainKinds.contains t.1 || (base.each isPure && t.2.each isPure))
  | _ => true

theorem each_isParted (n : Phrase) : (rules n).each isParted = true := by
  cases n <;> decide

theorem shows_functionPart (n : Phrase) (h : isFunctionPart n = true) :
    (rules n).shows functionParts isFunctionPart = true := by
  cases n <;> first | decide | cases h

end Grammar

open Grammar

theorem Node.Parted.of_leaf {n : Node} (h : n.children = []) : n.Parted := by
  have hinner : n.inner = [] := by
    rw [Node.inner, h]
    rfl
  constructor
  · rw [h]
    exact fun _ => nofun
  · rw [hinner]
    exact fun _ => nofun

theorem Node.Parted.of_ne {n : Node} (hk : n.kind ≠ .functionDefinition)
    (hp : n.kind ∈ plainKinds → ∀ x ∈ n.inner, x.kind.scope? = none) :
    n.Parted := ⟨fun h => absurd h hk, hp⟩

theorem makes_parted : Makes rules isParted (fun _ => True) Node.Parted where
  trivia t := .of_leaf (by obtain ⟨kind, start, stop⟩ := t; cases kind <;> rfl)
  leaf _ _ _ _ := .of_leaf rfl
  node {k r c c' ns} hr _ h := by
    have hr : (if k = .functionDefinition then r.shows functionParts isFunctionPart else
        !plainKinds.contains k || r.each isPure) = true := hr
    by_cases hk : k = .functionDefinition
    · rw [if_pos hk] at hr
      refine ⟨fun _ n hn => h.shows shows_functionPart hr n (List.dropWhile_subset _ hn),
        fun hplain => ?_⟩
      have hno : Kind.functionDefinition ∉ plainKinds := by decide
      exact absurd (hk ▸ hplain) hno
    · rw [if_neg hk, Bool.or_eq_true, Bool.not_eq_true', ← Bool.not_eq_true, List.contains_iff_mem]
        at hr
      refine .of_ne hk fun hplain x hx => ?_
      exact h.isPure (hr.resolve_left (not_not_intro hplain)) x
        (Node.mem_allOf_of_mem_inner_made hx)
  grow {base r tails k c c' c'' ns ms} hr _ hk _ _ := by
    have hr := List.all_eq_true.1 hr _ hk
    simp only [Bool.and_eq_true, decide_eq_true_eq, Bool.not_eq_true', ← Bool.not_eq_true,
      List.contains_iff_mem] at hr
    exact .of_ne hr.1 fun hplain => absurd hplain hr.2
  extend {base r tails k c c' c'' ns ms} hr _ hk h h' := by
    have hr := List.all_eq_true.1 hr _ hk
    rw [Bool.and_eq_true, decide_eq_true_eq, Bool.or_eq_true, Bool.not_eq_true', ← Bool.not_eq_true,
      List.contains_iff_mem, Bool.and_eq_true] at hr
    refine .of_ne hr.1 fun hplain x hx => ?_
    obtain ⟨hbase, htail⟩ := hr.2.resolve_left (not_not_intro hplain)
    have hx := Node.mem_allOf_of_mem_inner_made hx
    rw [Node.allOf_append] at hx
    rcases List.mem_append.1 hx with hx | hx
    · exact h.isPure hbase x hx
    · exact h'.isPure htail x hx

theorem parted_of_parse {source : List Char} {root x : Node} (h : Grammar.parse source = .ok root)
    (hx : x ∈ root.all) : x.Parted := by
  have hmodule : Kind.module ∉ plainKinds := by decide
  exact forall_of_parse makes_parted each_isParted (by decide) (fun _ _ => trivial)
    (fun _ _ => .of_ne nofun fun hplain => absurd hplain hmodule) h hx

end AsyncSpread.Python
