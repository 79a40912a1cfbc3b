import AsyncSpread.Proofs.Python.Parsed
import AsyncSpread.Proofs.Rewrite.Awaited

/-!
Parentheses and comments around what is called.

A node in parentheses is classified as what they enclose, unless a comment or a joined line stands
in front of that: then it is taken for this (`ofNode_of_wraps`).  So parentheses do not matter for
the word of a call, nor does trivia behind what they enclose, but trivia in front of it does
(`literalOf_of_lawful`).
-/

namespace AsyncSpread

open Python

namespace Python.Node

/-- A node is another one that is no parentheses, or parentheses around what is.  `front` is the
trivia in front of the other one, in all parentheses around it. -/
inductive Wraps : Node → List Node → Node → Prop
  | bare {n : Node} (h : n.kind ≠ .parenthesizedExpression) : Wraps n [] n
  | parentheses {n inner e : Node} {before after front : List Node}
      (h : n.Encloses before inner after) (h' : Wraps inner front e) : Wraps n (before ++ front) e

theorem Wraps.ne {n e : Node} {front : List Node} (h : n.Wraps front e) :
    e.kind ≠ .parenthesizedExpression := by
  induction h with
  | bare h => exact h
  | parentheses _ _ ih => exact ih

theorem Encloses.mem {n inner : Node} {before after : List Node}
    (h : n.Encloses before inner after) : inner ∈ n.children := by
  obtain ⟨left, right, hc, -, -⟩ := h.children
  rw [hc]
  exact List.mem_cons_of_mem _ (List.mem_append_right _ List.mem_cons_self)

theorem sizeOf_lt_of_child {n x : Node} (h : x ∈ n.children) : sizeOf x < sizeOf n := by
  obtain ⟨k, p, q, ns⟩ := n
  have hlt : sizeOf x < sizeOf ns := List.sizeOf_lt_of_mem h
  rw [mk.sizeOf_spec]
  omega

variable {source : List Char} {root n : Node}

theorem exists_wraps (h : root.Lawful source) (hn : n ∈ root.all) :
    ∃ front e, n.Wraps front e ∧ e ∈ root.all := by
  induction hsize : sizeOf n using Nat.strongRecOn generalizing n with
  | _ size ih =>
    by_cases hk : n.kind = .parenthesizedExpression
    · obtain ⟨before, inner, after, henc⟩ := h.parenthesized n hn hk
      have hlt : sizeOf inner < size := hsize ▸ sizeOf_lt_of_child henc.mem
      obtain ⟨front, e, hwraps, he⟩ := ih _ hlt (mem_all_of_child hn henc.mem) rfl
      exact ⟨before ++ front, e, .parentheses henc hwraps, he⟩
    · exact ⟨[], n, .bare hk, hn⟩

/-- The kinds of nodes that there is a word for when they are called. -/
def targetKinds : List Kind := [.identifier, .attribute, .call, .subscript]

theorem hasLiteral_iff (h : root.Lawful source) (hn : n ∈ root.all) :
    n.hasLiteral = true ↔ n.kind ∈ targetKinds := by
  by_cases hk : n.kind = .attribute
  · obtain ⟨y, rest, hchildren, -⟩ := h.built n hn (.inl hk)
    have hlast : n.last?.isSome = true := by
      rw [last?, hchildren, List.getLast?_eq_some_getLast (List.cons_ne_nil y rest)]
      rfl
    rw [hasLiteral, hk]
    exact iff_of_true hlast (by decide)
  · unfold hasLiteral targetKinds
    split <;> simp_all

end Python.Node

namespace Rewrite

variable {source : List Char} {root call : Node}

theorem isNamed_of_isTrivia {x : Node} (h : x.isTrivia = true) : x.kind.isNamed = true := by
  obtain ⟨k, p, q, ns⟩ := x
  cases k <;> first | rfl | cases h

theorem ofNode_of_isTrivia {x : Node} (h : x.isTrivia = true) :
    CallTarget.ofNode source x = .error (.of x) := by
  obtain ⟨k, p, q, ns⟩ := x
  cases k <;> first | rfl | cases h

/-- Of what parentheses enclose, the trivia in front is met first. -/
theorem ofNode_of_encloses {n inner : Node} {before after : List Node}
    (h : n.Encloses before inner after) :
    CallTarget.ofNode source n = CallTarget.ofNode source (before.headD inner) := by
  obtain ⟨left, right, hc, hleft, -⟩ := h.children
  obtain ⟨k, p, q, ns⟩ := n
  cases (h.kind : k = .parenthesizedExpression)
  cases (hc : ns = _)
  have hskip : left.kind.isNamed ≠ true := by
    rw [hleft]
    exact nofun
  rw [CallTarget.ofNode, CallTarget.ofFirstNamed, if_neg hskip]
  cases before with
  | nil =>
    rw [List.nil_append, CallTarget.ofFirstNamed, if_pos (Bool.and_eq_true_iff.1 h.inner).1]
    rfl
  | cons x before =>
    rw [List.cons_append, CallTarget.ofFirstNamed,
      if_pos (isNamed_of_isTrivia (h.before x List.mem_cons_self))]
    rfl

/-- A node is taken for what it wraps, or for the first piece of trivia in front of that. -/
theorem ofNode_of_wraps {f e : Node} {front : List Node} (h : f.Wraps front e) :
    CallTarget.ofNode source f =
    front.head?.elim (CallTarget.ofNode source e) fun x => .error (.of x) := by
  induction h with
  | bare _ => rfl
  | @parentheses n inner e before after front h _ ih =>
    rw [ofNode_of_encloses h]
    cases before with
    | nil => exact ih
    | cons x before => exact ofNode_of_isTrivia (h.before x List.mem_cons_self)

theorem exists_literal_iff {e : Node} (h : root.Lawful source) (he : e ∈ root.all)
    (hne : e.kind ≠ .parenthesizedExpression) :
    (∃ literal, (CallTarget.ofNode source e).map CallTarget.literal = .ok literal) ↔
      e.kind ∈ Node.targetKinds := by
  rw [← Node.hasLiteral_iff h he]
  have herror : CallTarget.ofNode source e = .error (.of e) ↔ e.hasLiteral = false := by
    rw [ofNode_eq_error e, Node.bare_of_ne hne, and_iff_left rfl]
  cases hof : CallTarget.ofNode source e with
  | ok target =>
    refine ⟨fun _ => ?_, fun _ => ⟨target.literal, rfl⟩⟩
    rw [← Bool.not_eq_false]
    intro hno
    rw [herror.2 hno] at hof
    cases hof
  | error what =>
    obtain ⟨hno, -⟩ := (ofNode_eq_error e).1 hof
    rw [Node.bare_of_ne hne] at hno
    rw [hno]
    exact ⟨nofun, nofun⟩

/-- What a call calls wraps something.  If no trivia stands in front of that in the parentheses, the
call has the word of it, which is there just if it is a name, an attribute, a call or a subscript.
Otherwise the call has no word, and is said to call the trivia. -/
theorem literalOf_of_lawful (h : root.Lawful source) (hcall : call ∈ root.all)
    (hk : call.kind = .call) :
    ∃ f front e, call.head? = some f ∧ f.Wraps front e ∧
      (front = [] → literalOf source call = (CallTarget.ofNode source e).map CallTarget.literal ∧
        ((∃ literal, literalOf source call = .ok literal) ↔ e.kind ∈ Node.targetKinds)) ∧
      ∀ x ∈ front.head?, literalOf source call = .error (.of x) := by
  obtain ⟨f, rest, hchildren, -⟩ := h.built call hcall (.inr (.inr hk))
  have hf : call.head? = some f := by
    rw [Node.head?, hchildren]
    rfl
  have hfroot : f ∈ root.all := Node.mem_all_of_child hcall (List.mem_of_mem_head? hf)
  obtain ⟨front, e, hwraps, he⟩ := Node.exists_wraps h hfroot
  have hliteral : literalOf source call = (front.head?.elim (CallTarget.ofNode source e) fun x =>
      .error (.of x)).map CallTarget.literal := by
    rw [← ofNode_of_wraps hwraps, literalOf, targetOf, hf]
  refine ⟨f, front, e, hf, hwraps, fun hfront => ?_, fun x hx => ?_⟩
  · rw [hfront] at hliteral
    refine ⟨hliteral, ?_⟩
    rw [hliteral]
    exact exists_literal_iff h he hwraps.ne
  · rw [hliteral, Option.mem_def.1 hx]
    rfl

/-- A name with a comment behind it, and one with a comment in front of it. -/
def noted : List Char := "(g # note\n)()\n(# note\n g)()\n".toList

example : (parse noted).toOption.map
    (fun root => (callsOf root).map fun call => (literalOf noted call).toOption) =
    some [some "g", none] := by decide +kernel

end Rewrite

end AsyncSpread
