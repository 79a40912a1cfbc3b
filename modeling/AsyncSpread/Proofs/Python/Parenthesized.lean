import AsyncSpread.Proofs.Python.Calls

/-!
What stands in parentheses.

An expression is read as one named node, trivia aside (`Reads.sole`).  So parentheses around an
expression hold one node and the trivia around it (`encloses_of_parse`).
-/

namespace AsyncSpread.Python

variable {σ : Type}

namespace Node

/-- Some nodes are one named node, trivia aside. -/
def Sole (ns : List Node) : Prop := ∃ n, Grammar.solid ns = [n] ∧ n.kind.isTerm = true

theorem solid_eq_nil {ns : List Node} (h : ∀ n ∈ ns, n.isTrivia = true) :
    Grammar.solid ns = [] := by
  refine List.filter_eq_nil_iff.2 fun n hn hno => ?_
  rw [h n hn] at hno
  cases hno

theorem sole_append_singleton {before : List Node} {n : Node}
    (hbefore : ∀ x ∈ before, x.isTrivia = true) (hn : n.kind.isTerm = true) :
    Sole (before ++ [n]) := by
  have hsolid : (!n.isTrivia) = true := (Bool.and_eq_true_iff.1 hn).2
  refine ⟨n, ?_, hn⟩
  rw [Grammar.solid, List.filter_append, List.filter_cons, if_pos hsolid]
  exact congrArg (· ++ [n]) (solid_eq_nil hbefore)

theorem sole_wrap {k : Kind} {p : Pos} {row : List Node} (hk : k.isTerm = true) :
    Sole (wrap k p row) := by
  rw [wrap_eq]
  exact sole_append_singleton (fun x hx => List.all_eq_true.1 List.all_takeWhile x hx) hk

theorem exists_of_sole {ns : List Node} (h : Sole ns) :
    ∃ before n after, ns = before ++ n :: after ∧
    (∀ x ∈ before, x.isTrivia = true) ∧ (∀ x ∈ after, x.isTrivia = true) ∧
      n.kind.isTerm = true := by
  have trivia {ns : List Node} (h : ∀ x ∈ ns, ¬ (!x.isTrivia) = true) : ∀ x ∈ ns,
      x.isTrivia = true := by
    intro x hx
    have hno := h x hx
    rwa [Bool.not_eq_true', Bool.not_eq_false] at hno
  obtain ⟨n, hsolid, hn⟩ := h
  obtain ⟨before, after, rfl, hbefore, -, hafter⟩ := List.filter_eq_cons_iff.1 hsolid
  exact ⟨before, n, after, rfl, trivia hbefore, trivia (List.filter_eq_nil_iff.1 hafter), hn⟩

end Node

/-- Whether a rule reads one named node, trivia aside.  What is read behind a name is said by
`named`. -/
def Rule.Sole (named : σ → Bool) : Rule σ → Prop
  | .leaf _ k | .node k _ => k.isTerm = true
  | .word _ => True
  | .orElse r s => Sole named r ∧ Sole named s
  | .grow base tails | .extend base tails => Sole named base ∧ ∀ t ∈ tails, t.1.isTerm = true
  | .only check _ => ∀ ns, check ns = true → Node.Sole ns
  | .rule n => named n = true
  | _ => False

theorem Reads.sole {g : σ → Rule σ} {r : Rule σ} {c c' : Cursor} {ns : List Node} {named : σ → Bool}
    (hg : ∀ n, named n = true → (g n).Sole named) (h : Reads g r c ns c') (hr : r.Sole named) :
    Node.Sole ns := by
  induction h with
  | @token r t _ _ _ _ h =>
    have htrivia : ∀ x ∈ t.before.map Trivia.node, x.isTrivia = true := by
      intro x hx
      obtain ⟨u, -, rfl⟩ := List.mem_map.1 hx
      exact isTrivia_node u
    rcases Rule.of_taken? h with ⟨k, hk, rfl⟩ | ⟨kind, rfl, -, -⟩
    · refine Node.sole_append_singleton htrivia ?_
      cases r with
      | leaf =>
        cases List.mem_singleton.1 hk
        exact hr
      | word =>
        cases List.mem_singleton.1 hk
        rfl
      | mark | keyword => exact hr.elim
      | _ => cases hk
    · exact hr.elim
  | nothing | «unless» _ | before _ | andThen _ _ _ _ | done | more _ _ _ _ => exact hr.elim
  | first _ ih => exact ih hr.1
  | second _ ih => exact ih hr.2
  | node _ _ => exact Node.sole_wrap hr
  | growBase _ ih | extendBase _ ih => exact ih hr.1
  | growTail ht _ _ _ _ | extendTail ht _ _ _ _ => exact Node.sole_wrap (hr.2 _ ht)
  | only _ hc _ => exact hr _ hc
  | rule _ ih => exact ih (hg _ hr)

namespace Grammar

def isOperand : Phrase → Bool
  | .expression | .disjunction | .inversion | .bitOr | .unary | .primary | .string
  | .yieldExpression => true
  | _ => false

theorem sole_of_isOne {ks : List Kind} (hks : ∀ k ∈ ks, k.isTerm = true) {ns : List Node}
    (h : isOne ks ns = true) : Node.Sole ns := by
  unfold isOne at h
  split at h
  · rename_i n hsolid
    exact ⟨n, hsolid, hks _ (List.contains_iff_mem.1 h)⟩
  · cases h

theorem sole_closed {base : R} {tails : List (Kind × R)} (h : ∀ t ∈ tails, t.1.isTerm = true) :
    (closed base tails).Sole isOperand := by
  intro ns hns
  refine sole_of_isOne (fun k hk => ?_) hns
  obtain ⟨t, ht, rfl⟩ := List.mem_map.1 hk
  exact h t ht

theorem sole_oneOf {rs : List R} (h : ∀ r ∈ rs, r.Sole isOperand) :
    (Rule.oneOf rs).Sole isOperand := by
  induction rs with
  | nil => exact nofun
  | cons r rs ih =>
    cases rs with
    | nil => exact h r List.mem_cons_self
    | cons s rs => exact ⟨h r List.mem_cons_self, ih fun x hx => h x (List.mem_cons_of_mem r hx)⟩

theorem sole_layer {operand : R} (h : operand.Sole isOperand) (marks : List Mark) :
    (layer operand marks).Sole isOperand := by
  refine ⟨h, fun t ht => ?_⟩
  rw [List.mem_singleton.1 ht]
  rfl

theorem sole_atom : atom.Sole isOperand := by
  refine sole_oneOf fun r hr => ?_
  simp only [List.mem_cons, List.not_mem_nil, or_false] at hr
  rcases hr with rfl | rfl | rfl | rfl | rfl | rfl | rfl | rfl | rfl | rfl | rfl | rfl
  · exact ⟨rfl, by decide⟩
  iterate 6 exact rfl
  · exact ⟨rfl, sole_closed (by decide)⟩
  · exact ⟨rfl, sole_closed (by decide)⟩
  · exact ⟨rfl, sole_closed (by decide), sole_closed (by decide)⟩
  · exact rfl
  · exact trivial

theorem sole_operand (n : Phrase) (h : isOperand n = true) : (rules n).Sole isOperand := by
  cases n with
  | expression => exact ⟨⟨rfl, by decide⟩, by decide⟩
  | disjunction => exact ⟨⟨rfl, by decide⟩, by decide⟩
  | inversion => exact ⟨rfl, rfl, rfl, rfl, by decide⟩
  | bitOr =>
    refine sole_layer
      (sole_layer (sole_layer (sole_layer (sole_layer (sole_layer ?_ _) _) _) _) _) _
    exact rfl
  | unary => exact ⟨rfl, rfl, rfl, by decide⟩
  | primary => exact ⟨sole_atom, by decide⟩
  | string | yieldExpression => exact rfl
  | _ => cases h

theorem sole_element : element.Sole isOperand := ⟨rfl, rfl, rfl⟩

def wrapped : R :=
  .extend (.andThen (.mark .openParen) element)
    [(.parenthesizedExpression, .mark .closeParen),
     (.generatorExpression, .andThen comprehension (.mark .closeParen)),
     (.tuple, .sequence [.mark .comma, .optional (.commas element), .mark .closeParen])]

/-- Whether a rule makes no parentheses around an expression, or is the one that does. -/
noncomputable def isWrapping (r : R) : Bool :=
  @decide (r.lacks [.parenthesizedExpression] (fun _ => true) = true ∨ r = wrapped)
    (Classical.propDecidable _)

theorem isWrapping_iff {r : R} :
    isWrapping r = true ↔ r.lacks [.parenthesizedExpression] (fun _ => true) = true ∨ r = wrapped :=
  @decide_eq_true_iff _ (Classical.propDecidable _)

/-- A rule that is not the one for parentheses, with the rules in it. -/
theorem each_isWrapping_of_lacks {r : R}
    (h : r.each (Rule.lacks [.parenthesizedExpression] fun _ => true) = true) :
    r.each isWrapping = true :=
  Rule.each_mono (fun _ hr => isWrapping_iff.2 (.inl hr)) r h

theorem each_parenthesized : parenthesized.each isWrapping = true := by
  have hbase : (Rule.andThen (.mark .openParen) element).each isWrapping = true :=
    each_isWrapping_of_lacks (by decide)
  have htails : ∀ r ∈ [(.mark .closeParen : R), .andThen comprehension (.mark .closeParen),
      .sequence [.mark .comma, .optional (.commas element), .mark .closeParen]],
        r.each isWrapping = true := by
    intro r hr
    refine each_isWrapping_of_lacks ?_
    simp only [List.mem_cons, List.not_mem_nil, or_false] at hr
    rcases hr with rfl | rfl | rfl <;> decide
  have hwrapped : wrapped.each isWrapping = true := by
    show (isWrapping wrapped && (Rule.andThen (.mark .openParen) element).each isWrapping &&
      (Rule.each isWrapping _ &&
      (Rule.each isWrapping _ && (Rule.each isWrapping _ && true)))) = true
    rw [isWrapping_iff.2 (.inr rfl), hbase, htails _ (by simp), htails _ (by simp),
      htails _ (by simp)]
    rfl
  have htuple : (Rule.node .tuple (.andThen (.mark .openParen) (.mark .closeParen)) : R).each
      isWrapping = true :=
    each_isWrapping_of_lacks (by decide)
  show (isWrapping parenthesized && Rule.each isWrapping _ &&
    (isWrapping (.only _ wrapped) && wrapped.each isWrapping)) = true
  rw [isWrapping_iff.2 (.inl rfl), isWrapping_iff.2 (.inl rfl), hwrapped, htuple]
  rfl

theorem each_oneOf {rs : List R} (h : ∀ r ∈ rs, r.each isWrapping = true) :
    (Rule.oneOf rs).each isWrapping = true := by
  induction rs with
  | nil => exact each_isWrapping_of_lacks (by decide)
  | cons r rs ih =>
    have hr := h r List.mem_cons_self
    cases rs with
    | nil => exact hr
    | cons s rs =>
      show (isWrapping (.orElse r (Rule.oneOf (s :: rs))) && r.each isWrapping &&
        (Rule.oneOf (s :: rs)).each isWrapping) = true
      rw [isWrapping_iff.2 (.inl rfl), hr, ih fun x hx => h x (List.mem_cons_of_mem r hx)]
      rfl

theorem each_isWrapping (n : Phrase) : (rules n).each isWrapping = true := by
  by_cases hn : n = .primary
  · -- Only operands have parentheses, and each of the other rules for operands makes none.
    have hatom : atom.each isWrapping = true := by
      refine each_oneOf fun r hr => ?_
      simp only [List.mem_cons, List.not_mem_nil, or_false] at hr
      rcases hr with rfl | rfl | rfl | rfl | rfl | rfl | rfl | rfl | rfl | rfl | rfl | rfl
      iterate 7 exact each_isWrapping_of_lacks (by decide)
      · exact each_parenthesized
      iterate 4 exact each_isWrapping_of_lacks (by decide)
    have htails : ∀ r ∈ [attributeTail.2, arguments, subscriptTail.2],
        r.each isWrapping = true := by
      intro r hr
      refine each_isWrapping_of_lacks ?_
      simp only [List.mem_cons, List.not_mem_nil, or_false] at hr
      rcases hr with rfl | rfl | rfl <;> decide
    rw [hn]
    show (isWrapping primary && atom.each isWrapping && (attributeTail.2.each isWrapping &&
      (arguments.each isWrapping && (subscriptTail.2.each isWrapping && true)))) = true
    rw [isWrapping_iff.2 (.inl rfl), hatom, htails _ (by simp), htails _ (by simp),
      htails _ (by simp)]
    rfl
  · refine each_isWrapping_of_lacks ?_
    cases n <;> first | decide | exact absurd rfl hn

end Grammar

open Grammar

theorem Reads.exists_leaf {c c' : Cursor} {ns : List Node} {m : Mark}
    (h : Reads rules (.mark m) c ns c') : ∃ t : Token, ns = t.leaf (.mark m) := by
  cases h with
  | @token _ t _ _ _ _ h =>
    simp only [Rule.taken?, Option.ite_none_right_eq_some, Option.some.injEq] at h
    exact ⟨t, h.2.symm⟩

/-- What is made of an open parenthesis, an element and a closing one encloses the element. -/
theorem exists_encloses {c c' c'' : Cursor} {ns ms : List Node}
    (h : Reads rules (.andThen (.mark .openParen) element) c ns c')
    (h' : Reads rules (.mark .closeParen) c' ms c'') :
    ∃ before inner after,
      (Node.made .parenthesizedExpression c''.last (ns ++ ms)).Encloses before inner after := by
  cases h with
  | token h => cases h
  | andThen hopen helement =>
    obtain ⟨left, rfl⟩ := hopen.exists_leaf
    obtain ⟨right, rfl⟩ := h'.exists_leaf
    obtain ⟨before, inner, after, rfl, hbefore, hafter, hinner⟩ :=
      Node.exists_of_sole (helement.sole sole_operand sole_element)
    refine ⟨before, inner, after ++ right.before.map Trivia.node, rfl, ?_, hbefore,
      fun x hx => ?_, hinner⟩
    · refine ⟨.mk (.mark .openParen) left.start left.stop [],
        .mk (.mark .closeParen) right.start right.stop [], ?_, rfl, rfl⟩
      rw [Node.made, Node.children_mk]
      rw [List.append_assoc, List.dropWhile_append, dropWhile_leaf left rfl, Token.leaf]
      simp
    · rcases List.mem_append.1 hx with hx | hx
      · exact hafter x hx
      · obtain ⟨t, -, rfl⟩ := List.mem_map.1 hx
        exact isTrivia_node t

theorem makes_encloses : Makes rules isWrapping (fun _ => True) fun n =>
    n.kind = .parenthesizedExpression → ∃ before inner after, n.Encloses before inner after := by
  have absent {k : Kind} {p q : Pos} {ns : List Node}
      (h : (!List.contains [.parenthesizedExpression] k) = true)
      (hk : (Node.mk k p q ns).kind = .parenthesizedExpression) :
      ∃ before inner after, (Node.mk k p q ns).Encloses before inner after := by
    have hk : k = .parenthesizedExpression := hk
    rw [hk] at h
    cases h
  refine ⟨fun t => ?_, fun {r t k} hr _ hk _ => ?_, fun hr _ _ => ?_, fun hr _ hk _ _ => ?_,
    fun {_ _ _ k} _ _ _ _ _ hr _ hk h h' => ?_⟩
  · obtain ⟨kind, start, stop⟩ := t
    cases kind <;> exact nofun
  · rcases isWrapping_iff.1 hr with hr | rfl
    · cases r with
      | mark | keyword | leaf | word =>
        cases List.mem_singleton.1 hk
        exact absent hr
      | _ => cases hk
    · cases hk
  · rcases isWrapping_iff.1 hr with hr | hr
    · exact absent hr
    · cases hr
  · rcases isWrapping_iff.1 hr with hr | hr
    · exact absent (List.all_eq_true.1 hr _ hk)
    · cases hr
  · rcases isWrapping_iff.1 hr with hr | hr
    · exact absent (List.all_eq_true.1 hr _ hk)
    · -- The rule for parentheses makes a generator or a tuple, too.
      cases hr
      simp only [List.mem_cons, List.not_mem_nil, or_false] at hk
      rcases hk with hk | hk | hk
      · cases hk
        exact fun _ => exists_encloses h h'
      · cases hk
        exact nofun
      · cases hk
        exact nofun

theorem encloses_of_parse {source : List Char} {root n : Node} (h : Grammar.parse source = .ok root)
    (hn : n ∈ root.all) (hk : n.kind = .parenthesizedExpression) :
    ∃ before inner after, n.Encloses before inner after :=
  forall_of_parse makes_encloses each_isWrapping (each_isWrapping_of_lacks (by decide))
    (fun _ _ => trivial) (fun _ _ => nofun) h hn hk

end AsyncSpread.Python
