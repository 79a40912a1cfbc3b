import AsyncSpread.Proofs.Python.Kinds

/-!
How calls and decorators begin and end.

A call ends with the parenthesis of its arguments, and something with text stands behind what a
call, a subscript or an attribute builds on.  A decorator begins with its mark, and none is inside a
call (`framed_of_parse`).
-/

namespace AsyncSpread.Python

variable {σ : Type}

namespace Rule

def ends (kind : Kind) : Rule σ → Bool
  | .mark m => kind = .mark m
  | .keyword k => kind = .keyword k
  | .leaf _ k => kind = k
  | .word _ => kind = .identifier
  | .andThen _ s => ends kind s
  | .orElse r s => ends kind r && ends kind s
  | _ => false

/-- Whether a rule makes no node of some kinds.  What is read behind a name is said by `named`. -/
def lacks (kinds : List Kind) (named : σ → Bool) : Rule σ → Bool
  | .mark m => !kinds.contains (.mark m)
  | .keyword k => !kinds.contains (.keyword k)
  | .word _ => !kinds.contains .identifier
  | .leaf _ k | .node k _ => !kinds.contains k
  | .grow _ tails | .extend _ tails => tails.all fun t => !kinds.contains t.1
  | .rule n => named n
  | _ => true

variable {ok ok' : Rule σ → Bool}

mutual

/-- A test that holds of all rules in a rule may be weakened. -/
theorem each_mono (h : ∀ r, ok r = true → ok' r = true) (r : Rule σ) (hr : r.each ok = true) :
    r.each ok' = true := by
  cases r with
  | andThen r s | orElse r s =>
    simp only [each, Bool.and_eq_true] at hr ⊢
    exact ⟨⟨h _ hr.1.1, each_mono h r hr.1.2⟩, each_mono h s hr.2⟩
  | many r | node _ r | only _ r =>
    simp only [each, Bool.and_eq_true] at hr ⊢
    exact ⟨h _ hr.1, each_mono h r hr.2⟩
  | grow base tails | extend base tails =>
    simp only [each, Bool.and_eq_true] at hr ⊢
    exact ⟨⟨h _ hr.1.1, each_mono h base hr.1.2⟩, eachTail_mono h tails hr.2⟩
  | _ => exact h _ hr

theorem eachTail_mono (h : ∀ r, ok r = true → ok' r = true) (tails : List (Kind × Rule σ))
    (hr : eachTail ok tails = true) : eachTail ok' tails = true := by
  cases tails with
  | nil => rfl
  | cons t tails =>
    simp only [eachTail, Bool.and_eq_true] at hr ⊢
    exact ⟨eachPair_mono h t hr.1, eachTail_mono h tails hr.2⟩

theorem eachPair_mono (h : ∀ r, ok r = true → ok' r = true) (t : Kind × Rule σ)
    (hr : eachPair ok t = true) : eachPair ok' t = true := by
  obtain ⟨k, r⟩ := t
  exact each_mono h r hr

end

end Rule

section

variable {g : σ → Rule σ} {r : Rule σ} {c c' : Cursor} {ns : List Node}

theorem Reads.ends {kind : Kind} (h : Reads g r c ns c') (hr : r.ends kind = true) :
    ∃ front leaf, ns = front ++ [leaf] ∧ leaf.children = [] ∧ leaf.kind = kind := by
  induction h with
  | @token r t _ _ _ ns h =>
    rcases Rule.of_taken? h with ⟨k, hk, rfl⟩ | ⟨_, rfl, -, -⟩
    · have hkind : k = kind := by
        cases r with
        | mark | keyword | leaf | word =>
          exact (List.mem_singleton.1 hk).trans (of_decide_eq_true hr).symm
        | _ => cases hk
      exact ⟨_, _, rfl, rfl, hkind⟩
    · cases hr
  | andThen _ _ _ ih' =>
    obtain ⟨front, leaf, rfl, h⟩ := ih' hr
    exact ⟨_, leaf, (List.append_assoc _ _ _).symm, h⟩
  | first _ ih =>
    rw [Rule.ends, Bool.and_eq_true] at hr
    exact ih hr.1
  | second _ ih =>
    rw [Rule.ends, Bool.and_eq_true] at hr
    exact ih hr.2
  | _ => cases hr

/-- A rule that makes no node of some kinds reads none but trivia. -/
theorem Reads.lacks {kinds : List Kind} {named : σ → Bool}
    (hkinds : ∀ k ∈ kinds, k.isTrivia = false)
    (hg : ∀ n, named n = true → (g n).each (Rule.lacks kinds named) = true) (h : Reads g r c ns c')
    (hr : r.each (Rule.lacks kinds named) = true) : ∀ x ∈ Node.allOf ns, x.kind ∉ kinds := by
  have free {k : Kind} (hk : (!kinds.contains k) = true) : k ∉ kinds := by simpa using hk
  have hm : Makes g (Rule.lacks kinds named) (fun _ => True) fun x => x.kind ∉ kinds := by
    refine ⟨fun t hk => ?_, fun {r t k} hr _ hk _ => ?_, fun hr _ _ => free hr,
      fun hr _ hk _ _ => ?_, fun hr _ hk _ _ => ?_⟩
    · have htrivia := hkinds _ hk
      rw [show t.node.kind.isTrivia = true from isTrivia_node t] at htrivia
      cases htrivia
    · cases r with
      | mark | keyword | leaf | word =>
        cases List.mem_singleton.1 hk
        exact free hr
      | _ => cases hk
    · exact free (List.all_eq_true.1 hr _ hk)
    · exact free (List.all_eq_true.1 hr _ hk)
  exact h.forall_allOf hm hg hr fun _ _ => trivial

end

/-! ## Rows -/

namespace Node

/-- In a node that is made of two rows the solid part of the first stands in front of the second. -/
theorem exists_children_made (k : Kind) (p : Pos) (ns ms : List Node) : ∃ front back,
    (made k p (ns ++ ms)).children = front ++ back ∧ (∀ n ∈ ms, n.isTrivia = false → n ∈ back) ∧
      (front = [] → back = ms.dropWhile isTrivia) := by
  have hmade : (made k p (ns ++ ms)).children = (ns ++ ms).dropWhile isTrivia := rfl
  rw [hmade, List.dropWhile_append]
  cases hd : ns.dropWhile isTrivia with
  | nil =>
    exact ⟨[], _, rfl, fun n hn ht => mem_children_made (k := k) (p := p) hn ht, fun _ => rfl⟩
  | cons n ns' => exact ⟨n :: ns', ms, rfl, fun n hn _ => hn, nofun⟩

/-- What is not trivia is not dropped from the end of a row. -/
theorem getLast?_children_made {k : Kind} {p : Pos} {front : List Node} {n : Node}
    (hn : n.isTrivia = false) : (made k p (front ++ [n])).children.getLast? = some n := by
  have hmade : (made k p (front ++ [n])).children = (front ++ [n]).dropWhile isTrivia := rfl
  have hone : [n].dropWhile isTrivia = [n] := by
    rw [List.dropWhile_cons, hn, if_neg Bool.false_ne_true]
  rw [hmade, List.dropWhile_append, hone]
  split
  · rfl
  · exact List.getLast?_concat

end Node

/-! ## Arguments -/

namespace Grammar

variable {c c' : Cursor} {ns : List Node}

/-- A beginning that is not closed by one of the tails is not what was looked for. -/
theorem reads_closed {base : R} {tails : List (Kind × R)}
    (h : Reads rules (closed base tails) c ns c') {m : Mark} (hb : base.has (.mark m) = true)
    (ht : ∀ t ∈ tails, t.1 ≠ .mark m) :
    ∃ k r c₁ front back, (k, r) ∈ tails ∧
      Reads rules r c₁ back c' ∧ ns = Node.wrap k c'.last (front ++ back) := by
  cases h with
  | token h => cases h
  | only h hone =>
    cases h with
    | token h => cases h
    | extendTail hr _ h' => exact ⟨_, _, _, _, _, hr, h', rfl⟩
    | extendBase h =>
      -- Without a tail the mark at the beginning is there, and is not what the test asks for.
      obtain ⟨n, hn, -, hk⟩ := h.has hb
      have hsolid : n ∈ solid ns := List.mem_filter.2 ⟨hn, by rw [Node.isTrivia, hk]; rfl⟩
      unfold isOne at hone
      split at hone
      · rename_i one hs
        rw [hs, List.mem_singleton] at hsolid
        rw [← hsolid, hk] at hone
        obtain ⟨t, hmem, hkind⟩ := List.mem_map.1 (List.contains_iff_mem.1 hone)
        exact absurd hkind (ht t hmem)
      · cases hone

/-- Arguments are one node, which ends with a parenthesis. -/
theorem reads_arguments (h : Reads rules arguments c ns c') : ∃ k front leaf,
    ns = Node.wrap k c'.last (front ++ [leaf]) ∧ (k = .argumentList ∨ k = .generatorExpression) ∧
      leaf.kind = .mark .closeParen := by
  have node {k : Kind} {r : R} {c c' : Cursor} {ns : List Node}
      (h : Reads rules (.node k r) c ns c')
      (hr : r.ends (.mark .closeParen) = true) : ∃ front leaf,
        ns = Node.wrap k c'.last (front ++ [leaf]) ∧ leaf.kind = .mark .closeParen := by
    cases h with
    | token h => cases h
    | node h =>
      obtain ⟨front, leaf, rfl, -, hk⟩ := h.ends hr
      exact ⟨front, leaf, rfl, hk⟩
  cases h with
  | token h => cases h
  | first h =>
    obtain ⟨front, leaf, hns, hk⟩ := node h (by decide)
    exact ⟨_, front, leaf, hns, .inl rfl, hk⟩
  | second h =>
    cases h with
    | token h => cases h
    | second h =>
      obtain ⟨front, leaf, hns, hk⟩ := node h (by decide)
      exact ⟨_, front, leaf, hns, .inr rfl, hk⟩
    | first h =>
      obtain ⟨k, r, c₁, front, back, hr, hback, rfl⟩ :=
        reads_closed (m := .openParen) h (by decide) (by decide)
      have hends : k = .argumentList ∧ r.ends (.mark .closeParen) = true := by
        rcases List.mem_cons.1 hr with hr | hr
        · cases hr
          exact ⟨rfl, by decide⟩
        · cases List.mem_singleton.1 hr
          exact ⟨rfl, by decide⟩
      obtain ⟨mid, leaf, rfl, -, hk⟩ := hback.ends hends.2
      refine ⟨k, front ++ mid, leaf, ?_, .inl hends.1, hk⟩
      rw [List.append_assoc]

end Grammar

/-! ## The nodes of a tree -/

/-- What begins and ends the nodes of a tree. -/
structure Node.Framed (source : List Char) (n : Node) : Prop where
  mark : ∀ m, n.kind = .mark m → n.children = [] ∧ n.start.byte < n.stop.byte ∧
    (m ≠ .openBrace → Text.slice n.start.byte n.stop.byte source = m.chars)
  decorator : n.kind = .decorator → ∃ leaf rest, n.children = leaf :: rest ∧ leaf.kind = .mark .at
  call : n.kind = .call → (∀ x ∈ n.inner, x.kind ≠ .decorator) ∧
    ∃ arguments ∈ n.children.getLast?, ∃ leaf ∈ arguments.children.getLast?,
      leaf.kind = .mark .closeParen
  /-- Something with text stands behind what an attribute, subscript or call builds on. -/
  built : n.kind = .attribute ∨ n.kind = .subscript ∨ n.kind = .call →
    ∃ front back, n.children = front ++ back ∧
    AnyFilled back ∧ (front = [] → ∀ x ∈ back.head?, x.kind ≠ .call)

namespace Grammar

def isLoose : Kind → Bool
  | .mark _ | .decorator | .attribute | .subscript | .call => false
  | _ => true

/-- Whether a tail makes an attribute or a subscript, with a mark at its beginning, or a node of
which nothing is said. -/
def isFramedTail (t : Kind × R) : Bool :=
  isLoose t.1 || ((t.1 = .attribute || t.1 = .subscript) &&
    t.2.begins [.mark .dot, .mark .openBracket] false && t.2.spends)

/-- Whether a rule makes nodes that begin and end as they should, and no calls. -/
def isFramed : R → Bool
  | .leaf _ k => isLoose k
  | .node .decorator r => r.begins [.mark .at] false
  | .node k _ => isLoose k
  | .grow _ tails => tails.all isFramedTail
  | .extend _ tails => tails.all fun t => isLoose t.1
  | _ => true

noncomputable def isFramedOrPrimary (r : R) :
    Bool := @decide (isFramed r = true ∨ r = primary) (Classical.propDecidable _)

theorem isFramedOrPrimary_iff {r : R} :
    isFramedOrPrimary r = true ↔ isFramed r = true ∨ r = primary :=
  @decide_eq_true_iff _ (Classical.propDecidable _)

theorem each_isFramedOrPrimary (n : Phrase) : (rules n).each isFramedOrPrimary = true := by
  have weaken {r : R} (h : r.each isFramed = true) : r.each isFramedOrPrimary = true :=
    Rule.each_mono (fun _ hr => isFramedOrPrimary_iff.2 (.inl hr)) r h
  by_cases hn : n = .primary
  · -- The rule for calls passes as such, and what is in it passes the test.
    have hself : isFramedOrPrimary primary = true := isFramedOrPrimary_iff.2 (.inr rfl)
    have htails : ∀ r ∈ [attributeTail.2, arguments, subscriptTail.2],
        r.each isFramedOrPrimary = true := by
      intro r hr
      refine weaken ?_
      simp only [List.mem_cons, List.not_mem_nil, or_false] at hr
      rcases hr with rfl | rfl | rfl <;> decide
    rw [hn]
    show (isFramedOrPrimary primary && atom.each isFramedOrPrimary &&
      (attributeTail.2.each isFramedOrPrimary &&
      (arguments.each isFramedOrPrimary && (subscriptTail.2.each isFramedOrPrimary && true)))) =
        true
    rw [hself, weaken (r := atom) (by decide), htails _ (by simp), htails _ (by simp),
      htails _ (by simp)]
    rfl
  · refine weaken ?_
    cases n <;> first | decide | exact absurd rfl hn

theorem each_lacks_decorator (n : Phrase) (h : isExpression n = true) :
    (rules n).each (Rule.lacks [.decorator] isExpression) = true := by
  cases n <;> first | decide | cases h

end Grammar

open Grammar

variable {source : List Char} {n : Node}

theorem Node.Framed.of_isLoose (h : isLoose n.kind = true) : n.Framed source := by
  refine ⟨fun m hk => ?_, fun hk => ?_, fun hk => ?_, fun hk => ?_⟩
  · rw [hk] at h
    cases h
  · rw [hk] at h
    cases h
  · rw [hk] at h
    cases h
  · rcases hk with hk | hk | hk
    all_goals
      rw [hk] at h
      cases h

/-- A token that is as it should be, and a mark that is written as it is. -/
def Token.Framed (source : List Char) (t : Token) : Prop := t.Filled ∧
  ∀ m, t.kind = .mark m → m ≠ .openBrace → Text.slice t.start.byte t.stop.byte source = m.chars

theorem framed_mark {t : Token} {m : Mark} (ht : t.Framed source) (hk : t.kind = .mark m) :
    (Node.mk (.mark m) t.start t.stop []).Framed source := by
  refine ⟨fun m' h => ?_, nofun, nofun, fun h => ?_⟩
  · cases h
    exact ⟨rfl, ht.1 (by rw [hk]; rfl) (by rw [hk]; exact nofun), ht.2 m hk⟩
  · rcases h with h | h | h <;> cases h

/-- What is read behind a row goes behind it into the node, with its text. -/
theorem exists_built {k : Kind} {p : Pos} {ns ms : List Node} (hms : Node.AnyFilled ms)
    (hfirst : ∀ x ∈ (ms.dropWhile Node.isTrivia).head?, x.kind ≠ .call) : ∃ front back,
    (Node.made k p (ns ++ ms)).children = front ++ back ∧ Node.AnyFilled back ∧
      (front = [] → ∀ x ∈ back.head?, x.kind ≠ .call) := by
  obtain ⟨front, back, hc, hback, hhead⟩ := Node.exists_children_made k p ns ms
  obtain ⟨x, hx, ht, hfilled⟩ := hms
  refine ⟨front, back, hc, ⟨x, hback x hx ht, ht, hfilled⟩, fun hnil => ?_⟩
  rw [hhead hnil]
  exact hfirst

variable {c c' c'' : Cursor} {ns ms : List Node}

theorem framed_of_isFramedTail {t : Kind × R} (h : isFramedTail t = true)
    (hms : Reads rules t.2 c' ms c'') (ht : ∀ t ∈ c'.ahead, t.Filled) :
    (Node.made t.1 c''.last (ns ++ ms)).Framed source := by
  rw [isFramedTail, Bool.or_eq_true] at h
  rcases h with h | h
  · exact .of_isLoose h
  · simp only [Bool.and_eq_true, Bool.or_eq_true, decide_eq_true_eq] at h
    obtain ⟨⟨hkind, hbegins⟩, hspends⟩ := h
    refine ⟨fun m hk => ?_, fun hk => ?_, fun hk => ?_,
      fun _ => exists_built (hms.spends hspends ht) fun x hx => ?_⟩
    · have hk : t.1 = .mark m := hk
      rw [hk] at hkind
      rcases hkind with h | h <;> cases h
    · have hk : t.1 = .decorator := hk
      rw [hk] at hkind
      rcases hkind with h | h <;> cases h
    · have hk : t.1 = .call := hk
      rw [hk] at hkind
      rcases hkind with h | h <;> cases h
    · rcases hms.begins (by decide) hbegins with ⟨leaf, rest, hd, -, hleaf⟩ | ⟨hno, -⟩
      · rw [hd] at hx
        cases hx
        intro hcall
        rw [hcall] at hleaf
        revert hleaf
        decide
      · cases hno

/-- A call ends with the parenthesis of its arguments. -/
theorem framed_call {base : R} {tails : List (Kind × R)}
    (hbase : (Rule.grow base tails).each (Rule.lacks [.decorator] isExpression) = true)
    (hns : Reads rules (.grow base tails) c ns c') (hms : Reads rules arguments c' ms c'')
    (ht : ∀ t ∈ c'.ahead, t.Filled) : (Node.made .call c''.last (ns ++ ms)).Framed source := by
  have hlacks : ∀ x ∈ Node.allOf (ns ++ ms), x.kind ≠ .decorator := by
    intro x hx hk
    rw [Node.allOf_append] at hx
    have hno : x.kind ∉ [Kind.decorator] := by
      rcases List.mem_append.1 hx with hx | hx
      · exact hns.lacks (by decide) each_lacks_decorator hbase x hx
      · exact hms.lacks (by decide) each_lacks_decorator (by decide) x hx
    exact hno (hk ▸ List.mem_singleton_self _)
  obtain ⟨k, front, leaf, rfl, hk, hleaf⟩ := reads_arguments hms
  have hsolid : (Node.made k c''.last (front ++ [leaf])).isTrivia = false := by
    rcases hk with rfl | rfl <;> rfl
  have hmark : leaf.isTrivia = false := by
    show leaf.kind.isTrivia = false
    rw [hleaf]
    rfl
  refine ⟨nofun, nofun, fun _ => ⟨fun x hx => hlacks x (Node.mem_allOf_of_mem_inner_made hx), ?_⟩,
    fun _ => exists_built (hms.spends (by decide) ht) fun x hx => ?_⟩
  · refine ⟨Node.made k c''.last (front ++ [leaf]), ?_, leaf,
      Node.getLast?_children_made hmark, hleaf⟩
    rw [Node.wrap_eq, ← List.append_assoc]
    exact Node.getLast?_children_made hsolid
  · have hone : (Node.wrap k c''.last (front ++ [leaf])).dropWhile Node.isTrivia =
        [Node.made k c''.last (front ++ [leaf])] := by
      rw [Node.wrap_eq, List.dropWhile_append_of_pos fun n hn =>
        List.all_eq_true.1 List.all_takeWhile n hn,
        List.dropWhile_cons, hsolid, if_neg Bool.false_ne_true]
    rw [hone] at hx
    cases hx
    rcases hk with rfl | rfl <;> exact nofun

theorem framed_node {k : Kind} (hr : isFramed (.node k r) = true) (h : Reads rules r c ns c') :
    (Node.made k c'.last ns).Framed source := by
  by_cases hk : k = .decorator
  · subst hk
    rcases h.begins (by decide) hr with ⟨leaf, rest, hd, -, hleaf⟩ | ⟨hno, -⟩
    · refine ⟨nofun, fun _ => ⟨leaf, rest, hd, List.mem_singleton.1 hleaf⟩, nofun, fun hor => ?_⟩
      rcases hor with h | h | h <;> cases h
    · cases hno
  · refine .of_isLoose ?_
    cases k with
    | decorator => exact absurd rfl hk
    | _ => exact hr

theorem makes_framed (source : List Char) :
    Makes rules isFramedOrPrimary (Token.Framed source) (Node.Framed source) where
  trivia t := by
    obtain ⟨kind, start, stop⟩ := t
    cases kind <;> exact .of_isLoose rfl
  leaf {r t k} hr ht hk h := by
    cases r with
    | mark =>
      cases List.mem_singleton.1 hk
      simp only [Rule.taken?] at h
      split at h
      · rename_i hkind
        exact framed_mark ht hkind
      · cases h
    | keyword | word =>
      cases List.mem_singleton.1 hk
      exact .of_isLoose rfl
    | leaf =>
      cases List.mem_singleton.1 hk
      rcases isFramedOrPrimary_iff.1 hr with hr | hr
      · exact .of_isLoose hr
      · cases hr
    | _ => cases hk
  node {k r c c' ns} hr ht h := by
    rcases isFramedOrPrimary_iff.1 hr with hr | hr
    · exact framed_node hr h
    · cases hr
  grow {base r tails k c c' c'' ns ms} hr ht hk h h' := by
    have ht' : ∀ t ∈ c'.ahead, t.Filled := fun t hmem => (ht t (h.suffix.subset hmem)).1
    rcases isFramedOrPrimary_iff.1 hr with hr | hr
    · exact framed_of_isFramedTail (List.all_eq_true.1 hr _ hk) h' ht'
    · -- The rule for calls makes attributes, calls and subscripts.
      cases hr
      simp only [List.mem_cons, List.not_mem_nil, or_false] at hk
      rcases hk with hk | hk | hk
      · have htail : isFramedTail (k, r) = true := hk ▸ (by decide)
        exact framed_of_isFramedTail htail h' ht'
      · cases hk
        exact framed_call (by decide) h h' ht'
      · have htail : isFramedTail (k, r) = true := hk ▸ (by decide)
        exact framed_of_isFramedTail htail h' ht'
  extend {base r tails k c c' c'' ns ms} hr _ hk _ _ := by
    rcases isFramedOrPrimary_iff.1 hr with hr | hr
    · exact .of_isLoose (List.all_eq_true.1 hr _ hk)
    · cases hr

theorem framed_of_parse {root x : Node} (h : Grammar.parse source = .ok root) (hx : x ∈ root.all) :
    x.Framed source :=
  forall_of_parse (makes_framed source) each_isFramedOrPrimary
    (Rule.each_mono (fun _ hr => isFramedOrPrimary_iff.2 (.inl hr)) module (by decide))
    (fun _ ht => ⟨(of_mem_tokensOf ht).1, fun _ => slice_mark_of_mem_tokensOf ht⟩)
      (fun _ _ => .of_isLoose rfl) h hx

end AsyncSpread.Python
