import AsyncSpread.Proofs.Python.Shapes
import AsyncSpread.Python.NameIndex

/-!
What the nodes of a Python tree are made of.

A definition begins with its keyword and has a name, a keyword is a leaf with its own text, and no
definition is inside a call (`proper_of_parse`).
-/

namespace AsyncSpread.Python

/-- What the kinds of a tree say of its nodes. -/
structure Node.Proper (source : List Char) (n : Node) : Prop where
  trivia : n.isTrivia = true → n.children = []
  keyword : ∀ k, n.kind = .keyword k → n.children = [] ∧
    Text.slice n.start.byte n.stop.byte source = k.chars ∧ n.start.byte < n.stop.byte
  function : n.kind = .functionDefinition → ∃ leaf rest, n.children = leaf :: rest ∧
    (leaf.kind = .keyword .asyncWord ∨ leaf.kind = .keyword .defWord) ∧
      ∃ m ∈ n.children, m.kind = .identifier
  classDef : n.kind = .classDefinition → ∃ leaf rest, n.children = leaf :: rest ∧
    leaf.kind = .keyword .classWord ∧ ∃ m ∈ n.children, m.kind = .identifier
  call : n.kind = .call → (∀ x ∈ n.inner, x.kind.scope? = none) ∧
    ∃ x ∈ n.inner, x.start.byte < x.stop.byte

namespace Grammar

def isExpression : Phrase → Bool
  | .statement | .suite | .functionDefinition | .classDefinition => false
  | _ => true

def isPure : R → Bool
  | .leaf _ k | .node k _ => k.scope?.isNone
  | .grow _ tails | .extend _ tails => tails.all fun t => t.1.scope?.isNone
  | .rule n => isExpression n
  | _ => true

def isPlain : Kind → Bool
  | .keyword _ | .functionDefinition | .classDefinition | .call => false
  | k => !k.isTrivia

/-- Whether a tail makes a node that needs no particular children, or it makes calls, with at least
a token and without definitions. -/
def isProperTail (base : R) (tails : List (Kind × R)) (t : Kind × R) : Bool :=
  isPlain t.1 || (t.1 = .call && (Rule.grow base tails).each isPure &&
    t.2.each isPure && t.2.spends)

def isProper : R → Bool
  | .leaf _ k => isPlain k
  | .node .functionDefinition r =>
    r.begins [.keyword .asyncWord, .keyword .defWord] false && r.has .identifier
  | .node .classDefinition r => r.begins [.keyword .classWord] false && r.has .identifier
  | .node k _ => isPlain k
  | .grow base tails => tails.all (isProperTail base tails)
  | .extend _ tails => tails.all fun t => isPlain t.1
  | _ => true

theorem each_isPure (n : Phrase) (h : isPure (.rule n) = true) : (rules n).each isPure = true := by
  cases n <;> first | decide | cases h

theorem each_isProper (n : Phrase) : (rules n).each isProper = true := by
  cases n <;> decide

end Grammar

open Grammar

variable {r : R} {c c' : Cursor} {ns : List Node} {source : List Char}

theorem Reads.isPure (h : Reads rules r c ns c') (hr : r.each Grammar.isPure = true) :
    ∀ x ∈ Node.allOf ns, x.kind.scope? = none := by
  have hm : Makes rules Grammar.isPure (fun _ => True) fun x => x.kind.scope? = none := by
    refine ⟨fun t => ?_, fun {r t k} hr _ hk _ => ?_, fun hr _ _ => ?_, fun hr _ hk _ _ => ?_,
      fun hr _ hk _ _ => ?_⟩
    · obtain ⟨kind, start, stop⟩ := t
      cases kind <;> rfl
    · cases r with
      | mark | keyword | word =>
        cases List.mem_singleton.1 hk
        rfl
      | leaf =>
        cases List.mem_singleton.1 hk
        exact Option.isNone_iff_eq_none.1 hr
      | _ => cases hk
    · exact Option.isNone_iff_eq_none.1 hr
    · exact Option.isNone_iff_eq_none.1 (List.all_eq_true.1 hr _ hk)
    · exact Option.isNone_iff_eq_none.1 (List.all_eq_true.1 hr _ hk)
  exact h.forall_allOf hm each_isPure hr fun _ _ => trivial

/-- A token with text has some, and a keyword its own. -/
def Token.Proper (source : List Char) (t : Token) : Prop :=
  t.Filled ∧ ∀ k, t.kind = .keyword k → Text.slice t.start.byte t.stop.byte source = k.chars

theorem Node.Proper.of_isPlain {n : Node} (h : isPlain n.kind = true) : n.Proper source := by
  refine ⟨fun ht => ?_, fun k hk => ?_, fun hk => ?_, fun hk => ?_, fun hk => ?_⟩
  · unfold isPlain at h
    split at h
    iterate 4 cases h
    rw [isTrivia] at ht
    rw [ht] at h
    cases h
  all_goals
    rw [hk] at h
    cases h

theorem Node.Proper.of_trivia (t : Trivia) : t.node.Proper source := by
  obtain ⟨kind, start, stop⟩ := t
  cases kind <;> exact ⟨fun _ => rfl, nofun, nofun, nofun, nofun⟩

theorem proper_keyword {t : Token} {k : Keyword} (ht : t.Proper source) (hk : t.kind = .keyword k) :
    (Node.mk (.keyword k) t.start t.stop []).Proper source := by
  refine ⟨fun _ => rfl, fun k' h => ?_, nofun, nofun, nofun⟩
  cases h
  exact ⟨rfl, ht.2 k hk, ht.1 (by rw [hk]; rfl) (by rw [hk]; exact nofun)⟩

/-- A definition begins with one of its keywords, and its name is among its children. -/
theorem exists_definition {k : Kind} {ks : List Kind} (hks : ∀ k ∈ ks, k.isTrivia = false)
    (hr : (r.begins ks false && r.has .identifier) = true) (h : Reads rules r c ns c') :
    ∃ leaf rest, (Node.made k c'.last ns).children = leaf :: rest ∧ leaf.kind ∈ ks ∧
      ∃ m ∈ (Node.made k c'.last ns).children, m.kind = .identifier := by
  rw [Bool.and_eq_true] at hr
  rcases h.begins hks hr.1 with ⟨leaf, rest, hd, -, hl⟩ | ⟨he, -⟩
  · obtain ⟨m, hm, -, hk⟩ := h.has hr.2
    have ht : m.isTrivia = false := by
      rw [Node.isTrivia, hk]
      rfl
    exact ⟨leaf, rest, hd, hl, m, Node.mem_children_made hm ht, hk⟩
  · cases he

theorem proper_function
    (hr : (r.begins [.keyword .asyncWord, .keyword .defWord] false && r.has .identifier) = true)
    (h : Reads rules r c ns c') : (Node.made .functionDefinition c'.last ns).Proper source := by
  obtain ⟨leaf, rest, hc, hl, hm⟩ := exists_definition (by decide) hr h
  refine ⟨nofun, nofun, fun _ => ⟨leaf, rest, hc, ?_, hm⟩, nofun, nofun⟩
  simpa only [List.mem_cons, List.not_mem_nil, or_false] using hl

theorem proper_class (hr : (r.begins [.keyword .classWord] false && r.has .identifier) = true)
    (h : Reads rules r c ns c') : (Node.made .classDefinition c'.last ns).Proper source := by
  obtain ⟨leaf, rest, hc, hl, hm⟩ := exists_definition (by decide) hr h
  exact ⟨nofun, nofun, nofun, fun _ => ⟨leaf, rest, hc, List.mem_singleton.1 hl, hm⟩, nofun⟩

theorem proper_call {base : R} {c'' : Cursor} {ms : List Node}
    (hbase : base.each Grammar.isPure = true) (hpure : r.each Grammar.isPure = true)
    (hspends : r.spends = true) (h : Reads rules base c ns c') (h' : Reads rules r c' ms c'')
    (ht : ∀ t ∈ c'.ahead, t.Filled) : (Node.made .call c''.last (ns ++ ms)).Proper source := by
  refine ⟨nofun, nofun, nofun, nofun, fun _ => ⟨fun x hx => ?_, ?_⟩⟩
  · have hx := Node.mem_allOf_of_mem_inner_made hx
    rw [Node.allOf_append] at hx
    rcases List.mem_append.1 hx with hx | hx
    · exact h.isPure hbase x hx
    · exact h'.isPure hpure x hx
  · exact ((h'.spends hspends ht).mono (List.subset_append_right _ _)).made

theorem makes_proper (source : List Char) :
    Makes rules isProper (Token.Proper source) (Node.Proper source) where
  trivia t := .of_trivia t
  leaf {r t k} hr ht hk h := by
    cases r with
    | mark | word =>
      cases List.mem_singleton.1 hk
      exact .of_isPlain rfl
    | keyword =>
      cases List.mem_singleton.1 hk
      simp only [Rule.taken?] at h
      split at h
      · rename_i hkind
        exact proper_keyword ht hkind
      · cases h
    | leaf =>
      cases List.mem_singleton.1 hk
      exact .of_isPlain hr
    | _ => cases hk
  node {k r c c' ns} hr ht h := by
    cases k with
    | functionDefinition => exact proper_function hr h
    | classDefinition => exact proper_class hr h
    | _ => first | exact .of_isPlain rfl | cases hr
  grow {base r tails k c c' c'' ns ms} hr ht hk h h' := by
    have hr := List.all_eq_true.1 hr _ hk
    rw [isProperTail, Bool.or_eq_true] at hr
    rcases hr with hr | hr
    · exact .of_isPlain hr
    · simp only [Bool.and_eq_true, decide_eq_true_eq] at hr
      obtain ⟨⟨⟨hkind, hbase⟩, hpure⟩, hspends⟩ := hr
      subst hkind
      exact proper_call hbase hpure hspends h h' fun t ht' => (ht t (h.suffix.subset ht')).1
  extend hr _ hk _ _ := .of_isPlain (List.all_eq_true.1 hr _ hk)

/-- What holds of each node that is made of the tokens of a text, and of a module, holds of all
nodes of its tree. -/
theorem forall_of_parse {ok : R → Bool} {T : Token → Prop} {P : Node → Prop}
    (hm : Makes rules ok T P) (hg : ∀ n, (rules n).each ok = true) (hmodule : module.each ok = true)
    (ht : ∀ t ∈ (tokensOf source).1, T t) (hroot : ∀ ns ts, P (moduleNode ns ts)) {root x : Node}
    (h : Grammar.parse source = .ok root) (hx : x ∈ root.all) : P x := by
  obtain ⟨ns, c, hr, -, rfl⟩ := of_parse h
  have hns := hr.forall_allOf hm (fun n _ => hg n) hmodule ht
  rw [Node.all_eq] at hx
  rcases List.mem_cons.1 hx with rfl | hx
  · exact hroot _ _
  · have hx : x ∈ Node.allOf (ns ++ (tokensOf source).2.map Trivia.node) := hx
    rw [Node.allOf_append] at hx
    rcases List.mem_append.1 hx with hx | hx
    · exact hns x hx
    · obtain ⟨n, hn, hx⟩ := Node.mem_allOf.1 hx
      obtain ⟨t, -, rfl⟩ := List.mem_map.1 hn
      rw [Node.all_eq] at hx
      rcases List.mem_cons.1 hx with rfl | hx
      · exact hm.trivia t
      · cases hx

theorem proper_of_mem_tokensOf {t : Token} (h : t ∈ (tokensOf source).1) : t.Proper source :=
  ⟨(of_mem_tokensOf h).1, (of_mem_tokensOf h).2⟩

theorem proper_of_parse {root x : Node} (h : Grammar.parse source = .ok root) (hx : x ∈ root.all) :
    x.Proper source :=
  forall_of_parse (makes_proper source) each_isProper (by decide)
    (fun _ ht => proper_of_mem_tokensOf ht) (fun _ _ => .of_isPlain rfl) h hx

end AsyncSpread.Python
