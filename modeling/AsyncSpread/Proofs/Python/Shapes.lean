import AsyncSpread.Proofs.Python.Nesting

/-!
What kinds of nodes a grammar makes, and what they begin with.

A test on rules that holds of all rules of a grammar says something of all nodes of its trees
(`Reads.forall_allOf`), and such a test is decided.
-/

namespace AsyncSpread.Python

variable {σ : Type}

namespace Rule

mutual

/-- Whether a test holds of a rule and all rules in it, without looking behind names. -/
def each (ok : Rule σ → Bool) : Rule σ → Bool
  | .andThen r s => ok (.andThen r s) && each ok r && each ok s
  | .orElse r s => ok (.orElse r s) && each ok r && each ok s
  | .many r => ok (.many r) && each ok r
  | .node k r => ok (.node k r) && each ok r
  | .grow base tails => ok (.grow base tails) && each ok base && eachTail ok tails
  | .extend base tails => ok (.extend base tails) && each ok base && eachTail ok tails
  | .only check r => ok (.only check r) && each ok r
  | r => ok r

def eachTail (ok : Rule σ → Bool) : List (Kind × Rule σ) → Bool
  | [] => true
  | t :: ts => eachPair ok t && eachTail ok ts

def eachPair (ok : Rule σ → Bool) : Kind × Rule σ → Bool
  | (_, r) => each ok r

end

variable {ok : Rule σ → Bool} {r : Rule σ}

theorem of_eachTail {tails : List (Kind × Rule σ)} (h : eachTail ok tails = true) {k : Kind}
    (hr : (k, r) ∈ tails) : r.each ok = true := by
  induction tails with
  | nil => cases hr
  | cons t tails ih =>
    rw [eachTail, Bool.and_eq_true] at h
    rcases List.mem_cons.1 hr with rfl | hr
    · exact h.1
    · exact ih h.2 hr

theorem ok_of_each (h : r.each ok = true) : ok r = true := by
  cases r
  all_goals
    simp only [each, Bool.and_eq_true] at h
    first
      | exact h
      | exact h.1
      | exact h.1.1

end Rule

namespace Node

def made (k : Kind) (p : Pos) (row : List Node) : Node :=
  .mk k ((row.dropWhile isTrivia).head?.elim p start) (stopOf p (row.dropWhile isTrivia))
    (row.dropWhile isTrivia)

theorem wrap_eq (k : Kind) (p : Pos) (row : List Node) :
    wrap k p row = row.takeWhile isTrivia ++ [made k p row] := by
  unfold wrap made
  cases row.dropWhile isTrivia <;> rfl

/-- What is not trivia stays inside the node that is made of a row. -/
theorem mem_children_made {k : Kind} {p : Pos} {row : List Node} {n : Node} (h : n ∈ row)
    (hn : n.isTrivia = false) : n ∈ (made k p row).children := by
  rw [← takeWhile_append_dropWhile row] at h
  rcases List.mem_append.1 h with h | h
  · have ht := List.all_eq_true.1 List.all_takeWhile n h
    rw [hn] at ht
    cases ht
  · exact h

theorem mem_allOf_of_mem_inner_made {k : Kind} {p : Pos} {row : List Node} {x : Node}
    (h : x ∈ (made k p row).inner) : x ∈ allOf row := by
  rw [← takeWhile_append_dropWhile row, allOf_append]
  exact List.mem_append_right _ h

theorem mem_allOf_wrap {k : Kind} {p : Pos} {row : List Node} {x : Node} :
    x ∈ allOf (wrap k p row) ↔ x ∈ allOf row ∨ x = made k p row := by
  have hrow : allOf row = allOf (row.takeWhile isTrivia) ++ allOf (row.dropWhile isTrivia) := by
    rw [← allOf_append, takeWhile_append_dropWhile]
  have hmade : (made k p row).inner = allOf (row.dropWhile isTrivia) := rfl
  rw [wrap_eq, allOf_append, hrow, allOf_cons, allOf_nil, List.append_nil, all_eq, hmade]
  simp only [List.mem_append, List.mem_cons]
  constructor
  · intro hor
    rcases hor with h | h | h
    · exact .inl (.inl h)
    · exact .inr h
    · exact .inl (.inr h)
  · intro hor
    rcases hor with (h | h) | h
    · exact .inl h
    · exact .inr (.inr h)
    · exact .inr (.inl h)

end Node

section

variable {g : σ → Rule σ} {ok : Rule σ → Bool} {T : Token → Prop} {P : Node → Prop} {r : Rule σ}
  {c c' : Cursor} {ns : List Node}

/-- Each way of making a node makes one with a property: a leaf of a token with another property, or
a node of what rules read that pass a test. -/
structure Makes (g : σ → Rule σ) (ok : Rule σ → Bool) (T : Token → Prop)
    (P : Node → Prop) : Prop where
  trivia (t : Trivia) : P t.node
  leaf {r : Rule σ} {t : Token} {k : Kind} (hr : ok r = true) (ht : T t) (hk : k ∈ r.leafKinds)
    (h : r.taken? t = some (t.leaf k)) : P (.mk k t.start t.stop [])
  node {k : Kind} {r : Rule σ} {c c' : Cursor} {ns : List Node} (hr : ok (.node k r) = true)
    (ht : ∀ t ∈ c.ahead, T t) (h : Reads g r c ns c') : P (Node.made k c'.last ns)
  grow {base r : Rule σ} {tails : List (Kind × Rule σ)} {k : Kind} {c c' c'' : Cursor}
    {ns ms : List Node}
    (hr : ok (.grow base tails) = true) (ht : ∀ t ∈ c.ahead, T t) (hk : (k, r) ∈ tails)
    (h : Reads g (.grow base tails) c ns c') (h' : Reads g r c' ms c'') : P
      (Node.made k c''.last (ns ++ ms))
  extend {base r : Rule σ} {tails : List (Kind × Rule σ)} {k : Kind} {c c' c'' : Cursor}
    {ns ms : List Node}
    (hr : ok (.extend base tails) = true) (ht : ∀ t ∈ c.ahead, T t) (hk : (k, r) ∈ tails)
    (h : Reads g base c ns c') (h' : Reads g r c' ms c'') : P (Node.made k c''.last (ns ++ ms))

/-- What holds of each node that is made holds of all nodes that are read. -/
theorem Reads.forall_allOf (hm : Makes g ok T P)
    (hg : ∀ n, ok (.rule n) = true → (g n).each ok = true) (h : Reads g r c ns c')
    (hr : r.each ok = true) (ht : ∀ t ∈ c.ahead, T t) : ∀ x ∈ Node.allOf ns, P x := by
  have rest {r : Rule σ} {c c' : Cursor} {ns : List Node} (h : Reads g r c ns c')
      (ht : ∀ t ∈ c.ahead, T t) : ∀ t ∈ c'.ahead, T t := fun t h' => ht t (h.suffix.subset h')
  have join {ns ms : List Node} (h : ∀ x ∈ Node.allOf ns, P x) (h' : ∀ x ∈ Node.allOf ms, P x) :
      ∀ x ∈ Node.allOf (ns ++ ms), P x := by
    intro x hx
    rw [Node.allOf_append] at hx
    exact (List.mem_append.1 hx).elim (h x) (h' x)
  have wrapped {k : Kind} {p : Pos} {row : List Node} (h : ∀ x ∈ Node.allOf row, P x)
      (h' : P (Node.made k p row)) : ∀ x ∈ Node.allOf (Node.wrap k p row), P x := by
    intro x hx
    rcases Node.mem_allOf_wrap.1 hx with hx | rfl
    · exact h x hx
    · exact h'
  induction h with
  | @token r t _ _ _ ns h =>
    have before : ∀ x ∈ Node.allOf (t.before.map Trivia.node), P x := by
      intro x hx
      obtain ⟨n, hn, hx⟩ := Node.mem_allOf.1 hx
      obtain ⟨u, -, rfl⟩ := List.mem_map.1 hn
      rw [Node.all_eq] at hx
      rcases List.mem_cons.1 hx with rfl | hx
      · exact hm.trivia u
      · cases hx
    rcases Rule.of_taken? h with ⟨k, hk, rfl⟩ | ⟨kind, -, -, rfl⟩
    · have hleaf := hm.leaf (Rule.ok_of_each hr) (ht t List.mem_cons_self) hk h
      refine join before fun x hx => ?_
      rw [Node.allOf_cons, Node.allOf_nil, List.append_nil, Node.all_eq] at hx
      rcases List.mem_cons.1 hx with rfl | hx
      · exact hleaf
      · cases hx
    · exact before
  | nothing | «unless» _ | before _ | done => exact fun x hx => absurd hx List.not_mem_nil
  | andThen h _ ih ih' =>
    simp only [Rule.each, Bool.and_eq_true] at hr
    exact join (ih hr.1.2 ht) (ih' hr.2 (rest h ht))
  | first _ ih =>
    simp only [Rule.each, Bool.and_eq_true] at hr
    exact ih hr.1.2 ht
  | second _ ih =>
    simp only [Rule.each, Bool.and_eq_true] at hr
    exact ih hr.2 ht
  | more h _ ih ih' =>
    have hr' := hr
    simp only [Rule.each, Bool.and_eq_true] at hr'
    exact join (ih hr'.2 ht) (ih' hr (rest h ht))
  | node h ih =>
    have hn := hm.node (Rule.ok_of_each hr) ht h
    simp only [Rule.each, Bool.and_eq_true] at hr
    exact wrapped (ih hr.2 ht) hn
  | growBase _ ih | extendBase _ ih =>
    simp only [Rule.each, Bool.and_eq_true] at hr
    exact ih hr.1.2 ht
  | growTail hs h h' ih ih' =>
    have hn := hm.grow (Rule.ok_of_each hr) ht hs h h'
    have hr' := hr
    simp only [Rule.each, Bool.and_eq_true] at hr'
    exact wrapped (join (ih hr ht) (ih' (Rule.of_eachTail hr'.2 hs) (rest h ht))) hn
  | extendTail hs h h' ih ih' =>
    have hn := hm.extend (Rule.ok_of_each hr) ht hs h h'
    simp only [Rule.each, Bool.and_eq_true] at hr
    exact wrapped (join (ih hr.1.2 ht) (ih' (Rule.of_eachTail hr.2 hs) (rest h ht))) hn
  | only _ _ ih =>
    simp only [Rule.each, Bool.and_eq_true] at hr
    exact ih hr.2 ht
  | rule _ ih => exact ih (hg _ (Rule.ok_of_each hr)) ht

end

/-! ## What a reading begins with -/

namespace Rule

/-- Whether the first thing that a rule reads, trivia aside, is a leaf of one of some kinds.  If
`empty` the rule may also read nothing but trivia. -/
def begins (ks : List Kind) (empty : Bool) : Rule σ → Bool
  | .mark m => ks.contains (.mark m)
  | .keyword k => ks.contains (.keyword k)
  | .leaf _ k => ks.contains k
  | .word _ => ks.contains .identifier
  | .layout _ | .nothing | .unless _ | .before _ => empty
  | .andThen r s => begins ks false r || (begins ks true r && begins ks empty s)
  | .orElse r s => begins ks empty r && begins ks empty s
  | _ => false

/-- Whether a leaf of a kind is among what a rule reads, outside the nodes that it makes. -/
def has (kind : Kind) : Rule σ → Bool
  | .mark m => kind = .mark m
  | .keyword k => kind = .keyword k
  | .leaf _ k => kind = k
  | .word _ => kind = .identifier
  | .andThen r s => has kind r || has kind s
  | .orElse r s => has kind r && has kind s
  | _ => false

/-- Whether a rule takes at least one token with text.  Names are not looked behind. -/
def spends : Rule σ → Bool
  | .mark _ | .keyword _ | .word _ => true
  | .leaf t k => !t.isLayout && t ≠ .strange && !k.isTrivia
  | .andThen r s => spends r || spends s
  | .orElse r s => spends r && spends s
  | .node k r => !k.isTrivia && spends r
  | .only _ r => spends r
  | .grow base tails | .extend base tails => spends base && tails.all fun t => !t.1.isTrivia
  | _ => false

end Rule

section

variable {g : σ → Rule σ} {r : Rule σ} {c c' : Cursor} {ns : List Node}

theorem isTrivia_node (t : Trivia) : t.node.isTrivia = true := by
  obtain ⟨kind, start, stop⟩ := t
  cases kind <;> rfl

theorem dropWhile_trivia (ts : List Trivia) :
    (ts.map Trivia.node).dropWhile Node.isTrivia = [] := by
  induction ts with
  | nil => rfl
  | cons t ts ih => rw [List.map_cons, List.dropWhile_cons, if_pos (isTrivia_node t), ih]

theorem dropWhile_leaf (t : Token) {k : Kind} (hk : k.isTrivia = false) :
    (t.leaf k).dropWhile Node.isTrivia = [.mk k t.start t.stop []] := by
  have hn : Node.isTrivia (.mk k t.start t.stop []) = false := hk
  rw [Token.leaf, List.dropWhile_append, dropWhile_trivia, List.isEmpty_nil, if_pos rfl,
    List.dropWhile_cons, hn, if_neg Bool.false_ne_true]

theorem Reads.begins {ks : List Kind} (hks : ∀ k ∈ ks, k.isTrivia = false) (h : Reads g r c ns c')
    {empty : Bool} (hr : r.begins ks empty = true) :
    (∃ leaf rest, ns.dropWhile Node.isTrivia = leaf :: rest ∧ leaf.children = [] ∧ leaf.kind ∈ ks) ∨
      empty = true ∧ ns.dropWhile Node.isTrivia = [] := by
  have append {ns ms : List Node} (h : ∃ leaf rest, ns.dropWhile Node.isTrivia = leaf :: rest ∧
      leaf.children = [] ∧
      leaf.kind ∈ ks) : ∃ leaf rest, (ns ++ ms).dropWhile Node.isTrivia = leaf :: rest ∧
        leaf.children = [] ∧
      leaf.kind ∈ ks := by
    obtain ⟨leaf, rest, hd, hl⟩ := h
    refine ⟨leaf, rest ++ ms, ?_, hl⟩
    rw [List.dropWhile_append, hd]
    rfl
  induction h generalizing empty with
  | @token r t _ _ _ ns h =>
    rcases Rule.of_taken? h with ⟨k, hk, rfl⟩ | ⟨kind, rfl, -, rfl⟩
    · have hkind : k ∈ ks := by
        cases r with
        | mark | keyword | leaf | word => exact List.mem_singleton.1 hk ▸ List.contains_iff_mem.1 hr
        | _ => cases hk
      exact .inl ⟨_, [], dropWhile_leaf t (hks k hkind), rfl, hkind⟩
    · exact .inr ⟨hr, dropWhile_trivia _⟩
  | nothing | «unless» _ | before _ => exact .inr ⟨hr, rfl⟩
  | andThen h h' ih ih' =>
    simp only [Rule.begins, Bool.or_eq_true, Bool.and_eq_true] at hr
    rcases hr with hr | ⟨hr, hs⟩
    · rcases ih hr with hl | ⟨he, -⟩
      · exact .inl (append hl)
      · cases he
    · rcases ih hr with hl | ⟨-, hn⟩
      · exact .inl (append hl)
      · rw [List.dropWhile_append, hn]
        exact ih' hs
  | first _ ih =>
    simp only [Rule.begins, Bool.and_eq_true] at hr
    exact ih hr.1
  | second _ ih =>
    simp only [Rule.begins, Bool.and_eq_true] at hr
    exact ih hr.2
  | _ => cases hr

theorem Reads.has {kind : Kind} (h : Reads g r c ns c') (hr : r.has kind = true) :
    ∃ n ∈ ns, n.children = [] ∧ n.kind = kind := by
  induction h with
  | @token r t _ _ _ ns h =>
    rcases Rule.of_taken? h with ⟨k, hk, rfl⟩ | ⟨_, rfl, -, -⟩
    · have hkind : k = kind := by
        cases r with
        | mark | keyword | leaf | word =>
          exact (List.mem_singleton.1 hk).trans (of_decide_eq_true hr).symm
        | _ => cases hk
      exact ⟨_, List.mem_append_right _ (List.mem_singleton_self _), rfl, hkind⟩
    · cases hr
  | andThen _ _ ih ih' =>
    rw [Rule.has, Bool.or_eq_true] at hr
    rcases hr with hr | hr
    · obtain ⟨n, hn, h⟩ := ih hr
      exact ⟨n, List.mem_append_left _ hn, h⟩
    · obtain ⟨n, hn, h⟩ := ih' hr
      exact ⟨n, List.mem_append_right _ hn, h⟩
  | first _ ih =>
    rw [Rule.has, Bool.and_eq_true] at hr
    exact ih hr.1
  | second _ ih =>
    rw [Rule.has, Bool.and_eq_true] at hr
    exact ih hr.2
  | _ => cases hr

def Token.Filled (t : Token) : Prop :=
  t.kind.isLayout = false → t.kind ≠ .strange → t.start.byte < t.stop.byte

def Node.AnyFilled (ns : List Node) : Prop :=
  ∃ n ∈ ns, n.isTrivia = false ∧ ∃ x ∈ n.all, x.start.byte < x.stop.byte

theorem Node.AnyFilled.mono {ns ms : List Node} (h : AnyFilled ns) (hs : ns ⊆ ms) :
    AnyFilled ms := by
  obtain ⟨n, hn, h⟩ := h
  exact ⟨n, hs hn, h⟩

theorem Node.AnyFilled.made {k : Kind} {p : Pos} {row : List Node} (h : AnyFilled row) :
    ∃ x ∈ (made k p row).inner, x.start.byte < x.stop.byte := by
  obtain ⟨n, hn, ht, x, hx, hlt⟩ := h
  exact ⟨x, mem_allOf.2 ⟨n, mem_children_made hn ht, hx⟩, hlt⟩

theorem Node.AnyFilled.wrap {k : Kind} {p : Pos} {row : List Node} (h : AnyFilled row)
    (hk : k.isTrivia = false) : AnyFilled (wrap k p row) := by
  obtain ⟨x, hx, hlt⟩ := h.made (k := k) (p := p)
  rw [wrap_eq]
  exact ⟨_, List.mem_append_right _ (List.mem_singleton_self _), hk, x,
    mem_all_of_mem_inner hx, hlt⟩

theorem Rule.filled_of_taken? {t : Token} (hr : r.spends = true) (h : r.taken? t = some ns)
    (ht : t.Filled) : Node.AnyFilled ns := by
  have leaf {k : Kind} (hl : t.kind.isLayout = false) (hs : t.kind ≠ .strange)
      (hk : k.isTrivia = false) : Node.AnyFilled (t.leaf k) :=
    ⟨_, List.mem_append_right _ (List.mem_singleton_self _), hk, _, Node.mem_all_self _, ht hl hs⟩
  cases r with
  | mark | keyword =>
    simp only [taken?] at h
    split at h
    · rename_i hk
      cases h
      exact leaf (by rw [hk]; rfl) (by simp [hk]) rfl
    · cases h
  | leaf =>
    simp only [spends, Bool.and_eq_true, Bool.not_eq_true', decide_eq_true_eq] at hr
    simp only [taken?] at h
    split at h
    · rename_i hk
      cases h
      exact leaf (by rw [hk]; exact hr.1.1) (by rw [hk]; exact hr.1.2) hr.2
    · cases h
  | word =>
    simp only [taken?] at h
    split at h
    · rename_i hk
      cases h
      exact leaf (by rw [hk]; rfl) (by simp [hk]) rfl
    · rename_i hk
      split at h
      · cases h
      · cases h
        exact leaf (by rw [hk]; rfl) (by simp [hk]) rfl
    · cases h
  | layout => cases hr
  | _ => cases h

theorem Reads.spends (h : Reads g r c ns c') (hr : r.spends = true) (ht : ∀ t ∈ c.ahead, t.Filled) :
    Node.AnyFilled ns := by
  induction h with
  | token h => exact Rule.filled_of_taken? hr h (ht _ List.mem_cons_self)
  | andThen h _ ih ih' =>
    rw [Rule.spends, Bool.or_eq_true] at hr
    rcases hr with hr | hr
    · exact (ih hr ht).mono (List.subset_append_left _ _)
    · exact (ih' hr fun t h' => ht t (h.suffix.subset h')).mono (List.subset_append_right _ _)
  | first _ ih =>
    rw [Rule.spends, Bool.and_eq_true] at hr
    exact ih hr.1 ht
  | second _ ih =>
    rw [Rule.spends, Bool.and_eq_true] at hr
    exact ih hr.2 ht
  | node _ ih =>
    rw [Rule.spends, Bool.and_eq_true, Bool.not_eq_true'] at hr
    exact (ih hr.2 ht).wrap hr.1
  | growBase _ ih | extendBase _ ih =>
    rw [Rule.spends, Bool.and_eq_true] at hr
    exact ih hr.1 ht
  | growTail hk _ _ ih _ =>
    have hk := List.all_eq_true.1 (Bool.and_eq_true_iff.1 hr).2 _ hk
    rw [Bool.not_eq_true'] at hk
    exact ((ih hr ht).mono (List.subset_append_left _ _)).wrap hk
  | extendTail hk _ _ ih _ =>
    rw [Rule.spends, Bool.and_eq_true] at hr
    have hk := List.all_eq_true.1 hr.2 _ hk
    rw [Bool.not_eq_true'] at hk
    exact ((ih hr.1 ht).mono (List.subset_append_left _ _)).wrap hk
  | only _ _ ih => exact ih hr ht
  | _ => cases hr

end

end AsyncSpread.Python
