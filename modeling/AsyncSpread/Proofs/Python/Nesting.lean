import AsyncSpread.Proofs.Python.Reads
import AsyncSpread.Proofs.Python.Tokens
import AsyncSpread.Proofs.Python.Trees
import AsyncSpread.Python.Parse

/-!
The trees that the grammar reads are nested.

Every way of making a node of a row keeps its nodes in a row, so this holds of each reading
(`Reads.laid`) and of the tree of a text (`nested_of_parse`).
-/

namespace AsyncSpread.Python

namespace Node

theorem stopOf_eq (p : Pos) (ns : List Node) : stopOf p ns = Laid.stop p (ns.map span) := by
  induction ns generalizing p with
  | nil => rfl
  | cons n ns ih =>
    cases ns with
    | nil => rfl
    | cons m ns => exact (ih p).trans rfl

theorem stop_getLast? {p : Pos} {ns : List Node} {n : Node} (h : n ∈ ns.getLast?) :
    stopOf p ns = n.stop := by
  induction ns with
  | nil => cases h
  | cons m ns ih =>
    cases ns with
    | nil =>
      cases h
      rfl
    | cons m' ns => exact ih h

/-! ## Making a node of a row -/

theorem nested_trivia {source : List Char} {t : Trivia} (h : Span source t.start t.stop) :
    (Trivia.node t).Nested source :=
  .mk h nofun

theorem nested_leaf {source : List Char} {p q : Pos} (k : Kind) (h : Span source p q) :
    (Node.mk k p q []).Nested source :=
  .mk h nofun

variable {source : List Char} {p q : Pos} {row : List Node}

theorem takeWhile_append_dropWhile (row : List Node) :
    row.takeWhile isTrivia ++ row.dropWhile isTrivia = row := List.takeWhile_append_dropWhile

theorem mem_wrap {k : Kind} {x : Node} (h : x ∈ wrap k q row) :
    x ∈ row ∨ x = .mk k ((row.dropWhile isTrivia).head?.elim q start)
      (stopOf q (row.dropWhile isTrivia)) (row.dropWhile isTrivia) := by
  rcases List.mem_append.1 h with h | h
  · refine .inl ?_
    rw [← takeWhile_append_dropWhile row]
    exact List.mem_append_left _ h
  · rw [List.mem_singleton] at h
    refine .inr (h.trans ?_)
    cases row.dropWhile isTrivia <;> rfl

theorem nested_inside (k : Kind) {inside : List Node} (hl : Laid source p (inside.map span) q)
    (hn : ∀ n ∈ inside, n.Nested source) :
    (Node.mk k (inside.head?.elim q start) (stopOf q inside) inside).Nested source ∧
      Span source p (inside.head?.elim q start) ∧ Span source (stopOf q inside) q := by
  cases inside with
  | nil =>
    have hq : Span source q q := .refl hl.span.right_in
    exact ⟨nested_leaf k hq, hl, hq⟩
  | cons n ns =>
    obtain ⟨h1, h2, h3⟩ := hl
    have hstop : stopOf q (n :: ns) = Laid.stop n.stop (ns.map span) := stopOf_eq q (n :: ns)
    have hs : Span source n.start n.start := .refl h1.right_in
    rw [hstop]
    exact ⟨.mk ⟨hs, h2, h3.to_stop.1⟩ hn, h1, h3.to_stop.2⟩

theorem nested_wrap (k : Kind) (hl : Laid source p (row.map span) q)
    (hn : ∀ n ∈ row, n.Nested source) :
    Laid source p ((wrap k q row).map span) q ∧ ∀ n ∈ wrap k q row, n.Nested source := by
  have hn' : ∀ n ∈ row.dropWhile isTrivia, n.Nested source :=
    fun n hx => hn n (List.dropWhile_subset _ hx)
  rw [← takeWhile_append_dropWhile row, List.map_append] at hl
  obtain ⟨h1, h2⟩ := hl.append_stop
  obtain ⟨hm, h3, h4⟩ := nested_inside k h2 hn'
  constructor
  · unfold wrap
    extract_lets outside inside first
    have hfirst : first = inside.head?.elim q start := by
      unfold first
      cases inside <;> rfl
    rw [List.map_append, hfirst]
    exact h1.append ⟨h3, hm.span, h4⟩
  · intro n hx
    rcases mem_wrap hx with hx | rfl
    · exact hn n hx
    · exact hm

end Node

/-! ## What is read -/

variable {σ : Type} {g : σ → Rule σ} {r : Rule σ} {c c' : Cursor} {ns : List Node}
  {source : List Char}

def Rule.leafKinds : Rule σ → List Kind
  | .mark m => [.mark m]
  | .keyword k => [.keyword k]
  | .leaf _ k => [k]
  | .word _ => [.identifier]
  | _ => []

theorem Rule.of_taken? {t : Token} (h : r.taken? t = some ns) :
    (∃ k ∈ r.leafKinds, ns = t.leaf k) ∨ ∃ kind, r = .layout kind ∧ t.kind = kind ∧
      ns = t.before.map Trivia.node := by
  cases r with
  | mark | keyword | leaf =>
    simp only [taken?] at h
    split at h
    · cases h
      exact .inl ⟨_, List.mem_singleton_self _, rfl⟩
    · cases h
  | word except =>
    simp only [taken?] at h
    split at h
    · cases h
      exact .inl ⟨_, List.mem_singleton_self _, rfl⟩
    · split at h
      · cases h
      · cases h
        exact .inl ⟨_, List.mem_singleton_self _, rfl⟩
    · cases h
  | layout kind =>
    simp only [taken?] at h
    split at h
    · rename_i hk
      cases h
      exact .inr ⟨kind, rfl, hk, rfl⟩
    · cases h
  | _ => cases h

theorem map_span_trivia (ts : List Trivia) :
    (ts.map Trivia.node).map Node.span = ts.map Trivia.span := by
  rw [List.map_map]
  rfl

/-- A reading leaves its nodes in a row, from where the last token stopped before it to where the
last token stops behind it. -/
theorem Reads.laid {zs : List (Pos × Pos)} {q : Pos} (h : Reads g r c ns c')
    (hl : Laid source c.last (c.ahead.flatMap Token.spans ++ zs) q) :
    Laid source c.last (ns.map Node.span) c'.last ∧ Laid source c'.last
      (c'.ahead.flatMap Token.spans ++ zs) q ∧ ∀ n ∈ ns, n.Nested source := by
  have stays {c : Cursor} (hl : Laid source c.last (c.ahead.flatMap Token.spans ++ zs) q) :
      Laid source c.last ([].map Node.span) c.last ∧
        Laid source c.last (c.ahead.flatMap Token.spans ++ zs) q ∧
        ∀ n ∈ ([] : List Node), n.Nested source := ⟨.refl hl.span.left_in, hl, nofun⟩
  induction h with
  | @token r t rest count last ns h =>
    simp only [List.flatMap_cons, Token.spans, List.append_assoc] at hl
    obtain ⟨p, h1, h2, h3, h4⟩ := Laid.append_iff.1 hl
    have htrivia : ∀ n ∈ t.before.map Trivia.node, n.Nested source := by
      intro n hn
      obtain ⟨u, hu, rfl⟩ := List.mem_map.1 hn
      exact Node.nested_trivia (h1.of_mem (List.mem_map_of_mem hu)).2.1
    rw [← map_span_trivia] at h1
    rcases Rule.of_taken? h with ⟨k, -, rfl⟩ | ⟨kind, -, -, rfl⟩
    · have hleaf := Node.nested_leaf k h3
      refine ⟨?_, h4, fun n hn => ?_⟩
      · rw [Token.leaf, List.map_append]
        exact h1.append ⟨h2, h3, .refl h3.right_in⟩
      · rcases List.mem_append.1 hn with hn | hn
        · exact htrivia n hn
        · rw [List.mem_singleton] at hn
          exact hn ▸ hleaf
    · exact ⟨h1.after (h2.trans h3), h4, htrivia⟩
  | nothing | «unless» _ | before _ | done => exact stays hl
  | andThen _ _ ih ih' | more _ _ ih ih' =>
    obtain ⟨h1, h2, h3⟩ := ih hl
    obtain ⟨h4, h5, h6⟩ := ih' h2
    rw [List.map_append]
    exact ⟨h1.append h4, h5, fun n hn => (List.mem_append.1 hn).elim (h3 n) (h6 n)⟩
  | first _ ih | second _ ih | growBase _ ih | extendBase _ ih | only _ _ ih | rule _ ih =>
    exact ih hl
  | node _ ih =>
    obtain ⟨h1, h2, h3⟩ := ih hl
    obtain ⟨h4, h5⟩ := Node.nested_wrap _ h1 h3
    exact ⟨h4, h2, h5⟩
  | growTail _ _ _ ih ih' | extendTail _ _ _ ih ih' =>
    obtain ⟨h1, h2, h3⟩ := ih hl
    obtain ⟨h4, h5, h6⟩ := ih' h2
    have hrow := h1.append h4
    rw [← List.map_append] at hrow
    obtain ⟨h7, h8⟩ := Node.nested_wrap _ hrow fun n hn => (List.mem_append.1 hn).elim (h3 n) (h6 n)
    exact ⟨h7, h5, h8⟩

/-- What a tree is made of: the statements that are read, and the trivia behind them. -/
theorem of_parse {root : Node} (h : Grammar.parse source = .ok root) :
    ∃ ns c, Reads Grammar.rules Grammar.module (.ofTokens (tokensOf source).1) ns c ∧ c.ahead = [] ∧
      root = moduleNode ns (tokensOf source).2 := by
  unfold Grammar.parse at h
  simp only at h
  split at h
  · rename_i ns count last hr
    cases h
    exact ⟨ns, _, Rule.reads_of_read hr, rfl, rfl⟩
  · cases h

theorem nested_of_parse {root : Node} (h : Grammar.parse source = .ok root) :
    root.Nested source := by
  obtain ⟨ns, c, hr, hc, rfl⟩ := of_parse h
  obtain ⟨q, hl⟩ := laid_tokensOf source
  obtain ⟨h1, h2, h3⟩ := hr.laid hl
  rw [hc, List.flatMap_nil, List.nil_append] at h2
  have hafter : ∀ n ∈ (tokensOf source).2.map Trivia.node, n.Nested source := by
    intro n hn
    obtain ⟨t, ht, rfl⟩ := List.mem_map.1 hn
    exact Node.nested_trivia (h2.of_mem (List.mem_map_of_mem ht)).2.1
  rw [← map_span_trivia] at h2
  have hrow := h1.append h2
  rw [← List.map_append] at hrow
  obtain ⟨hn, -, -⟩ := Node.nested_inside .module hrow fun n hn =>
    (List.mem_append.1 hn).elim (h3 n) (hafter n)
  unfold moduleNode
  cases hc : ns ++ (tokensOf source).2.map Trivia.node with
  | nil => exact Node.nested_leaf _ (.refl ⟨[], source, rfl, rfl⟩)
  | cons n ns =>
    rw [hc] at hn
    have hstop (p : Pos) : Node.stopOf p (n :: ns) = Laid.stop n.stop (ns.map Node.span) :=
      Node.stopOf_eq p (n :: ns)
    rw [hstop] at hn
    simp only [hstop]
    exact hn

end AsyncSpread.Python
