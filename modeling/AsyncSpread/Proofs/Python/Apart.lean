import AsyncSpread.Proofs.Python.Names

/-!
Places of a tree that do not coincide.

A function begins with a keyword, so nothing else that is not around it begins where it does: no
other function and no call; and no node begins or ends inside the keyword.
-/

namespace AsyncSpread.Python

variable {source : List Char} {root : Node}

/-- What is inside a node, but for the leaf at its beginning, begins behind that leaf. -/
theorem Node.stop_le_of_mem_inner {n leaf x : Node} {rest : List Node} (hn : n.Nested source)
    (hc : n.children = leaf :: rest) (hbare : leaf.children = []) (hx : x ∈ n.inner)
    (hne : x ≠ leaf) : leaf.stop.byte ≤ x.start.byte := by
  have hl := hn.laid
  rw [hc] at hl
  obtain ⟨-, -, hrest⟩ := hl
  unfold inner at hx
  rw [hc, allOf_cons, all_eq, inner, hbare] at hx
  rcases List.mem_cons.1 hx with hx | hx
  · exact absurd hx hne
  · obtain ⟨m, hm, hx⟩ := mem_allOf.1 hx
    have hmn : m.Nested source := hn.child (by rw [hc]; exact List.mem_cons_of_mem _ hm)
    obtain ⟨-, hs, -⟩ := hmn.of_mem_all hx
    obtain ⟨hm, -, -⟩ := hrest.of_mem (List.mem_map_of_mem hm)
    exact (hm.trans hs).byte_le

/-- The keyword that a function begins with. -/
structure Node.Opens (source : List Char) (d : Node) (k : Keyword) (leaf : Node) : Prop where
  child : leaf ∈ d.children
  head : d.children.head? = some leaf
  kind : leaf.kind = .keyword k
  bare : leaf.children = []
  start : leaf.start = d.start
  filled : leaf.start.byte < leaf.stop.byte
  text : Text.slice leaf.start.byte leaf.stop.byte source = k.chars
  keyword : k = .asyncWord ∨ k = .defWord

theorem exists_opens (h : root.Shaped source) {d : Node} (hd : d ∈ root.all)
    (hk : d.kind = .functionDefinition) : ∃ k leaf, d.Opens source k leaf := by
  have hl : d.Leads := by
    rw [Node.Leads, hk]
    rfl
  obtain ⟨leaf, rest, hc, hleaf, hstart⟩ := h.opening d hd hl
  have hchild : leaf ∈ d.children := hc ▸ List.mem_cons_self
  have hkw : ∃ k, leaf.kind = .keyword k ∧ (k = .asyncWord ∨ k = .defWord) := by
    rw [hk] at hleaf
    simp only [Kind.openings, List.mem_cons, List.not_mem_nil, or_false] at hleaf
    rcases hleaf with hleaf | hleaf
    · exact ⟨_, hleaf, .inl rfl⟩
    · exact ⟨_, hleaf, .inr rfl⟩
  obtain ⟨k, hkind, hk'⟩ := hkw
  have ht := h.keyword leaf (Node.mem_all_of_child hd hchild) k hkind
  exact ⟨k, leaf, hchild, by rw [hc]; rfl, hkind, ht.bare, hstart, ht.filled, ht.text, hk'⟩

namespace Node.Opens

variable {d leaf x : Node} {k : Keyword}

/-- What is inside a function, but for its keyword, begins behind the keyword. -/
theorem stop_le_of_mem_inner (ho : d.Opens source k leaf) (hn : d.Nested source) (hx : x ∈ d.inner)
    (hne : x ≠ leaf) : leaf.stop.byte ≤ x.start.byte := by
  obtain ⟨rest, hc⟩ := List.head?_eq_some_iff.1 ho.head
  exact Node.stop_le_of_mem_inner hn hc ho.bare hx hne

theorem cut (ho : d.Opens source k leaf) (hn : d.Nested source) : ∃ before after,
    source = before ++ k.chars ++ after ∧ d.start.byte = Text.byteLength before ∧
      leaf.stop.byte = Text.byteLength before + Text.byteLength k.chars := by
  obtain ⟨before, inside, after, hs, hstart, hstop⟩ := (hn.child ho.child).span
  have ht := ho.text
  rw [hstart, hstop, Span.slice_eq hs] at ht
  subst ht
  refine ⟨before, after, hs, ?_, ?_⟩
  · rw [← ho.start, hstart, Pos.byte_past_start]
  · rw [hstop, Pos.byte_past_start, Text.byteLength_append]

theorem isAsync_iff (ho : d.Opens source k leaf) :
    (d.children.head?.map Node.kind == some (.keyword .asyncWord)) = true ↔ k = .asyncWord := by
  rw [ho.head, Option.map_some, ho.kind, beq_iff_eq, Option.some.injEq, Kind.keyword.injEq]

theorem stop_le_stop (ho : d.Opens source k leaf) (hn : d.Nested source) :
    leaf.stop.byte ≤ d.stop.byte :=
  (hn.laid.of_mem (List.mem_map_of_mem ho.child)).2.2.byte_le

theorem start_lt_stop (ho : d.Opens source k leaf) (hn : d.Nested source) :
    d.start.byte < d.stop.byte := by
  have h1 := ho.filled
  have h2 := ho.stop_le_stop hn
  rw [ho.start] at h1
  omega

end Node.Opens

theorem function_ext (h : root.Shaped source) {d e : Node} (hd : d ∈ root.all) (he : e ∈ root.all)
    (hdk : d.kind = .functionDefinition) (hek : e.kind = .functionDefinition)
    (hs : d.start.byte = e.start.byte) : d = e := by
  have lt {x y : Node} (hx : x ∈ root.all) (hxk : x.kind = .functionDefinition)
      (hyk : y.kind = .functionDefinition) (hb : x.Before y) : x.start.byte < y.start.byte := by
    obtain ⟨k, leaf, ho⟩ := exists_opens h hx hxk
    have hn := (h.nested.of_mem_all hx).1
    have hfilled := ho.filled
    rw [ho.start] at hfilled
    rcases hb with hb | hb
    · have hne : y ≠ leaf := fun he => by
        rw [he, ho.kind] at hyk
        cases hyk
      have := ho.stop_le_of_mem_inner hn hb hne
      omega
    · have := ho.start_lt_stop hn
      omega
  rcases pairwise_cases h.nested.pairwise_all hd he with heq | hb | hb
  · exact heq
  · have := lt hd hdk hek hb
    omega
  · have := lt he hek hdk hb
    omega

theorem exists_closing (h : root.Shaped source) {c : Node} (hc : c ∈ root.all)
    (hk : c.kind = .call) : ∃ leaf ∈ c.inner, leaf.IsToken source [')'] ∧ leaf.stop = c.stop := by
  obtain ⟨args, hargs, hstop, leaf, hleaf, hclose, hstop'⟩ := h.closing c hc hk
  have hmem : args ∈ c.children := List.mem_of_mem_getLast? hargs
  have hinner : leaf ∈ c.inner := Node.mem_allOf.2
    ⟨args, hmem, Node.mem_all_of_child args.mem_all_self (List.mem_of_mem_getLast? hleaf)⟩
  exact ⟨leaf, hinner, h.mark leaf (Node.mem_all_trans hc hinner) _ (by decide) hclose,
    hstop'.trans hstop⟩

theorem start_lt_stop_of_call (h : root.Shaped source) {c : Node} (hc : c ∈ root.all)
    (hk : c.kind = .call) : c.start.byte < c.stop.byte := by
  obtain ⟨leaf, hleaf, ht, hstop⟩ := exists_closing h hc hk
  have hfilled := ht.filled
  obtain ⟨-, hstart, -⟩ := (h.nested.of_mem_all hc).1.of_mem_inner hleaf
  have hle := hstart.byte_le
  rw [hstop] at hfilled
  omega

theorem start_call_ne (h : root.Shaped source) {d c : Node} (hd : d ∈ root.all) (hc : c ∈ root.all)
    (hdk : d.kind = .functionDefinition) (hck : c.kind = .call) : c.start.byte ≠ d.start.byte := by
  obtain ⟨k, leaf, ho⟩ := exists_opens h hd hdk
  have hdn := (h.nested.of_mem_all hd).1
  have hlt := start_lt_stop_of_call h hc hck
  have hfilled := ho.filled
  rw [ho.start] at hfilled
  rcases pairwise_cases h.nested.pairwise_all hd hc with heq | hb | hb
  · rw [heq, hck] at hdk
    cases hdk
  · rcases hb with hb | hb
    · have hne : c ≠ leaf := fun he => by
        rw [he, ho.kind] at hck
        cases hck
      have := ho.stop_le_of_mem_inner hdn hb hne
      omega
    · have := ho.start_lt_stop hdn
      omega
  · rcases hb with hb | hb
    · have hp := (h.call c hc hck d hb).1
      rw [hdk] at hp
      cases hp
    · omega

theorem not_inside_keyword (h : root.Shaped source) {leaf x : Node} (hl : leaf ∈ root.all)
    (hbare : leaf.children = []) (hx : x ∈ root.all) :
    (x.start.byte ≤ leaf.start.byte ∨ leaf.stop.byte ≤ x.start.byte) ∧
      (x.stop.byte ≤ leaf.start.byte ∨ leaf.stop.byte ≤ x.stop.byte) := by
  have hxn := (h.nested.of_mem_all hx).1
  have hle := hxn.span.byte_le
  rcases pairwise_cases h.nested.pairwise_all hl hx with rfl | hb | hb
  · exact ⟨.inl (Nat.le_refl _), .inr (Nat.le_refl _)⟩
  · rcases hb with hb | hb
    · rw [Node.inner, hbare] at hb
      cases hb
    · exact ⟨.inr hb, .inr (by omega)⟩
  · rcases hb with hb | hb
    · obtain ⟨-, h1, h2⟩ := hxn.of_mem_inner hb
      exact ⟨.inl h1.byte_le, .inr h2.byte_le⟩
    · exact ⟨.inl (by omega), .inl hb⟩

end AsyncSpread.Python
