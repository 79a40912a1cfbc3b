import AsyncSpread.Proofs.Rewrite.Layout

/-!
The tree of a text fits (`Node.Shaped.fits`).

A function begins with its keyword and a decorator with its mark, so nothing in them begins where
they do, and in a call there are no functions and no decorators.  A call ends with a parenthesis,
and not with a line.
-/

namespace AsyncSpread

namespace Text

/-- Behind a character that ends no line no line begins, unless the text ends there. -/
theorem not_beginsLine {before after : List Char} {c : Char} (hc : c ≠ '\n') (ha : after ≠ []) :
    ¬ BeginsLine (before ++ [c] ++ after) (byteLength (before ++ [c])) := by
  have hpos := Char.utf8Size_pos c
  intro hor
  rcases hor with h | h | ⟨line, rest, hs, h⟩
  · rw [byteLength_append, byteLength_cons] at h
    omega
  · obtain ⟨d, ds, rfl⟩ := List.exists_cons_of_ne_nil ha
    have hd := Char.utf8Size_pos d
    rw [byteLength_append (before ++ [c]), byteLength_cons] at h
    omega
  · have hcut : before ++ [c] ++ after = (line ++ ['\n']) ++ rest := by rw [hs, List.append_cons]
    have hone : byteLength (line ++ ['\n']) = byteLength line + 1 := byteLength_append _ _
    obtain ⟨heq, -⟩ := append_inj_byteLength hcut (h.trans hone.symm)
    have hlast := List.append_inj_right' heq rfl
    exact hc (List.cons.inj hlast).1

end Text

namespace Python

variable {source : List Char} {root n x : Node}

/-- A decorator or function begins with a leaf of its own. -/
theorem exists_opening (h : root.Shaped source) (hn : n ∈ root.all)
    (hk : n.kind = .functionDefinition ∨ n.kind = .decorator) :
    ∃ leaf rest, n.children = leaf :: rest ∧
      leaf.children = [] ∧ leaf.isOpener = false ∧ n.start.byte < leaf.stop.byte := by
  have hl : n.Leads := by
    rcases hk with hk | hk <;> rw [Node.Leads, hk] <;> rfl
  obtain ⟨leaf, rest, hc, hleaf, hstart⟩ := h.opening n hn hl
  have hroot : leaf ∈ root.all := Node.mem_all_of_child hn (hc ▸ List.mem_cons_self)
  have hopener {k : Kind} (hk : leaf.kind = k) (ht : ∃ chars, leaf.IsToken source chars)
      (hno : (k = .call || k = .functionDefinition || k = .decorator) = false) :
      leaf.children = [] ∧ leaf.isOpener = false ∧ n.start.byte < leaf.stop.byte := by
    obtain ⟨_, ht⟩ := ht
    have hfilled := ht.filled
    rw [hstart] at hfilled
    exact ⟨ht.bare, by rw [Node.isOpener, hk, hno], hfilled⟩
  rcases openings_cases hleaf with ⟨w, hw⟩ | hat
  · exact ⟨leaf, rest, hc, hopener hw ⟨_, h.keyword leaf hroot w hw⟩ rfl⟩
  · exact ⟨leaf, rest, hc, hopener hat ⟨_, h.mark leaf hroot .at (by decide) hat⟩ rfl⟩

theorem filled_of_isOpener (h : root.Shaped source) (hn : n ∈ root.all) (ho : n.isOpener = true) :
    n.start.byte < n.stop.byte := by
  rcases Node.isOpener_iff.1 ho with hk | hk
  · exact start_lt_stop_of_call h hn hk
  · obtain ⟨leaf, rest, hc, -, -, hlt⟩ := exists_opening h hn hk
    have hle := ((h.nested.of_mem_all hn).1.laid.of_mem
      (List.mem_map_of_mem (hc ▸ List.mem_cons_self))).2.2.byte_le
    exact Nat.lt_of_lt_of_le hlt hle

/-- Of two calls, functions or decorators that begin together both are calls. -/
theorem calls_of_start_eq (h : root.Shaped source) (hn : n ∈ root.all) (ho : n.isOpener = true)
    (hx : x ∈ n.inner) (hxo : x.isOpener = true) (hs : n.start.byte = x.start.byte) :
    n.kind = .call ∧ x.kind = .call := by
  rcases Node.isOpener_iff.1 ho with hk | hk
  · refine ⟨hk, ?_⟩
    obtain ⟨hscope, hdecorator⟩ := h.call n hn hk x hx
    rcases Node.isOpener_iff.1 hxo with hxk | hxk | hxk
    · exact hxk
    · rw [hxk] at hscope
      cases hscope
    · exact absurd hxk hdecorator
  · obtain ⟨leaf, rest, hc, hbare, hleaf, hlt⟩ := exists_opening h hn hk
    have hne : x ≠ leaf := by
      intro he
      rw [he, hleaf] at hxo
      cases hxo
    have hle := Node.stop_le_of_mem_inner (h.nested.of_mem_all hn).1 hc hbare hx hne
    omega

/-- A call ends with a parenthesis, so no line begins behind it if the text goes on. -/
theorem exists_closeParen (h : root.Shaped source) (hx : x ∈ root.all) (hcall : x.kind = .call) :
    ∃ before after, source = before ++ [')'] ++ after ∧ x.stop.byte = Text.byteLength
      (before ++ [')']) := by
  obtain ⟨leaf, hleaf, htoken, hend⟩ := exists_closing h hx hcall
  obtain ⟨before, inside, after, hs, hstart, hstop⟩ :=
    (h.nested.of_mem_all (Node.mem_all_trans hx hleaf)).1.span
  have ht : Text.slice leaf.start.byte leaf.stop.byte source = [')'] := htoken.text
  rw [hstart, hstop, Span.slice_eq hs] at ht
  subst ht
  refine ⟨before, after, hs, ?_⟩
  rw [← hend, hstop]
  exact Pos.byte_past_start _

theorem Node.Shaped.fits (h : root.Shaped source) : root.Fits source where
  nested := h.nested
  filled _ hx ho := filled_of_isOpener h hx ho
  apart _ hx ho _ hy hyo hs := calls_of_start_eq h hx ho hy hyo hs
  within n hn hk x hx hcall := by
    have hmem : x ∈ n.children := List.mem_of_mem_head? hx
    have hxroot : x ∈ root.all := Node.mem_all_of_child hn hmem
    obtain ⟨y, rest, hchildren, hlt⟩ := h.built n hn hk
    have hx : n.children.head? = some x := hx
    rw [hchildren] at hx
    cases hx
    have hlt := hlt hcall
    obtain ⟨before, after, hs, hstop⟩ := exists_closeParen h hxroot hcall
    rw [hstop] at hlt ⊢
    have hend : n.stop.byte ≤ Text.byteLength source := by
      obtain ⟨front, rest, hs', hn'⟩ := (h.nested.of_mem_all hn).1.span.right_in
      rw [hn', Pos.byte_past, hs', Text.byteLength_append]
      simp only [Pos.start]
      omega
    rw [hs] at hend ⊢
    refine Text.not_beginsLine (by decide) fun hnil => ?_
    rw [hnil, List.append_nil] at hend
    omega

end Python

end AsyncSpread
