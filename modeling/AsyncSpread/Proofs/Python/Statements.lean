import AsyncSpread.Proofs.Python.Lawful

/-!
What compound statements and decorators begin with.

Each of them begins with a keyword, or with the mark of decorators, so it has text where it begins,
and its line does not end there (`exists_first_of_leads`).
-/

namespace AsyncSpread.Python

variable {source : List Char} {root n x : Node}

theorem exists_first_of_leads (h : root.Shaped source) (hx : x ∈ root.all) (hl : x.Leads) :
    x.start.byte < x.stop.byte ∧
      ∃ before c after, source = before ++ c :: after ∧ x.start.byte = Text.byteLength before ∧
        c ≠ '\n' := by
  obtain ⟨leaf, rest, hchildren, hleaf, hstart⟩ := h.opening x hx hl
  have hn := (h.nested.of_mem_all hx).1
  have hchild : leaf ∈ x.children := hchildren ▸ List.mem_cons_self
  have hroot : leaf ∈ root.all := Node.mem_all_of_child hx hchild
  have hstop : leaf.stop.byte ≤ x.stop.byte :=
    (hn.laid.of_mem (List.mem_map_of_mem hchild)).2.2.byte_le
  obtain ⟨text, hline, ht⟩ : ∃ text, '\n' ∉ text ∧ leaf.IsToken source text := by
    rcases openings_cases hleaf with ⟨w, hw⟩ | hat
    · exact ⟨_, Text.not_mem_of_isWord w.isWord_chars (by decide), h.keyword leaf hroot w hw⟩
    · exact ⟨_, by decide, h.mark leaf hroot .at (by decide) hat⟩
  have hfilled := ht.filled
  have htext : Text.slice leaf.start.byte leaf.stop.byte source = text := ht.text
  obtain ⟨before, inside, after, hsource, hp, hq⟩ := (hn.child hchild).span
  rw [hp, hq, Span.slice_eq hsource] at htext
  subst htext
  rw [hp, hq, Pos.past_append, Pos.byte_past (Pos.start.past before)] at hfilled
  obtain ⟨c, cs, rfl⟩ : ∃ c cs, inside = c :: cs := List.exists_cons_of_ne_nil fun hnil => by
    rw [hnil, Text.byteLength_nil] at hfilled
    omega
  refine ⟨?_, before, c, cs ++ after, ?_, ?_, fun hc => hline (hc ▸ List.mem_cons_self)⟩
  · rw [← hstart, hp]
    rw [hq, Pos.past_append, Pos.byte_past (Pos.start.past before)] at hstop
    omega
  · rw [hsource, List.append_assoc]
    rfl
  · rw [← hstart, hp, Pos.byte_past_start]

theorem Laid.pairwise {p q : Pos} {as : List (Pos × Pos)} (h : Laid source p as q) :
    as.Pairwise fun s s' => Span source s.2 s'.1 := by
  induction as generalizing p with
  | nil => exact .nil
  | cons a as ih => exact .cons (fun s hs => (h.2.2.of_mem hs).1) (ih h.2.2)

theorem Node.Nested.pairwise_children (h : n.Nested source) :
    n.children.Pairwise fun x y => Span source x.stop y.start :=
  List.pairwise_map.1 h.laid.pairwise

end AsyncSpread.Python
