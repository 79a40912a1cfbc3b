import AsyncSpread.Proofs.Python.Apart
import AsyncSpread.Proofs.Rewrite.Gathered

/-!
Where insertions stand.

All that the walk inserts stands where a call, a function or a decorator begins or where a call
ends, and the import stands where a line begins or at the end of the text.  So nothing is inserted
inside the keyword that a function begins with.
-/

namespace AsyncSpread

namespace Text

theorem byteLength_reverse (cs : List Char) : byteLength cs.reverse = byteLength cs := by
  induction cs with
  | nil => rfl
  | cons c cs ih =>
    rw [List.reverse_cons, byteLength_append, ih, byteLength_cons, byteLength_cons, byteLength_nil]
    omega

def BeginsLine (cs : List Char) (offset : Nat) : Prop :=
  offset = 0 ∨ offset = byteLength cs ∨ ∃ before after, cs = before ++ '\n' :: after ∧
    offset = byteLength before + 1

/-- What is left of a text behind its first line begins with a line feed. -/
theorem cut_line (cs : List Char) : cs.takeWhile (· ≠ '\n') = cs ∨
    ∃ rest, cs = cs.takeWhile (· ≠ '\n') ++ '\n' :: rest := by
  induction cs with
  | nil => exact .inl rfl
  | cons c cs ih =>
    by_cases hc : c = '\n'
    · refine .inr ⟨cs, ?_⟩
      rw [List.takeWhile_cons, if_neg (by simpa using hc), List.nil_append, hc]
    · rw [List.takeWhile_cons, if_pos (by simpa using hc)]
      rcases ih with ih | ⟨rest, ih⟩
      · exact .inl (congrArg (c :: ·) ih)
      · exact .inr ⟨rest, congrArg (c :: ·) ih⟩

theorem lineStart_cases (cs : List Char) (offset : Nat) : lineStart cs offset = 0 ∨
    ∃ before after, cs = before ++ '\n' :: after ∧ lineStart cs offset = byteLength before + 1 := by
  have hcut := takeBytes_append_dropBytes offset cs
  unfold lineStart
  extract_lets before
  rcases cut_line before.reverse with hl | ⟨rest, hl⟩
  · rw [hl, byteLength_reverse]
    exact .inl (Nat.sub_self _)
  · have hlen := congrArg byteLength hl
    rw [byteLength_reverse, byteLength_append, byteLength_cons] at hlen
    have hone : ('\n' : Char).utf8Size = 1 := rfl
    have hb : before = rest.reverse ++ '\n' :: (before.reverse.takeWhile (· ≠ '\n')).reverse := by
      have := congrArg List.reverse hl
      simpa using this
    refine .inr ⟨rest.reverse, (before.reverse.takeWhile (· ≠ '\n')).reverse ++ dropBytes offset cs,
      ?_, ?_⟩
    · rw [← List.cons_append, ← List.append_assoc, ← hb]
      exact hcut.symm
    · rw [byteLength_reverse]
      omega

theorem beginsLine_lineStart (cs : List Char) (offset : Nat) :
    BeginsLine cs (lineStart cs offset) :=
  (lineStart_cases cs offset).imp_right .inr

theorem beginsLine_nextLineStart (before after : List Char) :
    BeginsLine (before ++ after) (nextLineStart (before ++ after) (byteLength before)) := by
  unfold nextLineStart
  rw [dropBytes_byteLength_append]
  simp only
  split
  · exact .inr (.inl rfl)
  · rename_i hne
    rcases cut_line after with hl | ⟨rest, hl⟩
    · exact absurd (congrArg List.length hl) hne
    · refine .inr (.inr ⟨before ++ after.takeWhile (· ≠ '\n'), rest, ?_, ?_⟩)
      · rw [List.append_assoc, ← hl]
      · rw [byteLength_append]

/-- No line begins inside a piece of text without a line feed. -/
theorem BeginsLine.outside {before inside after : List Char} {offset : Nat}
    (h : BeginsLine (before ++ inside ++ after) offset) (hn : '\n' ∉ inside) :
    offset ≤ byteLength before ∨ byteLength before + byteLength inside ≤ offset := by
  rcases h with h | h | ⟨line, rest, he, h⟩
  · exact .inl (by omega)
  · rw [byteLength_append, byteLength_append] at h
    exact .inr (by omega)
  · by_cases hl : offset ≤ byteLength before
    · exact .inl hl
    · by_cases hr : byteLength before + byteLength inside ≤ offset
      · exact .inr hr
      · exfalso
        rw [List.append_assoc] at he
        obtain ⟨es, rfl⟩ := prefix_of_byteLength_le he (by omega)
        rw [List.append_assoc, List.append_cancel_left_eq, List.append_cons] at he
        have hone : ('\n' : Char).utf8Size = 1 := rfl
        rw [byteLength_append] at h
        obtain ⟨fs, hfs⟩ := prefix_of_byteLength_le he.symm (by simp; omega)
        exact hn (by simp [hfs])

end Text

namespace Rewrite

open Python

variable {t : Task} {root : Node}

theorem kind_of_wraps {pl : Place} (h : t.wraps pl = true) : pl.node.kind = .call := by
  unfold Task.wraps at h
  simp only [Bool.and_eq_true, decide_eq_true_eq] at h
  exact h.1.1

/-- The marker stands above a function or above one of its decorators. -/
theorem exists_offset_markerEdit {pl : Place} (hk : pl.node.kind = .functionDefinition)
    (hn : pl.node ∈ root.all) (ha : ∀ a ∈ pl.around, a ∈ root.all) :
    ∃ x ∈ root.all, (x.kind = .functionDefinition ∨ x.kind = .decorator) ∧
      (markerEdit t (pl.site t) pl.node).offset = x.start.byte := by
  have hs : (pl.site t).decorators = pl.decorators := rfl
  unfold markerEdit
  rw [hs]
  cases hd : pl.decorators with
  | nil => exact ⟨pl.node, hn, .inl hk, rfl⟩
  | cons d ds =>
    have hmem : d ∈ pl.decorators := hd ▸ List.mem_cons_self
    unfold Place.decorators at hmem
    split at hmem
    · cases hmem
    · rename_i n ns hns
      unfold Place.decoratorsOf at hmem
      split at hmem
      · obtain ⟨hchild, hkind⟩ := List.mem_filter.1 hmem
        have hroot := ha n (by rw [hns]; exact List.mem_cons_self)
        exact ⟨d, Node.mem_all_of_child hroot hchild, .inr (of_decide_eq_true hkind), rfl⟩
      · cases hmem

/-- What an event gives stands where a call, a function or a decorator begins, or where a call
ends. -/
theorem Task.offset_of_mem_gives {pending : SortedSet String} {ev : Event} {e : Edit}
    (he : e ∈ t.gives pending ev) (hn : ev.place.node ∈ root.all)
    (ha : ∀ a ∈ ev.place.around, a ∈ root.all) :
    ∃ x ∈ root.all, (x.kind = .call ∨ x.kind = .functionDefinition ∨ x.kind = .decorator) ∧
      e.offset = x.start.byte ∨ x.kind = .call ∧ e.offset = x.stop.byte := by
  rcases of_mem_gives he with ⟨pl, rfl, hw, rfl | ⟨-, rfl⟩⟩ | ⟨pl, name, rfl, hd, -,
    ⟨-, rfl⟩ | ⟨-, -, rfl⟩⟩
  · exact ⟨pl.node, hn, .inl ⟨.inl (kind_of_wraps hw), rfl⟩⟩
  · exact ⟨pl.node, hn, .inr ⟨kind_of_wraps hw, rfl⟩⟩
  · exact ⟨pl.node, hn, .inl ⟨.inr (.inl (Place.defined?_eq_some.1 hd).1), rfl⟩⟩
  · obtain ⟨x, hx, hk, ho⟩ := exists_offset_markerEdit (Place.defined?_eq_some.1 hd).1 hn ha
    exact ⟨x, hx, .inl ⟨.inr hk, ho⟩⟩

theorem gather_eq_run (t : Task) (root : Node) :
    gather t root = t.run (eventsOf [] false root) (.start t.plan) :=
  visit_eq_run t [] false root (.start t.plan)

/-- What a module is rewritten to is what the walk over it has gathered. -/
theorem exists_gather {r : Rewritten} (h : rewriteTree t root = .ok r) :
    ∃ p, gather t root = .ok p ∧
    r = ⟨Edit.apply t.source (p.insertions t root), p.madeAsync, p.alreadyAsync, p.awaited,
      p.marked, p.needsImport t, p.pending⟩ := by
  unfold rewriteTree at h
  split at h
  · cases h
  · rename_i p hg
    cases h
    exact ⟨p, hg, rfl⟩

/-- What the walk inserts stands where a call, a function or a decorator begins, or where a call
ends. -/
theorem offset_of_mem_edits {p : Progress} (hg : gather t root = .ok p) {e : Edit}
    (he : e ∈ p.edits) :
    ∃ x ∈ root.all, (x.kind = .call ∨ x.kind = .functionDefinition ∨ x.kind = .decorator) ∧
      e.offset = x.start.byte ∨ x.kind = .call ∧ e.offset = x.stop.byte := by
  rw [gather_eq_run] at hg
  rcases (Task.mem_edits_run hg).1 he with he | ⟨before, ev, after, q, hes, -, he⟩
  · cases he
  · have hev : ev ∈ eventsOf [] false root := by
      rw [hes]
      exact List.mem_append_right _ List.mem_cons_self
    obtain ⟨hn, ha⟩ := of_mem_eventsOf hev
    exact Task.offset_of_mem_gives he hn fun a hmem => (ha a hmem).elim id nofun

/-- The import stands where a line begins, or at the end. -/
theorem beginsLine_importEdit (hn : root.Nested t.source) :
    Text.BeginsLine t.source (importEdit t root).offset := by
  have after {before rest : List Char} (hs : t.source = before ++ rest) {offset : Nat}
      (ho : offset = Text.byteLength before) (line : List Char) :
      Text.BeginsLine t.source (lineAfter t offset line).offset := by
    have hb := Text.beginsLine_nextLineStart before rest
    rw [← hs, ← ho] at hb
    exact hb
  unfold importEdit
  extract_lets line statements
  split
  · rename_i last hlast
    have hmem : last ∈ root.children := by
      have h1 := (List.takeWhile_sublist _).subset (List.mem_of_mem_getLast? hlast)
      exact (List.mem_filter.1 (List.mem_filter.1 h1).1).1
    obtain ⟨before, rest, hs, hstop⟩ := (hn.child hmem).span.right_in
    refine after hs ?_ line
    rw [hstop, Pos.byte_past_start]
  · exact Text.beginsLine_lineStart _ _
  · exact after (List.append_nil _).symm rfl line

/-- Nothing is inserted inside the keyword that a function begins with. -/
theorem offset_outside_keyword (h : root.Shaped t.source) {p : Progress}
    (hg : gather t root = .ok p) {d leaf : Node} {k : Keyword} (hd : d ∈ root.all)
    (ho : d.Opens t.source k leaf) {e : Edit} (he : e ∈ p.insertions t root) :
    e.offset ≤ d.start.byte ∨ leaf.stop.byte ≤ e.offset := by
  have hroot := h.nested
  have hleaf : leaf ∈ root.all :=
    Node.mem_all_of_child hd ho.child
  have hedits (he : e ∈ p.edits) : e.offset ≤ d.start.byte ∨ leaf.stop.byte ≤ e.offset := by
    obtain ⟨x, hx, hx'⟩ := offset_of_mem_edits hg he
    obtain ⟨hstart, hstop⟩ := not_inside_keyword h hleaf ho.bare hx
    rw [ho.start] at hstart hstop
    rcases hx' with ⟨-, hx'⟩ | ⟨-, hx'⟩
    · rw [hx']
      exact hstart
    · rw [hx']
      exact hstop
  unfold Progress.insertions at he
  split at he
  · rcases List.mem_append.1 he with he | he
    · exact hedits he
    · cases List.mem_singleton.1 he
      obtain ⟨before, after, hs, hstart, hstop⟩ := ho.cut (hroot.of_mem_all hd).1
      have hb := beginsLine_importEdit hroot
      rw [hs] at hb
      rw [hstart, hstop]
      refine hb.outside ?_
      rcases ho.keyword with rfl | rfl <;> decide
  · exact hedits he

end Rewrite

end AsyncSpread
