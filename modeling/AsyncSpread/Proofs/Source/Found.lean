import AsyncSpread.Proofs.Python.Names
import AsyncSpread.Proofs.Python.Words
import AsyncSpread.Source.Definition

/-!
Definitions that are found.

The lines of a text are the rows of its tree, so what stands in one row is found in the line of that
number (`Text.exists_line`).  A definition that is written plainly looks like one in the line where
it begins; it is found from an earlier line on if nothing between them looks like it
(`Source.definitionLine?_of_plain`), and the line leads to its own name.
-/

namespace AsyncSpread

namespace Text

variable {inside line : List Char}

theorem infix_withoutReturn (h : inside <:+: line) (hr : '\r' ∉ inside) :
    inside <:+: withoutReturn line := by
  unfold withoutReturn
  split
  · rename_i hlast
    obtain ⟨most, rfl⟩ := List.getLast?_eq_some_iff.1 hlast
    rw [List.dropLast_concat]
    rcases List.infix_concat_iff.1 h with h | h
    · rcases List.suffix_concat_iff.1 h with rfl | ⟨front, rfl, -⟩
      · exact List.nil_infix
      · exact absurd (List.mem_append_right _ (List.mem_singleton_self _)) hr
    · exact h
  · exact h

theorem exists_firstPiece {sep : Char} (after : List Char) (h : sep ∉ inside) :
    ∃ piece rest, piecesBetween sep (inside ++ after) = piece :: rest ∧ inside <+: piece := by
  induction inside with
  | nil =>
    obtain ⟨piece, rest, hp⟩ := List.exists_cons_of_ne_nil (piecesBetween_ne_nil sep after)
    exact ⟨piece, rest, hp, List.nil_prefix⟩
  | cons c cs ih =>
    rw [List.mem_cons, not_or] at h
    obtain ⟨piece, rest, hp, hprefix⟩ := ih h.2
    refine ⟨c :: piece, rest, ?_, (List.prefix_cons_inj c).2 hprefix⟩
    rw [List.cons_append, piecesBetween, if_neg (Ne.symm h.1), hp]

/-- What has no separator is in the piece with as many separators before it. -/
theorem exists_piece {sep : Char} (before after : List Char) (h : sep ∉ inside) :
    ∃ piece, (piecesBetween sep (before ++ inside ++ after))[before.count sep]? = some piece ∧
      inside <:+: piece := by
  induction before with
  | nil =>
    obtain ⟨piece, rest, hp, hprefix⟩ := exists_firstPiece after h
    exact ⟨piece, by rw [List.nil_append, hp]; rfl, hprefix.isInfix⟩
  | cons c cs ih =>
    obtain ⟨piece, hp, hinfix⟩ := ih
    rw [List.cons_append, List.cons_append, piecesBetween]
    by_cases hc : c = sep
    · rw [if_pos hc, hc, List.count_cons_self]
      exact ⟨piece, hp, hinfix⟩
    · rw [if_neg hc, List.count_cons_of_ne hc]
      cases hall : piecesBetween sep (cs ++ inside ++ after) with
      | nil => exact absurd hall (piecesBetween_ne_nil sep _)
      | cons first rest =>
        rw [hall] at hp
        cases hn : cs.count sep with
        | zero =>
          rw [hn] at hp
          cases hp
          exact ⟨c :: piece, rfl, List.infix_cons hinfix⟩
        | succ n =>
          rw [hn] at hp
          exact ⟨piece, hp, hinfix⟩

/-- What stands in one row of a text is found in the line of that row. -/
theorem exists_line (before after : List Char) (hne : inside ≠ []) (hn : '\n' ∉ inside)
    (hr : '\r' ∉ inside) :
    ∃ line, (lines (before ++ inside ++ after))[before.count '\n']? = some line ∧
      inside <:+: line := by
  obtain ⟨piece, hp, hinfix⟩ := exists_piece before after hn
  obtain ⟨most, last, hpieces⟩ :=
    (List.eq_nil_or_concat (piecesBetween '\n' (before ++ inside ++ after))).resolve_left
      (piecesBetween_ne_nil _ _)
  rw [List.concat_eq_append] at hpieces
  rw [hpieces, List.getElem?_append] at hp
  rw [lines, hpieces]
  simp only [List.getLastD_concat, List.dropLast_concat]
  split at hp
  · rename_i hlt
    rw [List.getElem?_append_left (by rwa [List.length_map]), List.getElem?_map, hp]
    exact ⟨_, rfl, infix_withoutReturn hinfix hr⟩
  · rename_i hle
    -- The last piece is a line, as there is something in it.
    rw [List.getElem?_singleton] at hp
    split at hp
    · rename_i hzero
      cases hp
      have hsome : piece.isEmpty = false := by
        rw [List.isEmpty_eq_false_iff]
        rintro rfl
        exact hne (List.infix_nil.1 hinfix)
      rw [List.getElem?_append_right (by rw [List.length_map]; omega), List.length_map,
        hzero, hsome]
      exact ⟨_, rfl, hinfix⟩
    · cases hp

end Text

namespace Source

open Python NameIndex

variable {source name : List Char} {lines : List (List Char)} {reported number : Nat}

/-- Nothing from a line on and before another one looks like the definition of a name. -/
def Clear (lines : List (List Char)) (name : List Char) (reported number : Nat) : Prop :=
  reported ≤ number ∧
    ∀ n line, reported ≤ n → n < number → lines[n]? = some line →
      looksLikeDefinition name line = false

/-- The line that is found is the first one from the reported line on that looks like the
definition. -/
theorem definitionLine?_eq_some : definitionLine? name lines reported = some number ↔
    Clear lines name reported number ∧ ∃ line, lines[number]? = some line ∧
      looksLikeDefinition name line = true := by
  have hget (i : Nat) (hi : i < (lines.zipIdx.drop reported).length) :
      lines[reported + i]? = some (lines.zipIdx.drop reported)[i].1 ∧
        (lines.zipIdx.drop reported)[i].2 = reported + i := by
    rw [List.getElem_drop, List.getElem_zipIdx, Nat.zero_add]
    exact ⟨List.getElem?_eq_getElem _, rfl⟩
  unfold definitionLine?
  simp only [Option.map_eq_some_iff, List.find?_eq_some_iff_getElem, Bool.not_eq_true']
  constructor
  · rintro ⟨found, ⟨hlooks, i, hi, rfl, hbefore⟩, rfl⟩
    obtain ⟨hline, hnumber⟩ := hget i hi
    rw [hnumber]
    refine ⟨⟨Nat.le_add_right _ _, fun n line hle hlt hn => ?_⟩, _, hline, hlooks⟩
    obtain ⟨j, rfl⟩ := Nat.exists_eq_add_of_le hle
    have hj : j < i := by omega
    have hfalse := hbefore j hj
    rw [(hget j (Nat.lt_trans hj hi)).1, Option.some.injEq] at hn
    rwa [← hn]
  · rintro ⟨⟨hle, hbefore⟩, line, hline, hlooks⟩
    obtain ⟨i, rfl⟩ := Nat.exists_eq_add_of_le hle
    have hi : i < (lines.zipIdx.drop reported).length := by
      have hlt := (List.getElem?_eq_some_iff.1 hline).1
      rw [List.length_drop, List.length_zipIdx]
      omega
    obtain ⟨hsome, hnumber⟩ := hget i hi
    rw [hline, Option.some.injEq] at hsome
    refine ⟨_, ⟨hsome ▸ hlooks, i, hi, rfl, fun j hj => ?_⟩, hnumber⟩
    obtain ⟨hsome', -⟩ := hget j (Nat.lt_trans hj hi)
    exact hbefore _ _ (Nat.le_add_right _ _) (Nat.add_lt_add_left hj _) hsome'

/-- A definition that is written with its keywords and one space behind each of them in front of its
name. -/
def Plain (source : List Char) (d : Node) (name : List Char) : Prop :=
  ∃ words ∈ ["def ", "async def ", "class "],
    words.toList ++ name <+: Text.dropBytes d.start.byte source

variable {root d m : Node} {module : String} {names : List String}

/-- A definition that is written plainly looks like one in the line where it begins. -/
theorem looksLike_of_plain (h : root.Lawful source) (hd : d ∈ root.all)
    (hword : Text.isWord name = true) (hplain : Plain source d name) :
    ∃ line, (numbered source)[d.startLine]? = some line ∧ looksLikeDefinition name line = true := by
  obtain ⟨words, hwords, rest, hrest⟩ := hplain
  obtain ⟨before, after, hsource, hstart⟩ := (h.nested.of_mem_all hd).1.span.left_in
  have hafter : Text.dropBytes d.start.byte source = after := by
    rw [hstart, Pos.byte_past, hsource, Pos.start, Nat.zero_add, Text.dropBytes_byteLength_append]
  have hrow : d.startLine = before.count '\n' + 1 := by
    rw [Node.startLine, hstart, Pos.row_past, Pos.start, Nat.zero_add]
  have hnone (c : Char) (hc : (128 ≤ c.toNat || c.isAlphanum || c == '_') = false)
      (hcw : c ∉ words.toList) : c ∉ words.toList ++ name :=
    List.not_mem_append hcw (Text.not_mem_of_isWord hword hc)
  have hchars : words.toList ≠ [] ∧ '\n' ∉ words.toList ∧ '\r' ∉ words.toList ∧
      (Text.occursIn "def ".toList words.toList = true ∨
        Text.occursIn "class ".toList words.toList = true) := by
    simp only [List.mem_cons, List.not_mem_nil, or_false] at hwords
    rcases hwords with rfl | rfl | rfl <;> decide
  obtain ⟨hne, hn, hr, hkeyword⟩ := hchars
  obtain ⟨line, hline, hinfix⟩ :=
    Text.exists_line before rest (List.append_ne_nil_of_left_ne_nil hne name)
    (hnone _ (by decide) hn) (hnone _ (by decide) hr)
  rw [hafter] at hrest
  rw [List.append_assoc, hrest, ← hsource] at hline
  refine ⟨line, by rw [hrow]; exact hline, ?_⟩
  simp only [Text.occursIn_iff] at hkeyword
  simp only [looksLikeDefinition, Bool.and_eq_true, Bool.or_eq_true, Text.occursIn_iff]
  have hleft : words.toList <:+: line := (List.prefix_append _ _).isInfix.trans hinfix
  exact ⟨(List.suffix_append _ _).isInfix.trans hinfix,
    hkeyword.imp (·.trans hleft) (·.trans hleft)⟩

theorem isWord_of_definedName? (h : root.Lawful source) (hd : d ∈ root.all)
    (hm : d.definedName? = some m) : Text.isWord (m.text source) = true := by
  have hchild : m ∈ d.inner :=
    Node.mem_allOf.2 ⟨m, List.mem_of_find?_eq_some hm, Node.mem_all_self m⟩
  have hkind := @List.find?_some Node (fun c => c.kind = .identifier) m d.children hm
  exact h.identifier m (Node.mem_all_trans hd hchild) (of_decide_eq_true hkind)

/-- A definition that is written plainly is found from its own line on, and from an earlier line on
just if no line between them looks like it.  The line leads to its name. -/
theorem definitionLine?_of_plain (h : root.Lawful source)
    (hd : (d, names) ∈ definitionsOf source (prefixOf module) root) (hm : d.definedName? = some m)
    (hplain : Plain source d (m.text source)) :
    (definitionLine? (m.text source) (numbered source) reported = some d.startLine ↔
      Clear (numbered source) (m.text source) reported d.startLine) ∧
    (ofTree source module root).nameAt? d.startLine = some (".".intercalate names) := by
  have hroot := (sublist_definitionsOf _ root).subset (List.mem_map_of_mem hd)
  have hlooks := looksLike_of_plain h hroot (isWord_of_definedName? h hroot hm) hplain
  exact ⟨definitionLine?_eq_some.trans (and_iff_left hlooks), nameAt?_of_mem h hd⟩

theorem isSynthetic_of_isWord (h : Text.isWord name = true) :
    isSynthetic (String.ofList name) = false := by
  have hhead : name.head? ≠ some '<' := fun hhead =>
    Text.not_mem_of_isWord h (by decide) (List.mem_of_mem_head? (Option.mem_def.2 hhead))
  rw [isSynthetic, String.toList_ofList, beq_eq_false_iff_ne.2 hhead, Bool.false_and]

variable {disk : Disk} {path : Path} {cache : Cache}

/-- A definition that is written plainly is resolved to its line in a file that has the text. -/
theorem resolveLine_of_plain (hlines : (cache.lines disk path).map Prod.fst = .ok (numbered source))
    (hpath : isSynthetic path.text = false) (h : root.Lawful source)
    (hd : (d, names) ∈ definitionsOf source (prefixOf module) root) (hm : d.definedName? = some m)
    (hplain : Plain source d (m.text source))
    (hclear : Clear (numbered source) (m.text source) reported d.startLine) :
    (resolveLine disk path (String.ofList (m.text source)) reported cache).map Prod.fst = .ok
      (some d.startLine) := by
  have hfound := (definitionLine?_of_plain h hd hm hplain).1.2 hclear
  have hword := isWord_of_definedName? h
    ((sublist_definitionsOf _ root).subset (List.mem_map_of_mem hd)) hm
  rw [resolveLine, isSynthetic_of_isWord hword, hpath, Bool.or_false, if_neg Bool.false_ne_true]
  cases hc : cache.lines disk path with
  | error why =>
    rw [hc] at hlines
    cases hlines
  | ok read =>
    rw [hc, Except.map, Except.ok.injEq] at hlines
    simp only [Except.map, String.toList_ofList, hlines, hfound]

/-- A decorator that looks like the definition below it is taken for the definition. -/
example : definitionLine? "run".toList
    (numbered "@skip(reason=\"def run is slow\")\ndef run():\n    pass\n".toList) 1 =
    some 1 := by decide

end Source

end AsyncSpread
