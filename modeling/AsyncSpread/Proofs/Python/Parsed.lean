import AsyncSpread.Proofs.Python.Bodies
import AsyncSpread.Proofs.Python.Calls
import AsyncSpread.Proofs.Python.Onsets
import AsyncSpread.Proofs.Python.Parenthesized
import AsyncSpread.Proofs.Python.Rows
import AsyncSpread.Proofs.Python.Trivia
import AsyncSpread.Proofs.Python.Words

/-!
The parser that reads the grammar is lawful.

Each law was shown of the readings of the rules that it speaks of.  What is left is where the nodes
begin and stop that are made of rows (`bounded_of_parse`).
-/

namespace AsyncSpread.Python

open Grammar

variable {source : List Char} {root x y : Node}

/-! ## Ends -/

/-- A node begins with its first child and stops with its last. -/
structure Node.Bounded (n : Node) : Prop where
  first : ∀ x ∈ n.children.head?, x.start = n.start
  last : ∀ x ∈ n.children.getLast?, x.stop = n.stop

theorem Node.bounded_made (k : Kind) (p : Pos) (row : List Node) : (made k p row).Bounded := by
  refine ⟨fun x hx => ?_, fun x hx => (stop_getLast? hx).symm⟩
  have hx : (row.dropWhile isTrivia).head? = some x := hx
  show x.start = (row.dropWhile isTrivia).head?.elim p start
  rw [hx]
  rfl

theorem Node.bounded_moduleNode (ns : List Node) (ts : List Trivia) :
    (moduleNode ns ts).Bounded := by
  unfold moduleNode
  extract_lets children start
  refine ⟨fun x hx => ?_, fun x hx => (stop_getLast? hx).symm⟩
  have hx : children.head? = some x := hx
  obtain ⟨rest, hchildren⟩ := List.head?_eq_some_iff.1 hx
  unfold start
  rw [hchildren]
  rfl

theorem makes_bounded : Makes rules isSolid (fun _ => True) Node.Bounded where
  trivia t := by
    obtain ⟨kind, start, stop⟩ := t
    cases kind <;> exact ⟨nofun, nofun⟩
  leaf _ _ _ _ := ⟨nofun, nofun⟩
  node _ _ _ := Node.bounded_made _ _ _
  grow _ _ _ _ _ := Node.bounded_made _ _ _
  extend _ _ _ _ _ := Node.bounded_made _ _ _

theorem bounded_of_parse (h : Grammar.parse source = .ok root) (hx : x ∈ root.all) : x.Bounded :=
  forall_of_parse makes_bounded each_isSolid (by decide)
    (fun _ _ => trivial) Node.bounded_moduleNode h hx

/-! ## Calls -/

theorem closing_of_parse (h : Grammar.parse source = .ok root) (hx : x ∈ root.all)
    (hk : x.kind = .call) :
    ∃ arguments ∈ x.children.getLast?, arguments.stop = x.stop ∧
      ∃ leaf ∈ arguments.children.getLast?, leaf.kind = .mark .closeParen ∧
        leaf.stop = arguments.stop := by
  obtain ⟨-, args, hargs, leaf, hleaf, hclose⟩ := (framed_of_parse h hx).call hk
  have hroot : args ∈ root.all := Node.mem_all_of_child hx (List.mem_of_mem_getLast? hargs)
  exact ⟨args, hargs, (bounded_of_parse h hx).last args hargs, leaf, hleaf, hclose,
    (bounded_of_parse h hroot).last leaf hleaf⟩

/-- A call that something builds on is not at the end of it. -/
theorem built_of_parse (h : Grammar.parse source = .ok root) (hx : x ∈ root.all)
    (hk : x.kind = .attribute ∨ x.kind = .subscript ∨ x.kind = .call) :
    ∃ y rest, x.children = y :: rest ∧ (y.kind = .call → y.stop.byte < x.stop.byte) := by
  have hnested := ((nested_of_parse h).of_mem_all hx).1
  obtain ⟨front, back, hc, ⟨m, hm, -, z, hz, hlt⟩, hfirst⟩ := (framed_of_parse h hx).built hk
  cases front with
  | nil =>
    obtain ⟨y, rest, rfl⟩ := List.exists_cons_of_ne_nil (List.ne_nil_of_mem hm)
    exact ⟨y, rest, hc, fun hcall => absurd hcall (hfirst rfl y rfl)⟩
  | cons y front =>
    refine ⟨y, front ++ back, hc, fun _ => ?_⟩
    -- What has text stands behind the call in the row of children.
    have hl := hnested.laid
    rw [hc] at hl
    obtain ⟨-, -, hrest⟩ := hl
    have hmem : m ∈ front ++ back := List.mem_append_right _ hm
    have hmn : m.Nested source := hnested.child (by rw [hc]; exact List.mem_cons_of_mem _ hmem)
    obtain ⟨h1, -, h3⟩ := hrest.of_mem (List.mem_map_of_mem hmem)
    obtain ⟨-, h4, h5⟩ := hmn.of_mem_all hz
    have h1 := (h1.trans h4).byte_le
    have h3 := (h5.trans h3).byte_le
    have hs : y.span.2.byte = y.stop.byte := rfl
    omega

/-! ## The laws -/

theorem shaped_of_parse (h : Grammar.parse source = .ok root) : root.Shaped source where
  nested := nested_of_parse h
  keyword x hx k hk := by
    obtain ⟨hbare, htext, hfilled⟩ := (proper_of_parse h hx).keyword k hk
    exact ⟨hbare, hfilled, htext⟩
  mark x hx m hm hk := by
    obtain ⟨hbare, hfilled, htext⟩ := (framed_of_parse h hx).mark m hk
    refine ⟨hbare, hfilled, htext ?_⟩
    rintro rfl
    revert hm
    decide
  opening x hx hl := by
    obtain ⟨leaf, rest, hchildren, hleaf⟩ :=
      forall_of_parse makes_led each_isLed (by decide) (fun _ _ => trivial)
        (fun _ _ hl => absurd hl nofun) h hx hl
    exact ⟨leaf, rest, hchildren, hleaf,
      (bounded_of_parse h hx).first leaf (by rw [hchildren]; rfl)⟩
  closing _ hx hk := closing_of_parse h hx hk
  call x hx hk y hy :=
    ⟨((proper_of_parse h hx).call hk).1 y hy, ((framed_of_parse h hx).call hk).1 y hy⟩
  built _ hx hk := built_of_parse h hx hk

theorem lawful_of_grammar (h : Grammar.parse source = .ok root) : root.Lawful source where
  toShaped := shaped_of_parse h
  trivia _ hx ht := (proper_of_parse h hx).trivia ht
  comment _ hx hk := fills_of_parse h hx hk
  identifier _ hx hk := isWord_of_parse h hx hk
  named x hx hs := by
    rcases Node.isScope_iff.1 hs with hk | hk
    · obtain ⟨-, -, -, -, hm⟩ := (proper_of_parse h hx).function hk
      exact hm
    · obtain ⟨-, -, -, -, hm⟩ := (proper_of_parse h hx).classDef hk
      exact hm
  body x hx hs := by
    obtain ⟨front, body, hchildren, hk⟩ := (closed_of_parse h hx).scope hs
    exact ⟨front, body, hchildren, hk,
      (bounded_of_parse h hx).last body (by rw [hchildren, List.getLast?_concat]; rfl)⟩
  parts _ hx hk := (parted_of_parse h hx).function hk
  plain _ hx hk := (parted_of_parse h hx).plain hk
  decorated x hx hk := by
    obtain ⟨front, d, hchildren, hs, hfront, c, hc, hck⟩ := (closed_of_parse h hx).decorated hk
    refine ⟨front, d, hchildren, hs, hfront, c, hc, hck, (bounded_of_parse h hx).first c ?_⟩
    rw [hchildren, List.head?_append, Option.mem_def.1 hc]
    rfl
  parenthesized _ hx hk := encloses_of_parse h hx hk
  onset _ hx ho := goesOn_of_parse h hx ho
  rows := pairwise_leads_of_parse h
  apart := pairwise_over_of_parse h

namespace Grammar

theorem parse_of_hasError (h : (tree source).hasError = false) :
    parse source = .ok (tree source).root := by
  unfold tree at h ⊢
  split
  · assumption
  · rename_i hp
    rw [hp] at h
    cases h

theorem tree_of_parse (h : parse source = .ok root) : tree source = ⟨root, false⟩ := by
  rw [tree, h]

instance : LawfulParser := ⟨fun _ h => lawful_of_grammar (parse_of_hasError h)⟩

end Grammar

theorem parse_of_grammar (h : Grammar.parse source = .ok root) : parse source = .ok root := by
  have htree : Parser.tree source = ⟨root, false⟩ := tree_of_parse h
  rw [parse, htree]
  rfl

end AsyncSpread.Python
