import AsyncSpread.Proofs.Python.Dotted
import AsyncSpread.Proofs.Rewrite.LineEnds

/-!
The lines of the marker, read again.

The import of the marker's module is read as an import that binds it (`parse_importLine`), and the
marker above a function is read as a decorator with the path of the marker (`parse_markedStub`).
The names have to be names of the language for this, and no keyword that begins an expression of its
own may be the first; a configuration that can be used does not promise either.
-/

namespace AsyncSpread

open Python Rule

variable {source : List Char}

namespace Python

/-- A text that is one statement.  A reading may be four hundred and eighty rules deep before the
first token. -/
theorem parse_of_gives {ts : List Token} {n : Node} {d : Nat} {last : Pos}
    (hts : tokensOf source = (ts, [])) (hne : ts ≠ []) (hd : d < 480)
    (h : (Rule.rule Phrase.statement).Gives d (.facing ts .start) [n] (.facing [] last)) :
    parse source = .ok (moduleNode [n] []) := by
  have hmodule : Grammar.module.Gives (d + 1) (.facing ts .start) [n] (.facing [] last) :=
    h.many_one (List.length_pos_of_ne_nil hne) (refuses_nil rfl)
  have hdepth : d + 1 ≤ depthFor ts.length := by
    unfold depthFor
    omega
  have hresult : (readModule ts).result = some ([n], .facing [] last) := hmodule _ hdepth
  refine parse_of_grammar ?_
  simp only [Grammar.parse, hts, hresult, Cursor.facing]

end Python

namespace Rewrite

/-! ## The import -/

def importLine (module : List Char) : List Char := "import ".toList ++ module ++ ['\n']

theorem tokensOf_importLine {m : List Char} (hm : Text.isName m = true) :
    tokensOf (importLine m) =
      ([⟨.keyword .importWord, .start, Pos.start.past "import".toList, []⟩,
        wordToken (Pos.start.past "import ".toList) m,
        ⟨.newline, (Pos.start.past "import ".toList).past m,
          (Pos.start.past "import ".toList).past m, []⟩], []) := by
  have hword : (Scan.ofText (importLine m)).Emits [(wordToken .start "import".toList).piece 0]
      ⟨' ' :: (m ++ ['\n']), Pos.start.past "import".toList, [], 0, false⟩ :=
        Scan.emits_word rfl rfl
  have hmodule : (⟨m ++ ['\n'], Pos.start.past "import ".toList, [], 0, false⟩ : Scan).Emits
      [(wordToken (Pos.start.past "import ".toList) m).piece 0]
      ⟨['\n'], (Pos.start.past "import ".toList).past m, [], 0, false⟩ := Scan.emits_word hm rfl
  rw [tokensOf, Scan.piecesOf_of_emits
    (hword.trans (Scan.emits_space.trans (hmodule.trans Scan.emits_lineEnd)))]
  rfl

/-- The import of a name is read as an import that binds it. -/
theorem parse_importLine {module : String} (hm : Text.isName module.toList = true) :
    ∃ statement, parse (importLine module.toList) = .ok (moduleNode [statement] []) ∧
      statement.kind = .importStatement ∧
      statement.children.any (binds (importLine module.toList) module) = true := by
  refine ⟨_, parse_of_gives (tokensOf_importLine hm) (List.cons_ne_nil _ _)
    (by decide) gives_import, rfl, ?_⟩
  have htext : Text.slice (Pos.start.past "import ".toList).byte
      ((Pos.start.past "import ".toList).past module.toList).byte
      (importLine module.toList) = module.toList := by
    rw [← Pos.past_append]
    exact Span.slice_eq rfl
  refine List.any_eq_true.2 ⟨_, List.mem_cons_of_mem _ List.mem_cons_self,
    Bool.or_eq_true_iff.2 (.inl ?_)⟩
  exact beq_iff_eq.2 htext

/-! ## The decorator -/

variable {before after : List Char} {w : List Char} {ws : List (List Char)}

theorem text_wordNode {c : Char} (hs : source = before ++ c :: w ++ after) :
    (wordNode ((Pos.start.past before).past [c]) w).text source = w := by
  show Text.slice ((Pos.start.past before).past [c]).byte
    (((Pos.start.past before).past [c]).past w).byte source = w
  rw [← Pos.past_append, ← Pos.past_append]
  exact Span.slice_eq (show source = before ++ [c] ++ w ++ after by simpa using hs)

theorem dottedPath?_pathNode {x : Node} {path : List String} (hx : dottedPath? source x = some path)
    (hs : source = before ++ dottedTail ws ++ after) :
    dottedPath? source (pathNode x (Pos.start.past before) ws) =
      some (path ++ ws.map String.ofList) := by
  induction ws generalizing before x path with
  | nil => rw [pathNode, hx, List.map_nil, List.append_nil]
  | cons w ws ih =>
    have hword : (wordNode ((Pos.start.past before).past ['.']) w).text source = w :=
      text_wordNode (show source = before ++ '.' ::
        w ++ (dottedTail ws ++ after) by simp [hs, dottedTail])
    have hpos : ((Pos.start.past before).past ['.']).past w = Pos.start.past (before ++ '.' :: w) :=
      (Pos.past_append .start before ('.' :: w)).symm
    have hrest : source = before ++ '.' :: w ++ dottedTail ws ++ after := by simp [hs, dottedTail]
    rw [List.map_cons, List.append_cons, pathNode, hpos]
    refine ih ?_ hrest
    simp only [dottedPath?, dottedPathOfFirst?, hx, Node.last?, Node.children_mk,
      List.getLast?_cons_cons,
      List.getLast?_singleton, hword, Option.bind_some, Option.bind_eq_bind]

theorem kind_pathNode {x : Node} (hx : x.kind = .identifier ∨ x.kind = .attribute) (p : Pos)
    (ws : List (List Char)) :
    (pathNode x p ws).kind = .identifier ∨ (pathNode x p ws).kind = .attribute := by
  induction ws generalizing x p with
  | nil => exact hx
  | cons w ws ih => exact ih (.inr rfl) _

/-- A decorator that is a dotted path is the marker if the path is. -/
theorem isMarker_decoratorNode {t : Task}
    (hs : t.source = before ++ '@' :: w ++ dottedTail ws ++ after)
    (hpath : t.config.markerPath = (w :: ws).map String.ofList) :
    isMarker t (decoratorNode (Pos.start.past before) w ws) = true := by
  have hword : (wordNode ((Pos.start.past before).past ['@']) w).text t.source = w :=
    text_wordNode (show t.source = before ++ '@' :: w ++ (dottedTail ws ++ after) by simp [hs])
  have hfirst : dottedPath? t.source (wordNode ((Pos.start.past before).past ['@']) w) =
      some [String.ofList w] :=
    congrArg (fun text => some [String.ofList text]) hword
  have hpos : ((Pos.start.past before).past ['@']).past w = Pos.start.past (before ++ '@' :: w) :=
    (Pos.past_append .start before ('@' :: w)).symm
  have hnode := dottedPath?_pathNode hfirst hs
  have hkind := kind_pathNode (.inl rfl : (wordNode ((Pos.start.past before).past ['@']) w).kind =
    .identifier ∨ _) (Pos.start.past (before ++ '@' :: w)) ws
  simp only [decoratorNode, hpos]
  generalize pathNode _ _ ws = path at hnode hkind
  have hnamed : (Node.mk .decorator (Pos.start.past before) path.stop
      [.mk (.mark .at) (Pos.start.past before) ((Pos.start.past before).past ['@']) [],
        path]).namedChildren = [path] := by
    rcases hkind with hkind | hkind <;> simp [Node.namedChildren, Kind.isNamed, hkind]
  have hcall : path.kind ≠ .call := by
    rcases hkind with hkind | hkind <;> simp [hkind]
  simp only [isMarker, hnamed, List.head?_cons, if_neg hcall, Option.bind_some, hnode, hpath,
    List.map_cons, List.singleton_append, beq_self_eq_true]

def markedStub (decorator : List Char) : List Char :=
  '@' :: decorator ++ '\n' :: "def f(): pass\n".toList

theorem emits_stub (p : Pos) : (⟨"def f(): pass\n".toList, p, [], 0, true⟩ : Scan).Emits
    ((stubTokens p).map (·.piece 0) ++
      [⟨.lineEnd, p.past "def f(): pass".toList, p.past "def f(): pass\n".toList, 0⟩])
    ⟨[], p.past "def f(): pass\n".toList, [], 0, true⟩ :=
  ⟨9, Nat.le_of_ble_eq_true rfl, fun _ => rfl⟩

theorem tokensOf_markedStub (hws : ∀ v ∈ w :: ws, Text.isName v = true) :
    ∃ p e e', tokensOf (markedStub (w ++ dottedTail ws)) =
    (decoratorTokens .start w ws ++ ⟨.newline, e, e, []⟩ ::
      (stubTokens p ++ [⟨.newline, e', e', []⟩]), []) := by
  have hdecorator :
      (Scan.ofText (markedStub (w ++ dottedTail ws))).Emits
      ((decoratorTokens .start w ws).map (·.piece 0))
      ⟨'\n' :: "def f(): pass\n".toList, Pos.start.past ('@' :: (w ++ dottedTail ws)), [],
        0, false⟩ := by
    rw [markedStub, List.cons_append, List.append_assoc]
    exact Scan.emits_decorator hws rfl
  obtain ⟨q, hq⟩ : ∃ q, Pos.start.past ('@' :: (w ++ dottedTail ws)) = q := ⟨_, rfl⟩
  rw [hq] at hdecorator
  have hpieces : piecesOf (markedStub (w ++ dottedTail ws)) = (decoratorTokens .start w ws).map
      (·.piece 0) ++
      ⟨.lineEnd, q, q.past ['\n'], 0⟩ :: ((stubTokens (q.past ['\n'])).map (·.piece 0) ++
        [⟨.lineEnd, (q.past ['\n']).past "def f(): pass".toList,
          (q.past ['\n']).past "def f(): pass\n".toList, 0⟩]) :=
    Scan.piecesOf_of_emits (hdecorator.trans (Scan.emits_lineEnd.trans (emits_stub _)))
  obtain ⟨e, hlayout⟩ :=
    layout_lines (List.cons_ne_nil _ _) (fun t ht => (of_mem_decoratorTokens ht).1)
    (fun t ht => (of_mem_decoratorTokens ht).2) q (q.past ['\n']) 0 _ _
  refine ⟨q.past ['\n'], e, (q.past ['\n']).past "def f(): pass".toList, ?_⟩
  rw [tokensOf, hpieces]
  exact hlayout

theorem intercalate_eq (w : List Char) (ws : List (List Char)) :
    ['.'].intercalate (w :: ws) = w ++ dottedTail ws := by
  induction ws generalizing w with
  | nil => rw [List.intercalate_singleton, dottedTail, List.append_nil]
  | cons v ws ih =>
    rw [List.intercalate_cons_cons, ih, dottedTail, List.append_assoc, List.singleton_append,
      List.cons_append]

/-- The marker of a configuration that can be used is a path with a dot, and begins with the
module. -/
theorem exists_path_of_validate {c : Config} (h : c.validate = .ok ()) :
    ∃ v ws, Text.piecesBetween '.' c.markerDecorator.toList = c.markerModule.toList :: v :: ws := by
  obtain ⟨-, -, hlength, hhead⟩ := Config.names_of_validate h
  unfold Config.markerPath dotted at hlength hhead
  match hpieces : Text.piecesBetween '.' c.markerDecorator.toList with
  | [] | [_] =>
    rw [hpieces] at hlength
    simp at hlength
  | w :: v :: ws =>
    rw [hpieces, List.map_cons, List.head?_cons] at hhead
    rw [← Option.some.inj hhead, String.toList_ofList]
    exact ⟨v, ws, rfl⟩

/-- The marker above a function is read as a decorator that the walk takes for the marker. -/
theorem parse_markedStub {c : Config} (hvalid : c.validate = .ok ())
    (hnames : ∀ name ∈ c.markerPath, Text.isName name.toList = true)
    (hmodule : beginsOperand c.markerModule.toList = true) :
    ∃ decorated decorator definition, parse (markedStub c.markerDecorator.toList) = .ok
      (moduleNode [decorated] []) ∧
      decorated.kind = .decoratedDefinition ∧ decorated.children = [decorator, definition] ∧
      decorator.kind = .decorator ∧ definition.kind = .functionDefinition ∧
      ∀ t : Task, t.source = markedStub c.markerDecorator.toList → t.config = c →
        isMarker t decorator = true := by
  obtain ⟨v, ws, hpath⟩ := exists_path_of_validate hvalid
  have hdecorator : c.markerDecorator.toList = c.markerModule.toList ++ dottedTail (v :: ws) := by
    rw [← intercalate_eq, ← hpath, Text.intercalate_piecesBetween]
  have hwords : ∀ w ∈ c.markerModule.toList :: v :: ws, Text.isName w = true := by
    intro w hw
    have hname := hnames (String.ofList w) (List.mem_map_of_mem (hpath ▸ hw))
    rwa [String.toList_ofList] at hname
  obtain ⟨p, e, e', htokens⟩ := tokensOf_markedStub hwords
  obtain ⟨definition, hkind, hdefinition⟩ := exists_stub p e'
  have hparse : parse (markedStub c.markerDecorator.toList) =
      .ok (moduleNode [.mk .decoratedDefinition .start definition.stop
      [decoratorNode .start c.markerModule.toList (v :: ws), definition]] []) := by
    rw [hdecorator]
    exact parse_of_gives htokens (List.cons_ne_nil _ _) (by decide)
      (gives_decorated hmodule hdefinition)
  refine ⟨_, _, _, hparse, rfl, rfl, rfl, hkind, fun t hsource hconfig => ?_⟩
  have hs : t.source = [] ++ '@' :: c.markerModule.toList ++ dottedTail (v :: ws) ++ '\n' ::
      "def f(): pass\n".toList := by
    rw [hsource, hdecorator]
    rfl
  have hmarker : t.config.markerPath = (c.markerModule.toList :: v :: ws).map String.ofList := by
    rw [hconfig, ← hpath]
    rfl
  exact isMarker_decoratorNode hs hmarker

example : Config.standard.validate = .ok () ∧
(∀ name ∈ Config.standard.markerPath, Text.isName name.toList = true) ∧
    beginsOperand Config.standard.markerModule.toList = true := by decide +kernel

end Rewrite

end AsyncSpread
