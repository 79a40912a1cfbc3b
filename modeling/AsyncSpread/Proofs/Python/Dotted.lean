import AsyncSpread.Proofs.Python.Accepted
import AsyncSpread.Proofs.Python.Scanned

/-!
Imports and decorators that are bound to be read.

An import of a name is read as such (`gives_import`), and a dotted path above a function as its
decorator (`gives_decorated`), if the path does not begin with a keyword that begins an expression
of its own.
-/

namespace AsyncSpread.Python

open Grammar Rule

variable {p q e : Pos} {w : List Char} {ws : List (List Char)} {t : Token} {rest : List Token}
  {last : Pos}

def wordNode (p : Pos) (w : List Char) : Node := .mk .identifier p (p.past w) []

theorem gives_anyWord :
    anyWord.Gives 1 (.facing (wordToken p w :: rest) last) [wordNode p w]
      (.facing rest (p.past w)) := by
  refine gives_token ?_
  unfold wordToken wordKind
  cases Keyword.ofWord? w with
  | none => rfl
  | some k => rfl

theorem gives_simpleStatements {d : Nat} {c : Cursor} {n : Node}
    (h : (Rule.rule Phrase.simpleStatement).Gives d c [n]
      (.facing (⟨.newline, e, e, []⟩ :: rest) last)) :
    simpleStatements.Gives (d + 4) c [n] (.facing rest e) :=
  .mono (.andThen (.andThen h (gives_many_nil (refuses_of_declines rfl rfl)) rfl)
    (.andThen (gives_optional_nil (refuses_of_declines rfl rfl)) (gives_token rfl) rfl) rfl)
      (by omega)

/-! ## Imports -/

def importNode (p q : Pos) (w : List Char) : Node :=
  .mk .importStatement p (q.past w)
    [.mk (.keyword .importWord) p (p.past "import".toList) [],
      .mk .dottedName q (q.past w) [wordNode q w]]

theorem gives_import : (Rule.rule Phrase.statement).Gives 40
    (.facing [⟨.keyword .importWord, p, p.past "import".toList, []⟩, wordToken q w,
      ⟨.newline, e, e, []⟩] last) [importNode p q w] (.facing [] e) := by
  have hname : dottedName.Gives 4
      (.facing [wordToken q w, ⟨.newline, e, e, []⟩] (p.past "import".toList))
      [.mk .dottedName q (q.past w) [wordNode q w]] (.facing [⟨.newline, e, e, []⟩] (q.past w)) :=
    .mono (.node (.andThen gives_anyWord (gives_many_nil (refuses_of_declines rfl rfl)) rfl) rfl)
      (by decide)
  have hlist : importList.Gives 10
      (.facing [wordToken q w, ⟨.newline, e, e, []⟩] (p.past "import".toList))
      [.mk .dottedName q (q.past w) [wordNode q w]] (.facing [⟨.newline, e, e, []⟩] (q.past w)) :=
    .mono (.andThen (.andThen (.extend_ends hname (ends_of_declines rfl rfl))
      (gives_many_nil (refuses_of_declines rfl rfl)) rfl)
        (gives_optional_nil (refuses_of_declines rfl rfl)) rfl) (by decide)
  have himport : (Rule.rule Phrase.simpleStatement).Gives 14
      (.facing [⟨.keyword .importWord, p, p.past "import".toList, []⟩, wordToken q w,
        ⟨.newline, e, e, []⟩] last)
      [importNode p q w] (.facing [⟨.newline, e, e, []⟩] (q.past w)) :=
    .mono (.rule (.choice 0 rfl (.node (.andThen (gives_token rfl) hlist rfl) rfl) rfl rfl))
      (by decide)
  exact .mono (.rule (.choice 9 rfl (gives_simpleStatements himport) rfl rfl)) (by decide)

/-! ## Dotted paths -/

def beginsOperand (w : List Char) : Bool := operandWord.admits (fun _ => false) (wordKind w)

theorem gives_operandWord (h : beginsOperand w = true) :
    operandWord.Gives 1 (.facing (wordToken p w :: rest) last) [wordNode p w]
      (.facing rest (p.past w)) := by
  refine gives_token ?_
  unfold beginsOperand at h
  unfold wordToken
  cases hk : wordKind w with
  | name => rfl
  | keyword k =>
    rw [hk] at h
    cases k <;> first | rfl | cases h
  | _ =>
    rw [hk] at h
    cases h

/-- What an operand is tried as before it is tried as a name. -/
theorem declines_operand {k : TokenKind} (h : operandWord.admits (fun _ => false) k = true) :
    [strings, .leaf .integer .integer, .leaf .float .float, .leaf (.keyword .trueWord) .trueLiteral,
        .leaf (.keyword .falseWord) .falseLiteral, .leaf (.keyword .noneWord) .noneLiteral,
          .leaf (.mark .ellipsis) .ellipsis,
        parenthesized, bracketed, braced, starred].all (declines k) = true ∧
      (Rule.node .unaryOperator (.andThen (.oneOf [.mark .plus, .mark .minus, .mark .tilde])
        (.rule .unary))).declines k = true ∧
      lambda.declines k = true ∧
      (Rule.node .notOperator (.andThen (kw .notWord) (.rule .inversion))).declines k = true := by
  cases k with
  | name => exact ⟨rfl, rfl, rfl, rfl⟩
  | keyword k => cases k <;> first | exact ⟨rfl, rfl, rfl, rfl⟩ | cases h
  | _ => cases h

theorem length_tailTokens (p : Pos) (ws : List (List Char)) :
    (tailTokens p ws).length = 2 * ws.length := by
  induction ws generalizing p with
  | nil => rfl
  | cons w ws ih =>
    simp only [tailTokens, List.length_cons, ih]
    omega

def pathNode : Node → Pos → List (List Char) → Node
  | x, _, [] => x
  | x, p, w :: ws =>
    let q := p.past ['.']
    pathNode (.mk .attribute x.start (q.past w) [x, .mk (.mark .dot) p q [], wordNode q w])
      (q.past w) ws

def operandTails : List (Kind × R) := [attributeTail, (.call, arguments), subscriptTail]

theorem readTails_dotted {n m : Nat} {x : Node} (hn : 2 ≤ n) (hm : ws.length ≤ m)
    (hx : x.isTrivia = false) (hends : ∀ last, Ends operandTails (.facing rest last)) :
    (readTails (read rules n) operandTails m [x] (.facing (tailTokens p ws ++ rest) p)).result =
      some ([pathNode x p ws], .facing rest (p.past (dottedTail ws))) := by
  induction ws generalizing p x m with
  | nil => exact readTails_of_ends (hends p) n m [x]
  | cons w ws ih =>
    obtain ⟨m, rfl⟩ := Nat.exists_eq_add_one_of_ne_zero (Nat.ne_zero_of_lt hm)
    have htail : (andThen (.mark .dot) anyWord : R).Gives 2
        (.facing (tailTokens p (w :: ws) ++ rest) p)
        [.mk (.mark .dot) p (p.past ['.']) [], wordNode (p.past ['.']) w]
        (.facing (tailTokens (p.past ('.' :: w)) ws ++ rest) (p.past ('.' :: w))) :=
      .andThen (gives_token rfl) gives_anyWord rfl
    have hlt : (Cursor.facing (tailTokens (p.past ('.' :: w)) ws ++ rest)
        (p.past ('.' :: w))).count < (Cursor.facing (tailTokens p (w :: ws) ++ rest) p).count := by
      simp only [Cursor.facing, tailTokens, List.length_append, List.length_cons, List.cons_append]
      omega
    have hwrap : Node.wrap .attribute (p.past ('.' :: w))
        ([x] ++ [.mk (.mark .dot) p (p.past ['.']) [], wordNode (p.past ['.']) w]) =
        [.mk .attribute x.start (p.past ('.' :: w)) [x, .mk (.mark .dot) p (p.past ['.']) [],
            wordNode (p.past ['.']) w]] := by
      simp [Node.wrap, hx]
      rfl
    have hpos : p.past (dottedTail (w :: ws)) = (p.past ('.' :: w)).past (dottedTail ws) :=
      Pos.past_append p ('.' :: w) _
    refine (readTails_first (htail n hn) hlt m [x]).trans ?_
    rw [hpos]
    show (readTails (read rules n) operandTails m
      (Node.wrap .attribute (p.past ('.' :: w)) _) _).result = _
    rw [hwrap]
    exact ih (Nat.le_of_succ_le_succ hm) rfl

theorem gives_primary (hw : beginsOperand w = true)
    (hends : ∀ last, Ends operandTails (.facing rest last)) :
    (Rule.rule Phrase.primary).Gives 20
      (.facing (wordToken p w :: tailTokens (p.past w) ws ++ rest) last)
      [pathNode (wordNode p w) (p.past w) ws] (.facing rest ((p.past w).past (dottedTail ws))) := by
  have hatom : atom.Gives 13 (.facing (wordToken p w :: tailTokens (p.past w) ws ++ rest) last)
      [wordNode p w] (.facing (tailTokens (p.past w) ws ++ rest) (p.past w)) :=
    .choice 11 rfl (gives_operandWord hw) rfl (declines_operand hw).1
  refine .mono (.rule (hatom.grow_tails fun n hn => readTails_dotted hn ?_ rfl hends)) (by decide)
  simp only [Cursor.facing, List.length_append, length_tailTokens]
  omega

/-- An operand at the end of a line is a whole expression, unless something else begins in the same
way. -/
theorem gives_expression {d : Nat} {c : Cursor} {ns : List Node}
    (h : (Rule.rule Phrase.primary).Gives d c ns (.facing (⟨.newline, e, e, []⟩ :: rest) last))
    (hsign : (Rule.node .unaryOperator (.andThen (.oneOf [.mark .plus, .mark .minus, .mark .tilde])
      (.rule .unary))).Refuses c)
    (hawait : (Rule.node .await (.andThen (kw .awaitWord) (.rule .unary))).Refuses c)
    (hlambda : lambda.Refuses c)
    (hnot : (Rule.node .notOperator (.andThen (kw .notWord) (.rule .inversion))).Refuses c)
    (hnamed : (Rule.node .namedExpression
      (.sequence [operandWord, .mark .walrus, .rule .disjunction])).Refuses c) :
    expression.Gives (d + 24) c ns (.facing (⟨.newline, e, e, []⟩ :: rest) last) := by
  have hunary : (Rule.rule Phrase.unary).Gives (d + 4) c ns
      (.facing (⟨.newline, e, e, []⟩ :: rest) last) :=
    .mono (.rule (.second (.second (.extend_ends h (ends_of_declines rfl rfl)) hawait) hsign))
      (by omega)
  have hbitOr : (Rule.rule Phrase.bitOr).Gives (d + 11) c ns
      (.facing (⟨.newline, e, e, []⟩ :: rest) last) :=
    .mono (.rule (.grow_ends (.grow_ends (.grow_ends (.grow_ends (.grow_ends (.grow_ends hunary
      (ends_of_declines rfl rfl)) (ends_of_declines rfl rfl)) (ends_of_declines rfl rfl))
        (ends_of_declines rfl rfl))
      (ends_of_declines rfl rfl)) (ends_of_declines rfl rfl))) (by omega)
  have hinversion :
      (Rule.rule Phrase.inversion).Gives (d + 16) c ns
      (.facing (⟨.newline, e, e, []⟩ :: rest) last) :=
    .mono (.rule (.second
      (.second (.second (.extend_ends hbitOr (ends_of_declines rfl rfl)) hnamed) hnot) hlambda))
      (by omega)
  have hdisjunction :
      (Rule.rule Phrase.disjunction).Gives (d + 20) c ns
      (.facing (⟨.newline, e, e, []⟩ :: rest) last) :=
    .mono (.rule (.grow_ends (.grow_ends hinversion (ends_of_declines rfl rfl))
      (ends_of_declines rfl rfl))) (by omega)
  exact .mono (.rule (.extend_ends (.grow_ends hdisjunction (ends_of_declines rfl rfl))
    (ends_of_declines rfl rfl))) (by omega)

theorem gives_path {v : List Char} (hw : beginsOperand w = true) : expression.Gives 44
    (.facing (wordToken p w :: tailTokens (p.past w) (v :: ws) ++ ⟨.newline, e, e,
      []⟩ :: rest) last) [pathNode (wordNode p w) (p.past w) (v :: ws)]
    (.facing (⟨.newline, e, e, []⟩ :: rest) ((p.past w).past (dottedTail (v :: ws)))) := by
  obtain ⟨-, hsign, hlambda, hnot⟩ := declines_operand hw
  refine gives_expression (gives_primary hw fun _ => ends_of_declines rfl rfl)
    (refuses_of_declines rfl hsign) ?_
    (refuses_of_declines rfl hlambda) (refuses_of_declines rfl hnot) ?_
  -- A word may also begin an awaited or a named expression, and both end at the dot.
  · refine (refuses_andThen fun _ _ hword => ?_).node _
    cases hword
    exact refuses_of_declines rfl rfl
  · refine (refuses_andThen fun _ _ hword => ?_).node _
    cases hword
    exact refuses_of_declines rfl rfl

/-! ## Decorators -/

def decoratorNode (p : Pos) (w : List Char) (ws : List (List Char)) : Node :=
  let q := p.past ['@']
  let path := pathNode (wordNode q w) (q.past w) ws
  .mk .decorator p path.stop [.mk (.mark .at) p q [], path]

theorem gives_decorated {v : List Char} {s s' : Pos} {ts : List Token} {definition : Node}
    {c : Cursor} {d : Nat} (hw : beginsOperand w = true)
    (h : (Rule.rule Phrase.functionDefinition).Gives d
      (.facing (⟨.keyword .defWord, s, s', []⟩ :: ts) e) [definition] c) :
    (Rule.rule Phrase.statement).Gives (d + 80)
      (.facing (decoratorTokens p w (v :: ws) ++ ⟨.newline, e, e, []⟩ ::
        ⟨.keyword .defWord, s, s', []⟩ :: ts) last)
      [.mk .decoratedDefinition p definition.stop [decoratorNode p w (v :: ws), definition]] c := by
  have hdecorator :
      (Rule.node .decorator (.sequence [.mark .at, expression, .layout .newline])).Gives 50
      (.facing (decoratorTokens p w (v :: ws) ++ ⟨.newline, e, e, []⟩ ::
        ⟨.keyword .defWord, s, s', []⟩ :: ts) last)
      [decoratorNode p w (v :: ws)] (.facing (⟨.keyword .defWord, s, s', []⟩ :: ts) e) :=
    .mono (.node (.andThen (gives_token rfl) (.andThen (gives_path hw) (gives_token rfl) rfl) rfl)
      rfl) (by decide)
  exact .mono (.rule
    (.choice 7 rfl (.node
    (.andThen hdecorator (.andThen (gives_many_nil (refuses_of_declines rfl rfl))
    (.first h _) rfl) rfl) rfl) rfl rfl)) (by omega)

/-! ## A function -/

def stubTokens (p : Pos) : List Token :=
  let behind (s : String) : Pos := p.past s.toList
  [⟨.keyword .defWord, p, behind "def", []⟩, ⟨.name, behind "def ", behind "def f", []⟩,
    ⟨.mark .openParen, behind "def f", behind "def f(", []⟩,
      ⟨.mark .closeParen, behind "def f(", behind "def f()", []⟩,
    ⟨.mark .colon, behind "def f()", behind "def f():", []⟩,
      ⟨.keyword .passWord, behind "def f(): ", behind "def f(): pass", []⟩]

theorem exists_stub (p e : Pos) : ∃ definition : Node, definition.kind = .functionDefinition ∧
    (Rule.rule Phrase.functionDefinition).Gives 30
      (.facing (stubTokens p ++ [⟨.newline, e, e, []⟩]) last) [definition]
      (.facing [] e) := by
  have hpass : (Rule.rule Phrase.simpleStatement).Gives 12
      (.facing [⟨.keyword .passWord, p.past "def f(): ".toList, p.past "def f(): pass".toList, []⟩,
        ⟨.newline, e, e, []⟩] (p.past "def f():".toList)) _ (.facing [⟨.newline, e, e, []⟩] _) :=
    .mono (.rule (.choice 7 rfl (.node (gives_token rfl) rfl) rfl rfl)) (by decide)
  have hsuite : (Rule.rule Phrase.suite).Gives 20
      (.facing [⟨.keyword .passWord, p.past "def f(): ".toList, p.past "def f(): pass".toList, []⟩,
        ⟨.newline, e, e, []⟩] (p.past "def f():".toList)) _ (.facing [] e) :=
    .mono (.rule (.choice 0 rfl (.node (gives_simpleStatements hpass) rfl) rfl rfl)) (by decide)
  have hparameters :
      parameters.Gives 8 (.facing ((stubTokens p).drop 2 ++ [⟨.newline, e, e, []⟩])
      (p.past "def f".toList)) _ (.facing ((stubTokens p).drop 4 ++ [⟨.newline, e, e, []⟩]) _) :=
    .mono (.node (.andThen (gives_token rfl)
      (.andThen (gives_optional_nil (refuses_of_declines rfl rfl)) (gives_token rfl) rfl)
      rfl) rfl) (by decide)
  -- It is not asynchronous, and has no type parameters and no annotation.
  refine ⟨_, ?_, .mono
    (.rule (.node
      (.andThen (gives_optional_nil (refuses_of_declines rfl rfl))
      (.andThen (gives_token rfl)
      (.andThen (gives_token rfl)
      (.andThen (gives_optional_nil (refuses_of_declines rfl rfl))
      (.andThen hparameters
      (.andThen (gives_optional_nil (refuses_of_declines rfl rfl))
      (.andThen (gives_token rfl) hsuite rfl) rfl) rfl) rfl) rfl) rfl) rfl) rfl)) (by decide)⟩
  rfl

end AsyncSpread.Python
