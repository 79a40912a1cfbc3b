import AsyncSpread.Proofs.Python.Kinds

/-!
Comments and joined lines of a tree.

The layout hands them on to the tokens, and the grammar leaves them between its nodes, so a tree has
all of its text in their order (`trivia_of_parse`).  In particular each comment of a tree takes the
rest of its line (`fills_of_parse`).
-/

namespace AsyncSpread.Python

def Piece.trivia? (p : Piece) : Option Trivia :=
  match p.kind with
  | .trivia k => some ⟨k, p.start, p.stop⟩
  | _ => none

/-! ## Tokens -/

theorem before_closeBlocks (indent : Nat) (blocks : List Nat) (p : Pos) (gap : List Gap) :
    (closeBlocks indent blocks p gap).1.flatMap Token.before ++
      (closeBlocks indent blocks p gap).2.2.filterMap Gap.trivia? =
      gap.filterMap Gap.trivia? := by
  induction blocks generalizing p gap with
  | nil => rfl
  | cons b blocks ih =>
    unfold closeBlocks
    split
    · rw [← filterMap_withinBlock b gap, List.flatMap_cons, List.append_assoc]
      exact congrArg _ (ih _ _)
    · rfl

theorem LineState.before_breakLine (s : LineState) (indent : Nat) (ends : Bool) :
    (s.breakLine indent ends).1.flatMap Token.before ++ (s.breakLine indent ends).2.2 =
      s.gap.filterMap Gap.trivia? := by
  unfold breakLine
  cases hs : s.last with
  | none => rfl
  | some last =>
    obtain ⟨kind, p⟩ := last
    rw [← filterMap_lastLine s.gap]
    dsimp only
    split
    · rw [List.flatMap_singleton]
      rfl
    · rw [List.flatMap_cons, List.append_assoc]
      exact congrArg _ (before_closeBlocks _ _ _ _)

theorem before_layout (s : LineState) (ps : List Piece) :
    (layout s ps).1.flatMap Token.before ++ (layout s ps).2 =
    s.gap.filterMap Gap.trivia? ++ ps.filterMap Piece.trivia? := by
  induction ps generalizing s with
  | nil => exact (s.before_breakLine 0 true).trans (List.append_nil _).symm
  | cons x ps ih =>
    unfold layout
    split
    · rename_i hx
      have hskip : (x :: ps).filterMap Piece.trivia? = ps.filterMap Piece.trivia? := by
        rw [List.filterMap_cons, Piece.trivia?, hx]
      rw [ih, hskip, List.filterMap_append]
      exact congrArg (· ++ _) (List.append_nil _)
    · rename_i k hx
      have hkeep : (x :: ps).filterMap Piece.trivia? = ⟨k, x.start, x.stop⟩ ::
          ps.filterMap Piece.trivia? := by
        rw [List.filterMap_cons, Piece.trivia?, hx]
      rw [ih, hkeep, List.filterMap_append, List.append_assoc]
      rfl
    · rename_i k hx
      have hskip : (x :: ps).filterMap Piece.trivia? = ps.filterMap Piece.trivia? := by
        rw [List.filterMap_cons, Piece.trivia?, hx]
      have hbreak : (if s.gap.any Gap.isLineEnd then s.breakLine x.indent false
            else ([], s.blocks, s.gap.filterMap Gap.trivia?)).1.flatMap Token.before ++
          (if s.gap.any Gap.isLineEnd then s.breakLine x.indent false
            else ([], s.blocks, s.gap.filterMap Gap.trivia?)).2.2 =
              s.gap.filterMap Gap.trivia? := by
        split
        · exact s.before_breakLine _ _
        · rfl
      generalize (if s.gap.any Gap.isLineEnd then s.breakLine x.indent false
        else ([], s.blocks, s.gap.filterMap Gap.trivia?)) = broken at hbreak
      dsimp only
      rw [hskip, ← hbreak, List.flatMap_append, List.flatMap_cons, List.append_assoc,
        List.append_assoc, List.append_assoc]
      exact congrArg _ (congrArg _ (ih ⟨broken.2.1, some (k, x.stop), []⟩))

theorem before_tokensOf (source : List Char) :
    (tokensOf source).1.flatMap Token.before ++ (tokensOf source).2 =
    (piecesOf source).filterMap Piece.trivia? :=
  before_layout ⟨[], none, []⟩ (piecesOf source)

/-! ## Nodes -/

namespace Grammar

def isSolid : R → Bool
  | .leaf _ k | .node k _ => !k.isTrivia
  | .grow _ tails | .extend _ tails => tails.all fun t => !t.1.isTrivia
  | _ => true

theorem each_isSolid (n : Phrase) : (rules n).each isSolid = true := by
  cases n <;> decide

end Grammar

open Grammar

theorem Node.allOf_trivia (ts : List Trivia) : allOf (ts.map Trivia.node) = ts.map Trivia.node := by
  induction ts with
  | nil => rfl
  | cons t ts ih =>
    rw [List.map_cons, allOf_cons, ih]
    rfl

theorem filter_isTrivia (ts : List Trivia) :
    (ts.map Trivia.node).filter Node.isTrivia = ts.map Trivia.node :=
  List.filter_eq_self.2 fun n hn => by
    obtain ⟨t, -, rfl⟩ := List.mem_map.1 hn
    exact isTrivia_node t

theorem Node.filter_allOf_wrap {k : Kind} (hk : k.isTrivia = false) (p : Pos) (ns : List Node) :
    (allOf (wrap k p ns)).filter isTrivia = (allOf ns).filter isTrivia := by
  have hmade : (made k p ns).isTrivia = false := hk
  have hinner : (made k p ns).inner = allOf (ns.dropWhile isTrivia) := rfl
  rw [wrap_eq, allOf_append, allOf_cons, allOf_nil, List.append_nil, all_eq, hinner,
    List.filter_append, List.filter_cons, hmade,
    if_neg Bool.false_ne_true, ← List.filter_append, ← allOf_append, takeWhile_append_dropWhile]

variable {r : R} {c c' : Cursor} {ns : List Node} {source : List Char} {root x : Node}

/-- A reading leaves the trivia before the tokens that it takes. -/
theorem Reads.trivia (h : Reads rules r c ns c') (hr : r.each isSolid = true) :
    (Node.allOf ns).filter Node.isTrivia ++ (c'.ahead.flatMap Token.before).map Trivia.node =
      (c.ahead.flatMap Token.before).map Trivia.node := by
  induction h with
  | @token r t rest count last ns h =>
    rw [List.flatMap_cons, List.map_append]
    refine congrArg (· ++ _) ?_
    rcases Rule.of_taken? h with ⟨k, hk, rfl⟩ | ⟨-, -, -, rfl⟩
    · have hsolid : (Node.mk k t.start t.stop []).isTrivia = false := by
        cases r with
        | mark | keyword | word =>
          cases List.mem_singleton.1 hk
          rfl
        | leaf =>
          cases List.mem_singleton.1 hk
          exact Bool.not_eq_true' _ ▸ hr
        | _ => cases hk
      rw [Token.leaf, Node.allOf_append, Node.allOf_trivia, List.filter_append, filter_isTrivia]
      show _ ++ [Node.mk k t.start t.stop []].filter Node.isTrivia = _
      rw [List.filter_singleton, hsolid]
      exact List.append_nil _
    · rw [Node.allOf_trivia, filter_isTrivia]
  | nothing | «unless» _ | before _ | done => rfl
  | andThen _ _ ih ih' =>
    simp only [Rule.each, Bool.and_eq_true] at hr
    rw [Node.allOf_append, List.filter_append, List.append_assoc, ih' hr.2, ih hr.1.2]
  | first _ ih =>
    simp only [Rule.each, Bool.and_eq_true] at hr
    exact ih hr.1.2
  | second _ ih =>
    simp only [Rule.each, Bool.and_eq_true] at hr
    exact ih hr.2
  | more _ _ ih ih' =>
    have hone := hr
    simp only [Rule.each, Bool.and_eq_true] at hone
    rw [Node.allOf_append, List.filter_append, List.append_assoc, ih' hr, ih hone.2]
  | node _ ih =>
    have hk := Rule.ok_of_each hr
    simp only [Rule.each, Bool.and_eq_true] at hr
    rw [isSolid, Bool.not_eq_true'] at hk
    rw [Node.filter_allOf_wrap hk, ih hr.2]
  | growBase _ ih | extendBase _ ih =>
    simp only [Rule.each, Bool.and_eq_true] at hr
    exact ih hr.1.2
  | growTail ht _ _ ih ih' =>
    have hk := List.all_eq_true.1 (Rule.ok_of_each hr) _ ht
    rw [Bool.not_eq_true'] at hk
    have hbase := ih hr
    simp only [Rule.each, Bool.and_eq_true] at hr
    rw [Node.filter_allOf_wrap hk, Node.allOf_append, List.filter_append, List.append_assoc,
      ih' (Rule.of_eachTail hr.2 ht), hbase]
  | extendTail ht _ _ ih ih' =>
    have hk := List.all_eq_true.1 (Rule.ok_of_each hr) _ ht
    rw [Bool.not_eq_true'] at hk
    simp only [Rule.each, Bool.and_eq_true] at hr
    rw [Node.filter_allOf_wrap hk, Node.allOf_append, List.filter_append, List.append_assoc,
      ih' (Rule.of_eachTail hr.2 ht), ih hr.1.2]
  | only _ _ ih =>
    simp only [Rule.each, Bool.and_eq_true] at hr
    exact ih hr.2
  | @rule n _ _ _ _ ih => exact ih (each_isSolid n)

theorem trivia_of_parse (h : Grammar.parse source = .ok root) :
    root.all.filter Node.isTrivia =
      ((piecesOf source).filterMap Piece.trivia?).map Trivia.node := by
  obtain ⟨ns, c, hr, hc, rfl⟩ := of_parse h
  have hread := hr.trivia (by decide)
  rw [hc, List.flatMap_nil, List.map_nil, List.append_nil] at hread
  rw [Node.all_eq, List.filter_cons, ← before_tokensOf, List.map_append]
  show (Node.allOf (ns ++ (tokensOf source).2.map Trivia.node)).filter _ = _
  rw [Node.allOf_append, List.filter_append, Node.allOf_trivia, filter_isTrivia, hread]
  rfl

theorem fills_of_parse (h : Grammar.parse source = .ok root) (hx : x ∈ root.all)
    (hk : x.kind = .comment) : Fills source x.start x.stop := by
  have hmem : x ∈ root.all.filter Node.isTrivia :=
    List.mem_filter.2 ⟨hx, by rw [Node.isTrivia, hk]; rfl⟩
  rw [trivia_of_parse h] at hmem
  obtain ⟨t, ht, rfl⟩ := List.mem_map.1 hmem
  obtain ⟨p, hp, htrivia⟩ := List.mem_filterMap.1 ht
  unfold Piece.trivia? at htrivia
  split at htrivia
  · rename_i k hpk
    cases htrivia
    cases k with
    | comment => exact fills_of_mem_piecesOf hp hpk
    | continuation => cases hk
  · cases htrivia

end AsyncSpread.Python
