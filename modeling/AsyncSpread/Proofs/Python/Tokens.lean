import AsyncSpread.Proofs.Python.Comments

/-!
What the tokens of a text are.

The layout puts tokens without text between the pieces and hands the trivia over to the tokens
behind them, so tokens and trivia still lie in a row (`laid_tokensOf`).  Behind a token of the
layout the text goes on in a later row (`inLines_tokensOf`).
-/

namespace AsyncSpread.Python

def Trivia.span (t : Trivia) : Pos × Pos := (t.start, t.stop)

def Token.spans (t : Token) : List (Pos × Pos) := t.before.map Trivia.span ++ [(t.start, t.stop)]

/-- The spans of what is between two tokens; the ends of lines do not count. -/
def gapSpans (gap : List Gap) : List (Pos × Pos) := (gap.filterMap Gap.trivia?).map Trivia.span

variable {source : List Char} {p q : Pos}

theorem stopOf_eq (p : Pos) (ts : List Trivia) :
    stopOf p ts = Laid.stop p (ts.map Trivia.span) := by
  induction ts generalizing p with
  | nil => rfl
  | cons t ts ih =>
    cases ts with
    | nil => rfl
    | cons u ts => exact (ih p).trans rfl

theorem Laid.drop {as bs : List (Pos × Pos)} {s : Pos × Pos} (h : Laid source p (as ++ s :: bs) q) :
    Laid source p (as ++ bs) q := by
  obtain ⟨r, h1, h2, h3, h4⟩ := Laid.append_iff.1 h
  exact h1.append (h4.before (h2.trans h3))

/-! ## Line ends -/

theorem filterMap_lastLine (gap : List Gap) :
    (lastLine gap).1.filterMap Gap.trivia? ++ (lastLine gap).2.filterMap Gap.trivia? =
      gap.filterMap Gap.trivia? := by
  unfold lastLine
  extract_lets line
  split
  · have hg : line ++ gap.dropWhile (fun g => !g.isLineEnd) = gap := List.takeWhile_append_dropWhile
    have hd : gap.drop line.length = gap.dropWhile fun g => !g.isLineEnd :=
      (congrArg (List.drop line.length) hg.symm).trans List.drop_left
    rw [hd, ← List.filterMap_append, hg]
  · rfl

theorem filterMap_withinBlock (indent : Nat) (gap : List Gap) :
    (withinBlock indent gap).1 ++ (withinBlock indent gap).2.filterMap Gap.trivia? =
      gap.filterMap Gap.trivia? := by
  induction gap with
  | nil => rfl
  | cons g gap ih =>
    unfold withinBlock
    split
    · rw [List.append_assoc, ih]
      cases g <;> rfl
    · rfl

/-- A token of the layout stands right behind the trivia that it takes over. -/
theorem laid_layoutToken {before : List Trivia} {zs : List (Pos × Pos)} (kind : TokenKind)
    (h : Laid source p (before.map Trivia.span ++ zs) q) :
    Laid source p (layoutToken kind p before).spans (layoutToken kind p before).stop ∧
      Laid source (layoutToken kind p before).stop zs q := by
  obtain ⟨h1, h2⟩ := h.append_stop
  rw [← stopOf_eq] at h1 h2
  have hs : Span source (stopOf p before) (stopOf p before) := .refl h1.span.right_in
  exact ⟨h1.append ⟨hs, hs, hs⟩, h2⟩

theorem laid_closeBlocks {indent : Nat} {blocks : List Nat} {gap : List Gap}
    (h : Laid source p (gapSpans gap) q) :
    Laid source p ((closeBlocks indent blocks p gap).1.flatMap Token.spans ++
      gapSpans (closeBlocks indent blocks p gap).2.2) q := by
  induction blocks generalizing p gap with
  | nil => exact h
  | cons b blocks ih =>
    unfold closeBlocks
    split
    · rw [gapSpans, ← filterMap_withinBlock b gap, List.map_append] at h
      obtain ⟨h1, h2⟩ := laid_layoutToken .dedent h
      rw [List.flatMap_cons, List.append_assoc]
      exact h1.append (ih h2)
    · exact h

theorem isLayout_of_mem_closeBlocks {indent : Nat} {blocks : List Nat} {gap : List Gap} {t : Token}
    (h : t ∈ (closeBlocks indent blocks p gap).1) : t.kind.isLayout = true := by
  induction blocks generalizing p gap with
  | nil => exact absurd h List.not_mem_nil
  | cons b blocks ih =>
    unfold closeBlocks at h
    split at h
    · rcases List.mem_cons.1 h with rfl | h
      · rfl
      · exact ih h
    · exact absurd h List.not_mem_nil

namespace LineState

def place (s : LineState) : Pos := (s.last.map Prod.snd).getD .start

variable {s : LineState} {indent : Nat} {ends : Bool}

theorem laid_breakLine (h : Laid source s.place (gapSpans s.gap) q) :
    Laid source s.place ((s.breakLine indent ends).1.flatMap Token.spans ++
      (s.breakLine indent ends).2.2.map Trivia.span) q := by
  unfold breakLine
  cases hs : s.last with
  | none => exact h
  | some last =>
    obtain ⟨kind, p⟩ := last
    have hp : s.place = p := by
      unfold place
      rw [hs]
      rfl
    rw [hp] at h ⊢
    rw [gapSpans, ← filterMap_lastLine s.gap, List.map_append] at h
    simp only
    split
    · obtain ⟨h1, h2⟩ := laid_layoutToken .indent h
      rw [List.flatMap_singleton]
      exact h1.append h2
    · obtain ⟨h1, h2⟩ := laid_layoutToken .newline h
      rw [List.flatMap_cons, List.append_assoc]
      exact h1.append (laid_closeBlocks h2)

theorem isLayout_of_mem_breakLine {t : Token} (h : t ∈ (s.breakLine indent ends).1) :
    t.kind.isLayout = true := by
  unfold breakLine at h
  split at h
  · exact absurd h List.not_mem_nil
  · simp only at h
    split at h
    · rw [List.mem_singleton] at h
      subst h
      rfl
    · rcases List.mem_cons.1 h with rfl | h
      · rfl
      · exact isLayout_of_mem_closeBlocks h

theorem last_of_breakLine (h : (s.breakLine indent ends).1 = []) : s.last = none := by
  unfold breakLine at h
  split at h
  · assumption
  · dsimp only at h
    split at h <;> cases h

end LineState

/-! ## The whole text -/

variable {s : LineState} {ps : List Piece}

theorem gapSpans_lineEnd (gap : List Gap) : gapSpans (gap ++ [.lineEnd]) = gapSpans gap := by
  rw [gapSpans, List.filterMap_append]
  exact congrArg _ (List.append_nil _)

theorem gapSpans_trivia (gap : List Gap) (t : Trivia) (indent : Nat) :
    gapSpans (gap ++ [.trivia t indent]) = gapSpans gap ++ [t.span] := by
  rw [gapSpans, List.filterMap_append, List.map_append]
  rfl

theorem laid_layout (h : Laid source s.place (gapSpans s.gap ++ ps.map Piece.span) q) :
    Laid source s.place
      ((layout s ps).1.flatMap Token.spans ++ (layout s ps).2.map Trivia.span) q := by
  induction ps generalizing s with
  | nil =>
    rw [List.map_nil, List.append_nil] at h
    exact LineState.laid_breakLine h
  | cons x ps ih =>
    unfold layout
    split
    · refine ih (s := { s with gap := s.gap ++ [.lineEnd] }) ?_
      rw [gapSpans_lineEnd]
      exact h.drop
    · rename_i k hx
      refine ih (s := { s with gap := s.gap ++ [.trivia ⟨k, x.start, x.stop⟩ x.indent] }) ?_
      rw [gapSpans_trivia, List.append_assoc]
      exact h
    · rename_i k hx
      obtain ⟨r, hgap, h1, h2, h3⟩ := Laid.append_iff.1 h
      -- What the gap becomes: tokens of the layout, and the trivia that are left for the next
      -- token.
      have hbreak : Laid source s.place
          ((if s.gap.any Gap.isLineEnd then s.breakLine x.indent false
            else ([], s.blocks, s.gap.filterMap Gap.trivia?)).1.flatMap Token.spans ++
          (if s.gap.any Gap.isLineEnd then s.breakLine x.indent false
            else ([], s.blocks, s.gap.filterMap Gap.trivia?)).2.2.map Trivia.span) r := by
        split
        · exact LineState.laid_breakLine hgap
        · exact hgap
      generalize (if s.gap.any Gap.isLineEnd then s.breakLine x.indent false
        else ([], s.blocks, s.gap.filterMap Gap.trivia?)) = broken at hbreak
      have hrest := ih (s := ⟨broken.2.1, some (k, x.stop), []⟩) h3
      simp only [List.flatMap_append, List.flatMap_cons, Token.spans, List.append_assoc]
      rw [← List.append_assoc]
      exact hbreak.append ⟨h1, h2, hrest⟩

/-- A token is a piece of the text, or it belongs to the layout. -/
theorem mem_layout {t : Token} (h : t ∈ (layout s ps).1) :
    t.kind.isLayout = true ∨ ∃ x ∈ ps, x.kind = .token t.kind ∧ x.start = t.start ∧
      x.stop = t.stop := by
  induction ps generalizing s with
  | nil => exact .inl (LineState.isLayout_of_mem_breakLine h)
  | cons x ps ih =>
    have later {s : LineState} (h : t ∈ (layout s ps).1) : t.kind.isLayout = true ∨
        ∃ y ∈ x :: ps, y.kind = .token t.kind ∧ y.start = t.start ∧ y.stop = t.stop := by
      rcases ih h with h | ⟨y, hy, h⟩
      · exact .inl h
      · exact .inr ⟨y, List.mem_cons_of_mem _ hy, h⟩
    unfold layout at h
    split at h
    · exact later h
    · exact later h
    · rename_i k hx
      rcases List.mem_append.1 h with h | h
      · split at h
        · exact .inl (LineState.isLayout_of_mem_breakLine h)
        · exact absurd h List.not_mem_nil
      · rcases List.mem_cons.1 h with rfl | h
        · exact .inr ⟨x, List.mem_cons_self, hx, rfl, rfl⟩
        · exact later h

/-! ## Rows -/

theorem stopOf_cons (p : Pos) (t : Trivia) (ts : List Trivia) :
    stopOf p (t :: ts) = stopOf t.stop ts := by
  rw [stopOf_eq, stopOf_eq]
  rfl

/-- What is between two tokens, from `p` on, clears row `r`: the comments, and whatever the end of a
line stands behind, stop in rows before it. -/
def Clears (r : Nat) (p : Pos) : List Gap → Prop
  | [] => True
  | .lineEnd :: gap => p.row < r ∧ Clears r p gap
  | .trivia t _ :: gap => (t.kind = .comment → t.stop.row < r) ∧ Clears r t.stop gap

namespace Clears

variable {r : Nat} {gap gap' : List Gap}

theorem append_iff : Clears r p (gap ++ gap') ↔
    Clears r p gap ∧ Clears r (stopOf p (gap.filterMap Gap.trivia?)) gap' := by
  induction gap generalizing p with
  | nil => exact (and_iff_right trivial).symm
  | cons g gap ih =>
    cases g with
    | lineEnd => exact (and_congr_right fun _ => ih).trans and_assoc.symm
    | trivia t n =>
      have hstop : stopOf p ((Gap.trivia t n :: gap).filterMap Gap.trivia?) =
          stopOf t.stop (gap.filterMap Gap.trivia?) :=
        stopOf_cons p t _
      rw [hstop]
      exact (and_congr_right fun _ => ih).trans and_assoc.symm

/-- What a block takes over ends with a comment, if it is not empty. -/
theorem withinBlock (h : Clears r p gap) (indent : Nat)
    (hp : p.row < r ∨ firstCommentWithin indent gap = true) :
    (stopOf p (withinBlock indent gap).1).row < r ∧
      Clears r (stopOf p (Python.withinBlock indent gap).1) (Python.withinBlock indent gap).2 := by
  induction gap generalizing p with
  | nil => exact ⟨hp.resolve_right Bool.false_ne_true, trivial⟩
  | cons g gap ih =>
    unfold Python.withinBlock
    by_cases hfirst : firstCommentWithin indent (g :: gap) = true
    · rw [if_pos hfirst]
      cases g with
      | lineEnd => exact ih h.2 (.inr hfirst)
      | trivia t n =>
        have hstop (ts : List Trivia) : stopOf p ((Gap.trivia t n).trivia?.toList ++ ts) =
          stopOf t.stop ts := stopOf_cons p t ts
        dsimp only
        rw [hstop]
        refine ih h.2 ?_
        by_cases hcomment : t.kind = .comment
        · exact .inl (h.1 hcomment)
        · rw [firstCommentWithin, if_neg hcomment] at hfirst
          exact .inr hfirst
    · rw [if_neg hfirst]
      exact ⟨hp.resolve_right hfirst, h⟩

/-- What ends a line stops in its row, if the line does end. -/
theorem lastLine (h : Clears r p gap) (hl : Laid source p (gapSpans gap) q)
    (hend : gap.any Gap.isLineEnd = true) :
    (stopOf p ((Python.lastLine gap).1.filterMap Gap.trivia?)).row < r ∧
      Clears r (stopOf p ((Python.lastLine gap).1.filterMap Gap.trivia?))
        (Python.lastLine gap).2 := by
  have hcut : gap.takeWhile (fun g => !g.isLineEnd) ++ gap.dropWhile
      (fun g => !g.isLineEnd) = gap :=
    List.takeWhile_append_dropWhile
  obtain ⟨rest, hrest⟩ : ∃ rest, gap.dropWhile (fun g => !g.isLineEnd) = .lineEnd :: rest := by
    cases hd : gap.dropWhile (fun g => !g.isLineEnd) with
    | nil =>
      rw [hd, List.append_nil] at hcut
      rw [← hcut] at hend
      obtain ⟨g, hg, hlineEnd⟩ := List.any_eq_true.1 hend
      have hno := List.all_eq_true.1 List.all_takeWhile g hg
      rw [hlineEnd] at hno
      cases hno
    | cons g rest =>
      have hnot := List.head?_dropWhile_not (fun g : Gap => !g.isLineEnd) gap
      rw [hd] at hnot
      cases g with
      | lineEnd => exact ⟨rest, rfl⟩
      | trivia => cases hnot
  rw [hrest] at hcut
  generalize hline : gap.takeWhile (fun g => !g.isLineEnd) = line at hcut
  have hlast : Python.lastLine gap = if line.any Gap.isComment then (line, gap.drop line.length)
      else ([], gap) := by
    rw [Python.lastLine, hline]
  have hparts := h
  rw [← hcut, append_iff] at hparts
  obtain ⟨-, hrow, hbehind⟩ := hparts
  rw [hlast]
  by_cases hcomment : line.any Gap.isComment = true
  · have hdrop : gap.drop line.length = .lineEnd :: rest := by
      rw [← hcut]
      exact List.drop_left
    rw [if_pos hcomment, hdrop]
    exact ⟨hrow, hrow, hbehind⟩
  · rw [if_neg hcomment]
    have hle : p.row ≤ (stopOf p (line.filterMap Gap.trivia?)).row := by
      rw [← hcut, gapSpans, List.filterMap_append, List.map_append] at hl
      rw [stopOf_eq]
      exact hl.append_stop.1.span.row_le
    exact ⟨Nat.lt_of_le_of_lt hle hrow, h⟩

/-- The ends of blocks stand in rows before the next token. -/
theorem closeBlocks (h : Clears r p gap) (hp : p.row < r) (indent : Nat) (blocks : List Nat) :
    ∀ t ∈ (closeBlocks indent blocks p gap).1, t.stop.row < r := by
  induction blocks generalizing p gap with
  | nil => exact nofun
  | cons b blocks ih =>
    unfold Python.closeBlocks
    split
    · obtain ⟨hrow, hrest⟩ := h.withinBlock b (.inl hp)
      intro t ht
      rcases List.mem_cons.1 ht with rfl | ht
      · exact hrow
      · exact ih hrest hrow t ht
    · exact nofun

theorem breakLine {s : LineState} (h : Clears r s.place s.gap)
    (hl : Laid source s.place (gapSpans s.gap) q) (hend : s.gap.any Gap.isLineEnd = true)
    (indent : Nat) (ends : Bool) : ∀ t ∈ (s.breakLine indent ends).1, t.stop.row < r := by
  unfold LineState.breakLine
  cases hs : s.last with
  | none => exact nofun
  | some last =>
    obtain ⟨kind, p⟩ := last
    have hp : s.place = p := by
      rw [LineState.place, hs]
      rfl
    rw [hp] at h hl
    obtain ⟨hrow, hrest⟩ := h.lastLine hl hend
    dsimp only
    split
    · intro t ht
      rw [List.mem_singleton.1 ht]
      exact hrow
    · intro t ht
      rcases List.mem_cons.1 ht with rfl | ht
      · exact hrow
      · exact hrest.closeBlocks hrow indent s.blocks t ht

end Clears

/-- Tokens that go on in a later row behind each token of the layout.  `rows` counts the rows up to
the one where the last token stops, and `broken` says that it is one of the layout. -/
def InLines (rows : Nat) (broken : Bool) : List Token → Prop
  | [] => True
  | t :: ts =>
    if t.kind.isLayout then rows ≤ t.stop.row + 1 ∧ InLines (t.stop.row + 1) true ts
    else rows ≤ t.start.row + 1 ∧ (broken = true → rows ≤ t.start.row) ∧ t.start.row ≤ t.stop.row ∧
      InLines (t.stop.row + 1) false ts

theorem InLines.append {rows : Nat} {broken : Bool} {ts us : List Token} {zs : List (Pos × Pos)}
    (hts : ∀ t ∈ ts, t.kind.isLayout = true) (hl : Laid source p (ts.flatMap Token.spans ++ zs) q)
    (hrows : rows ≤ p.row + 1) (hnil : ts = [] → InLines rows broken us)
    (hus : ∀ t ∈ ts, InLines (t.stop.row + 1) true us) : InLines rows broken (ts ++ us) := by
  induction ts generalizing p rows broken with
  | nil => exact hnil rfl
  | cons t ts ih =>
    rw [List.flatMap_cons, Token.spans, List.append_assoc, List.append_assoc] at hl
    obtain ⟨r, h1, h2, h3, h4⟩ := Laid.append_iff.1 hl
    have hrow : p.row ≤ t.stop.row := ((h1.span.trans h2).trans h3).row_le
    rw [List.cons_append, InLines, if_pos (hts t List.mem_cons_self)]
    exact ⟨by omega, ih (fun u hu => hts u (List.mem_cons_of_mem _ hu)) h4 (Nat.le_refl _)
      (fun _ => hus t List.mem_cons_self) fun u hu => hus u (List.mem_cons_of_mem _ hu)⟩

theorem inLines_layout {rows : Nat} {broken : Bool} {pending : Prop}
    (hgap : Laid source s.place (gapSpans s.gap) p) (hl : Laid source p (ps.map Piece.span) q)
    (hf : ∀ x ∈ ps, x.Fits source) (hchain : ps.IsChain Piece.Parts)
    (hhead : pending → ∀ x ∈ ps.head?, x.kind = .lineEnd ∨ p.row < x.start.row)
    (hrows : rows ≤ s.place.row + 1)
    (hclears : ∀ r, p.row ≤ r → (pending → p.row < r) → Clears r s.place s.gap)
    (hlast : s.last = none → rows = 0) (hbroken : broken = true → rows = 0) :
    InLines rows broken (layout s ps).1 := by
  induction ps generalizing s p rows broken pending with
  | nil =>
    have h : InLines rows broken ((s.breakLine 0 true).1 ++ []) :=
      InLines.append (fun t ht => LineState.isLayout_of_mem_breakLine ht)
        (LineState.laid_breakLine hgap) hrows (fun _ => trivial) fun _ _ => trivial
    rwa [List.append_nil] at h
  | cons x ps ih =>
    obtain ⟨h1, h2, h3⟩ := hl
    have hf' : ∀ y ∈ ps, y.Fits source := fun y hy => hf y (List.mem_cons_of_mem _ hy)
    have hstart : p.row ≤ x.start.row := h1.row_le
    have hstop : x.start.row ≤ x.stop.row := h2.row_le
    have hnext : x.kind = .trivia .comment → ∀ y ∈ ps.head?, y.kind = .lineEnd ∨
        x.stop.row < y.start.row :=
      fun hc y hy => (List.isChain_cons.1 hchain).1 y hy hc
    have hends : stopOf s.place (s.gap.filterMap Gap.trivia?) =
      Laid.stop s.place (gapSpans s.gap) := stopOf_eq _ _
    unfold layout
    split
    · rename_i hx
      have hend := (hf x List.mem_cons_self).lineEnd hx
      refine ih (s := { s with gap := s.gap ++ [.lineEnd] }) ?_ h3 hf' hchain.tail False.elim hrows
        (fun r hr _ => ?_) hlast hbroken
      · rw [gapSpans_lineEnd]
        exact hgap.after (h1.trans h2)
      · have hr : x.stop.row ≤ r := hr
        have hle := hgap.to_stop.2.row_le
        exact Clears.append_iff.2
          ⟨hclears r (by omega) fun _ => by omega, hends ▸ (by omega), trivial⟩
    · rename_i k hx
      refine ih (s := { s with gap := s.gap ++ [.trivia ⟨k, x.start, x.stop⟩ x.indent] }) ?_ h3 hf'
        hchain.tail hnext hrows (fun r hr hpend => ?_) hlast hbroken
      · rw [gapSpans_trivia]
        exact hgap.append ⟨h1, h2, .refl h2.right_in⟩
      · have hr : x.stop.row ≤ r := hr
        refine Clears.append_iff.2 ⟨hclears r (by omega) fun hp => ?_, fun hc => ?_, trivial⟩
        · rcases hhead hp x rfl with hl | hlt
          · rw [hx] at hl
            cases hl
          · omega
        · have hc : k = .comment := hc
          exact hpend (hx.trans (by rw [hc]))
    · rename_i k hx
      have hk := (hf x List.mem_cons_self).solid k hx
      have hclears : Clears x.start.row s.place s.gap := hclears _ hstart fun hp => by
        rcases hhead hp x rfl with hl | hlt
        · rw [hx] at hl
          cases hl
        · exact hlt
      have hrest (blocks : List Nat) :
          InLines (x.stop.row + 1) false (layout ⟨blocks, some (k, x.stop), []⟩ ps).1 :=
        ih (s := ⟨blocks, some (k, x.stop), []⟩) (.refl h2.right_in) h3 hf' hchain.tail False.elim
          (Nat.le_refl _) (fun _ _ _ => trivial) nofun nofun
      have htoken {rows : Nat} {broken : Bool} (blocks : List Nat) (before : List Trivia)
          (h : rows ≤ x.start.row + 1) (hb : broken = true → rows ≤ x.start.row) :
          InLines rows broken (⟨k, x.start, x.stop, before⟩ ::
              (layout ⟨blocks, some (k, x.stop), []⟩ ps).1) := by
        rw [InLines, if_neg (by rw [hk]; exact Bool.false_ne_true)]
        exact ⟨h, hb, hstop, hrest blocks⟩
      have hplace := hgap.span.row_le
      by_cases hend : s.gap.any Gap.isLineEnd = true
      · rw [if_pos hend]
        have hbefore := hclears.breakLine hgap hend x.indent false
        refine InLines.append (fun t ht => LineState.isLayout_of_mem_breakLine ht)
          (LineState.laid_breakLine hgap) hrows (fun hnil => ?_) fun t ht => ?_
        · rw [hlast (LineState.last_of_breakLine hnil)]
          exact htoken _ _ (Nat.zero_le _) fun _ => Nat.zero_le _
        · have := hbefore t ht
          exact htoken _ _ (by omega) fun _ => by omega
      · rw [if_neg hend]
        refine htoken _ _ (by omega) fun hb => ?_
        rw [hbroken hb]
        exact Nat.zero_le _

theorem laid_tokensOf (source : List Char) : ∃ q, Laid source .start
    ((tokensOf source).1.flatMap Token.spans ++ (tokensOf source).2.map Trivia.span) q := by
  obtain ⟨q, h⟩ := laid_piecesOf source
  exact ⟨q, laid_layout (s := ⟨[], none, []⟩) h⟩

theorem inLines_tokensOf (source : List Char) : InLines 0 true (tokensOf source).1 := by
  obtain ⟨q, h⟩ := laid_piecesOf source
  exact inLines_layout (s := ⟨[], none, []⟩) (.refl h.span.left_in) h
    (fun _ hx => fits_of_mem_piecesOf hx) (isChain_piecesOf source) False.elim (Nat.zero_le _)
      (fun _ _ _ => trivial)
    (fun _ => rfl) (fun _ => rfl)

/-- A token of a text has text unless it is strange or belongs to the layout, and a keyword its
own. -/
theorem of_mem_tokensOf {t : Token} (h : t ∈ (tokensOf source).1) :
    (t.kind.isLayout = false → t.kind ≠ .strange → t.start.byte < t.stop.byte) ∧
      ∀ k, t.kind = .keyword k → Text.slice t.start.byte t.stop.byte source = k.chars := by
  rcases mem_layout h with hl | ⟨x, hx, hk, hstart, hstop⟩
  · refine ⟨fun hn => absurd (hl.symm.trans hn) nofun, fun k hk => ?_⟩
    rw [hk] at hl
    cases hl
  · have hf := fits_of_mem_piecesOf hx
    rw [← hstart, ← hstop]
    refine ⟨fun _ hs => hf.filled _ hk hs, fun k hkind => hf.keyword k ?_⟩
    rw [hk, hkind]

theorem slice_mark_of_mem_tokensOf {t : Token} (h : t ∈ (tokensOf source).1) {m : Mark}
    (hk : t.kind = .mark m) (hne : m ≠ .openBrace) :
    Text.slice t.start.byte t.stop.byte source = m.chars := by
  rcases mem_layout h with hl | ⟨x, hx, hkind, hstart, hstop⟩
  · rw [hk] at hl
    cases hl
  · rw [← hstart, ← hstop]
    refine (fits_of_mem_piecesOf hx).mark m ?_ hne
    rw [hkind, hk]

end AsyncSpread.Python
