import AsyncSpread.Proofs.Python.Spans
import AsyncSpread.Proofs.Python.Words

/-!
How names and dotted paths are cut into tokens.

A name is cut off as one word where a character follows that it cannot go on with
(`Scan.step_word`), so a dotted path becomes words with dots between them (`Scan.emits_tail`).  The
layout leaves the tokens of a line as they are and closes the line behind them (`layout_lines`).
-/

namespace AsyncSpread

/-- Whether a text is a name of the language, which a keyword is, too. -/
def Text.isName : List Char → Bool
  | [] => false
  | c :: cs => beginsName c && cs.all continuesName

theorem Text.isWord_of_isName {cs : List Char} (h : isName cs = true) : isWord cs = true := by
  cases cs with
  | nil => rfl
  | cons c cs =>
    obtain ⟨hc, hcs⟩ := Bool.and_eq_true_iff.1 h
    refine isWord_of_forall fun x hx => Bool.or_eq_true_iff.2 ?_
    rcases List.mem_cons.1 hx with rfl | hx
    · exact .inl hc
    · exact .inr (List.all_eq_true.1 hcs x hx)

namespace Python

def wordKind (w : List Char) : TokenKind :=
  match Keyword.ofWord? w with
  | some k => .keyword k
  | none => .name

/-- What a name stops in front of: it can neither go on with it nor open a string with it. -/
def endsName (c : Char) : Bool := !Text.continuesName c && c ≠ '"' && c ≠ '\''

def wordToken (p : Pos) (w : List Char) : Token := ⟨wordKind w, p, p.past w, []⟩

theorem wordKind_ne_mark (w : List Char) (m : Mark) : wordKind w ≠ .mark m := by
  unfold wordKind
  split <;> exact nofun

def dottedTail : List (List Char) → List Char
  | [] => []
  | w :: ws => '.' :: w ++ dottedTail ws

def tailTokens : Pos → List (List Char) → List Token
  | _, [] => []
  | p, w :: ws =>
    ⟨.mark .dot, p, p.past ['.'], []⟩ :: wordToken (p.past ['.']) w :: tailTokens
      (p.past ('.' :: w)) ws

def decoratorTokens (p : Pos) (w : List Char) (ws : List (List Char)) : List Token :=
  ⟨.mark .at, p, p.past ['@'], []⟩ :: wordToken (p.past ['@']) w ::
    tailTokens (p.past ('@' :: w)) ws

theorem of_mem_tailTokens {t : Token} {p : Pos} {ws : List (List Char)} (h : t ∈ tailTokens p ws) :
    t.before = [] ∧ t.kind ≠ .mark .colon := by
  induction ws generalizing p with
  | nil => cases h
  | cons w ws ih =>
    rcases List.mem_cons.1 h with rfl | h
    · exact ⟨rfl, nofun⟩
    · rcases List.mem_cons.1 h with rfl | h
      · exact ⟨rfl, wordKind_ne_mark w _⟩
      · exact ih h

theorem of_mem_decoratorTokens {t : Token} {p : Pos} {w : List Char} {ws : List (List Char)}
    (h : t ∈ decoratorTokens p w ws) : t.before = [] ∧ t.kind ≠ .mark .colon := by
  rcases List.mem_cons.1 h with rfl | h
  · exact ⟨rfl, nofun⟩
  · rcases List.mem_cons.1 h with rfl | h
    · exact ⟨rfl, wordKind_ne_mark w _⟩
    · exact of_mem_tailTokens h

/-- The piece that becomes a token where the line is indented so far. -/
def Token.piece (indent : Nat) (t : Token) : Piece := ⟨.token t.kind, t.start, t.stop, indent⟩

theorem ne_of_beginsName {c x : Char} (hc : Text.beginsName c = true)
    (hx : Text.beginsName x = false) : c ≠ x := by
  rintro rfl
  rw [hc] at hx
  cases hx

theorem contains_eq_false {l : List Char} {f : Char → Bool} {c : Char} (hl : l.any f = false)
    (hc : f c = true) : l.contains c = false := by
  rw [Bool.eq_false_iff]
  intro hmem
  rw [List.any_eq_false] at hl
  exact hl c (List.contains_iff_mem.1 hmem) hc

/-- The letters at the beginning of a name open no string. -/
theorem openQuote?_of_isWord {w : List Char} (hw : Text.isWord w = true) {d : Char}
    (hd : endsName d = true) (rest : List Char) : openQuote? (w ++ d :: rest) = none := by
  unfold openQuote?
  extract_lets letters has
  obtain ⟨x, tail, htail, hx⟩ : ∃ x tail, (w ++ d :: rest).drop letters.length = x :: tail ∧
      (x ∈ w ∨ x = d) := by
    have hcut : letters ++ (w ++ d :: rest).dropWhile
        (['f', 'F', 'r', 'R', 'b', 'B', 'u', 'U'].contains ·) = w ++ d :: rest :=
      List.takeWhile_append_dropWhile
    have hdrop : (w ++ d :: rest).drop letters.length =
        (w ++ d :: rest).dropWhile (['f', 'F', 'r', 'R', 'b', 'B', 'u', 'U'].contains ·) := by
      conv_lhs => rw [← hcut]
      exact List.drop_left
    rw [hdrop, List.dropWhile_append]
    split
    · -- A letter in front of quotes is one that a name goes on with.
      have hletter : ['f', 'F', 'r', 'R', 'b', 'B', 'u', 'U'].contains d = false :=
        contains_eq_false (by decide +kernel) hd
      exact ⟨d, rest, by rw [List.dropWhile_cons, hletter, if_neg Bool.false_ne_true], .inr rfl⟩
    · rename_i hne
      obtain ⟨x, tail, htail⟩ := List.exists_cons_of_ne_nil fun hnil =>
        hne (List.isEmpty_iff.2 hnil)
      refine ⟨x, tail ++ d :: rest, by rw [htail, List.cons_append], .inl ?_⟩
      exact (List.dropWhile_sublist _).subset (htail ▸ List.mem_cons_self)
  have hquote : x ≠ '"' ∧ x ≠ '\'' := by
    rcases hx with hx | rfl
    · constructor
      · rintro rfl
        exact Text.not_mem_of_isWord hw (by decide) hx
      · rintro rfl
        exact Text.not_mem_of_isWord hw (by decide) hx
    · simp only [endsName, Bool.and_eq_true, decide_eq_true_eq] at hd
      exact ⟨hd.1.2, hd.2⟩
  rw [htail]
  simp only [beq_iff_eq, hquote.1, hquote.2, Bool.or_eq_true, or_self, if_false]

namespace Scan

variable {p : Pos} {i : Nat} {h : Bool} {c d : Char} {rest : List Char}

theorem token_append {w : List Char} {frames : List Frame} (k : TokenKind) :
    (⟨w ++ rest, p, frames, i, h⟩ : Scan).token k w.length =
      ([⟨.token k, p, p.past w, i⟩], ⟨rest, p.past w, frames, i, false⟩) := by
  simp [token, cut, skip]

theorem step_word {w : List Char} (hw : Text.isName w = true) (hd : endsName d = true) :
    (⟨w ++ d :: rest, p, [], i, h⟩ : Scan).step =
      some ([⟨.token (wordKind w), p, p.past w, i⟩], ⟨d :: rest, p.past w, [], i, false⟩) := by
  have hquote := openQuote?_of_isWord (Text.isWord_of_isName hw) hd rest
  cases w with
  | nil => cases hw
  | cons c cs =>
    obtain ⟨hc, hcs⟩ := Bool.and_eq_true_iff.1 hw
    have hblank : isBlank c = false := contains_eq_false (by decide +kernel) hc
    have hrun : (cs ++ d :: rest).takeWhile Text.continuesName = cs := by
      have hstop : Text.continuesName d = false := by
        simp only [endsName, Bool.and_eq_true, Bool.not_eq_true'] at hd
        exact hd.1.1
      rw [List.takeWhile_append_of_pos fun x hx => List.all_eq_true.1 hcs x hx,
        List.takeWhile_cons, hstop, if_neg Bool.false_ne_true, List.append_nil]
    have hfirst : c ≠ '\n' ∧ c ≠ '#' ∧ c ≠ '\\' :=
      ⟨ne_of_beginsName hc (by decide), ne_of_beginsName hc (by decide),
        ne_of_beginsName hc (by decide)⟩
    rw [List.cons_append] at hquote
    show some (code ⟨c :: cs ++ d :: rest, p, [], i, h⟩ c (cs ++ d :: rest)) = _
    rw [code, if_neg (by simp [hfirst.1]), if_neg (by simp [hblank]), if_neg (by simp [hfirst.2.1]),
      if_neg (by simp [hfirst.2.2]), hquote]
    simp only [hc, if_true, hrun]
    rw [word, wordKind]
    cases Keyword.ofWord? (c :: cs) with
    | none => exact congrArg some (token_append _)
    | some k =>
      -- A lambda counts only inside a field of a string.
      cases k <;> exact congrArg some (token_append _)

theorem not_isDigit_of_beginsName (hc : Text.beginsName c = true) : c.isDigit = false := by
  rw [Bool.eq_false_iff]
  intro hdigit
  have hlow : 48 ≤ c.val.toNat := of_decide_eq_true (Bool.and_eq_true_iff.1 hdigit).1
  have hhigh : c.val.toNat ≤ 57 := of_decide_eq_true (Bool.and_eq_true_iff.1 hdigit).2
  rcases Bool.or_eq_true_iff.1 hc with hc | hwide
  · rcases Bool.or_eq_true_iff.1 hc with hunder | halpha
    · rw [beq_iff_eq.1 hunder] at hhigh
      exact absurd hhigh (by decide)
    · rcases Bool.or_eq_true_iff.1 halpha with hupper | hlower
      · have : 65 ≤ c.val.toNat := (of_decide_eq_true hupper).1
        omega
      · have : 97 ≤ c.val.toNat := of_decide_eq_true (Bool.and_eq_true_iff.1 hlower).1
        omega
  · have : 128 ≤ c.val.toNat := of_decide_eq_true (Bool.and_eq_true_iff.1 hwide).1
    omega

theorem step_mark {m : Mark} (hmark : Mark.ofText? (c :: rest) = some m) (hopens : m.opens = false)
    (hc : (isBlank c || c == '#' || c == '\\' || Text.beginsName c || c == '!') = false)
    (hquote : openQuote? (c :: rest) = none)
    (hdigit : (c.isDigit || (c == '.' && (rest.take 1).any Char.isDigit)) = false) :
    (⟨c :: rest, p, [], i, h⟩ : Scan).step =
      some (token ⟨c :: rest, p, [], i, h⟩ (.mark m) m.chars.length) := by
  simp only [Bool.or_eq_false_iff] at hc
  obtain ⟨⟨⟨⟨hblank, hcomment⟩, hjoin⟩, hname⟩, hbang⟩ := hc
  have hfeed : (c == '\n') = false := by
    rw [beq_eq_false_iff_ne]
    rintro rfl
    exact absurd hblank (by decide)
  show some (code ⟨c :: rest, p, [], i, h⟩ c rest) = _
  have hframes : framesAfter m [] = [] := by
    unfold framesAfter
    split <;> simp_all
  simp only [code, hfeed, hblank, hcomment, hjoin, hquote, hname, hdigit, hbang, hmark,
    Bool.false_and, Bool.false_eq_true, if_false, token, cut, skip, hframes]

theorem step_dot (hc : Text.beginsName c = true) : (⟨'.' :: c :: rest, p, [], i, h⟩ : Scan).step =
    some ([⟨.token (.mark .dot), p, p.past ['.'], i⟩],
      ⟨c :: rest, p.past ['.'], [], i, false⟩) := by
  have hdot : c ≠ '.' := ne_of_beginsName hc (by decide)
  have hmark : Mark.ofText? ('.' :: c :: rest) = some .dot := by
    simp [Mark.ofText?, Mark.all, Mark.chars, List.isPrefixOf, Ne.symm hdot]
  exact step_mark hmark rfl (by decide) rfl (by simp [not_isDigit_of_beginsName hc])

theorem step_at (hc : Text.beginsName c = true) : (⟨'@' :: c :: rest, p, [], i, h⟩ : Scan).step =
    some ([⟨.token (.mark .at), p, p.past ['@'], i⟩], ⟨c :: rest, p.past ['@'], [], i, false⟩) := by
  have hassign : c ≠ '=' := ne_of_beginsName hc (by decide)
  have hmark : Mark.ofText? ('@' :: c :: rest) = some .at := by
    simp [Mark.ofText?, Mark.all, Mark.chars, List.isPrefixOf, Ne.symm hassign]
  exact step_mark hmark rfl (by decide) rfl rfl

/-- A scan cuts pieces off, with at most one step for a character, and comes to stand somewhere
else. -/
def Emits (s : Scan) (ps : List Piece) (s' : Scan) : Prop :=
  ∃ k, k + s'.rest.length ≤ s.rest.length ∧ ∀ n, pieces (n + k) s = ps ++ pieces n s'

variable {s s' s'' : Scan} {ps qs : List Piece}

theorem Emits.refl (s : Scan) : s.Emits [] s := ⟨0, by omega, fun _ => rfl⟩

theorem Emits.trans (h : s.Emits ps s') (h' : s'.Emits qs s'') : s.Emits (ps ++ qs) s'' := by
  obtain ⟨k, hk, hs⟩ := h
  obtain ⟨k', hk', hs'⟩ := h'
  refine ⟨k' + k, by omega, fun n => ?_⟩
  rw [← Nat.add_assoc, hs, hs', List.append_assoc]

theorem emits_of_step (h : s.step = some (ps, s')) (hl : s'.rest.length < s.rest.length) :
    s.Emits ps s' :=
  ⟨1, by omega, fun n => by rw [pieces, h]⟩

theorem pieces_nil (n : Nat) (p : Pos) (i : Nat) (h : Bool) : pieces n ⟨[], p, [], i, h⟩ = [] := by
  cases n with
  | zero => rfl
  | succ n => rfl

/-- What is cut off up to the end of a text are its pieces. -/
theorem piecesOf_of_emits {cs : List Char} (hs : (ofText cs).Emits ps ⟨[], p, [], i, h⟩) :
    piecesOf cs = ps := by
  obtain ⟨k, hk, hs⟩ := hs
  have hn : 2 * cs.length + 2 = (2 * cs.length + 2 - k) + k := by
    have hlen : (ofText cs).rest.length = cs.length := rfl
    omega
  rw [piecesOf, hn, hs, pieces_nil, List.append_nil]

theorem emits_lineEnd : (⟨'\n' :: rest, p, [], i, h⟩ : Scan).Emits [⟨.lineEnd, p, p.past ['\n'], i⟩]
    ⟨rest, p.past ['\n'], [], 0, true⟩ :=
  emits_of_step rfl (Nat.lt_succ_self _)

theorem emits_space :
    (⟨' ' :: rest, p, [], i, false⟩ : Scan).Emits [] ⟨rest, p.past [' '], [], i, false⟩ :=
  emits_of_step rfl (Nat.lt_succ_self _)

theorem emits_word {w : List Char} (hw : Text.isName w = true) (hd : endsName d = true) :
    (⟨w ++ d :: rest, p, [], i, h⟩ : Scan).Emits
      [(wordToken p w).piece i] ⟨d :: rest, p.past w, [], i, false⟩ := by
  refine emits_of_step (step_word hw hd) ?_
  have hlen : 0 < w.length := by
    cases w with
    | nil => cases hw
    | cons c cs => exact Nat.succ_pos _
  simpa using hlen

/-- A name in front of what is cut off as names with dots. -/
theorem emits_word_tail {w : List Char} {ws : List (List Char)} (hw : Text.isName w = true)
    (hd : endsName d = true)
    (htail : (⟨dottedTail ws ++ d :: rest, p.past w, [], i, false⟩ : Scan).Emits
      ((tailTokens (p.past w) ws).map (·.piece i)) ⟨d :: rest, (p.past w).past (dottedTail ws),
      [], i, false⟩) :
    (⟨w ++ (dottedTail ws ++ d :: rest), p, [], i, h⟩ : Scan).Emits
      ((wordToken p w :: tailTokens (p.past w) ws).map (·.piece i)) ⟨d :: rest,
        p.past (w ++ dottedTail ws), [], i, false⟩ := by
  have hnext : ∃ e rest', endsName e = true ∧ dottedTail ws ++ d :: rest = e :: rest' := by
    cases ws with
    | nil => exact ⟨d, rest, hd, rfl⟩
    | cons v ws => exact ⟨'.', _, by decide, rfl⟩
  obtain ⟨e, rest', he, hrest⟩ := hnext
  rw [hrest] at htail ⊢
  rw [Pos.past_append]
  exact (emits_word hw he).trans htail

/-- Names with dots in front of them are cut off one after the other. -/
theorem emits_tail {ws : List (List Char)} (hws : ∀ w ∈ ws, Text.isName w = true)
    (hd : endsName d = true) :
    (⟨dottedTail ws ++ d :: rest, p, [], i, false⟩ : Scan).Emits ((tailTokens p ws).map (·.piece i))
      ⟨d :: rest, p.past (dottedTail ws), [], i, false⟩ := by
  induction ws generalizing p with
  | nil => exact .refl _
  | cons w ws ih =>
    have hw := hws w List.mem_cons_self
    have hdot : (⟨'.' :: (w ++ (dottedTail ws ++ d :: rest)), p, [], i, false⟩ : Scan).Emits
        [⟨.token (.mark .dot), p, p.past ['.'], i⟩] ⟨w ++ (dottedTail ws ++ d :: rest),
          p.past ['.'], [], i, false⟩ := by
      cases w with
      | nil => cases hw
      | cons c cs =>
        exact emits_of_step (step_dot (Bool.and_eq_true_iff.1 hw).1) (Nat.lt_succ_self _)
    rw [dottedTail, List.append_assoc]
    exact hdot.trans (emits_word_tail hw hd (ih fun v hv => hws v (List.mem_cons_of_mem _ hv)))

theorem emits_decorator {w : List Char} {ws : List (List Char)}
    (hws : ∀ v ∈ w :: ws, Text.isName v = true) (hd : endsName d = true) :
    (⟨'@' :: (w ++ (dottedTail ws ++ d :: rest)), p, [], i, h⟩ : Scan).Emits
      ((decoratorTokens p w ws).map (·.piece i)) ⟨d :: rest, p.past ('@' :: (w ++ dottedTail ws)),
        [], i, false⟩ := by
  have hw := hws w List.mem_cons_self
  have hsign : (⟨'@' :: (w ++ (dottedTail ws ++ d :: rest)), p, [], i, h⟩ : Scan).Emits
      [⟨.token (.mark .at), p, p.past ['@'], i⟩] ⟨w ++ (dottedTail ws ++ d :: rest), p.past ['@'],
        [], i, false⟩ := by
    cases w with
    | nil => cases hw
    | cons c cs => exact emits_of_step (step_at (Bool.and_eq_true_iff.1 hw).1) (Nat.lt_succ_self _)
  exact hsign.trans
    (emits_word_tail hw hd (emits_tail (fun v hv => hws v (List.mem_cons_of_mem _ hv)) hd))

end Scan

theorem layout_line {ts : List Token} (hts : ∀ t ∈ ts, t.before = []) (blocks : List Nat)
    (last : Option (TokenKind × Pos)) (i : Nat) (ps : List Piece) :
    layout ⟨blocks, last, []⟩ (ts.map (·.piece i) ++ ps) =
      (ts ++ (layout ⟨blocks, (ts.getLast?.map fun t => (t.kind, t.stop)).or last, []⟩ ps).1,
        (layout ⟨blocks, (ts.getLast?.map fun t => (t.kind, t.stop)).or last, []⟩ ps).2) := by
  induction ts generalizing last with
  | nil => rfl
  | cons t ts ih =>
    obtain ⟨kind, start, stop, before⟩ := t
    have hbefore : before = [] := hts _ List.mem_cons_self
    subst hbefore
    have hrest := ih (fun t ht => hts t (List.mem_cons_of_mem _ ht)) (some (kind, stop))
    have hlast : ((Token.mk kind start stop [] :: ts).getLast?.map fun t =>
        (t.kind, t.stop)).or last =
        (ts.getLast?.map fun t => (t.kind, t.stop)).or (some (kind, stop)) := by
      cases ts with
      | nil => rfl
      | cons u us =>
        rw [List.getLast?_cons_cons, List.getLast?_eq_some_getLast (List.cons_ne_nil u us)]
        rfl
    rw [hlast, List.map_cons, List.cons_append, layout, Token.piece]
    simp only [List.any_nil, Bool.false_eq_true, if_false, List.filterMap_nil, hrest,
      List.nil_append, List.cons_append]

/-- A line that is not indented closes the line before it, if that did not ask for a block. -/
theorem layout_newline {kind : TokenKind} {p a b : Pos} {t : Token} {i : Nat} {ps : List Piece}
    (hkind : kind ≠ .mark .colon) :
    layout ⟨[], some (kind, p), []⟩ (⟨.lineEnd, a, b, i⟩ :: t.piece 0 :: ps) =
      (⟨.newline, p, p, []⟩ :: (layout ⟨[], none, []⟩ (t.piece 0 :: ps)).1,
        (layout ⟨[], none, []⟩ (t.piece 0 :: ps)).2) := by
  simp [layout, Token.piece, LineState.breakLine, lastLine, Gap.isLineEnd, Gap.trivia?, hkind,
    layoutToken, stopOf, closeBlocks]

/-- A line that asks for no block, and a line behind it that is not indented. -/
theorem layout_lines {ts : List Token} (hts : ts ≠ []) (hbefore : ∀ t ∈ ts, t.before = [])
    (hkind : ∀ t ∈ ts, t.kind ≠ .mark .colon) (a b : Pos) (i : Nat) (t : Token) (ps : List Piece) :
    ∃ e, layout ⟨[], none, []⟩ (ts.map (·.piece 0) ++ ⟨.lineEnd, a, b, i⟩ :: t.piece 0 :: ps) =
      (ts ++ ⟨.newline, e, e, []⟩ :: (layout ⟨[], none, []⟩ (t.piece 0 :: ps)).1,
        (layout ⟨[], none, []⟩ (t.piece 0 :: ps)).2) := by
  have hlast := List.getLast?_eq_some_getLast hts
  refine ⟨(ts.getLast hts).stop, ?_⟩
  rw [layout_line hbefore, hlast, Option.map_some, Option.some_or,
    layout_newline (hkind _ (List.getLast_mem hts))]

end Python

end AsyncSpread
