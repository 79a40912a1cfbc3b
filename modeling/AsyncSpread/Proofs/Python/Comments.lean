import Mathlib.Data.List.Chain
import AsyncSpread.Proofs.Python.Lawful
import AsyncSpread.Proofs.Python.Pieces

/-!
Where comments end.

A comment takes the rest of its line (`fills_of_mem_piecesOf`).  So the piece behind it is the end
of that line, or it begins in a later row, inside a bracket (`isChain_piecesOf`).
-/

namespace AsyncSpread.Python

/-- A comment ends its line: the piece behind it is the end of the line, or begins in a later
row. -/
def Piece.Parts (x y : Piece) : Prop :=
  x.kind = .trivia .comment → y.kind = .lineEnd ∨ x.stop.row < y.start.row

namespace Scan

variable {source : List Char} {s s' : Scan} {ps : List Piece}

/-- A scan that stands in code, not in the text of a string. -/
def InCode (s : Scan) : Prop :=
  (∀ q outer, s.frames ≠ .text q :: outer) ∧ ∀ outer, s.frames ≠ .format :: outer

/-- A scan that stands in code, at the end of a line or of the text. -/
def AtEnd (s : Scan) : Prop := s.InCode ∧ ∀ c ∈ s.rest.head?, c = '\n'

/-- A comment that a scan cuts off, and the scan behind it. -/
structure Cuts (s : Scan) (x : Piece) (s' : Scan) : Prop where
  start : x.start = s.pos
  stop : x.stop = s'.pos
  inside : ∃ inside, s.rest = inside ++ s'.rest ∧ '\n' ∉ inside
  atEnd : s'.AtEnd

def NoComment (ps : List Piece) : Prop := ∀ x ∈ ps, x.kind ≠ .trivia .comment

theorem noComment_cut {kind : PieceKind} (n : Nat) (h : kind ≠ .trivia .comment) :
    NoComment [(s.cut kind n).1] := by
  intro x hx
  rw [List.mem_singleton.1 hx]
  exact h

theorem noComment_token (s : Scan) (k : TokenKind) (n : Nat) :
    NoComment (s.token k n).1 := noComment_cut n nofun

theorem NoComment.append {qs : List Piece} (h : NoComment ps) (h' : NoComment qs) :
    NoComment (ps ++ qs) :=
  fun x hx => (List.mem_append.1 hx).elim (h x) (h' x)

theorem noComment_tokenIf (s : Scan) (b : Bool) (k : TokenKind) (n : Nat) :
    NoComment (if b then ([], s) else s.token k n).1 := by
  cases b with
  | true => exact nofun
  | false => exact noComment_token s k n

theorem noComment_stringText (s : Scan) (q : Quote) (outer : List Frame) :
    NoComment (s.stringText q outer).1 := by
  unfold stringText
  generalize textRun q false 0 s.rest = run
  obtain ⟨text, stop, after⟩ := run
  have hfirst := noComment_tokenIf s text.isEmpty .stringText text.length
  dsimp only
  generalize (if text.isEmpty then ([], s) else s.token .stringText text.length) = first at hfirst
  cases stop with
  | closed | field | broken => exact hfirst.append (noComment_token _ _ _)

theorem noComment_formatText (s : Scan) (outer : List Frame) :
    NoComment (s.formatText outer).1 := by
  unfold formatText
  extract_lets text
  have hfirst := noComment_tokenIf s text.isEmpty .formatText text.length
  generalize (if text.isEmpty then ([], s) else s.token .formatText text.length) = first at hfirst
  dsimp only
  split
  · exact hfirst.append (noComment_token _ _ _)
  · exact hfirst
  · exact hfirst.append (noComment_token _ _ _)

theorem noComment_word (s : Scan) (cs : List Char) : NoComment (s.word cs).1 := by
  unfold word
  split
  · dsimp only
    split <;> exact noComment_token _ _ _
  · exact noComment_token _ _ _

theorem noComment_openString (s : Scan) (q : Quote) (n : Nat) : NoComment (s.openString q n).1 := by
  unfold openString
  dsimp only
  split <;> exact noComment_token _ _ _

/-- Code leaves no comment, or a comment behind which the line ends. -/
theorem comment_of_code {c : Char} {cs : List Char} (hr : s.rest = c :: cs) (hcode : s.InCode) :
    NoComment (s.code c cs).1 ∨ ∃ x, (s.code c cs).1 = [x] ∧ s.Cuts x (s.code c cs).2 := by
  unfold code
  split
  · exact .inl (noComment_cut 1 nofun)
  · split
    · exact .inl nofun
    · split
      · -- A comment goes on to the end of its line.
        have hcut : (c :: cs).takeWhile (· ≠ '\n') ++ (c :: cs).dropWhile (· ≠ '\n') = s.rest :=
          List.takeWhile_append_dropWhile.trans hr.symm
        have hrest : s.rest.drop ((c :: cs).takeWhile (· ≠ '\n')).length =
            (c :: cs).dropWhile (· ≠ '\n') := by
          rw [← hcut]
          exact List.drop_left
        refine .inr ⟨_, rfl, rfl, rfl, ⟨(c :: cs).takeWhile (· ≠ '\n'), ?_, fun hmem => ?_⟩, hcode,
          fun d hd => ?_⟩
        · rw [← hcut]
          exact congrArg _ hrest.symm
        · simpa using List.all_eq_true.1 List.all_takeWhile _ hmem
        have hd : d ∈ ((c :: cs).dropWhile (· ≠ '\n')).head? := by
          rw [← hrest]
          exact hd
        have hnot := List.head?_dropWhile_not (· ≠ '\n') (c :: cs)
        rw [Option.mem_def.1 hd] at hnot
        simpa using hnot
      · refine .inl ?_
        split
        · split
          · exact noComment_cut _ nofun
          · exact noComment_token _ _ _
        · split
          · exact noComment_openString _ _ _
          · split
            · exact noComment_word _ _
            · split
              · exact noComment_token _ _ _
              · split
                · exact noComment_token _ _ _
                · split <;> exact noComment_token _ _ _

theorem step_of_inCode (h : s.InCode) : s.step = match s.rest with
    | [] => none
    | c :: cs => some (s.code c cs) := by
  unfold Scan.step
  split
  · rename_i hframes
    exact absurd hframes (h.1 _ _)
  · rename_i hframes
    exact absurd hframes (h.2 _)
  · rename_i hrest _ _
    rw [hrest]
  · rename_i hrest _ _
    rw [hrest]

theorem comment_of_step {r : List Piece × Scan} (h : s.step = some r) :
    NoComment r.1 ∨ ∃ x, r.1 = [x] ∧ s.Cuts x r.2 := by
  unfold Scan.step at h
  split at h
  · cases h
    exact .inl (noComment_stringText _ _ _)
  · cases h
    exact .inl (noComment_formatText _ _)
  · rename_i hrest htext hformat
    cases h
    exact comment_of_code hrest ⟨htext, hformat⟩
  · cases h

/-- Where a line ends in code, the next piece is its end, or begins in a later row. -/
theorem On.head_pieces (h : s.On source) (hend : s.AtEnd) (n : Nat) :
    ∀ x ∈ (Scan.pieces n s).head?, x.kind = .lineEnd ∨ s.pos.row < x.start.row := by
  cases n with
  | zero => exact nofun
  | succ n =>
    rw [Scan.pieces, step_of_inCode hend.1]
    cases hr : s.rest with
    | nil => exact nofun
    | cons c cs =>
      have hc : c = '\n' := hend.2 c (by rw [hr]; rfl)
      subst hc
      dsimp only
      by_cases hframes : s.frames.isEmpty = true
      · have hcode : (s.code '\n' cs).1 = [(s.cut .lineEnd 1).1] := by
          rw [Scan.code, if_pos (by rw [hframes]; rfl)]
        rw [hcode]
        intro x hx
        cases hx
        exact .inl rfl
      · have hcode : s.code '\n' cs = ([], s.blank '\n') := by
          rw [Scan.code, if_neg (by simpa using hframes), if_pos (by decide)]
        rw [hcode, List.nil_append]
        intro x hx
        have hon := (h.blank '\n').on
        obtain ⟨q, hl⟩ := (hon.pieces n).1
        have hrow : (s.blank '\n').pos.row = s.pos.row + 1 := by
          show (s.pos.past (s.rest.take 1)).row = _
          rw [hr]
          rfl
        have hle := (hl.of_mem (List.mem_map_of_mem (List.mem_of_mem_head? hx))).1.row_le
        have hle : (s.blank '\n').pos.row ≤ x.start.row := hle
        exact .inr (by omega)

theorem On.isChain_pieces (h : s.On source) (n : Nat) : (Scan.pieces n s).IsChain Piece.Parts := by
  induction n generalizing s with
  | zero => exact .nil
  | succ n ih =>
    unfold Scan.pieces
    split
    · exact .nil
    · rename_i ps s' hs
      have hy := h.step hs
      rcases comment_of_step hs with hno | ⟨x, hps, hcut⟩
      · have hparts : ∀ x ∈ ps, ∀ y, Piece.Parts x y := fun x hx y hc => absurd hc (hno x hx)
        refine List.isChain_append.2 ⟨?_, ih hy.on,
          fun x hx y _ => hparts x (List.mem_of_mem_getLast? hx) y⟩
        exact (List.pairwise_iff_forall_sublist.2 fun hsub =>
          hparts _ (hsub.subset List.mem_cons_self) _).isChain
      · have hps : ps = [x] := hps
        subst hps
        refine List.isChain_append.2 ⟨.singleton _, ih hy.on, fun x' hx' y hy' _ => ?_⟩
        obtain rfl : x = x' := Option.some.inj hx'
        rw [hcut.stop]
        exact hy.on.head_pieces hcut.atEnd n y hy'

theorem Cuts.fills {x : Piece} (h : s.Cuts x s') (hs : s.On source) (hs' : s'.On source) :
    Fills source x.start x.stop := by
  obtain ⟨before, hsource, hpos⟩ := hs
  obtain ⟨before', hsource', hpos'⟩ := hs'
  obtain ⟨inside, hrest, hline⟩ := h.inside
  have hcut : source = before ++ inside ++ s'.rest := by rw [hsource, hrest, List.append_assoc]
  obtain rfl : before' = before ++ inside := List.append_cancel_right (hsource'.symm.trans hcut)
  exact ⟨before, inside, s'.rest, hcut, h.start.trans hpos, h.stop.trans hpos', hline, h.atEnd.2⟩

theorem On.fills_of_mem_pieces (h : s.On source) {n : Nat} {x : Piece} (hx : x ∈ Scan.pieces n s)
    (hk : x.kind = .trivia .comment) : Fills source x.start x.stop := by
  induction n generalizing s with
  | zero => cases hx
  | succ n ih =>
    unfold Scan.pieces at hx
    split at hx
    · cases hx
    · rename_i ps s' hs
      have hon := (h.step hs).on
      rcases List.mem_append.1 hx with hx | hx
      · rcases comment_of_step hs with hno | ⟨y, hps, hcut⟩
        · exact absurd hk (hno x hx)
        · have hps : ps = [y] := hps
          rw [hps, List.mem_singleton] at hx
          exact hx ▸ hcut.fills h hon
      · exact ih hon hx

end Scan

theorem isChain_piecesOf (source : List Char) : (piecesOf source).IsChain Piece.Parts :=
  (Scan.on_ofText source).isChain_pieces _

theorem fills_of_mem_piecesOf {source : List Char} {x : Piece} (h : x ∈ piecesOf source)
    (hk : x.kind = .trivia .comment) : Fills source x.start x.stop :=
  (Scan.on_ofText source).fills_of_mem_pieces h hk

end AsyncSpread.Python
