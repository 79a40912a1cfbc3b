import AsyncSpread.Proofs.Python.Spans
import AsyncSpread.Python.Repair

/-!
What the pieces of a text are.

Each step of the scan cuts off what stands ahead of it, so that the pieces lie in a row
(`laid_piecesOf`).  A token has text unless it is strange, and the text of a keyword is the keyword
(`fits_of_mem_piecesOf`).
-/

namespace AsyncSpread.Python

def Piece.span (p : Piece) : Pos × Pos := (p.start, p.stop)

structure Piece.Fits (source : List Char) (p : Piece) : Prop where
  filled : ∀ k, p.kind = .token k → k ≠ .strange → p.start.byte < p.stop.byte
  keyword : ∀ k, p.kind = .token (.keyword k) → Text.slice p.start.byte p.stop.byte source = k.chars
  solid : ∀ k, p.kind = .token k → k.isLayout = false
  lineEnd : p.kind = .lineEnd → p.start.row < p.stop.row
  /-- A brace that opens a field is cut off a string. -/
  mark : ∀ m, p.kind = .token (.mark m) → m ≠ .openBrace →
    Text.slice p.start.byte p.stop.byte source = m.chars

/-! ## Runs of characters -/

/-- What is left of a string text behind the part that is read.  If the text is not broken,
something is left. -/
theorem exists_textRun (q : Quote) (solid : Bool) (skip : Nat) (cs : List Char) :
    ∃ tail, cs = (textRun q solid skip cs).1 ++ tail ∧
      ((textRun q solid skip cs).2.1 ≠ .broken → tail ≠ []) := by
  induction cs generalizing solid skip with
  | nil => exact ⟨[], by cases skip <;> simp [textRun]⟩
  | cons c cs ih =>
    have more : ∀ solid skip, ∃ tail, c :: cs = (c :: (textRun q solid skip cs).1) ++ tail ∧
        ((textRun q solid skip cs).2.1 ≠ .broken → tail ≠ []) := by
      intro solid skip
      obtain ⟨tail, h, ht⟩ := ih solid skip
      exact ⟨tail, by rw [List.cons_append, ← h], ht⟩
    have here : ∃ tail, c :: cs = [] ++ tail ∧ ∀ stop : TextStop, stop ≠ .broken → tail ≠ [] :=
      ⟨c :: cs, rfl, fun _ _ => List.cons_ne_nil _ _⟩
    obtain ⟨tail, hn, ht⟩ := here
    cases skip with
    | succ skip => exact more solid skip
    | zero =>
      simp only [textRun]
      repeat' split
      all_goals first
        | exact more _ _
        | exact ⟨tail, hn, ht _⟩

theorem decimalRun_ne_zero {c : Char} {cs : List Char} (b : Bool) (h : c.isDigit = true) :
    decimalRun b (c :: cs) ≠ 0 := by
  unfold decimalRun
  rw [if_pos h]
  omega

/-- Where a digit stands, or a dot and a digit, there is a number. -/
theorem numberRun_ne_zero {c : Char} (cs : List Char) (h : c.isDigit = true ∨ c = '.') :
    (numberRun (c :: cs)).1 ≠ 0 := by
  have hw : decimalRun false (c :: cs) ≠ 0 ∨ ∃ rest, (c :: cs).drop (decimalRun false (c :: cs)) =
      '.' :: rest := by
    rcases h with h | rfl
    · exact .inl (decimalRun_ne_zero false h)
    · exact .inr ⟨cs, rfl⟩
  unfold numberRun
  extract_lets based whole
  by_cases hb : based ≠ 0
  · rw [if_pos hb]
    exact hb
  · rw [if_neg hb]
    split
    · simp only
      omega
    · rename_i hd
      have hw : whole ≠ 0 := by
        rcases hw with hw | ⟨rest, hw⟩
        · exact hw
        · exact absurd hw (hd rest)
      split
      · simp only
        omega
      · simp only
        omega

theorem numberRun_kind (cs : List Char) :
    (numberRun cs).2.isLayout = false ∧ (∀ k : Keyword, (numberRun cs).2 ≠ .keyword k) ∧
      ∀ m : Mark, (numberRun cs).2 ≠ .mark m := by
  unfold numberRun
  extract_lets based whole
  by_cases hb : based ≠ 0
  · rw [if_pos hb]
    exact ⟨rfl, nofun, nofun⟩
  · rw [if_neg hb]
    split
    · exact ⟨rfl, nofun, nofun⟩
    · split <;> exact ⟨rfl, nofun, nofun⟩

theorem openQuote?_ne_zero {cs : List Char} {q : Quote} {n : Nat}
    (h : openQuote? cs = some (q, n)) : n ≠ 0 := by
  unfold openQuote? at h
  extract_lets letters has at h
  split at h
  · split at h
    · simp only [Option.some.injEq, Prod.mk.injEq] at h
      have hn := h.2
      split at hn <;> omega
    · cases h
  · cases h

theorem Mark.length_chars_ne_zero (m : Mark) : m.chars.length ≠ 0 := by
  cases m <;> decide

theorem Mark.prefix_of_ofText? {cs : List Char} {m : Mark} (h : ofText? cs = some m) :
    m.chars <+: cs := by
  have hp := List.find?_some h
  exact List.isPrefixOf_iff_prefix.1 hp

theorem Keyword.chars_of_ofWord? {cs : List Char} {k : Keyword} (h : ofWord? cs = some k) :
    k.chars = cs := by
  have := List.find?_some h
  exact beq_iff_eq.1 this

/-! ## Steps of the scan -/

namespace Scan

variable {source : List Char} {s : Scan}

/-- A scan stands in a text where it says. -/
def On (source : List Char) (s : Scan) : Prop :=
  ∃ before, source = before ++ s.rest ∧ s.pos = Pos.start.past before

theorem on_ofText (source : List Char) : (ofText source).On source := ⟨[], rfl, rfl⟩

theorem On.skip (h : s.On source) (n : Nat) :
    (s.skip n).On source ∧ Span source s.pos (s.skip n).pos := by
  obtain ⟨before, hs, hp⟩ := h
  have hpos : (s.skip n).pos = Pos.start.past (before ++ s.rest.take n) := by
    rw [Pos.past_append, ← hp]
    rfl
  have hsource : source = before ++ s.rest.take n ++ s.rest.drop n := by
    rw [List.append_assoc, List.take_append_drop, hs]
  exact ⟨⟨before ++ s.rest.take n, hsource, hpos⟩, before, s.rest.take n, s.rest.drop n,
    hsource, hp, hpos⟩

theorem On.slice_skip (h : s.On source) (n : Nat) :
    Text.slice s.pos.byte (s.skip n).pos.byte source = s.rest.take n := by
  obtain ⟨before, hs, hp⟩ := h
  have hpos : (s.skip n).pos = Pos.start.past (before ++ s.rest.take n) := by
    rw [Pos.past_append, ← hp]
    rfl
  rw [hpos, hp]
  exact @Span.slice_eq source before (s.rest.take n) (s.rest.drop n)
    (by rw [List.append_assoc, List.take_append_drop, hs])

theorem byte_lt_skip (n : Nat) (h : s.rest.take n ≠ []) : s.pos.byte < (s.skip n).pos.byte := by
  have hpos : (s.skip n).pos = s.pos.past (s.rest.take n) := rfl
  rw [hpos, Pos.byte_past]
  cases ht : s.rest.take n with
  | nil => exact absurd ht h
  | cons c cs =>
    have := Char.utf8Size_pos c
    rw [Text.byteLength_cons]
    omega

/-- What a scan gives before it goes on: pieces in a row, and where it stands behind them. -/
structure Yields (source : List Char) (s : Scan) (r : List Piece × Scan) : Prop where
  laid : Laid source s.pos (r.1.map Piece.span) r.2.pos
  on : r.2.On source
  fits : ∀ p ∈ r.1, p.Fits source

variable {ps qs : List Piece} {s' s'' : Scan}

theorem On.nothing (h : s.On source) (n : Nat) : Yields source s ([], s.skip n) :=
  ⟨(h.skip n).2, (h.skip n).1, fun _ hp => absurd hp List.not_mem_nil⟩

theorem Yields.congr (h : Yields source s (ps, s')) (hr : s''.rest = s'.rest)
    (hp : s''.pos = s'.pos) : Yields source s (ps, s'') := by
  refine ⟨?_, ?_, h.fits⟩
  · have hl := h.laid
    rwa [← show s''.pos = s'.pos from hp] at hl
  · obtain ⟨before, hs, hb⟩ := h.on
    exact ⟨before, by rw [hs, hr], by rw [hp, hb]⟩

theorem Yields.append (h : Yields source s (ps, s')) (h' : Yields source s' (qs, s'')) :
    Yields source s (ps ++ qs, s'') where
  laid := by
    rw [List.map_append]
    exact h.laid.append h'.laid
  on := h'.on
  fits p hp := by
    rcases List.mem_append.1 hp with hp | hp
    · exact h.fits p hp
    · exact h'.fits p hp

theorem On.cut (h : s.On source) {kind : PieceKind} {n : Nat} (hf : (s.cut kind n).1.Fits source) :
    Yields source s ([(s.cut kind n).1], s.skip n) where
  laid := ⟨.refl (h.skip n).2.left_in, (h.skip n).2, .refl (h.skip n).2.right_in⟩
  on := (h.skip n).1
  fits p hp := by
    rw [List.mem_singleton] at hp
    subst hp
    exact hf

theorem On.trivia (h : s.On source) (kind : TriviaKind) (n : Nat) :
    Yields source s ([(s.cut (.trivia kind) n).1], s.skip n) :=
  h.cut ⟨nofun, nofun, nofun, nofun, nofun⟩

theorem On.token (h : s.On source) (kind : TokenKind) (n : Nat) (hl : kind.isLayout = false)
    (hn : kind ≠ .strange → s.rest.take n ≠ [])
    (hk : ∀ k, kind = .keyword k → s.rest.take n = k.chars)
    (hm : ∀ m, kind = .mark m → m ≠ .openBrace → s.rest.take n = m.chars) :
    Yields source s (s.token kind n) := by
  have hf : (s.cut (.token kind) n).1.Fits source := by
    refine ⟨?_, ?_, ?_, nofun, ?_⟩
    · intro k hkind hs
      cases hkind
      exact byte_lt_skip n (hn hs)
    · intro k hkind
      cases hkind
      rw [← hk k rfl]
      exact h.slice_skip n
    · intro k hkind
      cases hkind
      exact hl
    · intro m hkind hne
      cases hkind
      rw [← hm m rfl hne]
      exact h.slice_skip n
  exact (h.cut hf).congr rfl rfl

theorem On.strange (h : s.On source) (n : Nat) : Yields source s (s.token .strange n) :=
  h.token .strange n rfl (fun hs => absurd rfl hs) nofun nofun

theorem take_ne_nil {c : Char} {cs : List Char} {n : Nat} (hr : s.rest = c :: cs) (hn : n ≠ 0) :
    s.rest.take n ≠ [] := by
  obtain ⟨n, rfl⟩ := Nat.exists_eq_succ_of_ne_zero hn
  rw [hr, List.take_succ_cons]
  exact List.cons_ne_nil _ _

theorem On.blank (h : s.On source) (c : Char) : Yields source s ([], s.blank c) := by
  have hn := h.nothing 1
  unfold Scan.blank
  repeat' split
  all_goals exact hn.congr rfl rfl

theorem On.openString (h : s.On source) {c : Char} {cs : List Char} (hr : s.rest = c :: cs)
    (q : Quote) {n : Nat} (hn : n ≠ 0) : Yields source s (s.openString q n) := by
  have ht := h.token .stringStart n rfl (fun _ => take_ne_nil hr hn) nofun nofun
  unfold Scan.openString
  simp only
  split
  · exact h.strange n
  · exact ht.congr rfl rfl

theorem On.word (h : s.On source) {c : Char} {cs : List Char} (rest : List Char)
    (hr : s.rest = c :: cs ++ rest) : Yields source s (s.word (c :: cs)) := by
  have htake : s.rest.take (c :: cs).length = c :: cs := by
    rw [hr, List.take_left]
  have hne : s.rest.take (c :: cs).length ≠ [] := by
    rw [htake]
    exact List.cons_ne_nil _ _
  unfold Scan.word
  split
  · rename_i k hk
    have ht : Yields source s (s.token (.keyword k) (c :: cs).length) := by
      refine h.token _ _ rfl (fun _ => hne) (fun k' hk' => ?_) nofun
      cases hk'
      rw [htake, Keyword.chars_of_ofWord? hk]
    simp only
    split
    · exact ht.congr rfl rfl
    · exact ht
  · exact h.token .name _ rfl (fun _ => hne) nofun nofun

theorem On.code (h : s.On source) {c : Char} {cs : List Char} (hr : s.rest = c :: cs) :
    Yields source s (s.code c cs) := by
  have ht {n : Nat} (hn : n ≠ 0) : s.rest.take n ≠ [] := take_ne_nil hr hn
  unfold Scan.code
  split
  · -- The line end is cut off and then read over as white space.
    rename_i hc
    have hc : c = '\n' := by
      rw [Bool.and_eq_true, beq_iff_eq] at hc
      exact hc.1
    have hrow : (s.skip 1).pos.row = s.pos.row + 1 := by
      have hpos : (s.skip 1).pos = s.pos.past (s.rest.take 1) := rfl
      rw [hpos, hr, hc]
      rfl
    have hcut : Yields source s ([(s.cut .lineEnd 1).1], s.skip 1) := by
      refine h.cut ⟨nofun, nofun, nofun, fun _ => ?_, nofun⟩
      show s.pos.row < (s.skip 1).pos.row
      omega
    rw [hc]
    exact hcut.congr rfl rfl
  · split
    · exact h.blank c
    · split
      · exact (h.trivia _ _).congr rfl rfl
      · split
        · split
          · exact h.trivia _ _
          · exact h.strange 1
        · split
          · rename_i q n hq
            exact h.openString hr q (openQuote?_ne_zero hq)
          · split
            · refine h.word (cs.dropWhile Text.continuesName) ?_
              rw [hr, List.cons_append, List.takeWhile_append_dropWhile]
            · split
              · rename_i hd
                have hd : c.isDigit = true ∨ c = '.' := by
                  rw [Bool.or_eq_true, Bool.and_eq_true, beq_iff_eq] at hd
                  exact hd.imp_right And.left
                have hn := numberRun_ne_zero cs hd
                have hk := numberRun_kind (c :: cs)
                generalize numberRun (c :: cs) = r at hn hk
                exact h.token r.2 r.1 hk.1 (fun _ => ht hn) (fun k hr => absurd hr (hk.2.1 k))
                  fun m hr => absurd hr (hk.2.2 m)
              · split
                · exact h.token .conversion 2 rfl (fun _ => ht (by decide)) nofun nofun
                · split
                  · rename_i m hm
                    refine (h.token (.mark m) _ rfl
                      (fun _ => ht m.length_chars_ne_zero) nofun fun m' hm' _ => ?_).congr
                      rfl rfl
                    cases hm'
                    obtain ⟨rest, hrest⟩ := Mark.prefix_of_ofText? hm
                    rw [hr, ← hrest, List.take_left]
                  · exact h.strange 1

/-- A token of the text that stands ahead, or nothing if that is empty. -/
theorem On.textIfAny (h : s.On source) (kind : TokenKind) (hl : kind.isLayout = false)
    (hk : ∀ k, kind ≠ .keyword k) (hm : ∀ m, kind ≠ .mark m) {text tail : List Char}
    (hr : s.rest = text ++ tail) :
    ∃ ps s', (if text.isEmpty then ([], s) else s.token kind text.length) = (ps, s') ∧
      Yields source s (ps, s') ∧ s'.rest = tail := by
  by_cases he : text.isEmpty
  · refine ⟨[], s, if_pos he, h.nothing 0, ?_⟩
    rw [List.isEmpty_iff] at he
    rw [hr, he, List.nil_append]
  · refine ⟨_, _, if_neg he, h.token kind _ hl (fun _ => ?_) (fun k hkind => absurd hkind (hk k))
      (fun m hkind => absurd hkind (hm m)), ?_⟩
    · rw [hr, List.take_left]
      rwa [List.isEmpty_iff] at he
    · show s.rest.drop text.length = tail
      rw [hr, List.drop_left]

theorem On.stringText (h : s.On source) (q : Quote) (outer : List Frame) :
    Yields source s (s.stringText q outer) := by
  obtain ⟨tail, hr, htail⟩ := exists_textRun q false 0 s.rest
  unfold Scan.stringText
  generalize textRun q false 0 s.rest = run at hr htail ⊢
  obtain ⟨text, stop, after⟩ := run
  obtain ⟨ps, s', hps, hy, hs'⟩ := h.textIfAny .stringText rfl nofun nofun hr
  have htake {n : Nat} (hstop : stop ≠ .broken) (hn : n ≠ 0) : s'.rest.take n ≠ [] := by
    obtain ⟨c, cs, hcs⟩ := List.exists_cons_of_ne_nil (htail hstop)
    exact take_ne_nil (hs'.trans hcs) hn
  simp only [hps]
  cases stop with
  | closed =>
    have ht := hy.on.token .stringEnd (if q.triple then 3 else 1) rfl
      (fun _ => htake nofun (by split <;> decide)) nofun nofun
    exact (hy.append ht).congr rfl rfl
  | field =>
    have ht := hy.on.token (.mark .openBrace) 1 rfl (fun _ => htake nofun (by decide)) nofun
      fun m hm hne => absurd (TokenKind.mark.inj hm).symm hne
    exact (hy.append ht).congr rfl rfl
  | broken => exact (hy.append (hy.on.strange 0)).congr rfl rfl

theorem On.formatText (h : s.On source) (outer : List Frame) :
    Yields source s (s.formatText outer) := by
  have hr := List.takeWhile_append_dropWhile (p := fun c => c ≠ '\x7b' && c ≠ '\x7d' && c ≠ '\n')
    (l := s.rest)
  unfold Scan.formatText
  obtain ⟨ps, s', hps, hy, -⟩ := h.textIfAny .formatText rfl nofun nofun hr.symm
  simp only [hps]
  split
  · rename_i hs'
    have ht := hy.on.token (.mark .openBrace) 1 rfl (fun _ => take_ne_nil hs' (by decide)) nofun
      fun m hm hne => absurd (TokenKind.mark.inj hm).symm hne
    exact (hy.append ht).congr rfl rfl
  · exact hy.congr rfl rfl
  · exact (hy.append (hy.on.strange 0)).congr rfl rfl

theorem On.step (h : s.On source) {r : List Piece × Scan} (hr : s.step = some r) :
    Yields source s r := by
  unfold Scan.step at hr
  split at hr
  · cases hr
    exact h.stringText _ _
  · cases hr
    exact h.formatText _
  · rename_i hs _ _
    cases hr
    exact h.code hs
  · cases hr

theorem On.pieces (h : s.On source) (n : Nat) :
    (∃ q, Laid source s.pos ((pieces n s).map Piece.span) q) ∧ ∀ p ∈ pieces n s, p.Fits source := by
  induction n generalizing s with
  | zero => exact ⟨⟨s.pos, (h.nothing 0).laid⟩, fun _ hp => absurd hp List.not_mem_nil⟩
  | succ n ih =>
    unfold Scan.pieces
    split
    · exact ⟨⟨s.pos, (h.nothing 0).laid⟩, fun _ hp => absurd hp List.not_mem_nil⟩
    · rename_i ps s' hs
      have hy := h.step hs
      obtain ⟨⟨q, hq⟩, hf⟩ := ih hy.on
      refine ⟨⟨q, ?_⟩, fun p hp => ?_⟩
      · rw [List.map_append]
        exact hy.laid.append hq
      · rcases List.mem_append.1 hp with hp | hp
        · exact hy.fits p hp
        · exact hf p hp

end Scan

theorem laid_piecesOf (source : List Char) :
    ∃ q, Laid source .start ((piecesOf source).map Piece.span) q :=
  ((Scan.on_ofText source).pieces _).1

theorem fits_of_mem_piecesOf {source : List Char} {p : Piece} (h : p ∈ piecesOf source) :
    p.Fits source :=
  ((Scan.on_ofText source).pieces _).2 p h

end AsyncSpread.Python
