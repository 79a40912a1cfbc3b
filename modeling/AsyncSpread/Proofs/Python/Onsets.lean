import AsyncSpread.Proofs.Python.Kinds

/-!
What nodes begin with.

Outside the texts of strings a token begins with a character of its own, not with the end of a line
(`goesOn_of_mem_tokensOf`). Calls, functions and decorators begin with such tokens
(`goesOn_of_parse`).
-/

namespace AsyncSpread.Python

/-- A kind of token that stands in code, outside the texts of strings and formats. -/
def TokenKind.isCode : TokenKind → Bool
  | .mark _ | .keyword _ | .name | .integer | .float | .stringStart | .conversion => true
  | _ => false

theorem isLayout_of_isCode {k : TokenKind} (h : k.isCode = true) : k.isLayout = false := by
  cases k <;> first | rfl | cases h

/-- A token in code that is not in front of the end of a line. -/
def Piece.Onset (source : List Char) (x : Piece) : Prop :=
  ∀ k, x.kind = .token k → k.isCode = true → GoesOn source x.start

/-! ## Pieces -/

/-- The text of a string goes up to the brace of a field, if it stops there. -/
theorem exists_textRun_field (q : Quote) (solid : Bool) (skip : Nat) (cs : List Char) : ∃ tail,
    cs = (textRun q solid skip cs).1 ++ tail ∧
    ((textRun q solid skip cs).2.1 = .field → tail.head? = some '\x7b') := by
  induction cs generalizing solid skip with
  | nil => exact ⟨[], by cases skip <;> simp [textRun]⟩
  | cons c cs ih =>
    have more : ∀ solid skip, ∃ tail, c :: cs = (c :: (textRun q solid skip cs).1) ++ tail ∧
        ((textRun q solid skip cs).2.1 = .field → tail.head? = some '\x7b') := by
      intro solid skip
      obtain ⟨tail, h, ht⟩ := ih solid skip
      exact ⟨tail, by rw [List.cons_append, ← h], ht⟩
    have here {stop : TextStop} (h : stop = .field → c = '\x7b') : ∃ tail, c :: cs = [] ++ tail ∧
        (stop = .field → tail.head? = some '\x7b') := ⟨c :: cs, rfl, fun hs => congrArg some (h hs)⟩
    cases skip with
    | succ skip => exact more solid skip
    | zero =>
      simp only [textRun]
      repeat' split
      all_goals first
        | exact more _ _
        | exact here fun _ => beq_iff_eq.1 ‹(c == '\x7b') = true›
        | exact here fun hs => by cases hs

namespace Scan

variable {source : List Char} {s : Scan} {ps : List Piece}

/-- Pieces of which those in code are not in front of the end of a line. -/
def Onsets (source : List Char) (ps : List Piece) : Prop := ∀ x ∈ ps, x.Onset source

theorem Onsets.append {qs : List Piece} (h : Onsets source ps) (h' : Onsets source qs) :
    Onsets source (ps ++ qs) :=
  fun x hx => (List.mem_append.1 hx).elim (h x) (h' x)

theorem onsets_token_of_not_code (s : Scan) {k : TokenKind} (hk : k.isCode = false) (n : Nat) :
    Onsets source (s.token k n).1 := by
  intro x hx k' hk' hcode
  rw [List.mem_singleton.1 hx] at hk'
  cases hk'
  rw [hk] at hcode
  cases hcode

theorem onsets_tokenIf (source : List Char) (s : Scan) (b : Bool) {k : TokenKind}
    (hk : k.isCode = false) (n : Nat) : Onsets source (if b then ([], s) else s.token k n).1 := by
  cases b with
  | true => exact nofun
  | false => exact onsets_token_of_not_code s hk n

theorem On.goesOn (h : s.On source) (hc : ∀ c ∈ s.rest.head?, c ≠ '\n') : GoesOn source s.pos := by
  obtain ⟨before, hs, hp⟩ := h
  rw [GoesOn, hp, Pos.byte_past_start, hs, Text.dropBytes_byteLength_append]
  exact hc

/-- What begins where the scan stands is not in front of the end of a line, if the scan is not. -/
theorem On.onsets (h : s.On source) (hc : ∀ c ∈ s.rest.head?, c ≠ '\n')
    (hps : ∀ x ∈ ps, x.start = s.pos) : Onsets source ps := by
  intro x hx _ _ _
  rw [hps x hx]
  exact h.goesOn hc

/-! Code is cut off where the scan stands. -/

theorem start_cut (s : Scan) (kind : PieceKind) (n : Nat) :
    ∀ x ∈ [(s.cut kind n).1], x.start = s.pos :=
  fun _ hx => congrArg Piece.start (List.mem_singleton.1 hx)

theorem start_token (s : Scan) (k : TokenKind) (n : Nat) :
    ∀ x ∈ (s.token k n).1, x.start = s.pos := start_cut s (.token k) n

theorem start_word (s : Scan) (cs : List Char) : ∀ x ∈ (s.word cs).1, x.start = s.pos := by
  unfold word
  split
  · dsimp only
    split <;> exact start_token s _ _
  · exact start_token s _ _

theorem start_openString (s : Scan) (q : Quote) (n : Nat) :
    ∀ x ∈ (s.openString q n).1, x.start = s.pos := by
  unfold openString
  dsimp only
  split <;> exact start_token s _ _

theorem start_code (s : Scan) (c : Char) (cs : List Char) :
    ∀ x ∈ (s.code c cs).1, x.start = s.pos := by
  unfold code
  split
  · exact start_cut s _ _
  · split
    · exact nofun
    · split
      · exact start_cut s _ _
      · split
        · split
          · exact start_cut s _ _
          · exact start_token s _ _
        · split
          · exact start_openString s _ _
          · split
            · exact start_word s _
            · split
              · exact start_token s _ _
              · split
                · exact start_token s _ _
                · split <;> exact start_token s _ _

theorem On.onsets_code (h : s.On source) {c : Char} {cs : List Char} (hr : s.rest = c :: cs) :
    Onsets source (s.code c cs).1 := by
  by_cases hc : c = '\n'
  · subst hc
    unfold Scan.code
    split
    · intro x hx k hk
      rw [List.mem_singleton.1 hx] at hk
      cases hk
    · exact nofun
  · refine h.onsets (fun d hd => ?_) (start_code s c cs)
    rw [hr] at hd
    cases hd
    exact hc

theorem On.onsets_stringText (h : s.On source) (q : Quote) (outer : List Frame) :
    Onsets source (s.stringText q outer).1 := by
  obtain ⟨tail, hr, hfield⟩ := exists_textRun_field q false 0 s.rest
  unfold Scan.stringText
  generalize textRun q false 0 s.rest = run at hr hfield ⊢
  obtain ⟨text, stop, after⟩ := run
  obtain ⟨ps, s', hps, hy, hs'⟩ := h.textIfAny .stringText rfl nofun nofun hr
  have hfirst := onsets_tokenIf source s text.isEmpty (k := .stringText) rfl text.length
  simp only [hps] at hfirst ⊢
  cases stop with
  | closed => exact hfirst.append (onsets_token_of_not_code s' rfl _)
  | field =>
    refine hfirst.append (hy.on.onsets (fun c hc => ?_) (start_token s' _ _))
    rw [hs', hfield rfl] at hc
    cases hc
    decide
  | broken => exact hfirst.append (onsets_token_of_not_code s' rfl _)

theorem On.onsets_formatText (h : s.On source) (outer : List Frame) :
    Onsets source (s.formatText outer).1 := by
  have hr := List.takeWhile_append_dropWhile (p := fun c => c ≠ '\x7b' && c ≠ '\x7d' && c ≠ '\n')
    (l := s.rest)
  unfold Scan.formatText
  extract_lets text
  obtain ⟨ps, s', hps, hy, -⟩ := h.textIfAny .formatText rfl nofun nofun hr.symm
  have hfirst := onsets_tokenIf source s text.isEmpty (k := .formatText) rfl text.length
  simp only [text, hps] at hfirst ⊢
  split
  · rename_i hs'
    refine hfirst.append (hy.on.onsets (fun c hc => ?_) (start_token s' _ _))
    rw [hs'] at hc
    cases hc
    decide
  · exact hfirst
  · exact hfirst.append (onsets_token_of_not_code s' rfl _)

theorem On.onsets_step (h : s.On source) {r : List Piece × Scan} (hr : s.step = some r) :
    Onsets source r.1 := by
  unfold Scan.step at hr
  split at hr
  · cases hr
    exact h.onsets_stringText _ _
  · cases hr
    exact h.onsets_formatText _
  · rename_i hrest _ _
    cases hr
    exact h.onsets_code hrest
  · cases hr

theorem On.onsets_pieces (h : s.On source) (n : Nat) : Onsets source (Scan.pieces n s) := by
  induction n generalizing s with
  | zero => exact nofun
  | succ n ih =>
    unfold Scan.pieces
    split
    · exact nofun
    · rename_i hs
      exact (h.onsets_step hs).append (ih (h.step hs).on)

end Scan

theorem onset_of_mem_piecesOf {source : List Char} {x : Piece} (h : x ∈ piecesOf source) :
    x.Onset source :=
  (Scan.on_ofText source).onsets_pieces _ x h

theorem goesOn_of_mem_tokensOf {source : List Char} {t : Token} (h : t ∈ (tokensOf source).1)
    (hk : t.kind.isCode = true) : GoesOn source t.start := by
  rcases mem_layout h with hl | ⟨x, hx, hkind, hstart, -⟩
  · rw [isLayout_of_isCode hk] at hl
    cases hl
  · rw [← hstart]
    exact onset_of_mem_piecesOf hx _ hkind hk

/-! ## Rules -/

namespace Rule

variable {σ : Type}

/-- Whether the first thing that a rule reads, trivia aside, begins with a token in code.  If
`empty` the rule may also read nothing but trivia.  Of the rules behind names those in `named` are
known to begin so. -/
def fronts (named : σ → Bool) (empty : Bool) : Rule σ → Bool
  | .mark _ | .keyword _ | .word _ => true
  | .leaf t k => t.isCode && !k.isTrivia
  | .layout _ | .nothing | .unless _ | .before _ => empty
  | .andThen r s => fronts named false r || (fronts named true r && fronts named empty s)
  | .orElse r s => fronts named empty r && fronts named empty s
  | .many _ => false
  | .node k r => !k.isTrivia && fronts named false r
  | .grow base tails | .extend base tails =>
    fronts named false base && tails.all fun t => !t.1.isTrivia
  | .only _ r => fronts named empty r
  | .rule n => named n

end Rule

/-- The first node of a row, trivia aside, is not in front of the end of a line. -/
def Fronted (source : List Char) (ns : List Node) : Prop :=
  ∃ n rest, ns.dropWhile Node.isTrivia = n :: rest ∧ GoesOn source n.start

section

variable {σ : Type} {g : σ → Rule σ} {named : σ → Bool} {r : Rule σ} {c c' : Cursor}
  {ns ms : List Node} {source : List Char}

theorem Fronted.append (h : Fronted source ns) : Fronted source (ns ++ ms) := by
  obtain ⟨n, rest, hd, hn⟩ := h
  refine ⟨n, rest ++ ms, ?_, hn⟩
  rw [List.dropWhile_append, hd]
  rfl

theorem Fronted.made (h : Fronted source ns) (k : Kind) (p : Pos) :
    GoesOn source (Node.made k p ns).start := by
  obtain ⟨n, rest, hd, hn⟩ := h
  rw [Node.made, hd]
  exact hn

theorem Fronted.wrap (h : Fronted source ns) {k : Kind} (hk : k.isTrivia = false) (p : Pos) :
    Fronted source (Node.wrap k p ns) := by
  have hmade : (Node.made k p ns).isTrivia = false := hk
  refine ⟨Node.made k p ns, [], ?_, h.made k p⟩
  rw [Node.wrap_eq, List.dropWhile_append_of_pos fun n hn =>
    List.all_eq_true.1 List.all_takeWhile n hn, List.dropWhile_cons,
    hmade, if_neg Bool.false_ne_true]

theorem Rule.fronted_of_taken? {t : Token} {empty : Bool} (hr : r.fronts named empty = true)
    (h : r.taken? t = some ns) (ht : t.kind.isCode = true → GoesOn source t.start) :
    Fronted source ns ∨ empty = true ∧ ns.dropWhile Node.isTrivia = [] := by
  have leaf {k : Kind} (hcode : t.kind.isCode = true) (hk : k.isTrivia = false) :
      Fronted source (t.leaf k) :=
    ⟨_, [], dropWhile_leaf t hk, ht hcode⟩
  cases r with
  | mark | keyword =>
    simp only [taken?] at h
    split at h
    · rename_i hk
      cases h
      exact .inl (leaf (by rw [hk]; rfl) rfl)
    · cases h
  | leaf =>
    simp only [fronts, Bool.and_eq_true, Bool.not_eq_true'] at hr
    simp only [taken?] at h
    split at h
    · rename_i hk
      cases h
      exact .inl (leaf (by rw [hk]; exact hr.1) hr.2)
    · cases h
  | word =>
    simp only [taken?] at h
    split at h
    · rename_i hk
      cases h
      exact .inl (leaf (by rw [hk]; rfl) rfl)
    · rename_i hk
      split at h
      · cases h
      · cases h
        exact .inl (leaf (by rw [hk]; rfl) rfl)
    · cases h
  | layout =>
    simp only [taken?] at h
    split at h
    · cases h
      exact .inr ⟨hr, dropWhile_trivia _⟩
    · cases h
  | _ => cases h

theorem Reads.fronts (hg : ∀ n, named n = true → (g n).fronts named false = true)
    (h : Reads g r c ns c') {empty : Bool} (hr : r.fronts named empty = true)
    (ht : ∀ t ∈ c.ahead, t.kind.isCode = true → GoesOn source t.start) :
    Fronted source ns ∨ empty = true ∧ ns.dropWhile Node.isTrivia = [] := by
  have nonempty {ns : List Node} (h : Fronted source ns ∨ false = true ∧
      ns.dropWhile Node.isTrivia = []) : Fronted source ns :=
    h.resolve_right fun hno => Bool.false_ne_true hno.1
  have solid {k : Kind} {r : Rule σ} {tails : List (Kind × Rule σ)}
      (h : (tails.all fun t => !t.1.isTrivia) = true)
      (hk : (k, r) ∈ tails) : k.isTrivia = false := by
    simpa using List.all_eq_true.1 h _ hk
  induction h generalizing empty with
  | token h => exact Rule.fronted_of_taken? hr h (ht _ List.mem_cons_self)
  | nothing | «unless» _ | before _ => exact .inr ⟨hr, rfl⟩
  | andThen h _ ih ih' =>
    simp only [Rule.fronts, Bool.or_eq_true, Bool.and_eq_true] at hr
    rcases hr with hr | ⟨hr, hs⟩
    · exact .inl (nonempty (ih hr ht)).append
    · rcases ih hr ht with hfirst | ⟨-, hnil⟩
      · exact .inl hfirst.append
      · have hrest := ih' hs fun t hmem => ht t (h.suffix.subset hmem)
        rw [Fronted, List.dropWhile_append, hnil]
        exact hrest
  | first _ ih =>
    simp only [Rule.fronts, Bool.and_eq_true] at hr
    exact ih hr.1 ht
  | second _ ih =>
    simp only [Rule.fronts, Bool.and_eq_true] at hr
    exact ih hr.2 ht
  | done | more => cases hr
  | node _ ih =>
    simp only [Rule.fronts, Bool.and_eq_true, Bool.not_eq_true'] at hr
    exact .inl ((nonempty (ih hr.2 ht)).wrap hr.1 _)
  | growBase _ ih | extendBase _ ih =>
    simp only [Rule.fronts, Bool.and_eq_true] at hr
    exact .inl (nonempty (ih hr.1 ht))
  | growTail hk _ _ ih _ =>
    have hbase := nonempty (@ih false hr ht)
    simp only [Rule.fronts, Bool.and_eq_true] at hr
    exact .inl (hbase.append.wrap (solid hr.2 hk) _)
  | extendTail hk _ _ ih _ =>
    simp only [Rule.fronts, Bool.and_eq_true] at hr
    exact .inl ((nonempty (ih hr.1 ht)).append.wrap (solid hr.2 hk) _)
  | only _ _ ih => exact ih hr ht
  | rule _ ih => exact .inl (nonempty (ih (hg _ hr) ht))

end

/-! ## Nodes -/

namespace Grammar

def isFront (k : Kind) : Bool := k = .call || k = .functionDefinition || k = .decorator

def frontNames (n : Phrase) : Bool := n = .string

theorem fronts_of_frontNames (n : Phrase) (h : frontNames n = true) :
    (rules n).fronts frontNames false = true := by
  cases n <;> first | decide | cases h

/-- Whether a rule makes calls, functions and decorators only of what begins with a token in
code. -/
def isFronted : R → Bool
  | .leaf _ k => !isFront k
  | .node k r => !isFront k || r.fronts frontNames false
  | .grow base tails =>
    (tails.all fun t => !isFront t.1) || (Rule.grow base tails).fronts frontNames false
  | .extend _ tails => tails.all fun t => !isFront t.1
  | _ => true

theorem each_isFronted (n : Phrase) : (rules n).each isFronted = true := by
  cases n <;> decide

end Grammar

open Grammar

/-- A call, function or decorator is not in front of the end of a line. -/
def Node.Onset (source : List Char) (n : Node) : Prop :=
  isFront n.kind = true → GoesOn source n.start

theorem makes_onset (source : List Char) :
    Makes rules isFronted (fun t => t.kind.isCode = true → GoesOn source t.start)
      (Node.Onset source) where
  trivia t := by
    obtain ⟨kind, start, stop⟩ := t
    cases kind <;> exact nofun
  leaf {r t k} hr ht hk h hfront := by
    have hfront : isFront k = true := hfront
    cases r with
    | mark | keyword | word =>
      cases List.mem_singleton.1 hk
      cases hfront
    | leaf =>
      cases List.mem_singleton.1 hk
      rw [isFronted, hfront] at hr
      cases hr
    | _ => cases hk
  node {k r c c' ns} hr ht h hfront := by
    have hfront : isFront k = true := hfront
    rw [isFronted, hfront] at hr
    exact ((h.fronts fronts_of_frontNames hr ht).resolve_right nofun).made k _
  grow {base r tails k c c' c'' ns ms} hr ht hk h h' hfront := by
    have hfront : isFront k = true := hfront
    rw [isFronted, Bool.or_eq_true] at hr
    rcases hr with hr | hr
    · have hno := List.all_eq_true.1 hr _ hk
      rw [hfront] at hno
      cases hno
    · exact ((h.fronts fronts_of_frontNames hr ht).resolve_right nofun).append.made k _
  extend {base r tails k c c' c'' ns ms} hr _ hk _ _ hfront := by
    have hfront : isFront k = true := hfront
    have hno := List.all_eq_true.1 hr _ hk
    rw [hfront] at hno
    cases hno

/-- A call, function or decorator of a tree is not in front of the end of a line. -/
theorem goesOn_of_parse {source : List Char} {root x : Node} (h : Grammar.parse source = .ok root)
    (hx : x ∈ root.all) (hk : isFront x.kind = true) : GoesOn source x.start :=
  forall_of_parse (makes_onset source) each_isFronted (by decide)
    (fun _ ht => goesOn_of_mem_tokensOf ht) (fun _ _ => nofun) h hx hk

end AsyncSpread.Python
