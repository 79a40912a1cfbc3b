import AsyncSpread.Proofs.Python.Kinds

/-!
What names are made of.

A name is cut off as a run of characters that may stand in names, and so is a keyword that is taken
for one.  No other ASCII character is in an identifier (`isWord_of_parse`).
-/

namespace AsyncSpread

/-- A character that may stand in a name may stand in a word. -/
theorem Text.isWord_of_forall {cs : List Char}
    (h : ∀ c ∈ cs, (beginsName c || continuesName c) = true) : isWord cs = true := by
  refine List.all_eq_true.2 fun c hc => ?_
  have hname := h c hc
  simp only [beginsName, continuesName, Char.isAlphanum, Bool.or_eq_true, Bool.and_eq_true]
    at hname ⊢
  grind

namespace Python

variable {source : List Char} {p : Piece}

theorem numberRun_ne_name (cs : List Char) : (numberRun cs).2 ≠ .name := by
  unfold numberRun
  extract_lets based whole
  by_cases hb : based ≠ 0
  · rw [if_pos hb]
    exact nofun
  · rw [if_neg hb]
    split
    · exact nofun
    · split <;> exact nofun

namespace Scan

variable {s : Scan} {c : Char} {cs : List Char}

theorem of_mem_token {k : TokenKind} {n : Nat} (h : p ∈ (s.token k n).1) :
    p.kind = .token k ∧ p.start = s.pos ∧ p.stop = (s.skip n).pos := by
  rw [List.mem_singleton.1 h]
  exact ⟨rfl, rfl, rfl⟩

theorem kind_ne_name {k : TokenKind} {n : Nat} (h : p ∈ (s.token k n).1) (hk : k ≠ .name) :
    p.kind ≠ .token .name := by
  rw [(of_mem_token h).1]
  intro heq
  exact hk (PieceKind.token.inj heq)

theorem kind_ne_name_of_mem_openString {q : Quote} {n : Nat} (h : p ∈ (s.openString q n).1) :
    p.kind ≠ .token .name := by
  unfold openString at h
  simp only at h
  split at h
  · exact kind_ne_name h nofun
  · exact kind_ne_name h nofun

theorem of_mem_word (h : p ∈ (s.word cs).1) (hk : p.kind = .token .name) :
    p.start = s.pos ∧ p.stop = (s.skip cs.length).pos := by
  unfold word at h
  split at h
  · simp only at h
    split at h
    · exact absurd hk (kind_ne_name h nofun)
    · exact absurd hk (kind_ne_name h nofun)
  · exact (of_mem_token h).2

theorem of_mem_code (h : p ∈ (s.code c cs).1) (hk : p.kind = .token .name) :
    Text.beginsName c = true ∧ p ∈ (s.word (c :: cs.takeWhile Text.continuesName)).1 := by
  unfold code at h
  split at h
  · rw [List.mem_singleton.1 h] at hk
    cases hk
  · split at h
    · cases h
    · split at h
      · rw [List.mem_singleton.1 h] at hk
        cases hk
      · split at h
        · split at h
          · rw [List.mem_singleton.1 h] at hk
            cases hk
          · exact absurd hk (kind_ne_name h nofun)
        · split at h
          · exact absurd hk (kind_ne_name_of_mem_openString h)
          · split at h
            · rename_i hbegins
              exact ⟨hbegins, h⟩
            · split at h
              · exact absurd hk (kind_ne_name h (numberRun_ne_name _))
              · split at h
                · exact absurd hk (kind_ne_name h nofun)
                · split at h
                  · exact absurd hk (kind_ne_name h nofun)
                  · exact absurd hk (kind_ne_name h nofun)

theorem kind_ne_name_of_mem_ite {k : TokenKind} {n : Nat} {b : Bool}
    (h : p ∈ (if b then ([], s) else s.token k n).1) (hk : k ≠ .name) : p.kind ≠ .token .name := by
  cases b with
  | true => cases h
  | false => exact kind_ne_name h hk

theorem kind_ne_name_of_mem_stringText {q : Quote} {outer : List Frame}
    (h : p ∈ (s.stringText q outer).1) : p.kind ≠ .token .name := by
  unfold stringText at h
  simp only at h
  split at h
  all_goals
    rcases List.mem_append.1 h with h | h
    · exact kind_ne_name_of_mem_ite h nofun
    · exact kind_ne_name h nofun

theorem kind_ne_name_of_mem_formatText {outer : List Frame} (h : p ∈ (s.formatText outer).1) :
    p.kind ≠ .token .name := by
  unfold formatText at h
  simp only at h
  split at h
  · rcases List.mem_append.1 h with h | h
    · exact kind_ne_name_of_mem_ite h nofun
    · exact kind_ne_name h nofun
  · exact kind_ne_name_of_mem_ite h nofun
  · rcases List.mem_append.1 h with h | h
    · exact kind_ne_name_of_mem_ite h nofun
    · exact kind_ne_name h nofun

theorem isWord_of_mem_code (hon : s.On source) (hr : s.rest = c :: cs) (h : p ∈ (s.code c cs).1)
    (hk : p.kind = .token .name) :
    Text.isWord (Text.slice p.start.byte p.stop.byte source) = true := by
  obtain ⟨hbegins, hword⟩ := of_mem_code h hk
  obtain ⟨hstart, hstop⟩ := of_mem_word hword hk
  have hrest : s.rest = c :: cs.takeWhile Text.continuesName ++
      cs.dropWhile Text.continuesName := by
    rw [hr, List.cons_append, List.takeWhile_append_dropWhile]
  rw [hstart, hstop, hon.slice_skip, hrest, List.take_left]
  refine Text.isWord_of_forall fun x hx => ?_
  rcases List.mem_cons.1 hx with rfl | hx
  · rw [hbegins, Bool.true_or]
  · rw [List.all_eq_true.1 List.all_takeWhile x hx, Bool.or_true]

theorem isWord_of_mem_step (hon : s.On source) {r : List Piece × Scan} (hr : s.step = some r)
    (h : p ∈ r.1) (hk : p.kind = .token .name) :
    Text.isWord (Text.slice p.start.byte p.stop.byte source) = true := by
  unfold step at hr
  split at hr
  · cases hr
    exact absurd hk (kind_ne_name_of_mem_stringText h)
  · cases hr
    exact absurd hk (kind_ne_name_of_mem_formatText h)
  · rename_i hrest _ _
    cases hr
    exact isWord_of_mem_code hon hrest h hk
  · cases hr

theorem isWord_of_mem_pieces (hon : s.On source) {n : Nat} (h : p ∈ pieces n s)
    (hk : p.kind = .token .name) :
    Text.isWord (Text.slice p.start.byte p.stop.byte source) = true := by
  induction n generalizing s with
  | zero => cases h
  | succ n ih =>
    unfold pieces at h
    split at h
    · cases h
    · rename_i ps s' hs
      rcases List.mem_append.1 h with h | h
      · exact isWord_of_mem_step hon hs h hk
      · exact ih (hon.step hs).on h

end Scan

/-! ## Words of a tree -/

def Token.Worded (source : List Char) (t : Token) : Prop :=
  t.kind = .name ∨ (∃ k, t.kind = .keyword k) →
    Text.isWord (Text.slice t.start.byte t.stop.byte source) = true

theorem worded_of_mem_tokensOf {t : Token} (h : t ∈ (tokensOf source).1) : t.Worded source := by
  intro hk
  rcases hk with hk | ⟨k, hk⟩
  · rcases mem_layout h with hl | ⟨x, hx, hkind, hstart, hstop⟩
    · rw [hk] at hl
      cases hl
    · rw [← hstart, ← hstop]
      exact Scan.isWord_of_mem_pieces (Scan.on_ofText source) hx (by rw [hkind, hk])
  · rw [(of_mem_tokensOf h).2 k hk]
    exact k.isWord_chars

namespace Grammar

def isWorded : R → Bool
  | .leaf _ k | .node k _ => k ≠ .identifier
  | .grow _ tails | .extend _ tails => tails.all fun t => t.1 ≠ .identifier
  | _ => true

theorem each_isWorded (n : Phrase) : (rules n).each isWorded = true := by
  cases n <;> decide

end Grammar

open Grammar

theorem makes_worded (source : List Char) : Makes rules isWorded (Token.Worded source)
    fun n => n.kind = .identifier → Text.isWord (n.text source) = true where
  trivia t := by
    obtain ⟨kind, start, stop⟩ := t
    cases kind <;> exact nofun
  leaf {r t k} hr ht hk h hkind := by
    have hkind : k = .identifier := hkind
    subst hkind
    refine ht ?_
    cases r with
    | leaf =>
      cases List.mem_singleton.1 hk
      cases hr
    | word =>
      simp only [Rule.taken?] at h
      split at h
      · rename_i hname
        exact .inl hname
      · rename_i k hword
        exact .inr ⟨k, hword⟩
      · cases h
    | mark | keyword => cases List.mem_singleton.1 hk
    | _ => cases hk
  node {k r c c' ns} hr _ _ hkind := absurd hkind (of_decide_eq_true hr)
  grow hr _ hk _ _ hkind := absurd hkind (of_decide_eq_true (List.all_eq_true.1 hr _ hk))
  extend hr _ hk _ _ hkind := absurd hkind (of_decide_eq_true (List.all_eq_true.1 hr _ hk))

theorem isWord_of_parse {root x : Node} (h : Grammar.parse source = .ok root) (hx : x ∈ root.all)
    (hk : x.kind = .identifier) : Text.isWord (x.text source) = true :=
  forall_of_parse (makes_worded source) each_isWorded (by decide)
    (fun _ ht => worded_of_mem_tokensOf ht) (fun _ _ => nofun) h hx hk

end Python

end AsyncSpread
