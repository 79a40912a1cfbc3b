import AsyncSpread.Proofs.Rewrite.Woven

/-!
Line ends of a rewritten text.

Nothing is inserted between a carriage return and the line feed behind it
(`goesOn_of_mem_insertions`), and lines are inserted with the end that the first line has.  So a
text whose lines all end in one way keeps that (`asyncify_keepsLineEnds`).
-/

namespace AsyncSpread

open Python

/-! ## Texts -/

namespace Text

/-- Each line feed is behind a carriage return. -/
def Returned (cs : List Char) : Prop :=
  ∀ before after, cs = before ++ '\n' :: after → before.getLast? = some '\r'

variable {cs ds source out : List Char} {pieces : List (List Char)} {c : Char}

theorem returned_of_not_mem (h : '\n' ∉ cs) : Returned cs :=
  fun _ _ hs => absurd (hs ▸ List.mem_append_right _ List.mem_cons_self) h

theorem Returned.append (h : Returned cs) (h' : Returned ds) : Returned (cs ++ ds) := by
  intro before after hs
  rcases List.append_eq_append_iff.1 hs with ⟨mid, rfl, hmid⟩ | ⟨mid, hcs, hmid⟩
  · rw [List.getLast?_append, h' mid after hmid]
    rfl
  · cases mid with
    | nil =>
      rw [List.append_nil] at hcs
      have hfeed := h' [] after hmid.symm
      cases hfeed
    | cons d mid =>
      obtain ⟨rfl, -⟩ := List.cons.inj hmid
      exact h before mid hcs

theorem Returned.left (h : Returned (cs ++ ds)) : Returned cs :=
  fun before after hs => h before (after ++ ds) (by rw [hs, List.append_assoc, List.cons_append])

/-- What is left of a text at a place that is not in front of a line feed. -/
theorem Returned.right (h : Returned (cs ++ ds)) (hd : ∀ d ∈ ds.head?, d ≠ '\n') : Returned ds := by
  intro before after hs
  have hlast := h (cs ++ before) after (by rw [hs, List.append_assoc])
  cases before with
  | nil => exact absurd rfl (hd '\n' (by rw [hs]; rfl))
  | cons b before =>
    rw [List.getLast?_append] at hlast
    rwa [Option.or_of_isSome (by simp)] at hlast

/-- Behind a character other than a carriage return there is no line feed. -/
theorem Returned.goesOn (h : Returned (cs ++ ds)) (hc : cs.getLast? ≠ some '\r') :
    ∀ d ∈ ds.head?, d ≠ '\n' := by
  rintro d hd rfl
  obtain ⟨rest, rfl⟩ := List.head?_eq_some_iff.1 hd
  exact hc (h cs rest rfl)

theorem Returned.goesOn_head (h : Returned cs) :
    ∀ d ∈ cs.head?, d ≠ '\n' := @Returned.goesOn [] cs h nofun

theorem Returned.goesOn_of_beginsLine (h : Returned source) {offset : Nat}
    (hb : BeginsLine source offset) : ∀ d ∈ (dropBytes offset source).head?, d ≠ '\n' := by
  rcases hb with rfl | rfl | ⟨before, after, rfl, rfl⟩
  · rw [dropBytes_zero]
    exact h.goesOn_head
  · have hall := dropBytes_byteLength_append source []
    rw [List.append_nil] at hall
    rw [hall]
    exact nofun
  · have hone : byteLength before + 1 = byteLength (before ++ ['\n']) := by
      rw [byteLength_append]
      rfl
    rw [List.append_cons] at h ⊢
    rw [hone, dropBytes_byteLength_append]
    exact h.goesOn (by simp)

theorem returned_lineEnd : Returned ['\r', '\n'] := by
  intro before after hs
  cases before with
  | nil => cases hs
  | cons b before =>
    obtain ⟨rfl, hs⟩ := List.cons.inj hs
    have hlen := congrArg List.length hs
    simp only [List.length_append, List.length_cons, List.length_nil] at hlen
    rw [List.eq_nil_of_length_eq_zero (l := before) (by omega)]
    rfl

/-- Lines that are joined by a carriage return and a line feed. -/
theorem returned_intercalate {lines : List (List Char)} (h : ∀ line ∈ lines, '\n' ∉ line) :
    Returned (['\r', '\n'].intercalate lines) := by
  induction lines with
  | nil => exact returned_of_not_mem nofun
  | cons line lines ih =>
    have hline := returned_of_not_mem (h line List.mem_cons_self)
    have hlines := ih fun l hl => h l (List.mem_cons_of_mem _ hl)
    cases lines with
    | nil => rwa [List.intercalate_singleton]
    | cons next lines =>
      rw [List.intercalate_cons_cons]
      exact (hline.append returned_lineEnd).append hlines

theorem lineEnding_of_returned (h : Returned cs) (hn : '\n' ∈ cs) :
    lineEnding cs = ['\r', '\n'] := by
  rcases cut_line cs with hline | ⟨rest, hcut⟩
  · exact absurd (hline ▸ hn) fun hmem => by
      simpa using List.all_eq_true.1 List.all_takeWhile _ hmem
  · have hlen := congrArg List.length hcut
    rw [List.length_append, List.length_cons] at hlen
    exact if_pos ⟨by omega, h _ _ hcut⟩

theorem lineEnding_of_not_mem (h : '\r' ∉ cs) : lineEnding cs = ['\n'] := by
  refine if_neg fun hends => h ?_
  exact (List.takeWhile_sublist _).subset (List.mem_of_getLast? hends.2)

/-- A text with pieces put into it has the characters of both. -/
theorem Woven.mem_iff (h : Woven source pieces out) :
    c ∈ out ↔ c ∈ source ∨ ∃ piece ∈ pieces, c ∈ piece := by
  induction h with
  | rest cs => simp
  | piece h ih => simp [ih, or_assoc, or_left_comm]

theorem mem_intercalate {sep : Char} (h : c ∈ [sep].intercalate pieces) :
    c = sep ∨ ∃ piece ∈ pieces, c ∈ piece := by
  induction pieces with
  | nil => cases h
  | cons piece rest ih =>
    cases rest with
    | nil =>
      rw [List.intercalate_singleton] at h
      exact .inr ⟨piece, List.mem_cons_self, h⟩
    | cons next rest =>
      rw [List.intercalate_cons_cons, List.mem_append, List.mem_append, List.mem_singleton] at h
      rcases h with (h | h) | h
      · exact .inr ⟨piece, List.mem_cons_self, h⟩
      · exact .inl h
      · exact (ih h).imp_right fun ⟨p, hp, hc⟩ => ⟨p, List.mem_cons_of_mem _ hp, hc⟩

theorem continuesIdentifier_of_mem (h : isIdentifier cs = true) (hc : c ∈ cs) :
    continuesIdentifier c = true := by
  cases cs with
  | nil => cases hc
  | cons d cs =>
    rw [isIdentifier, Bool.and_eq_true] at h
    rcases List.mem_cons.1 hc with rfl | hc
    · rw [continuesIdentifier]
      exact Bool.or_eq_true_iff.2 (.inl h.1)
    · exact List.all_eq_true.1 h.2 c hc

end Text

/-! ## Settings -/

namespace Config

variable {c : Config} {ch : Char}

/-- In a configuration that can be used the marker is a path with a dot that begins with the module,
and all names are identifiers. -/
theorem names_of_validate (h : c.validate = .ok ()) : isIdentifier c.markerModule = true ∧
    (∀ name ∈ c.markerPath, isIdentifier name = true) ∧ 2 ≤ c.markerPath.length ∧
      c.markerPath.head? = some c.markerModule := by
  have hfault : c.fault? = none := by
    unfold validate at h
    split at h
    · cases h
    · assumption
  unfold fault? at hfault
  split at hfault
  · cases hfault
  · split at hfault
    · cases hfault
    · split at hfault
      · cases hfault
      · split at hfault
        · cases hfault
        · rename_i hmodule
          split at hfault
          · cases hfault
          · rename_i hpath
            split at hfault
            · cases hfault
            · rename_i hhead
              simp only [Bool.or_eq_true, Bool.not_eq_true', not_or, Bool.not_eq_false,
                decide_eq_true_eq, Nat.not_lt] at hmodule hpath
              exact ⟨hmodule, List.all_eq_true.1 hpath.2, hpath.1, Decidable.not_not.1 hhead⟩

/-- What is inserted for the marker has no line ends in it. -/
theorem not_lineEnd_of_mem (h : c.validate = .ok ())
    (hc : ch ∈ c.markerModule.toList ∨ ch ∈ c.markerDecorator.toList) : ch ≠ '\n' ∧ ch ≠ '\r' := by
  obtain ⟨hmodule, hpath, -⟩ := names_of_validate h
  have hchar : ch = '.' ∨ Text.continuesIdentifier ch = true := by
    rcases hc with hc | hc
    · exact .inr (Text.continuesIdentifier_of_mem hmodule hc)
    · rw [← Text.intercalate_piecesBetween '.' c.markerDecorator.toList] at hc
      refine (Text.mem_intercalate hc).imp_right ?_
      rintro ⟨piece, hpiece, hc⟩
      have hname := hpath _ (List.mem_map_of_mem hpiece)
      rw [isIdentifier, String.toList_ofList] at hname
      exact Text.continuesIdentifier_of_mem hname hc
  constructor
  all_goals
    rintro rfl
    rcases hchar with hchar | hchar
    · revert hchar
      decide
    · revert hchar
      decide

end Config

/-! ## Insertions -/

namespace Rewrite

open Text

/-- What holds of texts without line ends and of a line end, and of two texts in a row if it holds
of both, holds of all that is inserted. -/
theorem Inlay.text_of_parts {P : List Char → Prop} {config : Config} {newline : List Char}
    (hc : config.validate = .ok ()) (plain : ∀ cs, '\n' ∉ cs → '\r' ∉ cs → P cs) (ends : P newline)
    (append : ∀ cs ds, P cs → P ds → P (cs ++ ds)) (inlay : Inlay) :
    P (inlay.text config newline) := by
  have hmodule : P config.markerModule.toList :=
    plain _ (fun h => (Config.not_lineEnd_of_mem hc (.inl h)).1 rfl) fun h =>
      (Config.not_lineEnd_of_mem hc (.inl h)).2 rfl
  have hdecorator : P config.markerDecorator.toList :=
    plain _ (fun h => (Config.not_lineEnd_of_mem hc (.inr h)).1 rfl) fun h =>
      (Config.not_lineEnd_of_mem hc (.inr h)).2 rfl
  cases inlay with
  | async => exact plain "async ".toList (by decide) (by decide)
  | await => exact plain "await ".toList (by decide) (by decide)
  | opened => exact plain "(await ".toList (by decide) (by decide)
  | closed => exact plain [')'] (by decide) (by decide)
  | marker indent =>
    have hindent : P indent.chars := by
      refine plain _ (fun h => ?_) fun h => ?_
      · rcases indent.blank _ h with h | h <;> cases h
      · rcases indent.blank _ h with h | h <;> cases h
    exact append _ _ (append _ _ (append ['@'] _ (plain _ (by decide) (by decide)) hdecorator) ends)
      hindent
  | importLine breaks =>
    have hbreak : P (if breaks then newline else []) := by
      cases breaks
      · exact plain [] nofun nofun
      · exact ends
    exact append _ _ hbreak
      (append _ _ (append "import ".toList _ (plain _ (by decide) (by decide)) hmodule) ends)

/-- Texts that are inserted where no line feed follows keep each line feed behind a carriage
return. -/
theorem Edit.returned_insertAll {front rest : List Char} {es : List Edit} (hrest : Returned rest)
    (hcuts : Cuts (front ++ rest) (byteLength front) es)
    (hgo : ∀ e ∈ es, ∀ d ∈ (dropBytes e.offset (front ++ rest)).head?, d ≠ '\n')
    (htexts : ∀ e ∈ es, Returned e.text) :
    Returned (insertAll rest (byteLength front) es) := by
  induction es generalizing front rest with
  | nil => exact hrest
  | cons e es ih =>
    obtain ⟨hle, ⟨before, after, hs, hoffset⟩, hcuts⟩ := hcuts
    rw [hoffset] at hle hcuts
    obtain ⟨mid, rfl⟩ := prefix_of_byteLength_le hs hle
    rw [List.append_assoc, List.append_cancel_left_eq] at hs
    subst hs
    have hwidth : e.offset - byteLength front = byteLength mid := by
      rw [hoffset, byteLength_append]
      omega
    have hafter : ∀ d ∈ after.head?, d ≠ '\n' := by
      have hhere := hgo e List.mem_cons_self
      rwa [hoffset, ← List.append_assoc, dropBytes_byteLength_append] at hhere
    rw [insertAll, hwidth, takeBytes_byteLength_append,
      dropBytes_byteLength_append, ← byteLength_append]
    refine (hrest.left.append (htexts e List.mem_cons_self)).append
      (ih (hrest.right hafter) ?_ ?_ ?_)
    · rwa [List.append_assoc]
    · intro f hf
      rw [List.append_assoc]
      exact hgo f (List.mem_cons_of_mem _ hf)
    · exact fun f hf => htexts f (List.mem_cons_of_mem _ hf)

theorem Edit.returned_apply {source : List Char} {es : List Edit} (hs : Returned source)
    (hcuts : Cuts source 0 (sortStable precedes es))
    (hgo : ∀ e ∈ es, ∀ d ∈ (dropBytes e.offset source).head?, d ≠ '\n')
    (htexts : ∀ e ∈ es, Returned e.text) : Returned (apply source es) :=
  @returned_insertAll [] source (sortStable precedes es) hs hcuts
    (fun e he => hgo e (mem_sortStable.1 he)) fun e he => htexts e (mem_sortStable.1 he)

variable {t : Task} {root : Node} {p : Progress} {e : Edit}

/-- Nothing is inserted in front of a line feed that is behind a carriage return. -/
theorem goesOn_of_mem_insertions (h : root.Lawful t.source) (hg : gather t root = .ok p)
    (hs : Returned t.source) (he : e ∈ p.insertions t root) :
    ∀ d ∈ (dropBytes e.offset t.source).head?, d ≠ '\n' := by
  rcases of_mem_insertions he with he | rfl
  · obtain ⟨x, hx, ⟨hk, ho⟩ | ⟨hk, ho⟩⟩ := offset_of_mem_edits hg he
    · rw [ho]
      exact h.onset x hx (by rcases hk with hk | hk | hk <;> rw [Node.isOpener, hk] <;> rfl)
    · -- A call ends with its parenthesis, not with a carriage return.
      obtain ⟨before, after, hsource, hstop⟩ := exists_closeParen h.toShaped hx hk
      rw [ho, hstop]
      rw [hsource] at hs ⊢
      rw [dropBytes_byteLength_append]
      exact hs.goesOn (by simp)
  · exact hs.goesOn_of_beginsLine (beginsLine_importEdit h.nested)

end Rewrite

open Rewrite

/-- Rewriting a text keeps its line ends: if each line feed is behind a carriage return that stays
so, and in a text without carriage returns there are none afterwards. -/
theorem asyncify_keepsLineEnds [Parser] [LawfulParser] {source : List Char} {module : String}
    {plan : Plan} {config : Config} {r : Rewritten}
    (hr : asyncify source module plan config = .ok r) :
    ('\n' ∈ source → Text.Returned source → '\n' ∈ r.source ∧ Text.Returned r.source) ∧
      ('\r' ∉ source → '\r' ∉ r.source) := by
  have hc : config.validate = .ok () := by
    unfold asyncify at hr
    split at hr
    · cases hr
    · assumption
  obtain ⟨root, hroot, hr⟩ := asyncify_eq_ok hr
  obtain ⟨p, hg, rfl⟩ := exists_gather hr
  have hwoven := Edit.woven_insertAll source 0 (sortStable Edit.precedes
    (p.insertions (taskOf source module plan config root) root))
  have htext {e : Edit} (he : e ∈ p.insertions (taskOf source module plan config root) root) :
      e.text = (inlayOf (taskOf source module plan config root) e).text config
        (Text.lineEnding source) :=
    (text_inlayOf hg he).symm
  constructor
  · intro hfeed hreturned
    refine ⟨hwoven.mem_iff.2 (.inl hfeed), ?_⟩
    refine Edit.returned_apply hreturned (cuts_sortStable (lawful_of_parse hroot).nested hg)
      (fun e he => goesOn_of_mem_insertions (lawful_of_parse hroot) hg hreturned he) fun e he => ?_
    rw [htext he, Text.lineEnding_of_returned hreturned hfeed]
    exact Inlay.text_of_parts hc (fun _ hfeed _ => Text.returned_of_not_mem hfeed)
      Text.returned_lineEnd (fun _ _ => Text.Returned.append) _
  · intro hno hmem
    rcases hwoven.mem_iff.1 hmem with hmem | ⟨text, hpiece, hmem⟩
    · exact hno hmem
    · obtain ⟨e, he, rfl⟩ := List.mem_map.1 hpiece
      rw [htext (mem_sortStable.1 he), Text.lineEnding_of_not_mem hno] at hmem
      refine Inlay.text_of_parts (P := fun cs => '\r' ∉ cs) hc
        (fun _ _ hreturn => hreturn) (by decide) ?_ _ hmem
      exact fun _ _ hcs hds hmem => (List.mem_append.1 hmem).elim hcs hds

/-- A test in lines that are joined in one way.  The last line is not ended. -/
def joinedTest (lineEnd : List Char) : List Char :=
  lineEnd.intercalate ["import os".toList, "def test_a():".toList, "    f().x".toList]

def joinedTestPlan : Plan := (Plan.empty.addTest "m.test_a").addCall "m.test_a" "f"

/-- The test with the marker, in lines that are joined in the same way. -/
def joinedMarkedTest (lineEnd : List Char) : List Char :=
  lineEnd.intercalate ["import os".toList, "import pytest".toList, "@pytest.mark.asyncio".toList,
    "async def test_a():".toList, "    (await f()).x".toList]

theorem asyncify_keepsLineEnds_joinedTest :
    (∃ r, asyncify (joinedTest ['\r', '\n']) "m" joinedTestPlan .standard = .ok r ∧
      r.source = joinedMarkedTest ['\r', '\n'] ∧
      '\n' ∈ joinedTest ['\r', '\n'] ∧ Text.Returned (joinedTest ['\r', '\n']) ∧ '\n' ∈ r.source ∧
      Text.Returned r.source) ∧
    ∃ r, asyncify (joinedTest ['\n']) "m" joinedTestPlan .standard = .ok r ∧
      r.source = joinedMarkedTest ['\n'] ∧ '\r' ∉ joinedTest ['\n'] ∧ '\r' ∉ r.source := by
  have hreturned : (asyncify (joinedTest ['\r', '\n']) "m" joinedTestPlan .standard).toOption.any
      (fun r => r.source = joinedMarkedTest ['\r', '\n']) = true := by decide +kernel
  have hplain : (asyncify (joinedTest ['\n']) "m" joinedTestPlan .standard).toOption.any
      (fun r => r.source = joinedMarkedTest ['\n']) = true := by decide +kernel
  obtain ⟨r, hr, htext⟩ := (Option.any_eq_true _ _).1 hreturned
  obtain ⟨s, hs, htext'⟩ := (Option.any_eq_true _ _).1 hplain
  have hlines : Text.Returned (joinedTest ['\r', '\n']) := Text.returned_intercalate (by decide)
  have hfeed : '\n' ∈ joinedTest ['\r', '\n'] := by decide
  have hno : '\r' ∉ joinedTest ['\n'] := by decide
  obtain ⟨hfeed', hlines'⟩ := (asyncify_keepsLineEnds (toOption_eq_some hr)).1 hfeed hlines
  exact ⟨⟨r, toOption_eq_some hr, of_decide_eq_true htext, hfeed, hlines, hfeed', hlines'⟩,
    s, toOption_eq_some hs, of_decide_eq_true htext', hno,
      (asyncify_keepsLineEnds (toOption_eq_some hs)).2 hno⟩

end AsyncSpread
