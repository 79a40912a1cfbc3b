import Mathlib.Algebra.Order.BigOperators.Group.List
import Mathlib.Algebra.Order.Group.Nat
import Mathlib.Data.List.Induction
import AsyncSpread.Proofs.Rewrite.Counted
import AsyncSpread.Proofs.Rewrite.Fitting
import AsyncSpread.Proofs.Rewrite.Written

/-!
The rewritten text is the source with pieces woven in.

Writing insertions cuts the source between characters and from the front to the back
(`cuts_sortStable`), and loses nothing of it (`Edit.woven_insertAll`).  Each insertion is one of a
few pieces (`text_inlayOf`), and the counters of a rewritten module tell how many of each there are.
-/

namespace AsyncSpread

open Python

namespace Text

/-- A text with pieces put into it: nothing of it is lost, and it keeps its order. -/
inductive Woven : List Char → List (List Char) → List Char → Prop
  | rest (cs : List Char) : Woven cs [] cs
  | piece {gap source piece out : List Char} {pieces : List (List Char)}
      (h : Woven source pieces out) : Woven (gap ++ source) (piece :: pieces) (gap ++ piece ++ out)

variable {source out : List Char} {pieces : List (List Char)}

theorem Woven.length_eq (h : Woven source pieces out) :
    out.length = source.length + (pieces.map List.length).sum := by
  induction h with
  | rest cs => rfl
  | piece h ih =>
    rw [List.length_append, List.length_append, List.length_append, List.map_cons,
      List.sum_cons, ih]
    omega

theorem Woven.eq_iff (h : Woven source pieces out) (hne : ∀ piece ∈ pieces, piece ≠ []) :
    out = source ↔ pieces = [] := by
  constructor
  · intro heq
    have hlen := h.length_eq
    cases pieces with
    | nil => rfl
    | cons piece pieces =>
      have hpos := List.length_pos_of_ne_nil (hne piece List.mem_cons_self)
      rw [heq, List.map_cons, List.sum_cons] at hlen
      omega
  · rintro rfl
    cases h
    rfl

end Text

namespace Rewrite

namespace Edit

theorem woven_insertAll (source : List Char) (at_ : Nat) (es : List Edit) :
    Text.Woven source (es.map Edit.text) (insertAll source at_ es) := by
  induction es generalizing source at_ with
  | nil => exact .rest source
  | cons e es ih =>
    have hcut := Text.takeBytes_append_dropBytes (e.offset - at_) source
    have hrest := ih (Text.dropBytes (e.offset - at_) source)
      (at_ + Text.byteLength (Text.takeBytes (e.offset - at_) source))
    rw [insertAll, List.map_cons]
    nth_rewrite 1 [← hcut]
    exact .piece hrest

/-- Writing some insertions from an offset on cuts the source between two characters, and never in
front of the last cut. -/
def Cuts (source : List Char) : Nat → List Edit → Prop
  | _, [] => True
  | at_, e :: es => at_ ≤ e.offset ∧ Text.Boundary source e.offset ∧ Cuts source e.offset es

theorem cuts_of_pairwise {source : List Char} {at_ : Nat} {es : List Edit}
    (hsorted : es.Pairwise fun e f => e.offset ≤ f.offset) (hfrom : ∀ e ∈ es, at_ ≤ e.offset)
    (hbetween : ∀ e ∈ es, Text.Boundary source e.offset) : Cuts source at_ es := by
  induction hsorted generalizing at_ with
  | nil => trivial
  | @cons e es hfirst _ ih =>
    exact ⟨hfrom e List.mem_cons_self, hbetween e List.mem_cons_self,
      ih hfirst fun f hf => hbetween f (List.mem_cons_of_mem _ hf)⟩

theorem pairwise_offset_sortStable (es : List Edit) :
    (sortStable precedes es).Pairwise fun e f => e.offset ≤ f.offset := by
  have hsorted : (sortStable precedes es).Pairwise fun a b => precedes b a = false :=
    @pairwise_sortStable Edit precedes (fun _ _ => precedes_asymm) (fun _ _ _ => precedes_trans) es
  refine hsorted.imp fun {a b} h => ?_
  rw [Bool.eq_false_iff, ne_eq, precedes_iff] at h
  omega

end Edit

/-! ## The pieces -/

structure Indent where
  chars : List Char
  blank : ∀ c ∈ chars, c = ' ' ∨ c = '\t'
deriving DecidableEq

/-- What can be put into a module. -/
inductive Inlay where
  /-- `async` in front of a function. -/
  | async
  /-- `await` in front of a call. -/
  | await
  /-- `await` behind a parenthesis of its own. -/
  | opened
  /-- The parenthesis that closes the one in front of an `await`. -/
  | closed
  /-- The line with the marker, and the indent of what it pushes down. -/
  | marker (indent : Indent)
  /-- The line that imports the marker.  It may have to end the last line first. -/
  | importLine (breaks : Bool)
deriving DecidableEq

namespace Inlay

def text (config : Config) (newline : List Char) : Inlay → List Char
  | .async => "async ".toList
  | .await => "await ".toList
  | .opened => "(await ".toList
  | .closed => [')']
  | .marker indent => '@' :: config.markerDecorator.toList ++ newline ++ indent.chars
  | .importLine breaks =>
    (if breaks then newline else []) ++ ("import ".toList ++ config.markerModule.toList ++ newline)

def kind : Inlay → EditKind
  | .async => .async
  | .await | .opened => .await
  | .closed => .close
  | .marker _ => .decorator
  | .importLine _ => .importLine

def isMarker (inlay : Inlay) : Bool := inlay.kind = .decorator

def isImport (inlay : Inlay) : Bool := inlay.kind = .importLine

theorem text_ne_nil {config : Config} {newline : List Char} (inlay : Inlay) :
    inlay.text config newline ≠ [] := by
  cases inlay with
  | async | await | opened => exact of_decide_eq_true rfl
  | closed | marker indent => exact List.cons_ne_nil _ _
  | importLine breaks =>
    have hword : "import ".toList ≠ [] := by decide
    change _ ++ ("import ".toList ++ _ ++ _) ≠ []
    simp only [ne_eq, List.append_eq_nil_iff, hword, false_and, and_false, not_false_eq_true]

theorem length_eq (inlays : List Inlay) :
    inlays.length = inlays.count .async + inlays.count .await + inlays.count .opened +
    inlays.count .closed + inlays.countP isMarker + inlays.countP isImport := by
  induction inlays with
  | nil => rfl
  | cons inlay inlays ih =>
    simp only [List.length_cons, List.count_cons, List.countP_cons, ih]
    cases inlay <;> simp [isMarker, isImport, kind] <;> omega

/-- Every closing parenthesis stands behind an opening one of its own. -/
structure Balanced (inlays : List Inlay) : Prop where
  inside : ∀ front, front <+: inlays → front.count .closed ≤ front.count .opened
  whole : inlays.count .closed = inlays.count .opened

end Inlay

/-- The spaces and tabs at the head of the line that holds an offset. -/
def indentAt (source : List Char) (offset : Nat) : Indent where
  chars := Text.lineIndent source offset
  blank c hc := by simpa using List.all_eq_true.1 List.all_takeWhile c hc

def inlayOf (t : Task) (e : Edit) : Inlay :=
  match e.kind with
  | .close => .closed
  | .importLine => .importLine (e.text ≠ Inlay.text t.config t.newline (.importLine false))
  | .decorator => .marker (indentAt t.source e.offset)
  | .async => .async
  | .await => if e.text = "(await ".toList then .opened else .await

variable {t : Task} {root : Node} {p : Progress} {e : Edit}

theorem text_inlayOf_gives {pending : SortedSet String} {ev : Event} (he : e ∈ t.gives pending ev) :
    (inlayOf t e).text t.config t.newline = e.text := by
  rcases Task.of_mem_gives he with ⟨pl, -, -, rfl | ⟨-, rfl⟩⟩ | ⟨pl, name, -, -, -,
    ⟨-, rfl⟩ | ⟨-, -, rfl⟩⟩
  · unfold Place.awaitEdit
    cases pl.builtOn <;> rfl
  · rfl
  · rfl
  · rfl

theorem text_inlayOf_import (t : Task) (root : Node) :
    (inlayOf t (importEdit t root)).text t.config t.newline = (importEdit t root).text := by
  have hline : (importEdit t root).text = Inlay.text t.config t.newline (.importLine false) ∨
      (importEdit t root).text = Inlay.text t.config t.newline (.importLine true) := by
    have after (offset : Nat) (line : List Char) :
        (lineAfter t offset line).text = line ∨
          (lineAfter t offset line).text = t.newline ++ line := by
      unfold lineAfter
      simp only
      split
      · exact .inr rfl
      · exact .inl rfl
    unfold importEdit
    extract_lets line statements
    split
    · exact after _ line
    · exact .inl rfl
    · exact after _ line
  unfold inlayOf
  rw [kind_importEdit]
  simp only
  rcases hline with h | h
  · rw [h]
    simp
  · have hne : (importEdit t root).text ≠ Inlay.text t.config t.newline (.importLine false) := by
      have hnewline : t.newline ≠ [] := by
        unfold Task.newline Text.lineEnding
        simp only
        split <;> exact List.cons_ne_nil _ _
      rw [h]
      exact fun heq => hnewline (List.self_eq_append_left.1 heq.symm)
    rw [decide_eq_true hne, h]

theorem of_mem_insertions (he : e ∈ p.insertions t root) : e ∈ p.edits ∨ e = importEdit t root := by
  unfold Progress.insertions at he
  split at he
  · exact (List.mem_append.1 he).imp_right List.mem_singleton.1
  · exact .inl he

theorem text_inlayOf (hg : gather t root = .ok p) (he : e ∈ p.insertions t root) :
    (inlayOf t e).text t.config t.newline = e.text := by
  rcases of_mem_insertions he with he | rfl
  · rw [gather_eq_run] at hg
    rcases (Task.mem_edits_run hg).1 he with he | ⟨before, ev, after, q, -, -, he⟩
    · cases he
    · exact text_inlayOf_gives he
  · exact text_inlayOf_import t root

theorem boundary_of_mem_insertions (hn : root.Nested t.source) (hg : gather t root = .ok p)
    (he : e ∈ p.insertions t root) : Text.Boundary t.source e.offset := by
  rcases of_mem_insertions he with he | rfl
  · obtain ⟨x, hx, ho⟩ := offset_of_mem_edits hg he
    have hspan := (hn.of_mem_all hx).1.span
    rcases ho with ⟨-, ho⟩ | ⟨-, ho⟩
    · rw [ho]
      exact hspan.left_in.boundary
    · rw [ho]
      exact hspan.right_in.boundary
  · exact (beginsLine_importEdit hn).boundary

theorem cuts_sortStable (hn : root.Nested t.source) (hg : gather t root = .ok p) :
    Edit.Cuts t.source 0 (sortStable Edit.precedes (p.insertions t root)) :=
  Edit.cuts_of_pairwise (Edit.pairwise_offset_sortStable _) (fun _ _ => Nat.zero_le _)
    fun _ he => boundary_of_mem_insertions hn hg (mem_sortStable.1 he)

/-! ## Counting the pieces -/

def inlays (t : Task) (root : Node) (p : Progress) : List Inlay :=
  (sortStable Edit.precedes (p.insertions t root)).map (inlayOf t)

theorem text_inlays (hg : gather t root = .ok p) :
    (inlays t root p).map (Inlay.text t.config t.newline) =
    (sortStable Edit.precedes (p.insertions t root)).map Edit.text := by
  rw [inlays, List.map_map]
  exact List.map_congr_left fun e he => text_inlayOf hg (mem_sortStable.1 he)

theorem kind_inlayOf (t : Task) (e : Edit) : (inlayOf t e).kind = e.kind := by
  unfold inlayOf
  split <;> rename_i hk <;> rw [hk]
  · rfl
  · rfl
  · rfl
  · rfl
  · split <;> rfl

theorem countP_inlays (t : Task) (root : Node) (p : Progress) (kind : EditKind) :
    (inlays t root p).countP (fun inlay => inlay.kind = kind) = (p.insertions t root).countP
      fun e => e.kind = kind := by
  rw [inlays, List.countP_map]
  simp only [Function.comp_def, kind_inlayOf]
  exact (sortStable_perm _ _).countP_eq _

/-- The line that imports the marker is none of the inlays that the walk counts. -/
theorem countP_inlays_eq_tally (kind : EditKind) (hkind : kind ≠ .importLine) :
    (inlays t root p).countP (fun inlay => inlay.kind = kind) = p.tally kind := by
  rw [countP_inlays]
  unfold Progress.insertions Progress.tally
  split
  · rw [List.countP_append, List.countP_singleton, kind_importEdit,
      if_neg (by simpa using hkind.symm), Nat.add_zero]
  · rfl

theorem count_async (l : List Inlay) :
    l.count .async = l.countP fun inlay => inlay.kind = .async := by
  refine List.countP_congr fun inlay _ => ?_
  cases inlay <;> simp [Inlay.kind]

theorem count_await (l : List Inlay) :
    l.count .await + l.count .opened = l.countP fun inlay => inlay.kind = .await := by
  induction l with
  | nil => rfl
  | cons inlay l ih =>
    rw [List.count_cons, List.count_cons, List.countP_cons, ← ih]
    cases inlay <;> simp [Inlay.kind] <;> omega

theorem count_closed (l : List Inlay) :
    l.count .closed = l.countP fun inlay => inlay.kind = .close := by
  refine List.countP_congr fun inlay _ => ?_
  cases inlay <;> simp [Inlay.kind]

/-! ## Parentheses -/

/-- Whether an insertion opens a parenthesis for an `await`. -/
def Edit.opens (e : Edit) : Bool := e.kind = .await && e.text = "(await ".toList

def Edit.closes (e : Edit) : Bool := e.kind = .close

theorem inlayOf_eq_opened (t : Task) (e : Edit) : inlayOf t e = .opened ↔ e.opens = true := by
  unfold inlayOf Edit.opens
  split <;> rename_i hk <;> rw [hk]
  · simp
  · simp
  · simp
  · simp
  · by_cases ht : e.text = "(await ".toList
    · rw [if_pos ht, decide_eq_true ht]
      exact ⟨fun _ => rfl, fun _ => rfl⟩
    · rw [if_neg ht, decide_eq_false ht, Bool.and_false]
      exact ⟨nofun, nofun⟩

theorem count_opened_map (es : List Edit) :
    (es.map (inlayOf t)).count .opened = es.countP Edit.opens := by
  rw [List.count, List.countP_map]
  refine List.countP_congr fun e _ => ?_
  rw [Function.comp_apply, beq_iff_eq]
  exact inlayOf_eq_opened t e

theorem count_closed_map (es : List Edit) :
    (es.map (inlayOf t)).count .closed = es.countP Edit.closes := by
  rw [count_closed, List.countP_map]
  simp only [Function.comp_def, kind_inlayOf]
  rfl

theorem countP_around (hg : gather t root = .ok p) {test : Edit → Bool}
    (htest : ∀ e, test e = true → Task.awaits e = true) :
    (p.insertions t root).countP test =
      (((places root).filter t.wraps).map fun pl =>
        (awaitEdits (pl.site t) pl.node).countP test).sum := by
  have hfilter : (p.insertions t root).countP test =
      ((p.insertions t root).filter Task.awaits).countP test := by
    rw [List.countP_filter]
    refine List.countP_congr fun e _ => ?_
    simpa using htest e
  rw [hfilter, (filter_awaits_insertions hg).1, List.countP_flatMap]
  rfl

/-- A call that is closed up to an offset was opened before it. -/
theorem countP_closes_le (hf : root.Fits t.source) (hg : gather t root = .ok p) (x : Nat) :
    (p.insertions t root).countP (fun e => e.closes && e.offset ≤ x) ≤
      (p.insertions t root).countP fun e => e.opens && e.offset < x := by
  rw [countP_around hg fun e he => ?_, countP_around hg fun e he => ?_]
  · refine List.sum_le_sum fun pl hpl => ?_
    obtain ⟨hpl, hw⟩ := List.mem_filter.1 hpl
    have hfilled := hf.filled pl.node (node_mem_of_mem_placesOf (placesOf_eq root ▸ hpl)).1
      (isOpener_of_call (kind_of_wraps hw))
    unfold awaitEdits
    by_cases hb : (pl.site t).builtOn = true
    · by_cases hx : pl.node.stop.byte ≤ x
      · have hlt : pl.node.start.byte < x := by omega
        simp [hb, Edit.opens, Edit.closes, hx, hlt]
      · simp [hb, Edit.opens, Edit.closes, hx]
    · simp [hb, Edit.opens, Edit.closes]
  · simp only [Edit.opens, Bool.and_eq_true, decide_eq_true_eq] at he
    simp [Task.awaits, he.1.1]
  · simp only [Edit.closes, Bool.and_eq_true, decide_eq_true_eq] at he
    simp [Task.awaits, he.1]

theorem countP_closes_eq (hg : gather t root = .ok p) :
    (p.insertions t root).countP Edit.closes = (p.insertions t root).countP Edit.opens := by
  rw [countP_around hg fun e he => ?_, countP_around hg fun e he => ?_]
  · refine congrArg List.sum (List.map_congr_left fun pl _ => ?_)
    unfold awaitEdits
    cases (pl.site t).builtOn <;> simp [Edit.opens, Edit.closes]
  · simp only [Edit.opens, Bool.and_eq_true, decide_eq_true_eq] at he
    simp [Task.awaits, he.1]
  · simp only [Edit.closes, decide_eq_true_eq] at he
    simp [Task.awaits, he]

/-- So far as the insertions are written, no parenthesis is closed that was not opened. -/
theorem countP_closes_front (hf : root.Fits t.source) (hg : gather t root = .ok p)
    {front back : List Edit} (h : sortStable Edit.precedes (p.insertions t root) = front ++ back) :
    front.countP Edit.closes ≤ front.countP Edit.opens := by
  have hperm := sortStable_perm Edit.precedes (p.insertions t root)
  have hsorted := Edit.pairwise_offset_sortStable (p.insertions t root)
  induction front using List.reverseRecOn generalizing back with
  | nil => exact Nat.le_refl _
  | append_singleton front e ih =>
    by_cases hc : e.closes = true
    · -- All that is closed so far is closed up to this offset, and all that is opened before it
      -- has been written.
      have hsplit (test : Edit → Bool) :
          (front ++ [e] ++ back).countP test = (front ++ [e]).countP test + back.countP test :=
            List.countP_append
      have hle := countP_closes_le hf hg e.offset
      rw [← hperm.countP_eq, ← hperm.countP_eq, h, hsplit, hsplit] at hle
      rw [h] at hsorted
      obtain ⟨hin, -, hacross⟩ := List.pairwise_append.1 hsorted
      obtain ⟨-, -, hlast⟩ := List.pairwise_append.1 hin
      have hclosed : (front ++ [e]).countP (fun f => f.closes && f.offset ≤ e.offset) =
          (front ++ [e]).countP Edit.closes := by
        refine List.countP_congr fun f hf => ?_
        have hfe : f.offset ≤ e.offset := by
          rcases List.mem_append.1 hf with hf | hf
          · exact hlast f hf e (List.mem_singleton_self e)
          · rw [List.mem_singleton.1 hf]
        simp [hfe]
      have hbehind : back.countP (fun f => f.opens && f.offset < e.offset) = 0 := by
        refine List.countP_eq_zero.2 fun f hf => ?_
        have hef := hacross e (List.mem_append_right _ (List.mem_singleton_self e)) f hf
        simp [Nat.not_lt.2 hef]
      have hopened : (front ++ [e]).countP (fun f => f.opens && f.offset < e.offset) ≤
          (front ++ [e]).countP Edit.opens :=
        List.countP_mono_left fun f _ hf => (Bool.and_eq_true _ _ ▸ hf).1
      omega
    · have hnext : sortStable Edit.precedes (p.insertions t root) = front ++ e :: back := by
        rw [h, List.append_assoc]
        rfl
      have hfront := ih hnext
      rw [List.countP_append, List.countP_append, List.countP_singleton,
        List.countP_singleton, if_neg hc]
      omega

theorem balanced_inlays (hf : root.Fits t.source) (hg : gather t root = .ok p) :
    Inlay.Balanced (inlays t root p) where
  inside front hfront := by
    have htake := List.prefix_iff_eq_take.1 hfront
    rw [inlays, ← List.map_take] at htake
    rw [htake, count_opened_map, count_closed_map]
    exact countP_closes_front hf hg (List.take_append_drop front.length _).symm
  whole := by
    have hperm := sortStable_perm Edit.precedes (p.insertions t root)
    rw [inlays, count_opened_map, count_closed_map, hperm.countP_eq, hperm.countP_eq]
    exact countP_closes_eq hg

/-- The line that imports the marker is inserted once or not at all. -/
theorem countP_isImport (hg : gather t root = .ok p) :
    (inlays t root p).countP Inlay.isImport = if p.needsImport t then 1 else 0 := by
  have hnone : p.edits.countP (fun e => e.kind = .importLine) = 0 := (counted_gather hg).importLine
  refine (countP_inlays t root p .importLine).trans ?_
  unfold Progress.insertions
  split
  · rw [List.countP_append, hnone, List.countP_singleton, kind_importEdit]
    rfl
  · exact hnone

theorem count_inlays (hg : gather t root = .ok p) : (inlays t root p).count .async = p.madeAsync ∧
    (inlays t root p).count .await + (inlays t root p).count .opened = p.awaited ∧
    (inlays t root p).countP Inlay.isMarker = p.marked := by
  have hcounted := counted_gather hg
  refine ⟨?_, ?_, ?_⟩
  · rw [count_async, countP_inlays_eq_tally .async nofun, hcounted.madeAsync]
  · rw [count_await, countP_inlays_eq_tally .await nofun, hcounted.awaited]
  · rw [hcounted.marked]
    exact countP_inlays_eq_tally .decorator nofun

/-- A module in which nothing is counted has no pieces in it. -/
theorem isChanged_iff (hg : gather t root = .ok p) {r : Rewritten} (hr : rewriteTree t root = .ok r)
    (hf : root.Fits t.source) : r.isChanged = true ↔ inlays t root p ≠ [] := by
  obtain ⟨hasync, hawait, hmarker⟩ := count_inlays hg
  have himport := countP_isImport hg
  have hwhole := (balanced_inlays hf hg).whole
  have hlength := Inlay.length_eq (inlays t root p)
  unfold rewriteTree at hr
  rw [hg] at hr
  cases hr
  rw [ne_eq, ← List.length_eq_zero_iff]
  simp only [Rewritten.isChanged, Bool.or_eq_true, decide_eq_true_eq]
  split at himport
  · rename_i hneeds
    simp only [hneeds, or_true, true_iff]
    omega
  · rename_i hneeds
    simp only [Bool.eq_false_iff.2 hneeds, Bool.false_eq_true, or_false]
    omega

end Rewrite

open Rewrite

/-- Rewriting a text as a module only inserts.  The source is cut between characters and in order;
the text that comes out is the source with pieces woven in, which are counted as they are; the
parentheses among them are balanced, and each pair stands around a call that is awaited; and the
module tells that it is changed just if its text is another one. -/
theorem asyncify_inserts [Parser] [LawfulParser] {source : List Char} {module : String}
    {plan : Plan} {config : Config} {r : Rewritten}
    (hr : asyncify source module plan config = .ok r) :
    ∃ root t p, parse source = .ok root ∧ t = taskOf source module plan config root ∧
      gather t root = .ok p ∧ r.source = Edit.apply source (p.insertions t root) ∧
      Edit.Cuts source 0 (sortStable Edit.precedes (p.insertions t root)) ∧
      (p.insertions t root).filter Task.awaits =
        ((places root).filter t.wraps).flatMap (fun pl => awaitEdits (pl.site t) pl.node) ∧
      ∃ inlays : List Inlay,
        inlays.map (Inlay.text config (Text.lineEnding source)) =
          (sortStable Edit.precedes (p.insertions t root)).map Edit.text ∧
        Text.Woven source (inlays.map (Inlay.text config (Text.lineEnding source))) r.source ∧
        inlays.count .async = r.madeAsync ∧
        inlays.count .await + inlays.count .opened = r.awaited ∧
        inlays.countP Inlay.isMarker = r.marked ∧
        inlays.countP Inlay.isImport = (if r.importAdded then 1 else 0) ∧
        Inlay.Balanced inlays ∧
        (r.isChanged = true ↔ r.source ≠ source) := by
  obtain ⟨root, hroot, hr⟩ := asyncify_eq_ok hr
  refine ⟨root, taskOf source module plan config root, ?_⟩
  generalize ht : taskOf source module plan config root = t at hr ⊢
  have hsource : t.source = source := by rw [← ht]; rfl
  have hconfig : t.config = config := by rw [← ht]; rfl
  rw [← hsource] at hroot ⊢
  rw [← hconfig]
  have hf := (lawful_of_parse hroot).fits
  cases hg : gather t root with
  | error what =>
    rw [rewriteTree_eq_error.2 hg] at hr
    cases hr
  | ok p =>
    obtain ⟨hasync, hawait, hmarker⟩ := count_inlays hg
    have hchanged := isChanged_iff hg hr hf
    have hwoven := Edit.woven_insertAll t.source 0 (sortStable Edit.precedes (p.insertions t root))
    rw [← text_inlays hg] at hwoven
    have hsame := hwoven.eq_iff fun text htext => by
      obtain ⟨inlay, -, rfl⟩ := List.mem_map.1 htext
      exact Inlay.text_ne_nil inlay
    rw [List.map_eq_nil_iff] at hsame
    unfold rewriteTree at hr
    rw [hg] at hr
    cases hr
    exact ⟨p, hroot, rfl, rfl, rfl, cuts_sortStable hf.nested hg, (filter_awaits_insertions hg).1,
      inlays t root p,
      text_inlays hg, hwoven, hasync, hawait, hmarker, countP_isImport hg, balanced_inlays hf hg,
      hchanged.trans (not_congr hsame.symm)⟩

/-- A test in a class, with a call that something builds on and another. -/
def visitor : List Char := "class T:\n    def test_a(self):\n        return f().x + g()\n".toList

def visitorPlan : Plan :=
  ((Plan.empty.addTest "m.T.test_a").addCall "m.T.test_a" "f").addCall "m.T.test_a" "g"

theorem asyncify_inserts_visitor : ∃ r, asyncify visitor "m" visitorPlan .standard = .ok r ∧
    String.ofList r.source =
      "import pytest\nclass T:\n    @pytest.mark.asyncio\n    async def test_a(self):\n" ++
      "        return (await f()).x + await g()\n" ∧
    ∃ inlays : List Inlay, Text.Woven visitor
      (inlays.map (Inlay.text .standard (Text.lineEnding visitor))) r.source ∧
      inlays.count .async = 1 ∧ inlays.count .await + inlays.count .opened = 2 ∧
      inlays.countP Inlay.isMarker = 1 ∧
      inlays.countP Inlay.isImport = 1 ∧ Inlay.Balanced inlays ∧ r.source ≠ visitor := by
  have h : (asyncify visitor "m" visitorPlan .standard).toOption.any (fun r =>
      String.ofList r.source =
        "import pytest\nclass T:\n    @pytest.mark.asyncio\n    async def test_a(self):\n" ++
        "        return (await f()).x + await g()\n" &&
      r.madeAsync = 1 && r.awaited = 2 && r.marked = 1 && r.importAdded) = true := by decide +kernel
  obtain ⟨r, hr, h⟩ := (Option.any_eq_true _ _).1 h
  simp only [Bool.and_eq_true, decide_eq_true_eq] at h
  obtain ⟨⟨⟨⟨htext, hasync⟩, hawait⟩, hmarked⟩, himport⟩ := h
  obtain ⟨root, t, p, -, -, -, -, -, -, inlays, -, hwoven, h1, h2, h3, h4, hbalanced, hchanged⟩ :=
    asyncify_inserts (toOption_eq_some hr)
  rw [himport, if_pos rfl] at h4
  refine ⟨r, toOption_eq_some hr, htext, inlays, hwoven, h1.trans hasync, h2.trans hawait,
    h3.trans hmarked, h4, hbalanced, hchanged.1 ?_⟩
  rw [Rewritten.isChanged, himport, Bool.or_true]

end AsyncSpread
