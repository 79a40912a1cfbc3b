import AsyncSpread.Proofs.Python.Statements
import AsyncSpread.Proofs.Rewrite.Offsets
import AsyncSpread.Python.Parse

/-!
Where the import of the marker stands.

The import is a line of its own, below the comments on top of a module and below the simple
statements that the module begins with. It parts no statement and no comment, and stands above the
first compound statement, unless there is only a backslash between that and what stands before it
(`imported_of_lawful`).  Above a compound statement in the first row it is the first thing of all
(`importEdit_first_row`).
-/

namespace AsyncSpread

namespace Text

theorem byteLength_takeWhile_le (p : Char → Bool) (cs : List Char) :
    byteLength (cs.takeWhile p) ≤ byteLength cs := by
  have h := congrArg byteLength (List.takeWhile_append_dropWhile (p := p) (l := cs))
  rw [byteLength_append] at h
  omega

theorem takeWhile_line (line rest : List Char) :
    (line ++ '\n' :: rest).takeWhile (· ≠ '\n') = line.takeWhile (· ≠ '\n') := by
  induction line with
  | nil => rfl
  | cons c cs ih => rw [List.cons_append, List.takeWhile_cons, List.takeWhile_cons, ih]

theorem lineStart_le (before after : List Char) :
    lineStart (before ++ after) (byteLength before) ≤ byteLength before := by
  unfold lineStart
  rw [takeBytes_byteLength_append]
  exact Nat.sub_le _ _

theorem le_lineStart (before line after : List Char) : byteLength before + 1 ≤
    lineStart (before ++ '\n' :: line ++ after) (byteLength (before ++ '\n' :: line)) := by
  have hreverse : (before ++ '\n' :: line).reverse = line.reverse ++ '\n' :: before.reverse := by
    simp
  have hle := byteLength_takeWhile_le (· ≠ '\n') line.reverse
  have hone : ('\n' : Char).utf8Size = 1 := rfl
  unfold lineStart
  rw [takeBytes_byteLength_append]
  dsimp only
  rw [hreverse, takeWhile_line, byteLength_append, byteLength_cons]
  rw [byteLength_reverse] at hle
  omega

theorem le_nextLineStart (before after : List Char) :
    byteLength before ≤ nextLineStart (before ++ after) (byteLength before) := by
  unfold nextLineStart
  dsimp only
  split
  · rw [byteLength_append]
    omega
  · omega

/-- The next line begins behind the next line feed at the latest. -/
theorem nextLineStart_le (before line after : List Char) :
    nextLineStart (before ++ (line ++ '\n' :: after))
      (byteLength before) ≤ byteLength before + byteLength line + 1 := by
  have hle := byteLength_takeWhile_le (· ≠ '\n') line
  have hlength := (List.takeWhile_sublist (fun c => decide (c ≠ '\n')) (l := line)).length_le
  unfold nextLineStart
  dsimp only
  rw [dropBytes_byteLength_append, takeWhile_line,
    if_neg (by rw [List.length_append, List.length_cons]; omega)]
  omega

/-- A text at whose end a line may begin. -/
def EndsLine (cs : List Char) : Prop := cs = [] ∨ cs.getLast? = some '\n'

theorem endsLine_lineEnding (cs front : List Char) : EndsLine (front ++ lineEnding cs) := by
  refine .inr ?_
  unfold lineEnding
  dsimp only
  split <;> simp

theorem endsLine_takeBytes (before after : List Char) :
    EndsLine (takeBytes (byteLength before + 1) (before ++ '\n' :: after)) := by
  have hone : byteLength before + 1 = byteLength (before ++ ['\n']) :=
    (byteLength_append before ['\n']).symm
  rw [hone, List.append_cons before '\n' after, takeBytes_byteLength_append]
  exact .inr List.getLast?_concat

theorem endsLine_lineStart (cs : List Char) (offset : Nat) :
    EndsLine (takeBytes (lineStart cs offset) cs) := by
  rcases lineStart_cases cs offset with h | ⟨before, after, hcs, h⟩
  · rw [h]
    exact .inl (takeBytes_zero cs)
  · rw [h, hcs]
    exact endsLine_takeBytes before after

theorem BeginsLine.endsLine {cs : List Char} {offset : Nat} (h : BeginsLine cs offset)
    (hend : offset = byteLength cs → EndsLine cs) : EndsLine (takeBytes offset cs) := by
  by_cases hlen : offset = byteLength cs
  · have htake := takeBytes_byteLength_append cs []
    rw [List.append_nil] at htake
    rw [hlen, htake]
    exact hend hlen
  · rcases h with rfl | h | ⟨before, after, rfl, rfl⟩
    · exact .inl (takeBytes_zero cs)
    · exact absurd h hlen
    · exact endsLine_takeBytes before after

end Text

namespace Rewrite

open Python

variable {t : Task} {root : Node}

def Task.importLine (t : Task) : List Char :=
  "import ".toList ++ t.config.markerModule.toList ++ t.newline

/-- The statements of a module.  A line that a backslash joins to the next one counts as one where
it stands between others. -/
def statements (root : Node) : List Node := root.namedChildren.filter fun n => n.kind ≠ .comment

def leading (root : Node) : List Node := (statements root).takeWhile fun n => !isCompound n

def following (root : Node) : List Node := (statements root).dropWhile fun n => !isCompound n

def remarks (root : Node) : List Node := root.namedChildren.takeWhile fun n => n.kind = .comment

/-- What a module begins with ends with a statement, and not with a backslash that joins two
lines. -/
def EndsPlainly (root : Node) : Prop := ∀ n ∈ (leading root).getLast?, n.kind ≠ .lineContinuation

theorem leading_append_following (root : Node) : leading root ++ following root = statements root :=
  List.takeWhile_append_dropWhile

variable {first last n x : Node}

theorem mem_children_of_mem_statements (h : x ∈ statements root) : x ∈ root.children :=
  (List.mem_filter.1 (List.mem_filter.1 h).1).1

theorem mem_all_of_mem_statements (h : x ∈ statements root) : x ∈ root.all :=
  Node.mem_all_of_child root.mem_all_self (mem_children_of_mem_statements h)

theorem kind_of_mem_statements (h : x ∈ statements root) :
    x.kind ≠ .comment := of_decide_eq_true (List.mem_filter.1 h).2

theorem kind_of_mem_remarks (h : x ∈ remarks root) : x.kind = .comment :=
  of_decide_eq_true (List.all_eq_true.1 List.all_takeWhile x h)

theorem mem_children_of_mem_remarks (h : x ∈ remarks root) : x ∈ root.children :=
  (List.mem_filter.1 ((List.takeWhile_sublist _).subset h)).1

theorem mem_statements_of_mem_leading (h : x ∈ leading root) :
    x ∈ statements root := (List.takeWhile_sublist _).subset h

theorem mem_statements_of_mem_following (h : x ∈ following root) :
    x ∈ statements root := (List.dropWhile_sublist _).subset h

theorem isCompound_of_head_following (h : (following root).head? = some first) :
    isCompound first = true := by
  have hnot := List.head?_dropWhile_not (fun n => !isCompound n) (statements root)
  have h : ((statements root).dropWhile fun n => !isCompound n).head? = some first := h
  rw [h] at hnot
  simpa using hnot

/-- The import stands behind the last of the simple statements that a module begins with, or else in
front of its first statement, or else at the end. -/
theorem importEdit_cases (t : Task) (root : Node) :
    (∃ last, (leading root).getLast? = some last ∧
      importEdit t root = lineAfter t last.stop.byte t.importLine) ∨
    (∃ first, leading root = [] ∧ (following root).head? = some first ∧
      importEdit t root = ⟨Text.lineStart t.source first.start.byte, .importLine, 0,
        t.importLine⟩) ∨
    statements root = [] ∧ importEdit t root = lineAfter t
      (Text.byteLength t.source) t.importLine := by
  have hcut := leading_append_following root
  unfold importEdit
  extract_lets line all
  have hlast : (all.takeWhile fun n => !isCompound n).getLast? = (leading root).getLast? := rfl
  have hhead : all.head? = (statements root).head? := rfl
  rw [hlast, hhead]
  cases hl : (leading root).getLast? with
  | some last => exact .inl ⟨last, rfl, rfl⟩
  | none =>
    have hnil := List.getLast?_eq_none_iff.1 hl
    rw [hnil, List.nil_append] at hcut
    rw [← hcut]
    cases hf : (following root).head? with
    | some first => exact .inr (.inl ⟨first, hnil, rfl, rfl⟩)
    | none => exact .inr (.inr ⟨List.head?_eq_none_iff.1 hf, rfl⟩)

/-! ## A line of its own -/

theorem endsLine_lineAfter {before after : List Char} (hs : t.source = before ++ after)
    (line : List Char) :
    ∃ front, (lineAfter t (Text.byteLength before) line).text = front ++ line ∧
      Text.EndsLine (Text.takeBytes (lineAfter t (Text.byteLength before) line).offset t.source ++
        front) := by
  have hbegins : Text.BeginsLine t.source
      (Text.nextLineStart t.source (Text.byteLength before)) := by
    rw [hs]
    exact Text.beginsLine_nextLineStart before after
  unfold lineAfter
  extract_lets source at_ ends
  by_cases hend : (decide (at_ = Text.byteLength source) && !ends) = true
  · -- The last line is ended first.
    exact ⟨t.newline, if_pos hend, Text.endsLine_lineEnding _ _⟩
  · refine ⟨[], if_neg hend, ?_⟩
    rw [List.append_nil]
    refine hbegins.endsLine fun hat => ?_
    have hat : at_ = Text.byteLength source := hat
    rw [decide_eq_true hat, Bool.true_and, Bool.not_eq_true', Bool.not_eq_false, Bool.or_eq_true,
      List.isEmpty_iff, decide_eq_true_eq] at hend
    exact hend

/-- The import is a line of its own: what stands before it is empty or ends with a line end, which
it brings along itself if the last line of the text has none. -/
theorem text_importEdit (hn : root.Nested t.source) :
    ∃ front, (importEdit t root).text = front ++ t.importLine ∧
    Text.EndsLine (Text.takeBytes (importEdit t root).offset t.source ++ front) := by
  rcases importEdit_cases t root with ⟨last, hlast, he⟩ | ⟨first, -, -, he⟩ | ⟨-, he⟩
  · have hmem := mem_children_of_mem_statements
      (mem_statements_of_mem_leading (List.mem_of_getLast? hlast))
    obtain ⟨before, after, hs, hstop⟩ := (hn.child hmem).span.right_in
    rw [he, hstop, Pos.byte_past_start]
    exact endsLine_lineAfter hs _
  · rw [he]
    exact ⟨[], rfl, by rw [List.append_nil]; exact Text.endsLine_lineStart _ _⟩
  · rw [he]
    exact endsLine_lineAfter (List.append_nil _).symm _

/-! ## Among the statements -/

section

variable {source : List Char}

theorem nextLineStart_le_of_span {p q : Pos} (h : Span source p q) (hrow : p.row < q.row) :
    Text.nextLineStart source p.byte ≤ q.byte := by
  obtain ⟨before, inside, after, hs, rfl, rfl⟩ := h
  rw [Pos.past_append, Pos.row_past (Pos.start.past before)] at hrow
  obtain ⟨line, rest, rfl⟩ :=
    List.append_of_mem (List.count_pos_iff.1 (show 0 < inside.count '\n' by omega))
  have hle := Text.nextLineStart_le before line (rest ++ after)
  have hone : ('\n' : Char).utf8Size = 1 := rfl
  rw [Pos.byte_past_start, Pos.byte_past_start, hs, List.append_assoc, List.append_assoc,
    List.cons_append]
  rw [Text.byteLength_append, Text.byteLength_append, Text.byteLength_cons]
  omega

theorem le_nextLineStart_of_in {p : Pos} (h : p.In source) :
    p.byte ≤ Text.nextLineStart source p.byte := by
  obtain ⟨before, after, rfl, rfl⟩ := h
  rw [Pos.byte_past_start]
  exact Text.le_nextLineStart before after

theorem lineStart_le_of_in {p : Pos} (h : p.In source) : Text.lineStart source p.byte ≤ p.byte := by
  obtain ⟨before, after, rfl, rfl⟩ := h
  rw [Pos.byte_past_start]
  exact Text.lineStart_le before after

theorem lineStart_of_first_row {p : Pos} (h : p.In source) (hrow : p.row = 0) :
    Text.lineStart source p.byte = 0 := by
  obtain ⟨before, after, rfl, rfl⟩ := h
  rw [Pos.byte_past_start]
  rcases Text.lineStart_cases (before ++ after) (Text.byteLength before)
    with hzero | ⟨front, rest, hs, hstart⟩
  · exact hzero
  · -- A line feed before the line would be one before the place.
    have hle := Text.lineStart_le before after
    have hone : Text.byteLength (front ++ ['\n']) = Text.byteLength front + 1 :=
      Text.byteLength_append front ['\n']
    rw [hstart, ← hone] at hle
    rw [List.append_cons] at hs
    obtain ⟨line, rfl⟩ := Text.prefix_of_byteLength_le hs.symm hle
    rw [Pos.row_past, List.count_append, List.count_append, List.count_singleton_self] at hrow
    omega

/-- A line that goes on with text does so behind the comments that stand before it. -/
theorem le_lineStart_of_fills {before after : List Char} {c : Char} {p q : Pos}
    (h : Fills (before ++ c :: after) p q) (hc : c ≠ '\n') (hle : q.byte ≤ Text.byteLength before) :
    q.byte ≤ Text.lineStart (before ++ c :: after) (Text.byteLength before) := by
  obtain ⟨front, inside, behind, hs, -, rfl, -, hend⟩ := h
  rw [Pos.byte_past_start] at hle ⊢
  obtain ⟨between, rfl⟩ := Text.prefix_of_byteLength_le hs.symm hle
  rw [List.append_assoc, List.append_cancel_left_eq] at hs
  cases between with
  | nil => exact absurd (hend c (by rw [← hs]; rfl)) hc
  | cons d rest =>
    obtain rfl : d = '\n' := hend d (by rw [← hs]; rfl)
    exact Nat.le_of_succ_le (Text.le_lineStart (front ++ inside) rest (c :: after))

theorem pairwise_statements (hn : root.Nested source) :
    (statements root).Pairwise fun x y => Span source x.stop y.start :=
  hn.pairwise_children.sublist ((List.filter_sublist ..).trans (List.filter_sublist ..))

/-- The comments on top of a module stand before its statements. -/
theorem span_of_mem_remarks (hn : root.Nested source) (hr : n ∈ remarks root)
    (hx : x ∈ statements root) : Span source n.stop x.start := by
  have hcut : remarks root ++ root.namedChildren.dropWhile (fun n => n.kind = .comment) =
      root.namedChildren :=
    List.takeWhile_append_dropWhile
  have hp : root.namedChildren.Pairwise fun x y => Span source x.stop y.start :=
    hn.pairwise_children.sublist (List.filter_sublist ..)
  have hmem := (List.mem_filter.1 hx).1
  rw [← hcut] at hp hmem
  refine (List.pairwise_append.1 hp).2.2 n hr x
    ((List.mem_append.1 hmem).resolve_left fun hremark => ?_)
  exact kind_of_mem_statements hx (kind_of_mem_remarks hremark)

theorem decorated_or_leads (h : isCompound x = true) : x.kind = .decoratedDefinition ∨ x.Leads := by
  unfold isCompound at h
  unfold Node.Leads
  split at h
  all_goals first
    | (rename_i hk; rw [hk]; exact .inr rfl)
    | exact .inl ‹_›
    | cases h

/-- A compound statement begins with something that needs a line of its own. -/
theorem exists_leads_of_isCompound (h : root.Lawful source) (hx : x ∈ root.all)
    (hc : isCompound x = true) : ∃ y ∈ x.all, y.Leads ∧ y.start = x.start := by
  rcases decorated_or_leads hc with hk | hl
  · obtain ⟨front, d, hchildren, -, -, c, hhead, hck, hstart⟩ := h.decorated x hx hk
    have hhead : c ∈ x.children.head? := by
      rw [hchildren, List.head?_append, Option.mem_def.1 hhead]
      rfl
    refine ⟨c, Node.mem_all_of_child x.mem_all_self (List.mem_of_mem_head? hhead), ?_, hstart⟩
    rw [Node.Leads, hck]
    rfl
  · exact ⟨x, Node.mem_all_self x, hl, rfl⟩

/-- The line in which a compound statement begins goes on there. -/
theorem exists_first_of_isCompound (h : root.Lawful source) (hx : x ∈ root.all)
    (hc : isCompound x = true) :
    ∃ before c after, source = before ++ c :: after ∧ x.start.byte = Text.byteLength before ∧
      c ≠ '\n' := by
  obtain ⟨y, hy, hleads, hstart⟩ := exists_leads_of_isCompound h hx hc
  rw [← hstart]
  exact (exists_first_of_leads h.toShaped (Node.mem_all_of_mem_all hx hy) hleads).2

/-- The simple statements that a module begins with stop in rows before that of the first compound
one. -/
theorem row_lt_of_leading (h : root.Lawful source) (hl : last ∈ leading root)
    (hsolid : last.isTrivia = false) (hf : (following root).head? = some first) :
    last.stop.row < first.start.row := by
  have hfirst := List.mem_of_mem_head? hf
  have hmem := mem_all_of_mem_statements (mem_statements_of_mem_following hfirst)
  obtain ⟨y, hy, hleads, hstart⟩ :=
    exists_leads_of_isCompound h hmem (isCompound_of_head_following hf)
  have hover : (statements root).Pairwise Node.Over :=
    h.apart.sublist ((List.filter_sublist ..).trans (List.filter_sublist ..))
  rw [← leading_append_following] at hover
  rw [← hstart]
  exact (List.pairwise_append.1 hover).2.2 last hl first hfirst hsolid y hy hleads

end

/-- The import stands below the comments on top of a module. -/
theorem remarks_above_importEdit (h : root.Lawful t.source) (hr : n ∈ remarks root) :
    n.stop.byte ≤ (importEdit t root).offset := by
  have hn := h.nested
  have hchild := mem_children_of_mem_remarks hr
  rcases importEdit_cases t root with ⟨last, hlast, he⟩ | ⟨first, -, hfirst, he⟩ | ⟨-, he⟩
  · have hmem := mem_statements_of_mem_leading (List.mem_of_getLast? hlast)
    have hspan := (hn.child (mem_children_of_mem_statements hmem)).span
    rw [he]
    exact Nat.le_trans ((span_of_mem_remarks hn hr hmem).trans hspan).byte_le
      (le_nextLineStart_of_in hspan.right_in)
  · -- The line of the first statement begins behind the comments.
    have hmem := mem_statements_of_mem_following (List.mem_of_mem_head? hfirst)
    have hroot := mem_all_of_mem_statements hmem
    obtain ⟨before, c, after, hs, hbyte, hc⟩ :=
      exists_first_of_isCompound h hroot (isCompound_of_head_following hfirst)
    have hle := (span_of_mem_remarks hn hr hmem).byte_le
    have hfills := h.comment n (Node.mem_all_of_child root.mem_all_self hchild)
      (kind_of_mem_remarks hr)
    rw [he, hbyte, hs]
    rw [hs] at hfills
    exact le_lineStart_of_fills hfills hc (hbyte ▸ hle)
  · obtain ⟨before, after, hs, hstop⟩ := (hn.child hchild).span.right_in
    have hle := Text.le_nextLineStart t.source []
    have hlen : n.stop.byte ≤ Text.byteLength t.source := by
      rw [hstop, hs, Pos.byte_past_start, Text.byteLength_append]
      exact Nat.le_add_right _ _
    rw [List.append_nil] at hle
    rw [he]
    exact Nat.le_trans hlen hle

/-- The import stands below the simple statements that a module begins with. -/
theorem leading_above_importEdit (hn : root.Nested t.source) (hl : n ∈ leading root) :
    n.stop.byte ≤ (importEdit t root).offset := by
  rcases importEdit_cases t root with ⟨last, hlast, he⟩ | ⟨first, hnil, -, -⟩ | ⟨hnil, -⟩
  · have hmem := mem_statements_of_mem_leading (List.mem_of_getLast? hlast)
    have hspan := (hn.child (mem_children_of_mem_statements hmem)).span
    have hstop := le_nextLineStart_of_in hspan.right_in
    have hp : (leading root).Pairwise fun x y => Span t.source x.stop y.start :=
      (pairwise_statements hn).sublist (List.takeWhile_sublist _)
    obtain ⟨front, hfront⟩ := List.getLast?_eq_some_iff.1 hlast
    rw [hfront] at hl hp
    rw [he]
    rcases List.mem_append.1 hl with hl | hl
    · have hbefore := (List.pairwise_append.1 hp).2.2 n hl last (List.mem_singleton_self _)
      exact Nat.le_trans (hbefore.trans hspan).byte_le hstop
    · rwa [List.mem_singleton.1 hl]
  · rw [hnil] at hl
    cases hl
  · have hmem := mem_statements_of_mem_leading hl
    rw [hnil] at hmem
    cases hmem

/-- The import stands above the first compound statement and what follows it. -/
theorem following_below_importEdit (h : root.Lawful t.source) (hplain : EndsPlainly root)
    (hf : n ∈ following root) : (importEdit t root).offset ≤ n.start.byte := by
  have hn := h.nested
  obtain ⟨first, rest, hfollow⟩ := List.exists_cons_of_ne_nil (List.ne_nil_of_mem hf)
  have hfirst : (following root).head? = some first := by
    rw [hfollow]
    rfl
  have hmem := mem_statements_of_mem_following (List.mem_of_mem_head? hfirst)
  have hspan := (hn.child (mem_children_of_mem_statements hmem)).span
  have hle : (importEdit t root).offset ≤ first.start.byte := by
    rcases importEdit_cases t root with ⟨last, hl, he⟩ | ⟨first', -, hfirst', he⟩ | ⟨hnil, -⟩
    · have hlead := List.mem_of_getLast? hl
      have hsolid : last.isTrivia = false := by
        have hcomment := kind_of_mem_statements (mem_statements_of_mem_leading hlead)
        have hjoined := hplain last hl
        unfold Node.isTrivia Kind.isTrivia
        split
        · exact absurd ‹_› hcomment
        · exact absurd ‹_› hjoined
        · rfl
      have hp := pairwise_statements hn
      rw [← leading_append_following] at hp
      have hbetween := (List.pairwise_append.1 hp).2.2 last hlead first
        (List.mem_of_mem_head? hfirst)
      rw [he]
      exact nextLineStart_le_of_span hbetween (row_lt_of_leading h hlead hsolid hfirst)
    · obtain rfl : first' = first := Option.some.inj (hfirst'.symm.trans hfirst)
      rw [he]
      exact lineStart_le_of_in hspan.left_in
    · rw [hnil] at hmem
      cases hmem
  have hp : (following root).Pairwise fun x y => Span t.source x.stop y.start :=
    (pairwise_statements hn).sublist (List.dropWhile_sublist _)
  rw [hfollow] at hf hp
  rcases List.mem_cons.1 hf with rfl | hrest
  · exact hle
  · exact Nat.le_trans hle (hspan.trans ((List.pairwise_cons.1 hp).1 n hrest)).byte_le

/-- Above a compound statement in the first row the import is the first thing of all, before a
byte-order mark, too. -/
theorem importEdit_first_row (hn : root.Nested t.source) (hl : leading root = [])
    (hf : (following root).head? = some first) (hrow : first.start.row = 0) :
    (importEdit t root).offset = 0 := by
  rcases importEdit_cases t root with ⟨last, hlast, -⟩ | ⟨first', -, hfirst, he⟩ | ⟨hnil, -⟩
  · rw [hl] at hlast
    cases hlast
  · obtain rfl : first' = first := Option.some.inj (hfirst.symm.trans hf)
    have hmem := mem_children_of_mem_statements
      (mem_statements_of_mem_following (List.mem_of_mem_head? hf))
    rw [he]
    exact lineStart_of_first_row (hn.child hmem).span.left_in hrow
  · have hmem := mem_statements_of_mem_following (List.mem_of_mem_head? hf)
    rw [hnil] at hmem
    cases hmem

/-- Where the line that imports the marker stands in a module. -/
structure Imported (t : Task) (root : Node) : Prop where
  /-- It is a line of its own. -/
  line : ∃ front, (importEdit t root).text = front ++ t.importLine ∧
    Text.EndsLine (Text.takeBytes (importEdit t root).offset t.source ++ front)
  comments : ∀ n ∈ remarks root, n.stop.byte ≤ (importEdit t root).offset
  simple : ∀ n ∈ leading root, n.stop.byte ≤ (importEdit t root).offset
  compound : EndsPlainly root → ∀ n ∈ following root, (importEdit t root).offset ≤ n.start.byte
  /-- It parts nothing. -/
  whole : EndsPlainly root → ∀ n ∈ root.namedChildren,
    n.stop.byte ≤ (importEdit t root).offset ∨ (importEdit t root).offset ≤ n.start.byte

theorem imported_of_lawful (h : root.Lawful t.source) : Imported t root where
  line := text_importEdit h.nested
  comments _ hr := remarks_above_importEdit h hr
  simple _ hl := leading_above_importEdit h.nested hl
  compound hplain _ hf := following_below_importEdit h hplain hf
  whole hplain n hnamed := by
    by_cases hk : n.kind = .comment
    · -- A comment has no line end in it.
      obtain ⟨before, inside, after, hs, hstart, hstop, hline, -⟩ :=
        h.comment n (Node.mem_all_of_child root.mem_all_self (List.mem_filter.1 hnamed).1) hk
      have hbegins := beginsLine_importEdit h.nested
      rw [hs] at hbegins
      have houtside := hbegins.outside hline
      rw [← Text.byteLength_append, ← Pos.byte_past_start, ← Pos.byte_past_start, ← hstart, ← hstop]
        at houtside
      exact houtside.symm
    · have hmem : n ∈ statements root := List.mem_filter.2 ⟨hnamed, decide_eq_true hk⟩
      rw [← leading_append_following] at hmem
      rcases List.mem_append.1 hmem with hmem | hmem
      · exact .inl (leading_above_importEdit h.nested hmem)
      · exact .inr (following_below_importEdit h hplain hmem)

/-- A backslash in front of the first definition counts as a statement, and the import lands in the
definition. -/
example : (asyncify "\\\ndef test_a():\n    pass\n".toList "m"
    (Plan.empty.addTest "m.test_a") .standard).toOption.map
    (fun r => String.ofList r.source) =
      some "\\\n@pytest.mark.asyncio\nasync def test_a():\nimport pytest\n    pass\n" := by
  decide +kernel

end Rewrite

end AsyncSpread
