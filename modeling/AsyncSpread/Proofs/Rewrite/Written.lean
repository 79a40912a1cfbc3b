import AsyncSpread.Proofs.Rewrite.Ordered

/-!
Writing the insertions of a tree prints the tree.

The insertions of a node are written between the offsets of the node, so the text is written piece
by piece as the tree is printed (`insertAll_layoutNode`).
-/

namespace AsyncSpread

namespace Text

/-- An offset between two characters. -/
def Boundary (source : List Char) (offset : Nat) : Prop :=
  ∃ before after, source = before ++ after ∧ offset = byteLength before

variable {source : List Char} {a b : Nat}

theorem boundary_zero (source : List Char) : Boundary source 0 := ⟨[], source, rfl, rfl⟩

theorem boundary_byteLength (source : List Char) : Boundary source (byteLength source) :=
  ⟨source, [], (List.append_nil _).symm, rfl⟩

theorem BeginsLine.boundary {offset : Nat} (h : BeginsLine source offset) :
    Boundary source offset := by
  rcases h with rfl | rfl | ⟨before, after, rfl, rfl⟩
  · exact boundary_zero source
  · exact boundary_byteLength source
  · refine ⟨before ++ ['\n'], after, (List.append_cons _ _ _), ?_⟩
    rw [byteLength_append]
    rfl

theorem Boundary.le (h : Boundary source a) : a ≤ byteLength source := by
  obtain ⟨before, after, rfl, rfl⟩ := h
  rw [byteLength_append]
  exact Nat.le_add_right _ _

theorem Boundary.between (ha : Boundary source a) (hb : Boundary source b) (hle : a ≤ b) :
    ∃ inside after,
    dropBytes a source = inside ++ after ∧ dropBytes b source = after ∧ slice a b source = inside ∧
      b = a + byteLength inside := by
  obtain ⟨before, rest, hs, rfl⟩ := ha
  obtain ⟨front, after, hs', rfl⟩ := hb
  obtain ⟨inside, rfl⟩ := prefix_of_byteLength_le (hs.symm.trans hs') hle
  have hrest : rest = inside ++ after := by
    rw [hs, List.append_assoc, List.append_cancel_left_eq] at hs'
    exact hs'
  refine ⟨inside, after, ?_, ?_, ?_, byteLength_append _ _⟩
  · rw [hs, dropBytes_byteLength_append, hrest]
  · rw [hs', dropBytes_byteLength_append]
  · rw [hs', byteLength_append]
    exact slice_append before inside after

end Text

namespace Python

theorem Pos.In.boundary {source : List Char} {p : Pos} (h : p.In source) :
    Text.Boundary source p.byte := by
  obtain ⟨before, after, hs, rfl⟩ := h
  refine ⟨before, after, hs, ?_⟩
  rw [Pos.byte_past_start]

end Python

namespace Rewrite

open Python

namespace Edit

/-- Insertions at the place where the writing stands are written one after the other. -/
theorem insertAll_here {source : List Char} {at_ : Nat} {es rest : List Edit}
    (h : ∀ e ∈ es, e.offset = at_) :
    insertAll source at_ (es ++ rest) = es.flatMap Edit.text ++ insertAll source at_ rest := by
  induction es with
  | nil => rfl
  | cons e es ih =>
    rw [List.cons_append, insertAll_cons_of_eq (h e List.mem_cons_self),
      ih fun f hf => h f (List.mem_cons_of_mem _ hf), List.flatMap_cons, List.append_assoc]

theorem insertAll_slice {source : List Char} {a b : Nat} (ha : Text.Boundary source a)
    (hb : Text.Boundary source b) (hle : a ≤ b) {es : List Edit} (h : ∀ e ∈ es, b ≤ e.offset) :
    insertAll (Text.dropBytes a source) a es =
      Text.slice a b source ++ insertAll (Text.dropBytes b source) b es := by
  obtain ⟨inside, after, hda, hdb, hslice, rfl⟩ := ha.between hb hle
  rw [hda, hdb, hslice]
  exact insertAll_append after h

/-- Insertions between two offsets stand from the first of them on, with those that come after the
second. -/
theorem le_offset_append {a b : Nat} {es rest : List Edit} (h : ∀ e ∈ es, e.Within a b)
    (hle : a ≤ b) (h' : ∀ e ∈ rest, b ≤ e.offset) : ∀ e ∈ es ++ rest, a ≤ e.offset := by
  intro e he
  rcases List.mem_append.1 he with he | he
  · exact (h e he).le.1
  · exact Nat.le_trans hle (h' e he)

end Edit

variable {t : Task} {root : Node} {line? : Option Edit} {around : List Node} {first : Bool}

theorem insertAll_gapEdits {a b : Nat} (ha : Text.Boundary t.source a)
    (hb : Text.Boundary t.source b) (hle : a ≤ b)
    (hline : ∀ e ∈ line?, Text.Boundary t.source e.offset) {rest : List Edit}
    (h : ∀ e ∈ rest, b ≤ e.offset) :
    Edit.insertAll (Text.dropBytes a t.source) a (Task.gapEdits line? a b ++ rest) =
      t.copy line? a b ++ Edit.insertAll (Text.dropBytes b t.source) b rest := by
  cases line? with
  | none => exact Edit.insertAll_slice ha hb hle h
  | some e =>
    unfold Task.copy
    by_cases hin : a < e.offset ∧ e.offset ≤ b
    · have ho := hline e rfl
      have hfrom : ∀ f ∈ [e] ++ rest, e.offset ≤ f.offset := by
        intro f hf
        rcases List.mem_append.1 hf with hf | hf
        · exact Nat.le_of_eq (congrArg Edit.offset (List.mem_singleton.1 hf).symm)
        · exact Nat.le_trans hin.2 (h f hf)
      have hhere : ∀ f ∈ [e], f.offset = e.offset :=
        fun f hf => congrArg Edit.offset (List.mem_singleton.1 hf)
      rw [gapEdits_some, if_pos hin, Edit.insertAll_slice ha ho (Nat.le_of_lt hin.1) hfrom,
        Edit.insertAll_here hhere, Edit.insertAll_slice ho hb hin.2 h]
      simp only [if_pos hin, List.flatMap_cons, List.flatMap_nil, List.append_nil,
        List.append_assoc]
    · rw [gapEdits_some, if_neg hin]
      simp only [if_neg hin]
      exact Edit.insertAll_slice ha hb hle h

theorem flatMap_ite (c : Bool) (e : Edit) :
    (if c = true then [e] else []).flatMap Edit.text = if c = true then e.text else [] := by
  cases c
  · rfl
  · exact List.flatMap_singleton _ _

theorem text_frontEdits (t : Task) (root : Node) (pl : Place) :
    (t.frontEdits root pl).flatMap Edit.text = t.front root pl := by
  have hmark : (if pl.decorators.isEmpty then t.markEdits root pl else []).flatMap Edit.text =
      if t.marks root pl && pl.decorators.isEmpty then t.markerLine pl.node.start.byte else [] := by
    cases hd : pl.decorators with
    | nil =>
      have htext : (markerEdit t (pl.site t) pl.node).text = t.markerLine pl.node.start.byte := by
        have hs : (pl.site t).decorators = [] := hd
        unfold markerEdit
        rw [hs]
        rfl
      rw [List.isEmpty_nil, if_pos rfl, Bool.and_true, ← htext]
      exact flatMap_ite _ _
    | cons d ds =>
      rw [List.isEmpty_cons, Bool.and_false]
      rfl
  unfold Task.frontEdits Task.front
  rw [List.flatMap_append, List.flatMap_append, hmark, flatMap_ite, flatMap_ite]
  rfl

theorem text_behindEdits (t : Task) (pl : Place) :
    (t.behindEdits pl).flatMap Edit.text = t.behind pl := by
  unfold Task.behindEdits Task.behind
  rw [flatMap_ite]

theorem text_aboveEdits (t : Task) (root n : Node) (around : List Node) :
    (t.aboveEdits root n around).flatMap Edit.text = t.above root n around := by
  unfold Task.aboveEdits Task.above
  cases hd : Place.decoratorsOf n with
  | nil => rfl
  | cons d ds =>
    have hmark (c : Node) : (t.markEdits root ⟨c, n :: around, false⟩).flatMap Edit.text =
        if t.marks root ⟨c, n :: around, false⟩ then t.markerLine d.start.byte else [] := by
      have htext : (markerEdit t (Place.site t ⟨c, n :: around, false⟩) c).text =
          t.markerLine d.start.byte := by
        have hs : (Place.site t ⟨c, n :: around, false⟩).decorators = d :: ds := hd
        unfold markerEdit
        rw [hs]
        rfl
      rw [← htext]
      exact flatMap_ite _ _
    rw [List.isEmpty_cons, if_neg Bool.false_ne_true, List.flatMap_assoc]
    exact congrArg (List.flatMap · n.children) (funext hmark)

mutual

theorem insertAll_layoutNode
    (hline : ∀ e ∈ line?, e.kind = .importLine ∧ Text.BeginsLine t.source e.offset) (root : Node)
    (around : List Node) (first : Bool) {n : Node} (hf : n.Fits t.source)
    (hdeep : around.length + n.height ≤ depthLimit) {rest : List Edit}
    (h : ∀ e ∈ rest, n.stop.byte ≤ e.offset) :
    Edit.insertAll (Text.dropBytes n.start.byte t.source) n.start.byte
      (t.layoutNode root line? around first n ++ rest) =
      t.printNode root line? around first n ++ Edit.insertAll
        (Text.dropBytes n.stop.byte t.source) n.stop.byte rest := by
  obtain ⟨k, p, q, ns⟩ := n
  have hinner : (Node.mk k p q ns :: around).length + Node.heightOf ns ≤ depthLimit := by
    rw [Node.height] at hdeep
    rw [List.length_cons]
    omega
  have hfront : ∀ e ∈ t.frontEdits root ⟨.mk k p q ns, around, first⟩, e.offset = p.byte :=
    fun e he => (opens_of_mem_frontEdits he).2.1
  have hbehind : ∀ e ∈ t.behindEdits ⟨.mk k p q ns, around, first⟩, e.offset = q.byte := by
    intro e he
    rw [(mem_behindEdits.1 he).2.2]
    rfl
  have hrest : ∀ e ∈ t.behindEdits ⟨.mk k p q ns, around, first⟩ ++ rest, q.byte ≤ e.offset := by
    intro e he
    rcases List.mem_append.1 he with he | he
    · exact Nat.le_of_eq (hbehind e he).symm
    · exact h e he
  -- What is in front is written where the node begins, and what is behind where the writing has
  -- come to its end.
  have hall := insertAll_layoutAll hline root (.mk k p q ns :: around) true hf.nested.laid
    (fun m hm => hf.child hm) hinner (above_aboveEdits t root (.mk k p q ns) around) hrest
  simp only [Node.start_mk, Node.stop_mk, Node.children_mk] at hall ⊢
  rw [Edit.insertAll_here hbehind, text_behindEdits, text_aboveEdits] at hall
  rw [Task.layoutNode, Task.printNode, List.append_assoc, List.append_assoc]
  rw [Edit.insertAll_here hfront, text_frontEdits, hall]
  simp only [List.append_assoc]

theorem insertAll_layoutAll
    (hline : ∀ e ∈ line?, e.kind = .importLine ∧ Text.BeginsLine t.source e.offset) (root : Node)
    (around : List Node) (first : Bool) {a b : Pos} {lines : List Edit} {ns : List Node}
    (hl : Laid t.source a (ns.map Node.span) b) (hns : ∀ n ∈ ns, n.Fits t.source)
    (hdeep : around.length + Node.heightOf ns ≤ depthLimit) (habove : Above ns around.length lines)
    {rest : List Edit} (h : ∀ e ∈ rest, b.byte ≤ e.offset) :
    Edit.insertAll (Text.dropBytes a.byte t.source) a.byte
        (t.layoutAll root line? around first a.byte b.byte lines ns ++ rest) =
      t.printAll root line? around first a.byte b.byte (lines.flatMap Edit.text) ns ++
        Edit.insertAll (Text.dropBytes b.byte t.source) b.byte rest := by
  have hboundary : ∀ e ∈ line?, Text.Boundary t.source e.offset :=
    fun e he => (hline e he).2.boundary
  have hkind : ∀ e ∈ line?, e.kind = .importLine := fun e he => (hline e he).1
  have ha := hl.span.left_in.boundary
  have hb := hl.span.right_in.boundary
  cases ns with
  | nil =>
    rw [Task.layoutAll, Task.printAll]
    exact insertAll_gapEdits ha hb hl.span.byte_le hboundary h
  | cons n ns =>
    obtain ⟨h1, h2, h3⟩ := hl
    have hn := hns n List.mem_cons_self
    have hns' : ∀ m ∈ ns, m.Fits t.source := fun m hm => hns m (List.mem_cons_of_mem _ hm)
    rw [Node.heightOf] at hdeep
    have hdeep' : around.length + n.height ≤ depthLimit := by omega
    have hdeep'' : around.length + Node.heightOf ns ≤ depthLimit := by omega
    have hstart : Text.Boundary t.source n.start.byte := h1.right_in.boundary
    have hle : a.byte ≤ n.start.byte := h1.byte_le
    have habove' : ∀ e ∈ if n.kind = .decorator then lines else [], e.offset = n.start.byte := by
      intro e he
      by_cases hk : n.kind = .decorator
      · rw [if_pos hk] at he
        exact habove.head hk he
      · rw [if_neg hk] at he
        cases he
    -- What is written behind the node, and then what is written from its beginning on.
    have hafter : ∀ e ∈ t.layoutAll root line? around false n.stop.byte b.byte
        (if n.kind = .decorator then [] else lines) ns ++ rest, n.stop.byte ≤ e.offset :=
      Edit.le_offset_append (fun _ => within_layoutAll h3 hns' hdeep'' habove.tail hkind)
        h3.span.byte_le h
    have hfrom : ∀ e ∈ (if n.kind = .decorator then lines else []) ++
        (t.layoutNode root line? around first n ++
        (t.layoutAll root line? around false n.stop.byte b.byte
          (if n.kind = .decorator then [] else lines) ns ++ rest)),
        n.start.byte ≤ e.offset := by
      intro e he
      rcases List.mem_append.1 he with he | he
      · exact Nat.le_of_eq (habove' e he).symm
      · exact Edit.le_offset_append
          (fun _ => within_layoutNode hn hdeep' hkind) h2.byte_le hafter e he
    have hlines : (if n.kind = .decorator then lines else []).flatMap Edit.text =
        if n.kind = .decorator then lines.flatMap Edit.text else [] := by
      split <;> rfl
    have hleft : (if n.kind = .decorator then [] else lines).flatMap Edit.text =
        if n.kind = .decorator then [] else lines.flatMap Edit.text := by
      split <;> rfl
    have hall := insertAll_layoutAll hline root around false h3 hns' hdeep'' habove.tail h
    rw [hleft] at hall
    rw [Task.layoutAll, Task.printAll]
    simp only [List.append_assoc]
    rw [insertAll_gapEdits ha hstart hle hboundary hfrom]
    simp only [Node.span] at hall
    rw [Edit.insertAll_here habove', insertAll_layoutNode hline root around first hn hdeep' hafter,
      hall, hlines]

end

end Rewrite

end AsyncSpread
