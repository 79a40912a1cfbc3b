import AsyncSpread.Proofs.Rewrite.Printed
import AsyncSpread.Proofs.Rewrite.Offsets
import AsyncSpread.Proofs.Rewrite.Insertions

/-!
The insertions of a module in the order of its tree.

The same recursion that prints a module lists its insertions (`Task.layoutNode`).  Each of them is
in front of a node or behind one, or it is the line that imports the marker (`of_mem_layoutNode`),
so the insertions in a node stay between the offsets of the node.
-/

namespace AsyncSpread

open Python

namespace Python.Node

mutual

/-- How many nodes lie on the longest way down from a node. -/
def height : Node → Nat
  | .mk _ _ _ ns => heightOf ns + 1

def heightOf : List Node → Nat
  | [] => 0
  | n :: ns => max (height n) (heightOf ns)

end

theorem height_pos (n : Node) : 0 < n.height := by
  cases n
  exact Nat.succ_pos _

/-- A tree in which insertions cannot meet but as they should: its nodes are nested; a call,
function or decorator has text; of two of these that begin together both are calls; and no call that
something builds on stops where a line begins. -/
structure Fits (source : List Char) (root : Node) : Prop where
  nested : root.Nested source
  filled : ∀ x ∈ root.all, x.isOpener = true → x.start.byte < x.stop.byte
  apart : ∀ x ∈ root.all, x.isOpener = true → ∀ y ∈ x.inner, y.isOpener = true →
    x.start.byte = y.start.byte → x.kind = .call ∧ y.kind = .call
  within : ∀ x ∈ root.all, x.kind = .attribute ∨ x.kind = .subscript ∨ x.kind = .call →
    ∀ y ∈ x.head?, y.kind = .call → ¬ Text.BeginsLine source y.stop.byte

theorem Fits.child {source : List Char} {n x : Node} (h : n.Fits source) (hx : x ∈ n.children) :
    x.Fits source where
  nested := h.nested.child hx
  filled y hy := h.filled y (mem_all_of_mem_children hx hy)
  apart y hy := h.apart y (mem_all_of_mem_children hx hy)
  within y hy := h.within y (mem_all_of_mem_children hx hy)

end Python.Node

namespace Rewrite

namespace Task

def markEdits (t : Task) (root : Node) (pl : Place) : List Edit :=
  if t.marks root pl then [markerEdit t (pl.site t) pl.node] else []

def frontEdits (t : Task) (root : Node) (pl : Place) : List Edit :=
  (if pl.decorators.isEmpty then t.markEdits root pl else []) ++
    (if t.converts root pl && !isAsync pl.node then [pl.asyncEdit] else []) ++
      if t.wraps pl then [pl.awaitEdit] else []

def behindEdits (t : Task) (pl : Place) : List Edit :=
  if t.wraps pl && pl.builtOn then [⟨pl.node.stop.byte, .close, pl.around.length, [')']⟩] else []

def aboveEdits (t : Task) (root n : Node) (around : List Node) : List Edit :=
  if (Place.decoratorsOf n).isEmpty then [] else n.children.flatMap fun c =>
    t.markEdits root ⟨c, n :: around, false⟩

/-- The line that is to be inserted, if it belongs behind an offset and not behind another. -/
def gapEdits (line? : Option Edit) (a b : Nat) : List Edit :=
  line?.toList.filter fun e => a < e.offset ∧ e.offset ≤ b

mutual

def layoutNode (t : Task) (root : Node) (line? : Option Edit) (around : List Node) (first : Bool) :
    Node → List Edit
  | .mk k p q ns =>
    t.frontEdits root ⟨.mk k p q ns, around, first⟩ ++
      t.layoutAll root line? (.mk k p q ns :: around) true p.byte q.byte
        (t.aboveEdits root (.mk k p q ns) around) ns ++
        t.behindEdits ⟨.mk k p q ns, around, first⟩

def layoutAll (t : Task) (root : Node) (line? : Option Edit) (around : List Node) (first : Bool)
    (a b : Nat) (lines : List Edit) : List Node → List Edit
  | [] => gapEdits line? a b
  | n :: ns =>
    gapEdits line? a n.start.byte ++ (if n.kind = .decorator then lines else []) ++
      t.layoutNode root line? around first n ++
      t.layoutAll root line? around false n.stop.byte b
        (if n.kind = .decorator then [] else lines) ns

end

end Task

def depthLimit : Nat := 0x8000000000000000

/-- An insertion for a node at some depth or deeper. -/
def Edit.DeepAs (depth : Nat) (e : Edit) : Prop := depth ≤ e.depth ∧ e.depth < depthLimit

/-- An insertion in front of one of some nodes. -/
def Opens (xs : List Node) (depth : Nat) (e : Edit) : Prop :=
  ∃ x ∈ xs, x.isOpener = true ∧ e.offset = x.start.byte ∧ 2 ≤ e.kind.rank ∧
    (e.kind = .await ↔ x.kind = .call) ∧ e.DeepAs depth

/-- An insertion behind one of some nodes. -/
def Closes (xs : List Node) (depth : Nat) (e : Edit) : Prop :=
  ∃ x ∈ xs, x.isOpener = true ∧ e.offset = x.stop.byte ∧ e.kind = .close ∧ e.DeepAs depth

/-- The line behind an offset and not behind another. -/
def Crosses (line? : Option Edit) (a b : Nat) (e : Edit) : Prop :=
  e ∈ line? ∧ a < e.offset ∧ e.offset ≤ b

theorem mem_gapEdits {line? : Option Edit} {a b : Nat} {e : Edit} :
    e ∈ Task.gapEdits line? a b ↔ Crosses line? a b e := by
  unfold Task.gapEdits Crosses
  rw [List.mem_filter, Option.mem_toList, decide_eq_true_eq]
  exact Iff.rfl

theorem gapEdits_some (e : Edit) (a b : Nat) :
    Task.gapEdits (some e) a b = if a < e.offset ∧ e.offset ≤ b then [e] else [] := by
  unfold Task.gapEdits
  rw [Option.toList_some, List.filter_cons, List.filter_nil]
  simp only [decide_eq_true_eq]

theorem Opens.mono {xs ys : List Node} {d d' : Nat} {e : Edit} (h : Opens xs d e) (hs : xs ⊆ ys)
    (hd : d' ≤ d) : Opens ys d' e := by
  obtain ⟨x, hx, ho, he, hr, hk, hle, hlt⟩ := h
  exact ⟨x, hs hx, ho, he, hr, hk, Nat.le_trans hd hle, hlt⟩

theorem Closes.mono {xs ys : List Node} {d d' : Nat} {e : Edit} (h : Closes xs d e) (hs : xs ⊆ ys)
    (hd : d' ≤ d) : Closes ys d' e := by
  obtain ⟨x, hx, ho, he, hk, hle, hlt⟩ := h
  exact ⟨x, hs hx, ho, he, hk, Nat.le_trans hd hle, hlt⟩

theorem Crosses.mono {line? : Option Edit} {a a' b b' : Nat} {e : Edit} (h : Crosses line? a b e)
    (ha : a' ≤ a) (hb : b ≤ b') :
    Crosses line? a' b' e := ⟨h.1, Nat.lt_of_le_of_lt ha h.2.1, Nat.le_trans h.2.2 hb⟩

/-! ## The insertions of one node -/

variable {t : Task} {root : Node} {pl : Place} {e : Edit}

theorem kind_of_converts (h : t.converts root pl = true) : pl.node.kind = .functionDefinition := by
  unfold Task.converts Place.defined? at h
  split at h
  · assumption
  · cases h

theorem converts_of_marks (h : t.marks root pl = true) : t.converts root pl = true := by
  unfold Task.marks at h
  simp only [Bool.and_eq_true] at h
  exact h.1.1

theorem mem_markEdits :
    e ∈ t.markEdits root pl ↔ t.marks root pl = true ∧ e = markerEdit t (pl.site t) pl.node := by
  unfold Task.markEdits
  by_cases h : t.marks root pl = true
  · rw [if_pos h, List.mem_singleton]
    exact ⟨fun he => ⟨h, he⟩, And.right⟩
  · rw [if_neg h]
    exact ⟨fun he => absurd he List.not_mem_nil, fun hand => absurd hand.1 h⟩

theorem mem_frontEdits : e ∈ t.frontEdits root pl ↔
    (pl.decorators = [] ∧ t.marks root pl = true ∧ e = markerEdit t (pl.site t) pl.node) ∨
      (t.converts root pl = true ∧ isAsync pl.node = false ∧ e = pl.asyncEdit) ∨
      t.wraps pl = true ∧ e = pl.awaitEdit := by
  have hempty : (if pl.decorators.isEmpty then t.markEdits root pl else []) =
      if pl.decorators = [] then t.markEdits root pl else [] := by
    cases pl.decorators <;> rfl
  unfold Task.frontEdits
  rw [hempty, List.mem_append, List.mem_append, or_assoc]
  refine or_congr ?_ (or_congr ?_ ?_)
  · by_cases hd : pl.decorators = []
    · rw [if_pos hd, mem_markEdits]
      exact ⟨fun h => ⟨hd, h⟩, And.right⟩
    · rw [if_neg hd]
      exact ⟨fun h => absurd h List.not_mem_nil, fun h => absurd h.1 hd⟩
  · by_cases hc : (t.converts root pl && !isAsync pl.node) = true
    · rw [if_pos hc, List.mem_singleton]
      simp only [Bool.and_eq_true, Bool.not_eq_true'] at hc
      exact ⟨fun h => ⟨hc.1, hc.2, h⟩, fun h => h.2.2⟩
    · rw [if_neg hc]
      simp only [Bool.and_eq_true, Bool.not_eq_true', not_and] at hc
      exact ⟨fun h => absurd h List.not_mem_nil, fun h => absurd h.2.1 (hc h.1)⟩
  · by_cases hw : t.wraps pl = true
    · rw [if_pos hw, List.mem_singleton]
      exact ⟨fun h => ⟨hw, h⟩, And.right⟩
    · rw [if_neg hw]
      exact ⟨fun h => absurd h List.not_mem_nil, fun h => absurd h.1 hw⟩

theorem isOpener_of_call {n : Node} (h : n.kind = .call) :
    n.isOpener = true := by simp [Node.isOpener, h]

theorem isOpener_of_function {n : Node} (h : n.kind = .functionDefinition) : n.isOpener = true := by
  simp [Node.isOpener, h]

theorem isOpener_of_decorator {n : Node} (h : n.kind = .decorator) :
    n.isOpener = true := by simp [Node.isOpener, h]

theorem opens_of_mem_frontEdits (h : e ∈ t.frontEdits root pl) : pl.node.isOpener = true ∧
    e.offset = pl.node.start.byte ∧ 2 ≤ e.kind.rank ∧ (e.kind = .await ↔ pl.node.kind = .call) ∧
      e.depth = pl.around.length := by
  rcases mem_frontEdits.1 h with ⟨hd, hm, rfl⟩ | ⟨hc, -, rfl⟩ | ⟨hw, rfl⟩
  · have hk := kind_of_converts (converts_of_marks hm)
    have hs : (pl.site t).decorators = [] := hd
    refine ⟨isOpener_of_function hk, ?_, Nat.le_refl 2, ?_, rfl⟩
    · unfold markerEdit
      rw [hs]
    · rw [hk]
      exact ⟨nofun, nofun⟩
  · have hk := kind_of_converts hc
    refine ⟨isOpener_of_function hk, rfl, Nat.le_succ 2, ?_, rfl⟩
    rw [hk]
    exact ⟨nofun, nofun⟩
  · have hk := kind_of_wraps hw
    have hrank : 2 ≤ EditKind.await.rank := by decide
    exact ⟨isOpener_of_call hk, rfl, hrank, ⟨fun _ => hk, fun _ => rfl⟩, rfl⟩

theorem mem_behindEdits : e ∈ t.behindEdits pl ↔ t.wraps pl = true ∧ pl.builtOn = true ∧
    e = ⟨pl.node.stop.byte, .close, pl.around.length, [')']⟩ := by
  unfold Task.behindEdits
  by_cases h : (t.wraps pl && pl.builtOn) = true
  · rw [if_pos h, List.mem_singleton]
    rw [Bool.and_eq_true] at h
    exact ⟨fun he => ⟨h.1, h.2, he⟩, fun h => h.2.2⟩
  · rw [if_neg h]
    rw [Bool.and_eq_true, not_and] at h
    exact ⟨fun he => absurd he List.not_mem_nil, fun hand => absurd hand.2.1 (h hand.1)⟩

/-- What is written above a decorated function is written in front of its first decorator. -/
theorem of_mem_aboveEdits {n : Node} {around : List Node} (h : e ∈ t.aboveEdits root n around) :
    ∃ d ds c, Place.decoratorsOf n = d :: ds ∧ c ∈ n.children ∧
      e = ⟨d.start.byte, .decorator, around.length + 1, t.markerLine d.start.byte⟩ := by
  unfold Task.aboveEdits at h
  cases hd : Place.decoratorsOf n with
  | nil =>
    rw [hd] at h
    cases h
  | cons d ds =>
    rw [hd] at h
    obtain ⟨c, hc, he⟩ := List.mem_flatMap.1 h
    refine ⟨d, ds, c, rfl, hc, ?_⟩
    rw [(mem_markEdits.1 he).2]
    have hs : (Place.site t ⟨c, n :: around, false⟩).decorators = d :: ds := hd
    unfold markerEdit
    rw [hs]
    rfl

/-! ## The insertions of a tree -/

/-- Lines that are written in front of the first decorator among some nodes. -/
def Above (ns : List Node) (depth : Nat) (lines : List Edit) : Prop :=
  ∀ e ∈ lines, e.kind = .decorator ∧ e.depth = depth ∧
    ∀ d, (ns.find? fun c => c.kind = .decorator) = some d → e.offset = d.start.byte

theorem above_aboveEdits (t : Task) (root n : Node) (around : List Node) :
    Above n.children (n :: around).length (t.aboveEdits root n around) := by
  intro e he
  obtain ⟨d, ds, c, hd, -, rfl⟩ := of_mem_aboveEdits he
  refine ⟨rfl, rfl, fun d' hd' => ?_⟩
  unfold Place.decoratorsOf at hd
  split at hd
  · rw [← List.head?_filter, hd] at hd'
    cases hd'
    rfl
  · cases hd

variable {line? : Option Edit} {around : List Node} {first : Bool} {source : List Char}

theorem Above.head {n : Node} {ns : List Node} {depth : Nat} {lines : List Edit}
    (h : Above (n :: ns) depth lines) (hk : n.kind = .decorator) (he : e ∈ lines) :
    e.offset = n.start.byte := by
  refine (h e he).2.2 n ?_
  exact List.find?_cons_of_pos (decide_eq_true hk)

theorem Above.tail {n : Node} {ns : List Node} {depth : Nat} {lines : List Edit}
    (h : Above (n :: ns) depth lines) :
    Above ns depth (if n.kind = .decorator then [] else lines) := by
  by_cases hk : n.kind = .decorator
  · rw [if_pos hk]
    exact fun e he => absurd he List.not_mem_nil
  · rw [if_neg hk]
    intro e he
    obtain ⟨h1, h2, h3⟩ := h e he
    refine ⟨h1, h2, fun d hd => h3 d ?_⟩
    rw [List.find?_cons_of_neg (by simpa using hk)]
    exact hd

/-- Each insertion is in front of one of the nodes or behind one, or it is the line and belongs
between them. -/
def Arises (line? : Option Edit) (xs : List Node) (depth a b : Nat) (e : Edit) : Prop :=
  Opens xs depth e ∨ Closes xs depth e ∨ Crosses line? a b e

theorem Arises.mono {xs ys : List Node} {d d' a a' b b' : Nat} (h : Arises line? xs d a b e)
    (hs : xs ⊆ ys) (hd : d' ≤ d) (ha : a' ≤ a) (hb : b ≤ b') : Arises line? ys d' a' b' e :=
  h.imp (·.mono hs hd) (Or.imp (·.mono hs hd) (·.mono ha hb))

mutual

theorem of_mem_layoutNode (t : Task) (root : Node) (line? : Option Edit) (around : List Node)
    (first : Bool) {n : Node} (hn : n.Nested source) (hdeep : around.length + n.height ≤ depthLimit)
    (h : e ∈ t.layoutNode root line? around first n) :
    Arises line? n.all around.length n.start.byte n.stop.byte e := by
  obtain ⟨k, p, q, ns⟩ := n
  have hself := Node.mem_all_self (.mk k p q ns)
  rw [Node.height] at hdeep
  have hlimit : around.length < depthLimit := by omega
  rw [Task.layoutNode, List.mem_append, List.mem_append] at h
  -- In front of the node, among its children, or behind it.
  rcases h with (h | h) | h
  · obtain ⟨ho, he, hr, hk, hd⟩ := opens_of_mem_frontEdits h
    exact .inl ⟨_, hself, ho, he, hr, hk, Nat.le_of_eq hd.symm, by rw [hd]; exact hlimit⟩
  · have hinner : (Node.mk k p q ns :: around).length + Node.heightOf ns ≤ depthLimit := by
      rw [List.length_cons]
      omega
    have hall := of_mem_layoutAll t root line? (.mk k p q ns :: around) true hn.laid
      (fun m hm => hn.child hm) hinner (above_aboveEdits t root (.mk k p q ns) around) h
    exact hall.mono (fun _ => Node.mem_all_of_mem_inner) (Nat.le_succ _) (Nat.le_refl _)
      (Nat.le_refl _)
  · obtain ⟨hw, -, rfl⟩ := mem_behindEdits.1 h
    exact .inr (.inl ⟨_, hself, isOpener_of_call (kind_of_wraps hw), rfl, rfl,
      Nat.le_refl _, hlimit⟩)

theorem of_mem_layoutAll (t : Task) (root : Node) (line? : Option Edit) (around : List Node)
    (first : Bool) {a b : Pos} {lines : List Edit} {ns : List Node}
    (hl : Laid source a (ns.map Node.span) b) (hns : ∀ n ∈ ns, n.Nested source)
    (hdeep : around.length + Node.heightOf ns ≤ depthLimit) (habove : Above ns around.length lines)
    (h : e ∈ t.layoutAll root line? around first a.byte b.byte lines ns) :
    Arises line? (Node.allOf ns) around.length a.byte b.byte e := by
  cases ns with
  | nil =>
    rw [Task.layoutAll] at h
    exact .inr (.inr (mem_gapEdits.1 h))
  | cons n ns =>
    obtain ⟨h1, h2, h3⟩ := hl
    have hstart : a.byte ≤ n.start.byte := h1.byte_le
    have hspan : n.start.byte ≤ n.stop.byte := h2.byte_le
    have hstop : n.stop.byte ≤ b.byte := h3.span.byte_le
    rw [Node.heightOf] at hdeep
    rw [Task.layoutAll, List.mem_append, List.mem_append, List.mem_append] at h
    rcases h with ((h | h) | h) | h
    · exact .inr (.inr ((mem_gapEdits.1 h).mono (Nat.le_refl _) (Nat.le_trans hspan hstop)))
    · by_cases hk : n.kind = .decorator
      · rw [if_pos hk] at h
        obtain ⟨hkind, hdepth, -⟩ := habove e h
        refine .inl ⟨n, List.mem_append_left _ (Node.mem_all_self n), isOpener_of_decorator hk,
          habove.head hk h, ?_, ?_, Nat.le_of_eq hdepth.symm, ?_⟩
        · rw [hkind]
          exact Nat.le_refl 2
        · rw [hkind, hk]
          exact ⟨nofun, nofun⟩
        · have hpos := n.height_pos
          omega
      · rw [if_neg hk] at h
        exact absurd h List.not_mem_nil
    · exact (of_mem_layoutNode t root line? around first (hns n List.mem_cons_self)
        (by omega) h).mono (List.subset_append_left _ _) (Nat.le_refl _) hstart hstop
    · exact (of_mem_layoutAll t root line? around false h3
        (fun m hm => hns m (List.mem_cons_of_mem _ hm)) (by omega)
        habove.tail h).mono (List.subset_append_right _ _) (Nat.le_refl _)
          (Nat.le_trans hstart hspan) (Nat.le_refl _)

end

/-- Where an insertion stands between two offsets: what is written in front of something is not at
the second, and all else is not at the first. -/
def Edit.Within (a b : Nat) (e : Edit) : Prop :=
  2 ≤ e.kind.rank ∧ a ≤ e.offset ∧ e.offset < b ∨ e.kind.rank < 2 ∧ a < e.offset ∧ e.offset ≤ b

theorem Edit.Within.mono {a a' b b' : Nat} (h : e.Within a b) (ha : a' ≤ a) (hb : b ≤ b') :
    e.Within a' b' := by
  unfold Within at h ⊢
  omega

theorem Edit.Within.le {a b : Nat} (h : e.Within a b) : a ≤ e.offset ∧ e.offset ≤ b := by
  unfold Within at h
  omega

theorem Crosses.within {a b : Nat} (h : Crosses line? a b e)
    (hline : ∀ e ∈ line?, e.kind = .importLine) : e.Within a b := by
  refine .inr ⟨?_, h.2.1, h.2.2⟩
  rw [hline e h.1]
  decide

theorem Arises.within {xs : List Node} {d a b : Nat} (h : Arises line? xs d a b e)
    (hxs : ∀ x ∈ xs, a ≤ x.start.byte ∧ x.stop.byte ≤ b ∧
      (x.isOpener = true → x.start.byte < x.stop.byte))
    (hline : ∀ e ∈ line?, e.kind = .importLine) : e.Within a b := by
  rcases h with ⟨x, hx, ho, he, hr, -, -⟩ | ⟨x, hx, ho, he, hk, -⟩ | hcrosses
  · obtain ⟨hstart, hstop, hfilled⟩ := hxs x hx
    have hlt := hfilled ho
    exact .inl ⟨hr, by omega, by omega⟩
  · obtain ⟨hstart, hstop, hfilled⟩ := hxs x hx
    have hlt := hfilled ho
    refine .inr ⟨?_, by omega, by omega⟩
    rw [hk]
    decide
  · exact hcrosses.within hline

theorem within_layoutNode {n : Node} (hf : n.Fits source)
    (hdeep : around.length + n.height ≤ depthLimit) (hline : ∀ e ∈ line?, e.kind = .importLine)
    (h : e ∈ t.layoutNode root line? around first n) : e.Within n.start.byte n.stop.byte := by
  refine (of_mem_layoutNode t root line? around first hf.nested hdeep h).within
    (fun x hx => ?_) hline
  obtain ⟨-, hstart, hstop⟩ := hf.nested.of_mem_all hx
  exact ⟨hstart.byte_le, hstop.byte_le, hf.filled x hx⟩

theorem within_layoutAll {a b : Pos} {lines : List Edit} {ns : List Node}
    (hl : Laid source a (ns.map Node.span) b) (hns : ∀ n ∈ ns, n.Fits source)
    (hdeep : around.length + Node.heightOf ns ≤ depthLimit) (habove : Above ns around.length lines)
    (hline : ∀ e ∈ line?, e.kind = .importLine)
    (h : e ∈ t.layoutAll root line? around first a.byte b.byte lines ns) :
    e.Within a.byte b.byte := by
  refine (of_mem_layoutAll t root line? around first hl
    (fun n hn => (hns n hn).nested) hdeep habove h).within
    (fun x hx => ?_) hline
  obtain ⟨n, hn, hx⟩ := Node.mem_allOf.1 hx
  obtain ⟨hstart, -, hstop⟩ := hl.of_mem (List.mem_map_of_mem hn)
  obtain ⟨-, hstart', hstop'⟩ := (hns n hn).nested.of_mem_all hx
  exact ⟨(hstart.trans hstart').byte_le, (hstop'.trans hstop).byte_le, (hns n hn).filled x hx⟩

end Rewrite

end AsyncSpread
