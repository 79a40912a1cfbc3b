import AsyncSpread.Proofs.Rewrite.Written

/-!
What the walk inserts, read off the tree.

When a function is left its name is still pending just if no function of that name ends before it
(`mem_pending_iff_converts`).  So an event inserts what its place declares, wherever the walk has
been (`edits_gather`), and these are the insertions of the layout (`count_layoutNode`).
-/

namespace AsyncSpread.Rewrite

open Python

namespace Task

def declared (t : Task) (root : Node) : Event → List Edit
  | .meet pl => if t.wraps pl then awaitEdits (pl.site t) pl.node else []
  | .leave pl =>
    (if t.converts root pl && !isAsync pl.node then [pl.asyncEdit] else []) ++ t.markEdits root pl

variable {t : Task} {root : Node} {p p' : Progress}

/-- If each event gives what is declared at it, a run gives what is declared at its events. -/
theorem edits_run {g : Event → List Edit} {es : List Event} (h : t.run es p = .ok p')
    (hg : ∀ before ev after q, es = before ++ ev :: after → t.run before p = .ok q →
      t.gives q.pending ev = g ev) : p'.edits = p.edits ++ es.flatMap g := by
  induction es generalizing p with
  | nil =>
    cases h
    exact (List.append_nil _).symm
  | cons ev es ih =>
    obtain ⟨q, hs, h⟩ := exists_of_run_cons h
    have hrest := ih h fun before ev' after q' hes hq => by
      refine hg (ev :: before) ev' after q' (congrArg (ev :: ·) hes) ?_
      rw [run, hs]
      exact hq
    rw [hrest, (step_eq hs).1, hg [] ev es p rfl rfl, List.flatMap_cons, List.append_assoc]

theorem converts_iff {pl : Place} {name : String} (hname : pl.defined? t = some name) :
    t.converts root pl = true ↔ name ∈ t.plan.functions ∧
      ∀ e ∈ root.all, e.kind = .functionDefinition →
      t.index.nameAt? e.startLine = some name → endsBefore e pl.node = false := by
  unfold converts
  rw [hname]
  simp only [Option.any_some, Bool.and_eq_true, List.all_eq_true, Bool.or_eq_true,
    decide_eq_true_eq, Bool.not_eq_true']
  refine and_congr SortedSet.contains_iff_mem ⟨fun h e he hk hn => ?_, fun h e he => ?_⟩
  · rcases h e he with (hor | hor) | hor
    · exact absurd hk hor
    · exact absurd hn hor
    · exact hor
  · by_cases hk : e.kind = .functionDefinition
    · by_cases hn : t.index.nameAt? e.startLine = some name
      · exact .inr (h e he hk hn)
      · exact .inl (.inr hn)
    · exact .inl (.inl hk)

end Task

theorem endsBefore_iff {d e : Node} : endsBefore d e = true ↔
    d.stop.byte < e.stop.byte ∨ d.stop.byte = e.stop.byte ∧ e.start.byte < d.start.byte := by
  simp [endsBefore]

/-- Of two functions that are left the first ends before the second. -/
theorem endsBefore_iff_leftBefore {source : List Char} {root : Node} (hf : root.Fits source)
    {x y : Place} (hx : x.node ∈ root.all) (hy : y.node ∈ root.all)
    (hxk : x.node.kind = .functionDefinition) (hyk : y.node.kind = .functionDefinition)
    (hb : LeftBefore x y) : endsBefore x.node y.node = true ∧ endsBefore y.node x.node = false := by
  have hxfilled := hf.filled x.node hx (isOpener_of_function hxk)
  have hyfilled := hf.filled y.node hy (isOpener_of_function hyk)
  rw [Bool.eq_false_iff, ne_eq, endsBefore_iff, endsBefore_iff]
  rcases hb with hb | hb
  · obtain ⟨-, hstart, hstop⟩ := (hf.nested.of_mem_all hy).1.of_mem_inner hb
    have hle := hstart.byte_le
    have hle' := hstop.byte_le
    have hne : y.node.start.byte ≠ x.node.start.byte := by
      intro heq
      obtain ⟨hcall, -⟩ :=
        hf.apart y.node hy (isOpener_of_function hyk) x.node hb (isOpener_of_function hxk) heq
      rw [hyk] at hcall
      cases hcall
    omega
  · omega

variable {t : Task} {root : Node} {p : Progress}

theorem mem_all_of_leave {pl : Place} {before after : List Event}
    (hes : eventsOf [] false root = before ++ .leave pl :: after) : pl.node ∈ root.all := by
  refine node_mem_all (mem_left.2 ?_ : pl ∈ left (eventsOf [] false root))
  rw [hes]
  exact List.mem_append_right _ List.mem_cons_self

/-- When the walk leaves a function its name is still pending just if the function is to be
converted. -/
theorem mem_pending_iff_converts (hf : root.Fits t.source) {pl : Place} {name : String}
    (hname : pl.defined? t = some name) {before after : List Event}
    (hes : eventsOf [] false root = before ++ .leave pl :: after) {q : Progress}
    (hq : t.run before (.start t.plan) = .ok q) : name ∈ q.pending ↔ t.converts root pl = true := by
  obtain ⟨hk, hat⟩ := Place.defined?_eq_some.1 hname
  have hpl := mem_all_of_leave hes
  have hpairs := pairwise_left hf.nested [] false
  rw [hes, left_append, left] at hpairs
  obtain ⟨-, hafter, hbefore⟩ := List.pairwise_append.1 hpairs
  rw [Task.mem_pending_run hq, Task.converts_iff hname]
  refine and_congr Iff.rfl ⟨fun hno e he hek hen => ?_, fun hno x hx hdefined => ?_⟩
  · obtain ⟨x, hx, rfl⟩ := exists_left [] false he
    rw [hes, left_append, left] at hx
    -- None of that name was left before, and those that are left later end later.
    rcases List.mem_append.1 hx with hx | hx
    · exact absurd (Place.defined?_eq_some.2 ⟨hek, hen⟩) (hno x (mem_left.1 hx))
    · rcases List.mem_cons.1 hx with rfl | hx
      · rw [Bool.eq_false_iff, ne_eq, endsBefore_iff]
        omega
      · exact (endsBefore_iff_leftBefore hf hpl he hk hek ((List.pairwise_cons.1 hafter).1 x hx)).2
  · -- One that was left before ends before, so this one is not to be converted.
    obtain ⟨hxk, hxn⟩ := Place.defined?_eq_some.1 hdefined
    have hxr : x.node ∈ root.all := by
      refine node_mem_all (mem_left.2 ?_ : x ∈ left (eventsOf [] false root))
      rw [hes]
      exact List.mem_append_left _ hx
    have hends := endsBefore_iff_leftBefore hf hxr hpl hxk hk
      (hbefore x (mem_left.2 hx) pl List.mem_cons_self)
    have hno := hno x.node hxr hxk hxn
    rw [hends.1] at hno
    cases hno

theorem gives_eq_declared (hf : root.Fits t.source) {before after : List Event} {ev : Event}
    (hes : eventsOf [] false root = before ++ ev :: after) {q : Progress}
    (hq : t.run before (.start t.plan) = .ok q) : t.gives q.pending ev = t.declared root ev := by
  cases ev with
  | meet pl => rfl
  | leave pl =>
    cases hname : pl.defined? t with
    | none =>
      have hno : t.converts root pl = false := by
        unfold Task.converts
        rw [hname]
        rfl
      simp only [Task.gives, Task.declared, Task.markEdits, Task.marks, hname, hno, Bool.false_and,
        Bool.false_eq_true, if_false, List.append_nil]
    | some name =>
      have hconverts : q.pending.contains name = t.converts root pl :=
        Bool.eq_iff_iff.2
          (SortedSet.contains_iff_mem.trans (mem_pending_iff_converts hf hname hes hq))
      simp only [Task.gives, Task.declared, Task.markEdits, Task.marks, hname, hconverts,
        Option.any_some]
      cases t.converts root pl with
      | false => rfl
      | true => cases isAsync pl.node <;> rfl

theorem edits_gather (hf : root.Fits t.source) (hg : gather t root = .ok p) :
    p.edits = (eventsOf [] false root).flatMap (t.declared root) := by
  rw [gather_eq_run] at hg
  exact Task.edits_run hg fun _ _ _ _ hes hq => gives_eq_declared hf hes hq

/-! ## The import of the marker -/

theorem Task.imported_step {p p' : Progress} {ev : Event} (h : t.step p ev = .ok p') :
    p'.imported = (p.imported || (met [ev]).any t.bindsMarker) := by
  have hsame {pl : Place} (hk : pl.node.kind ≠ .importStatement) : t.bindsMarker pl = false := by
    simp [bindsMarker, hk]
  cases ev with
  | meet pl =>
    rw [show met [.meet pl] = [pl] from rfl, List.any_cons, List.any_nil, Bool.or_false]
    unfold step at h
    simp only at h
    split at h
    · rename_i hk
      rw [hsame (by rw [hk]; exact nofun), Bool.or_false]
      rw [meetCall_eq_ite hk] at h
      split at h
      · cases h
      · cases h
        split <;> rfl
    · rename_i hk
      cases h
      have hnested : (pl.site t).nested = pl.around.any fun n => n.kind.scope?.isSome := rfl
      unfold meetImport bindsMarker
      rw [hnested, decide_eq_true hk, Bool.and_true]
      split
      · rename_i hb
        rw [hb, Bool.or_true]
      · rename_i hb
        rw [Bool.eq_false_iff.2 hb, Bool.or_false]
    · rename_i hk
      cases h
      rw [hsame hk, Bool.or_false]
  | leave pl =>
    rw [show met [.leave pl] = [] from rfl, List.any_nil, Bool.or_false]
    unfold step at h
    simp only at h
    split at h
    · cases h
      exact (leaveFunction_same t _ _ _ p).2
    · cases h
      rfl

theorem Task.imported_run {p p' : Progress} {es : List Event} (h : t.run es p = .ok p') :
    p'.imported = (p.imported || (met es).any t.bindsMarker) := by
  induction es generalizing p with
  | nil =>
    cases h
    exact (Bool.or_false _).symm
  | cons ev es ih =>
    obtain ⟨q, hs, h⟩ := exists_of_run_cons h
    rw [ih h, imported_step hs, met_cons ev es, List.any_append, Bool.or_assoc]

theorem imported_gather (hg : gather t root = .ok p) :
    p.imported = (places root).any t.bindsMarker := by
  rw [gather_eq_run] at hg
  rw [← placesOf_eq]
  exact Task.imported_run hg

/-- The line that imports the marker is added just if there are tests and no import outside
functions and classes binds the marker, wherever it stands. -/
theorem rewriteTree_importAdded {r : Rewritten} (h : rewriteTree t root = .ok r) :
    r.importAdded = true ↔ t.plan.hasTests = true ∧
      ∀ pl ∈ places root, t.bindsMarker pl = false := by
  obtain ⟨p, hg, rfl⟩ := exists_gather h
  show p.needsImport t = true ↔ _
  rw [Progress.needsImport, imported_gather hg, Bool.and_eq_true, Bool.not_eq_true',
    List.any_eq_false]
  simp only [Bool.not_eq_true]

theorem insertions_gather (hf : root.Fits t.source) (hg : gather t root = .ok p) :
    p.insertions t root =
    (eventsOf [] false root).flatMap (t.declared root) ++ (t.importEdit? root).toList := by
  unfold Progress.insertions Progress.needsImport Task.importEdit?
  rw [imported_gather hg, edits_gather hf hg]
  split
  · rfl
  · exact (List.append_nil _).symm

/-! ## The same insertions, laid out -/

variable {line? : Option Edit} {around : List Node} {first : Bool} {source : List Char}

theorem count_gapEdits (line? : Option Edit) {a b c : Nat} (hab : a ≤ b) (hbc : b ≤ c) (e : Edit) :
    (Task.gapEdits line? a c).count e = (Task.gapEdits line? a b).count e +
      (Task.gapEdits line? b c).count e := by
  cases line? with
  | none => rfl
  | some f =>
    rw [gapEdits_some, gapEdits_some, gapEdits_some]
    by_cases hb : f.offset ≤ b
    · have h1 : ¬ (b < f.offset ∧ f.offset ≤ c) := by omega
      have h2 : (a < f.offset ∧ f.offset ≤ c) ↔ a < f.offset ∧ f.offset ≤ b := by omega
      simp only [h1, h2, if_false, List.count_nil, Nat.add_zero]
    · have h1 : ¬ (a < f.offset ∧ f.offset ≤ b) := by omega
      have h2 : (a < f.offset ∧ f.offset ≤ c) ↔ b < f.offset ∧ f.offset ≤ c := by omega
      simp only [h1, h2, if_false, List.count_nil, Nat.zero_add]

/-- The markers of the functions among some nodes that are printed further above. -/
def Task.linesOf (t : Task) (root : Node) (around ns : List Node) : List Edit :=
  ns.flatMap fun n => if (Place.decorators ⟨n, around, false⟩).isEmpty then []
    else t.markEdits root ⟨n, around, false⟩

theorem aboveEdits_eq (t : Task) (root n : Node) (around : List Node) :
    t.aboveEdits root n around = t.linesOf root (n :: around) n.children := by
  have hdecorators (c : Node) : Place.decorators ⟨c, n :: around, false⟩ = Place.decoratorsOf n :=
    rfl
  unfold Task.aboveEdits Task.linesOf
  simp only [hdecorators]
  split
  · exact (List.flatMap_eq_nil_iff.2 fun _ _ => rfl).symm
  · rfl

theorem any_decorator_of_linesOf {n : Node} (h : t.linesOf root (n :: around) n.children ≠ []) :
    n.children.any (fun c => c.kind = .decorator) = true := by
  rw [← aboveEdits_eq] at h
  obtain ⟨e, he⟩ := List.exists_mem_of_ne_nil _ h
  obtain ⟨d, ds, -, hd, -⟩ := of_mem_aboveEdits he
  unfold Place.decoratorsOf at hd
  split at hd
  · have hmem : d ∈ n.children.filter fun c => c.kind = .decorator := hd ▸ List.mem_cons_self
    obtain ⟨hmem, hk⟩ := List.mem_filter.1 hmem
    exact List.any_eq_true.2 ⟨d, hmem, hk⟩
  · cases hd

/-- A call is awaited by what is in front of it and behind it. -/
theorem count_declared_meet (t : Task) (root : Node) (pl : Place) (e : Edit) :
    (t.declared root (.meet pl)).count e =
    (if t.wraps pl then [pl.awaitEdit] else []).count e + (t.behindEdits pl).count e := by
  have hb : (pl.site t).builtOn = pl.builtOn := rfl
  have hd : (pl.site t).depth = pl.around.length := rfl
  rw [← List.count_append]
  simp only [Task.declared, Task.behindEdits, awaitEdits, Place.awaitEdit, hb, hd]
  cases t.wraps pl with
  | false => rfl
  | true => cases pl.builtOn <;> rfl

/-- What is printed around a node, and its marker if that is printed further above, is declared
there. -/
theorem count_around (t : Task) (root n : Node) (around : List Node) (first : Bool) (e : Edit) :
    (t.frontEdits root ⟨n, around, first⟩).count e + (t.behindEdits ⟨n, around, first⟩).count e +
        (t.linesOf root around [n]).count e =
      (t.declared root (.meet ⟨n, around, first⟩)).count e +
        (t.declared root (.leave ⟨n, around, first⟩)).count e := by
  have hmarks : t.markEdits root ⟨n, around, false⟩ = t.markEdits root ⟨n, around, first⟩ := rfl
  have hdecorators : Place.decorators ⟨n, around, false⟩ = Place.decorators ⟨n, around, first⟩ :=
    rfl
  rw [count_declared_meet]
  simp only [Task.frontEdits, Task.linesOf, Task.declared, List.flatMap_cons, List.flatMap_nil,
    List.append_nil, List.count_append, hdecorators, hmarks]
  cases (Place.decorators ⟨n, around, first⟩).isEmpty with
  | false =>
    simp only [Bool.false_eq_true, if_false, List.count_nil]
    omega
  | true =>
    simp only [if_true, List.count_nil]
    omega

theorem linesOf_cons (t : Task) (root : Node) (around : List Node) (n : Node) (ns : List Node) :
    t.linesOf root around (n :: ns) = t.linesOf root around [n] ++ t.linesOf root around ns := by
  unfold Task.linesOf
  rw [← List.flatMap_append]
  rfl

mutual

/-- The insertions of the layout of a node, and its marker if that is printed further above, are
those that are declared in it and the line if it belongs there. -/
theorem count_layoutNode (t : Task) (root : Node) (line? : Option Edit) (around : List Node)
    (first : Bool) {n : Node} (hn : n.Nested source) (e : Edit) :
    (t.layoutNode root line? around first n).count e + (t.linesOf root around [n]).count e =
      ((eventsOf around first n).flatMap (t.declared root)).count e +
        (Task.gapEdits line? n.start.byte n.stop.byte).count e := by
  obtain ⟨k, p, q, ns⟩ := n
  have hlaid : Laid source p (ns.map Node.span) q := hn.laid
  have hchildren : ∀ m ∈ ns, m.Nested source := fun m hm => hn.child hm
  have hall := count_layoutAll t root line? (.mk k p q ns :: around) true
    (t.aboveEdits root (.mk k p q ns) around) hlaid
    hchildren e
  have habove : (if ns.any (fun c => c.kind = .decorator) then
      (t.aboveEdits root (.mk k p q ns) around).count e else 0) =
          (t.aboveEdits root (.mk k p q ns) around).count e := by
    by_cases hnil : t.aboveEdits root (.mk k p q ns) around = []
    · rw [hnil, List.count_nil]
      exact ite_self 0
    · rw [aboveEdits_eq] at hnil
      exact if_pos (any_decorator_of_linesOf hnil)
  -- What the children print above their first decorator is what they declare and leave to their
  -- parent.
  have haround := count_around t root (.mk k p q ns) around first e
  rw [habove, aboveEdits_eq, Node.children_mk] at hall
  rw [Task.layoutNode, eventsOf, aboveEdits_eq, Node.start_mk, Node.stop_mk, Node.children_mk]
  simp only [List.flatMap_cons, List.flatMap_append, List.flatMap_nil, List.append_nil,
    List.count_append]
  omega

theorem count_layoutAll (t : Task) (root : Node) (line? : Option Edit) (around : List Node)
    (first : Bool) {a b : Pos} (lines : List Edit) {ns : List Node}
    (hl : Laid source a (ns.map Node.span) b) (hns : ∀ n ∈ ns, n.Nested source) (e : Edit) :
    (t.layoutAll root line? around first a.byte b.byte lines ns).count e +
      (t.linesOf root around ns).count e =
      ((eventsOfAll around first ns).flatMap (t.declared root)).count e +
        (if ns.any (fun c => c.kind = .decorator) then lines.count e else 0) +
        (Task.gapEdits line? a.byte b.byte).count e := by
  cases ns with
  | nil =>
    rw [Task.layoutAll, eventsOfAll, Task.linesOf]
    simp
  | cons n ns =>
    obtain ⟨h1, h2, h3⟩ := hl
    have hstart : a.byte ≤ n.start.byte := h1.byte_le
    have hspan : n.start.byte ≤ n.stop.byte := h2.byte_le
    have hstop : n.stop.byte ≤ b.byte := h3.span.byte_le
    have hnode := count_layoutNode t root line? around first (hns n List.mem_cons_self) e
    have hall := count_layoutAll t root line? around false
      (if n.kind = .decorator then [] else lines) h3
      (fun m hm => hns m (List.mem_cons_of_mem _ hm)) e
    -- The gap in front of the node, those in it and those behind it are the whole gap.
    have hgap := count_gapEdits line? hstart (Nat.le_trans hspan hstop) e
    have hgap' := count_gapEdits line? hspan hstop e
    simp only [Node.span] at hall
    rw [Task.layoutAll, eventsOfAll, linesOf_cons]
    simp only [List.flatMap_append, List.count_append, List.any_cons]
    by_cases hk : n.kind = .decorator
    · simp only [hk, if_true, decide_true, Bool.true_or, List.count_nil, ite_self] at hall ⊢
      omega
    · simp only [hk, if_false, decide_false, Bool.false_or, List.count_nil] at hall ⊢
      omega

end

end AsyncSpread.Rewrite
