import AsyncSpread.Proofs.Rewrite.Offsets

/-!
Which functions become asynchronous.

A name that is planned is used up by the first function that the walk leaves under it.  Functions of
one name are not inside each other, so that is the first one in the text (`exists_async_iff`).
-/

namespace AsyncSpread.Rewrite

open Python

namespace Task

def isFirst (t : Task) (root d : Node) : Bool :=
  root.all.all fun e => e.kind ≠ .functionDefinition || t.index.nameAt? e.startLine ≠
    t.index.nameAt? d.startLine || d.start.byte ≤ e.start.byte

theorem isFirst_iff {t : Task} {root d : Node} : t.isFirst root d = true ↔ ∀ e ∈ root.all,
    e.kind = .functionDefinition → t.index.nameAt? e.startLine = t.index.nameAt? d.startLine →
      d.start.byte ≤ e.start.byte := by
  simp only [isFirst, List.all_eq_true, Bool.or_eq_true, decide_eq_true_eq]
  constructor
  · intro h e he hk hname
    rcases h e he with (h | h) | h
    · exact absurd hk h
    · exact absurd hname h
    · exact h
  · intro h e he
    by_cases hk : e.kind = .functionDefinition
    · by_cases hname : t.index.nameAt? e.startLine = t.index.nameAt? d.startLine
      · exact .inr (h e he hk hname)
      · exact .inl (.inr hname)
    · exact .inl (.inl hk)

variable {t : Task} {root : Node} {p p' : Progress}

/-- An insertion of `async` is that of the function that is left. -/
theorem of_async_mem_gives {pending : SortedSet String} {ev : Event} {e : Edit}
    (he : e ∈ t.gives pending ev) (hk : e.kind = .async) :
    ∃ pl name, ev = .leave pl ∧ pl.node.kind = .functionDefinition ∧
      t.index.nameAt? pl.node.startLine = some name ∧ name ∈ pending ∧ isAsync pl.node = false ∧
      e = pl.asyncEdit := by
  rcases of_mem_gives he with ⟨pl, -, -, rfl | ⟨-, rfl⟩⟩ | ⟨pl, name, rfl, hdefined, hpending,
    ⟨ha, rfl⟩ | ⟨-, -, rfl⟩⟩
  · cases hk
  · cases hk
  · obtain ⟨hfun, hname⟩ := Place.defined?_eq_some.1 hdefined
    exact ⟨pl, name, rfl, hfun, hname, hpending, ha, rfl⟩
  · cases hk

theorem async_mem_gives {pending : SortedSet String} {pl : Place} {name : String}
    (hd : pl.defined? t = some name) (hp : name ∈ pending) (ha : isAsync pl.node = false) :
    pl.asyncEdit ∈ t.gives pending (.leave pl) := by
  simp only [gives]
  rw [hd]
  simp only
  rw [SortedSet.contains_iff_mem.2 hp, ha]
  simp

def atFunction (pl : Place) : Bool := pl.node.kind = .functionDefinition

theorem sublist_async_gives (pending : SortedSet String) (ev : Event) :
    ((t.gives pending ev).filter fun e => e.kind = .async).Sublist
      (((left [ev]).filter atFunction).map Place.asyncEdit) := by
  cases ev with
  | meet pl =>
    have hnone : (t.gives pending (.meet pl)).filter (fun e => e.kind = .async) = [] := by
      rw [List.filter_eq_nil_iff]
      intro e he hk
      obtain ⟨pl', -, hev, -⟩ := of_async_mem_gives he (of_decide_eq_true hk)
      cases hev
    rw [hnone]
    exact List.nil_sublist _
  | leave pl =>
    simp only [gives, Place.defined?]
    by_cases hf : pl.node.kind = .functionDefinition
    · have hat : (left [.leave pl]).filter atFunction = [pl] := by simp [left, atFunction, hf]
      rw [hat, if_pos hf]
      split
      · exact List.nil_sublist _
      · split
        · exact List.nil_sublist _
        · rw [List.filter_append]
          split <;> split <;> simp [Place.asyncEdit, markerEdit]
    · rw [if_neg hf]
      exact List.nil_sublist _

theorem sublist_async_run {es : List Event} (h : t.run es p = .ok p') :
    (p'.edits.filter fun e => e.kind = .async).Sublist
      (p.edits.filter (fun e => e.kind = .async) ++
        ((left es).filter atFunction).map Place.asyncEdit) := by
  induction es generalizing p with
  | nil =>
    cases h
    simp [left]
  | cons ev es ih =>
    obtain ⟨q, hs, h⟩ := exists_of_run_cons h
    have hl : left (ev :: es) = left [ev] ++ left es := by cases ev <;> rfl
    have hih := ih h
    rw [(step_eq hs).1, List.filter_append, List.append_assoc] at hih
    rw [hl, List.filter_append, List.map_append]
    exact hih.trans ((sublist_async_gives p.pending ev).append_right _ |>.append_left _)

end Task

variable {t : Task} {root d : Node} {p : Progress} {module : String}

/-- At one offset `async` is inserted at most once. -/
theorem pairwise_async (h : root.Shaped t.source) (hg : gather t root = .ok p) :
    (p.edits.filter fun e => e.kind = .async).Pairwise fun e f => e.offset ≠ f.offset := by
  rw [gather_eq_run] at hg
  have hsub := Task.sublist_async_run hg
  refine List.Pairwise.sublist hsub ?_
  have hnil : (Progress.start t.plan).edits.filter (fun e => e.kind = .async) = [] := rfl
  rw [hnil, List.nil_append, List.pairwise_map]
  have hleft := (pairwise_left h.nested [] false).sublist
    (List.filter_sublist (p := Task.atFunction))
  refine hleft.imp_of_mem fun {x y} hx hy hb heq => ?_
  obtain ⟨hx, hxk⟩ := List.mem_filter.1 hx
  obtain ⟨hy, hyk⟩ := List.mem_filter.1 hy
  have hxr := node_mem_all hx
  have hyr := node_mem_all hy
  have hsame := function_ext h hxr hyr (of_decide_eq_true hxk) (of_decide_eq_true hyk) heq
  obtain ⟨k, leaf, ho⟩ := exists_opens h hyr (of_decide_eq_true hyk)
  have hn := (h.nested.of_mem_all hyr).1
  rcases hb with hb | hb
  · have hne : x.node ≠ leaf := by
      intro he
      have hkind := ho.kind
      rw [← he, of_decide_eq_true hxk] at hkind
      cases hkind
    have hstop := ho.stop_le_of_mem_inner hn hb hne
    have hfilled := ho.filled
    rw [ho.start] at hfilled
    have heq : x.node.start.byte = y.node.start.byte := heq
    omega
  · have hlt := ho.start_lt_stop hn
    rw [hsame] at hb
    omega

/-- Of two functions of one name that the walk leaves, the first is before the second. -/
theorem stop_le_of_leftBefore (h : root.Lawful t.source)
    (hix : t.index = NameIndex.ofTree t.source module root) {x y : Place} (hy : y.node ∈ root.all)
    (hxk : x.node.kind = .functionDefinition) (hyk : y.node.kind = .functionDefinition)
    (hname : t.index.nameAt? x.node.startLine = t.index.nameAt? y.node.startLine)
    (hb : LeftBefore x y) : x.node.stop.byte ≤ y.node.start.byte := by
  rcases hb with hb | hb
  · rw [hix] at hname
    exact absurd hname (NameIndex.nameAt?_ne_of_mem_inner h hy (Node.isScope_iff.2 (.inl hyk)) hb
      (Node.isScope_iff.2 (.inl hxk)))
  · exact hb

theorem start_lt_stop_of_function (h : root.Shaped t.source) (hd : d ∈ root.all)
    (hdk : d.kind = .functionDefinition) : d.start.byte < d.stop.byte := by
  obtain ⟨k, leaf, ho⟩ := exists_opens h hd hdk
  exact ho.start_lt_stop (h.nested.of_mem_all hd).1

/-- When the walk leaves a function its name is still pending if and only if the function is the
first of its name. -/
theorem mem_pending_iff_isFirst (h : root.Lawful t.source)
    (hix : t.index = NameIndex.ofTree t.source module root) {pl : Place}
    (hk : pl.node.kind = .functionDefinition) {name : String}
    (hname : t.index.nameAt? pl.node.startLine = some name) (hplan : name ∈ t.plan.functions)
    {before after : List Event} (hes : eventsOf [] false root = before ++ .leave pl :: after)
    {q : Progress} (hq : t.run before (.start t.plan) = .ok q) :
    name ∈ q.pending ↔ t.isFirst root pl.node = true := by
  have hpairs := pairwise_left h.nested [] false
  have hpl : pl.node ∈ root.all := by
    have hleave : Event.leave pl ∈ eventsOf [] false root := by
      rw [hes]
      exact List.mem_append_right _ List.mem_cons_self
    exact node_mem_all (mem_left.2 hleave)
  rw [hes, left_append, left] at hpairs
  obtain ⟨-, hafter, hbefore⟩ := List.pairwise_append.1 hpairs
  constructor
  · intro hpending
    refine Task.isFirst_iff.2 fun f hf hfk hfname => ?_
    obtain ⟨plf, hplf, hnode⟩ := exists_left [] false hf
    rw [hes, left_append, left] at hplf
    rcases List.mem_append.1 hplf with hplf | hplf
    · -- A function of that name that was left before would have used it up.
      have hno := ((Task.mem_pending_run hq).1 hpending).2 plf (mem_left.1 hplf)
      exact absurd (Place.defined?_eq_some.2 ⟨hnode ▸ hfk, by rw [hnode, hfname, hname]⟩) hno
    · rcases List.mem_cons.1 hplf with hplf | hplf
      · have heq : pl.node = f := by rw [← hnode, hplf]
        exact Nat.le_of_eq (congrArg (fun x => x.start.byte) heq)
      · have hb := (List.pairwise_cons.1 hafter).1 plf hplf
        have hstop := stop_le_of_leftBefore h hix (hnode ▸ hf) hk (hnode ▸ hfk)
          (by rw [hnode, hfname]) hb
        have hlt := start_lt_stop_of_function h.toShaped hpl hk
        rw [hnode] at hstop
        omega
  · intro hfirst
    refine (Task.mem_pending_run hq).2 ⟨hplan, fun x hx hdefined => ?_⟩
    obtain ⟨hxk, hxname⟩ := Place.defined?_eq_some.1 hdefined
    have hxr : x.node ∈ root.all := by
      have hmem : Event.leave x ∈ eventsOf [] false root := by
        rw [hes]
        exact List.mem_append_left _ hx
      exact node_mem_all (mem_left.2 hmem)
    have hb := hbefore x (mem_left.2 hx) pl List.mem_cons_self
    have hstop := stop_le_of_leftBefore h hix hpl hxk hk (by rw [hxname, hname]) hb
    have hle := Task.isFirst_iff.1 hfirst x.node hxr hxk (hxname.trans hname.symm)
    have hlt := start_lt_stop_of_function h.toShaped hxr hxk
    omega

/-- A function whose name is planned gets `async` if it has none, and it is the first of its
name. -/
theorem exists_async_iff (h : root.Lawful t.source)
    (hix : t.index = NameIndex.ofTree t.source module root) (hg : gather t root = .ok p)
    (hd : d ∈ root.all) (hdk : d.kind = .functionDefinition) {name : String}
    (hname : t.index.nameAt? d.startLine = some name) (hplan : name ∈ t.plan.functions) :
    (∃ e ∈ p.edits, e.kind = .async ∧ e.offset = d.start.byte) ↔
      isAsync d = false ∧ t.isFirst root d = true := by
  rw [gather_eq_run] at hg
  constructor
  · intro hand
    obtain ⟨e, he, hek, heo⟩ := hand
    rcases (Task.mem_edits_run hg).1 he with he | ⟨before, ev, after, q, hes, hq, he⟩
    · cases he
    · obtain ⟨pl, name', rfl, hfun, hname', hpending, ha, rfl⟩ := Task.of_async_mem_gives he hek
      have hleave : Event.leave pl ∈ eventsOf [] false root := by
        rw [hes]
        exact List.mem_append_right _ List.mem_cons_self
      have hsame : pl.node = d :=
        function_ext h.toShaped (node_mem_all (mem_left.2 hleave)) hd hfun hdk heo
      subst hsame
      rw [hname] at hname'
      cases hname'
      exact ⟨ha, (mem_pending_iff_isFirst h hix hfun hname hplan hes hq).1 hpending⟩
  · intro hand
    obtain ⟨ha, hfirst⟩ := hand
    obtain ⟨pl, hpl, rfl⟩ := exists_left [] false hd
    obtain ⟨before, after, hes⟩ := List.append_of_mem (mem_left.1 hpl)
    obtain ⟨q, hq, -⟩ := Task.exists_of_run_append (hes ▸ hg)
    have hpending := (mem_pending_iff_isFirst h hix hdk hname hplan hes hq).2 hfirst
    have hdefined := Place.defined?_eq_some.2 ⟨hdk, hname⟩
    exact ⟨pl.asyncEdit, (Task.mem_edits_run hg).2 (.inr ⟨before, .leave pl, after, q, hes, hq,
      Task.async_mem_gives hdefined hpending ha⟩), rfl, rfl⟩

end AsyncSpread.Rewrite
