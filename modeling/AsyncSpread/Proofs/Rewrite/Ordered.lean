import AsyncSpread.Proofs.Rewrite.Layout

/-!
The order of the insertions in a tree.

In a tree whose nodes fit each insertion of the layout is written before the next
(`pairwise_layoutNode`): of what begins together the outer one is first, of what ends together the
inner one, and the line that imports the marker is before all else at its offset.
-/

namespace AsyncSpread.Rewrite

open Python

variable {t : Task} {root : Node} {line? : Option Edit} {around : List Node} {first : Bool}
  {source : List Char} {e : Edit}

/-- One insertion is written before another, or they are the same. -/
def Edit.Ordered (a b : Edit) : Prop := precedes a b = true ∨ a = b

theorem Edit.ordered_of_lt {a b : Edit} (h : a.offset < b.offset) :
    a.Ordered b := .inl (precedes_iff.2 (.inl h))

theorem Edit.ordered_of_rank {a b : Edit} (hle : a.offset ≤ b.offset)
    (hr : a.offset = b.offset → a.kind.rank < b.kind.rank) : a.Ordered b := by
  refine .inl (precedes_iff.2 ?_)
  by_cases h : a.offset = b.offset
  · exact .inr ⟨h, .inl (hr h)⟩
  · exact .inl (by omega)

theorem Edit.Within.ordered {a b c : Nat} {f : Edit} (h : e.Within a b) (h' : f.Within b c) :
    e.Ordered f := by
  unfold Within at h h'
  exact ordered_of_rank (by omega) (by omega)

theorem Edit.signed_eq {n : Int} (h1 : -0x8000000000000000 ≤ n) (h2 : n < 0x8000000000000000) :
    signed n = n := by
  unfold signed
  refine Int.bmod_eq_of_le ?_ ?_
  · omega
  · omega

theorem Edit.DeepAs.level_eq {d : Nat} (h : e.DeepAs d) :
    e.level = if e.kind = .close then -(e.depth : Int) else e.depth := by
  have hlt : e.depth < 0x8000000000000000 := h.2
  have hdepth : signed e.depth = e.depth := signed_eq (by omega) (by omega)
  unfold level
  split
  · rw [hdepth]
    exact signed_eq (by omega) (by omega)
  · exact hdepth

/-- Of two calls that begin together the outer one is written first. -/
theorem ordered_of_await {f : Edit} {d : Nat} (ho : e.offset = f.offset) (he : e.kind = .await)
    (hf : f.kind = .await) (hd : e.depth = d) (hd' : e.DeepAs d) (hlt : f.DeepAs (d + 1)) :
    e.Ordered f := by
  have hle := hlt.1
  refine .inl (Edit.precedes_iff.2 (.inr ⟨ho, .inr ⟨by rw [he, hf], ?_⟩⟩))
  rw [hd'.level_eq, hlt.level_eq, if_neg (by rw [he]; exact nofun),
    if_neg (by rw [hf]; exact nofun)]
  omega

/-- Of two calls that end together the inner one is written first. -/
theorem ordered_of_close {f : Edit} {d : Nat} (ho : e.offset = f.offset) (he : e.kind = .close)
    (hf : f.kind = .close) (hlt : e.DeepAs (d + 1)) (hd : f.depth = d) (hd' : f.DeepAs d) :
    e.Ordered f := by
  have hle := hlt.1
  refine .inl (Edit.precedes_iff.2 (.inr ⟨ho, .inr ⟨by rw [he, hf], ?_⟩⟩))
  rw [hd'.level_eq, hlt.level_eq, if_pos he, if_pos hf]
  omega

/-! ## In front of a node -/

theorem pairwise_ite {c : Bool} {e : Edit} :
    (if c = true then [e] else []).Pairwise Edit.Ordered := by
  cases c
  · exact .nil
  · exact List.pairwise_singleton _ _

theorem eq_of_mem_ite {c : Bool} {e f : Edit} (h : f ∈ if c = true then [e] else []) : f = e := by
  cases c
  · cases h
  · exact List.mem_singleton.1 h

theorem pairwise_frontEdits (t : Task) (root : Node) (pl : Place) :
    (t.frontEdits root pl).Pairwise Edit.Ordered := by
  have hmark {e : Edit} (h : e ∈ if pl.decorators.isEmpty then t.markEdits root pl else []) :
      e.kind = .decorator := by
    split at h
    · rw [(mem_markEdits.1 h).2]
      rfl
    · cases h
  have hfront {e f : Edit} (he : e ∈ t.frontEdits root pl) (hf : f ∈ t.frontEdits root pl)
      (hr : e.kind.rank < f.kind.rank) : e.Ordered f := by
    obtain ⟨-, ho, -⟩ := opens_of_mem_frontEdits he
    obtain ⟨-, ho', -⟩ := opens_of_mem_frontEdits hf
    exact Edit.ordered_of_rank (by omega) fun _ => hr
  unfold Task.frontEdits at hfront ⊢
  -- A marker, `async` and `await` stand at one offset, in the order of their ranks.
  refine List.pairwise_append.2 ⟨List.pairwise_append.2 ⟨?_, pairwise_ite, fun e he f hf => ?_⟩,
    pairwise_ite, fun e he f hf => ?_⟩
  · split
    · exact pairwise_ite
    · exact .nil
  · refine hfront (List.mem_append_left _ (List.mem_append_left _ he))
      (List.mem_append_left _ (List.mem_append_right _ hf)) ?_
    rw [hmark he, eq_of_mem_ite hf]
    show 2 < 3
    omega
  · refine hfront (List.mem_append_left _ he) (List.mem_append_right _ hf) ?_
    rw [eq_of_mem_ite hf]
    rcases List.mem_append.1 he with he | he
    · rw [hmark he]
      show 2 < 4
      omega
    · rw [eq_of_mem_ite he]
      show 3 < 4
      omega

/-- What is written inside an opener at its very beginning awaits a call in a call. -/
theorem await_of_start_eq {xs : List Node} {n : Node} {d a b : Nat} (hf : n.Fits source)
    (hn : n.isOpener = true) (hxs : xs ⊆ n.inner) (h : Arises line? xs d a b e)
    (ha : n.start.byte ≤ a) (ho : e.offset = n.start.byte) :
    n.kind = .call ∧ e.kind = .await ∧ e.DeepAs d := by
  rcases h with ⟨x, hx, hxo, he, -, hk, hd⟩ | ⟨x, hx, hxo, he, -, -⟩ | ⟨-, hlt, -⟩
  · have heq : n.start.byte = x.start.byte := by omega
    obtain ⟨hcall, hxcall⟩ := hf.apart n (Node.mem_all_self n) hn x (hxs hx) hxo heq
    exact ⟨hcall, hk.2 hxcall, hd⟩
  · have hmem := Node.mem_all_of_mem_inner (hxs hx)
    have hlt := hf.filled x hmem hxo
    obtain ⟨-, hstart, -⟩ := hf.nested.of_mem_all hmem
    have hle := hstart.byte_le
    omega
  · omega

/-- Nothing is written in front of a decorator but what is above it. -/
theorem frontEdits_decorator (t : Task) (root : Node) (pl : Place)
    (hk : pl.node.kind = .decorator) : t.frontEdits root pl = [] ∧ t.behindEdits pl = [] := by
  constructor
  · refine List.eq_nil_iff_forall_not_mem.2 fun e he => ?_
    rcases mem_frontEdits.1 he with ⟨-, hm, -⟩ | ⟨hc, -⟩ | ⟨hw, -⟩
    · have hfun := kind_of_converts (converts_of_marks hm)
      rw [hk] at hfun
      cases hfun
    · have hfun := kind_of_converts hc
      rw [hk] at hfun
      cases hfun
    · have hcall := kind_of_wraps hw
      rw [hk] at hcall
      cases hcall
  · refine List.eq_nil_iff_forall_not_mem.2 fun e he => ?_
    have hcall := kind_of_wraps (mem_behindEdits.1 he).1
    rw [hk] at hcall
    cases hcall

/-! ## The whole tree -/

section

variable (hline : ∀ e ∈ line?, e.kind = .importLine ∧ Text.BeginsLine source e.offset)

include hline

/-- What stands in a decorator is behind its beginning. -/
theorem start_lt_of_decorator {n : Node} (hf : n.Fits source)
    (hdeep : around.length + n.height ≤ depthLimit) (hk : n.kind = .decorator)
    (h : e ∈ t.layoutNode root line? around first n) : n.start.byte < e.offset := by
  have hwithin := within_layoutNode hf hdeep (fun e he => (hline e he).1) h
  obtain ⟨k, p, q, ns⟩ := n
  obtain ⟨hfront, hbehind⟩ := frontEdits_decorator t root ⟨.mk k p q ns, around, first⟩ hk
  rw [Task.layoutNode, hfront, hbehind, List.nil_append, List.append_nil] at h
  rw [Node.height] at hdeep
  have hall := of_mem_layoutAll t root line? (.mk k p q ns :: around) true hf.nested.laid
    (fun m hm => (hf.child hm).nested) (by rw [List.length_cons, Node.children_mk]; omega)
    (above_aboveEdits t root (.mk k p q ns) around) h
  refine Nat.lt_of_le_of_ne hwithin.le.1 fun heq => ?_
  obtain ⟨hcall, -⟩ :=
    await_of_start_eq hf (isOpener_of_decorator hk) (List.Subset.refl _) hall
      (Nat.le_refl _) heq.symm
  rw [hk] at hcall
  cases hcall

/-- The insertions in front of a call are written before those in it, and those behind it after
them. -/
theorem pairwise_around {n : Node} (hf : n.Fits source)
    (hdeep : around.length + n.height ≤ depthLimit)
    (hbuilt : Place.builtOn ⟨n, around, first⟩ = true → n.kind = .call →
      ¬ Text.BeginsLine source n.stop.byte)
    {inside : List Edit} (hinside : inside.Pairwise Edit.Ordered)
    (hin : ∀ e ∈ inside, Arises line? n.inner (around.length + 1) n.start.byte n.stop.byte e) :
    (t.frontEdits root ⟨n, around, first⟩ ++ inside ++ t.behindEdits ⟨n, around, first⟩).Pairwise
      Edit.Ordered := by
  have hheight := n.height_pos
  have hlimit : around.length < depthLimit := by omega
  have hwithin {e : Edit} (he : e ∈ inside) : e.Within n.start.byte n.stop.byte := by
    refine (hin e he).within (fun x hx => ?_) fun e he => (hline e he).1
    obtain ⟨-, hstart, hstop⟩ := hf.nested.of_mem_inner hx
    exact ⟨hstart.byte_le, hstop.byte_le, hf.filled x (Node.mem_all_of_mem_inner hx)⟩
  refine List.pairwise_append.2 ⟨List.pairwise_append.2 ⟨pairwise_frontEdits t root _, hinside,
    fun e he f hf' => ?_⟩, ?_, fun e he f hf' => ?_⟩
  · obtain ⟨hopener, ho, -, hk, hd⟩ := opens_of_mem_frontEdits he
    by_cases heq : f.offset = n.start.byte
    · -- What opens inside together with the node is a call in a call.
      obtain ⟨hcall, hawait, hdeep'⟩ :=
        await_of_start_eq hf hopener (List.Subset.refl _) (hin f hf') (Nat.le_refl _) heq
      exact ordered_of_await (ho.trans heq.symm) (hk.2 hcall) hawait hd
        ⟨Nat.le_of_eq hd.symm, by rw [hd]; exact hlimit⟩ hdeep'
    · refine Edit.ordered_of_lt ?_
      rw [ho]
      exact Nat.lt_of_le_of_ne (hwithin hf').le.1 (Ne.symm heq)
  · unfold Task.behindEdits
    exact pairwise_ite
  · obtain ⟨hwraps, hb, rfl⟩ := mem_behindEdits.1 hf'
    have hcall : n.kind = .call := kind_of_wraps hwraps
    have hfilled := hf.filled n (Node.mem_all_self n) (isOpener_of_call hcall)
    rcases List.mem_append.1 he with he | he
    · obtain ⟨-, ho, -⟩ := opens_of_mem_frontEdits he
      refine Edit.ordered_of_lt ?_
      rw [ho]
      exact hfilled
    · by_cases heq : e.offset = n.stop.byte
      · -- At the end of a call nothing opens and no line begins, so it is the end of a call inside.
        rcases hin e he with ⟨x, hx, hxo, hxe, -⟩ | ⟨x, -, -, -, hk, hd⟩ | ⟨hmem, -⟩
        · have hxall := Node.mem_all_of_mem_inner hx
          have hlt := hf.filled x hxall hxo
          have hstop := (hf.nested.of_mem_all hxall).2.2.byte_le
          omega
        · exact ordered_of_close heq hk rfl hd rfl ⟨Nat.le_refl _, hlimit⟩
        · have hbegins := (hline e hmem).2
          rw [heq] at hbegins
          exact absurd hbegins (hbuilt hb hcall)
      · exact Edit.ordered_of_lt (Nat.lt_of_le_of_ne (hwithin he).le.2 heq)

/-- What is above a decorator, what is in it and what is behind it follow each other, and so without
a decorator. -/
theorem pairwise_beside {n : Node} {a : Nat} {lines rest : List Edit} {b : Nat} (hf : n.Fits source)
    (hdeep : around.length + n.height ≤ depthLimit)
    (hlines : n.kind = .decorator → ∀ e ∈ lines, e.kind = .decorator ∧ e.offset = n.start.byte)
    (hsame : ∀ e ∈ lines, ∀ f ∈ lines, e = f)
    (hin : (t.layoutNode root line? around first n).Pairwise Edit.Ordered)
    (hrest : rest.Pairwise Edit.Ordered) (hbehind : ∀ e ∈ rest, e.Within n.stop.byte b) :
    (Task.gapEdits line? a n.start.byte ++ (if n.kind = .decorator then lines else []) ++
      t.layoutNode root line? around first n ++ rest).Pairwise Edit.Ordered := by
  have hspan : n.start.byte ≤ n.stop.byte := hf.nested.span.byte_le
  have hgap {e : Edit} (h : e ∈ Task.gapEdits line? a n.start.byte) : e.Within a n.start.byte :=
    (mem_gapEdits.1 h).within fun e he => (hline e he).1
  have habove {e : Edit} (h : e ∈ if n.kind = .decorator then lines else []) :
      n.kind = .decorator ∧ e ∈ lines ∧ e.offset = n.start.byte ∧
        e.Within n.start.byte n.stop.byte := by
    by_cases hk : n.kind = .decorator
    · rw [if_pos hk] at h
      obtain ⟨hkind, ho⟩ := hlines hk e h
      have hfilled := hf.filled n (Node.mem_all_self n) (isOpener_of_decorator hk)
      refine ⟨hk, h, ho, .inl ⟨?_, Nat.le_of_eq ho.symm, by omega⟩⟩
      rw [hkind]
      exact Nat.le_refl 2
    · rw [if_neg hk] at h
      cases h
  have hinside {e : Edit} (h : e ∈ t.layoutNode root line? around first n) :
      e.Within n.start.byte n.stop.byte :=
    within_layoutNode hf hdeep (fun e he => (hline e he).1) h
  have hone : (Task.gapEdits line? a n.start.byte).Pairwise Edit.Ordered := by
    unfold Task.gapEdits
    refine List.Pairwise.filter _ ?_
    cases line?
    · exact .nil
    · exact List.pairwise_singleton _ _
  -- The gap, the lines above a decorator, the node and what is behind it meet only at their ends.
  refine List.pairwise_append.2 ⟨List.pairwise_append.2 ⟨List.pairwise_append.2 ⟨hone, ?_, ?_⟩, hin,
    ?_⟩, hrest, ?_⟩
  · exact List.pairwise_of_forall_mem_list fun e he f hf' =>
      .inr (hsame e (habove he).2.1 f (habove hf').2.1)
  · intro e he f hf'
    exact (hgap he).ordered (habove hf').2.2.2
  · intro e he f hf'
    rcases List.mem_append.1 he with he | he
    · exact (hgap he).ordered (hinside hf')
    · obtain ⟨hk, -, ho, -⟩ := habove he
      refine Edit.ordered_of_lt ?_
      rw [ho]
      exact start_lt_of_decorator hline hf hdeep hk hf'
  · intro e he f hf'
    rcases List.mem_append.1 he with he | he
    · rcases List.mem_append.1 he with he | he
      · exact (hgap he).ordered ((hbehind f hf').mono hspan (Nat.le_refl _))
      · exact (habove he).2.2.2.ordered (hbehind f hf')
    · exact (hinside he).ordered (hbehind f hf')

mutual

theorem pairwise_layoutNode (t : Task) (root : Node) (around : List Node) (first : Bool) {n : Node}
    (hf : n.Fits source) (hdeep : around.length + n.height ≤ depthLimit)
    (hbuilt : Place.builtOn ⟨n, around, first⟩ = true → n.kind = .call →
      ¬ Text.BeginsLine source n.stop.byte) :
    (t.layoutNode root line? around first n).Pairwise Edit.Ordered := by
  obtain ⟨k, p, q, ns⟩ := n
  have hinner : (Node.mk k p q ns :: around).length + Node.heightOf ns ≤ depthLimit := by
    rw [Node.height] at hdeep
    rw [List.length_cons]
    omega
  have habove := above_aboveEdits t root (.mk k p q ns) around
  rw [Task.layoutNode]
  refine pairwise_around hline hf hdeep hbuilt ?_ fun e he => ?_
  · refine pairwise_layoutAll t root (.mk k p q ns :: around) true hf.nested.laid
      (fun m hm => hf.child hm) hinner habove ?_ ?_
    · intro e he f hf'
      obtain ⟨d, ds, -, hd, -, rfl⟩ := of_mem_aboveEdits he
      obtain ⟨d', ds', -, hd', -, rfl⟩ := of_mem_aboveEdits hf'
      rw [hd] at hd'
      cases hd'
      rfl
    · intro m hm hb hcall
      have hkind : k = .attribute ∨ k = .subscript ∨ k = .call := by
        have hb : (decide (k = .attribute) || decide (k = .subscript) || decide (k = .call)) =
          true := hb
        simpa only [Bool.or_eq_true, decide_eq_true_eq, or_assoc] using hb
      exact hf.within _ (Node.mem_all_self _) hkind m hm hcall
  · exact of_mem_layoutAll t root line? (.mk k p q ns :: around) true hf.nested.laid
      (fun m hm => (hf.child hm).nested) hinner habove he

theorem pairwise_layoutAll (t : Task) (root : Node) (around : List Node) (first : Bool) {a b : Pos}
    {lines : List Edit} {ns : List Node} (hl : Laid source a (ns.map Node.span) b)
    (hns : ∀ n ∈ ns, n.Fits source) (hdeep : around.length + Node.heightOf ns ≤ depthLimit)
    (habove : Above ns around.length lines) (hsame : ∀ e ∈ lines, ∀ f ∈ lines, e = f)
    (hbuilt : ∀ n ∈ ns.head?, Place.builtOn ⟨n, around, first⟩ = true → n.kind = .call →
      ¬ Text.BeginsLine source n.stop.byte) :
    (t.layoutAll root line? around first a.byte b.byte lines ns).Pairwise Edit.Ordered := by
  cases ns with
  | nil =>
    rw [Task.layoutAll]
    unfold Task.gapEdits
    refine List.Pairwise.filter _ ?_
    cases line?
    · exact .nil
    · exact List.pairwise_singleton _ _
  | cons n ns =>
    obtain ⟨h1, h2, h3⟩ := hl
    have hrest : ∀ m ∈ ns, m.Fits source := fun m hm => hns m (List.mem_cons_of_mem _ hm)
    rw [Node.heightOf] at hdeep
    have hdeep' : around.length + Node.heightOf ns ≤ depthLimit := by omega
    rw [Task.layoutAll]
    refine pairwise_beside (b := b.byte) hline (hns n List.mem_cons_self) (by omega)
      (fun hk e he => ⟨(habove e he).1, habove.head hk he⟩) hsame ?_ ?_ fun e he => ?_
    · exact pairwise_layoutNode t root around first (hns n List.mem_cons_self) (by omega)
        (hbuilt n rfl)
    · refine pairwise_layoutAll t root around false h3 hrest hdeep' habove.tail ?_ ?_
      · intro e he f hf'
        by_cases hk : n.kind = .decorator
        · rw [if_pos hk] at he
          cases he
        · rw [if_neg hk] at he hf'
          exact hsame e he f hf'
      · intro m _ hb
        cases around <;> cases hb
    · exact within_layoutAll h3 hrest hdeep' habove.tail (fun e he => (hline e he).1) he

end

end

end AsyncSpread.Rewrite
