import AsyncSpread.Proofs.Rewrite.Prints
import AsyncSpread.Proofs.Rewrite.Woven

/-!
What becomes of a planned name in a module.

A planned name that no function of the module has is reported.  Of each other one the first function
in the text opens with `async` in the rewritten text, and if it is a test there is a marker above
it, which is new just if none of its decorators was taken for the marker (`rewriteTree_settles`).
-/

namespace AsyncSpread.Rewrite

open Python

mutual

theorem mem_left_iff (around : List Node) (first : Bool) (n : Node) {pl : Place} :
    pl ∈ left (eventsOf around first n) ↔ pl ∈ placesIn around first n := by
  obtain ⟨k, p, q, ns⟩ := n
  have hall : pl ∈ left (eventsOfAll (.mk k p q ns :: around) true ns) ↔
      pl ∈ placesInAll (.mk k p q ns :: around) true ns :=
    mem_leftAll_iff _ true ns
  rw [eventsOf, left, left_append, List.mem_append, hall, placesIn, List.mem_cons, or_comm]
  exact or_congr_left List.mem_singleton

theorem mem_leftAll_iff (around : List Node) (first : Bool) (ns : List Node) {pl : Place} :
    pl ∈ left (eventsOfAll around first ns) ↔ pl ∈ placesInAll around first ns := by
  cases ns with
  | nil => exact Iff.rfl
  | cons n ns =>
    rw [eventsOfAll, left_append, List.mem_append, mem_left_iff around first n,
      mem_leftAll_iff around false ns, placesInAll, List.mem_append]

end

variable {t : Task} {root : Node} {p : Progress} {module name : String} {pl : Place} {e : Edit}

/-- A planned function is converted if and only if it is the first of its name. -/
theorem converts_iff_isFirst (h : root.Lawful t.source)
    (hix : t.index = NameIndex.ofTree t.source module root) (hg : gather t root = .ok p)
    (hpl : pl ∈ places root) (hk : pl.node.kind = .functionDefinition)
    (hname : t.index.nameAt? pl.node.startLine = some name) (hplan : name ∈ t.plan.functions) :
    t.converts root pl = true ↔ t.isFirst root pl.node = true := by
  obtain ⟨before, after, hes⟩ :=
    List.append_of_mem (mem_left.1 ((mem_left_iff [] false root).2 hpl))
  have hrun := hg
  rw [gather_eq_run, hes] at hrun
  obtain ⟨q, hq, -⟩ := Task.exists_of_run_append hrun
  have hdefined : pl.defined? t = some name := Place.defined?_eq_some.2 ⟨hk, hname⟩
  exact (mem_pending_iff_converts h.fits hdefined hes hq).symm.trans
    (mem_pending_iff_isFirst h hix hk hname hplan hes hq)

/-- What is inserted where a planned function is left: `async` if it is the first of its name and
has none, and the marker if it is the first of its name and a test without it. -/
theorem declared_leave (h : root.Lawful t.source)
    (hix : t.index = NameIndex.ofTree t.source module root) (hg : gather t root = .ok p)
    (hpl : pl ∈ places root) (hk : pl.node.kind = .functionDefinition)
    (hname : t.index.nameAt? pl.node.startLine = some name) (hplan : name ∈ t.plan.functions) :
    t.declared root (.leave pl) =
      (if t.isFirst root pl.node && !isAsync pl.node then [pl.asyncEdit] else []) ++
      (if t.isFirst root pl.node && t.plan.hasTest name && !pl.decorators.any (isMarker t) then
        [markerEdit t (pl.site t) pl.node] else []) := by
  have hconverts := Bool.eq_iff_iff.2 (converts_iff_isFirst h hix hg hpl hk hname hplan)
  have hdefined : pl.defined? t = some name := Place.defined?_eq_some.2 ⟨hk, hname⟩
  rw [Task.declared, Task.markEdits, Task.marks, hconverts, hdefined, Option.any_some]

/-- The planned names that are left over are those of no function of the text. -/
theorem mem_pending_gather (h : root.Lawful t.source)
    (hix : t.index = NameIndex.ofTree t.source module root) (hg : gather t root = .ok p) :
    name ∈ p.pending ↔ name ∈ t.plan.functions ∧
      ∀ d names, (d, names) ∈ definitionsOf t.source (NameIndex.prefixOf module) root →
        d.kind = .functionDefinition → ".".intercalate names ≠ name := by
  rw [gather_eq_run] at hg
  rw [Task.mem_pending_run hg]
  refine and_congr_right fun _ => ⟨fun hnone d names hd hk heq => ?_,
    fun hnone pl hpl hdefined => ?_⟩
  · have hroot := (sublist_definitionsOf _ root).subset (List.mem_map_of_mem hd)
    obtain ⟨pl, hpl, rfl⟩ := exists_left [] false hroot
    have hname := NameIndex.nameAt?_of_mem h hd
    rw [← hix, heq] at hname
    exact hnone pl (mem_left.1 hpl) (Place.defined?_eq_some.2 ⟨hk, hname⟩)
  · obtain ⟨hk, hname⟩ := Place.defined?_eq_some.1 hdefined
    have hroot := node_mem_all (mem_left.2 hpl)
    have hscope : pl.node.IsScope := Node.isScope_iff.2 (.inl hk)
    obtain ⟨last, names, hd, -⟩ := names_of_mem_all (NameIndex.prefixOf module) hroot hscope
      (NameIndex.isSome_definedName? h hroot hscope)
    rw [hix, NameIndex.nameAt?_of_mem h hd, Option.some.injEq] at hname
    exact hnone _ _ hd hk hname

/-! ## Markers in the rewritten text -/

theorem text_of_decorator (hg : gather t root = .ok p) (he : e ∈ p.insertions t root)
    (hk : e.kind = .decorator) : e.text = t.markerLine e.offset := by
  have he := mem_edits_of_mem_insertions he (by rw [hk]; exact nofun)
  rw [gather_eq_run] at hg
  rcases (Task.mem_edits_run hg).1 he with he | ⟨before, ev, after, q, -, -, he⟩
  · cases he
  · rcases Task.of_mem_gives he with ⟨pl, -, -, rfl | ⟨-, rfl⟩⟩ | ⟨pl, name, -, -, -,
      ⟨-, rfl⟩ | ⟨-, -, rfl⟩⟩
    · cases hk
    · cases hk
    · cases hk
    · rfl

/-- Where a marker is inserted the line with it is found in the rewritten text, behind all that is
inserted before it. -/
theorem begins_markerLine (hn : root.Nested t.source) (hg : gather t root = .ok p)
    (he : e ∈ p.insertions t root) (hk : e.kind = .decorator) :
    t.markerLine e.offset <+:
      Text.dropBytes (Edit.landing (p.insertions t root) e.offset .decorator)
        (Edit.apply t.source (p.insertions t root)) := by
  obtain ⟨before, after, hs, ho⟩ := boundary_of_mem_insertions hn hg he
  obtain ⟨front, happly, hfront⟩ :=
    Edit.exists_apply_eq before after (p.insertions t root) .decorator
  rw [← hs, ← ho] at happly
  rw [← ho] at hfront
  rw [happly, ← hfront, Text.dropBytes_byteLength_append]
  have hsorted := (@pairwise_sortStable Edit Edit.precedes (fun _ _ => Edit.precedes_asymm)
    (fun _ _ _ => Edit.precedes_trans) (p.insertions t root)).filter fun f =>
      !Edit.isBefore e.offset .decorator f
  have hmem {f : Edit} : f ∈ (sortStable Edit.precedes (p.insertions t root)).filter
      (fun f => !Edit.isBefore e.offset .decorator f) ↔
        f ∈ p.insertions t root ∧
          ¬ (f.offset < e.offset ∨ f.offset = e.offset ∧
          f.kind.rank < EditKind.decorator.rank) := by
    rw [List.mem_filter, mem_sortStable, Bool.not_eq_true', Bool.eq_false_iff, ne_eq,
      Edit.isBefore_iff]
  have hin := hmem.2 ⟨he, by rw [hk]; omega⟩
  cases hl : (sortStable Edit.precedes (p.insertions t root)).filter fun f =>
      !Edit.isBefore e.offset .decorator f with
  | nil =>
    rw [hl] at hin
    cases hin
  | cons first es =>
    -- Nothing is written between what comes before the marker and the first marker of the place.
    rw [hl] at hsorted hin
    obtain ⟨hfirst, hnot⟩ := hmem.1 (hl ▸ List.mem_cons_self)
    have hle : first.offset = e.offset ∧ first.kind.rank = EditKind.decorator.rank := by
      rcases List.mem_cons.1 hin with rfl | hin
      · exact ⟨rfl, congrArg EditKind.rank hk⟩
      · have hp := (List.pairwise_cons.1 hsorted).1 e hin
        rw [Bool.eq_false_iff, ne_eq, Edit.precedes_iff, hk] at hp
        omega
    have hkind : first.kind = .decorator := by
      cases hf : first.kind <;> rw [hf] at hle <;> first | rfl | cases hle.2
    rw [Edit.insertAll_cons_of_eq hle.1, text_of_decorator hg hfirst hkind, hle.1]
    exact ⟨_, rfl⟩

/-- Every planned name of a module is settled once.  It is reported just if no function of the text
has it.  Otherwise, of the functions with that name, those open with `async` in the rewritten text
that did so before, and the first one; and if the name is that of a test, the line with the marker
is put above the first one just if none of its decorators was taken for the marker. -/
theorem rewriteTree_settles (h : root.Lawful t.source)
    (hix : t.index = NameIndex.ofTree t.source module root) {r : Rewritten}
    (hr : rewriteTree t root = .ok r) :
    r.madeAsync + r.alreadyAsync + r.unconverted.size = t.plan.functions.size ∧
    (∀ name, name ∈ r.unconverted ↔ name ∈ t.plan.functions ∧
      ∀ d names, (d, names) ∈ definitionsOf t.source (NameIndex.prefixOf module) root →
        d.kind = .functionDefinition → ".".intercalate names ≠ name) ∧
    ∃ p, gather t root = .ok p ∧ r.source = Edit.apply t.source (p.insertions t root) ∧
      p.edits = (eventsOf [] false root).flatMap (t.declared root) ∧
      ∀ pl ∈ places root, pl.node.kind = .functionDefinition →
        ∀ name, t.index.nameAt? pl.node.startLine = some name →
        name ∈ t.plan.functions →
          (Edit.opensAsync t.source (p.insertions t root) pl.node = true ↔
            isAsync pl.node = true ∨ t.isFirst root pl.node = true) ∧
          t.declared root (.leave pl) =
            (if t.isFirst root pl.node && !isAsync pl.node then [pl.asyncEdit] else []) ++
            (if t.isFirst root pl.node && t.plan.hasTest name &&
              !pl.decorators.any (isMarker t) then
              [markerEdit t (pl.site t) pl.node] else []) ∧
          ∀ e ∈ t.declared root (.leave pl), e.kind = .decorator → t.markerLine e.offset <+:
            Text.dropBytes (Edit.landing (p.insertions t root) e.offset .decorator) r.source := by
  obtain ⟨p, hg, rfl⟩ := exists_gather hr
  have hedits := edits_gather h.fits hg
  refine ⟨settled_gather hg, fun name => mem_pending_gather h hix hg, p, hg, rfl, hedits,
    fun pl hpl hk name hname hplan => ⟨?_, declared_leave h hix hg hpl hk hname hplan,
      fun e he hdecorator => ?_⟩⟩
  · have hnode := (node_mem_of_mem_placesOf (placesOf_eq root ▸ hpl)).1
    exact Task.async_prefix_opening (begins_opening h hix hg hnode hk hname hplan)
  · have hleave := mem_left.1 ((mem_left_iff [] false root).2 hpl)
    have hmem : e ∈ p.edits := hedits ▸ List.mem_flatMap.2 ⟨_, hleave, he⟩
    exact begins_markerLine h.nested hg (mem_insertions_of_mem_edits hmem) hdecorator

/-- A decorator that goes on behind a backslash is not taken for the marker, and the test gets a
second one. -/
example : (asyncify "@\\\npytest.mark.asyncio\ndef test_a(): pass\n".toList "m"
    (Plan.empty.addTest "m.test_a")
    .standard).toOption.map (fun r => (r.madeAsync, r.marked)) = some (1, 1) := by decide +kernel

end AsyncSpread.Rewrite
