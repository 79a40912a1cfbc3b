import Mathlib.Data.List.Chain
import AsyncSpread.Proofs.Rewrite.Layout

/-!
Which function a call is charged to.

A call is looked up under the nearest function around it.  That need not be the one that evaluates
the call: a function is also charged with what stands in its header, in lambdas and in the bodies of
classes in it (`charged_of_wraps`).  Where none of these holds a call, the function evaluates all
calls that are awaited in its name (`isOwn_of_charged`).
-/

namespace AsyncSpread

open Python

namespace Rewrite

/-! ## The nodes around a place -/

def IsChild (x y : Node) : Prop := x ∈ y.children

mutual

theorem isChain_placesIn {around : List Node} {first : Bool} {n : Node}
    (h : (n :: around).IsChain IsChild) :
    ∀ pl ∈ placesIn around first n, (pl.node :: pl.around).IsChain IsChild := by
  obtain ⟨k, p, q, ns⟩ := n
  intro pl hpl
  rw [placesIn] at hpl
  rcases List.mem_cons.1 hpl with rfl | hpl
  · exact h
  · refine isChain_placesInAll (fun n hn => ?_) pl hpl
    exact List.isChain_cons_cons.2 ⟨hn, h⟩

theorem isChain_placesInAll {around : List Node} {first : Bool} {ns : List Node}
    (h : ∀ n ∈ ns, (n :: around).IsChain IsChild) :
    ∀ pl ∈ placesInAll around first ns, (pl.node :: pl.around).IsChain IsChild := by
  cases ns with
  | nil => exact nofun
  | cons n ns =>
    intro pl hpl
    rw [placesInAll] at hpl
    rcases List.mem_append.1 hpl with hpl | hpl
    · exact isChain_placesIn (h n List.mem_cons_self) pl hpl
    · exact isChain_placesInAll (fun m hm => h m (List.mem_cons_of_mem _ hm)) pl hpl

end

variable {t : Task} {root d : Node} {pl : Place}

theorem isChain_around (h : pl ∈ places root) : (pl.node :: pl.around).IsChain IsChild :=
  isChain_placesIn (.singleton root) pl h

theorem pairwise_inner_around (h : pl ∈ places root) :
    (pl.node :: pl.around).Pairwise fun x y => x ∈ y.inner := by
  have hinner {x y : Node} (hxy : IsChild x y) : x ∈ y.inner :=
    Node.mem_allOf.2 ⟨x, hxy, x.mem_all_self⟩
  have htrans : IsTrans Node fun x y => x ∈ y.inner :=
    ⟨fun _ _ _ hxy hyz => Node.mem_allOf_trans hyz hxy⟩
  exact List.isChain_iff_pairwise.1 ((isChain_around h).imp fun _ _ => hinner)

namespace Place

/-- The way from a place up to the nearest function around it. -/
def way (pl : Place) : List Node :=
  pl.node :: pl.around.takeWhile fun n => n.kind ≠ .functionDefinition

/-- The part of the nearest function that a place lies in. -/
def entry (pl : Place) : Node := pl.way.getLast (List.cons_ne_nil _ _)

/-- Whether the nearest function itself evaluates what stands at a place: it stands in the body, and
in no lambda and no class. -/
def isOwn (pl : Place) : Bool :=
  pl.entry.kind = .block && pl.way.all fun n => n.kind ≠ .lambda && n.kind ≠ .classDefinition

theorem dropLast_way (pl : Place) :
    pl.way.dropLast ++ [pl.entry] = pl.way := List.dropLast_concat_getLast _

theorem kind_of_function? (h : pl.function? = some d) : d.kind = .functionDefinition := by
  have hkind := List.find?_some h
  exact of_decide_eq_true hkind

theorem exists_above (h : pl.function? = some d) :
    ∃ above, pl.node :: pl.around = pl.way ++ d :: above := by
  obtain ⟨hd, below, above, haround, hbelow⟩ := List.find?_eq_some_iff_append.1 h
  refine ⟨above, ?_⟩
  have hstop : (d :: above).takeWhile (fun n => n.kind ≠ .functionDefinition) = [] := by
    rw [List.takeWhile_cons, if_neg (by simpa using hd)]
  have hway : pl.around.takeWhile (fun n => n.kind ≠ .functionDefinition) = below := by
    rw [haround, List.takeWhile_append_of_pos (by simpa using hbelow), hstop, List.append_nil]
  rw [way, hway, haround, List.cons_append]

section

variable (hpl : pl ∈ places root) (hd : pl.function? = some d)

include hpl hd

theorem mem_all_of_function? : d ∈ root.all := by
  rw [← placesOf_eq] at hpl
  exact (node_mem_of_mem_placesOf hpl).2 d (List.mem_of_find?_eq_some hd)

theorem entry_mem_children : pl.entry ∈ d.children := by
  obtain ⟨above, habove⟩ := exists_above hd
  have hchain := isChain_around hpl
  rw [habove, ← dropLast_way, List.append_assoc] at hchain
  exact (List.isChain_cons_cons.1 hchain.right_of_append).1

theorem mem_inner_of_mem_way {n : Node} (hn : n ∈ pl.way) : n ∈ d.inner := by
  obtain ⟨above, habove⟩ := exists_above hd
  have hpairs := pairwise_inner_around hpl
  rw [habove] at hpairs
  exact (List.pairwise_append.1 hpairs).2.2 n hn d List.mem_cons_self

theorem mem_inner_of_way {inside outside : List Node} {l n : Node}
    (h : pl.way = inside ++ l :: outside) (hn : n ∈ inside) : n ∈ l.inner := by
  obtain ⟨above, habove⟩ := exists_above hd
  have hpairs := pairwise_inner_around hpl
  rw [habove, h, List.append_assoc, List.cons_append] at hpairs
  exact (List.pairwise_append.1 hpairs).2.2 n hn l List.mem_cons_self

end

end Place

/-! ## Awaited calls -/

/-- A call is charged to a function: it is planned under its name, stands in one of its parts, and
what lies between opens no scope in a header or in a lambda. -/
structure Charged (t : Task) (pl : Place) (d : Node) : Prop where
  function : pl.function? = some d
  planned : ∃ caller literal, t.index.nameAt? d.startLine = some caller ∧
    literalOf t.source pl.node = .ok literal ∧ t.plan.hasCall caller literal = true
  part : pl.entry ∈ d.children ∧ pl.entry.kind ∈ functionParts
  header : pl.entry.kind ≠ .block → ∀ n ∈ pl.way, n.kind.scope? = none
  lambda : ∀ inside l outside, pl.way = inside ++ l :: outside → l.kind = .lambda →
    ∀ n ∈ inside, n.kind.scope? = none

/-- A call in a function lies in its type parameters, its parameters, its annotation or its body. -/
theorem kind_entry (h : root.Lawful t.source) (hpl : pl ∈ places root) (hk : pl.node.kind = .call)
    (hd : pl.function? = some d) : pl.entry.kind ∈ functionParts := by
  have hdmem := Place.mem_all_of_function? hpl hd
  have hentry := Place.entry_mem_children hpl hd
  have hmem : pl.entry ∈ root.all := Node.mem_all_of_child hdmem hentry
  -- Neither trivia nor a leaf has a call in it, or is one.
  have hinner : pl.entry.inner ≠ [] := by
    have hway := pl.dropLast_way
    cases hdrop : pl.way.dropLast with
    | nil =>
      rw [hdrop] at hway
      have hnode : pl.entry = pl.node := (List.cons.inj hway).1
      obtain ⟨x, hx, -⟩ := exists_closing h.toShaped (hnode ▸ hmem) hk
      rw [hnode]
      exact List.ne_nil_of_mem hx
    | cons n rest =>
      rw [hdrop] at hway
      exact List.ne_nil_of_mem (Place.mem_inner_of_way hpl hd hway.symm List.mem_cons_self)
  have hchildren : pl.entry.children ≠ [] := by
    intro hnil
    rw [Node.inner, hnil] at hinner
    exact hinner rfl
  rcases h.parts d hdmem (Place.kind_of_function? hd) pl.entry hentry with htrivia | hleaf | hkind
  · exact absurd (h.trivia pl.entry hmem htrivia) hchildren
  · exact absurd hleaf hchildren
  · exact hkind

theorem charged_of_wraps (h : root.Lawful t.source) (hpl : pl ∈ places root)
    (hw : t.wraps pl = true) : ∃ d ∈ root.all, Charged t pl d := by
  obtain ⟨hcounts, caller, literal, hcaller, hliteral, hcall⟩ := Task.wraps_iff.1 hw
  obtain ⟨d, hd, hname⟩ := Option.bind_eq_some_iff.1 hcaller
  have hdmem := Place.mem_all_of_function? hpl hd
  have hpart := kind_entry h hpl (kind_of_wraps hw) hd
  have hentry := Place.entry_mem_children hpl hd
  have hinnermem {n : Node} (hn : n ∈ pl.way) : n ∈ root.all :=
    Node.mem_all_trans hdmem (Place.mem_inner_of_mem_way hpl hd hn)
  refine ⟨d, hdmem, hd, ⟨caller, literal, hname, hliteral, hcall⟩, ⟨hentry, hpart⟩,
    fun hne n hn => ?_, fun inside l outside hway hl n hn => ?_⟩
  · have hplain := mem_plainKinds_of_ne_block hpart hne
    rw [← pl.dropLast_way] at hn
    rcases List.mem_append.1 hn with hn | hn
    · have hin := Place.mem_inner_of_way hpl hd pl.dropLast_way.symm hn
      exact h.plain _ (hinnermem (List.getLast_mem _)) hplain n hin
    · rw [List.mem_singleton.1 hn]
      exact scope?_of_mem_plainKinds hplain
  · have hplain : l.kind ∈ plainKinds := by
      rw [hl]
      decide
    have hlmem : l ∈ pl.way := by
      rw [hway]
      exact List.mem_append_right _ List.mem_cons_self
    exact h.plain l (hinnermem hlmem) hplain n (Place.mem_inner_of_way hpl hd hway hn)

/-- A function with no calls in its header, in lambdas or in classes. -/
structure Unmixed (d : Node) : Prop where
  header : ∀ c ∈ d.children, c.kind ≠ .block → ∀ x ∈ c.all, x.kind ≠ .call
  body : ∀ l ∈ d.inner, l.kind = .lambda ∨ l.kind = .classDefinition → ∀ x ∈ l.inner, x.kind ≠ .call

/-- Such a function evaluates all calls that are awaited in its name. -/
theorem isOwn_of_charged (hpl : pl ∈ places root) (hk : pl.node.kind = .call)
    (hcharged : Charged t pl d) (hd : Unmixed d) : pl.isOwn = true := by
  -- What the call stands in on the way to the function has it inside.
  have hholds {inside outside : List Node} {l : Node} (hway : pl.way = inside ++ l :: outside)
      (hne : pl.node ≠ l) : pl.node ∈ l.inner := by
    refine Place.mem_inner_of_way hpl hcharged.function hway ?_
    cases inside with
    | nil => exact absurd (List.cons.inj hway).1 hne
    | cons n inside =>
      rw [(List.cons.inj hway).1]
      exact List.mem_cons_self
  rw [Place.isOwn, Bool.and_eq_true, decide_eq_true_eq, List.all_eq_true]
  refine ⟨Classical.byContradiction fun hblock => ?_, fun l hl => ?_⟩
  · refine hd.header pl.entry hcharged.part.1 hblock pl.node ?_ hk
    by_cases hne : pl.node = pl.entry
    · rw [← hne]
      exact Node.mem_all_self _
    · exact Node.mem_all_of_mem_inner (hholds pl.dropLast_way.symm hne)
  · obtain ⟨inside, outside, hway⟩ := List.append_of_mem hl
    have hno (hkind : l.kind = .lambda ∨ l.kind = .classDefinition) : False := by
      refine hd.body l (Place.mem_inner_of_mem_way hpl hcharged.function hl) hkind pl.node
        (hholds hway ?_) hk
      rintro rfl
      rw [hk] at hkind
      simp at hkind
    simpa using hno

end Rewrite

open Rewrite

/-- The calls that a text is rewritten to await are charged each to the nearest function around it,
and an unmixed function evaluates those that are charged to it. -/
theorem asyncify_charges [Parser] [LawfulParser] {source : List Char} {module : String}
    {plan : Plan} {config : Config} {r : Rewritten}
    (hr : asyncify source module plan config = .ok r) :
    ∃ root p, parse source = .ok root ∧
      gather (taskOf source module plan config root) root = .ok p ∧
      r.source = Edit.apply source (p.insertions (taskOf source module plan config root) root) ∧
      (p.insertions (taskOf source module plan config root) root).filter Task.awaits =
        ((places root).filter (taskOf source module plan config root).wraps).flatMap
          (fun pl => awaitEdits (pl.site (taskOf source module plan config root)) pl.node) ∧
      ∀ pl ∈ places root, (taskOf source module plan config root).wraps pl = true →
        ∃ d ∈ root.all, Charged (taskOf source module plan config root) pl d ∧
          (Unmixed d → pl.isOwn = true) := by
  obtain ⟨root, hparse, htree⟩ := asyncify_eq_ok hr
  unfold rewriteTree at htree
  split at htree
  · cases htree
  · rename_i p hg
    cases htree
    refine ⟨root, p, hparse, hg, rfl, (filter_awaits_insertions hg).1, fun pl hpl hw => ?_⟩
    obtain ⟨d, hd, hcharged⟩ :=
      charged_of_wraps (t := taskOf source module plan config root) (lawful_of_parse hparse) hpl hw
    exact ⟨d, hd, hcharged, isOwn_of_charged hpl (kind_of_wraps hw) hcharged⟩

def caterer : List Char := "def serve(dish=cook()):\n    return lambda: cook()\n".toList

-- Both calls are charged to it, though it evaluates neither.
example : (asyncify caterer "m" ((Plan.empty.addFunction "m.serve").addCall "m.serve" "cook")
    .standard).toOption.map
    Rewritten.source =
      some "async def serve(dish=await cook()):\n    return lambda: await cook()\n".toList := by
  decide +kernel

end AsyncSpread
