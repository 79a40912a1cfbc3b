import AsyncSpread.Proofs.Plan.Made

/-!
A plan narrowed to a module, and the parts of the module in a plan that is split.

Narrowing tests a name from its left end, while a split cuts the name from its right end and takes
the first module that is listed. The two agree since the owner of a name is the longest listed
module that it lies in: a name lies in a listed module just if its owner is that module or lies
below it (`exists_isOwner_iff`).  So a plan narrowed to a listed module is what the module's own
part and the parts of the modules below it have together (`inModule_eq_merged`).
-/

namespace AsyncSpread

variable {modules : List String} {module name : String}

def isAtOrBelow (module other : String) : Bool := other == module || (within? module other).isSome

theorem isAtOrBelow_iff {other : String} :
    isAtOrBelow module other = true ↔ other = module ∨ ∃ inner, other = below module inner := by
  rw [isAtOrBelow, Bool.or_eq_true, beq_iff_eq, Option.isSome_iff_exists]
  simp only [within?_eq_some_iff]

theorem inModule_iff (h : module ≠ "") :
    inModule module name = true ↔ ∃ inner, name = below module inner := by
  rw [inModule, Bool.or_eq_true, String.isEmpty_iff, or_iff_right h, Option.isSome_iff_exists]
  simp only [within?_eq_some_iff]

/-- A name lies in a listed module just if its owner is that module or lies below it. -/
theorem exists_isOwner_iff (hm : module ∈ modules) :
    (∃ owner, isAtOrBelow module owner = true ∧ IsOwner modules owner name) ↔
      ∃ inner, name = below module inner := by
  constructor
  · intro h
    obtain ⟨owner, hbelow, howner⟩ := h
    obtain ⟨inner, rfl⟩ := howner.holds
    rcases isAtOrBelow_iff.1 hbelow with rfl | ⟨middle, rfl⟩
    · exact ⟨inner, rfl⟩
    · exact ⟨below middle inner, below_below module middle inner⟩
  · intro h
    obtain ⟨inner, hname⟩ := h
    cases ho : owner? modules name with
    | none => exact absurd hname (owner?_eq_none_iff.1 ho module hm inner)
    | some owner =>
      have howner := owner?_eq_some_iff.1 ho
      refine ⟨owner, isAtOrBelow_iff.2 ?_, howner⟩
      obtain ⟨rest, hrest⟩ := howner.holds
      -- The owner is not shorter than the module, and both are beginnings of the name.
      rcases Nat.lt_or_ge module.toList.length owner.toList.length with hlt | hge
      · obtain ⟨middle, hmiddle, -⟩ := exists_below_of_lt (hrest.symm.trans hname) hlt
        exact .inr ⟨middle, hmiddle⟩
      · refine .inl (howner.unique ⟨hm, ⟨inner, hname⟩, fun m hm' hin => ?_⟩)
        exact Nat.le_trans (howner.longest m hm' hin) hge

namespace Plan

variable {plan : Plan} {order : List (String × Plan)}

/-- What is routed by its name is in the merged parts of a module and the modules below it if the
name lies in the module. -/
theorem merged_atOrBelow_iff {P : Plan → Prop} {own : Prop}
    (hown : ∀ m, P (plan.ownedBy modules m) ↔ own ∧ owner? modules name = some m)
    (hm : module ∈ modules) (hne : module ≠ "")
    (hperm : order.Perm ((plan.split modules).filter fun part => isAtOrBelow module part.1))
    (hmerge : ∀ p q : Plan, P (p.merge q) ↔ P p ∨ P q) (hempty : ¬ P ∅) :
    P ((order.map Prod.snd).foldl merge ∅) ↔ own ∧ AsyncSpread.inModule module name = true := by
  rw [foldl_merge_iff hmerge, or_iff_right hempty, inModule_iff hne, ← exists_isOwner_iff hm]
  constructor
  · intro h
    obtain ⟨q, hq, hhas⟩ := h
    obtain ⟨⟨m, part⟩, hpart, rfl⟩ := List.mem_map.1 hq
    obtain ⟨hpart, hbelow⟩ := List.mem_filter.1 (hperm.mem_iff.1 hpart)
    obtain ⟨hhad, howner⟩ := (exists_mem_split_iff hempty (hown m)).1 ⟨part, hpart, hhas⟩
    exact ⟨hhad, m, hbelow, howner⟩
  · intro h
    obtain ⟨hhad, m, hbelow, howner⟩ := h
    obtain ⟨part, hpart, hhas⟩ := (exists_mem_split_iff hempty (hown m)).2 ⟨hhad, howner⟩
    exact ⟨part, List.mem_map.2 ⟨(m, part), hperm.mem_iff.2 (List.mem_filter.2 ⟨hpart, hbelow⟩),
      rfl⟩, hhas⟩

theorem TestsPlanned.mem_functions_ownedBy_iff (h : plan.TestsPlanned) :
    name ∈ (plan.ownedBy modules module).functions ↔
    name ∈ plan.functions ∧ owner? modules name = some module := by
  rw [mem_functions_ownedBy, or_iff_left_of_imp (h name)]

/-- In whatever order the parts are merged, together they have what the module has. -/
theorem foldl_merge_eq_inModule (htests : plan.TestsPlanned) (hm : module ∈ modules)
    (hne : module ≠ "")
    (hperm : order.Perm ((plan.split modules).filter fun part => isAtOrBelow module part.1)) :
    (order.map Prod.snd).foldl merge ∅ = plan.inModule module := by
  refine Plan.ext ?_ ?_ ?_
  · refine SortedSet.eq_of_mem_iff fun name => ?_
    rw [inModule, restrict, SortedSet.mem_filter]
    exact merged_atOrBelow_iff (P := fun p => name ∈ p.functions)
      (fun _ => htests.mem_functions_ownedBy_iff) hm hne hperm
      (fun _ _ => SortedSet.mem_union) SortedSet.not_mem_empty
  · refine SortedSet.eq_of_mem_iff fun k => ?_
    rw [inModule, restrict, SortedSet.mem_filter]
    exact merged_atOrBelow_iff (P := fun p => k ∈ p.calls) (fun _ => mem_calls_ownedBy) hm hne hperm
      (fun _ _ => SortedSet.mem_union) SortedSet.not_mem_empty
  · refine SortedSet.eq_of_mem_iff fun name => ?_
    rw [inModule, restrict, SortedSet.mem_filter]
    exact merged_atOrBelow_iff (P := fun p => name ∈ p.tests)
      (fun _ => mem_tests_ownedBy) hm hne hperm
      (fun _ _ => SortedSet.mem_union) SortedSet.not_mem_empty

/-! ## One module -/

theorem owner?_singleton_iff (hne : module ≠ "") :
    owner? [module] name = some module ↔ AsyncSpread.inModule module name = true := by
  rw [owner?_eq_some_iff, inModule_iff hne]
  constructor
  · exact IsOwner.holds
  · intro h
    refine ⟨List.mem_singleton_self module, h, fun m hm _ => Nat.le_of_eq ?_⟩
    rw [List.mem_singleton.1 hm]

theorem ownedBy_singleton (htests : plan.TestsPlanned) (hne : module ≠ "") :
    plan.ownedBy [module] module = plan.inModule module := by
  refine Plan.ext ?_ ?_ ?_
  · refine SortedSet.eq_of_mem_iff fun name => ?_
    rw [htests.mem_functions_ownedBy_iff, owner?_singleton_iff hne, inModule, restrict,
      SortedSet.mem_filter]
  · refine SortedSet.eq_of_mem_iff fun k => ?_
    rw [mem_calls_ownedBy, owner?_singleton_iff hne, inModule, restrict, SortedSet.mem_filter]
  · refine SortedSet.eq_of_mem_iff fun name => ?_
    rw [mem_tests_ownedBy, owner?_singleton_iff hne, inModule, restrict, SortedSet.mem_filter]

theorem split_singleton (htests : plan.TestsPlanned) (hne : module ≠ "") : plan.split [module] =
    if (plan.inModule module).isEmpty then [] else [(module, plan.inModule module)] := by
  have hsplit : plan.split [module] = [(module, plan.inModule module)].filter fun part =>
      part.2 != ∅ := by
    show [(module, plan.ownedBy [module] module)].filter (fun part => part.2 != ∅) = _
    rw [ownedBy_singleton htests hne]
  by_cases hempty : (plan.inModule module).isEmpty = true
  · have hnone : plan.inModule module = ∅ := (htests.restrict _).eq_empty hempty
    rw [if_pos hempty, hsplit, hnone]
    rfl
  · have hsome : (plan.inModule module != ∅) = true :=
      bne_iff_ne.2 fun hnone => hempty (by rw [hnone]; rfl)
    rw [if_neg hempty, hsplit]
    exact List.filter_eq_self.2 fun part hpart => by rw [List.mem_singleton.1 hpart]; exact hsome

/-- A plan narrowed to a listed module is what the module's own part and the parts of the modules
below it have together, and the module's own part where no other module is listed. -/
theorem inModule_eq_merged (htests : ∀ name ∈ plan.tests, name ∈ plan.functions)
    (hm : module ∈ modules) (hne : module ≠ "") :
    (∀ order : List (String × Plan), order.Perm ((plan.split modules).filter fun part =>
      isAtOrBelow module part.1) → (order.map Prod.snd).foldl merge ∅ = plan.inModule module) ∧
    plan.split [module] = if (plan.inModule module).isEmpty then []
      else [(module, plan.inModule module)] :=
  ⟨fun _ hperm => foldl_merge_eq_inModule htests hm hne hperm, split_singleton htests hne⟩

/-- The shop has two parts, its own and that of the cart. -/
theorem inModule_eq_merged_scattered :
    (∀ name ∈ scattered.tests, name ∈ scattered.functions) ∧ "shop" ∈ nested ∧ "shop" ≠ "" ∧
    ((scattered.split nested).filter fun part => isAtOrBelow "shop" part.1).map Prod.fst =
      ["shop", "shop.cart"] ∧
    (((scattered.split nested).filter fun part => isAtOrBelow "shop" part.1).map Prod.snd).foldl
      merge ∅ = scattered.inModule "shop" ∧
    scattered.split ["shop"] = [("shop", scattered.inModule "shop")] := by
  have htests : ∀ name ∈ scattered.tests, name ∈ scattered.functions := by
    intro name hname
    rw [scattered, SortedSet.mem_ofList, List.mem_singleton] at hname
    rw [hname, scattered, SortedSet.mem_ofList]
    decide
  have hm : "shop" ∈ nested := by decide
  have hne : "shop" ≠ "" := by decide
  have hsome : (scattered.inModule "shop").isEmpty = false := by decide +kernel
  obtain ⟨hmerged, hone⟩ := inModule_eq_merged htests hm hne
  rw [hsome, if_neg Bool.false_ne_true] at hone
  exact ⟨htests, hm, hne, by decide +kernel, hmerged _ (.refl _), hone⟩

end Plan

end AsyncSpread
