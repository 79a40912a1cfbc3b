import AsyncSpread.Proofs.Project.Owners

/-!
The parts of a plan.

Each name goes to the longest listed module that it lies in, and the functions, the tests and the
calls of a plan go their ways apart.  Nothing is lost on the way but what lies in no listed module,
and nothing comes twice (`partitions_split`).
-/

namespace AsyncSpread

variable {modules : List String} {module name : String} {plan : Plan}

/-- A module is the longest listed one that a name lies in. -/
structure IsOwner (modules : List String) (module name : String) : Prop where
  listed : module ∈ modules
  holds : ∃ inner, name = below module inner
  longest : ∀ m ∈ modules, (∃ inner, name = below m inner) → m.toList.length ≤ module.toList.length

/-- Of the modules that a name lies in, no two are of one length. -/
theorem IsOwner.unique {other : String} (h : IsOwner modules module name)
    (h' : IsOwner modules other name) : module = other := by
  obtain ⟨rest, hrest⟩ := eq_below_iff.1 h.holds
  obtain ⟨rest', hrest'⟩ := eq_below_iff.1 h'.holds
  have hlen : module.toList.length = other.toList.length :=
    Nat.le_antisymm (h'.longest _ h.listed h.holds) (h.longest _ h'.listed h'.holds)
  rw [hrest] at hrest'
  exact String.toList_inj.1 (List.append_inj_left hrest' hlen)

theorem owner?_eq_some_iff : owner? modules name = some module ↔ IsOwner modules module name := by
  constructor
  · intro h
    obtain ⟨hlisted, hholds, hlongest⟩ := of_owner? h
    exact ⟨hlisted, hholds, hlongest⟩
  · intro h
    cases ho : owner? modules name with
    | none =>
      obtain ⟨inner, hname⟩ := h.holds
      exact absurd hname (owner?_eq_none_iff.1 ho module h.listed inner)
    | some other =>
      obtain ⟨hlisted, hholds, hlongest⟩ := of_owner? ho
      rw [h.unique ⟨hlisted, hholds, hlongest⟩]

theorem isSome_owner? (modules : List String) (name : String) :
    (owner? modules name).isSome = modules.any fun m => (within? m name).isSome := by
  rw [Bool.eq_iff_iff, List.any_eq_true]
  constructor
  · intro h
    obtain ⟨m, hm⟩ := Option.isSome_iff_exists.1 h
    obtain ⟨hlisted, ⟨inner, hname⟩, -⟩ := of_owner? hm
    exact ⟨m, hlisted, by rw [within?_eq_some_iff.2 hname]; rfl⟩
  · intro h
    obtain ⟨m, hlisted, hin⟩ := h
    obtain ⟨inner, hinner⟩ := Option.isSome_iff_exists.1 hin
    rw [Option.isSome_iff_ne_none]
    intro hnone
    exact owner?_eq_none_iff.1 hnone m hlisted inner (within?_eq_some_iff.1 hinner)

namespace Plan

theorem mem_tests_ownedBy :
    name ∈ (plan.ownedBy modules module).tests ↔
      name ∈ plan.tests ∧ owner? modules name = some module := by
  rw [ownedBy, restrict, SortedSet.mem_filter, beq_iff_eq]

theorem mem_calls_ownedBy {k : CallKey} :
    k ∈ (plan.ownedBy modules module).calls ↔
      k ∈ plan.calls ∧ owner? modules k.caller = some module := by
  rw [ownedBy, restrict, SortedSet.mem_filter, beq_iff_eq]

theorem eq_empty {p : Plan} (hf : ∀ n, n ∉ p.functions) (ht : ∀ n, n ∉ p.tests)
    (hc : ∀ k, k ∉ p.calls) : p = ∅ :=
  Plan.ext (SortedSet.eq_of_mem_iff fun n => ⟨fun h => absurd h (hf n),
    fun h => absurd h SortedSet.not_mem_empty⟩)
    (SortedSet.eq_of_mem_iff fun k => ⟨fun h => absurd h (hc k),
      fun h => absurd h SortedSet.not_mem_empty⟩)
    (SortedSet.eq_of_mem_iff fun n => ⟨fun h => absurd h (ht n),
      fun h => absurd h SortedSet.not_mem_empty⟩)

/-- A module that owns something owns a function, a test or the caller of a call. -/
theorem ownedBy_ne_empty_iff : plan.ownedBy modules module ≠ ∅ ↔ ∃ name,
    (name ∈ plan.functions ∨ name ∈ plan.tests ∨ ∃ callee, ⟨name, callee⟩ ∈ plan.calls) ∧
      owner? modules name = some module := by
  constructor
  · intro hne
    refine Classical.byContradiction fun hnone =>
      hne (eq_empty (fun n hn => ?_) (fun n hn => ?_) fun k hk => ?_)
    · obtain ⟨hmem, ho⟩ := mem_functions_ownedBy.1 hn
      exact hnone ⟨n, hmem.imp_right .inl, ho⟩
    · obtain ⟨hmem, ho⟩ := mem_tests_ownedBy.1 hn
      exact hnone ⟨n, .inr (.inl hmem), ho⟩
    · obtain ⟨hmem, ho⟩ := mem_calls_ownedBy.1 hk
      exact hnone ⟨k.caller, .inr (.inr ⟨k.callee, hmem⟩), ho⟩
  · intro hex he
    obtain ⟨n, hmem, ho⟩ := hex
    rcases hmem with hf | ht | ⟨callee, hc⟩
    · exact ownedBy_ne_empty hf ho he
    · have hn : n ∈ (plan.ownedBy modules module).tests := mem_tests_ownedBy.2 ⟨ht, ho⟩
      rw [he] at hn
      exact SortedSet.not_mem_empty hn
    · have hk : ⟨n, callee⟩ ∈ (plan.ownedBy modules module).calls := mem_calls_ownedBy.2 ⟨hc, ho⟩
      rw [he] at hk
      exact SortedSet.not_mem_empty hk

/-- What is had by one of two plans that are merged is had by a merge of many if one of them has
it. -/
theorem foldl_merge_iff {has : Plan → Prop} (hmerge : ∀ p q : Plan, has (p.merge q) ↔ has p ∨ has q)
    (parts : List Plan) (p : Plan) : has (parts.foldl merge p) ↔ has p ∨ ∃ q ∈ parts, has q := by
  induction parts generalizing p with
  | nil => simp
  | cons q parts ih =>
    rw [List.foldl_cons, ih, hmerge]
    simp only [List.mem_cons, exists_eq_or_imp, or_assoc]

/-- Parts of a plan, one for each module that owns something, which lose and repeat nothing. -/
structure Partitions (plan : Plan) (modules : List String)
    (parts : List (String × Plan)) : Prop where
  keys : (parts.map Prod.fst).Nodup
  functions : ∀ module name, (∃ part, (module, part) ∈ parts ∧ name ∈ part.functions) ↔
    name ∈ plan.functions ∧ IsOwner modules module name
  tests : ∀ module name, (∃ part, (module, part) ∈ parts ∧ name ∈ part.tests) ↔
    name ∈ plan.tests ∧ IsOwner modules module name
  calls : ∀ module, ∀ k : CallKey, (∃ part, (module, part) ∈ parts ∧ k ∈ part.calls) ↔
    k ∈ plan.calls ∧ IsOwner modules module k.caller
  owns : ∀ module, (∃ part, (module, part) ∈ parts) ↔ ∃ name,
    (name ∈ plan.functions ∨ name ∈ plan.tests ∨ ∃ callee, ⟨name, callee⟩ ∈ plan.calls) ∧
      IsOwner modules module name
  merged : ∀ order : List (String × Plan), order.Perm parts → (order.map Prod.snd).foldl merge ∅ =
    plan.restrict fun name => modules.any fun m => (within? m name).isSome

/-- The parts that have something that is routed by its name are those of the name's owner. -/
theorem exists_mem_split_iff {has : Plan → Prop} {own : Prop} (hempty : ¬ has ∅)
    (h : has (plan.ownedBy modules module) ↔ own ∧ owner? modules name = some module) :
    (∃ part, (module, part) ∈ plan.split modules ∧ has part) ↔
      own ∧ IsOwner modules module name := by
  rw [← owner?_eq_some_iff, ← h]
  constructor
  · intro hex
    obtain ⟨part, hpart, hhas⟩ := hex
    obtain ⟨-, rfl, -⟩ := mem_split.1 hpart
    exact hhas
  · intro hhas
    have hne : plan.ownedBy modules module ≠ ∅ := fun he => hempty (he ▸ hhas)
    exact ⟨_, mem_split.2 ⟨(of_owner? (h.1 hhas).2).1, rfl, hne⟩, hhas⟩

/-- What is routed by its name comes into a merge of all parts if the name lies in a listed
module. -/
theorem merged_iff {has : Plan → Prop} {own : Prop} {parts order : List (String × Plan)}
    (h : ∀ module, (∃ part, (module, part) ∈ parts ∧ has part) ↔ own ∧ IsOwner modules module name)
    (hperm : order.Perm parts) (hmerge : ∀ p q : Plan, has (p.merge q) ↔ has p ∨ has q)
    (hempty : ¬ has ∅) :
    has ((order.map Prod.snd).foldl merge ∅) ↔
      own ∧ (modules.any fun m => (within? m name).isSome) = true := by
  rw [foldl_merge_iff hmerge, or_iff_right hempty, ← isSome_owner?, Option.isSome_iff_exists]
  constructor
  · intro hex
    obtain ⟨q, hq, hhas⟩ := hex
    obtain ⟨⟨m, part⟩, hpart, rfl⟩ := List.mem_map.1 hq
    obtain ⟨hown, howner⟩ := (h m).1 ⟨part, hperm.mem_iff.1 hpart, hhas⟩
    exact ⟨hown, m, owner?_eq_some_iff.2 howner⟩
  · intro hex
    obtain ⟨hown, m, ho⟩ := hex
    obtain ⟨part, hpart, hhas⟩ := (h m).2 ⟨hown, owner?_eq_some_iff.1 ho⟩
    exact ⟨part, List.mem_map.2 ⟨(m, part), hperm.mem_iff.2 hpart, rfl⟩, hhas⟩

theorem nodup_keys_split (plan : Plan) (modules : List String) :
    ((plan.split modules).map Prod.fst).Nodup := by
  have hlisted : (SortedSet.ofList modules).toList.Nodup := by
    refine (SortedSet.ofList modules).ascending.imp fun {a b} hlt heq => ?_
    have hself : compare b b = .eq := Std.ReflCmp.compare_self
    rw [heq, hself] at hlt
    cases hlt
  have hkeys : ((SortedSet.ofList modules).toList.map fun m =>
      (m, plan.ownedBy modules m)).map Prod.fst = (SortedSet.ofList modules).toList := by
    rw [List.map_map]
    exact List.map_id _
  rw [← hkeys] at hlisted
  exact (List.filter_sublist.map Prod.fst).nodup hlisted

theorem partitions_split (htests : ∀ name ∈ plan.tests, name ∈ plan.functions)
    (modules : List String) : plan.Partitions modules (plan.split modules) := by
  have hfunctions (module name : String) :
      (∃ part, (module, part) ∈ plan.split modules ∧ name ∈ part.functions) ↔
      name ∈ plan.functions ∧ IsOwner modules module name := by
    have hown : name ∈ (plan.ownedBy modules module).functions ↔
        name ∈ plan.functions ∧ owner? modules name = some module := by
      rw [mem_functions_ownedBy, or_iff_left_of_imp (htests name)]
    exact exists_mem_split_iff SortedSet.not_mem_empty hown
  have htests' (module name : String) :
      (∃ part, (module, part) ∈ plan.split modules ∧ name ∈ part.tests) ↔
      name ∈ plan.tests ∧ IsOwner modules module name :=
    exists_mem_split_iff SortedSet.not_mem_empty mem_tests_ownedBy
  have hcalls (module : String) (k : CallKey) :
      (∃ part, (module, part) ∈ plan.split modules ∧ k ∈ part.calls) ↔
      k ∈ plan.calls ∧ IsOwner modules module k.caller :=
    exists_mem_split_iff SortedSet.not_mem_empty mem_calls_ownedBy
  refine ⟨nodup_keys_split plan modules, hfunctions, htests', hcalls, fun module => ?_,
    fun order hperm => ?_⟩
  · simp only [mem_split, ← owner?_eq_some_iff, ← ownedBy_ne_empty_iff]
    constructor
    · intro hex
      obtain ⟨part, -, rfl, hne⟩ := hex
      exact hne
    · intro hne
      obtain ⟨name, -, ho⟩ := ownedBy_ne_empty_iff.1 hne
      exact ⟨_, (of_owner? ho).1, rfl, hne⟩
  · refine Plan.ext ?_ ?_ ?_
    · refine SortedSet.eq_of_mem_iff fun name => ?_
      rw [restrict, SortedSet.mem_filter]
      exact merged_iff (fun m => hfunctions m name) hperm
        (fun _ _ => SortedSet.mem_union) SortedSet.not_mem_empty
    · refine SortedSet.eq_of_mem_iff fun k => ?_
      rw [restrict, SortedSet.mem_filter]
      exact merged_iff (fun m => hcalls m k) hperm
        (fun _ _ => SortedSet.mem_union) SortedSet.not_mem_empty
    · refine SortedSet.eq_of_mem_iff fun name => ?_
      rw [restrict, SortedSet.mem_filter]
      exact merged_iff (fun m => htests' m name) hperm
        (fun _ _ => SortedSet.mem_union) SortedSet.not_mem_empty

/-- A package inside another, a module next to them, and the module without a name. -/
def nested : List String := ["shop", "", "shop.cart", "till"]

/-- Functions in the two packages, one of them a test, one that begins with a dot, and one that lies
nowhere. -/
def scattered : Plan :=
  ⟨.ofList ["shop.cart.add", "shop.cart.test_add", "shop.open", ".close", "depot.load"],
    .ofList [⟨"shop.cart.add", "open"⟩, ⟨"till.pay", "add"⟩], .ofList ["shop.cart.test_add"]⟩

theorem partitions_split_scattered : (∀ name ∈ scattered.tests, name ∈ scattered.functions) ∧
    scattered.Partitions nested (scattered.split nested) ∧
    (scattered.split nested).map Prod.fst = ["", "shop", "shop.cart", "till"] := by
  have htests : ∀ name ∈ scattered.tests, name ∈ scattered.functions := by
    intro name hname
    rw [scattered, SortedSet.mem_ofList, List.mem_singleton] at hname
    rw [hname, scattered, SortedSet.mem_ofList]
    decide
  exact ⟨htests, partitions_split htests nested, by decide +kernel⟩

end Plan

end AsyncSpread
