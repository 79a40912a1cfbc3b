import AsyncSpread.Project.Rewrite

/-!
Who owns a planned name.

The search cuts a name at one dot after another, from the last on, so it meets every module that the
name lies in and the longest first (`of_owner?`).  What the parts of a plan have, and what none of
them has, is read off that.
-/

namespace AsyncSpread

/-- The outer side of a cut at the last separator is the longest of all outer sides. -/
theorem Text.eq_or_exists_of_append {sep : Char} {a b x y : List Char} (hb : sep ∉ b)
    (h : a ++ sep :: b = x ++ sep :: y) : x = a ∨ ∃ z, a = x ++ sep :: z := by
  rcases List.append_eq_append_iff.1 h with ⟨z, hx, hz⟩ | ⟨z, ha, hz⟩
  · cases z with
    | nil => exact .inl (by rw [hx, List.append_nil])
    | cons c z =>
      rw [List.cons_append, List.cons.injEq] at hz
      have hmem : sep ∈ b := by
        rw [hz.2]
        exact List.mem_append_right _ List.mem_cons_self
      exact absurd hmem hb
  · cases z with
    | nil => exact .inl (by rw [ha, List.append_nil])
    | cons c z =>
      rw [List.cons_append, List.cons.injEq] at hz
      exact .inr ⟨z, by rw [ha, hz.1]⟩

theorem eq_below_iff {module name : String} :
    (∃ inner, name = below module inner) ↔ ∃ rest, name.toList = module.toList ++ '.' :: rest := by
  constructor
  · intro hex
    obtain ⟨inner, rfl⟩ := hex
    exact ⟨inner.toList, by simp [below]⟩
  · intro hex
    obtain ⟨rest, h⟩ := hex
    refine ⟨String.ofList rest, ?_⟩
    rw [← String.toList_inj, h]
    simp [below]

variable {modules : List String} {name module : String}

theorem ownerAmong_eq_none {n : Nat} {cs : List Char} (hn : cs.length < n)
    (h : ownerAmong modules n cs = none) (hm : module ∈ modules) (rest : List Char) :
    cs ≠ module.toList ++ '.' :: rest := by
  induction n generalizing cs rest with
  | zero => exact absurd hn (Nat.not_lt_zero _)
  | succ n ih =>
    rw [ownerAmong] at h
    intro heq
    cases hc : Text.cutLast? '.' cs with
    | none =>
      refine Text.cutLast?_eq_none_iff.1 hc ?_
      rw [heq]
      exact List.mem_append_right _ List.mem_cons_self
    | some cut =>
      obtain ⟨outer, last⟩ := cut
      obtain ⟨hcs, hlast⟩ := Text.cutLast?_eq_some_iff.1 hc
      rw [hc] at h
      simp only at h
      split at h
      · cases h
      · rename_i hno
        rw [hcs] at heq
        -- The module is what is in front of the last dot, or it is found further in front.
        rcases Text.eq_or_exists_of_append hlast heq with ho | ⟨rest', ho⟩
        · refine hno (List.contains_iff_mem.2 ?_)
          rw [← ho, String.ofList_toList]
          exact hm
        · have hlen : outer.length < n := by
            rw [hcs, List.length_append, List.length_cons] at hn
            omega
          exact ih hlen h rest' ho

theorem of_ownerAmong {n : Nat} {cs : List Char} (hn : cs.length < n)
    (h : ownerAmong modules n cs = some module) :
    module ∈ modules ∧ (∃ rest, cs = module.toList ++ '.' :: rest) ∧
      ∀ m ∈ modules, (∃ rest, cs = m.toList ++ '.' :: rest) →
        m.toList.length ≤ module.toList.length := by
  induction n generalizing cs with
  | zero => exact absurd hn (Nat.not_lt_zero _)
  | succ n ih =>
    rw [ownerAmong] at h
    cases hc : Text.cutLast? '.' cs with
    | none =>
      rw [hc] at h
      cases h
    | some cut =>
      obtain ⟨outer, last⟩ := cut
      obtain ⟨hcs, hlast⟩ := Text.cutLast?_eq_some_iff.1 hc
      rw [hc] at h
      simp only at h
      split at h
      · rename_i hyes
        cases h
        refine ⟨List.contains_iff_mem.1 hyes, ⟨last, by rw [hcs, String.toList_ofList]⟩, ?_⟩
        intro m _ hex
        obtain ⟨rest, heq⟩ := hex
        rw [String.toList_ofList]
        rw [hcs] at heq
        rcases Text.eq_or_exists_of_append hlast heq with ho | ⟨rest', ho⟩
        · exact Nat.le_of_eq (congrArg List.length ho)
        · rw [ho, List.length_append]
          exact Nat.le_add_right _ _
      · rename_i hno
        have hlen : outer.length < n := by
          rw [hcs, List.length_append, List.length_cons] at hn
          omega
        obtain ⟨hmem, ⟨rest, ho⟩, hlongest⟩ := ih hlen h
        refine ⟨hmem, ⟨rest ++ '.' :: last, by rw [hcs, ho, List.append_assoc, List.cons_append]⟩,
          ?_⟩
        intro m hm hex
        obtain ⟨rest, heq⟩ := hex
        rw [hcs] at heq
        rcases Text.eq_or_exists_of_append hlast heq with ho | ho
        · have hlisted : modules.contains (String.ofList outer) = true := by
            rw [List.contains_iff_mem, ← ho, String.ofList_toList]
            exact hm
          exact absurd hlisted hno
        · exact hlongest m hm ho

/-- A name has no owner just if it lies in no listed module. -/
theorem owner?_eq_none_iff :
    owner? modules name = none ↔ ∀ m ∈ modules, ∀ inner, name ≠ below m inner := by
  constructor
  · intro h m hm inner heq
    obtain ⟨rest, hrest⟩ := eq_below_iff.1 ⟨inner, heq⟩
    exact ownerAmong_eq_none (Nat.lt_succ_self _) h hm rest hrest
  · intro h
    cases ho : owner? modules name with
    | none => rfl
    | some m =>
      obtain ⟨hm, hrest, -⟩ := of_ownerAmong (Nat.lt_succ_self _) ho
      obtain ⟨inner, heq⟩ := eq_below_iff.2 hrest
      exact absurd heq (h m hm inner)

/-- The owner of a name is the longest listed module that the name lies in. -/
theorem of_owner? (h : owner? modules name = some module) :
    module ∈ modules ∧ (∃ inner, name = below module inner) ∧
    ∀ m ∈ modules, (∃ inner, name = below m inner) → m.toList.length ≤ module.toList.length := by
  obtain ⟨hm, hrest, hlongest⟩ := of_ownerAmong (Nat.lt_succ_self _) h
  exact ⟨hm, eq_below_iff.2 hrest, fun m hm hex => hlongest m hm (eq_below_iff.1 hex)⟩

namespace Plan

variable {plan : Plan}

theorem mem_functions_ownedBy : name ∈ (plan.ownedBy modules module).functions ↔
    (name ∈ plan.functions ∨ name ∈ plan.tests) ∧ owner? modules name = some module := by
  simp only [ownedBy, restrict, SortedSet.mem_union, SortedSet.mem_filter, beq_iff_eq]
  constructor
  · intro h
    rcases h with h | h
    · exact ⟨.inl h.1, h.2⟩
    · exact ⟨.inr h.1, h.2⟩
  · intro h
    rcases h with ⟨h | h, ho⟩
    · exact .inl ⟨h, ho⟩
    · exact .inr ⟨h, ho⟩

theorem mem_split {part : Plan} : (module, part) ∈ plan.split modules ↔
    module ∈ modules ∧ part = plan.ownedBy modules module ∧ part ≠ ∅ := by
  rw [split, List.mem_filter, List.mem_map]
  constructor
  · intro h
    obtain ⟨⟨m, hm, heq⟩, hne⟩ := h
    cases heq
    exact ⟨SortedSet.mem_ofList.1 hm, rfl, bne_iff_ne.1 hne⟩
  · intro h
    obtain ⟨hm, heq, hne⟩ := h
    exact ⟨⟨module, SortedSet.mem_ofList.2 hm, by rw [heq]⟩, bne_iff_ne.2 hne⟩

/-- The owner of a planned function has a part of the plan. -/
theorem ownedBy_ne_empty (hf : name ∈ plan.functions) (ho : owner? modules name = some module) :
    plan.ownedBy modules module ≠ ∅ := by
  intro he
  have hmem : name ∈ (plan.ownedBy modules module).functions :=
    mem_functions_ownedBy.2 ⟨.inl hf, ho⟩
  rw [he] at hmem
  exact SortedSet.not_mem_empty hmem

end Plan

namespace Project

/-- The planned functions that no part has are those that lie in no listed module. -/
theorem mem_unownedBy {plan : Plan} : name ∈ unownedBy plan (plan.split modules) ↔
    name ∈ plan.functions ∧ owner? modules name = none := by
  rw [unownedBy, SortedSet.mem_filter]
  refine and_congr_right fun hf => ?_
  rw [Bool.not_eq_true', List.any_eq_false]
  constructor
  · intro h
    cases ho : owner? modules name with
    | none => rfl
    | some m =>
      have hpart := Plan.mem_split.2 ⟨(of_owner? ho).1, rfl, Plan.ownedBy_ne_empty hf ho⟩
      refine absurd ?_ (h _ hpart)
      exact SortedSet.contains_iff_mem.2 (Plan.mem_functions_ownedBy.2 ⟨.inl hf, ho⟩)
  · intro h part hpart hhas
    obtain ⟨m, p⟩ := part
    obtain ⟨-, rfl, -⟩ := Plan.mem_split.1 hpart
    have ho := (Plan.mem_functions_ownedBy.1 (SortedSet.contains_iff_mem.1 hhas)).2
    rw [h] at ho
    cases ho

end Project

end AsyncSpread
