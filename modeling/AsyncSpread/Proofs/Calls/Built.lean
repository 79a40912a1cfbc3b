import AsyncSpread.Proofs.Calls.Indexed

/-!
What holds of every call graph that is built by registering functions and adding calls.

A built graph numbers its functions by their places, looks a name up exactly when a function has it
(`Registry.Consistent`), has each call once and only between registered functions, and looks calls
up as they stand in its list (`CallGraph.Consistent`).  Each operation keeps this, so it holds of
everything that is built (`CallGraph.Built.consistent`).
-/

namespace AsyncSpread

open Calls

namespace Calls.Registry

/-- Numbers are places, and a name leads to the function that has it. -/
structure Consistent (r : Registry) : Prop where
  id_eq : ∀ {i f}, r.get? i = some f → f.id = i
  number?_eq_some_iff : ∀ name i, r.number? name = some i ↔ ∃ f, r.get? i = some f ∧ f.name = name

theorem consistent_empty : Consistent ∅ where
  id_eq h := by cases h
  number?_eq_some_iff name i := by
    constructor
    · intro h
      cases h
    · intro hand
      obtain ⟨f, hf, _⟩ := hand
      cases hf

theorem lt_size_of_get? {r : Registry} {i : Nat} {f : Function} (h : r.get? i = some f) :
    i < r.size :=
  (List.getElem?_eq_some_iff.1 h).1

variable {r : Registry} {name : String} {file : Path} {line : Nat}

theorem register_of_number? {i : Nat} (h : r.number? name = some i) :
    r.register name file line = (i, r) := by
  simp only [register, h]

theorem register_of_number?_none (h : r.number? name = none) :
    r.register name file line =
      (r.size, ⟨r.functions ++ [⟨r.size, name, file, line⟩], (name, r.size) :: r.numbers⟩) := by
  simp only [register, h]

theorem get?_register {i : Nat} {f : Function} (h : r.get? i = some f) :
    (r.register name file line).2.get? i = some f := by
  cases hn : r.number? name with
  | some j => rw [register_of_number? hn]; exact h
  | none =>
    rw [register_of_number?_none hn]
    simp only [get?]
    rw [List.getElem?_append_left (lt_size_of_get? h)]
    exact h

theorem get?_register_of_none (h : r.number? name = none) {i : Nat} {f : Function} :
    (r.register name file line).2.get? i = some f ↔
      r.get? i = some f ∨ i = r.size ∧ f = ⟨r.size, name, file, line⟩ := by
  rw [register_of_number?_none h]
  simp only [get?, size]
  rcases Nat.lt_trichotomy i r.functions.length with hi | rfl | hi
  · rw [List.getElem?_append_left hi]
    have hne : i ≠ r.functions.length := Nat.ne_of_lt hi
    simp [hne]
  · simp [eq_comm]
  · have hne : i ≠ r.functions.length := Nat.ne_of_gt hi
    rw [List.getElem?_eq_none
      (by simp only [List.length_append, List.length_cons, List.length_nil]; omega),
      List.getElem?_eq_none (Nat.le_of_lt hi)]
    simp [hne]

theorem number?_register_of_none (h : r.number? name = none) (other : String) :
    (r.register name file line).2.number? other =
      if name = other then some r.size else r.number? other := by
  rw [register_of_number?_none h]
  by_cases he : name = other
  · simp [number?, he]
  · have hb : (name == other) = false := by simpa using he
    simp [number?, he]

theorem Consistent.register (hr : r.Consistent) : (r.register name file line).2.Consistent := by
  cases hn : r.number? name with
  | some j => rw [register_of_number? hn]; exact hr
  | none =>
    refine ⟨fun {i f} h => ?_, fun other i => ?_⟩
    · rcases (get?_register_of_none hn).1 h with h | ⟨rfl, rfl⟩
      · exact hr.id_eq h
      · rfl
    · rw [number?_register_of_none hn]
      by_cases he : name = other
      · subst he
        rw [if_pos rfl]
        constructor
        · intro hi
          cases hi
          exact ⟨_, (get?_register_of_none hn).2 (.inr ⟨rfl, rfl⟩), rfl⟩
        · intro hand
          obtain ⟨f, hf, hname⟩ := hand
          rcases (get?_register_of_none hn).1 hf with hf | ⟨rfl, _⟩
          · have := (hr.number?_eq_some_iff _ _).2 ⟨f, hf, hname⟩
            rw [hn] at this
            cases this
          · rfl
      · rw [if_neg he, hr.number?_eq_some_iff]
        constructor
        · intro hand
          obtain ⟨f, hf, hname⟩ := hand
          exact ⟨f, get?_register hf, hname⟩
        · intro hand
          obtain ⟨f, hf, hname⟩ := hand
          rcases (get?_register_of_none hn).1 hf with hf | ⟨_, rfl⟩
          · exact ⟨f, hf, hname⟩
          · exact absurd hname he

theorem Consistent.eq_of_name_eq (hr : r.Consistent) {i j : Nat} {f f' : Function}
    (hi : r.get? i = some f) (hj : r.get? j = some f') (h : f.name = f'.name) : i = j := by
  have h1 := (hr.number?_eq_some_iff _ _).2 ⟨f, hi, rfl⟩
  have h2 := (hr.number?_eq_some_iff _ _).2 ⟨f', hj, h.symm⟩
  rw [h1] at h2
  exact Option.some.inj h2

end Calls.Registry

namespace CallGraph

/-- The graphs that registering functions and adding calls lead to. -/
inductive Built : CallGraph → Prop where
  | empty : Built ∅
  | addFunction {g : CallGraph} (h : Built g) (name : String) (file : Path) (line : Nat) :
      Built (g.addFunction name file line).2
  | addCall {g g' : CallGraph} {c : Call} {isNew : Bool} (h : Built g)
      (hc : g.addCall c = .ok (isNew, g')) : Built g'

/-- A consistent registry, and calls between registered functions, each once and kept as the list
says. -/
structure Consistent (g : CallGraph) : Prop where
  registry : g.registry.Consistent
  indexed : g.Indexed
  nodup : g.calls.Nodup
  caller : ∀ {c}, c ∈ g.calls → ∃ f, g.function? c.caller = some f
  callee : ∀ {c}, c ∈ g.calls → ∃ f, g.function? c.callee = some f

theorem addCall_cases {g g' : CallGraph} {c : Call} {isNew : Bool}
    (h : g.addCall c = .ok (isNew, g')) :
    (∃ f, g.function? c.caller = some f) ∧ (∃ f, g.function? c.callee = some f) ∧
      ((c ∈ g.seen ∧ isNew = false ∧ g' = g) ∨ (c ∉ g.seen ∧ isNew = true ∧ g' = g.append c)) := by
  unfold addCall at h
  split at h
  · cases h
  · rename_i hcaller
    split at h
    · cases h
    · rename_i hcallee
      rw [Bool.not_eq_true, Option.isNone_eq_false_iff] at hcaller hcallee
      refine ⟨Option.isSome_iff_exists.1 hcaller, Option.isSome_iff_exists.1 hcallee, ?_⟩
      split at h
      · rename_i hmem
        cases h
        exact .inl ⟨SortedSet.contains_iff_mem.1 hmem, rfl, rfl⟩
      · rename_i hmem
        cases h
        exact .inr ⟨fun hm => hmem (SortedSet.contains_iff_mem.2 hm), rfl, rfl⟩

theorem Consistent.addFunction {g : CallGraph} (hg : g.Consistent) (name : String) (file : Path)
    (line : Nat) : (g.addFunction name file line).2.Consistent where
  registry := hg.registry.register
  indexed := ⟨hg.indexed.seen, hg.indexed.outgoing, hg.indexed.incoming⟩
  nodup := hg.nodup
  caller hc := (hg.caller hc).imp fun _ => Registry.get?_register
  callee hc := (hg.callee hc).imp fun _ => Registry.get?_register

theorem Consistent.addCall {g g' : CallGraph} {c : Call} {isNew : Bool} (hg : g.Consistent)
    (h : g.addCall c = .ok (isNew, g')) : g'.Consistent := by
  obtain ⟨hcaller, hcallee, ⟨_, _, rfl⟩ | ⟨hnew, _, rfl⟩⟩ := addCall_cases h
  · exact hg
  · refine ⟨hg.registry, hg.indexed.append c, ?_, fun {d} hd => ?_, fun {d} hd => ?_⟩
    · rw [hg.indexed.mem_seen] at hnew
      exact List.nodup_append.2 ⟨hg.nodup, List.pairwise_singleton _ c,
        fun d hd e he hde => hnew (List.mem_singleton.1 he ▸ hde ▸ hd)⟩
    · rcases List.mem_append.1 hd with hd | hd
      · exact hg.caller hd
      · rw [List.mem_singleton.1 hd]; exact hcaller
    · rcases List.mem_append.1 hd with hd | hd
      · exact hg.callee hd
      · rw [List.mem_singleton.1 hd]; exact hcallee

theorem Built.consistent {g : CallGraph} (h : g.Built) : g.Consistent := by
  induction h with
  | empty =>
    exact ⟨Registry.consistent_empty, indexed_empty, .nil, fun hc => (List.not_mem_nil hc).elim,
      fun hc => (List.not_mem_nil hc).elim⟩
  | addFunction _ name file line ih => exact ih.addFunction name file line
  | addCall _ hc ih => exact ih.addCall hc

/-! ## Names -/

/-- A graph has a name if one of its functions does. -/
def Has (g : CallGraph) (name : String) : Prop := ∃ i, g.name i = .ok name

theorem name_eq_ok_iff {g : CallGraph} {i : Nat} {name : String} :
    g.name i = .ok name ↔ ∃ f, g.function? i = some f ∧ f.name = name := by
  unfold CallGraph.name function?
  cases g.registry.get? i with
  | none => simp
  | some f => simp

theorem number_eq_ok_iff {g : CallGraph} (hg : g.Consistent) {i : Nat} {name : String} :
    g.number name = .ok i ↔ g.name i = .ok name := by
  have h := hg.registry.number?_eq_some_iff name i
  rw [name_eq_ok_iff, function?, ← h]
  unfold number
  cases g.registry.number? name <;> simp

theorem name_injective {g : CallGraph} (hg : g.Consistent) {i j : Nat} {name : String}
    (hi : g.name i = .ok name) (hj : g.name j = .ok name) : i = j := by
  rw [← number_eq_ok_iff hg] at hi hj
  rw [hi] at hj
  cases hj
  rfl

theorem number_eq_error_iff {g : CallGraph} (hg : g.Consistent) {name : String} {e : Calls.Fault} :
    g.number name = .error e ↔ ¬ g.Has name ∧ e = .noName name := by
  cases h : g.number name with
  | ok i =>
    have hi := (number_eq_ok_iff hg).1 h
    simp only [reduceCtorEq, false_iff, not_and]
    exact fun hn => absurd ⟨i, hi⟩ hn
  | error e' =>
    have hn : ¬ g.Has name := by
      intro hand
      obtain ⟨i, hi⟩ := hand
      rw [(number_eq_ok_iff hg).2 hi] at h
      cases h
    have he : e' = .noName name := by
      unfold number at h
      split at h
      · cases h
      · cases h; rfl
    simp only [he, Except.error.injEq, hn, not_false_eq_true, true_and]
    exact eq_comm

end CallGraph

end AsyncSpread
