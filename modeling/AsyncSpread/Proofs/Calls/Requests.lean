import Mathlib.Data.List.Induction
import Mathlib.Data.List.Nodup
import AsyncSpread.Proofs.Calls.Built

/-!
Graphs that answer requests, one after the other.

A request registers a function or adds a call.  One that fails leaves the graph as it is, and one
that succeeds leaves a graph in which everything agrees: the functions with the numbers of their
names, the calls with what is kept beside them (`CallGraph.sound_after`).  The functions are traced
back to the requests: whoever asks first for a name says where its function is defined.
-/

namespace AsyncSpread

namespace Calls

inductive Request where
  | function (name : String) (file : Path) (line : Nat)
  | call (c : Call)

inductive Reply where
  | number (id : Nat)
  /-- Whether a call was new. -/
  | added (isNew : Bool)
  | fault (why : Fault)

/-- A function is defined where the first request for its name says. -/
def Introduces (requests : List Request) (f : Function) : Prop :=
  ∃ before rest, requests = before ++ .function f.name f.file f.line :: rest ∧
    ∀ file line, Request.function f.name file line ∉ before

theorem Introduces.append {requests : List Request} {f : Function} (h : Introduces requests f)
    (r : Request) : Introduces (requests ++ [r]) f := by
  obtain ⟨before, rest, rfl, hnot⟩ := h
  exact ⟨before, rest ++ [r], by rw [List.append_assoc, List.cons_append], hnot⟩

end Calls

open Calls

namespace CallGraph

variable {g : CallGraph} {requests : List Request}

def serve (g : CallGraph) : Request → CallGraph × Reply
  | .function name file line =>
    let (id, g) := g.addFunction name file line
    (g, .number id)
  | .call c =>
    match g.addCall c with
    | .ok (isNew, g) => (g, .added isNew)
    | .error why => (g, .fault why)

def after (g : CallGraph) (requests : List Request) : CallGraph :=
  requests.foldl (fun g r => (g.serve r).1) g

theorem after_append_singleton (g : CallGraph) (requests : List Request) (r : Request) :
    g.after (requests ++ [r]) = ((g.after requests).serve r).1 := by
  rw [after, List.foldl_append]
  rfl

theorem Built.serve (h : g.Built) (r : Request) : (g.serve r).1.Built := by
  cases r with
  | function name file line => exact h.addFunction name file line
  | call c =>
    cases hc : g.addCall c with
    | error why =>
      have hsame : (g.serve (.call c)).1 = g := by rw [CallGraph.serve, hc]
      rw [hsame]
      exact h
    | ok result =>
      have hnext : (g.serve (.call c)).1 = result.2 := by rw [CallGraph.serve, hc]
      rw [hnext]
      exact h.addCall hc

theorem Built.after (h : g.Built) (requests : List Request) : (g.after requests).Built := by
  induction requests generalizing g with
  | nil => exact h
  | cons r requests ih => exact ih (h.serve r)

/-! ## Where the functions come from -/

/-- Every name that is asked for has a function, and every function was asked for. -/
structure Introduced (g : CallGraph) (requests : List Request) : Prop where
  known : ∀ {name file line}, Request.function name file line ∈ requests →
    ∃ i, g.registry.number? name = some i
  first : ∀ {i f}, g.registry.get? i = some f → Introduces requests f

theorem Introduced.call (h : g.Introduced requests) (c : Call) :
    (g.serve (.call c)).1.Introduced (requests ++ [.call c]) := by
  have hsame : (g.serve (.call c)).1.registry = g.registry := by
    rw [serve]
    split
    · rename_i hc
      obtain ⟨_, _, ⟨_, _, rfl⟩ | ⟨_, _, rfl⟩⟩ := addCall_cases hc
      · rfl
      · rfl
    · rfl
  refine ⟨fun {name file line} hname => ?_, fun {i f} hf => ?_⟩
  · rw [hsame]
    rcases List.mem_append.1 hname with hname | hname
    · exact h.known hname
    · cases List.mem_singleton.1 hname
  · rw [hsame] at hf
    exact (h.first hf).append _

theorem Introduced.function (h : g.Introduced requests) (name : String) (file : Path) (line : Nat) :
    (g.serve (.function name file line)).1.Introduced (requests ++ [.function name file line]) := by
  show Introduced ⟨(g.registry.register name file line).2, _, _, _, _⟩ _
  cases hn : g.registry.number? name with
  | some j =>
    rw [Registry.register_of_number? hn]
    refine ⟨fun {name' file' line'} hname => ?_, fun {i f} hf => (h.first hf).append _⟩
    rcases List.mem_append.1 hname with hname | hname
    · exact h.known hname
    · cases List.mem_singleton.1 hname
      exact ⟨j, hn⟩
  | none =>
    refine ⟨fun {name' file' line'} hname => ?_, fun {i f} hf => ?_⟩
    · show ∃ i, (g.registry.register name file line).2.number? name' = some i
      rw [Registry.number?_register_of_none hn]
      by_cases he : name = name'
      · exact ⟨_, if_pos he⟩
      · rw [if_neg he]
        rcases List.mem_append.1 hname with hname | hname
        · exact h.known hname
        · cases List.mem_singleton.1 hname
          exact absurd rfl he
    · rcases (Registry.get?_register_of_none hn).1 hf with hf | ⟨-, rfl⟩
      · exact (h.first hf).append _
      · -- Whoever had asked for the name before would have given it a number.
        refine ⟨requests, [], rfl, fun file' line' hmem => ?_⟩
        obtain ⟨i, hi⟩ := h.known hmem
        rw [hn] at hi
        cases hi

theorem introduced_after (requests : List Request) :
    ((∅ : CallGraph).after requests).Introduced requests := by
  induction requests using List.reverseRecOn with
  | nil => exact ⟨fun hname => (List.not_mem_nil hname).elim, nofun⟩
  | append_singleton requests r ih =>
    rw [after_append_singleton]
    cases r with
    | function name file line => exact ih.function name file line
    | call c => exact ih.call c

/-! ## What a graph promises -/

structure ServesCall (g : CallGraph) (c : Call) : Prop where
  fault_iff : (∃ why, (g.serve (.call c)).2 = .fault why) ↔
    g.function? c.caller = none ∨ g.function? c.callee = none
  of_fault : ∀ why, (g.serve (.call c)).2 = .fault why → (g.serve (.call c)).1 = g
  known_iff : (g.serve (.call c)).2 = .added false ↔ c ∈ g.calls
  of_known : (g.serve (.call c)).2 = .added false → (g.serve (.call c)).1 = g
  new_iff : (g.serve (.call c)).2 = .added true ↔
    g.function? c.caller ≠ none ∧ g.function? c.callee ≠ none ∧ c ∉ g.calls
  of_new : (g.serve (.call c)).2 = .added true →
    (g.serve (.call c)).1.registry = g.registry ∧ (g.serve (.call c)).1.calls = g.calls ++ [c]

/-- Adding a call asks for its caller, for its callee, and whether it is there. -/
theorem Consistent.addCall_eq (hg : g.Consistent) (c : Call) :
    g.addCall c =
      if g.function? c.caller = none then .error (.noNumber c.caller)
      else if g.function? c.callee = none then .error (.noNumber c.callee)
      else if c ∈ g.calls then .ok (false, g)
      else .ok (true, g.append c) := by
  have hmem : g.seen.contains c = true ↔ c ∈ g.calls :=
    SortedSet.contains_iff_mem.trans hg.indexed.mem_seen
  simp only [CallGraph.addCall, function?, Option.isNone_iff_eq_none, hmem]
  congr

theorem Consistent.servesCall (hg : g.Consistent) (c : Call) : g.ServesCall c := by
  have hcaller : c ∈ g.calls → g.function? c.caller ≠ none := fun hc => by
    obtain ⟨f, hf⟩ := hg.caller hc
    simp [hf]
  have hcallee : c ∈ g.calls → g.function? c.callee ≠ none := fun hc => by
    obtain ⟨f, hf⟩ := hg.callee hc
    simp [hf]
  have hadd := hg.addCall_eq c
  by_cases hfrom : g.function? c.caller = none
  · rw [if_pos hfrom] at hadd
    have hserve : g.serve (.call c) = (g, .fault (.noNumber c.caller)) := by rw [serve, hadd]
    have hnot : c ∉ g.calls := fun hc => hcaller hc hfrom
    constructor <;> simp [hserve, hfrom, hnot]
  · rw [if_neg hfrom] at hadd
    by_cases hto : g.function? c.callee = none
    · rw [if_pos hto] at hadd
      have hserve : g.serve (.call c) = (g, .fault (.noNumber c.callee)) := by rw [serve, hadd]
      have hnot : c ∉ g.calls := fun hc => hcallee hc hto
      constructor <;> simp [hserve, hto, hnot]
    · rw [if_neg hto] at hadd
      by_cases hmem : c ∈ g.calls
      · rw [if_pos hmem] at hadd
        have hserve : g.serve (.call c) = (g, .added false) := by rw [serve, hadd]
        constructor <;> simp [hserve, hfrom, hto, hmem]
      · rw [if_neg hmem] at hadd
        have hserve : g.serve (.call c) = (g.append c, .added true) := by rw [serve, hadd]
        constructor <;> simp [hserve, hfrom, hto, hmem, append]

/-- What holds of a graph that has answered some requests. -/
structure Sound (g : CallGraph) (requests : List Request) : Prop where
  id_eq : ∀ i f, g.function? i = some f → f.id = i
  nodup_names : (g.registry.functions.map Function.name).Nodup
  number_iff : ∀ name i, g.number name = .ok i ↔ ∃ f, g.function? i = some f ∧ f.name = name
  known : ∀ name file line, Request.function name file line ∈ requests → ∃ i, g.number name = .ok i
  introduces : ∀ i f, g.function? i = some f → Introduces requests f
  caller : ∀ c ∈ g.calls, ∃ f, g.function? c.caller = some f
  callee : ∀ c ∈ g.calls, ∃ f, g.function? c.callee = some f
  nodup_calls : g.calls.Nodup
  callsFrom : ∀ id, g.callsFrom id = g.calls.filter fun c => c.caller == id
  callsTo : ∀ id, g.callsTo id = g.calls.filter fun c => c.callee == id
  servesCall : ∀ c, g.ServesCall c

theorem Consistent.nodup_names (hg : g.Consistent) :
    (g.registry.functions.map Function.name).Nodup := by
  rw [List.nodup_iff_getElem?_ne_getElem?]
  intro i j hij hj heq
  rw [List.getElem?_map, List.getElem?_map] at heq
  rw [List.length_map] at hj
  have hi : i < g.registry.functions.length := by omega
  rw [List.getElem?_eq_getElem hi, List.getElem?_eq_getElem hj] at heq
  have hsame := hg.registry.eq_of_name_eq (List.getElem?_eq_getElem hi)
    (List.getElem?_eq_getElem hj) (Option.some.inj heq)
  omega

/-- Whatever is asked of an empty graph, and whether it succeeds or not, leaves a graph whose parts
agree. -/
theorem sound_after (requests : List Request) :
    ((∅ : CallGraph).after requests).Sound requests := by
  have hg : ((∅ : CallGraph).after requests).Consistent := (Built.empty.after requests).consistent
  have hfrom := introduced_after requests
  refine ⟨fun i f hf => hg.registry.id_eq hf, hg.nodup_names, fun name i => ?_,
    fun name file line hname => ?_, fun i f hf => hfrom.first hf, fun c hc => hg.caller hc,
    fun c hc => hg.callee hc, hg.nodup, hg.indexed.callsFrom, hg.indexed.callsTo, hg.servesCall⟩
  · rw [number_eq_ok_iff hg, name_eq_ok_iff]
  · obtain ⟨i, hi⟩ := hfrom.known hname
    exact ⟨i, by rw [number, hi]⟩

end CallGraph

end AsyncSpread
