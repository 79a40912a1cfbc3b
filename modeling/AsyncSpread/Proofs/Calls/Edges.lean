import Mathlib.Data.List.Nodup
import AsyncSpread.Proofs.Calls.Judged
import AsyncSpread.Proofs.Calls.Spread

/-!
Calls by the names of their functions.

The numbers of a graph say in which order its functions came, and nothing else.  Told by names, the
calls of a graph are all that a plan depends on, as long as every function makes a call or is called
(`CallGraph.propagate_eq_of_edges`).
-/

namespace AsyncSpread

open Calls Trace

namespace Calls

structure Edge where
  caller : Option String
  callee : Option String
  name : String
  line : Nat
deriving DecidableEq, Repr

end Calls

namespace CallGraph

variable {g g' : CallGraph}

def edge (g : CallGraph) (c : Call) : Edge :=
  ⟨(g.name c.caller).toOption, (g.name c.callee).toOption, c.name, c.line⟩

def edges (g : CallGraph) : List Edge := g.calls.map g.edge

theorem toOption_name_eq_some {i : Nat} {n : String} :
    (g.name i).toOption = some n ↔ g.name i = .ok n :=
  ⟨toOption_eq_some, fun h => by rw [h]; rfl⟩

theorem Consistent.edge_injOn (hg : g.Consistent) {c d : Call} (hc : c ∈ g.calls)
    (h : g.edge c = g.edge d) : c = d := by
  have hsame : ∀ {i j}, (∃ f, g.function? i = some f) →
      (g.name i).toOption = (g.name j).toOption → i = j := by
    intro i j hi hij
    obtain ⟨f, hf⟩ := hi
    have hname : g.name i = .ok f.name := name_eq_ok_iff.2 ⟨f, hf, rfl⟩
    rw [toOption_name_eq_some.2 hname] at hij
    exact name_injective hg hname (toOption_name_eq_some.1 hij.symm)
  obtain ⟨hcaller, hcallee, hname, hline⟩ := Edge.mk.inj h
  cases c
  cases d
  simp only [Call.mk.injEq]
  exact ⟨hsame (hg.caller hc) hcaller, hsame (hg.callee hc) hcallee, hname, hline⟩

theorem Consistent.nodup_edges (hg : g.Consistent) : g.edges.Nodup :=
  List.Nodup.map_on (fun _ hc _ _ h => hg.edge_injOn hc h) hg.nodup

theorem mem_edges_iff {x : Edge} : x ∈ g.edges ↔ ∃ c ∈ g.calls, g.edge c = x := List.mem_map

/-! ## Plans -/

theorem calling_iff {n m : String} :
    g.Calling n m ↔ ∃ x ∈ g.edges, x.caller = some n ∧ x.callee = some m := by
  constructor
  · intro h
    obtain ⟨c, hc, hn, hm⟩ := h
    exact ⟨g.edge c, List.mem_map_of_mem hc, toOption_name_eq_some.2 hn, toOption_name_eq_some.2 hm⟩
  · intro h
    obtain ⟨x, hx, hn, hm⟩ := h
    obtain ⟨c, hc, rfl⟩ := mem_edges_iff.1 hx
    exact ⟨c, hc, toOption_name_eq_some.1 hn, toOption_name_eq_some.1 hm⟩

theorem has_iff (hj : g.Joined) {n : String} :
    g.Has n ↔ ∃ x ∈ g.edges, x.caller = some n ∨ x.callee = some n := by
  constructor
  · intro h
    obtain ⟨i, hi⟩ := h
    obtain ⟨f, hf, _⟩ := name_eq_ok_iff.1 hi
    obtain ⟨c, hc, hend⟩ := (hj i).1 ⟨f, hf⟩
    refine ⟨g.edge c, List.mem_map_of_mem hc, ?_⟩
    rcases hend with rfl | rfl
    · exact .inl (toOption_name_eq_some.2 hi)
    · exact .inr (toOption_name_eq_some.2 hi)
  · intro h
    obtain ⟨x, hx, hend⟩ := h
    obtain ⟨c, _, rfl⟩ := mem_edges_iff.1 hx
    rcases hend with hn | hn
    · exact ⟨c.caller, toOption_name_eq_some.1 hn⟩
    · exact ⟨c.callee, toOption_name_eq_some.1 hn⟩

/-- The condition under which a plan awaits a call speaks of names only. -/
theorem exists_call_iff {k : CallKey} {functions : SortedSet String} :
    (∃ c ∈ g.calls, g.name c.caller = .ok k.caller ∧ c.name = k.callee ∧
      ∃ n ∈ functions, g.name c.callee = .ok n) ↔
      ∃ x ∈ g.edges, x.caller = some k.caller ∧ x.name = k.callee ∧
        ∃ n ∈ functions, x.callee = some n := by
  constructor
  · intro h
    obtain ⟨c, hc, hcaller, hname, n, hn, hcallee⟩ := h
    exact ⟨g.edge c, List.mem_map_of_mem hc, toOption_name_eq_some.2 hcaller, hname, n, hn,
      toOption_name_eq_some.2 hcallee⟩
  · intro h
    obtain ⟨x, hx, hcaller, hname, n, hn, hcallee⟩ := h
    obtain ⟨c, hc, rfl⟩ := mem_edges_iff.1 hx
    exact ⟨c, hc, toOption_name_eq_some.1 hcaller, hname, n, hn, toOption_name_eq_some.1 hcallee⟩

variable {names : List String} {testPrefix : String} {p : Plan}

/-- A plan for one graph is one for every graph with the same calls. -/
theorem Plans.of_edges (h : g'.Plans names testPrefix p)
    (hedges : ∀ x, x ∈ g.edges ↔ x ∈ g'.edges) : g.Plans names testPrefix p := by
  have hcalling : g.Calling = g'.Calling := by
    funext n m
    simp only [calling_iff, hedges]
  refine ⟨fun n => ?_, fun k => ?_, h.tests⟩
  · rw [h.functions, LeadsTo, LeadsTo, hcalling]
  · rw [h.calls, exists_call_iff, exists_call_iff]
    simp only [hedges]

theorem has_of_propagate (hg : g.Consistent) (h : g.propagate names testPrefix = .ok p) :
    ∀ n ∈ names, g.Has n := by
  cases hs : names.mapM g.number with
  | error e =>
    simp only [propagate, hs] at h
    cases h
  | ok seeds =>
    intro n hn
    obtain ⟨i, _, hi⟩ := Fallible.exists_of_mapM hs hn
    exact ⟨i, (number_eq_ok_iff hg).1 hi⟩

/-- Graphs with the same calls by name spread asynchrony in the same way, or fail alike. -/
theorem propagate_eq_of_edges (hg : g.Consistent) (hg' : g'.Consistent) (hj : g.Joined)
    (hj' : g'.Joined) (hedges : ∀ x, x ∈ g.edges ↔ x ∈ g'.edges) (names : List String)
    (testPrefix : String) : g.propagate names testPrefix = g'.propagate names testPrefix := by
  have hhas : ∀ n, g.Has n ↔ g'.Has n := by
    intro n
    simp only [has_iff hj, has_iff hj', hedges]
  cases hp : g.propagate names testPrefix with
  | error e =>
    rw [propagate_eq_error_iff hg] at hp
    simp only [hhas] at hp
    exact ((propagate_eq_error_iff hg').2 hp).symm
  | ok p =>
    have hnames := has_of_propagate hg hp
    obtain ⟨p₁, hp₁, hplans⟩ := exists_propagate hg names testPrefix hnames
    obtain ⟨p₂, hp₂, hplans'⟩ := exists_propagate hg' names testPrefix fun n hn =>
      (hhas n).1 (hnames n hn)
    rw [hp₂, ← hp, hp₁, hplans.eq (hplans'.of_edges hedges) fun _ => Iff.rfl]

/-! ## Linking -/

theorem name_introduce {i : Nat} {n : String} (h : g.name i = .ok n) (raw : RawCall)
    (caller callee : String) : (g.introduce raw caller callee).2.name i = .ok n := by
  obtain ⟨f, hf, hn⟩ := name_eq_ok_iff.1 h
  exact name_eq_ok_iff.2 ⟨f, Registry.get?_register (Registry.get?_register hf), hn⟩

variable {raw : RawCall} {caller callee : String}

/-- The call that is added has the names that it is linked under. -/
theorem edge_introduce (hg : g.Consistent) (raw : RawCall) (caller callee : String) :
    (g.introduce raw caller callee).2.edge (g.introduce raw caller callee).1 =
      ⟨some caller, some callee, raw.literal, raw.callLine⟩ := by
  have hfirst := hg.addFunction caller raw.caller.file raw.caller.line
  obtain ⟨source, hsource, hcaller⟩ :=
    Registry.get?_register_fst hg.registry caller raw.caller.file raw.caller.line
  obtain ⟨target, htarget, hcallee⟩ :=
    Registry.get?_register_fst hfirst.registry callee raw.callee.file raw.callee.line
  have hc : (g.introduce raw caller callee).2.name (g.introduce raw caller callee).1.caller =
      .ok caller :=
    name_eq_ok_iff.2 ⟨source, Registry.get?_register hsource, hcaller⟩
  have hd : (g.introduce raw caller callee).2.name (g.introduce raw caller callee).1.callee =
      .ok callee :=
    name_eq_ok_iff.2 ⟨target, htarget, hcallee⟩
  rw [edge, hc, hd]
  rfl

theorem edge_introduce_of_mem (hg : g.Consistent) {c : Call} (hc : c ∈ g.calls) (raw : RawCall)
    (caller callee : String) : (g.introduce raw caller callee).2.edge c = g.edge c := by
  obtain ⟨f, hf⟩ := hg.caller hc
  obtain ⟨f', hf'⟩ := hg.callee hc
  have hcaller : g.name c.caller = .ok f.name := name_eq_ok_iff.2 ⟨f, hf, rfl⟩
  have hcallee : g.name c.callee = .ok f'.name := name_eq_ok_iff.2 ⟨f', hf', rfl⟩
  rw [edge, edge, name_introduce hcaller, name_introduce hcallee, hcaller, hcallee]

theorem edges_introduce (hg : g.Consistent) (raw : RawCall) (caller callee : String) :
    (g.introduce raw caller callee).2.edges = g.edges :=
  List.map_congr_left fun _ hc => edge_introduce_of_mem hg hc raw caller callee

theorem edges_linked (hg : g.Consistent) :
    (g.linked raw caller callee).edges = g.edges ++
      [⟨some caller, some callee, raw.literal, raw.callLine⟩] := by
  rw [← edges_introduce hg raw caller callee, ← edge_introduce hg raw caller callee]
  exact List.map_append

theorem introduce_mem_iff (hg : g.Consistent) :
    (g.introduce raw caller callee).1 ∈ g.calls ↔
      ⟨some caller, some callee, raw.literal, raw.callLine⟩ ∈ g.edges := by
  rw [← edge_introduce hg raw caller callee]
  constructor
  · intro h
    rw [edge_introduce_of_mem hg h raw caller callee]
    exact List.mem_map_of_mem h
  · intro h
    obtain ⟨c, hc, hedge⟩ := mem_edges_iff.1 h
    rw [← edge_introduce_of_mem hg hc raw caller callee] at hedge
    rwa [← (hg.introduce raw caller callee).edge_injOn hc hedge]

end CallGraph

end AsyncSpread
