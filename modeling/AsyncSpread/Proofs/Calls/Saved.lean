import AsyncSpread.Calls.Saved
import AsyncSpread.Proofs.Calls.Requests
import AsyncSpread.Proofs.Json.Fields
import AsyncSpread.Proofs.Json.Printed

/-!
A graph that is saved and loaded is the same graph.

What is saved are the functions and the calls.  Their numbers are words of 64 bits
(`CallGraph.Fits`), so any codec of JSON that keeps its law gives them back.  The rest of a graph is
made anew, and in a graph that was built by requests each part already is what making it anew would
give (`CallGraph.reindex_of_built`).  So nothing that is asked of the loaded graph, now or after
further requests, tells it from the one that was saved (`CallGraph.load?_save_after`).
-/

namespace AsyncSpread

namespace Calls

theorem count?_whole {n : Nat} (h : n < Text.countLimit) :
    (Json.whole n).count? = some n := if_pos h

def Request.line : Request → Nat
  | .function _ _ line => line
  | .call c => c.line

/-! ## Functions -/

structure Function.Fits (f : Function) : Prop where
  id : f.id < Text.countLimit
  line : f.line < Text.countLimit

theorem Function.ofJson?_toJson {f : Function} (h : f.Fits) : ofJson? f.toJson = some f := by
  have hfields : f.toJson.allFields? ["id", "qualified_name", "file", "line"] =
      some [.whole f.id, .text f.name, .text f.file.text, .whole f.line] :=
    Json.allFields?_ofMembers rfl (by decide)
  rw [ofJson?, hfields]
  simp [count?_whole h.id, count?_whole h.line, Json.text?]

theorem Function.writable_toJson {f : Function} (h : f.Fits) : f.toJson.Writable :=
  .record (by simp) (by simp [Json.Writable.whole, Json.Writable.text, h.id, h.line])

/-! ## Calls -/

structure Call.Fits (c : Call) : Prop where
  caller : c.caller < Text.countLimit
  callee : c.callee < Text.countLimit
  line : c.line < Text.countLimit

theorem Call.ofJson?_toJson {c : Call} (h : c.Fits) : ofJson? c.toJson = some c := by
  have hfields : c.toJson.allFields? ["caller", "callee", "name", "call_line"] =
      some [.whole c.caller, .whole c.callee, .text c.name, .whole c.line] :=
    Json.allFields?_ofMembers rfl (by decide)
  rw [ofJson?, hfields]
  simp [count?_whole h.caller, count?_whole h.callee, count?_whole h.line, Json.text?]

theorem Call.writable_toJson {c : Call} (h : c.Fits) : c.toJson.Writable :=
  .record (by simp)
    (by simp [Json.Writable.whole, Json.Writable.text, h.caller, h.callee, h.line])

/-! ## Registries -/

namespace Registry

/-- The functions are read back; their names have to be numbered anew. -/
theorem ofJson?_toJson {r : Registry} (h : ∀ f ∈ r.functions, f.Fits) :
    ofJson? r.toJson = some ⟨r.functions, []⟩ := by
  have hfields : r.toJson.allFields? ["functions"] =
      some [.list (r.functions.map Function.toJson)] :=
    Json.allFields?_ofMembers rfl (by decide)
  have hlist := Json.listOf?_map fun f hf => Function.ofJson?_toJson (h f hf)
  rw [ofJson?, hfields]
  simp [hlist]

theorem writable_toJson {r : Registry} (h : ∀ f ∈ r.functions, f.Fits) : r.toJson.Writable := by
  refine .record (List.nodup_singleton _) fun m hm => ?_
  rw [List.mem_singleton.1 hm]
  refine .list fun v hv => ?_
  obtain ⟨f, hf, rfl⟩ := List.mem_map.1 hv
  exact Function.writable_toJson (h f hf)

/-- Registering a function numbers its name as numbering all names anew does. -/
theorem renumber_register {r : Registry} (h : r.renumber = r) (name : String) (file : Path)
    (line : Nat) : (r.register name file line).2.renumber = (r.register name file line).2 := by
  cases hn : r.number? name with
  | some i => rw [register_of_number? hn]; exact h
  | none =>
    rw [register_of_number?_none hn]
    have hnumbers : (r.functions.map fun f => (f.name, f.id)).reverse = r.numbers :=
      congrArg Registry.numbers h
    simp [renumber, hnumbers]

end Registry

end Calls

open Calls

namespace CallGraph

variable {g : CallGraph}

/-! ## Graphs -/

theorem Built.renumber (h : g.Built) : g.registry.renumber = g.registry := by
  induction h with
  | empty => rfl
  | addFunction _ name file line ih => exact Registry.renumber_register ih name file line
  | addCall _ hc ih =>
    obtain ⟨_, _, ⟨_, _, rfl⟩ | ⟨_, _, rfl⟩⟩ := addCall_cases hc
    · exact ih
    · exact ih

/-- Everything in a built graph is what can be made anew from its functions and calls. -/
theorem reindex_of_built (h : g.Built) :
    reindex ⟨⟨g.registry.functions, []⟩, g.calls, ∅, ∅, ∅⟩ = g := by
  have hregistry : Registry.renumber ⟨g.registry.functions, []⟩ = g.registry := h.renumber
  have hindexed := h.consistent.indexed
  rw [reindex, hregistry, ← hindexed.seen, ← hindexed.outgoing, ← hindexed.incoming]

structure Fits (g : CallGraph) : Prop where
  functions : ∀ f ∈ g.registry.functions, f.Fits
  calls : ∀ c ∈ g.calls, c.Fits

theorem writable_toJson (h : g.Fits) : g.toJson.Writable := by
  refine .record (by simp) fun m hm => ?_
  simp only [List.mem_cons, List.not_mem_nil, or_false] at hm
  rcases hm with rfl | rfl
  · exact Registry.writable_toJson h.functions
  · refine .list fun v hv => ?_
    obtain ⟨c, hc, rfl⟩ := List.mem_map.1 hv
    exact Call.writable_toJson (h.calls c hc)

theorem ofJson?_toJson (h : g.Fits) :
    ofJson? g.toJson = some (reindex ⟨⟨g.registry.functions, []⟩, g.calls, ∅, ∅, ∅⟩) := by
  have hfields : g.toJson.allFields? ["registry", "calls"] =
      some [g.registry.toJson, .list (g.calls.map Call.toJson)] :=
    Json.allFields?_ofMembers rfl (by decide)
  have hlist := Json.listOf?_map fun c hc => Call.ofJson?_toJson (h.calls c hc)
  rw [ofJson?, hfields]
  simp [hlist, Registry.ofJson?_toJson h.functions]

theorem load?_save_of_built [Json.Codec] [Json.LawfulCodec] (h : g.Built) (hfits : g.Fits) :
    load? g.save = some g := by
  rw [load?, save, Json.LawfulCodec.read?_write (writable_toJson hfits), Option.bind_some,
    ofJson?_toJson hfits, reindex_of_built h]

/-! ## Graphs that have answered requests -/

theorem mem_requests_of_mem_calls {requests : List Request} {c : Call}
    (hc : c ∈ ((∅ : CallGraph).after requests).calls) : Request.call c ∈ requests := by
  induction requests using List.reverseRecOn with
  | nil => exact (List.not_mem_nil hc).elim
  | append_singleton requests r ih =>
    rw [after_append_singleton] at hc
    rw [List.mem_append, List.mem_singleton]
    cases r with
    | function name file line => exact .inl (ih hc)
    | call d =>
      rw [serve] at hc
      split at hc
      · rename_i hd
        obtain ⟨_, _, ⟨_, _, rfl⟩ | ⟨_, _, rfl⟩⟩ := addCall_cases hd
        · exact .inl (ih hc)
        · rcases List.mem_append.1 hc with hc | hc
          · exact .inl (ih hc)
          · exact .inr (congrArg Request.call (List.mem_singleton.1 hc))
      · exact .inl (ih hc)

variable {requests : List Request}

/-- The lines of a graph are those of requests, and its other numbers are below the number of its
functions. -/
theorem fits_after (hline : ∀ r ∈ requests, r.line < Text.countLimit)
    (hsize : ((∅ : CallGraph).after requests).registry.size ≤ Text.countLimit) :
    ((∅ : CallGraph).after requests).Fits := by
  have hg : ((∅ : CallGraph).after requests).Consistent := (Built.empty.after requests).consistent
  have hlt : ∀ {i f}, ((∅ : CallGraph).after requests).function? i = some f →
      i < Text.countLimit := fun hf =>
    Nat.lt_of_lt_of_le (Registry.lt_size_of_get? hf) hsize
  refine ⟨fun f hf => ?_, fun c hc => ?_⟩
  · obtain ⟨i, hi⟩ := List.getElem?_of_mem hf
    have hid : f.id = i := hg.registry.id_eq hi
    obtain ⟨before, rest, hrequests, -⟩ := (introduced_after requests).first hi
    have hmem : Request.function f.name f.file f.line ∈ requests := by
      rw [hrequests]
      exact List.mem_append_right _ List.mem_cons_self
    exact ⟨hid ▸ hlt hi, hline _ hmem⟩
  · obtain ⟨_, hcaller⟩ := hg.caller hc
    obtain ⟨_, hcallee⟩ := hg.callee hc
    exact ⟨hlt hcaller, hlt hcallee, hline _ (mem_requests_of_mem_calls hc)⟩

/-- Saving and loading loses nothing of a graph that has answered requests. -/
theorem load?_save_after [Json.Codec] [Json.LawfulCodec]
    (hline : ∀ r ∈ requests, r.line < Text.countLimit)
    (hsize : ((∅ : CallGraph).after requests).registry.size ≤ Text.countLimit) :
    load? ((∅ : CallGraph).after requests).save = some ((∅ : CallGraph).after requests) :=
  load?_save_of_built (Built.empty.after requests) (fits_after hline hsize)

/-- Requests with signs that are escaped or written as they are, of which two fail to change
anything. -/
def scripted : List Request := [
  .function "app.größe" ⟨"src/a \"b\"\n.py"⟩ 10, .function "app.λ" ⟨"src\\c.py"⟩ 0,
    .call ⟨0, 1, "λ", 12⟩, .call ⟨0, 7, "x", 1⟩,
  .call ⟨0, 1, "λ", 12⟩, .function "app.λ" ⟨"other.py"⟩ 3]

theorem load?_save_scripted :
    (∀ r ∈ scripted, r.line < Text.countLimit) ∧
      ((∅ : CallGraph).after scripted).registry.size ≤ Text.countLimit ∧
      ((∅ : CallGraph).after scripted).calls = [⟨0, 1, "λ", 12⟩] ∧
      load? ((∅ : CallGraph).after scripted).save = some ((∅ : CallGraph).after scripted) := by
  have hline : ∀ r ∈ scripted, r.line < Text.countLimit := by decide
  have hsize : ((∅ : CallGraph).after scripted).registry.size ≤ Text.countLimit := by decide +kernel
  exact ⟨hline, hsize, by decide +kernel, load?_save_after hline hsize⟩

end CallGraph

end AsyncSpread
