import AsyncSpread.Calls.Builder
import AsyncSpread.Proofs.Calls.Requests

/-!
What becomes of a raw call.

A raw call is judged by the sources and the name lookup alone, before the graph is touched
(`Verdict`): it is left out for one of three reasons, or it is to be linked under two names.
Linking asks whether the call between the two names is there already.  If it is, both functions are
there too and the graph stays as it is; otherwise the call is new (`Builder.link_eq`).
-/

namespace AsyncSpread

open Calls Trace

namespace Source

theorem resolveLine_eq_error {disk : Disk} {file : Path} {name : String} {reported : Nat}
    {c : Cache} {e : Profile.Fault} (h : resolveLine disk file name reported c = .error e) :
    e.isRecoverable = true := by
  unfold resolveLine at h
  split at h
  · cases h
  · split at h
    · cases h; rfl
    · cases h

/-- Only a source that cannot be read stands in the way of resolving a call. -/
theorem resolveCall_eq_error {disk : Disk} {raw : RawCall} {c c' : Cache} {e : Profile.Fault}
    (h : resolveCall disk raw c = (c', .error e)) : e.isRecoverable = true := by
  unfold resolveCall at h
  split at h
  · rename_i hcaller
    cases h
    exact resolveLine_eq_error hcaller
  · split at h
    · rename_i hcallee
      cases h
      exact resolveLine_eq_error hcallee
    · cases h

end Source

namespace Calls

/-- Why a raw call is left out. -/
inductive Skip where
  | unreadable
  | noDefinition
  | noName
deriving DecidableEq, Repr

inductive Verdict where
  | skip (why : Skip)
  /-- A call whose functions are defined where they say, with their names. -/
  | link (raw : RawCall) (caller callee : String)

/-- Judges a raw call by what its resolving gives. -/
def judge (lookup : NameLookup) : Except Profile.Fault (RawCall × Bool) → Verdict
  | .error _ => .skip .unreadable
  | .ok (_, false) => .skip .noDefinition
  | .ok (raw, true) =>
    match lookup raw.caller.file raw.caller.line, lookup raw.callee.file raw.callee.line with
    | some caller, some callee => .link raw caller callee
    | _, _ => .skip .noName

def Tally.skip (t : Tally) : Skip → Tally
  | .unreadable => { t with unreadable := t.unreadable + 1 }
  | .noDefinition => { t with unresolvedLines := t.unresolvedLines + 1 }
  | .noName => { t with unresolvedNames := t.unresolvedNames + 1 }

namespace Builder

def settle (b : Builder) : Verdict → Builder × Except BuildFault Bool
  | .skip why => ({ b with tally := b.tally.skip why }, .ok false)
  | .link raw caller callee => b.link raw caller callee

def receive (b : Builder) (sources : Source.Cache) : Builder :=
  ⟨sources, b.graph, { b.tally with rawCalls := b.tally.rawCalls + 1 }⟩

/-- Adding a raw call is judging it and then settling it. -/
theorem add_eq (disk : Disk) (lookup : NameLookup) (b : Builder) (raw : RawCall) :
    b.add disk lookup raw = (b.receive (Source.resolveCall disk raw b.sources).1).settle
      (judge lookup (Source.resolveCall disk raw b.sources).2) := by
  rw [add]
  cases hresolved : Source.resolveCall disk raw b.sources with
  | mk sources resolved =>
    cases resolved with
    | error e =>
      have hrecoverable := Source.resolveCall_eq_error hresolved
      simp [hrecoverable, judge, settle, receive, Tally.skip]
    | ok result =>
      obtain ⟨raw', both⟩ := result
      cases both with
      | false => rfl
      | true =>
        dsimp only [judge]
        cases lookup raw'.caller.file raw'.caller.line with
        | none => rfl
        | some caller =>
          cases lookup raw'.callee.file raw'.callee.line with
          | none => rfl
          | some callee => rfl

end Builder

/-! ## Registering -/

namespace Registry

variable {r : Registry}

theorem get?_register_fst (hr : r.Consistent) (name : String) (file : Path) (line : Nat) :
    ∃ f, (r.register name file line).2.get? (r.register name file line).1 = some f ∧
      f.name = name := by
  cases hn : r.number? name with
  | some i =>
    rw [register_of_number? hn]
    exact (hr.number?_eq_some_iff name i).1 hn
  | none =>
    have hfst : (r.register name file line).1 = r.size := by rw [register_of_number?_none hn]
    rw [hfst]
    exact ⟨_, (get?_register_of_none hn).2 (.inr ⟨rfl, rfl⟩), rfl⟩

/-- A number that was there before is that of a name that was there before. -/
theorem register_of_get? {name : String} {file : Path} {line : Nat} {f : Function}
    (h : r.get? (r.register name file line).1 = some f) :
    (r.register name file line).2 = r := by
  cases hn : r.number? name with
  | some i => rw [register_of_number? hn]
  | none =>
    rw [register_of_number?_none hn] at h
    exact absurd (lt_size_of_get? h) (Nat.lt_irrefl _)

/-- Registering brings in the number that it returns, and no other. -/
theorem exists_get?_register_iff (hr : r.Consistent) (name : String) (file : Path) (line : Nat)
    {i : Nat} :
    (∃ f, (r.register name file line).2.get? i = some f) ↔
      (∃ f, r.get? i = some f) ∨ i = (r.register name file line).1 := by
  constructor
  · intro hand
    obtain ⟨f, hf⟩ := hand
    cases hn : r.number? name with
    | some j => rw [register_of_number? hn] at hf; exact .inl ⟨f, hf⟩
    | none =>
      rcases (get?_register_of_none hn).1 hf with hf | ⟨hi, -⟩
      · exact .inl ⟨f, hf⟩
      · rw [register_of_number?_none hn]; exact .inr hi
  · intro hor
    rcases hor with ⟨f, hf⟩ | rfl
    · exact ⟨f, get?_register hf⟩
    · obtain ⟨f, hf, -⟩ := get?_register_fst hr name file line
      exact ⟨f, hf⟩

end Registry

end Calls

/-! ## Linking -/

namespace CallGraph

variable {g : CallGraph} {raw : RawCall} {caller callee : String}

/-- The graph with the functions of a raw call, and the call between them. -/
def introduce (g : CallGraph) (raw : RawCall) (caller callee : String) : Call × CallGraph :=
  let (source, g) := g.addFunction caller raw.caller.file raw.caller.line
  let (target, g) := g.addFunction callee raw.callee.file raw.callee.line
  (⟨source, target, raw.literal, raw.callLine⟩, g)

theorem Consistent.introduce (hg : g.Consistent) (raw : RawCall) (caller callee : String) :
    (g.introduce raw caller callee).2.Consistent := (hg.addFunction ..).addFunction ..

/-- The functions of a graph are kept, and the two of the call come in. -/
theorem exists_function?_introduce_iff (hg : g.Consistent) (raw : RawCall) (caller callee : String)
    {i : Nat} :
    (∃ f, (g.introduce raw caller callee).2.function? i = some f) ↔
      (∃ f, g.function? i = some f) ∨ i = (g.introduce raw caller callee).1.caller ∨
        i = (g.introduce raw caller callee).1.callee := by
  have hfirst := hg.addFunction caller raw.caller.file raw.caller.line
  have hsource := Registry.exists_get?_register_iff hg.registry caller raw.caller.file
    raw.caller.line (i := i)
  have htarget := Registry.exists_get?_register_iff hfirst.registry callee raw.callee.file
    raw.callee.line (i := i)
  rw [← or_assoc]
  exact htarget.trans (or_congr_left hsource)

/-- A call that is there already has brought in its functions. -/
theorem introduce_of_mem (hg : g.Consistent) (h : (g.introduce raw caller callee).1 ∈ g.calls) :
    (g.introduce raw caller callee).2 = g := by
  obtain ⟨source, hsource⟩ := hg.caller h
  obtain ⟨target, htarget⟩ := hg.callee h
  have hfirst : (g.addFunction caller raw.caller.file raw.caller.line).2 = g := by
    have hsame := Registry.register_of_get? (r := g.registry) hsource
    exact congrArg (fun r => ({ g with registry := r } : CallGraph)) hsame
  have hintroduce : g.introduce raw caller callee =
      (⟨(g.addFunction caller raw.caller.file raw.caller.line).1,
        (g.addFunction callee raw.callee.file raw.callee.line).1, raw.literal, raw.callLine⟩,
        (g.addFunction callee raw.callee.file raw.callee.line).2) := by
    rw [introduce]
    dsimp only
    rw [hfirst]
  rw [hintroduce] at htarget ⊢
  have hsame := Registry.register_of_get? (r := g.registry) htarget
  exact congrArg (fun r => ({ g with registry := r } : CallGraph)) hsame

def linked (g : CallGraph) (raw : RawCall) (caller callee : String) : CallGraph :=
  (g.introduce raw caller callee).2.append (g.introduce raw caller callee).1

theorem addCall_introduce (hg : g.Consistent) (raw : RawCall) (caller callee : String) :
    (g.introduce raw caller callee).2.addCall (g.introduce raw caller callee).1 =
      if (g.introduce raw caller callee).1 ∈ g.calls then .ok (false, g) else .ok
        (true, g.linked raw caller callee) := by
  have hthere : ∀ {i}, i = (g.introduce raw caller callee).1.caller ∨
      i = (g.introduce raw caller callee).1.callee →
      (g.introduce raw caller callee).2.function? i ≠ none := by
    intro i hi
    obtain ⟨f, hf⟩ := (exists_function?_introduce_iff hg raw caller callee).2 (.inr hi)
    rw [hf]
    exact Option.some_ne_none f
  have hcalls : (g.introduce raw caller callee).2.calls = g.calls := rfl
  rw [(hg.introduce raw caller callee).addCall_eq, if_neg (hthere (.inl rfl)),
    if_neg (hthere (.inr rfl)), hcalls]
  by_cases hmem : (g.introduce raw caller callee).1 ∈ g.calls
  · rw [if_pos hmem, if_pos hmem, introduce_of_mem hg hmem]
  · rw [if_neg hmem, if_neg hmem, linked]

theorem Consistent.linked (hg : g.Consistent) (h : (g.introduce raw caller callee).1 ∉ g.calls) :
    (g.linked raw caller callee).Consistent := by
  have hadd := addCall_introduce hg raw caller callee
  rw [if_neg h] at hadd
  exact (hg.introduce raw caller callee).addCall hadd

/-- Every function makes a call or is called. -/
def Joined (g : CallGraph) : Prop :=
  ∀ i, (∃ f, g.function? i = some f) ↔ ∃ c ∈ g.calls, c.caller = i ∨ c.callee = i

theorem Joined.linked (h : g.Joined) (hg : g.Consistent) (raw : RawCall) (caller callee : String) :
    (g.linked raw caller callee).Joined := by
  intro i
  have hthere := exists_function?_introduce_iff hg raw caller callee (i := i)
  have hold := h i
  show (∃ f, (g.introduce raw caller callee).2.function? i = some f) ↔
    ∃ c ∈ g.calls ++ [(g.introduce raw caller callee).1], c.caller = i ∨ c.callee = i
  rw [hthere, hold]
  constructor
  · intro hor
    rcases hor with ⟨c, hc, hi⟩ | hi | hi
    · exact ⟨c, List.mem_append_left _ hc, hi⟩
    · exact ⟨_, List.mem_append_right _ List.mem_cons_self, .inl hi.symm⟩
    · exact ⟨_, List.mem_append_right _ List.mem_cons_self, .inr hi.symm⟩
  · intro hand
    obtain ⟨c, hc, hi⟩ := hand
    rcases List.mem_append.1 hc with hc | hc
    · exact .inl ⟨c, hc, hi⟩
    · rw [List.mem_singleton.1 hc] at hi
      exact .inr (hi.imp Eq.symm Eq.symm)

end CallGraph

namespace Calls.Builder

theorem link_eq_addCall (b : Builder) (raw : RawCall) (caller callee : String) :
    b.link raw caller callee =
      match (b.graph.introduce raw caller callee).2.addCall
        (b.graph.introduce raw caller callee).1 with
      | .error e => ({ b with graph := (b.graph.introduce raw caller callee).2 }, .error (.graph e))
      | .ok (true, g) =>
          ({ b with graph := g, tally := { b.tally with added := b.tally.added + 1 } }, .ok true)
      | .ok (false, g) =>
          ({ b with graph := g, tally := { b.tally with repeated := b.tally.repeated + 1 } },
            .ok false) :=
  rfl

/-- Linking two names counts a call that is there, and adds one that is not. -/
theorem link_eq {b : Builder} (hb : b.graph.Consistent) (raw : RawCall) (caller callee : String) :
    b.link raw caller callee =
      if (b.graph.introduce raw caller callee).1 ∈ b.graph.calls then
        ({ b with tally := { b.tally with repeated := b.tally.repeated + 1 } }, .ok false)
      else
        (⟨b.sources, b.graph.linked raw caller callee, { b.tally with added := b.tally.added + 1 }⟩,
          .ok true) := by
  rw [link_eq_addCall, CallGraph.addCall_introduce hb]
  by_cases hmem : (b.graph.introduce raw caller callee).1 ∈ b.graph.calls
  · rw [if_pos hmem, if_pos hmem]
  · rw [if_neg hmem, if_neg hmem]

end Calls.Builder

end AsyncSpread
