import AsyncSpread.Proofs.Calls.Reordered

/-!
Where a function of a graph comes from.

A raw call that is linked mentions two names, each with the place of its function
(`Verdict.mentions`).  A graph registers the names that are mentioned, and of a name the first place
counts (`Builder.functionNamed?_feed`).  So what the graph knows of a function is what the name
lookup answers for its own file and line (`Builder.exists_lookup`), whichever raw call came first.
-/

namespace AsyncSpread

open Calls Trace

namespace Calls

def Function.place (f : Function) : Path × Nat := (f.file, f.line)

/-- A name with the function that was found to have it. -/
structure Mention where
  name : String
  frame : Frame
deriving DecidableEq, Repr

def Mention.place (m : Mention) : Path × Nat := (m.frame.file, m.frame.line)

namespace Registry

variable {r : Registry}

def functionNamed? (r : Registry) (name : String) : Option Function := (r.number? name).bind r.get?

def registerAll (r : Registry) (ms : List Mention) : Registry :=
  ms.foldl (fun r m => (r.register m.name m.frame.file m.frame.line).2) r

theorem registerAll_append (r : Registry) (ms ms' : List Mention) :
    r.registerAll (ms ++ ms') = (r.registerAll ms).registerAll ms' := List.foldl_append

theorem Consistent.functionNamed?_eq (hr : r.Consistent) {i : Nat} {f : Function}
    (h : r.get? i = some f) : r.functionNamed? f.name = some f := by
  rw [functionNamed?, (hr.number?_eq_some_iff f.name i).2 ⟨f, h, rfl⟩]
  exact h

theorem Consistent.functionNamed?_of_number? (hr : r.Consistent) {name : String} {i : Nat}
    (h : r.number? name = some i) : ∃ f, r.functionNamed? name = some f := by
  obtain ⟨f, hf, -⟩ := (hr.number?_eq_some_iff name i).1 h
  exact ⟨f, by rw [functionNamed?, h]; exact hf⟩

/-- A name keeps its place, and one that is new gets the place that is mentioned. -/
theorem place_register (hr : r.Consistent) (m : Mention) (name : String) :
    ((r.register m.name m.frame.file m.frame.line).2.functionNamed? name).map Function.place =
      ((r.functionNamed? name).map Function.place).or
        (if m.name = name then some m.place else none) := by
  cases hn : r.number? m.name with
  | some i =>
    rw [register_of_number? hn]
    by_cases hname : m.name = name
    · obtain ⟨f, hf⟩ := hr.functionNamed?_of_number? hn
      rw [← hname, hf]
      rfl
    · rw [if_neg hname, Option.or_none]
  | none =>
    rw [functionNamed?, number?_register_of_none hn, functionNamed?]
    by_cases hname : m.name = name
    · have hnew : (r.register m.name m.frame.file m.frame.line).2.get? r.size =
          some ⟨r.size, m.name, m.frame.file, m.frame.line⟩ :=
        (get?_register_of_none hn).2 (.inr ⟨rfl, rfl⟩)
      rw [if_pos hname, if_pos hname, Option.bind_some, hnew, ← hname, hn]
      rfl
    · rw [if_neg hname, if_neg hname, Option.or_none]
      cases hi : r.number? name with
      | none => rfl
      | some i =>
        obtain ⟨f, hf, -⟩ := (hr.number?_eq_some_iff name i).1 hi
        rw [Option.bind_some, Option.bind_some, get?_register hf, hf]

theorem place_registerAll (hr : r.Consistent) (ms : List Mention) (name : String) :
    ((r.registerAll ms).functionNamed? name).map Function.place =
      ((r.functionNamed? name).map Function.place).or
        ((ms.find? fun m => m.name = name).map Mention.place) := by
  induction ms generalizing r with
  | nil => exact Option.or_none.symm
  | cons m ms ih =>
    rw [registerAll, List.foldl_cons]
    refine (ih hr.register).trans ?_
    rw [place_register hr, Option.or_assoc, List.find?_cons]
    by_cases hname : m.name = name
    · simp [hname]
    · simp [hname]

end Registry

def Verdict.mentions : Verdict → List Mention
  | .skip _ => []
  | .link raw caller callee => [⟨caller, raw.caller⟩, ⟨callee, raw.callee⟩]

/-- A raw call mentions its functions when both were found, each by the name that the lookup has
where it was found. -/
theorem of_mem_mentions {lookup : NameLookup} {found : Except Profile.Fault (RawCall × Bool)}
    {m : Mention} (h : m ∈ (judge lookup found).mentions) :
    lookup m.frame.file m.frame.line = some m.name ∧
      ∃ raw, found = .ok (raw, true) ∧ (m.frame = raw.caller ∨ m.frame = raw.callee) := by
  unfold judge at h
  split at h
  · cases h
  · cases h
  · split at h
    · rename_i hcaller hcallee
      rcases List.mem_cons.1 h with rfl | h
      · exact ⟨hcaller, _, rfl, .inl rfl⟩
      · rw [List.mem_singleton.1 h]
        exact ⟨hcallee, _, rfl, .inr rfl⟩
    · cases h

namespace Builder

variable {b : Builder} {answers : List (Except BuildFault Bool)}

/-- The verdicts on raw calls, each after what has been read for those before it. -/
def verdicts (b : Builder) : List Feed → List Verdict
  | [] => []
  | s :: rest =>
    judge s.lookup (Source.resolveCall s.disk s.raw b.sources).2 ::
      (b.add s.disk s.lookup s.raw).1.verdicts rest

theorem mem_verdicts {b : Builder} {steps : List Feed} {v : Verdict} (h : v ∈ b.verdicts steps) :
    ∃ s ∈ steps, ∃ found, v = judge s.lookup found := by
  induction steps generalizing b with
  | nil => cases h
  | cons s rest ih =>
    rcases List.mem_cons.1 h with rfl | h
    · exact ⟨s, List.mem_cons_self, _, rfl⟩
    · obtain ⟨t, ht, found, hv⟩ := ih h
      exact ⟨t, List.mem_cons_of_mem _ ht, found, hv⟩

/-- A raw call registers what it mentions, and nothing else. -/
theorem registry_settle (hb : b.graph.Consistent) (v : Verdict) :
    (b.settle v).1.graph.registry = b.graph.registry.registerAll v.mentions := by
  cases v with
  | skip why => rfl
  | link raw caller callee =>
    have hregistry : (b.graph.introduce raw caller callee).2.registry =
        b.graph.registry.registerAll (Verdict.link raw caller callee).mentions := rfl
    rw [settle, link_eq hb]
    by_cases hmem : (b.graph.introduce raw caller callee).1 ∈ b.graph.calls
    · rw [if_pos hmem, ← hregistry, CallGraph.introduce_of_mem hb hmem]
    · rw [if_neg hmem, ← hregistry]
      rfl

theorem registry_feed (h : b.Accounts answers) (steps : List Feed) :
    (b.feed steps).1.graph.registry = b.graph.registry.registerAll
      ((b.verdicts steps).flatMap Verdict.mentions) := by
  induction steps generalizing b answers with
  | nil => rfl
  | cons s rest ih =>
    have hstep : (b.add s.disk s.lookup s.raw).1.graph.registry =
        b.graph.registry.registerAll
          (judge s.lookup (Source.resolveCall s.disk s.raw b.sources).2).mentions := by
      rw [add_eq]
      exact @registry_settle (b.receive _) h.consistent _
    rw [feed_cons]
    dsimp only
    rw [ih (h.add s), hstep, verdicts, List.flatMap_cons, Registry.registerAll_append]

/-- The graph has the names that the raw calls mention, each where it is mentioned first. -/
theorem functionNamed?_feed (sources : Source.Cache) (steps : List Feed) (name : String) :
    (((start sources).feed steps).1.graph.functionNamed? name).map Function.place =
      ((((start sources).verdicts steps).flatMap Verdict.mentions).find? fun m =>
        m.name = name).map Mention.place := by
  have hregistry := registry_feed (accounts_start sources) steps
  have hplaces := Registry.place_registerAll (r := ∅) Registry.consistent_empty
    (((start sources).verdicts steps).flatMap Verdict.mentions) name
  show (((start sources).feed steps).1.graph.registry.functionNamed? name).map Function.place = _
  rw [hregistry]
  exact hplaces

/-- A function of the graph is one that a raw call mentions, at the same place. -/
theorem exists_mention {sources : Source.Cache} {steps : List Feed} {i : Nat} {f : Function}
    (h : ((start sources).feed steps).1.graph.function? i = some f) :
    ∃ v ∈ (start sources).verdicts steps, ∃ m ∈ v.mentions, m.name = f.name ∧
      m.place = f.place := by
  have hbooks := (accounts_start sources).feed steps
  have hnamed : ((start sources).feed steps).1.graph.functionNamed? f.name = some f :=
    hbooks.consistent.registry.functionNamed?_eq h
  have hfirst := functionNamed?_feed sources steps f.name
  rw [hnamed] at hfirst
  obtain ⟨m, hm, hplace⟩ := Option.map_eq_some_iff.1 hfirst.symm
  obtain ⟨v, hv, hmem⟩ := List.mem_flatMap.1 (List.mem_of_find?_eq_some hm)
  have hname := @List.find?_some Mention (fun m => m.name = f.name) _ _ hm
  exact ⟨v, hv, m, hmem, of_decide_eq_true hname, hplace⟩

/-- The name of a function is what a lookup answered for its file and line. -/
theorem exists_lookup {sources : Source.Cache} {steps : List Feed} {i : Nat} {f : Function}
    (h : ((start sources).feed steps).1.graph.function? i = some f) :
    ∃ s ∈ steps, s.lookup f.file f.line = some f.name := by
  obtain ⟨v, hv, m, hm, hname, hplace⟩ := exists_mention h
  obtain ⟨s, hs, found, rfl⟩ := mem_verdicts hv
  obtain ⟨hlookup, -⟩ := of_mem_mentions hm
  obtain ⟨hfile, hline⟩ := Prod.mk.inj hplace
  rw [hfile, hline, hname] at hlookup
  exact ⟨s, hs, hlookup⟩

/-! ## Steady sources -/

variable {disk : Disk} {lookup : NameLookup} {sources : Source.Cache} {files : List Path}
  {raws : List RawCall} {raw : RawCall}

theorem sources_settle (v : Verdict) : (b.settle v).1.sources = b.sources := by
  cases v with
  | skip why => rfl
  | link raw caller callee =>
    rw [settle, link_eq_addCall]
    split <;> rfl

/-- While files and names stay the same and the sources are steady, the verdicts are those of the
cache at the beginning. -/
theorem verdicts_feeds (hsteady : Source.Steady disk files)
    (hkeeps : Source.Cache.Keeps disk files sources b.sources) (hfiles : filesOf raws ⊆ files) :
    b.verdicts (feeds disk lookup raws) = raws.map (verdict disk lookup sources) := by
  induction raws generalizing b with
  | nil => rfl
  | cons raw raws ih =>
    rw [filesOf, List.flatMap_cons] at hfiles
    have hcaller : raw.caller.file ∈ files := hfiles (List.mem_append_left _ (by simp))
    have hcallee : raw.callee.file ∈ files := hfiles (List.mem_append_left _ (by simp))
    obtain ⟨hkept, hresolved⟩ := Source.resolveCall_spec hkeeps hsteady hcaller hcallee
    have hnext : (b.add disk lookup raw).1.sources = (Source.resolveCall disk raw b.sources).1 := by
      rw [add_eq, sources_settle]
      rfl
    rw [feeds, List.map_cons, verdicts, hresolved, List.map_cons]
    exact congrArg _ (ih (hnext ▸ hkept) fun p hp => hfiles (List.mem_append_right _ hp))

/-- What is mentioned is a function of the raw call at the line that was found for it. -/
theorem frame_of_mem_mentions {m : Mention} (h : m ∈ (verdict disk lookup sources raw).mentions) :
    ∃ frame ∈ [raw.caller, raw.callee], ∃ line,
      (Source.resolveLine disk frame.file frame.name frame.line sources).map Prod.fst = .ok
        (some line) ∧ m.frame = { frame with line := line } := by
  obtain ⟨-, raw', hfound, hframe⟩ := of_mem_mentions h
  unfold Source.resolved at hfound
  obtain ⟨caller, hcaller, hfound⟩ := Fallible.exists_of_bind hfound
  obtain ⟨callee, hcallee, hfound⟩ := Fallible.exists_of_bind hfound
  obtain ⟨rfl, hboth⟩ := Prod.mk.inj (Except.ok.inj hfound)
  obtain ⟨hsome, hsome'⟩ := Bool.and_eq_true_iff.1 hboth
  rcases hframe with hframe | hframe
  · obtain ⟨line, rfl⟩ := Option.isSome_iff_exists.1 hsome
    exact ⟨raw.caller, by simp, line, hcaller, hframe⟩
  · obtain ⟨line, rfl⟩ := Option.isSome_iff_exists.1 hsome'
    exact ⟨raw.callee, by simp, line, hcallee, hframe⟩

end Builder

end Calls

end AsyncSpread
