import AsyncSpread.Proofs.Calls.Named
import AsyncSpread.Proofs.Project.Profiled

/-!
The lines of the functions of a graph.

A graph that is built with the index of a project registers a function at a line that its own
definition covers.  The definition begins there just if any definition does (`Index.begins_iff`),
and this comes down to the line that was found for the raw call that named the function first.  When
all raw calls report definitions that are written plainly, every function has the line where its
definition begins (`Index.begins_of_plainly`).
-/

namespace AsyncSpread

open Calls Python Trace

theorem Python.NameIndex.exists_covers {ix : NameIndex} {line : Nat} {name : String}
    (h : ix.nameAt? line = some name) : ∃ s ∈ ix.scopes, s.name = name ∧ s.covers line = true := by
  obtain ⟨s, hs, hname⟩ := Option.map_eq_some_iff.1 h
  obtain ⟨hmem, hcovers⟩ := List.mem_filter.1 (List.mem_of_getLast? hs)
  exact ⟨s, List.takeWhile_subset _ hmem, hname, hcovers⟩

namespace Project.Index

variable {disk : Disk} {root : Path} {c : Config} {ix : Index} {sources : Source.Cache}
  {raws : List RawCall}

theorem exists_mem_of_atPath? {path : Path} {f : NameIndex} (h : ix.atPath? path = some f) :
    ∃ p, (p, f) ∈ ix.files := by
  obtain ⟨⟨p, f'⟩, hfind, rfl⟩ := Option.map_eq_some_iff.1 h
  exact ⟨p, List.mem_of_find?_eq_some hfind⟩

theorem exists_mem_of_file? {path : Path} {f : NameIndex} (h : ix.file? disk path = some f) :
    ∃ p, (p, f) ∈ ix.files := by
  simp only [file?, Option.orElse_eq_orElse, Option.orElse_eq_or, Option.or_eq_some_iff] at h
  rcases h with h | ⟨-, h | ⟨-, h⟩⟩
  · obtain ⟨p, -, h⟩ := Option.bind_eq_some_iff.1 h
    exact exists_mem_of_atPath? h
  · split at h
    · cases h
    · obtain ⟨p, -, h⟩ := Option.bind_eq_some_iff.1 h
      exact exists_mem_of_atPath? h
  · exact exists_mem_of_atPath? h

section

variable [Parser] [LawfulParser]

/-- A scope of an indexed file is the only one that begins at its line, and the line has its
name. -/
theorem nameAt?_of_mem_scopes (h : build disk root c = .ok ix) {p : Path} {names : NameIndex}
    (hfile : (p, names) ∈ ix.files) {s : Scope} (hs : s ∈ names.scopes) :
    names.nameAt? s.startLine = some s.name := by
  obtain ⟨-, file, -, -, hof⟩ := of_mem_files h hfile
  obtain ⟨source, tree, -, hparse, rfl⟩ := ofFile_eq_ok hof
  obtain ⟨hscopes, -⟩ := NameIndex.scopes_ofTree file.module (lawful_of_parse hparse)
  rw [hscopes] at hs
  obtain ⟨⟨d, parts⟩, hd, rfl⟩ := List.mem_map.1 hs
  exact NameIndex.nameAt?_of_mem (lawful_of_parse hparse) hd

/-- The line of a function is covered by a definition with its name, and this definition begins
there if any one does. -/
theorem begins_iff (h : build disk root c = .ok ix) {b : Builder}
    (hb : (Builder.start sources).addAll disk (ix.nameAt? disk) raws = .ok b) {i : Nat}
    {f : Function} (hf : b.graph.function? i = some f) :
    ∃ names, ix.file? disk f.file = some names ∧
      (∃ s ∈ names.scopes, s.name = f.name ∧ s.covers f.line = true) ∧
      ((∃ s ∈ names.scopes, s.startLine = f.line ∧ s.name = f.name) ↔
        ∃ s ∈ names.scopes, s.startLine = f.line) := by
  rw [Builder.addAll_eq (Builder.accounts_start sources)] at hb
  cases hb
  obtain ⟨s, hs, hlookup⟩ := Builder.exists_lookup hf
  obtain ⟨raw, -, rfl⟩ := List.mem_map.1 hs
  obtain ⟨names, hnames, hname⟩ := Option.bind_eq_some_iff.1 hlookup
  obtain ⟨p, hfile⟩ := exists_mem_of_file? hnames
  refine ⟨names, hnames, NameIndex.exists_covers hname, fun ⟨s, hs, hline, _⟩ => ⟨s, hs, hline⟩,
    fun ⟨s, hs, hline⟩ => ?_⟩
  have hstart := nameAt?_of_mem_scopes h hfile hs
  rw [hline, hname] at hstart
  exact ⟨s, hs, hline, (Option.some.inj hstart).symm⟩

end

/-- A decorator that looks like the definition below it is where the method is found, and its line
has the name of the class. -/
example :
    let disk : Disk := ⟨[("proj", .dir [("a.py", .file (Text.encodeUtf8
      "class A:\n    @slow(\"def run\")\n    def run(self): self.run()\n".toList))])], []⟩
    let frame : Trace.Frame := ⟨⟨"proj/a.py"⟩, "run:2", "run", 2⟩
    ((build disk ⟨"proj"⟩ .standard).toOption.bind fun ix =>
      ((Builder.start ∅).addAll disk (ix.nameAt? disk) [⟨frame, frame, 3⟩]).toOption).map (fun b =>
        b.graph.registry.functions.map fun f => (f.name, f.line)) = some [("a.A", 2)] := by
  decide +kernel

section

variable [Parser]

/-- A function is reported by a path that leads to an indexed file, under the name of a definition
there that is written plainly, and at its line or at one before it from which on nothing else looks
like it. -/
def Plainly (disk : Disk) (c : Config) (ix : Index) (frame : Trace.Frame) : Prop :=
  Source.isSynthetic frame.file.text = false ∧
    ∃ file names source tree, disk.canonical frame.file = .ok file ∧
    ix.atPath? file = some names ∧ readSource disk file c = .ok source ∧ parse source = .ok tree ∧
    ∃ d parts m, (d, parts) ∈ definitionsOf source (NameIndex.prefixOf names.module) tree ∧
      d.definedName? = some m ∧
      frame.name = String.ofList (m.text source) ∧ Source.Plain source d (m.text source) ∧
      Source.Clear (Source.numbered source) (m.text source) frame.line d.startLine

theorem Plainly.exists_resolve {frame : Trace.Frame} (h : ix.Plainly disk c frame) :
    ∃ names, disk.resolve frame.file = .ok names := by
  obtain ⟨-, file, -, -, -, hpath, -⟩ := h
  unfold Disk.canonical at hpath
  cases hresolve : disk.resolve frame.file with
  | error why =>
    rw [hresolve] at hpath
    cases hpath
  | ok names => exact ⟨names, rfl⟩

/-- A function that is reported plainly is found where a definition begins. -/
theorem begins_of_resolveLine [LawfulParser] (hd : disk.Sound) (h : build disk root c = .ok ix)
    {frame : Trace.Frame} (hframe : ix.Plainly disk c frame) {line : Nat}
    (hline : (Source.resolveLine disk frame.file frame.name frame.line ∅).map Prod.fst =
      .ok (some line)) :
    ∃ names, ix.file? disk frame.file = some names ∧ ∃ s ∈ names.scopes, s.startLine = line := by
  obtain ⟨hsynthetic, file, names, source, tree, hpath, hfile, hread, hparse, d, parts, m, hmem, hm,
    hname, hplain, hclear⟩ := hframe
  obtain ⟨hnames, module, source', tree', hread', hparse', hof, hlines⟩ :=
    lines_of_canonical hd h hpath hfile
  cases hread.symm.trans hread'
  cases hparse.symm.trans hparse'
  subst hof
  have hread := hlines [frame.file] ∅ (Source.Cache.keeps_self disk _ ∅) List.mem_cons_self
  have hfound := Source.resolveLine_of_plain hread hsynthetic
    (lawful_of_parse hparse) hmem hm hplain hclear
  rw [← hname, hline] at hfound
  obtain rfl := Option.some.inj (Except.ok.inj hfound)
  refine ⟨_, hnames, scopeOf (d, parts), ?_, rfl⟩
  rw [(NameIndex.scopes_ofTree module (lawful_of_parse hparse)).1]
  exact List.mem_map_of_mem hmem

/-- If all functions are reported plainly, each function of the graph has the line where its
definition begins. -/
theorem begins_of_plainly [LawfulParser] (hd : disk.Sound) (h : build disk root c = .ok ix)
    (hraws : ∀ raw ∈ raws, ix.Plainly disk c raw.caller ∧ ix.Plainly disk c raw.callee) :
    ∃ b, (Builder.start ∅).addAll disk (ix.nameAt? disk) raws = .ok b ∧
      ∀ i f, b.graph.function? i = some f →
      ∃ names, ix.file? disk f.file = some names ∧ ∃ s ∈ names.scopes, s.startLine = f.line ∧
        s.name = f.name := by
  have hadd : (Builder.start ∅).addAll disk (ix.nameAt? disk) raws =
      .ok ((Builder.start ∅).feed (Builder.feeds disk (ix.nameAt? disk) raws)).1 :=
    Builder.addAll_eq (Builder.accounts_start ∅) raws
  have hsteady : Source.Steady disk (Builder.filesOf raws) := by
    refine Source.steady_of_resolve hd fun p hp => ?_
    obtain ⟨raw, hraw, hp⟩ := List.mem_flatMap.1 hp
    obtain ⟨hcaller, hcallee⟩ := hraws raw hraw
    rcases List.mem_cons.1 hp with rfl | hp
    · exact hcaller.exists_resolve
    · rw [List.mem_singleton.1 hp]
      exact hcallee.exists_resolve
  refine ⟨_, hadd, fun i f hf => ?_⟩
  obtain ⟨v, hv, m, hm, -, hplace⟩ := Builder.exists_mention hf
  rw [Builder.verdicts_feeds hsteady (Source.Cache.keeps_self disk _ ∅) (List.Subset.refl _)] at hv
  obtain ⟨raw, hraw, rfl⟩ := List.mem_map.1 hv
  obtain ⟨frame, hframe, line, hline, hfound⟩ := Builder.frame_of_mem_mentions hm
  have hplainly : ix.Plainly disk c frame := by
    rcases List.mem_cons.1 hframe with rfl | hframe
    · exact (hraws raw hraw).1
    · rw [List.mem_singleton.1 hframe]
      exact (hraws raw hraw).2
  obtain ⟨hfile, hline'⟩ := Prod.mk.inj hplace
  rw [hfound] at hfile hline'
  obtain ⟨names, hnames, s, hs, hstart⟩ := begins_of_resolveLine hd h hplainly hline
  obtain ⟨names', hnames', -, hbegins⟩ := begins_iff h hadd hf
  rw [← hfile] at hnames'
  obtain rfl : names = names' := Option.some.inj (hnames.symm.trans hnames')
  exact ⟨names, hfile ▸ hnames, hbegins.2 ⟨s, hs, hstart.trans hline'⟩⟩

end

end Project.Index

end AsyncSpread
