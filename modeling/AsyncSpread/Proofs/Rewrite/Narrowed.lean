import AsyncSpread.Proofs.Project.Parts
import AsyncSpread.Proofs.Python.Enclosing
import AsyncSpread.Proofs.Python.Parsed
import AsyncSpread.Proofs.Rewrite.Fitting
import AsyncSpread.Proofs.Rewrite.Inserted

/-!
A plan narrowed to a module.

A text is rewritten with the part of a plan that its module owns.  Which part that is has to be
guessed from the names, as nothing is known of other modules: a name belongs to a module below if
the text does not define what it begins with (`mem_ownPart`).  No name that the text defines is lost
by that (`agreesOn_ownPart`), and the walk asks for no others (`asyncify_narrowed`).
-/

namespace AsyncSpread

open Python

/-! ## Names of a text -/

/-- A name has one component behind the module, or the first of more is that of something that the
text defines. -/
def Python.NameIndex.Covers (ix : NameIndex) (name : String) : Prop :=
  ∃ rest, name = below ix.module rest ∧ ('.' ∉ rest.toList ∨
    ∃ head inner, rest = below head inner ∧ '.' ∉ head.toList ∧ below ix.module head ∈ ix.names)

namespace Python.NameIndex

variable {source : List Char} {module name : String} {root : Node} {ix : NameIndex}

theorem mem_names_of_nameAt? {line : Nat} (h : ix.nameAt? line = some name) : name ∈ ix.names := by
  obtain ⟨s, hs, rfl⟩ := Option.map_eq_some_iff.1 h
  have hmem := (List.mem_filter.1 (List.mem_of_getLast? hs)).1
  exact List.mem_map_of_mem (List.takeWhile_subset _ hmem)

theorem exists_definition (h : root.Lawful source)
    (hname : name ∈ (ofTree source module root).names) :
    ∃ d ∈ root.all, d.IsScope ∧ (ofTree source module root).nameAt? d.startLine = some name := by
  rw [names, (scopes_ofTree module h).1, List.map_map] at hname
  obtain ⟨⟨d, comps⟩, hd, rfl⟩ := List.mem_map.1 hname
  have hall : d ∈ root.all :=
    (sublist_definitionsOf (prefixOf module) root).subset (List.mem_map_of_mem hd)
  exact ⟨d, hall, isScope_of_mem_definitionsOf hd, nameAt?_of_mem h hd⟩

theorem covers_of_mem_names (h : root.Lawful source) (hmodule : module ≠ "")
    (hname : name ∈ (ofTree source module root).names) :
      (ofTree source module root).Covers name := by
  obtain ⟨d, hd, hs, hat⟩ := exists_definition h hname
  obtain ⟨comps, hbelow, hne, hdots, hfront⟩ := exists_components h hd hs hmodule hat
  refine ⟨_, hbelow, ?_⟩
  obtain ⟨head, rest, rfl⟩ := List.exists_cons_of_ne_nil hne
  have hhead := hdots head List.mem_cons_self
  cases rest with
  | nil => exact .inl (by simpa using hhead)
  | cons next rest =>
    refine .inr ⟨head, ".".intercalate (next :: rest), ?_, hhead, ?_⟩
    · rw [String.intercalate_cons_cons]
      rfl
    · have hmem := hfront [head] ⟨next :: rest, rfl⟩ (List.cons_ne_nil _ _)
      rw [String.intercalate_singleton] at hmem
      exact hmem

end Python.NameIndex

/-! ## The part of a plan -/

theorem submoduleOf?_eq_some_iff {module name top : String} {defined : List String} :
    submoduleOf? module defined name = some top ↔
      ∃ head inner, name = below module (below head inner) ∧
      '.' ∉ head.toList ∧ top = below module head ∧ top ∉ defined := by
  unfold submoduleOf?
  constructor
  · intro h
    obtain ⟨rest, hrest, h⟩ := Option.bind_eq_some_iff.1 h
    obtain ⟨⟨head, inner⟩, hcut, h⟩ := Option.bind_eq_some_iff.1 h
    obtain ⟨hcut, hdot⟩ := Text.cutFirst?_eq_some_iff.1 hcut
    simp only [Option.ite_none_left_eq_some, Option.some.injEq, List.contains_iff_mem] at h
    obtain ⟨hno, rfl⟩ := h
    refine ⟨String.ofList head, String.ofList inner, ?_, by rwa [String.toList_ofList], rfl, hno⟩
    rw [within?_eq_some_iff.1 hrest]
    congr 1
    rw [← String.toList_inj, toList_below, hcut, String.toList_ofList, String.toList_ofList]
  · intro hex
    obtain ⟨head, inner, rfl, hdot, rfl, hno⟩ := hex
    refine Option.bind_eq_some_iff.2 ⟨_, within?_eq_some_iff.2 rfl, ?_⟩
    refine Option.bind_eq_some_iff.2 ⟨_, cutFirst?_of_below rfl hdot, ?_⟩
    simp [hno]

namespace Plan

variable {plan : Plan} {ix : NameIndex} {name : String}

/-- The module of a text owns the names that it covers, among the modules below that a plan speaks
of. -/
theorem owner?_eq_module_iff (hname : name ∈ plan.names) :
    owner? (ix.module :: plan.names.filterMap (submoduleOf? ix.module ix.names)) name =
      some ix.module ↔ ix.Covers name := by
  rw [owner?_eq_some_iff]
  constructor
  · intro h
    obtain ⟨rest, rfl⟩ := h.holds
    refine ⟨rest, rfl, ?_⟩
    by_cases hdot : '.' ∈ rest.toList
    · obtain ⟨head, inner, rfl, hhead⟩ := exists_below_of_dot hdot
      refine .inr ⟨head, inner, rfl, hhead, Classical.byContradiction fun hno => ?_⟩
      -- Otherwise the name lies in a longer module that is listed.
      have hsub : submoduleOf? ix.module ix.names (below ix.module (below head inner)) =
          some (below ix.module head) :=
        submoduleOf?_eq_some_iff.2 ⟨head, inner, rfl, hhead, rfl, hno⟩
      have hlisted := List.mem_cons_of_mem ix.module (List.mem_filterMap.2 ⟨_, hname, hsub⟩)
      have hlen := h.longest _ hlisted ⟨inner, (below_below _ _ _).symm⟩
      rw [toList_below, List.length_append, List.length_cons] at hlen
      omega
    · exact .inl hdot
  · intro hcovers
    obtain ⟨rest, rfl, hrest⟩ := hcovers
    refine ⟨List.mem_cons_self, ⟨rest, rfl⟩, fun m hm hholds => ?_⟩
    rcases List.mem_cons.1 hm with rfl | hm
    · exact Nat.le_refl _
    · -- A module below that holds the name ends with its first component, which is then one that
      -- the text defines.
      obtain ⟨other, -, hother⟩ := List.mem_filterMap.1 hm
      obtain ⟨head, -, -, hhead, rfl, hno⟩ := submoduleOf?_eq_some_iff.1 hother
      obtain ⟨inner, hinner⟩ := hholds
      rw [below_below, below_right_inj] at hinner
      have hcut := cutFirst?_of_below hinner hhead
      rcases hrest with hdot | ⟨first, last, hfirst, hdot, hmem⟩
      · rw [Text.cutFirst?_eq_none_iff.2 hdot] at hcut
        cases hcut
      · rw [cutFirst?_of_below hfirst hdot, Option.some.injEq, Prod.mk.injEq, String.toList_inj]
          at hcut
        rw [hcut.1] at hmem
        exact absurd hmem hno

theorem mem_names_of_function (h : name ∈ plan.functions) : name ∈ plan.names :=
  List.mem_append_left _ (List.mem_append_left _ h)

theorem mem_names_of_test (h : name ∈ plan.tests) : name ∈ plan.names :=
  List.mem_append_left _ (List.mem_append_right _ h)

theorem mem_names_of_call {k : CallKey} (h : k ∈ plan.calls) : k.caller ∈ plan.names :=
  List.mem_append_right _ (List.mem_map_of_mem h)

theorem ownPart_eq (h : ix.module ≠ "") (plan : Plan) : plan.ownPart ix =
    plan.ownedBy (ix.module :: plan.names.filterMap (submoduleOf? ix.module ix.names)) ix.module :=
  if_neg (by rwa [String.isEmpty_iff])

/-- The part of a plan that is a module's own has the names that the module covers. -/
theorem mem_ownPart (h : ix.module ≠ "") (htests : ∀ name ∈ plan.tests, name ∈ plan.functions) :
    (∀ name, name ∈ (plan.ownPart ix).functions ↔ name ∈ plan.functions ∧ ix.Covers name) ∧
    (∀ name, name ∈ (plan.ownPart ix).tests ↔ name ∈ plan.tests ∧ ix.Covers name) ∧
    ∀ k : CallKey, k ∈ (plan.ownPart ix).calls ↔ k ∈ plan.calls ∧ ix.Covers k.caller := by
  rw [ownPart_eq h]
  refine ⟨fun name => ?_, fun name => ?_, fun k => ?_⟩
  · rw [mem_functions_ownedBy, or_iff_left_of_imp (htests name)]
    exact and_congr_right fun hname => owner?_eq_module_iff (mem_names_of_function hname)
  · rw [mem_tests_ownedBy]
    exact and_congr_right fun hname => owner?_eq_module_iff (mem_names_of_test hname)
  · rw [mem_calls_ownedBy]
    exact and_congr_right fun hk => owner?_eq_module_iff (mem_names_of_call hk)

/-- Plans agree on some names if these are the same functions and tests in both, and make the same
calls. -/
structure AgreesOn (names : List String) (p q : Plan) : Prop where
  functions : ∀ name ∈ names, name ∈ p.functions ↔ name ∈ q.functions
  tests : ∀ name ∈ names, name ∈ p.tests ↔ name ∈ q.tests
  calls : ∀ k : CallKey, k.caller ∈ names → (k ∈ p.calls ↔ k ∈ q.calls)

/-- No name of a text is lost to the part of a plan that is its module's own. -/
theorem agreesOn_ownPart {source : List Char} {module : String} {root : Node}
    (h : root.Lawful source)
    (hmodule : module ≠ "") (htests : ∀ name ∈ plan.tests, name ∈ plan.functions) :
    AgreesOn (NameIndex.ofTree source module root).names
      (plan.ownPart (NameIndex.ofTree source module root)) plan := by
  have hix : (NameIndex.ofTree source module root).module ≠ "" := hmodule
  obtain ⟨hfunctions, htests', hcalls⟩ := mem_ownPart hix htests
  refine ⟨fun name hname => ?_, fun name hname => ?_, fun k hk => ?_⟩
  · rw [hfunctions, and_iff_left (NameIndex.covers_of_mem_names h hmodule hname)]
  · rw [htests', and_iff_left (NameIndex.covers_of_mem_names h hmodule hname)]
  · rw [hcalls, and_iff_left (NameIndex.covers_of_mem_names h hmodule hk)]

end Plan

namespace Rewrite

variable {t : Task} {root : Node} {plan : Plan} {p q : Progress}

def Task.withPlan (t : Task) (plan : Plan) : Task := { t with plan := plan }

/-! ## What the walk asks for -/

theorem Place.mem_names_of_caller {pl : Place} {caller : String} (h : pl.caller t = some caller) :
    caller ∈ t.index.names := by
  obtain ⟨d, -, hd⟩ := Option.bind_eq_some_iff.1 h
  exact NameIndex.mem_names_of_nameAt? hd

theorem Place.mem_names_of_defined? {pl : Place} {name : String} (h : pl.defined? t = some name) :
    name ∈ t.index.names :=
  NameIndex.mem_names_of_nameAt? (Place.defined?_eq_some.1 h).2

namespace Task

section

variable (h : plan.AgreesOn t.index.names t.plan)

include h

theorem wraps_withPlan (pl : Place) : (t.withPlan plan).wraps pl = t.wraps pl := by
  rw [Bool.eq_iff_iff, wraps_iff, wraps_iff]
  refine and_congr_right fun _ => exists_congr fun caller => exists_congr fun literal =>
    and_congr_right fun hcaller => ?_
  have hcall := h.calls ⟨caller, literal⟩ (Place.mem_names_of_caller hcaller)
  exact and_congr_right fun _ => SortedSet.contains_iff_mem.trans
    (hcall.trans SortedSet.contains_iff_mem.symm)

theorem converts_withPlan (root : Node) (pl : Place) :
    (t.withPlan plan).converts root pl = t.converts root pl := by
  have hdefined : pl.defined? (t.withPlan plan) = pl.defined? t := rfl
  cases hname : pl.defined? t with
  | none => rw [converts, converts, hdefined, hname]; rfl
  | some name =>
    rw [Bool.eq_iff_iff, converts_iff (hdefined.trans hname), converts_iff hname]
    exact and_congr_left fun _ => h.functions name (Place.mem_names_of_defined? hname)

theorem marks_withPlan (root : Node) (pl : Place) :
    (t.withPlan plan).marks root pl = t.marks root pl := by
  have htest : (pl.defined? t).any plan.hasTest = (pl.defined? t).any t.plan.hasTest := by
    cases hname : pl.defined? t with
    | none => rfl
    | some name =>
      have hmem := h.tests name (Place.mem_names_of_defined? hname)
      exact Bool.eq_iff_iff.2
        (SortedSet.contains_iff_mem.trans (hmem.trans SortedSet.contains_iff_mem.symm))
  show ((t.withPlan plan).converts root pl && (pl.defined? t).any plan.hasTest &&
    !pl.decorators.any (isMarker t)) = _
  rw [converts_withPlan h, htest]
  rfl

theorem declared_withPlan (root : Node) : (t.withPlan plan).declared root = t.declared root := by
  funext e
  cases e with
  | meet pl =>
    rw [declared, declared, wraps_withPlan h]
    rfl
  | leave pl =>
    rw [declared, declared, markEdits, markEdits, converts_withPlan h, marks_withPlan h]
    rfl

end

end Task

def Edit.isWalked (e : Edit) : Bool := e.kind ≠ .importLine

theorem filter_isWalked_insertions (hf : root.Fits t.source) (hg : gather t root = .ok p) :
    (p.insertions t root).filter Edit.isWalked =
      ((eventsOf [] false root).flatMap (t.declared root)).filter Edit.isWalked := by
  have himport : (t.importEdit? root).toList.filter Edit.isWalked = [] := by
    refine List.filter_eq_nil_iff.2 fun e he => ?_
    unfold Task.importEdit? at he
    split at he
    · rw [List.mem_singleton.1 he, Edit.isWalked, kind_importEdit]
      decide
    · cases he
  rw [insertions_gather hf hg, List.filter_append, himport, List.append_nil]

/-- With a plan that agrees on the names of the text the walk fails alike, or it makes the same
insertions. -/
theorem gather_withPlan (hf : root.Fits t.source) (h : plan.AgreesOn t.index.names t.plan) :
    (∃ what, gather (t.withPlan plan) root = .error what ∧ gather t root = .error what) ∨
    ∃ p q, gather (t.withPlan plan) root = .ok p ∧ gather t root = .ok q ∧
      (p.insertions (t.withPlan plan) root).filter Edit.isWalked =
        (q.insertions t root).filter Edit.isWalked := by
  have hfails : (t.withPlan plan).fails = t.fails := rfl
  have herror (what : Unsupported) : gather (t.withPlan plan) root = .error what ↔
      gather t root = .error what := by
    rw [gather_eq_error, gather_eq_error, hfails]
  cases hq : gather t root with
  | error what => exact .inl ⟨what, (herror what).2 hq, rfl⟩
  | ok q =>
    cases hp : gather (t.withPlan plan) root with
    | error what =>
      rw [(herror what).1 hp] at hq
      cases hq
    | ok p =>
      refine .inr ⟨p, q, rfl, rfl, ?_⟩
      rw [filter_isWalked_insertions (t := t.withPlan plan) hf hp, filter_isWalked_insertions hf hq,
        Task.declared_withPlan h]

theorem rewriteParsed_eq (t : Task) (root : Node) : rewriteParsed t root = match gather t root with
    | .error what => .error (.target what)
    | .ok p =>
        .ok ⟨Edit.apply t.source (p.insertions t root), p.madeAsync, p.alreadyAsync,
          p.awaited, p.marked, p.needsImport t, p.pending⟩ := by
  unfold rewriteParsed rewriteTree
  cases gather t root <;> rfl

end Rewrite

open Rewrite

/-! ## Texts -/

def wholeTaskOf (source : List Char) (module : String) (plan : Plan) (config : Config)
    (tree : Node) : Task :=
  ⟨source, NameIndex.ofTree source module tree, plan, config⟩

def rewriteWhole [Parser] (source : List Char) (module : String) (plan : Plan) (config : Config) :
    Except Fault Rewritten :=
  (parseSource module source).bind fun tree =>
    rewriteParsed (wholeTaskOf source module plan config tree) tree

variable {source : List Char} {module : String} {plan : Plan} {config : Config}

/-- The module's own part of a plan has the names that the module covers, and a text is rewritten
with it as with the whole plan: both fail alike, or both make the same insertions but for the import
of the marker. -/
theorem asyncify_narrowed [Parser] [LawfulParser] (hmodule : module ≠ "")
    (htests : ∀ name ∈ plan.tests, name ∈ plan.functions)
    (hc : config.validate = .ok ()) :
    (∀ root, parse source = .ok root →
      (∀ name, name ∈ (taskOf source module plan config root).plan.functions ↔
        name ∈ plan.functions ∧ (NameIndex.ofTree source module root).Covers name) ∧
      (∀ name, name ∈ (taskOf source module plan config root).plan.tests ↔
        name ∈ plan.tests ∧ (NameIndex.ofTree source module root).Covers name) ∧
      ∀ k : CallKey, k ∈ (taskOf source module plan config root).plan.calls ↔
        k ∈ plan.calls ∧ (NameIndex.ofTree source module root).Covers k.caller) ∧
    ((∃ why, asyncify source module plan config = .error why ∧
      rewriteWhole source module plan config = .error why) ∨
      ∃ root r r' p p', parse source = .ok root ∧
        asyncify source module plan config = .ok r ∧
        rewriteWhole source module plan config = .ok r' ∧
        gather (taskOf source module plan config root) root = .ok p ∧
        gather (wholeTaskOf source module plan config root) root = .ok p' ∧
        r.source = Edit.apply source (p.insertions (taskOf source module plan config root) root) ∧
        r'.source = Edit.apply source
          (p'.insertions (wholeTaskOf source module plan config root) root) ∧
        (p.insertions (taskOf source module plan config root) root).filter
          (fun e => e.kind ≠ .importLine) =
          (p'.insertions (wholeTaskOf source module plan config root) root).filter fun e =>
            e.kind ≠ .importLine) := by
  refine ⟨fun root _ => Plan.mem_ownPart hmodule htests, ?_⟩
  cases h : parse source with
  | error why =>
    refine .inl ⟨.notPython module why, ?_, ?_⟩
    · rw [asyncify, hc, parseSource, h]
      rfl
    · rw [rewriteWhole, parseSource, h]
      rfl
  | ok root =>
    have hrun : asyncify source module plan config =
        rewriteParsed (taskOf source module plan config root) root := by
      rw [asyncify, hc, parseSource, h]
      rfl
    have hwhole : rewriteWhole source module plan config =
        rewriteParsed (wholeTaskOf source module plan config root) root := by
      rw [rewriteWhole, parseSource, h]
      rfl
    have hroot := lawful_of_parse h
    have hagrees := Plan.agreesOn_ownPart hroot hmodule htests
    rw [hrun, hwhole, rewriteParsed_eq, rewriteParsed_eq]
    rcases gather_withPlan (t := wholeTaskOf source module plan config root) hroot.fits hagrees with
      ⟨what, hp, hq⟩ | ⟨p, q, hp, hq, hsame⟩
    · have hp : gather (taskOf source module plan config root) root = .error what := hp
      rw [hp, hq]
      exact .inl ⟨_, rfl, rfl⟩
    · have hp : gather (taskOf source module plan config root) root = .ok p := hp
      rw [hp, hq]
      exact .inr ⟨root, _, _, p, q, rfl, rfl, rfl, hp, hq, rfl, rfl, hsame⟩

def client : List Char := "class Client:\n    def get(self): load()\ndef start(): pass\n".toList

/-- A plan with what the package defines, and with a test in a module below it. -/
def clientPlan : Plan :=
  (((Plan.empty.addFunction "pkg.Client.get").addFunction "pkg.start").addTest
    "pkg.tests.test_get").addCall "pkg.Client.get" "load"

/-- The test is left to its own module, and with it the import of the marker. -/
theorem asyncify_narrowed_client :
    "pkg" ≠ "" ∧ (∀ name ∈ clientPlan.tests, name ∈ clientPlan.functions) ∧
    Config.standard.validate = .ok () ∧
    ((parse client).toOption.map fun root =>
      (taskOf client "pkg" clientPlan .standard root).plan.functions.toList) =
      some ["pkg.Client.get", "pkg.start"] ∧
    ∃ root r r' p p', parse client = .ok root ∧
      asyncify client "pkg" clientPlan .standard = .ok r ∧
      rewriteWhole client "pkg" clientPlan .standard = .ok r' ∧
      gather (taskOf client "pkg" clientPlan .standard root) root = .ok p ∧
      gather (wholeTaskOf client "pkg" clientPlan .standard root) root = .ok p' ∧
      r.importAdded = false ∧ r'.importAdded = true ∧
      (p.insertions (taskOf client "pkg" clientPlan .standard root) root).filter
        (fun e => e.kind ≠ .importLine) =
        (p'.insertions (wholeTaskOf client "pkg" clientPlan .standard root) root).filter fun e =>
          e.kind ≠ .importLine := by
  have hmodule : "pkg" ≠ "" := by decide
  have htests : ∀ name ∈ clientPlan.tests, name ∈ clientPlan.functions := by
    intro name hname
    rw [(SortedSet.mem_insert.1 hname).resolve_right SortedSet.not_mem_empty]
    exact SortedSet.mem_insert.2 (.inl rfl)
  have hc : Config.standard.validate = .ok () := toOption_eq_some (by decide +kernel)
  have hown : (asyncify client "pkg" clientPlan .standard).toOption.map Rewritten.importAdded =
    some false := by decide +kernel
  have hwhole : (rewriteWhole client "pkg" clientPlan .standard).toOption.map
    Rewritten.importAdded = some true := by decide +kernel
  refine ⟨hmodule, htests, hc, by decide +kernel, ?_⟩
  rcases (asyncify_narrowed hmodule htests hc).2
    with ⟨why, hfail, -⟩ | ⟨root, r, r', p, p', hroot, hr, hr', hp, hp', -, -, hsame⟩
  · rw [hfail] at hown
    cases hown
  · rw [hr] at hown
    rw [hr'] at hwhole
    exact ⟨root, r, r', p, p', hroot, hr, hr', hp, hp', Option.some.inj hown,
      Option.some.inj hwhole, hsame⟩

end AsyncSpread
