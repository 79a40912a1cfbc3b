import AsyncSpread.Proofs.Fallible
import AsyncSpread.Proofs.Python.Parsed
import AsyncSpread.Proofs.Rewrite.Converted
import AsyncSpread.Proofs.Rewrite.Insertions

/-!
How functions open in a rewritten text.

A function is found in the rewritten text behind all insertions before it, and opens there as
`Task.opening` says.  A function that makes an awaited call opens as an asynchronous one if it was
one, or if it is the first of its name; the others of its name stay as they are.
-/

namespace AsyncSpread

open Python

namespace Rewrite

def placesOf (root : Node) : List Place := Task.met (eventsOf [] false root)

def Task.opening (t : Task) (root d : Node) : String :=
  if isAsync d then "async" else if t.isFirst root d then "async def" else "def"

variable {t : Task} {root d : Node} {p : Progress} {module : String} {e : Edit}

theorem node_mem_of_mem_placesOf {pl : Place} (h : pl ∈ placesOf root) :
    pl.node ∈ root.all ∧ ∀ a ∈ pl.around, a ∈ root.all := by
  obtain ⟨hn, ha⟩ := of_mem_eventsOf (Task.mem_met.1 h)
  exact ⟨hn, fun a hmem => (ha a hmem).elim id nofun⟩

theorem kind_importEdit (t : Task) (root : Node) : (importEdit t root).kind = .importLine := by
  unfold importEdit
  extract_lets
  split <;> rfl

theorem filter_await_insertions (hg : gather t root = .ok p) :
    (p.insertions t root).filter (fun e => e.kind = .await) =
      ((placesOf root).filter t.wraps).map Place.awaitEdit := by
  rw [gather_eq_run] at hg
  have hrun := Task.filter_await_run hg
  have himport : [importEdit t root].filter (fun e => e.kind = .await) = [] := by
    refine List.filter_eq_nil_iff.2 fun e he => ?_
    rw [List.mem_singleton.1 he, kind_importEdit]
    exact nofun
  unfold Progress.insertions
  split
  · rw [List.filter_append, himport, List.append_nil]
    exact hrun
  · exact hrun

theorem mem_edits_of_mem_insertions (he : e ∈ p.insertions t root) (hk : e.kind ≠ .importLine) :
    e ∈ p.edits := by
  unfold Progress.insertions at he
  split at he
  · rcases List.mem_append.1 he with he | he
    · exact he
    · rw [List.mem_singleton.1 he] at hk
      exact absurd (kind_importEdit t root) hk
  · exact he

theorem mem_insertions_of_mem_edits (he : e ∈ p.edits) : e ∈ p.insertions t root := by
  unfold Progress.insertions
  split
  · exact List.mem_append_left _ he
  · exact he

/-- At one offset `async` is written at most once. -/
theorem pairwise_sorted_async (h : root.Lawful t.source) (hg : gather t root = .ok p) :
    (sortStable Edit.precedes (p.insertions t root)).Pairwise fun e f =>
      e.kind = .async → f.kind = .async → e.offset ≠ f.offset := by
  have hsymm {e f : Edit} (hef : e.kind = .async → f.kind = .async → e.offset ≠ f.offset) :
      f.kind = .async → e.kind = .async → f.offset ≠ e.offset := fun hf he => (hef he hf).symm
  have hedits : p.edits.Pairwise fun e f => e.kind = .async → f.kind = .async →
      e.offset ≠ f.offset := by
    have hp := pairwise_async h.toShaped hg
    rw [List.pairwise_filter] at hp
    simpa only [decide_eq_true_eq] using hp
  refine ((sortStable_perm _ _).pairwise_iff hsymm).2 ?_
  unfold Progress.insertions
  split
  · refine List.pairwise_append.2 ⟨hedits, List.pairwise_singleton _ _, fun e _ f hf _ hk => ?_⟩
    rw [List.mem_singleton.1 hf, kind_importEdit] at hk
    cases hk
  · exact hedits

theorem text_of_async (hg : gather t root = .ok p) (he : e ∈ p.edits) (hk : e.kind = .async) :
    e.text = "async ".toList := by
  rw [gather_eq_run] at hg
  rcases (Task.mem_edits_run hg).1 he with he | ⟨before, ev, after, q, -, -, he⟩
  · cases he
  · obtain ⟨pl, name, -, -, -, -, -, rfl⟩ := Task.of_async_mem_gives he hk
    rfl

/-- Of what is inserted where a function begins or behind that, `async` alone stands before its
keyword. -/
theorem async_or_stop_le (h : root.Lawful t.source) (hg : gather t root = .ok p) (hd : d ∈ root.all)
    (hdk : d.kind = .functionDefinition) {k : Keyword} {leaf : Node} (ho : d.Opens t.source k leaf)
    (he : e ∈ p.insertions t root) (hb : Edit.isBefore d.start.byte .async e = false) :
    (e ∈ p.edits ∧ e.kind = .async ∧ e.offset = d.start.byte) ∨ leaf.stop.byte ≤ e.offset := by
  rw [Bool.eq_false_iff, ne_eq, Edit.isBefore_iff, EditKind.rank] at hb
  rcases offset_outside_keyword h.toShaped hg hd ho he with hle | hle
  · have heq : e.offset = d.start.byte := by omega
    have hrank : ¬ e.kind.rank < 3 := fun hr => hb (.inr ⟨heq, hr⟩)
    cases hk : e.kind with
    | async => exact .inl ⟨mem_edits_of_mem_insertions he (by rw [hk]; exact nofun), rfl, heq⟩
    | await =>
      have hmem : e ∈ (p.insertions t root).filter (fun e => e.kind = .await) :=
        List.mem_filter.2 ⟨he, decide_eq_true hk⟩
      rw [filter_await_insertions hg] at hmem
      obtain ⟨pl, hpl, rfl⟩ := List.mem_map.1 hmem
      obtain ⟨hpl, hw⟩ := List.mem_filter.1 hpl
      have hcall : pl.node.kind = .call := by
        unfold Task.wraps at hw
        simp only [Bool.and_eq_true, decide_eq_true_eq] at hw
        exact hw.1.1
      exact absurd heq (start_call_ne h.toShaped hd (node_mem_of_mem_placesOf hpl).1 hdk hcall)
    | close | importLine | decorator =>
      rw [hk] at hrank
      exact absurd (by decide) hrank
  · exact .inr hle

/-- What is written from where a function begins, in the order of writing. -/
def insertionsFrom (t : Task) (root d : Node) (p : Progress) : List Edit :=
  (sortStable Edit.precedes (p.insertions t root)).filter fun e =>
    !Edit.isBefore d.start.byte .async e

theorem mem_insertionsFrom : e ∈ insertionsFrom t root d p ↔
    e ∈ p.insertions t root ∧ Edit.isBefore d.start.byte .async e = false := by
  rw [insertionsFrom, List.mem_filter, mem_sortStable, Bool.not_eq_true']

/-- If a function gets `async`, that is written first, and all else behind the keyword. -/
theorem exists_insertionsFrom (h : root.Lawful t.source) (hg : gather t root = .ok p)
    (hd : d ∈ root.all) (hdk : d.kind = .functionDefinition) {k : Keyword} {leaf : Node}
    (ho : d.Opens t.source k leaf) (hc : ∃ e ∈ p.edits, e.kind = .async ∧ e.offset = d.start.byte) :
    ∃ first es, insertionsFrom t root d p = first :: es ∧ first.offset = d.start.byte ∧
      first.text = "async ".toList ∧ ∀ e ∈ es, leaf.stop.byte ≤ e.offset := by
  have hsorted := (@pairwise_sortStable Edit Edit.precedes (fun _ _ => Edit.precedes_asymm)
    (fun _ _ _ => Edit.precedes_trans) (p.insertions t root)).filter fun e =>
      !Edit.isBefore d.start.byte .async e
  have honce := (pairwise_sorted_async h hg).filter fun e => !Edit.isBefore d.start.byte .async e
  have hfilled := ho.filled
  rw [ho.start] at hfilled
  obtain ⟨e, he, hek, heo⟩ := hc
  have hin : e ∈ insertionsFrom t root d p := by
    refine mem_insertionsFrom.2 ⟨mem_insertions_of_mem_edits he, ?_⟩
    rw [Bool.eq_false_iff, ne_eq, Edit.isBefore_iff, hek]
    omega
  cases hl : insertionsFrom t root d p with
  | nil =>
    rw [hl] at hin
    cases hin
  | cons first es =>
    have hmem {e : Edit} (he : e ∈ first :: es) := mem_insertionsFrom.1 (hl ▸ he)
    rw [insertionsFrom] at hl
    rw [hl] at hsorted honce
    rw [insertionsFrom, hl] at hin
    have hle : first.offset ≤ e.offset := by
      rcases List.mem_cons.1 hin with heq | hin
      · exact Nat.le_of_eq (congrArg Edit.offset heq.symm)
      · have hp := (List.pairwise_cons.1 hsorted).1 e hin
        rw [Bool.eq_false_iff, ne_eq, Edit.precedes_iff] at hp
        omega
    obtain ⟨hf1, hf2⟩ := hmem List.mem_cons_self
    obtain ⟨hfe, hfk, hfo⟩ := (async_or_stop_le h hg hd hdk ho hf1 hf2).resolve_right (by omega)
    refine ⟨first, es, rfl, hfo, text_of_async hg hfe hfk, fun x hx => ?_⟩
    obtain ⟨hx1, hx2⟩ := hmem (List.mem_cons_of_mem _ hx)
    rcases async_or_stop_le h hg hd hdk ho hx1 hx2 with ⟨-, hxk, hxo⟩ | hle
    · exact absurd (hfo.trans hxo.symm) ((List.pairwise_cons.1 honce).1 x hx hfk hxk)
    · exact hle

/-- A planned function is found in the rewritten text behind what is inserted before it, and opens
there as planned. -/
theorem begins_opening (h : root.Lawful t.source)
    (hix : t.index = NameIndex.ofTree t.source module root) (hg : gather t root = .ok p)
    (hd : d ∈ root.all) (hdk : d.kind = .functionDefinition) {name : String}
    (hname : t.index.nameAt? d.startLine = some name) (hplan : name ∈ t.plan.functions) :
    (t.opening root d).toList <+: Text.dropBytes
      (Edit.landing (p.insertions t root) d.start.byte .async)
      (Edit.apply t.source (p.insertions t root)) := by
  obtain ⟨k, leaf, ho⟩ := exists_opens h.toShaped hd hdk
  obtain ⟨before, after, hs, hstart, hstop⟩ := ho.cut (h.nested.of_mem_all hd).1
  have hasync : isAsync d = true ↔ k = .asyncWord := ho.isAsync_iff
  have hconverted := exists_async_iff h hix hg hd hdk hname hplan
  obtain ⟨front, happly, hfront⟩ :=
    Edit.exists_apply_eq before (k.chars ++ after) (p.insertions t root) .async
  rw [← List.append_assoc, ← hs, ← hstart] at happly
  rw [← hstart] at hfront
  rw [happly, ← hfront, Text.dropBytes_byteLength_append]
  change _ <+: Edit.insertAll (k.chars ++ after) d.start.byte (insertionsFrom t root d p)
  by_cases hc : ∃ e ∈ p.edits, e.kind = .async ∧ e.offset = d.start.byte
  · obtain ⟨ha, hfirst⟩ := hconverted.1 hc
    have hk : k = .defWord := ho.keyword.resolve_left fun hk => Bool.eq_false_iff.1 ha (hasync.2 hk)
    have hopening : t.opening root d = "async def" := by
      unfold Task.opening
      rw [if_neg (Bool.eq_false_iff.1 ha), if_pos hfirst]
    obtain ⟨first, es, hl, hfo, htext, hes⟩ := exists_insertionsFrom h hg hd hdk ho hc
    rw [hstop, ← hstart] at hes
    rw [hl, Edit.insertAll_cons_of_eq hfo, htext, Edit.insertAll_append after hes, hopening, hk]
    exact ⟨_, rfl⟩
  · have hbehind : ∀ e ∈ insertionsFrom t root d p, d.start.byte + Text.byteLength k.chars ≤
        e.offset := by
      intro e he
      obtain ⟨h1, h2⟩ := mem_insertionsFrom.1 he
      have hle := (async_or_stop_le h hg hd hdk ho h1 h2).resolve_left fun ha => hc ⟨e, ha⟩
      rw [hstop, ← hstart] at hle
      exact hle
    have hopening : (t.opening root d).toList = k.chars := by
      unfold Task.opening
      by_cases ha : isAsync d = true
      · rw [if_pos ha, hasync.1 ha]
        rfl
      · have hk := ho.keyword.resolve_left fun hk => ha (hasync.2 hk)
        have hfirst : t.isFirst root d ≠ true :=
          fun hf => hc (hconverted.2 ⟨Bool.eq_false_iff.2 ha, hf⟩)
        rw [if_neg ha, if_neg hfirst, hk]
        rfl
    rw [Edit.insertAll_append after hbehind, hopening]
    exact ⟨_, rfl⟩

/-- A call that is wrapped is made by a planned function. -/
theorem exists_function_of_wraps (hplan : ∀ k ∈ t.plan.calls, k.caller ∈ t.plan.functions)
    {pl : Place} (hpl : pl ∈ placesOf root) (hw : t.wraps pl = true) :
    ∃ d ∈ root.all, pl.function? = some d ∧
      d.kind = .functionDefinition ∧ ∃ name, t.index.nameAt? d.startLine = some name ∧
        name ∈ t.plan.functions := by
  unfold Task.wraps at hw
  rw [Bool.and_eq_true, Option.any_eq_true] at hw
  obtain ⟨-, name, hname, hcall⟩ := hw
  unfold Place.caller at hname
  obtain ⟨d, hd, hname⟩ := Option.bind_eq_some_iff.1 hname
  have hkind := List.find?_some hd
  refine ⟨d, (node_mem_of_mem_placesOf hpl).2 d (List.mem_of_find?_eq_some hd), hd,
    of_decide_eq_true hkind, name, hname, ?_⟩
  split at hcall
  · exact hplan _ (SortedSet.contains_iff_mem.1 hcall)
  · cases hcall

/-- Whether a function opens with `async` in a text after some insertions. -/
def Edit.opensAsync (source : List Char) (edits : List Edit) (d : Node) : Bool :=
  "async".toList.isPrefixOf (Text.dropBytes (Edit.landing edits d.start.byte .async)
    (Edit.apply source edits))

theorem Task.async_prefix_opening {text : List Char} (h : (t.opening root d).toList <+: text) :
    "async".toList.isPrefixOf text = true ↔ isAsync d = true ∨ t.isFirst root d = true := by
  obtain ⟨rest, rfl⟩ := h
  rw [List.isPrefixOf_iff_prefix]
  unfold Task.opening
  by_cases ha : isAsync d = true
  · rw [if_pos ha]
    exact ⟨fun _ => .inl ha, fun _ => ⟨rest, rfl⟩⟩
  · rw [if_neg ha]
    by_cases hf : t.isFirst root d = true
    · rw [if_pos hf]
      exact ⟨fun _ => .inr hf, fun _ => ⟨" def".toList ++ rest, rfl⟩⟩
    · rw [if_neg hf]
      constructor
      · intro hand
        obtain ⟨more, h⟩ := hand
        cases h
      · intro hor
        rcases hor with h | h
        · exact absurd h ha
        · exact absurd h hf

end Rewrite

open Rewrite

/-- The part of a plan that a module owns has the callers of its calls. -/
theorem Plan.caller_mem_ownPart {plan : Plan} (h : ∀ k ∈ plan.calls, k.caller ∈ plan.functions)
    (ix : NameIndex) : ∀ k ∈ (plan.ownPart ix).calls, k.caller ∈ (plan.ownPart ix).functions := by
  intro k hk
  unfold ownPart at hk ⊢
  split at hk
  · rename_i he
    rw [if_pos he]
    exact h k hk
  · rename_i he
    rw [if_neg he]
    obtain ⟨hk, ho⟩ := SortedSet.mem_filter.1 hk
    exact SortedSet.mem_union.2 (.inl (SortedSet.mem_filter.2 ⟨h k hk, ho⟩))

theorem parse_of_parseSource [Parser] {name : String} {source : List Char} {root : Node}
    (h : parseSource name source = .ok root) : parse source = .ok root := by
  unfold parseSource at h
  split at h
  · cases h
    assumption
  · cases h

theorem rewriteTree_of_rewriteParsed {t : Task} {root : Node} {r : Rewritten}
    (h : rewriteParsed t root = .ok r) : rewriteTree t root = .ok r := by
  unfold rewriteParsed at h
  split at h
  · rename_i hr
    rw [hr, Except.ok.inj h]
  · cases h

theorem asyncify_eq_ok [Parser] {source : List Char} {module : String} {plan : Plan}
    {config : Config} {r : Rewritten} (h : asyncify source module plan config = .ok r) :
    ∃ root, parse source = .ok root ∧ rewriteTree
      (taskOf source module plan config root) root = .ok r := by
  unfold asyncify at h
  split at h
  · cases h
  · obtain ⟨root, hroot, h⟩ := Fallible.exists_of_bind h
    exact ⟨root, parse_of_parseSource hroot, rewriteTree_of_rewriteParsed h⟩

/-- A rewriting of a text as a module awaits the calls that it wraps and nothing else, and of each
of them the nearest function opens with `async` if and only if it did or it is the first of its
name. -/
theorem opensAsync_iff_of_wraps [Parser] [LawfulParser] {source : List Char} {module : String}
    {plan : Plan} {config : Config} {r : Rewritten}
    (hplan : ∀ k ∈ plan.calls, k.caller ∈ plan.functions)
    (hr : asyncify source module plan config = .ok r) :
    ∃ root t p, parse source = .ok root ∧ t = taskOf source module plan config root ∧
      gather t root = .ok p ∧ r.source = Edit.apply source (p.insertions t root) ∧
      (p.insertions t root).filter (fun e => e.kind = .await) =
        ((placesOf root).filter t.wraps).map Place.awaitEdit ∧
      ∀ pl ∈ placesOf root, t.wraps pl = true → ∃ d ∈ root.all, pl.function? = some d ∧
        (Edit.opensAsync source (p.insertions t root) d = true ↔
          isAsync d = true ∨ t.isFirst root d = true) := by
  obtain ⟨root, hroot, hr⟩ := asyncify_eq_ok hr
  refine ⟨root, taskOf source module plan config root, ?_⟩
  generalize ht : taskOf source module plan config root = t at hr ⊢
  have hsource : t.source = source := by rw [← ht]; rfl
  have hix : t.index = NameIndex.ofTree t.source module root := by rw [← ht]; rfl
  have hown : ∀ k ∈ t.plan.calls, k.caller ∈ t.plan.functions := by
    rw [← ht]
    exact Plan.caller_mem_ownPart hplan _
  unfold rewriteTree at hr
  split at hr
  · cases hr
  · rename_i p hg
    cases hr
    rw [← hsource] at hroot ⊢
    refine ⟨p, hroot, rfl, hg, rfl, filter_await_insertions hg, fun pl hpl hw => ?_⟩
    obtain ⟨d, hd, hfun, hk, name, hname, hmem⟩ := exists_function_of_wraps hown hpl hw
    exact ⟨d, hd, hfun,
      Task.async_prefix_opening (begins_opening (lawful_of_parse hroot) hix hg hd hk hname hmem)⟩

def twice : List Char := "def f(): g()\ndef f(): g()\n".toList

def twicePlan : Plan := (Plan.empty.addFunction "m.f").addCall "m.f" "g"

theorem twicePlan_callers : ∀ k ∈ twicePlan.calls, k.caller ∈ twicePlan.functions := by
  intro k hk
  have hk : k = ⟨"m.f", "g"⟩ := (SortedSet.mem_insert.1 hk).resolve_right SortedSet.not_mem_empty
  rw [hk]
  exact SortedSet.mem_insert.2 (.inl rfl)

/-- What comes out for it: the second definition is not converted, although its call is awaited. -/
theorem exists_asyncify_twice : ∃ r, asyncify twice "m" twicePlan .standard = .ok r ∧
    String.ofList r.source = "async def f(): await g()\ndef f(): await g()\n" := by
  have h : (asyncify twice "m" twicePlan .standard).toOption.map (fun r => String.ofList r.source) =
      some "async def f(): await g()\ndef f(): await g()\n" := by decide +kernel
  obtain ⟨r, hr, hs⟩ := Option.map_eq_some_iff.1 h
  exact ⟨r, toOption_eq_some hr, hs⟩

theorem opensAsync_iff_of_wraps_twice : (∀ k ∈ twicePlan.calls, k.caller ∈ twicePlan.functions) ∧
    ∃ r, asyncify twice "m" twicePlan .standard = .ok r ∧ ∃ root t p, parse twice = .ok root ∧
      t = taskOf twice "m" twicePlan .standard root ∧ gather t root = .ok p ∧
      ∀ pl ∈ placesOf root, t.wraps pl = true → ∃ d ∈ root.all, pl.function? = some d ∧
        (Edit.opensAsync twice (p.insertions t root) d = true ↔
          isAsync d = true ∨ t.isFirst root d = true) := by
  obtain ⟨r, hr, -⟩ := exists_asyncify_twice
  obtain ⟨root, t, p, hroot, ht, hg, -, -, hwraps⟩ := opensAsync_iff_of_wraps twicePlan_callers hr
  exact ⟨twicePlan_callers, r, hr, root, t, p, hroot, ht, hg, hwraps⟩

/-- A call may be awaited in a function that does not become asynchronous. -/
theorem not_opensAsync_twice : ¬ ∀ source module plan config r root t p,
    (∀ k ∈ plan.calls, k.caller ∈ plan.functions) → asyncify source module plan config = .ok r →
      parse source = .ok root → t = taskOf source module plan config root → gather t root = .ok p →
        ∀ pl ∈ placesOf root, t.wraps pl = true → ∃ d ∈ root.all, pl.function? = some d ∧
          Edit.opensAsync source (p.insertions t root) d = true := by
  intro hall
  have h : ((parse twice).toOption.bind fun root =>
      (gather (taskOf twice "m" twicePlan .standard root) root).toOption.map fun p =>
        (placesOf root).any fun pl => (taskOf twice "m" twicePlan .standard root).wraps pl &&
          pl.function?.all fun d =>
            !Edit.opensAsync twice (p.insertions (taskOf twice "m" twicePlan .standard root) root)
                d) = some true := by
    decide +kernel
  obtain ⟨root, hroot, h⟩ := Option.bind_eq_some_iff.1 h
  obtain ⟨p, hg, h⟩ := Option.map_eq_some_iff.1 h
  obtain ⟨r, hr, -⟩ := exists_asyncify_twice
  obtain ⟨pl, hpl, h⟩ := List.any_eq_true.1 h
  rw [Bool.and_eq_true] at h
  obtain ⟨d, -, hfun, hd⟩ :=
    hall twice "m" twicePlan .standard r root _ p twicePlan_callers hr (toOption_eq_some hroot)
    rfl (toOption_eq_some hg) pl hpl h.1
  have hno := h.2
  rw [hfun, Option.all_some, hd] at hno
  cases hno

end AsyncSpread
