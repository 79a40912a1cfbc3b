import AsyncSpread.Proofs.Rewrite.Walk

/-!
What the walk gathers.

Each event gives insertions of its own (`Task.gives`), which depend on the walk so far only by the
names that are still pending, and a name is pending until a function of that name is left
(`mem_pending_run`).
-/

namespace AsyncSpread.Rewrite

open Python

namespace Place

def defined? (t : Task) (pl : Place) : Option String :=
  if pl.node.kind = .functionDefinition then t.index.nameAt? pl.node.startLine else none

theorem defined?_eq_some {t : Task} {pl : Place} {name : String} : pl.defined? t = some name ↔
    pl.node.kind = .functionDefinition ∧ t.index.nameAt? pl.node.startLine = some name := by
  unfold defined?
  by_cases hk : pl.node.kind = .functionDefinition
  · rw [if_pos hk]
    exact ⟨fun h => ⟨hk, h⟩, And.right⟩
  · rw [if_neg hk]
    exact ⟨nofun, fun h => absurd h.1 hk⟩

def asyncEdit (pl : Place) : Edit := ⟨pl.node.start.byte, .async, pl.around.length, "async ".toList⟩

def awaitEdit (pl : Place) : Edit :=
  ⟨pl.node.start.byte, .await, pl.around.length,
    (if pl.builtOn then "(await " else "await ").toList⟩

end Place

namespace Task

/-- Whether the call at a place is wrapped: a function with a name makes it, it is not awaited yet,
and the plan has it under what is written there. -/
def wraps (t : Task) (pl : Place) : Bool :=
  pl.node.kind = .call && !Place.awaitedBy pl.around && (pl.caller t).any fun caller =>
    match literalOf t.source pl.node with
    | .ok literal => t.plan.hasCall caller literal
    | .error _ => false

def gives (t : Task) (pending : SortedSet String) : Event → List Edit
  | .meet pl => if t.wraps pl then awaitEdits (pl.site t) pl.node else []
  | .leave pl =>
    match pl.defined? t with
    | none => []
    | some name =>
      if !pending.contains name then []
      else (if isAsync pl.node then [] else [pl.asyncEdit]) ++
        if t.plan.hasTest name && !pl.decorators.any
          (isMarker t) then [markerEdit t (pl.site t) pl.node] else []

variable {t : Task} {p p' : Progress}

/-- What an event gives: `await` at a call that is wrapped, with a parenthesis behind it if
something builds on the call; or `async` and the marker at a function whose name is pending, as far
as it has them not. -/
theorem of_mem_gives {pending : SortedSet String} {ev : Event} {e : Edit}
    (he : e ∈ t.gives pending ev) :
    (∃ pl, ev = .meet pl ∧ t.wraps pl = true ∧ (e = pl.awaitEdit ∨
      pl.builtOn = true ∧ e = ⟨pl.node.stop.byte, .close, pl.around.length, [')']⟩)) ∨
    ∃ pl name, ev = .leave pl ∧ pl.defined? t = some name ∧ name ∈ pending ∧
      (isAsync pl.node = false ∧ e = pl.asyncEdit ∨
        t.plan.hasTest name = true ∧ pl.decorators.any (isMarker t) = false ∧ e = markerEdit t
          (pl.site t) pl.node) := by
  cases ev with
  | meet pl =>
    have hb : (pl.site t).builtOn = pl.builtOn := rfl
    have hd : (pl.site t).depth = pl.around.length := rfl
    simp only [gives] at he
    split at he
    · rename_i hw
      refine .inl ⟨pl, rfl, hw, ?_⟩
      unfold awaitEdits at he
      unfold Place.awaitEdit
      rw [hb, hd] at he
      split at he
      · rename_i hbuilt
        rw [if_pos hbuilt]
        rcases List.mem_cons.1 he with he | he
        · exact .inl he
        · exact .inr ⟨hbuilt, List.mem_singleton.1 he⟩
      · rename_i hbuilt
        rw [if_neg hbuilt]
        exact .inl (List.mem_singleton.1 he)
    · cases he
  | leave pl =>
    simp only [gives] at he
    split at he
    · cases he
    · rename_i name hname
      split at he
      · cases he
      · rename_i hc
        rw [Bool.not_eq_true, Bool.not_eq_false'] at hc
        refine .inr ⟨pl, name, rfl, hname, SortedSet.contains_iff_mem.1 hc, ?_⟩
        rcases List.mem_append.1 he with he | he
        · split at he
          · cases he
          · rename_i ha
            exact .inl ⟨Bool.eq_false_iff.2 ha, List.mem_singleton.1 he⟩
        · split at he
          · rename_i hm
            rw [Bool.and_eq_true, Bool.not_eq_true'] at hm
            exact .inr ⟨hm.1, hm.2, List.mem_singleton.1 he⟩
          · cases he

theorem meetCall_eq {pl : Place} (hk : pl.node.kind = .call)
    (h : meetCall t (pl.site t) pl.node p = .ok p') :
    p'.edits = p.edits ++ t.gives p.pending (.meet pl) ∧ p'.pending = p.pending := by
  have hs : (pl.site t).caller = pl.caller t := rfl
  have ha : (pl.site t).awaited = Place.awaitedBy pl.around := rfl
  have wrapped (hw : t.wraps pl = true) :
    t.gives p.pending (.meet pl) = awaitEdits (pl.site t) pl.node := if_pos hw
  have bare (hw : t.wraps pl = false) : p.edits = p.edits ++ t.gives p.pending (.meet pl) ∧
      p.pending = p.pending := by
    simp [gives, hw]
  unfold meetCall at h
  rw [hs, ha] at h
  cases hc : pl.caller t with
  | none =>
    rw [hc] at h
    cases h
    exact bare (by simp [wraps, hc])
  | some caller =>
    rw [hc] at h
    simp only at h
    cases hw : Place.awaitedBy pl.around with
    | true =>
      rw [hw, if_pos rfl] at h
      cases h
      exact bare (by simp [wraps, hw])
    | false =>
      rw [hw, if_neg Bool.false_ne_true] at h
      cases hl : literalOf t.source pl.node with
      | error what =>
        rw [hl] at h
        cases h
      | ok literal =>
        rw [hl] at h
        simp only at h
        split at h
        · rename_i hp
          cases h
          rw [wrapped (by simp [wraps, hk, hw, hc, hl, hp])]
          exact ⟨rfl, rfl⟩
        · rename_i hp
          cases h
          exact bare (by simp [wraps, hc, hl, hp])

theorem leaveFunction_eq {pl : Place} (hk : pl.node.kind = .functionDefinition) :
    (leaveFunction t (pl.site t) pl.node (t.index.nameAt? pl.node.startLine) p).edits =
      p.edits ++ t.gives p.pending (.leave pl) ∧
    ∀ x, x ∈ (leaveFunction t (pl.site t) pl.node (t.index.nameAt? pl.node.startLine) p).pending ↔
      x ∈ p.pending ∧ pl.defined? t ≠ some x := by
  have hd : pl.defined? t = t.index.nameAt? pl.node.startLine := if_pos hk
  simp only [gives]
  rw [hd]
  cases t.index.nameAt? pl.node.startLine with
  | none => simp [leaveFunction]
  | some name =>
    simp only [leaveFunction]
    by_cases hc : p.pending.contains name = true
    · rw [hc]
      simp only [Bool.not_true, Bool.false_eq_true, if_false]
      have hx (x : String) : x ∈ p.pending.erase name ↔ x ∈ p.pending ∧ some name ≠ some x := by
        rw [SortedSet.mem_erase]
        constructor
        · intro hand
          obtain ⟨h, hn⟩ := hand
          exact ⟨h, fun he => hn (Option.some.inj he).symm⟩
        · intro hand
          obtain ⟨h, hn⟩ := hand
          exact ⟨h, fun he => hn (congrArg some he.symm)⟩
      have hdecorators : (pl.site t).decorators = pl.decorators := rfl
      have hasync : (⟨pl.node.start.byte, .async, (pl.site t).depth, "async ".toList⟩ : Edit) =
        pl.asyncEdit := rfl
      rw [hdecorators, hasync]
      by_cases hm : (t.plan.hasTest name && !pl.decorators.any (isMarker t)) = true
      · by_cases ha : isAsync pl.node = true
        · rw [if_pos hm, if_pos hm, if_pos ha, if_pos ha]
          exact ⟨rfl, hx⟩
        · rw [if_pos hm, if_pos hm, if_neg ha, if_neg ha]
          exact ⟨List.append_assoc _ _ _, hx⟩
      · by_cases ha : isAsync pl.node = true
        · rw [if_neg hm, if_neg hm, if_pos ha, if_pos ha]
          exact ⟨(List.append_nil _).symm, hx⟩
        · rw [if_neg hm, if_neg hm, if_neg ha, if_neg ha]
          exact ⟨rfl, hx⟩
    · rw [Bool.eq_false_iff.2 hc]
      simp only [Bool.not_false, if_true, List.append_nil, true_and]
      intro x
      constructor
      · intro h
        refine ⟨h, fun he => hc ?_⟩
        cases he
        exact SortedSet.contains_iff_mem.2 h
      · exact And.left

/-- An event adds its insertions, and uses up the name of the function that is left. -/
theorem step_eq {e : Event} (h : t.step p e = .ok p') : p'.edits = p.edits ++ t.gives p.pending e ∧
    ∀ x, x ∈ p'.pending ↔ x ∈ p.pending ∧ ∀ pl, e = .leave pl → pl.defined? t ≠ some x := by
  cases e with
  | meet pl =>
    have hpending {p' : Progress} (hp : p'.pending = p.pending) (x : String) : x ∈ p'.pending ↔
        x ∈ p.pending ∧ ∀ pl', Event.meet pl = .leave pl' → pl'.defined? t ≠ some x := by
      rw [hp]
      exact ⟨fun h => ⟨h, nofun⟩, And.left⟩
    have hother (hk : pl.node.kind ≠ .call) : t.gives p.pending (.meet pl) = [] := by
      have hw : t.wraps pl = false := by simp [wraps, hk]
      simp [gives, hw]
    by_cases hc : pl.node.kind = .call
    · have h : meetCall t (pl.site t) pl.node p = .ok p' := by
        simp only [step] at h
        rw [hc] at h
        exact h
      obtain ⟨he, hp⟩ := meetCall_eq hc h
      exact ⟨he, hpending hp⟩
    · rw [hother hc, List.append_nil]
      unfold step at h
      simp only at h
      split at h
      · exact absurd ‹_› hc
      · cases h
        unfold meetImport
        split <;> exact ⟨rfl, hpending rfl⟩
      · cases h
        exact ⟨rfl, hpending rfl⟩
  | leave pl =>
    have hleave {P : Prop} {x : String} :
        (P ∧ ∀ pl', Event.leave pl = .leave pl' → pl'.defined? t ≠ some x) ↔
        P ∧ pl.defined? t ≠ some x := by
      refine and_congr_right fun _ => ⟨fun h => h pl rfl, fun h pl' he => ?_⟩
      cases he
      exact h
    simp only [hleave]
    by_cases hf : pl.node.kind = .functionDefinition
    · simp only [step] at h
      rw [hf] at h
      cases h
      exact leaveFunction_eq hf
    · have hd : pl.defined? t = none := if_neg hf
      unfold step at h
      simp only at h
      cases h
      simp only [gives]
      rw [hd]
      simp

/-- A name is pending until a function of that name is left. -/
theorem mem_pending_run {es : List Event} (h : t.run es p = .ok p') {x : String} :
    x ∈ p'.pending ↔ x ∈ p.pending ∧ ∀ pl, Event.leave pl ∈ es → pl.defined? t ≠ some x := by
  induction es generalizing p with
  | nil =>
    cases h
    exact ⟨fun hx => ⟨hx, nofun⟩, And.left⟩
  | cons e es ih =>
    obtain ⟨q, hs, h⟩ := exists_of_run_cons h
    rw [ih h, (step_eq hs).2]
    constructor
    · intro hand
      obtain ⟨⟨hx, he⟩, hes⟩ := hand
      refine ⟨hx, fun pl hpl => ?_⟩
      rcases List.mem_cons.1 hpl with hpl | hpl
      · exact he pl hpl.symm
      · exact hes pl hpl
    · intro hand
      obtain ⟨hx, hes⟩ := hand
      exact ⟨⟨hx, fun pl hpl => hes pl (hpl ▸ List.mem_cons_self)⟩,
        fun pl hpl => hes pl (List.mem_cons_of_mem _ hpl)⟩

/-- Each insertion is given at an event, where the names are pending of which no function was left
before. -/
theorem mem_edits_run {es : List Event} (h : t.run es p = .ok p') {e : Edit} :
    e ∈ p'.edits ↔ e ∈ p.edits ∨ ∃ before ev after q, es = before ++ ev :: after ∧
      t.run before p = .ok q ∧ e ∈ t.gives q.pending ev := by
  induction es generalizing p with
  | nil =>
    cases h
    constructor
    · exact .inl
    · intro hor
      rcases hor with he | ⟨before, ev, after, q, hes, -⟩
      · exact he
      · exact absurd hes.symm (List.append_ne_nil_of_right_ne_nil _ (List.cons_ne_nil _ _))
  | cons ev es ih =>
    obtain ⟨q, hs, h⟩ := exists_of_run_cons h
    rw [ih h, (step_eq hs).1, List.mem_append]
    constructor
    · intro hor
      rcases hor with (he | he) | ⟨before, ev', after, q', rfl, hq, he⟩
      · exact .inl he
      · exact .inr ⟨[], ev, es, p, rfl, rfl, he⟩
      · refine .inr ⟨ev :: before, ev', after, q', rfl, ?_, he⟩
        rw [run, hs]
        exact hq
    · intro hor
      rcases hor with he | ⟨before, ev', after, q', hes, hq, he⟩
      · exact .inl (.inl he)
      · cases before with
        | nil =>
          cases hes
          cases hq
          exact .inl (.inr he)
        | cons b before =>
          rw [List.cons_append, List.cons.injEq] at hes
          obtain ⟨rfl, rfl⟩ := hes
          rw [run, hs] at hq
          exact .inr ⟨before, ev', after, q', rfl, hq, he⟩

def met : List Event → List Place
  | [] => []
  | .meet pl :: es => pl :: met es
  | .leave _ :: es => met es

theorem mem_met {es : List Event} {pl : Place} : pl ∈ met es ↔ Event.meet pl ∈ es := by
  induction es with
  | nil => simp [met]
  | cons e es ih => cases e <;> simp [met, ih]

theorem filter_await_gives (pending : SortedSet String) (e : Event) :
    (t.gives pending e).filter (fun e => e.kind = .await) =
      ((met [e]).filter t.wraps).map Place.awaitEdit := by
  cases e with
  | meet pl =>
    cases hw : t.wraps pl with
    | true =>
      have hb : (pl.site t).builtOn = pl.builtOn := rfl
      have hd : (pl.site t).depth = pl.around.length := rfl
      cases hpl : pl.builtOn <;> simp [gives, met, hw, awaitEdits, Place.awaitEdit, hb, hd, hpl]
    | false => simp [gives, met, hw]
  | leave pl =>
    simp only [gives, met, List.filter_nil, List.map_nil]
    split
    · rfl
    · split
      · rfl
      · rw [List.filter_append]
        split <;> split <;> simp [Place.asyncEdit, markerEdit]

/-- Each call that is wrapped is awaited once, and nothing else is. -/
theorem filter_await_run {es : List Event} (h : t.run es p = .ok p') :
    p'.edits.filter (fun e => e.kind = .await) =
      p.edits.filter (fun e => e.kind = .await) ++
        ((met es).filter t.wraps).map Place.awaitEdit := by
  induction es generalizing p with
  | nil =>
    cases h
    simp [met]
  | cons e es ih =>
    obtain ⟨q, hs, h⟩ := exists_of_run_cons h
    have hm : met (e :: es) = met [e] ++ met es := by cases e <;> rfl
    rw [ih h, (step_eq hs).1, List.filter_append, filter_await_gives, hm, List.filter_append,
      List.map_append, List.append_assoc]

end Task

end AsyncSpread.Rewrite
