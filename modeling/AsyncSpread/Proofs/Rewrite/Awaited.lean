import AsyncSpread.Proofs.Rewrite.Openings
import AsyncSpread.Proofs.Rewrite.Places

/-!
Which calls are awaited, and which call a module fails with.

A call counts if a function with a name makes it and nothing awaits it yet (`Task.counts`).  Both
answers can be read off the tree: the walk fails with the first call that counts and has no word to
be planned by, whatever the plan is (`Task.run_eq_error`), and otherwise it awaits the calls that
count and are planned (`Task.filter_awaits_run`).
-/

namespace AsyncSpread

open Python

namespace Python.Node

mutual

/-- A node without the parentheses around it.  What they hold is the first named node in them. -/
def bare : Node → Node
  | .mk .parenthesizedExpression p q ns => bareOf (.mk .parenthesizedExpression p q ns) ns
  | n => n

def bareOf (outer : Node) : List Node → Node
  | [] => outer
  | n :: ns => if n.kind.isNamed then bare n else bareOf outer ns

end

def callee (call : Node) : Node :=
  match call.head? with
  | some f => f.bare
  | none => call

def hasLiteral (n : Node) : Bool :=
  match n.kind with
  | .identifier | .call | .subscript => true
  | .attribute => n.last?.isSome
  | _ => false

def calleeHasLiteral (call : Node) : Bool := call.head?.any fun f => f.bare.hasLiteral

theorem bare_of_ne {n : Node} (h : n.kind ≠ .parenthesizedExpression) : n.bare = n := by
  unfold bare
  split
  · exact absurd rfl h
  · rfl

end Python.Node

namespace Rewrite

mutual

theorem ofNode_eq_error {source : List Char} (n : Node) {what : Unsupported} :
    CallTarget.ofNode source n = .error what ↔ n.bare.hasLiteral = false ∧ what = .of n.bare := by
  obtain ⟨k, p, q, ns⟩ := n
  by_cases hp : k = .parenthesizedExpression
  · subst hp
    exact ofFirstNamed_eq_error rfl ns
  · have hbare : (Node.mk k p q ns).bare = .mk k p q ns := Node.bare_of_ne hp
    rw [hbare]
    unfold CallTarget.ofNode Node.hasLiteral
    simp only [Node.kind_mk]
    split
    · simp
    · cases (Node.mk .attribute p q ns).last? <;> simp [eq_comm]
    · simp
    · simp
    · exact absurd rfl hp
    · simp [eq_comm]

theorem ofFirstNamed_eq_error {source : List Char} {outer : Node} (ho : outer.hasLiteral = false)
    (ns : List Node) {what : Unsupported} :
    CallTarget.ofFirstNamed source (.of outer) ns = .error what ↔
      (Node.bareOf outer ns).hasLiteral = false ∧ what = .of (Node.bareOf outer ns) := by
  cases ns with
  | nil =>
    rw [CallTarget.ofFirstNamed, Node.bareOf, Except.error.injEq]
    exact ⟨fun h => ⟨ho, h.symm⟩, fun h => h.2.symm⟩
  | cons n ns =>
    rw [CallTarget.ofFirstNamed, Node.bareOf]
    by_cases hn : n.kind.isNamed = true
    · rw [if_pos hn, if_pos hn]
      exact ofNode_eq_error n
    · rw [if_neg hn, if_neg hn]
      exact ofFirstNamed_eq_error ho ns

end

/-- A call has no word to be planned by just if what it calls has none. -/
theorem literalOf_eq_error {source : List Char} {call : Node} {what : Unsupported} :
    literalOf source call = .error what ↔ call.calleeHasLiteral = false ∧
      what = .of call.callee := by
  have hmap : literalOf source call = .error what ↔ targetOf source call = .error what := by
    unfold literalOf
    cases targetOf source call <;> simp [Except.map]
  rw [hmap]
  unfold targetOf Node.calleeHasLiteral Node.callee
  cases call.head? with
  | none => simp [eq_comm]
  | some f => exact ofNode_eq_error f

namespace Task

/-- Whether a call can be awaited at all: a function with a name makes it, and nothing awaits it
yet. -/
def counts (t : Task) (pl : Place) : Bool :=
  pl.node.kind = .call && (pl.caller t).isSome && !Place.awaitedBy pl.around

def fails (t : Task) (pl : Place) : Bool := t.counts pl && !pl.node.calleeHasLiteral

variable {t : Task} {p p' : Progress}

theorem wraps_iff {pl : Place} : t.wraps pl = true ↔ t.counts pl = true ∧ ∃ caller literal,
    pl.caller t = some caller ∧ literalOf t.source pl.node = .ok literal ∧
    t.plan.hasCall caller literal = true := by
  unfold wraps counts
  cases hc : pl.caller t with
  | none => simp
  | some caller =>
    cases hl : literalOf t.source pl.node <;> simp

theorem function?_isSome_of_counts {pl : Place} (h : t.counts pl = true) :
    pl.function?.isSome = true := by
  unfold counts Place.caller at h
  cases hf : pl.function? with
  | none =>
    rw [hf] at h
    simp at h
  | some d => rfl

/-- A call stops the walk, or it is awaited, or nothing happens at it. -/
theorem meetCall_eq_ite {pl : Place} (hk : pl.node.kind = .call) :
    meetCall t (pl.site t) pl.node p = if t.fails pl then .error (.of pl.node.callee)
    else .ok (if t.wraps pl then
      { p with edits := p.edits ++ awaitEdits (pl.site t) pl.node, awaited := p.awaited + 1 }
        else p) := by
  unfold meetCall
  rw [show (pl.site t).caller = pl.caller t from rfl,
    show (pl.site t).awaited = Place.awaitedBy pl.around from rfl]
  cases hc : pl.caller t with
  | none => simp [fails, wraps, counts, hc]
  | some caller =>
    by_cases ha : Place.awaitedBy pl.around = true
    · simp [fails, wraps, counts, ha]
    · cases hl : literalOf t.source pl.node with
      | error what =>
        obtain ⟨hno, rfl⟩ := literalOf_eq_error.1 hl
        simp [fails, counts, hk, hc, ha, hno]
      | ok literal =>
        have hhas : pl.node.calleeHasLiteral = true := by
          rw [← Bool.not_eq_false]
          intro hno
          rw [literalOf_eq_error.2 ⟨hno, rfl⟩] at hl
          cases hl
        by_cases hp : t.plan.hasCall caller literal = true <;> simp [fails, wraps, counts, hk, hc,
          ha, hhas, hl, hp]

theorem step_meet_call {pl : Place} (hk : pl.node.kind = .call) :
    t.step p (.meet pl) = meetCall t (pl.site t) pl.node p := by
  unfold step
  simp only [hk]

theorem leaveFunction_same (t : Task) (s : Site) (definition : Node) (name : Option String)
    (p : Progress) :
    (leaveFunction t s definition name p).awaited = p.awaited ∧
      (leaveFunction t s definition name p).imported = p.imported := by
  unfold leaveFunction Progress.edit
  split
  · exact ⟨rfl, rfl⟩
  · split
    · exact ⟨rfl, rfl⟩
    · split <;> split <;> exact ⟨rfl, rfl⟩

/-- Away from calls an event does not stop the walk and awaits nothing. -/
theorem step_away {e : Event} (h : ∀ pl, e = .meet pl → pl.node.kind ≠ .call) :
    ∃ q, t.step p e = .ok q ∧ q.awaited = p.awaited := by
  cases e with
  | meet pl =>
    unfold step
    simp only
    split
    · exact absurd ‹_› (h pl rfl)
    · refine ⟨_, rfl, ?_⟩
      unfold meetImport
      split <;> rfl
    · exact ⟨p, rfl, rfl⟩
  | leave pl =>
    unfold step
    simp only
    split
    · exact ⟨_, rfl, (leaveFunction_same t _ _ _ p).1⟩
    · exact ⟨p, rfl, rfl⟩

/-- Only a call that counts and has no word to be planned by stops the walk. -/
theorem step_eq_error {e : Event} {what : Unsupported} : t.step p e = .error what ↔
    ∃ pl, e = .meet pl ∧ t.fails pl = true ∧ what = .of pl.node.callee := by
  by_cases h : ∃ pl, e = .meet pl ∧ pl.node.kind = .call
  · obtain ⟨pl, rfl, hk⟩ := h
    rw [step_meet_call hk, meetCall_eq_ite hk]
    by_cases hf : t.fails pl = true
    · rw [if_pos hf, Except.error.injEq]
      constructor
      · intro h
        exact ⟨pl, rfl, hf, h.symm⟩
      · intro hex
        obtain ⟨pl', he, -, h⟩ := hex
        cases he
        exact h.symm
    · simp [hf]
  · have haway : ∀ pl, e = .meet pl → pl.node.kind ≠ .call := fun pl he hk => h ⟨pl, he, hk⟩
    obtain ⟨q, hq, -⟩ := step_away (t := t) (p := p) haway
    rw [hq]
    refine ⟨nofun, fun hex => ?_⟩
    obtain ⟨pl, he, hf, -⟩ := hex
    have hno : t.fails pl = false := by simp [fails, counts, haway pl he]
    rw [hno] at hf
    cases hf

theorem awaited_step {e : Event} (h : t.step p e = .ok p') :
    p'.awaited = p.awaited + ((met [e]).filter t.wraps).length := by
  by_cases hc : ∃ pl, e = .meet pl ∧ pl.node.kind = .call
  · obtain ⟨pl, rfl, hk⟩ := hc
    rw [step_meet_call hk, meetCall_eq_ite hk] at h
    split at h
    · cases h
    · cases h
      have hmet : met [.meet pl] = [pl] := rfl
      rw [hmet]
      by_cases hw : t.wraps pl = true
      · rw [if_pos hw, List.filter_cons_of_pos hw]
        rfl
      · rw [if_neg hw, List.filter_cons_of_neg hw]
        rfl
  · have haway : ∀ pl, e = .meet pl → pl.node.kind ≠ .call := fun pl he hk => hc ⟨pl, he, hk⟩
    obtain ⟨q, hq, hsame⟩ := step_away (t := t) (p := p) haway
    rw [h] at hq
    cases hq
    have hnone : (met [e]).filter t.wraps = [] := by
      rw [List.filter_eq_nil_iff]
      intro pl hpl
      have he : e = .meet pl := (List.mem_singleton.1 (mem_met.1 hpl)).symm
      simp [wraps, haway pl he]
    rw [hnone, hsame]
    rfl

theorem met_cons (e : Event) (es : List Event) : met (e :: es) = met [e] ++ met es := by
  cases e <;> rfl

/-- The walk stops at the first call that counts and has no word to be planned by. -/
theorem run_eq_error {es : List Event} {what : Unsupported} : t.run es p = .error what ↔
    ∃ pl, (met es).find? t.fails = some pl ∧ what = .of pl.node.callee := by
  induction es generalizing p with
  | nil => simp [run, met]
  | cons e es ih =>
    rw [run, met_cons, List.find?_append]
    cases hs : t.step p e with
    | error what' =>
      obtain ⟨pl, rfl, hf, rfl⟩ := step_eq_error.1 hs
      simp [met, hf, eq_comm]
    | ok q =>
      -- An event that does not stop the walk meets no call that fails.
      have hnone : (met [e]).find? t.fails = none := by
        rw [List.find?_eq_none]
        intro pl hpl hf
        have he : e = .meet pl := (List.mem_singleton.1 (mem_met.1 hpl)).symm
        rw [step_eq_error.2 ⟨pl, he, hf, rfl⟩] at hs
        cases hs
      rw [hnone, Option.none_or]
      exact ih

def awaits (e : Edit) : Bool := e.kind = .await || e.kind = .close

theorem filter_awaits_gives (pending : SortedSet String) (e : Event) :
    (t.gives pending e).filter awaits =
    ((met [e]).filter t.wraps).flatMap fun pl => awaitEdits (pl.site t) pl.node := by
  cases e with
  | meet pl =>
    by_cases hw : t.wraps pl = true
    · simp only [gives, met, hw, if_true, List.filter_cons, List.filter_nil, List.flatMap_cons,
        List.flatMap_nil]
      rw [List.append_nil, List.filter_eq_self]
      intro e he
      unfold awaitEdits at he
      split at he
      · rcases List.mem_cons.1 he with rfl | he
        · rfl
        · rw [List.mem_singleton.1 he]
          rfl
      · rw [List.mem_singleton.1 he]
        rfl
    · simp [gives, met, hw]
  | leave pl =>
    simp only [gives, met, List.filter_nil, List.flatMap_nil]
    split
    · rfl
    · split
      · rfl
      · rw [List.filter_append]
        split <;> split <;> simp [awaits, Place.asyncEdit, markerEdit]

/-- The walk awaits the calls that it wraps, each once, and counts them. -/
theorem filter_awaits_run {es : List Event} (h : t.run es p = .ok p') :
    p'.edits.filter awaits = p.edits.filter awaits ++
      ((met es).filter t.wraps).flatMap (fun pl => awaitEdits (pl.site t) pl.node) ∧
    p'.awaited = p.awaited + ((met es).filter t.wraps).length := by
  induction es generalizing p with
  | nil =>
    cases h
    simp [met]
  | cons e es ih =>
    obtain ⟨q, hs, h⟩ := exists_of_run_cons h
    obtain ⟨hedits, hcount⟩ := ih h
    rw [hedits, hcount, (step_eq hs).1, awaited_step hs, List.filter_append, filter_awaits_gives,
      met_cons e es,
      List.filter_append, List.flatMap_append, List.append_assoc, List.length_append, Nat.add_assoc]
    exact ⟨rfl, rfl⟩

end Task

variable {t : Task} {root : Node} {p : Progress}

theorem placesOf_eq (root : Node) : placesOf root = places root := met_eventsOf [] false root

theorem filter_awaits_insertions (hg : gather t root = .ok p) :
    (p.insertions t root).filter Task.awaits =
    ((places root).filter t.wraps).flatMap (fun pl => awaitEdits (pl.site t) pl.node) ∧
    p.awaited = ((places root).filter t.wraps).length := by
  rw [gather_eq_run] at hg
  obtain ⟨hedits, hcount⟩ := Task.filter_awaits_run hg
  rw [show Task.met (eventsOf [] false root) = places root from placesOf_eq root] at hedits hcount
  refine ⟨?_, hcount.trans (Nat.zero_add _)⟩
  have himport : [importEdit t root].filter Task.awaits = [] := by
    refine List.filter_eq_nil_iff.2 fun e he => ?_
    rw [List.mem_singleton.1 he, Task.awaits, kind_importEdit]
    exact nofun
  unfold Progress.insertions
  split
  · rw [List.filter_append, himport, List.append_nil]
    exact hedits
  · exact hedits

theorem gather_eq_error {what : Unsupported} : gather t root = .error what ↔
    ∃ pl, (places root).find? t.fails = some pl ∧ what = .of pl.node.callee := by
  rw [gather_eq_run, Task.run_eq_error, ← placesOf_eq]
  rfl

theorem rewriteTree_eq_error {what : Unsupported} :
    rewriteTree t root = .error what ↔ gather t root = .error what := by
  unfold rewriteTree
  cases gather t root <;> simp

/-- A module fails just with the first call that counts and has no word to be planned by.  Otherwise
it awaits the calls that count and are planned, each once, and tells their number.  None of these
calls is outside the functions. -/
theorem rewriteTree_reads (t : Task) (root : Node) :
    (∀ what, rewriteTree t root = .error what ↔ ∃ pl,
      (places root).find? (fun pl => t.counts pl && !pl.node.calleeHasLiteral) = some pl ∧
        what = .of pl.node.callee) ∧
    (∀ r, rewriteTree t root = .ok r → ∃ p, gather t root = .ok p ∧
      r.source = Edit.apply t.source (p.insertions t root) ∧
      (p.insertions t root).filter (fun e => e.kind = .await || e.kind = .close) =
        ((places root).filter t.wraps).flatMap (fun pl => awaitEdits (pl.site t) pl.node) ∧
      r.awaited = ((places root).filter t.wraps).length) ∧
    (∀ pl, t.wraps pl = true ↔ t.counts pl = true ∧ ∃ caller literal, pl.caller t = some caller ∧
      literalOf t.source pl.node = .ok literal ∧ t.plan.hasCall caller literal = true) ∧
    ∀ pl, pl.function? = none → t.counts pl = false := by
  refine ⟨fun what => rewriteTree_eq_error.trans gather_eq_error, fun r hr => ?_,
    fun pl => Task.wraps_iff, ?_⟩
  · unfold rewriteTree at hr
    split at hr
    · cases hr
    · rename_i p hg
      cases hr
      obtain ⟨hedits, hcount⟩ := filter_awaits_insertions hg
      exact ⟨p, hg, rfl, hedits, hcount⟩
  · intro pl hnone
    rw [← Bool.not_eq_true]
    intro hc
    have hsome := Task.function?_isSome_of_counts hc
    rw [hnone] at hsome
    cases hsome

end Rewrite

end AsyncSpread
