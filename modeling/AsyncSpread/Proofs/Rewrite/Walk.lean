import AsyncSpread.Proofs.Python.Names
import AsyncSpread.Rewrite.Source

/-!
The walk over a tree as a run over events.

A place of a tree is a node with what is around it, and all that the walk knows at a node can be
told from its place (`Place.site`).  The walk meets each place and leaves it again, and what it
gathers is gathered by one step for each of these events (`visit_eq_run`).
-/

namespace AsyncSpread.Rewrite

open Python

structure Place where
  node : Node
  around : List Node
  /-- Whether it is the first child of the node around it. -/
  first : Bool

namespace Place

def function? (pl : Place) : Option Node := pl.around.find? fun n => n.kind = .functionDefinition

/-- Whether the nearest node that is no parenthesis is an `await`. -/
def awaitedBy : List Node → Bool
  | [] => false
  | n :: ns => n.kind = .await || (n.kind = .parenthesizedExpression && awaitedBy ns)

def builtOn (pl : Place) : Bool :=
  match pl.around with
  | [] => false
  | n :: _ => pl.first && (n.kind = .attribute || n.kind = .subscript || n.kind = .call)

def decoratorsOf (n : Node) : List Node :=
  if n.kind = .decoratedDefinition then n.children.filter fun c => c.kind = .decorator else []

def decorators (pl : Place) : List Node :=
  match pl.around with
  | [] => []
  | n :: _ => decoratorsOf n

def caller (t : Task) (pl : Place) : Option String :=
  pl.function?.bind fun d => t.index.nameAt? d.startLine

/-- What the walk knows at a place. -/
def site (t : Task) (pl : Place) : Site where
  depth := pl.around.length
  caller := pl.caller t
  nested := pl.around.any fun n => n.kind.scope?.isSome
  awaited := awaitedBy pl.around
  builtOn := pl.builtOn
  decorators := pl.decorators

def child (pl : Place) (n : Node) (first : Bool) : Place := ⟨n, pl.node :: pl.around, first⟩

def inside (t : Task) (pl : Place) : Site :=
  if pl.node.kind = .functionDefinition then
    { pl.site t with caller := t.index.nameAt? pl.node.startLine }
  else pl.site t

theorem site_child (t : Task) (pl : Place) (n : Node) (first : Bool) :
    (pl.inside t).child pl.node.kind (decoratorsOf pl.node) first = (pl.child n first).site t := by
  have hcaller : (pl.child n first).caller t = (pl.inside t).caller := by
    unfold caller function? child inside
    by_cases hk : pl.node.kind = .functionDefinition
    · simp [hk]
    · simp [hk, site, caller, function?]
  have hnested : (pl.inside t).nested = pl.around.any fun n => n.kind.scope?.isSome := by
    unfold inside
    split <;> rfl
  have hawaited : (pl.inside t).awaited = awaitedBy pl.around := by
    unfold inside
    split <;> rfl
  have hdepth : (pl.inside t).depth = pl.around.length := by
    unfold inside
    split <;> rfl
  unfold Site.child site
  rw [hcaller, hnested, hawaited, hdepth]
  simp [child, awaitedBy, builtOn, decorators, Bool.or_comm]

end Place

inductive Event where
  | meet (pl : Place)
  | leave (pl : Place)

mutual

def eventsOf (around : List Node) (first : Bool) : Node → List Event
  | .mk k p q ns => .meet ⟨.mk k p q ns, around, first⟩ ::
      (eventsOfAll (.mk k p q ns :: around) true ns ++ [.leave ⟨.mk k p q ns, around, first⟩])

def eventsOfAll (around : List Node) (first : Bool) : List Node → List Event
  | [] => []
  | n :: ns => eventsOf around first n ++ eventsOfAll around false ns

end

def Task.step (t : Task) (p : Progress) : Event → Except Unsupported Progress
  | .meet pl =>
    match pl.node.kind with
    | .call => meetCall t (pl.site t) pl.node p
    | .importStatement => .ok (meetImport t (pl.site t) pl.node p)
    | _ => .ok p
  | .leave pl =>
    match pl.node.kind with
    | .functionDefinition =>
        .ok (leaveFunction t (pl.site t) pl.node (t.index.nameAt? pl.node.startLine) p)
    | _ => .ok p

def Task.run (t : Task) : List Event → Progress → Except Unsupported Progress
  | [], p => .ok p
  | e :: es, p =>
    match t.step p e with
    | .error what => .error what
    | .ok p => t.run es p

theorem Task.run_append (t : Task) (es fs : List Event) (p : Progress) :
    t.run (es ++ fs) p = match t.run es p with
      | .error what => .error what
      | .ok p => t.run fs p := by
  induction es generalizing p with
  | nil => rfl
  | cons e es ih =>
    rw [List.cons_append, run, run]
    cases t.step p e with
    | error what => rfl
    | ok p => exact ih p

theorem Task.exists_of_run_cons {t : Task} {e : Event} {es : List Event} {p p' : Progress}
    (h : t.run (e :: es) p = .ok p') : ∃ q, t.step p e = .ok q ∧ t.run es q = .ok p' := by
  rw [run] at h
  cases hs : t.step p e with
  | error what =>
    rw [hs] at h
    cases h
  | ok q =>
    rw [hs] at h
    exact ⟨q, rfl, h⟩

theorem Task.exists_of_run_append {t : Task} {es fs : List Event} {p p' : Progress}
    (h : t.run (es ++ fs) p = .ok p') : ∃ q, t.run es p = .ok q ∧ t.run fs q = .ok p' := by
  rw [run_append] at h
  cases hs : t.run es p with
  | error what =>
    rw [hs] at h
    cases h
  | ok q =>
    rw [hs] at h
    exact ⟨q, rfl, h⟩

theorem Place.inside_function (t : Task) (pl : Place) (h : pl.node.kind = .functionDefinition) :
    pl.inside t = { pl.site t with caller := t.index.nameAt? pl.node.startLine } := if_pos h

theorem Place.inside_other (t : Task) (pl : Place) (h : pl.node.kind ≠ .functionDefinition) :
    pl.inside t = pl.site t := if_neg h

/-- At a node that is no function, call or import the walk only goes on. -/
theorem visit_other (t : Task) (s : Site) {k : Kind} {start stop : Pos} {ns : List Node}
    (p : Progress) (hf : k ≠ .functionDefinition) (hc : k ≠ .call) (hi : k ≠ .importStatement) :
    visit t s (.mk k start stop ns) p =
      visitAll t s k (Place.decoratorsOf (.mk k start stop ns)) true ns p := by
  cases k with
  | functionDefinition => exact absurd rfl hf
  | call => exact absurd rfl hc
  | importStatement => exact absurd rfl hi
  | _ => rfl

theorem Task.step_other (t : Task) (pl : Place) (p : Progress)
    (hf : pl.node.kind ≠ .functionDefinition) (hc : pl.node.kind ≠ .call)
    (hi : pl.node.kind ≠ .importStatement) :
    t.step p (.meet pl) = .ok p ∧ t.step p (.leave pl) = .ok p := by
  obtain ⟨⟨k, start, stop, ns⟩, around, first⟩ := pl
  cases k with
  | functionDefinition => exact absurd rfl hf
  | call => exact absurd rfl hc
  | importStatement => exact absurd rfl hi
  | _ => exact ⟨rfl, rfl⟩

mutual

theorem visit_eq_run (t : Task) (around : List Node) (first : Bool) (n : Node) (p : Progress) :
    visit t (Place.site t ⟨n, around, first⟩) n p = t.run (eventsOf around first n) p := by
  obtain ⟨k, start, stop, ns⟩ := n
  have hall (p : Progress) : visitAll t (Place.inside t ⟨.mk k start stop ns, around, first⟩) k
      (Place.decoratorsOf (.mk k start stop ns)) true ns p =
        t.run (eventsOfAll (.mk k start stop ns :: around) true ns) p :=
    visitAll_eq_run t ⟨.mk k start stop ns, around, first⟩ true ns p
  rw [eventsOf, Task.run]
  simp only [Task.run_append, Task.run]
  by_cases hf : k = .functionDefinition
  · subst hf
    have hp := hall p
    rw [Place.inside_function t ⟨.mk .functionDefinition start stop ns, around, first⟩ rfl] at hp
    rw [show t.step p (.meet ⟨.mk .functionDefinition start stop ns, around, first⟩) =
      .ok p from rfl]
    simp only
    rw [← hp]
    rfl
  · by_cases hc : k = .call
    · subst hc
      unfold visit
      simp only [Task.step, Node.kind_mk]
      cases meetCall t (Place.site t ⟨.mk .call start stop ns, around, first⟩)
          (.mk .call start stop ns) p with
      | error what => rfl
      | ok p =>
        have hp := hall p
        rw [Place.inside_other t ⟨.mk .call start stop ns, around, first⟩ nofun] at hp
        refine hp.trans ?_
        simp only
        cases t.run (eventsOfAll (.mk .call start stop ns :: around) true ns) p <;> rfl
    · by_cases hi : k = .importStatement
      · subst hi
        have hp := hall (meetImport t
          (Place.site t ⟨.mk .importStatement start stop ns, around, first⟩)
          (.mk .importStatement start stop ns) p)
        rw [Place.inside_other t ⟨.mk .importStatement start stop ns, around, first⟩ nofun] at hp
        refine hp.trans ?_
        simp only [Task.step, Node.kind_mk]
        generalize t.run (eventsOfAll (.mk .importStatement start stop ns :: around) true ns) _ = r
        cases r <;> rfl
      · have hp := hall p
        have hstep (p : Progress) := t.step_other ⟨.mk k start stop ns, around, first⟩ p hf hc hi
        rw [Place.inside_other t ⟨.mk k start stop ns, around, first⟩ hf] at hp
        rw [visit_other t _ p hf hc hi, (hstep p).1]
        refine hp.trans ?_
        simp only [(hstep _).2]
        cases t.run (eventsOfAll (.mk k start stop ns :: around) true ns) p <;> rfl

theorem visitAll_eq_run (t : Task) (pl : Place) (first : Bool) (ns : List Node) (p : Progress) :
    visitAll t (pl.inside t) pl.node.kind (Place.decoratorsOf pl.node) first ns p =
      t.run (eventsOfAll (pl.node :: pl.around) first ns) p := by
  cases ns with
  | nil => rfl
  | cons n ns =>
    rw [visitAll, pl.site_child t n first, eventsOfAll, Task.run_append]
    have hn := visit_eq_run t (pl.node :: pl.around) first n p
    rw [show (pl.child n first).site t = Place.site t ⟨n, pl.node :: pl.around, first⟩ from rfl, hn]
    cases t.run (eventsOf (pl.node :: pl.around) first n) p with
    | error what => rfl
    | ok p => exact visitAll_eq_run t pl false ns p

end

/-! ## The places of a tree -/

def Event.place : Event → Place
  | .meet pl => pl
  | .leave pl => pl

mutual

theorem of_mem_eventsOf {around : List Node} {first : Bool} {n : Node} {e : Event}
    (h : e ∈ eventsOf around first n) :
    e.place.node ∈ n.all ∧ ∀ a ∈ e.place.around, a ∈ n.all ∨ a ∈ around := by
  obtain ⟨k, p, q, ns⟩ := n
  have here : (Node.mk k p q ns) ∈ (Node.mk k p q ns).all ∧
      ∀ a ∈ around, a ∈ (Node.mk k p q ns).all ∨ a ∈ around :=
    ⟨Node.mem_all_self _, fun _ ha => .inr ha⟩
  rw [eventsOf] at h
  rcases List.mem_cons.1 h with rfl | h
  · exact here
  · rcases List.mem_append.1 h with h | h
    · obtain ⟨hn, ha⟩ := of_mem_eventsOfAll h
      rw [Node.all_eq]
      refine ⟨List.mem_cons_of_mem _ hn, fun a hmem => ?_⟩
      rcases ha a hmem with ha | ha
      · exact .inl (List.mem_cons_of_mem _ ha)
      · rcases List.mem_cons.1 ha with rfl | ha
        · exact .inl List.mem_cons_self
        · exact .inr ha
    · rw [List.mem_singleton] at h
      subst h
      exact here

theorem of_mem_eventsOfAll {around : List Node} {first : Bool} {ns : List Node} {e : Event}
    (h : e ∈ eventsOfAll around first ns) :
    e.place.node ∈ Node.allOf ns ∧ ∀ a ∈ e.place.around, a ∈ Node.allOf ns ∨ a ∈ around := by
  cases ns with
  | nil => cases h
  | cons n ns =>
    rcases List.mem_append.1 h with h | h
    · obtain ⟨hn, ha⟩ := of_mem_eventsOf h
      exact ⟨List.mem_append_left _ hn, fun a hmem => (ha a hmem).imp_left (List.mem_append_left _)⟩
    · obtain ⟨hn, ha⟩ := of_mem_eventsOfAll h
      exact ⟨List.mem_append_right _ hn, fun a hmem =>
        (ha a hmem).imp_left (List.mem_append_right _)⟩

end

/-- The places that the walk goes back from. -/
def left : List Event → List Place
  | [] => []
  | .meet _ :: es => left es
  | .leave pl :: es => pl :: left es

theorem left_append (es fs : List Event) : left (es ++ fs) = left es ++ left fs := by
  induction es with
  | nil => rfl
  | cons e es ih => cases e <;> simp [left, ih]

theorem mem_left {es : List Event} {pl : Place} : pl ∈ left es ↔ Event.leave pl ∈ es := by
  induction es with
  | nil => simp [left]
  | cons e es ih => cases e <;> simp [left, ih]

mutual

theorem exists_left {x n : Node} (around : List Node) (first : Bool) (h : x ∈ n.all) :
    ∃ pl ∈ left (eventsOf around first n), pl.node = x := by
  obtain ⟨k, p, q, ns⟩ := n
  rw [eventsOf, left, left_append]
  rw [Node.all_eq] at h
  rcases List.mem_cons.1 h with rfl | h
  · exact ⟨_, List.mem_append_right _ List.mem_cons_self, rfl⟩
  · obtain ⟨pl, hpl, hn⟩ := exists_leftAll (.mk k p q ns :: around) true h
    exact ⟨pl, List.mem_append_left _ hpl, hn⟩

theorem exists_leftAll {x : Node} {ns : List Node} (around : List Node) (first : Bool)
    (h : x ∈ Node.allOf ns) : ∃ pl ∈ left (eventsOfAll around first ns), pl.node = x := by
  cases ns with
  | nil => cases h
  | cons n ns =>
    rw [eventsOfAll, left_append]
    rcases List.mem_append.1 h with h | h
    · obtain ⟨pl, hpl, hn⟩ := exists_left around first h
      exact ⟨pl, List.mem_append_left _ hpl, hn⟩
    · obtain ⟨pl, hpl, hn⟩ := exists_leftAll around false h
      exact ⟨pl, List.mem_append_right _ hpl, hn⟩

end

theorem node_mem_all {pl : Place} {n : Node} {around : List Node} {first : Bool}
    (h : pl ∈ left (eventsOf around first n)) : pl.node ∈ n.all :=
  (of_mem_eventsOf (mem_left.1 h)).1

/-- Of two places that the walk goes back from, the first is inside the second or before it. -/
def LeftBefore (x y : Place) : Prop := x.node ∈ y.node.inner ∨ x.node.stop.byte ≤ y.node.start.byte

theorem pairwise_leftAll {source : List Char} {p q : Pos} {ns : List Node} {around : List Node}
    {first : Bool} (hl : Laid source p (ns.map Node.span) q) (hn : ∀ n ∈ ns, n.Nested source)
    (h : ∀ n ∈ ns, ∀ around first, (left (eventsOf around first n)).Pairwise LeftBefore) :
    (left (eventsOfAll around first ns)).Pairwise LeftBefore := by
  induction ns generalizing p first with
  | nil => exact .nil
  | cons n ns ih =>
    obtain ⟨h1, h2, h3⟩ := hl
    have hns : ∀ m ∈ ns, m.Nested source := fun m hm => hn m (List.mem_cons_of_mem _ hm)
    rw [eventsOfAll, left_append]
    refine List.pairwise_append.2 ⟨h n List.mem_cons_self _ _,
      ih h3 hns fun m hm => h m (List.mem_cons_of_mem _ hm), fun x hx y hy => .inr ?_⟩
    have hx := (of_mem_eventsOf (mem_left.1 hx)).1
    have hy := (of_mem_eventsOfAll (mem_left.1 hy)).1
    obtain ⟨m, hm, hy⟩ := Node.mem_allOf.1 hy
    obtain ⟨-, -, hx⟩ := (hn n List.mem_cons_self).of_mem_all hx
    obtain ⟨-, hy, -⟩ := (hns m hm).of_mem_all hy
    obtain ⟨hm, -, -⟩ := h3.of_mem (List.mem_map_of_mem hm)
    exact (hx.trans (hm.trans hy)).byte_le

theorem pairwise_left {source : List Char} {n : Node} (h : n.Nested source) (around : List Node)
    (first : Bool) : (left (eventsOf around first n)).Pairwise LeftBefore := by
  induction h generalizing around first with
  | mk laid all ih =>
    rw [eventsOf, left, left_append]
    refine List.pairwise_append.2 ⟨pairwise_leftAll laid all ih, List.pairwise_singleton _ _,
      fun x hx y hy => .inl ?_⟩
    cases List.mem_singleton.1 hy
    exact (of_mem_eventsOfAll (mem_left.1 hx)).1

end AsyncSpread.Rewrite
