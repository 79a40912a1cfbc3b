import AsyncSpread.Proofs.Rewrite.Awaited

/-!
The counters of the walk.

What a step keeps a run keeps (`Task.run_keeps`).  The walk counts its insertions by what they add
(`counted_gather`), and each planned name is counted as made asynchronous, or as asynchronous
already, or is pending still (`settled_gather`).
-/

namespace AsyncSpread

open Python

namespace SortedSet

variable {α : Type} [Ord α] [Std.ReflOrd α]

theorem nodup_toList (s : SortedSet α) : s.toList.Nodup := by
  refine s.ascending.imp fun {a b} h hab => ?_
  subst hab
  simp [Std.ReflCmp.compare_self] at h

/-- A member that is taken away makes a set smaller by one. -/
theorem size_erase [BEq α] [LawfulBEq α] {s : SortedSet α} {a : α} (h : a ∈ s) :
    (s.erase a).size + 1 = s.size := by
  have herase : (s.erase a).toList = s.toList.erase a := (s.nodup_toList.erase_eq_filter a).symm
  have hpos := List.length_pos_of_mem h
  unfold size
  rw [herase, List.length_erase_of_mem h]
  omega

end SortedSet

namespace Rewrite

variable {t : Task} {p p' : Progress}

theorem Task.run_keeps {P : Progress → Prop} (hstep : ∀ {p p' e}, P p → t.step p e = .ok p' → P p')
    {es : List Event} (hp : P p) (h : t.run es p = .ok p') : P p' := by
  induction es generalizing p with
  | nil =>
    cases h
    exact hp
  | cons e es ih =>
    obtain ⟨q, hs, h⟩ := exists_of_run_cons h
    exact ih (hstep hp hs) h

/-- What a step does: a call that is wrapped is awaited, an import may bind the marker, a function
is left, or nothing happens. -/
theorem Task.step_cases {e : Event} (h : t.step p e = .ok p') :
    (∃ pl, t.wraps pl = true ∧
      p' = { p with edits := p.edits ++ awaitEdits (pl.site t) pl.node, awaited :=
        p.awaited + 1 }) ∨
    (∃ imported, p' = { p with imported := imported }) ∨
    (∃ pl, e = .leave pl ∧ pl.node.kind = .functionDefinition ∧
      p' = leaveFunction t (pl.site t) pl.node (t.index.nameAt? pl.node.startLine) p) ∨ p' = p := by
  cases e with
  | meet pl =>
    unfold step at h
    simp only at h
    split at h
    · rename_i hk
      rw [meetCall_eq_ite hk] at h
      split at h
      · cases h
      · cases h
        split
        · rename_i hw
          exact .inl ⟨pl, hw, rfl⟩
        · exact .inr (.inr (.inr rfl))
    · cases h
      unfold meetImport
      split
      · exact .inr (.inl ⟨true, rfl⟩)
      · exact .inr (.inr (.inr rfl))
    · cases h
      exact .inr (.inr (.inr rfl))
  | leave pl =>
    unfold step at h
    simp only at h
    split at h
    · rename_i hk
      cases h
      exact .inr (.inr (.inl ⟨pl, rfl, hk, rfl⟩))
    · cases h
      exact .inr (.inr (.inr rfl))

namespace Progress

def tally (p : Progress) (kind : EditKind) : Nat := p.edits.countP fun e => e.kind = kind

/-- Each counter is the number of the insertions that it counts. -/
structure Counted (p : Progress) : Prop where
  madeAsync : p.madeAsync = p.tally .async
  awaited : p.awaited = p.tally .await
  marked : p.marked = p.tally .decorator
  /-- The walk itself imports nothing. -/
  importLine : p.tally .importLine = 0

theorem counted_start (plan : Plan) : (start plan).Counted := ⟨rfl, rfl, rfl, rfl⟩

end Progress

theorem Progress.Counted.leaveFunction (hp : p.Counted) (s : Site) (d : Node)
    (name : Option String) : (leaveFunction t s d name p).Counted := by
  obtain ⟨hasync, hawait, hmark, himport⟩ := hp
  unfold Rewrite.leaveFunction
  cases name with
  | none => exact ⟨hasync, hawait, hmark, himport⟩
  | some name =>
    simp only
    split
    · exact ⟨hasync, hawait, hmark, himport⟩
    · split <;> split <;> constructor <;>
        simp_all [Progress.edit, Progress.tally, markerEdit]

theorem countP_awaitEdits (s : Site) (call : Node) (kind : EditKind) :
    (awaitEdits s call).countP (fun e => e.kind = kind) =
    (if kind = .await then 1 else 0) + if kind = .close ∧ s.builtOn = true then 1 else 0 := by
  unfold awaitEdits
  cases s.builtOn <;> cases kind <;> rfl

theorem Progress.Counted.step {e : Event} (hp : p.Counted) (h : t.step p e = .ok p') :
    p'.Counted := by
  rcases Task.step_cases h with ⟨pl, -, rfl⟩ | ⟨imported, rfl⟩ | ⟨pl, -, -, rfl⟩ | rfl
  · have happend (kind : EditKind) := countP_awaitEdits (pl.site t) pl.node kind
    obtain ⟨hasync, hawait, hmark, himport⟩ := hp
    constructor <;> simp_all [Progress.tally]
  · exact ⟨hp.madeAsync, hp.awaited, hp.marked, hp.importLine⟩
  · exact hp.leaveFunction _ _ _
  · exact hp

variable {root : Node}

theorem counted_gather (hg : gather t root = .ok p) : p.Counted := by
  rw [gather_eq_run] at hg
  exact Task.run_keeps Progress.Counted.step (Progress.counted_start t.plan) hg

/-! ## Planned names -/

/-- Each of so many planned names is made asynchronous, or was so, or is pending. -/
def Progress.Settled (planned : Nat) (p : Progress) : Prop :=
  p.madeAsync + p.alreadyAsync + p.pending.size = planned

theorem Progress.Settled.leaveFunction {planned : Nat} (hp : p.Settled planned) (s : Site)
    (d : Node) (name : Option String) : (leaveFunction t s d name p).Settled planned := by
  unfold Progress.Settled at hp ⊢
  unfold Rewrite.leaveFunction
  cases name with
  | none => exact hp
  | some name =>
    simp only
    split
    · exact hp
    · rename_i hc
      have hmem : name ∈ p.pending := by simpa using hc
      have hsize := SortedSet.size_erase hmem
      split <;> split <;> simp only [Progress.edit] <;> omega

theorem Progress.Settled.step {planned : Nat} {e : Event} (hp : p.Settled planned)
    (h : t.step p e = .ok p') : p'.Settled planned := by
  rcases Task.step_cases h with ⟨pl, -, rfl⟩ | ⟨imported, rfl⟩ | ⟨pl, -, -, rfl⟩ | rfl
  · exact hp
  · exact hp
  · exact hp.leaveFunction _ _ _
  · exact hp

theorem settled_gather (hg : gather t root = .ok p) : p.Settled t.plan.functions.size := by
  rw [gather_eq_run] at hg
  exact Task.run_keeps Progress.Settled.step
    (show (Progress.start t.plan).Settled _ from Nat.zero_add _) hg

end Rewrite

end AsyncSpread
