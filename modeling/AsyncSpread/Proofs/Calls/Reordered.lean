import Mathlib.Data.List.Induction
import AsyncSpread.Proofs.Calls.Counted
import AsyncSpread.Proofs.Calls.Edges
import AsyncSpread.Proofs.Source.Steady

/-!
The order of the raw calls.

Function numbers, registered lines, the order of the calls and what has been read all depend on
which raw call comes first.  What becomes of a raw call does not, when the sources are steady: its
verdict is that of the cache at the beginning, whatever was read in between.  So the tally and the
calls by name are those of the verdicts taken together, and with them every plan
(`Builder.addAll_perm`).  A source that is asked for by a path that leads nowhere can be found by
its key all the same, if the file was read before; then the order counts
(`Builder.addAll_reversed`).
-/

namespace AsyncSpread

open Calls Trace

namespace Calls

def Tally.skips (t : Tally) : Skip → Nat
  | .unreadable => t.unreadable
  | .noDefinition => t.unresolvedLines
  | .noName => t.unresolvedNames

theorem Tally.skips_skip (t : Tally) (why other : Skip) :
    (t.skip why).skips other = t.skips other + if why = other then 1 else 0 := by
  cases why <;> cases other <;> rfl

/-- Tallies that balance are told apart by what was received, left out and added. -/
theorem Tally.eq_of_skips {t t' : Tally} (hraw : t.rawCalls = t'.rawCalls)
    (hadded : t.added = t'.added) (hskips : ∀ why, t.skips why = t'.skips why)
    (h : t.rawCalls = t.added + t.repeated + t.unresolvedLines + t.unresolvedNames + t.unreadable)
    (h' : t'.rawCalls = t'.added + t'.repeated + t'.unresolvedLines + t'.unresolvedNames +
      t'.unreadable) : t = t' := by
  have hunreadable := hskips .unreadable
  have hlines := hskips .noDefinition
  have hnames := hskips .noName
  cases t
  cases t'
  simp only [skips] at hraw hadded hunreadable hlines hnames h h'
  simp only [mk.injEq]
  omega

namespace Verdict

def isSkip (v : Verdict) (why : Skip) : Bool :=
  match v with
  | .skip why' => why' = why
  | .link .. => false

def edge? : Verdict → Option Edge
  | .skip _ => none
  | .link raw caller callee => some ⟨some caller, some callee, raw.literal, raw.callLine⟩

end Verdict

namespace Builder

variable {disk : Disk} {lookup : NameLookup} {sources : Source.Cache} {files : List Path}
  {b : Builder} {raws raws' : List RawCall} {raw : RawCall}

/-- The raw calls as they are fed while files and names stay the same. -/
def feeds (disk : Disk) (lookup : NameLookup) (raws : List RawCall) : List Feed :=
  raws.map fun raw => ⟨disk, lookup, raw⟩

/-- Adding all raw calls is feeding them, since none of them fails. -/
theorem addAll_eq {answers : List (Except BuildFault Bool)} (h : b.Accounts answers)
    (raws : List RawCall) :
    b.addAll disk lookup raws = .ok (b.feed (feeds disk lookup raws)).1 := by
  induction raws generalizing b answers with
  | nil => rfl
  | cons raw raws ih =>
    have hnext := h.add ⟨disk, lookup, raw⟩
    obtain ⟨isNew, hanswer⟩ := hnext.succeeds _ (List.mem_append_right _ List.mem_cons_self)
    have hadd : b.add disk lookup raw = ((b.add disk lookup raw).1, .ok isNew) :=
      Prod.ext rfl hanswer
    rw [addAll, hadd]
    exact ih hnext

/-- The verdict on a raw call by the sources at the beginning. -/
def verdict (disk : Disk) (lookup : NameLookup) (sources : Source.Cache) (raw : RawCall) :
    Verdict :=
  judge lookup (Source.resolved disk raw sources)

/-- A builder stands as the verdicts on some raw calls say. -/
structure Follows (b : Builder) (disk : Disk) (lookup : NameLookup) (sources : Source.Cache)
    (files : List Path) (raws : List RawCall) : Prop where
  keeps : Source.Cache.Keeps disk files sources b.sources
  skips : ∀ why, b.tally.skips why = raws.countP fun raw =>
    (verdict disk lookup sources raw).isSkip why
  edges : ∀ x, x ∈ b.graph.edges ↔ ∃ raw ∈ raws, (verdict disk lookup sources raw).edge? = some x

theorem follows_start : (start sources).Follows disk lookup sources files [] where
  keeps := Source.Cache.keeps_self disk files sources
  skips why := by cases why <;> rfl
  edges x := ⟨fun hx => (List.not_mem_nil hx).elim, fun hand => by
    obtain ⟨_, hraw, _⟩ := hand
    exact (List.not_mem_nil hraw).elim⟩

theorem countP_concat (p : RawCall → Bool) (raws : List RawCall) (raw : RawCall) :
    (raws ++ [raw]).countP p = raws.countP p + if p raw then 1 else 0 := by
  rw [List.countP_append, List.countP_singleton]

theorem Follows.concat (h : b.Follows disk lookup sources files raws) {b' : Builder}
    (hkeeps : Source.Cache.Keeps disk files sources b'.sources)
    (hskips : ∀ why, b'.tally.skips why = b.tally.skips why +
      if (verdict disk lookup sources raw).isSkip why then 1 else 0)
    (hedges : ∀ x, x ∈ b'.graph.edges ↔ x ∈ b.graph.edges ∨
      (verdict disk lookup sources raw).edge? = some x) :
    b'.Follows disk lookup sources files (raws ++ [raw]) where
  keeps := hkeeps
  skips why := by rw [hskips, h.skips, countP_concat]
  edges x := by
    rw [hedges, h.edges]
    simp only [List.mem_append, List.mem_singleton, or_and_right, exists_or, exists_eq_left]

theorem Follows.settle (h : b.Follows disk lookup sources files raws) (hb : b.graph.Consistent)
    {c : Source.Cache} (hc : Source.Cache.Keeps disk files sources c) :
    ((b.receive c).settle (verdict disk lookup sources raw)).1.Follows disk lookup sources files
      (raws ++ [raw]) := by
  cases hv : verdict disk lookup sources raw with
  | skip why =>
    refine h.concat hc (fun other => ?_) fun x => ?_
    · show ((b.receive c).tally.skip why).skips other = _
      rw [Tally.skips_skip, hv]
      simp only [Verdict.isSkip, decide_eq_true_eq]
      rfl
    · rw [hv]
      show x ∈ b.graph.edges ↔ _
      simp [Verdict.edge?]
  | link raw' caller callee =>
    have hlink := link_eq (b := b.receive c) hb raw' caller callee
    rw [Builder.settle]
    by_cases hmem : (b.graph.introduce raw' caller callee).1 ∈ b.graph.calls
    · rw [hlink.trans (if_pos hmem)]
      refine h.concat hc (fun other => ?_) fun x => ?_
      · rw [hv]
        cases other <;> rfl
      · rw [hv]
        have hthere := (CallGraph.introduce_mem_iff hb).1 hmem
        constructor
        · exact .inl
        · intro hor
          exact hor.elim id fun he => Option.some.inj he ▸ hthere
    · rw [hlink.trans (if_neg hmem)]
      refine h.concat hc (fun other => ?_) fun x => ?_
      · rw [hv]
        cases other <;> rfl
      · show x ∈ (b.graph.linked raw' caller callee).edges ↔ _
        rw [hv, CallGraph.edges_linked hb, List.mem_append, List.mem_singleton, Verdict.edge?,
          Option.some.injEq]
        exact or_congr_right eq_comm

theorem Follows.add (h : b.Follows disk lookup sources files raws) (hb : b.graph.Consistent)
    (hsteady : Source.Steady disk files) (hcaller : raw.caller.file ∈ files)
    (hcallee : raw.callee.file ∈ files) :
    (b.add disk lookup raw).1.Follows disk lookup sources files (raws ++ [raw]) := by
  obtain ⟨hkeeps, hresolved⟩ := Source.resolveCall_spec h.keeps hsteady hcaller hcallee
  rw [add_eq, hresolved]
  exact h.settle hb hkeeps

def filesOf (raws : List RawCall) : List Path :=
  raws.flatMap fun raw => [raw.caller.file, raw.callee.file]

theorem follows_feed (lookup : NameLookup) (sources : Source.Cache)
    (hsteady : Source.Steady disk files) (hfiles : filesOf raws ⊆ files) :
    ((start sources).feed (feeds disk lookup raws)).1.Follows disk lookup sources files raws := by
  induction raws using List.reverseRecOn with
  | nil => exact follows_start
  | append_singleton raws raw ih =>
    rw [filesOf, List.flatMap_append] at hfiles
    have hfirst := ih fun p hp => hfiles (List.mem_append_left _ hp)
    have hbooks := (accounts_start sources).feed (feeds disk lookup raws)
    rw [feeds, List.map_append, feed_append_fst]
    exact hfirst.add hbooks.consistent hsteady (hfiles (List.mem_append_right _ (by simp)))
      (hfiles (List.mem_append_right _ (by simp)))

/-- Builders that follow the same verdicts in another order agree in their tallies and calls. -/
theorem Follows.agree {b' : Builder} {answers answers' : List (Except BuildFault Bool)}
    (hperm : raws.Perm raws') (h : b.Follows disk lookup sources files raws)
    (h' : b'.Follows disk lookup sources files raws') (hbooks : b.Accounts answers)
    (hbooks' : b'.Accounts answers') (hraw : b.tally.rawCalls = b'.tally.rawCalls) :
    b.tally = b'.tally ∧ ∀ x, x ∈ b.graph.edges ↔ x ∈ b'.graph.edges := by
  have hedges : ∀ x, x ∈ b.graph.edges ↔ x ∈ b'.graph.edges := by
    intro x
    rw [h.edges, h'.edges]
    simp only [hperm.mem_iff]
  -- Neither graph has a call twice, so the same calls are equally many.
  have hlength := ((List.perm_ext_iff_of_nodup hbooks.consistent.nodup_edges
    hbooks'.consistent.nodup_edges).2 hedges).length_eq
  have hadded : b.tally.added = b'.tally.added := by
    rw [CallGraph.edges, CallGraph.edges, List.length_map, List.length_map] at hlength
    rw [hbooks.added_calls, hbooks'.added_calls, hlength]
  refine ⟨Tally.eq_of_skips hraw hadded (fun why => ?_) hbooks.balance hbooks'.balance, hedges⟩
  rw [h.skips, h'.skips, hperm.countP_eq]

/-- While files and names stay the same and the sources are steady, the order of the raw calls has
no say in the tally, in the calls by name, and in what any seeds spread to. -/
theorem addAll_perm (lookup : NameLookup) (sources : Source.Cache) (hperm : raws.Perm raws')
    (hsteady : Source.Steady disk (filesOf raws)) :
    ∃ b b', (start sources).addAll disk lookup raws = .ok b ∧
      (start sources).addAll disk lookup raws' = .ok b' ∧
      b.tally = b'.tally ∧ (∀ x, x ∈ b.graph.edges ↔ x ∈ b'.graph.edges) ∧
      ∀ seeds testPrefix, b.graph.propagate seeds testPrefix =
        b'.graph.propagate seeds testPrefix := by
  have hbooks := (accounts_start sources).feed (feeds disk lookup raws)
  have hbooks' := (accounts_start sources).feed (feeds disk lookup raws')
  have hraw := hbooks.rawCalls.trans (length_feed_snd _ _)
  have hraw' := hbooks'.rawCalls.trans (length_feed_snd _ _)
  have hfollows := follows_feed lookup sources hsteady (List.Subset.refl _)
  have hfollows' := follows_feed lookup sources hsteady (hperm.symm.flatMap_right _).subset
  have hsize : (feeds disk lookup raws).length = (feeds disk lookup raws').length := by
    rw [feeds, feeds, List.length_map, List.length_map, hperm.length_eq]
  obtain ⟨htally, hedges⟩ :=
    hfollows.agree hperm hfollows' hbooks hbooks' (by rw [hraw, hraw', hsize])
  exact ⟨_, _, addAll_eq (accounts_start sources) raws, addAll_eq (accounts_start sources) raws',
    htally, hedges,
    CallGraph.propagate_eq_of_edges hbooks.consistent hbooks'.consistent hbooks.joined
      hbooks'.joined hedges⟩

/-- A call of `g` by `f`, in a file with a path that leads nowhere. -/
def slashedCall : RawCall := ⟨⟨⟨"/a.py/"⟩, "f:1", "f", 1⟩, ⟨⟨"/a.py/"⟩, "g:2", "g", 2⟩, 1⟩

/-- A path that cannot be read is answered for when the file with its components was read before,
and not when it comes first. -/
theorem addAll_reversed :
    ((start ∅).addAll twoFunctions nameOfLine [plainCall, slashedCall]).map
      (fun b => (b.tally, b.graph.edges)) =
      .ok (⟨2, 2, 0, 0, 0, 0⟩,
        [⟨some "a.f", some "a.f", "f", 1⟩, ⟨some "a.f", some "a.g", "g", 1⟩]) ∧
    ((start ∅).addAll twoFunctions nameOfLine [slashedCall, plainCall]).map
      (fun b => (b.tally, b.graph.edges)) =
      .ok (⟨2, 1, 0, 0, 0, 1⟩, [⟨some "a.f", some "a.f", "f", 1⟩]) :=
  ⟨toOption_eq_some (by decide +kernel), toOption_eq_some (by decide +kernel)⟩

end Builder

end Calls

end AsyncSpread
