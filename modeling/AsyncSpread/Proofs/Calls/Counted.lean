import AsyncSpread.Proofs.Calls.Judged

/-!
Every raw call is accounted for.

Raw calls are fed to a builder one after the other, and between them the files and the names may
change.  One raw call adds one to the number of raw calls and one to the number of what became of
it, and this is how the books balance whatever comes (`Builder.accounts_feed`).  Functions come into
the graph with their calls only, because two functions are registered just before the call between
them is added, and this cannot fail.
-/

namespace AsyncSpread

open Calls Trace

namespace Calls

/-- A raw call, with the files and the names that it is looked up in. -/
structure Feed where
  disk : Disk
  lookup : NameLookup
  raw : RawCall

def tellsNew : Except BuildFault Bool → Bool
  | .ok isNew => isNew
  | .error _ => false

theorem Tally.skipped_skip (t : Tally) (why : Skip) : (t.skip why).skipped = t.skipped + 1 := by
  cases why <;> simp only [Tally.skip, Tally.skipped] <;> omega

theorem Tally.rawCalls_skip (t : Tally) (why : Skip) : (t.skip why).rawCalls = t.rawCalls := by
  cases why <;> rfl

theorem Tally.added_skip (t : Tally) (why : Skip) : (t.skip why).added = t.added := by
  cases why <;> rfl

theorem Tally.repeated_skip (t : Tally) (why : Skip) : (t.skip why).repeated = t.repeated := by
  cases why <;> rfl

namespace Builder

def feed (b : Builder) : List Feed → Builder × List (Except BuildFault Bool)
  | [] => (b, [])
  | s :: rest =>
    let next := b.add s.disk s.lookup s.raw
    let (b, answers) := next.1.feed rest
    (b, next.2 :: answers)

theorem feed_cons (b : Builder) (s : Feed) (rest : List Feed) :
    b.feed (s :: rest) = (((b.add s.disk s.lookup s.raw).1.feed rest).1,
      (b.add s.disk s.lookup s.raw).2 :: ((b.add s.disk s.lookup s.raw).1.feed rest).2) := rfl

theorem feed_append_fst (b : Builder) (first rest : List Feed) :
    (b.feed (first ++ rest)).1 = ((b.feed first).1.feed rest).1 := by
  induction first generalizing b with
  | nil => rfl
  | cons s first ih => exact ih _

theorem length_feed_snd (b : Builder) (steps : List Feed) :
    (b.feed steps).2.length = steps.length := by
  induction steps generalizing b with
  | nil => rfl
  | cons s rest ih => rw [feed_cons, List.length_cons, List.length_cons, ih]

/-- The books of a builder that has given some answers. -/
structure Accounts (b : Builder) (answers : List (Except BuildFault Bool)) : Prop where
  consistent : b.graph.Consistent
  joined : b.graph.Joined
  succeeds : ∀ a ∈ answers, ∃ isNew, a = .ok isNew
  rawCalls : b.tally.rawCalls = answers.length
  balance : b.tally.rawCalls = b.tally.added + b.tally.repeated + b.tally.unresolvedLines +
    b.tally.unresolvedNames + b.tally.unreadable
  added_calls : b.tally.added = b.graph.calls.length
  added_answers : b.tally.added = answers.countP tellsNew

variable {b : Builder} {answers : List (Except BuildFault Bool)}

theorem accounts_start (sources : Source.Cache) : (start sources).Accounts [] where
  consistent := CallGraph.Built.empty.consistent
  joined i := by
    constructor
    · intro h
      obtain ⟨f, hf⟩ := h
      cases hf
    · intro h
      obtain ⟨c, hc, -⟩ := h
      exact (List.not_mem_nil hc).elim
  succeeds a ha := (List.not_mem_nil ha).elim
  rawCalls := rfl
  balance := rfl
  added_calls := rfl
  added_answers := rfl

theorem succeeds_concat (h : ∀ a ∈ answers, ∃ isNew, a = .ok isNew) (isNew : Bool) :
    ∀ a ∈ answers ++ [.ok isNew], ∃ isNew, a = .ok isNew := by
  intro a ha
  rcases List.mem_append.1 ha with ha | ha
  · exact h a ha
  · exact ⟨isNew, List.mem_singleton.1 ha⟩

/-- A raw call that is left out is counted, and changes nothing else. -/
theorem Accounts.skip (h : b.Accounts answers) (sources : Source.Cache) (why : Skip) :
    ((b.receive sources).settle (.skip why)).1.Accounts (answers ++ [.ok false]) := by
  have hrawCalls := h.rawCalls
  have hbalance := h.balance
  have hcalls := h.added_calls
  have hanswers := h.added_answers
  have hskipped := Tally.skipped_skip { b.tally with rawCalls := b.tally.rawCalls + 1 } why
  refine ⟨h.consistent, h.joined, succeeds_concat h.succeeds false, ?_, ?_, ?_, ?_⟩
  · simp [settle, receive, Tally.rawCalls_skip, hrawCalls]
  · simp only [settle, receive, Tally.rawCalls_skip, Tally.added_skip, Tally.repeated_skip]
    simp only [Tally.skipped] at hskipped
    omega
  · simp only [settle, receive, Tally.added_skip, hcalls]
  · simp [settle, receive, Tally.added_skip, tellsNew, hanswers]

/-- Linking adds a call with its functions, or counts one that is there. -/
theorem Accounts.link (h : b.Accounts answers) (sources : Source.Cache) (raw : RawCall)
    (caller callee : String) :
    ((b.receive sources).link raw caller callee).1.Accounts
      (answers ++ [((b.receive sources).link raw caller callee).2]) := by
  have hrawCalls := h.rawCalls
  have hbalance := h.balance
  have hcalls := h.added_calls
  have hanswers := h.added_answers
  have hlink := link_eq (b := b.receive sources) h.consistent raw caller callee
  by_cases hmem : (b.graph.introduce raw caller callee).1 ∈ b.graph.calls
  · rw [hlink.trans (if_pos hmem)]
    refine ⟨h.consistent, h.joined, succeeds_concat h.succeeds false, ?_, ?_, h.added_calls, ?_⟩
    · simp [receive, hrawCalls]
    · simp only [receive]
      omega
    · simp [receive, tellsNew, hanswers]
  · rw [hlink.trans (if_neg hmem)]
    refine ⟨h.consistent.linked hmem, h.joined.linked h.consistent raw caller callee,
      succeeds_concat h.succeeds true, ?_, ?_, ?_, ?_⟩
    · simp [receive, hrawCalls]
    · simp only [receive]
      omega
    · show b.tally.added + 1 = (b.graph.calls ++ [_]).length
      rw [List.length_append, hcalls]
      rfl
    · simp [receive, tellsNew, hanswers]

theorem Accounts.add (h : b.Accounts answers) (s : Feed) :
    (b.add s.disk s.lookup s.raw).1.Accounts (answers ++ [(b.add s.disk s.lookup s.raw).2]) := by
  rw [add_eq]
  cases judge s.lookup (Source.resolveCall s.disk s.raw b.sources).2 with
  | skip why => exact h.skip _ why
  | link raw caller callee => exact h.link _ raw caller callee

theorem Accounts.feed (h : b.Accounts answers) (steps : List Feed) :
    (b.feed steps).1.Accounts (answers ++ (b.feed steps).2) := by
  induction steps generalizing b answers with
  | nil => rwa [feed, List.append_nil]
  | cons s rest ih =>
    have hrest := ih (h.add s)
    rw [List.append_assoc] at hrest
    exact hrest

/-- A raw call that is counted as left out leaves the graph as it is. -/
theorem graph_add_of_skipped (hb : b.graph.Consistent) (s : Feed)
    (h : b.tally.skipped < (b.add s.disk s.lookup s.raw).1.tally.skipped) :
    (b.add s.disk s.lookup s.raw).1.graph = b.graph := by
  rw [add_eq] at h ⊢
  cases hv : judge s.lookup (Source.resolveCall s.disk s.raw b.sources).2 with
  | skip why => rfl
  | link raw caller callee =>
    rw [hv] at h
    have hlink := link_eq (b := b.receive (Source.resolveCall s.disk s.raw b.sources).1) hb raw
      caller callee
    have hsame : ((b.receive (Source.resolveCall s.disk s.raw b.sources).1).link raw caller
        callee).1.tally.skipped = b.tally.skipped := by
      rw [hlink]
      split <;> rfl
    rw [settle, hsame] at h
    exact absurd h (Nat.lt_irrefl _)

/-- Whatever raw calls come, and however files and names change between them, no raw call fails and
each is counted once. -/
theorem accounts_feed (sources : Source.Cache) (steps : List Feed) :
    ((start sources).feed steps).1.Accounts ((start sources).feed steps).2 ∧
      ((start sources).feed steps).1.tally.rawCalls = steps.length ∧
      ∀ before s rest, steps = before ++ s :: rest →
        ((start sources).feed before).1.tally.skipped <
          ((start sources).feed (before ++ [s])).1.tally.skipped →
        ((start sources).feed (before ++ [s])).1.graph = ((start sources).feed before).1.graph := by
  have hbooks : ∀ steps, ((start sources).feed steps).1.Accounts ((start sources).feed steps).2 :=
    (accounts_start sources).feed
  refine ⟨hbooks steps, ?_, fun before s _ _ hskipped => ?_⟩
  · rw [(hbooks steps).rawCalls, length_feed_snd]
  · rw [feed_append_fst] at hskipped ⊢
    exact graph_add_of_skipped (hbooks before).consistent s hskipped

def twoFunctions : Disk :=
  ⟨[("a.py", .file (Text.encodeUtf8 "def f(): g()\ndef g(): pass\n".toList))], []⟩

def nameOfLine : NameLookup := fun _ line => if line = 1 then some "a.f" else some "a.g"

/-- A call of `f` by itself, in a file with a path that leads to it. -/
def plainCall : RawCall := ⟨⟨⟨"/a.py"⟩, "f:1", "f", 1⟩, ⟨⟨"/a.py"⟩, "f:1", "f", 1⟩, 1⟩

/-- The call before its file is written, twice when it is there, and once when nothing has a
name. -/
def mixedFeeds : List Feed := [
  ⟨⟨[], []⟩, nameOfLine, plainCall⟩, ⟨twoFunctions, nameOfLine, plainCall⟩,
    ⟨twoFunctions, nameOfLine, plainCall⟩,
  ⟨twoFunctions, fun _ _ => none, plainCall⟩]

def strayFeed : Feed :=
  ⟨twoFunctions, nameOfLine, ⟨⟨⟨"/a.py"⟩, "f:1", "f", 1⟩, ⟨⟨"/a.py"⟩, "h:1", "h", 1⟩, 1⟩⟩

theorem accounts_feed_mixed :
    ((start ∅).feed (mixedFeeds ++ [strayFeed])).1.tally = ⟨5, 1, 1, 1, 1, 1⟩ ∧
      ((start ∅).feed (mixedFeeds ++ [strayFeed])).1.Accounts
        ((start ∅).feed (mixedFeeds ++ [strayFeed])).2 ∧
      ((start ∅).feed mixedFeeds).1.tally.skipped <
        ((start ∅).feed (mixedFeeds ++ [strayFeed])).1.tally.skipped ∧
      ((start ∅).feed (mixedFeeds ++ [strayFeed])).1.graph =
        ((start ∅).feed mixedFeeds).1.graph := by
  obtain ⟨hbooks, -, hleft⟩ := accounts_feed ∅ (mixedFeeds ++ [strayFeed])
  have hskipped : ((start ∅).feed mixedFeeds).1.tally.skipped <
      ((start ∅).feed (mixedFeeds ++ [strayFeed])).1.tally.skipped := by decide +kernel
  exact ⟨by decide +kernel, hbooks, hskipped, hleft mixedFeeds strayFeed [] rfl hskipped⟩

end Builder

end Calls

end AsyncSpread
