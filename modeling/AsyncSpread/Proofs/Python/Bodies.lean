import AsyncSpread.Proofs.Python.Headers

/-!
What definitions end with.

A class or a function ends with its body, and behind decorators stands the definition that they
decorate (`closed_of_parse`).
-/

namespace AsyncSpread.Python

variable {σ : Type}

namespace Rule

/-- Whether a rule reads a node of one of some kinds behind all else, and what passes a test in
front of it. -/
def closes (front : Rule σ → Bool) (last : List Kind) (closing : σ → Bool) : Rule σ → Bool
  | .andThen r s => front r && closes front last closing s
  | .orElse r s => closes front last closing r && closes front last closing s
  | .node k _ => last.contains k
  | .rule n => closing n
  | _ => false

/-- Whether the first thing that a rule reads, trivia aside, is a node of a kind. -/
def opens (k : Kind) : Rule σ → Bool
  | .andThen r _ => opens k r
  | .node k' _ => k' = k
  | _ => false

end Rule

section

variable {g : σ → Rule σ} {r : Rule σ} {c c' : Cursor} {ns : List Node}

theorem Reads.closes {front : Rule σ → Bool} {last : List Kind} {closing : σ → Bool}
    {P : Node → Prop} (htrivia : ∀ n, n.isTrivia = true → P n)
    (hfront : ∀ {r c ns c'}, front r = true → Reads g r c ns c' → ∀ n ∈ ns, P n)
    (hclosing : ∀ n, closing n = true → (g n).closes front last closing = true)
    (h : Reads g r c ns c') (hr : r.closes front last closing = true) :
    ∃ before n, ns = before ++ [n] ∧ n.kind ∈ last ∧ ∀ x ∈ before, P x := by
  induction h with
  | @token r _ _ _ _ _ h =>
    cases r with
    | andThen | orElse | node | rule => cases h
    | _ => cases hr
  | andThen h _ _ ih' =>
    rw [Rule.closes, Bool.and_eq_true] at hr
    obtain ⟨before, n, rfl, hn, hbefore⟩ := ih' hr.2
    refine ⟨_ ++ before, n, (List.append_assoc _ _ _).symm, hn, fun x hx => ?_⟩
    rcases List.mem_append.1 hx with hx | hx
    · exact hfront hr.1 h x hx
    · exact hbefore x hx
  | first _ ih =>
    rw [Rule.closes, Bool.and_eq_true] at hr
    exact ih hr.1
  | second _ ih =>
    rw [Rule.closes, Bool.and_eq_true] at hr
    exact ih hr.2
  | node _ _ =>
    exact ⟨_, _, Node.wrap_eq _ _ _, List.contains_iff_mem.1 hr,
      fun x hx => htrivia x (List.all_eq_true.1 List.all_takeWhile x hx)⟩
  | rule _ ih => exact ih (hclosing _ hr)
  | _ => cases hr

theorem Reads.opens {k : Kind} (hk : k.isTrivia = false) (h : Reads g r c ns c')
    (hr : r.opens k = true) : ∃ n rest, ns.dropWhile Node.isTrivia = n :: rest ∧ n.kind = k := by
  induction h with
  | @token r _ _ _ _ _ h =>
    cases r with
    | andThen | node => cases h
    | _ => cases hr
  | @andThen _ _ _ _ _ _ ms _ _ ih _ =>
    obtain ⟨n, rest, hd, hn⟩ := ih hr
    refine ⟨n, rest ++ ms, ?_, hn⟩
    rw [List.dropWhile_append, hd]
    rfl
  | @node k' _ _ c' ns _ _ =>
    obtain rfl : k' = k := of_decide_eq_true hr
    have hmade : Node.isTrivia (Node.made k' c'.last ns) = false := hk
    refine ⟨Node.made k' c'.last ns, [], ?_, rfl⟩
    have hbefore : ∀ x ∈ ns.takeWhile Node.isTrivia, x.isTrivia = true := fun x hx =>
      List.all_eq_true.1 List.all_takeWhile x hx
    rw [Node.wrap_eq, List.dropWhile_append_of_pos hbefore, List.dropWhile_cons, hmade,
      if_neg Bool.false_ne_true]
  | _ => cases hr

theorem Node.children_made {k : Kind} {p : Pos} {front : List Node} {n : Node}
    (hn : n.isTrivia = false) :
    (made k p (front ++ [n])).children = front.dropWhile isTrivia ++ [n] := by
  show (front ++ [n]).dropWhile isTrivia = _
  rw [List.dropWhile_append]
  split
  · rename_i hnil
    rw [List.isEmpty_iff.1 hnil, List.dropWhile_cons, hn]
    rfl
  · rfl

end

/-! ## Definitions -/

/-- What a definition ends with. -/
structure Node.Closed (n : Node) : Prop where
  scope : n.kind.scope?.isSome = true → ∃ front body, n.children = front ++ [body] ∧
    body.kind = .block
  decorated : n.kind = .decoratedDefinition → ∃ front d, n.children = front ++ [d] ∧
    d.kind.scope?.isSome = true ∧
    (∀ x ∈ front, x.Shown [.decorator]) ∧ ∃ c ∈ front.head?, c.kind = .decorator

def Kind.isClosed (k : Kind) : Bool := k.scope?.isSome || k = .decoratedDefinition

namespace Grammar

def isClosed : R → Bool
  | .node .functionDefinition r | .node .classDefinition r =>
    r.closes (fun _ => true) [.block] fun n => n = .suite
  | .node .decoratedDefinition r =>
    r.opens .decorator && r.closes (Rule.shows [.decorator] fun _ => false)
      [.functionDefinition, .classDefinition] fun n => n = .functionDefinition ||
        n = .classDefinition
  | .leaf _ k => !k.isClosed
  | .grow _ tails | .extend _ tails => tails.all fun t => !t.1.isClosed
  | _ => true

theorem each_isClosed (n : Phrase) : (rules n).each isClosed = true := by
  cases n <;> decide

end Grammar

open Grammar

theorem Node.Closed.of_not {n : Node} (h : n.kind.isClosed = false) : n.Closed := by
  rw [Kind.isClosed, Bool.or_eq_false_iff, decide_eq_false_iff_not] at h
  exact ⟨fun hs => absurd (h.1.symm.trans hs) Bool.false_ne_true, fun hk => absurd hk h.2⟩

theorem makes_closed : Makes rules isClosed (fun _ => True) Node.Closed where
  trivia t := .of_not (by obtain ⟨kind, start, stop⟩ := t; cases kind <;> rfl)
  leaf {r t k} hr _ hk _ := by
    cases r with
    | mark | keyword | word =>
      cases List.mem_singleton.1 hk
      exact .of_not rfl
    | leaf =>
      cases List.mem_singleton.1 hk
      exact .of_not (Bool.not_eq_true' _ ▸ hr)
    | _ => cases hk
  node {k r c c' ns} hr _ h := by
    have hscope (hr : r.closes (fun _ => true) [.block] (fun n => n = .suite) = true) :
        ∃ front body, (Node.made k c'.last ns).children = front ++ [body] ∧ body.kind = .block := by
      obtain ⟨front, body, rfl, hbody, -⟩ := h.closes (P := fun _ => True) (fun _ _ => trivial)
        (fun _ _ _ _ => trivial) (fun n hn => by rw [of_decide_eq_true hn]; decide) hr
      have hbody := List.mem_singleton.1 hbody
      exact ⟨_, body, Node.children_made (by rw [Node.isTrivia, hbody]; rfl), hbody⟩
    cases k with
    | functionDefinition | classDefinition => exact ⟨fun _ => hscope hr, fun hk => by cases hk⟩
    | decoratedDefinition =>
      have hr : (r.opens .decorator && r.closes (Rule.shows [.decorator] fun _ => false)
        [.functionDefinition, .classDefinition] fun n => n = .functionDefinition ||
          n = .classDefinition) = true := hr
      rw [Bool.and_eq_true] at hr
      refine ⟨fun hk => (by cases hk), fun _ => ?_⟩
      obtain ⟨c, rest, hd, hc⟩ := h.opens rfl hr.1
      obtain ⟨front, d, rfl, hd', hfront⟩ :=
        h.closes (P := fun n => n.Shown [.decorator]) (fun _ => .inl)
        (fun hshown h => h.shows (fun _ hn => (by cases hn)) hshown) (fun n hn => by
          rw [Bool.or_eq_true, decide_eq_true_eq, decide_eq_true_eq] at hn
          rcases hn with rfl | rfl <;> decide) hr.2
      have hscope : d.kind.scope?.isSome = true ∧ d.isTrivia = false ∧ d.kind ≠ .decorator := by
        simp only [List.mem_cons, List.not_mem_nil, or_false] at hd'
        rw [Node.isTrivia]
        rcases hd' with hd' | hd' <;> rw [hd'] <;> exact ⟨rfl, rfl, by decide⟩
      have hchildren : (Node.made .decoratedDefinition c'.last (front ++ [d])).children =
          front.dropWhile Node.isTrivia ++ [d] :=
        Node.children_made hscope.2.1
      refine ⟨_, d, hchildren, hscope.1, fun x hx => hfront x (List.dropWhile_subset _ hx), c, ?_,
        hc⟩
      have hcut : front.dropWhile Node.isTrivia ++ [d] = c :: rest := hchildren.symm.trans hd
      cases hf : front.dropWhile Node.isTrivia with
      | nil =>
        rw [hf] at hcut
        exact absurd hc ((List.cons.inj hcut).1 ▸ hscope.2.2)
      | cons x xs =>
        rw [hf] at hcut
        exact congrArg some (List.cons.inj hcut).1
    | _ => exact .of_not rfl
  grow hr _ hk _ _ :=
    .of_not (by have := List.all_eq_true.1 hr _ hk; rwa [Bool.not_eq_true'] at this)
  extend hr _ hk _ _ :=
    .of_not (by have := List.all_eq_true.1 hr _ hk; rwa [Bool.not_eq_true'] at this)

theorem closed_of_parse {source : List Char} {root x : Node} (h : Grammar.parse source = .ok root)
    (hx : x ∈ root.all) : x.Closed :=
  forall_of_parse makes_closed each_isClosed (by decide) (fun _ _ => trivial)
    (fun _ _ => .of_not rfl) h hx

end AsyncSpread.Python
