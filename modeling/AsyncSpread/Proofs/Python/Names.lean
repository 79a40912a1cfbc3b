import AsyncSpread.Proofs.Python.Lawful

/-!
The names that the index of a text gives.

The index knows a scope by its first line.  No two definitions begin in one line, so the line where
a definition begins leads back to its own name (`NameIndex.nameAt?_of_mem`), and a definition inside
another one has a longer name.
-/

namespace AsyncSpread.Python

variable {source : List Char}

mutual

def definitionsOf (source : List Char) (outer : List String) : Node → List (Node × List String)
  | .mk kind start stop children =>
    let n : Node := .mk kind start stop children
    match kind.scope?, n.definedName? with
    | some _, some name =>
      let names := outer ++ [String.ofList (name.text source)]
      (n, names) :: definitionsOfAll source names children
    | _, _ => definitionsOfAll source outer children

def definitionsOfAll (source : List Char) (outer : List String) :
    List Node → List (Node × List String)
  | [] => []
  | n :: ns => definitionsOf source outer n ++ definitionsOfAll source outer ns

end

def scopeOf (d : Node × List String) : Scope :=
  ⟨".".intercalate d.2, d.1.kind.scope?.getD .classBody, d.1.startLine, d.1.endLine⟩

mutual

theorem scopesOf_eq (outer : List String) (n : Node) :
    scopesOf source outer n = (definitionsOf source outer n).map scopeOf := by
  obtain ⟨kind, start, stop, children⟩ := n
  unfold scopesOf definitionsOf
  cases hk : kind.scope? with
  | none => exact scopesOfAll_eq outer children
  | some k =>
    simp only
    cases (Node.mk kind start stop children).definedName? with
    | none => exact scopesOfAll_eq outer children
    | some name =>
      have hs : scopeOf (.mk kind start stop children,
          outer ++ [String.ofList (name.text source)]) =
          ⟨".".intercalate (outer ++ [String.ofList (name.text source)]), k,
            (Node.mk kind start stop children).startLine,
              (Node.mk kind start stop children).endLine⟩ := by
        simp only [scopeOf, Node.kind_mk, hk, Option.getD_some]
      simp only [List.map_cons, hs, scopesOfAll_eq]

theorem scopesOfAll_eq (outer : List String) (ns : List Node) :
    scopesOfAll source outer ns = (definitionsOfAll source outer ns).map scopeOf := by
  cases ns with
  | nil => rfl
  | cons n ns =>
    rw [scopesOfAll, definitionsOfAll, List.map_append, scopesOf_eq outer n,
      scopesOfAll_eq outer ns]

end

mutual

/-- The definitions come in the order in which they begin. -/
theorem sublist_definitionsOf (outer : List String) (n : Node) :
    ((definitionsOf source outer n).map Prod.fst).Sublist n.all := by
  obtain ⟨kind, start, stop, children⟩ := n
  unfold definitionsOf
  extract_lets n
  rw [Node.all_eq]
  split
  · exact (sublist_definitionsOfAll _ children).cons_cons _
  · exact .cons _ (sublist_definitionsOfAll outer children)

theorem sublist_definitionsOfAll (outer : List String) (ns : List Node) :
    ((definitionsOfAll source outer ns).map Prod.fst).Sublist (Node.allOf ns) := by
  cases ns with
  | nil => exact .slnil
  | cons n ns =>
    rw [definitionsOfAll, List.map_append]
    exact (sublist_definitionsOf outer n).append (sublist_definitionsOfAll outer ns)

end

mutual

theorem isScope_of_mem_definitionsOf {outer : List String} {n : Node} {d : Node × List String}
    (h : d ∈ definitionsOf source outer n) : d.1.IsScope := by
  obtain ⟨kind, start, stop, children⟩ := n
  unfold definitionsOf at h
  extract_lets n at h
  split at h
  · rename_i k name hk hn
    rcases List.mem_cons.1 h with rfl | h
    · exact (congrArg Option.isSome hk).trans rfl
    · exact isScope_of_mem_definitionsOfAll h
  · exact isScope_of_mem_definitionsOfAll h

theorem isScope_of_mem_definitionsOfAll {outer : List String} {ns : List Node}
    {d : Node × List String} (h : d ∈ definitionsOfAll source outer ns) : d.1.IsScope := by
  cases ns with
  | nil => cases h
  | cons n ns =>
    rcases List.mem_append.1 h with h | h
    · exact isScope_of_mem_definitionsOf h
    · exact isScope_of_mem_definitionsOfAll h

end

/-- A definition and its name among those of a node: the name goes on behind that of what is around
it, and the definitions inside it are named behind it. -/
def Names (source : List Char) (outer : List String) (all : List (Node × List String))
    (x : Node) : Prop :=
  ∃ last names, (x, outer ++ (last :: names)) ∈ all ∧
    definitionsOfAll source (outer ++ (last :: names)) x.children ⊆ all

mutual

theorem names_of_mem_all (outer : List String) {n x : Node} (hx : x ∈ n.all) (hs : x.IsScope)
    (hn : x.definedName?.isSome = true) : Names source outer (definitionsOf source outer n) x := by
  obtain ⟨kind, start, stop, children⟩ := n
  unfold definitionsOf
  extract_lets n
  rw [Node.all_eq] at hx
  split
  · rename_i k name hk hname
    rcases List.mem_cons.1 hx with rfl | hx
    · exact ⟨_, [], List.mem_cons_self, fun d hd => List.mem_cons_of_mem _ hd⟩
    · obtain ⟨last, names, hm, hsub⟩ :=
        names_of_mem_allOf (outer ++ [String.ofList (name.text source)]) hx hs hn
      rw [List.append_assoc] at hm hsub
      exact ⟨_, _, List.mem_cons_of_mem _ hm, fun d hd => List.mem_cons_of_mem _ (hsub hd)⟩
  · rename_i hno
    rcases List.mem_cons.1 hx with rfl | hx
    · obtain ⟨k, hk⟩ := Option.isSome_iff_exists.1 hs
      obtain ⟨name, hname⟩ := Option.isSome_iff_exists.1 hn
      exact absurd hname (hno k name hk)
    · exact names_of_mem_allOf outer hx hs hn

theorem names_of_mem_allOf (outer : List String) {ns : List Node} {x : Node}
    (hx : x ∈ Node.allOf ns) (hs : x.IsScope) (hn : x.definedName?.isSome = true) :
    Names source outer (definitionsOfAll source outer ns) x := by
  cases ns with
  | nil => cases hx
  | cons n ns =>
    rcases List.mem_append.1 hx with hx | hx
    · obtain ⟨last, names, hm, hsub⟩ := names_of_mem_all outer hx hs hn
      exact ⟨last, names, List.mem_append_left _ hm, fun d hd => List.mem_append_left _ (hsub hd)⟩
    · obtain ⟨last, names, hm, hsub⟩ := names_of_mem_allOf outer hx hs hn
      exact ⟨last, names, List.mem_append_right _ hm, fun d hd => List.mem_append_right _ (hsub hd)⟩

end

/-! ## The index -/

theorem sortStable_eq_self {α : Type} {precedes : α → α → Bool} {l : List α}
    (h : l.Pairwise fun a b => precedes b a = false) : sortStable precedes l = l := by
  induction h with
  | nil => rfl
  | @cons a l ha _ ih =>
    have hc : sortStable precedes (a :: l) = insertSorted precedes a (sortStable precedes l) := rfl
    rw [hc, ih]
    cases l with
    | nil => rfl
    | cons b l => rw [insertSorted, ha b List.mem_cons_self, if_neg Bool.false_ne_true]

theorem Node.startLine_le_endLine {n : Node} (h : n.Nested source) : n.startLine ≤ n.endLine := by
  have hr := h.span.row_le
  unfold startLine endLine
  split
  · rename_i hc
    exact hc.2
  · omega

namespace NameIndex

def prefixOf (module : String) : List String := if module.isEmpty then [] else [module]

variable {module : String} {root : Node}

/-- The index lists the definitions in the order of the text, each in a line of its own. -/
theorem scopes_ofTree (module : String) (h : root.Lawful source) :
    (ofTree source module root).scopes = (definitionsOf source (prefixOf module) root).map scopeOf ∧
      ((definitionsOf source (prefixOf module) root).map scopeOf).Pairwise fun s t =>
        s.startLine < t.startLine := by
  have hp : ((definitionsOf source (prefixOf module) root).map scopeOf).Pairwise
      fun s t => s.startLine < t.startLine := by
    have hrows := h.pairwise_scopes.sublist (@sublist_definitionsOf source (prefixOf module) root)
    rw [List.pairwise_map] at hrows ⊢
    refine hrows.imp_of_mem fun hd he hlt => ?_
    exact Nat.succ_lt_succ (hlt (isScope_of_mem_definitionsOf hd) (isScope_of_mem_definitionsOf he))
  refine ⟨?_, hp⟩
  have hs : (ofTree source module root).scopes =
      sortStable (fun s t => s.startLine < t.startLine) (scopesOf source (prefixOf module) root) :=
        rfl
  rw [hs, scopesOf_eq]
  refine sortStable_eq_self (hp.imp fun hlt => ?_)
  exact decide_eq_false (Nat.not_lt.2 (Nat.le_of_lt hlt))

/-- A line where a scope begins leads to that scope, if the scopes are listed by their first
lines. -/
theorem nameAt?_eq {ix : NameIndex} {s : Scope}
    (hp : ix.scopes.Pairwise fun s t => s.startLine < t.startLine) (hs : s ∈ ix.scopes)
    (hl : s.startLine ≤ s.endLine) : ix.nameAt? s.startLine = some s.name := by
  obtain ⟨before, after, he⟩ := List.append_of_mem hs
  rw [he] at hp
  obtain ⟨-, hp, hbefore⟩ := List.pairwise_append.1 hp
  have hafter := (List.pairwise_cons.1 hp).1
  have htake : (ix.scopes.takeWhile fun t => t.startLine ≤ s.startLine) = before ++ [s] := by
    have h1 : ∀ t ∈ before ++ [s], decide (t.startLine ≤ s.startLine) = true := by
      intro t ht
      rcases List.mem_append.1 ht with ht | ht
      · exact decide_eq_true (Nat.le_of_lt (hbefore t ht s List.mem_cons_self))
      · rw [List.mem_singleton] at ht
        exact decide_eq_true (ht ▸ Nat.le_refl _)
    rw [he, List.append_cons, List.takeWhile_append_of_pos h1]
    cases after with
    | nil => simp
    | cons t after =>
      have ht : ¬ t.startLine ≤ s.startLine := Nat.not_le.2 (hafter t List.mem_cons_self)
      rw [List.takeWhile_cons, if_neg (by simpa using ht), List.append_nil]
  have hc : s.covers s.startLine = true := by
    unfold Scope.covers
    rw [decide_eq_true (Nat.le_refl _), decide_eq_true hl]
    rfl
  rw [nameAt?, htake, List.filter_append, List.filter_cons, if_pos hc, List.filter_nil,
    List.getLast?_append]
  rfl

theorem nameAt?_of_mem (h : root.Lawful source) {d : Node} {names : List String}
    (hd : (d, names) ∈ definitionsOf source (prefixOf module) root) :
    (ofTree source module root).nameAt? d.startLine = some (".".intercalate names) := by
  obtain ⟨hs, hp⟩ := scopes_ofTree module h
  rw [← hs] at hp
  have hmem : scopeOf (d, names) ∈ (ofTree source module root).scopes := hs ▸ List.mem_map_of_mem hd
  have hroot := (sublist_definitionsOf _ root).subset (List.mem_map_of_mem hd)
  exact nameAt?_eq hp hmem (Node.startLine_le_endLine (h.nested.of_mem_all hroot).1)

theorem isSome_definedName? (h : root.Lawful source) {d : Node} (hd : d ∈ root.all)
    (hs : d.IsScope) : d.definedName?.isSome = true := by
  obtain ⟨m, hm, hk⟩ := h.named d hd hs
  exact List.find?_isSome.2 ⟨m, hm, decide_eq_true hk⟩

/-- A definition of the text has a name, and those inside it are named behind it. -/
theorem exists_nameAt? (module : String) (h : root.Lawful source) {d : Node} (hd : d ∈ root.all)
    (hs : d.IsScope) :
    ∃ name, (ofTree source module root).nameAt? d.startLine = some name ∧ ∀ e ∈ d.inner, e.IsScope →
      ∃ rest, (ofTree source module root).nameAt? e.startLine = some (below name rest) := by
  obtain ⟨last, names, hm, hsub⟩ :=
    names_of_mem_all (prefixOf module) hd hs (isSome_definedName? h hd hs)
  refine ⟨_, nameAt?_of_mem h hm, fun e he hse => ?_⟩
  have heroot : e ∈ root.all := Node.mem_all_trans hd he
  obtain ⟨last', names', hm', -⟩ := names_of_mem_allOf (prefixOf module ++ (last :: names)) he hse
    (isSome_definedName? h heroot hse)
  refine ⟨".".intercalate (last' :: names'), ?_⟩
  rw [nameAt?_of_mem h (hsub hm'), String.intercalate_append_of_ne_nil (by simp) (by simp)]
  rfl

theorem nameAt?_ne_of_mem_inner (h : root.Lawful source) {d e : Node} (hd : d ∈ root.all)
    (hs : d.IsScope) (he : e ∈ d.inner) (hse : e.IsScope) :
    (ofTree source module root).nameAt? e.startLine ≠
      (ofTree source module root).nameAt? d.startLine := by
  obtain ⟨name, hname, hinner⟩ := exists_nameAt? module h hd hs
  obtain ⟨rest, hrest⟩ := hinner e he hse
  rw [hname, hrest]
  intro heq
  have hlen := congrArg String.length (Option.some.inj heq)
  rw [below, String.length_append, String.length_append] at hlen
  have hdot : (".").length = 1 := rfl
  omega

end NameIndex

end AsyncSpread.Python
