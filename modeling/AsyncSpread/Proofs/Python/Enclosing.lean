import AsyncSpread.Proofs.Python.Names

/-!
Names and the definitions around them.

The name of a definition goes from its module inwards, one component for each definition around it.
No component has a dot in it, so every beginning of the name that is cut at a dot is the name of one
of these definitions, or the module and what is around it (`mem_names_of_below`).
-/

namespace AsyncSpread.Python

variable {source : List Char}

/-- A name goes on behind `outer` with components without dots, and each beginning of it behind
`outer` is a name, too. -/
def Enclosed (outer : List String) (all : List (Node × List String)) (names : List String) : Prop :=
  ∃ inner, names = outer ++ inner ∧ inner ≠ [] ∧ (∀ c ∈ inner, '.' ∉ c.toList) ∧
    ∀ front, front <+: inner → front ≠ [] → ∃ e, (e, outer ++ front) ∈ all

theorem Enclosed.mono {outer names : List String} {all all' : List (Node × List String)}
    (h : Enclosed outer all names) (hsub : all ⊆ all') : Enclosed outer all' names := by
  obtain ⟨inner, hnames, hne, hdots, hfront⟩ := h
  refine ⟨inner, hnames, hne, hdots, fun front hbegins hn => ?_⟩
  obtain ⟨e, he⟩ := hfront front hbegins hn
  exact ⟨e, hsub he⟩

/-- What is enclosed by a definition is enclosed by what encloses that. -/
theorem Enclosed.cons {outer names : List String} {all : List (Node × List String)} {c : String}
    {n : Node} (h : Enclosed (outer ++ [c]) all names) (hc : '.' ∉ c.toList)
    (hn : (n, outer ++ [c]) ∈ all) : Enclosed outer all names := by
  obtain ⟨inner, hnames, -, hdots, hfront⟩ := h
  refine ⟨c :: inner, ?_, List.cons_ne_nil _ _, ?_, fun front hbegins hne => ?_⟩
  · rw [hnames, List.append_assoc, List.singleton_append]
  · intro x hx
    rcases List.mem_cons.1 hx with rfl | hx
    · exact hc
    · exact hdots x hx
  · obtain ⟨x, front, rfl⟩ := List.exists_cons_of_ne_nil hne
    obtain ⟨rfl, hbehind⟩ := List.cons_prefix_cons.1 hbegins
    by_cases hnil : front = []
    · exact ⟨n, by rw [hnil]; exact hn⟩
    · obtain ⟨e, he⟩ := hfront front hbehind hnil
      rw [List.append_assoc] at he
      exact ⟨e, he⟩

mutual

theorem enclosed_of_mem_definitionsOf {outer : List String} {n : Node} {d : Node × List String}
    (hdots : ∀ x ∈ n.all, x.kind = .identifier → '.' ∉ x.text source)
    (h : d ∈ definitionsOf source outer n) : Enclosed outer (definitionsOf source outer n) d.2 := by
  obtain ⟨kind, start, stop, children⟩ := n
  rw [Node.all_eq] at hdots
  have hinner : ∀ x ∈ Node.allOf children, x.kind = .identifier → '.' ∉ x.text source :=
    fun x hx => hdots x (List.mem_cons_of_mem _ hx)
  unfold definitionsOf at h ⊢
  extract_lets at h ⊢
  split at h
  · rename_i name _ hname
    have hdot : '.' ∉ (String.ofList (name.text source)).toList := by
      have hfind : children.find? (fun c => c.kind = .identifier) = some name := hname
      have hmem : name ∈ Node.allOf children :=
        Node.mem_allOf.2 ⟨name, List.mem_of_find?_eq_some hfind, Node.mem_all_self _⟩
      have hkind := List.find?_some hfind
      rw [String.toList_ofList]
      exact hinner name hmem (of_decide_eq_true hkind)
    rcases List.mem_cons.1 h with rfl | h
    · refine ⟨[_], rfl, List.cons_ne_nil _ _, fun c hc => ?_, fun front hbegins hne => ?_⟩
      · rw [List.mem_singleton.1 hc]
        exact hdot
      · obtain ⟨x, front, rfl⟩ := List.exists_cons_of_ne_nil hne
        obtain ⟨rfl, hbehind⟩ := List.cons_prefix_cons.1 hbegins
        rw [List.prefix_nil.1 hbehind]
        exact ⟨_, List.mem_cons_self⟩
    · have hd := (enclosed_of_mem_definitionsOfAll hinner h).mono
        (List.subset_cons_self (.mk kind start stop children,
          outer ++ [String.ofList (name.text source)]) _)
      exact hd.cons hdot List.mem_cons_self
  · exact enclosed_of_mem_definitionsOfAll hinner h

theorem enclosed_of_mem_definitionsOfAll {outer : List String} {ns : List Node}
    {d : Node × List String}
    (hdots : ∀ x ∈ Node.allOf ns, x.kind = .identifier → '.' ∉ x.text source)
    (h : d ∈ definitionsOfAll source outer ns) :
    Enclosed outer (definitionsOfAll source outer ns) d.2 := by
  cases ns with
  | nil => cases h
  | cons n ns =>
    rw [Node.allOf_cons] at hdots
    rcases List.mem_append.1 h with h | h
    · exact (enclosed_of_mem_definitionsOf (fun x hx => hdots x (List.mem_append_left _ hx)) h).mono
        (List.subset_append_left _ _)
    · exact (enclosed_of_mem_definitionsOfAll
        (fun x hx => hdots x (List.mem_append_right _ hx)) h).mono
        (List.subset_append_right _ _)

end

namespace NameIndex

variable {module name outer inner : String} {root d : Node}

theorem mem_names_ofTree (h : root.Lawful source) {names : List String}
    (hd : (d, names) ∈ definitionsOf source (prefixOf module) root) :
    ".".intercalate names ∈ (ofTree source module root).names := by
  rw [NameIndex.names, (scopes_ofTree module h).1, List.map_map]
  exact List.mem_map_of_mem (f := Scope.name ∘ scopeOf) hd

/-- A name goes on behind its module, with components whose beginnings are names as well. -/
theorem exists_components (h : root.Lawful source) (hd : d ∈ root.all) (hs : d.IsScope)
    (hmodule : module ≠ "")
    (hname : (ofTree source module root).nameAt? d.startLine = some name) : ∃ inner,
      name = below module (".".intercalate inner) ∧ inner ≠ [] ∧ (∀ c ∈ inner, '.' ∉ c.toList) ∧
      ∀ front, front <+: inner → front ≠ [] → below module
        (".".intercalate front) ∈ (ofTree source module root).names := by
  have hmodules : prefixOf module = [module] := by
    rw [prefixOf, if_neg (by rwa [String.isEmpty_iff])]
  have hbelow {inner : List String} (hne : inner ≠ []) :
      ".".intercalate (prefixOf module ++ inner) = below module (".".intercalate inner) := by
    rw [hmodules, String.intercalate_append_of_ne_nil (List.cons_ne_nil _ _) hne]
    rfl
  obtain ⟨last, names, hmem, -⟩ :=
    names_of_mem_all (prefixOf module) hd hs (isSome_definedName? h hd hs)
  obtain ⟨inner, hnames, hne, hdots, hfront⟩ :=
    enclosed_of_mem_definitionsOf (fun x hx hk => h.not_dot hx hk) hmem
  have hnames : prefixOf module ++ last :: names = prefixOf module ++ inner := hnames
  rw [nameAt?_of_mem h hmem, Option.some.injEq] at hname
  refine ⟨inner, ?_, hne, hdots, fun front hp hn => ?_⟩
  · rw [← hname, hnames, hbelow hne]
  · obtain ⟨e, he⟩ := hfront front hp hn
    rw [← hbelow hn]
    exact mem_names_ofTree h he

theorem exists_below (h : root.Lawful source) (hd : d ∈ root.all) (hs : d.IsScope)
    (hmodule : module ≠ "")
    (hname : (ofTree source module root).nameAt? d.startLine = some name) :
      ∃ inner, name = below module inner := by
  obtain ⟨inner, hbelow, -⟩ := exists_components h hd hs hmodule hname
  exact ⟨_, hbelow⟩

/-- Where a name is cut at a dot behind its module, the beginning is the name of a definition of the
text. -/
theorem mem_names_of_below (h : root.Lawful source) (hd : d ∈ root.all) (hs : d.IsScope)
    (hmodule : module ≠ "")
    (hname : (ofTree source module root).nameAt? d.startLine = some name)
    (hcut : name = below outer inner) (hlt : module.toList.length < outer.toList.length) :
    outer ∈ (ofTree source module root).names := by
  obtain ⟨comps, hbelow, hne, hdots, hfront⟩ := exists_components h hd hs hmodule hname
  rw [hcut] at hbelow
  obtain ⟨middle, houter, hrest⟩ := exists_below_of_lt hbelow hlt
  have hcomps := dotted_intercalate hdots hne
  rw [hrest, dotted_below] at hcomps
  have hmem := hfront (dotted middle) ⟨dotted inner, hcomps⟩ (dotted_ne_nil middle)
  rw [intercalate_dotted, ← houter] at hmem
  exact hmem

end NameIndex

end AsyncSpread.Python
