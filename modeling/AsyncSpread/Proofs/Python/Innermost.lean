import AsyncSpread.Proofs.Fallible
import AsyncSpread.Proofs.Python.Names
import AsyncSpread.Proofs.Python.Statements
import AsyncSpread.Proofs.Python.Parsed

/-!
The innermost definition around a line.

Definitions lie inside each other or in rows apart (`pairwise_leads_of_parse`), so of those that
cover a line each one is inside all that begin before it.  The index answers with the name of the
last one, which is the innermost (`NameIndex.exists_innermost`).
-/

namespace AsyncSpread.Python

variable {source : List Char} {root d e w : Node} {line : Nat}

/-! ## Lines of a definition -/

/-- The number of the line in which the last character before an offset stands. -/
def lineBefore (source : List Char) (offset : Nat) : Nat :=
  (Text.takeBytes offset source).dropLast.count '\n' + 1

/-- The last line of a node is the one in which its last character stands. -/
theorem Node.endLine_eq {n : Node} (h : n.Nested source) (hfilled : n.start.byte < n.stop.byte) :
    n.endLine = lineBefore source n.stop.byte := by
  obtain ⟨before, inside, after, hsource, hstart, hstop⟩ := h.span
  obtain rfl | ⟨most, c, rfl⟩ := List.eq_nil_or_concat inside
  · rw [hstart, hstop, List.append_nil] at hfilled
    exact absurd hfilled (Nat.lt_irrefl _)
  · rw [List.concat_eq_append, ← List.append_assoc] at hsource hstop
    have hstart : n.start.row = before.count '\n' := by
      rw [hstart, Pos.row_past]
      exact Nat.zero_add _
    have hbyte : n.stop.byte = Text.byteLength (before ++ most ++ [c]) := by
      rw [hstop, Pos.byte_past_start]
    have hcount : (before ++ most).count '\n' = before.count '\n' + most.count '\n' :=
      List.count_append
    have hrow : (Pos.start.past (before ++ most)).row = (before ++ most).count '\n' := by
      rw [Pos.row_past]
      exact Nat.zero_add _
    have hstop : n.stop = (Pos.start.past (before ++ most)).next c := by
      rw [hstop, Pos.past_append, Pos.past_cons, Pos.past_nil]
    rw [lineBefore, hbyte, hsource, Text.takeBytes_byteLength_append, List.dropLast_concat]
    unfold Node.endLine
    rw [hstart, hstop]
    unfold Pos.next
    by_cases hc : c = '\n'
    · -- The node takes the end of its line along.
      rw [if_pos hc, if_pos ⟨rfl, by show _ < _ + 1; omega⟩]
      exact congrArg (· + 1) hrow
    · have hsize := Char.utf8Size_pos c
      rw [if_neg hc, if_neg (fun hcol => by have hcol : _ + c.utf8Size = 0 := hcol.1; omega)]
      exact congrArg (· + 1) hrow

/-- A definition covers the lines from that of its first keyword to that in which the last character
of its body stands. -/
def Node.Covers (source : List Char) (d : Node) (line : Nat) : Prop :=
  ∃ keyword ∈ d.children.head?, ∃ body ∈ d.children.getLast?,
    keyword.kind ∈ [.keyword .asyncWord, .keyword .defWord, .keyword .classWord] ∧
      body.kind = .block ∧ keyword.startLine ≤ line ∧ line ≤ lineBefore source body.stop.byte

/-- A definition begins with its keyword and ends with its body. -/
theorem exists_ends (h : root.Lawful source) (hd : d ∈ root.all) (hs : d.IsScope) :
    ∃ keyword ∈ d.children.head?, ∃ body ∈ d.children.getLast?,
      keyword.kind ∈ [.keyword .asyncWord, .keyword .defWord, .keyword .classWord] ∧
      body.kind = .block ∧
        keyword.start = d.start ∧ body.stop = d.stop ∧ d.start.byte < d.stop.byte := by
  have hn := (h.nested.of_mem_all hd).1
  obtain ⟨leaf, rest, hchildren, hopening, hstart⟩ := h.opening d hd hs.leads
  have hk : leaf.kind ∈ [.keyword .asyncWord, .keyword .defWord, .keyword .classWord] := by
    rcases Node.isScope_iff.1 hs with hk | hk
    · rw [hk] at hopening
      exact List.mem_of_mem_take (i := 2) hopening
    · rw [hk] at hopening
      exact List.mem_of_mem_drop (i := 2) hopening
  obtain ⟨front, body, hends, hbody, hstop⟩ := h.body d hd hs
  have hhead : leaf ∈ d.children.head? := by rw [hchildren]; rfl
  have hlast : body ∈ d.children.getLast? := by rw [hends, List.getLast?_concat]; rfl
  exact ⟨leaf, hhead, body, hlast, hk, hbody, hstart, hstop,
    (exists_first_of_leads h.toShaped hd hs.leads).1⟩

theorem Node.covers_iff (h : root.Lawful source) (hd : d ∈ root.all) (hs : d.IsScope) :
    d.Covers source line ↔ d.startLine ≤ line ∧ line ≤ d.endLine := by
  have hn := (h.nested.of_mem_all hd).1
  obtain ⟨keyword, hkeyword, body, hbody, hkind, hblock, hstart, hstop, hfilled⟩ :=
    exists_ends h hd hs
  have hfirst : keyword.startLine = d.startLine := by rw [Node.startLine, hstart]; rfl
  have hlast : lineBefore source body.stop.byte = d.endLine := by
    rw [hstop, Node.endLine_eq hn hfilled]
  constructor
  · rintro ⟨keyword', hkeyword', body', hbody', -, -, hline⟩
    rw [Option.mem_unique hkeyword' hkeyword, Option.mem_unique hbody' hbody, hfirst,
      hlast] at hline
    exact hline
  · intro hline
    rw [← hfirst, ← hlast] at hline
    exact ⟨keyword, hkeyword, body, hbody, hkind, hblock, hline⟩

theorem Node.endLine_le (d : Node) : d.endLine ≤ d.stop.row + 1 := by
  unfold endLine
  split <;> omega

theorem Node.stop_row_le_endLine (d : Node) : d.stop.row ≤ d.endLine := by
  unfold endLine
  split <;> omega

/-- Of two places of a text the one with the smaller offset is in no later row. -/
theorem Pos.In.row_le {p q : Pos} (hp : p.In source) (hq : q.In source) (hle : p.byte ≤ q.byte) :
    p.row ≤ q.row := by
  obtain ⟨before, after, hsource, rfl⟩ := hp
  obtain ⟨before', after', hsource', rfl⟩ := hq
  rw [Pos.byte_past, Pos.byte_past] at hle
  obtain ⟨between, rfl⟩ := Text.prefix_of_byteLength_le (hsource.symm.trans hsource') (by omega)
  rw [Pos.past_append]
  exact Pos.row_le_past _ _

/-- Of two definitions that cover a line, the one that comes second is inside the other. -/
theorem mem_inner_of_covers (h : root.Lawful source) (hd : d ∈ root.all) (hs : d.IsScope)
    (he : e ∈ root.all) (hse : e.IsScope) (hdline : d.Covers source line)
    (heline : e.Covers source line) (hrows : d ∈ e.inner ∨ e.stop.row < d.start.row) :
    d ∈ e.inner := by
  refine hrows.resolve_right fun hlt => ?_
  have hd := ((Node.covers_iff h hd hs).1 hdline).1
  have he := ((Node.covers_iff h he hse).1 heline).2
  have hend := e.endLine_le
  have hstart : d.startLine = d.start.row + 1 := rfl
  omega

/-! ## Names -/

/-- The classes and functions around a node among some nodes, itself included, from the outermost
inwards. -/
structure Chain (all : List Node) (d : Node) (chain : List Node) : Prop where
  mem_iff : ∀ e, e ∈ chain ↔ e ∈ all ∧ e.IsScope ∧ d ∈ e.all
  inwards : chain.Pairwise fun e e' => e' ∈ e.inner

def definedName (source : List Char) (d : Node) : String :=
  d.definedName?.elim "" fun m => String.ofList (m.text source)

/-- Of the classes and functions among some nodes each begins in a later row than those before
it. -/
def ByRows (all : List Node) : Prop :=
  all.Pairwise fun x y => x.IsScope → y.IsScope → x.start.row < y.start.row

theorem Chain.mono {all all' others chain : List Node} (h : Chain all d chain)
    (hmem : ∀ e, e ∈ all' ↔ e ∈ all ∨ e ∈ others) (hno : ∀ e ∈ others, e.IsScope → d ∉ e.all) :
    Chain all' d chain := by
  refine ⟨fun e => (h.mem_iff e).trans ?_, h.inwards⟩
  rw [hmem]
  constructor
  · rintro ⟨he, hand⟩
    exact ⟨.inl he, hand⟩
  · rintro ⟨he, hs, hd⟩
    exact ⟨he.resolve_right fun he => hno e he hs hd, hs, hd⟩

theorem Node.mem_allOf_of_mem_all {ns : List Node} {x y : Node} (hx : x ∈ allOf ns)
    (hy : y ∈ x.all) : y ∈ allOf ns := by
  rw [all_eq] at hy
  rcases List.mem_cons.1 hy with rfl | hy
  · exact hx
  · exact mem_allOf_trans hx hy

theorem Chain.self (hrows : ByRows d.all) (hs : d.IsScope) : Chain d.all d [d] := by
  rw [Node.all_eq] at hrows ⊢
  refine ⟨fun e => ?_, List.pairwise_singleton _ _⟩
  rw [List.mem_singleton]
  constructor
  · rintro rfl
    exact ⟨List.mem_cons_self, hs, Node.mem_all_self _⟩
  · rintro ⟨he, -, hd⟩
    refine (List.mem_cons.1 he).resolve_right fun he => ?_
    exact Nat.lt_irrefl _ ((List.pairwise_cons.1 hrows).1 d (Node.mem_allOf_of_mem_all he hd) hs hs)

theorem Chain.enter {chain : List Node} (h : Chain e.inner d chain) (hs : e.IsScope)
    (hd : d ∈ e.inner) : Chain e.all d (e :: chain) := by
  rw [Node.all_eq]
  refine ⟨fun x => ?_, .cons (fun x hx => ((h.mem_iff x).1 hx).1) h.inwards⟩
  rw [List.mem_cons, List.mem_cons, h.mem_iff]
  constructor
  · rintro (rfl | ⟨hx, hand⟩)
    · exact ⟨.inl rfl, hs, Node.mem_all_of_mem_inner hd⟩
    · exact ⟨.inr hx, hand⟩
  · rintro ⟨hx, hand⟩
    exact hx.imp_right fun hx => ⟨hx, hand⟩

/-- What is neither a class nor a function adds nothing to what is around something. -/
theorem Chain.pass {chain : List Node} (h : Chain e.inner d chain) (hs : ¬ e.IsScope) :
    Chain e.all d chain := by
  rw [Node.all_eq]
  have hmem (x : Node) : x ∈ e :: e.inner ↔ x ∈ e.inner ∨ x ∈ [e] := by
    rw [List.mem_cons, List.mem_singleton]
    exact or_comm
  exact h.mono hmem fun x hx hsx => absurd (List.mem_singleton.1 hx ▸ hsx) hs

mutual

theorem exists_chain {outer names : List String} {n : Node} (hrows : ByRows n.all)
    (hnamed : ∀ x ∈ n.all, x.IsScope → x.definedName?.isSome = true)
    (h : (d, names) ∈ definitionsOf source outer n) :
    ∃ chain, Chain n.all d chain ∧ names = outer ++ chain.map (definedName source) := by
  obtain ⟨kind, start, stop, children⟩ := n
  have hinner := hrows
  rw [Node.all_eq] at hinner hnamed
  have hinner : ByRows (Node.allOf children) := (List.pairwise_cons.1 hinner).2
  have hnamed' : ∀ x ∈ Node.allOf children, x.IsScope → x.definedName?.isSome = true :=
    fun x hx => hnamed x (List.mem_cons_of_mem _ hx)
  unfold definitionsOf at h
  extract_lets n at h
  split at h
  · rename_i k name hk hname
    have hn : n.IsScope := (congrArg Option.isSome hk).trans rfl
    have hthis : String.ofList (name.text source) = definedName source n := by
      rw [definedName, hname]; rfl
    rcases List.mem_cons.1 h with heq | h
    · obtain ⟨rfl, rfl⟩ := Prod.mk.inj heq
      exact ⟨[n], .self hrows hn, by rw [hthis]; rfl⟩
    · obtain ⟨chain, hchain, hnames⟩ := exists_chainAll hinner hnamed' h
      have hchain : Chain n.inner d chain := hchain
      have hd : d ∈ n.inner := (sublist_definitionsOfAll _ children).subset (List.mem_map_of_mem h)
      refine ⟨n :: chain, hchain.enter hn hd, ?_⟩
      rw [hnames, hthis, List.append_assoc]
      rfl
  · rename_i hno
    obtain ⟨chain, hchain, hnames⟩ := exists_chainAll hinner hnamed' h
    have hchain : Chain n.inner d chain := hchain
    refine ⟨chain, hchain.pass fun hs => ?_, hnames⟩
    obtain ⟨k, hk⟩ := Option.isSome_iff_exists.1 hs
    obtain ⟨name, hname⟩ := Option.isSome_iff_exists.1 (hnamed n List.mem_cons_self hs)
    exact hno k name hk hname

theorem exists_chainAll {outer names : List String} {ns : List Node}
    (hrows : ByRows (Node.allOf ns))
    (hnamed : ∀ x ∈ Node.allOf ns, x.IsScope → x.definedName?.isSome = true)
    (h : (d, names) ∈ definitionsOfAll source outer ns) :
    ∃ chain, Chain (Node.allOf ns) d chain ∧ names = outer ++ chain.map (definedName source) := by
  cases ns with
  | nil => cases h
  | cons n ns =>
    have hs := isScope_of_mem_definitionsOfAll h
    obtain ⟨hrows, hrows', hcross⟩ := List.pairwise_append.1 hrows
    -- A definition stands in one of the nodes only.
    have honce (hd : d ∈ n.all) (hd' : d ∈ Node.allOf ns) : False :=
      Nat.lt_irrefl _ (hcross d hd d hd' hs hs)
    rcases List.mem_append.1 h with h | h
    · obtain ⟨chain, hchain, hnames⟩ :=
        exists_chain hrows (fun x hx => hnamed x (List.mem_append_left _ hx)) h
      have hd : d ∈ n.all := (sublist_definitionsOf _ n).subset (List.mem_map_of_mem h)
      exact ⟨chain, hchain.mono (fun e => List.mem_append) fun e he _ hde =>
        honce hd (Node.mem_allOf_of_mem_all he hde), hnames⟩
    · obtain ⟨chain, hchain, hnames⟩ :=
        exists_chainAll hrows' (fun x hx => hnamed x (List.mem_append_right _ hx)) h
      have hd : d ∈ Node.allOf ns := (sublist_definitionsOfAll _ ns).subset (List.mem_map_of_mem h)
      exact ⟨chain, hchain.mono (fun e => List.mem_append.trans or_comm) fun e he _ hde =>
        honce (Node.mem_all_of_mem_all he hde) hd, hnames⟩

end

/-! ## The index -/

/-- The innermost definition that covers a line: every other one that covers it is around it. -/
structure Innermost (source : List Char) (root : Node) (line : Nat) (d : Node) : Prop where
  mem : d ∈ root.all
  isScope : d.IsScope
  covers : d.Covers source line
  around : ∀ e ∈ root.all, e.IsScope → e.Covers source line → d ∈ e.all

theorem Innermost.eq (h : root.Lawful source) (hd : Innermost source root line d)
    (he : Innermost source root line e) : d = e := by
  have rows {x y : Node} (hx : x ∈ root.all) (hxy : y ∈ x.all) : x.start.row ≤ y.start.row :=
    ((h.nested.of_mem_all hx).1.of_mem_all hxy).2.1.row_le
  have hde := rows he.mem (hd.around e he.mem he.isScope he.covers)
  have hed := rows hd.mem (he.around d hd.mem hd.isScope hd.covers)
  rcases pairwise_cases h.pairwise_scopes hd.mem he.mem with heq | hlt | hlt
  · exact heq
  · have := hlt hd.isScope he.isScope
    omega
  · have := hlt he.isScope hd.isScope
    omega

namespace NameIndex

def qualified (source : List Char) (module : String) (chain : List Node) : String :=
  ".".intercalate (prefixOf module ++ chain.map (definedName source))

variable {module : String}

theorem exists_qualified (h : root.Lawful source) {names : List String}
    (hd : (d, names) ∈ definitionsOf source (prefixOf module) root) :
    ∃ chain, Chain root.all d chain ∧ ".".intercalate names = qualified source module chain := by
  obtain ⟨chain, hchain, rfl⟩ :=
    exists_chain h.pairwise_scopes (fun x hx hs => isSome_definedName? h hx hs) hd
  exact ⟨chain, hchain, rfl⟩

theorem exists_mem_definitionsOf (h : root.Lawful source) (module : String) (hd : d ∈ root.all)
    (hs : d.IsScope) : ∃ names, (d, names) ∈ definitionsOf source (prefixOf module) root := by
  obtain ⟨last, names, hmem, -⟩ :=
    names_of_mem_all (prefixOf module) hd hs (isSome_definedName? h hd hs)
  exact ⟨_, hmem⟩

theorem filter_takeWhile {scopes : List Scope}
    (hp : scopes.Pairwise fun s t => s.startLine < t.startLine) (line : Nat) :
    (scopes.takeWhile fun s => s.startLine ≤ line).filter (·.covers line) = scopes.filter
      (·.covers line) := by
  induction hp with
  | nil => rfl
  | @cons s scopes hs _ ih =>
    by_cases hline : s.startLine ≤ line
    · rw [List.takeWhile_cons, if_pos (decide_eq_true hline), List.filter_cons,
        List.filter_cons, ih]
    · rw [List.takeWhile_cons, if_neg (by simpa using hline)]
      refine (List.filter_eq_nil_iff.2 fun t ht => ?_).symm
      have hle : line < t.startLine := by
        rcases List.mem_cons.1 ht with rfl | ht
        · omega
        · have := hs t ht
          omega
      rw [Scope.covers, decide_eq_false (Nat.not_le.2 hle)]
      exact Bool.false_ne_true

theorem covers_scopeOf_iff (h : root.Lawful source) (hd : d ∈ root.all) (hs : d.IsScope)
    (names : List String) : (scopeOf (d, names)).covers line = true ↔ d.Covers source line := by
  rw [Node.covers_iff h hd hs, Scope.covers, Bool.and_eq_true, decide_eq_true_eq, decide_eq_true_eq]
  rfl

/-- The definitions that cover a line, in the order of the text, each with the components of its
name. -/
def covering (source : List Char) (module : String) (root : Node) (line : Nat) :
    List (Node × List String) :=
  (definitionsOf source (prefixOf module) root).filter fun d => (scopeOf d).covers line

theorem mem_covering (h : root.Lawful source) {names : List String} :
    (d, names) ∈ covering source module root line ↔
    (d, names) ∈ definitionsOf source (prefixOf module) root ∧ d.Covers source line := by
  rw [covering, List.mem_filter]
  refine and_congr_right fun hmem => ?_
  exact covers_scopeOf_iff h ((sublist_definitionsOf _ root).subset (List.mem_map_of_mem hmem))
    (isScope_of_mem_definitionsOf hmem) names

/-- The answer of the index is the name of the last definition that covers the line. -/
theorem nameAt?_eq_getLast? (h : root.Lawful source) (module : String) (line : Nat) :
    (ofTree source module root).nameAt? line =
      (covering source module root line).getLast?.map fun d => ".".intercalate d.2 := by
  obtain ⟨hscopes, hp⟩ := scopes_ofTree module h
  rw [nameAt?, filter_takeWhile (hscopes ▸ hp), hscopes, List.filter_map, List.getLast?_map,
    Option.map_map]
  rfl

/-- The definition that covers a line and begins last is the innermost one. -/
theorem innermost_of_getLast? (h : root.Lawful source) {names : List String}
    (hlast : (covering source module root line).getLast? = some (d, names)) :
    Innermost source root line d := by
  have hsub : ((definitionsOf source (prefixOf module) root).map (·.1)).Sublist root.all :=
    sublist_definitionsOf _ root
  obtain ⟨front, hfront⟩ := List.getLast?_eq_some_iff.1 hlast
  obtain ⟨hmem, hcovers⟩ := (mem_covering h).1 (List.mem_of_getLast? hlast)
  have hd := hsub.subset (List.mem_map_of_mem hmem)
  have hs := isScope_of_mem_definitionsOf hmem
  refine ⟨hd, hs, hcovers, fun e he hse hecovers => ?_⟩
  obtain ⟨names', hmem'⟩ := exists_mem_definitionsOf h module he hse
  have hin := (mem_covering h).2 ⟨hmem', hecovers⟩
  rw [hfront] at hin
  rcases List.mem_append.1 hin with hin | hin
  · -- What comes before and covers the line is around it.
    have hpairs := List.pairwise_map.1 (h.rows.sublist hsub)
    have hpairs := hpairs.sublist (List.filter_sublist (p := fun d => (scopeOf d).covers line))
    rw [← covering, hfront] at hpairs
    have hrows := ((List.pairwise_append.1 hpairs).2.2 _ hin _
      (List.mem_singleton_self _) hse.leads hs.leads).2
    exact Node.mem_all_of_mem_inner (mem_inner_of_covers h hd hs he hse hcovers hecovers hrows)
  · obtain rfl : e = d := (Prod.mk.inj (List.mem_singleton.1 hin)).1
    exact Node.mem_all_self e

theorem exists_innermost (h : root.Lawful source) (module : String) (line : Nat) :
    match (ofTree source module root).nameAt? line with
    | some name =>
        ∃ d chain, Innermost source root line d ∧ Chain root.all d chain ∧
          name = qualified source module chain
    | none => ∀ d ∈ root.all, d.IsScope → ¬ d.Covers source line := by
  rw [nameAt?_eq_getLast? h]
  cases hlast : (covering source module root line).getLast? with
  | some found =>
    obtain ⟨d, names⟩ := found
    obtain ⟨chain, hchain, hname⟩ :=
      exists_qualified h ((mem_covering h).1 (List.mem_of_getLast? hlast)).1
    exact ⟨d, chain, innermost_of_getLast? h hlast, hchain, hname⟩
  | none =>
    intro d hd hs hcovers
    obtain ⟨names, hmem⟩ := exists_mem_definitionsOf h module hd hs
    have hin := (mem_covering h).2 ⟨hmem, hcovers⟩
    rw [List.getLast?_eq_none_iff.1 hlast] at hin
    cases hin

/-! ## Decorators -/

/-- In a decorated definition classes and functions stand in the definition only. -/
theorem mem_all_of_decorated (h : root.Lawful source) (hw : w ∈ root.all) {front : List Node}
    (hchildren : w.children = front ++ [d]) (hfront : ∀ x ∈ front, x.Shown [.decorator])
    (he : e ∈ w.inner) (hs : e.IsScope) : e ∈ d.all := by
  have heroot := Node.mem_all_trans hw he
  obtain ⟨keyword, hkeyword, -⟩ := exists_ends h heroot hs
  have hleaf {x : Node} (hx : x.children = []) (hex : e ∈ x.all) : False := by
    rw [Node.all_eq, Node.inner, hx, Node.allOf_nil, List.mem_singleton] at hex
    rw [hex, hx] at hkeyword
    cases hkeyword
  obtain ⟨x, hx, hex⟩ := Node.mem_allOf.1 he
  have hxroot : x ∈ root.all := Node.mem_all_of_child hw hx
  rw [hchildren] at hx
  rcases List.mem_append.1 hx with hx | hx
  · exfalso
    rcases hfront x hx with htrivia | hbare | hk
    · exact hleaf (h.trivia x hxroot htrivia) hex
    · exact hleaf hbare hex
    · -- No definition stands in a decorator.
      have hk := List.mem_singleton.1 hk
      rw [Node.all_eq] at hex
      rcases List.mem_cons.1 hex with rfl | hex
      · rw [Node.IsScope, hk] at hs
        cases hs
      · rw [Node.IsScope, h.plain x hxroot (by rw [hk]; decide) e hex] at hs
        cases hs
  · rwa [← List.mem_singleton.1 hx]

/-- A class or function that stops before a decorated definition stops in a row before that of its
first decorator. -/
theorem row_lt_of_stop_le (h : root.Lawful source) (hw : w ∈ root.all)
    (hk : w.kind = .decoratedDefinition) (he : e ∈ root.all) (hs : e.IsScope)
    (hle : e.stop.byte ≤ w.start.byte) : e.stop.row < w.start.row := by
  obtain ⟨front, d, hchildren, -, -, c, hc, hck, hstart⟩ := h.decorated w hw hk
  have hhead : c ∈ w.children.head? := by
    rw [hchildren, List.head?_append, Option.mem_def.1 hc]
    rfl
  have hn := (h.nested.of_mem_all hw).1
  have hen := (h.nested.of_mem_all he).1
  have hc := Node.mem_all_of_child hw (List.mem_of_mem_head? hhead)
  have hcl : c.Leads := by
    rw [Node.Leads, hck]
    rfl
  rw [← hstart] at hle ⊢
  rcases pairwise_cases h.rows he hc with rfl | hec | hce
  · rw [Node.IsScope, hck] at hs
    cases hs
  · refine (hec hs.leads hcl).2.resolve_left fun hin => ?_
    have hfilled := (exists_first_of_leads h.toShaped hc hcl).1
    have hstop := (hen.of_mem_inner hin).2.2.byte_le
    omega
  · have hlt := (hce hcl hs.leads).1
    have hrows := hen.span.row_le
    have hrow := hen.span.right_in.row_le (h.nested.of_mem_all hc).1.span.left_in hle
    omega

/-- The lines of decorators are covered by the definitions around what they decorate. -/
theorem covers_decorator_iff (h : root.Lawful source) (hw : w ∈ root.all)
    (hk : w.kind = .decoratedDefinition) :
    ∃ d ∈ w.children.getLast?, d.IsScope ∧ ∀ line, w.startLine ≤ line → line < d.startLine →
      ∀ e ∈ root.all, e.IsScope → (e.Covers source line ↔ w ∈ e.inner) := by
  obtain ⟨front, d, hchildren, hs, hfront, -⟩ := h.decorated w hw hk
  have hroot := h.nested
  have hn := (hroot.of_mem_all hw).1
  have hlast : d ∈ w.children.getLast? := by rw [hchildren, List.getLast?_concat]; rfl
  have hd : d ∈ w.inner := Node.mem_allOf.2 ⟨d, List.mem_of_getLast? hlast, Node.mem_all_self d⟩
  have hdn := (hroot.of_mem_all (Node.mem_all_trans hw hd)).1
  refine ⟨d, hlast, hs, fun line hfirst hbefore e he hse => ?_⟩
  have hen := (hroot.of_mem_all he).1
  have hdrows := hdn.span.row_le
  have hstartLine : d.startLine = d.start.row + 1 := rfl
  rw [Node.covers_iff h he hse]
  constructor
  · rintro ⟨hstart, hstop⟩
    have hend := e.endLine_le
    have heLine : e.startLine = e.start.row + 1 := rfl
    have hwLine : w.startLine = w.start.row + 1 := rfl
    rcases pairwise_cases hroot.pairwise_all he hw with rfl | (hew | hle) | (hin | hle)
    · rw [Node.IsScope, hk] at hse
      cases hse
    · exact hew
    · have hlt := row_lt_of_stop_le h hw hk he hse hle
      omega
    · have hed := mem_all_of_decorated h hw hchildren hfront hin hse
      have hrow := (hdn.of_mem_all hed).2.1.row_le
      omega
    · have hdstop := (hn.of_mem_inner hd).2.2.row_le
      have hrow := hn.span.right_in.row_le hen.span.left_in hle
      omega
  · intro hew
    obtain ⟨-, hwstart, -⟩ := hen.of_mem_inner hew
    obtain ⟨-, -, hdstop⟩ := hen.of_mem_inner (Node.mem_allOf_trans hew hd)
    have hstart : e.startLine ≤ w.startLine := Nat.succ_le_succ hwstart.row_le
    have hstop := e.stop_row_le_endLine
    have hrow := hdstop.row_le
    omega

/-- What an index of a module answers: names of innermost definitions, from the module and the
outermost definition inwards. -/
structure AnswersInnermost (source : List Char) (root : Node) (ix : NameIndex) : Prop where
  /-- A line without an answer is covered by no definition. -/
  innermost : ∀ line, match ix.nameAt? line with
    | some name =>
      ∃ d chain, Innermost source root line d ∧ Chain root.all d chain ∧
        name = qualified source ix.module chain
    | none => ∀ d ∈ root.all, d.IsScope → ¬ d.Covers source line
  /-- A definition has its own name in the line where it begins. -/
  own : ∀ d ∈ root.all, d.IsScope → ∃ chain, Chain root.all d chain ∧
    ix.nameAt? d.startLine = some (qualified source ix.module chain)
  /-- The lines of decorators are covered by what is around the decorated definition, and by nothing
  else. -/
  decorators : ∀ w ∈ root.all, w.kind = .decoratedDefinition →
    ∃ d ∈ w.children.getLast?, d.IsScope ∧
    ∀ line, w.startLine ≤ line → line < d.startLine → ∀ e ∈ root.all, e.IsScope →
      (e.Covers source line ↔ w ∈ e.inner)

/-- The index of a text answers with the name of the innermost definition that covers a line. -/
theorem answersInnermost_of_parse [Parser] [LawfulParser] (h : parse source = .ok root)
    (module : String) : AnswersInnermost source root (ofTree source module root) := by
  have h := lawful_of_parse h
  refine ⟨exists_innermost h module, fun d hd hs => ?_, fun w hw hk => covers_decorator_iff h hw hk⟩
  obtain ⟨names, hmem⟩ := exists_mem_definitionsOf h module hd hs
  obtain ⟨chain, hchain, hname⟩ := exists_qualified h hmem
  exact ⟨chain, hchain, (nameAt?_of_mem h hmem).trans (congrArg some hname)⟩

def box : List Char :=
  ("class Box:\n    @cached\n    def size(self):\n        return 1\n\n    limit = 2\n\n" ++
    "def make():\n    pass\n").toList

theorem answersInnermost_box :
    ∃ root, parse box = .ok root ∧ AnswersInnermost box root (ofTree box "m" root) ∧
    (List.range 11).map (ofTree box "m" root).nameAt? =
      [none, some "m.Box", some "m.Box", some "m.Box.size", some "m.Box.size", some "m.Box",
        some "m.Box", none, some "m.make", some "m.make", none] := by
  have h : (parse box).toOption.any (fun root =>
      (List.range 11).map (ofTree box "m" root).nameAt? =
        [none, some "m.Box", some "m.Box", some "m.Box.size", some "m.Box.size", some "m.Box",
          some "m.Box", none, some "m.make", some "m.make", none]) = true := by decide +kernel
  obtain ⟨root, hroot, hlines⟩ := (Option.any_eq_true _ _).1 h
  have hparse := toOption_eq_some hroot
  exact ⟨root, hparse, answersInnermost_of_parse hparse "m", of_decide_eq_true hlines⟩

end NameIndex

end AsyncSpread.Python
