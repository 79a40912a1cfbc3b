import AsyncSpread.Proofs.Python.Kinds

/-!
In which rows compound statements and decorators begin and stop.

Statements and decorators are only read where the layout has broken the line.  So each compound
statement and decorator begins in a later row than those before it, and in a later row than they
stop in if it is not inside them (`pairwise_leads_of_parse`).  What stands before it in one row of
children stops in a row before its own (`pairwise_over_of_parse`).
-/

namespace AsyncSpread.Python

open Grammar

/-- Whether a node of a kind may stand where a line of its own begins. -/
def Kind.isHead : Kind → Bool
  | .keyword _ | .mark _ => true
  | k => k.leads

/-- Whether a node of a kind may stand anywhere and be made of anything. -/
def Kind.isFree (k : Kind) : Bool := !k.isHead && !k.isTrivia

/-- Where a rule may be read and where it leaves off: whether a line must be broken before it, and
whether one is broken behind it. -/
structure Breaks where
  before : Bool
  behind : Bool

def Grammar.breaks : Phrase → Breaks
  | .statement | .functionDefinition | .classDefinition => ⟨true, true⟩
  | .suite => ⟨false, true⟩
  | _ => ⟨false, false⟩

/-- Follows the breaks of lines through a rule: whether a line is broken behind it if `broken` says
that one is before it.  There is no answer if a node that needs a line of its own might be read
where no line is broken. -/
def Rule.follow : Bool → R → Option Bool
  | _, .mark _ | _, .keyword _ | _, .leaf _ _ | _, .word _ => some false
  | _, .layout k => some k.isLayout
  | broken, .nothing | broken, .unless _ | broken, .before _ => some broken
  | broken, .andThen r s => (follow broken r).bind fun b => follow b s
  | broken, .orElse r s => (follow broken r).bind fun b => (follow broken s).map fun b' => b && b'
  | broken, .many r => (follow broken r).bind fun b =>
    if b then some broken else (follow false r).map fun _ => false
  | broken, .node k r => if k.leads && !broken then none else follow broken r
  | broken, .grow base tails => (follow broken base).bind fun _ => followTails tails
  | broken, .extend base tails => (follow broken base).bind fun _ => followTails tails
  | broken, .only _ r => follow broken r
  | broken, .rule n => if (breaks n).before && !broken then none else some (breaks n).behind
where
  followTails : List (Kind × R) → Option Bool
    | [] => some false
    | t :: ts => (followTail t).bind fun _ => followTails ts
  followTail : Kind × R → Option Bool
    | (_, r) => follow false r

def Rule.takes : R → Bool
  | .mark _ | .keyword _ | .leaf _ _ | .word _ | .layout _ | .rule _ => true
  | .nothing | .many _ | .unless _ | .before _ => false
  | .andThen r s => takes r || takes s
  | .orElse r s => takes r && takes s
  | .node _ r | .grow r _ | .extend r _ | .only _ r => takes r

theorem Grammar.takes_rules (n : Phrase) : (rules n).takes = true := by
  cases n <;> decide

theorem Grammar.follow_rules (n : Phrase) :
    ((rules n).follow (breaks n).before).any (fun b => !(breaks n).behind || b) = true := by
  cases n <;> decide

/-- Whether a rule makes nodes of tokens that are neither heads nor trivia, or what needs a line of
its own of what that begins with. -/
def Grammar.isLed : R → Bool
  | .leaf _ k => k.isFree
  | .node k r => k.isFree && r.takes || k.leads && r.begins k.openings false
  | .grow base tails | .extend base tails => base.takes && tails.all fun t => t.1.isFree
  | _ => true

theorem Grammar.each_isLed (n : Phrase) : (rules n).each isLed = true := by
  cases n <;> decide

/-! ## Lines of their own -/

def Node.IsHead (n : Node) : Prop := n.kind.isHead = true

theorem Kind.isHead_of_leads {k : Kind} (h : k.leads = true) : k.isHead = true := by
  unfold isHead
  split
  · rfl
  · rfl
  · exact h

theorem Kind.of_isFree {k : Kind} (h : k.isFree = true) :
    k.isHead = false ∧ k.isTrivia = false := by
  rwa [isFree, Bool.and_eq_true, Bool.not_eq_true', Bool.not_eq_true'] at h

theorem Kind.isTrivia_of_leads {k : Kind} (h : k.leads = true) : k.isTrivia = false := by
  unfold isTrivia
  split
  · cases h
  · cases h
  · rfl

theorem Node.Leads.isHead {n : Node} (h : n.Leads) : n.IsHead := Kind.isHead_of_leads h

/-- What needs a line of its own begins in a later row than what comes before it, and in a later row
than that stops in unless it is inside. -/
def Node.Above (x y : Node) : Prop :=
  y.Leads → (x.IsHead → x.start.row < y.start.row) ∧
    (x.Leads → y ∈ x.inner ∨ x.stop.row < y.start.row)

/-- What some nodes have to do with the rows of the text: before them `rows` rows were used, behind
them `rows'`.  That the line was broken is said by `broken` and `broken'`. -/
structure Uses (rows : Nat) (broken : Bool) (ns : List Node) (rows' : Nat)
    (broken' : Bool) : Prop where
  le : rows ≤ rows'
  lower : ∀ x ∈ Node.allOf ns, x.IsHead → rows ≤ x.start.row + 1
  upper : ∀ x ∈ Node.allOf ns, x.IsHead → x.start.row < rows'
  fresh : broken = true → ∀ x ∈ Node.allOf ns, x.IsHead → rows ≤ x.start.row
  leads : ∀ x ∈ Node.allOf ns, x.Leads → rows ≤ x.start.row
  ends : ∀ x ∈ Node.allOf ns, x.Leads → x.stop.row < rows'
  /-- A line that is broken stays so until the next row is used. -/
  moved : broken = true → rows' = rows ∧ broken' = true ∨ rows < rows'
  pairwise : (Node.allOf ns).Pairwise Node.Above
  stops : ∀ n ∈ ns, n.isTrivia = false → n.stop.row < rows'
  parted : ns.Pairwise Node.Over

namespace Uses

variable {rows rows' rows'' : Nat} {broken broken' broken'' : Bool} {ns ms : List Node}

theorem nil : Uses rows broken [] rows broken where
  le := Nat.le_refl _
  lower := nofun
  upper := nofun
  fresh := nofun
  leads := nofun
  ends := nofun
  moved h := .inl ⟨rfl, h⟩
  pairwise := .nil
  stops := nofun
  parted := .nil

theorem append (h : Uses rows broken ns rows' broken')
    (h' : Uses rows' broken' ms rows'' broken'') : Uses rows broken (ns ++ ms) rows'' broken'' := by
  have cases {x : Node} {P : Prop} (hx : x ∈ Node.allOf (ns ++ ms)) (hn : x ∈ Node.allOf ns → P)
      (hm : x ∈ Node.allOf ms → P) : P := by
    rw [Node.allOf_append] at hx
    exact (List.mem_append.1 hx).elim hn hm
  have hle := h.le
  have hle' := h'.le
  refine ⟨Nat.le_trans hle hle', fun x hx hh => ?_, fun x hx hh => ?_, fun hb x hx hh => ?_,
    fun x hx hh => ?_, fun x hx hh => ?_, fun hb => ?_, ?_, fun n hn ht => ?_, ?_⟩
  · refine cases hx (fun hx => h.lower x hx hh) fun hx => ?_
    have := h'.lower x hx hh
    omega
  · refine cases hx (fun hx => ?_) fun hx => h'.upper x hx hh
    have := h.upper x hx hh
    omega
  · refine cases hx (fun hx => h.fresh hb x hx hh) fun hx => ?_
    rcases h.moved hb with ⟨hr, hb'⟩ | hlt
    · have := h'.fresh hb' x hx hh
      omega
    · have := h'.lower x hx hh
      omega
  · refine cases hx (fun hx => h.leads x hx hh) fun hx => ?_
    have := h'.leads x hx hh
    omega
  · refine cases hx (fun hx => ?_) fun hx => h'.ends x hx hh
    have := h.ends x hx hh
    omega
  · rcases h.moved hb with ⟨hr, hb'⟩ | hlt
    · rcases h'.moved hb' with ⟨hr', hb''⟩ | hlt
      · exact .inl ⟨by omega, hb''⟩
      · exact .inr (by omega)
    · exact .inr (by omega)
  · rw [Node.allOf_append]
    refine List.pairwise_append.2 ⟨h.pairwise, h'.pairwise,
      fun x hx y hy hyl => ⟨fun hxh => ?_, fun hxl => .inr ?_⟩⟩
    · have := h.upper x hx hxh
      have := h'.leads y hy hyl
      omega
    · have := h.ends x hx hxl
      have := h'.leads y hy hyl
      omega
  · rcases List.mem_append.1 hn with hn | hn
    · have := h.stops n hn ht
      omega
    · exact h'.stops n hn ht
  · refine List.pairwise_append.2 ⟨h.parted, h'.parted, fun n hn m hm ht y hy hl => ?_⟩
    have := h.stops n hn ht
    have := h'.leads y (Node.mem_allOf.2 ⟨m, hm, hy⟩) hl
    omega

theorem not_isHead_of_isTrivia {n : Node} (h : n.isTrivia = true) : ¬ n.IsHead := by
  unfold Node.isTrivia Kind.isTrivia at h
  unfold Node.IsHead
  split at h
  · rename_i hk
    rw [hk]
    exact Bool.false_ne_true
  · rename_i hk
    rw [hk]
    exact Bool.false_ne_true
  · cases h

theorem over_wrap (k : Kind) (p : Pos) (ns : List Node) :
    (Node.wrap k p ns).Pairwise Node.Over := by
  have htrivia : ∀ n ∈ ns.takeWhile Node.isTrivia, ∀ m, n.Over m := fun n hn m ht =>
    absurd ((List.all_eq_true.1 List.all_takeWhile n hn).symm.trans ht) nofun
  rw [Node.wrap_eq]
  refine List.pairwise_append.2 ⟨?_, .cons nofun .nil, fun n hn m _ => htrivia n hn m⟩
  exact List.pairwise_iff_forall_sublist.2 fun hs => htrivia _ (hs.subset List.mem_cons_self) _

theorem stops_wrap {k : Kind} {p : Pos} (hstop : (Node.made k p ns).stop.row < rows') :
    ∀ n ∈ Node.wrap k p ns, n.isTrivia = false → n.stop.row < rows' := by
  intro n hn ht
  rw [Node.wrap_eq] at hn
  rcases List.mem_append.1 hn with hn | hn
  · exact absurd ((List.all_eq_true.1 List.all_takeWhile n hn).symm.trans ht) nofun
  · rwa [List.mem_singleton.1 hn]

theorem wrap_plain {k : Kind} (hk : k.isHead = false) {p : Pos}
    (h : Uses rows broken ns rows' broken') (hstop : (Node.made k p ns).stop.row < rows') :
    Uses rows broken (Node.wrap k p ns) rows' broken' := by
  have hmade : ¬ (Node.made k p ns).IsHead := fun hh => Bool.false_ne_true (hk.symm.trans hh)
  have old {x : Node} (hx : x ∈ Node.allOf (Node.wrap k p ns)) (hh : x.IsHead) :
      x ∈ Node.allOf ns := by
    rcases Node.mem_allOf_wrap.1 hx with hx | rfl
    · exact hx
    · exact absurd hh hmade
  refine ⟨h.le, fun x hx hh => h.lower x (old hx hh) hh, fun x hx hh => h.upper x (old hx hh) hh,
    fun hb x hx hh => h.fresh hb x (old hx hh) hh, fun x hx hl => h.leads x (old hx hl.isHead) hl,
    fun x hx hl => h.ends x (old hx hl.isHead) hl, h.moved, ?_, stops_wrap hstop, over_wrap k p ns⟩
  have hp := h.pairwise
  rw [← Node.takeWhile_append_dropWhile ns, Node.allOf_append] at hp
  obtain ⟨h1, h2, h3⟩ := List.pairwise_append.1 hp
  rw [Node.wrap_eq, Node.allOf_append, Node.allOf_cons, Node.allOf_nil,
    List.append_nil, Node.all_eq]
  refine List.pairwise_append.2
    ⟨h1, .cons (fun y _ _ => ⟨fun hh => absurd hh hmade, fun hl => absurd hl.isHead hmade⟩) h2,
    fun x hx y hy => ?_⟩
  rcases List.mem_cons.1 hy with rfl | hy
  · exact fun hl => absurd hl.isHead hmade
  · exact h3 x hx y hy

/-- What needs a line of its own is made where a line is broken, of a row that begins with a
leaf. -/
theorem wrap_leads {k : Kind} {p : Pos} (h : Uses rows broken ns rows' broken') (hb : broken = true)
    (ht : ∀ n ∈ ns, n.isTrivia = true → n.children = [])
    (hstop : (Node.made k p ns).stop.row < rows')
    (hd : ∃ leaf rest, ns.dropWhile Node.isTrivia = leaf :: rest ∧ leaf.IsHead ∧ ¬ leaf.Leads ∧
      leaf.children = []) : Uses rows broken (Node.wrap k p ns) rows' broken' := by
  obtain ⟨leaf, rest, hd, hleaf, hleads, hchildren⟩ := hd
  have hmem : leaf ∈ Node.allOf ns := by
    rw [← Node.takeWhile_append_dropWhile ns, Node.allOf_append, hd, Node.allOf_cons]
    exact List.mem_append_right _ (List.mem_append_left _ (Node.mem_all_self _))
  have hstart : (Node.made k p ns).start = leaf.start := by
    unfold Node.made
    rw [hd]
    rfl
  have hlow := h.fresh hb leaf hmem hleaf
  have hup := h.upper leaf hmem hleaf
  refine ⟨h.le, fun x hx hh => ?_, fun x hx hh => ?_, fun hb x hx hh => ?_, fun x hx hl => ?_,
    fun x hx hl => ?_, h.moved, ?_, stops_wrap hstop, over_wrap k p ns⟩
  · rcases Node.mem_allOf_wrap.1 hx with hx | rfl
    · exact h.lower x hx hh
    · rw [hstart]
      omega
  · rcases Node.mem_allOf_wrap.1 hx with hx | rfl
    · exact h.upper x hx hh
    · rw [hstart]
      exact hup
  · rcases Node.mem_allOf_wrap.1 hx with hx | rfl
    · exact h.fresh hb x hx hh
    · rw [hstart]
      exact hlow
  · rcases Node.mem_allOf_wrap.1 hx with hx | rfl
    · exact h.leads x hx hl
    · rw [hstart]
      exact hlow
  · rcases Node.mem_allOf_wrap.1 hx with hx | rfl
    · exact h.ends x hx hl
    · exact hstop
  · have hp := h.pairwise
    rw [← Node.takeWhile_append_dropWhile ns, Node.allOf_append] at hp
    obtain ⟨h1, h2, h3⟩ := List.pairwise_append.1 hp
    -- Inside the new node its first leaf comes first, and stands where the node begins.
    have hbelow : ∀ y ∈ Node.allOf (ns.dropWhile Node.isTrivia),
        Node.Above (Node.made k p ns) y := by
      intro y hy hl
      refine ⟨fun _ => ?_, fun _ => .inl hy⟩
      rw [hd, Node.allOf_cons, Node.all_eq, List.cons_append] at hy h2
      rw [hstart]
      rcases List.mem_cons.1 hy with rfl | hy
      · exact absurd hl hleads
      · exact ((List.pairwise_cons.1 h2).1 y hy hl).1 hleaf
    rw [Node.wrap_eq, Node.allOf_append, Node.allOf_cons, Node.allOf_nil,
      List.append_nil, Node.all_eq]
    refine List.pairwise_append.2 ⟨h1, .cons hbelow h2, fun x hx y hy => ?_⟩
    rcases List.mem_cons.1 hy with rfl | hy
    · -- Only trivia stand before the new node.
      obtain ⟨n, hn, hx⟩ := Node.mem_allOf.1 hx
      have htr := List.all_eq_true.1 List.all_takeWhile n hn
      have hc := ht n (List.takeWhile_subset _ hn) htr
      rw [Node.all_eq, Node.inner, hc, Node.allOf_nil, List.mem_singleton] at hx
      subst hx
      have hno := not_isHead_of_isTrivia htr
      exact fun _ => ⟨fun hh => absurd hh hno, fun hl => absurd hl.isHead hno⟩
    · exact h3 x hx y hy

end Uses

/-! ## What is read -/

variable {r : R} {c c' : Cursor} {ns : List Node} {source : List Char}

theorem uses_of_not_isHead {rows rows' : Nat} {broken broken' : Bool} (hle : rows ≤ rows')
    (hm : broken = true → rows' = rows ∧ broken' = true ∨ rows < rows')
    (hn : ∀ x ∈ Node.allOf ns, ¬ x.IsHead)
    (hs : ∀ n ∈ ns, n.isTrivia = false → n.stop.row < rows') :
    Uses rows broken ns rows' broken' where
  le := hle
  lower x hx hh := absurd hh (hn x hx)
  upper x hx hh := absurd hh (hn x hx)
  fresh _ x hx hh := absurd hh (hn x hx)
  leads x hx hl := absurd hl.isHead (hn x hx)
  ends x hx hl := absurd hl.isHead (hn x hx)
  moved := hm
  pairwise := List.pairwise_iff_forall_sublist.2 fun hs hl =>
    absurd hl.isHead (hn _ (hs.subset (List.mem_cons_of_mem _ List.mem_cons_self)))
  stops := hs
  parted := List.pairwise_iff_forall_sublist.2 fun hs _ y hy hl =>
    absurd hl.isHead (hn y
      (Node.mem_allOf.2 ⟨_, hs.subset (List.mem_cons_of_mem _ List.mem_cons_self), hy⟩))

theorem allOf_leaf (t : Token) (k : Kind) : ∀ x ∈ Node.allOf (t.leaf k),
    (∃ u : Trivia, x = u.node) ∨ x = .mk k t.start t.stop [] := by
  intro x hx
  obtain ⟨n, hn, hx⟩ := Node.mem_allOf.1 hx
  rw [Node.all_eq] at hx
  rcases List.mem_append.1 hn with hn | hn
  · obtain ⟨u, -, rfl⟩ := List.mem_map.1 hn
    rcases List.mem_cons.1 hx with rfl | hx
    · exact .inl ⟨u, rfl⟩
    · cases hx
  · rw [List.mem_singleton] at hn
    subst hn
    rcases List.mem_cons.1 hx with rfl | hx
    · exact .inr rfl
    · cases hx

theorem isHead_trivia (u : Trivia) :
    ¬ u.node.IsHead := Uses.not_isHead_of_isTrivia (isTrivia_node u)

theorem not_isHead_of_mem_trivia {ts : List Trivia} :
    ∀ x ∈ Node.allOf (ts.map Trivia.node), ¬ x.IsHead := by
  intro x hx
  obtain ⟨n, hn, hx⟩ := Node.mem_allOf.1 hx
  obtain ⟨u, -, rfl⟩ := List.mem_map.1 hn
  rw [Node.all_eq] at hx
  rcases List.mem_cons.1 hx with rfl | hx
  · exact isHead_trivia u
  · cases hx

theorem stops_of_taken? {t : Token} (h : r.taken? t = some ns) :
    ∀ n ∈ ns, n.isTrivia = false → n.stop.row < t.stop.row + 1 := by
  have htrivia {n : Node} (hn : n ∈ t.before.map Trivia.node) : n.isTrivia = true := by
    obtain ⟨u, -, rfl⟩ := List.mem_map.1 hn
    exact isTrivia_node u
  intro n hn ht
  rcases Rule.of_taken? h with ⟨k, -, rfl⟩ | ⟨-, -, -, rfl⟩
  · rcases List.mem_append.1 hn with hn | hn
    · exact absurd ((htrivia hn).symm.trans ht) nofun
    · rw [List.mem_singleton.1 hn]
      exact Nat.lt_succ_self _
  · exact absurd ((htrivia hn).symm.trans ht) nofun

theorem uses_leaf {t : Token} {k : Kind} {rows : Nat} {broken : Bool} (h1 : rows ≤ t.start.row + 1)
    (h2 : broken = true → rows ≤ t.start.row) (h3 : t.start.row ≤ t.stop.row) (hk : k.leads = false)
    (hs : ∀ n ∈ t.leaf k, n.isTrivia = false → n.stop.row < t.stop.row + 1) :
    Uses rows broken (t.leaf k) (t.stop.row + 1) false := by
  have head {x : Node} {P : Prop} (hx : x ∈ Node.allOf (t.leaf k)) (hh : x.IsHead)
      (hp : x = .mk k t.start t.stop [] → P) : P := by
    rcases allOf_leaf t k x hx with ⟨u, rfl⟩ | hx
    · exact absurd hh (isHead_trivia u)
    · exact hp hx
  have leads {x : Node} (hx : x ∈ Node.allOf (t.leaf k)) : ¬ x.Leads := fun hl =>
    head hx hl.isHead fun he => by
      rw [he, Node.Leads, Node.kind_mk, hk] at hl
      cases hl
  refine ⟨by omega, fun x hx hh => head hx hh fun he => ?_, fun x hx hh => head hx hh fun he => ?_,
    fun hb x hx hh => head hx hh fun he => ?_, fun x hx hl => absurd hl (leads hx),
      fun x hx hl => absurd hl (leads hx),
    fun hb => ?_, ?_, hs, ?_⟩
  · rw [he]
    exact h1
  · rw [he]
    exact Nat.lt_succ_of_le h3
  · rw [he]
    exact h2 hb
  · have := h2 hb
    exact .inr (by omega)
  · exact List.pairwise_iff_forall_sublist.2 fun hs hy =>
      absurd hy (leads (hs.subset (List.mem_cons_of_mem _ List.mem_cons_self)))
  · exact List.pairwise_iff_forall_sublist.2 fun hs _ y hy hl =>
      absurd hl (leads (Node.mem_allOf.2 ⟨_, hs.subset (List.mem_cons_of_mem _ List.mem_cons_self),
        hy⟩))

/-- What lies ahead of a reading: tokens that go on in lines behind `rows` rows, and none of these
is behind the last token that was taken. -/
structure Ahead (source : List Char) (c : Cursor) (rows : Nat) (broken : Bool) : Prop where
  lines : InLines rows broken c.ahead
  laid : ∃ zs q, Laid source c.last (c.ahead.flatMap Token.spans ++ zs) q
  last : rows = 0 ∨ c.last.row < rows

/-- The leaves that a rule makes need no lines of their own. -/
theorem leads_of_mem_leafKinds {k : Kind} (h : isLed r = true) (hk : k ∈ r.leafKinds) :
    k.leads = false := by
  cases r with
  | mark | keyword | word =>
    cases List.mem_singleton.1 hk
    rfl
  | leaf =>
    cases List.mem_singleton.1 hk
    exact Bool.eq_false_iff.2 fun hl => Bool.false_ne_true
      ((Kind.of_isFree h).1.symm.trans (Kind.isHead_of_leads hl))
  | _ => cases hk

theorem not_isHead_of_isLayout {t : Token} (h : r.taken? t = some ns) (hp : isLed r = true)
    (hlayout : t.kind.isLayout = true) : ∀ x ∈ Node.allOf ns, ¬ x.IsHead := by
  intro x hx
  rcases Rule.of_taken? h with ⟨k, hk, rfl⟩ | ⟨kind, -, -, rfl⟩
  · rcases allOf_leaf t k x hx with ⟨u, rfl⟩ | rfl
    · exact isHead_trivia u
    · intro hh
      cases r with
      | mark | keyword =>
        simp only [Rule.taken?] at h
        split at h
        · rename_i hkind
          rw [hkind] at hlayout
          cases hlayout
        · cases h
      | word =>
        simp only [Rule.taken?] at h
        split at h
        · rename_i hkind
          rw [hkind] at hlayout
          cases hlayout
        · rename_i hkind
          rw [hkind] at hlayout
          cases hlayout
        · cases h
      | leaf =>
        cases List.mem_singleton.1 hk
        exact Bool.false_ne_true ((Kind.of_isFree hp).1.symm.trans hh)
      | _ => cases hk
  · exact not_isHead_of_mem_trivia x hx

/-- One token: it belongs to the layout and breaks the line, or it uses its rows. -/
theorem Reads.uses_token {t : Token} {rest : List Token} {count : Nat} {last : Pos} {rows : Nat}
    {broken b actual : Bool} (h : r.taken? t = some ns) (hp : isLed r = true)
    (hf : r.follow broken = some b) (ha : Ahead source ⟨t :: rest, count, last⟩ rows actual) :
    ∃ rows' broken',
      Ahead source ⟨rest, count - 1, t.stop⟩ rows' broken' ∧ Uses rows actual ns rows' broken' ∧
      (b = true → broken' = true) ∧ 0 < rows' := by
  have hs := stops_of_taken? h
  obtain ⟨hlines, ⟨zs, q, hlaid⟩, -⟩ := ha
  have hahead {broken' : Bool} (h' : InLines (t.stop.row + 1) broken' rest) :
      Ahead source ⟨rest, count - 1, t.stop⟩ (t.stop.row + 1) broken' :=
    ⟨h', ⟨zs, q, (Reads.laid (.token h : Reads rules r _ ns _) hlaid).2.1⟩,
      .inr (Nat.lt_succ_self _)⟩
  rw [InLines] at hlines
  by_cases hlayout : t.kind.isLayout = true
  · rw [if_pos hlayout] at hlines
    refine ⟨_, true, hahead hlines.2, uses_of_not_isHead hlines.1
      (fun _ => ?_) (not_isHead_of_isLayout h hp hlayout) hs, fun _ => rfl, Nat.succ_pos _⟩
    exact (Nat.eq_or_lt_of_le hlines.1).imp (fun he => ⟨he.symm, rfl⟩) id
  · rw [if_neg hlayout] at hlines
    obtain ⟨h1, h2, h3, h4⟩ := hlines
    refine ⟨_, false, hahead h4, ?_⟩
    rcases Rule.of_taken? h with ⟨k, hk, rfl⟩ | ⟨kind, rfl, rfl, rfl⟩
    · refine ⟨uses_leaf h1 h2 h3 (leads_of_mem_leafKinds hp hk) hs, fun hb => ?_, Nat.succ_pos _⟩
      cases r with
      | mark | keyword | leaf | word =>
        cases hf
        cases hb
      | _ => cases hk
    · refine ⟨uses_of_not_isHead (by omega) (fun hb => .inr ?_) not_isHead_of_mem_trivia hs,
        fun hb => ?_, Nat.succ_pos _⟩
      · have := h2 hb
        omega
      · cases hf
        exact absurd hb hlayout

theorem Rule.follow_tail {tails : List (Kind × R)} {b : Bool}
    (h : follow.followTails tails = some b) :
    b = false ∧ ∀ t ∈ tails, ∃ b', t.2.follow false = some b' := by
  induction tails with
  | nil =>
    cases h
    exact ⟨rfl, nofun⟩
  | cons t tails ih =>
    obtain ⟨k, r⟩ := t
    obtain ⟨b', ht, hts⟩ := Option.bind_eq_some_iff.1 h
    obtain ⟨hb, hts⟩ := ih hts
    refine ⟨hb, fun u hu => ?_⟩
    rcases List.mem_cons.1 hu with rfl | hu
    · exact ⟨b', ht⟩
    · exact hts u hu

/-- A round that may not break the line at its end is only followed by rounds that need no broken
line. -/
theorem Rule.exists_follow_again {broken b x broken' : Bool} (hf : r.follow broken = some x)
    (hm : (Rule.many r).follow broken = some b) (hb : x = true → broken' = true) :
    ∃ again, (Rule.many r).follow again = some b ∧ (again = true → broken' = true) := by
  cases x with
  | true => exact ⟨broken, hm, fun _ => hb rfl⟩
  | false =>
    rw [Rule.follow, hf, Option.bind_some] at hm
    obtain ⟨y, hy, rfl⟩ := Option.map_eq_some_iff.1 hm
    refine ⟨false, ?_, nofun⟩
    rw [Rule.follow, hy, Option.bind_some]
    split <;> rfl

theorem isFree_of_tail {base : R} {tails : List (Kind × R)} {t : Kind × R}
    (h : (base.takes && tails.all fun t => t.1.isFree) = true) (ht : t ∈ tails) :
    t.1.isFree = true :=
  List.all_eq_true.1 (Bool.and_eq_true_iff.1 h).2 t ht

theorem makes_bare :
    Makes rules isLed (fun _ => True) fun n => n.isTrivia = true → n.children = [] where
  trivia _ _ := rfl
  leaf _ _ _ _ _ := rfl
  node {k r c c' ns} hr _ _ ht := by
    have ht : k.isTrivia = true := ht
    rw [isLed, Bool.or_eq_true, Bool.and_eq_true, Bool.and_eq_true] at hr
    rcases hr with ⟨hr, -⟩ | ⟨hr, -⟩
    · cases ht.symm.trans (Kind.of_isFree hr).2
    · cases ht.symm.trans (Kind.isTrivia_of_leads hr)
  grow hr _ hk _ _ ht := by cases ht.symm.trans (Kind.of_isFree (isFree_of_tail hr hk)).2
  extend hr _ hk _ _ ht := by cases ht.symm.trans (Kind.of_isFree (isFree_of_tail hr hk)).2

theorem of_mem_openings {k k' : Kind} (h : k' ∈ k.openings) :
    k'.isHead = true ∧ k'.leads = false ∧ k'.isTrivia = false := by
  unfold Kind.openings at h
  split at h <;> simp only [List.mem_cons, List.not_mem_nil, or_false] at h
  all_goals rcases h with rfl | rfl <;> exact ⟨rfl, rfl, rfl⟩

/-- What needs a line of its own begins with what it may begin with. -/
theorem makes_led : Makes rules isLed (fun _ => True) fun n => n.Leads →
    ∃ leaf rest, n.children = leaf :: rest ∧ leaf.kind ∈ n.kind.openings where
  trivia u hl := absurd hl.isHead (Uses.not_isHead_of_isTrivia (isTrivia_node u))
  leaf hr _ hk _ hl := absurd (hl.symm.trans (leads_of_mem_leafKinds hr hk)) nofun
  node {k r c c' ns} hr _ h hl := by
    have hl : k.leads = true := hl
    rw [isLed, Bool.or_eq_true, Bool.and_eq_true, Bool.and_eq_true] at hr
    rcases hr with ⟨hr, -⟩ | ⟨-, hr⟩
    · exact absurd (Kind.isHead_of_leads hl) (Bool.eq_false_iff.1 (Kind.of_isFree hr).1)
    · rcases h.begins (fun k' hk' => (of_mem_openings hk').2.2) hr
        with ⟨leaf, rest, hd, -, hleaf⟩ | ⟨he, -⟩
      · exact ⟨leaf, rest, hd, hleaf⟩
      · cases he
  grow hr _ hk _ _ hl :=
    absurd (Kind.isHead_of_leads hl) (Bool.eq_false_iff.1 (Kind.of_isFree (isFree_of_tail hr hk)).1)
  extend hr _ hk _ _ hl :=
    absurd (Kind.isHead_of_leads hl) (Bool.eq_false_iff.1 (Kind.of_isFree (isFree_of_tail hr hk)).1)

/-- A node stops where the last token stopped, in a row that is used. -/
theorem Reads.stop_made (k : Kind) {rows rows' : Nat} {broken' actual : Bool}
    (h : Reads rules r c ns c') (ha : Ahead source c rows actual)
    (ha' : Ahead source c' rows' broken') (hpos : 0 < rows') :
    (Node.made k c'.last ns).stop.row < rows' := by
  have hlast := ha'.last
  obtain ⟨zs, q, hlaid⟩ := ha.laid
  obtain ⟨hrow, -, hnested⟩ := h.laid hlaid
  have hmade : Node.made k c'.last ns ∈ Node.wrap k c'.last ns := by
    rw [Node.wrap_eq]
    exact List.mem_append_right _ (List.mem_singleton_self _)
  have hstop : (Node.made k c'.last ns).stop.row ≤ c'.last.row :=
    ((Node.nested_wrap k hrow hnested).1.of_mem (List.mem_map_of_mem hmade)).2.2.row_le
  omega

/-- A node uses the rows that its children use; one that needs a line of its own needs a broken
line. -/
theorem Reads.uses_wrap {k : Kind} {rows rows' : Nat} {broken' actual : Bool}
    (h : Reads rules r c ns c') (hn : isLed (.node k r) = true) (hp : r.each isLed = true)
    (ha : Ahead source c rows actual) (ha' : Ahead source c' rows' broken')
    (hb : k.leads = true → actual = true) (hu : Uses rows actual ns rows' broken')
    (hpos : r.takes = true → 0 < rows') :
    Uses rows actual (Node.wrap k c'.last ns) rows' broken' := by
  rw [isLed, Bool.or_eq_true, Bool.and_eq_true, Bool.and_eq_true] at hn
  rcases hn with ⟨hfree, htakes⟩ | ⟨hleads, hbegins⟩
  · exact hu.wrap_plain (Kind.of_isFree hfree).1 (h.stop_made k ha ha' (hpos htakes))
  · rcases h.begins (fun k' hk' => (of_mem_openings hk').2.2) hbegins
      with ⟨leaf, rest, hd, hc, hleaf⟩ | ⟨he, -⟩
    · obtain ⟨hhead, hno, -⟩ := of_mem_openings hleaf
      have hmem : leaf ∈ ns := List.dropWhile_subset _ (hd ▸ List.mem_cons_self)
      have hup := hu.upper leaf (Node.mem_allOf.2 ⟨leaf, hmem, Node.mem_all_self _⟩) hhead
      refine hu.wrap_leads (hb hleads) (fun n hn htr => ?_) (h.stop_made k ha ha' (by omega)) ⟨leaf,
        rest, hd, hhead, ?_, hc⟩
      · exact h.forall_allOf makes_bare (fun n _ => each_isLed n) hp (fun _ _ => trivial) n
          (Node.mem_allOf.2 ⟨n, hn, Node.mem_all_self n⟩) htr
      · exact Bool.eq_false_iff.1 hno
    · cases he

/-- The nodes that are read use rows as the rule that reads them is followed. -/
theorem Reads.uses (h : Reads rules r c ns c') (hp : r.each isLed = true) {rows : Nat}
    {broken b actual : Bool} (hf : r.follow broken = some b) (hb : broken = true → actual = true)
    (ha : Ahead source c rows actual) :
    ∃ rows' broken', Ahead source c' rows' broken' ∧ Uses rows actual ns rows' broken' ∧
      (b = true → broken' = true) ∧ (r.takes = true → 0 < rows') := by
  induction h generalizing rows broken b actual with
  | token h =>
    obtain ⟨rows', broken', ha', hu, hb', hpos⟩ := Reads.uses_token h (Rule.ok_of_each hp) hf ha
    exact ⟨rows', broken', ha', hu, hb', fun _ => hpos⟩
  | nothing | «unless» _ | before _ =>
    cases hf
    exact ⟨rows, actual, ha, .nil, hb, fun ht => by cases ht⟩
  | andThen _ _ ih ih' =>
    simp only [Rule.each, Bool.and_eq_true] at hp
    obtain ⟨b', hf, hf'⟩ := Option.bind_eq_some_iff.1 hf
    obtain ⟨rows', broken', ha', hu, hb', hpos⟩ := ih hp.1.2 hf hb ha
    obtain ⟨rows'', broken'', ha'', hu', hb'', hpos'⟩ := ih' hp.2 hf' hb' ha'
    refine ⟨rows'', broken'', ha'', hu.append hu', hb'', fun ht => ?_⟩
    rw [Rule.takes, Bool.or_eq_true] at ht
    rcases ht with ht | ht
    · exact Nat.lt_of_lt_of_le (hpos ht) hu'.le
    · exact hpos' ht
  | first _ ih =>
    simp only [Rule.each, Bool.and_eq_true] at hp
    obtain ⟨x, hf, hf'⟩ := Option.bind_eq_some_iff.1 hf
    obtain ⟨y, -, hy⟩ := Option.map_eq_some_iff.1 hf'
    obtain ⟨rows', broken', ha', hu, hb', hpos⟩ := ih hp.1.2 hf hb ha
    refine ⟨rows', broken', ha', hu, fun h => hb' ?_, fun ht => hpos (Bool.and_eq_true_iff.1 ht).1⟩
    rw [← hy, Bool.and_eq_true] at h
    exact h.1
  | second _ ih =>
    simp only [Rule.each, Bool.and_eq_true] at hp
    obtain ⟨x, -, hf'⟩ := Option.bind_eq_some_iff.1 hf
    obtain ⟨y, hf, hy⟩ := Option.map_eq_some_iff.1 hf'
    obtain ⟨rows', broken', ha', hu, hb', hpos⟩ := ih hp.2 hf hb ha
    refine ⟨rows', broken', ha', hu, fun h => hb' ?_, fun ht => hpos (Bool.and_eq_true_iff.1 ht).2⟩
    rw [← hy, Bool.and_eq_true] at h
    exact h.2
  | done =>
    obtain ⟨x, hf, hf'⟩ := Option.bind_eq_some_iff.1 hf
    refine ⟨rows, actual, ha, .nil, fun h => hb ?_, fun ht => by cases ht⟩
    split at hf'
    · cases hf'
      exact h
    · obtain ⟨y, -, rfl⟩ := Option.map_eq_some_iff.1 hf'
      cases h
  | more _ _ ih ih' =>
    have hp' := hp
    simp only [Rule.each, Bool.and_eq_true] at hp'
    have hm := hf
    obtain ⟨x, hf, -⟩ := Option.bind_eq_some_iff.1 hf
    obtain ⟨rows', broken', ha', hu, hb', -⟩ := ih hp'.2 hf hb ha
    obtain ⟨again, hagain, hbroken⟩ := Rule.exists_follow_again hf hm hb'
    obtain ⟨rows'', broken'', ha'', hu', hb'', -⟩ := ih' hp hagain hbroken ha'
    exact ⟨rows'', broken'', ha'', hu.append hu', hb'', fun ht => by cases ht⟩
  | @node k r c c' ns h ih =>
    have hn := Rule.ok_of_each hp
    simp only [Rule.each, Bool.and_eq_true] at hp
    rw [Rule.follow] at hf
    split at hf
    · cases hf
    · rename_i hk
      obtain ⟨rows', broken', ha', hu, hb', hpos⟩ := ih hp.2 hf hb ha
      refine ⟨rows', broken', ha', h.uses_wrap hn hp.2 ha ha' (fun hs => hb ?_) hu hpos, hb', hpos⟩
      rw [hs, Bool.true_and, Bool.not_eq_true', Bool.not_eq_false] at hk
      exact hk
  | growBase _ ih | extendBase _ ih =>
    simp only [Rule.each, Bool.and_eq_true] at hp
    obtain ⟨x, hf, hf'⟩ := Option.bind_eq_some_iff.1 hf
    obtain ⟨rows', broken', ha', hu, -, hpos⟩ := ih hp.1.2 hf hb ha
    refine ⟨rows', broken', ha', hu, fun h => ?_, hpos⟩
    rw [(Rule.follow_tail hf').1] at h
    cases h
  | @growTail base r tails k c c' c'' ns ms hk h h' ih ih' =>
    have hn := Rule.ok_of_each hp
    have hfree : k.isFree = true := isFree_of_tail hn hk
    obtain ⟨rows', broken', ha', hu, -, hpos⟩ := ih hp hf hb ha
    simp only [Rule.each, Bool.and_eq_true] at hp
    obtain ⟨x, -, hf'⟩ := Option.bind_eq_some_iff.1 hf
    obtain ⟨rfl, htails⟩ := Rule.follow_tail hf'
    obtain ⟨y, hy⟩ := htails _ hk
    obtain ⟨rows'', broken'', ha'', hu', -, -⟩ :=
      ih' (Rule.of_eachTail hp.2 hk) hy Bool.noConfusion ha'
    have hpos : 0 < rows'' := Nat.lt_of_lt_of_le (hpos (Bool.and_eq_true_iff.1 hn).1) hu'.le
    exact ⟨rows'', broken'', ha'', (hu.append hu').wrap_plain (Kind.of_isFree hfree).1
      ((h.andThen h').stop_made k ha ha'' hpos), Bool.noConfusion, fun _ => hpos⟩
  | @extendTail base r tails k c c' c'' ns ms hk h h' ih ih' =>
    have hn := Rule.ok_of_each hp
    have hfree : k.isFree = true := isFree_of_tail hn hk
    simp only [Rule.each, Bool.and_eq_true] at hp
    obtain ⟨x, hf, hf'⟩ := Option.bind_eq_some_iff.1 hf
    obtain ⟨rows', broken', ha', hu, -, hpos⟩ := ih hp.1.2 hf hb ha
    obtain ⟨rfl, htails⟩ := Rule.follow_tail hf'
    obtain ⟨y, hy⟩ := htails _ hk
    obtain ⟨rows'', broken'', ha'', hu', -, -⟩ :=
      ih' (Rule.of_eachTail hp.2 hk) hy Bool.noConfusion ha'
    have hpos : 0 < rows'' := Nat.lt_of_lt_of_le (hpos (Bool.and_eq_true_iff.1 hn).1) hu'.le
    exact ⟨rows'', broken'', ha'', (hu.append hu').wrap_plain (Kind.of_isFree hfree).1
      ((h.andThen h').stop_made k ha ha'' hpos), Bool.noConfusion, fun _ => hpos⟩
  | only _ _ ih =>
    simp only [Rule.each, Bool.and_eq_true] at hp
    exact ih hp.2 hf hb ha
  | @rule n _ _ _ _ ih =>
    obtain ⟨x, hx, hbehind⟩ := (Option.any_eq_true _ _).1 (follow_rules n)
    rw [Rule.follow] at hf
    split at hf
    · cases hf
    · rename_i hk
      cases hf
      have hbefore : (breaks n).before = true → actual = true := by
        intro hn
        rw [hn, Bool.true_and, Bool.not_eq_true', Bool.not_eq_false] at hk
        exact hb hk
      obtain ⟨rows', broken', ha', hu, hb', hpos⟩ := ih (each_isLed n) hx hbefore ha
      refine ⟨rows', broken', ha', hu, fun hn => hb' ?_, fun _ => hpos (takes_rules n)⟩
      rw [hn] at hbehind
      exact hbehind

theorem uses_of_parse {root : Node} (h : Grammar.parse source = .ok root) :
    ∃ ns rows broken, Uses 0 true ns rows broken ∧ root = moduleNode ns (tokensOf source).2 := by
  obtain ⟨ns, c, hr, -, hroot⟩ := of_parse h
  obtain ⟨q, hlaid⟩ := laid_tokensOf source
  obtain ⟨rows, broken, -, hu, -⟩ :=
    hr.uses (by decide) (show module.follow true = some true by decide) id
    ⟨inLines_tokensOf source, ⟨_, q, hlaid⟩, .inl rfl⟩
  exact ⟨ns, rows, broken, hu, hroot⟩

/-- Of two compound statements or decorators of a text the second begins in a later row, and if it
is not inside the first one in a later row than that stops in. -/
theorem pairwise_leads_of_parse {root : Node} (h : Grammar.parse source = .ok root) :
    root.all.Pairwise fun x y =>
    x.Leads → y.Leads → x.start.row < y.start.row ∧ (y ∈ x.inner ∨ x.stop.row < y.start.row) := by
  obtain ⟨ns, rows, broken, hu, rfl⟩ := uses_of_parse h
  rw [Node.all_eq]
  refine .cons (fun y _ hl => absurd hl Bool.false_ne_true) ?_
  show (Node.allOf (ns ++ (tokensOf source).2.map Trivia.node)).Pairwise _
  rw [Node.allOf_append]
  refine List.pairwise_append.2 ⟨hu.pairwise.imp fun h hx hy => ⟨(h hy).1 hx.isHead, (h hy).2 hx⟩,
    ?_, fun x _ y hy _ hl => ?_⟩
  · exact List.pairwise_iff_forall_sublist.2 fun hs hx =>
      absurd hx.isHead (not_isHead_of_mem_trivia _ (hs.subset List.mem_cons_self))
  · exact absurd hl.isHead (not_isHead_of_mem_trivia y hy)

/-- What stands in a text outside all other nodes stops in a row before that of each compound
statement behind it. -/
theorem pairwise_over_of_parse {root : Node} (h : Grammar.parse source = .ok root) :
    root.children.Pairwise Node.Over := by
  obtain ⟨ns, rows, broken, hu, rfl⟩ := uses_of_parse h
  have htrivia (n m : Node) (hm : m ∈ (tokensOf source).2.map Trivia.node) : n.Over m :=
    fun _ y hy hl =>
    absurd hl.isHead (not_isHead_of_mem_trivia y (Node.mem_allOf.2 ⟨m, hm, hy⟩))
  show (ns ++ (tokensOf source).2.map Trivia.node).Pairwise Node.Over
  refine List.pairwise_append.2 ⟨hu.parted, ?_, fun n _ m hm => htrivia n m hm⟩
  exact List.pairwise_iff_forall_sublist.2 fun hs =>
    htrivia _ _ (hs.subset (List.mem_cons_of_mem _ List.mem_cons_self))

end AsyncSpread.Python
