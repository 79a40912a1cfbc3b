import AsyncSpread.Proofs.Python.Rows

/-!
What the reader is bound to read.

Choices are ordered, so to know what is read it has to be known what is refused.  A rule refuses a
row of tokens if it cannot begin with the first of them (`Rule.refuses_of_declines`), and this is
computed from the grammar (`Rule.admits`).  The other lemmas go along with the rules: what is read
of the parts is read of the whole, if the bound is large enough (`Rule.Gives`).
-/

namespace AsyncSpread.Python

open Grammar

namespace Rule

/-! ## What rules begin with -/

/-- Whether a rule may read nothing in front of a token of a kind. -/
def skips (k : TokenKind) : Rule Phrase → Bool
  | .mark _ | .keyword _ | .leaf _ _ | .word _ | .layout _ | .rule _ => false
  | .nothing | .many _ => true
  | .unless ks => !ks.contains k
  | .before ks => ks.contains k
  | .andThen r s => skips k r && skips k s
  | .orElse r s => skips k r || skips k s
  | .node _ r | .grow r _ | .extend r _ | .only _ r => skips k r

/-- Whether a rule may take a token of a kind first.  `named` says so of the named rules. -/
def admits (named : Phrase → Bool) (k : TokenKind) : Rule Phrase → Bool
  | .mark m => k = .mark m
  | .keyword w => k = .keyword w
  | .leaf t _ | .layout t => k = t
  | .word except => match k with
    | .name => true
    | .keyword w => !except.contains w
    | _ => false
  | .nothing | .unless _ | .before _ => false
  | .andThen r s => admits named k r || (skips k r && admits named k s)
  | .orElse r s => admits named k r || admits named k s
  | .many r | .node _ r | .only _ r => admits named k r
  | .grow base _ | .extend base _ => admits named k base || skips k base
  | .rule n => named n

theorem skips_of_takes {r : Rule Phrase} (h : r.takes = true) (k : TokenKind) :
    r.skips k = false := by
  fun_induction skips k r with
  | case1 | case2 | case3 | case4 | case5 | case6 => rfl
  | case7 | case8 | case9 | case10 => cases h
  | case11 r s ih ih' =>
    rcases Bool.or_eq_true_iff.1 h with h | h
    · rw [ih h, Bool.false_and]
    · rw [ih' h, Bool.and_false]
  | case12 r s ih ih' =>
    obtain ⟨h, h'⟩ := Bool.and_eq_true_iff.1 h
    rw [ih h, ih' h', Bool.or_false]
  | case13 _ _ ih | case14 _ _ ih | case15 _ _ ih | case16 _ _ ih => exact ih h

end Rule

/-- Whether a named rule may take a token of a kind first, looked up through so many names. -/
def Phrase.admits (k : TokenKind) : Nat → Phrase → Bool
  | 0, _ => true
  | n + 1, p => (rules p).admits (admits k n) k

/-- A rule that does not take the first token takes none. -/
theorem Reads.admits {r : Rule Phrase} {c c' : Cursor} {ns : List Node} (h : Reads rules r c ns c')
    {t : Token} {rest : List Token} (hc : c.ahead = t :: rest) (n : Nat) :
    r.admits (Phrase.admits t.kind n) t.kind = true ∨ r.skips t.kind = true ∧
    c'.ahead = c.ahead := by
  induction h generalizing n with
  | @token r t' _ _ _ _ h =>
    cases hc
    refine .inl ?_
    cases r with
    | mark | keyword | leaf | layout =>
      simp only [Rule.taken?] at h
      split at h
      · rename_i hk
        exact decide_eq_true hk
      · cases h
    | word except =>
      cases hk : t.kind with
      | name => rfl
      | keyword w =>
        simp only [Rule.taken?, hk] at h
        split at h
        · cases h
        · rename_i hw
          simpa [Rule.admits] using hw
      | _ => exact absurd h (by simp [Rule.taken?, hk])
    | _ => cases h
  | nothing => exact .inr ⟨rfl, rfl⟩
  | «unless» h =>
    refine .inr ⟨?_, rfl⟩
    have hk := h t (by rw [hc]; rfl)
    simpa [Rule.skips] using hk
  | before h =>
    refine .inr ⟨?_, rfl⟩
    obtain ⟨u, hu, hk⟩ := h
    rw [hc] at hu
    cases hu
    simpa [Rule.skips] using hk
  | andThen _ _ ih ih' =>
    simp only [Rule.admits, Rule.skips, Bool.or_eq_true, Bool.and_eq_true]
    rcases ih hc n with hr | ⟨hr, hsame⟩
    · exact .inl (.inl hr)
    · rcases ih' (hsame.trans hc) n with hs | ⟨hs, hsame'⟩
      · exact .inl (.inr ⟨hr, hs⟩)
      · exact .inr ⟨⟨hr, hs⟩, hsame'.trans hsame⟩
  | first _ ih =>
    simp only [Rule.admits, Rule.skips, Bool.or_eq_true]
    exact (ih hc n).imp .inl fun h => ⟨.inl h.1, h.2⟩
  | second _ ih =>
    simp only [Rule.admits, Rule.skips, Bool.or_eq_true]
    exact (ih hc n).imp .inr fun h => ⟨.inr h.1, h.2⟩
  | done => exact .inr ⟨rfl, rfl⟩
  | more _ _ ih ih' =>
    rcases ih hc n with hr | ⟨-, hsame⟩
    · exact .inl hr
    · exact (ih' (hsame.trans hc) n).imp id fun h => ⟨rfl, h.2.trans hsame⟩
  | node _ ih | only _ _ ih => exact ih hc n
  | growBase _ ih | extendBase _ ih =>
    simp only [Rule.admits, Bool.or_eq_true]
    exact (ih hc n).imp .inl id
  | growTail _ _ _ ih _ => exact .inl ((ih hc n).elim id fun h => Bool.or_eq_true_iff.2 (.inr h.1))
  | extendTail _ _ _ ih _ => exact .inl (Bool.or_eq_true_iff.2 ((ih hc n).imp id And.left))
  | @rule p _ _ _ _ ih =>
    cases n with
    | zero => exact .inl rfl
    | succ n =>
      refine .inl ((ih hc n).resolve_right fun h => ?_)
      rw [Rule.skips_of_takes (takes_rules p)] at h
      cases h.1

theorem Reads.ahead_ne_nil {r : Rule Phrase} {c c' : Cursor} {ns : List Node}
    (h : Reads rules r c ns c') (hr : r.takes = true) : c.ahead ≠ [] := by
  induction h with
  | token _ => exact List.cons_ne_nil _ _
  | nothing | «unless» _ | before _ | done | more _ _ _ _ => cases hr
  | andThen h _ ih ih' =>
    rcases Bool.or_eq_true_iff.1 hr with hr | hr
    · exact ih hr
    · intro hnil
      exact ih' hr (List.eq_nil_of_suffix_nil (hnil ▸ h.suffix))
  | first _ ih => exact ih (Bool.and_eq_true_iff.1 hr).1
  | second _ ih => exact ih (Bool.and_eq_true_iff.1 hr).2
  | node _ ih | growBase _ ih | extendBase _ ih | only _ _ ih => exact ih hr
  | growTail _ _ _ ih _ | extendTail _ _ _ ih _ => exact ih hr
  | @rule n _ _ _ _ ih => exact ih (takes_rules n)

def Cursor.facing (ts : List Token) (last : Pos) : Cursor := ⟨ts, ts.length, last⟩

namespace Rule

/-- A rule reads nothing, whatever the bound. -/
def Refuses (r : Rule Phrase) (c : Cursor) : Prop := ∀ n, (read rules n r c).result = none

/-- Whether a rule is sure to refuse a token of a kind. -/
def declines (k : TokenKind) (r : Rule Phrase) : Bool :=
  !(r.admits (Phrase.admits k 16) k || r.skips k)

variable {r s base : Rule Phrase} {c c' c'' : Cursor} {ns ms ks : List Node} {d d' : Nat}
  {tails : List (Kind × Rule Phrase)} {t : Token} {rest : List Token} {last : Pos} {k : TokenKind}

theorem refuses_of_not_reads (h : ∀ ns c', ¬Reads rules r c ns c') : r.Refuses c := by
  intro n
  cases hread : (read rules n r c).result with
  | none => rfl
  | some read => exact absurd (reads_of_read hread) (h _ _)

theorem refuses_of_declines (hk : t.kind = k) (h : r.declines k = true) :
    r.Refuses (.facing (t :: rest) last) := by
  refine refuses_of_not_reads fun ns c' hreads => ?_
  subst hk
  unfold declines at h
  rcases hreads.admits rfl 16 with ho | ⟨hs, -⟩
  · rw [ho] at h
    cases h
  · rw [hs, Bool.or_true] at h
    cases h

theorem refuses_nil (h : r.takes = true) : r.Refuses (.facing [] last) :=
  refuses_of_not_reads fun _ _ hreads => hreads.ahead_ne_nil h rfl

/-- A row of rules is refused if the second refuses wherever the first gets. -/
theorem refuses_andThen (h : ∀ ns c', Reads rules r c ns c' → s.Refuses c') :
    (r.andThen s).Refuses c := by
  intro n
  cases n with
  | zero => rfl
  | succ n =>
    cases hone : (read rules n r c).result with
    | none => simp only [read, hone]
    | some one =>
      have htwo := h _ _ (reads_of_read hone) n
      simp only [read, hone, htwo, Reading.noting]

theorem Refuses.node (h : r.Refuses c) (k : Kind) : (r.node k).Refuses c := by
  intro n
  cases n with
  | zero => rfl
  | succ n => simp only [read, h n]

/-! ## What is read -/

/-- A rule reads nodes from one place to another, if the bound is large enough. -/
def Gives (depth : Nat) (r : Rule Phrase) (c : Cursor) (ns : List Node) (c' : Cursor) : Prop :=
  ∀ n, depth ≤ n → (read rules n r c).result = some (ns, c')

theorem Gives.mono (h : r.Gives d c ns c') (hd : d ≤ d') :
    r.Gives d' c ns c' := fun n hn => h n (Nat.le_trans hd hn)

theorem exists_succ {n : Nat} (h : d + 1 ≤ n) :
    ∃ m, n = m + 1 ∧ d ≤ m := ⟨n - 1, by omega, by omega⟩

theorem gives_token (h : r.taken? t = some ns) :
    r.Gives 1 (.facing (t :: rest) last) ns (.facing rest t.stop) := by
  intro n hn
  obtain ⟨n, rfl, hd⟩ := exists_succ hn
  have htake : ((Cursor.facing (t :: rest) last).take fun t => r.taken? t).result =
      some (ns, .facing rest t.stop) := by
    simp only [Cursor.take, Cursor.facing, h, List.length_cons, Nat.add_sub_cancel]
  cases r with
  | mark | keyword | leaf | word | layout => exact htake
  | _ => cases h

theorem gives_nothing (c : Cursor) : (nothing : Rule Phrase).Gives 1 c [] c := by
  intro n hn
  obtain ⟨n, rfl, hd⟩ := exists_succ hn
  rfl

theorem Gives.andThen (h : r.Gives d c ns c') (h' : s.Gives d' c' ms c'') (hks : ns ++ ms = ks) :
    (r.andThen s).Gives (max d d' + 1) c ks c'' := by
  intro n hn
  obtain ⟨n, rfl, hd⟩ := exists_succ hn
  simp only [read, h n (by omega), h' n (by omega), hks]

theorem Gives.first (h : r.Gives d c ns c') (s : Rule Phrase) :
    (r.orElse s).Gives (d + 1) c ns c' := by
  intro n hn
  obtain ⟨n, rfl, hd⟩ := exists_succ hn
  simp only [read, h n hd]

theorem Gives.second (h : s.Gives d c ns c') (hr : r.Refuses c) :
    (r.orElse s).Gives (d + 1) c ns c' := by
  intro n hn
  obtain ⟨n, rfl, hd⟩ := exists_succ hn
  simp only [read, hr n, Reading.noting, h n hd]

theorem Gives.node {k : Kind} (h : r.Gives d c ns c') (hks : Node.wrap k c'.last ns = ks) :
    (r.node k).Gives (d + 1) c ks c' := by
  intro n hn
  obtain ⟨n, rfl, hd⟩ := exists_succ hn
  simp only [read, h n hd, hks]

theorem Gives.rule {p : Phrase} (h : (rules p).Gives d c ns c') :
    (rule p).Gives (d + 1) c ns c' := by
  intro n hn
  obtain ⟨n, rfl, hd⟩ := exists_succ hn
  exact h n hd

/-- Of a choice, what is read after all before it have refused. -/
theorem Gives.oneOf {rs : List (Rule Phrase)} (i : Nat) (hr : rs[i]? = some r)
    (h : r.Gives d c ns c') (hrs : ∀ s ∈ rs.take i, s.Refuses c) :
    (Rule.oneOf rs).Gives (d + i + 1) c ns c' := by
  induction rs generalizing i with
  | nil => cases hr
  | cons first rs ih =>
    cases i with
    | zero =>
      cases hr
      cases rs with
      | nil => exact h.mono (Nat.le_succ d)
      | cons second rs => exact h.first _
    | succ i =>
      rw [List.getElem?_cons_succ] at hr
      rw [List.take_succ_cons] at hrs
      have hrest := ih i hr fun s hs => hrs s (List.mem_cons_of_mem _ hs)
      cases rs with
      | nil => cases hr
      | cons second rs => exact hrest.second (hrs _ List.mem_cons_self)

/-- Of a choice, what is read after all before it have declined the next token. -/
theorem Gives.choice {rs : List (Rule Phrase)} (i : Nat) (hr : rs[i]? = some r)
    (h : r.Gives d (.facing (t :: rest) last) ns c') (hk : t.kind = k)
    (hrs : (rs.take i).all (declines k) = true) :
    (Rule.oneOf rs).Gives (d + i + 1) (.facing (t :: rest) last) ns c' :=
  h.oneOf i hr fun _ hs => refuses_of_declines hk (List.all_eq_true.1 hrs _ hs)

theorem gives_optional_nil (h : r.Refuses c) :
    (optional r).Gives 2 c [] c := (gives_nothing c).second h

theorem gives_many_nil (h : r.Refuses c) : (many r).Gives 1 c [] c := by
  intro n hn
  obtain ⟨n, rfl, hd⟩ := exists_succ hn
  simp only [read, readMany, h n]

theorem Gives.many_one (h : r.Gives d c ns c') (hlt : c'.count < c.count) (hr : r.Refuses c') :
    (many r).Gives (d + 1) c ns c' := by
  intro n hn
  obtain ⟨n, rfl, hd⟩ := exists_succ hn
  obtain ⟨count, hcount⟩ := Nat.exists_eq_add_one_of_ne_zero (Nat.ne_zero_of_lt hlt)
  simp only [read, readMany, h n hd, if_pos hlt]
  rw [hcount]
  simp only [readMany, hr n, List.append_nil]

/-! ## Tails -/

/-- No tail goes on here. -/
def Ends (tails : List (Kind × Rule Phrase)) (c : Cursor) : Prop := ∀ t ∈ tails, t.2.Refuses c

theorem firstTail_of_ends (h : Ends tails c) (n : Nat) :
    (firstTail (read rules n) c tails).1 = none := by
  induction tails with
  | nil => rfl
  | cons t tails ih =>
    obtain ⟨k, r⟩ := t
    have hr : (read rules n r c).result = none := h _ List.mem_cons_self n
    simp only [firstTail, hr]
    exact ih fun t ht => h t (List.mem_cons_of_mem _ ht)

theorem readTails_of_ends (h : Ends tails c) (n m : Nat) (ns : List Node) :
    (readTails (read rules n) tails m ns c).result = some (ns, c) := by
  cases m with
  | zero => rfl
  | succ m =>
    have hfirst := firstTail_of_ends h n
    unfold readTails
    split
    · rfl
    · rename_i hsome
      rw [hsome] at hfirst
      cases hfirst

/-- The first tail that goes on is taken, and then as many as go on behind it. -/
theorem readTails_first {k : Kind} {n : Nat} (h : (read rules n r c).result = some (ms, c'))
    (hlt : c'.count < c.count) (m : Nat) (ns : List Node) :
    (readTails (read rules n) ((k, r) :: tails) (m + 1) ns c).result =
      (readTails (read rules n) ((k, r) :: tails) m
        (Node.wrap k c'.last (ns ++ ms)) c').result := by
  rw [readTails, firstTail, h]
  simp only [if_pos hlt, Reading.noting]

theorem Gives.grow_tails (h : base.Gives d c ns c')
    (htails : ∀ n, d' ≤ n → (readTails (read rules n) tails (c'.count + 1) ns c').result =
      some (ms, c'')) : (grow base tails).Gives (max d d' + 1) c ms c'' := by
  intro n hn
  obtain ⟨n, rfl, hd⟩ := exists_succ hn
  simp only [read, h n (by omega), Reading.noting]
  exact htails n (by omega)

theorem Gives.grow_ends (h : base.Gives d c ns c') (hends : Ends tails c') :
    (grow base tails).Gives (d + 1) c ns c' :=
  .mono (h.grow_tails fun n (_ : 0 ≤ n) => readTails_of_ends hends n _ ns) (by omega)

theorem Gives.extend_ends (h : base.Gives d c ns c') (hends : Ends tails c') :
    (extend base tails).Gives (d + 1) c ns c' := by
  intro n hn
  obtain ⟨n, rfl, hd⟩ := exists_succ hn
  simp only [read, h n hd, Reading.noting]
  exact readTails_of_ends hends n _ ns

/-- Tails end in front of a token that all of them decline. -/
theorem ends_of_declines (hk : t.kind = k) (h : (tails.all fun tail => tail.2.declines k) = true) :
    Ends tails (.facing (t :: rest) last) :=
  fun _ htail => refuses_of_declines hk (List.all_eq_true.1 h _ htail)

end Rule

end AsyncSpread.Python
