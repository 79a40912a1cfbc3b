import AsyncSpread.Python.Rule

/-!
Readings as derivations.

The reader goes down with a bound and keeps account of how far it looked.  What it reads can be
derived without either (`Rule.reads_of_read`), so that whatever is to hold of all trees is proved by
induction on the derivation.
-/

namespace AsyncSpread.Python

variable {σ : Type}

def Rule.taken? (t : Token) : Rule σ → Option (List Node)
  | .mark m => if t.kind = .mark m then some (t.leaf (.mark m)) else none
  | .keyword k => if t.kind = .keyword k then some (t.leaf (.keyword k)) else none
  | .leaf kind k => if t.kind = kind then some (t.leaf k) else none
  | .word except =>
    match t.kind with
    | .name => some (t.leaf .identifier)
    | .keyword k => if except.contains k then none else some (t.leaf .identifier)
    | _ => none
  | .layout kind => if t.kind = kind then some (t.before.map Trivia.node) else none
  | _ => none

/-- A rule reads nodes from one place to another. -/
inductive Reads (g : σ → Rule σ) : Rule σ → Cursor → List Node → Cursor → Prop
  | token {r : Rule σ} {t : Token} {rest : List Token} {count : Nat} {last : Pos} {ns : List Node}
      (h : r.taken? t = some ns) : Reads g r ⟨t :: rest, count, last⟩ ns ⟨rest, count - 1, t.stop⟩
  | nothing {c : Cursor} : Reads g .nothing c [] c
  | unless {ks : List TokenKind} {c : Cursor} (h : ∀ t ∈ c.ahead.head?, t.kind ∉ ks) :
      Reads g (.unless ks) c [] c
  | before {ks : List TokenKind} {c : Cursor} (h : ∃ t ∈ c.ahead.head?, t.kind ∈ ks) :
      Reads g (.before ks) c [] c
  | andThen {r s : Rule σ} {c c' c'' : Cursor} {ns ms : List Node} (h : Reads g r c ns c')
      (h' : Reads g s c' ms c'') : Reads g (.andThen r s) c (ns ++ ms) c''
  | first {r s : Rule σ} {c c' : Cursor} {ns : List Node} (h : Reads g r c ns c') :
      Reads g (.orElse r s) c ns c'
  | second {r s : Rule σ} {c c' : Cursor} {ns : List Node} (h : Reads g s c ns c') :
      Reads g (.orElse r s) c ns c'
  | done {r : Rule σ} {c : Cursor} : Reads g (.many r) c [] c
  | more {r : Rule σ} {c c' c'' : Cursor} {ns ms : List Node} (h : Reads g r c ns c')
      (h' : Reads g (.many r) c' ms c'') : Reads g (.many r) c (ns ++ ms) c''
  | node {k : Kind} {r : Rule σ} {c c' : Cursor} {ns : List Node} (h : Reads g r c ns c') :
      Reads g (.node k r) c (Node.wrap k c'.last ns) c'
  | growBase {base : Rule σ} {tails : List (Kind × Rule σ)} {c c' : Cursor} {ns : List Node}
      (h : Reads g base c ns c') : Reads g (.grow base tails) c ns c'
  | growTail {base r : Rule σ} {tails : List (Kind × Rule σ)} {k : Kind} {c c' c'' : Cursor}
      {ns ms : List Node}
      (hr : (k, r) ∈ tails) (h : Reads g (.grow base tails) c ns c') (h' : Reads g r c' ms c'') :
      Reads g (.grow base tails) c (Node.wrap k c''.last (ns ++ ms)) c''
  | extendBase {base : Rule σ} {tails : List (Kind × Rule σ)} {c c' : Cursor} {ns : List Node}
      (h : Reads g base c ns c') : Reads g (.extend base tails) c ns c'
  | extendTail {base r : Rule σ} {tails : List (Kind × Rule σ)} {k : Kind} {c c' c'' : Cursor}
      {ns ms : List Node}
      (hr : (k, r) ∈ tails) (h : Reads g base c ns c') (h' : Reads g r c' ms c'') :
      Reads g (.extend base tails) c (Node.wrap k c''.last (ns ++ ms)) c''
  | only {check : List Node → Bool} {r : Rule σ} {c c' : Cursor} {ns : List Node}
      (h : Reads g r c ns c') (hc : check ns = true) : Reads g (.only check r) c ns c'
  | rule {n : σ} {c c' : Cursor} {ns : List Node} (h : Reads g (g n) c ns c') :
      Reads g (.rule n) c ns c'

namespace Rule

variable {g : σ → Rule σ} {r : Rule σ} {c c' : Cursor} {ns : List Node}

theorem reads_of_take (h : (c.take fun t => r.taken? t).result = some (ns, c')) :
    Reads g r c ns c' := by
  obtain ⟨ahead, count, last⟩ := c
  cases ahead with
  | nil => cases h
  | cons t rest =>
    simp only [Cursor.take] at h
    cases ht : r.taken? t with
    | none =>
      rw [ht] at h
      cases h
    | some ms =>
      rw [ht] at h
      cases h
      exact .token ht

theorem reads_of_readMany {read : Cursor → Reading}
    (hread : ∀ c ns c', (read c).result = some (ns, c') → Reads g r c ns c') {n : Nat}
    (h : (readMany read n c).result = some (ns, c')) : Reads g (.many r) c ns c' := by
  induction n generalizing c ns c' with
  | zero =>
    cases h
    exact .done
  | succ n ih =>
    simp only [readMany] at h
    cases hone : (read c).result with
    | none =>
      rw [hone] at h
      cases h
      exact .done
    | some one =>
      obtain ⟨ms, d⟩ := one
      rw [hone] at h
      simp only at h
      split at h
      · cases hmore : (readMany read n d).result with
        | none =>
          rw [hmore] at h
          simp only [Reading.noting] at h
          rw [hmore] at h
          cases h
        | some more =>
          rw [hmore] at h
          cases h
          exact .more (hread _ _ _ hone) (ih hmore)
      · cases h
        exact .done

theorem of_firstTail {read : Rule σ → Cursor → Reading} {tails : List (Kind × Rule σ)} {k : Kind}
    {reach : Nat} (h : firstTail read c tails = (some (k, ns, c'), reach)) :
    ∃ r, (k, r) ∈ tails ∧ (read r c).result = some (ns, c') := by
  induction tails generalizing reach with
  | nil => cases h
  | cons tail tails ih =>
    obtain ⟨k', r⟩ := tail
    simp only [firstTail] at h
    split at h
    · rename_i hr
      cases h
      exact ⟨r, List.mem_cons_self, hr⟩
    · rcases hf : firstTail read c tails with ⟨found, reach'⟩
      rw [hf] at h
      cases h
      obtain ⟨s, hs, h⟩ := ih hf
      exact ⟨s, List.mem_cons_of_mem _ hs, h⟩

theorem reads_of_readTails {read : Rule σ → Cursor → Reading} {base : Rule σ}
    {tails : List (Kind × Rule σ)}
    (hread : ∀ r c ns c', (read r c).result = some (ns, c') → Reads g r c ns c') {n : Nat}
    {d : Cursor} {ms : List Node} (hbase : Reads g (.grow base tails) d ms c)
    (h : (readTails read tails n ms c).result = some (ns, c')) :
    Reads g (.grow base tails) d ns c' := by
  induction n generalizing c ms with
  | zero =>
    cases h
    exact hbase
  | succ n ih =>
    simp only [readTails] at h
    split at h
    · cases h
      exact hbase
    · rename_i hf
      obtain ⟨s, hs, hone⟩ := of_firstTail hf
      split at h
      · exact ih (.growTail hs hbase (hread _ _ _ _ hone)) h
      · cases h
        exact hbase

theorem reads_of_readTail {read : Rule σ → Cursor → Reading} {base : Rule σ}
    {tails : List (Kind × Rule σ)}
    (hread : ∀ r c ns c', (read r c).result = some (ns, c') → Reads g r c ns c') {d : Cursor}
    {ms : List Node} (hbase : Reads g base d ms c)
    (h : (readTails read tails 1 ms c).result = some (ns, c')) :
    Reads g (.extend base tails) d ns c' := by
  simp only [readTails] at h
  split at h
  · cases h
    exact .extendBase hbase
  · rename_i hf
    obtain ⟨s, hs, hone⟩ := of_firstTail hf
    split at h
    · cases h
      exact .extendTail hs hbase (hread _ _ _ _ hone)
    · cases h
      exact .extendBase hbase

theorem reads_of_read {n : Nat} (h : (read g n r c).result = some (ns, c')) :
    Reads g r c ns c' := by
  induction n generalizing r c ns c' with
  | zero => cases h
  | succ n ih =>
    have hread : ∀ r c ns c', (read g n r c).result = some (ns, c') → Reads g r c ns c' :=
      fun _ _ _ _ h => ih h
    unfold read at h
    cases r with
    | mark m => exact reads_of_take h
    | keyword k => exact reads_of_take h
    | leaf kind k => exact reads_of_take h
    | word except => exact reads_of_take h
    | layout kind => exact reads_of_take h
    | nothing =>
      cases h
      exact .nothing
    | andThen r s =>
      simp only at h
      split at h
      · rename_i hone
        rw [hone] at h
        cases h
      · rename_i hone
        split at h
        · rename_i htwo
          simp only [Reading.noting] at h
          rw [htwo] at h
          cases h
        · rename_i htwo
          cases h
          exact .andThen (ih hone) (ih htwo)
    | orElse r s =>
      simp only at h
      split at h
      · exact .first (ih h)
      · exact .second (ih h)
    | many r => exact reads_of_readMany (hread r) h
    | node k r =>
      simp only at h
      split at h
      · rename_i hone
        rw [hone] at h
        cases h
      · rename_i hone
        cases h
        exact .node (ih hone)
    | grow base tails =>
      simp only at h
      split at h
      · rename_i hone
        rw [hone] at h
        cases h
      · rename_i hone
        exact reads_of_readTails hread (.growBase (ih hone)) h
    | extend base tails =>
      simp only at h
      split at h
      · rename_i hone
        rw [hone] at h
        cases h
      · rename_i hone
        exact reads_of_readTail hread (ih hone) h
    | only check r =>
      simp only at h
      split at h
      · rename_i hone
        rw [hone] at h
        cases h
      · rename_i hone
        split at h
        · rename_i hc
          rw [hone] at h
          cases h
          exact .only (ih hone) hc
        · cases h
    | «unless» ks =>
      simp only at h
      split at h
      · rename_i t rest ha
        split at h
        · cases h
        · rename_i hk
          cases h
          refine .unless fun u hu => ?_
          rw [ha] at hu
          cases hu
          simpa using hk
      · rename_i ha
        cases h
        refine .unless fun u hu => ?_
        rw [ha] at hu
        cases hu
    | before ks =>
      obtain ⟨ahead, count, last⟩ := c
      cases ahead with
      | nil => cases h
      | cons t rest =>
        simp only [Cursor.take, Reading.staying] at h
        by_cases hk : ks.contains t.kind
        · rw [if_pos hk] at h
          cases h
          exact .before ⟨t, rfl, by simpa using hk⟩
        · rw [if_neg hk] at h
          cases h
    | rule n => exact .rule (ih h)

end Rule

theorem Reads.suffix {g : σ → Rule σ} {r : Rule σ} {c c' : Cursor} {ns : List Node}
    (h : Reads g r c ns c') : c'.ahead <:+ c.ahead := by
  induction h with
  | token h => exact List.suffix_cons _ _
  | nothing | «unless» _ | before _ | done => exact List.suffix_refl _
  | andThen _ _ ih ih' | more _ _ ih ih' | growTail _ _ _ ih ih' | extendTail _ _ _ ih ih' =>
    exact ih'.trans ih
  | first _ ih | second _ ih | node _ ih | growBase _ ih | extendBase _ ih | only _ _ ih
  | rule _ ih => exact ih

end AsyncSpread.Python
