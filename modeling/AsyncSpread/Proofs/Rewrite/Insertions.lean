import Mathlib.Algebra.GroupWithZero.Nat
import AsyncSpread.Rewrite.Edit

/-!
What insertions make of a text.

Sorting puts the insertions before any place of the text in front of those at it or behind it, so
the text from that place on is found behind all the former (`Edit.exists_apply_eq`), at its landing.
-/

namespace AsyncSpread

namespace Text

theorem takeBytes_append {n : Nat} {cs ds : List Char} (h : n ≤ byteLength cs) :
    takeBytes n (cs ++ ds) = takeBytes n cs := by
  induction cs generalizing n with
  | nil =>
    have hn : n = 0 := Nat.le_zero.1 h
    rw [hn, List.nil_append, takeBytes_zero]
    rfl
  | cons c cs ih =>
    rw [byteLength_cons] at h
    rw [List.cons_append, takeBytes, takeBytes]
    split
    · rfl
    · rw [ih (by omega)]

theorem dropBytes_append {n : Nat} {cs ds : List Char} (h : n ≤ byteLength cs) :
    dropBytes n (cs ++ ds) = dropBytes n cs ++ ds := by
  induction cs generalizing n with
  | nil =>
    have hn : n = 0 := Nat.le_zero.1 h
    rw [hn, List.nil_append, dropBytes_zero]
    rfl
  | cons c cs ih =>
    rw [byteLength_cons] at h
    rw [List.cons_append, dropBytes, dropBytes]
    split
    · rfl
    · rw [ih (by omega)]

theorem takeBytes_byteLength_add (n : Nat) (cs ds : List Char) :
    takeBytes (byteLength cs + n) (cs ++ ds) = cs ++ takeBytes n ds := by
  induction cs with
  | nil => simp
  | cons c cs ih =>
    have hc := utf8Size_ne_zero c
    have hn : c.utf8Size + byteLength cs + n - c.utf8Size = byteLength cs + n := by omega
    rw [byteLength_cons, List.cons_append, takeBytes, if_neg (by omega), hn, ih, List.cons_append]

theorem dropBytes_byteLength_add (n : Nat) (cs ds : List Char) :
    dropBytes (byteLength cs + n) (cs ++ ds) = dropBytes n ds := by
  induction cs with
  | nil => simp
  | cons c cs ih =>
    have hc := utf8Size_ne_zero c
    have hn : c.utf8Size + byteLength cs + n - c.utf8Size = byteLength cs + n := by omega
    rw [byteLength_cons, List.cons_append, dropBytes, if_neg (by omega), hn, ih]

end Text

theorem mem_sortStable {α : Type} {precedes : α → α → Bool} {l : List α} {a : α} :
    a ∈ sortStable precedes l ↔ a ∈ l := (sortStable_perm precedes l).mem_iff

/-- Sorting respects the order, if that is an order of keys. -/
theorem pairwise_sortStable {α : Type} {precedes : α → α → Bool}
    (hasymm : ∀ a b, precedes a b = true → precedes b a = false)
    (htrans : ∀ a b c, precedes b a = false → precedes c b = false → precedes c a = false)
    (l : List α) : (sortStable precedes l).Pairwise fun a b => precedes b a = false := by
  have hinsert (a : α) {l : List α} (h : l.Pairwise fun a b => precedes b a = false) :
      (insertSorted precedes a l).Pairwise fun a b => precedes b a = false := by
    induction h with
    | nil => exact List.pairwise_singleton _ _
    | @cons b l hb hl ih =>
      unfold insertSorted
      split
      · rename_i hba
        refine .cons (fun x hx => ?_) ih
        rcases List.mem_cons.1 ((insertSorted_perm precedes a l).mem_iff.1 hx) with rfl | hx
        · exact hasymm _ _ hba
        · exact hb x hx
      · rename_i hba
        rw [Bool.not_eq_true] at hba
        refine .cons (fun x hx => ?_) (.cons hb hl)
        rcases List.mem_cons.1 hx with rfl | hx
        · exact hba
        · exact htrans _ _ _ hba (hb x hx)
  induction l with
  | nil => exact .nil
  | cons a l ih => exact hinsert a ih

namespace Rewrite

namespace Edit

/-- One insertion is written before another by offset, then by kind, then by depth. -/
theorem precedes_iff {a b : Edit} :
    precedes a b = true ↔ a.offset < b.offset ∨ a.offset = b.offset ∧
    (a.kind.rank < b.kind.rank ∨ a.kind.rank = b.kind.rank ∧ a.level < b.level) := by
  simp [precedes]

theorem precedes_asymm {a b : Edit} (h : precedes a b = true) : precedes b a = false := by
  rw [Bool.eq_false_iff]
  intro h'
  rw [precedes_iff] at h h'
  omega

theorem precedes_trans {a b c : Edit} (h : precedes b a = false) (h' : precedes c b = false) :
    precedes c a = false := by
  rw [Bool.eq_false_iff, ne_eq, precedes_iff] at h h' ⊢
  omega

/-- Whether an insertion is written before all of one kind at an offset. -/
def isBefore (offset : Nat) (kind : EditKind) (e : Edit) : Bool :=
  e.offset < offset || (e.offset == offset && e.kind.rank < kind.rank)

theorem isBefore_iff {offset : Nat} {kind : EditKind} {e : Edit} : isBefore offset kind e = true ↔
    e.offset < offset ∨ e.offset = offset ∧ e.kind.rank < kind.rank := by
  simp [isBefore]

/-- Where the text from an offset on is found after some insertions, if those of one kind at the
offset and those that are written behind them are counted to it. -/
def landing (edits : List Edit) (offset : Nat) (kind : EditKind) : Nat :=
  offset + ((edits.filter (isBefore offset kind)).map fun e => Text.byteLength e.text).sum

/-- A list of which a beginning passes a test is that beginning and the rest. -/
theorem filter_append_filter_not {α : Type} {p : α → Bool} {l : List α}
    (h : l.Pairwise fun a b => p b = true → p a = true) :
    l.filter p ++ l.filter (fun a => !p a) = l := by
  induction h with
  | nil => rfl
  | @cons a l ha hl ih =>
    by_cases hp : p a = true
    · rw [List.filter_cons_of_pos hp, List.filter_cons_of_neg (by simpa using hp),
        List.cons_append, ih]
    · have hnone : l.filter p = [] := by
        rw [List.filter_eq_nil_iff]
        exact fun b hb hpb => hp (ha b hb hpb)
      rw [hnone, List.nil_append] at ih
      rw [List.filter_cons_of_neg hp, hnone, List.nil_append,
        List.filter_cons_of_pos (by simpa using hp), ih]

theorem insertAll_append {before : List Char} (after : List Char) {at_ : Nat} {es : List Edit}
    (h : ∀ e ∈ es, at_ + Text.byteLength before ≤ e.offset) :
    insertAll (before ++ after) at_ es = before ++ insertAll after
      (at_ + Text.byteLength before) es := by
  cases es with
  | nil => rfl
  | cons e es =>
    -- The first insertion takes the text before it with it.
    have he := h e List.mem_cons_self
    have hsplit : e.offset - at_ = Text.byteLength before +
      (e.offset - (at_ + Text.byteLength before)) := by omega
    rw [insertAll, insertAll, hsplit, Text.takeBytes_byteLength_add, Text.dropBytes_byteLength_add,
      Text.byteLength_append]
    simp only [List.append_assoc, Nat.add_assoc]

theorem insertAll_cons_of_eq {source : List Char} {e : Edit} {at_ : Nat} (h : e.offset = at_)
    (es : List Edit) : insertAll source at_ (e :: es) = e.text ++ insertAll source at_ es := by
  rw [insertAll, h, Nat.sub_self, Text.takeBytes_zero, Text.dropBytes_zero, Text.byteLength_nil,
    Nat.add_zero, List.nil_append]

/-- The insertions up to a place are written before the text from there on. -/
theorem exists_insertAll_append (before after : List Char) (at_ : Nat) (es fs : List Edit)
    (hes : ∀ e ∈ es, e.offset ≤ at_ + Text.byteLength before)
    (hfs : ∀ e ∈ fs, at_ + Text.byteLength before ≤ e.offset) :
    ∃ front, insertAll (before ++ after) at_ (es ++ fs) =
        front ++ insertAll after (at_ + Text.byteLength before) fs ∧
      Text.byteLength front = Text.byteLength before +
        (es.map fun e => Text.byteLength e.text).sum := by
  induction es generalizing before at_ with
  | nil => exact ⟨before, insertAll_append after hfs, by simp⟩
  | cons e es ih =>
    have he := hes e List.mem_cons_self
    have hlen := Text.takeBytes_append_dropBytes (e.offset - at_) before
    have hbytes := congrArg Text.byteLength hlen
    rw [Text.byteLength_append] at hbytes
    have hle : e.offset - at_ ≤ Text.byteLength before := by omega
    obtain ⟨front, hfront, hl⟩ := ih (Text.dropBytes (e.offset - at_) before)
      (at_ + Text.byteLength (Text.takeBytes (e.offset - at_) before))
      (fun x hx => by have := hes x (List.mem_cons_of_mem _ hx); omega)
        (fun x hx => by have := hfs x hx; omega)
    refine ⟨Text.takeBytes (e.offset - at_) before ++ e.text ++ front, ?_, ?_⟩
    · rw [List.cons_append, insertAll, Text.takeBytes_append hle, Text.dropBytes_append hle, hfront]
      simp only [List.append_assoc]
      rw [Nat.add_assoc, hbytes]
    · simp only [Text.byteLength_append, List.map_cons, List.sum_cons]
      omega

/-- After some insertions the text from an offset on is found at its landing, with the insertions
that are counted to it. -/
theorem exists_apply_eq (before after : List Char) (edits : List Edit) (kind : EditKind) :
    ∃ front, Edit.apply (before ++ after) edits = front ++ insertAll after (Text.byteLength before)
        ((sortStable precedes edits).filter fun e => !isBefore (Text.byteLength before) kind e) ∧
      Text.byteLength front = landing edits (Text.byteLength before) kind := by
  have hsorted : (sortStable precedes edits).Pairwise fun a b => precedes b a = false :=
    @pairwise_sortStable Edit precedes (fun _ _ => precedes_asymm)
      (fun _ _ _ => precedes_trans) edits
  have hcut : (sortStable precedes edits).Pairwise fun a b =>
      isBefore (Text.byteLength before) kind b = true →
          isBefore (Text.byteLength before) kind a = true := by
    refine hsorted.imp fun hab hb => ?_
    rw [Bool.eq_false_iff, ne_eq, precedes_iff] at hab
    rw [isBefore_iff] at hb ⊢
    omega
  obtain ⟨front, hfront, hl⟩ := exists_insertAll_append before after 0
    ((sortStable precedes edits).filter (isBefore (Text.byteLength before) kind))
    ((sortStable precedes edits).filter fun e => !isBefore (Text.byteLength before) kind e)
    (fun e he => by
      have := isBefore_iff.1 (List.mem_filter.1 he).2
      omega)
    (fun e he => by
      have hn := (List.mem_filter.1 he).2
      rw [Bool.not_eq_true', Bool.eq_false_iff, ne_eq, isBefore_iff] at hn
      omega)
  rw [filter_append_filter_not hcut, Nat.zero_add] at hfront
  refine ⟨front, hfront, ?_⟩
  rw [hl, landing]
  have hperm := ((sortStable_perm precedes edits).filter
    (isBefore (Text.byteLength before) kind)).map fun e => Text.byteLength e.text
  rw [hperm.sum_nat]

end Edit

end Rewrite

end AsyncSpread
