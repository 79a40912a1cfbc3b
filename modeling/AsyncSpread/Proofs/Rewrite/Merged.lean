import Mathlib.Data.List.MinMax
import AsyncSpread.Proofs.Rewrite.Ordered
import AsyncSpread.Proofs.Rewrite.Written

/-!
A text with its insertions is a merge.

`merged` goes through a text once and writes, at every offset between two characters, the insertions
of that offset: kind after kind, in each kind depth after depth, and what is of one kind and depth
in the order of the list.  Sorting and cutting come to the same (`Edit.apply_merges`).  The sort is
stable, so it is the row of these groups (`sortStable_eq_groups`): a list that is in the order of a
key is the row of its parts by that key (`flatMap_filter_eq`), first by the offset, then by the
kind, then by the depth.
-/

namespace AsyncSpread

/-! ## Stable sorting -/

section

variable {α ι : Type}

theorem filter_insertSorted {precedes : α → α → Bool} {p : α → Bool} {a : α} {l : List α}
    (h : p a = true → ∀ b ∈ l, p b = true → precedes b a = false) :
    (insertSorted precedes a l).filter p = (a :: l).filter p := by
  induction l with
  | nil => rfl
  | cons b l ih =>
    have hrest := ih fun ha x hx => h ha x (List.mem_cons_of_mem _ hx)
    unfold insertSorted
    by_cases hba : precedes b a = true
    · rw [if_pos hba]
      by_cases hb : p b = true
      · -- What has to come before `a` is in another group than `a`.
        have ha : ¬ p a = true := fun ha => by
          rw [h ha b List.mem_cons_self hb] at hba
          cases hba
        rw [List.filter_cons_of_pos hb, hrest, List.filter_cons_of_neg ha,
          List.filter_cons_of_neg ha, List.filter_cons_of_pos hb]
      · rw [List.filter_cons_of_neg hb, hrest, List.filter_cons, List.filter_cons,
          List.filter_cons_of_neg hb]
    · rw [if_neg hba]

/-- Elements of which none precedes another keep their order. -/
theorem filter_sortStable {precedes : α → α → Bool} {p : α → Bool} {l : List α}
    (h : ∀ a ∈ l, ∀ b ∈ l, p a = true → p b = true → precedes b a = false) :
    (sortStable precedes l).filter p = l.filter p := by
  induction l with
  | nil => rfl
  | cons a l ih =>
    have hrest := ih fun x hx y hy => h x (List.mem_cons_of_mem _ hx) y (List.mem_cons_of_mem _ hy)
    have hfirst : (insertSorted precedes a (sortStable precedes l)).filter p =
        (a :: sortStable precedes l).filter p :=
      filter_insertSorted fun ha b hb hpb =>
        h a List.mem_cons_self b (List.mem_cons_of_mem _ (mem_sortStable.1 hb)) ha hpb
    show (insertSorted precedes a (sortStable precedes l)).filter p = _
    rw [hfirst, List.filter_cons, List.filter_cons, hrest]

/-- A list in the order of a key is the row of its parts, one for each value of the key. -/
theorem flatMap_filter_eq [DecidableEq ι] {before : ι → ι → Prop} (key : α → ι) {ks : List ι}
    (hks : ks.Pairwise before) (hirrefl : ∀ k, ¬ before k k) {l : List α}
    (hl : l.Pairwise fun a b => ¬ before (key b) (key a)) (hkeys : ∀ a ∈ l, key a ∈ ks) :
    (ks.flatMap fun k => l.filter fun a => key a = k) = l := by
  induction hks generalizing l with
  | nil =>
    cases l with
    | nil => rfl
    | cons a l => cases hkeys a List.mem_cons_self
  | @cons k ks hfirst _ ih =>
    have hcut : l.filter (fun a => key a = k) ++ l.filter (fun a => !decide (key a = k)) = l := by
      refine Rewrite.Edit.filter_append_filter_not (hl.imp_of_mem fun {a b} ha _ hab hb => ?_)
      rw [decide_eq_true_eq] at hb ⊢
      rw [hb] at hab
      exact (List.mem_cons.1 (hkeys a ha)).resolve_right fun hlater => hab (hfirst _ hlater)
    have hrest := ih (hl.filter fun a => !decide (key a = k)) fun a ha => by
      have hne : key a ≠ k := by simpa using (List.mem_filter.1 ha).2
      exact (List.mem_cons.1 (hkeys a (List.mem_filter.1 ha).1)).resolve_left hne
    have hparts : (ks.flatMap fun k' => (l.filter fun a => !decide (key a = k)).filter fun a =>
        key a = k') = ks.flatMap fun k' => l.filter fun a => key a = k' := by
      refine List.flatMap_congr fun k' hk' => ?_
      rw [List.filter_filter]
      refine List.filter_congr fun a _ => ?_
      have hne : k' ≠ k := by
        rintro rfl
        exact hirrefl _ (hfirst _ hk')
      by_cases ha : key a = k'
      · simp [ha, hne]
      · simp [ha]
    rw [List.flatMap_cons, ← hparts, hrest, hcut]

end

namespace Text

/-- The offsets between the characters of a text that stands at an offset, its end included. -/
def offsetsFrom : Nat → List Char → List Nat
  | at_, [] => [at_]
  | at_, c :: cs => at_ :: offsetsFrom (at_ + c.utf8Size) cs

theorem le_of_mem_offsetsFrom {at_ offset : Nat} {cs : List Char}
    (h : offset ∈ offsetsFrom at_ cs) : at_ ≤ offset := by
  induction cs generalizing at_ with
  | nil => exact Nat.le_of_eq (List.mem_singleton.1 h).symm
  | cons c cs ih =>
    rcases List.mem_cons.1 h with rfl | h
    · exact Nat.le_refl _
    · have := ih h
      omega

theorem pairwise_offsetsFrom (at_ : Nat) (cs : List Char) :
    (offsetsFrom at_ cs).Pairwise (· < ·) := by
  induction cs generalizing at_ with
  | nil => exact List.pairwise_singleton _ _
  | cons c cs ih =>
    refine .cons (fun offset h => ?_) (ih _)
    have hle := le_of_mem_offsetsFrom h
    have hc := Char.utf8Size_pos c
    omega

theorem mem_offsetsFrom (at_ : Nat) (before after : List Char) :
    at_ + byteLength before ∈ offsetsFrom at_ (before ++ after) := by
  induction before generalizing at_ with
  | nil =>
    cases after with
    | nil => exact List.mem_singleton_self _
    | cons c cs => exact List.mem_cons_self
  | cons c cs ih =>
    have hmem := ih (at_ + c.utf8Size)
    rw [Nat.add_assoc] at hmem
    exact List.mem_cons_of_mem _ hmem

/-- The offsets of a text are those between two of its characters. -/
theorem Boundary.mem_offsetsFrom {source : List Char} {offset : Nat} (h : Boundary source offset) :
    offset ∈ offsetsFrom 0 source := by
  obtain ⟨before, after, rfl, rfl⟩ := h
  have hmem := Text.mem_offsetsFrom 0 before after
  rwa [Nat.zero_add] at hmem

end Text

namespace Rewrite

namespace EditKind

/-- The kinds of insertions in the order in which they are written at one offset. -/
def all : List EditKind := [.close, .importLine, .decorator, .async, .await]

theorem mem_all (k : EditKind) : k ∈ all := by cases k <;> decide

theorem rank_injective {k k' : EditKind} (h : k.rank = k'.rank) : k = k' := by
  cases k <;> cases k' <;> first | rfl | cases h

end EditKind

namespace Edit

/-- The depths up to the greatest depth of some insertions, in the order in which insertions of a
kind are written: what opens goes from the outer nodes to the inner ones, what closes from the inner
ones to the outer ones. -/
def depths (es : List Edit) (kind : EditKind) : List Nat :=
  let upward := List.range ((es.map depth).foldr max 0 + 1)
  if kind = .close then upward.reverse else upward

/-- The insertions at an offset in the order of writing. -/
def rowAt (es : List Edit) (offset : Nat) : List Edit :=
  EditKind.all.flatMap fun kind => (depths es kind).flatMap fun depth =>
    es.filter fun e => e.offset = offset ∧ e.kind = kind ∧ e.depth = depth

/-- A text that stands at an offset, with the insertions of every offset put where it is. -/
def merged (es : List Edit) : Nat → List Char → List Char
  | at_, [] => (rowAt es at_).flatMap text
  | at_, c :: cs => (rowAt es at_).flatMap text ++ c :: merged es (at_ + c.utf8Size) cs

variable {source : List Char} {es : List Edit}

theorem offset_of_mem_rowAt {e : Edit} {offset : Nat} (h : e ∈ rowAt es offset) :
    e.offset = offset := by
  obtain ⟨kind, -, h⟩ := List.mem_flatMap.1 h
  obtain ⟨depth, -, h⟩ := List.mem_flatMap.1 h
  exact (of_decide_eq_true (List.mem_filter.1 h).2).1

/-- Writing the insertions offset by offset merges them with the text. -/
theorem insertAll_rows (es : List Edit) (at_ : Nat) (cs : List Char) :
    insertAll cs at_ ((Text.offsetsFrom at_ cs).flatMap (rowAt es)) = merged es at_ cs := by
  induction cs generalizing at_ with
  | nil =>
    have hhere : insertAll [] at_ (rowAt es at_ ++ []) =
        (rowAt es at_).flatMap text ++ insertAll [] at_ [] :=
      insertAll_here fun e he => offset_of_mem_rowAt he
    rw [Text.offsetsFrom, List.flatMap_singleton, merged, ← List.append_nil (rowAt es at_), hhere,
      List.append_nil]
    exact List.append_nil _
  | cons c cs ih =>
    have hlater : ∀ e ∈ (Text.offsetsFrom (at_ + c.utf8Size) cs).flatMap (rowAt es),
        at_ + Text.byteLength [c] ≤ e.offset := by
      intro e he
      obtain ⟨offset, hoffset, he⟩ := List.mem_flatMap.1 he
      rw [offset_of_mem_rowAt he]
      exact Text.le_of_mem_offsetsFrom hoffset
    rw [Text.offsetsFrom, List.flatMap_cons, insertAll_here fun e he =>
      offset_of_mem_rowAt he, merged]
    have hcopied : insertAll (c :: cs) at_
        ((Text.offsetsFrom (at_ + c.utf8Size) cs).flatMap (rowAt es)) =
        c :: insertAll cs (at_ + c.utf8Size)
          ((Text.offsetsFrom (at_ + c.utf8Size) cs).flatMap (rowAt es)) :=
      @insertAll_append [c] cs _ _ hlater
    rw [hcopied, ih]

theorem mem_depths {e : Edit} (he : e ∈ es) (kind : EditKind) : e.depth ∈ depths es kind := by
  have hle : e.depth ≤ (es.map depth).foldr max 0 :=
    List.le_max_of_le' 0 (List.mem_map_of_mem he) (Nat.le_refl _)
  have hmem : e.depth ∈ List.range ((es.map depth).foldr max 0 + 1) :=
    List.mem_range.2 (Nat.lt_succ_of_le hle)
  unfold depths
  extract_lets upward
  split
  · exact List.mem_reverse.2 hmem
  · exact hmem

/-- Whether depths are in the order in which insertions of a kind are written. -/
def DepthBefore (kind : EditKind) (d d' : Nat) : Prop := if kind = .close then d' < d else d < d'

theorem not_depthBefore_self (kind : EditKind) (d : Nat) : ¬ DepthBefore kind d d := by
  unfold DepthBefore
  split <;> exact Nat.lt_irrefl d

theorem pairwise_depths (es : List Edit) (kind : EditKind) :
    (depths es kind).Pairwise (DepthBefore kind) := by
  unfold depths DepthBefore
  extract_lets upward
  have hupward : upward.Pairwise (· < ·) := List.pairwise_lt_range
  split
  · exact List.pairwise_reverse.2 hupward
  · exact hupward

theorem level_lt_iff {a b : Edit} (ha : a.depth < depthLimit) (hb : b.depth < depthLimit)
    (hkind : a.kind = b.kind) : a.level < b.level ↔ DepthBefore a.kind a.depth b.depth := by
  rw [DeepAs.level_eq ⟨Nat.zero_le _, ha⟩, DeepAs.level_eq ⟨Nat.zero_le _, hb⟩, DepthBefore, hkind]
  split
  · omega
  · omega

/-- Sorted insertions are the rows of the offsets, one behind the other. -/
theorem sortStable_eq_groups (hbetween : ∀ e ∈ es, Text.Boundary source e.offset)
    (hdepth : ∀ e ∈ es, e.depth < depthLimit) :
    sortStable precedes es = (Text.offsetsFrom 0 source).flatMap (rowAt es) := by
  have hsorted : (sortStable precedes es).Pairwise fun a b => precedes b a = false :=
    @pairwise_sortStable Edit precedes (fun _ _ => precedes_asymm) (fun _ _ _ => precedes_trans) es
  have hmem {e : Edit} (he : e ∈ sortStable precedes es) : e ∈ es := mem_sortStable.1 he
  have hoffsets := flatMap_filter_eq offset (Text.pairwise_offsetsFrom 0 source) Nat.lt_irrefl
    (hsorted.imp fun {a b} h hlt => by rw [precedes_iff.2 (.inl hlt)] at h; cases h)
    fun e he => (hbetween e (hmem he)).mem_offsetsFrom
  rw [← hoffsets]
  refine List.flatMap_congr fun offset _ => ?_
  -- Of one offset the kinds come in order, and of one kind the depths.
  have hkinds : EditKind.all.Pairwise fun k k' => k.rank < k'.rank := by decide
  have hranks := flatMap_filter_eq kind hkinds (fun k => Nat.lt_irrefl k.rank)
    ((hsorted.filter fun e => decide (e.offset = offset)).imp_of_mem fun {a b} ha hb h hlt => by
      have ho : b.offset = a.offset :=
        (of_decide_eq_true (List.mem_filter.1 hb).2).trans
          (of_decide_eq_true (List.mem_filter.1 ha).2).symm
      rw [precedes_iff.2 (.inr ⟨ho, .inl hlt⟩)] at h
      cases h)
    fun e _ => EditKind.mem_all e.kind
  rw [← hranks, rowAt]
  refine List.flatMap_congr fun kind _ => ?_
  have hlevels := flatMap_filter_eq depth (pairwise_depths es kind) (not_depthBefore_self kind)
    (((hsorted.filter fun e => decide (e.offset = offset)).filter fun e =>
      decide (e.kind = kind)).imp_of_mem fun {a b} ha hb h hlt => by
        obtain ⟨ha, hka⟩ := List.mem_filter.1 ha
        obtain ⟨hb, hkb⟩ := List.mem_filter.1 hb
        obtain ⟨ha, hoa⟩ := List.mem_filter.1 ha
        obtain ⟨hb, hob⟩ := List.mem_filter.1 hb
        have ho : b.offset = a.offset := (of_decide_eq_true hob).trans (of_decide_eq_true hoa).symm
        have hk : b.kind = a.kind := (of_decide_eq_true hkb).trans (of_decide_eq_true hka).symm
        rw [← of_decide_eq_true hkb] at hlt
        have hlevel := (level_lt_iff (hdepth b (hmem hb)) (hdepth a (hmem ha)) hk).2 hlt
        rw [precedes_iff.2 (.inr ⟨ho, .inr ⟨congrArg EditKind.rank hk, hlevel⟩⟩)] at h
        cases h)
    fun e he => mem_depths (hmem (List.mem_filter.1 (List.mem_filter.1 he).1).1) kind
  rw [← hlevels]
  refine List.flatMap_congr fun depth _ => ?_
  rw [List.filter_filter, List.filter_filter]
  -- What agrees in all three keeps the order of the list.
  refine (List.filter_congr fun e _ => ?_).trans (filter_sortStable fun a ha b hb hpa hpb => ?_)
  · simp only [← Bool.decide_and]
    exact decide_eq_decide.2 ⟨fun ⟨⟨hd, hk⟩, ho⟩ => ⟨ho, hk, hd⟩,
      fun ⟨ho, hk, hd⟩ => ⟨⟨hd, hk⟩, ho⟩⟩
  · obtain ⟨hoa, hka, hda⟩ := of_decide_eq_true hpa
    obtain ⟨hob, hkb, hdb⟩ := of_decide_eq_true hpb
    have hlevel : ¬ b.level < a.level := fun hlt => by
      have hbefore := (level_lt_iff (hdepth b hb) (hdepth a ha) (hkb.trans hka.symm)).1 hlt
      rw [hda, hdb] at hbefore
      exact not_depthBefore_self _ _ hbefore
    rw [Bool.eq_false_iff, ne_eq, precedes_iff, hoa, hob, hka, hkb]
    omega

/-- Insertions of which no two agree in offset, kind and depth are sorted in one way only. -/
theorem sortStable_eq_of_perm {fs : List Edit} (hperm : fs.Perm es)
    (hdepth : ∀ e ∈ es, e.depth < depthLimit)
    (hdiffer : es.Pairwise fun a b => (a.offset, a.kind, a.depth) ≠ (b.offset, b.kind, b.depth)) :
    sortStable precedes fs = sortStable precedes es := by
  have hsorted (l : List Edit) : (sortStable precedes l).Pairwise fun a b => precedes b a = false :=
    @pairwise_sortStable Edit precedes (fun _ _ => precedes_asymm) (fun _ _ _ => precedes_trans) l
  have hall := (sortStable_perm precedes fs).trans (hperm.trans (sortStable_perm precedes es).symm)
  refine List.Perm.eq_of_pairwise (fun a b ha hb hba hab => ?_) (hsorted fs) (hsorted es) hall
  have ha' : a ∈ es := hperm.mem_iff.1 (mem_sortStable.1 ha)
  have hb' : b ∈ es := mem_sortStable.1 hb
  rw [Bool.eq_false_iff, ne_eq, precedes_iff] at hba hab
  by_contra hne
  -- Neither is written before the other, so they agree in everything that the order looks at.
  have hoffset : a.offset = b.offset := by omega
  have hkind : a.kind = b.kind := EditKind.rank_injective (by omega)
  have hab' : ¬ DepthBefore a.kind a.depth b.depth := fun h =>
    hab (.inr ⟨hoffset,
      .inr ⟨congrArg _ hkind, (level_lt_iff (hdepth a ha') (hdepth b hb') hkind).2 h⟩⟩)
  have hba' : ¬ DepthBefore b.kind b.depth a.depth := fun h =>
    hba (.inr ⟨hoffset.symm,
      .inr ⟨congrArg _ hkind.symm, (level_lt_iff (hdepth b hb') (hdepth a ha') hkind.symm).2 h⟩⟩)
  have hdepths : a.depth = b.depth := by
    rw [DepthBefore, hkind] at hab'
    rw [DepthBefore] at hba'
    split at hab' <;> rename_i hc
    · rw [if_pos hc] at hba'
      omega
    · rw [if_neg hc] at hba'
      omega
  have : Std.Symm fun a b : Edit => (a.offset, a.kind, a.depth) ≠ (b.offset, b.kind, b.depth) :=
    ⟨fun _ _ => Ne.symm⟩
  exact hdiffer.forall ha' hb' hne (by rw [hoffset, hkind, hdepths])

/-- Insertions between characters, at depths that can be counted, are merged with the text: at each
offset those of the offset are written, by kind, then by depth, then as they stand in the list.
Each insertion is written once, and the order of the list does not matter if no two of them agree in
offset, kind and depth. -/
theorem apply_merges (source : List Char) (es : List Edit)
    (hbetween : ∀ e ∈ es, Text.Boundary source e.offset)
    (hdepth : ∀ e ∈ es, e.depth < 0x8000000000000000) :
    apply source es = merged es 0 source ∧
      ((Text.offsetsFrom 0 source).flatMap (rowAt es)).Perm es ∧
      ∀ fs : List Edit, fs.Perm es →
        es.Pairwise (fun a b => (a.offset, a.kind, a.depth) ≠ (b.offset, b.kind, b.depth)) →
        apply source fs = apply source es := by
  have hgroups := sortStable_eq_groups hbetween hdepth
  refine ⟨?_, ?_, fun fs hperm hdiffer => ?_⟩
  · rw [apply, hgroups]
    exact insertAll_rows es 0 source
  · rw [← hgroups]
    exact sortStable_perm precedes es
  · rw [apply, apply, sortStable_eq_of_perm hperm hdepth hdiffer]

/-- A call of the result of a call, both awaited, behind a letter of two bytes. -/
def nestedAwaits : List Edit :=
  [⟨5, .await, 2, "(await ".toList⟩, ⟨8, .close, 2, ")".toList⟩,
      ⟨5, .await, 1, "await ".toList⟩]

theorem apply_merges_nestedAwaits :
    (∀ e ∈ nestedAwaits, Text.Boundary "é = f()()".toList e.offset) ∧
      (∀ e ∈ nestedAwaits, e.depth < 0x8000000000000000) ∧ nestedAwaits.reverse.Perm nestedAwaits ∧
      nestedAwaits.Pairwise (fun a b => (a.offset, a.kind, a.depth) ≠ (b.offset, b.kind, b.depth)) ∧
      apply "é = f()()".toList nestedAwaits.reverse = "é = await (await f())()".toList := by
  have hcall : Text.Boundary "é = f()()".toList 5 :=
    ⟨"é = ".toList, "f()()".toList, by decide, by decide⟩
  have hbehind : Text.Boundary "é = f()()".toList 8 :=
    ⟨"é = f()".toList, "()".toList, by decide, by decide⟩
  have hbetween : ∀ e ∈ nestedAwaits, Text.Boundary "é = f()()".toList e.offset :=
    List.forall_mem_cons.2 ⟨hcall,
      List.forall_mem_cons.2 ⟨hbehind, List.forall_mem_singleton.2 hcall⟩⟩
  have hdepth : ∀ e ∈ nestedAwaits, e.depth < 0x8000000000000000 := by decide
  have hperm : nestedAwaits.reverse.Perm nestedAwaits := List.reverse_perm _
  have hdiffer : nestedAwaits.Pairwise fun a b =>
    (a.offset, a.kind, a.depth) ≠ (b.offset, b.kind, b.depth) := by decide
  obtain ⟨hmerged, -, hsame⟩ := apply_merges "é = f()()".toList nestedAwaits hbetween hdepth
  refine ⟨hbetween, hdepth, hperm, hdiffer, ?_⟩
  rw [hsame _ hperm hdiffer, hmerged]
  decide

end Edit

end Rewrite

end AsyncSpread
