import AsyncSpread.Python.Token
import AsyncSpread.Text.Slice

/-!
Spans of a text.

A span goes from one place of a text to a later one.  Spans are laid out in a row when each begins
where the one before it ended, or later.  Both speak of places and not of bytes alone, so that rows
and columns come along.
-/

namespace AsyncSpread

namespace Text

theorem append_inj_byteLength {as bs cs ds : List Char} (h : as ++ bs = cs ++ ds)
    (hl : byteLength as = byteLength cs) : as = cs ∧ bs = ds := by
  have ht := takeBytes_byteLength_append as bs
  have hd := dropBytes_byteLength_append as bs
  rw [h, hl] at ht hd
  rw [takeBytes_byteLength_append] at ht
  rw [dropBytes_byteLength_append] at hd
  exact ⟨ht.symm, hd.symm⟩

/-- Of two beginnings of a text the shorter one begins the longer one. -/
theorem prefix_of_byteLength_le {as bs cs ds : List Char} (h : as ++ bs = cs ++ ds)
    (hl : byteLength as ≤ byteLength cs) : ∃ es, cs = as ++ es := by
  rcases List.append_eq_append_iff.1 h with ⟨es, rfl, -⟩ | ⟨es, rfl, -⟩
  · exact ⟨es, rfl⟩
  · have hz : byteLength es = 0 := by
      rw [byteLength_append] at hl
      omega
    cases es with
    | nil => exact ⟨[], by simp⟩
    | cons e es =>
      have := Char.utf8Size_pos e
      rw [byteLength_cons] at hz
      omega

end Text

namespace Python

theorem Pos.byte_past (p : Pos) (cs : List Char) :
    (p.past cs).byte = p.byte + Text.byteLength cs := by
  induction cs generalizing p with
  | nil => simp
  | cons c cs ih =>
    have hc : (p.next c).byte = p.byte + c.utf8Size := by
      unfold next
      split
      · rename_i h
        subst h
        rfl
      · rfl
    rw [past_cons, ih, hc, Text.byteLength_cons, Nat.add_assoc]

/-- The offset of a place is the length of the text before it. -/
theorem Pos.byte_past_start (cs : List Char) : (Pos.start.past cs).byte = Text.byteLength cs :=
  (byte_past .start cs).trans (Nat.zero_add _)

theorem Pos.row_le_next (p : Pos) (c : Char) : p.row ≤ (p.next c).row := by
  unfold next
  split <;> simp

theorem Pos.row_le_past (p : Pos) (cs : List Char) : p.row ≤ (p.past cs).row := by
  induction cs generalizing p with
  | nil => exact Nat.le_refl _
  | cons c cs ih => exact Nat.le_trans (p.row_le_next c) (ih _)

theorem Pos.row_past (p : Pos) (cs : List Char) : (p.past cs).row = p.row + cs.count '\n' := by
  induction cs generalizing p with
  | nil => rfl
  | cons c cs ih =>
    rw [past_cons, ih]
    unfold next
    split
    · rename_i hc
      rw [hc, List.count_cons_self, Nat.add_right_comm, Nat.add_assoc]
    · rename_i hc
      rw [List.count_cons_of_ne hc]

/-- A place of a text. -/
def Pos.In (source : List Char) (p : Pos) : Prop :=
  ∃ before after, source = before ++ after ∧ p = Pos.start.past before

def Span (source : List Char) (p q : Pos) : Prop :=
  ∃ before inside after, source = before ++ inside ++ after ∧ p = Pos.start.past before ∧
    q = Pos.start.past (before ++ inside)

namespace Span

variable {source : List Char} {p q r : Pos}

theorem refl (h : p.In source) : Span source p p := by
  obtain ⟨before, after, h, rfl⟩ := h
  exact ⟨before, [], after, by simpa using h, rfl, by rw [List.append_nil]⟩

theorem left_in (h : Span source p q) : p.In source := by
  obtain ⟨before, inside, after, h, rfl, rfl⟩ := h
  exact ⟨before, inside ++ after, by simpa using h, rfl⟩

theorem right_in (h : Span source p q) : q.In source := by
  obtain ⟨before, inside, after, h, rfl, rfl⟩ := h
  exact ⟨before ++ inside, after, h, rfl⟩

theorem byte_le (h : Span source p q) : p.byte ≤ q.byte := by
  obtain ⟨before, inside, after, h, rfl, rfl⟩ := h
  rw [Pos.past_append]
  exact Pos.byte_le_past _ _

theorem row_le (h : Span source p q) : p.row ≤ q.row := by
  obtain ⟨before, inside, after, h, rfl, rfl⟩ := h
  rw [Pos.past_append]
  exact Pos.row_le_past _ _

theorem trans (hp : Span source p q) (hq : Span source q r) : Span source p r := by
  obtain ⟨before, inside, after, h, rfl, rfl⟩ := hp
  obtain ⟨before', inside', after', h', hq, rfl⟩ := hq
  have hb := congrArg Pos.byte hq
  rw [Pos.byte_past, Pos.byte_past] at hb
  rw [h, List.append_assoc before'] at h'
  obtain ⟨hs, -⟩ := Text.append_inj_byteLength h' (by omega)
  subst hs
  exact ⟨before, inside ++ inside', after', by simp [h, h'], rfl, by simp⟩

theorem slice_eq {before inside after : List Char} (h : source = before ++ inside ++ after) :
    Text.slice (Pos.start.past before).byte
      (Pos.start.past (before ++ inside)).byte source = inside := by
  have hs := Text.slice_append before inside after
  rw [Pos.byte_past, Pos.byte_past, Text.byteLength_append, h]
  simpa only [Pos.start, Nat.zero_add] using hs

end Span

/-- Spans in a row between two places.  They may have gaps before, between and behind them. -/
def Laid (source : List Char) (p : Pos) : List (Pos × Pos) → Pos → Prop
  | [], q => Span source p q
  | s :: ss, q => Span source p s.1 ∧ Span source s.1 s.2 ∧ Laid source s.2 ss q

namespace Laid

variable {source : List Char} {p q r : Pos} {as bs : List (Pos × Pos)}

theorem span (h : Laid source p as q) : Span source p q := by
  induction as generalizing p with
  | nil => exact h
  | cons a as ih => exact (h.1.trans h.2.1).trans (ih h.2.2)

theorem before (hp : Span source p q) (h : Laid source q as r) : Laid source p as r := by
  cases as with
  | nil => exact hp.trans h
  | cons a as => exact ⟨hp.trans h.1, h.2⟩

theorem append_iff : Laid source p (as ++ bs) r ↔ ∃ q, Laid source p as q ∧ Laid source q bs r := by
  induction as generalizing p with
  | nil =>
    constructor
    · intro h
      exact ⟨p, .refl h.span.left_in, h⟩
    · intro hand
      obtain ⟨q, hp, h⟩ := hand
      exact h.before hp
  | cons a as ih =>
    constructor
    · intro hand
      obtain ⟨h1, h2, h⟩ := hand
      obtain ⟨q, h3, h4⟩ := ih.1 h
      exact ⟨q, ⟨h1, h2, h3⟩, h4⟩
    · intro hand
      obtain ⟨q, ⟨h1, h2, h3⟩, h4⟩ := hand
      exact ⟨h1, h2, ih.2 ⟨q, h3, h4⟩⟩

theorem append (h : Laid source p as q) (h' : Laid source q bs r) : Laid source p (as ++ bs) r :=
  append_iff.2 ⟨q, h, h'⟩

theorem after (h : Laid source p as q) (hq : Span source q r) : Laid source p as r := by
  have h' := @append source p q r as [] h hq
  rwa [List.append_nil] at h'

def stop (p : Pos) : List (Pos × Pos) → Pos
  | [] => p
  | s :: ss => stop s.2 ss

theorem to_stop (h : Laid source p as q) :
    Laid source p as (stop p as) ∧ Span source (stop p as) q := by
  induction as generalizing p with
  | nil => exact ⟨.refl h.span.left_in, h⟩
  | cons a as ih => exact ⟨⟨h.1, h.2.1, (ih h.2.2).1⟩, (ih h.2.2).2⟩

/-- What is behind some spans begins where the last of them stops. -/
theorem append_stop (h : Laid source p (as ++ bs) q) :
    Laid source p as (stop p as) ∧ Laid source (stop p as) bs q := by
  obtain ⟨r, h1, h2⟩ := append_iff.1 h
  exact ⟨h1.to_stop.1, h2.before h1.to_stop.2⟩

theorem of_mem {s : Pos × Pos} (h : Laid source p as q) (hs : s ∈ as) :
    Span source p s.1 ∧ Span source s.1 s.2 ∧ Span source s.2 q := by
  obtain ⟨before, after, rfl⟩ := List.append_of_mem hs
  obtain ⟨r, h1, h2, h3, h4⟩ := append_iff.1 h
  exact ⟨h1.span.trans h2, h3, h4.span⟩

end Laid

end Python

end AsyncSpread
