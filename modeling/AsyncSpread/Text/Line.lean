import AsyncSpread.Text.Slice

/-!
Texts as lines.  A line feed ends a line, and a carriage return right before it belongs to the line
end.

Cutting at a separator and joining again gives the text back (`intercalate_piecesBetween`), and the
pieces hold no separator any more (`not_mem_of_mem_piecesBetween`).
-/

namespace AsyncSpread.Text

/-- A text cut at each separator.  There is always a last piece, which may be empty. -/
def piecesBetween (sep : Char) : List Char → List (List Char)
  | [] => [[]]
  | c :: cs =>
    if c = sep then [] :: piecesBetween sep cs
    else match piecesBetween sep cs with
      | [] => [[c]]
      | piece :: rest => (c :: piece) :: rest

theorem piecesBetween_ne_nil (sep : Char) (cs : List Char) : piecesBetween sep cs ≠ [] := by
  cases cs with
  | nil => simp [piecesBetween]
  | cons c cs =>
    unfold piecesBetween
    split
    · simp
    · split <;> simp

theorem intercalate_piecesBetween (sep : Char) (cs : List Char) :
    [sep].intercalate (piecesBetween sep cs) = cs := by
  induction cs with
  | nil => rfl
  | cons c cs ih =>
    unfold piecesBetween
    split
    · rename_i h
      cases hp : piecesBetween sep cs with
      | nil => exact absurd hp (piecesBetween_ne_nil sep cs)
      | cons piece rest =>
        rw [hp] at ih
        simp [List.intercalate, List.intersperse, h] at ih ⊢
        exact ih
    · split
      · rename_i hp
        exact absurd hp (piecesBetween_ne_nil sep cs)
      · rename_i piece rest hp
        rw [hp] at ih
        cases rest <;> simp [List.intercalate, List.intersperse] at ih ⊢ <;> exact ih

theorem not_mem_of_mem_piecesBetween {sep : Char} {cs piece : List Char}
    (h : piece ∈ piecesBetween sep cs) : sep ∉ piece := by
  induction cs generalizing piece with
  | nil => simp [piecesBetween] at h; simp [h]
  | cons c cs ih =>
    unfold piecesBetween at h
    split at h
    · rcases List.mem_cons.1 h with rfl | h
      · simp
      · exact ih h
    · rename_i hc
      split at h
      · rename_i hp
        exact absurd hp (piecesBetween_ne_nil sep cs)
      · rename_i first rest hp
        rw [hp] at ih
        rcases List.mem_cons.1 h with rfl | h
        · simp [Ne.symm hc, ih List.mem_cons_self]
        · exact ih (List.mem_cons_of_mem _ h)

theorem piecesBetween_of_not_mem {sep : Char} {cs : List Char} (h : sep ∉ cs) :
    piecesBetween sep cs = [cs] := by
  induction cs with
  | nil => rfl
  | cons c cs ih =>
    rw [List.mem_cons, not_or] at h
    rw [piecesBetween, if_neg (Ne.symm h.1), ih h.2]

theorem piecesBetween_append_cons (sep : Char) (as bs : List Char) :
    piecesBetween sep (as ++ sep :: bs) = piecesBetween sep as ++ piecesBetween sep bs := by
  induction as with
  | nil => simp [piecesBetween]
  | cons a as ih =>
    rw [List.cons_append, piecesBetween, piecesBetween]
    split
    · rw [ih]; rfl
    · rw [ih]
      cases hp : piecesBetween sep as with
      | nil => exact absurd hp (piecesBetween_ne_nil sep as)
      | cons piece rest => rfl

theorem piecesBetween_intercalate {sep : Char} {pieces : List (List Char)}
    (h : ∀ piece ∈ pieces, sep ∉ piece) (hne : pieces ≠ []) :
    piecesBetween sep ([sep].intercalate pieces) = pieces := by
  induction pieces with
  | nil => exact absurd rfl hne
  | cons piece rest ih =>
    have hpiece := piecesBetween_of_not_mem (h piece List.mem_cons_self)
    cases rest with
    | nil => rw [List.intercalate_singleton, hpiece]
    | cons next rest =>
      have hrest := ih (fun p hp => h p (List.mem_cons_of_mem _ hp)) (List.cons_ne_nil _ _)
      rw [List.intercalate_cons_cons, List.append_assoc, List.singleton_append,
        piecesBetween_append_cons, hpiece, hrest]
      rfl

def withoutReturn (line : List Char) : List Char :=
  if line.getLast? = some '\r' then line.dropLast else line

/-- The lines of a text.  What follows the last line feed is a line only if there is something, and
keeps its carriage returns. -/
def lines (cs : List Char) : List (List Char) :=
  let pieces := piecesBetween '\n' cs
  let last := pieces.getLastD []
  pieces.dropLast.map withoutReturn ++ if last.isEmpty then [] else [last]

/-- The byte offset at which the line that holds an offset begins. -/
def lineStart (cs : List Char) (offset : Nat) : Nat :=
  let before := takeBytes offset cs
  byteLength before - byteLength (before.reverse.takeWhile (· ≠ '\n'))

def nextLineStart (cs : List Char) (offset : Nat) : Nat :=
  let rest := dropBytes offset cs
  let line := rest.takeWhile (· ≠ '\n')
  if line.length = rest.length then byteLength cs else offset + byteLength line + 1

/-- The spaces and tabs at the head of the line that holds an offset. -/
def lineIndent (cs : List Char) (offset : Nat) : List Char :=
  (dropBytes (lineStart cs offset) cs).takeWhile fun c => c = ' ' || c = '\t'

def lineEnding (cs : List Char) : List Char :=
  let line := cs.takeWhile (· ≠ '\n')
  if line.length < cs.length ∧ line.getLast? = some '\r' then ['\r', '\n'] else ['\n']

end AsyncSpread.Text
