/-!
Texts as bytes.  Reading is total: a run of bytes that encodes nothing is kept as one mistake, which
the reader may refuse or replace.  Every text is read back from its bytes
(`decodeUtf8?_encodeUtf8`).
-/

namespace AsyncSpread.Text

def encodeUtf8 (cs : List Char) : List UInt8 := cs.flatMap String.utf8EncodeChar

def isContinuation (b : UInt8) : Bool := 0x80 ≤ b && b ≤ 0xBF

/-- Whether a byte may stand second after a lead byte of three or four.  Some leads leave part of
the range out, so that no character has two encodings and none lies outside the code space. -/
def isSecond (lead b : UInt8) : Bool :=
  if lead == 0xE0 then 0xA0 ≤ b && b ≤ 0xBF
  else if lead == 0xED then 0x80 ≤ b && b ≤ 0x9F
  else if lead == 0xF0 then 0x90 ≤ b && b ≤ 0xBF
  else if lead == 0xF4 then 0x80 ≤ b && b ≤ 0x8F
  else isContinuation b

/-- How many continuation bytes a lead byte asks for; `none` for a byte that leads nothing. -/
def continuationsOf (b : UInt8) : Option Nat :=
  if b < 0x80 then some 0
  else if 0xC2 ≤ b && b ≤ 0xDF then some 1
  else if 0xE0 ≤ b && b ≤ 0xEF then some 2
  else if 0xF0 ≤ b && b ≤ 0xF4 then some 3
  else none

/-- The character that is being read: its value so far, its lead, how many bytes are missing, and
whether the next is the second. -/
structure Partial where
  value : Nat
  lead : UInt8
  missing : Nat
  second : Bool

/-- Begins a character with a byte. -/
def begin? (b : UInt8) : Option Partial :=
  match continuationsOf b with
  | none => none
  | some 0 => some ⟨b.toNat, b, 0, true⟩
  | some 1 => some ⟨b.toNat % 0x20, b, 1, true⟩
  | some 2 => some ⟨b.toNat % 0x10, b, 2, true⟩
  | some n => some ⟨b.toNat % 0x08, b, n, true⟩

/-- Reads bytes as characters; `none` stands for a mistake.  `open_` is the character begun
before. -/
def decodeFrom (open_ : Option Partial) : List UInt8 → List (Option Char)
  | [] => if open_.isSome then [none] else []
  | b :: bs =>
    let fresh (mistake : List (Option Char)) :=
      match begin? b with
      | none => mistake ++ none :: decodeFrom none bs
      | some p =>
        if p.missing = 0 then mistake ++ some (Char.ofNat p.value) :: decodeFrom none bs
        else mistake ++ decodeFrom (some p) bs
    match open_ with
    | none => fresh []
    | some p =>
      if (if p.second then isSecond p.lead b else isContinuation b) then
        let value := p.value * 0x40 + b.toNat % 0x40
        if p.missing = 1 then some (Char.ofNat value) :: decodeFrom none bs
        else decodeFrom (some ⟨value, p.lead, p.missing - 1, false⟩) bs
      else fresh [none]

/-! ## Reading back

The lead of a character and the bytes behind it are told apart by their numbers, so that the cases
are arithmetic. -/

theorem continuationsOf_eq (b : UInt8) : continuationsOf b =
    if b.toNat < 0x80 then some 0
    else if 0xC2 ≤ b.toNat ∧ b.toNat ≤ 0xDF then some 1
    else if 0xE0 ≤ b.toNat ∧ b.toNat ≤ 0xEF then some 2
    else if 0xF0 ≤ b.toNat ∧ b.toNat ≤ 0xF4 then some 3
    else none := by
  simp [continuationsOf, UInt8.lt_iff_toNat_lt, UInt8.le_iff_toNat_le]

theorem isContinuation_iff {b : UInt8} : isContinuation b ↔ 0x80 ≤ b.toNat ∧ b.toNat ≤ 0xBF := by
  simp [isContinuation, UInt8.le_iff_toNat_le]

theorem isSecond_iff {lead b : UInt8} : isSecond lead b ↔ isContinuation b ∧
    (lead.toNat = 0xE0 → 0xA0 ≤ b.toNat) ∧ (lead.toNat = 0xED → b.toNat ≤ 0x9F) ∧
    (lead.toNat = 0xF0 → 0x90 ≤ b.toNat) ∧ (lead.toNat = 0xF4 → b.toNat ≤ 0x8F) := by
  simp only [isSecond, beq_iff_eq, ← UInt8.toNat_inj, isContinuation_iff]
  repeat' split
  all_goals simp [UInt8.le_iff_toNat_le, isContinuation_iff] at *
  all_goals omega

/-- The bytes of a character are read as that character, whatever follows. -/
theorem decodeFrom_utf8EncodeChar (c : Char) (bs : List UInt8) :
    decodeFrom none (String.utf8EncodeChar c ++ bs) = some c :: decodeFrom none bs := by
  have hc := Char.ofNat_toNat c
  have valid : c.toNat.isValidChar := c.valid
  unfold String.utf8EncodeChar
  simp only [show c.val.toNat = c.toNat from rfl]
  generalize c.toNat = v at hc valid
  unfold Nat.isValidChar at valid
  subst hc
  repeat' split
  · have lead : (UInt8.ofNat v).toNat = v := by simp; omega
    have h := continuationsOf_eq (UInt8.ofNat v)
    rw [if_pos (by omega)] at h
    simp only [List.cons_append, List.nil_append, decodeFrom, begin?, h, lead, if_true]
  · have lead : (UInt8.ofNat (v / 64 % 32 + 192)).toNat = v / 64 + 192 := by simp; omega
    have last : (UInt8.ofNat (v % 64 + 128)).toNat = v % 64 + 128 := by simp; omega
    have h := continuationsOf_eq (UInt8.ofNat (v / 64 % 32 + 192))
    rw [if_neg (by omega), if_pos (by omega)] at h
    have h2 : isSecond (UInt8.ofNat (v / 64 % 32 + 192)) (UInt8.ofNat (v % 64 + 128)) := by
      rw [isSecond_iff, isContinuation_iff]; omega
    simp only [List.cons_append, List.nil_append, decodeFrom, begin?, h, h2, lead, last]
    simp only [Nat.reduceEqDiff, reduceIte, List.cons.injEq, Option.some.injEq, and_true]
    exact congrArg Char.ofNat (by omega)
  · have lead : (UInt8.ofNat (v / 4096 % 16 + 224)).toNat = v / 4096 + 224 := by simp; omega
    have second : (UInt8.ofNat (v / 64 % 64 + 128)).toNat = v / 64 % 64 + 128 := by simp; omega
    have last : (UInt8.ofNat (v % 64 + 128)).toNat = v % 64 + 128 := by simp; omega
    have h := continuationsOf_eq (UInt8.ofNat (v / 4096 % 16 + 224))
    rw [if_neg (by omega), if_neg (by omega), if_pos (by omega)] at h
    have h2 : isSecond (UInt8.ofNat (v / 4096 % 16 + 224)) (UInt8.ofNat (v / 64 % 64 + 128)) := by
      rw [isSecond_iff, isContinuation_iff]; omega
    have h3 : isContinuation (UInt8.ofNat (v % 64 + 128)) := by rw [isContinuation_iff]; omega
    simp only [List.cons_append, List.nil_append, decodeFrom, begin?, h, h2, h3, lead, second, last]
    simp only [Nat.reduceEqDiff, Nat.reduceSub, Bool.false_eq_true, reduceIte, List.cons.injEq,
      Option.some.injEq, and_true]
    exact congrArg Char.ofNat (by omega)
  · have lead : (UInt8.ofNat (v / 262144 % 8 + 240)).toNat = v / 262144 + 240 := by simp; omega
    have second : (UInt8.ofNat (v / 4096 % 64 + 128)).toNat = v / 4096 % 64 + 128 := by simp; omega
    have third : (UInt8.ofNat (v / 64 % 64 + 128)).toNat = v / 64 % 64 + 128 := by simp; omega
    have last : (UInt8.ofNat (v % 64 + 128)).toNat = v % 64 + 128 := by simp; omega
    have h := continuationsOf_eq (UInt8.ofNat (v / 262144 % 8 + 240))
    rw [if_neg (by omega), if_neg (by omega), if_neg (by omega), if_pos (by omega)] at h
    have h2 : isSecond (UInt8.ofNat (v / 262144 % 8 + 240))
        (UInt8.ofNat (v / 4096 % 64 + 128)) := by
      rw [isSecond_iff, isContinuation_iff]; omega
    have h3 : isContinuation (UInt8.ofNat (v / 64 % 64 + 128)) := by rw [isContinuation_iff]; omega
    have h4 : isContinuation (UInt8.ofNat (v % 64 + 128)) := by rw [isContinuation_iff]; omega
    simp only [List.cons_append, List.nil_append, decodeFrom, begin?, h, h2, h3, h4, lead,
      second, third, last]
    simp only [Nat.reduceEqDiff, Nat.reduceSub, Bool.false_eq_true, reduceIte, List.cons.injEq,
      Option.some.injEq, and_true]
    exact congrArg Char.ofNat (by omega)

theorem decodeFrom_encodeUtf8 (cs : List Char) : decodeFrom none (encodeUtf8 cs) = cs.map some := by
  induction cs with
  | nil => rfl
  | cons c cs ih =>
    have h : encodeUtf8 (c :: cs) = String.utf8EncodeChar c ++ encodeUtf8 cs := by simp [encodeUtf8]
    rw [h, decodeFrom_utf8EncodeChar, ih, List.map_cons]

def decodeUtf8? (bs : List UInt8) : Option (List Char) := (decodeFrom none bs).mapM id

/-- The text of some bytes, with a replacement character for each mistake. -/
def decodeUtf8Lossy (bs : List UInt8) : List Char :=
  (decodeFrom none bs).map fun c => c.getD '\ufffd'

@[simp] theorem decodeUtf8?_encodeUtf8 (cs : List Char) :
    decodeUtf8? (encodeUtf8 cs) = some cs := by
  rw [decodeUtf8?, decodeFrom_encodeUtf8]
  induction cs with
  | nil => rfl
  | cons c cs ih => simp [ih]

@[simp] theorem decodeUtf8Lossy_encodeUtf8 (cs : List Char) :
    decodeUtf8Lossy (encodeUtf8 cs) = cs := by
  rw [decodeUtf8Lossy, decodeFrom_encodeUtf8, List.map_map]
  exact List.map_id cs

end AsyncSpread.Text
