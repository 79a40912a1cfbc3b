/-!
Decimal numbers: how counts and line numbers are written in texts.  Reading gives back what was
written (`readDigits_writeCount`).
-/

namespace AsyncSpread.Text

def digit? (c : Char) : Option Nat :=
  if '0' ≤ c ∧ c ≤ '9' then some (c.toNat - '0'.toNat) else none

/-- The number that digits write, read on from the number written so far. -/
def readDigits (acc : Nat) : List Char → Option Nat
  | [] => some acc
  | c :: cs =>
    match digit? c with
    | some d => readDigits (10 * acc + d) cs
    | none => none

/-- Counts are words of 64 bits: the largest is one less than this. -/
def countLimit : Nat := 0x10000000000000000

def readCount? (cs : List Char) : Option Nat :=
  let digits := match cs with
    | '+' :: rest => rest
    | _ => cs
  if digits.isEmpty then none
  else match readDigits 0 digits with
    | some n => if n < countLimit then some n else none
    | none => none

def writeCount (n : Nat) : List Char := Nat.toDigits 10 n

theorem digit?_digitChar {d : Nat} (h : d < 10) : digit? d.digitChar = some d := by
  revert d
  decide

theorem readDigits_append {acc n : Nat} {cs : List Char} (ds : List Char)
    (h : readDigits acc cs = some n) : readDigits acc (cs ++ ds) = readDigits n ds := by
  induction cs generalizing acc with
  | nil => simp only [readDigits, Option.some.injEq] at h; simp [h]
  | cons c cs ih =>
    simp only [List.cons_append, readDigits] at h ⊢
    cases hd : digit? c with
    | none => simp [hd] at h
    | some d => simp only [hd] at h ⊢; exact ih h

theorem readDigits_writeCount (n : Nat) : readDigits 0 (writeCount n) = some n := by
  induction n using Nat.strongRecOn with
  | ind n ih =>
    unfold writeCount at ih ⊢
    by_cases h : n < 10
    · rw [Nat.toDigits_of_lt_base h]
      simp [readDigits, digit?_digitChar h]
    · have hd : n % 10 < 10 := Nat.mod_lt _ (by decide)
      rw [Nat.toDigits_of_base_le (by decide) (Nat.le_of_not_lt h),
        readDigits_append _ (ih (n / 10) (by omega))]
      simp only [readDigits, digit?_digitChar hd]
      congr 1
      omega

theorem head?_writeCount_ne_plus (n : Nat) : (writeCount n).head? ≠ some '+' := by
  intro h
  have hm : '+' ∈ writeCount n := List.mem_of_mem_head? h
  exact absurd (Nat.isDigit_of_mem_toDigits (by decide) (by decide) hm) (by decide)

theorem readCount?_writeCount {n : Nat} (h : n < countLimit) :
    readCount? (writeCount n) = some n := by
  have hne : (writeCount n).isEmpty = false := by
    rw [List.isEmpty_eq_false_iff]
    exact Nat.toDigits_ne_nil
  have hr := readDigits_writeCount n
  have hp := head?_writeCount_ne_plus n
  unfold readCount?
  split
  · rename_i rest he
    exact absurd (by rw [he]; rfl) hp
  · simp [hne, hr, h]

end AsyncSpread.Text
