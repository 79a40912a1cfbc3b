import AsyncSpread.Text.Decimal

/-!
The tokens of JSON: brackets, marks, words, numbers and quoted texts.
-/

namespace AsyncSpread.Json

inductive Token where
  | openList
  | closeList
  | openRecord
  | closeRecord
  | comma
  | colon
  | null
  | flag (b : Bool)
  /-- A number written by digits alone. -/
  | whole (n : Nat)
  /-- Any other number. -/
  | number
  /-- A quoted text; `none` if it holds half a character. -/
  | text (cs : Option (List Char))
deriving DecidableEq, Repr

def isBlank (c : Char) : Bool := c = ' ' || c = '\n' || c = '\r' || c = '\t'

def hexValue? (cs : List Char) : Option Nat :=
  cs.foldl (fun acc c => do
    let n ← acc
    if '0' ≤ c ∧ c ≤ '9' then some (16 * n + (c.toNat - '0'.toNat))
    else if 'a' ≤ c ∧ c ≤ 'f' then some (16 * n + 10 + (c.toNat - 'a'.toNat))
    else if 'A' ≤ c ∧ c ≤ 'F' then some (16 * n + 10 + (c.toNat - 'A'.toNat))
    else none) (some 0)

def shortEscape? : Char → Option Char
  | '"' => some '"'
  | '\\' => some '\\'
  | '/' => some '/'
  | 'b' => some '\x08'
  | 'f' => some '\x0c'
  | 'n' => some '\n'
  | 'r' => some '\r'
  | 't' => some '\t'
  | _ => none

/-- Reads the rest of a quoted text: its units and what follows the closing quote.  A unit is a code
point, or half of one where an escape names a half.  Control characters have to be escaped. -/
def readUnits : List Char → Option (List Nat × List Char)
  | [] => none
  | '"' :: rest => some ([], rest)
  | '\\' :: 'u' :: a :: b :: c :: d :: rest =>
    match hexValue? [a, b, c, d], readUnits rest with
    | some n, some (us, rest) => some (n :: us, rest)
    | _, _ => none
  | '\\' :: c :: rest =>
    match shortEscape? c, readUnits rest with
    | some e, some (us, rest) => some (e.toNat :: us, rest)
    | _, _ => none
  | c :: rest =>
    if c.toNat < 0x20 ∨ c = '\\' then none
    else match readUnits rest with
      | some (us, rest) => some (c.toNat :: us, rest)
      | none => none

def isHighHalf (n : Nat) : Bool := 0xD800 ≤ n && n ≤ 0xDBFF

def isLowHalf (n : Nat) : Bool := 0xDC00 ≤ n && n ≤ 0xDFFF

def joinHalves : List Nat → Option (List Char)
  | [] => some []
  | [n] => if isHighHalf n || isLowHalf n then none else some [Char.ofNat n]
  | n :: m :: rest =>
    if isLowHalf n then none
    else if isHighHalf n then
      if isLowHalf m then
        (joinHalves rest).map (Char.ofNat (0x10000 + (n - 0xD800) * 0x400 + (m - 0xDC00)) :: ·)
      else none
    else (joinHalves (m :: rest)).map (Char.ofNat n :: ·)

def isDigit (c : Char) : Bool := (Text.digit? c).isSome

def afterDigits? (cs : List Char) : Option (List Char) :=
  match cs with
  | [] => none
  | c :: _ => if isDigit c then some (cs.dropWhile isDigit) else none

/-- What follows a fraction, if there is a point; a point without digits is a fault. -/
def afterFraction? : List Char → Option (List Char)
  | '.' :: rest => afterDigits? rest
  | cs => some cs

/-- What follows an exponent, if there is one; one without digits is a fault. -/
def afterExponent? : List Char → Option (List Char)
  | c :: rest =>
    if c = 'e' ∨ c = 'E' then
      match rest with
      | s :: rest' => if s = '+' ∨ s = '-' then afterDigits? rest' else afterDigits? rest
      | [] => none
    else some (c :: rest)
  | [] => some []

/-- The digits in front of a point or exponent: a zero alone, or digits that do not begin with a
zero. -/
def readInteger? (cs : List Char) : Option (List Char × List Char) :=
  match cs with
  | [] => none
  | c :: rest =>
    if c = '0' then some (['0'], rest)
    else if isDigit c then some (cs.takeWhile isDigit, cs.dropWhile isDigit)
    else none

def readNumber? (cs : List Char) : Option (Token × List Char) := do
  let (negative, unsigned) := match cs with
    | '-' :: rest => (true, rest)
    | _ => (false, cs)
  let (digits, rest) ← readInteger? unsigned
  let rest' ← afterExponent? (← afterFraction? rest)
  if !negative && rest'.length = rest.length then
    some (.whole (← Text.readDigits 0 digits), rest)
  else some (.number, rest')

def readToken? : List Char → Option (Token × List Char)
  | '[' :: rest => some (.openList, rest)
  | ']' :: rest => some (.closeList, rest)
  | '\x7b' :: rest => some (.openRecord, rest)
  | '\x7d' :: rest => some (.closeRecord, rest)
  | ',' :: rest => some (.comma, rest)
  | ':' :: rest => some (.colon, rest)
  | '"' :: rest => (readUnits rest).map fun (us, rest) => (.text (joinHalves us), rest)
  | 'n' :: 'u' :: 'l' :: 'l' :: rest => some (.null, rest)
  | 't' :: 'r' :: 'u' :: 'e' :: rest => some (.flag true, rest)
  | 'f' :: 'a' :: 'l' :: 's' :: 'e' :: rest => some (.flag false, rest)
  | cs => readNumber? cs

def readTokens : Nat → List Char → Option (List Token)
  | n, cs =>
    match n, cs.dropWhile isBlank with
    | _, [] => some []
    | 0, _ :: _ => none
    | n + 1, c :: rest =>
      match readToken? (c :: rest) with
      | none => none
      | some (t, rest') => (readTokens n rest').map (t :: ·)

/-- The tokens of a text.  Each has at least one character, so the length of the text bounds their
number. -/
def tokens? (cs : List Char) : Option (List Token) := readTokens cs.length cs

end AsyncSpread.Json
