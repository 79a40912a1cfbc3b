import AsyncSpread.Json.Codec

/-!
A printer of JSON, on one line without blanks or over several lines.
-/

namespace AsyncSpread.Json

/-- One character between the quotes.  Control characters are escaped, by a short escape where there
is one. -/
def escaped (c : Char) : List Char :=
  match c with
  | '"' => ['\\', '"']
  | '\\' => ['\\', '\\']
  | '\n' => ['\\', 'n']
  | '\r' => ['\\', 'r']
  | '\t' => ['\\', 't']
  | '\x08' => ['\\', 'b']
  | '\x0c' => ['\\', 'f']
  | c =>
    if c.toNat < 0x20 then
      ['\\', 'u', '0', '0', Nat.digitChar (c.toNat / 16), Nat.digitChar (c.toNat % 16)]
    else [c]

def printText (s : String) : List Char := '"' :: s.toList.flatMap escaped ++ ['"']

def Layout.break (l : Layout) (level : Nat) : List Char :=
  match l with
  | .compact => []
  | .pretty => '\n' :: List.replicate (2 * level) ' '

def Layout.colon : Layout → List Char
  | .compact => [':']
  | .pretty => [':', ' ']

mutual

def printAt (l : Layout) (level : Nat) : Json → List Char
  | .null => "null".toList
  | .flag true => "true".toList
  | .flag false => "false".toList
  | .whole n => Text.writeCount n
  | .number => Text.writeCount 0
  | .text s => printText s
  | .brokenText => printText ""
  | .list [] => ['[', ']']
  | .list (v :: vs) =>
    '[' :: l.break (level + 1) ++ printAt l (level + 1) v ++ printItems l (level + 1) vs
      ++ l.break level ++ [']']
  | .record [] => ['\x7b', '\x7d']
  | .record (m :: ms) =>
    '\x7b' :: l.break (level + 1) ++ printMember l (level + 1) m ++ printMembers l (level + 1) ms
      ++ l.break level ++ ['\x7d']

def printItems (l : Layout) (level : Nat) : List Json → List Char
  | [] => []
  | v :: vs => ',' :: l.break level ++ printAt l level v ++ printItems l level vs

def printMember (l : Layout) (level : Nat) : Option String × Json → List Char
  | (k, v) => printText (k.getD "") ++ l.colon ++ printAt l level v

def printMembers (l : Layout) (level : Nat) : List (Option String × Json) → List Char
  | [] => []
  | m :: ms => ',' :: l.break level ++ printMember l level m ++ printMembers l level ms

end

def print (l : Layout) (v : Json) : String := String.ofList (printAt l 0 v)

end AsyncSpread.Json
