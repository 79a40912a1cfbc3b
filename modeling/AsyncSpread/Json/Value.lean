/-!
Values of JSON.

Of numbers only the natural ones are told apart, since nothing else is ever wanted.  A text can be
written that encodes no characters, by an escape for half a character; it is kept apart, so that it
can be passed over.
-/

namespace AsyncSpread

inductive Json where
  | null
  | flag (b : Bool)
  /-- A number written by digits alone. -/
  | whole (n : Nat)
  /-- Any other number. -/
  | number
  | text (s : String)
  /-- A text that holds half a character. -/
  | brokenText
  | list (items : List Json)
  /-- A record keeps its members as they stand; a key that holds half a character is `none`. -/
  | record (members : List (Option String × Json))

namespace Json

def ofMembers (members : List (String × Json)) : Json :=
  .record (members.map fun (k, v) => (some k, v))

def ofTexts (l : List String) : Json := .list (l.map .text)

end Json

end AsyncSpread
