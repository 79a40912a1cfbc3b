import AsyncSpread.Json.Value
import AsyncSpread.Text.Decimal

/-!
JSON as text.

What writes values and reads them is a parameter.  Of what it reads there is one law: a value that
can be written is read back as it was (`LawfulCodec`).
-/

namespace AsyncSpread.Json

/-- How a text is laid out. -/
inductive Layout where
  /-- Everything on one line, without blanks. -/
  | compact
  /-- Every item and member on a line of its own, indented by two spaces a level. -/
  | pretty
deriving DecidableEq, Repr

class Codec where
  write : Layout → Json → String
  read? : String → Option Json

/-- Values that can be written: every number is a word of 64 bits, every text consists of
characters, and no record has a key twice. -/
inductive Writable : Json → Prop where
  | null : Writable .null
  | flag (b : Bool) : Writable (.flag b)
  | whole {n : Nat} (h : n < Text.countLimit) : Writable (.whole n)
  | text (s : String) : Writable (.text s)
  | list {vs : List Json} (h : ∀ v ∈ vs, Writable v) : Writable (.list vs)
  | record {ms : List (String × Json)} (hkeys : (ms.map Prod.fst).Nodup)
      (h : ∀ m ∈ ms, Writable m.2) : Writable (.ofMembers ms)

class LawfulCodec [Codec] : Prop where
  read?_write {v : Json} (hv : Writable v) (l : Layout) : Codec.read? (Codec.write l v) = some v

end AsyncSpread.Json
