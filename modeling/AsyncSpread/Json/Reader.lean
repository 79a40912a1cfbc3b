import AsyncSpread.Json.Printer
import AsyncSpread.Json.Token

/-!
A reader of JSON, and with it a codec.  A text has to be exactly one value, with blanks around its
tokens and nothing else.

The tokens are read one by one.  What is open is kept on a stack, so the reading goes through the
tokens once and has no depth to bound.
-/

namespace AsyncSpread.Json

def Token.value? : Token → Option Json
  | .null => some .null
  | .flag b => some (.flag b)
  | .whole n => some (.whole n)
  | .number => some .number
  | .text (some cs) => some (.text (String.ofList cs))
  | .text none => some .brokenText
  | _ => none

/-- Something open, with what has been read of it, the latest first. -/
inductive Open where
  | list (items : List Json)
  /-- A record, with the key whose value is to come. -/
  | record (members : List (Option String × Json)) (key : Option String)

inductive Expected where
  | value
  /-- The first item of a list, or its end. -/
  | item
  /-- The first key of a record, or its end. -/
  | member
  | key
  | colon
  /-- A comma, or the end of what is open. -/
  | separator
  /-- Nothing any more. -/
  | nothing (v : Json)

/-- What is open, the innermost first, and what has to come. -/
structure Progress where
  stack : List Open
  expected : Expected

namespace Progress

def start : Progress := ⟨[], .value⟩

def put (v : Json) : List Open → Progress
  | [] => ⟨[], .nothing v⟩
  | .list items :: rest => ⟨.list (v :: items) :: rest, .separator⟩
  | .record members key :: rest => ⟨.record ((key, v) :: members) none :: rest, .separator⟩

/-- Begins a value. -/
def begin? (stack : List Open) : Token → Option Progress
  | .openList => some ⟨.list [] :: stack, .item⟩
  | .openRecord => some ⟨.record [] none :: stack, .member⟩
  | t => t.value?.map fun v => put v stack

def key? : List Open → Token → Option Progress
  | .record members _ :: rest, .text k =>
    some ⟨.record members (k.map String.ofList) :: rest, .colon⟩
  | _, _ => none

def close? : List Open → Token → Option Progress
  | .list items :: rest, .closeList => some (put (.list items.reverse) rest)
  | .record members _ :: rest, .closeRecord => some (put (.record members.reverse) rest)
  | _, _ => none

def next? : List Open → Option Progress
  | .list items :: rest => some ⟨.list items :: rest, .value⟩
  | .record members k :: rest => some ⟨.record members k :: rest, .key⟩
  | [] => none

def step (p : Progress) (t : Token) : Option Progress :=
  match p.expected with
  | .value => begin? p.stack t
  | .item => if t = .closeList then close? p.stack t else begin? p.stack t
  | .member => if t = .closeRecord then close? p.stack t else key? p.stack t
  | .key => key? p.stack t
  | .colon => if t = .colon then some ⟨p.stack, .value⟩ else none
  | .separator => if t = .comma then next? p.stack else close? p.stack t
  | .nothing _ => none

def run (p : Progress) : List Token → Option Progress
  | [] => some p
  | t :: ts => (p.step t).bind fun p => p.run ts

@[simp] theorem run_nil (p : Progress) : p.run [] = some p := rfl

@[simp] theorem run_cons (p : Progress) (t : Token) (ts : List Token) :
    p.run (t :: ts) = (p.step t).bind fun p => p.run ts := rfl

/-- Reading one row of tokens and then another is reading both. -/
theorem run_append (p : Progress) (ts us : List Token) :
    p.run (ts ++ us) = (p.run ts).bind fun p => p.run us := by
  induction ts generalizing p with
  | nil => rfl
  | cons t ts ih =>
    rw [List.cons_append, run_cons, run_cons]
    cases p.step t with
    | none => rfl
    | some q => exact ih q

def value? (p : Progress) : Option Json :=
  match p.expected with
  | .nothing v => some v
  | _ => none

end Progress

def read? (s : String) : Option Json := do
  (← Progress.start.run (← tokens? s.toList)).value?

instance : Codec := ⟨print, read?⟩

end AsyncSpread.Json
