import AsyncSpread.Json.Reader
import AsyncSpread.Proofs.Json.Lexed

/-!
Reading what was printed gives back the value.

The reader takes the tokens of a value in as the value, whatever is open around it (`run_tokens`).
With the tokens of what is printed this makes reading the inverse of printing, in either layout
(`read?_print`), so the printer and the reader are a lawful codec.
-/

namespace AsyncSpread.Json

open Progress

/-- No value begins with the end of a list, so one that may come first in a list is read like any
other. -/
theorem run_item_tokens (v : Json) (stack : List Open) (ts : List Token) :
    run ⟨stack, .item⟩ (v.tokens ++ ts) = run ⟨stack, .value⟩ (v.tokens ++ ts) := by
  unfold tokens
  split <;> simp [step]

theorem run_member_memberTokens (m : Option String × Json) (stack : List Open) (ts : List Token) :
    run ⟨stack, .member⟩ (memberTokens m ++ ts) = run ⟨stack, .key⟩ (memberTokens m ++ ts) := by
  unfold memberTokens
  simp [step]

mutual

theorem run_tokens : ∀ (v : Json) (stack : List Open) (ts : List Token),
    run ⟨stack, .value⟩ (v.tokens ++ ts) = (put v stack).run ts
  | .null, _, _ => by simp [tokens, step, begin?, Token.value?]
  | .flag _, _, _ => by simp [tokens, step, begin?, Token.value?]
  | .whole _, _, _ => by simp [tokens, step, begin?, Token.value?]
  | .number, _, _ => by simp [tokens, step, begin?, Token.value?]
  | .text _, _, _ => by simp [tokens, step, begin?, Token.value?]
  | .brokenText, _, _ => by simp [tokens, step, begin?, Token.value?]
  | .list [], _, _ => by simp [tokens, step, begin?, close?]
  | .list (v :: vs), stack, ts => by
    simp only [tokens, List.cons_append, List.append_assoc, List.nil_append]
    show run ⟨.list [] :: stack, .item⟩ _ = _
    rw [run_item_tokens, run_tokens v]
    show run ⟨.list [v] :: stack, .separator⟩ _ = _
    rw [run_itemsTokens vs]
    show (put (.list (vs.reverse ++ [v]).reverse) stack).run ts = _
    rw [List.reverse_append, List.reverse_reverse]
    rfl
  | .record [], _, _ => by simp [tokens, step, begin?, close?]
  | .record (m :: ms), stack, ts => by
    simp only [tokens, List.cons_append, List.append_assoc, List.nil_append]
    show run ⟨.record [] none :: stack, .member⟩ _ = _
    rw [run_member_memberTokens, run_memberTokens m, run_membersTokens ms]
    show (put (.record (ms.reverse ++ [m]).reverse) stack).run ts = _
    rw [List.reverse_append, List.reverse_reverse]
    rfl

theorem run_itemsTokens : ∀ (vs items : List Json) (stack : List Open) (ts : List Token),
    run ⟨.list items :: stack, .separator⟩ (itemsTokens vs ++ ts) =
      run ⟨.list (vs.reverse ++ items) :: stack, .separator⟩ ts
  | [], _, _, _ => rfl
  | v :: vs, items, stack, ts => by
    simp only [itemsTokens, List.cons_append, List.append_assoc]
    show run ⟨.list items :: stack, .value⟩ _ = _
    rw [run_tokens v]
    show run ⟨.list (v :: items) :: stack, .separator⟩ _ = _
    rw [run_itemsTokens vs, List.reverse_cons, List.append_assoc]
    rfl

theorem run_memberTokens :
    ∀ (m : Option String × Json) (members : List (Option String × Json)) (stack : List Open)
    (ts : List Token),
    run ⟨.record members none :: stack, .key⟩ (memberTokens m ++ ts) =
      run ⟨.record (m :: members) none :: stack, .separator⟩ ts
  | (k, v), members, stack, ts => by
    have hkey : (k.map String.toList).map String.ofList = k := by
      cases k with
      | none => rfl
      | some s => rw [Option.map_some, Option.map_some, String.ofList_toList]
    simp only [memberTokens, List.cons_append]
    show run ⟨.record members ((k.map String.toList).map String.ofList) :: stack, .value⟩ _ = _
    rw [hkey, run_tokens v]
    rfl

theorem run_membersTokens :
    ∀ (ms members : List (Option String × Json)) (stack : List Open) (ts : List Token),
    run ⟨.record members none :: stack, .separator⟩ (membersTokens ms ++ ts) =
      run ⟨.record (ms.reverse ++ members) none :: stack, .separator⟩ ts
  | [], _, _, _ => rfl
  | m :: ms, members, stack, ts => by
    simp only [membersTokens, List.cons_append, List.append_assoc]
    show run ⟨.record members none :: stack, .key⟩ _ = _
    rw [run_memberTokens m, run_membersTokens ms, List.reverse_cons, List.append_assoc]
    rfl

end

theorem read?_print {v : Json} (hv : Writable v) (l : Layout) : read? (v.print l) = some v := by
  have hrun := run_tokens v [] []
  rw [List.append_nil] at hrun
  show (tokens? (v.print l).toList).bind (fun ts => (start.run ts).bind Progress.value?) = some v
  rw [tokens?_print hv, Option.bind_some]
  show (run ⟨[], .value⟩ v.tokens).bind Progress.value? = some v
  rw [hrun]
  rfl

instance : LawfulCodec := ⟨read?_print⟩

end AsyncSpread.Json
