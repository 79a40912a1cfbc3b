import Mathlib.Data.List.Basic
import AsyncSpread.Json.Printer
import AsyncSpread.Json.Token

/-!
A printed value is read as its tokens, however it is laid out.

Numbers and texts are the tokens with something in them.  A text is read unit by unit, and each
character that is printed gives back its own unit (`readUnits_escaped`).  A number is read as far as
its digits go, so what follows must not go on with it (`Stops`).  In what is printed a value is
followed by a comma, a bracket or a blank, and all of them stop a number.
-/

namespace AsyncSpread.Json

/-! ## The tokens of a value -/

mutual

def tokens : Json → List Token
  | .null => [.null]
  | .flag b => [.flag b]
  | .whole n => [.whole n]
  | .number => [.number]
  | .text s => [.text (some s.toList)]
  | .brokenText => [.text none]
  | .list [] => [.openList, .closeList]
  | .list (v :: vs) => .openList :: v.tokens ++ itemsTokens vs ++ [.closeList]
  | .record [] => [.openRecord, .closeRecord]
  | .record (m :: ms) => .openRecord :: memberTokens m ++ membersTokens ms ++ [.closeRecord]

def itemsTokens : List Json → List Token
  | [] => []
  | v :: vs => .comma :: v.tokens ++ itemsTokens vs

def memberTokens : Option String × Json → List Token
  | (k, v) => .text (k.map String.toList) :: .colon :: v.tokens

def membersTokens : List (Option String × Json) → List Token
  | [] => []
  | m :: ms => .comma :: memberTokens m ++ membersTokens ms

end

/-! ## Texts -/

theorem hexValue?_low : ∀ n < 0x20,
    hexValue? ['0', '0', Nat.digitChar (n / 16), Nat.digitChar (n % 16)] = some n := by
  decide

theorem readUnits_short {c e : Char} (hc : c ≠ 'u') (he : shortEscape? c = some e)
    (cs : List Char) :
    readUnits ('\\' :: c :: cs) = (readUnits cs).map fun (us, rest) => (e.toNat :: us, rest) := by
  rw [readUnits, he]
  · cases readUnits cs <;> rfl
  · exact fun _ _ _ _ _ hu => absurd hu hc

theorem readUnits_plain {c : Char} (hc : ¬ c.toNat < 0x20) (hquote : c ≠ '"') (hslash : c ≠ '\\')
    (cs : List Char) :
    readUnits (c :: cs) = (readUnits cs).map fun (us, rest) => (c.toNat :: us, rest) := by
  have hplain : ¬ (c.toNat < 0x20 ∨ c = '\\') := fun hor => hor.elim hc hslash
  rw [readUnits, if_neg hplain]
  · cases readUnits cs <;> rfl
  · exact hquote
  · exact fun _ _ _ _ _ h => absurd h hslash
  · exact fun _ _ h => absurd h hslash

theorem readUnits_escaped (c : Char) (cs : List Char) :
    readUnits (escaped c ++ cs) = (readUnits cs).map fun (us, rest) => (c.toNat :: us, rest) := by
  unfold escaped
  split
  case h_8 hquote hslash _ _ _ _ _ =>
    split
    · rename_i hlow
      simp only [List.cons_append, List.nil_append, readUnits, hexValue?_low _ hlow]
      cases readUnits cs <;> rfl
    · rename_i hlow
      exact readUnits_plain hlow hquote hslash cs
  all_goals exact readUnits_short (by decide) rfl cs

theorem readUnits_printed (s rest : List Char) :
    readUnits (s.flatMap escaped ++ '"' :: rest) = some (s.map Char.toNat, rest) := by
  induction s with
  | nil => rfl
  | cons c s ih => rw [List.flatMap_cons, List.append_assoc, readUnits_escaped, ih]; rfl

theorem not_half (c : Char) : isHighHalf c.toNat = false ∧ isLowHalf c.toNat = false := by
  have hc : c.toNat < 0xD800 ∨ 0xDFFF < c.toNat ∧ c.toNat < 0x110000 := c.valid
  simp only [isHighHalf, isLowHalf, Bool.and_eq_false_iff, decide_eq_false_iff_not]
  omega

theorem joinHalves_chars (s : List Char) : joinHalves (s.map Char.toNat) = some s := by
  induction s with
  | nil => rfl
  | cons c s ih =>
    obtain ⟨hhigh, hlow⟩ := not_half c
    cases s with
    | nil => simp [joinHalves, hhigh, hlow]
    | cons d s =>
      rw [List.map_cons] at ih
      simp [joinHalves, hhigh, hlow, ih]

/-! ## Numbers -/

def Stops (cs : List Char) : Prop := ∀ c ∈ cs.head?, isDigit c = false ∧ c ≠ '.' ∧ c ≠ 'e' ∧ c ≠ 'E'

theorem stops_nil : Stops [] := nofun

theorem stops_cons {c : Char} (h : isDigit c = false ∧ c ≠ '.' ∧ c ≠ 'e' ∧ c ≠ 'E')
    (cs : List Char) :
    Stops (c :: cs) := fun _ hd => Option.mem_some.1 hd ▸ h

theorem isDigit_of_readDigits {acc n : Nat} {cs : List Char} (h : Text.readDigits acc cs = some n) :
    ∀ c ∈ cs, isDigit c = true := by
  induction cs generalizing acc with
  | nil => exact fun c hc => (List.not_mem_nil hc).elim
  | cons d cs ih =>
    rw [Text.readDigits] at h
    cases hd : Text.digit? d with
    | none => rw [hd] at h; cases h
    | some k =>
      rw [hd] at h
      intro c hc
      rcases List.mem_cons.1 hc with rfl | hc
      · rw [isDigit, hd]; rfl
      · exact ih h c hc

theorem isDigit_of_mem_writeCount {n : Nat} {c : Char} (h : c ∈ Text.writeCount n) :
    isDigit c = true :=
  isDigit_of_readDigits (Text.readDigits_writeCount n) c h

theorem exists_writeCount_eq (n : Nat) :
    ∃ c cs, Text.writeCount n = c :: cs ∧ isDigit c = true := by
  cases hw : Text.writeCount n with
  | nil => exact absurd hw Nat.toDigits_ne_nil
  | cons c cs => exact ⟨c, cs, rfl, isDigit_of_mem_writeCount (hw ▸ List.mem_cons_self)⟩

theorem digitChar_ne_zero : ∀ d < 10, 0 < d → Nat.digitChar d ≠ '0' := by
  decide

theorem head?_writeCount_ne_zero {n : Nat} (hn : 0 < n) : (Text.writeCount n).head? ≠ some '0' := by
  induction n using Nat.strongRecOn with
  | ind n ih =>
    unfold Text.writeCount at ih ⊢
    by_cases h : n < 10
    · rw [Nat.toDigits_of_lt_base h]
      exact fun he => digitChar_ne_zero n h hn (Option.some.inj he)
    · rw [Nat.toDigits_of_base_le (by decide) (Nat.le_of_not_lt h), List.head?_append]
      have hq := ih (n / 10) (by omega) (by omega)
      cases hd : (Nat.toDigits 10 (n / 10)).head? with
      | none => exact absurd (List.head?_eq_none_iff.1 hd) Nat.toDigits_ne_nil
      | some c => rwa [hd] at hq

theorem takeWhile_writeCount (n : Nat) {rest : List Char} (h : Stops rest) :
    (Text.writeCount n ++ rest).takeWhile isDigit = Text.writeCount n ∧
      (Text.writeCount n ++ rest).dropWhile isDigit = rest := by
  rw [List.takeWhile_append_of_pos fun c => isDigit_of_mem_writeCount,
    List.dropWhile_append_of_pos fun c => isDigit_of_mem_writeCount]
  cases rest with
  | nil => simp
  | cons c rest =>
    have hc := (h c rfl).1
    simp [hc]

theorem readInteger?_writeCount (n : Nat) {rest : List Char} (h : Stops rest) :
    readInteger? (Text.writeCount n ++ rest) = some (Text.writeCount n, rest) := by
  by_cases hn : 0 < n
  · obtain ⟨htake, hdrop⟩ := takeWhile_writeCount n h
    have hzero := head?_writeCount_ne_zero hn
    obtain ⟨c, cs, hw, hdigit⟩ := exists_writeCount_eq n
    rw [hw] at htake hdrop hzero ⊢
    have hc : c ≠ '0' := fun he => hzero (he ▸ rfl)
    rw [List.cons_append] at htake hdrop ⊢
    rw [readInteger?, if_neg hc, if_pos hdigit, htake, hdrop]
  · obtain rfl : n = 0 := by omega
    rfl

theorem afterFraction?_of_stops {cs : List Char} (h : Stops cs) : afterFraction? cs = some cs := by
  unfold afterFraction?
  split
  · exact absurd rfl (h '.' rfl).2.1
  · rfl

theorem afterExponent?_of_stops {cs : List Char} (h : Stops cs) : afterExponent? cs = some cs := by
  cases cs with
  | nil => rfl
  | cons c cs =>
    obtain ⟨-, -, he, hE⟩ := h c rfl
    exact if_neg fun hor => hor.elim he hE

theorem readNumber?_writeCount (n : Nat) {rest : List Char} (h : Stops rest) :
    readNumber? (Text.writeCount n ++ rest) = some (.whole n, rest) := by
  have hminus : ∀ cs, Text.writeCount n ++ rest ≠ '-' :: cs := by
    intro cs he
    obtain ⟨c, ds, hw, hdigit⟩ := exists_writeCount_eq n
    rw [hw, List.cons_append] at he
    rw [(List.cons.inj he).1] at hdigit
    exact absurd hdigit (by decide)
  unfold readNumber?
  split
  · rename_i negative unsigned hsplit
    split at hsplit
    · rename_i cs hcs
      exact absurd hcs (hminus cs)
    · cases hsplit
      simp [readInteger?_writeCount n h, afterFraction?_of_stops h, afterExponent?_of_stops h,
        Text.readDigits_writeCount]

/-- A number is read when nothing behind it goes on with it. -/
theorem readToken?_writeCount (n : Nat) {rest : List Char} (h : Stops rest) :
    readToken? (Text.writeCount n ++ rest) = some (.whole n, rest) := by
  rw [← readNumber?_writeCount n h]
  obtain ⟨c, ds, hw, hdigit⟩ := exists_writeCount_eq n
  rw [hw, List.cons_append, readToken?.eq_def]
  -- Everything else that a token begins with is no digit.
  split
  case h_11 => rfl
  all_goals
    rename_i hc
    rw [(List.cons.inj hc).1] at hdigit
    exact absurd hdigit (by decide)

theorem readToken?_printText (s : String) (rest : List Char) :
    readToken? (printText s ++ rest) = some (.text (some s.toList), rest) := by
  have hunits := readUnits_printed s.toList rest
  simp only [printText, List.cons_append, List.append_assoc, List.nil_append]
  rw [readToken?, hunits, Option.map_some]
  show some (Token.text (joinHalves _), rest) = _
  rw [joinHalves_chars]

/-! ## Rows of tokens -/

/-- A text is read as some tokens, whatever more is allowed than its length. -/
def Lexes (cs : List Char) (ts : List Token) : Prop :=
  ∀ n, cs.length ≤ n → readTokens n cs = some ts

theorem lexes_nil : Lexes [] [] := by
  intro n _
  cases n <;> rfl

variable {c : Char} {cs : List Char} {t : Token} {ts : List Token} {l : Layout} {v : Json}

theorem Lexes.blank (h : Lexes cs ts) (hc : isBlank c = true) : Lexes (c :: cs) ts := by
  intro n hn
  rw [← h n (by rw [List.length_cons] at hn; omega)]
  rw [readTokens.eq_def, readTokens.eq_def n cs]
  dsimp only
  rw [List.dropWhile_cons_of_pos hc]

theorem Lexes.break (h : Lexes cs ts) (l : Layout) (level : Nat) :
    Lexes (l.break level ++ cs) ts := by
  cases l with
  | compact => exact h
  | pretty =>
    have hspaces : Lexes (List.replicate (2 * level) ' ' ++ cs) ts := by
      induction 2 * level with
      | zero => exact h
      | succ k ih => exact ih.blank rfl
    exact hspaces.blank rfl

theorem Lexes.token (h : Lexes cs ts) (ds : List Char) (hc : isBlank c = false)
    (hread : readToken? (c :: ds ++ cs) = some (t, cs)) : Lexes (c :: ds ++ cs) (t :: ts) := by
  intro n hn
  cases n with
  | zero => cases hn
  | succ n =>
    have hrest := h n (by simp only [List.length_append, List.length_cons] at hn; omega)
    rw [List.cons_append] at hread ⊢
    have hhead : (c :: (ds ++ cs)).dropWhile isBlank = c :: (ds ++ cs) :=
      List.dropWhile_cons_of_neg (by rw [hc]; exact Bool.false_ne_true)
    rw [readTokens.eq_def]
    dsimp only
    rw [hhead]
    dsimp only
    rw [hread]
    dsimp only
    rw [hrest, Option.map_some]

theorem Lexes.openList (h : Lexes cs ts) : Lexes ('[' :: cs) (.openList :: ts) := h.token [] rfl rfl

theorem Lexes.closeList (h : Lexes cs ts) :
    Lexes (']' :: cs) (.closeList :: ts) := h.token [] rfl rfl

theorem Lexes.openRecord (h : Lexes cs ts) :
    Lexes ('\x7b' :: cs) (.openRecord :: ts) := h.token [] rfl rfl

theorem Lexes.closeRecord (h : Lexes cs ts) :
    Lexes ('\x7d' :: cs) (.closeRecord :: ts) := h.token [] rfl rfl

theorem Lexes.comma (h : Lexes cs ts) : Lexes (',' :: cs) (.comma :: ts) := h.token [] rfl rfl

theorem Lexes.colon (h : Lexes cs ts) (l : Layout) : Lexes (l.colon ++ cs) (.colon :: ts) := by
  cases l with
  | compact => exact h.token [] rfl rfl
  | pretty => exact (h.blank rfl).token [] rfl rfl

theorem Lexes.text (h : Lexes cs ts) (s : String) :
    Lexes (printText s ++ cs) (.text (some s.toList) :: ts) :=
  h.token (s.toList.flatMap escaped ++ ['"']) rfl (readToken?_printText s cs)

theorem Lexes.whole (h : Lexes cs ts) (hstop : Stops cs) (n : Nat) :
    Lexes (Text.writeCount n ++ cs) (.whole n :: ts) := by
  have hread := readToken?_writeCount n hstop
  obtain ⟨c, ds, hw, hdigit⟩ := exists_writeCount_eq n
  have hblank : isBlank c = false := by
    rw [Bool.eq_false_iff]
    intro hb
    simp only [isBlank, Bool.or_eq_true, decide_eq_true_eq] at hb
    rcases hb with ((rfl | rfl) | rfl) | rfl <;> exact absurd hdigit (by decide)
  rw [hw] at hread ⊢
  exact h.token ds hblank hread

/-! ## Values -/

theorem Stops.break (h : Stops cs) (l : Layout) (level : Nat) : Stops (l.break level ++ cs) := by
  cases l with
  | compact => exact h
  | pretty => exact stops_cons (by decide) _

theorem Stops.items (h : Stops cs) (l : Layout) (level : Nat) (vs : List Json) :
    Stops (printItems l level vs ++ cs) := by
  cases vs with
  | nil => exact h
  | cons v vs => exact stops_cons (by decide) _

theorem Stops.members (h : Stops cs) (l : Layout) (level : Nat) (ms : List (Option String × Json)) :
    Stops (printMembers l level ms ++ cs) := by
  cases ms with
  | nil => exact h
  | cons m ms => exact stops_cons (by decide) _

/-- A printed value is read as its tokens, before anything that stops it. -/
def Written (l : Layout) (v : Json) : Prop := ∀ level {cs ts}, Stops cs → Lexes cs ts →
  Lexes (printAt l level v ++ cs) (v.tokens ++ ts)

theorem lexes_items (level : Nat) {vs : List Json} (hvs : ∀ v ∈ vs, Written l v) (hstop : Stops cs)
    (h : Lexes cs ts) : Lexes (printItems l level vs ++ cs) (itemsTokens vs ++ ts) := by
  induction vs with
  | nil => exact h
  | cons v vs ih =>
    rw [printItems, itemsTokens]
    simp only [List.cons_append, List.append_assoc]
    have hrest := ih fun w hw => hvs w (List.mem_cons_of_mem _ hw)
    exact ((hvs v List.mem_cons_self level (hstop.items l level vs) hrest).break l level).comma

theorem Written.list {vs : List Json} (hvs : ∀ v ∈ vs, Written l v) : Written l (.list vs) := by
  intro level cs ts _ h
  cases vs with
  | nil => exact h.closeList.openList
  | cons v vs =>
    rw [printAt, tokens]
    simp only [List.cons_append, List.append_assoc, List.nil_append]
    have hclose : Stops (l.break level ++ ']' :: cs) := (stops_cons (by decide) cs).break l level
    have hrest := lexes_items (level + 1) (fun w hw => hvs w (List.mem_cons_of_mem _ hw)) hclose
      (h.closeList.break l level)
    exact ((hvs v List.mem_cons_self (level + 1) (hclose.items l _ vs) hrest).break l _).openList

theorem lexes_member (level : Nat) (hv : Written l v) (hstop : Stops cs) (h : Lexes cs ts)
    (k : String) :
    Lexes (printMember l level (some k, v) ++ cs) (memberTokens (some k, v) ++ ts) := by
  rw [printMember, memberTokens]
  simp only [List.cons_append, List.append_assoc]
  exact ((hv level hstop h).colon l).text k

theorem lexes_members (level : Nat) {ms : List (String × Json)} (hms : ∀ m ∈ ms, Written l m.2)
    (hstop : Stops cs) (h : Lexes cs ts) :
    Lexes (printMembers l level (ms.map fun (k, v) => (some k, v)) ++ cs)
      (membersTokens (ms.map fun (k, v) => (some k, v)) ++ ts) := by
  induction ms with
  | nil => exact h
  | cons m ms ih =>
    rw [List.map_cons, printMembers, membersTokens]
    simp only [List.cons_append, List.append_assoc]
    have hrest := ih fun w hw => hms w (List.mem_cons_of_mem _ hw)
    exact ((lexes_member level (hms m List.mem_cons_self) (hstop.members l level _) hrest m.1).break
      l level).comma

theorem Written.record {ms : List (String × Json)} (hms : ∀ m ∈ ms, Written l m.2) :
    Written l (.ofMembers ms) := by
  intro level cs ts _ h
  cases ms with
  | nil => exact h.closeRecord.openRecord
  | cons m ms =>
    rw [ofMembers, List.map_cons, printAt, tokens]
    simp only [List.cons_append, List.append_assoc, List.nil_append]
    have hclose : Stops (l.break level ++ '\x7d' :: cs) := (stops_cons (by decide) cs).break l level
    have hrest := lexes_members (level + 1) (fun w hw => hms w (List.mem_cons_of_mem _ hw)) hclose
      (h.closeRecord.break l level)
    exact ((lexes_member (level + 1) (hms m List.mem_cons_self)
      (hclose.members l _ _) hrest m.1).break l _).openRecord

/-- Every value that can be written is read as its tokens. -/
theorem Writable.written (hv : Writable v) (l : Layout) : Written l v := by
  induction hv with
  | null => exact fun _ _ _ _ h => h.token ['u', 'l', 'l'] rfl rfl
  | flag b =>
    cases b with
    | true => exact fun _ _ _ _ h => h.token ['r', 'u', 'e'] rfl rfl
    | false => exact fun _ _ _ _ h => h.token ['a', 'l', 's', 'e'] rfl rfl
  | @whole n _ => exact fun _ _ _ hstop h => h.whole hstop n
  | text s => exact fun _ _ _ _ h => h.text s
  | list _ ih => exact Written.list ih
  | record _ _ ih => exact Written.record ih

theorem tokens?_print (hv : Writable v) (l : Layout) :
    tokens? (v.print l).toList = some v.tokens := by
  have h := hv.written l 0 stops_nil lexes_nil
  rw [List.append_nil, List.append_nil] at h
  rw [print, String.toList_ofList]
  exact h _ (Nat.le_refl _)

end AsyncSpread.Json
