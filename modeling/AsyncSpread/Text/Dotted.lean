import AsyncSpread.Text.Line

/-!
Dotted names: `package.module.Class.function`.

The cuts that take names apart are pinned down by what they give back: `cutFirst?_eq_some_iff` and
`cutLast?_eq_some_iff` say that a cut loses nothing but the separator, and on which side no other
one is left.
-/

namespace AsyncSpread.Text

def cutLast? (sep : Char) : List Char → Option (List Char × List Char)
  | [] => none
  | c :: cs =>
    match cutLast? sep cs with
    | some (a, b) => some (c :: a, b)
    | none => if c = sep then some ([], cs) else none

def cutFirst? (sep : Char) : List Char → Option (List Char × List Char)
  | [] => none
  | c :: cs =>
    if c = sep then some ([], cs)
    else (cutFirst? sep cs).map fun (a, b) => (c :: a, b)

theorem cutLast?_eq_none_iff {sep : Char} {cs : List Char} : cutLast? sep cs = none ↔ sep ∉ cs := by
  induction cs with
  | nil => simp [cutLast?]
  | cons c cs ih =>
    unfold cutLast?
    cases h : cutLast? sep cs with
    | some p =>
      have hs : sep ∈ cs := by
        apply Classical.byContradiction
        intro hn
        rw [ih.2 hn] at h
        cases h
      simp [hs]
    | none =>
      have hs : sep ∉ cs := ih.1 h
      by_cases hc : c = sep
      · simp [hc]
      · simp [hc, hs, Ne.symm hc]

/-- The last separator is the one behind which there is none. -/
theorem cutLast?_eq_some_iff {sep : Char} {cs a b : List Char} :
    cutLast? sep cs = some (a, b) ↔ cs = a ++ sep :: b ∧ sep ∉ b := by
  induction cs generalizing a with
  | nil => simp [cutLast?]
  | cons c cs ih =>
    unfold cutLast?
    cases h : cutLast? sep cs with
    | some p =>
      obtain ⟨x, y⟩ := p
      have hs : sep ∈ cs := by
        apply Classical.byContradiction
        intro hn
        rw [cutLast?_eq_none_iff.2 hn] at h
        cases h
      constructor
      · intro hp
        simp only [Option.some.injEq, Prod.mk.injEq] at hp
        obtain ⟨rfl, rfl⟩ := hp
        obtain ⟨rfl, hb⟩ := ih.1 h
        exact ⟨rfl, hb⟩
      · rintro ⟨hcs, hb⟩
        cases a with
        | nil =>
          simp only [List.nil_append, List.cons.injEq] at hcs
          exact absurd (hcs.2 ▸ hs) hb
        | cons d a =>
          simp only [List.cons_append, List.cons.injEq] at hcs
          have hp := ih.2 ⟨hcs.2, hb⟩
          rw [h, Option.some.injEq, Prod.mk.injEq] at hp
          simp [hcs.1, hp.1, hp.2]
    | none =>
      have hs : sep ∉ cs := cutLast?_eq_none_iff.1 h
      constructor
      · intro hp
        by_cases hc : c = sep
        · simp only [hc, if_true, Option.some.injEq, Prod.mk.injEq] at hp
          obtain ⟨rfl, rfl⟩ := hp
          exact ⟨by simp [hc], hs⟩
        · simp [hc] at hp
      · rintro ⟨hcs, hb⟩
        cases a with
        | nil =>
          simp only [List.nil_append, List.cons.injEq] at hcs
          simp [hcs.1, hcs.2]
        | cons d a =>
          simp only [List.cons_append, List.cons.injEq] at hcs
          exact absurd (by simp [hcs.2]) hs

theorem cutFirst?_eq_none_iff {sep : Char} {cs : List Char} :
    cutFirst? sep cs = none ↔ sep ∉ cs := by
  induction cs with
  | nil => simp [cutFirst?]
  | cons c cs ih =>
    unfold cutFirst?
    by_cases hc : c = sep
    · simp [hc]
    · simp [hc, ih, Ne.symm hc]

/-- The first separator is the one in front of which there is none. -/
theorem cutFirst?_eq_some_iff {sep : Char} {cs a b : List Char} :
    cutFirst? sep cs = some (a, b) ↔ cs = a ++ sep :: b ∧ sep ∉ a := by
  induction cs generalizing a with
  | nil => simp [cutFirst?]
  | cons c cs ih =>
    unfold cutFirst?
    cases a with
    | nil =>
      by_cases hc : c = sep
      · simp [hc]
      · simp [hc]
    | cons d a =>
      by_cases hc : c = sep
      · simp only [hc, if_true, Option.some.injEq, Prod.mk.injEq, List.nil_eq,
          reduceCtorEq, false_and,
          List.cons_append, List.cons.injEq, List.mem_cons, not_or, false_iff, not_and, and_imp]
        intro hd _ hn
        exact absurd hd hn
      · simp only [hc, if_false, Option.map_eq_some_iff, Prod.exists, Prod.mk.injEq,
          List.cons_append, List.cons.injEq, List.mem_cons, not_or]
        constructor
        · rintro ⟨x, y, h, ⟨rfl, rfl⟩, rfl⟩
          obtain ⟨h, hn⟩ := ih.1 h
          exact ⟨⟨rfl, h⟩, Ne.symm hc, hn⟩
        · rintro ⟨⟨rfl, h⟩, _, hn⟩
          exact ⟨a, b, ih.2 ⟨h, hn⟩, ⟨rfl, rfl⟩, rfl⟩

/-- What is left of a row behind its beginning, if it begins so. -/
def after? {α : Type} [DecidableEq α] : List α → List α → Option (List α)
  | [], cs => some cs
  | _ :: _, [] => none
  | d :: ds, c :: cs => if d = c then after? ds cs else none

theorem after?_eq_some_iff {α : Type} [DecidableEq α] {ds cs rest : List α} :
    after? ds cs = some rest ↔ cs = ds ++ rest := by
  induction ds generalizing cs with
  | nil => simp [after?]
  | cons d ds ih =>
    cases cs with
    | nil => simp [after?]
    | cons c cs =>
      unfold after?
      split
      · rename_i h; simp [ih, h]
      · rename_i h
        simp only [reduceCtorEq, List.cons_append, List.cons.injEq, false_iff, not_and]
        intro h'
        exact absurd h'.symm h

def occursIn (needle : List Char) : List Char → Bool
  | [] => needle.isEmpty
  | c :: cs => needle.isPrefixOf (c :: cs) || occursIn needle cs

theorem occursIn_iff {needle cs : List Char} : occursIn needle cs ↔ needle <:+: cs := by
  induction cs with
  | nil => simp [occursIn, List.isEmpty_iff]
  | cons c cs ih => simp [occursIn, ih, List.infix_cons_iff]

end AsyncSpread.Text

namespace AsyncSpread

def dotted (name : String) : List String := (Text.piecesBetween '.' name.toList).map String.ofList

/-- The last component of a dotted name, which is the whole name when it has no dot. -/
def shortName (name : String) : String :=
  match Text.cutLast? '.' name.toList with
  | some (_, last) => String.ofList last
  | none => name

theorem getLast?_dotted (name : String) : (dotted name).getLast? = some (shortName name) := by
  rw [dotted, shortName, List.getLast?_map]
  cases h : Text.cutLast? '.' name.toList with
  | none =>
    rw [Text.piecesBetween_of_not_mem (Text.cutLast?_eq_none_iff.1 h)]
    simp
  | some p =>
    obtain ⟨outer, last⟩ := p
    obtain ⟨hname, hlast⟩ := Text.cutLast?_eq_some_iff.1 h
    rw [hname, Text.piecesBetween_append_cons, Text.piecesBetween_of_not_mem hlast]
    simp

theorem shortName_suffix (name : String) : (shortName name).toList <:+ name.toList := by
  unfold shortName
  cases h : Text.cutLast? '.' name.toList with
  | none => exact List.suffix_rfl
  | some p =>
    obtain ⟨outer, last⟩ := p
    rw [(Text.cutLast?_eq_some_iff.1 h).1, String.toList_ofList]
    exact (List.suffix_cons '.' last).trans (List.suffix_append outer _)

def below (outer : String) (name : String) : String := outer ++ "." ++ name

/-- What a name is called inside a module, if it lies in the module. -/
def within? (module name : String) : Option String := do
  match ← Text.after? module.toList name.toList with
  | '.' :: rest => some (String.ofList rest)
  | _ => none

/-- A name lies in a module just if it is a name below it. -/
theorem within?_eq_some_iff {module name inner : String} :
    within? module name = some inner ↔ name = below module inner := by
  have hb : name = below module inner ↔ name.toList = module.toList ++ '.' :: inner.toList := by
    rw [← String.toList_inj]
    simp [below]
  rw [hb]
  unfold within?
  cases h : Text.after? module.toList name.toList with
  | none =>
    simp only [Option.bind_eq_bind, Option.bind_none, reduceCtorEq, false_iff]
    intro hn
    rw [Text.after?_eq_some_iff.2 hn] at h
    cases h
  | some rest =>
    have hr := Text.after?_eq_some_iff.1 h
    rw [hr]
    simp only [Option.bind_eq_bind, Option.bind_some, List.append_cancel_left_eq]
    split
    · rename_i rest'
      simp only [Option.some.injEq, List.cons.injEq, true_and]
      constructor
      · rintro rfl; simp
      · rintro rfl; simp
    · rename_i hne
      simp only [reduceCtorEq, false_iff]
      intro hrest
      exact hne _ hrest

theorem toList_below (outer name : String) :
    (below outer name).toList = outer.toList ++ '.' :: name.toList := by
  simp [below]

/-- Of two cuts of one name, the later one cuts the rest behind the earlier one. -/
theorem exists_below_of_lt {outer inner module rest : String}
    (h : below outer inner = below module rest) (hlt : module.toList.length < outer.toList.length) :
    ∃ middle, outer = below module middle ∧ rest = below middle inner := by
  rw [← String.toList_inj, toList_below, toList_below] at h
  rcases List.append_eq_append_iff.1 h with ⟨cs, hm, -⟩ | ⟨cs, ho, hr⟩
  · have hlen := congrArg List.length hm
    rw [List.length_append] at hlen
    omega
  · cases cs with
    | nil =>
      rw [ho, List.append_nil] at hlt
      omega
    | cons c cs =>
      rw [List.cons_append, List.cons.injEq] at hr
      obtain ⟨rfl, hr⟩ := hr
      refine ⟨String.ofList cs, ?_, ?_⟩
      · rw [← String.toList_inj, toList_below, String.toList_ofList, ho]
      · rw [← String.toList_inj, toList_below, String.toList_ofList, hr]

theorem below_below (a b c : String) : below (below a b) c = below a (below b c) := by
  simp [below, String.append_assoc]

theorem below_right_inj {outer a b : String} : below outer a = below outer b ↔ a = b := by
  rw [← within?_eq_some_iff, within?_eq_some_iff.2 (rfl : below outer a = _), Option.some.injEq]

theorem exists_below_of_dot {rest : String} (h : '.' ∈ rest.toList) :
    ∃ head inner, rest = below head inner ∧ '.' ∉ head.toList := by
  cases hcut : Text.cutFirst? '.' rest.toList with
  | none => exact absurd h (Text.cutFirst?_eq_none_iff.1 hcut)
  | some cut =>
    obtain ⟨head, inner⟩ := cut
    obtain ⟨hrest, hdot⟩ := Text.cutFirst?_eq_some_iff.1 hcut
    refine ⟨String.ofList head, String.ofList inner, ?_, ?_⟩
    · rw [← String.toList_inj, toList_below, hrest, String.toList_ofList, String.toList_ofList]
    · rwa [String.toList_ofList]

theorem cutFirst?_of_below {head inner rest : String} (h : rest = below head inner)
    (hdot : '.' ∉ head.toList) :
    Text.cutFirst? '.' rest.toList = some (head.toList, inner.toList) := by
  rw [Text.cutFirst?_eq_some_iff, h, toList_below]
  exact ⟨rfl, hdot⟩

theorem dotted_below (outer name : String) :
    dotted (below outer name) = dotted outer ++ dotted name := by
  rw [dotted, toList_below, Text.piecesBetween_append_cons, List.map_append]
  rfl

theorem dotted_ne_nil (name : String) : dotted name ≠ [] := by
  rw [dotted, ne_eq, List.map_eq_nil_iff]
  exact Text.piecesBetween_ne_nil '.' name.toList

theorem intercalate_dotted (name : String) : ".".intercalate (dotted name) = name := by
  rw [← String.toList_inj, String.toList_intercalate, dotted, List.map_map]
  have hpieces : (Text.piecesBetween '.' name.toList).map (String.toList ∘ String.ofList) =
      Text.piecesBetween '.' name.toList := by simp
  rw [hpieces]
  exact Text.intercalate_piecesBetween '.' name.toList

theorem dotted_intercalate {names : List String} (h : ∀ name ∈ names, '.' ∉ name.toList)
    (hne : names ≠ []) : dotted (".".intercalate names) = names := by
  have hdots : ∀ piece ∈ names.map String.toList, '.' ∉ piece := by
    intro piece hpiece
    obtain ⟨name, hname, rfl⟩ := List.mem_map.1 hpiece
    exact h name hname
  have hpieces := Text.piecesBetween_intercalate hdots (by simpa using hne)
  rw [dotted, String.toList_intercalate]
  exact (congrArg (List.map String.ofList) hpieces).trans (by simp)

end AsyncSpread
