import Mathlib.Data.List.Basic
import AsyncSpread.Config

/-!
Exclude patterns and glob patterns.

In a glob pattern a star stands for any row of characters (`Matches`).  An exclude pattern with
stars is not read like this: what is left without the stars is looked for anywhere in the name
(`excludes_of_star`).  It leaves out every directory that the glob pattern matches just if its stars
do not part what is left (`matches_imp_excludes_iff`), and no other directory just if it has a star
at both of its ends, too (`excludes_iff_matches_iff`); one without stars is always read right.
-/

namespace AsyncSpread.Config

/-- What a glob pattern matches: a star stands for any row of characters, every other character for
itself. -/
inductive Matches : List Char → List Char → Prop
  | nil : Matches [] []
  | star {pattern name : List Char} (row : List Char) :
      Matches pattern name → Matches ('*' :: pattern) (row ++ name)
  | char {pattern name : List Char} {c : Char} :
      c ≠ '*' → Matches pattern name → Matches (c :: pattern) (c :: name)

/-- What a pattern is without its stars. -/
def literal (pattern : List Char) : List Char := pattern.filter (· ≠ '*')

section

variable {p q a b n : List Char}

theorem Matches.refl (p : List Char) : Matches p p := by
  induction p with
  | nil => exact .nil
  | cons c p ih =>
    by_cases h : c = '*'
    · subst h
      exact .star ['*'] ih
    · exact .char h ih

theorem Matches.append {m : List Char} (hp : Matches p m) (hq : Matches q n) :
    Matches (p ++ q) (m ++ n) := by
  induction hp with
  | nil => exact hq
  | star row _ ih =>
    rw [List.append_assoc]
    exact .star row ih
  | char hc _ ih => exact .char hc ih

/-- What matches a pattern in two parts has two parts that match them. -/
theorem Matches.parts (h : Matches (p ++ q) n) :
    ∃ m m', n = m ++ m' ∧ Matches p m ∧ Matches q m' := by
  induction p generalizing n with
  | nil => exact ⟨[], n, rfl, .nil, h⟩
  | cons c p ih =>
    cases h with
    | star row h =>
      obtain ⟨m, m', rfl, hp, hq⟩ := ih h
      exact ⟨row ++ m, m', (List.append_assoc ..).symm, .star row hp, hq⟩
    | char hc h =>
      obtain ⟨m, m', rfl, hp, hq⟩ := ih h
      exact ⟨c :: m, m', rfl, .char hc hp, hq⟩

theorem matches_iff_eq (h : '*' ∉ p) : Matches p n ↔ n = p := by
  refine ⟨fun hm => ?_, fun hn => hn ▸ .refl p⟩
  induction hm with
  | nil => rfl
  | star => exact absurd List.mem_cons_self h
  | char _ _ ih => exact congrArg _ (ih fun hmem => h (List.mem_cons_of_mem _ hmem))

theorem matches_stars (hne : p ≠ []) (h : ∀ c ∈ p, c = '*') (n : List Char) : Matches p n := by
  induction p with
  | nil => exact absurd rfl hne
  | cons c p ih =>
    obtain rfl := h c List.mem_cons_self
    cases p with
    | nil => exact n.append_nil ▸ .star n .nil
    | cons d p =>
      exact .star [] (ih (List.cons_ne_nil d p) fun x hx => h x (List.mem_cons_of_mem _ hx))

theorem star_notMem_literal (p : List Char) : '*' ∉ literal p := by simp [literal]

theorem literal_eq_self (h : '*' ∉ p) : literal p = p :=
  List.filter_eq_self.2 fun _ hc => decide_eq_true fun heq => h (heq ▸ hc)

theorem literal_eq_nil {p : List Char} : literal p = [] ↔ ∀ c ∈ p, c = '*' := by
  simp [literal, List.filter_eq_nil_iff]

/-- Around what is left of a pattern in one piece there are stars only. -/
theorem exists_parts (h : literal p <:+: p) :
    ∃ a l b, p = a ++ l ++ b ∧ literal p = l ∧ '*' ∉ l ∧ (∀ c ∈ a, c = '*') ∧ ∀ c ∈ b, c = '*' := by
  obtain ⟨a, b, hp⟩ := h
  have hstar := star_notMem_literal p
  have hparts : literal (a ++ literal p ++ b) = literal a ++ literal (literal p) ++ literal b := by
    simp [literal]
  rw [hp, literal_eq_self hstar] at hparts
  have hlength := congrArg List.length hparts
  rw [List.length_append, List.length_append] at hlength
  have ha : literal a = [] := List.length_eq_zero_iff.1 (by omega)
  have hb : literal b = [] := List.length_eq_zero_iff.1 (by omega)
  exact ⟨a, literal p, b, hp.symm, rfl, hstar, literal_eq_nil.1 ha, literal_eq_nil.1 hb⟩

/-- What a pattern matches has what is left of the pattern in one piece, where the pattern itself
has. -/
theorem literal_infix_of_matches (h : literal p <:+: p) (hm : Matches p n) : literal p <:+: n := by
  obtain ⟨a, l, b, rfl, hl, hstar, -, -⟩ := exists_parts h
  obtain ⟨m, back, rfl, hm, -⟩ := hm.parts
  obtain ⟨front, middle, rfl, -, hmiddle⟩ := hm.parts
  rw [hl, (matches_iff_eq hstar).1 hmiddle]
  exact List.infix_append front l back

/-- A pattern in one piece with a star at both of its ends matches wherever the piece occurs. -/
theorem matches_of_literal_infix (h : literal p <:+: p) (hhead : p.head? = some '*')
    (hlast : p.getLast? = some '*') (hn : literal p <:+: n) : Matches p n := by
  obtain ⟨a, l, b, rfl, hl, hstar, ha, hb⟩ := exists_parts h
  rw [hl] at hn
  obtain ⟨front, back, rfl⟩ := hn
  by_cases hnone : l = []
  · subst hnone
    rw [List.append_nil] at hhead ⊢
    have hne : a ++ b ≠ [] := fun hnil => by rw [hnil] at hhead; cases hhead
    exact matches_stars hne (fun c hc => (List.mem_append.1 hc).elim (ha c) (hb c)) _
  · -- The literal has no star at its ends, so those at the ends of the pattern are outside of it.
    have hane : a ≠ [] := by
      rintro rfl
      rw [List.nil_append, List.head?_append_of_ne_nil _ hnone] at hhead
      exact hstar (List.mem_of_mem_head? hhead)
    have hbne : b ≠ [] := by
      rintro rfl
      rw [List.append_nil, List.getLast?_append_of_ne_nil _ hnone] at hlast
      exact hstar (List.mem_of_mem_getLast? hlast)
    exact ((matches_stars hane ha front).append (.refl l)).append (matches_stars hbne hb back)

theorem head?_of_matches {c : Char} (hp : p.head? = some c) (hc : c ≠ '*') (hm : Matches p n) :
    n.head? = some c := by
  cases hm with
  | nil => exact hp
  | star => exact absurd (Option.some.inj hp).symm hc
  | char => exact hp

theorem getLast?_of_matches {c : Char} (hp : p.getLast? = some c) (hc : c ≠ '*')
    (hm : Matches p n) : n.getLast? = some c := by
  obtain ⟨q, rfl⟩ := List.getLast?_eq_some_iff.1 hp
  obtain ⟨m, m', rfl, -, hlast⟩ := hm.parts
  rw [(matches_iff_eq fun hmem => hc (List.mem_singleton.1 hmem).symm).1 hlast]
  exact List.getLast?_concat

end

section

variable {pattern : String}

theorem excludes_of_star (h : '*' ∈ pattern.toList) (name : String) :
    excludes pattern name = true ↔ literal pattern.toList <:+: name.toList := by
  rw [excludes, if_pos (List.contains_iff_mem.2 h)]
  exact Text.occursIn_iff

theorem excludes_of_no_star (h : '*' ∉ pattern.toList) (name : String) :
    excludes pattern name = true ↔ name = pattern := by
  rw [excludes, if_neg fun hmem => h (List.contains_iff_mem.1 hmem), beq_iff_eq]

/-- A pattern leaves out all that it matches just if its stars do not part what is left without
them. -/
theorem matches_imp_excludes_iff :
    (∀ name : String, Matches pattern.toList name.toList → excludes pattern name = true) ↔
      literal pattern.toList <:+: pattern.toList := by
  by_cases hstar : '*' ∈ pattern.toList
  · refine ⟨fun h => (excludes_of_star hstar pattern).1 (h pattern (.refl _)), fun h name hm => ?_⟩
    exact (excludes_of_star hstar name).2 (literal_infix_of_matches h hm)
  · refine ⟨fun _ => (literal_eq_self hstar).symm ▸ List.infix_rfl, fun _ name hm => ?_⟩
    exact (excludes_of_no_star hstar name).2 (String.toList_inj.1 ((matches_iff_eq hstar).1 hm))

/-- A pattern leaves out what it matches and nothing else just if it has no star, or has one at each
of its ends and none that parts what is left. -/
theorem excludes_iff_matches_iff :
    (∀ name : String, excludes pattern name = true ↔ Matches pattern.toList name.toList) ↔
      literal pattern.toList <:+: pattern.toList ∧
        ('*' ∈ pattern.toList → pattern.toList.head? = some '*' ∧
          pattern.toList.getLast? = some '*') := by
  refine ⟨fun h => ⟨matches_imp_excludes_iff.1 fun name => (h name).2, fun hstar => ?_⟩,
    fun ⟨hpiece, hends⟩ name => ?_⟩
  · have hbeside (front back : List Char) :
        Matches pattern.toList (front ++ literal pattern.toList ++ back) := by
      have hm := (h (String.ofList (front ++ literal pattern.toList ++ back))).1
        ((excludes_of_star hstar _).2 (by rw [String.toList_ofList]; exact List.infix_append ..))
      rwa [String.toList_ofList] at hm
    have hne : pattern.toList ≠ [] := List.ne_nil_of_mem hstar
    -- What is left is taken with any character in front or behind, so the pattern has no other
    -- character there.
    constructor
    · by_contra hhead
      have hfirst (x : Char) : x = pattern.toList.head hne :=
        Option.some.inj (head?_of_matches (List.head?_eq_some_head hne)
          (fun heq => hhead (heq ▸ List.head?_eq_some_head hne))
          (hbeside [x] []))
      exact absurd ((hfirst 'a').trans (hfirst 'b').symm) (by decide)
    · by_contra hlast
      have hend (x : Char) : x = pattern.toList.getLast hne := by
        have hback := getLast?_of_matches (List.getLast?_eq_some_getLast hne)
          (fun heq => hlast (heq ▸ List.getLast?_eq_some_getLast hne)) (hbeside [] [x])
        rw [List.getLast?_concat] at hback
        exact Option.some.inj hback
      exact absurd ((hend 'a').trans (hend 'b').symm) (by decide)
  · refine ⟨fun hex => ?_, fun hm => matches_imp_excludes_iff.2 hpiece name hm⟩
    by_cases hstar : '*' ∈ pattern.toList
    · obtain ⟨hhead, hlast⟩ := hends hstar
      exact matches_of_literal_infix hpiece hhead hlast ((excludes_of_star hstar name).1 hex)
    · exact (matches_iff_eq hstar).2
        (congrArg String.toList ((excludes_of_no_star hstar name).1 hex))

/-- A directory that one of the patterns matches is left out, where the stars of no pattern part
what is left without them. -/
theorem excludesDir_of_matches {c : Config}
    (hpieces : ∀ p ∈ c.excludeDirs, literal p.toList <:+: p.toList) {name : String}
    (h : ∃ p ∈ c.excludeDirs, Matches p.toList name.toList) : c.excludesDir name = true := by
  obtain ⟨p, hp, hm⟩ := h
  exact List.any_eq_true.2 ⟨p, hp, matches_imp_excludes_iff.2 (hpieces p hp) name hm⟩

-- More is left out than the pattern matches.
example : standard.excludesDir "a.egg-info.old" = true := by decide

end

end AsyncSpread.Config
