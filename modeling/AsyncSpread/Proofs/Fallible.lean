/-!
Steps that can fail.

What comes of two steps comes of both (`exists_of_bind`).  When a list is mapped through a function
that can fail, the first failure ends the map and is its result (`mapM_eq_error_iff`).  Without one
the result is the list of results, of which here only the members count (`mem_of_mapM`,
`exists_mapM`).
-/

namespace AsyncSpread.Fallible

variable {α β ε : Type} {f : α → Except ε β}

/-- What comes of two steps comes of the second one, with what came of the first. -/
theorem exists_of_bind {x : Except ε α} {b : β} (h : (x >>= f) = .ok b) :
    ∃ a, x = .ok a ∧ f a = .ok b := by
  cases x with
  | error e => cases h
  | ok a => exact ⟨a, rfl, h⟩

theorem mapM_cons_ok {a : α} {b : β} (h : f a = .ok b) (l : List α) :
    (a :: l).mapM f = (l.mapM f).map (b :: ·) := by
  rw [List.mapM_cons, h]
  cases l.mapM f <;> rfl

theorem mapM_cons_error {a : α} {e : ε} (h : f a = .error e) (l : List α) :
    (a :: l).mapM f = .error e := by
  rw [List.mapM_cons, h]
  rfl

theorem exists_mapM {l : List α} (h : ∀ a ∈ l, ∃ b, f a = .ok b) : ∃ r, l.mapM f = .ok r := by
  induction l with
  | nil => exact ⟨[], rfl⟩
  | cons a l ih =>
    obtain ⟨b, hb⟩ := h a List.mem_cons_self
    obtain ⟨r, hr⟩ := ih fun x hx => h x (List.mem_cons_of_mem a hx)
    exact ⟨b :: r, by rw [mapM_cons_ok hb, hr]; rfl⟩

/-- The members of the result are the results of the members. -/
theorem mem_of_mapM {l : List α} {r : List β} (h : l.mapM f = .ok r) {b : β} :
    b ∈ r ↔ ∃ a ∈ l, f a = .ok b := by
  induction l generalizing r with
  | nil =>
    cases h
    simp
  | cons a l ih =>
    cases ha : f a with
    | error e =>
      rw [mapM_cons_error ha] at h
      cases h
    | ok x =>
      rw [mapM_cons_ok ha] at h
      cases hl : l.mapM f with
      | error e =>
        rw [hl] at h
        cases h
      | ok s =>
        rw [hl] at h
        cases h
        simp only [List.mem_cons, ih hl, exists_eq_or_imp, ha, Except.ok.injEq]
        exact or_congr eq_comm Iff.rfl

theorem exists_of_mapM {l : List α} {r : List β} (h : l.mapM f = .ok r) {a : α} (ha : a ∈ l) :
    ∃ b ∈ r, f a = .ok b := by
  cases hb : f a with
  | ok b => exact ⟨b, (mem_of_mapM h).2 ⟨a, ha, hb⟩, rfl⟩
  | error e =>
    induction l generalizing r with
    | nil => exact (List.not_mem_nil ha).elim
    | cons x l ih =>
      cases hx : f x with
      | error e' =>
        rw [mapM_cons_error hx] at h
        cases h
      | ok y =>
        rw [mapM_cons_ok hx] at h
        cases hl : l.mapM f with
        | error e' =>
          rw [hl] at h
          cases h
        | ok s =>
          rcases List.mem_cons.1 ha with rfl | ha
          · rw [hb] at hx
            cases hx
          · obtain ⟨b, _, hok⟩ := ih hl ha
            cases hok

theorem mapM_eq_error_iff {l : List α} {e : ε} :
    l.mapM f = .error e ↔
      ∃ before a after, l = before ++ a :: after ∧ (∀ x ∈ before, ∃ b, f x = .ok b) ∧
        f a = .error e := by
  constructor
  · induction l with
    | nil => intro h; cases h
    | cons a l ih =>
      intro h
      cases ha : f a with
      | error e' =>
        rw [mapM_cons_error ha] at h
        cases h
        exact ⟨[], a, l, rfl, fun x hx => (List.not_mem_nil hx).elim, ha⟩
      | ok x =>
        rw [mapM_cons_ok ha] at h
        cases hl : l.mapM f with
        | ok s =>
          rw [hl] at h
          cases h
        | error e' =>
          rw [hl] at h
          cases h
          obtain ⟨before, c, after, rfl, hb, hc⟩ := ih hl
          refine ⟨a :: before, c, after, rfl, fun y hy => ?_, hc⟩
          rcases List.mem_cons.1 hy with rfl | hy
          · exact ⟨x, ha⟩
          · exact hb y hy
  · intro hand
    obtain ⟨before, a, after, rfl, hb, ha⟩ := hand
    induction before with
    | nil => exact mapM_cons_error ha after
    | cons y before ih =>
      obtain ⟨b, hy⟩ := hb y List.mem_cons_self
      rw [List.cons_append, mapM_cons_ok hy, ih fun x hx => hb x (List.mem_cons_of_mem y hx)]
      rfl

end AsyncSpread.Fallible

namespace AsyncSpread

theorem toOption_eq_some {ε α : Type} {x : Except ε α} {a : α} (h : x.toOption = some a) :
    x = .ok a := by
  cases x with
  | error e => cases h
  | ok b => exact congrArg Except.ok (Option.some.inj h)

end AsyncSpread
