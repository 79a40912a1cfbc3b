import Mathlib.Data.List.Nodup
import AsyncSpread.Json.Fields

/-!
Reading fields and lists out of the values that are made for them.

A record that is made of some names with their values gives these values back under these names
(`allFields?_ofMembers`), and a list of values made from some items gives the items back
(`listOf?_map`).
-/

namespace AsyncSpread.Json

variable {α : Type} {ms : List (String × Json)}

theorem mapM_map_eq_some {β : Type} {f : β → Option α} {g : α → β} {l : List α}
    (h : ∀ x ∈ l, f (g x) = some x) : (l.map g).mapM f = some l := by
  induction l with
  | nil => rfl
  | cons x l ih =>
    rw [List.map_cons, List.mapM_cons, h x List.mem_cons_self,
      ih fun y hy => h y (List.mem_cons_of_mem _ hy)]
    rfl

/-- A list of values that can be read is read item by item. -/
theorem listOf?_map {item? : Json → Option α} {toJson : α → Json} {l : List α}
    (h : ∀ x ∈ l, item? (toJson x) = some x) : listOf? item? (.list (l.map toJson)) = some l :=
  mapM_map_eq_some h

theorem membersNamed_cons (k name : String) (v : Json) (members : List (Option String × Json)) :
    membersNamed name ((some k, v) :: members) = (if k = name then [v] else []) ++
      membersNamed name members := by
  by_cases h : k = name
  · simp [membersNamed, h]
  · simp [membersNamed, h]

theorem membersNamed_of_not_mem {name : String} (h : name ∉ ms.map Prod.fst) :
    membersNamed name (ms.map fun (k, v) => (some k, v)) = [] := by
  induction ms with
  | nil => rfl
  | cons m ms ih =>
    rw [List.map_cons, List.mem_cons, not_or] at h
    rw [List.map_cons, membersNamed_cons, if_neg fun he => h.1 he.symm, ih h.2, List.append_nil]

theorem membersNamed_of_mem (hms : (ms.map Prod.fst).Nodup) {m : String × Json} (hm : m ∈ ms) :
    membersNamed m.1 (ms.map fun (k, v) => (some k, v)) = [m.2] := by
  induction ms with
  | nil => exact (List.not_mem_nil hm).elim
  | cons m' ms ih =>
    rw [List.map_cons, List.nodup_cons] at hms
    rw [List.map_cons, membersNamed_cons]
    rcases List.mem_cons.1 hm with rfl | hm
    · rw [if_pos rfl, membersNamed_of_not_mem hms.1, List.append_nil]
    · have hne : m'.1 ≠ m.1 := fun he => hms.1 (he ▸ List.mem_map_of_mem hm)
      rw [if_neg hne, List.nil_append, ih hms.2 hm]

theorem any_isNone_keys (ms : List (String × Json)) :
    (ms.map fun (k, v) => (some k, v)).any (fun (k, _) => k.isNone) = false := by
  induction ms with
  | nil => rfl
  | cons m ms ih => exact ih

theorem any_repeated_names (hms : (ms.map Prod.fst).Nodup) :
    (ms.map Prod.fst).any
      (fun n => 1 < (membersNamed n (ms.map fun (k, v) => (some k, v))).length) = false := by
  rw [List.any_eq_false]
  intro n hn
  obtain ⟨m, hm, rfl⟩ := List.mem_map.1 hn
  simp [membersNamed_of_mem hms hm]

theorem map_head?_membersNamed (hms : (ms.map Prod.fst).Nodup) :
    ((ms.map Prod.fst).map fun n => (membersNamed n (ms.map fun (k, v) => (some k, v))).head?) =
      (ms.map Prod.snd).map some := by
  rw [List.map_map, List.map_map]
  refine List.map_congr_left fun m hm => ?_
  show (membersNamed m.1 _).head? = some m.2
  rw [membersNamed_of_mem hms hm]
  rfl

/-- The fields of a record are the values that it was made of. -/
theorem allFields?_ofMembers {names : List String} (hnames : ms.map Prod.fst = names)
    (hnodup : names.Nodup) : allFields? names (ofMembers ms) = some (ms.map Prod.snd) := by
  subst hnames
  rw [allFields?, ofMembers, fields?, any_isNone_keys, any_repeated_names hnodup,
    map_head?_membersNamed hnodup]
  show ((ms.map Prod.snd).map some).mapM id = _
  exact mapM_map_eq_some fun _ _ => rfl

end AsyncSpread.Json
