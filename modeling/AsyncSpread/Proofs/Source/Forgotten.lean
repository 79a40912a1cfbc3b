import AsyncSpread.Proofs.Source.Snapshot

/-!
Files that a cache has forgotten.

Once a file has been forgotten under some key, what the cache has under that key no longer depends
on what it had before (`get?_after_forget`), so the next lines are read from the disk as it is then
(`lines_after_forget`).  The key is where the path leads when it is forgotten: a path that leads
elsewhere when its lines are asked for has the copy that was there before, if there was one
(`lines_forget`).
-/

namespace AsyncSpread.Source

open Cache

variable {c c' : Cache} {m : Moment} {ms : List Moment} {d now : Disk} {p k : Path}

def readNow (d : Disk) (p : Path) : Except Unreadable (List (List Char)) :=
  match d.readBytes p with
  | .ok bytes => .ok (numbered (Text.decodeUtf8Lossy bytes))
  | .error why => .error ⟨p, why⟩

theorem lines_of_get?_eq_none (h : c.get? (key now p) = none) :
    (c.lines now p).map Prod.fst = readNow now p := by
  rw [Cache.lines, h, readNow]
  cases now.readBytes p <;> rfl

theorem lines_congr (h : c.get? (key now p) = c'.get? (key now p)) :
    (c.lines now p).map Prod.fst = (c'.lines now p).map Prod.fst := by
  cases hc : c.get? (key now p) with
  | none => rw [lines_of_get?_eq_none hc, lines_of_get?_eq_none (h.symm.trans hc)]
  | some ls => simp only [Cache.lines, hc, ← h, Except.map]

theorem get?_leave_lines_of_ne {q : Path} (c : Cache) (h : (key d q).same k = false) :
    (Moment.leave ⟨d, .lines q⟩ c).get? k = c.get? k := by
  rw [leave_lines]
  split
  · rw [get?_cons, h]
    rfl
  · rfl

/-- What a question leaves under a key depends on what was there under it. -/
theorem get?_leave_congr (m : Moment) (h : c.get? k = c'.get? k) :
    (m.leave c).get? k = (m.leave c').get? k := by
  obtain ⟨d, ask⟩ := m
  cases ask with
  | contains q | size => exact h
  | clear => rfl
  | forget q => rw [Moment.leave, Moment.leave, get?_forget, get?_forget, h]
  | lines q =>
    by_cases hsame : (key d q).same k = true
    · rw [leave_lines, leave_lines, get?_congr c hsame, get?_congr c' hsame, h]
      cases hget : c'.get? k with
      | some ls => simp only [h.trans hget, hget]
      | none => cases d.readBytes q <;> simp [get?_cons, hsame, h, hget]
    · have hne := Bool.eq_false_iff.2 hsame
      rw [get?_leave_lines_of_ne c hne, get?_leave_lines_of_ne c' hne, h]

theorem get?_after_congr (ms : List Moment) (h : c.get? k = c'.get? k) :
    (c.after ms).get? k = (c'.after ms).get? k := by
  induction ms generalizing c c' with
  | nil => exact h
  | cons m ms ih => exact ih (get?_leave_congr m h)

/-- What a cache has under a key that was forgotten is what it would have if it had been empty
then. -/
theorem get?_after_forget (c : Cache) (ms : List Moment) (h : (key d p).same k = true) :
    ((c.forget d p).after ms).get? k = ((∅ : Cache).after ms).get? k := by
  refine get?_after_congr ms ?_
  rw [get?_forget, if_pos h]
  rfl

/-- No lines are asked for under a key. -/
def Unasked (k : Path) (ms : List Moment) : Prop :=
  ∀ m ∈ ms, ∀ q, m.ask = .lines q → (key m.disk q).same k = false

theorem get?_leave_of_unasked (h : ∀ q, m.ask = .lines q → (key m.disk q).same k = false)
    (hget : c.get? k = none) : (m.leave c).get? k = none := by
  obtain ⟨d, ask⟩ := m
  cases ask with
  | contains q | size => exact hget
  | clear => rfl
  | forget q =>
    rw [Moment.leave, get?_forget, hget]
    exact ite_self _
  | lines q => rw [get?_leave_lines_of_ne c (h q rfl), hget]

theorem get?_after_of_unasked (h : Unasked k ms) (hget : c.get? k = none) :
    (c.after ms).get? k = none := by
  induction ms generalizing c with
  | nil => exact hget
  | cons m ms ih =>
    have hleave := get?_leave_of_unasked (h m List.mem_cons_self) hget
    exact ih (fun x hx => h x (List.mem_cons_of_mem _ hx)) hleave

/-- A path that has the key under which it was forgotten finds no copy from before.  Its first lines
are read from the disk as it is when they are asked for, or what it says then is that they cannot be
read. -/
theorem lines_after_forget (c : Cache) (h : (key d p).same (key now p) = true) :
    (((c.forget d p).after ms).lines now p).map Prod.fst =
      (((∅ : Cache).after ms).lines now p).map Prod.fst ∧
    (Unasked (key now p) ms → (((c.forget d p).after ms).lines now p).map Prod.fst =
      readNow now p) := by
  have hget := get?_after_forget c ms h
  refine ⟨lines_congr hget, fun hms => lines_of_get?_eq_none ?_⟩
  rw [hget]
  exact get?_after_of_unasked hms rfl

/-- Right behind a `forget` the copy from before is found exactly if the path has another key by
then. -/
theorem lines_forget (c : Cache) (d now : Disk) (p : Path) :
    ((c.forget d p).lines now p).map Prod.fst =
    if (key d p).same (key now p) then readNow now p else (c.lines now p).map Prod.fst := by
  have hget := get?_forget d p c (key now p)
  split
  · rename_i hsame
    rw [if_pos hsame] at hget
    exact lines_of_get?_eq_none hget
  · rename_i hsame
    rw [if_neg hsame] at hget
    exact lines_congr hget

def emptiedShelf : Disk := shelf.removeAt ["src", "a.py"]

-- While the file is away its relative path is its own key, so that the copy from before is not the
-- one that is forgotten.
example : (((((∅ : Cache).after [⟨shelf, .lines ⟨"a.py"⟩⟩]).forget emptiedShelf ⟨"a.py"⟩).lines
    rewrittenShelf
    ⟨"a.py"⟩).map Prod.fst).toOption = some ["".toList, "old".toList] := by decide +kernel

end AsyncSpread.Source
