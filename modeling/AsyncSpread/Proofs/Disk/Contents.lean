import AsyncSpread.Proofs.Disk.Writes

/-!
Where paths lead does not depend on what is in the files.

A path is followed through directories and links, and of a file it matters only that it is there: a
disk whose files have been emptied leads every path to the same place (`canonical_blank`).  So
writing over files changes where no path leads (`Holds.leadsLike_written`).
-/

namespace AsyncSpread

namespace Entry

mutual

def blank : Entry → Entry
  | .file _ => .file []
  | .link target => .link target
  | .dir entries => .dir (blankAll entries)

def blankAll : List (String × Entry) → List (String × Entry)
  | [] => []
  | (name, e) :: rest => (name, e.blank) :: blankAll rest

end

end Entry

open Entry

namespace Disk

def blank (d : Disk) : Disk := { d with top := blankAll d.top }

/-- Two disks lead every path to the same place. -/
def LeadsLike (d d' : Disk) : Prop := ∀ p, (d.canonical p).toOption = (d'.canonical p).toOption

variable {d : Disk} {directory : Directory} {name : String} {names : List String}

theorem lookup_blankAll (name : String) (d : Directory) :
    lookup name (blankAll d) = (lookup name d).map Entry.blank := by
  induction d with
  | nil => rfl
  | cons entry d ih =>
    obtain ⟨n, e⟩ := entry
    rw [blankAll, lookup, lookup]
    by_cases hn : n = name
    · simp [hn]
    · simp [hn, ih]

theorem entryBelow_blankAll (d : Directory) (names : List String) :
    entryBelow (blankAll d) names = (entryBelow d names).map Entry.blank := by
  induction names generalizing d with
  | nil => rfl
  | cons name names ih =>
    rw [entryBelow_cons, entryBelow_cons, lookup_blankAll]
    cases lookup name d with
    | none => rfl
    | some e =>
      cases e with
      | dir inner => exact ih inner
      | file bytes => cases names <;> rfl
      | link target => cases names <;> rfl

theorem entryAt_blank (d : Disk) (names : List String) :
    d.blank.entryAt names = (d.entryAt names).map Entry.blank :=
  entryBelow_blankAll d.top names

theorem follow_blank (d : Disk)
    {onLink onLink' : List String → List String → Except Fault (List String)}
    (hlink : ∀ place rest, onLink place rest = onLink' place rest) (at_ pieces : List String) :
    d.blank.follow onLink at_ pieces = d.follow onLink' at_ pieces := by
  induction pieces generalizing at_ with
  | nil => rfl
  | cons piece rest ih =>
    rw [follow, follow, entryAt_blank]
    cases d.entryAt at_ with
    | none => rfl
    | some e =>
      cases e with
      | file bytes => rfl
      | link target => rfl
      | dir entries =>
        simp only [Option.map_some, Entry.blank, lookup_blankAll, ih]
        cases lookup piece entries with
        | none => rfl
        | some found =>
          cases found with
          | link target => simp only [Option.map_some, Entry.blank, hlink]
          | file bytes => rfl
          | dir inner => rfl

theorem followThrough_blank (d : Disk) (n : Nat) (at_ pieces : List String) :
    d.blank.followThrough n at_ pieces = d.followThrough n at_ pieces := by
  induction n generalizing at_ pieces with
  | zero => exact follow_blank d (fun _ _ => rfl) at_ pieces
  | succ n ih => exact follow_blank d ih at_ pieces

/-- Emptying the files does not change where a path leads. -/
theorem canonical_blank (d : Disk) (p : Path) : d.blank.canonical p = d.canonical p := by
  have hcwd : d.blank.cwd = d.cwd := rfl
  rw [canonical, canonical, resolve, resolve, hcwd, followThrough_blank]

theorem leadsLike_of_blank {d' : Disk} (h : d.blank = d'.blank) : d.LeadsLike d' := by
  intro p
  rw [← canonical_blank d, ← canonical_blank d', h]

theorem LeadsLike.refl (d : Disk) : d.LeadsLike d := fun _ => rfl

/-! ## Writing -/

theorem blankAll_put_of_lookup {e old : Entry} (h : lookup name directory = some old)
    (he : e.blank = old.blank) : blankAll (put name e directory) = blankAll directory := by
  induction directory with
  | nil => cases h
  | cons entry directory ih =>
    obtain ⟨n, x⟩ := entry
    rw [lookup] at h
    rw [put]
    by_cases hn : n = name
    · simp only [hn, beq_self_eq_true, if_true, Option.some.injEq] at h ⊢
      rw [blankAll, blankAll, he, h]
    · simp only [hn, beq_iff_eq, if_false] at h ⊢
      rw [blankAll, blankAll, ih h]

theorem blankAll_putBelow {old : List UInt8} (h : entryBelow directory names = some (.file old))
    (new : List UInt8) : blankAll (putBelow (.file new) names directory) = blankAll directory := by
  induction names generalizing directory with
  | nil => cases h
  | cons name names ih =>
    rw [entryBelow_cons] at h
    obtain ⟨found, hfound, hinside⟩ := Option.bind_eq_some_iff.1 h
    cases names with
    | nil =>
      rw [inside_nil] at hinside
      exact blankAll_put_of_lookup (hfound.trans hinside) rfl
    | cons next names =>
      cases found with
      | file | link => cases hinside
      | dir inner =>
        rw [putBelow_of_lookup hfound (List.cons_ne_nil next names)]
        exact blankAll_put_of_lookup hfound (congrArg Entry.dir (ih hinside))

theorem Holds.leadsLike_written {path : Path} {bytes : List UInt8} (h : d.Holds path bytes)
    (text : List Char) : (d.written path text).LeadsLike d := by
  obtain ⟨names, rfl, hnames, hfile⟩ := h
  rw [written_ofNames hnames hfile]
  exact leadsLike_of_blank (congrArg (fun top => { d with top := top }) (blankAll_putBelow hfile _))

end Disk

end AsyncSpread
