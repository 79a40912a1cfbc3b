import AsyncSpread.Disk

/-!
What lies where on a disk.

A row of names leads through directories to an entry.  Writing a file over another one leaves what
all other rows of names lead to, if that is a file (`entryBelow_putBelow_of_ne`).
-/

namespace AsyncSpread

namespace Disk

def isName (name : String) : Bool :=
  name != "" && name != "." && name != ".." && !name.toList.contains '/'

theorem isName_iff {name : String} :
    isName name = true ↔ name ≠ "" ∧ name ≠ "." ∧ name ≠ ".." ∧ '/' ∉ name.toList := by
  simp [isName, and_assoc]

end Disk

/-- What holds of files, of links, and of a directory if it holds of all that lies in it, holds of
every entry. -/
theorem Entry.induct {motive : Entry → Prop} (file : ∀ bytes, motive (.file bytes))
    (link : ∀ target, motive (.link target))
    (dir : ∀ entries, (∀ part ∈ entries, motive part.2) → motive (.dir entries)) (e : Entry) :
    motive e := by
  refine @Entry.rec motive (fun entries => ∀ part ∈ entries, motive part.2)
    (fun part => motive part.2) file link dir
    (fun part hpart => absurd hpart List.not_mem_nil) (fun first rest hfirst hrest part hpart => ?_)
      (fun _ _ he => he) e
  rcases List.mem_cons.1 hpart with rfl | hpart
  · exact hfirst
  · exact hrest part hpart

namespace Entry

mutual

/-- Whether all directories at an entry list proper names, each once. -/
def isSound : Entry → Bool
  | .file _ | .link _ => true
  | .dir entries => decide (entries.map Prod.fst).Nodup && areSound entries

def areSound : List (String × Entry) → Bool
  | [] => true
  | (name, e) :: rest => Disk.isName name && e.isSound && areSound rest

end

def inside : Entry → List String → Option Entry
  | .dir entries, names => Disk.entryBelow entries names
  | e, names => if names.isEmpty then some e else none

theorem inside_nil (e : Entry) : e.inside [] = some e := by
  cases e <;> rfl

end Entry

namespace Disk

/-- A disk as a system keeps it. -/
def Sound (d : Disk) : Prop := (Entry.dir d.top).isSound = true

instance (d : Disk) : Decidable d.Sound := inferInstanceAs (Decidable (_ = true))

variable {d : Directory} {name : String} {names : List String} {e : Entry}

/-! ## Names in directories -/

theorem mem_of_lookup (h : lookup name d = some e) : (name, e) ∈ d := by
  induction d with
  | nil => cases h
  | cons entry d ih =>
    obtain ⟨n, x⟩ := entry
    rw [lookup] at h
    by_cases hn : n = name
    · rw [if_pos (beq_iff_eq.2 hn)] at h
      rw [← hn, ← Option.some.inj h]
      exact List.mem_cons_self
    · rw [if_neg (mt beq_iff_eq.1 hn)] at h
      exact List.mem_cons_of_mem _ (ih h)

theorem lookup_of_mem (hd : (d.map Prod.fst).Nodup) (h : (name, e) ∈ d) :
    lookup name d = some e := by
  induction d with
  | nil => cases h
  | cons entry d ih =>
    obtain ⟨n, x⟩ := entry
    obtain ⟨hn, hd⟩ := List.nodup_cons.1 hd
    rw [lookup]
    rcases List.mem_cons.1 h with heq | h
    · cases heq
      rw [if_pos (beq_self_eq_true name)]
    · have hne : n ≠ name := by
        rintro rfl
        have hmem := List.mem_map_of_mem (f := Prod.fst) h
        exact hn hmem
      rw [if_neg (mt beq_iff_eq.1 hne)]
      exact ih hd h

theorem lookup_put_self (name : String) (e : Entry) (d : Directory) :
    lookup name (put name e d) = some e := by
  induction d with
  | nil => simp [put, lookup]
  | cons entry d ih =>
    obtain ⟨n, x⟩ := entry
    rw [put]
    by_cases hn : n = name
    · simp [hn, lookup]
    · simp [hn, lookup, ih]

theorem lookup_put_of_ne {other : String} (h : other ≠ name) (e : Entry) (d : Directory) :
    lookup other (put name e d) = lookup other d := by
  induction d with
  | nil => simp [put, lookup, h.symm]
  | cons entry d ih =>
    obtain ⟨n, x⟩ := entry
    rw [put]
    by_cases hn : n = name
    · simp [hn, lookup, h.symm]
    · simp [hn, lookup, ih]

theorem areSound_iff : Entry.areSound d = true ↔
    ∀ part ∈ d, isName part.1 = true ∧ part.2.isSound = true := by
  induction d with
  | nil => exact iff_of_true rfl nofun
  | cons part d ih =>
    rw [Entry.areSound, Bool.and_eq_true, Bool.and_eq_true, ih, List.forall_mem_cons]

theorem isSound_dir : (Entry.dir d).isSound = true ↔
    (d.map Prod.fst).Nodup ∧ ∀ part ∈ d, isName part.1 = true ∧ part.2.isSound = true := by
  rw [Entry.isSound, Bool.and_eq_true, decide_eq_true_eq, areSound_iff]

/-! ## Rows of names -/

theorem entryBelow_cons (d : Directory) (name : String) (names : List String) :
    entryBelow d (name :: names) = (lookup name d).bind fun e => e.inside names := by
  rw [entryBelow]
  cases lookup name d with
  | none => rfl
  | some e => cases e <;> rfl

theorem entryBelow_append {more : List String} {d' : Directory}
    (h : entryBelow d names = some (.dir d')) :
    entryBelow d (names ++ more) = entryBelow d' more := by
  induction names generalizing d with
  | nil =>
    cases h
    rfl
  | cons name names ih =>
    rw [List.cons_append, entryBelow_cons]
    rw [entryBelow_cons] at h
    cases hl : lookup name d with
    | none =>
      rw [hl] at h
      cases h
    | some e =>
      rw [hl] at h
      cases e with
      | dir d'' => exact ih h
      | file bytes | link target =>
        cases names <;> cases h

/-- All names on the way to an entry are proper, and those below it. -/
theorem sound_of_entryBelow (hd : (Entry.dir d).isSound = true) (h : entryBelow d names = some e) :
    (∀ n ∈ names, isName n = true) ∧ e.isSound = true := by
  induction names generalizing d with
  | nil =>
    cases h
    exact ⟨nofun, hd⟩
  | cons name names ih =>
    rw [entryBelow_cons] at h
    obtain ⟨x, hx, hrest⟩ := Option.bind_eq_some_iff.1 h
    obtain ⟨hname, hsound⟩ := (isSound_dir.1 hd).2 (name, x) (mem_of_lookup hx)
    have hbelow : (∀ n ∈ names, isName n = true) ∧ e.isSound = true := by
      cases x with
      | dir d' => exact ih hsound hrest
      | file | link =>
        cases names with
        | nil =>
          cases hrest
          exact ⟨nofun, rfl⟩
        | cons => cases hrest
    refine ⟨fun n hn => ?_, hbelow.2⟩
    rcases List.mem_cons.1 hn with rfl | hn
    · exact hname
    · exact hbelow.1 n hn

theorem isName_of_inside {x : Entry} (hs : e.isSound = true) (h : e.inside names = some x) :
    ∀ n ∈ names, isName n = true := by
  cases e with
  | dir entries => exact (sound_of_entryBelow hs h).1
  | file | link =>
    cases names with
    | nil => exact nofun
    | cons => cases h

/-! ## Writing -/

theorem putBelow_cons (name : String) (e : Entry) (d : Directory) (hne : names ≠ []) :
    ∃ inner, putBelow e (name :: names) d = put name (.dir (putBelow e names inner)) d ∧
      ∀ d', lookup name d = some (.dir d') → inner = d' := by
  refine ⟨_, by rw [putBelow]; exact hne, fun d' hd' => ?_⟩
  rw [hd']

section

variable {old new bytes : List UInt8} {others : List String}

theorem entryBelow_putBelow_self (h : entryBelow d names = some (.file old)) :
    entryBelow (putBelow (.file new) names d) names = some (.file new) := by
  induction names generalizing d with
  | nil => cases h
  | cons name names ih =>
    rw [entryBelow_cons] at h
    obtain ⟨x, hx, hrest⟩ := Option.bind_eq_some_iff.1 h
    cases names with
    | nil =>
      rw [putBelow, entryBelow_cons, lookup_put_self]
      rfl
    | cons next names =>
      obtain ⟨inner, hput, hinner⟩ := putBelow_cons name (.file new) d (List.cons_ne_nil next names)
      rw [hput, entryBelow_cons, lookup_put_self]
      cases x with
      | dir d' =>
        rw [hinner d' hx]
        exact ih hrest
      | file | link => cases hrest

/-- Writing a file over another one leaves all others as they are. -/
theorem entryBelow_putBelow_of_ne (h : entryBelow d names = some (.file old)) (hne : others ≠ names)
    (hothers : entryBelow d others = some (.file bytes)) :
    entryBelow (putBelow (.file new) names d) others = some (.file bytes) := by
  induction names generalizing d others with
  | nil => cases h
  | cons name names ih =>
    cases others with
    | nil => cases hothers
    | cons other others =>
      rw [entryBelow_cons] at h hothers
      obtain ⟨x, hx, hrest⟩ := Option.bind_eq_some_iff.1 h
      by_cases hname : other = name
      · subst hname
        rw [hx] at hothers
        have hother : x.inside others = some (.file bytes) := hothers
        cases names with
        | nil =>
          rw [Entry.inside_nil] at hrest
          rw [Option.some.inj hrest] at hother
          cases others with
          | nil => exact absurd rfl hne
          | cons => cases hother
        | cons next names =>
          obtain ⟨inner, hput, hinner⟩ :=
            putBelow_cons other (.file new) d (List.cons_ne_nil next names)
          rw [hput, entryBelow_cons, lookup_put_self]
          cases x with
          | dir d' =>
            rw [hinner d' hx]
            exact ih hrest (fun heq => hne (by rw [heq])) hother
          | file | link => cases hrest
      · cases names with
        | nil =>
          rw [putBelow, entryBelow_cons, lookup_put_of_ne hname]
          exact hothers
        | cons next names =>
          obtain ⟨inner, hput, -⟩ := putBelow_cons name (.file new) d (List.cons_ne_nil next names)
          rw [hput, entryBelow_cons, lookup_put_of_ne hname]
          exact hothers

end

end Disk

end AsyncSpread
