import AsyncSpread.Proofs.Disk.Paths

/-!
Writing several files.

Writing over a file is seen from no other path, so files can be written in any order
(`writeAll_perm`).
-/

namespace AsyncSpread

namespace Disk

/-! ## Entries -/

section

variable {d : Directory} {name other : String} {names others : List String} {old : List UInt8}
  {e x y : Entry}

theorem put_put (name : String) (x y : Entry) (d : Directory) :
    put name x (put name y d) = put name x d := by
  induction d with
  | nil => simp [put]
  | cons entry d ih =>
    obtain ⟨n, e⟩ := entry
    by_cases hn : n = name
    · simp [put, hn]
    · simp [put, hn, ih]

theorem put_comm (hne : name ≠ other) (hname : (lookup name d).isSome)
    (hother : (lookup other d).isSome) :
    put name x (put other y d) = put other y (put name x d) := by
  induction d with
  | nil => cases hname
  | cons entry d ih =>
    obtain ⟨n, e⟩ := entry
    by_cases hn : n = name
    · subst hn
      simp [put, hne]
    · by_cases ho : n = other
      · subst ho
        simp [put, hn]
      · simp only [lookup, beq_iff_eq, hn, ho, if_false] at hname hother
        simp [put, hn, ho, ih hname hother]

theorem putBelow_of_lookup {d' : Directory} (h : lookup name d = some (.dir d')) (hne : names ≠ [])
    (e : Entry) : putBelow e (name :: names) d = put name (.dir (putBelow e names d')) d := by
  obtain ⟨inner, hput, hinner⟩ := putBelow_cons name e d hne
  rw [hput, hinner d' h]

/-- What is put over a file depends on the directory by what is there under the first name. -/
theorem exists_putBelow_eq (h : entryBelow d (name :: names) = some (.file old)) (e : Entry) :
    ∃ x, ∀ d', lookup name d' = lookup name d → putBelow e (name :: names) d' = put name x d' := by
  rw [entryBelow_cons] at h
  obtain ⟨found, hfound, hinside⟩ := Option.bind_eq_some_iff.1 h
  cases names with
  | nil => exact ⟨e, fun d' _ => rfl⟩
  | cons next names =>
    cases found with
    | dir inner =>
      refine ⟨.dir (putBelow e (next :: names) inner), fun d' hd' => ?_⟩
      exact putBelow_of_lookup (hd'.trans hfound) (List.cons_ne_nil _ _) e
    | file | link => cases hinside

theorem isSome_lookup_of_entryBelow (h : entryBelow d (name :: names) = some e) :
    (lookup name d).isSome := by
  rw [entryBelow_cons] at h
  obtain ⟨found, hfound, -⟩ := Option.bind_eq_some_iff.1 h
  rw [hfound]
  rfl

/-- Where two files lie, neither lies below the other. -/
theorem exists_dir_of_inside {old' : List UInt8} (h : e.inside names = some (.file old))
    (hothers : e.inside others = some (.file old')) (hne : names ≠ others) :
    ∃ inner, e = .dir inner ∧ names ≠ [] ∧ others ≠ [] := by
  cases e with
  | dir inner =>
    refine ⟨inner, rfl, ?_, ?_⟩
    · rintro rfl
      cases h
    · rintro rfl
      cases hothers
  | file | link =>
    cases names with
    | cons => cases h
    | nil =>
      cases others with
      | nil => exact absurd rfl hne
      | cons => cases hothers

theorem putBelow_comm {new new' old' : List UInt8} (h : entryBelow d names = some (.file old))
    (hothers : entryBelow d others = some (.file old')) (hne : names ≠ others) :
    putBelow (.file new) names (putBelow (.file new') others d) =
      putBelow (.file new') others (putBelow (.file new) names d) := by
  induction names generalizing d others with
  | nil => cases h
  | cons name names ih =>
    cases others with
    | nil => cases hothers
    | cons other others =>
      by_cases hname : name = other
      · subst hname
        rw [entryBelow_cons] at h hothers
        obtain ⟨found, hfound, hinside⟩ := Option.bind_eq_some_iff.1 h
        rw [hfound, Option.bind_some] at hothers
        have htail : names ≠ others := fun heq => hne (by rw [heq])
        obtain ⟨inner, rfl, hnames, hothers'⟩ := exists_dir_of_inside hinside hothers htail
        rw [putBelow_of_lookup hfound hothers', putBelow_of_lookup hfound hnames,
          putBelow_of_lookup (lookup_put_self _ _ _) hnames,
            putBelow_of_lookup (lookup_put_self _ _ _) hothers',
          put_put, put_put, ih hinside hothers htail]
      · obtain ⟨x, hx⟩ := exists_putBelow_eq h (.file new)
        obtain ⟨y, hy⟩ := exists_putBelow_eq hothers (.file new')
        rw [hy d rfl, hx d rfl, hx _ (lookup_put_of_ne hname y d),
          hy _ (lookup_put_of_ne (Ne.symm hname) x d)]
        exact put_comm hname (isSome_lookup_of_entryBelow h) (isSome_lookup_of_entryBelow hothers)

end

/-! ## Files -/

variable {d : Disk} {path other : Path} {text text' : List Char} {bytes content : List UInt8}

theorem written_comm (h : d.Holds path bytes) (hother : d.Holds other content)
    (hne : path ≠ other) :
    (d.written path text).written other text' = (d.written other text').written path text := by
  obtain ⟨names, rfl, hnames, hfile⟩ := h
  obtain ⟨others, rfl, hothers, hcontent⟩ := hother
  have hrows : others ≠ names := fun heq => hne (by rw [heq])
  have hfile' : (d.putAt others (.file (Text.encodeUtf8 text'))).entryAt names =
      some (.file bytes) :=
    entryBelow_putBelow_of_ne hcontent hrows.symm hfile
  have hcontent' : (d.putAt names (.file (Text.encodeUtf8 text))).entryAt others =
      some (.file content) :=
    entryBelow_putBelow_of_ne hfile hrows hcontent
  rw [written_ofNames hnames hfile, written_ofNames hothers hcontent, written_ofNames hnames hfile',
    written_ofNames hothers hcontent']
  exact congrArg (fun top => { d with top := top }) (putBelow_comm hcontent hfile hrows)

def writeAll (d : Disk) : List (Path × List Char) → Disk
  | [] => d
  | (p, text) :: ws => (d.written p text).writeAll ws

/-- There is a file at each of some paths, and no two of them are the same. -/
structure Takes (d : Disk) (ws : List (Path × List Char)) : Prop where
  holds : ∀ w ∈ ws, ∃ bytes, d.Holds w.1 bytes
  apart : ws.Pairwise fun a b => a.1 ≠ b.1

variable {ws ws' : List (Path × List Char)}

theorem Takes.perm (h : d.Takes ws) (hperm : ws.Perm ws') : d.Takes ws' :=
  ⟨fun w hw => h.holds w (hperm.mem_iff.2 hw),
    (hperm.pairwise_iff fun hne => Ne.symm hne).1 h.apart⟩

theorem Takes.written (h : d.Takes ((path, text) :: ws)) : (d.written path text).Takes ws := by
  obtain ⟨hne, hapart⟩ := List.pairwise_cons.1 h.apart
  obtain ⟨old, hold⟩ := h.holds _ List.mem_cons_self
  refine ⟨fun w hw => ?_, hapart⟩
  obtain ⟨bytes, hbytes⟩ := h.holds w (List.mem_cons_of_mem _ hw)
  exact ⟨bytes, hold.written_of_ne hbytes (hne w hw).symm text⟩

theorem guard_writeAll (d : Disk) (ws : List (Path × List Char)) :
    (d.writeAll ws).guard = d.guard := by
  induction ws generalizing d with
  | nil => rfl
  | cons w ws ih => exact (ih _).trans (guard_written d w.1 w.2)

theorem writeAll_append (d : Disk) (ws ws' : List (Path × List Char)) :
    d.writeAll (ws ++ ws') = (d.writeAll ws).writeAll ws' := by
  induction ws generalizing d with
  | nil => rfl
  | cons w ws ih => exact ih _

theorem holds_writeAll (h : d.Takes ws) (hpath : d.Holds path bytes) (hne : ∀ w ∈ ws, w.1 ≠ path) :
    (d.writeAll ws).Holds path bytes := by
  induction ws generalizing d with
  | nil => exact hpath
  | cons w ws ih =>
    obtain ⟨old, hold⟩ := h.holds w List.mem_cons_self
    exact ih h.written (hold.written_of_ne hpath (hne w List.mem_cons_self).symm w.2)
      fun w' hw' => hne w' (List.mem_cons_of_mem _ hw')

theorem holds_writeAll_of_mem (h : d.Takes ws) (hmem : (path, text) ∈ ws) :
    (d.writeAll ws).Holds path (Text.encodeUtf8 text) := by
  induction ws generalizing d with
  | nil => cases hmem
  | cons w ws ih =>
    rcases List.mem_cons.1 hmem with heq | hmem
    · subst heq
      obtain ⟨old, hold⟩ := h.holds _ List.mem_cons_self
      have hself := hold.written_self text
      exact holds_writeAll (d := d.written path text) h.written hself
        fun w hw => ((List.pairwise_cons.1 h.apart).1 w hw).symm
    · exact ih h.written hmem

/-- The order in which files are written makes no difference. -/
theorem writeAll_perm (hperm : ws.Perm ws') (h : d.Takes ws) : d.writeAll ws = d.writeAll ws' := by
  induction hperm generalizing d with
  | nil => rfl
  | cons w _ ih => exact ih h.written
  | swap a b ws =>
    obtain ⟨old, hold⟩ := h.holds b List.mem_cons_self
    obtain ⟨old', hold'⟩ := h.holds a (List.mem_cons_of_mem _ List.mem_cons_self)
    have hne := (List.pairwise_cons.1 h.apart).1 a List.mem_cons_self
    exact congrArg (fun d : Disk => d.writeAll ws) (written_comm hold hold' hne)
  | trans hperm _ ih ih' => exact (ih h).trans (ih' (h.perm hperm))

end Disk

end AsyncSpread
