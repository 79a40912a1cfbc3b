import AsyncSpread.Proofs.Disk.Components

/-!
Paths that lead to files.

What a path is followed to lies on the disk and is no link, so the absolute path of its names leads
to it again (`resolve_ofNames`).  Two such paths of one file are the same path, and writing the file
that one of them leads to is not seen from the others (`Holds.written_of_ne`).
-/

namespace AsyncSpread

/-! ## Paths of names -/

namespace Path

variable {names : List String} {name : String}

theorem toList_ofNames (names : List String) :
    (ofNames names).text.toList = '/' :: ("/".intercalate names).toList := by
  simp [ofNames]

theorem isAbsolute_ofNames (names : List String) : (ofNames names).isAbsolute = true := by
  rw [isAbsolute, toList_ofNames]
  rfl

theorem isEmpty_ofNames (names : List String) : (ofNames names).text.isEmpty = false := by
  rw [ofNames, String.isEmpty_eq_false_iff]
  intro hempty
  have hlen := congrArg String.length hempty
  have hone : ("/" : String).length = 1 := rfl
  rw [String.length_append] at hlen
  have hzero : ("" : String).length = 0 := rfl
  omega

theorem pieces_ofNames (h : ∀ n ∈ names, '/' ∉ n.toList) (hne : names ≠ []) :
    (ofNames names).pieces = "" :: names := by
  have hslash : ∀ piece ∈ names.map String.toList, '/' ∉ piece := by
    intro piece hpiece
    obtain ⟨n, hn, rfl⟩ := List.mem_map.1 hpiece
    exact h n hn
  have hpieces := Text.piecesBetween_intercalate hslash (by simpa using hne)
  have htext : (ofNames names).text.toList = [] ++ '/' ::
      ['/'].intercalate (names.map String.toList) := by
    rw [toList_ofNames, String.toList_intercalate]
    rfl
  rw [pieces, htext, Text.piecesBetween_append_cons, hpieces, List.map_append]
  exact congrArg (List.cons "") (by simp)

theorem getLast?_ofNames_ne (h : ∀ n ∈ names, Disk.isName n = true) (hne : names ≠ []) :
    (ofNames names).text.toList.getLast? ≠ some '/' := by
  obtain ⟨front, last, hnames⟩ := (List.eq_nil_or_concat names).resolve_left hne
  rw [List.concat_eq_append] at hnames
  subst hnames
  obtain ⟨hempty, -, -, hslash⟩ :=
    Disk.isName_iff.1 (h last (List.mem_append_right _ List.mem_cons_self))
  have htext : ∃ cs, (ofNames (front ++ [last])).text.toList = cs ++ last.toList := by
    by_cases hfront : front = []
    · exact ⟨['/'], by rw [hfront, toList_ofNames]; simp⟩
    · refine ⟨'/' :: ("/".intercalate front).toList ++ ['/'], ?_⟩
      rw [toList_ofNames, String.intercalate_append_of_ne_nil hfront (List.cons_ne_nil _ _)]
      simp
  obtain ⟨cs, hcs⟩ := htext
  obtain ⟨c, hc⟩ :=
    Option.ne_none_iff_exists'.1
      (mt List.getLast?_eq_none_iff.1 (mt String.toList_eq_nil_iff.1 hempty))
  rw [hcs, List.getLast?_append, hc, Option.some_or]
  intro hlast
  rw [Option.some.inj hlast] at hc
  exact hslash (List.mem_of_getLast? hc)

theorem join_ofNames (h : ∀ n ∈ names, Disk.isName n = true) (hname : Disk.isName name = true) :
    (ofNames names).join ⟨name⟩ = ofNames (names ++ [name]) := by
  have hslash := (Disk.isName_iff.1 hname).2.2.2
  have hrelative : (⟨name⟩ : Path).isAbsolute = false := by
    rw [isAbsolute, beq_eq_false_iff_ne]
    intro hhead
    exact hslash (List.mem_of_head? hhead)
  rw [join, hrelative, isEmpty_ofNames, if_neg Bool.false_ne_true, Bool.false_or]
  by_cases hne : names = []
  · subst hne
    rfl
  · have htext := String.intercalate_append_of_ne_nil (s := "/") hne (List.cons_ne_nil name [])
    rw [if_neg (mt beq_iff_eq.1 (getLast?_ofNames_ne h hne)), ofNames, ofNames, htext]
    simp [String.append_assoc]

theorem below_ofNames {more : List String} (h : ∀ n ∈ names, Disk.isName n = true)
    (hmore : ∀ n ∈ more, Disk.isName n = true) :
    (ofNames names).below more = ofNames (names ++ more) := by
  induction more generalizing names with
  | nil => rw [List.append_nil]; rfl
  | cons n more ih =>
    have hn := hmore n List.mem_cons_self
    have hnames : ∀ x ∈ names ++ [n], Disk.isName x = true := by
      intro x hx
      rcases List.mem_append.1 hx with hx | hx
      · exact h x hx
      · rw [List.mem_singleton.1 hx]
        exact hn
    have hrest := ih hnames fun x hx => hmore x (List.mem_cons_of_mem _ hx)
    rwa [← join_ofNames h hn, List.append_assoc] at hrest

theorem components_ofNames (h : ∀ n ∈ names, Disk.isName n = true) :
    (ofNames names).components = .root :: names.map .name := by
  have hbelow : (ofNames []).below names = ofNames names := below_ofNames nofun h
  rw [← hbelow, components_below h]
  rfl

/-- Paths of proper names that have the same components are of the same names. -/
theorem eq_of_same_ofNames {names' : List String} (h : ∀ n ∈ names, Disk.isName n = true)
    (h' : ∀ n ∈ names', Disk.isName n = true)
    (hsame : (ofNames names).same (ofNames names') = true) : names = names' := by
  rw [same, beq_iff_eq, components_ofNames h, components_ofNames h'] at hsame
  exact (List.map_inj_right fun _ _ => Component.name.inj).1 (List.cons.inj hsame).2

end Path

namespace Disk

variable {d : Disk} {names at_ : List String} {e : Entry} {path : Path}

/-! ## Following -/

/-- Something other than a link lies at some names. -/
def Stands (d : Disk) (names : List String) : Prop :=
  ∃ e, d.entryAt names = some e ∧ ∀ target, e ≠ .link target

theorem stands_of_file {bytes : List UInt8} (h : d.entryAt names = some (.file bytes)) :
    d.Stands names :=
  ⟨_, h, nofun⟩

theorem follow_of_entryBelow (onLink : List String → List String → Except Fault (List String))
    {entries : Directory} (hat : d.entryAt at_ = some (.dir entries))
    (hnames : ∀ n ∈ names, isName n = true) (he : entryBelow entries names = some e)
    (hlink : ∀ target, e ≠ .link target) : d.follow onLink at_ names = .ok (at_ ++ names) := by
  induction names generalizing at_ entries with
  | nil => rw [List.append_nil]; rfl
  | cons name names ih =>
    obtain ⟨hempty, hdot, hup, -⟩ := isName_iff.1 (hnames name List.mem_cons_self)
    rw [entryBelow_cons] at he
    obtain ⟨x, hx, hrest⟩ := Option.bind_eq_some_iff.1 he
    have hthere : d.entryAt (at_ ++ [name]) = some x := by
      rw [entryAt, entryBelow_append hat, entryBelow_cons, hx]
      exact Entry.inside_nil x
    rw [follow, hat]
    simp only [beq_iff_eq, hempty, hdot, hup, or_self, if_false, hx, Bool.or_eq_true]
    cases x with
    | dir d' =>
      have hf := ih hthere (fun n hn => hnames n (List.mem_cons_of_mem _ hn)) hrest
      rw [List.append_assoc] at hf
      exact hf
    | file bytes =>
      cases names with
      | nil => rfl
      | cons => cases hrest
    | link target =>
      cases names with
      | nil => exact absurd (Option.some.inj hrest).symm (hlink target)
      | cons => cases hrest

theorem resolve_ofNames (hnames : ∀ n ∈ names, isName n = true) (h : d.Stands names) :
    d.resolve (Path.ofNames names) = .ok names := by
  obtain ⟨e, he, hlink⟩ := h
  have htop : d.entryAt [] = some (.dir d.top) := rfl
  have hfollow := follow_of_entryBelow (d.followThrough 39) htop hnames he hlink
  rw [resolve, Path.isEmpty_ofNames, Path.isAbsolute_ofNames, if_neg Bool.false_ne_true, if_pos rfl,
    followThrough]
  by_cases hne : names = []
  · subst hne
    rfl
  · rw [Path.pieces_ofNames (fun n hn => (isName_iff.1 (hnames n hn)).2.2.2) hne, follow, htop]
    exact hfollow

theorem entryAt_dropLast {entries : Directory} (h : d.entryAt names = some (.dir entries)) :
    ∃ entries', d.entryAt names.dropLast = some (.dir entries') := by
  rw [entryAt] at h ⊢
  generalize d.top = top at h ⊢
  induction names generalizing top with
  | nil => exact ⟨top, rfl⟩
  | cons name names ih =>
    cases names with
    | nil => exact ⟨top, rfl⟩
    | cons next names =>
      rw [entryBelow_cons] at h
      obtain ⟨x, hx, hrest⟩ := Option.bind_eq_some_iff.1 h
      rw [List.dropLast_cons_of_ne_nil (List.cons_ne_nil _ _), entryBelow_cons, hx]
      cases x with
      | dir d' => exact ih d' hrest
      | file | link => cases hrest

theorem pieces_ne_nil (p : Path) : p.pieces ≠ [] := by
  rw [Path.pieces, ne_eq, List.map_eq_nil_iff]
  exact Text.piecesBetween_ne_nil '/' p.text.toList

/-- What pieces of a path are followed to stands on the disk. -/
theorem stands_of_follow {onLink : List String → List String → Except Fault (List String)}
    {pieces : List String}
    (hlink : ∀ place rest names, rest ≠ [] → onLink place rest = .ok names → d.Stands names)
    (h : d.follow onLink at_ pieces = .ok names) (hat : pieces ≠ [] ∨ d.Stands at_) :
    d.Stands names := by
  induction pieces generalizing at_ with
  | nil =>
    cases h
    exact hat.resolve_left fun hne => hne rfl
  | cons piece rest ih =>
    rw [follow] at h
    cases he : d.entryAt at_ with
    | none =>
      rw [he] at h
      cases h
    | some e =>
      rw [he] at h
      cases e with
      | file | link => cases h
      | dir entries =>
        simp only at h
        split at h
        · exact ih h (.inr ⟨_, he, nofun⟩)
        · split at h
          · obtain ⟨entries', hup⟩ := entryAt_dropLast he
            exact ih h (.inr ⟨_, hup, nofun⟩)
          · split at h
            · cases h
            · refine hlink _ _ _ (fun hnil => ?_) h
              exact pieces_ne_nil _ (List.append_eq_nil_iff.1 hnil).1
            · rename_i x hno hx
              refine ih h (.inr ⟨x, ?_, fun target heq => hno target heq⟩)
              rw [entryAt, entryBelow_append he, entryBelow_cons, hx]
              exact Entry.inside_nil x

theorem stands_of_followThrough {n : Nat} {pieces : List String} (hne : pieces ≠ [])
    (h : d.followThrough n at_ pieces = .ok names) : d.Stands names := by
  induction n generalizing at_ pieces names with
  | zero =>
    refine stands_of_follow (fun _ _ _ _ hlink => ?_) h (.inl hne)
    cases hlink
  | succ n ih => exact stands_of_follow (fun _ _ _ hrest hlink => ih hrest hlink) h (.inl hne)

theorem reach_ofNames (access : Access) (hnames : ∀ n ∈ names, isName n = true)
    (he : d.entryAt names = some e) (hlink : ∀ target, e ≠ .link target) :
    d.reach access (Path.ofNames names) = (d.guard.allow access names).map fun _ => (names, e) := by
  rw [reach, resolve_ofNames hnames ⟨e, he, hlink⟩]
  simp only [bind, Except.bind, he]
  cases d.guard.allow access names <;> rfl

theorem stands_of_resolve (h : d.resolve path = .ok names) : d.Stands names := by
  rw [resolve] at h
  split at h
  · cases h
  · exact stands_of_followThrough (pieces_ne_nil path) h

theorem stands_of_canonical {top : Path} (h : d.canonical path = .ok top) :
    ∃ names, Path.ofNames names = top ∧ d.Stands names := by
  rw [canonical] at h
  cases hr : d.resolve path with
  | error why =>
    rw [hr] at h
    cases h
  | ok names =>
    rw [hr] at h
    exact ⟨names, Except.ok.inj h, stands_of_resolve hr⟩

theorem exists_of_reach {access : Access} (h : d.reach access path = .ok (names, e)) :
    d.resolve path = .ok names ∧ d.guard.allow access names = .ok () ∧
    d.entryAt names = some e := by
  unfold reach at h
  cases hr : d.resolve path with
  | error why =>
    rw [hr] at h
    cases h
  | ok place =>
    simp only [hr, bind, Except.bind] at h
    cases ha : d.guard.allow access place with
    | error why =>
      rw [ha] at h
      cases h
    | ok =>
      simp only [ha] at h
      split at h
      · rename_i he
        cases h
        exact ⟨rfl, ha, he⟩
      · cases h

theorem isSound_of_reach {access : Access} (hd : d.Sound)
    (h : d.reach access path = .ok (names, e)) : e.isSound = true :=
  (sound_of_entryBelow hd (exists_of_reach h).2.2).2

/-! ## Files -/

/-- An absolute path of proper names leads to a file. -/
def Holds (d : Disk) (path : Path) (bytes : List UInt8) : Prop :=
  ∃ names, path = Path.ofNames names ∧ (∀ n ∈ names, isName n = true) ∧
    d.entryAt names = some (.file bytes)

def permits (d : Disk) (access : Access) (p : Path) : Except Fault Unit :=
  (d.reach access p).map fun _ => ()

/-- The disk with a text at a path, whether or not it may be written. -/
def written (d : Disk) (p : Path) (text : List Char) : Disk :=
  match d.resolve p with
  | .ok names => d.putAt names (.file (Text.encodeUtf8 text))
  | .error _ => d

variable {d' : Disk} {bytes bytes' : List UInt8} {text : List Char} {access : Access}

def Writable (d : Disk) : Prop := ∀ names, d.guard.allow .write names = .ok ()

theorem permits_ofNames (access : Access) (hnames : ∀ n ∈ names, isName n = true)
    (hfile : d.entryAt names = some (.file bytes)) :
    d.permits access (Path.ofNames names) = d.guard.allow access names := by
  rw [permits, reach_ofNames access hnames hfile nofun]
  cases d.guard.allow access names <;> rfl

theorem written_ofNames (hnames : ∀ n ∈ names, isName n = true)
    (hfile : d.entryAt names = some (.file bytes)) (text : List Char) :
    d.written (Path.ofNames names) text = d.putAt names (.file (Text.encodeUtf8 text)) := by
  rw [written, resolve_ofNames hnames (stands_of_file hfile)]

theorem guard_written (d : Disk) (path : Path) (text : List Char) :
    (d.written path text).guard = d.guard := by
  unfold written
  split <;> rfl

namespace Holds

/-- What may be done with a file does not depend on what it holds. -/
theorem permits_congr (h : d.Holds path bytes) (h' : d'.Holds path bytes')
    (hguard : d'.guard = d.guard) (access : Access) :
    d'.permits access path = d.permits access path := by
  obtain ⟨names, rfl, hnames, hfile⟩ := h
  obtain ⟨names', hpath, hnames', hfile'⟩ := h'
  have heq : names = names' :=
    Path.eq_of_same_ofNames hnames hnames' (by rw [hpath]; exact beq_self_eq_true _)
  subst heq
  rw [permits_ofNames access hnames hfile, permits_ofNames access hnames hfile', hguard]

theorem permits_write (h : d.Holds path bytes) (hwrites : d.Writable) :
    d.permits .write path = .ok () := by
  obtain ⟨names, rfl, hnames, hfile⟩ := h
  rw [permits_ofNames .write hnames hfile]
  exact hwrites names

theorem fileSize (h : d.Holds path bytes) :
    d.fileSize path = (d.permits .size path).map fun _ => bytes.length := by
  obtain ⟨names, rfl, hnames, hfile⟩ := h
  rw [Disk.fileSize, permits, reach_ofNames .size hnames hfile nofun]
  cases d.guard.allow .size names <;> rfl

theorem readBytes (h : d.Holds path bytes) :
    d.readBytes path = (d.permits .read path).map fun _ => bytes := by
  obtain ⟨names, rfl, hnames, hfile⟩ := h
  rw [Disk.readBytes, permits, reach_ofNames .read hnames hfile nofun]
  cases d.guard.allow .read names <;> rfl

theorem readText (h : d.Holds path (Text.encodeUtf8 text)) (hread : d.permits .read path = .ok ()) :
    d.readText path = .ok text := by
  rw [Disk.readText, h.readBytes, hread]
  simp [Except.map, bind, Except.bind]

theorem writeText (h : d.Holds path bytes) (text : List Char) :
    d.writeText path text = (d.permits .write path).map fun _ => d.written path text := by
  obtain ⟨names, rfl, hnames, hfile⟩ := h
  rw [Disk.writeText, permits, reach_ofNames .write hnames hfile nofun,
    written_ofNames hnames hfile]
  cases d.guard.allow .write names <;> rfl

theorem writeText_eq_ok (h : d.Holds path bytes) :
    d.writeText path text = .ok d' ↔ d.permits .write path = .ok () ∧ d' = d.written path text := by
  rw [h.writeText text]
  cases d.permits .write path with
  | error why => exact ⟨nofun, nofun⟩
  | ok =>
    exact ⟨fun heq => ⟨rfl, (Except.ok.inj heq).symm⟩, fun heq => congrArg Except.ok heq.2.symm⟩

theorem written_self (h : d.Holds path bytes) (text : List Char) :
    (d.written path text).Holds path (Text.encodeUtf8 text) := by
  obtain ⟨names, rfl, hnames, hfile⟩ := h
  rw [written_ofNames hnames hfile]
  exact ⟨names, rfl, hnames, entryBelow_putBelow_self hfile⟩

theorem written_of_ne {other : Path} (h : d.Holds path bytes) (hother : d.Holds other bytes')
    (hne : other ≠ path) (text : List Char) : (d.written path text).Holds other bytes' := by
  obtain ⟨names, rfl, hnames, hfile⟩ := h
  obtain ⟨others, rfl, hothers, hcontent⟩ := hother
  have hrows : others ≠ names := fun heq => hne (by rw [heq])
  rw [written_ofNames hnames hfile]
  exact ⟨others, rfl, hothers, entryBelow_putBelow_of_ne hfile hrows hcontent⟩

end Holds

end Disk

end AsyncSpread
