import AsyncSpread.Proofs.Disk.Files

/-!
Components of paths.

The names in a path are proper names (`isName_of_mem_components`), and a proper name that is joined
to a path becomes its last component (`components_join`).  The name of a module is read off the
names behind the root (`moduleName?_of_behind?`).
-/

namespace AsyncSpread

namespace Path

variable {p : Path} {name : String} {names : List String}

/-! ## Names -/

theorem component?_of_isName (h : Disk.isName name = true) :
    component? name = some (.name name) := by
  obtain ⟨hempty, hdot, hup, -⟩ := Disk.isName_iff.1 h
  unfold component?
  split
  · exact absurd rfl hempty
  · exact absurd rfl hdot
  · exact absurd rfl hup
  · rfl

theorem isName_of_component? {piece : String} (h : component? piece = some (.name name))
    (hslash : '/' ∉ piece.toList) : Disk.isName name = true := by
  unfold component? at h
  split at h
  · cases h
  · cases h
  · cases h
  · rename_i hempty hdot hup
    cases h
    exact Disk.isName_iff.2 ⟨hempty, hdot, hup, hslash⟩

theorem not_mem_of_mem_pieces {piece : String} (h : piece ∈ p.pieces) : '/' ∉ piece.toList := by
  obtain ⟨cs, hcs, rfl⟩ := List.mem_map.1 h
  rw [String.toList_ofList]
  exact Text.not_mem_of_mem_piecesBetween hcs

def lead (p : Path) : List Component :=
  if p.isAbsolute then [.root] else if p.pieces.head? == some "." then [.here] else []

theorem components_eq (p : Path) : p.components = p.lead ++ p.pieces.filterMap component? := by
  unfold components lead
  dsimp only
  split
  · rfl
  · split <;> rfl

theorem isName_of_mem_components (h : Component.name name ∈ p.components) :
    Disk.isName name = true := by
  rw [components_eq] at h
  rcases List.mem_append.1 h with h | h
  · unfold lead at h
    split at h
    · cases List.mem_singleton.1 h
    · split at h
      · cases List.mem_singleton.1 h
      · cases h
  · obtain ⟨piece, hpiece, hcomponent⟩ := List.mem_filterMap.1 h
    exact isName_of_component? hcomponent (not_mem_of_mem_pieces hpiece)

theorem isAbsolute_of_isName (h : Disk.isName name = true) :
    (⟨name⟩ : Path).isAbsolute = false := by
  rw [isAbsolute, beq_eq_false_iff_ne]
  exact fun hhead => (Disk.isName_iff.1 h).2.2.2 (List.mem_of_head? hhead)

theorem components_of_isName (h : Disk.isName name = true) :
    (⟨name⟩ : Path).components = [.name name] := by
  obtain ⟨-, hdot, -, hslash⟩ := Disk.isName_iff.1 h
  have hpieces : (⟨name⟩ : Path).pieces = [name] := by
    rw [pieces, Text.piecesBetween_of_not_mem hslash]
    simp
  rw [components_eq, lead, isAbsolute_of_isName h, hpieces]
  simp [hdot, component?_of_isName h]

theorem fileName?_of_isName (h : Disk.isName name = true) :
    (⟨name⟩ : Path).fileName? = some name := by
  rw [fileName?, components_of_isName h]
  rfl

/-! ## Joining -/

theorem pieces_of_slash {front : List Char} (h : p.text.toList = front ++ '/' :: name.toList)
    (hname : '/' ∉ name.toList) :
    p.pieces = (Text.piecesBetween '/' front).map String.ofList ++ [name] := by
  rw [pieces, h, Text.piecesBetween_append_cons, Text.piecesBetween_of_not_mem hname,
    List.map_append, List.map_singleton, String.ofList_toList]

/-- A name that is joined to a path stands behind its pieces, in the place of the empty one that a
slash at the end leaves. -/
theorem pieces_join (hp : p.text ≠ "") (hname : Disk.isName name = true) :
    ∃ front rest, front ≠ [] ∧
    p.pieces = front ++ rest ∧ rest.filterMap component? = [] ∧
    (p.join ⟨name⟩).pieces = front ++ [name] := by
  have hslash := (Disk.isName_iff.1 hname).2.2.2
  have hne (cs : List Char) : (Text.piecesBetween '/' cs).map String.ofList ≠ [] := by
    rw [ne_eq, List.map_eq_nil_iff]
    exact Text.piecesBetween_ne_nil '/' cs
  by_cases hend : p.text.toList.getLast? = some '/'
  · obtain ⟨front, hfront⟩ := List.getLast?_eq_some_iff.1 hend
    have hjoin : (p.join ⟨name⟩).text.toList = front ++ '/' :: name.toList := by
      rw [join, isAbsolute_of_isName hname, if_neg Bool.false_ne_true, if_pos (by simp [hend])]
      simp [hfront]
    refine ⟨_, [""], hne front, @pieces_of_slash p "" front hfront nofun, rfl,
      pieces_of_slash hjoin hslash⟩
  · have hempty : p.text.isEmpty = false := String.isEmpty_eq_false_iff.2 hp
    have hjoin : (p.join ⟨name⟩).text.toList = p.text.toList ++ '/' :: name.toList := by
      rw [join, isAbsolute_of_isName hname, if_neg Bool.false_ne_true,
        if_neg (by simp [hempty, hend])]
      simp
    exact ⟨_, [], hne _, (List.append_nil _).symm, rfl, pieces_of_slash hjoin hslash⟩

theorem isAbsolute_join (hp : p.text ≠ "") (hname : Disk.isName name = true) :
    (p.join ⟨name⟩).isAbsolute = p.isAbsolute := by
  obtain ⟨c, cs, hcs⟩ := List.exists_cons_of_ne_nil (mt String.toList_eq_nil_iff.1 hp)
  rw [join, isAbsolute_of_isName hname, if_neg Bool.false_ne_true]
  split <;> simp [isAbsolute, hcs]

/-- A name that is joined to a path is its last component. -/
theorem components_join (hname : Disk.isName name = true) :
    (p.join ⟨name⟩).components = p.components ++ [.name name] := by
  by_cases hp : p.text = ""
  · have hjoin : p.join ⟨name⟩ = ⟨name⟩ := by
      rw [join, isAbsolute_of_isName hname, if_neg Bool.false_ne_true, if_pos (by simp [hp])]
      simp [hp]
    have hnone : p.components = [] := by
      obtain ⟨text⟩ := p
      subst hp
      rfl
    rw [hjoin, components_of_isName hname, hnone, List.nil_append]
  · obtain ⟨front, rest, hfront, hpieces, hrest, hjoin⟩ := pieces_join hp hname
    have hlead : (p.join ⟨name⟩).lead = p.lead := by
      obtain ⟨piece, pieces, rfl⟩ := List.exists_cons_of_ne_nil hfront
      rw [lead, lead, isAbsolute_join hp hname, hpieces, hjoin]
      rfl
    rw [components_eq, components_eq, hlead, hpieces, hjoin, List.filterMap_append,
      List.filterMap_append, hrest, List.append_nil, List.append_assoc]
    simp [component?_of_isName hname]

theorem components_below (h : ∀ n ∈ names, Disk.isName n = true) :
    (p.below names).components = p.components ++ names.map .name := by
  induction names generalizing p with
  | nil => exact (List.append_nil _).symm
  | cons n names ih =>
    have hrest := ih (p := p.join ⟨n⟩) fun x hx => h x (List.mem_cons_of_mem _ hx)
    rw [components_join (h n List.mem_cons_self), List.append_assoc] at hrest
    exact hrest

theorem behind?_below (h : ∀ n ∈ names, Disk.isName n = true) :
    behind? p (p.below names) = some (names.map .name) :=
  Text.after?_eq_some_iff.2 (components_below h)

theorem fileName?_below (h : ∀ n ∈ names, Disk.isName n = true)
    (hlast : names.getLast? = some name) : (p.below names).fileName? = some name := by
  obtain ⟨front, rfl⟩ := List.getLast?_eq_some_iff.1 hlast
  rw [fileName?, components_below h, List.map_append, ← List.append_assoc, List.map_singleton,
    List.getLast?_concat]
  rfl

end Path

/-- The name of a module is joined from the directories and the stem of its file, or is that of the
root. -/
theorem moduleName?_of_behind? {root file : Path} {dirs names : List String} {name : String}
    (h : Path.behind? root file = some ((dirs ++ [name]).map .name))
    (hnames : names = if (Path.cutName name).1 = "__init__" then dirs
      else dirs ++ [(Path.cutName name).1]) :
    moduleName? root file = if names = [] then root.fileName?
      else some (".".intercalate names) := by
  have hname : Disk.isName name = true := by
    refine Path.isName_of_mem_components (p := file) ?_
    rw [Text.after?_eq_some_iff.1 h]
    exact List.mem_append_right _ (List.mem_map_of_mem (List.mem_append_right _ List.mem_cons_self))
  have hparts : ((dirs ++ [name]).map Path.Component.name).filterMap Path.Component.name? =
      dirs ++ [name] := by
    rw [List.filterMap_map]
    exact List.filterMap_some
  have hstem : Path.stem? ⟨name⟩ = some (Path.cutName name).1 := by
    rw [Path.stem?, Path.fileName?_of_isName hname, Option.map_some]
  subst hnames
  unfold moduleName?
  rw [h]
  simp only [Option.bind_eq_bind, Option.bind_some, hparts, List.getLast?_concat, hstem,
    List.dropLast_concat, beq_iff_eq, List.isEmpty_iff]

end AsyncSpread
