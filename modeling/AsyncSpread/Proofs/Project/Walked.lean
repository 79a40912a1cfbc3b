import AsyncSpread.Proofs.Disk.Paths
import AsyncSpread.Project.Walk

/-!
The files that a walk finds.

A walk goes from names to the names in a directory and passes links over, so the path of a file
leads to it and to no other one (`holds_of_mem_walk`).  The module of a file has a name
(`moduleName?_ne_empty`).
-/

namespace AsyncSpread

/-! ## Names of modules -/

namespace Path

variable {p root file : Path} {s : String}

theorem ne_empty_of_mem_components (h : Component.name s ∈ p.components) : s ≠ "" := by
  have hpiece {piece : String} (hp : component? piece = some (.name s)) : s ≠ "" := by
    unfold component? at hp
    split at hp
    · cases hp
    · cases hp
    · cases hp
    · rename_i hempty _ _
      cases hp
      exact hempty
  have hrest (h : Component.name s ∈ p.pieces.filterMap component?) : s ≠ "" := by
    obtain ⟨piece, -, hp⟩ := List.mem_filterMap.1 h
    exact hpiece hp
  unfold components at h
  simp only at h
  split at h
  · exact hrest ((List.mem_cons.1 h).resolve_left nofun)
  · split at h
    · exact hrest ((List.mem_cons.1 h).resolve_left nofun)
    · exact hrest h

theorem ne_empty_of_fileName? (h : p.fileName? = some s) : s ≠ "" := by
  obtain ⟨component, hlast, hname⟩ := Option.bind_eq_some_iff.1 h
  cases component with
  | name n =>
    cases hname
    exact ne_empty_of_mem_components (List.mem_of_getLast? hlast)
  | root | here | up => cases hname

theorem ne_empty_of_stem? (h : p.stem? = some s) : s ≠ "" := by
  obtain ⟨n, hn, rfl⟩ := Option.map_eq_some_iff.1 h
  unfold cutName
  split
  · intro hempty
    have hlist := congrArg String.toList hempty
    rw [String.toList_ofList] at hlist
    cases hlist
  · exact ne_empty_of_fileName? hn

end Path

theorem intercalate_ne_empty {names : List String} {name : String} (h : name ∈ names)
    (hne : name ≠ "") : ".".intercalate names ≠ "" := by
  cases names with
  | nil => cases h
  | cons first names =>
    cases names with
    | nil =>
      rw [String.intercalate_singleton, ← List.mem_singleton.1 h]
      exact hne
    | cons second names =>
      rw [String.intercalate_cons_cons]
      intro hempty
      have hlen := congrArg String.length hempty
      have hdot : (".").length = 1 := rfl
      have hzero : ("").length = 0 := rfl
      rw [String.length_append, String.length_append] at hlen
      omega

theorem moduleName?_ne_empty {root file : Path} : moduleName? root file ≠ some "" := by
  unfold moduleName?
  intro h
  obtain ⟨rest, hrest, h⟩ := Option.bind_eq_some_iff.1 h
  obtain ⟨last, hlast, h⟩ := Option.bind_eq_some_iff.1 h
  obtain ⟨stem, hstem, h⟩ := Option.bind_eq_some_iff.1 h
  have hparts : ∀ n ∈ rest.filterMap Path.Component.name?, n ≠ "" := by
    intro n hn
    obtain ⟨component, hc, hname⟩ := List.mem_filterMap.1 hn
    cases component with
    | name n' =>
      cases hname
      refine Path.ne_empty_of_mem_components (p := file) ?_
      rw [Text.after?_eq_some_iff.1 hrest]
      exact List.mem_append_right _ hc
    | root | here | up => cases hname
  generalize hnames : (if stem == "__init__" then (rest.filterMap Path.Component.name?).dropLast
    else (rest.filterMap Path.Component.name?).dropLast ++ [stem]) = names at h
  have hall : ∀ n ∈ names, n ≠ "" := by
    intro n hn
    rw [← hnames] at hn
    split at hn
    · exact hparts n (List.dropLast_subset _ hn)
    · rcases List.mem_append.1 hn with hn | hn
      · exact hparts n (List.dropLast_subset _ hn)
      · rw [List.mem_singleton.1 hn]
        exact Path.ne_empty_of_stem? hstem
  cases names with
  | nil => exact Path.ne_empty_of_fileName? h rfl
  | cons n names =>
    exact intercalate_ne_empty List.mem_cons_self (hall n List.mem_cons_self) (Option.some.inj h)

namespace Project

variable {c : Config} {disk disk' : Disk} {path root top : Path} {file : SourceFile}
  {place : List String} {entries : Directory} {name : String} {e : Entry} {m : Met}

/-- A root is prepared if the configuration can be used and the root leads somewhere. -/
theorem prepare_eq_ok {c : Config} {disk : Disk} {root top : Path} :
    prepare disk root c = .ok top ↔ c.validate = .ok () ∧ disk.canonical root = .ok top := by
  unfold prepare
  cases c.validate with
  | error why => simp
  | ok =>
    cases disk.canonical root <;> simp

/-! ## What is met -/

theorem inOrder_perm {α : Type} (parts : List (Option String × List α)) :
    (inOrder parts).Perm (parts.flatMap (·.2)) :=
  (sortStable_perm _ parts).flatMap_right _

theorem metIn_eq_map (disk : Disk) (c : Config) (place : List String) (entries : Directory) :
    metIn disk c place entries = entries.map fun part =>
      told disk place part.1 (metAt disk c (place ++ [part.1]) part.1 part.2) := by
  induction entries with
  | nil => rfl
  | cons part entries ih => rw [metIn, ih, List.map_cons]

theorem mem_told {met : List Met} : m ∈ (told disk place name met).2 ↔
    (∃ why, disk.guard.allow .kind (place ++ [name]) = .error why ∧ m = ⟨[name], some why⟩) ∨
      (disk.guard.allow .kind (place ++ [name]) = .ok () ∧ ∃ m' ∈ met, m = m'.under name) := by
  unfold told
  cases disk.guard.allow .kind (place ++ [name]) with
  | error why => simp
  | ok => simp [eq_comm]

/-- What a walk meets in a directory: that it cannot be listed, an entry that does not tell its
kind, or what is met from an entry on. -/
theorem mem_listed : m ∈ listed disk place (metIn disk c place entries) ↔
    (∃ why, disk.guard.allow .list place = .error why ∧ m = ⟨[], some why⟩) ∨
      (disk.guard.allow .list place = .ok () ∧ ∃ name e, (name, e) ∈ entries ∧
        m ∈ (told disk place name (metAt disk c (place ++ [name]) name e)).2) := by
  unfold listed
  cases disk.guard.allow .list place with
  | error why => simp
  | ok =>
    simp only [(inOrder_perm _).mem_iff, metIn_eq_map, List.flatMap_map, List.mem_flatMap,
      Prod.exists, reduceCtorEq, false_and, exists_false, true_and, false_or]

/-- Something lies where a walk meets something, and where it meets no failure that is a file. -/
def Met.Lies (e : Entry) (m : Met) : Prop :=
  ∃ x, e.inside m.names = some x ∧ (m.why? = none → ∃ bytes, x = .file bytes)

theorem lies_of_mem_listed (hd : (entries.map Prod.fst).Nodup)
    (h : ∀ name e, (name, e) ∈ entries → ∀ m ∈ metAt disk c (place ++ [name]) name e, m.Lies e)
    (hm : m ∈ listed disk place (metIn disk c place entries)) : m.Lies (.dir entries) := by
  rcases mem_listed.1 hm with ⟨why, -, rfl⟩ | ⟨-, name, e, hmem, htold⟩
  · exact ⟨.dir entries, rfl, nofun⟩
  · have hinside (names : List String) :
        (Entry.dir entries).inside (name :: names) = e.inside names := by
      rw [Entry.inside, Disk.entryBelow_cons, Disk.lookup_of_mem hd hmem]
      rfl
    rcases mem_told.1 htold with ⟨why, -, rfl⟩ | ⟨-, m', hm', rfl⟩
    · exact ⟨e, (hinside []).trans (Entry.inside_nil e), nofun⟩
    · obtain ⟨x, hx, hfile⟩ := h name e hmem m' hm'
      exact ⟨x, (hinside m'.names).trans hx, hfile⟩

theorem lies_of_mem_metAt (hs : e.isSound = true) (hm : m ∈ metAt disk c place name e) :
    m.Lies e := by
  induction e using Entry.induct generalizing place name m with
  | file bytes =>
    cases List.mem_singleton.1 hm
    exact ⟨.file bytes, rfl, fun _ => ⟨bytes, rfl⟩⟩
  | link target => cases hm
  | dir entries ih =>
    obtain ⟨hnodup, hparts⟩ := Disk.isSound_dir.1 hs
    rw [metAt] at hm
    split at hm
    · cases hm
    · exact lies_of_mem_listed hnodup
        (fun n e hmem m hm => ih (n, e) hmem (hparts _ hmem).2 hm) hm

/-- In no two places a walk meets something by the same names. -/
def Scattered (met : List Met) : Prop := met.Pairwise fun x y => x.names ≠ y.names

theorem scattered_told {met : List Met} (h : Scattered met) :
    Scattered (told disk place name met).2 := by
  unfold told
  split
  · exact List.pairwise_map.2 (h.imp fun hne heq => hne (List.cons.inj heq).2)
  · exact List.pairwise_singleton _ _

theorem exists_names_of_mem_told {met : List Met} (h : m ∈ (told disk place name met).2) :
    ∃ rest, m.names = name :: rest := by
  rcases mem_told.1 h with ⟨why, -, rfl⟩ | ⟨-, m', -, rfl⟩
  · exact ⟨[], rfl⟩
  · exact ⟨m'.names, rfl⟩

theorem scattered_listed (hd : (entries.map Prod.fst).Nodup)
    (h : ∀ part ∈ entries, Scattered (metAt disk c (place ++ [part.1]) part.1 part.2)) :
    Scattered (listed disk place (metIn disk c place entries)) := by
  unfold listed
  split
  · refine ((inOrder_perm _).pairwise_iff fun hne => Ne.symm hne).2 ?_
    rw [metIn_eq_map, List.flatMap_map, List.pairwise_flatMap]
    refine ⟨fun part hpart => scattered_told (h part hpart),
      (List.pairwise_map.1 hd).imp fun hne x hx y hy heq => ?_⟩
    obtain ⟨xs, hxs⟩ := exists_names_of_mem_told hx
    obtain ⟨ys, hys⟩ := exists_names_of_mem_told hy
    rw [hxs, hys] at heq
    exact hne (List.cons.inj heq).1
  · exact List.pairwise_singleton _ _

theorem scattered_metAt (hs : e.isSound = true) : Scattered (metAt disk c place name e) := by
  induction e using Entry.induct generalizing place name with
  | file => exact List.pairwise_singleton _ _
  | link => exact .nil
  | dir entries ih =>
    obtain ⟨hnodup, hparts⟩ := Disk.isSound_dir.1 hs
    rw [metAt]
    split
    · exact .nil
    · exact scattered_listed hnodup fun part hpart => ih part hpart (hparts part hpart).2

/-- What a walk meets: that its root cannot be used, nothing, or what is met in the directory that
the root is. -/
theorem met_cases (hd : disk.Sound) (root : Path) (c : Config) :
    (∃ why, met disk root c = [⟨[], some why⟩]) ∨ met disk root c = [] ∨
      ∃ place entries, disk.reach .size root = .ok (place, .dir entries) ∧
        (Entry.dir entries).isSound = true ∧
        met disk root c = listed disk place (metIn disk c place entries) := by
  unfold met
  cases hr : disk.reach .size root with
  | error why => exact .inl ⟨why, rfl⟩
  | ok found =>
    obtain ⟨place, e⟩ := found
    cases e with
    | file | link => exact .inr (.inl rfl)
    | dir entries =>
      have hsound := Disk.isSound_of_reach hd hr
      exact .inr (.inr ⟨place, entries, rfl, hsound, rfl⟩)

theorem scattered_met (hd : disk.Sound) (root : Path) (c : Config) :
    Scattered (met disk root c) := by
  rcases met_cases hd root c with ⟨why, h⟩ | h | ⟨place, entries, -, hs, h⟩
  · rw [h]
    exact List.pairwise_singleton _ _
  · rw [h]
    exact .nil
  · obtain ⟨hnodup, hparts⟩ := Disk.isSound_dir.1 hs
    rw [h]
    exact scattered_listed hnodup fun part hpart => scattered_metAt (hparts part hpart).2

theorem lies_of_mem_met (hd : disk.Sound) (hm : m ∈ met disk root c) : (∃ why, m = ⟨[], some why⟩) ∨
    ∃ place entries, disk.reach .size root = .ok (place, .dir entries) ∧
      (Entry.dir entries).isSound = true ∧ m.Lies (.dir entries) := by
  rcases met_cases hd root c with ⟨why, h⟩ | h | ⟨place, entries, hr, hs, h⟩
  · rw [h] at hm
    exact .inl ⟨why, List.mem_singleton.1 hm⟩
  · rw [h] at hm
    cases hm
  · refine .inr ⟨place, entries, hr, hs, ?_⟩
    obtain ⟨hnodup, hparts⟩ := Disk.isSound_dir.1 hs
    rw [h] at hm
    exact lies_of_mem_listed hnodup
      (fun n e hmem m => lies_of_mem_metAt (hparts _ hmem).2) hm

theorem isName_of_mem_met (hd : disk.Sound) (hm : m ∈ met disk root c) :
    ∀ n ∈ m.names, Disk.isName n = true := by
  rcases lies_of_mem_met hd hm with ⟨why, rfl⟩ | ⟨place, entries, -, hs, x, hx, -⟩
  · exact nofun
  · exact (Disk.sound_of_entryBelow hs hx).1

/-! ## What is found -/

theorem of?_eq_some (h : SourceFile.of? c root path = some file) :
    file.path = path ∧ moduleName? root path = some file.module := by
  unfold SourceFile.of? at h
  split at h
  · obtain ⟨m, hm, rfl⟩ := Option.map_eq_some_iff.1 h
    exact ⟨rfl, hm⟩
  · cases h

theorem Met.file?_eq_some (h : m.file? c root = some file) :
    m.why? = none ∧ file.path = root.below m.names ∧
    moduleName? root file.path = some file.module := by
  unfold Met.file? at h
  split at h
  · rename_i hnone
    obtain ⟨hpath, hmodule⟩ := of?_eq_some h
    exact ⟨hnone, hpath, by rwa [hpath]⟩
  · cases h

theorem Met.failure?_eq_some {failure : Failure} (h : m.failure? root = some failure) :
    m.why? ≠ none ∧ failure.path = root.below m.names := by
  obtain ⟨why, hwhy, rfl⟩ := Option.map_eq_some_iff.1 h
  exact ⟨by rw [hwhy]; exact nofun, rfl⟩

theorem module_of_mem_walk (h : file ∈ (walk disk root c).files) :
    moduleName? root file.path = some file.module := by
  obtain ⟨m, -, hfile⟩ := List.mem_filterMap.1 h
  exact (Met.file?_eq_some hfile).2.2

theorem holds_of_mem_walk (hd : disk.Sound) (hroot : disk.canonical root = .ok top)
    (h : file ∈ (walk disk top c).files) : ∃ bytes, disk.Holds file.path bytes := by
  obtain ⟨above, rfl, e, he, hlink⟩ := Disk.stands_of_canonical hroot
  obtain ⟨habove, -⟩ := Disk.sound_of_entryBelow hd he
  obtain ⟨m, hm, hfile⟩ := List.mem_filterMap.1 h
  obtain ⟨hnone, hpath, -⟩ := Met.file?_eq_some hfile
  rcases lies_of_mem_met hd hm with ⟨why, rfl⟩ | ⟨place, entries, hr, hs, x, hx, hbytes⟩
  · cases hnone
  · obtain ⟨bytes, rfl⟩ := hbytes hnone
    -- The root is followed to its own names.
    have hplace := (Disk.exists_of_reach hr).1
    rw [Disk.resolve_ofNames habove ⟨e, he, hlink⟩] at hplace
    cases hplace
    have hthere : disk.entryAt (above ++ m.names) = some (.file bytes) := by
      rw [Disk.entryAt, Disk.entryBelow_append (Disk.exists_of_reach hr).2.2]
      exact hx
    have hnames := (Disk.sound_of_entryBelow hs hx).1
    rw [Path.below_ofNames habove hnames] at hpath
    exact ⟨bytes, _, hpath, (Disk.sound_of_entryBelow hd hthere).1, hthere⟩

theorem sublist_map_filterMap {α β γ : Type} {f : α → Option β} {g : β → γ} {g' : α → γ}
    {p : α → Bool} (h : ∀ a b, f a = some b → p a = true ∧ g b = g' a) (l : List α) :
    ((l.filterMap f).map g).Sublist ((l.filter p).map g') := by
  induction l with
  | nil => exact .slnil
  | cons a l ih =>
    cases hf : f a with
    | none =>
      rw [List.filterMap_cons_none hf]
      exact ih.trans ((l.sublist_cons_self a).filter p |>.map g')
    | some b =>
      obtain ⟨hp, hg⟩ := h a b hf
      rw [List.filterMap_cons_some hf, List.filter_cons_of_pos hp, List.map_cons, List.map_cons, hg]
      exact ih.cons_cons _

/-- No path is found twice by a walk, as a file, as a failure or as both. -/
theorem nodup_paths_walk (hd : disk.Sound) (root : Path) (c : Config) :
    ((walk disk root c).failures.map Failure.path ++
      (walk disk root c).files.map SourceFile.path).Nodup := by
  have hpaths : ((met disk root c).map fun m => root.below m.names).Nodup := by
    refine List.pairwise_map.2 ((scattered_met hd root c).imp_of_mem
      fun {x y} hx hy hne heq => hne ?_)
    have hbehind := Path.behind?_below (p := root) (isName_of_mem_met hd hx)
    rw [heq, Path.behind?_below (isName_of_mem_met hd hy), Option.some.injEq] at hbehind
    exact (List.map_inj_right fun _ _ => Path.Component.name.inj).1 hbehind.symm
  have hfailures : ((walk disk root c).failures.map Failure.path).Sublist
      (((met disk root c).filter fun m => m.why?.isSome).map fun m => root.below m.names) :=
    sublist_map_filterMap (fun m failure hm =>
      ⟨Option.isSome_iff_ne_none.2 (Met.failure?_eq_some hm).1, (Met.failure?_eq_some hm).2⟩) _
  have hfiles : ((walk disk root c).files.map SourceFile.path).Sublist
      (((met disk root c).filter fun m => !m.why?.isSome).map fun m => root.below m.names) :=
    sublist_map_filterMap
      (fun m file hm => ⟨by simp [(Met.file?_eq_some hm).1], (Met.file?_eq_some hm).2.1⟩) _
  refine (hfailures.append hfiles).nodup ?_
  rw [← List.map_append]
  exact ((List.filter_append_perm _ _).map _).nodup_iff.2 hpaths

/-! ## Reading -/

theorem readSource_congr {bytes : List UInt8} (h : disk.Holds path bytes)
    (h' : disk'.Holds path bytes) (hguard : disk'.guard = disk.guard) (c : Config) :
    readSource disk' path c = readSource disk path c := by
  unfold readSource Disk.readText
  rw [h.fileSize, h'.fileSize, h.readBytes, h'.readBytes, h.permits_congr h' hguard,
    h.permits_congr h' hguard]

theorem permits_of_readSource {bytes : List UInt8} {source : List Char} (h : disk.Holds path bytes)
    (hread : readSource disk path c = .ok source) : disk.permits .read path = .ok () := by
  unfold readSource at hread
  split at hread
  · cases hread
  · split at hread
    · cases hread
    · cases hp : disk.permits .read path with
      | ok => rfl
      | error why =>
        rw [Disk.readText, h.readBytes, hp] at hread
        cases hread

end Project

end AsyncSpread
