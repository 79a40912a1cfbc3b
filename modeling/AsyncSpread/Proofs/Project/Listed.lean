import AsyncSpread.Proofs.Disk.Components
import AsyncSpread.Proofs.Project.Walked
import AsyncSpread.Proofs.Rewrite.Insertions

/-!
What a walk lists.

Where nothing is refused, a walk meets the files that are reached through directories that are not
left out (`mem_met`), in the order of the rows of names that lead to them (`pairwise_met`).  So it
lists the files that are wanted, each once and in order (`walk_lists`), except for a file that
stands for a root whose path does not end in a name.
-/

namespace AsyncSpread

/-- No directory refuses to be listed, and no entry to tell its kind. -/
def Disk.Readable (d : Disk) : Prop :=
  ∀ names, d.guard.allow .list names = .ok () ∧ d.guard.allow .kind names = .ok ()

namespace Project

/-- A row of names leads to a file, and no directory on the way is left out. -/
structure Reached (c : Config) (e : Entry) (names : List String) : Prop where
  isFile : ∃ bytes, e.inside names = some (.file bytes)
  entered : ∀ dir ∈ names.dropLast, c.excludesDir dir = false

/-- A row of names leads from the top of a walk to a file with one of the extensions, and no
directory on the way is left out. -/
structure Wanted (c : Config) (top : Entry) (names : List String) : Prop
    extends Reached c top names where
  taken : ∃ name, names.getLast? = some name ∧ (Path.cutName name).2.any c.takesExtension = true

/-- The module of a file has no name: the file stands for a root whose path does not end in a
name. -/
def Nameless (root : Path) (names : List String) : Prop :=
  root.fileName? = none ∧ ∃ name, names = [name] ∧ (Path.cutName name).1 = "__init__"

variable {c : Config} {disk : Disk} {root : Path} {top e : Entry} {entries : Directory}
  {name : String} {names place : List String} {m : Met}

theorem listed_of_readable (hopen : disk.Readable) (c : Config) (place : List String)
    (entries : Directory) :
    listed disk place (metIn disk c place entries) = inOrder (entries.map fun part =>
      (some part.1, (metAt disk c (place ++ [part.1]) part.1 part.2).map (Met.under part.1))) := by
  rw [listed, (hopen place).1, metIn_eq_map]
  refine congrArg inOrder (List.map_congr_left fun part _ => ?_)
  rw [told, (hopen _).2]

/-! ## Files that are reached -/

/-- What is reached below a directory is reached below one of its entries, which is entered. -/
theorem reached_dir_iff (hd : (entries.map Prod.fst).Nodup) : Reached c (.dir entries) names ↔
    ∃ name e rest, (name, e) ∈ entries ∧
      (Reached c e rest ∧ (rest ≠ [] → c.excludesDir name = false)) ∧ name :: rest = names := by
  constructor
  · rintro ⟨⟨bytes, hfile⟩, hentered⟩
    cases names with
    | nil => cases hfile
    | cons name rest =>
      rw [Entry.inside, Disk.entryBelow_cons] at hfile
      obtain ⟨e, he, hfile⟩ := Option.bind_eq_some_iff.1 hfile
      refine ⟨name, e, rest, Disk.mem_of_lookup he,
        ⟨⟨⟨bytes, hfile⟩, fun dir hdir => ?_⟩, fun hne => ?_⟩, rfl⟩
      · refine hentered dir ?_
        rw [List.dropLast_cons_of_ne_nil (List.ne_nil_of_mem (List.dropLast_subset _ hdir))]
        exact List.mem_cons_of_mem _ hdir
      · refine hentered name ?_
        rw [List.dropLast_cons_of_ne_nil hne]
        exact List.mem_cons_self
  · rintro ⟨name, e, rest, hmem, ⟨⟨⟨bytes, hfile⟩, hentered⟩, hname⟩, rfl⟩
    refine ⟨⟨bytes, ?_⟩, fun dir hdir => ?_⟩
    · rw [Entry.inside, Disk.entryBelow_cons, Disk.lookup_of_mem hd hmem]
      exact hfile
    · by_cases hne : rest = []
      · rw [hne] at hdir
        cases hdir
      · rw [List.dropLast_cons_of_ne_nil hne] at hdir
        rcases List.mem_cons.1 hdir with rfl | hdir
        · exact hname hne
        · exact hentered dir hdir

/-- If a walk meets what it should in each entry of a directory, it does so in the directory. -/
theorem mem_listed_of_entries (hopen : disk.Readable) (hd : (entries.map Prod.fst).Nodup)
    (h : ∀ name e m, (name, e) ∈ entries → (m ∈ metAt disk c (place ++ [name]) name e ↔
      m.why? = none ∧ Reached c e m.names ∧ (m.names ≠ [] → c.excludesDir name = false))) :
    m ∈ listed disk place (metIn disk c place entries) ↔
      m.why? = none ∧ Reached c (.dir entries) m.names := by
  rw [mem_listed, reached_dir_iff hd]
  simp only [mem_told, (hopen _).1, (hopen _).2, reduceCtorEq, false_and, exists_false,
    false_or, true_and]
  constructor
  · rintro ⟨name, e, hmem, m', hm', rfl⟩
    obtain ⟨hnone, hreached⟩ := (h name e m' hmem).1 hm'
    exact ⟨hnone, name, e, m'.names, hmem, hreached, rfl⟩
  · rintro ⟨hnone, name, e, rest, hmem, hreached, hnames⟩
    refine ⟨name, e, hmem, ⟨rest, none⟩, (h name e _ hmem).2 ⟨rfl, hreached⟩, ?_⟩
    rw [Met.under, hnames, ← hnone]

/-- A walk meets the files that are reached through an entry that is not left out, and nothing
else. -/
theorem mem_metAt (hopen : disk.Readable) (hs : e.isSound = true) : m ∈ metAt disk c place name e ↔
    m.why? = none ∧ Reached c e m.names ∧ (m.names ≠ [] → c.excludesDir name = false) := by
  induction e using Entry.induct generalizing place name m with
  | file bytes =>
    rw [metAt, List.mem_singleton]
    constructor
    · rintro rfl
      exact ⟨rfl, ⟨⟨bytes, rfl⟩, fun _ hdir => (List.not_mem_nil hdir).elim⟩,
        fun hne => absurd rfl hne⟩
    · rintro ⟨hnone, ⟨⟨bytes', hfile⟩, -⟩, -⟩
      obtain ⟨names, why?⟩ := m
      cases names with
      | nil => exact congrArg (Met.mk []) hnone
      | cons => cases hfile
  | link target =>
    refine iff_of_false List.not_mem_nil ?_
    rintro ⟨-, ⟨⟨bytes, hfile⟩, -⟩, -⟩
    obtain ⟨names, why?⟩ := m
    cases names <;> cases hfile
  | dir entries ih =>
    obtain ⟨hnodup, hparts⟩ := Disk.isSound_dir.1 hs
    have hne : Reached c (.dir entries) m.names → m.names ≠ [] := by
      rintro ⟨⟨bytes, hfile⟩, -⟩ hnil
      rw [hnil] at hfile
      cases hfile
    rw [metAt]
    split
    · rename_i hexcluded
      refine iff_of_false List.not_mem_nil fun h => ?_
      exact Bool.false_ne_true ((h.2.2 (hne h.2.1)).symm.trans hexcluded)
    · rename_i hincluded
      rw [mem_listed_of_entries hopen hnodup fun n e m hmem =>
        ih (n, e) hmem (hparts _ hmem).2]
      exact ⟨fun h => ⟨h.1, h.2, fun _ => Bool.eq_false_iff.2 hincluded⟩, fun h => ⟨h.1, h.2.1⟩⟩

/-! ## Their order -/

theorem comesBefore_asymm {a b : Option String} (h : comesBefore a b = true) :
    comesBefore b a = false := by
  cases a with
  | none => rfl
  | some a =>
    cases b with
    | none => cases h
    | some b => exact decide_eq_false (String.lt_asymm (of_decide_eq_true h))

theorem comesBefore_trans {a b c : Option String} (h : comesBefore b a = false)
    (h' : comesBefore c b = false) : comesBefore c a = false := by
  cases a with
  | none => cases c <;> rfl
  | some a =>
    cases b with
    | none => cases h
    | some b =>
      cases c with
      | none => cases h'
      | some c =>
        have hab : a ≤ b := String.not_lt.1 (of_decide_eq_false h)
        have hbc : b ≤ c := String.not_lt.1 (of_decide_eq_false h')
        exact decide_eq_false (String.not_lt.2 (String.le_trans hab hbc))

/-- What lies in directories is in the order of rows of names, if it is so in each of their
entries. -/
theorem pairwise_inOrder {parts : List (Option String × List Met)}
    (hkeys : (parts.map Prod.fst).Nodup)
    (hparts : ∀ part ∈ parts, part.2.Pairwise fun x y => x.names < y.names)
    (hnames : ∀ part ∈ parts, ∃ name, part.1 = some name ∧
      ∀ m ∈ part.2, ∃ rest, m.names = name :: rest) :
    (inOrder parts).Pairwise fun x y => x.names < y.names := by
  have hsorted := @pairwise_sortStable (Option String × List Met) (fun a b => comesBefore a.1 b.1)
    (fun _ _ => comesBefore_asymm) (fun _ _ _ => comesBefore_trans) parts
  have hdistinct : (sortStable (fun a b => comesBefore a.1 b.1) parts).Pairwise
      fun a b => a.1 ≠ b.1 :=
    List.pairwise_map.1 (((sortStable_perm _ parts).map Prod.fst).nodup_iff.2 hkeys)
  rw [inOrder, List.pairwise_flatMap]
  refine ⟨fun part hpart => hparts part (mem_sortStable.1 hpart), ?_⟩
  refine (hsorted.and hdistinct).imp_of_mem ?_
  rintro a b ha hb ⟨hle, hne⟩ x hx y hy
  obtain ⟨name, hname, hrows⟩ := hnames a (mem_sortStable.1 ha)
  obtain ⟨name', hname', hrows'⟩ := hnames b (mem_sortStable.1 hb)
  obtain ⟨xs, hxs⟩ := hrows x hx
  obtain ⟨ys, hys⟩ := hrows' y hy
  rw [hname, hname'] at hle hne
  rw [hxs, hys]
  exact .rel (Std.lt_of_le_of_ne (String.not_lt.1 (of_decide_eq_false hle)) fun heq =>
    hne (congrArg some heq))

theorem pairwise_listed_of_entries (hopen : disk.Readable) (hd : (entries.map Prod.fst).Nodup)
    (h : ∀ part ∈ entries, (metAt disk c (place ++ [part.1]) part.1 part.2).Pairwise fun x y =>
      x.names < y.names) :
    (listed disk place (metIn disk c place entries)).Pairwise fun x y => x.names < y.names := by
  rw [listed_of_readable hopen]
  refine pairwise_inOrder ?_ ?_ ?_
  · rw [List.map_map]
    exact List.pairwise_map.2 ((List.pairwise_map.1 hd).imp fun hne heq =>
      hne (Option.some.inj heq))
  · intro part hpart
    obtain ⟨entry, hentry, rfl⟩ := List.mem_map.1 hpart
    exact List.pairwise_map.2 ((h entry hentry).imp fun hlt => .cons hlt)
  · intro part hpart
    obtain ⟨entry, hentry, rfl⟩ := List.mem_map.1 hpart
    refine ⟨entry.1, rfl, fun m hm => ?_⟩
    obtain ⟨m', -, rfl⟩ := List.mem_map.1 hm
    exact ⟨m'.names, rfl⟩

theorem pairwise_metAt (hopen : disk.Readable) (hs : e.isSound = true) :
    (metAt disk c place name e).Pairwise fun x y => x.names < y.names := by
  induction e using Entry.induct generalizing place name with
  | file => exact List.pairwise_singleton _ _
  | link => exact .nil
  | dir entries ih =>
    obtain ⟨hnodup, hparts⟩ := Disk.isSound_dir.1 hs
    rw [metAt]
    split
    · exact .nil
    · exact pairwise_listed_of_entries hopen hnodup fun part hpart =>
        ih part hpart (hparts part hpart).2

/-! ## Modules -/

theorem extension?_below (h : ∀ n ∈ names, Disk.isName n = true)
    (hlast : names.getLast? = some name) :
    (root.below names).extension? = (Path.cutName name).2 := by
  rw [Path.extension?, Path.fileName?_below h hlast]
  rfl

/-- Only the file that stands for a root without a name is a module without a name. -/
theorem moduleName?_below_eq_none (h : ∀ n ∈ names, Disk.isName n = true) (hne : names ≠ []) :
    moduleName? root (root.below names) = none ↔ Nameless root names := by
  obtain ⟨name, hlast⟩ := Option.ne_none_iff_exists'.1 (mt List.getLast?_eq_none_iff.1 hne)
  obtain ⟨dirs, rfl⟩ := List.getLast?_eq_some_iff.1 hlast
  have hsingle : (∃ n, dirs ++ [name] = [n] ∧ (Path.cutName n).1 = "__init__") ↔
      dirs = [] ∧ (Path.cutName name).1 = "__init__" := by
    constructor
    · rintro ⟨n, hn, hinit⟩
      obtain ⟨rfl, hsame⟩ := List.append_inj' (hn.trans (List.nil_append [n]).symm) rfl
      rw [List.cons.inj hsame |>.1]
      exact ⟨rfl, hinit⟩
    · rintro ⟨rfl, hinit⟩
      exact ⟨name, rfl, hinit⟩
  rw [moduleName?_of_behind? (Path.behind?_below h) rfl, Nameless, hsingle]
  by_cases hinit : (Path.cutName name).1 = "__init__"
  · by_cases hdirs : dirs = [] <;> simp [hinit, hdirs]
  · simp [hinit]

theorem isSome_of?_below (h : ∀ n ∈ names, Disk.isName n = true) (hne : names ≠ []) :
    (SourceFile.of? c root (root.below names)).isSome = true ↔
      (∃ name, names.getLast? = some name ∧ (Path.cutName name).2.any c.takesExtension = true) ∧
        ¬ Nameless root names := by
  obtain ⟨name, hlast⟩ := Option.ne_none_iff_exists'.1 (mt List.getLast?_eq_none_iff.1 hne)
  rw [SourceFile.of?, extension?_below h hlast, ← moduleName?_below_eq_none h hne]
  split
  · rename_i htaken
    rw [Option.isSome_map, Option.isSome_iff_ne_none]
    exact ⟨fun hm => ⟨⟨name, hlast, htaken⟩, hm⟩, And.right⟩
  · rename_i htaken
    refine iff_of_false nofun ?_
    rintro ⟨⟨name', hlast', htaken'⟩, -⟩
    rw [Option.some.inj (hlast.symm.trans hlast')] at htaken
    exact htaken htaken'

/-! ## What is listed -/

theorem mem_met (hd : disk.Sound) (hopen : disk.Readable)
    (hroot : disk.reach .size root = .ok (place, top)) :
    m ∈ met disk root c ↔ m.why? = none ∧ m.names ≠ [] ∧ Reached c top m.names := by
  have hs := Disk.isSound_of_reach hd hroot
  have hinside {names : List String} (h : Reached c top names) :
    ∃ bytes, top.inside names = some (.file bytes) := h.isFile
  rw [met, hroot]
  cases top with
  | file | link =>
    refine iff_of_false List.not_mem_nil ?_
    rintro ⟨-, hne, hreached⟩
    obtain ⟨bytes, hfile⟩ := hinside hreached
    obtain ⟨n, rest, hnames⟩ := List.exists_cons_of_ne_nil hne
    rw [hnames] at hfile
    cases hfile
  | dir entries =>
    obtain ⟨hnodup, hparts⟩ := Disk.isSound_dir.1 hs
    show m ∈ listed disk place (metIn disk c place entries) ↔ _
    rw [mem_listed_of_entries hopen hnodup fun _ _ _ hmem =>
      mem_metAt hopen (hparts _ hmem).2]
    refine and_congr_right fun _ => (and_iff_right_of_imp fun hreached hnil => ?_).symm
    obtain ⟨bytes, hfile⟩ := hinside hreached
    rw [hnil] at hfile
    cases hfile

theorem pairwise_met (hd : disk.Sound) (hopen : disk.Readable) (root : Path) (c : Config) :
    (met disk root c).Pairwise fun x y => x.names < y.names := by
  rcases met_cases hd root c with ⟨why, h⟩ | h | ⟨place, entries, -, hs, h⟩
  · rw [h]
    exact List.pairwise_singleton _ _
  · rw [h]
    exact .nil
  · obtain ⟨hnodup, hparts⟩ := Disk.isSound_dir.1 hs
    rw [h]
    exact pairwise_listed_of_entries hopen hnodup fun part hpart =>
      pairwise_metAt hopen (hparts part hpart).2

/-- The rows of names that lead to the source files. -/
def rowsOf (c : Config) (root : Path) (found : List Met) : List (List String) :=
  (found.filter fun m => (m.file? c root).isSome).map Met.names

theorem map_path_filterMap (c : Config) (root : Path) (found : List Met) :
    (found.filterMap (Met.file? c root)).map SourceFile.path =
      (rowsOf c root found).map root.below := by
  induction found with
  | nil => rfl
  | cons m found ih =>
    cases hfile : m.file? c root with
    | none => simpa [rowsOf, hfile] using ih
    | some file => simpa [rowsOf, hfile, (Met.file?_eq_some hfile).2.1] using ih

theorem mem_rowsOf (hd : disk.Sound) (hopen : disk.Readable)
    (hroot : disk.reach .size root = .ok (place, top)) :
    names ∈ rowsOf c root (met disk root c) ↔ Wanted c top names ∧ ¬ Nameless root names := by
  have hs := Disk.isSound_of_reach hd hroot
  have hproper {names : List String} (h : Reached c top names) :
      ∀ n ∈ names, Disk.isName n = true := by
    obtain ⟨⟨bytes, hfile⟩, -⟩ := h
    exact Disk.isName_of_inside hs hfile
  rw [rowsOf, List.mem_map]
  simp only [List.mem_filter, mem_met hd hopen hroot]
  constructor
  · rintro ⟨⟨names, why?⟩, ⟨⟨rfl, hne, hreached⟩, hfile⟩, rfl⟩
    obtain ⟨htaken, hnamed⟩ := (isSome_of?_below (hproper hreached) hne).1 hfile
    exact ⟨⟨hreached, htaken⟩, hnamed⟩
  · rintro ⟨⟨hreached, htaken⟩, hnamed⟩
    have hne : names ≠ [] := by
      rintro rfl
      obtain ⟨name, hlast, -⟩ := htaken
      cases hlast
    exact ⟨⟨names, none⟩,
      ⟨⟨rfl, hne, hreached⟩, (isSome_of?_below (hproper hreached) hne).2 ⟨htaken, hnamed⟩⟩, rfl⟩

/-- Where nothing is refused, a walk lists the files that are wanted below its root, each once, in
the order of the names that lead to them, and with the names of their modules.  Only the file that
stands for a root without a name is left out. -/
theorem walk_lists (hd : disk.Sound) (hopen : disk.Readable)
    (hroot : disk.reach .size root = .ok (place, top)) :
    ∃ rows : List (List String), rows.Pairwise (· < ·) ∧
      (∀ names, names ∈ rows ↔ Wanted c top names ∧ ¬ Nameless root names) ∧
      (walk disk root c).files.map SourceFile.path = rows.map root.below ∧
      ((walk disk root c).files.map SourceFile.path).Nodup ∧
      (∀ file ∈ (walk disk root c).files, moduleName? root file.path = some file.module) ∧
      (walk disk root c).failures = [] := by
  refine ⟨rowsOf c root (met disk root c), ?_, fun _ => mem_rowsOf hd hopen hroot,
    map_path_filterMap c root _,
    (List.nodup_append.1 (nodup_paths_walk hd root c)).2.1, fun _ => module_of_mem_walk, ?_⟩
  · exact List.pairwise_map.2 ((pairwise_met hd hopen root c).filter _)
  · refine List.filterMap_eq_nil_iff.2 fun m hm => ?_
    rw [Met.failure?, ((mem_met hd hopen hroot).1 hm).1]
    rfl

/-- What lies in the root of a project: a package beside a module of the same name, a directory that
is left out, and a link. -/
def grove : Directory := [
  ("elm.py", .file []),
  ("ash.py", .file []),
  ("ash", .dir [("twig.txt", .file []), ("__init__.py", .file []),
    ("leaf.py", .link ⟨"../elm.py"⟩)]),
  ("__pycache__", .dir [("oak.py", .file [])]),
  ("bush", .link ⟨"ash"⟩)]

/-- The root has a name that is left out further down. -/
example : (walk ⟨[("build", .dir grove)], []⟩ ⟨"/build"⟩ .standard).files =
    [⟨⟨"/build/ash/__init__.py"⟩, "ash"⟩, ⟨⟨"/build/ash.py"⟩, "ash"⟩,
      ⟨⟨"/build/elm.py"⟩, "elm"⟩] := by decide +kernel

/-- The root is left and entered again, so that its path does not end in a name. -/
def detour : Disk := ⟨[("proj", .dir [("__init__.py", .file [120, 10]), ("sub", .dir [])])], []⟩

example : Nameless ⟨"proj/sub/.."⟩ ["__init__.py"] ∧
    ⟨"proj/sub/../__init__.py"⟩ ∉
      (walk detour ⟨"proj/sub/.."⟩ .standard).files.map SourceFile.path :=
  ⟨⟨by decide +kernel, "__init__.py", rfl, by decide +kernel⟩, by decide +kernel⟩

end Project

end AsyncSpread
