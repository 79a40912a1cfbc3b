import AsyncSpread.Project.Index
import AsyncSpread.Proofs.Project.Walked
import AsyncSpread.Proofs.Rewrite.Openings
import AsyncSpread.Proofs.Source.Found
import AsyncSpread.Proofs.Source.Steady
import AsyncSpread.Python.Parse

/-!
From the line of a profile to a name.

A path that leads to an indexed file from the working directory has its names and its lines from
that file, whatever has been read before (`Index.lines_of_canonical`).  So a definition that is
written plainly is resolved to its own line, and from there to its own name
(`Index.nameAt?_of_plain`).  A path that leads to its file only from the root has names, but no
lines.
-/

namespace AsyncSpread

open Python

/-- A text without mistakes is read the same with and without replacing them. -/
theorem Text.decodeUtf8Lossy_of_decodeUtf8? {bytes : List UInt8} {text : List Char}
    (h : decodeUtf8? bytes = some text) : decodeUtf8Lossy bytes = text := by
  unfold decodeUtf8? at h
  unfold decodeUtf8Lossy
  generalize decodeFrom none bytes = read at h ⊢
  induction read generalizing text with
  | nil =>
    cases h
    rfl
  | cons c read ih =>
    simp only [List.mapM_cons, id, Option.bind_eq_bind, Option.bind_eq_some_iff, Option.pure_def,
      Option.some.injEq] at h
    obtain ⟨char, rfl, rest, hrest, rfl⟩ := h
    rw [List.map_cons, ih hrest]
    rfl

/-- A path that leads to the place of a file reads that file. -/
theorem Disk.Holds.readBytes_of_canonical {disk : Disk} (hd : disk.Sound)
    {file path canonical : Path} {bytes : List UInt8} (h : disk.Holds file bytes)
    (hpath : disk.canonical path = .ok canonical) (hsame : file.same canonical = true) :
    canonical = file ∧ disk.readBytes path = disk.readBytes file := by
  obtain ⟨names, rfl, hnames, hfile⟩ := h
  rw [Disk.canonical] at hpath
  cases hr : disk.resolve path with
  | error why =>
    rw [hr] at hpath
    cases hpath
  | ok names' =>
    rw [hr] at hpath
    cases hpath
    obtain ⟨e, he, -⟩ := Disk.stands_of_resolve hr
    have heq := Path.eq_of_same_ofNames hnames (Disk.sound_of_entryBelow hd he).1 hsame
    subst heq
    refine ⟨rfl, ?_⟩
    rw [Disk.readBytes, Disk.readBytes, Disk.reach, Disk.reach, hr,
      Disk.resolve_ofNames hnames (Disk.stands_of_file hfile)]

namespace Project

theorem exists_readBytes_of_readSource {disk : Disk} {path : Path} {c : Config} {source : List Char}
    (hread : readSource disk path c = .ok source) :
    ∃ bytes, disk.readBytes path = .ok bytes ∧ Text.decodeUtf8Lossy bytes = source := by
  unfold readSource at hread
  split at hread
  · cases hread
  · split at hread
    · cases hread
    · split at hread
      · cases hread
      · rename_i htext
        cases hread
        obtain ⟨bytes, hbytes, hdecode⟩ := Fallible.exists_of_bind htext
        split at hdecode
        · rename_i hsome
          cases hdecode
          exact ⟨bytes, hbytes, Text.decodeUtf8Lossy_of_decodeUtf8? hsome⟩
        · cases hdecode

namespace Index

variable {disk : Disk} {root path canonical : Path} {c : Config} {ix : Index} {f : NameIndex}

section

variable [Parser]

/-- The indexed files are files that the walk finds, each with the index of its text. -/
theorem of_mem_files (h : build disk root c = .ok ix) (hf : (path, f) ∈ ix.files) :
    disk.canonical root = .ok ix.root ∧
      ∃ file ∈ (walk disk ix.root c).files, file.path = path ∧ ofFile disk c file = .ok f := by
  unfold build at h
  obtain ⟨top, hp, h⟩ := Fallible.exists_of_bind h
  cases h
  refine ⟨(prepare_eq_ok.1 hp).2, ?_⟩
  obtain ⟨⟨path', r⟩, hmem, hr⟩ := List.mem_filterMap.1 hf
  obtain ⟨file, hfile, heq⟩ := List.mem_map.1 hmem
  cases heq
  simp only at hr
  split at hr
  · rename_i hok
    cases hr
    exact ⟨file, hfile, rfl, hok⟩
  · cases hr

theorem ofFile_eq_ok {file : SourceFile} (h : ofFile disk c file = .ok f) : ∃ source tree,
    readSource disk file.path c = .ok source ∧ parse source = .ok tree ∧
    f = NameIndex.ofTree source file.module tree := by
  unfold ofFile at h
  obtain ⟨source, hs, h⟩ := Fallible.exists_of_bind h
  obtain ⟨tree, htree, h⟩ := Fallible.exists_of_bind h
  cases h
  exact ⟨source, tree, hs, parse_of_parseSource htree, rfl⟩

/-- A path that leads to an indexed file from the working directory has the names of that file and
its lines. -/
theorem lines_of_canonical (hd : disk.Sound) (h : build disk root c = .ok ix)
    (hpath : disk.canonical path = .ok canonical) (hf : ix.atPath? canonical = some f) :
    ix.file? disk path = some f ∧ ∃ module source tree,
      readSource disk canonical c = .ok source ∧ parse source = .ok tree ∧
      f = NameIndex.ofTree source module tree ∧
      ∀ files cache, Source.Cache.Keeps disk files ∅ cache → path ∈ files →
        (cache.lines disk path).map Prod.fst = .ok (Source.numbered source) := by
  refine ⟨?_, ?_⟩
  · rw [file?, hpath]
    simp [Except.toOption, hf]
  · obtain ⟨⟨path', f'⟩, hfind, rfl⟩ := Option.map_eq_some_iff.1 hf
    have hsame := @List.find?_some _ (fun (p : Path × NameIndex) => p.1.same canonical) _ _ hfind
    obtain ⟨hroot, file, hfile, rfl, hof⟩ := of_mem_files h (List.mem_of_find?_eq_some hfind)
    obtain ⟨source, tree, hread, hparse, hix⟩ := ofFile_eq_ok hof
    obtain ⟨bytes, hholds⟩ := holds_of_mem_walk hd hroot hfile
    obtain ⟨rfl, halike⟩ := hholds.readBytes_of_canonical hd hpath hsame
    obtain ⟨text, htext, hsource⟩ := exists_readBytes_of_readSource hread
    refine ⟨file.module, source, tree, hread, hparse, hix, fun files cache hkeeps hmem => ?_⟩
    rw [hkeeps.map_lines hmem, ← hsource]
    change (Source.Cache.lines disk path ⟨[]⟩).map _ = _
    rw [Source.Cache.lines, halike, htext]
    rfl

end

/-- A path that leads to its file from the root of the project only has names there, but no
lines. -/
example :
    let disk : Disk :=
  ⟨[("proj", .dir [("a.py", .file (Text.encodeUtf8 "def g(): pass\n".toList))])], []⟩
    (build disk ⟨"proj"⟩ .standard).toOption.map (fun ix =>
      (ix.nameAt? disk ⟨"a.py"⟩ 1, (Source.Cache.lines disk ⟨"a.py"⟩ ∅).isOk)) =
          some (some "a.g", false) := by
  decide +kernel

/-- In a file that a path leads to from the working directory, a definition that is written plainly
is resolved to its own line if nothing above it looks like it, and that line leads to its own
name. -/
theorem nameAt?_of_plain [Parser] [LawfulParser] (hd : disk.Sound) (h : build disk root c = .ok ix)
    (hpath : disk.canonical path = .ok canonical) (hf : ix.atPath? canonical = some f)
    (hsynthetic : Source.isSynthetic path.text = false) :
    ∃ module source tree, readSource disk canonical c = .ok source ∧ parse source = .ok tree ∧
      ∀ files cache, Source.Cache.Keeps disk files ∅ cache → path ∈ files →
        ∀ d names m reported, (d, names) ∈ definitionsOf source (NameIndex.prefixOf module) tree →
          d.definedName? = some m → Source.Plain source d (m.text source) →
          Source.Clear (Source.numbered source) (m.text source) reported d.startLine →
            (Source.resolveLine disk path (String.ofList (m.text source)) reported cache).map
              Prod.fst = .ok (some d.startLine) ∧
              ix.nameAt? disk path d.startLine = some (".".intercalate names) := by
  obtain ⟨hfile, module, source, tree, hread, hparse, rfl, hlines⟩ :=
    lines_of_canonical hd h hpath hf
  refine ⟨module, source, tree, hread, hparse,
    fun files cache hkeeps hmem d names m reported hdef hm hplain hclear => ⟨?_, ?_⟩⟩
  · exact Source.resolveLine_of_plain (hlines files cache hkeeps hmem) hsynthetic
      (lawful_of_parse hparse) hdef hm hplain hclear
  · rw [nameAt?, hfile]
    exact NameIndex.nameAt?_of_mem (lawful_of_parse hparse) hdef

end Index

end Project

end AsyncSpread
