import Mathlib.Data.List.Basic
import AsyncSpread.Proofs.Disk.Paths
import AsyncSpread.Proofs.Fallible
import AsyncSpread.Source.Definition

/-!
Sources that do not depend on what has been read before.

A file is read once and then known by its key, so what a path gives may depend on who asked before,
under another path with the same key.  It does not when paths with one key are read alike
(`Source.Steady`); then everything that is found in a source is what the cache at the beginning
would have given (`Source.resolveCall_spec`).  Paths that lead somewhere are read alike
(`Source.steady_of_resolve`).  A path that leads nowhere is not, when its components are those of a
file: `/a.py/` has the key of `/a.py`.
-/

namespace AsyncSpread

namespace Source

/-- Files that are known by one key are read alike. -/
def Steady (disk : Disk) (files : List Path) : Prop :=
  ∀ p ∈ files, ∀ q ∈ files, (Cache.key disk p).same (Cache.key disk q) = true →
    (disk.readBytes p).toOption = (disk.readBytes q).toOption

namespace Cache

variable {c c' start : Cache} {k k' : Path} {ls : List (List Char)}

theorem get?_congr (c : Cache) (h : k.same k' = true) : c.get? k = c.get? k' := by
  have hk : k.components = k'.components := beq_iff_eq.1 h
  simp only [get?, Path.same, hk]

theorem get?_cons (k key : Path) (ls : List (List Char))
    (entries : List (Path × List (List Char))) :
    get? ⟨(k, ls) :: entries⟩ key = if k.same key then some ls else get? ⟨entries⟩ key := by
  by_cases h : k.same key = true
  · simp [get?, h]
  · simp [get?, h]

variable {disk : Disk} {files : List Path} {path : Path}

/-- Everything that a cache began with is still there, and what came in is what the files say. -/
structure Keeps (disk : Disk) (files : List Path) (start c : Cache) : Prop where
  old : ∀ k ls, start.get? k = some ls → c.get? k = some ls
  new : ∀ p ∈ files, ∀ ls, c.get? (key disk p) = some ls → start.get? (key disk p) = some ls ∨
    ∃ bytes, disk.readBytes p = .ok bytes ∧ ls = numbered (Text.decodeUtf8Lossy bytes)

theorem keeps_self (disk : Disk) (files : List Path) (c : Cache) : Keeps disk files c c :=
  ⟨fun _ _ h => h, fun _ _ _ h => .inl h⟩

/-- A file has the lines that it had at the beginning. -/
theorem Keeps.map_lines (h : Keeps disk files start c) (hpath : path ∈ files) :
    (c.lines disk path).map Prod.fst = (start.lines disk path).map Prod.fst := by
  cases hstart : start.get? (key disk path) with
  | some ls => simp only [lines, hstart, h.old _ _ hstart, Except.map]
  | none =>
    cases hc : c.get? (key disk path) with
    | none =>
      simp only [lines, hstart, hc]
      cases disk.readBytes path <;> rfl
    | some ls =>
      rcases h.new path hpath ls hc with hold | ⟨bytes, hbytes, rfl⟩
      · rw [hstart] at hold
        cases hold
      · simp only [lines, hstart, hc, hbytes, Except.map]

theorem Keeps.lines (h : Keeps disk files start c) (hsteady : Steady disk files)
    (hpath : path ∈ files) (hlines : c.lines disk path = .ok (ls, c')) :
    Keeps disk files start c' := by
  unfold Cache.lines at hlines
  cases hc : c.get? (key disk path) with
  | some found =>
    rw [hc] at hlines
    cases hlines
    exact h
  | none =>
    rw [hc] at hlines
    cases hbytes : disk.readBytes path with
    | error why =>
      rw [hbytes] at hlines
      cases hlines
    | ok bytes =>
      rw [hbytes] at hlines
      cases hlines
      refine ⟨fun k ls hk => ?_, fun p hp ls hget => ?_⟩
      · have hold := h.old k ls hk
        by_cases hsame : (key disk path).same k = true
        · rw [get?_congr c hsame, hold] at hc
          cases hc
        · rw [get?_cons, if_neg hsame]
          exact hold
      · rw [get?_cons] at hget
        by_cases hsame : (key disk path).same (key disk p) = true
        · rw [if_pos hsame] at hget
          have halike := hsteady path hpath p hp hsame
          rw [hbytes] at halike
          exact .inr ⟨bytes, toOption_eq_some halike.symm, (Option.some.inj hget).symm⟩
        · rw [if_neg hsame] at hget
          exact h.new p hp ls hget

end Cache

/-! ## Definitions -/

open Trace Cache

variable {disk : Disk} {files : List Path} {start c c' : Cache} {file : Path} {name : String}
  {reported : Nat}

/-- A definition is found where the cache at the beginning has it. -/
theorem map_resolveLine (h : Keeps disk files start c) (hfile : file ∈ files) :
    (resolveLine disk file name reported c).map Prod.fst =
      (resolveLine disk file name reported start).map Prod.fst := by
  have hlines := h.map_lines hfile
  unfold resolveLine
  split
  · rfl
  · cases hc : c.lines disk file with
    | error e =>
      cases hstart : start.lines disk file with
      | error e' =>
        rw [hc, hstart] at hlines
        cases hlines
        rfl
      | ok r =>
        rw [hc, hstart] at hlines
        cases hlines
    | ok r =>
      cases hstart : start.lines disk file with
      | error e' =>
        rw [hc, hstart] at hlines
        cases hlines
      | ok r' =>
        rw [hc, hstart] at hlines
        have hsame : r.1 = r'.1 := Except.ok.inj hlines
        simp only [Except.map, hsame]

theorem keeps_resolveLine (h : Keeps disk files start c) (hsteady : Steady disk files)
    (hfile : file ∈ files) {line : Option Nat}
    (hline : resolveLine disk file name reported c = .ok (line, c')) :
    Keeps disk files start c' := by
  unfold resolveLine at hline
  split at hline
  · cases hline
    exact h
  · cases hc : c.lines disk file with
    | error e =>
      rw [hc] at hline
      cases hline
    | ok r =>
      rw [hc] at hline
      cases hline
      exact h.lines hsteady hfile hc

/-- What resolving a call gives when each of its sources is looked up in the cache at the
beginning. -/
def resolved (disk : Disk) (raw : RawCall) (start : Cache) :
    Except Profile.Fault (RawCall × Bool) := do
  let caller ← (resolveLine disk raw.caller.file raw.caller.name raw.caller.line start).map Prod.fst
  let callee ← (resolveLine disk raw.callee.file raw.callee.name raw.callee.line start).map Prod.fst
  return (⟨moved raw.caller caller, moved raw.callee callee, raw.callLine⟩,
    caller.isSome && callee.isSome)

variable {raw : RawCall}

/-- A call is resolved in the same way whatever has been read before. -/
theorem resolveCall_spec (h : Keeps disk files start c) (hsteady : Steady disk files)
    (hcaller : raw.caller.file ∈ files) (hcallee : raw.callee.file ∈ files) :
    Keeps disk files start (resolveCall disk raw c).1 ∧
    (resolveCall disk raw c).2 = resolved disk raw start := by
  rw [resolved, ← map_resolveLine h hcaller]
  unfold resolveCall
  cases hfirst : resolveLine disk raw.caller.file raw.caller.name raw.caller.line c with
  | error e => exact ⟨h, rfl⟩
  | ok first =>
    have hkeeps := keeps_resolveLine h hsteady hcaller hfirst
    rw [← map_resolveLine hkeeps hcallee]
    dsimp only
    cases hsecond : resolveLine disk raw.callee.file raw.callee.name raw.callee.line first.2 with
    | error e => exact ⟨hkeeps, rfl⟩
    | ok second => exact ⟨keeps_resolveLine hkeeps hsteady hcallee hsecond, rfl⟩

/-! ## Paths that lead somewhere -/

/-- Paths that lead somewhere are known by where they lead. -/
theorem steady_of_resolve (hdisk : disk.Sound)
    (h : ∀ p ∈ files, ∃ names, disk.resolve p = .ok names) : Steady disk files := by
  intro p hp q hq hsame
  obtain ⟨names, hnames⟩ := h p hp
  obtain ⟨names', hnames'⟩ := h q hq
  have hproper {path : Path} {names : List String} (hresolve : disk.resolve path = .ok names) :
      ∀ n ∈ names, Disk.isName n = true := by
    obtain ⟨e, he, -⟩ := Disk.stands_of_resolve hresolve
    exact (Disk.sound_of_entryBelow hdisk he).1
  have hkey {path : Path} {names : List String} (hresolve : disk.resolve path = .ok names) :
      key disk path = Path.ofNames names := by
    rw [key, Disk.canonical, hresolve]
    rfl
  rw [hkey hnames, hkey hnames'] at hsame
  have heq := Path.eq_of_same_ofNames (hproper hnames) (hproper hnames') hsame
  simp only [Disk.readBytes, Disk.reach, hnames, hnames', heq]

end Source

end AsyncSpread
