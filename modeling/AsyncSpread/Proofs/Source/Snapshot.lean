import Mathlib.Data.List.Induction
import AsyncSpread.Proofs.Disk.Contents
import AsyncSpread.Proofs.Source.Steady

/-!
The cache as a snapshot of the files.

A history is a row of questions to one cache, each with the files as they are at its moment.  As
long as no path changes where it leads, what the cache has of a file is what the file held when it
was first loaded since it was last dropped, whatever was written to it in between and by whatever
path it is asked for (`snapshot_after`).  The invariant ties each entry to the moment of its load
(`get?_after`).
-/

namespace AsyncSpread

/-- A path is a spelling of a file, known by its absolute path: it leads there, or it leads nowhere
and has the components of that path, as `/a.py/` has those of `/a.py`. -/
def Disk.Spells (d : Disk) (p file : Path) : Prop :=
  (d.canonical p).toOption = some file ∨
    ((d.canonical p).toOption = none ∧ (∃ q, (d.canonical q).toOption = some file) ∧
      p.same file = true)

namespace Source

/-- What can be asked of a cache. -/
inductive Ask where
  | lines (path : Path)
  | contains (path : Path)
  | size
  | forget (path : Path)
  | clear

/-- What a cache is asked, and the files as they are then. -/
structure Moment where
  disk : Disk
  ask : Ask

inductive Answer where
  | lines (found : Except Unreadable (List (List Char)))
  | contains (held : Bool)
  | size (n : Nat)
  | done

namespace Moment

def answer (m : Moment) (c : Cache) : Answer :=
  match m.ask with
  | .lines path => .lines ((c.lines m.disk path).map Prod.fst)
  | .contains path => .contains (c.contains m.disk path)
  | .size => .size c.size
  | .forget _ => .done
  | .clear => .done

/-- The cache behind a question. -/
def leave (m : Moment) (c : Cache) : Cache :=
  match m.ask with
  | .lines path => ((c.lines m.disk path).map Prod.snd).toOption.getD c
  | .contains _ => c
  | .size => c
  | .forget path => c.forget m.disk path
  | .clear => ∅

/-- The lines of a file are asked for when it holds these bytes. -/
def Reads (m : Moment) (file : Path) (bytes : List UInt8) : Prop :=
  ∃ p, m.ask = .lines p ∧ (m.disk.canonical p).toOption = some file ∧ m.disk.readBytes p = .ok bytes

/-- A file is dropped from the cache at this moment, alone or with all others. -/
def Drops (m : Moment) (file : Path) : Prop :=
  m.ask = .clear ∨ ∃ p, m.ask = .forget p ∧ m.disk.Spells p file

end Moment

def Cache.after (c : Cache) (ms : List Moment) : Cache := ms.foldl (fun c m => m.leave c) c

def Cache.answers (c : Cache) : List Moment → List Answer
  | [] => []
  | m :: ms => m.answer c :: (m.leave c).answers ms

/-- Whenever a file could be read, it has been dropped since. -/
def Dropped (file : Path) (ms : List Moment) : Prop :=
  ∀ before m later bytes, ms = before ++ m :: later → m.Reads file bytes →
    ∃ m' ∈ later, m'.Drops file

/-- What a file held when it was asked for first since it was last dropped. -/
def FirstRead (file : Path) (ms : List Moment) (bytes : List UInt8) : Prop :=
  ∃ before m later, ms = before ++ m :: later ∧ Dropped file before ∧ m.Reads file bytes ∧
    ∀ m' ∈ later, ¬ m'.Drops file

/-! ## Histories -/

variable {ms : List Moment} {m : Moment} {file : Path} {bytes : List UInt8}

theorem Moment.Reads.not_drops (h : m.Reads file bytes) : ¬ m.Drops file := by
  obtain ⟨p, hask, -⟩ := h
  intro hdrops
  rcases hdrops with hclear | ⟨q, hforget, -⟩
  · rw [hask] at hclear
    cases hclear
  · rw [hask] at hforget
    cases hforget

/-- A file that has been read and not been dropped since has a first read. -/
theorem exists_firstRead {before later : List Moment} (h : m.Reads file bytes)
    (hlater : ∀ m' ∈ later, ¬ m'.Drops file) :
    ∃ first, FirstRead file (before ++ m :: later) first := by
  -- Any earlier read that still stands is taken in place of this one, so there is an earliest.
  induction hn : before.length using Nat.strongRecOn generalizing before m later bytes with
  | ind n ih =>
    by_cases hdropped : Dropped file before
    · exact ⟨bytes, before, m, later, rfl, hdropped, h, hlater⟩
    · simp only [Dropped, not_forall, not_exists, not_and] at hdropped
      obtain ⟨front, m', back, bytes', rfl, hread, hback⟩ := hdropped
      have hshort : front.length < n := by
        rw [← hn, List.length_append, List.length_cons]
        omega
      have hstands : ∀ x ∈ back ++ m :: later, ¬ x.Drops file := by
        intro x hx
        rcases List.mem_append.1 hx with hx | hx
        · exact hback x hx
        · rcases List.mem_cons.1 hx with rfl | hx
          · exact h.not_drops
          · exact hlater x hx
      have hfirst := ih front.length hshort hread hstands rfl
      rwa [List.append_assoc, List.cons_append]

theorem dropped_iff : Dropped file ms ↔ ∀ bytes, ¬ FirstRead file ms bytes := by
  constructor
  · intro hdropped bytes hfirst
    obtain ⟨before, m, later, rfl, -, hread, hlater⟩ := hfirst
    obtain ⟨m', hm', hdrops⟩ := hdropped _ _ _ _ rfl hread
    exact hlater m' hm' hdrops
  · intro hnone before m later bytes heq hread
    refine Classical.byContradiction fun hno => ?_
    simp only [not_exists, not_and] at hno
    obtain ⟨first, hfirst⟩ : ∃ first, FirstRead file (before ++ m :: later) first :=
      exists_firstRead hread hno
    rw [← heq] at hfirst
    exact hnone first hfirst

theorem not_firstRead_nil : ¬ FirstRead file [] bytes := by
  intro hfirst
  obtain ⟨before, m, later, heq, -⟩ := hfirst
  exact absurd heq.symm (List.append_ne_nil_of_right_ne_nil _ (List.cons_ne_nil _ _))

/-- One more moment drops a file, or keeps its first read, or is its first read. -/
theorem firstRead_concat : FirstRead file (ms ++ [m]) bytes ↔
    ¬ m.Drops file ∧ (FirstRead file ms bytes ∨ (Dropped file ms ∧ m.Reads file bytes)) := by
  constructor
  · intro hfirst
    obtain ⟨before, x, later, heq, hdropped, hread, hlater⟩ := hfirst
    rcases List.eq_nil_or_concat later with rfl | ⟨back, last, rfl⟩
    · obtain ⟨rfl, hlast⟩ := List.append_inj' heq rfl
      cases hlast
      exact ⟨hread.not_drops, .inr ⟨hdropped, hread⟩⟩
    · rw [List.concat_eq_append, ← List.cons_append, ← List.append_assoc] at heq
      obtain ⟨rfl, hlast⟩ := List.append_inj' heq rfl
      cases hlast
      refine ⟨hlater m (by simp),
        .inl ⟨before, x, back, rfl, hdropped, hread, fun m' hm' => hlater m' ?_⟩⟩
      rw [List.concat_eq_append]
      exact List.mem_append_left _ hm'
  · intro hand
    obtain ⟨hkept, hfirst | ⟨hdropped, hread⟩⟩ := hand
    · obtain ⟨before, x, later, rfl, hdropped, hread, hlater⟩ := hfirst
      refine ⟨before, x, later ++ [m], by rw [List.append_assoc, List.cons_append],
        hdropped, hread, fun m' hm' => ?_⟩
      rcases List.mem_append.1 hm' with hm' | hm'
      · exact hlater m' hm'
      · rwa [List.mem_singleton.1 hm']
    · exact ⟨ms, m, [], rfl, hdropped, hread, nofun⟩

/-! ## Keys -/

section

variable {disk : Disk} {p q : Path} (hdisk : disk.Sound)

theorem Cache.key_eq (disk : Disk) (p : Path) :
    key disk p = (disk.canonical p).toOption.getD p := rfl

theorem Cache.key_of_leads (h : (disk.canonical p).toOption = some file) : key disk p = file := by
  rw [key_eq, h, Option.getD_some]

theorem Cache.key_of_leadsLike {d : Disk} (h : d.LeadsLike disk) : key d p = key disk p := by
  rw [key_eq, key_eq, h p]

theorem leads_of_readBytes (h : disk.readBytes p = .ok bytes) :
    ∃ file, (disk.canonical p).toOption = some file := by
  cases hr : disk.resolve p with
  | error why => simp [Disk.readBytes, Disk.reach, hr, bind, Except.bind] at h
  | ok names => exact ⟨Path.ofNames names, by rw [Disk.canonical, hr]; rfl⟩

theorem exists_leads_of_spells (h : disk.Spells p file) :
    ∃ q, (disk.canonical q).toOption = some file := by
  rcases h with h | ⟨-, h, -⟩
  · exact ⟨p, h⟩
  · exact h

include hdisk

theorem eq_of_same {file file' : Path} (h : (disk.canonical p).toOption = some file)
    (h' : (disk.canonical q).toOption = some file') (hsame : file.same file' = true) :
    file = file' := by
  have hproper {p file : Path} (h : (disk.canonical p).toOption = some file) :
      ∃ names, Path.ofNames names = file ∧ ∀ n ∈ names, Disk.isName n = true := by
    obtain ⟨names, hnames, e, he, -⟩ := Disk.stands_of_canonical (toOption_eq_some h)
    exact ⟨names, hnames, (Disk.sound_of_entryBelow hdisk he).1⟩
  obtain ⟨names, rfl, hnames⟩ := hproper h
  obtain ⟨names', rfl, hnames'⟩ := hproper h'
  rw [Path.eq_of_same_ofNames hnames hnames' hsame]

/-- A path is a spelling of the file that it has the key of. -/
theorem spells_iff_same_key (hfile : (disk.canonical q).toOption = some file) :
    disk.Spells p file ↔ (Cache.key disk p).same file = true := by
  rw [Disk.Spells, Cache.key_eq]
  cases hp : (disk.canonical p).toOption with
  | none =>
    have hex : ∃ q, (disk.canonical q).toOption = some file := ⟨q, hfile⟩
    simp [hex]
  | some file' =>
    simp only [Option.some.injEq, reduceCtorEq, false_and, or_false, Option.getD_some]
    constructor
    · rintro rfl
      exact beq_self_eq_true _
    · exact eq_of_same hdisk hp hfile

end

/-! ## Entries -/

namespace Cache

variable {disk d : Disk} {c : Cache} {k k' p : Path} {ls : List (List Char)}

theorem get?_eq_none_iff : c.get? k = none ↔ ∀ e ∈ c.entries, e.1.same k = false := by
  simp [get?]

theorem get?_forget (d : Disk) (p : Path) (c : Cache) (k : Path) :
    (c.forget d p).get? k = if (key d p).same k then none else c.get? k := by
  have hsame (x y : Path) : x.same y = true ↔ x.components = y.components := beq_iff_eq
  by_cases h : (key d p).same k = true
  · rw [if_pos h, get?_eq_none_iff]
    intro e he
    obtain ⟨-, hkept⟩ := List.mem_filter.1 he
    rw [Bool.not_eq_true', ← Bool.not_eq_true, hsame] at hkept
    rw [← Bool.not_eq_true, hsame, ← (hsame _ _).1 h]
    exact hkept
  · rw [if_neg h, get?, get?, forget, List.find?_filter]
    congr 2
    funext e
    rw [Bool.eq_iff_iff, decide_eq_true_eq]
    refine and_iff_right_of_imp fun hk => ?_
    rw [Bool.not_eq_true', ← Bool.not_eq_true, hsame]
    intro hkey
    exact h ((hsame _ _).2 (hkey.symm.trans ((hsame _ _).1 hk)))

theorem after_concat (c : Cache) (ms : List Moment) (m : Moment) :
    c.after (ms ++ [m]) = m.leave (c.after ms) := by
  rw [after, List.foldl_append]
  rfl

/-- What a question about lines leaves: the file comes in if it was not there and can be read. -/
theorem leave_lines (d : Disk) (p : Path) (c : Cache) : Moment.leave ⟨d, .lines p⟩ c =
    match c.get? (key d p), d.readBytes p with
    | none, .ok bytes => ⟨(key d p, numbered (Text.decodeUtf8Lossy bytes)) :: c.entries⟩
    | _, _ => c := by
  simp only [Moment.leave, lines]
  cases c.get? (key d p) with
  | some ls => rfl
  | none => cases d.readBytes p <;> rfl

end Cache

open Cache

section

variable {disk : Disk} {c : Cache} {ls : List (List Char)} (hdisk : disk.Sound)

include hdisk

/-- After one question the cache has of a file what it had, if that is not dropped, or else what is
read now. -/
theorem get?_leave (hm : m.disk.LeadsLike disk)
    (hfile : ∃ q, (disk.canonical q).toOption = some file) :
    (m.leave c).get? file = some ls ↔ ¬ m.Drops file ∧ (c.get? file = some ls ∨
      (c.get? file = none ∧ ∃ bytes, m.Reads file bytes ∧
        ls = numbered (Text.decodeUtf8Lossy bytes))) := by
  obtain ⟨q, hq⟩ := hfile
  obtain ⟨d, ask⟩ := m
  cases ask with
  | contains p => simp [Moment.leave, Moment.Drops, Moment.Reads]
  | size => simp [Moment.leave, Moment.Drops, Moment.Reads]
  | clear =>
    have hnone : (∅ : Cache).get? file = none := rfl
    simp [Moment.leave, Moment.Drops, hnone]
  | forget p =>
    have hdrops : Moment.Drops ⟨d, .forget p⟩ file ↔ (key d p).same file = true := by
      have hspells : d.Spells p file ↔ (key d p).same file = true := by
        rw [key_of_leadsLike hm, ← spells_iff_same_key hdisk hq]
        simp only [Disk.Spells, hm _]
      simp [Moment.Drops, hspells]
    have hreads : ∀ bytes, ¬ Moment.Reads ⟨d, .forget p⟩ file bytes := by simp [Moment.Reads]
    rw [Moment.leave, get?_forget, hdrops]
    by_cases hsame : (key d p).same file = true
    · simp [hsame]
    · simp [hsame, hreads]
  | lines p =>
    have hdrops : ¬ Moment.Drops ⟨d, .lines p⟩ file := by simp [Moment.Drops]
    have hreads (bytes : List UInt8) : Moment.Reads ⟨d, .lines p⟩ file bytes ↔
        (d.canonical p).toOption = some file ∧ d.readBytes p = .ok bytes := by simp [Moment.Reads]
    rw [leave_lines, and_iff_right hdrops]
    simp only [hreads]
    cases hget : c.get? (key d p) with
    | some found =>
      refine (or_iff_left fun hread => ?_).symm
      obtain ⟨hnone, bytes, ⟨hleads, -⟩, -⟩ := hread
      rw [key_of_leads hleads, hnone] at hget
      cases hget
    | none =>
      cases hbytes : d.readBytes p with
      | error why => simp
      | ok bytes =>
        obtain ⟨file', hleads⟩ := leads_of_readBytes hbytes
        have hk : key d p = file' := key_of_leads hleads
        rw [hk] at hget
        simp only [hleads, hk, get?_cons, Option.some.injEq, Except.ok.injEq]
        by_cases heq : file' = file
        · subst heq
          have hself : file'.same file' = true := beq_self_eq_true _
          simp [hself, hget, eq_comm]
        · have hne : ¬ file'.same file = true :=
            fun hsame => heq (eq_of_same hdisk ((hm p).symm.trans hleads) hq hsame)
          simp [hne, heq]

/-- The invariant: what a cache has of a file is what the file held at its first read. -/
theorem get?_after (hms : ∀ m ∈ ms, m.disk.LeadsLike disk)
    (hfile : ∃ q, (disk.canonical q).toOption = some file) :
    ((∅ : Cache).after ms).get? file = some ls ↔
      ∃ bytes, FirstRead file ms bytes ∧ ls = numbered (Text.decodeUtf8Lossy bytes) := by
  induction ms using List.reverseRecOn generalizing ls with
  | nil =>
    have hnone : ((∅ : Cache).after []).get? file = none := rfl
    simp [hnone, not_firstRead_nil]
  | append_singleton ms m ih =>
    have hold (ls : List (List Char)) : ((∅ : Cache).after ms).get? file = some ls ↔
        ∃ bytes, FirstRead file ms bytes ∧ ls = numbered (Text.decodeUtf8Lossy bytes) :=
      ih fun x hx => hms x (List.mem_append_left _ hx)
    have hnone : ((∅ : Cache).after ms).get? file = none ↔ Dropped file ms := by
      rw [Option.eq_none_iff_forall_ne_some, dropped_iff]
      simp only [ne_eq, hold, not_exists, not_and]
      exact ⟨fun h bytes hfirst => h _ bytes hfirst rfl,
        fun h ls bytes hfirst => absurd hfirst (h bytes)⟩
    rw [after_concat, get?_leave hdisk (hms m (by simp)) hfile, hold, hnone]
    simp only [firstRead_concat]
    constructor
    · intro hand
      obtain ⟨hkept, ⟨bytes, hfirst, rfl⟩ | ⟨hdropped, bytes, hread, rfl⟩⟩ := hand
      · exact ⟨bytes, ⟨hkept, .inl hfirst⟩, rfl⟩
      · exact ⟨bytes, ⟨hkept, .inr ⟨hdropped, hread⟩⟩, rfl⟩
    · intro hex
      obtain ⟨bytes, ⟨hkept, hfirst | ⟨hdropped, hread⟩⟩, rfl⟩ := hex
      · exact ⟨hkept, .inl ⟨bytes, hfirst, rfl⟩⟩
      · exact ⟨hkept, .inr ⟨hdropped, bytes, hread, rfl⟩⟩

end

/-- Each entry of a cache is known by the absolute path of its file, and no two by one. -/
structure Cache.Keyed (disk : Disk) (c : Cache) : Prop where
  leads : ∀ k ∈ c.entries.map Prod.fst, ∃ q, (disk.canonical q).toOption = some k
  nodup : (c.entries.map Prod.fst).Nodup

section

variable {disk now : Disk} {c : Cache} {ls : List (List Char)} {p q : Path}

theorem Cache.Keyed.leave (h : c.Keyed disk) (hm : m.disk.LeadsLike disk) :
    (m.leave c).Keyed disk := by
  obtain ⟨d, ask⟩ := m
  cases ask with
  | contains p | size => exact h
  | clear => exact ⟨nofun, .nil⟩
  | forget p =>
    have hsub : ((c.forget d p).entries.map Prod.fst).Sublist (c.entries.map Prod.fst) :=
      List.filter_sublist.map _
    exact ⟨fun k hk => h.leads k (hsub.subset hk), hsub.nodup h.nodup⟩
  | lines p =>
    rw [leave_lines]
    split
    · rename_i bytes hget hbytes
      obtain ⟨file', hleads⟩ := leads_of_readBytes hbytes
      have hk : key d p = file' := key_of_leads hleads
      refine ⟨fun k hmem => ?_, List.nodup_cons.2 ⟨fun hmem => ?_, h.nodup⟩⟩
      · rcases List.mem_cons.1 hmem with rfl | hmem
        · exact ⟨p, by rw [← hm p, hleads, ← hk]⟩
        · exact h.leads k hmem
      · obtain ⟨e, he, hkey⟩ := List.mem_map.1 hmem
        have hother := get?_eq_none_iff.1 hget e he
        rw [hkey] at hother
        cases hother.symm.trans (beq_self_eq_true _)
    · exact h

theorem keyed_after (hms : ∀ m ∈ ms, m.disk.LeadsLike disk) :
    ((∅ : Cache).after ms).Keyed disk := by
  induction ms using List.reverseRecOn with
  | nil => exact ⟨nofun, .nil⟩
  | append_singleton ms m ih =>
    rw [after_concat]
    exact (ih fun x hx => hms x (List.mem_append_left _ hx)).leave (hms m (by simp))

theorem leave_of_error {why : Unreadable} (h : c.lines now p = .error why) :
    Moment.leave ⟨now, .lines p⟩ c = c := by
  simp only [Moment.leave, h]
  rfl

theorem lines_eq_ok_iff : (c.lines now p).map Prod.fst = .ok ls ↔
    (Moment.leave ⟨now, .lines p⟩ c).get? (key now p) = some ls := by
  rw [leave_lines, Cache.lines]
  cases hget : c.get? (key now p) with
  | some found => simp [Except.map, hget]
  | none =>
    have hself : (key now p).same (key now p) = true := beq_self_eq_true _
    cases now.readBytes p with
    | error why => simp [Except.map, hget]
    | ok bytes => simp [Except.map, get?_cons, hself]

section

variable (hdisk : disk.Sound)

include hdisk

/-- A spelling of a file finds what the cache has of the file. -/
theorem Cache.get?_key_of_spells (c : Cache) (hnow : now.LeadsLike disk) (hp : disk.Spells p file) :
    c.get? (key now p) = c.get? file := by
  obtain ⟨q, hq⟩ := exists_leads_of_spells hp
  rw [key_of_leadsLike hnow]
  exact get?_congr c ((spells_iff_same_key hdisk hq).1 hp)

/-- What a path finds in a cache is what the cache has of the file that it is a spelling of. -/
theorem Cache.Keyed.get?_key (h : c.Keyed disk) (hnow : now.LeadsLike disk) :
    c.get? (key now p) = some ls ↔ ∃ file, disk.Spells p file ∧ c.get? file = some ls := by
  constructor
  · intro hget
    rw [key_of_leadsLike hnow] at hget
    obtain ⟨e, he, hsame⟩ : ∃ e ∈ c.entries, e.1.same (key disk p) = true := by
      refine Classical.byContradiction fun hno => ?_
      rw [get?_eq_none_iff.2 fun e he => Bool.eq_false_iff.2 fun hsame => hno ⟨e, he, hsame⟩]
        at hget
      cases hget
    obtain ⟨q, hq⟩ := h.leads e.1 (List.mem_map_of_mem he)
    refine ⟨e.1, (spells_iff_same_key hdisk hq).2 ?_, (get?_congr c hsame).trans hget⟩
    exact beq_iff_eq.2 (beq_iff_eq.1 hsame).symm
  · intro hex
    obtain ⟨file, hspells, hget⟩ := hex
    rw [get?_key_of_spells hdisk c hnow hspells, hget]

theorem Cache.Keyed.mem_keys_iff (h : c.Keyed disk)
    (hfile : ∃ q, (disk.canonical q).toOption = some file) :
    file ∈ c.entries.map Prod.fst ↔ ∃ ls, c.get? file = some ls := by
  obtain ⟨q, hq⟩ := hfile
  rw [← Option.isSome_iff_exists, ← Option.ne_none_iff_isSome, ne_eq, get?_eq_none_iff]
  simp only [not_forall, Bool.not_eq_false, exists_prop, List.mem_map]
  refine exists_congr fun e => and_congr_right fun he => ⟨fun heq => ?_, fun hsame => ?_⟩
  · rw [heq]
    exact beq_self_eq_true _
  · obtain ⟨q', hq'⟩ := h.leads e.1 (List.mem_map_of_mem he)
    exact eq_of_same hdisk hq' hq hsame

end

/-! ## Snapshots -/

/-- What a cache says now of the files that it was asked for in a history. -/
structure Snapshot (disk now : Disk) (ms : List Moment) (c : Cache) : Prop where
  /-- The lines of a file are those of what it held at its first read, which may be the one of this
  question. -/
  lines : ∀ p ls, (c.lines now p).map Prod.fst = .ok ls ↔ ∃ file bytes, disk.Spells p file ∧
    FirstRead file (ms ++ [⟨now, .lines p⟩]) bytes ∧ ls = numbered (Text.decodeUtf8Lossy bytes)
  /-- A file that can be read now has lines. -/
  found : ∀ p bytes, now.readBytes p = .ok bytes → ∃ ls, (c.lines now p).map Prod.fst = .ok ls
  contains : ∀ p, c.contains now p = true ↔ ∃ file bytes, disk.Spells p file ∧
    FirstRead file ms bytes
  /-- All spellings of a file find one entry. -/
  shared : ∀ p q file, disk.Spells p file → disk.Spells q file →
    c.get? (key now p) = c.get? (key now q)
  /-- There are as many entries as files that have been read and not been dropped since. -/
  size : ∃ files : List Path, files.Nodup ∧
    (∀ file, file ∈ files ↔ ∃ bytes, FirstRead file ms bytes) ∧ c.size = files.length
  /-- A file that cannot be read has no influence on what is said later. -/
  failed : ∀ p why, c.lines now p = .error why →
    ∀ later, (Moment.leave ⟨now, .lines p⟩ c).answers later = c.answers later

theorem leads_of_firstRead (hms : ∀ m ∈ ms, m.disk.LeadsLike disk) (h : FirstRead file ms bytes) :
    ∃ q, (disk.canonical q).toOption = some file := by
  obtain ⟨before, m, later, rfl, -, ⟨p, -, hleads, -⟩, -⟩ := h
  exact ⟨p, by rw [← hms m (by simp) p, hleads]⟩

/-- What a path finds after a history is what the file that it is a spelling of held at its first
read. -/
theorem get?_key_after (hdisk : disk.Sound) (hms : ∀ m ∈ ms, m.disk.LeadsLike disk)
    (hnow : now.LeadsLike disk) :
    ((∅ : Cache).after ms).get? (key now p) = some ls ↔ ∃ file bytes, disk.Spells p file ∧
      FirstRead file ms bytes ∧ ls = numbered (Text.decodeUtf8Lossy bytes) := by
  rw [(keyed_after hms).get?_key hdisk hnow]
  refine exists_congr fun file => ?_
  simp only [exists_and_left]
  exact and_congr_right fun hp => get?_after hdisk hms (exists_leads_of_spells hp)

/-- As long as no path changes where it leads, a cache that began empty is a snapshot. -/
theorem snapshot_after (hdisk : disk.Sound) (hms : ∀ m ∈ ms, m.disk.LeadsLike disk)
    (hnow : now.LeadsLike disk) : Snapshot disk now ms ((∅ : Cache).after ms) := by
  have hkeyed := keyed_after hms
  refine ⟨fun p ls => ?_, fun p bytes hbytes => ?_, fun p => ?_, fun p q file hp hq => ?_, ?_,
    fun p why hfailed later => ?_⟩
  · have hall : ∀ m ∈ ms ++ [⟨now, .lines p⟩], m.disk.LeadsLike disk := by
      intro m hm
      rcases List.mem_append.1 hm with hm | hm
      · exact hms m hm
      · rw [List.mem_singleton.1 hm]
        exact hnow
    rw [lines_eq_ok_iff, ← after_concat]
    exact get?_key_after hdisk hall hnow
  · rw [Cache.lines, hbytes]
    cases ((∅ : Cache).after ms).get? (key now p) with
    | some ls => exact ⟨ls, rfl⟩
    | none => exact ⟨_, rfl⟩
  · rw [Cache.contains, Option.isSome_iff_exists]
    simp only [get?_key_after hdisk hms hnow]
    constructor
    · rintro ⟨-, file, bytes, hp, hfirst, -⟩
      exact ⟨file, bytes, hp, hfirst⟩
    · rintro ⟨file, bytes, hp, hfirst⟩
      exact ⟨_, file, bytes, hp, hfirst, rfl⟩
  · rw [get?_key_of_spells hdisk _ hnow hp, get?_key_of_spells hdisk _ hnow hq]
  · refine ⟨_, hkeyed.nodup, fun file => ?_, (List.length_map _).symm⟩
    constructor
    · intro hmem
      have hfile := hkeyed.leads file hmem
      obtain ⟨ls, hls⟩ := (hkeyed.mem_keys_iff hdisk hfile).1 hmem
      obtain ⟨bytes, hfirst, -⟩ := (get?_after hdisk hms hfile).1 hls
      exact ⟨bytes, hfirst⟩
    · rintro ⟨bytes, hfirst⟩
      have hfile := leads_of_firstRead hms hfirst
      exact (hkeyed.mem_keys_iff hdisk hfile).2
        ⟨_, (get?_after hdisk hms hfile).2 ⟨bytes, hfirst, rfl⟩⟩
  · rw [leave_of_error hfailed]

end

def shelf : Disk where
  top := [("src", .dir [("a.py", .file (Text.encodeUtf8 "old\n".toList))]),
    ("b.py", .link ⟨"src/a.py"⟩)]
  cwd := ["src"]

def rewrittenShelf : Disk := shelf.written ⟨"/src/a.py"⟩ "new\n".toList

/-- The file is read through the link, then written over, and asked for by a relative path. -/
def readThenWritten : List Moment :=
  [⟨shelf, .lines ⟨"/b.py"⟩⟩, ⟨rewrittenShelf, .contains ⟨"a.py"⟩⟩]

theorem snapshot_after_readThenWritten :
    shelf.Sound ∧ (∀ m ∈ readThenWritten, m.disk.LeadsLike shelf) ∧
    rewrittenShelf.LeadsLike shelf ∧ Snapshot shelf rewrittenShelf readThenWritten
      ((∅ : Cache).after readThenWritten) ∧
    rewrittenShelf.readBytes ⟨"a.py"⟩ = .ok (Text.encodeUtf8 "new\n".toList) ∧
    (((∅ : Cache).after readThenWritten).lines rewrittenShelf ⟨"a.py"⟩).map Prod.fst = .ok
      ["".toList, "old".toList] := by
  have hdisk : shelf.Sound := by decide +kernel
  have hholds : shelf.Holds ⟨"/src/a.py"⟩ (Text.encodeUtf8 "old\n".toList) :=
    ⟨["src", "a.py"], by decide, by decide, rfl⟩
  have hnow : rewrittenShelf.LeadsLike shelf := hholds.leadsLike_written _
  have hms : ∀ m ∈ readThenWritten, m.disk.LeadsLike shelf := by
    intro m hm
    rcases List.mem_cons.1 hm with rfl | hm
    · exact .refl shelf
    · rw [List.mem_singleton.1 hm]
      exact hnow
  exact ⟨hdisk, hms, hnow, snapshot_after hdisk hms hnow, toOption_eq_some (by decide +kernel),
    toOption_eq_some (by decide +kernel)⟩

end Source

end AsyncSpread
