import AsyncSpread.Proofs.Disk.Components
import AsyncSpread.Project.Walk

/-!
Files whose modules have the same name.

As long as dots only stand in front of extensions, the dotted name of a module gives back the names
that it is joined from.  So two files are modules of one name in three ways only
(`moduleName?_eq_iff`): they differ in their extension, or one of them stands for the directory that
the other one is named after, or one of them stands for the root and the other one is named after
that.
-/

namespace AsyncSpread

/-- Names without dots are found again in the dotted name that is made of them. -/
theorem intercalate_inj {names names' : List String} (h : ∀ n ∈ names, '.' ∉ n.toList)
    (h' : ∀ n ∈ names', '.' ∉ n.toList) (hne : names ≠ []) (hne' : names' ≠ []) :
    ".".intercalate names = ".".intercalate names' ↔ names = names' := by
  refine ⟨fun heq => ?_, congrArg _⟩
  rw [← dotted_intercalate h hne, ← dotted_intercalate h' hne', heq]

namespace Project

/-- Where a source file lies below a root: the directories on the way to it, and its name cut at a
dot. -/
structure Spot where
  dirs : List String
  stem : String
  extension : String
deriving DecidableEq, Repr

namespace Spot

def fileName (s : Spot) : String := s.stem ++ "." ++ s.extension

/-- A file lies at a spot below a root. -/
def Holds (root file : Path) (s : Spot) : Prop :=
  Path.behind? root file = some ((s.dirs ++ [s.fileName]).map .name)

/-- The only dot is the one in front of the extension, and there is something in front of it. -/
structure Plain (s : Spot) : Prop where
  dirs : ∀ dir ∈ s.dirs, '.' ∉ dir.toList
  stem : '.' ∉ s.stem.toList
  extension : '.' ∉ s.extension.toList
  stem_ne_empty : s.stem ≠ ""

def IsInit (s : Spot) : Prop := s.stem = "__init__"

instance (s : Spot) : Decidable s.IsInit := inferInstanceAs (Decidable (_ = _))

/-- The names that the name of a module is joined from.  There are none if the module is that of the
root. -/
def names (s : Spot) : List String := if s.IsInit then s.dirs else s.dirs ++ [s.stem]

/-- One file stands for the directory that another one beside the directory is named after. -/
def StandsBeside (s t : Spot) : Prop := s.IsInit ∧ ¬ t.IsInit ∧ s.dirs = t.dirs ++ [t.stem]

/-- One file stands for the root, and the name of another one is that of the root. -/
def StandsForRoot (root : Path) (s t : Spot) : Prop :=
  s.IsInit ∧ s.dirs = [] ∧ ∃ name, root.fileName? = some name ∧ t.names = [name]

variable {root file : Path} {s t : Spot}

/-! ## Names of modules -/

theorem names_eq_nil_iff : s.names = [] ↔ s.IsInit ∧ s.dirs = [] := by
  unfold names
  split <;> simp_all

theorem Plain.names (h : s.Plain) : ∀ n ∈ s.names, '.' ∉ n.toList := by
  intro n hn
  unfold Spot.names at hn
  split at hn
  · exact h.dirs n hn
  · rcases List.mem_append.1 hn with hn | hn
    · exact h.dirs n hn
    · rw [List.mem_singleton.1 hn]
      exact h.stem

theorem Plain.cutName (h : s.Plain) : (Path.cutName s.fileName).1 = s.stem := by
  have hcut : Text.cutLast? '.' s.fileName.toList = some (s.stem.toList, s.extension.toList) :=
    Text.cutLast?_eq_some_iff.2 ⟨by simp [fileName], h.extension⟩
  obtain ⟨c, cs, hcs⟩ := List.exists_cons_of_ne_nil (mt String.toList_eq_nil_iff.1 h.stem_ne_empty)
  rw [Path.cutName, hcut, hcs]
  dsimp only
  rw [← hcs, String.ofList_toList]

theorem Plain.moduleName? (h : s.Plain) (hs : s.Holds root file) :
    moduleName? root file = if s.names = [] then root.fileName?
      else some (".".intercalate s.names) := by
  refine moduleName?_of_behind? hs ?_
  rw [h.cutName]
  rfl

/-! ## Equal names -/

/-- The names of two modules are joined from the same names if their files differ in the extension
at most, or if one of them stands for the directory beside the other. -/
theorem names_eq_iff :
    s.names = t.names ↔ (s.dirs = t.dirs ∧ s.stem = t.stem) ∨ s.StandsBeside t ∨
      t.StandsBeside s := by
  unfold names StandsBeside
  by_cases hs : s.IsInit
  · by_cases ht : t.IsInit
    · have hstem : s.stem = t.stem := hs.trans (Eq.symm ht)
      simp [hs, ht, hstem]
    · have hstem : s.stem ≠ t.stem := fun heq => ht (heq.symm.trans hs)
      simp [hs, ht, hstem]
  · by_cases ht : t.IsInit
    · have hstem : s.stem ≠ t.stem := fun heq => hs (heq.trans ht)
      simp [hs, ht, hstem, eq_comm]
    · simp only [hs, ht, if_false, false_and, not_false_eq_true, true_and, or_false]
      exact ⟨fun heq => ⟨List.append_inj_left' heq rfl,
        List.cons.inj (List.append_inj_right' heq rfl) |>.1⟩,
        fun ⟨hdirs, hstem⟩ => by rw [hdirs, hstem]⟩

/-- The root has the name of a module that is joined from its own. -/
theorem fileName?_eq_iff (hroot : ∀ name ∈ root.fileName?, '.' ∉ name.toList) (ht : t.Plain)
    (hne : t.names ≠ []) :
    root.fileName? = some (".".intercalate t.names) ↔ ∃ name, root.fileName? = some name ∧
      t.names = [name] := by
  constructor
  · intro hname
    refine ⟨_, hname, ?_⟩
    have hdots : ∀ n ∈ [".".intercalate t.names], '.' ∉ n.toList :=
      fun n hn => hroot n (List.mem_singleton.1 hn ▸ hname)
    refine (intercalate_inj ht.names hdots hne (List.cons_ne_nil _ _)).1 ?_
    rw [String.intercalate_singleton]
  · rintro ⟨name, hname, heq⟩
    rw [heq, String.intercalate_singleton]
    exact hname

end Spot

variable {root p q : Path} {s t : Spot}

/-- Two files below a root are modules of one name just if they differ in nothing but their
extension, or if one of them stands for a directory that the other one, which is beside it, is named
after, or if one of them stands for the root and the other one has the name of the root. -/
theorem moduleName?_eq_iff (hroot : ∀ name ∈ root.fileName?, '.' ∉ name.toList)
    (hp : s.Holds root p) (hq : t.Holds root q) (hs : s.Plain) (ht : t.Plain)
    (hdistinct : p.same q = false) :
    moduleName? root p = moduleName? root q ↔
      (s.dirs = t.dirs ∧ s.stem = t.stem ∧ s.extension ≠ t.extension) ∨ s.StandsBeside t ∨
        t.StandsBeside s ∨ s.StandsForRoot root t ∨ t.StandsForRoot root s := by
  have hextension : s.dirs = t.dirs ∧ s.stem = t.stem → s.extension ≠ t.extension := by
    rintro ⟨hdirs, hstem⟩ hext
    refine Bool.eq_false_iff.1 hdistinct (beq_iff_eq.2 ?_)
    rw [Text.after?_eq_some_iff.1 hp, Text.after?_eq_some_iff.1 hq, Spot.fileName, Spot.fileName,
      hdirs, hstem, hext]
  have hsame : s.dirs = t.dirs ∧ s.stem = t.stem ∧ s.extension ≠ t.extension ↔
      s.dirs = t.dirs ∧ s.stem = t.stem :=
    ⟨fun h => ⟨h.1, h.2.1⟩, fun h => ⟨h.1, h.2, hextension h⟩⟩
  rw [hsame, ← or_assoc, ← or_assoc,
    or_assoc (a := s.dirs = t.dirs ∧ s.stem = t.stem), ← Spot.names_eq_iff,
    hs.moduleName? hp, ht.moduleName? hq]
  unfold Spot.StandsForRoot
  rw [← and_assoc, ← and_assoc, ← Spot.names_eq_nil_iff, ← Spot.names_eq_nil_iff]
  by_cases hsn : s.names = []
  · by_cases htn : t.names = []
    · simp [hsn, htn]
    · rw [if_pos hsn, if_neg htn, Spot.fileName?_eq_iff hroot ht htn]
      simp [hsn, htn, eq_comm]
  · by_cases htn : t.names = []
    · rw [if_neg hsn, if_pos htn, eq_comm, Spot.fileName?_eq_iff hroot hs hsn]
      simp [hsn, htn]
    · rw [if_neg hsn, if_neg htn, Option.some.injEq, intercalate_inj hs.names ht.names hsn htn]
      simp [hsn, htn]

def cart : Spot := ⟨[], "cart", "py"⟩

def cartPackage : Spot := ⟨["cart"], "__init__", "py"⟩

theorem moduleName?_eq_iff_cart :
    cart.Holds ⟨"/srv/shop"⟩ ⟨"/srv/shop/cart.py"⟩ ∧ cart.Plain ∧
      cartPackage.Holds ⟨"/srv/shop"⟩ ⟨"/srv/shop/cart/__init__.py"⟩ ∧ cartPackage.Plain ∧
      moduleName? ⟨"/srv/shop"⟩ ⟨"/srv/shop/cart.py"⟩ =
        moduleName? ⟨"/srv/shop"⟩ ⟨"/srv/shop/cart/__init__.py"⟩ := by
  have hcart : cart.Holds ⟨"/srv/shop"⟩ ⟨"/srv/shop/cart.py"⟩ := by
    unfold Spot.Holds
    decide +kernel
  have hpackage : cartPackage.Holds ⟨"/srv/shop"⟩ ⟨"/srv/shop/cart/__init__.py"⟩ := by
    unfold Spot.Holds
    decide +kernel
  have hplain : cart.Plain := ⟨by decide, by decide, by decide, by decide⟩
  have hpackagePlain : cartPackage.Plain := ⟨by decide, by decide, by decide, by decide⟩
  refine ⟨hcart, hplain, hpackage, hpackagePlain, ?_⟩
  exact (moduleName?_eq_iff (by decide +kernel) hcart hpackage hplain hpackagePlain
    (by decide +kernel)).2 (.inr (.inr (.inl ⟨rfl, by decide, rfl⟩)))

end Project

end AsyncSpread
