import Mathlib.Data.List.Nodup
import Mathlib.Data.String.Basic
import SolidityAtlas.Project.Load
import SolidityAtlas.Proofs.Path.Normal

/-!
# Source files of a directory

Each source file below a directory is listed once, in the order of the names that lead to it
(`Disk.mem_sourceFiles_iff`, `Disk.pairwise_sourceFiles`), and it is read by its own bytes
(`Disk.readText_into_eq_ok_iff`). In a workspace it is known by its names with slashes between
them. If no name has a backslash in it, this path is in normal form (`normalize_workspacePath`),
so that different files have different paths.

## Main Definitions

* `IsFileName`: the names that a file system allows
* `Disk.WellFormed`: the directories that a file system allows

## Main Results

* `Disk.readText_into_eq_ok_iff`, `Disk.mem_sourceFiles_iff`, `Disk.pairwise_sourceFiles`
* `normalize_workspacePath_inj`
-/

namespace SolidityAtlas

/-- The names that a file system allows for a file. -/
def IsFileName (name : String) : Prop :=
  name ≠ "" ∧ name ≠ "." ∧ name ≠ ".." ∧ '/' ∉ name.toList

instance (name : String) : Decidable (IsFileName name) :=
  inferInstanceAs (Decidable (_ ∧ _))

/-! ## Paths made of names -/

section Names

variable {names other : List String}

/-- A path in a workspace is its names with slashes between. -/
theorem toList_workspacePath (names : List String) :
    (workspacePath names).toList = glue ['/'] (names.map String.toList) := by
  rw [workspacePath, String.toList_intercalate]
  rfl

/-- Neither slash nor backslash is in a name. -/
theorem not_isSeparator {name : String} (h : IsFileName name) (hback : '\\' ∉ name.toList) :
    ∀ c ∈ name.toList, Path.isSeparator c = false := by
  intro c hc
  have hslash : c ≠ '/' := fun heq => h.2.2.2 (heq ▸ hc)
  have hbackslash : c ≠ '\\' := fun heq => hback (heq ▸ hc)
  rw [Path.isSeparator, beq_eq_false_iff_ne.2 hslash, beq_eq_false_iff_ne.2 hbackslash]
  rfl

/-- The pieces of a path are its names, where no name holds a backslash. -/
theorem pieces_workspacePath (hne : names ≠ []) (h : ∀ name ∈ names, IsFileName name)
    (hback : ∀ name ∈ names, '\\' ∉ name.toList) :
    pieces Path.isSeparator (workspacePath names).toList = names.map String.toList := by
  rw [toList_workspacePath]
  refine pieces_glue rfl (by rwa [ne_eq, List.map_eq_nil_iff]) ?_
  rw [List.forall_mem_map]
  exact fun name hname => not_isSeparator (h name hname) (hback name hname)

/-- Names without backslashes are segments that are kept. -/
theorem kept_names (h : ∀ name ∈ names, IsFileName name)
    (hback : ∀ name ∈ names, '\\' ∉ name.toList) :
    Path.Kept false (names.map String.toList).reverse := by
  have hne : ∀ name : String, ∀ cs, name ≠ String.ofList cs → name.toList ≠ cs :=
    fun name cs hname heq => hname (heq ▸ String.ofList_toList.symm)
  refine Path.kept_iff.2 ⟨?_, ?_, List.pairwise_reverse.2 (List.pairwise_map.2 ?_), nofun⟩
  · simp only [List.mem_reverse, List.forall_mem_map]
    exact fun name hname => ⟨hne name [] (h name hname).1, hne name ['.'] (h name hname).2.1⟩
  · simp only [List.mem_reverse, List.forall_mem_map]
    exact fun name hname => not_isSeparator (h name hname) (hback name hname)
  · refine List.pairwise_of_forall_mem_list fun _ _ name hname hup => ?_
    exact absurd hup (hne name ['.', '.'] (h name hname).2.2.1)

/-- Without backslashes the path that names make is in normal form. -/
theorem normalize_workspacePath (h : ∀ name ∈ names, IsFileName name)
    (hback : ∀ name ∈ names, '\\' ∉ name.toList) :
    Path.normalize (workspacePath names) = workspacePath names := by
  rw [Path.normalize, toList_workspacePath, Path.normalChars_glue (kept_names h hback),
    ← toList_workspacePath, String.ofList_toList]

/-- Without backslashes different names make different paths. -/
theorem normalize_workspacePath_inj (hnames : names ≠ []) (hother : other ≠ [])
    (h : ∀ name ∈ names ++ other, IsFileName name)
    (hback : ∀ name ∈ names ++ other, '\\' ∉ name.toList)
    (heq : Path.normalize (workspacePath names) = Path.normalize (workspacePath other)) :
    names = other := by
  rw [List.forall_mem_append] at h hback
  rw [normalize_workspacePath h.1 hback.1, normalize_workspacePath h.2 hback.2] at heq
  have hpieces := congrArg (fun path => pieces Path.isSeparator path.toList) heq
  simp only [pieces_workspacePath hnames h.1 hback.1,
    pieces_workspacePath hother h.2 hback.2] at hpieces
  exact (List.map_injective_iff.2 fun _ _ => String.toList_injective) hpieces

end Names

namespace Disk

/-! ## The order of files -/

section Order

variable {a b : String} {as bs cs : List String}

/-- Rows of names are compared name by name. -/
theorem namesLe_cons_iff :
    namesLe (a :: as) (b :: bs) = true ↔ a < b ∨ a = b ∧ namesLe as bs = true := by
  rw [namesLe, Bool.or_eq_true, decide_eq_true_eq, Bool.and_eq_true, beq_iff_eq]

/-- Of two rows of names one comes first. -/
theorem namesLe_total (as bs : List String) : namesLe as bs = true ∨ namesLe bs as = true := by
  induction as generalizing bs with
  | nil => exact .inl (by rw [namesLe])
  | cons a as ih =>
      cases bs with
      | nil => exact .inr (by rw [namesLe])
      | cons b bs =>
          rw [namesLe_cons_iff, namesLe_cons_iff]
          rcases lt_trichotomy a b with hlt | rfl | hlt
          · exact .inl (.inl hlt)
          · exact (ih bs).imp (fun h => .inr ⟨rfl, h⟩) fun h => .inr ⟨rfl, h⟩
          · exact .inr (.inl hlt)

/-- The order of rows of names is transitive. -/
theorem namesLe_trans (h : namesLe as bs = true) (h' : namesLe bs cs = true) :
    namesLe as cs = true := by
  induction as generalizing bs cs with
  | nil => rw [namesLe]
  | cons a as ih =>
      cases bs with
      | nil => exact absurd h Bool.false_ne_true
      | cons b bs =>
          cases cs with
          | nil => exact absurd h' Bool.false_ne_true
          | cons c cs =>
              rw [namesLe_cons_iff] at h h' ⊢
              rcases h with hlt | ⟨rfl, h⟩
              · rcases h' with hlt' | ⟨rfl, -⟩
                · exact .inl (hlt.trans hlt')
                · exact .inl hlt
              · rcases h' with hlt' | ⟨rfl, h'⟩
                · exact .inl hlt'
                · exact .inr ⟨rfl, ih h h'⟩

/-- Rows of names that come before each other are the same. -/
theorem namesLe_antisymm (h : namesLe as bs = true) (h' : namesLe bs as = true) : as = bs := by
  induction as generalizing bs with
  | nil =>
      cases bs with
      | nil => rfl
      | cons b bs => exact absurd h' Bool.false_ne_true
  | cons a as ih =>
      cases bs with
      | nil => exact absurd h Bool.false_ne_true
      | cons b bs =>
          rw [namesLe_cons_iff] at h h'
          rcases h with hlt | ⟨rfl, h⟩
          · rcases h' with hlt' | ⟨rfl, -⟩
            · exact absurd hlt' hlt.asymm
            · exact absurd hlt (lt_irrefl _)
          · rcases h' with hlt' | ⟨-, h'⟩
            · exact absurd hlt' (lt_irrefl _)
            · rw [ih h h']

end Order

/-! ## Finding and reading files -/

/-- The directories that a file system allows: names are names, each file is there once, and no file
is a directory too. -/
structure WellFormed (d : Disk) : Prop where
  names : ∀ f ∈ d.files, ∀ name ∈ f.1, IsFileName name
  distinct : (d.files.map Prod.fst).Nodup
  apart : ∀ f ∈ d.files, d.isDirectory f.1 = false

variable {d : Disk} {root : Route} {place names : List String} {bytes : ByteArray}

/-- A row of names is followed step by step. -/
theorem locateFrom_append (here row row' : List String) :
    d.locateFrom here (row ++ row') = (d.locateFrom here row).bind (d.locateFrom · row') := by
  induction row generalizing here with
  | nil => rfl
  | cons name row ih =>
      rw [List.cons_append, locateFrom, locateFrom]
      by_cases hhere : d.isDirectory here = true
      · simp only [if_pos hhere, ih]
        generalize (if name = ".." then here.dropLast else here ++ [name]) = next
        split
        · rfl
        · rfl
      · rw [if_neg hhere, if_neg hhere]
        rfl

/-- What stands on the way to a file is a directory. -/
theorem isDirectory_of_append (h : (place ++ names, bytes) ∈ d.files) (hne : names ≠ []) :
    d.isDirectory place = true := by
  have hbegin : place.isPrefixOf (place ++ names).dropLast = true := by
    rw [List.dropLast_append_of_ne_nil hne, List.isPrefixOf_iff_prefix]
    exact List.prefix_append _ _
  have hany : (d.files.any fun f => place.isPrefixOf f.1.dropLast) = true :=
    List.any_eq_true.2 ⟨_, h, hbegin⟩
  rw [isDirectory, hany, Bool.or_true]

/-- What a disk lists is a file. -/
theorem isFile_of_mem (h : (place, bytes) ∈ d.files) : d.isFile place = true := by
  rw [isFile, bytes?, Option.isSome_map, List.find?_isSome]
  exact ⟨_, h, beq_self_eq_true _⟩

/-- A file holds the bytes that the disk lists for it. -/
theorem bytes?_of_mem (hd : d.WellFormed) (h : (place, bytes) ∈ d.files) :
    d.bytes? place = some bytes := by
  obtain ⟨found, hfound⟩ := Option.isSome_iff_exists.1 (isFile_of_mem h)
  obtain ⟨f, hf, rfl⟩ := Option.map_eq_some_iff.1 hfound
  have hplace : (f.1 == place) = true := by simpa only using List.find?_some hf
  have heq : f = (place, bytes) := List.inj_on_of_nodup_map hd.distinct
    (List.mem_of_find?_eq_some hf) h (eq_of_beq hplace)
  rw [hfound, heq]

/-- The names of a file lead to it. -/
theorem locateFrom_of_mem (h : (place ++ names, bytes) ∈ d.files) (hup : ".." ∉ names) :
    d.locateFrom place names = .ok (place ++ names) := by
  induction names generalizing place with
  | nil => rw [locateFrom, List.append_nil]
  | cons name names ih =>
      obtain ⟨hname, hnames⟩ := not_or.1 (mt List.mem_cons.2 hup)
      have hfile : (place ++ [name] ++ names, bytes) ∈ d.files := by rwa [List.append_assoc]
      have hnext : (d.isDirectory (place ++ [name]) || d.isFile (place ++ [name])) = true := by
        cases names with
        | nil =>
            rw [List.append_nil] at hfile
            rw [isFile_of_mem hfile, Bool.or_true]
        | cons next names => rw [isDirectory_of_append hfile (List.cons_ne_nil _ _), Bool.true_or]
      rw [locateFrom, if_pos (isDirectory_of_append h (List.cons_ne_nil _ _)),
        if_neg (Ne.symm hname)]
      simp only [hnext, if_true]
      rw [ih hfile hnames, List.append_assoc]
      rfl

section Sources

variable (hd : d.WellFormed) (hroot : d.locate root = .ok place)

include hd hroot

/-- A file below a directory is read by its own bytes. -/
theorem readText_into_eq_ok_iff {text : String} (h : (place ++ names, bytes) ∈ d.files)
    (hne : names ≠ []) :
    d.readText (root.into names) = .ok text ↔ String.fromUTF8? bytes = some text := by
  have hup : ".." ∉ names := fun hmem =>
    (hd.names _ h ".." (List.mem_append_right _ hmem)).2.2.1 rfl
  have hfrom : d.locateFrom [] root.names = .ok place := by
    rw [locate] at hroot
    cases hnames : d.locateFrom [] root.names with
    | error problem =>
        rw [hnames] at hroot
        cases hroot
    | ok here =>
        rw [hnames] at hroot
        simp only [bind, Except.bind] at hroot
        split at hroot
        · cases hroot
        · exact congrArg Except.ok (Except.ok.inj hroot)
  have hlocate : d.locate (root.into names) = .ok (place ++ names) := by
    rw [locate, Route.into, List.isEmpty_eq_false_iff.2 hne, Bool.and_false]
    simp only [locateFrom_append, hfrom, Except.bind, locateFrom_of_mem h hup, bind]
    rfl
  rw [readText, hlocate]
  simp only [bind, Except.bind, bytes?_of_mem hd h]
  cases String.fromUTF8? bytes with
  | none => exact iff_of_false (nomatch ·) (nomatch ·)
  | some found => rw [Except.ok.injEq, Option.some.injEq]

/-- The source files below a directory are the files that have a name of a source file. -/
theorem mem_sourceFiles_iff (hdir : d.isDirectory place = true) :
    names ∈ d.sourceFiles root ↔
      names.getLast?.any isSourceName = true ∧ ∃ bytes, (place ++ names, bytes) ∈ d.files := by
  have hunder : names ∈ d.filesUnder place ↔ ∃ bytes, (place ++ names, bytes) ∈ d.files := by
    rw [filesUnder, mem_sorted, List.mem_map]
    constructor
    · rintro ⟨f, hf, rfl⟩
      obtain ⟨hmem, hbegin⟩ := List.mem_filter.1 hf
      obtain ⟨row, hrow⟩ := List.isPrefixOf_iff_prefix.1 hbegin
      refine ⟨f.2, ?_⟩
      rwa [← hrow, List.drop_left, hrow]
    · rintro ⟨bytes, hmem⟩
      refine ⟨_, List.mem_filter.2 ⟨hmem, ?_⟩, List.drop_left⟩
      exact List.isPrefixOf_iff_prefix.2 (List.prefix_append _ _)
  rw [sourceFiles, hroot]
  simp only
  rw [List.mem_filter, hunder, and_comm]
  refine and_congr_left fun ⟨bytes, hmem⟩ => ?_
  have hne : names ≠ [] := by
    rintro rfl
    rw [List.append_nil] at hmem
    exact absurd hdir (Bool.eq_false_iff.1 (hd.apart _ hmem))
  rw [List.getLast?_append_of_ne_nil _ hne]

/-- Each source file is listed once, in the order of the names. -/
theorem pairwise_sourceFiles :
    (d.sourceFiles root).Pairwise fun a b => namesLe a b = true ∧ a ≠ b := by
  rw [sourceFiles, hroot]
  refine List.Pairwise.filter _ (List.pairwise_and_iff.2 ⟨?_, ?_⟩)
  · exact pairwise_sorted namesLe_total (fun _ _ _ => namesLe_trans) _
  · refine (perm_sorted _).nodup_iff.2 (List.Nodup.map_on ?_ ?_)
    · intro f hf g hg heq
      obtain ⟨hfmem, hfbegin⟩ := List.mem_filter.1 hf
      obtain ⟨hgmem, hgbegin⟩ := List.mem_filter.1 hg
      refine List.inj_on_of_nodup_map hd.distinct hfmem hgmem ?_
      rw [← List.prefix_iff_eq_append.1 (List.isPrefixOf_iff_prefix.1 hfbegin), heq,
        List.prefix_iff_eq_append.1 (List.isPrefixOf_iff_prefix.1 hgbegin)]
    · exact (List.Nodup.of_map _ hd.distinct).filter _

end Sources

end Disk

end SolidityAtlas
