import Mathlib.Data.List.Induction
import SolidityAtlas.Path.Table
import SolidityAtlas.Proofs.Path.Normal
import SolidityAtlas.Row.Distinct

/-!
# Numbers of paths

A path is looked up in a table by its normal form, and what the table keeps are normal forms.
Since the normal form of a normal form is itself, a path of the table is found under its own
number, and two paths have one number just if they are spellings of one path. To mention a path
only ever adds to the table, behind what is there (`PathTable.paths_intern`), so a number that
has been handed out stays what it is.

## Main Definitions

* `PathTable.ofPaths`: the table in which some paths have been mentioned
* `PathTable.numbersOf`: the numbers that they were given

## Main Results

* `PathTable.fileId?_intern`: what the numbers are after one more path
* `PathTable.paths_ofPaths`: the table keeps the normal forms in the order of first mention
* `PathTable.numbersOf_spec`
-/

namespace SolidityAtlas

namespace PathTable

variable {t t' : PathTable} {file other : FileId} {path : String}

/-! ## Looking up -/

/-- The table lists the paths by their numbers. -/
theorem mem_toList_iff : (file, path) ∈ t.toList ↔ t.path? file = some path := by
  rw [toList, path?, ← List.mk_mem_zipIdx_iff_getElem?, List.mem_map]
  constructor
  · rintro ⟨⟨p, f⟩, hmem, heq⟩
    cases heq
    exact hmem
  · exact fun hmem => ⟨(path, file), hmem, rfl⟩

/-- A file is the place of its normal form among the paths. -/
theorem fileId?_eq_idxOf? (t : PathTable) (path : String) :
    t.fileId? path = t.paths.idxOf? (Path.normalize path) :=
  t.inStep (Path.normalize path)

/-- Only the paths that have been interned have a file. -/
theorem isSome_fileId?_iff : (t.fileId? path).isSome = true ↔ Path.normalize path ∈ t.paths := by
  rw [Option.isSome_iff_ne_none, Ne, fileId?_eq_idxOf?, List.idxOf?_eq_none_iff, not_not]

/-- The number that is found for a path is the number of its normal form. -/
theorem path?_of_fileId? (h : t.fileId? path = some file) :
    t.path? file = some (Path.normalize path) := by
  rw [fileId?_eq_idxOf?] at h
  obtain ⟨hlt, heq, -⟩ := List.idxOf?_eq_some_iff.1 h
  rw [path?, List.getElem?_eq_getElem hlt, heq]

/-- A path has one number only. -/
theorem eq_of_path? (h : t.paths.Nodup) (hfile : t.path? file = some path)
    (hother : t.path? other = some path) : other = file :=
  (List.getElem?_inj (List.getElem?_eq_some_iff.1 hother).1 h).1 (hother.trans hfile.symm)

/-- The number that is found for a normal path is the number of that path. -/
theorem fileId?_of_path? (h : t.paths.Nodup) (hfile : t.path? file = some path)
    (hnormal : Path.normalize path = path) : t.fileId? path = some file := by
  obtain ⟨other, hother⟩ : ∃ other, t.fileId? path = some other := by
    rw [← Option.isSome_iff_exists, isSome_fileId?_iff, hnormal]
    exact List.mem_of_getElem? hfile
  have hpath := path?_of_fileId? hother
  rw [hnormal] at hpath
  rw [hother, eq_of_path? h hfile hpath]

/-- A table that knows more paths knows those that were known by the same numbers. -/
theorem path?_of_known (h : t.paths <+: t'.paths) (hpath : t.path? file = some path) :
    t'.path? file = some path := by
  obtain ⟨more, hmore⟩ := h
  rw [path?, ← hmore, List.getElem?_append_left (List.getElem?_eq_some_iff.1 hpath).1]
  exact hpath

/-! ## One more path -/

/-- A path that is known gets the file it has, and the table stays as it is. -/
theorem intern_of_fileId? (h : t.fileId? path = some file) : t.intern path = (file, t) := by
  unfold intern
  split
  · rename_i h'
    cases h'.symm.trans h
    rfl
  · rename_i h'
    cases h'.symm.trans h

/-- A path that is not known gets the next number. -/
theorem intern_of_fileId?_none (h : t.fileId? path = none) :
    t.intern path = (t.size, t.add (Path.normalize path) h) := by
  unfold intern
  split
  · rename_i h'
    cases h'.symm.trans h
  · rfl

/-- To mention a path adds its normal form to the table, if it is not there. -/
theorem paths_intern (t : PathTable) (path : String) :
    (t.intern path).2.paths = appendNew t.paths (Path.normalize path) := by
  unfold appendNew
  cases h : t.fileId? path with
  | some file =>
      have hmem := isSome_fileId?_iff.1 (Option.isSome_of_eq_some h)
      rw [intern_of_fileId? h, if_pos (List.contains_iff_mem.2 hmem)]
  | none =>
      have hnew : Path.normalize path ∉ t.paths := fun hmem => by
        have hsome := isSome_fileId?_iff.2 hmem
        rw [h] at hsome
        cases hsome
      rw [intern_of_fileId?_none h, if_neg fun hcontains => hnew (List.contains_iff_mem.1 hcontains)]
      rfl

/-- Interning keeps the numbers of the paths before. -/
theorem prefix_intern (t : PathTable) (path : String) : t.paths <+: (t.intern path).2.paths := by
  rw [paths_intern, appendNew]
  split
  · exact List.prefix_refl _
  · exact List.prefix_append _ _

/-- Interning lists no normal form twice. -/
theorem nodup_intern (h : t.paths.Nodup) (path : String) : (t.intern path).2.paths.Nodup := by
  rw [paths_intern]
  exact nodup_appendNew _ h

/-- A number that has a path keeps it. -/
theorem path?_intern (h : t.path? file = some path) (more : String) :
    (t.intern more).2.path? file = some path :=
  path?_of_known (t.prefix_intern more) h

/-- A path that has been interned leads to its file. -/
theorem fileId?_intern_self (t : PathTable) (path : String) :
    (t.intern path).2.fileId? path = some (t.intern path).1 := by
  cases h : t.fileId? path with
  | some file => rw [intern_of_fileId? h, h]
  | none =>
      rw [intern_of_fileId?_none h]
      exact List.lookup_cons_self

/-- A file that has been given out leads to a path. -/
theorem exists_path?_intern (t : PathTable) (path : String) :
    ∃ written, (t.intern path).2.path? (t.intern path).1 = some written :=
  ⟨_, path?_of_fileId? (t.fileId?_intern_self path)⟩

/-- Interning a path does not change what other paths lead to. -/
theorem fileId?_intern_of_ne {other : String} (h : Path.normalize other ≠ Path.normalize path) :
    (t.intern path).2.fileId? other = t.fileId? other := by
  cases hpath : t.fileId? path with
  | some file => rw [intern_of_fileId? hpath]
  | none =>
      have hne : (Path.normalize other == Path.normalize path) = false := beq_false_of_ne h
      rw [intern_of_fileId?_none hpath]
      show ((Path.normalize path, t.size) :: t.numbers).lookup (Path.normalize other) =
        t.numbers.lookup (Path.normalize other)
      rw [List.lookup_cons, hne]

/-- A path that has a number after another path was given one had it before, or it is another
spelling of that path. -/
theorem fileId?_intern {other : String} (h : (t.intern path).2.fileId? other = some file) :
    file = (t.intern path).1 ∧ Path.normalize other = Path.normalize path ∨
      file ≠ (t.intern path).1 ∧ Path.normalize other ≠ Path.normalize path ∧
        t.fileId? other = some file := by
  by_cases hsame : Path.normalize other = Path.normalize path
  · have hself := t.fileId?_intern_self path
    rw [fileId?, ← hsame] at hself
    exact .inl ⟨Option.some.inj (h.symm.trans hself), hsame⟩
  · refine .inr ⟨fun heq => hsame ?_, hsame, by rw [← fileId?_intern_of_ne hsame, h]⟩
    have hself := path?_of_fileId? (t.fileId?_intern_self path)
    rw [← heq, path?_of_fileId? h] at hself
    exact Option.some.inj hself

/-- A path that has a number keeps it. -/
theorem fileId?_intern_of_some {more : String} (h : t.fileId? path = some file) :
    (t.intern more).2.fileId? path = some file := by
  by_cases hsame : Path.normalize path = Path.normalize more
  · have hmore : t.fileId? more = some file := by rw [← h, fileId?, fileId?, hsame]
    rw [intern_of_fileId? hmore]
    exact h
  · rw [fileId?_intern_of_ne hsame, h]

/-- The number that a path is given is one of the numbers there are, or the next one. -/
theorem range_size_intern (t : PathTable) (path : String) :
    List.range (t.intern path).2.size = appendNew (List.range t.size) (t.intern path).1 := by
  unfold appendNew
  cases h : t.fileId? path with
  | some file =>
      have hlt : file < t.size := (List.getElem?_eq_some_iff.1 (path?_of_fileId? h)).1
      rw [intern_of_fileId? h, if_pos (List.contains_iff_mem.2 (List.mem_range.2 hlt))]
  | none =>
      have hnew : ¬ (List.range t.size).contains t.size = true := fun hcontains =>
        Nat.lt_irrefl _ (List.mem_range.1 (List.contains_iff_mem.1 hcontains))
      have hsize : (t.add (Path.normalize path) h).size = t.size + 1 := List.length_append
      rw [intern_of_fileId?_none h, if_neg hnew, ← List.range_succ, hsize]

/-! ## Many paths -/

/-- The table in which these paths have been mentioned, in this order. -/
def ofPaths (written : List String) : PathTable :=
  written.foldl (fun t path => (t.intern path).2) empty

/-- The numbers that paths are given when they are mentioned one after the other. -/
def numbersOf (t : PathTable) : List String → List FileId
  | [] => []
  | path :: written => (t.intern path).1 :: (t.intern path).2.numbersOf written

variable {written : List String}

/-- A table is made one path after the other. -/
theorem ofPaths_append_singleton (written : List String) (path : String) :
    ofPaths (written ++ [path]) = ((ofPaths written).intern path).2 := by
  rw [ofPaths, List.foldl_append]
  rfl

/-- The numbers of a row of paths are given out from the left to the right. -/
theorem numbersOf_append (t : PathTable) (written more : List String) :
    t.numbersOf (written ++ more) =
      t.numbersOf written ++ (written.foldl (fun t path => (t.intern path).2) t).numbersOf more := by
  induction written generalizing t with
  | nil => rfl
  | cons path written ih => exact congrArg (_ :: ·) (ih (t.intern path).2)

/-- What a table keeps are the normal forms, in the order in which they are mentioned first. -/
theorem paths_ofPaths (written : List String) :
    (ofPaths written).paths = (written.map Path.normalize).eraseDups := by
  induction written using List.reverseRecOn with
  | nil => rfl
  | append_singleton written path ih =>
      rw [ofPaths_append_singleton, paths_intern, ih, List.map_append, List.map_singleton,
        eraseDups_append_singleton]

/-- The table of a row of paths lists no normal form twice. -/
theorem nodup_ofPaths (written : List String) : (ofPaths written).paths.Nodup := by
  induction written using List.reverseRecOn with
  | nil => exact List.nodup_nil
  | append_singleton written path ih =>
      rw [ofPaths_append_singleton]
      exact nodup_intern ih path

/-- A path has a file if it is written like one of the row, spelling aside. -/
theorem isSome_fileId?_ofPaths_iff : ((ofPaths written).fileId? path).isSome = true ↔
    ∃ other ∈ written, Path.normalize other = Path.normalize path := by
  rw [isSome_fileId?_iff, paths_ofPaths, List.mem_eraseDups, List.mem_map]

/-- What the table keeps is in normal form. -/
theorem normalize_of_path?_ofPaths (h : (ofPaths written).path? file = some path) :
    Path.normalize path = path := by
  have hmem : path ∈ (ofPaths written).paths := List.mem_of_getElem? h
  rw [paths_ofPaths, List.mem_eraseDups, List.mem_map] at hmem
  obtain ⟨other, -, rfl⟩ := hmem
  exact Path.normalize_normalize other

/-- What is found for a path is found when more paths have been mentioned. -/
theorem fileId?_ofPaths_append (h : (ofPaths written).fileId? path = some file)
    (more : List String) : (ofPaths (written ++ more)).fileId? path = some file := by
  induction more using List.reverseRecOn with
  | nil => rwa [List.append_nil]
  | append_singleton more last ih =>
      rw [← List.append_assoc, ofPaths_append_singleton]
      exact fileId?_intern_of_some ih

/-- Further paths come behind the ones there are. -/
theorem prefix_ofPaths_append (written more : List String) :
    (ofPaths written).paths <+: (ofPaths (written ++ more)).paths := by
  induction more using List.reverseRecOn with
  | nil => simp
  | append_singleton more last ih =>
      rw [← List.append_assoc, ofPaths_append_singleton]
      exact ih.trans (prefix_intern _ _)

/-- In the end every path is found under the number that it was given. -/
theorem map_fileId?_ofPaths (written : List String) :
    written.map (ofPaths written).fileId? = (empty.numbersOf written).map some := by
  induction written using List.reverseRecOn with
  | nil => rfl
  | append_singleton written path ih =>
      have hlast : empty.numbersOf (written ++ [path]) =
          empty.numbersOf written ++ [((ofPaths written).intern path).1] := numbersOf_append _ _ _
      have hfront : written.map (ofPaths (written ++ [path])).fileId? =
          written.map (ofPaths written).fileId? := by
        refine List.map_congr_left fun other hother => ?_
        have hknown := isSome_fileId?_ofPaths_iff.2 ⟨other, hother, rfl⟩
        obtain ⟨file, hfile⟩ := Option.isSome_iff_exists.1 hknown
        rw [hfile, fileId?_ofPaths_append hfile]
      rw [hlast, List.map_append, List.map_append, hfront, ih, List.map_singleton, List.map_singleton,
        ofPaths_append_singleton, fileId?_intern_self]

/-- The numbers that are new when they are given are 0, 1, 2 and so on. -/
theorem eraseDups_numbersOf (written : List String) :
    (empty.numbersOf written).eraseDups = List.range (ofPaths written).size := by
  induction written using List.reverseRecOn with
  | nil => rfl
  | append_singleton written path ih =>
      have hlast : empty.numbersOf (written ++ [path]) =
          empty.numbersOf written ++ [((ofPaths written).intern path).1] := numbersOf_append _ _ _
      rw [hlast, eraseDups_append_singleton, ih, ofPaths_append_singleton, range_size_intern]

/-- Two paths that are mentioned are given one number just if they have one normal form. -/
theorem getElem?_numbersOf_eq_iff (written : List String) (i j : Nat) :
    (empty.numbersOf written)[i]? = (empty.numbersOf written)[j]? ↔
      (written.map Path.normalize)[i]? = (written.map Path.normalize)[j]? := by
  have hfound : ∀ i, (written[i]?).map (ofPaths written).fileId? =
      ((empty.numbersOf written)[i]?).map some := fun i => by
    rw [← List.getElem?_map, map_fileId?_ofPaths, List.getElem?_map]
  have hinj : ∀ {p q}, p ∈ written →
      (ofPaths written).fileId? p = (ofPaths written).fileId? q →
      Path.normalize p = Path.normalize q := by
    intro p q hp heq
    obtain ⟨file, hfile⟩ := Option.isSome_iff_exists.1 (isSome_fileId?_ofPaths_iff.2 ⟨p, hp, rfl⟩)
    have hpath := path?_of_fileId? (heq ▸ hfile)
    rw [path?_of_fileId? hfile] at hpath
    exact Option.some.inj hpath
  rw [← Option.map_inj_right fun _ _ => Option.some.inj, ← hfound, ← hfound, List.getElem?_map,
    List.getElem?_map]
  cases hp : written[i]? with
  | none => cases written[j]? <;> simp
  | some p =>
      cases written[j]? with
      | none => simp
      | some q =>
          simp only [Option.map_some, Option.some.injEq]
          exact ⟨hinj (List.mem_of_getElem? hp), fun heq => by rw [fileId?, fileId?, heq]⟩

/-- Whatever paths are mentioned, in whatever spelling: the numbers 0, 1, 2 and so on are handed out
in the order of first mention, each path is found under the number that it was given, and no later
mention changes that. Two paths have one number just if they have one normal form. A number below the
size of the table has a path, which is in normal form and is found under this number, and a path is
found just if a spelling of it has been mentioned. -/
theorem numbersOf_spec (written : List String) :
    (empty.numbersOf written).eraseDups = List.range (ofPaths written).size ∧
    written.map (ofPaths written).fileId? = (empty.numbersOf written).map some ∧
    (∀ more, empty.numbersOf written <+: empty.numbersOf (written ++ more) ∧
      (ofPaths written).paths <+: (ofPaths (written ++ more)).paths ∧
      ∀ path file, (ofPaths written).fileId? path = some file →
        (ofPaths (written ++ more)).fileId? path = some file) ∧
    (∀ i j : Nat, (empty.numbersOf written)[i]? = (empty.numbersOf written)[j]? ↔
      (written.map Path.normalize)[i]? = (written.map Path.normalize)[j]?) ∧
    (∀ file, file < (ofPaths written).size ↔ ∃ path, (ofPaths written).path? file = some path ∧
      (ofPaths written).fileId? path = some file ∧ Path.normalize path = path) ∧
    ∀ path, ((ofPaths written).fileId? path).isSome = true ↔
      ∃ other ∈ written, Path.normalize other = Path.normalize path := by
  refine ⟨eraseDups_numbersOf written, map_fileId?_ofPaths written, fun more => ⟨?_,
    prefix_ofPaths_append written more, fun path file h => fileId?_ofPaths_append h more⟩,
    getElem?_numbersOf_eq_iff written, fun file => ⟨fun hlt => ?_, ?_⟩,
    fun path => isSome_fileId?_ofPaths_iff⟩
  · exact ⟨_, (numbersOf_append empty written more).symm⟩
  · have hpath : (ofPaths written).path? file = some (ofPaths written).paths[file] :=
      List.getElem?_eq_getElem hlt
    have hnormal := normalize_of_path?_ofPaths hpath
    exact ⟨_, hpath, fileId?_of_path? (nodup_ofPaths written) hpath hnormal, hnormal⟩
  · rintro ⟨path, hpath, -, -⟩
    exact (List.getElem?_eq_some_iff.1 hpath).1

/-- Spellings of one path get one number. -/
example : empty.numbersOf ["src/A.sol", "B.sol", "src/lib/../A.sol", "./B.sol", "C.sol"] =
    [0, 1, 0, 1, 2] := by
  decide +kernel

end PathTable

end SolidityAtlas
