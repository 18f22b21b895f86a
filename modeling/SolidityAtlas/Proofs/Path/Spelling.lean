import Mathlib.Logic.Relation
import SolidityAtlas.Proofs.Path.Normal

/-!
# Spellings of a path

A path is written as a row of pieces, and a piece that is idle, a name that is taken back by a
step up behind it, and a step up from the root can be left out. Two texts are spellings of one
path if their rows turn into each other in this way (`Path.SamePath`). To read a row of pieces is
to leave out what can be left out from left to right (`Path.shortens_segments`), and what is kept
does not depend on what was left out before (`Path.Shortens.foldl_enter`), so spellings of one
path are those that have one normal form (`Path.normalize_eq_iff`).

When a path is joined to a directory, the segments of the directory come first, so another
spelling of the directory makes another spelling of the same path (`Path.normalize_join_congr`).
Only the current directory is special: its normal form is empty, and a path joined to nothing
starts at the root (`Path.normalize_join_iff`).

## Main Definitions

* `Path.Shortens`: one thing is left out of a row of pieces
* `Path.SamePath`: two texts are spellings of one path

## Main Results

* `Path.normalize_eq_iff`
* `Path.normalize_join_congr`, `Path.normalize_join_iff`
-/

namespace SolidityAtlas

namespace Path

variable {absolute : Bool} {kept row row' : List (List Char)}

/-- The second row is the first one with something left out that leads nowhere. -/
inductive Shortens (absolute : Bool) : List (List Char) → List (List Char) → Prop
  /-- An empty piece or a dot. -/
  | idle (before after : List (List Char)) {piece : List Char} (h : piece = [] ∨ piece = ['.']) :
      Shortens absolute (before ++ piece :: after) (before ++ after)
  /-- A name and the step up that takes it back. -/
  | back (before after : List (List Char)) {piece : List Char}
      (hidle : ¬ (piece = [] ∨ piece = ['.'])) (hup : piece ≠ ['.', '.']) :
      Shortens absolute (before ++ piece :: ['.', '.'] :: after) (before ++ after)
  /-- A step up from the root. -/
  | root (after : List (List Char)) (h : absolute = true) :
      Shortens absolute (['.', '.'] :: after) after

/-- Both texts start at the root or neither does, and the rows of their pieces turn into each
other when something is left out or put back. -/
def SamePath (a b : String) : Prop :=
  isAbsolute a.toList = isAbsolute b.toList ∧
    Relation.EqvGen (Shortens (isAbsolute a.toList)) (a.toList.splitOnP isSeparator)
      (b.toList.splitOnP isSeparator)

/-! ## What is kept -/

/-- What is left out does not change what is kept. -/
theorem Shortens.foldl_enter (h : Shortens absolute row row') :
    row.foldl (Path.enter absolute) [] = row'.foldl (Path.enter absolute) [] := by
  cases h with
  | idle before after h =>
      rw [List.foldl_append, List.foldl_cons, enter_of_idle h, List.foldl_append]
  | back before after hidle hup =>
      rw [List.foldl_append, List.foldl_cons, List.foldl_cons, enter_of_proper hidle hup,
        enter_up_of_proper hup, List.foldl_append]
  | root after h =>
      rw [h]
      rfl

/-- Rows that can be shortened to each other lead to the same segments. -/
theorem foldl_enter_of_eqvGen (h : Relation.EqvGen (Shortens absolute) row row') :
    row.foldl (enter absolute) [] = row'.foldl (enter absolute) [] := by
  induction h with
  | rel _ _ h => exact h.foldl_enter
  | refl _ => rfl
  | symm _ _ _ ih => exact ih.symm
  | trans _ _ _ _ _ ih ih' => exact ih.trans ih'

/-- One more piece behind a stack that is in order is kept, or it is left out. -/
theorem Kept.shortens_enter (h : Kept absolute kept) (piece : List Char) (row : List (List Char)) :
    Relation.ReflTransGen (Shortens absolute) (kept.reverse ++ piece :: row)
      ((Path.enter absolute kept piece).reverse ++ row) := by
  have hkeep : kept.reverse ++ piece :: row = (piece :: kept).reverse ++ row := by
    rw [List.reverse_cons, List.append_assoc, List.singleton_append]
  by_cases hidle : piece = [] ∨ piece = ['.']
  · rw [enter_of_idle hidle]
    exact .single (.idle _ _ hidle)
  by_cases hup : piece = ['.', '.']
  · subst hup
    cases kept with
    | nil =>
        cases absolute with
        | true => exact .single (.root _ rfl)
        | false => exact .refl
    | cons last before =>
        obtain ⟨hnil, hdot, -, hlast, -⟩ := h
        by_cases hlastUp : last = ['.', '.']
        · -- Steps up are kept in relative paths only, and there one more is kept.
          obtain ⟨rfl, -⟩ := hlast hlastUp
          rw [hkeep, hlastUp]
          exact .refl
        · rw [enter_up_of_proper hlastUp, List.reverse_cons, List.append_assoc,
            List.singleton_append]
          exact .single (.back _ _ (not_or.2 ⟨hnil, hdot⟩) hlastUp)
  · rw [enter_of_proper hidle hup, hkeep]

/-- Entering segments shortens the row that they form with the ones kept before. -/
theorem Kept.shortens_foldl_enter (h : Kept absolute kept)
    (hrow : ∀ piece ∈ row, ∀ c ∈ piece, isSeparator c = false) :
    Relation.ReflTransGen (Shortens absolute) (kept.reverse ++ row)
      (row.foldl (Path.enter absolute) kept).reverse := by
  induction row generalizing kept with
  | nil =>
      rw [List.append_nil]
      exact .refl
  | cons piece row ih =>
      obtain ⟨hpiece, hrow⟩ := List.forall_mem_cons.1 hrow
      exact (h.shortens_enter piece row).trans (ih (h.enter hpiece) hrow)

/-- The segments of a path are its pieces without what can be left out. -/
theorem shortens_segments (path : List Char) :
    Relation.ReflTransGen (Shortens (isAbsolute path)) (pieces isSeparator path) (segments path) :=
  Kept.shortens_foldl_enter (show Kept (isAbsolute path) [] from trivial) fun _ hpiece =>
    not_isSep_of_mem_pieces hpiece

/-! ## One normal form for all spellings -/

/-- A normal form says where the path starts and which segments were kept. -/
theorem normalize_eq_iff_segments {a b : String} :
    normalize a = normalize b ↔
      isAbsolute a.toList = isAbsolute b.toList ∧ segments a.toList = segments b.toList := by
  rw [normalize, normalize, String.ofList_inj]
  constructor
  · intro h
    rw [← isAbsolute_normalChars a.toList, ← segments_normalChars a.toList, h,
      isAbsolute_normalChars, segments_normalChars]
    exact ⟨rfl, rfl⟩
  · rintro ⟨habsolute, hsegments⟩
    rw [normalChars, normalChars, habsolute, hsegments]

/-- Two texts have one normal form just if they are spellings of one path. -/
theorem normalize_eq_iff {a b : String} : normalize a = normalize b ↔ SamePath a b := by
  rw [normalize_eq_iff_segments, SamePath, ← pieces_eq_splitOnP, ← pieces_eq_splitOnP]
  refine and_congr_right fun habsolute => ⟨fun hsegments => ?_, fun h => ?_⟩
  · have ha := Relation.EqvGen.reflTransGen_le_eqvGen _ _ _ (shortens_segments a.toList)
    have hb := Relation.EqvGen.reflTransGen_le_eqvGen _ _ _ (shortens_segments b.toList)
    rw [← habsolute, ← hsegments] at hb
    exact ha.trans _ _ _ (hb.symm _ _)
  · rw [segments, segments, ← habsolute, foldl_enter_of_eqvGen h]

instance (a b : String) : Decidable (SamePath a b) :=
  decidable_of_iff _ normalize_eq_iff

example : SamePath "src\\lib/..//token/." "src/token" ∧ ¬ SamePath "/src" "src" := by decide

/-! ## Joining -/

section Join

variable {directory directory' path : String}

theorem toList_join (directory path : String) :
    (directory ++ "/" ++ path).toList = directory.toList ++ '/' :: path.toList := by
  rw [String.toList_append, String.toList_append, List.append_assoc]
  rfl

/-- A joined path starts at the root if its directory does. -/
theorem isAbsolute_join (hne : directory ≠ "") :
    isAbsolute (directory ++ "/" ++ path).toList = isAbsolute directory.toList := by
  obtain ⟨c, cs, hcs⟩ := List.exists_cons_of_ne_nil (mt String.toList_eq_nil_iff.1 hne)
  rw [toList_join, hcs, List.cons_append, isAbsolute, isAbsolute]

/-- The pieces of the path are read where the segments of the directory have been kept. -/
theorem segments_join (hne : directory ≠ "") :
    segments (directory ++ "/" ++ path).toList =
      ((pieces isSeparator path.toList).foldl (enter (isAbsolute directory.toList))
        (segments directory.toList).reverse).reverse := by
  rw [segments, isAbsolute_join hne, toList_join, pieces_eq_splitOnP,
    List.splitOnP_append_cons _ _ (by rfl), List.foldl_append, ← pieces_eq_splitOnP,
    ← pieces_eq_splitOnP, segments, List.reverse_reverse]

/-- A path that is joined to a directory does not depend on how the directory is spelled. -/
theorem normalize_join_congr (hne : directory ≠ "") (hne' : directory' ≠ "")
    (h : normalize directory = normalize directory') :
    normalize (directory ++ "/" ++ path) = normalize (directory' ++ "/" ++ path) := by
  rw [normalize_eq_iff_segments] at h ⊢
  rw [isAbsolute_join hne, isAbsolute_join hne', segments_join hne, segments_join hne', h.1, h.2]
  exact ⟨rfl, rfl⟩

/-- A relative path that is joined to a spelling of the current directory is what it was. -/
theorem normalize_join_of_empty (hne : directory ≠ "") (h : normalize directory = "")
    (hpath : isAbsolute path.toList = false) :
    normalize (directory ++ "/" ++ path) = normalize path := by
  have hcurrent : normalize directory = normalize "" := h
  obtain ⟨habsolute, hsegments⟩ := normalize_eq_iff_segments.1 hcurrent
  rw [normalize_eq_iff_segments, isAbsolute_join hne, segments_join hne, hsegments, habsolute, hpath,
    segments.eq_def path.toList, hpath]
  exact ⟨rfl, rfl⟩

/-- A directory can be replaced by its normal form unless that is empty and the directory is not. -/
theorem normalize_join_iff :
    normalize (directory ++ "/" ++ path) = normalize (normalize directory ++ "/" ++ path) ↔
      normalize directory ≠ "" ∨ directory = "" := by
  constructor
  · intro h
    by_cases hne : directory = ""
    · exact .inr hne
    refine .inl fun hempty => ?_
    -- The joined path is relative, and it starts at the root if the directory is left out.
    have hcurrent : normalize directory = normalize "" := hempty
    have hrelative := (normalize_eq_iff_segments.1 hcurrent).1
    have habsolute := (normalize_eq_iff_segments.1 h).1
    rw [isAbsolute_join hne, hrelative, hempty] at habsolute
    rw [toList_join] at habsolute
    exact Bool.false_ne_true habsolute
  · rintro (hne | rfl)
    · refine normalize_join_congr (fun heq => hne ?_) hne (normalize_normalize directory).symm
      rw [heq]
      rfl
    · rfl

end Join

end Path

end SolidityAtlas
