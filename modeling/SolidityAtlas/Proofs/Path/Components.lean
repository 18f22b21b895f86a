import SolidityAtlas.Proofs.Path.Normal

/-!
# Components of paths

The components of a path are what stands between its slashes; the slash of the root belongs to
none of them. In a path in normal form no component is idle, that is empty or a dot, no component
steps up from a proper one or from the root, and there is no backslash (`Path.IsNormal`). Normal
forms are of this kind, with the segments that were kept as their components
(`Path.components_normalChars`), and a path of this kind is its own normal form. So these are the
paths that are left as they are (`Path.normalize_eq_self_iff`).

## Main Definitions

* `Path.components`: what stands between the slashes of a path
* `Path.IsNormal`: the paths in normal form, by their components

## Main Results

* `Path.isNormal_normalize`
* `Path.normalize_eq_self_iff`
-/

namespace SolidityAtlas

namespace Path

variable {path : List Char} {absolute : Bool} {row : List (List Char)}

/-- A path without the slash of the root. -/
def behindRoot (path : List Char) : List Char :=
  if path.head? = some '/' then path.tail else path

/-- What stands between the slashes of a path, behind the root; nothing if there is nothing. -/
def components (path : List Char) : List (List Char) :=
  if behindRoot path = [] then [] else (behindRoot path).splitOn '/'

/-- The paths in normal form. -/
structure IsNormal (path : String) : Prop where
  noBackslash : '\\' ∉ path.toList
  noIdle : ∀ component ∈ components path.toList, component ≠ [] ∧ component ≠ ['.']
  /-- What stands before a step up is a step up. -/
  stepsUpFirst : (components path.toList).Pairwise fun earlier later =>
    later = ['.', '.'] → earlier = ['.', '.']
  /-- There is nothing above the root. -/
  rooted : path.toList.head? = some '/' → ['.', '.'] ∉ components path.toList

instance (path : String) : Decidable (IsNormal path) :=
  decidable_of_iff (_ ∧ _ ∧ _ ∧ _)
    ⟨fun ⟨hback, hidle, hup, hroot⟩ => ⟨hback, hidle, hup, hroot⟩,
      fun ⟨hback, hidle, hup, hroot⟩ => ⟨hback, hidle, hup, hroot⟩⟩

/-! ## Slashes and backslashes -/

/-- A path is absolute if it starts with a separator of either kind. -/
theorem isAbsolute_iff :
    isAbsolute path = true ↔ path.head? = some '/' ∨ path.head? = some '\\' := by
  cases path with
  | nil => exact ⟨(nomatch ·), (·.elim (nomatch ·) (nomatch ·))⟩
  | cons c cs =>
      rw [isAbsolute, isSeparator, Bool.or_eq_true, beq_iff_eq, beq_iff_eq, List.head?_cons,
        Option.some_inj, Option.some_inj]

/-- Without backslashes the root is a slash. -/
theorem isAbsolute_iff_of_noBackslash (h : '\\' ∉ path) :
    isAbsolute path = true ↔ path.head? = some '/' :=
  isAbsolute_iff.trans (or_iff_left fun hhead => h (List.mem_of_mem_head? hhead))

/-- What holds of the slash and in every part holds in the parts joined by slashes. -/
theorem forall_mem_glue {p : Char → Prop} (hslash : p '/') (h : ∀ part ∈ row, ∀ c ∈ part, p c) :
    ∀ c ∈ glue ['/'] row, p c := by
  induction row with
  | nil => exact fun _ hc => absurd hc List.not_mem_nil
  | cons part row ih =>
      obtain ⟨hpart, hrow⟩ := List.forall_mem_cons.1 h
      cases row with
      | nil => rwa [glue, List.intercalate_singleton]
      | cons next row =>
          rw [glue, List.intercalate_cons_cons, List.append_assoc, List.forall_mem_append,
            List.singleton_append, List.forall_mem_cons]
          exact ⟨hpart, hslash, ih hrow⟩

/-- A character that is no separator differs from every one that is. -/
theorem ne_of_isSeparator_eq_false {c d : Char} (h : isSeparator c = false)
    (hd : isSeparator d = true) : c ≠ d := by
  rintro rfl
  exact Bool.false_ne_true (h.symm.trans hd)

/-- A normal form is written with slashes only. -/
theorem noBackslash_normalChars (path : List Char) : '\\' ∉ normalChars path := by
  have hkept := (kept_segments path).of_mem
  have hglue : ∀ c ∈ glue ['/'] (segments path), c ≠ '\\' := by
    refine forall_mem_glue (by decide) fun segment hsegment c hc => ?_
    exact ne_of_isSeparator_eq_false ((hkept segment (List.mem_reverse.2 hsegment)).2 c hc) rfl
  intro hmem
  rw [normalChars] at hmem
  split at hmem
  · rcases List.mem_cons.1 hmem with heq | hmem
    · exact absurd heq (by decide)
    · exact hglue _ hmem rfl
  · exact hglue _ hmem rfl

/-- A normal form begins with a slash if the path begins with one of the two separators. -/
theorem head?_normalChars_iff (path : List Char) :
    (normalChars path).head? = some '/' ↔ path.head? = some '/' ∨ path.head? = some '\\' := by
  rw [← isAbsolute_iff_of_noBackslash (noBackslash_normalChars path), isAbsolute_normalChars,
    isAbsolute_iff]

/-! ## Components of normal forms -/

/-- Segments without slashes come back when they are glued and cut at slashes. -/
theorem splitOn_glue (h : ∀ segment ∈ row, segment ≠ [] ∧ '/' ∉ segment) :
    (if glue ['/'] row = [] then [] else (glue ['/'] row).splitOn '/') = row := by
  cases row with
  | nil => rfl
  | cons segment row =>
      have hne : glue ['/'] (segment :: row) ≠ [] := by
        obtain ⟨rest, hglue⟩ := exists_glue_eq_append '/' segment row
        rw [hglue]
        exact List.append_ne_nil_of_left_ne_nil (h segment List.mem_cons_self).1 rest
      rw [if_neg hne, glue,
        List.splitOn_intercalate '/' (fun s hs => (h s hs).2) (List.cons_ne_nil _ _)]

/-- The components of a normal form are the segments that were kept. -/
theorem components_normalChars (path : List Char) : components (normalChars path) = segments path := by
  have hrow : ∀ segment ∈ segments path, segment ≠ [] ∧ '/' ∉ segment := fun segment hsegment => by
    obtain ⟨hne, hchars⟩ := (kept_segments path).of_mem segment (List.mem_reverse.2 hsegment)
    exact ⟨hne, fun hmem => Bool.false_ne_true (hchars _ hmem).symm⟩
  have hbehind : behindRoot (normalChars path) = glue ['/'] (segments path) := by
    have hhead := isAbsolute_iff_of_noBackslash (noBackslash_normalChars path)
    rw [isAbsolute_normalChars] at hhead
    cases habsolute : isAbsolute path with
    | true =>
        rw [behindRoot, if_pos (hhead.1 habsolute), normalChars, if_pos habsolute, List.tail_cons]
    | false =>
        rw [behindRoot, if_neg (mt hhead.2 (Bool.eq_false_iff.1 habsolute)), normalChars,
          if_neg (Bool.eq_false_iff.1 habsolute)]
  rw [components, hbehind, splitOn_glue hrow]

/-- Normal forms are in normal form. -/
theorem isNormal_normalize (path : String) : IsNormal (normalize path) := by
  have hchars : (normalize path).toList = normalChars path.toList := String.toList_ofList
  obtain ⟨hidle, -, hpairs, hroot⟩ := kept_iff.1 (kept_segments path.toList)
  refine ⟨?_, ?_, ?_, ?_⟩ <;> rw [hchars]
  · exact noBackslash_normalChars _
  · rw [components_normalChars]
    exact fun component hmem => hidle component (List.mem_reverse.2 hmem)
  · rw [components_normalChars]
    exact List.pairwise_reverse.1 hpairs
  · rw [components_normalChars, head?_normalChars_iff, ← isAbsolute_iff, ← List.mem_reverse]
    exact hroot

/-! ## Paths that are left as they are -/

/-- The root and what stands behind it make the path. -/
theorem root_behindRoot (path : List Char) :
    (if path.head? = some '/' then '/' :: behindRoot path else behindRoot path) = path := by
  rw [behindRoot]
  split
  · rename_i hhead
    obtain ⟨rest, rfl⟩ := List.head?_eq_some_iff.1 hhead
    rfl
  · rfl

/-- Taking off the root brings in no backslash. -/
theorem noBackslash_behindRoot (h : '\\' ∉ path) : '\\' ∉ behindRoot path := by
  rw [behindRoot]
  split
  · exact mt List.mem_of_mem_tail h
  · exact h

/-- Without backslashes both ways to cut a path give the same. -/
theorem splitOn_eq_pieces (h : '\\' ∉ path) : path.splitOn '/' = pieces isSeparator path := by
  rw [List.splitOn_eq_splitOnP, pieces_eq_splitOnP]
  induction path with
  | nil => rfl
  | cons c cs ih =>
      obtain ⟨hc, hcs⟩ := not_or.1 (mt List.mem_cons.2 h)
      have hsep : isSeparator c = (c == '/') := by
        rw [isSeparator, beq_eq_false_iff_ne.2 (Ne.symm hc), Bool.or_false]
      rw [List.splitOnP_cons_eq_if_modifyHead, List.splitOnP_cons_eq_if_modifyHead, ih hcs, hsep]

/-- The components of a path without backslashes are its pieces behind the root. -/
theorem components_eq_pieces (h : '\\' ∉ path) :
    components path = if behindRoot path = [] then [] else pieces isSeparator (behindRoot path) := by
  rw [components, splitOn_eq_pieces (noBackslash_behindRoot h)]

/-- To glue the components gives what stands behind the root. -/
theorem glue_components (path : List Char) : glue ['/'] (components path) = behindRoot path := by
  rw [components]
  split
  · rename_i hnil
    rw [hnil]
    rfl
  · exact List.intercalate_splitOn '/'

/-- Without backslashes to read the pieces of a path is to read its components. -/
theorem foldl_enter_components (h : '\\' ∉ path) :
    (pieces isSeparator path).foldl (enter absolute) [] =
      (components path).foldl (enter absolute) [] := by
  -- The slash of the root cuts off an empty piece, and an empty text is one empty piece.
  have hroot : (pieces isSeparator path).foldl (enter absolute) [] =
      (pieces isSeparator (behindRoot path)).foldl (enter absolute) [] := by
    rw [behindRoot]
    split
    · rename_i hhead
      obtain ⟨rest, rfl⟩ := List.head?_eq_some_iff.1 hhead
      rw [pieces, if_pos (by rfl), List.foldl_cons, enter_of_idle (.inl rfl), List.tail_cons]
    · rfl
  rw [hroot, components_eq_pieces h]
  split
  · rename_i hnil
    rw [hnil, pieces, List.foldl_cons, enter_of_idle (.inl rfl)]
  · rfl

/-- The components of a path in normal form are a stack in order. -/
theorem IsNormal.kept_components {path : String} (h : IsNormal path) :
    Kept (isAbsolute path.toList) (components path.toList).reverse := by
  refine kept_iff.2 ⟨fun component hmem => h.noIdle component (List.mem_reverse.1 hmem),
    fun component hmem => ?_, List.pairwise_reverse.2 h.stepsUpFirst, fun habsolute => ?_⟩
  · rw [List.mem_reverse, components_eq_pieces h.noBackslash] at hmem
    split at hmem
    · exact absurd hmem List.not_mem_nil
    · exact not_isSep_of_mem_pieces hmem
  · rw [List.mem_reverse]
    exact h.rooted ((isAbsolute_iff_of_noBackslash h.noBackslash).1 habsolute)

/-- A path in normal form is its own normal form. -/
theorem IsNormal.normalize_eq {path : String} (h : IsNormal path) : normalize path = path := by
  have hsegments : segments path.toList = components path.toList := by
    rw [segments, foldl_enter_components h.noBackslash, h.kept_components.foldl_enter_self,
      List.reverse_reverse]
  have hchars : normalChars path.toList = path.toList := by
    rw [normalChars, hsegments, glue_components]
    simp only [isAbsolute_iff_of_noBackslash h.noBackslash]
    exact root_behindRoot _
  rw [normalize, hchars, String.ofList_toList]

/-- The paths in normal form are those that are left as they are. -/
theorem normalize_eq_self_iff {path : String} : normalize path = path ↔ IsNormal path :=
  ⟨fun h => h ▸ isNormal_normalize path, IsNormal.normalize_eq⟩

example : IsNormal "../../lib/Token.sol" ∧ ¬ IsNormal "lib/../Token.sol" := by decide

end Path

end SolidityAtlas
