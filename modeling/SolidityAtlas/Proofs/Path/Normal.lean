import SolidityAtlas.Path.Basic

/-!
# Normal paths

The segments of a path are read from left to right, and those that are kept form a
stack. On the stack no segment says nothing, and steps up stand only at the bottom, and
only for a relative path (`Path.Kept`). If such a stack is read again it is kept as it
is, so the normal form of a normal form is itself (`Path.normalize_normalize`).

## Main Definitions

* `Path.Kept`: stacks of segments as they are kept; `Path.kept_iff` is the same segment by segment

## Main Results

* `Path.normalize_normalize`
-/

namespace SolidityAtlas

/-! ## Cutting what was glued -/

section Pieces

variable {isSep : Char → Bool} {sep : Char}

/-- No piece holds a separator. -/
theorem not_isSep_of_mem_pieces {cs piece : List Char} (h : piece ∈ pieces isSep cs) :
    ∀ c ∈ piece, isSep c = false := by
  induction cs generalizing piece with
  | nil =>
      rw [pieces, List.mem_singleton] at h
      rw [h]
      exact fun _ hc => absurd hc List.not_mem_nil
  | cons c cs ih =>
      unfold pieces at h
      split at h
      · rcases List.mem_cons.1 h with rfl | h
        · exact fun _ hc => absurd hc List.not_mem_nil
        · exact ih h
      · rename_i hc
        cases hps : pieces isSep cs with
        | nil => exact absurd hps (pieces_ne_nil isSep cs)
        | cons p ps =>
            rw [hps] at h ih
            rcases List.mem_cons.1 h with rfl | h
            · exact List.forall_mem_cons.2 ⟨Bool.eq_false_iff.2 hc, ih List.mem_cons_self⟩
            · exact ih (List.mem_cons_of_mem _ h)

/-- To cut a text into pieces is to split the row of its characters. -/
theorem pieces_eq_splitOnP (isSep : Char → Bool) (cs : List Char) :
    pieces isSep cs = cs.splitOnP isSep := by
  induction cs with
  | nil => rfl
  | cons c cs ih =>
      rw [pieces, List.splitOnP_cons_eq_if_modifyHead, ← ih]
      cases hps : pieces isSep cs with
      | nil => exact absurd hps (pieces_ne_nil isSep cs)
      | cons p ps => rfl

/-- What is glued begins with the first part. -/
theorem exists_glue_eq_append (sep : Char) (part : List Char) (parts : List (List Char)) :
    ∃ rest, glue [sep] (part :: parts) = part ++ rest := by
  cases parts with
  | nil => exact ⟨[], by rw [glue, List.intercalate_singleton, List.append_nil]⟩
  | cons next parts =>
      exact ⟨_, by rw [glue, List.intercalate_cons_cons, List.append_assoc]⟩

/-- Parts without separators come back when they are glued and cut again. -/
theorem pieces_glue {parts : List (List Char)} (hsep : isSep sep = true) (hne : parts ≠ [])
    (h : ∀ part ∈ parts, ∀ c ∈ part, isSep c = false) :
    pieces isSep (glue [sep] parts) = parts := by
  induction parts with
  | nil => exact absurd rfl hne
  | cons part parts ih =>
      obtain ⟨hpart, hparts⟩ := List.forall_mem_cons.1 h
      cases parts with
      | nil =>
          rw [glue, List.intercalate_singleton, pieces_eq_splitOnP, List.splitOnP_eq_singleton hpart]
      | cons next parts =>
          rw [glue, List.intercalate_cons_cons, List.append_assoc, List.singleton_append,
            pieces_eq_splitOnP, List.splitOnP_append_cons_of_forall_mem hpart _ hsep,
            ← pieces_eq_splitOnP]
          exact congrArg (part :: ·) (ih (List.cons_ne_nil _ _) hparts)

end Pieces

namespace Path

/-! ## Stacks of segments -/

/-- The segments of a path as they are kept, last one first: each of them says something, and a
step up stands only above other steps up, at the beginning of a relative path. -/
def Kept (absolute : Bool) : List (List Char) → Prop
  | [] => True
  | segment :: before => segment ≠ [] ∧ segment ≠ ['.'] ∧ (∀ c ∈ segment, isSeparator c = false) ∧
      (segment = ['.', '.'] → absolute = false ∧ ∀ s ∈ before, s = ['.', '.']) ∧ Kept absolute before

variable {absolute : Bool} {kept : List (List Char)}

/-- Empty segments and dots are passed over. -/
theorem enter_of_idle {segment : List Char} (h : segment = [] ∨ segment = ['.']) :
    enter absolute kept segment = kept := by
  unfold Path.enter
  exact if_pos h

/-- A proper segment is kept. -/
theorem enter_of_proper {segment : List Char} (hidle : ¬ (segment = [] ∨ segment = ['.']))
    (hup : segment ≠ ['.', '.']) : enter absolute kept segment = segment :: kept := by
  unfold Path.enter
  rw [if_neg hidle, if_neg hup]

/-- A step up takes a proper segment back. -/
theorem enter_up_of_proper {segment : List Char} (hup : segment ≠ ['.', '.']) :
    enter absolute (segment :: kept) ['.', '.'] = kept := by
  unfold Path.enter
  rw [if_neg (by decide), if_pos rfl]
  exact if_neg hup

/-- What is kept are segments: not empty, and without a separator. -/
theorem Kept.of_mem (h : Kept absolute kept) :
    ∀ segment ∈ kept, segment ≠ [] ∧ ∀ c ∈ segment, isSeparator c = false := by
  induction kept with
  | nil => exact fun _ hmem => absurd hmem List.not_mem_nil
  | cons segment before ih => exact List.forall_mem_cons.2 ⟨⟨h.1, h.2.2.1⟩, ih h.2.2.2.2⟩

/-- A stack of segments is in order if its segments are, any two of them are, and none of them
steps up from the root. -/
theorem kept_iff :
    Kept absolute kept ↔
      (∀ segment ∈ kept, segment ≠ [] ∧ segment ≠ ['.']) ∧
      (∀ segment ∈ kept, ∀ c ∈ segment, isSeparator c = false) ∧
      (kept.Pairwise fun later earlier => later = ['.', '.'] → earlier = ['.', '.']) ∧
      (absolute = true → ['.', '.'] ∉ kept) := by
  induction kept with
  | nil =>
      exact ⟨fun _ => ⟨nofun, nofun, .nil, fun _ => List.not_mem_nil⟩, fun _ => trivial⟩
  | cons segment before ih =>
      rw [Kept, ih, List.forall_mem_cons, List.forall_mem_cons, List.pairwise_cons,
        List.mem_cons, not_or]
      constructor
      · rintro ⟨hnil, hdot, hchars, hup, hidle, hseps, hpairs, hroot⟩
        refine ⟨⟨⟨hnil, hdot⟩, hidle⟩, ⟨hchars, hseps⟩,
          ⟨fun s hs heq => (hup heq).2 s hs, hpairs⟩, fun habsolute => ⟨fun heq => ?_, hroot habsolute⟩⟩
        exact absurd habsolute (Bool.eq_false_iff.1 (hup heq.symm).1)
      · rintro ⟨⟨⟨hnil, hdot⟩, hidle⟩, ⟨hchars, hseps⟩, ⟨hbefore, hpairs⟩, hroot⟩
        refine ⟨hnil, hdot, hchars, fun heq => ⟨Bool.eq_false_iff.2 fun habsolute => ?_,
          fun s hs => hbefore s hs heq⟩, hidle, hseps, hpairs, fun habsolute => (hroot habsolute).2⟩
        exact (hroot habsolute).1 heq.symm

/-- A stack is in order after one more segment. -/
theorem Kept.enter (h : Kept absolute kept) {segment : List Char}
    (hsegment : ∀ c ∈ segment, isSeparator c = false) : Kept absolute (enter absolute kept segment) := by
  unfold Path.enter
  split
  · exact h
  · rename_i hsays
    obtain ⟨hnil, hdot⟩ := not_or.1 hsays
    split
    · rename_i hup
      cases kept with
      | nil =>
          cases absolute with
          | true => exact h
          | false =>
              exact ⟨hnil, hdot, hsegment, fun _ => ⟨rfl, fun _ hs => absurd hs List.not_mem_nil⟩, h⟩
      | cons last before =>
          simp only
          split
          · rename_i hlast
            cases absolute with
            | true => exact h
            | false =>
                exact ⟨hnil, hdot, hsegment,
                  fun _ => ⟨rfl, List.forall_mem_cons.2 ⟨hlast, (h.2.2.2.1 hlast).2⟩⟩, h⟩
          · exact h.2.2.2.2
    · rename_i hup
      exact ⟨hnil, hdot, hsegment, fun heq => absurd heq hup, h⟩

/-- What may be kept stays so through a row of segments. -/
theorem Kept.foldl_enter (h : Kept absolute kept) {row : List (List Char)}
    (hrow : ∀ segment ∈ row, ∀ c ∈ segment, isSeparator c = false) :
    Kept absolute (row.foldl (Path.enter absolute) kept) := by
  induction row generalizing kept with
  | nil => exact h
  | cons segment row ih =>
      obtain ⟨hsegment, hrow⟩ := List.forall_mem_cons.1 hrow
      exact ih (h.enter hsegment) hrow

/-- A segment that is kept is kept when it is read again. -/
theorem Kept.enter_last {segment : List Char} (h : Kept absolute (segment :: kept)) :
    Path.enter absolute kept segment = segment :: kept := by
  obtain ⟨hnil, hdot, -, hup, -⟩ := h
  unfold Path.enter
  rw [if_neg (not_or.2 ⟨hnil, hdot⟩)]
  split
  · rename_i heq
    obtain ⟨rfl, hbefore⟩ := hup heq
    cases kept with
    | nil => rfl
    | cons last before =>
        simp only [hbefore last List.mem_cons_self, if_pos, Bool.false_eq_true, if_false]
  · rfl

/-- Segments that may be kept are kept as they are when they are entered again. -/
theorem Kept.foldl_enter_reverse (h : Kept absolute kept) :
    kept.reverse.foldl (Path.enter absolute) [] = kept := by
  induction kept with
  | nil => rfl
  | cons segment before ih =>
      rw [List.reverse_cons, List.foldl_append, ih h.2.2.2.2, List.foldl_cons, List.foldl_nil,
        h.enter_last]

/-- A row of segments that are kept is kept when it is read. -/
theorem Kept.foldl_enter_self (h : Kept absolute kept.reverse) :
    kept.foldl (Path.enter absolute) [] = kept.reverse := by
  have hread := h.foldl_enter_reverse
  rwa [List.reverse_reverse] at hread

/-! ## Normal forms -/

/-- The segments of a path may be kept. -/
theorem kept_segments (path : List Char) : Kept (isAbsolute path) (segments path).reverse := by
  rw [segments, List.reverse_reverse]
  exact Kept.foldl_enter (show Kept (isAbsolute path) [] from trivial) fun segment hsegment =>
    not_isSep_of_mem_pieces hsegment

/-- Reading what was glued is reading the parts. -/
theorem foldl_enter_pieces_glue (h : Kept absolute kept.reverse) :
    (pieces isSeparator (glue ['/'] kept)).foldl (Path.enter absolute) [] =
      kept.foldl (Path.enter absolute) [] := by
  cases kept with
  | nil => rfl
  | cons segment kept =>
      rw [pieces_glue (by rfl) (List.cons_ne_nil _ _) fun s hs =>
        (h.of_mem s (List.mem_reverse.2 hs)).2]

/-- Kept segments joined by slashes do not start at the root. -/
theorem isAbsolute_glue (h : Kept absolute kept.reverse) : isAbsolute (glue ['/'] kept) = false := by
  cases kept with
  | nil => rfl
  | cons segment kept =>
      obtain ⟨hne, hchars⟩ := h.of_mem segment (List.mem_reverse.2 List.mem_cons_self)
      obtain ⟨c, cs, rfl⟩ := List.exists_cons_of_ne_nil hne
      obtain ⟨rest, hglue⟩ := exists_glue_eq_append '/' (c :: cs) kept
      rw [hglue, List.cons_append, isAbsolute, hchars c List.mem_cons_self]

/-- Segments that are kept are the normal form of a relative path. -/
theorem normalChars_glue (h : Kept false kept.reverse) :
    normalChars (glue ['/'] kept) = glue ['/'] kept := by
  rw [normalChars, segments, isAbsolute_glue h, foldl_enter_pieces_glue h, h.foldl_enter_self,
    List.reverse_reverse, if_neg Bool.false_ne_true]

/-- Normalizing leaves a path absolute or relative. -/
theorem isAbsolute_normalChars (path : List Char) : isAbsolute (normalChars path) = isAbsolute path := by
  have hkept := kept_segments path
  rw [normalChars]
  cases isAbsolute path with
  | true => rfl
  | false => exact isAbsolute_glue hkept

/-- Normalizing keeps the segments. -/
theorem segments_normalChars (path : List Char) : segments (normalChars path) = segments path := by
  have hkept := kept_segments path
  have hread : (pieces isSeparator (normalChars path)).foldl (Path.enter (isAbsolute path)) [] =
      (segments path).foldl (Path.enter (isAbsolute path)) [] := by
    rw [normalChars]
    cases h : isAbsolute path with
    | true =>
        rw [h] at hkept
        rw [← foldl_enter_pieces_glue hkept]
        rfl
    | false =>
        rw [h] at hkept
        exact foldl_enter_pieces_glue hkept
  rw [segments, isAbsolute_normalChars, hread, hkept.foldl_enter_self, List.reverse_reverse]

/-- The normal form of a normal form is itself. -/
theorem normalize_normalize (path : String) : normalize (normalize path) = normalize path := by
  have hchars : normalChars (normalChars path.toList) = normalChars path.toList := by
    rw [normalChars, segments_normalChars, isAbsolute_normalChars, normalChars]
  rw [normalize, normalize, String.toList_ofList, hchars]

end Path

end SolidityAtlas
