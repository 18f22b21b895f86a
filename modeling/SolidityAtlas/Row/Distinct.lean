/-!
# Rows without repetition

Where things are listed in the order in which they turn up, and each only once.

## Main Definitions

* `appendNew`: a row with one more element at the end, if it is not in it
-/

namespace SolidityAtlas

variable {α : Type} [DecidableEq α]

/-- A row with one more element at the end, if it is not in it. -/
def appendNew (row : List α) (a : α) : List α :=
  if row.contains a then row else row ++ [a]

/-- What a row lists after an addition: what it listed, and the new element. -/
@[simp] theorem mem_appendNew {row : List α} {a b : α} :
    b ∈ appendNew row a ↔ b ∈ row ∨ b = a := by
  unfold appendNew
  split <;> simp_all

/-- An element that is listed already is not listed twice. -/
theorem nodup_appendNew {row : List α} (a : α) (h : row.Nodup) : (appendNew row a).Nodup := by
  unfold appendNew
  split
  · exact h
  · rename_i ha
    simp only [List.contains_iff_mem] at ha
    refine List.nodup_append.2 ⟨h, by simp, fun b hb c hc hbc => ha ?_⟩
    rw [← List.mem_singleton.1 hc, ← hbc]
    exact hb

/-! ### Many elements -/

/-- Additions one after the other list what any of them adds. -/
theorem mem_foldl_appendNew {a : α} {row taken : List α} :
    a ∈ row.foldl appendNew taken ↔ a ∈ row ∨ a ∈ taken := by
  induction row generalizing taken with
  | nil => simp
  | cons b row ih =>
      rw [List.foldl_cons, ih, mem_appendNew, List.mem_cons, ← or_assoc, or_right_comm,
        or_comm (a := a = b)]

/-- A row without repetition stays one through any number of additions. -/
theorem nodup_foldl_appendNew (row : List α) {taken : List α} (h : taken.Nodup) :
    (row.foldl appendNew taken).Nodup := by
  induction row generalizing taken with
  | nil => exact h
  | cons a row ih => exact ih (nodup_appendNew a h)

/-- The repetitions of a row can be taken out as it is read. -/
theorem eraseDups_append_singleton (row : List α) (a : α) :
    (row ++ [a]).eraseDups = appendNew row.eraseDups a := by
  rw [List.eraseDups_append, appendNew]
  by_cases ha : a ∈ row
  · simp [List.removeAll, ha]
  · simp [List.removeAll, ha, List.eraseDups_cons]

end SolidityAtlas
