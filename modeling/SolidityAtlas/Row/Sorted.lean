/-!
# Rows in order

A row is put in order by taking its elements one after the other and putting each
of them where it belongs. Elements that the order does not tell apart keep their
places.

## Main Definitions

* `insertSorted`: a row in order with one more element
* `sorted`: the elements of a row in order
* `ascending`: the numbers of a row in ascending order
-/

namespace SolidityAtlas

variable {α : Type} (le : α → α → Bool)

/-- A row in order with one more element. -/
def insertSorted (a : α) : List α → List α
  | [] => [a]
  | b :: bs => if le a b then a :: b :: bs else b :: insertSorted a bs

/-- The elements of a row in order. -/
def sorted (row : List α) : List α :=
  row.foldr (insertSorted le) []

/-- The numbers of a row in ascending order. -/
def ascending (row : List Nat) : List Nat :=
  sorted (fun m n => decide (m ≤ n)) row

variable {le}

/-- An insertion adds the element and loses nothing. -/
theorem perm_insertSorted (a : α) (row : List α) : (insertSorted le a row).Perm (a :: row) := by
  induction row with
  | nil => exact List.Perm.refl _
  | cons b bs ih =>
    unfold insertSorted
    split
    · exact List.Perm.refl _
    · exact (ih.cons b).trans (List.Perm.swap a b bs)

/-- Nothing comes or goes when a row is put in order. -/
theorem perm_sorted (row : List α) : (sorted le row).Perm row := by
  induction row with
  | nil => exact List.Perm.refl _
  | cons a as ih => exact (perm_insertSorted a _).trans (ih.cons a)

/-- An insertion adds one element. -/
@[simp] theorem mem_insertSorted {a b : α} {row : List α} :
    b ∈ insertSorted le a row ↔ b = a ∨ b ∈ row := by
  rw [(perm_insertSorted a row).mem_iff, List.mem_cons]

/-- Sorting neither adds nor loses an element. -/
@[simp] theorem mem_sorted {a : α} {row : List α} : a ∈ sorted le row ↔ a ∈ row :=
  (perm_sorted row).mem_iff

/-- Sorting keeps repetitions. -/
@[simp] theorem length_sorted (row : List α) : (sorted le row).length = row.length :=
  (perm_sorted row).length_eq

/-- An insertion keeps the order, if the order is total and transitive. -/
theorem pairwise_insertSorted (total : ∀ a b, le a b = true ∨ le b a = true)
    (transitive : ∀ a b c, le a b = true → le b c = true → le a c = true) (a : α) {row : List α}
    (h : row.Pairwise fun a b => le a b = true) :
    (insertSorted le a row).Pairwise fun a b => le a b = true := by
  induction row with
  | nil => simp [insertSorted]
  | cons b bs ih =>
    obtain ⟨hb, hbs⟩ := List.pairwise_cons.1 h
    unfold insertSorted
    split
    · rename_i hab
      refine List.pairwise_cons.2 ⟨fun c hc => ?_, h⟩
      obtain rfl | hc := List.mem_cons.1 hc
      · exact hab
      · exact transitive a b c hab (hb c hc)
    · rename_i hab
      refine List.pairwise_cons.2 ⟨fun c hc => ?_, ih hbs⟩
      obtain rfl | hc := mem_insertSorted.1 hc
      · exact (total c b).resolve_left hab
      · exact hb c hc

/-- Of two elements of a row in order the first is no greater than the second. -/
theorem pairwise_sorted (total : ∀ a b, le a b = true ∨ le b a = true)
    (transitive : ∀ a b c, le a b = true → le b c = true → le a c = true) (row : List α) :
    (sorted le row).Pairwise fun a b => le a b = true := by
  induction row with
  | nil => exact List.Pairwise.nil
  | cons a as ih => exact pairwise_insertSorted total transitive a ih

/-- A row in order stays as it is. -/
theorem sorted_eq_self {row : List α} (h : row.Pairwise fun a b => le a b = true) :
    sorted le row = row := by
  induction row with
  | nil => rfl
  | cons a as ih =>
    obtain ⟨ha, has⟩ := List.pairwise_cons.1 h
    have hsorted : sorted le (a :: as) = insertSorted le a (sorted le as) := rfl
    rw [hsorted, ih has]
    cases as with
    | nil => rfl
    | cons b bs => simp [insertSorted, ha]

/-! ### Numbers -/

/-- The same numbers are listed, each as often as before. -/
theorem perm_ascending (row : List Nat) : (ascending row).Perm row :=
  perm_sorted row

/-- The same numbers are listed. -/
@[simp] theorem mem_ascending {n : Nat} {row : List Nat} : n ∈ ascending row ↔ n ∈ row :=
  mem_sorted

@[simp] theorem length_ascending (row : List Nat) : (ascending row).length = row.length :=
  length_sorted row

/-- No number stands behind a larger one. -/
theorem pairwise_ascending (row : List Nat) : (ascending row).Pairwise (· ≤ ·) := by
  have h : (ascending row).Pairwise fun m n => decide (m ≤ n) = true :=
    pairwise_sorted (fun m n => by simpa using Nat.le_total m n)
      (fun _ _ _ => by simpa using Nat.le_trans) row
  simpa using h

/-- Different numbers in order ascend strictly. -/
theorem pairwise_lt_ascending {row : List Nat} (h : row.Nodup) : (ascending row).Pairwise (· < ·) :=
  ((pairwise_ascending row).and ((perm_ascending row).nodup_iff.2 h)).imp fun hand =>
    Nat.lt_of_le_of_ne hand.1 hand.2

/-- What ascends already stays as it is. -/
theorem ascending_eq_self {row : List Nat} (h : row.Pairwise (· ≤ ·)) : ascending row = row :=
  sorted_eq_self (by simpa using h)

end SolidityAtlas
