import SolidityAtlas.Row.Distinct

/-!
# Merging orders

Several rows of elements, each in an order of its own, are merged into one row
that keeps to all of these orders. An element can come next if it is the first of
a row and stands behind the first place in none; of such elements, the first row
that has one decides. If no element can come next, the orders contradict each
other, and what is left is taken row by row.

An element that has been taken is not taken again.

## Main Definitions

* `nextOf`: the element that can come next
* `mergeOrders`: the merged row
-/

namespace SolidityAtlas

variable {α : Type} [DecidableEq α]

/-- The first head of a row that stands behind the head of none. -/
def nextOf (rows : List (List α)) : Option α :=
  (rows.filterMap List.head?).find? fun a => ! rows.any (·.tail.contains a)

/-- A row without its head, if that is the element given. -/
def dropHead (a : α) (row : List α) : List α :=
  if row.head? = some a then row.tail else row

/-- The rows without a certain head. -/
def dropHeads (a : α) (rows : List (List α)) : List (List α) :=
  rows.map (dropHead a)

@[simp] theorem dropHeads_nil (a : α) : dropHeads a [] = [] := rfl

@[simp] theorem dropHeads_cons (a : α) (row : List α) (rows : List (List α)) :
    dropHeads a (row :: rows) = dropHead a row :: dropHeads a rows := rfl

/-- Dropping a head makes no row longer. -/
theorem length_dropHead_le (a : α) (row : List α) : (dropHead a row).length ≤ row.length := by
  unfold dropHead
  split <;> simp

/-- Dropping a head from every row makes them no longer together. The merge ends by this. -/
theorem length_flatten_dropHeads_le (a : α) (rows : List (List α)) :
    (dropHeads a rows).flatten.length ≤ rows.flatten.length := by
  induction rows with
  | nil => simp
  | cons row rows ih =>
    have := length_dropHead_le a row
    simp only [dropHeads_cons, List.flatten_cons, List.length_append]
    omega

/-- Taking the head of a row leaves fewer elements. -/
theorem length_flatten_dropHeads_lt {a : α} {rows : List (List α)}
    (h : a ∈ rows.filterMap List.head?) :
    (dropHeads a rows).flatten.length < rows.flatten.length := by
  induction rows with
  | nil => simp at h
  | cons row rows ih =>
    have hle := length_dropHead_le a row
    have hles := length_flatten_dropHeads_le a rows
    simp only [dropHeads_cons, List.flatten_cons, List.length_append]
    by_cases hr : row.head? = some a
    · have : (dropHead a row).length < row.length := by
        cases row with
        | nil => simp at hr
        | cons b row => simp [dropHead, hr]
      omega
    · have hmem : a ∈ rows.filterMap List.head? := by
        simp only [List.mem_filterMap, List.mem_cons] at h ⊢
        obtain ⟨r, rfl | hr', ha⟩ := h
        · exact absurd ha hr
        · exact ⟨r, hr', ha⟩
      have := ih hmem
      omega

/-- The rows merged into one, behind the elements `taken`. -/
def mergeOrders (rows : List (List α)) (taken : List α) : List α :=
  match _h : nextOf rows with
  | some a => mergeOrders (dropHeads a rows) (appendNew taken a)
  | none => rows.flatten.foldl appendNew taken
termination_by rows.flatten.length
decreasing_by exact length_flatten_dropHeads_lt (List.mem_of_find?_eq_some _h)

end SolidityAtlas
