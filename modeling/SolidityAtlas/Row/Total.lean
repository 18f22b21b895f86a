/-!
# Totals over a row

The sum of what each element of a row counts for. Such totals bound how long a
search through the elements can take.

## Main Definitions

* `total`: the sum of a measure over a row
-/

namespace SolidityAtlas

variable {α : Type} (f : α → Nat)

/-- The sum of a measure over a row. -/
def total : List α → Nat
  | [] => 0
  | a :: as => f a + total as

@[simp] theorem total_nil : total f [] = 0 := rfl

@[simp] theorem total_cons (a : α) (as : List α) : total f (a :: as) = f a + total f as := rfl

/-- The total of two rows is the sum of their totals. -/
@[simp] theorem total_append (as bs : List α) : total f (as ++ bs) = total f as + total f bs := by
  induction as with
  | nil => exact (Nat.zero_add _).symm
  | cons a as ih => rw [List.cons_append, total_cons, total_cons, ih, Nat.add_assoc]

/-- A row without one of its elements has the total without what that element counts for. -/
theorem total_erase_add [BEq α] [LawfulBEq α] {a : α} {as : List α} (h : a ∈ as) :
    total f (as.erase a) + f a = total f as := by
  induction as with
  | nil => simp at h
  | cons b bs ih =>
    by_cases hb : b == a
    · rw [List.erase_cons, if_pos hb, total_cons, eq_of_beq hb, Nat.add_comm]
    · have ha : a ∈ bs := (List.mem_cons.1 h).resolve_left fun he => hb (by simp [he])
      rw [List.erase_cons, if_neg hb, total_cons, total_cons, Nat.add_assoc, ih ha]

theorem total_map {β : Type} (g : β → α) (as : List β) :
    total f (as.map g) = total (fun a => f (g a)) as := by
  induction as with
  | nil => rfl
  | cons a as ih => rw [List.map_cons, total_cons, total_cons, ih]

/-- A row has no more elements that count for something than all of them count for together. -/
theorem length_filter_pos_le_total (as : List α) :
    (as.filter fun a => 0 < f a).length ≤ total f as := by
  induction as with
  | nil => exact Nat.le_refl _
  | cons a as ih =>
    rw [List.filter_cons, total_cons]
    split
    · rename_i hpos
      have : 0 < f a := by simpa using hpos
      rw [List.length_cons]
      omega
    · omega

end SolidityAtlas
