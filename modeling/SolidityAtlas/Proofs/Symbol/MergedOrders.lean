import SolidityAtlas.Proofs.Symbol.Linearization

/-!
# When merging succeeds

As long as an element can come next, `mergeOrders` takes elements one after the other
(`takenInTurn`). What it has to take row by row then are the rows that are left
(`leftOver`). So the rows are *contradictory* if some are left.

Whether this happens does not depend on the choices on the way. If some order keeps to all
rows, the first of its elements that is left is the head of each row that has it, so it can
come next. Conversely what has been taken in turn keeps to all rows if nothing is left.

## Main Definitions

* `KeepsTo`: a row with the elements of some rows, in an order that is that of all of them
* `takenInTurn`, `leftOver`: the two parts of what merging appends
* `Contradictory`: merging comes to a point where no element can come next

## Main Results

* `contradictory_iff`: rows are contradictory if and only if no order keeps to them
* `mergeOrders_of_not_contradictory`, `keepsTo_takenInTurn`: otherwise the merged row does
-/

namespace SolidityAtlas

variable {α : Type} [DecidableEq α] {rows : List (List α)} {taken order : List α} {a : α}

/-- A row that keeps to the orders of some rows: it has their elements, each of them once, and
the elements of each row stand in it in their order. -/
structure KeepsTo (rows : List (List α)) (order : List α) : Prop where
  nodup : order.Nodup
  mem_iff : ∀ a, a ∈ order ↔ a ∈ rows.flatten
  sublist : ∀ row ∈ rows, row.Sublist order

/-! ## The two parts of merging -/

/-- The elements that are taken one after the other as long as one can come next. -/
def takenInTurn (rows : List (List α)) : List α :=
  match _h : nextOf rows with
  | some a => a :: takenInTurn (dropHeads a rows)
  | none => []
termination_by rows.flatten.length
decreasing_by exact length_flatten_dropHeads_lt (List.mem_of_find?_eq_some _h)

/-- The rows that are left when no element can come next. -/
def leftOver (rows : List (List α)) : List (List α) :=
  match _h : nextOf rows with
  | some a => leftOver (dropHeads a rows)
  | none => rows
termination_by rows.flatten.length
decreasing_by exact length_flatten_dropHeads_lt (List.mem_of_find?_eq_some _h)

/-- Merging the rows comes to a point where none of the elements that are left can come next. -/
def Contradictory (rows : List (List α)) : Prop :=
  (leftOver rows).flatten ≠ []

instance : Decidable (Contradictory rows) :=
  inferInstanceAs (Decidable (_ ≠ _))

/-- The element that comes next is taken first. -/
theorem takenInTurn_of_next (h : nextOf rows = some a) :
    takenInTurn rows = a :: takenInTurn (dropHeads a rows) := by
  rw [takenInTurn]
  split
  · rename_i b hb
    rw [h] at hb
    cases hb
    rfl
  · rename_i hnone
    rw [h] at hnone
    cases hnone

/-- Nothing is taken from rows that contradict each other, or from empty ones. -/
theorem takenInTurn_of_none (h : nextOf rows = none) : takenInTurn rows = [] := by
  rw [takenInTurn]
  split
  · rename_i b hb
    rw [h] at hb
    cases hb
  · rfl

/-- What is left over does not depend on what has been taken. -/
theorem leftOver_of_next (h : nextOf rows = some a) :
    leftOver rows = leftOver (dropHeads a rows) := by
  rw [leftOver]
  split
  · rename_i b hb
    rw [h] at hb
    cases hb
    rfl
  · rename_i hnone
    rw [h] at hnone
    cases hnone

/-- Rows of which no element comes next are left over as they are. -/
theorem leftOver_of_none (h : nextOf rows = none) : leftOver rows = rows := by
  rw [leftOver]
  split
  · rename_i b hb
    rw [h] at hb
    cases hb
  · rfl

/-- Merging appends what it takes in turn, and then what is left, row by row. -/
theorem mergeOrders_eq (rows : List (List α)) (taken : List α) :
    mergeOrders rows taken =
      (leftOver rows).flatten.foldl appendNew ((takenInTurn rows).foldl appendNew taken) := by
  induction rows, taken using mergeOrders.induct with
  | case1 rows taken a hnext ih =>
      rw [mergeOrders_of_next hnext, ih, leftOver_of_next hnext, takenInTurn_of_next hnext,
        List.foldl_cons]
  | case2 rows taken hnext =>
      rw [mergeOrders_of_contradiction hnext, leftOver_of_none hnext, takenInTurn_of_none hnext,
        List.foldl_nil]

/-! ## What is taken keeps to all rows -/

/-- What comes next is the head of a row. -/
theorem mem_heads_of_nextOf (h : nextOf rows = some a) : a ∈ rows.filterMap List.head? :=
  List.mem_of_find?_eq_some h

/-- What comes next stands behind the head of no row. -/
theorem not_mem_tail_of_nextOf (h : nextOf rows = some a) {row : List α} (hrow : row ∈ rows) :
    a ∉ row.tail := by
  rw [nextOf] at h
  have hnone := List.find?_some h
  rw [Bool.not_eq_true', List.any_eq_false] at hnone
  intro hmem
  exact hnone row hrow (List.contains_iff_mem.2 hmem)

/-- What comes next stands in no row behind the head. -/
theorem not_mem_dropHead_of_nextOf (h : nextOf rows = some a) {row : List α} (hrow : row ∈ rows) :
    a ∉ dropHead a row := by
  have htail := not_mem_tail_of_nextOf h hrow
  unfold dropHead
  split
  · exact htail
  · rename_i hhead
    cases row with
    | nil => exact List.not_mem_nil
    | cons b row =>
        intro hmem
        rcases List.mem_cons.1 hmem with rfl | hmem
        · exact hhead rfl
        · exact htail hmem

theorem sublist_dropHead (a : α) (row : List α) : (dropHead a row).Sublist row := by
  unfold dropHead
  split
  · exact List.tail_sublist row
  · exact List.Sublist.refl row

/-- A row loses its head at most. -/
theorem sublist_cons_dropHead (a : α) (row : List α) : row.Sublist (a :: dropHead a row) := by
  unfold dropHead
  split
  · rename_i hhead
    cases row with
    | nil => exact List.nil_sublist _
    | cons b row =>
        obtain rfl : b = a := Option.some.inj hhead
        exact List.Sublist.refl _
  · exact List.sublist_cons_self a row

/-- What comes next, put in front of what keeps to the rows without it, keeps to the rows. -/
theorem KeepsTo.cons (hnext : nextOf rows = some a) (h : KeepsTo (dropHeads a rows) order) :
    KeepsTo rows (a :: order) where
  nodup := by
    refine List.nodup_cons.2 ⟨fun hmem => ?_, h.nodup⟩
    obtain ⟨row', hrow', ha⟩ := List.mem_flatten.1 ((h.mem_iff a).1 hmem)
    obtain ⟨row, hrow, rfl⟩ := List.mem_map.1 hrow'
    exact not_mem_dropHead_of_nextOf hnext hrow ha
  mem_iff b := by
    rw [List.mem_cons, h.mem_iff, List.mem_flatten, List.mem_flatten]
    constructor
    · rintro (rfl | ⟨row', hrow', hb⟩)
      · obtain ⟨row, hrow, hhead⟩ := List.mem_filterMap.1 (mem_heads_of_nextOf hnext)
        exact ⟨row, hrow, List.mem_of_head? hhead⟩
      · obtain ⟨row, hrow, rfl⟩ := List.mem_map.1 hrow'
        exact ⟨row, hrow, mem_of_mem_dropHead hb⟩
    · rintro ⟨row, hrow, hb⟩
      refine (mem_dropHead (a := a) hb).imp_right fun hb => ?_
      exact ⟨dropHead a row, List.mem_map_of_mem hrow, hb⟩
  sublist row hrow :=
    (sublist_cons_dropHead a row).trans ((h.sublist _ (List.mem_map_of_mem hrow)).cons_cons a)

/-- What is taken in turn keeps to the rows if nothing is left. -/
theorem keepsTo_takenInTurn (h : ¬ Contradictory rows) : KeepsTo rows (takenInTurn rows) := by
  induction rows using takenInTurn.induct with
  | case1 rows a hnext ih =>
      rw [takenInTurn_of_next hnext]
      rw [Contradictory, leftOver_of_next hnext] at h
      exact (ih h).cons hnext
  | case2 rows hnext =>
      rw [Contradictory, leftOver_of_none hnext, not_not] at h
      rw [takenInTurn_of_none hnext]
      refine ⟨List.nodup_nil, fun a => by rw [h], fun row hrow => ?_⟩
      rw [List.flatten_eq_nil_iff.1 h row hrow]

/-! ## If an order keeps to all rows, one of their elements can come next -/

omit [DecidableEq α] in
/-- A row in the order of another one, and with its first element, begins with that element. -/
theorem exists_eq_cons_of_sublist {row : List α} (hnodup : (a :: order).Nodup)
    (hrow : row.Sublist (a :: order)) (ha : a ∈ row) :
    ∃ rest, row = a :: rest ∧ rest.Sublist order := by
  rcases List.sublist_cons_iff.1 hrow with hrow | hrow
  · exact absurd (hrow.subset ha) (List.nodup_cons.1 hnodup).1
  · exact hrow

/-- Rows that keep to one order do not contradict each other: some element comes next. -/
theorem exists_nextOf (hnodup : order.Nodup) (hrows : ∀ row ∈ rows, row.Sublist order)
    (hsome : rows.flatten ≠ []) : ∃ a, nextOf rows = some a := by
  induction order with
  | nil =>
      refine absurd (List.flatten_eq_nil_iff.2 fun row hrow => ?_) hsome
      exact List.sublist_nil.1 (hrows row hrow)
  | cons a order ih =>
      have hnot := (List.nodup_cons.1 hnodup).1
      by_cases hmem : a ∈ rows.flatten
      · -- The first element of the order is the head of every row that has it.
        obtain ⟨row, hrow, ha⟩ := List.mem_flatten.1 hmem
        obtain ⟨rest, rfl, -⟩ := exists_eq_cons_of_sublist hnodup (hrows row hrow) ha
        have htails : ∀ row ∈ rows, a ∉ row.tail := by
          intro row hrow ha
          obtain ⟨rest, rfl, hrest⟩ :=
            exists_eq_cons_of_sublist hnodup (hrows row hrow) (List.mem_of_mem_tail ha)
          exact hnot (hrest.subset ha)
        refine Option.isSome_iff_exists.1 (List.find?_isSome.2 ⟨a, ?_, ?_⟩)
        · exact List.mem_filterMap.2 ⟨a :: rest, hrow, rfl⟩
        · rw [Bool.not_eq_true', List.any_eq_false]
          intro row hrow
          rw [List.contains_iff_mem]
          exact htails row hrow
      · refine ih (List.nodup_cons.1 hnodup).2 fun row hrow => ?_
        rcases List.sublist_cons_iff.1 (hrows row hrow) with hsub | ⟨rest, rfl, -⟩
        · exact hsub
        · exact absurd (List.mem_flatten.2 ⟨_, hrow, List.mem_cons_self⟩) hmem

/-- Rows that stand in one order are not contradictory, whatever has been taken before. -/
theorem not_contradictory_of_sublist (hnodup : order.Nodup)
    (hrows : ∀ row ∈ rows, row.Sublist order) : ¬ Contradictory rows := by
  induction rows using leftOver.induct with
  | case1 rows a hnext ih =>
      rw [Contradictory, leftOver_of_next hnext]
      refine ih fun row' hrow' => ?_
      obtain ⟨row, hrow, rfl⟩ := List.mem_map.1 hrow'
      exact (sublist_dropHead a row).trans (hrows row hrow)
  | case2 rows hnext =>
      rw [Contradictory, leftOver_of_none hnext]
      intro hsome
      obtain ⟨a, ha⟩ := exists_nextOf hnodup hrows hsome
      rw [hnext] at ha
      cases ha

/-- Rows are contradictory if and only if no order keeps to all of them. -/
theorem contradictory_iff : Contradictory rows ↔ ¬ ∃ order, KeepsTo rows order := by
  constructor
  · rintro h ⟨order, horder⟩
    exact not_contradictory_of_sublist horder.nodup horder.sublist h
  · intro h
    by_contra hnot
    exact h ⟨takenInTurn rows, keepsTo_takenInTurn hnot⟩

/-! ## The merged row -/

/-- Where there is nothing to merge, nothing is appended. -/
theorem mergeOrders_nil (taken : List α) : mergeOrders [[]] taken = taken :=
  mergeOrders_of_contradiction rfl

/-- Elements that are all new are appended as they stand. -/
theorem foldl_appendNew_of_disjoint (hnodup : order.Nodup) (htaken : ∀ a ∈ order, a ∉ taken) :
    order.foldl appendNew taken = taken ++ order := by
  induction order generalizing taken with
  | nil => rw [List.foldl_nil, List.append_nil]
  | cons a order ih =>
      obtain ⟨ha, hnodup⟩ := List.nodup_cons.1 hnodup
      have hnew : appendNew taken a = taken ++ [a] := by
        rw [appendNew, if_neg]
        rw [List.contains_iff_mem]
        exact htaken a List.mem_cons_self
      rw [List.foldl_cons, hnew, ih hnodup, List.append_assoc, List.singleton_append]
      intro b hb hmem
      rcases List.mem_append.1 hmem with hmem | hmem
      · exact htaken b (List.mem_cons_of_mem _ hb) hmem
      · exact ha (List.mem_singleton.1 hmem ▸ hb)

/-- Rows that are not contradictory are merged into a row that keeps to them. -/
theorem mergeOrders_of_not_contradictory (htaken : ∀ a ∈ rows.flatten, a ∉ taken)
    (h : ¬ Contradictory rows) : mergeOrders rows taken = taken ++ takenInTurn rows := by
  have hkeeps := keepsTo_takenInTurn h
  rw [Contradictory, not_not] at h
  rw [mergeOrders_eq, h, List.foldl_nil]
  exact foldl_appendNew_of_disjoint hkeeps.nodup fun a ha => htaken a ((hkeeps.mem_iff a).1 ha)

end SolidityAtlas
