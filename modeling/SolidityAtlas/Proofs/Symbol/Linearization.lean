import SolidityAtlas.Proofs.Row.Related
import SolidityAtlas.Symbol.Inheritance

/-!
# What is in a linearization

The order in which contracts stand in a linearization is the business of `mergeOrders`.
Here it is only asked which contracts these are: the contract itself, then, each of them
once, those that names of bases lead to. So a linearization can only gain contracts when
more bases are known (`mem_linearize_mono`), and it depends on nothing but the bases of
the contracts in it (`linearize_congr`).

## Main Results

* `mem_mergeOrders`: merging loses nothing and adds nothing
* `Forest.exists_linearize_eq`: a linearization begins with the contract, which is not
  listed again
* `Forest.mem_linearize_mono`, `Forest.linearize_congr`
-/

namespace SolidityAtlas

section Merge

variable {α : Type} [DecidableEq α]

/-- A row without its head lists everything but the head. -/
theorem mem_dropHead {a b : α} {row : List α} (h : b ∈ row) : b = a ∨ b ∈ dropHead a row := by
  unfold dropHead
  cases row with
  | nil => cases h
  | cons c row =>
      split
      · rename_i heq
        rcases List.mem_cons.1 h with rfl | h
        · exact .inl (Option.some.inj heq)
        · exact .inr h
      · exact .inr h

/-- Dropping a head adds nothing. -/
theorem mem_of_mem_dropHead {a b : α} {row : List α} (h : b ∈ dropHead a row) : b ∈ row := by
  unfold dropHead at h
  split at h
  · exact List.mem_of_mem_tail h
  · exact h

/-- Merging loses nothing and adds nothing. -/
theorem mem_mergeOrders {rows : List (List α)} {taken : List α} {b : α} :
    b ∈ mergeOrders rows taken ↔ b ∈ rows.flatten ∨ b ∈ taken := by
  induction rows, taken using mergeOrders.induct with
  | case1 rows taken a hnext ih =>
      rw [mergeOrders_of_next hnext, ih, mem_appendNew]
      have hhead := List.mem_of_find?_eq_some hnext
      obtain ⟨row, hrow, hhead⟩ := List.mem_filterMap.1 hhead
      simp only [List.mem_flatten, dropHeads, List.mem_map, exists_exists_and_eq_and]
      constructor
      · rintro (⟨r, hr, hb⟩ | hb | rfl)
        · exact .inl ⟨r, hr, mem_of_mem_dropHead hb⟩
        · exact .inr hb
        · exact .inl ⟨row, hrow, List.mem_of_head? hhead⟩
      · rintro (⟨r, hr, hb⟩ | hb)
        · rcases mem_dropHead (a := a) hb with heq | hb
          · exact .inr (.inr heq)
          · exact .inl ⟨r, hr, hb⟩
        · exact .inr (.inl hb)
  | case2 rows taken hnext => rw [mergeOrders_of_contradiction hnext, mem_foldl_appendNew]

/-- An addition goes to the end. -/
theorem prefix_appendNew (row : List α) (a : α) : row <+: appendNew row a := by
  unfold appendNew
  split
  · exact List.prefix_refl _
  · exact List.prefix_append _ _

/-- Additions leave the beginning of a row as it is. -/
theorem prefix_foldl_appendNew (row taken : List α) : taken <+: row.foldl appendNew taken := by
  induction row generalizing taken with
  | nil => exact List.prefix_refl _
  | cons a row ih => exact (prefix_appendNew taken a).trans (ih _)

/-- What has been taken is not taken again, and keeps its place. -/
theorem prefix_nodup_mergeOrders (rows : List (List α)) {taken : List α} (h : taken.Nodup) :
    taken <+: mergeOrders rows taken ∧ (mergeOrders rows taken).Nodup := by
  induction rows, taken using mergeOrders.induct with
  | case1 rows taken a hnext ih =>
      rw [mergeOrders_of_next hnext]
      obtain ⟨hbegins, hnodup⟩ := ih (nodup_appendNew a h)
      exact ⟨(prefix_appendNew taken a).trans hbegins, hnodup⟩
  | case2 rows taken hnext =>
      rw [mergeOrders_of_contradiction hnext]
      exact ⟨prefix_foldl_appendNew _ _, nodup_foldl_appendNew _ h⟩

end Merge

namespace Forest

variable {f f' : Forest}

/-- One step of a linearization merges the bases, the last one first, unless the path runs in a
circle. -/
theorem linearizeWithin_succ (f : Forest) (steps : Nat) (path : List Handle) (c : Handle) :
    f.linearizeWithin (steps + 1) path c =
      if path.contains c then [c]
      else mergeOrders ((f.bases c).reverse.map (f.linearizeWithin steps (c :: path)) ++
        [(f.bases c).reverse]) [c] := rfl

/-- What one step lists: the contract, its bases, and what their linearizations list. -/
theorem mem_linearizeWithin_succ {steps : Nat} {path : List Handle} {b c : Handle} :
    b ∈ f.linearizeWithin (steps + 1) path c ↔ b = c ∨ path.contains c = false ∧
      ((∃ x ∈ f.bases c, b ∈ f.linearizeWithin steps (c :: path) x) ∨ b ∈ f.bases c) := by
  rw [linearizeWithin_succ]
  split
  · rename_i hpath
    rw [List.mem_singleton, hpath]
    simp
  · rename_i hpath
    rw [mem_mergeOrders]
    simp only [Bool.not_eq_true] at hpath
    simp only [List.flatten_append, List.mem_append, List.mem_flatten, List.mem_map, List.mem_reverse,
      exists_exists_and_eq_and, List.mem_singleton, exists_eq_left, hpath, true_and]
    exact or_comm

/-- A linearization begins with the contract, which is not listed again. -/
theorem exists_linearizeWithin_eq (f : Forest) (steps : Nat) (path : List Handle) (c : Handle) :
    ∃ row, f.linearizeWithin steps path c = c :: row ∧ c ∉ row := by
  cases steps with
  | zero => exact ⟨[], rfl, List.not_mem_nil⟩
  | succ steps =>
      rw [linearizeWithin_succ]
      split
      · exact ⟨[], rfl, List.not_mem_nil⟩
      · obtain ⟨⟨row, hrow⟩, hnodup⟩ := prefix_nodup_mergeOrders ((f.bases c).reverse.map
          (f.linearizeWithin steps (c :: path)) ++ [(f.bases c).reverse]) (List.pairwise_singleton _ c)
        rw [← hrow] at hnodup ⊢
        exact ⟨row, rfl, (List.nodup_cons.1 hnodup).1⟩

/-- A linearization begins with its contract, and lists it only there. -/
theorem exists_linearize_eq (f : Forest) (maxDepth : Nat) (c : Handle) :
    ∃ row, f.linearize maxDepth c = c :: row ∧ c ∉ row :=
  f.exists_linearizeWithin_eq maxDepth [] c

/-- What a linearization lists beside the contract are bases of what it lists. -/
theorem exists_of_mem_linearizeWithin {steps : Nat} {path : List Handle} {b c : Handle}
    (h : b ∈ f.linearizeWithin steps path c) :
    b = c ∨ ∃ x ∈ f.linearizeWithin steps path c, b ∈ f.bases x := by
  induction steps generalizing path c with
  | zero => exact .inl (List.mem_singleton.1 h)
  | succ steps ih =>
      rcases mem_linearizeWithin_succ.1 h with heq | ⟨hpath, ⟨x, hx, hb⟩ | hb⟩
      · exact .inl heq
      · rcases ih hb with rfl | ⟨y, hy, hb⟩
        · exact .inr ⟨c, mem_linearizeWithin_succ.2 (.inl rfl), hx⟩
        · exact .inr ⟨y, mem_linearizeWithin_succ.2 (.inr ⟨hpath, .inl ⟨x, hx, hy⟩⟩), hb⟩
      · exact .inr ⟨c, mem_linearizeWithin_succ.2 (.inl rfl), hb⟩

/-- Only contracts are bases. -/
theorem kind?_of_mem_bases {b c : Handle} (h : b ∈ f.bases c) :
    f.kind? b = some .contractDefinition :=
  eq_of_beq (List.mem_filter.1 h).2

/-- If more bases are known, no contract is lost from a linearization. -/
theorem mem_linearizeWithin_mono (hbases : ∀ b c, b ∈ f.bases c → b ∈ f'.bases c) {steps : Nat}
    {path : List Handle} {b c : Handle} (h : b ∈ f.linearizeWithin steps path c) :
    b ∈ f'.linearizeWithin steps path c := by
  induction steps generalizing path c with
  | zero => exact h
  | succ steps ih =>
      rcases mem_linearizeWithin_succ.1 h with heq | ⟨hpath, ⟨x, hx, hb⟩ | hb⟩
      · exact mem_linearizeWithin_succ.2 (.inl heq)
      · exact mem_linearizeWithin_succ.2 (.inr ⟨hpath, .inl ⟨x, hbases x c hx, ih hb⟩⟩)
      · exact mem_linearizeWithin_succ.2 (.inr ⟨hpath, .inr (hbases b c hb)⟩)

/-- More bases make longer linearizations. -/
theorem mem_linearize_mono (hbases : ∀ b c, b ∈ f.bases c → b ∈ f'.bases c) {maxDepth : Nat}
    {b c : Handle} (h : b ∈ f.linearize maxDepth c) : b ∈ f'.linearize maxDepth c :=
  mem_linearizeWithin_mono hbases h

/-- A linearization depends on the bases of what it lists. -/
theorem linearizeWithin_congr {steps : Nat} {path : List Handle} {c : Handle}
    (hbases : ∀ b ∈ f.linearizeWithin steps path c, f'.bases b = f.bases b) :
    f'.linearizeWithin steps path c = f.linearizeWithin steps path c := by
  induction steps generalizing path c with
  | zero => rfl
  | succ steps ih =>
      have hc := hbases c (mem_linearizeWithin_succ.2 (.inl rfl))
      rw [linearizeWithin_succ, linearizeWithin_succ, hc]
      split
      · rfl
      · rename_i hpath
        rw [List.map_congr_left fun x hx => ih fun b hb => hbases b (mem_linearizeWithin_succ.2
          (.inr ⟨Bool.eq_false_iff.2 hpath, .inl ⟨x, List.mem_reverse.1 hx, hb⟩⟩))]

/-- A linearization depends on the bases of the contracts it lists. -/
theorem linearize_congr {maxDepth : Nat} {c : Handle}
    (hbases : ∀ b ∈ f.linearize maxDepth c, f'.bases b = f.bases b) :
    f'.linearize maxDepth c = f.linearize maxDepth c :=
  linearizeWithin_congr hbases

end Forest

end SolidityAtlas
