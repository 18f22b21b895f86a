import SolidityAtlas.Path.Table

/-!
# Tables by file

A `FileMap` keeps one value for each of some files, in the order of the files'
numbers. So two tables with the same values are the same table.

## Main Definitions

* `FileMap.get?`, `FileMap.keys`: the value of a file, and the files that have one
* `FileMap.insert`, `FileMap.erase`, `FileMap.modify`, with one equation each for `get?`
-/

namespace SolidityAtlas

/-- Values by file. -/
structure FileMap (α : Type) where
  entries : List (FileId × α)
  sorted : entries.Pairwise fun a b => a.1 < b.1

namespace FileMap

variable {α : Type}

/-- The table without values. -/
def empty : FileMap α :=
  ⟨[], .nil⟩

instance : Inhabited (FileMap α) :=
  ⟨empty⟩

/-- The value of a file in a row of entries. -/
def find? (file : FileId) : List (FileId × α) → Option α
  | [] => none
  | e :: es => if file = e.1 then some e.2 else find? file es

/-- The value of a file. -/
def get? (m : FileMap α) (file : FileId) : Option α :=
  find? file m.entries

/-- Whether a file has a value. -/
def contains (m : FileMap α) (file : FileId) : Bool :=
  (m.get? file).isSome

/-- The files that have a value, in ascending order. -/
def keys (m : FileMap α) : List FileId :=
  m.entries.map (·.1)

/-- The values, in the order of their files. -/
def values (m : FileMap α) : List α :=
  m.entries.map (·.2)

/-- Ordered entries with one put into its place. -/
def put (file : FileId) (a : α) : List (FileId × α) → List (FileId × α)
  | [] => [(file, a)]
  | e :: es =>
    if file < e.1 then (file, a) :: e :: es
    else if file = e.1 then (file, a) :: es
    else e :: put file a es

/-- Putting an entry adds no other one. -/
theorem mem_put {file : FileId} {a : α} {es : List (FileId × α)} {e : FileId × α}
    (h : e ∈ put file a es) : e = (file, a) ∨ e ∈ es := by
  induction es with
  | nil => simpa [put] using h
  | cons d es ih =>
    unfold put at h
    split at h
    · simpa using h
    · split at h
      · rcases List.mem_cons.1 h with h | h
        · exact .inl h
        · exact .inr (List.mem_cons_of_mem _ h)
      · rcases List.mem_cons.1 h with h | h
        · exact .inr (h ▸ List.mem_cons_self)
        · exact (ih h).imp_right (List.mem_cons_of_mem _)

/-- An entry is put where its file belongs in the ascending order. -/
theorem pairwise_put (file : FileId) (a : α) {es : List (FileId × α)}
    (h : es.Pairwise fun a b => a.1 < b.1) : (put file a es).Pairwise fun a b => a.1 < b.1 := by
  induction es with
  | nil => simp [put]
  | cons d es ih =>
    have ⟨hd, hes⟩ := List.pairwise_cons.1 h
    unfold put
    split
    · rename_i hlt
      refine List.pairwise_cons.2 ⟨fun e he => ?_, h⟩
      rcases List.mem_cons.1 he with rfl | he
      · exact hlt
      · exact Nat.lt_trans hlt (hd e he)
    · split
      · rename_i heq
        exact List.pairwise_cons.2 ⟨fun e he => heq ▸ hd e he, hes⟩
      · refine List.pairwise_cons.2 ⟨fun e he => ?_, ih hes⟩
        rcases mem_put he with rfl | he
        · exact Nat.lt_of_le_of_ne (Nat.le_of_not_lt ‹_›) (Ne.symm ‹_›)
        · exact hd e he

/-- The table with a value for a file, in place of the one it has. -/
def insert (m : FileMap α) (file : FileId) (a : α) : FileMap α :=
  ⟨put file a m.entries, pairwise_put file a m.sorted⟩

/-- The table without a value for a file. -/
def erase (m : FileMap α) (file : FileId) : FileMap α :=
  ⟨m.entries.filter (·.1 != file), m.sorted.filter _⟩

/-- The table with the value of a file changed, if it has one. -/
def modify (m : FileMap α) (file : FileId) (f : α → α) : FileMap α :=
  ⟨m.entries.map fun e => if e.1 = file then (e.1, f e.2) else e, by
    refine List.pairwise_map.2 (m.sorted.imp fun {a b} h => ?_)
    split <;> split <;> exact h⟩

@[simp] theorem get?_empty (file : FileId) : (empty : FileMap α).get? file = none := rfl

/-- The entry that is put is found, and every other one as before. -/
theorem find?_put (file : FileId) (a : α) (es : List (FileId × α)) (other : FileId) :
    find? other (put file a es) = if other = file then some a else find? other es := by
  induction es with
  | nil => simp [put, find?]
  | cons d es ih => grind [put, find?]

/-- An entry that is taken out is not found, and every other one as before. -/
theorem find?_filter (file : FileId) (es : List (FileId × α)) (other : FileId) :
    find? other (es.filter (·.1 != file)) = if other = file then none else find? other es := by
  induction es with
  | nil => simp [find?]
  | cons d es ih => grind [find?]

/-- An entry that is changed is found as it is now, and every other one as before. -/
theorem find?_map (file : FileId) (f : α → α) (es : List (FileId × α)) (other : FileId) :
    find? other (es.map fun e => if e.1 = file then (e.1, f e.2) else e) =
      if other = file then (find? file es).map f else find? other es := by
  induction es with
  | nil => simp [find?]
  | cons d es ih => grind [find?]

@[simp] theorem get?_insert (m : FileMap α) (file : FileId) (a : α) (other : FileId) :
    (m.insert file a).get? other = if other = file then some a else m.get? other :=
  find?_put file a m.entries other

@[simp] theorem get?_erase (m : FileMap α) (file other : FileId) :
    (m.erase file).get? other = if other = file then none else m.get? other :=
  find?_filter file m.entries other

@[simp] theorem get?_modify (m : FileMap α) (file : FileId) (f : α → α) (other : FileId) :
    (m.modify file f).get? other = if other = file then (m.get? file).map f else m.get? other :=
  find?_map file f m.entries other

end FileMap

end SolidityAtlas
