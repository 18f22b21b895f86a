import Mathlib.Data.List.Forall2
import SolidityAtlas.Symbol.Merge

/-!
# Rows that are related element by element

Two look-ups that go the same way through related data give related answers. The
rows met on the way are compared by `List.Forall₂` and the answers by `Option.Rel`.
Both come with the laws of `map`, `filter` and `append`; this file adds the searches
(`find?`, `findSome?`), the steps of an optional computation, and the merging of
orders, which compares elements and so needs a relation that is one to one.

## Main Results

* `List.Forall₂.find?_rel`, `List.Forall₂.findSome?_rel`: searches through related rows
* `Option.Rel.bind`, `Option.Rel.or`, `Option.Rel.filter`: steps of an optional computation
* `related_mergeOrders`: related rows have related mergers
-/

/-! ## Optional values -/

namespace Option.Rel

variable {α β γ δ : Type} {R : α → β → Prop} {S : γ → δ → Prop}

theorem isSome_eq {a : Option α} {b : Option β} (h : Option.Rel R a b) : a.isSome = b.isSome := by
  cases h <;> rfl

theorem isNone_eq {a : Option α} {b : Option β} (h : Option.Rel R a b) : a.isNone = b.isNone := by
  cases h <;> rfl

/-- A value on the left has a related one on the right. -/
theorem eq_none {b : Option β} (h : Option.Rel R Option.none b) : b = Option.none := by
  cases h
  rfl

/-- What is there has something related on the other side. -/
theorem exists_right {a : Option α} {b : Option β} {x : α} (h : Option.Rel R a b)
    (ha : a = Option.some x) : ∃ y, b = Option.some y ∧ R x y := by
  subst ha
  cases h with
  | some hxy => exact ⟨_, rfl, hxy⟩

/-- A weaker relation holds as well. -/
theorem imp {a : Option α} {b : Option β} {R' : α → β → Prop} (h : Option.Rel R a b)
    (hR : ∀ x y, R x y → R' x y) : Option.Rel R' a b := by
  cases h with
  | none => exact .none
  | some hxy => exact .some (hR _ _ hxy)

/-- What the two answers are may be used to relate them otherwise. -/
theorem imp_some {a : Option α} {b : Option β} {R' : α → β → Prop} (h : Option.Rel R a b)
    (himp : ∀ x y, a = Option.some x → b = Option.some y → R x y → R' x y) : Option.Rel R' a b := by
  cases h with
  | none => exact .none
  | some hxy => exact .some (himp _ _ rfl rfl hxy)

/-- An answer is related to itself if it is so whatever it is. -/
theorem self {a : Option α} {T : α → α → Prop} (hT : ∀ x, a = Option.some x → T x x) :
    Option.Rel T a a := by
  cases a with
  | none => exact .none
  | some x => exact .some (hT x rfl)

/-- Relations between answers compose. -/
theorem comp {a : Option α} {b : Option β} {c : Option γ} {S : β → γ → Prop} {T : α → γ → Prop}
    (h : Option.Rel R a b) (h' : Option.Rel S b c) (hT : ∀ x y z, R x y → S y z → T x z) :
    Option.Rel T a c := by
  cases h with
  | none =>
      cases h' with
      | none => exact .none
  | some hxy =>
      cases h' with
      | some hyz => exact .some (hT _ _ _ hxy hyz)

/-- Two relations hold together. -/
theorem and {a : Option α} {b : Option β} {R' : α → β → Prop} (h : Option.Rel R a b)
    (h' : Option.Rel R' a b) : Option.Rel (fun x y => R x y ∧ R' x y) a b := by
  cases h with
  | none => exact .none
  | some hxy =>
      cases h' with
      | some hxy' => exact .some ⟨hxy, hxy'⟩

theorem flip {a : Option α} {b : Option β} (h : Option.Rel R a b) :
    Option.Rel (fun y x => R x y) b a := by
  cases h with
  | none => exact .none
  | some hxy => exact .some hxy

theorem bind {a : Option α} {b : Option β} {f : α → Option γ} {g : β → Option δ}
    (h : Option.Rel R a b) (hfg : ∀ x y, R x y → Option.Rel S (f x) (g y)) :
    Option.Rel S (a.bind f) (b.bind g) := by
  cases h with
  | none => exact .none
  | some hxy => exact hfg _ _ hxy

theorem map {a : Option α} {b : Option β} {f : α → γ} {g : β → δ}
    (h : Option.Rel R a b) (hfg : ∀ x y, R x y → S (f x) (g y)) :
    Option.Rel S (a.map f) (b.map g) := by
  cases h with
  | none => exact .none
  | some hxy => exact .some (hfg _ _ hxy)

/-- What is related to an answer may be changed as long as it stays related. -/
theorem map_right {a : Option α} {b : Option β} {g : β → γ} {T : α → γ → Prop}
    (h : Option.Rel R a b) (hg : ∀ x y, a = Option.some x → R x y → T x (g y)) :
    Option.Rel T a (b.map g) := by
  cases h with
  | none => exact .none
  | some hxy => exact .some (hg _ _ rfl hxy)

/-- Related answers that look alike under two functions have one image. -/
theorem map_eq {a : Option α} {b : Option β} {f : α → γ} {g : β → γ} (h : Option.Rel R a b)
    (hfg : ∀ x y, R x y → f x = g y) : a.map f = b.map g := by
  cases h with
  | none => rfl
  | some hxy => exact congrArg Option.some (hfg _ _ hxy)

/-- Related answers from which the same is computed give the same. -/
theorem bind_eq {a : Option α} {b : Option β} {f : α → Option γ} {g : β → Option γ}
    (h : Option.Rel R a b) (hfg : ∀ x y, R x y → f x = g y) : a.bind f = b.bind g := by
  cases h with
  | none => rfl
  | some hxy => exact hfg _ _ hxy

theorem or {a a' : Option α} {b b' : Option β} (h : Option.Rel R a b) (h' : Option.Rel R a' b') :
    Option.Rel R (a.or a') (b.or b') := by
  cases h with
  | none => simpa using h'
  | some hxy => exact .some hxy

theorem filter {a : Option α} {b : Option β} {p : α → Bool} {q : β → Bool}
    (h : Option.Rel R a b) (hpq : ∀ x y, R x y → p x = q y) :
    Option.Rel R (a.filter p) (b.filter q) := by
  cases h with
  | none => exact .none
  | @some x y hxy =>
      rw [Option.filter_some, Option.filter_some, hpq x y hxy]
      cases q y with
      | true => exact .some hxy
      | false => exact .none

theorem any_eq {a : Option α} {b : Option β} {p : α → Bool} {q : β → Bool}
    (h : Option.Rel R a b) (hpq : ∀ x y, R x y → p x = q y) : a.any p = b.any q := by
  cases h with
  | none => rfl
  | some hxy => exact hpq _ _ hxy

theorem getD {a : Option α} {b : Option β} {x : α} {y : β} (h : Option.Rel R a b)
    (hxy : R x y) : R (a.getD x) (b.getD y) := by
  cases h with
  | none => exact hxy
  | some hab => exact hab

theorem toList {a : Option α} {b : Option β} (h : Option.Rel R a b) :
    List.Forall₂ R a.toList b.toList := by
  cases h with
  | none => exact .nil
  | some hxy => exact .cons hxy .nil

end Option.Rel

/-! ## Rows -/

namespace List.Forall₂

variable {α β γ δ : Type} {R : α → β → Prop} {S : γ → δ → Prop} {l : List α} {m : List β}

/-- Related rows start with related elements. -/
theorem head?_rel (h : Forall₂ R l m) : Option.Rel R l.head? m.head? := by
  cases h with
  | nil => exact .none
  | cons hab _ => exact .some hab

theorem tail_rel (h : Forall₂ R l m) : Forall₂ R l.tail m.tail := by
  cases h with
  | nil => exact .nil
  | cons _ hlm => exact hlm

/-- Related rows have related elements at the same place. -/
theorem getElem?_rel (h : Forall₂ R l m) (i : Nat) : Option.Rel R l[i]? m[i]? := by
  induction h generalizing i with
  | nil => exact .none
  | cons hab _ ih =>
      cases i with
      | zero => exact .some hab
      | succ i => exact ih i

/-- Tests that agree on related elements pass related parts of related rows. -/
theorem filter_rel {p : α → Bool} {q : β → Bool} (h : Forall₂ R l m)
    (hpq : ∀ a b, R a b → p a = q b) : Forall₂ R (l.filter p) (m.filter q) :=
  rel_filter (fun a b hab => by simp [hpq a b hab]) h

/-- The first elements of a kind are related. -/
theorem find?_rel {p : α → Bool} {q : β → Bool} (h : Forall₂ R l m)
    (hpq : ∀ a b, R a b → p a = q b) : Option.Rel R (l.find? p) (m.find? q) := by
  rw [← List.head?_filter, ← List.head?_filter]
  exact (h.filter_rel hpq).head?_rel

/-- What is found first is related. -/
theorem findSome?_rel {f : α → Option γ} {g : β → Option δ} (h : Forall₂ R l m)
    (hfg : ∀ a b, R a b → Option.Rel S (f a) (g b)) :
    Option.Rel S (l.findSome? f) (m.findSome? g) := by
  induction h with
  | nil => exact .none
  | @cons a b l m hab _ ih =>
      rw [List.findSome?_cons, List.findSome?_cons]
      have hfab := hfg a b hab
      generalize f a = c at hfab
      generalize g b = d at hfab
      cases hfab with
      | none => exact ih
      | some hcd => exact .some hcd

/-- Elements that are related to one another are found at the same places. -/
theorem contains_eq [BEq α] [LawfulBEq α] [BEq β] [LawfulBEq β] (h : Forall₂ R l m)
    (hR : Relator.BiUnique R) {a : α} {b : β} (hab : R a b) : l.contains a = m.contains b := by
  have hmem : a ∈ l ↔ b ∈ m := rel_mem hR hab h
  rw [Bool.eq_iff_iff, List.contains_iff_mem, List.contains_iff_mem, hmem]

/-- A search whose answers agree finds the same things along one row. -/
theorem filterMap_rel {f : α → Option γ} {g : α → Option δ}
    (hfg : ∀ a, Option.Rel S (f a) (g a)) (row : List α) :
    Forall₂ S (row.filterMap f) (row.filterMap g) := by
  refine rel_filterMap (R := Eq) ?_ (by rw [forall₂_eq_eq_eq])
  rintro a _ rfl
  exact hfg a

end List.Forall₂

/-- Answers that carry the elements they are for carry them in their order. -/
theorem List.map_fst_filterMap_sublist {α β : Type} {f : α → Option (α × β)}
    (hf : ∀ a b, f a = some b → b.1 = a) (row : List α) :
    ((row.filterMap f).map (·.1)).Sublist row := by
  induction row with
  | nil => exact List.Sublist.refl _
  | cons a row ih =>
      rw [List.filterMap_cons]
      cases hb : f a with
      | none => exact ih.cons _
      | some b =>
          rw [List.map_cons, hf a b hb]
          exact ih.cons_cons _

/-- A search depends on what it finds for the elements of the row only. -/
theorem List.findSome?_congr_left {α β : Type} {row : List α} {f g : α → Option β}
    (h : ∀ a ∈ row, f a = g a) : row.findSome? f = row.findSome? g := by
  induction row with
  | nil => rfl
  | cons a row ih =>
      rw [List.findSome?_cons, List.findSome?_cons, h a List.mem_cons_self,
        ih fun b hb => h b (List.mem_cons_of_mem _ hb)]

/-! ## Merged orders -/

namespace SolidityAtlas

variable {α β : Type} [DecidableEq α] [DecidableEq β] {R : α → β → Prop}

/-- Additions keep rows related, if no element is related to two. -/
theorem related_appendNew (hR : Relator.BiUnique R) {l : List α} {m : List β} {a : α} {b : β}
    (h : List.Forall₂ R l m) (hab : R a b) :
    List.Forall₂ R (appendNew l a) (appendNew m b) := by
  unfold appendNew
  rw [h.contains_eq hR hab]
  split
  · exact h
  · exact List.rel_append h (.cons hab .nil)

/-- Dropping a head keeps rows related, if no element is related to two. -/
theorem related_dropHead (hR : Relator.BiUnique R) {l : List α} {m : List β} {a : α} {b : β}
    (h : List.Forall₂ R l m) (hab : R a b) :
    List.Forall₂ R (dropHead a l) (dropHead b m) := by
  cases h with
  | nil => exact .nil
  | @cons a' b' l m hab' hlm =>
      have hheads : a' = a ↔ b' = b := Relator.rel_eq hR hab' hab
      unfold dropHead
      simp only [List.head?_cons, Option.some.injEq, hheads, List.tail_cons]
      split
      · exact hlm
      · exact .cons hab' hlm

/-- The next element is chosen alike in related rows. -/
theorem related_nextOf (hR : Relator.BiUnique R) {rows : List (List α)} {rows' : List (List β)}
    (h : List.Forall₂ (List.Forall₂ R) rows rows') :
    Option.Rel R (nextOf rows) (nextOf rows') := by
  unfold nextOf
  have hheads : List.Forall₂ R (rows.filterMap List.head?) (rows'.filterMap List.head?) :=
    List.rel_filterMap (fun _ _ hrow => hrow.head?_rel) h
  refine hheads.find?_rel fun a b hab => ?_
  have hany : ∀ {rs : List (List α)} {rs' : List (List β)},
      List.Forall₂ (List.Forall₂ R) rs rs' →
        rs.any (·.tail.contains a) = rs'.any (·.tail.contains b) := by
    intro rs rs' hrs
    induction hrs with
    | nil => rfl
    | cons hrow _ ih => rw [List.any_cons, List.any_cons, hrow.tail_rel.contains_eq hR hab, ih]
  rw [hany h]

/-- A merge goes on with the element that comes next. -/
theorem mergeOrders_of_next {rows : List (List α)} {taken : List α} {a : α}
    (h : nextOf rows = some a) :
    mergeOrders rows taken = mergeOrders (dropHeads a rows) (appendNew taken a) := by
  rw [mergeOrders]
  split
  · rename_i b hb
    rw [h] at hb
    cases hb
    rfl
  · rename_i hnone
    rw [h] at hnone
    cases hnone

/-- A merge that contradicts itself takes what is left, row by row. -/
theorem mergeOrders_of_contradiction {rows : List (List α)} {taken : List α}
    (h : nextOf rows = none) : mergeOrders rows taken = rows.flatten.foldl appendNew taken := by
  rw [mergeOrders]
  split
  · rename_i b hb
    rw [h] at hb
    cases hb
  · rfl

/-- Rows that are related one to one have related mergers: merging only asks which
elements are equal. -/
theorem related_mergeOrders (hR : Relator.BiUnique R) (rows : List (List α)) (taken : List α)
    {rows' : List (List β)} {taken' : List β}
    (h : List.Forall₂ (List.Forall₂ R) rows rows') (ht : List.Forall₂ R taken taken') :
    List.Forall₂ R (mergeOrders rows taken) (mergeOrders rows' taken') := by
  induction rows, taken using mergeOrders.induct generalizing rows' taken' with
  | case1 rows taken a hnext ih =>
      obtain ⟨b, hnext', hab⟩ := (related_nextOf hR h).exists_right hnext
      have hdrop : List.Forall₂ (List.Forall₂ R) (dropHeads a rows) (dropHeads b rows') :=
        List.rel_map (fun _ _ hrow => related_dropHead hR hrow hab) h
      rw [mergeOrders_of_next hnext, mergeOrders_of_next hnext']
      exact ih hdrop (related_appendNew hR ht hab)
  | case2 rows taken hnext =>
      have hnext' : nextOf rows' = none := by
        have := (related_nextOf hR h).isNone_eq
        simpa [hnext] using this.symm
      rw [mergeOrders_of_contradiction hnext, mergeOrders_of_contradiction hnext']
      have hstep : ∀ ⦃l : List α⦄ ⦃m : List β⦄, List.Forall₂ R l m → ∀ ⦃a : α⦄ ⦃b : β⦄, R a b →
          List.Forall₂ R (appendNew l a) (appendNew m b) :=
        fun _ _ hl _ _ hab => related_appendNew hR hl hab
      exact List.rel_foldl hstep ht (List.rel_flatten h)

end SolidityAtlas
