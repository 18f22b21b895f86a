import SolidityAtlas.Proofs.Workspace.Agreement

/-!
# Depth-first search

A walk through the imports visits each file once. The plain depth-first order does not know what
has been visited: it goes into a file wherever it comes to one, unless it is on its way into this
very file (`depthFirst`). What is found first is the same in both (`searched_walk`).

For when a walk passes by a file because it has been there, then either it is on its way into this
file, or it has seen all behind it. In the second case nothing has been found behind this file.
Something there can have been passed by, too, but then it had been visited or is on the way. So
what has been visited and left gives no answer, and it leads only to what has been visited. This
is what the search keeps (`Barren`).

## Main Definitions

* `Snapshot.depthFirst`: the places behind a place, depth first
* `Snapshot.unvisited`: the files that a walk has not come to
* `Snapshot.Barren`: what has been visited has given no answer

## Main Results

* `Snapshot.searched_walk`
-/

namespace SolidityAtlas

namespace Snapshot

variable {s : Snapshot} {file : FileId} {t : SymbolTree} {free fresh : List FileId} {stop : Stop}
  {stops : List Stop}

/-! ## Depth-first order -/

/-- A file that is passed leaves fewer of them. -/
theorem length_erase_lt (hmem : file ∈ free) : (free.erase file).length < free.length := by
  rw [List.length_erase_of_mem hmem]
  exact Nat.sub_lt (List.length_pos_of_mem hmem) Nat.one_pos

/-- The places behind a place, each file before its imports, and these in the order of the text,
each to its end before the next. Of the files only those in `free` are gone into, and those on the
way are not free. -/
def depthFirst (s : Snapshot) (free : List FileId) (stop : Stop) : List Stop :=
  match stop with
  | .directive _ _ => [stop]
  | .file file =>
    if _h : file ∈ free then
      match s.tree? file with
      | some t => stop :: (s.stopsOf t).flatMap (s.depthFirst (free.erase file))
      | none => []
    else []
termination_by free.length
decreasing_by exact length_erase_lt _h

/-- A directive leads nowhere else. -/
theorem depthFirst_directive {directive : NodeId} :
    s.depthFirst free (.directive file directive) = [.directive file directive] := by
  rw [depthFirst]

/-- An installed file comes first, and then what its stops lead to. -/
theorem depthFirst_installed (hmem : file ∈ free) (ht : s.tree? file = some t) :
    s.depthFirst free (.file file) =
      .file file :: (s.stopsOf t).flatMap (s.depthFirst (free.erase file)) := by
  rw [depthFirst, dif_pos hmem, ht]

/-- A file that has been passed is not passed again. -/
theorem depthFirst_taken (hmem : file ∉ free) : s.depthFirst free (.file file) = [] := by
  rw [depthFirst, dif_neg hmem]

/-! ## What a walk leaves unvisited -/

/-- The files that a walk has not come to. -/
def unvisited (s : Snapshot) (fresh : List FileId) (stops : List Stop) : List FileId :=
  fresh.filter fun file => Stop.file file ∉ s.walk fresh stops

/-- What is unvisited has been so before. -/
theorem unvisited_subset : s.unvisited fresh stops ⊆ fresh :=
  List.filter_subset_self _

theorem nodup_unvisited (hfresh : fresh.Nodup) : (s.unvisited fresh stops).Nodup :=
  hfresh.filter _

theorem length_unvisited_le : (s.unvisited fresh stops).length ≤ fresh.length :=
  List.length_filter_le _ _

theorem unvisited_nil : s.unvisited fresh [] = fresh := by
  simp [unvisited, walk]

theorem unvisited_directive {directive : NodeId} :
    s.unvisited fresh (.directive file directive :: stops) = s.unvisited fresh stops := by
  rw [unvisited, unvisited, walk]
  simp

/-- A file that has been visited leaves the others unvisited. -/
theorem unvisited_stale (hmem : file ∉ fresh) :
    s.unvisited fresh (.file file :: stops) = s.unvisited fresh stops := by
  rw [unvisited, unvisited, walk, dif_neg hmem]

/-- An installed file is visited, and then its stops are. -/
theorem unvisited_installed (hfresh : fresh.Nodup) (hmem : file ∈ fresh) (ht : s.tree? file = some t) :
    s.unvisited fresh (.file file :: stops) =
      s.unvisited (fresh.erase file) (s.stopsOf t ++ stops) := by
  rw [unvisited, unvisited, walk_installed hmem ht, hfresh.erase_eq_filter, List.filter_filter]
  refine List.filter_congr fun other _ => ?_
  by_cases heq : other = file <;> simp [heq]

/-- A walk from places and then from others goes on where it has not been. -/
theorem walk_append (hfresh : fresh.Nodup) (hinstalled : ∀ file ∈ fresh, file ∈ s.installed)
    (rest : List Stop) :
    s.walk fresh (stops ++ rest) = s.walk fresh stops ++ s.walk (s.unvisited fresh stops) rest := by
  induction fresh, stops using walk.induct s with
  | case1 fresh =>
      rw [unvisited_nil, List.nil_append, walk, List.nil_append]
  | case2 fresh file directive stops ih =>
      rw [List.cons_append, walk, walk, unvisited_directive, ih hfresh hinstalled, List.cons_append]
  | case3 fresh file stops hmem t ht ih =>
      rw [List.cons_append, walk_installed hmem ht, walk_installed hmem ht,
        unvisited_installed hfresh hmem ht, ← List.append_assoc,
        ih (hfresh.erase file) fun other hother => hinstalled other (List.mem_of_mem_erase hother),
        List.cons_append]
  | case4 fresh file stops hmem ht ih =>
      have hsome := mem_installed_iff.1 (hinstalled file hmem)
      rw [ht] at hsome
      cases hsome
  | case5 fresh file stops hmem ih =>
      rw [List.cons_append, walk, walk, dif_neg hmem, dif_neg hmem, unvisited_stale hmem,
        ih hfresh hinstalled]

/-- Stops are visited one row after the other. -/
theorem unvisited_append (hfresh : fresh.Nodup) (hinstalled : ∀ file ∈ fresh, file ∈ s.installed)
    (rest : List Stop) :
    s.unvisited fresh (stops ++ rest) = s.unvisited (s.unvisited fresh stops) rest := by
  generalize hleft : s.unvisited fresh stops = left
  have hwalk : s.walk fresh (stops ++ rest) = s.walk fresh stops ++ s.walk left rest :=
    hleft ▸ walk_append hfresh hinstalled rest
  calc s.unvisited fresh (stops ++ rest)
      = fresh.filter fun file => Stop.file file ∉ s.walk fresh stops ++ s.walk left rest := by
        rw [unvisited, hwalk]
    _ = (s.unvisited fresh stops).filter fun file => Stop.file file ∉ s.walk left rest := by
        rw [unvisited, List.filter_filter]
        refine List.filter_congr fun file _ => ?_
        rw [Bool.and_comm]
        simp
    _ = s.unvisited left rest := by rw [hleft, unvisited]

/-! ## What the search keeps -/

section Search

variable {α : Type} {answer : Stop → Option α}

/-- Nothing more is to be found at a place: it has been visited, and has given no answer unless it
is a file. -/
def Spent (answer : Stop → Option α) (fresh : List FileId) : Stop → Prop
  | .file file => file ∉ fresh
  | .directive file directive => answer (.directive file directive) = none

/-- Those of the files `free` that are not fresh any more have given no answer, and lead only to what
is spent. -/
def Barren (s : Snapshot) (answer : Stop → Option α) (free fresh : List FileId) : Prop :=
  ∀ file ∈ free, file ∉ fresh → ∀ t, s.tree? file = some t →
    answer (.file file) = none ∧ ∀ stop ∈ s.stopsOf t, Spent answer fresh stop

/-- What is spent stays so when fewer files are left. -/
theorem Spent.mono {fresh' : List FileId} (h : Spent answer fresh stop) (hsub : fresh' ⊆ fresh) :
    Spent answer fresh' stop := by
  cases stop with
  | file file => exact fun hmem => h (hsub hmem)
  | directive file directive => exact h

/-- Before anything has been visited there is nothing to keep. -/
theorem barren_self (fresh : List FileId) : s.Barren answer fresh fresh :=
  fun _ hmem hnot => absurd hmem hnot

/-- On the way into a file all is kept for what is not on the way. -/
theorem Barren.descend (h : s.Barren answer free fresh) (hfree : free.Nodup) (hfresh : fresh.Nodup)
    (file : FileId) : s.Barren answer (free.erase file) (fresh.erase file) := by
  intro other hother hnot u hu
  obtain ⟨hne, hmem⟩ := hfree.mem_erase_iff.1 hother
  obtain ⟨hnone, hspent⟩ := h other hmem
    (fun hfresh' => hnot (hfresh.mem_erase_iff.2 ⟨hne, hfresh'⟩)) u hu
  exact ⟨hnone, fun stop hstop => (hspent stop hstop).mono List.erase_subset⟩

/-- Back from a file in which nothing was found. -/
theorem Barren.ascend (hfree : free.Nodup) (ht : s.tree? file = some t)
    (h : s.Barren answer (free.erase file) fresh) (hnone : answer (.file file) = none)
    (hspent : ∀ stop ∈ s.stopsOf t, Spent answer fresh stop) : s.Barren answer free fresh := by
  intro other hother hnot u hu
  by_cases heq : other = file
  · subst heq
    obtain rfl : t = u := Option.some.inj (ht.symm.trans hu)
    exact ⟨hnone, hspent⟩
  · exact h other (hfree.mem_erase_iff.2 ⟨heq, hother⟩) hnot u hu

/-- In depth-first order, too, there is no answer behind what is spent. -/
theorem Barren.findSome?_depthFirst (h : s.Barren answer free fresh) (hspent : Spent answer fresh stop)
    {free' : List FileId} (hsub : free' ⊆ free) : (s.depthFirst free' stop).findSome? answer = none := by
  induction hn : free'.length using Nat.strongRecOn generalizing free' stop with
  | ind n ih =>
    subst hn
    cases stop with
    | directive file directive =>
        rw [depthFirst_directive, List.findSome?_singleton]
        exact hspent
    | file file =>
        by_cases hmem : file ∈ free'
        · cases ht : s.tree? file with
          | none =>
              rw [depthFirst, dif_pos hmem, ht]
              rfl
          | some t =>
              obtain ⟨hnone, hbehind⟩ := h file (hsub hmem) hspent t ht
              rw [depthFirst_installed hmem ht, List.findSome?_cons, hnone,
                List.findSome?_eq_none_iff]
              intro place hplace
              obtain ⟨next, hnext, hplace⟩ := List.mem_flatMap.1 hplace
              exact List.findSome?_eq_none_iff.1 (ih _ (length_erase_lt hmem) (hbehind next hnext)
                (List.Subset.trans List.erase_subset hsub) rfl) place hplace
        · rw [depthFirst_taken hmem]
          rfl

/-- A walk gives the first answer in depth-first order, and if there is none, it leaves behind only what
is spent. -/
structure Searched (s : Snapshot) (answer : Stop → Option α) (free fresh : List FileId)
    (stops : List Stop) : Prop where
  first : (s.walk fresh stops).findSome? answer =
    (stops.flatMap (s.depthFirst free)).findSome? answer
  barren : (s.walk fresh stops).findSome? answer = none → s.Barren answer free (s.unvisited fresh stops)
  spent : (s.walk fresh stops).findSome? answer = none →
    ∀ stop ∈ stops, Spent answer (s.unvisited fresh stops) stop

namespace Searched

/-- A search without stops finds nothing. -/
theorem nil (h : s.Barren answer free fresh) : s.Searched answer free fresh [] := by
  refine ⟨by rw [walk]; rfl, fun _ => ?_, fun _ _ hstop => absurd hstop List.not_mem_nil⟩
  rwa [unvisited_nil]

/-- A directive that offers nothing does not change a search. -/
theorem directive (h : s.Searched answer free fresh stops) (file : FileId) (directive : NodeId) :
    s.Searched answer free fresh (.directive file directive :: stops) := by
  have hwalk : (s.walk fresh (.directive file directive :: stops)).findSome? answer =
      (answer (.directive file directive)).or ((s.walk fresh stops).findSome? answer) := by
    rw [walk, ← List.singleton_append, List.findSome?_append, List.findSome?_singleton]
  refine ⟨?_, fun hnone => ?_, fun hnone => ?_⟩
  · rw [hwalk, h.first, List.flatMap_cons, depthFirst_directive, List.findSome?_append,
      List.findSome?_singleton]
  · rw [unvisited_directive]
    exact h.barren (Option.or_eq_none_iff.1 (hwalk ▸ hnone)).2
  · obtain ⟨hfirst, hrest⟩ := Option.or_eq_none_iff.1 (hwalk ▸ hnone)
    rw [unvisited_directive]
    exact List.forall_mem_cons.2 ⟨hfirst, h.spent hrest⟩

/-- A file that has been visited is passed by. -/
theorem stale (h : s.Searched answer free fresh stops) (hbarren : s.Barren answer free fresh)
    (hmem : file ∉ fresh) : s.Searched answer free fresh (.file file :: stops) := by
  have hwalk : s.walk fresh (.file file :: stops) = s.walk fresh stops := by
    rw [walk, dif_neg hmem]
  have hspent : Spent answer fresh (.file file) := hmem
  have hpassed := hbarren.findSome?_depthFirst hspent (List.Subset.refl _)
  refine ⟨?_, fun hnone => ?_, fun hnone => ?_⟩
  · rw [hwalk, h.first, List.flatMap_cons, List.findSome?_append, hpassed, Option.none_or]
  · rw [unvisited_stale hmem]
    exact h.barren (hwalk ▸ hnone)
  · rw [unvisited_stale hmem]
    exact List.forall_mem_cons.2 ⟨fun hmem' => hmem (unvisited_subset hmem'), h.spent (hwalk ▸ hnone)⟩

/-- A fresh file is searched, then what is behind it, and then the rest with what has been left. -/
theorem installed (hfree : free.Nodup) (hfresh : fresh.Nodup)
    (hinstalled : ∀ file ∈ fresh, file ∈ s.installed) (hsub : fresh ⊆ free) (hmem : file ∈ fresh)
    (ht : s.tree? file = some t)
    (hinside : s.Searched answer (free.erase file) (fresh.erase file) (s.stopsOf t))
    (hbehind : s.Barren answer free (s.unvisited (fresh.erase file) (s.stopsOf t)) →
      s.Searched answer free (s.unvisited (fresh.erase file) (s.stopsOf t)) stops) :
    s.Searched answer free fresh (.file file :: stops) := by
  have hinstalled' : ∀ other ∈ fresh.erase file, other ∈ s.installed := fun other hother =>
    hinstalled other (List.mem_of_mem_erase hother)
  have hfresh' := hfresh.erase file
  generalize hleft : s.unvisited (fresh.erase file) (s.stopsOf t) = left at hbehind
  have hunvisited : s.unvisited fresh (.file file :: stops) = s.unvisited left stops := by
    rw [unvisited_installed hfresh hmem ht, unvisited_append hfresh' hinstalled', hleft]
  have hwalk : (s.walk fresh (.file file :: stops)).findSome? answer = (answer (.file file)).or
      (((s.walk (fresh.erase file) (s.stopsOf t)).findSome? answer).or
        ((s.walk left stops).findSome? answer)) := by
    rw [walk_installed hmem ht, walk_append hfresh' hinstalled', hleft, ← List.singleton_append,
      List.findSome?_append, List.findSome?_append, List.findSome?_singleton]
  have hback (hnone : answer (.file file) = none)
      (hinner : (s.walk (fresh.erase file) (s.stopsOf t)).findSome? answer = none) :
      s.Barren answer free left := by
    rw [← hleft]
    exact (hinside.barren hinner).ascend hfree ht hnone (hinside.spent hinner)
  refine ⟨?_, fun hnone => ?_, fun hnone => ?_⟩
  · rw [hwalk, hinside.first, List.flatMap_cons, depthFirst_installed (hsub hmem) ht, List.cons_append,
      ← List.singleton_append, List.findSome?_append, List.findSome?_append, List.findSome?_singleton]
    cases hanswer : answer (.file file) with
    | some r => rfl
    | none =>
        cases hinner : ((s.stopsOf t).flatMap (s.depthFirst (free.erase file))).findSome? answer with
        | some r => rfl
        | none => rw [(hbehind (hback hanswer (hinside.first.trans hinner))).first]
  · rw [hwalk, Option.or_eq_none_iff, Option.or_eq_none_iff] at hnone
    obtain ⟨hanswer, hinner, hrest⟩ := hnone
    rw [hunvisited]
    exact (hbehind (hback hanswer hinner)).barren hrest
  · rw [hwalk, Option.or_eq_none_iff, Option.or_eq_none_iff] at hnone
    obtain ⟨hanswer, hinner, hrest⟩ := hnone
    rw [hunvisited]
    refine List.forall_mem_cons.2 ⟨fun hmem' => ?_, (hbehind (hback hanswer hinner)).spent hrest⟩
    have hleft' : left ⊆ fresh.erase file := hleft ▸ unvisited_subset
    exact hfresh.not_mem_erase (hleft' (unvisited_subset hmem'))

end Searched

/-- A walk searches in depth-first order, whatever was visited before, as long as it is barren. -/
theorem Barren.searched (h : s.Barren answer free fresh) (hfree : free.Nodup) (hfresh : fresh.Nodup)
    (hinstalled : ∀ file ∈ fresh, file ∈ s.installed) (hsub : fresh ⊆ free) :
    s.Searched answer free fresh stops := by
  -- What is visited inside a file leaves fewer fresh files for what comes behind it.
  induction hn : fresh.length using Nat.strongRecOn generalizing free fresh stops with
  | ind n ih =>
    subst hn
    induction stops with
    | nil => exact .nil h
    | cons stop stops ihstops =>
        cases stop with
        | directive file directive => exact ihstops.directive file directive
        | file file =>
            by_cases hmem : file ∈ fresh
            · obtain ⟨t, ht⟩ := Option.isSome_iff_exists.1 (mem_installed_iff.1 (hinstalled file hmem))
              have hshorter := length_erase_lt hmem
              have hinstalled' : ∀ other ∈ fresh.erase file, other ∈ s.installed := fun other hother =>
                hinstalled other (List.mem_of_mem_erase hother)
              have hsub' : fresh.erase file ⊆ free.erase file := fun other hother =>
                hfree.mem_erase_iff.2 ⟨(hfresh.mem_erase_iff.1 hother).1,
                  hsub (List.mem_of_mem_erase hother)⟩
              refine .installed hfree hfresh hinstalled hsub hmem ht
                (ih _ hshorter (h.descend hfree hfresh file) (hfree.erase file) (hfresh.erase file)
                  hinstalled' hsub' rfl) fun hbarren => ?_
              exact ih _ (Nat.lt_of_le_of_lt length_unvisited_le hshorter) hbarren hfree
                (nodup_unvisited (hfresh.erase file))
                (fun other hother => hinstalled' other (unvisited_subset hother))
                (fun other hother => hsub (List.mem_of_mem_erase (unvisited_subset hother))) rfl
            · exact ihstops.stale h hmem

/-- The search has seen everything when it has come to its end, and it gives the first answer in
depth-first order. -/
theorem searched_walk (hfresh : fresh.Nodup) (hinstalled : ∀ file ∈ fresh, file ∈ s.installed) :
    s.Searched answer fresh fresh stops :=
  (barren_self fresh).searched hfresh hfresh hinstalled (List.Subset.refl _)

end Search

end Snapshot

end SolidityAtlas
