import SolidityAtlas.Proofs.Workspace.BackLinks
import SolidityAtlas.Proofs.Workspace.Reindex

/-!
# Handles that are kept

A handle can be kept while the workspace changes. It finds the node that it was made for,
with other links perhaps, until the tree of its file is replaced or taken away. From then on
it finds nothing: the new tree has a generation of its own, and no later tree gets the
generation of the old one, even if the same text is indexed again.

## Main Definitions

* `Session.replaced`: the files whose trees are replaced in a run

## Main Results

* `Session.symbol?_callAll`
-/

namespace SolidityAtlas

/-- Symbols that are the same without their links differ in their links only. -/
theorem Symbol.eq_of_bare {x y : Symbol} (h : x.bare = y.bare) :
    y = { x with declaredType := y.declaredType, declaration := y.declaration,
                 references := y.references } := by
  show y = { x.bare with declaredType := y.declaredType, declaration := y.declaration,
                         references := y.references }
  rw [h]
  rfl

/-- A replacement changes nothing but links in the nodes of other files. -/
theorem Workspace.Sound.symbol?_replace {w : Workspace} {file : FileId} {tree : Option SymbolTree}
    (h : w.Sound) (htree : ∀ t, tree = some t → t.Grown (fun _ => False) ∧ t.file = file)
    {a : Handle} (hfile : a.file ≠ file) :
    Option.Rel (fun x y => x.bare = y.bare) (w.snapshot.symbol? a)
      ((w.replace file tree).snapshot.symbol? a) := by
  have hfound := h.isSome_symbol?_replace htree hfile
  cases hx : w.snapshot.symbol? a with
  | none =>
      rw [hx, Option.isSome_none, Option.isSome_eq_false_iff, Option.isNone_iff_eq_none] at hfound
      rw [hfound]
      exact .none
  | some x =>
      rw [hx] at hfound
      obtain ⟨y, hy⟩ := Option.isSome_iff_exists.1 hfound
      obtain ⟨t, id, ht, hid, heq⟩ := Snapshot.exists_tree?_of_symbol? hx
      obtain ⟨t', id', ht', hid', heq'⟩ := Snapshot.exists_tree?_of_symbol? hy
      have hsame : id = id' := congrArg Handle.node (heq.symm.trans heq')
      have halike := h.readAlike_replace htree a.file
      rw [if_neg hfile, ht, ht'] at halike
      have hbare := SymbolTree.symbol?_congr (Option.rel_some_some.1 halike).outline id
      rw [hid, hsame, hid'] at hbare
      rw [hy]
      exact hbare

namespace Session

/-- The files whose trees are replaced or taken away in a run, in the order of the steps. -/
def replaced (s : Session) : List Step → List FileId
  | [] => []
  | a :: steps => (s.replaced? a).toList ++ (s.step a).replaced steps

variable {s : Session} {a : Step} {u : Handle}

/-- What a run replaces is what its parts replace, one after the other. -/
theorem replaced_append (steps more : List Step) :
    s.replaced (steps ++ more) = s.replaced steps ++ (s.run steps).replaced more := by
  induction steps generalizing s with
  | nil => rfl
  | cons a steps ih => rw [List.cons_append, replaced, replaced, ih, List.append_assoc]; rfl

/-- A number that has been given out is not given out again in a run. -/
theorem Spent.run {generation : Nat} (h : s.Spent generation) (steps : List Step) :
    (s.run steps).Spent generation := by
  induction steps generalizing s with
  | nil => exact h
  | cons a steps ih => exact ih (h.step a)

/-- A step that leaves the tree of a file in its place changes nothing but links in its nodes. -/
theorem Sound.symbol?_step (hsound : s.Sound) (hkept : s.replaced? a ≠ some u.file) :
    Option.Rel (fun x y => x.bare = y.bare) (s.snapshot.symbol? u)
      ((s.step a).snapshot.symbol? u) := by
  cases hreplaced : s.replaced? a with
  | none =>
      obtain ⟨-, htrees, -⟩ := step_of_replaced?_none hreplaced
      have hsame : (s.step a).snapshot.symbol? u = s.snapshot.symbol? u := by
        rw [Snapshot.symbol?, Snapshot.symbol?, Snapshot.tree?, Snapshot.tree?, htrees]
      rw [hsame]
      exact .self fun _ _ => rfl
  | some file =>
      obtain ⟨w, tree, heq, hlinks, hsnapshot, htree, -⟩ := step_of_replaced? hreplaced
      obtain ⟨hw, hgrown⟩ := hsound.premises hlinks hsnapshot htree
      have hfile : u.file ≠ file := fun h => hkept (by rw [hreplaced, h])
      rw [Session.snapshot, Session.snapshot, heq, ← hsnapshot]
      exact hw.symbol?_replace hgrown hfile

namespace Numbered

variable (h : s.Numbered) (hsound : s.Sound) (hspent : s.Spent u.generation)

include h hsound hspent

/-- When the tree of a file is replaced, the handles that were made for it find nothing. -/
theorem symbol?_step_of_replaced (hreplaced : s.replaced? a = some u.file) :
    (s.step a).snapshot.symbol? u = none := by
  obtain ⟨w, tree, heq, hlinks, hsnapshot, htree, -⟩ := step_of_replaced? hreplaced
  obtain ⟨hw, hgrown⟩ := hsound.premises hlinks hsnapshot htree
  rw [← Option.not_isSome_iff_eq_none, Session.snapshot, heq]
  intro hfound
  -- The new tree would have the generation of the handle, but that has been handed out before.
  obtain ⟨t, ht, hgeneration⟩ := hw.generation_of_symbol?_replace hgrown hfound rfl
  obtain ⟨k, p, -, hp, rfl, -⟩ := htree t ht
  have hmem := List.mem_of_getElem? hp
  exact hspent.2 p hmem (by rw [hgeneration, (h.prepared p hmem).1])

/-- In a run a handle finds its node, with other links perhaps, as long as the tree of its file stays
in its place, and nothing from then on. -/
theorem symbol?_run (steps : List Step) :
    (u.file ∉ s.replaced steps → Option.Rel (fun x y => x.bare = y.bare) (s.snapshot.symbol? u)
      ((s.run steps).snapshot.symbol? u)) ∧
    (u.file ∈ s.replaced steps → (s.run steps).snapshot.symbol? u = none) := by
  induction steps using List.reverseRecOn with
  | nil => exact ⟨fun _ => .self fun _ _ => rfl, fun hmem => absurd hmem List.not_mem_nil⟩
  | append_singleton steps a ih =>
      have hlast : (s.run steps).replaced [a] = ((s.run steps).replaced? a).toList :=
        List.append_nil _
      rw [run_append, replaced_append, hlast, List.mem_append, Option.mem_toList]
      by_cases hreplaced : (s.run steps).replaced? a = some u.file
      · -- Its generation has been spent since the beginning of the run, so no new tree has it.
        refine ⟨fun hnot => absurd (.inr hreplaced) hnot, fun _ => ?_⟩
        exact (h.run hsound steps).symbol?_step_of_replaced (hsound.run steps) (hspent.run steps)
          hreplaced
      · have hstep := (hsound.run steps).symbol?_step hreplaced
        constructor
        · intro hnot
          exact (ih.1 fun hmem => hnot (.inl hmem)).comp hstep fun _ _ _ => Eq.trans
        · intro hmem
          have hnone := ih.2 (hmem.resolve_right hreplaced)
          rw [hnone] at hstep
          exact hstep.eq_none

end Numbered

/-- A handle that finds a node at one moment finds at any later moment a node that differs from it
in its links only, or it finds nothing and never will. It goes on finding its node as long as no
call replaces the tree of its file or takes it away. -/
theorem symbol?_callAll (config : Config) (calls later : List Call) (a : Handle) (x : Symbol)
    (hx : ((start config).callAll calls).snapshot.symbol? a = some x) :
    let s := (start config).callAll calls
    ((∃ y, (s.callAll later).snapshot.symbol? a = some y ∧
        y = { x with declaredType := y.declaredType, declaration := y.declaration,
                     references := y.references }) ∨
      ∀ further, ((s.callAll later).callAll further).snapshot.symbol? a = none) ∧
    (((s.callAll later).snapshot.symbol? a).isSome ↔ a.file ∉ s.replaced (s.steps later)) := by
  intro s
  have hsound : s.Sound := sound_callAll config calls
  have hnumbered : s.Numbered := by
    show ((start config).callAll calls).Numbered
    rw [callAll_eq_run]
    exact (numbered_start config).run (Sound.start config) _
  have hspent : s.Spent a.generation := hnumbered.installed a (Option.isSome_of_eq_some hx)
  have hrun := hnumbered.symbol?_run hsound hspent
  rw [show s.snapshot.symbol? a = some x from hx] at hrun
  by_cases hmem : a.file ∈ s.replaced (s.steps later)
  · have hgone : ∀ further, ((s.callAll later).callAll further).snapshot.symbol? a = none := by
      intro further
      rw [callAll_eq_run _ further, callAll_eq_run s, ← run_append]
      refine (hrun _).2 ?_
      rw [replaced_append, List.mem_append]
      exact .inl hmem
    have hnone : (s.callAll later).snapshot.symbol? a = none := hgone []
    refine ⟨.inr hgone, ?_⟩
    rw [hnone]
    exact iff_of_false Bool.false_ne_true (not_not_intro hmem)
  · obtain ⟨y, hy, hbare⟩ := ((hrun (s.steps later)).1 hmem).exists_right rfl
    rw [← callAll_eq_run] at hy
    refine ⟨.inl ⟨y, hy, Symbol.eq_of_bare hbare⟩, ?_⟩
    rw [hy]
    exact iff_of_true rfl hmem

/-- A handle of a file that has been removed is not good again when the file is indexed again with
the text it had. -/
theorem symbol?_callAll_again :
    ∃ x, ((start .default).callAll [.index "A.sol" "contract A \x7b\x7d"]).snapshot.symbol?
        ⟨0, 1, 1⟩ = some x ∧
      (((start .default).callAll [.index "A.sol" "contract A \x7b\x7d"]).callAll
        [.remove "A.sol", .index "A.sol" "contract A \x7b\x7d"]).snapshot.symbol? ⟨0, 1, 1⟩ =
          none := by
  have hfound : (((start .default).callAll
      [.index "A.sol" "contract A \x7b\x7d"]).snapshot.symbol? ⟨0, 1, 1⟩).isSome = true ∧
      0 ∈ ((start .default).callAll [.index "A.sol" "contract A \x7b\x7d"]).replaced
        (((start .default).callAll [.index "A.sol" "contract A \x7b\x7d"]).steps
          [.remove "A.sol", .index "A.sol" "contract A \x7b\x7d"]) := by
    decide +kernel
  obtain ⟨x, hx⟩ := Option.isSome_iff_exists.1 hfound.1
  have hlater := (symbol?_callAll .default [.index "A.sol" "contract A \x7b\x7d"]
    [.remove "A.sol", .index "A.sol" "contract A \x7b\x7d"] ⟨0, 1, 1⟩ x hx).2
  refine ⟨x, hx, ?_⟩
  rw [← Option.not_isSome_iff_eq_none, hlater]
  exact not_not_intro hfound.2

end Session

end SolidityAtlas
