import Mathlib.Data.List.Induction
import SolidityAtlas.Navigation.References
import SolidityAtlas.Proofs.Workspace.Session

/-!
# What declarations list

A declaration lists the uses that are linked to it. When links are taken back, the
declarations they led to are found by the file that they stand in, and the file whose
links are taken back is not among these. A use can however be linked from outside to
a declaration of its own file, where files import each other in a circle. If such a
link is taken back, the declaration goes on listing the use, until the tree of the
file is another one.

This is all that can go wrong: what declarations list is exactly what is linked to
them as long as no use is linked to a declaration of its own file at one moment and,
in the same tree, not linked to it at a later one (`Session.backLinksExact_iff`).

## Main Definitions

* `Snapshot.BackLinksExact`: declarations list the uses that are linked to them
* `Session.Numbered`: no two trees have one generation

## Main Results

* `Session.backLinksExact_iff`
* `Snapshot.BackLinksExact.mem_referencesAt`
-/

namespace SolidityAtlas

namespace Snapshot

/-- Every declaration lists exactly the uses that are linked to it, each of them once. -/
def BackLinksExact (s : Snapshot) : Prop :=
  ∀ u d x y, s.symbol? u = some x → s.symbol? d = some y →
    (u ∈ y.references ↔ x.declaration = some d) ∧ y.references.count u ≤ 1

variable {s : Snapshot}

/-- In a sound snapshot only a use of its own file can be listed without being linked. -/
theorem Sound.backLinksExact_iff_own (h : s.Sound) :
    s.BackLinksExact ↔
      ∀ d u, u.file = d.file → s.forest.Lists d u → s.forest.declaration? u = some d := by
  constructor
  · rintro hexact d u - hlists
    obtain ⟨y, hy, hu⟩ := hlists
    obtain ⟨x, hx⟩ := Option.isSome_iff_exists.1 (h.paired.found d u ⟨y, hy, hu⟩)
    rw [Forest.declaration?, hx, Option.bind_some]
    exact (hexact u d x y hx hy).1.1 hu
  · intro hown u d x y hx hy
    have hdeclaration : s.forest.declaration? u = x.declaration := by
      rw [Forest.declaration?, symbol?_forest, hx, Option.bind_some]
    refine ⟨⟨fun hu => ?_, fun hd => ?_⟩, ?_⟩
    · rw [← hdeclaration]
      by_cases hfile : u.file = d.file
      · exact hown d u hfile ⟨y, hy, hu⟩
      · exact h.paired.linked d u ⟨y, hy, hu⟩ hfile
    · obtain ⟨y', hy', hu⟩ := h.paired.listed u d (hdeclaration.trans hd)
      rw [symbol?_forest, hy] at hy'
      cases hy'
      exact hu
    · obtain ⟨t, id, ht, hid, -⟩ := exists_tree?_of_symbol? hy
      exact List.nodup_iff_count.1 ((h.tidy _ t ht).nodup_references id y hid) u

/-- The references that are found for a declaration are the uses that are linked to it. -/
theorem BackLinksExact.mem_referencesAt (hexact : s.BackLinksExact) (h : s.Sound) {file : FileId}
    {p : Position} {d : Handle} (hd : (s.referencesAt file p false).declaration = some d)
    (u : Handle) :
    u ∈ (s.referencesAt file p false).entries.map Reference.node ↔
      s.forest.declaration? u = some d := by
  unfold referencesAt at hd ⊢
  cases hat : s.declarationAt? file p with
  | none =>
      rw [hat] at hd
      cases hd
  | some declaration =>
      rw [hat] at hd
      cases hy : s.symbol? declaration with
      | none =>
          simp only [hy] at hd
          cases hd
      | some y =>
          simp only [hy, Option.some.injEq] at hd ⊢
          subst hd
          have hlisted : u ∈ y.references ↔ s.forest.declaration? u = some declaration := by
            constructor
            · intro hu
              obtain ⟨x, hx⟩ := Option.isSome_iff_exists.1 (h.paired.found declaration u ⟨y, hy, hu⟩)
              rw [Forest.declaration?, hx, Option.bind_some]
              exact (hexact u declaration x y hx hy).1.1 hu
            · intro hu
              obtain ⟨x, hx, hxd⟩ := Option.bind_eq_some_iff.1 hu
              exact (hexact u declaration x y hx hy).1.2 hxd
          rw [← hlisted]
          simp only [Bool.false_eq_true, if_false, List.nil_append, List.mem_map,
            List.mem_filterMap]
          constructor
          · rintro ⟨r, ⟨v, hv, hr⟩, rfl⟩
            obtain ⟨location, -, rfl⟩ := Option.map_eq_some_iff.1 hr
            exact hv
          · intro hu
            obtain ⟨x, hx⟩ := Option.isSome_iff_exists.1 (h.paired.found declaration u ⟨y, hy, hu⟩)
            have hlocation : s.locationOf? u = some ⟨u.file, x.nameRange⟩ := by
              rw [locationOf?, ← symbol?_forest, hx]
              rfl
            exact ⟨⟨u, ⟨u.file, x.nameRange⟩, false⟩,
              ⟨u, hu, by rw [reference?, hlocation]; rfl⟩, rfl⟩

end Snapshot

/-! ## What a replacement does to what is listed -/

namespace Workspace

variable {w : Workspace} {file : FileId} {tree : Option SymbolTree}

namespace Sound

variable (h : w.Sound)
variable (htree : ∀ t, tree = some t → t.Grown (fun _ => False) ∧ t.file = file)

include h htree

/-- What is listed after a replacement was listed before, or it is linked. -/
theorem lists_of_lists_replace {d u : Handle}
    (hlists : (w.replace file tree).snapshot.forest.Lists d u) :
    w.snapshot.forest.Lists d u ∨
      (w.replace file tree).snapshot.forest.declaration? u = some d := by
  have hcleared := h.cleared htree
  obtain ⟨-, hextends⟩ := h.relinked htree
  rw [snapshot_replace] at hlists ⊢
  rcases hextends.listed d u hlists with hlists | hlinked
  · by_cases hfile : d.file = file
    · exact .inr (hextends.kept u d (hcleared.newListed d u hfile hlists))
    · exact .inl (hcleared.listed d u hfile hlists)
  · exact .inr hlinked

/-- What a declaration lists of its own file it lists as long as the file has the same tree. -/
theorem lists_replace {d u : Handle} (hfile : d.file ≠ file) (hown : d.file = u.file)
    (hlists : w.snapshot.forest.Lists d u) :
    (w.replace file tree).snapshot.forest.Lists d u := by
  rw [snapshot_replace]
  exact (h.relinked htree).2.stillListed d u ((h.cleared htree).ownListed d u hfile hown hlists)

/-- Replacing a file makes no handle into another one valid or invalid. -/
theorem isSome_symbol?_replace {a : Handle} (hfile : a.file ≠ file) :
    ((w.replace file tree).snapshot.symbol? a).isSome = (w.snapshot.symbol? a).isSome := by
  rw [snapshot_replace, (h.relinked htree).2.found, (h.cleared htree).found a hfile]

/-- A handle that finds a node in the file with the new tree has the generation of that tree. -/
theorem generation_of_symbol?_replace {a : Handle}
    (ha : ((w.replace file tree).snapshot.symbol? a).isSome = true) (hfile : a.file = file) :
    ∃ t, tree = some t ∧ a.generation = t.generation := by
  rw [snapshot_replace, (h.relinked htree).2.found] at ha
  obtain ⟨x, hx⟩ := Option.isSome_iff_exists.1 ha
  obtain ⟨t', id, ht', -, heq⟩ := Snapshot.exists_tree?_of_symbol? hx
  rw [hfile] at ht'
  have hrenews := (h.cleared htree).newTree
  rw [ht'] at hrenews
  cases tree with
  | none => cases hrenews
  | some t =>
      refine ⟨t, rfl, ?_⟩
      rw [heq, ← (Option.rel_some_some.1 hrenews).generation]
      rfl

end Sound

end Workspace

/-! ## No two trees have one generation -/

namespace Session

variable (s : Session)

/-- A generation that nothing that is still to be installed can have. -/
def Spent (generation : Nat) : Prop :=
  generation < s.workspace.nextGeneration ∧ ∀ p ∈ s.prepared, p.generation ≠ generation

/-- No two trees that were ever installed have one generation. -/
structure Numbered : Prop where
  installed : ∀ a, (s.snapshot.symbol? a).isSome → s.Spent a.generation
  prepared : ∀ p ∈ s.prepared,
    p.tree.generation = p.generation ∧ p.generation < s.workspace.nextGeneration
  distinct : (s.prepared.map (·.generation)).Nodup

variable {s}

/-- A reading that is installed is no longer kept. -/
theorem prepared_install {k : Nat} {p : Prepared} (hp : s.prepared[k]? = some p) :
    (s.step (.install k)).prepared = s.prepared.eraseIdx k := by
  simp only [step, hp]

/-- Installing a reading gives out no number. -/
theorem nextGeneration_install (w : Workspace) (p : Prepared) :
    (w.install p).2.nextGeneration = w.nextGeneration := by
  unfold Workspace.install
  split
  · rfl
  · split <;> rfl

/-- Generations are handed out in ascending order. -/
theorem nextGeneration_step (a : Step) :
    s.workspace.nextGeneration ≤ (s.step a).workspace.nextGeneration := by
  cases a with
  | prepare path text => exact Nat.le_succ _
  | install k =>
      simp only [step]
      split
      · exact Nat.le_of_eq (nextGeneration_install _ _).symm
      · exact Nat.le_refl _
  | remove path =>
      simp only [step, Workspace.remove]
      cases s.workspace.files.fileId? path with
      | none => exact Nat.le_refl _
      | some file => exact Nat.le_succ _
  | addRemappings remappings => exact Nat.le_refl _

/-- What is spent stays spent. -/
theorem Spent.step {generation : Nat} (h : s.Spent generation) (a : Step) :
    (s.step a).Spent generation := by
  refine ⟨Nat.lt_of_lt_of_le h.1 (nextGeneration_step a), fun p hp => ?_⟩
  rcases s.mem_prepared_step hp with hp | ⟨path, text, -, rfl⟩
  · exact h.2 p hp
  · exact Nat.ne_of_gt h.1

/-- At the start no number has been given out. -/
theorem numbered_start (config : Config) : (start config).Numbered := by
  refine ⟨fun a ha => ?_, fun p hp => absurd hp List.not_mem_nil, List.nodup_nil⟩
  obtain ⟨x, hx⟩ := Option.isSome_iff_exists.1 ha
  cases hx

namespace Numbered

variable (h : s.Numbered)

include h

/-- What has been installed is spent. -/
theorem spent_install {k : Nat} {p : Prepared} (hp : s.prepared[k]? = some p) :
    (s.step (.install k)).Spent p.generation := by
  have hmem := List.mem_of_getElem? hp
  refine ⟨Nat.lt_of_lt_of_le (h.prepared p hmem).2 (nextGeneration_step _), fun q hq heq => ?_⟩
  rw [prepared_install hp] at hq
  obtain ⟨i, hne, hi⟩ := List.mem_eraseIdx_iff_getElem?.1 hq
  have hgenerations : ∀ (j : Nat) (r : Prepared), s.prepared[j]? = some r →
      (s.prepared.map (·.generation))[j]? = some r.generation := fun j r hr => by
    rw [List.getElem?_map, hr]
    rfl
  obtain ⟨hlt, -⟩ := List.getElem?_eq_some_iff.1 (hgenerations i q hi)
  exact hne ((List.getElem?_inj hlt h.distinct).1
    (by rw [hgenerations i q hi, hgenerations k p hp, heq]))

/-- A handle that finds a node after a step found it before, or it has the generation of what was
installed in the step. -/
theorem isSome_of_step (hsound : s.Sound) {a : Step} {u : Handle}
    (hu : ((s.step a).snapshot.symbol? u).isSome = true) :
    (s.snapshot.symbol? u).isSome = true ∨
      ∃ k p, a = .install k ∧ s.prepared[k]? = some p ∧ u.generation = p.generation := by
  rcases s.step_cases a with ⟨-, htrees, -⟩ |
    ⟨w, file, tree, heq, hlinks, hsnapshot, htree, -⟩
  · refine .inl ?_
    rw [← hu, Snapshot.symbol?, Snapshot.symbol?, Snapshot.tree?, Snapshot.tree?, htrees]
  · obtain ⟨hw, hgrown⟩ := hsound.premises hlinks hsnapshot htree
    rw [Session.snapshot, heq] at hu
    by_cases hfile : u.file = file
    · obtain ⟨t, ht, hgeneration⟩ := hw.generation_of_symbol?_replace hgrown hu hfile
      obtain ⟨k, p, ha, hp, rfl, -⟩ := htree t ht
      refine .inr ⟨k, p, ha, hp, ?_⟩
      rw [hgeneration, (h.prepared p (List.mem_of_getElem? hp)).1]
    · rw [hw.isSome_symbol?_replace hgrown hfile, hsnapshot] at hu
      exact .inl hu

/-- A step gives out its numbers in order. -/
theorem step (hsound : s.Sound) (a : Step) : (s.step a).Numbered := by
  refine ⟨fun u hu => ?_, fun p hp => ?_, ?_⟩
  · rcases h.isSome_of_step hsound hu with hu | ⟨k, p, rfl, hp, hgeneration⟩
    · exact (h.installed u hu).step a
    · rw [hgeneration]
      exact h.spent_install hp
  · rcases s.mem_prepared_step hp with hp | ⟨path, text, rfl, rfl⟩
    · obtain ⟨hlabel, hlt⟩ := h.prepared p hp
      exact ⟨hlabel, Nat.lt_of_lt_of_le hlt (nextGeneration_step a)⟩
    · exact ⟨(SymbolTree.label_grow _ _ _ _ _).2, Nat.lt_succ_self _⟩
  · cases a with
    | prepare path text =>
        have hnew : s.workspace.nextGeneration ∉ s.prepared.map (·.generation) := fun hmem => by
          obtain ⟨p, hp, heq⟩ := List.mem_map.1 hmem
          exact Nat.ne_of_lt (h.prepared p hp).2 heq
        simp only [Session.step, List.map_append]
        refine List.nodup_append.2 ⟨h.distinct, List.pairwise_singleton _ _, ?_⟩
        rintro g hg _ hg' rfl
        have heq : g = s.workspace.nextGeneration := List.mem_singleton.1 hg'
        exact hnew (by rw [← heq]; exact hg)
    | install k =>
        simp only [Session.step]
        split
        · exact h.distinct.sublist ((List.eraseIdx_sublist _ _).map _)
        · exact h.distinct
    | remove path =>
        simp only [Session.step]
        split <;> exact h.distinct
    | addRemappings remappings => exact h.distinct

/-- Numbers are given out in order in every run. -/
theorem run (hsound : s.Sound) (steps : List Step) : (s.run steps).Numbered := by
  induction steps generalizing s with
  | nil => exact h
  | cons a steps ih => exact ih (h.step hsound a) (hsound.step a)

end Numbered

/-! ## What a run does to what is listed -/

variable {d u : Handle}

/-- Back links are read off the trees. -/
theorem lists_of_trees_eq {s' : Session} (htrees : s'.snapshot.trees = s.snapshot.trees) :
    s'.snapshot.forest.Lists d u ↔ s.snapshot.forest.Lists d u := by
  rw [Forest.Lists, Forest.Lists, Snapshot.symbol?_forest, Snapshot.symbol?_forest,
    Snapshot.symbol?, Snapshot.symbol?, Snapshot.tree?, Snapshot.tree?, htrees]

/-- What is listed after a step was listed before, or it is linked. -/
theorem Sound.lists_of_lists_step (hsound : s.Sound) {a : Step}
    (hlists : (s.step a).snapshot.forest.Lists d u) :
    s.snapshot.forest.Lists d u ∨ (s.step a).snapshot.forest.declaration? u = some d := by
  rcases s.step_cases a with ⟨-, htrees, -⟩ |
    ⟨w, file, tree, heq, hlinks, hsnapshot, htree, -⟩
  · exact .inl ((lists_of_trees_eq htrees).1 hlists)
  · obtain ⟨hw, hgrown⟩ := hsound.premises hlinks hsnapshot htree
    unfold Session.snapshot at hlists ⊢
    rw [heq] at hlists ⊢
    rw [← hsnapshot]
    exact hw.lists_of_lists_replace hgrown hlists

/-- What is listed after a run was listed before, or it was linked at some moment of the run. -/
theorem Sound.lists_of_lists_run (hsound : s.Sound) {steps : List Step}
    (hlists : (s.run steps).snapshot.forest.Lists d u) :
    s.snapshot.forest.Lists d u ∨ ∃ earlier, earlier <+: steps ∧
      (s.run earlier).snapshot.forest.declaration? u = some d := by
  induction steps using List.reverseRecOn with
  | nil => exact .inl hlists
  | append_singleton steps a ih =>
      rw [run_append] at hlists
      rcases (hsound.run steps).lists_of_lists_step hlists with hlists | hlinked
      · rcases ih hlists with hlists | ⟨earlier, hearlier, hlinked⟩
        · exact .inl hlists
        · exact .inr ⟨earlier, hearlier.trans (List.prefix_append _ _), hlinked⟩
      · exact .inr ⟨steps ++ [a], List.prefix_refl _, by rw [run_append]; exact hlinked⟩

namespace Numbered

variable (h : s.Numbered) (hsound : s.Sound)

include h hsound

/-- A handle that is spent and finds a node after a run has found it all the time. -/
theorem isSome_of_run (hspent : s.Spent u.generation) {steps : List Step}
    (hu : ((s.run steps).snapshot.symbol? u).isSome = true) :
    (s.snapshot.symbol? u).isSome = true := by
  induction steps generalizing s with
  | nil => exact hu
  | cons a steps ih =>
      have hstep := ih (h.step hsound a) (hsound.step a) (hspent.step a) hu
      rcases h.isSome_of_step hsound hstep with hu | ⟨k, p, -, hp, hgeneration⟩
      · exact hu
      · exact absurd hgeneration.symm (hspent.2 p (List.mem_of_getElem? hp))

/-- What a declaration lists of its own file it lists as long as the use can be found. -/
theorem lists_step (hspent : s.Spent u.generation) (hown : d.file = u.file)
    (hlists : s.snapshot.forest.Lists d u) {a : Step}
    (hu : ((s.step a).snapshot.symbol? u).isSome = true) :
    (s.step a).snapshot.forest.Lists d u := by
  rcases s.step_cases a with ⟨-, htrees, -⟩ |
    ⟨w, file, tree, heq, hlinks, hsnapshot, htree, -⟩
  · exact (lists_of_trees_eq htrees).2 hlists
  · obtain ⟨hw, hgrown⟩ := hsound.premises hlinks hsnapshot htree
    rw [Session.snapshot, heq] at hu ⊢
    rw [Session.snapshot, ← hsnapshot] at hlists
    refine hw.lists_replace hgrown (fun hfile => ?_) hown hlists
    -- The file has a tree of another generation now, in which the use is not to be found.
    obtain ⟨t, ht, hgeneration⟩ :=
      hw.generation_of_symbol?_replace hgrown hu (hown.symm.trans hfile)
    obtain ⟨k, p, -, hp, rfl, -⟩ := htree t ht
    have hmem := List.mem_of_getElem? hp
    exact hspent.2 p hmem (by rw [hgeneration, (h.prepared p hmem).1])

/-- A back link inside a file stays as long as both its ends. -/
theorem lists_run (hspent : s.Spent u.generation) (hown : d.file = u.file)
    (hlists : s.snapshot.forest.Lists d u) {steps : List Step}
    (hu : ((s.run steps).snapshot.symbol? u).isSome = true) :
    (s.run steps).snapshot.forest.Lists d u := by
  induction steps generalizing s with
  | nil => exact hlists
  | cons a steps ih =>
      have hstep := (h.step hsound a).isSome_of_run (hsound.step a) (hspent.step a) hu
      exact ih (h.step hsound a) (hsound.step a) (hspent.step a)
        (h.lists_step hsound hspent hown hlists hstep) hu

end Numbered

/-- Whatever calls are made, declarations list exactly the uses that are linked to them if and
only if no use that is still there was linked, at an earlier moment, to a declaration of its own
file that it is not linked to now. Then the references that are found for a declaration are the
uses that are linked to it. -/
theorem backLinksExact_iff (config : Config) (calls : List Call) :
    let s := (start config).callAll calls
    (s.snapshot.BackLinksExact ↔
      ∀ earlier, earlier <+: (start config).steps calls → ∀ u d, u.file = d.file →
        ((start config).run earlier).snapshot.forest.declaration? u = some d →
        (s.snapshot.symbol? u).isSome → s.snapshot.forest.declaration? u = some d) ∧
    (s.snapshot.BackLinksExact → ∀ file p d,
      (s.snapshot.referencesAt file p false).declaration = some d → ∀ u,
        u ∈ (s.snapshot.referencesAt file p false).entries.map Reference.node ↔
          s.snapshot.forest.declaration? u = some d) := by
  intro s
  have hsound : s.Sound := sound_callAll config calls
  have hrun : s = (start config).run ((start config).steps calls) := callAll_eq_run _ calls
  refine ⟨?_, fun hexact file p d hd u => hexact.mem_referencesAt hsound.workspace.snapshot hd u⟩
  rw [hsound.workspace.snapshot.backLinksExact_iff_own]
  constructor
  · rintro hown earlier ⟨later, hlater⟩ u d hfile hlinked hu
    refine hown d u hfile ?_
    have hnow : s = ((start config).run earlier).run later := by
      rw [hrun, ← hlater, run_append]
    have hearlier := (Sound.start config).run earlier
    have hnumbered := (numbered_start config).run (Sound.start config) earlier
    rw [hnow] at hu ⊢
    exact hnumbered.lists_run hearlier
      (hnumbered.installed u (Forest.isSome_of_declaration? hlinked)) hfile.symm
      (hearlier.workspace.snapshot.paired.listed u d hlinked) hu
  · intro hkept d u hfile hlists
    have hu := hsound.workspace.snapshot.paired.found d u hlists
    rw [hrun] at hlists
    rcases (Sound.start config).lists_of_lists_run hlists with hlists | ⟨earlier, hearlier, hlinked⟩
    · obtain ⟨x, hx, -⟩ := hlists
      cases hx
    · exact hkept earlier hearlier u d hfile hlinked hu

/-- Two files that import each other: a use in the first one is linked to a declaration of the
first one by way of a base in the second one, until that base is given up. -/
def circle : List Call :=
  [.index "A.sol" "import \"./B.sol\";\ncontract Base \x7b function ping() internal \x7b\x7d \x7d\ncontract Leaf is Mid \x7b function f() public \x7b ping(); \x7d \x7d",
    .index "B.sol" "import \"./A.sol\";\ncontract Mid is Base \x7b\x7d",
    .index "B.sol" "import \"./A.sol\";\ncontract Mid \x7b\x7d"]

/-- After the calls of `circle` a back link is left that no link belongs to. -/
theorem not_backLinksExact_circle :
    ¬ ((start .default).callAll circle).snapshot.BackLinksExact := by
  intro hexact
  have hlisted : (((start .default).callAll circle).snapshot.symbol? ⟨0, 1, 3⟩).any
        (·.references.contains ⟨0, 1, 14⟩) ∧
      (((start .default).callAll circle).snapshot.symbol? ⟨0, 1, 14⟩).any
        (·.declaration == none) := by
    decide +kernel
  obtain ⟨y, hy, hu⟩ := Option.any_eq_true _ _ |>.1 hlisted.1
  obtain ⟨x, hx, hnone⟩ := Option.any_eq_true _ _ |>.1 hlisted.2
  have hlinked := (hexact _ _ x y hx hy).1.1 (List.contains_iff_mem.1 hu)
  rw [eq_of_beq hnone] at hlinked
  cases hlinked

end Session

end SolidityAtlas
