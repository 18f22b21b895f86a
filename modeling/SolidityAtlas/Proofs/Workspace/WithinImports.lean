import SolidityAtlas.Proofs.Workspace.Imports

/-!
# Links stay within imports

The linker follows imports and links. So where every link leads to a file that is reached
over imports, all links that it makes do so too. After a link has been made, imports can
change. If the tree of a file comes or changes, this is harmless: a file that reached
others in another way before reaches that file now, so its links are made again.

If a tree goes it is not harmless. Who is to be linked again is found out when the file has
gone, and then nobody reaches it. A file that reached others only by way of the file that has
gone, without being linked into it, keeps its links (`Snapshot.Strands`). This is all that
can go wrong: links stay within imports through a run if and only if no tree that goes
strands a link (`Session.linksWithinImports_iff`).

## Main Definitions

* `Snapshot.LinksWithinImports`: links into other files lead to files that are reached
* `Snapshot.Strands`: a tree has gone, and a link has lost the imports it was made through

## Main Results

* `Workspace.Sound.linksWithinImports_replace`: what one replacement keeps
* `Session.linksWithinImports_iff`
-/

namespace SolidityAtlas

namespace Snapshot

variable {s s' : Snapshot} {file other source target : FileId}

/-- Whatever a use is linked to in another file, that file is reached over imports. -/
def LinksWithinImports (s : Snapshot) : Prop :=
  ∀ u d, s.forest.declaration? u = some d → u.file ≠ d.file → s.Reaches u.file d.file

/-- The tree of a file has gone that the file of a use reached and was not linked into. The use was
linked to what its file reached, and is linked to it still, but its file does not reach it now. -/
structure Strands (s s' : Snapshot) (u d : Handle) : Prop where
  gone : ∃ file, s.isInstalled file = true ∧ s'.isInstalled file = false ∧
    s.Reaches u.file file ∧ ¬ s.LinksInto u.file file
  other : u.file ≠ d.file
  linked : s.forest.declaration? u = some d
  stillLinked : s'.forest.declaration? u = some d
  reached : s.Reaches u.file d.file
  lost : ¬ s'.Reaches u.file d.file

/-! ## What files reach when a tree comes or goes -/

/-- A file that another file imports is imported still, or that file imports the file that has come,
or it is the file that has gone. -/
theorem Swaps.importedFiles_cases (h : Swaps file s s') (hcharted : s.Charted) (hcharted' : s'.Charted)
    (hne : source ≠ file) (himport : target ∈ s.importedFiles source) :
    target ∈ s'.importedFiles source ∨ file ∈ s'.importedFiles source ∨
      s.isInstalled file = true ∧ s'.isInstalled file = false ∧ target = file := by
  rw [hcharted.exact] at himport
  cases ht : s.tree? source with
  | none =>
      rw [targets_of_none ht] at himport
      cases himport
  | some t =>
      rw [targets_of_tree? ht] at himport
      obtain ⟨directive, -, hmeans⟩ := List.mem_filterMap.1 himport
      rcases h.importTarget?_cases hcharted hne ht directive with hsame | hcome | ⟨hold, hnew, hgone⟩
      · exact .inl (hcharted'.mem_importedFiles (hsame.trans hmeans))
      · exact .inr (.inl (hcharted'.mem_importedFiles hcome))
      · exact .inr (.inr ⟨hold, hnew, Option.some.inj (hmeans.symm.trans hgone)⟩)

/-- A file that does not reach the one whose tree has changed reaches what it did, unless it reached
that file and the tree has gone. -/
theorem Swaps.reaches_cases (h : Swaps file s s') (hcharted : s.Charted) (hcharted' : s'.Charted)
    (hne : source ≠ file) (hnot : ¬ s'.Reaches source file) (hreach : s.Reaches source target) :
    s'.Reaches source target ∨
      s.isInstalled file = true ∧ s'.isInstalled file = false ∧ s.Reaches source file := by
  induction hreach with
  | single himport =>
      rcases h.importedFiles_cases hcharted hcharted' hne himport with hkept | hcome | ⟨hold, hnew, rfl⟩
      · exact .inl (.single hkept)
      · exact absurd (.single hcome) hnot
      · exact .inr ⟨hold, hnew, .single himport⟩
  | @tail between target hreach himport ih =>
      rcases ih with hstill | hgone
      · have hbetween : between ≠ file := fun heq => hnot (heq ▸ hstill)
        rcases h.importedFiles_cases hcharted hcharted' hbetween himport with
          hkept | hcome | ⟨hold, hnew, rfl⟩
        · exact .inl (hstill.tail hkept)
        · exact absurd (hstill.tail hcome) hnot
        · exact .inr ⟨hold, hnew, hreach.tail himport⟩
      · exact .inr hgone

end Snapshot

/-! ## Replacements -/

namespace Workspace

variable {w : Workspace} {file : FileId} {tree : Option SymbolTree}

/-- Whoever is not linked again neither reaches the file that has another tree now nor was linked
into it. -/
theorem Sound.not_reaches_replace (h : w.Sound)
    (htree : ∀ t, tree = some t → t.Grown (fun _ => False) ∧ t.file = file) {source : FileId}
    (hnot : source ∉ file :: w.others file tree) :
    source ≠ file ∧ ¬ (w.replace file tree).snapshot.Reaches source file ∧
      ¬ w.snapshot.LinksInto source file := by
  obtain ⟨hne, hothers⟩ := not_or.1 (mt List.mem_cons.2 hnot)
  have hedges := (h.sameShape_replace htree).edges
  refine ⟨hne, fun hreach => hothers ?_, fun hlinks => hothers ?_⟩
  · rw [mem_others, ← Snapshot.importersOf_congr hedges]
    exact ⟨hne, .inl (Snapshot.mem_importersOf_iff.2 ⟨hne, hreach⟩)⟩
  · rw [mem_others]
    exact ⟨hne, .inr ((h.links.sources source file).2 hlinks)⟩

/-- A replacement that strands no link keeps links within imports. -/
theorem Sound.linksWithinImports_replace (h : w.Sound)
    (htree : ∀ t, tree = some t → t.Grown (fun _ => False) ∧ t.file = file)
    (hcharted : w.snapshot.Charted) (hfiles : w.snapshot.files.paths <+: w.files.paths)
    (hcharted' : (w.replace file tree).snapshot.Charted) (hwithin : w.snapshot.LinksWithinImports)
    (hnone : ∀ u d, ¬ w.snapshot.Strands (w.replace file tree).snapshot u d) :
    (w.replace file tree).snapshot.LinksWithinImports := by
  have hcleared := h.cleared htree
  have hextends := (h.relinked htree).2
  have hswaps := h.swaps_replace hfiles htree
  have hreplace : (w.replace file tree).snapshot = w.relinked file tree := snapshot_replace ..
  -- What is linked when the links have been taken back is reached still.
  have hleft : ∀ u d, (w.detached file tree).2.forest.declaration? u = some d →
      u.file = d.file ∨ (w.replace file tree).snapshot.Reaches u.file d.file := by
    intro u d hd
    by_cases hown : u.file = d.file
    · exact .inl hown
    · right
      have hnot := ((hcleared.linksInto u.file d.file).1
        (hcleared.sound.linksInto_iff.2 ⟨Ne.symm hown, u, d, hd, rfl, rfl⟩)).1
      obtain ⟨hne, hreaches, hlinks⟩ := h.not_reaches_replace htree hnot
      have hbefore := hcleared.linked u d hne hd
      have hreach := hwithin u d hbefore hown
      rcases hswaps.reaches_cases hcharted hcharted' hne hreaches hreach with hstill | ⟨hold, hnew, hby⟩
      · exact hstill
      · by_contra hlost
        refine hnone u d ⟨⟨file, hold, hnew, hby, hlinks⟩, hown, hbefore, ?_, hreach, hlost⟩
        rw [hreplace]
        exact hextends.kept u d hd
  have hlinked : ∀ u d, (w.relinked file tree).forest.declaration? u = some d →
      u.file = d.file ∨ (w.replace file tree).snapshot.Reaches u.file d.file :=
    (hcleared.sound.linkAll
      (R := fun a b => a = b ∨ (w.replace file tree).snapshot.Reaches a b) (fun _ => .inl rfl)
      (fun a b c hab hbc => ?_) (fun f directive target htarget => ?_) hleft
      (file :: w.others file tree)).2.2
  · intro u d hd hown
    rw [hreplace] at hd
    exact (hlinked u d hd).resolve_left hown
  · rcases hab with rfl | hab
    · exact hbc
    · rcases hbc with rfl | hbc
      · exact .inr hab
      · exact .inr (hab.trans hbc)
  · rw [← hextends.importTarget?_eq, ← hreplace] at htarget
    exact .inr (.single (hcharted'.mem_importedFiles htarget))

end Workspace

/-! ## Runs -/

namespace Session

variable {s : Session}

/-- A step that adds no remappings keeps links within imports if and only if it strands none. -/
theorem linksWithinImports_step_iff (hsound : s.Sound) (hcharted : s.Charted)
    (hwithin : s.snapshot.LinksWithinImports) {a : Step}
    (hfixed : ∀ remappings, a ≠ .addRemappings remappings) :
    (s.step a).snapshot.LinksWithinImports ↔
      ∀ u d, ¬ s.snapshot.Strands (s.step a).snapshot u d := by
  constructor
  · exact fun hafter u d hstrands => hstrands.lost (hafter u d hstrands.stillLinked hstrands.other)
  · intro hnone
    have hcharted' := (hcharted.step hsound a).snapshot
    rcases s.step_cases a with ⟨-, -, hsame | ⟨remappings, heq⟩⟩ |
      ⟨w, file, tree, heq, hlinks, hsnapshot, htree, hfiles⟩
    · rw [hsame]
      exact hwithin
    · exact absurd heq (hfixed remappings)
    · obtain ⟨hw, hgrown⟩ := hsound.premises hlinks hsnapshot htree
      unfold Session.snapshot at hcharted' hnone ⊢
      rw [heq, ← hsnapshot] at hnone
      rw [heq] at hcharted' ⊢
      exact hw.linksWithinImports_replace hgrown (by rw [hsnapshot]; exact hcharted.snapshot)
        (by rw [hsnapshot, hfiles]; exact hcharted.files) hcharted'
        (by rw [hsnapshot]; exact hwithin) hnone

/-- At the start there are no links. -/
theorem linksWithinImports_start (config : Config) : (start config).snapshot.LinksWithinImports :=
  fun u d hd => by
    obtain ⟨x, hx, -⟩ := Option.bind_eq_some_iff.1 hd
    cases hx

/-- No step of a run strands a link. -/
def StrandsNone (s : Session) (steps : List Step) : Prop :=
  ∀ earlier a, earlier ++ [a] <+: steps → ∀ u d,
    ¬ (s.run earlier).snapshot.Strands (s.run (earlier ++ [a])).snapshot u d

/-- Through a run that adds no remappings links stay within imports if and only if no step strands
one. -/
theorem linksWithinImports_run_iff (config : Config) (steps : List Step)
    (hfixed : ∀ remappings, .addRemappings remappings ∉ steps) :
    (∀ earlier, earlier <+: steps → ((start config).run earlier).snapshot.LinksWithinImports) ↔
      (start config).StrandsNone steps := by
  constructor
  · intro hwithin earlier a hbegins u d hstrands
    exact hstrands.lost (hwithin _ hbegins u d hstrands.stillLinked hstrands.other)
  · intro hnone earlier hbegins
    induction earlier using List.reverseRecOn with
    | nil => exact linksWithinImports_start config
    | append_singleton earlier a ih =>
        have hbefore := ih ((List.prefix_append _ _).trans hbegins)
        have hstep := hnone earlier a hbegins
        rw [run_append] at hstep ⊢
        refine (linksWithinImports_step_iff ((Sound.start config).run earlier)
          ((charted_start config).run (Sound.start config) earlier) hbefore fun remappings heq => ?_).2 hstep
        exact hfixed remappings (hbegins.subset (heq ▸ List.mem_append_right _ List.mem_cons_self))

/-- A run in which every tree that is installed stays installed, perhaps as another one, strands no
link. -/
theorem strandsNone_of_isInstalled {s : Session} {steps : List Step}
    (h : ∀ earlier a, earlier ++ [a] <+: steps → ∀ file, (s.run earlier).snapshot.isInstalled file = true →
      (s.run (earlier ++ [a])).snapshot.isInstalled file = true) : s.StrandsNone steps := by
  intro earlier a hbegins u d hstrands
  obtain ⟨file, hold, hnew, -, -⟩ := hstrands.gone
  rw [h earlier a hbegins file hold] at hnew
  cases hnew

/-- Only a call that adds remappings has a step that does. -/
theorem addRemappings_mem_steps {remappings : List Remapping} {calls : List Call}
    (h : .addRemappings remappings ∈ s.steps calls) : .addRemappings remappings ∈ calls := by
  induction calls generalizing s with
  | nil => cases h
  | cons c calls ih =>
      rcases List.mem_append.1 h with h | h
      · refine List.mem_cons.2 (.inl ?_)
        cases c with
        | prepare path text => cases List.mem_singleton.1 h
        | install k => cases List.mem_singleton.1 h
        | index path text => simp [Call.steps] at h
        | indexAll batch => simp [Call.steps] at h
        | remove path => cases List.mem_singleton.1 h
        | addRemappings remappings => cases List.mem_singleton.1 h; rfl
      · exact List.mem_cons_of_mem _ (ih h)

/-- Whatever calls are made that leave the remappings as they are, links stay within imports at
every moment if and only if no tree that is taken away strands a link. Then the snapshot that the
calls lead to has no link into a file that the file of the use does not reach. -/
theorem linksWithinImports_iff (config : Config) (calls : List Call)
    (hfixed : ∀ remappings, .addRemappings remappings ∉ calls) :
    ((∀ earlier, earlier <+: (start config).steps calls →
        ((start config).run earlier).snapshot.LinksWithinImports) ↔
      (start config).StrandsNone ((start config).steps calls)) ∧
    ((start config).StrandsNone ((start config).steps calls) →
      ((start config).callAll calls).snapshot.LinksWithinImports) := by
  have hiff := linksWithinImports_run_iff config ((start config).steps calls)
    fun remappings hmem => hfixed remappings (addRemappings_mem_steps hmem)
  refine ⟨hiff, fun hnone => ?_⟩
  rw [callAll_eq_run]
  exact hiff.2 hnone _ (List.prefix_refl _)

/-- A file that reaches the declaration of a type only by way of a file that is removed. -/
def passing : List Call :=
  [.index "T.sol" "contract T \x7b\x7d", .index "N.sol" "import \"./T.sol\";",
    .index "F.sol" "import \"./N.sol\";\ncontract C \x7b T t; \x7d", .remove "N.sol"]

/-- Links stay within the imports up to the calls of `passing` just as long as no file is
stranded. -/
theorem linksWithinImports_passing_iff :
    ((∀ earlier, earlier <+: (start .default).steps passing →
        ((start .default).run earlier).snapshot.LinksWithinImports) ↔
      (start .default).StrandsNone ((start .default).steps passing)) ∧
    ((start .default).StrandsNone ((start .default).steps passing) →
      ((start .default).callAll passing).snapshot.LinksWithinImports) :=
  linksWithinImports_iff .default passing fun remappings hmem => by simp [passing] at hmem

/-- The link stays although nothing is imported any more. -/
theorem not_linksWithinImports_passing :
    ¬ ((start .default).callAll passing).snapshot.LinksWithinImports := by
  intro hwithin
  have hlinked : (((start .default).callAll passing).snapshot.symbol? ⟨2, 3, 5⟩).any
        (·.declaration == some ⟨0, 1, 1⟩) ∧
      ((start .default).callAll passing).snapshot.importedFiles 2 = [] := by
    decide +kernel
  obtain ⟨x, hx, hd⟩ := (Option.any_eq_true _ _).1 hlinked.1
  have hdeclaration : ((start .default).callAll passing).snapshot.forest.declaration? ⟨2, 3, 5⟩ =
      some ⟨0, 1, 1⟩ := by
    rw [Forest.declaration?, Snapshot.symbol?_forest, hx, Option.bind_some, eq_of_beq hd]
  have hreach := hwithin _ _ hdeclaration (by decide)
  obtain ⟨between, himport, -⟩ := Relation.TransGen.head'_iff.1 hreach
  rw [hlinked.2] at himport
  cases himport

end Session

end SolidityAtlas
