import SolidityAtlas.Proofs.Path.Table
import SolidityAtlas.Proofs.Workspace.Replace

/-!
# Sessions

What has been read for a workspace can be installed at any later time, in any order,
but only once. A *session* is a workspace together with what has been read for it and
is not installed yet. What can happen to it are four steps; to index a text or many
texts is a sequence of these (`Session.call_eq_run`), so what every step keeps holds
whenever somebody can look at the workspace.

All that a step can do to the trees is to put another tree in the place of one
(`Session.step_cases`), and that tree has never been installed before.

## Main Definitions

* `Session`, `Step`, `Session.run`
* `Call`, `Session.call`: what can be asked of a workspace
* `Session.replaced?`: the file whose tree a step replaces
* `Session.Sound`: the links of the workspace are in order, and so is what has been read

## Main Results

* `Session.call_eq_run`: a call is a sequence of steps
* `Session.Sound.run`: what every sequence of steps keeps
-/

namespace SolidityAtlas

/-- A workspace, and what has been read for it but not installed yet. -/
structure Session where
  workspace : Workspace
  prepared : List Prepared

/-- What can happen to a session at once. -/
inductive Step where
  | prepare (path text : String)
  /-- Install what was read as the one after `k` others that are still to be installed. -/
  | install (k : Nat)
  | remove (path : String)
  | addRemappings (remappings : List Remapping)

/-- What can be asked of a workspace. -/
inductive Call where
  | prepare (path text : String)
  | install (k : Nat)
  | index (path text : String)
  | indexAll (batch : List (String × String))
  | remove (path : String)
  | addRemappings (remappings : List Remapping)

namespace Session

/-- A session in which nothing has happened yet. -/
def start (config : Config) : Session :=
  ⟨.empty config, []⟩

variable (s : Session)

/-- What can be seen of a session. -/
abbrev snapshot : Snapshot :=
  s.workspace.snapshot

/-- The session after one step. -/
def step : Step → Session
  | .prepare path text =>
    let (p, w) := s.workspace.prepare path text
    ⟨w, s.prepared ++ [p]⟩
  | .install k =>
    match s.prepared[k]? with
    | some p => ⟨(s.workspace.install p).2, s.prepared.eraseIdx k⟩
    | none => s
  | .remove path =>
    match s.workspace.remove path with
    | .ok w => { s with workspace := w }
    | .error _ => s
  | .addRemappings remappings => { s with workspace := s.workspace.addRemappings remappings }

/-- The session after a sequence of steps. -/
def run (steps : List Step) : Session :=
  steps.foldl step s

/-- The session after a call. -/
def call : Call → Session
  | .prepare path text => s.step (.prepare path text)
  | .install k => s.step (.install k)
  | .index path text => { s with workspace := (s.workspace.index path text).2 }
  | .indexAll batch => { s with workspace := (s.workspace.indexAll batch).2 }
  | .remove path => s.step (.remove path)
  | .addRemappings remappings => s.step (.addRemappings remappings)

/-- The session after a sequence of calls. -/
def callAll (calls : List Call) : Session :=
  calls.foldl call s

end Session

/-- The steps that a call consists of when some texts are still to be installed. -/
def Call.steps (outstanding : Nat) : Call → List Step
  | .prepare path text => [.prepare path text]
  | .install k => [.install k]
  | .index path text => [.prepare path text, .install outstanding]
  | .indexAll batch =>
    batch.map (fun (path, text) => .prepare path text) ++
      List.replicate batch.length (.install outstanding)
  | .remove path => [.remove path]
  | .addRemappings remappings => [.addRemappings remappings]

/-! ## Calls are sequences of steps -/

namespace Workspace

variable (w : Workspace)

/-- A number that has a path keeps it. -/
theorem path?_reserveAll {file : FileId} {written : String} (h : w.files.path? file = some written)
    (batch : List (String × String)) : (w.reserveAll batch).2.files.path? file = some written := by
  induction batch generalizing w with
  | nil => exact h
  | cons entry batch ih => exact ih (w.reserve entry.1).2 (PathTable.path?_intern h entry.1)

/-- Reserving a batch changes no configuration. -/
theorem config_reserveAll (batch : List (String × String)) :
    (w.reserveAll batch).2.config = w.config := by
  induction batch generalizing w with
  | nil => rfl
  | cons entry batch ih => exact ih (w.reserve entry.1).2

/-- A reading depends on the configuration and the path of its file. -/
theorem read_congr {w w' : Workspace} (hconfig : w'.config = w.config) {file : FileId}
    (hfiles : w'.files.path? file = w.files.path? file) (generation : Nat) (path text : String) :
    w'.read file generation path text = w.read file generation path text := by
  rw [read, read, hconfig, hfiles]

/-- What is read for many texts is what is read for one after the other. -/
def prepareAll (w : Workspace) : List (String × String) → List Prepared × Workspace
  | [] => ([], w)
  | (path, text) :: batch =>
    let (p, w) := w.prepare path text
    let (ps, w) := w.prepareAll batch
    (p :: ps, w)

/-- A batch is prepared by reserving all of its numbers first and then reading. -/
theorem prepareAll_eq (batch : List (String × String)) :
    w.prepareAll batch =
      ((batch.zip (w.reserveAll batch).1).map fun ((path, text), file, generation) =>
        (w.reserveAll batch).2.read file generation path text, (w.reserveAll batch).2) := by
  induction batch generalizing w with
  | nil => rfl
  | cons entry batch ih =>
      obtain ⟨path, text⟩ := entry
      obtain ⟨written, hwritten⟩ := w.files.exists_path?_intern path
      have hread := read_congr ((w.reserve path).2.config_reserveAll batch)
        (((w.reserve path).2.path?_reserveAll hwritten batch).trans hwritten.symm)
        (w.reserve path).1.2 path text
      have hcons : w.prepareAll ((path, text) :: batch) =
          ((w.prepare path text).1 :: ((w.prepare path text).2.prepareAll batch).1,
            ((w.prepare path text).2.prepareAll batch).2) := rfl
      rw [hcons, ih]
      exact Prod.ext (congrArg₂ List.cons hread.symm rfl) rfl

/-- A batch is indexed by preparing it and installing what was prepared. -/
theorem indexAll_eq (batch : List (String × String)) :
    w.indexAll batch = (w.prepareAll batch).2.installAll (w.prepareAll batch).1 := by
  rw [prepareAll_eq]
  rfl

end Workspace

namespace Session

variable (s : Session)

theorem run_append (steps steps' : List Step) : s.run (steps ++ steps') = (s.run steps).run steps' :=
  List.foldl_append

/-- Preparing a batch is preparing its texts one by one. -/
theorem run_prepare (batch : List (String × String)) :
    s.run (batch.map fun (path, text) => .prepare path text) =
      ⟨(s.workspace.prepareAll batch).2, s.prepared ++ (s.workspace.prepareAll batch).1⟩ := by
  induction batch generalizing s with
  | nil => rw [Workspace.prepareAll, List.append_nil]; rfl
  | cons entry batch ih =>
      refine (ih (s.step (.prepare entry.1 entry.2))).trans ?_
      simp only [step, Workspace.prepareAll, List.append_assoc, List.singleton_append]

/-- Installing a batch is installing its readings one by one, the others left outstanding. -/
theorem run_install (ps : List Prepared) (w : Workspace) (outstanding : List Prepared) :
    Session.run ⟨w, outstanding ++ ps⟩ (List.replicate ps.length (.install outstanding.length)) =
      ⟨(w.installAll ps).2, outstanding⟩ := by
  induction ps generalizing w with
  | nil => rw [List.append_nil]; rfl
  | cons p ps ih =>
      have hstep : Session.step ⟨w, outstanding ++ p :: ps⟩ (.install outstanding.length) =
          ⟨(w.install p).2, outstanding ++ ps⟩ := by
        simp [step, List.eraseIdx_append_of_length_le]
      exact (congrArg (Session.run · _) hstep).trans (ih _)

/-- A call is a sequence of steps. -/
theorem call_eq_run (c : Call) : s.call c = s.run (c.steps s.prepared.length) := by
  cases c with
  | prepare path text => rfl
  | install k => rfl
  | remove path => rfl
  | addRemappings remappings => rfl
  | index path text =>
      have hindex : s.workspace.index path text =
          (s.workspace.prepare path text).2.install (s.workspace.prepare path text).1 := rfl
      exact ((run_install [(s.workspace.prepare path text).1] (s.workspace.prepare path text).2
        s.prepared).trans (by rw [call, hindex]; rfl)).symm
  | indexAll batch =>
      have hlength : (s.workspace.prepareAll batch).1.length = batch.length := by
        have hall : ∀ (batch : List (String × String)) (w : Workspace),
            (w.prepareAll batch).1.length = batch.length := by
          intro batch
          induction batch with
          | nil => exact fun _ => rfl
          | cons entry batch ih => exact fun w => congrArg (· + 1) (ih (w.prepare entry.1 entry.2).2)
        exact hall batch s.workspace
      rw [Call.steps, run_append, run_prepare, ← hlength, run_install, ← Workspace.indexAll_eq]
      rfl

/-- The steps that a sequence of calls consists of. -/
def steps (s : Session) : List Call → List Step
  | [] => []
  | c :: calls => c.steps s.prepared.length ++ (s.call c).steps calls

/-- Calls are a sequence of steps. -/
theorem callAll_eq_run (calls : List Call) : s.callAll calls = s.run (s.steps calls) := by
  induction calls generalizing s with
  | nil => rfl
  | cons c calls ih =>
      rw [steps, run_append, ← call_eq_run, ← ih]
      rfl

/-! ## What a step does to the workspace -/

end Session

namespace Workspace

variable (w : Workspace) {p : Prepared}

/-- The tree that is kept of what has been read, if it is kept. -/
def kept? (p : Prepared) : Option SymbolTree :=
  if p.faults.isEmpty || w.config.toleratesFaults then some p.tree else none

variable {w} in
/-- What is kept of a reading is its tree. -/
theorem tree_of_kept? {t : SymbolTree} (h : w.kept? p = some t) : p.tree = t := by
  unfold kept? at h
  split at h
  · exact Option.some.inj h
  · cases h

/-- What is stale changes nothing. -/
theorem install_of_not_current (h : w.requested.get? p.file ≠ some p.generation) :
    w.install p = (.ok (.stale p.file p.generation), w) :=
  if_pos h

/-- What is not stale replaces the tree of its file. -/
theorem install_of_current (h : w.requested.get? p.file = some p.generation) :
    (w.install p).2 = w.replace p.file (w.kept? p) ∧
      ∀ file generation, (w.install p).1 ≠ .ok (.stale file generation) := by
  rw [install, if_neg (not_not_intro h), kept?]
  split
  · refine ⟨rfl, fun file generation heq => ?_⟩
    cases heq
  · refine ⟨rfl, fun file generation heq => ?_⟩
    cases heq

end Workspace

namespace Session

variable (s : Session)

/-- The file whose tree a step takes away or puts another one in the place of. To install what is
stale is no such step, and neither is to remove a file that nobody knows. -/
def replaced? : Step → Option FileId
  | .prepare _ _ => none
  | .install k => s.prepared[k]?.bind fun p =>
    match (s.workspace.install p).1 with
    | .ok (.stale _ _) => none
    | _ => some p.file
  | .remove path => s.workspace.files.fileId? path
  | .addRemappings _ => none

variable {s} in
/-- A step that replaces no tree leaves all trees and the link graph as they are, and the whole
snapshot too unless it adds remappings. -/
theorem step_of_replaced?_none {a : Step} (h : s.replaced? a = none) :
    (s.step a).workspace.links = s.workspace.links ∧
      (s.step a).workspace.snapshot.trees = s.workspace.snapshot.trees ∧
      ((s.step a).snapshot = s.snapshot ∨ ∃ remappings, a = .addRemappings remappings) := by
  cases a with
  | prepare path text => exact ⟨rfl, rfl, .inl rfl⟩
  | install k =>
      cases hp : s.prepared[k]? with
      | none =>
          rw [step, hp]
          exact ⟨rfl, rfl, .inl rfl⟩
      | some p =>
          have hstale : (s.workspace.install p).2 = s.workspace := by
            by_cases hcurrent : s.workspace.requested.get? p.file = some p.generation
            · rw [replaced?, hp, Option.bind_some] at h
              split at h
              · exact absurd ‹_› ((s.workspace.install_of_current hcurrent).2 _ _)
              · cases h
            · rw [s.workspace.install_of_not_current hcurrent]
          have hstep : s.step (.install k) = ⟨s.workspace, s.prepared.eraseIdx k⟩ := by
            simp only [step, hp, hstale]
          rw [hstep]
          exact ⟨rfl, rfl, .inl rfl⟩
  | remove path =>
      have hunknown : s.workspace.files.fileId? path = none := h
      have hstep : s.step (.remove path) = s := by
        simp only [step, Workspace.remove, hunknown]
      rw [hstep]
      exact ⟨rfl, rfl, .inl rfl⟩
  | addRemappings remappings =>
      exact ⟨rfl, Snapshot.trees_foldl_refreshEdges _ _, .inr ⟨remappings, rfl⟩⟩

variable {s} in
/-- A step that replaces a tree puts another one in its place that has been read, or none. -/
theorem step_of_replaced? {a : Step} {file : FileId} (h : s.replaced? a = some file) :
    ∃ w tree, (s.step a).workspace = Workspace.replace w file tree ∧
      w.links = s.workspace.links ∧ w.snapshot = s.workspace.snapshot ∧
      (∀ t, tree = some t → ∃ k p, a = .install k ∧ s.prepared[k]? = some p ∧ p.tree = t ∧
        p.file = file) ∧
      w.files = s.workspace.files := by
  cases a with
  | prepare path text => cases h
  | install k =>
      obtain ⟨p, hp, hfile⟩ := Option.bind_eq_some_iff.1 h
      by_cases hcurrent : s.workspace.requested.get? p.file = some p.generation
      · obtain ⟨hreplace, hanswer⟩ := s.workspace.install_of_current hcurrent
        have heq : p.file = file := by
          split at hfile
          · exact absurd ‹_› (hanswer _ _)
          · exact Option.some.inj hfile
        subst heq
        refine ⟨s.workspace, s.workspace.kept? p, ?_, rfl, rfl, fun t ht => ?_, rfl⟩
        · simp only [step, hp, hreplace]
        · exact ⟨k, p, rfl, hp, Workspace.tree_of_kept? ht, rfl⟩
      · rw [s.workspace.install_of_not_current hcurrent] at hfile
        cases hfile
  | remove path =>
      have hknown : s.workspace.files.fileId? path = some file := h
      simp only [step, Workspace.remove, hknown]
      exact ⟨(s.workspace.request file).2, none, rfl, rfl, rfl, fun _ ht => (nomatch ht), rfl⟩
  | addRemappings remappings => cases h

/-- A step puts another tree in the place of one, or it leaves all trees and the link graph as
they are, and the whole snapshot too unless it adds remappings. -/
theorem step_cases (a : Step) :
    ((s.step a).workspace.links = s.workspace.links ∧
      (s.step a).workspace.snapshot.trees = s.workspace.snapshot.trees ∧
      ((s.step a).snapshot = s.snapshot ∨ ∃ remappings, a = .addRemappings remappings)) ∨
    ∃ w file tree, (s.step a).workspace = Workspace.replace w file tree ∧
      w.links = s.workspace.links ∧ w.snapshot = s.workspace.snapshot ∧
      (∀ t, tree = some t → ∃ k p, a = .install k ∧ s.prepared[k]? = some p ∧ p.tree = t ∧
        p.file = file) ∧
      w.files = s.workspace.files := by
  cases h : s.replaced? a with
  | none => exact .inl (step_of_replaced?_none h)
  | some file =>
      obtain ⟨w, tree, hreplace⟩ := step_of_replaced? h
      exact .inr ⟨w, file, tree, hreplace⟩

/-- What is still to be installed after a step was to be installed before, or it has been read in
this step. -/
theorem mem_prepared_step {a : Step} {p : Prepared} (hp : p ∈ (s.step a).prepared) :
    p ∈ s.prepared ∨
      ∃ path text, a = .prepare path text ∧ p = (s.workspace.prepare path text).1 := by
  cases a with
  | prepare path text =>
      rcases List.mem_append.1 hp with hp | hp
      · exact .inl hp
      · exact .inr ⟨path, text, rfl, List.mem_singleton.1 hp⟩
  | install k =>
      simp only [step] at hp
      split at hp
      · exact .inl (List.mem_of_mem_eraseIdx hp)
      · exact .inl hp
  | remove path =>
      simp only [step] at hp
      split at hp
      · exact .inl hp
      · exact .inl hp
  | addRemappings remappings => exact .inl hp

/-! ## The links are in order -/

/-- The links of the workspace are in order, and what has been read is not linked yet. -/
structure Sound : Prop where
  workspace : s.workspace.Sound
  prepared : ∀ p ∈ s.prepared, p.tree.Grown (fun _ => False) ∧ p.tree.file = p.file

end Session

/-- A sound snapshot is sound by its trees. -/
theorem Snapshot.sound_of_trees_eq {s s' : Snapshot} (h : s.Sound) (htrees : s'.trees = s.trees) :
    s'.Sound := by
  have htree : s'.tree? = s.tree? := by
    funext file
    rw [tree?, tree?, htrees]
  have hsymbol : s'.forest.symbol? = s.forest.symbol? := by
    funext a
    exact Sound.symbol?_of_tree?_eq (by rw [htree])
  refine ⟨fun file t ht => h.home file t (by rw [← htree, ht]),
    fun file t ht => h.tidy file t (by rw [← htree, ht]), ⟨?_, ?_, ?_⟩⟩
  · simp only [Forest.declaration?, Forest.Lists, hsymbol]
    exact h.paired.listed
  · simp only [Forest.Lists, hsymbol]
    exact h.paired.found
  · simp only [Forest.declaration?, Forest.Lists, hsymbol]
    exact h.paired.linked

/-- Links between files are read off the trees. -/
theorem Snapshot.linksInto_of_trees_eq {s s' : Snapshot} (htrees : s'.trees = s.trees) :
    s'.LinksInto = s.LinksInto := by
  funext source target
  rw [LinksInto, LinksInto, tree?, tree?, htrees]

namespace Workspace

theorem sound_empty (config : Config) : (empty config).Sound := by
  have hnone : ∀ file, (empty config).snapshot.tree? file = none := fun _ => rfl
  have hlinks : ∀ source target, ¬ (empty config).snapshot.LinksInto source target := by
    rintro source target ⟨t, ht, -⟩
    rw [hnone] at ht
    cases ht
  refine ⟨⟨fun file t ht => ?_, fun file t ht => ?_, ⟨fun u d hd => ?_, fun d u hd => ?_,
    fun d u hd => ?_⟩⟩, LinkGraph.notes_empty.congr (fun source target => ?_) fun source target => ?_⟩
  · cases ht
  · cases ht
  · obtain ⟨x, hx, -⟩ := Option.bind_eq_some_iff.1 hd
    cases hx
  · obtain ⟨x, hx, -⟩ := hd
    cases hx
  · obtain ⟨x, hx, -⟩ := hd
    cases hx
  · exact iff_of_false id (hlinks source target)
  · exact iff_of_false id (hlinks source target)

end Workspace

namespace Session

namespace Sound

variable {s : Session} (h : s.Sound)

/-- A session starts sound. -/
theorem start (config : Config) : (start config).Sound :=
  ⟨Workspace.sound_empty config, fun _ hp => absurd hp List.not_mem_nil⟩

include h

/-- What a replacement asks for. -/
theorem premises {a : Step} {w : Workspace} {file : FileId} {tree : Option SymbolTree}
    (hlinks : w.links = s.workspace.links) (hsnapshot : w.snapshot = s.workspace.snapshot)
    (htree : ∀ t, tree = some t → ∃ k p, a = .install k ∧ s.prepared[k]? = some p ∧ p.tree = t ∧
      p.file = file) :
    w.Sound ∧ ∀ t, tree = some t → t.Grown (fun _ => False) ∧ t.file = file := by
  refine ⟨⟨?_, ?_⟩, fun t ht => ?_⟩
  · rw [hsnapshot]
    exact h.workspace.snapshot
  · rw [hlinks, hsnapshot]
    exact h.workspace.links
  · obtain ⟨k, p, -, hp, rfl, rfl⟩ := htree t ht
    exact h.prepared p (List.mem_of_getElem? hp)

/-- Every step leaves a session sound. -/
theorem step (a : Step) : (s.step a).Sound := by
  refine ⟨?_, fun p hp => ?_⟩
  · rcases s.step_cases a with ⟨hlinks, htrees, -⟩ |
      ⟨w, file, tree, heq, hlinks, hsnapshot, htree, -⟩
    · refine ⟨Snapshot.sound_of_trees_eq h.workspace.snapshot htrees, ?_⟩
      rw [hlinks, Snapshot.linksInto_of_trees_eq htrees]
      exact h.workspace.links
    · obtain ⟨hw, hgrown⟩ := h.premises hlinks hsnapshot htree
      rw [heq]
      exact hw.replace hgrown
  · rcases s.mem_prepared_step hp with hp | ⟨path, text, -, rfl⟩
    · exact h.prepared p hp
    · exact ⟨SymbolTree.grown_grow _ _ _ _ _, (SymbolTree.label_grow _ _ _ _ _).1⟩

/-- Every run leaves a session sound. -/
theorem run (steps : List Step) : (s.run steps).Sound := by
  induction steps generalizing s with
  | nil => exact h
  | cons a steps ih => exact ih (h.step a)

end Sound

/-- The links of every workspace that calls lead to are in order. -/
theorem sound_callAll (config : Config) (calls : List Call) : ((start config).callAll calls).Sound := by
  rw [callAll_eq_run]
  exact (Sound.start config).run _

end Session

/-! ## No handle is left behind -/

/-- The handles that a symbol holds: what it refers to, what its type is, and what refers to it. -/
def Symbol.handles (x : Symbol) : List Handle :=
  x.declaration.toList ++ x.declaredType ++ x.references

/-- Every handle that a symbol of an installed tree holds finds a node, in the tree that is
installed now. -/
def Snapshot.NoDangling (s : Snapshot) : Prop :=
  ∀ file t id x, s.tree? file = some t → t.symbol? id = some x → ∀ a ∈ x.handles,
    (s.symbol? a).isSome ∧
      ∃ t', s.tree? a.file = some t' ∧ a.generation = t'.generation ∧ a.node < t'.size

/-- In a sound snapshot nothing dangles. -/
theorem Snapshot.Sound.noDangling {s : Snapshot} (h : s.Sound) : s.NoDangling := by
  intro file t id x ht hx a ha
  have hhandle : s.symbol? (t.handle id) = some x := by rw [h.symbol?_handle ht, hx]
  have hdeclaration : ∀ d, x.declaration = some d → (s.symbol? d).isSome = true := fun d hd =>
    h.paired.isSome_declaration (u := t.handle id) (by
      rw [Forest.declaration?, symbol?_forest, hhandle, Option.bind_some, hd])
  have hfound : (s.symbol? a).isSome = true := by
    rw [Symbol.handles, List.mem_append, List.mem_append, Option.mem_toList] at ha
    rcases ha with (ha | ha) | ha
    · exact hdeclaration a ha
    · rcases (h.tidy file t ht).declaredType id x hx a ha with rfl | hd
      · rw [hhandle]
        rfl
      · exact hdeclaration a hd
    · exact h.paired.found (t.handle id) a ⟨x, hhandle, ha⟩
  refine ⟨hfound, ?_⟩
  obtain ⟨y, hy⟩ := Option.isSome_iff_exists.1 hfound
  obtain ⟨t', i, ht', hi, heq⟩ := exists_tree?_of_symbol? hy
  refine ⟨t', ht', ?_, ?_⟩
  · rw [heq]
    rfl
  · rw [heq]
    exact SymbolTree.lt_size_of_symbol? hi

/-- Whatever calls are made, no handle of an installed tree is left pointing to a tree that is
installed no longer. -/
theorem Session.noDangling_callAll (config : Config) (calls : List Call) :
    ((start config).callAll calls).snapshot.NoDangling :=
  (sound_callAll config calls).workspace.snapshot.noDangling

end SolidityAtlas
