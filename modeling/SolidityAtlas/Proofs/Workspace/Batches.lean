import SolidityAtlas.Proofs.Workspace.KnownPaths

/-!
# Batches

To index a batch is to make all requests first and then to install the texts in order. So the
first texts are installed when the paths and the requests of the later ones are known already.
Both make no difference: paths that are only known change no replacement
(`Workspace.replace_of_known`), and a request only matters for the file that it is for. So a
batch does what its entries do in turn, where an entry is superseded by a later one for the same
file (`Workspace.indexAll_eq_indexLatest`).

## Main Definitions

* `Workspace.Reachable`: the workspaces that calls lead to
* `Workspace.indexInTurn`: one text after the other, each read and installed
* `Workspace.indexLatest`: the same, where superseded entries are requests only

## Main Results

* `Workspace.indexAll_callAll`
-/

namespace SolidityAtlas

namespace Workspace

/-- The workspace after texts, each with its path, are indexed in turn, and what became of each. -/
def indexInTurn (w : Workspace) : List (String × String) → List (Except Failure Outcome) × Workspace
  | [] => ([], w)
  | (path, text) :: batch =>
    let (outcome, w) := w.index path text
    let (outcomes, w) := w.indexInTurn batch
    (outcome :: outcomes, w)

/-- Whether one of the entries is for the file at a path. -/
def Supersedes (batch : List (String × String)) (path : String) : Prop :=
  ∃ entry ∈ batch, Path.normalize entry.1 = Path.normalize path

instance (batch : List (String × String)) (path : String) : Decidable (Supersedes batch path) :=
  inferInstanceAs (Decidable (∃ entry ∈ batch, _))

/-- What a request comes to that nothing is installed for. -/
def indexStale (w : Workspace) (path : String) : Except Failure Outcome × Workspace :=
  let ((file, generation), w) := w.reserve path
  (.ok (.stale file generation), w)

/-- The workspace after the texts that are not superseded are indexed in turn, and what became of
each. For the others there is a request only. -/
def indexLatest (w : Workspace) : List (String × String) → List (Except Failure Outcome) × Workspace
  | [] => ([], w)
  | (path, text) :: batch =>
    let (outcome, w) := if Supersedes batch path then w.indexStale path else w.index path text
    let (outcomes, w) := w.indexLatest batch
    (outcome :: outcomes, w)

variable {w : Workspace}

/-! ## What requests change -/

/-- The workspace with other links and another snapshot. -/
def withLinks (w : Workspace) (links : LinkGraph) (snapshot : Snapshot) : Workspace :=
  { w with links := links, snapshot := snapshot }

/-- A request for a path notes its generation for the file there. -/
theorem get?_requested_prepare (w : Workspace) (path text : String) (other : FileId) :
    (w.prepare path text).2.requested.get? other =
      if other = (w.files.intern path).1 then some w.nextGeneration
      else w.requested.get? other :=
  FileMap.get?_insert _ _ _ _

/-- Requests leave links and snapshot as they are, and they forget no path. -/
theorem prepareAll_keeps (w : Workspace) (batch : List (String × String)) :
    (w.prepareAll batch).2.config = w.config ∧ (w.prepareAll batch).2.links = w.links ∧
      (w.prepareAll batch).2.snapshot = w.snapshot ∧
      w.files.paths <+: (w.prepareAll batch).2.files.paths := by
  induction batch generalizing w with
  | nil => exact ⟨rfl, rfl, rfl, List.prefix_refl _⟩
  | cons entry batch ih =>
      obtain ⟨hconfig, hlinks, hsnapshot, hfiles⟩ := ih (w.prepare entry.1 entry.2).2
      exact ⟨hconfig, hlinks, hsnapshot, (PathTable.prefix_intern _ _).trans hfiles⟩

/-- Requests do not depend on links and snapshot. -/
theorem prepareAll_withLinks (w : Workspace) (links : LinkGraph) (snapshot : Snapshot)
    (batch : List (String × String)) : (w.withLinks links snapshot).prepareAll batch =
      ((w.prepareAll batch).1, (w.prepareAll batch).2.withLinks links snapshot) := by
  induction batch generalizing w with
  | nil => rfl
  | cons entry batch ih =>
      have hprepare : (w.withLinks links snapshot).prepare entry.1 entry.2 =
          ((w.prepare entry.1 entry.2).1, (w.prepare entry.1 entry.2).2.withLinks links snapshot) :=
        rfl
      rw [prepareAll, hprepare, prepareAll]
      simp only [ih]

/-- A later request has a later generation. -/
theorem requested_prepareAll_of_le {file : FileId} {n : Nat} (batch : List (String × String))
    (w : Workspace) (hn : n ≤ w.nextGeneration)
    (h : ∃ g, w.requested.get? file = some g ∧ n ≤ g) :
    ∃ g, (w.prepareAll batch).2.requested.get? file = some g ∧ n ≤ g := by
  induction batch generalizing w with
  | nil => exact h
  | cons entry batch ih =>
      refine ih (w.prepare entry.1 entry.2).2 (Nat.le_succ_of_le hn) ?_
      rw [get?_requested_prepare]
      by_cases heq : file = (w.files.intern entry.1).1
      · rw [if_pos heq]
        exact ⟨_, rfl, hn⟩
      · rw [if_neg heq]
        exact h

/-- An entry for a file makes a later request for it. -/
theorem requested_prepareAll_of_supersedes {path : String} {file : FileId}
    {batch : List (String × String)} (w : Workspace) (hfile : w.files.fileId? path = some file)
    (h : Supersedes batch path) :
    ∃ g, (w.prepareAll batch).2.requested.get? file = some g ∧ w.nextGeneration ≤ g := by
  induction batch generalizing w with
  | nil =>
      obtain ⟨entry, hmem, -⟩ := h
      exact absurd hmem List.not_mem_nil
  | cons entry batch ih =>
      by_cases hsame : Path.normalize entry.1 = Path.normalize path
      · have hentry : w.files.fileId? entry.1 = some file := by
          rw [PathTable.fileId?, hsame]
          exact hfile
        refine requested_prepareAll_of_le batch (w.prepare entry.1 entry.2).2 (Nat.le_succ _) ?_
        rw [get?_requested_prepare, PathTable.intern_of_fileId? hentry, if_pos rfl]
        exact ⟨_, rfl, Nat.le_refl _⟩
      · obtain ⟨other, hmem, hother⟩ := h
        have hrest : Supersedes batch path := by
          rcases List.mem_cons.1 hmem with rfl | hmem
          · exact absurd hother hsame
          · exact ⟨other, hmem, hother⟩
        have hknown : (w.prepare entry.1 entry.2).2.files.fileId? path = some file := by
          rw [← hfile]
          exact PathTable.fileId?_intern_of_ne (Ne.symm hsame)
        obtain ⟨g, hg, hle⟩ := ih (w.prepare entry.1 entry.2).2 hknown hrest
        exact ⟨g, hg, Nat.le_trans (Nat.le_succ _) hle⟩

/-- Entries for other files leave the requests for a file alone. -/
theorem requested_prepareAll_of_not_supersedes {path : String} {file : FileId}
    {batch : List (String × String)} (w : Workspace) (hfile : w.files.fileId? path = some file)
    (h : ¬ Supersedes batch path) :
    (w.prepareAll batch).2.requested.get? file = w.requested.get? file := by
  induction batch generalizing w with
  | nil => rfl
  | cons entry batch ih =>
      have hne : Path.normalize path ≠ Path.normalize entry.1 := fun heq =>
        h ⟨entry, List.mem_cons_self, heq.symm⟩
      have hknown : (w.files.intern entry.1).2.fileId? path = some file := by
        rw [PathTable.fileId?_intern_of_ne hne, hfile]
      have hother : file ≠ (w.files.intern entry.1).1 := by
        rcases PathTable.fileId?_intern hknown with ⟨-, heq⟩ | ⟨hne', -⟩
        · exact absurd heq hne
        · exact hne'
      refine (ih (w.prepare entry.1 entry.2).2 hknown fun hsup => h ?_).trans ?_
      · obtain ⟨other, hmem, heq⟩ := hsup
        exact ⟨other, List.mem_cons_of_mem _ hmem, heq⟩
      · rw [get?_requested_prepare, if_neg hother]

/-- The last request of a batch is the latest one for its file. -/
theorem exists_current_prepareAll {batch : List (String × String)} (w : Workspace)
    (h : batch ≠ []) : ∃ p ∈ (w.prepareAll batch).1,
      (w.prepareAll batch).2.requested.get? p.file = some p.generation := by
  induction batch generalizing w with
  | nil => exact absurd rfl h
  | cons entry batch ih =>
      cases batch with
      | nil =>
          exact ⟨_, List.mem_cons_self,
            (get?_requested_prepare w entry.1 entry.2 _).trans (if_pos rfl)⟩
      | cons next batch =>
          obtain ⟨p, hp, hcurrent⟩ := ih (w.prepare entry.1 entry.2).2 (List.cons_ne_nil _ _)
          exact ⟨p, List.mem_cons_of_mem _ hp, hcurrent⟩

/-! ## What is installed while more is known -/

/-- What is not stale replaces the tree of its file, or takes it away. -/
theorem install_eq_of_current {p : Prepared} (h : w.requested.get? p.file = some p.generation) :
    w.install p = if p.faults.isEmpty || w.config.toleratesFaults then
      (.ok (.installed p.file p.generation), w.replace p.file (some p.tree))
    else (.error (.faulty p.path p.faults), w.replace p.file none) :=
  if_neg (not_not_intro h)

/-- To install a text changes links and snapshot. -/
theorem install_withLinks (w : Workspace) (p : Prepared) :
    (w.install p).2 = w.withLinks (w.install p).2.links (w.install p).2.snapshot := by
  rw [install]
  split
  · rfl
  · split
    · rfl
    · rfl

/-- What was known of paths when the snapshot was made does not matter for what is installed. -/
theorem installAll_withFiles {ps : List Prepared} (w : Workspace) (links : LinkGraph)
    (snapshot : Snapshot) (files : PathTable)
    (h : ∃ p ∈ ps, w.requested.get? p.file = some p.generation) :
    (w.withLinks links (snapshot.withFiles files)).installAll ps =
      (w.withLinks links snapshot).installAll ps := by
  induction ps with
  | nil =>
      obtain ⟨p, hp, -⟩ := h
      exact absurd hp List.not_mem_nil
  | cons p ps ih =>
      rw [installAll, installAll]
      by_cases hcurrent : w.requested.get? p.file = some p.generation
      · have hinstall : (w.withLinks links (snapshot.withFiles files)).install p =
            (w.withLinks links snapshot).install p := by
          rw [install_eq_of_current (w := w.withLinks links snapshot) hcurrent]
          exact install_eq_of_current (w := w.withLinks links (snapshot.withFiles files)) hcurrent
        rw [hinstall]
      · have hrest : ∃ p ∈ ps, w.requested.get? p.file = some p.generation := by
          obtain ⟨q, hq, hqcurrent⟩ := h
          rcases List.mem_cons.1 hq with rfl | hq
          · exact absurd hqcurrent hcurrent
          · exact ⟨q, hq, hqcurrent⟩
        rw [(w.withLinks links snapshot).install_of_not_current hcurrent,
          (w.withLinks links (snapshot.withFiles files)).install_of_not_current hcurrent]
        simp only [ih hrest]

/-- The workspaces that calls lead to. -/
def Reachable (w : Workspace) : Prop :=
  ∃ config calls, ((Session.start config).callAll calls).workspace = w

namespace Reachable

variable (h : w.Reachable)

include h

/-- Preparing a reading leads to a state that can be reached. -/
theorem prepare (path text : String) : (w.prepare path text).2.Reachable := by
  obtain ⟨config, calls, rfl⟩ := h
  refine ⟨config, calls ++ [.prepare path text], ?_⟩
  rw [Session.callAll, List.foldl_append]
  rfl

/-- Indexing a text leads to a state that can be reached. -/
theorem index (path text : String) : (w.index path text).2.Reachable := by
  obtain ⟨config, calls, rfl⟩ := h
  refine ⟨config, calls ++ [.index path text], ?_⟩
  rw [Session.callAll, List.foldl_append]
  rfl

/-- Paths that are given out later do not concern the files of a state that is reached. -/
theorem extendable {files : PathTable} (hfiles : w.files.paths <+: files.paths) :
    (w.snapshot.withFiles w.files).Extendable files := by
  obtain ⟨config, calls, rfl⟩ := h
  have hcharted := Session.charted_callAll config calls
  exact ⟨fun file hfile => Nat.lt_of_lt_of_le (hcharted.snapshot.known file hfile)
    hcharted.files.length_le, hfiles⟩

/-- What is installed before the requests of a batch is installed behind them too, with the same
result. -/
theorem install_prepareAll {p : Prepared} (batch : List (String × String))
    (hcurrent : w.requested.get? p.file = some p.generation)
    (hcurrent' : (w.prepareAll batch).2.requested.get? p.file = some p.generation)
    (hfile : p.file < w.files.size) (htree : p.tree.file = p.file) :
    (w.prepareAll batch).2.install p = ((w.install p).1, (w.prepareAll batch).2.withLinks
      (w.install p).2.links ((w.install p).2.snapshot.withFiles (w.prepareAll batch).2.files)) := by
  obtain ⟨hconfig, hlinks, hsnapshot, hfiles⟩ := w.prepareAll_keeps batch
  have hreplace : ∀ tree, (∀ t, tree = some t → t.file = p.file) →
      (w.prepareAll batch).2.replace p.file tree = (w.prepareAll batch).2.withLinks
        (w.replace p.file tree).links
        ((w.replace p.file tree).snapshot.withFiles (w.prepareAll batch).2.files) :=
    fun tree htree => replace_of_known (h.extendable hfiles) htree hfile hconfig hlinks hsnapshot
  rw [install_eq_of_current hcurrent, install_eq_of_current hcurrent', hconfig]
  split
  · rw [hreplace (some p.tree) fun t ht => Option.some.inj ht ▸ htree]
  · rw [hreplace none fun t ht => nomatch ht]

/-- What is prepared in front of a batch is stale where the batch supersedes it. Otherwise it can be
installed before the requests of the batch are made. -/
theorem installAll_cons {p : Prepared} {path : String} (batch : List (String × String))
    (hknown : w.files.fileId? path = some p.file)
    (hcurrent : w.requested.get? p.file = some p.generation)
    (hnext : p.generation < w.nextGeneration) (htree : p.tree.file = p.file) :
    (w.prepareAll batch).2.installAll (p :: (w.prepareAll batch).1) =
      if Supersedes batch path then
        (.ok (.stale p.file p.generation) :: (w.indexAll batch).1, (w.indexAll batch).2)
      else
        ((w.install p).1 :: ((w.install p).2.indexAll batch).1,
          ((w.install p).2.indexAll batch).2) := by
  rw [installAll]
  by_cases hsuperseded : Supersedes batch path
  · obtain ⟨g, hg, hle⟩ := requested_prepareAll_of_supersedes w hknown hsuperseded
    have hnot : (w.prepareAll batch).2.requested.get? p.file ≠ some p.generation := by
      rw [hg]
      exact fun heq => absurd (Option.some.inj heq) (Nat.ne_of_gt (Nat.lt_of_lt_of_le hnext hle))
    rw [if_pos hsuperseded, install_of_not_current _ hnot, w.indexAll_eq]
  · have hfile : p.file < w.files.size :=
      (List.getElem?_eq_some_iff.1 (PathTable.path?_of_fileId? hknown)).1
    have hinstall := h.install_prepareAll batch hcurrent
      ((requested_prepareAll_of_not_supersedes w hknown hsuperseded).trans hcurrent) hfile htree
    rw [if_neg hsuperseded, hinstall]
    have hrest : ((w.prepareAll batch).2.withLinks (w.install p).2.links
          ((w.install p).2.snapshot.withFiles (w.prepareAll batch).2.files)).installAll
            (w.prepareAll batch).1 = (w.install p).2.indexAll batch := by
      rw [indexAll_eq]
      cases batch with
      | nil =>
          have hself := congrArg Prod.snd (h.install_prepareAll [] hcurrent hcurrent hfile htree)
          exact congrArg (Prod.mk []) hself.symm
      | cons entry batch =>
          rw [w.install_withLinks p, prepareAll_withLinks]
          exact installAll_withFiles _ _ _ _
            (exists_current_prepareAll w (List.cons_ne_nil entry batch))
    simp only [hrest]

/-- The first entry of a batch is stale where another one is for the same file. Otherwise it can be
indexed before the others are looked at. -/
theorem indexAll_cons (path text : String) (batch : List (String × String)) :
    w.indexAll ((path, text) :: batch) =
      if Supersedes batch path then
        ((w.indexStale path).1 :: ((w.indexStale path).2.indexAll batch).1,
          ((w.indexStale path).2.indexAll batch).2)
      else
        ((w.index path text).1 :: ((w.index path text).2.indexAll batch).1,
          ((w.index path text).2.indexAll batch).2) := by
  have hknown : (w.prepare path text).2.files.fileId? path = some (w.prepare path text).1.file :=
    PathTable.fileId?_intern_self _ _
  have hcurrent := (get?_requested_prepare w path text _).trans (if_pos rfl)
  rw [indexAll_eq]
  exact (h.prepare path text).installAll_cons batch hknown hcurrent (Nat.lt_succ_self _)
    (SymbolTree.label_grow _ _ _ _ _).1

end Reachable

/-- A batch does what its entries do in turn that are not superseded. -/
theorem Reachable.indexAll_eq_indexLatest (h : w.Reachable) (batch : List (String × String)) :
    w.indexAll batch = w.indexLatest batch := by
  induction batch generalizing w with
  | nil => rfl
  | cons entry batch ih =>
      obtain ⟨path, text⟩ := entry
      rw [h.indexAll_cons, indexLatest]
      split
      · have hstale : (w.indexStale path).2.Reachable := h.prepare path text
        rw [ih hstale]
      · rw [ih (h.index path text)]

/-- What is superseded by no later entry is indexed. -/
theorem indexLatest_eq_indexInTurn (w : Workspace) {batch : List (String × String)}
    (h : (batch.map fun entry => Path.normalize entry.1).Nodup) :
    w.indexLatest batch = w.indexInTurn batch := by
  induction batch generalizing w with
  | nil => rfl
  | cons entry batch ih =>
      obtain ⟨path, text⟩ := entry
      rw [List.map_cons, List.nodup_cons] at h
      have hlatest : ¬ Supersedes batch path := fun ⟨other, hmem, heq⟩ =>
        h.1 (List.mem_map.2 ⟨other, hmem, heq⟩)
      rw [indexLatest, if_neg hlatest, indexInTurn]
      simp only [ih _ h.2]

/-- An entry that a later one supersedes is answered as stale. -/
theorem getElem?_indexLatest_of_supersedes (w : Workspace) {batch : List (String × String)}
    {i j : Nat} {entry later : String × String} (hentry : batch[i]? = some entry)
    (hlater : batch[j]? = some later) (hlt : i < j)
    (hsame : Path.normalize later.1 = Path.normalize entry.1) :
    ∃ file generation, (w.indexLatest batch).1[i]? = some (.ok (.stale file generation)) := by
  induction batch generalizing w i j with
  | nil => cases hentry
  | cons first batch ih =>
      obtain ⟨path, text⟩ := first
      obtain ⟨j, rfl⟩ := Nat.exists_eq_add_one.2 (Nat.zero_lt_of_lt hlt)
      rw [List.getElem?_cons_succ] at hlater
      rw [indexLatest]
      cases i with
      | zero =>
          obtain rfl := Option.some.inj hentry
          rw [if_pos ⟨later, List.mem_of_getElem? hlater, hsame⟩]
          exact ⟨_, _, rfl⟩
      | succ i => exact ih _ hentry hlater (Nat.lt_of_succ_lt_succ hlt)

/-- **A batch of texts for different files does what its entries do in turn**, in every workspace
that calls lead to: it comes to the same results and to the same workspace. Where a file occurs
more than once, the last of its entries is indexed. The others are answered as stale, and they
are only noted as requests. -/
theorem indexAll_callAll (config : Config) (calls : List Call) (batch : List (String × String)) :
    let w := ((Session.start config).callAll calls).workspace
    ((batch.map fun entry => Path.normalize entry.1).Nodup →
        w.indexAll batch = w.indexInTurn batch) ∧
      w.indexAll batch = w.indexLatest batch ∧
      ∀ (i j : Nat) (entry later : String × String), batch[i]? = some entry →
        batch[j]? = some later → i < j → Path.normalize later.1 = Path.normalize entry.1 →
        ∃ file generation, (w.indexAll batch).1[i]? = some (.ok (.stale file generation)) := by
  intro w
  have hlatest : w.indexAll batch = w.indexLatest batch :=
    Reachable.indexAll_eq_indexLatest ⟨config, calls, rfl⟩ batch
  refine ⟨fun hnodup => hlatest.trans (w.indexLatest_eq_indexInTurn hnodup), hlatest,
    fun i j entry later hentry hlater hlt hsame => ?_⟩
  rw [hlatest]
  exact w.getElem?_indexLatest_of_supersedes hentry hlater hlt hsame

end Workspace

end SolidityAtlas
