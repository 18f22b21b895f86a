import Mathlib.Data.List.InsertIdx
import SolidityAtlas.Proofs.Workspace.Reindex

/-!
# Many clients at one workspace

Several clients can use one workspace at the same time. What one of them does is then a row
of smaller moves, and the moves of the others come in between. To have a text indexed, a
client gets a number for the path, makes a request, reads the text, and installs the result;
to have a file removed, it makes a request and takes the tree away. Numbers and generations
are handed out at any time, and texts are read at any time. But trees are replaced by one
client at a time, the one that has the lock; it has looked before whether the request it
works for is still the latest one.

A history of the requests and of what has been put in place is kept with the workspace. No move
looks at it.

## Main Definitions

* `Traffic`, `Move`, `Traffic.run`: a workspace with many clients, and what they do
* `Traffic.Enabled`: whether a move changes anything
* `Request.tree?`: the tree that a request asks for

## Main Results

* `Traffic.exists_run_resembles`: calls one after the other are a special case
-/

namespace SolidityAtlas

/-! ## Requests and their effects -/

/-- A request about a file: the text that it is to be read from, or none if it is to be removed. -/
structure Request where
  file : FileId
  generation : Nat
  text : Option String

/-- What comes of a request: a tree that is put in the place of the one of the file, or none. -/
structure Effect where
  file : FileId
  generation : Nat
  tree : Option SymbolTree

namespace Request

variable (config : Config) (r : Request)

/-- The tree that a request asks for, if it asks for one and the text is good enough. -/
def tree? : Option SymbolTree :=
  r.text.bind fun text =>
    if (parse text).faults.isEmpty || config.toleratesFaults then
      some (.grow config.maxDepth r.file r.generation (.ofText text) (parse text).tree)
    else none

/-- What comes of a request that is still the latest one when its turn comes. -/
def effect : Effect :=
  ⟨r.file, r.generation, r.tree? config⟩

variable {config r}

/-- The tree of a reading has grown, and carries its file and its number. -/
theorem of_tree? {t : SymbolTree} (ht : r.tree? config = some t) :
    t.Grown (fun _ => False) ∧ t.file = r.file ∧ t.generation = r.generation := by
  obtain ⟨text, -, htext⟩ := Option.bind_eq_some_iff.1 ht
  split at htext
  · cases htext
    obtain ⟨hfile, hgeneration⟩ := SymbolTree.label_grow config.maxDepth r.file r.generation
      (.ofText text) (parse text).tree
    exact ⟨SymbolTree.grown_grow _ _ _ _ _, hfile, hgeneration⟩
  · cases htext

end Request

/-! ## Moves -/

/-- What a client has still to do for a text. -/
inductive Job where
  /-- The path has its number; a generation is to be asked for. -/
  | named (file : FileId) (path text : String)
  /-- The text is to be read. -/
  | reserved (file : FileId) (generation : Nat) (path text : String)
  /-- What has been read is to be installed. -/
  | built (p : Prepared)

namespace Job

/-- The file that a job is for. -/
def file : Job → FileId
  | .named file _ _ => file
  | .reserved file _ _ _ => file
  | .built p => p.file

/-- The generation that has been asked for. -/
def generation? : Job → Option Nat
  | .named _ _ _ => none
  | .reserved _ generation _ _ => some generation
  | .built p => some p.generation

end Job

/-- A workspace with many clients. -/
structure Traffic where
  workspace : Workspace
  /-- What clients have still to do for texts. -/
  jobs : List Job
  /-- What the client that has the lock is about to put in place. -/
  held : Option Effect
  /-- All requests, the latest first. -/
  requests : List Request
  /-- All that has been put in place, the latest first. -/
  effects : List Effect

/-- What a client can do at once. -/
inductive Move where
  /-- Have a number given to a path, because a text is to be indexed. -/
  | name (path text : String)
  /-- Ask for a generation for the job with `k` others before it. -/
  | reserve (k : Nat)
  | read (k : Nat)
  /-- Take the lock, and give it back at once if what was read is stale. -/
  | install (k : Nat)
  /-- Take the lock and ask for a generation. -/
  | remove (path : String)
  /-- Put in place what the lock was taken for, and give the lock back. -/
  | finish
  | addRemappings (remappings : List Remapping)

namespace Traffic

/-- A workspace before any client has done anything. -/
def start (config : Config) : Traffic :=
  ⟨.empty config, [], none, [], []⟩

variable (t : Traffic)

/-- What is there after a move. A client that waits for the lock does not move. -/
def move : Move → Traffic
  | .name path text =>
    let (file, files) := t.workspace.files.intern path
    { t with
      workspace := { t.workspace with files := files }
      jobs := t.jobs ++ [.named file path text] }
  | .reserve k =>
    match t.jobs[k]? with
    | some (.named file path text) =>
      let (generation, w) := t.workspace.request file
      { t with
        workspace := w
        jobs := t.jobs.eraseIdx k ++ [.reserved file generation path text]
        requests := ⟨file, generation, some text⟩ :: t.requests }
    | _ => t
  | .read k =>
    match t.jobs[k]? with
    | some (.reserved file generation path text) =>
      { t with
        jobs := t.jobs.eraseIdx k ++ [.built (t.workspace.read file generation path text)] }
    | _ => t
  | .install k =>
    match t.held, t.jobs[k]? with
    | none, some (.built p) =>
      { t with
        jobs := t.jobs.eraseIdx k
        held :=
          if t.workspace.requested.get? p.file = some p.generation then
            some ⟨p.file, p.generation, t.workspace.kept? p⟩
          else none }
    | _, _ => t
  | .remove path =>
    match t.held, t.workspace.files.fileId? path with
    | none, some file =>
      let (generation, w) := t.workspace.request file
      { t with
        workspace := w
        held := some ⟨file, generation, none⟩
        requests := ⟨file, generation, none⟩ :: t.requests }
    | _, _ => t
  | .finish =>
    match t.held with
    | some e =>
      { t with
        workspace := t.workspace.replace e.file e.tree
        held := none
        effects := e :: t.effects }
    | none => t
  | .addRemappings remappings =>
    match t.held with
    | none => { t with workspace := t.workspace.addRemappings remappings }
    | some _ => t

/-- What is there after a row of moves. -/
def run (moves : List Move) : Traffic :=
  moves.foldl move t

/-- Runs follow each other. -/
theorem run_append (moves moves' : List Move) : t.run (moves ++ moves') = (t.run moves).run moves' :=
  List.foldl_append

variable {t} {k : Nat} {file : FileId} {generation : Nat} {path text : String} {p : Prepared}

theorem move_reserve (hk : t.jobs[k]? = some (.named file path text)) :
    t.move (.reserve k) =
      { t with
        workspace := (t.workspace.request file).2
        jobs := t.jobs.eraseIdx k ++ [.reserved file t.workspace.nextGeneration path text]
        requests := ⟨file, t.workspace.nextGeneration, some text⟩ :: t.requests } := by
  rw [move, hk]
  rfl

/-- What a reading does. The workspace stays as it is. -/
theorem move_read (hk : t.jobs[k]? = some (.reserved file generation path text)) :
    t.move (.read k) =
      { t with
        jobs := t.jobs.eraseIdx k ++ [.built (t.workspace.read file generation path text)] } := by
  rw [move, hk]

theorem move_install_of_current (hheld : t.held = none) (hk : t.jobs[k]? = some (.built p))
    (hcurrent : t.workspace.requested.get? p.file = some p.generation) :
    t.move (.install k) =
      { t with
        jobs := t.jobs.eraseIdx k
        held := some ⟨p.file, p.generation, t.workspace.kept? p⟩ } := by
  rw [move, hheld, hk]
  simp only [if_pos hcurrent]

/-- A reading that is not the latest is dropped. -/
theorem move_install_of_not_current (hheld : t.held = none) (hk : t.jobs[k]? = some (.built p))
    (hcurrent : t.workspace.requested.get? p.file ≠ some p.generation) :
    t.move (.install k) = { t with jobs := t.jobs.eraseIdx k } := by
  rw [move, hheld, hk]
  simp only [if_neg hcurrent]

theorem move_remove (hheld : t.held = none) (hfile : t.workspace.files.fileId? path = some file) :
    t.move (.remove path) =
      { t with
        workspace := (t.workspace.request file).2
        held := some ⟨file, t.workspace.nextGeneration, none⟩
        requests := ⟨file, t.workspace.nextGeneration, none⟩ :: t.requests } := by
  rw [move, hheld, hfile]
  rfl

theorem move_finish {e : Effect} (hheld : t.held = some e) :
    t.move .finish =
      { t with
        workspace := t.workspace.replace e.file e.tree
        held := none
        effects := e :: t.effects } := by
  rw [move, hheld]

/-- Whether a move changes anything now: there is a job for it, and nobody has the lock that it
needs. -/
inductive Enabled (t : Traffic) : Move → Prop where
  | name (path text : String) : t.Enabled (.name path text)
  | reserve {k : Nat} {file : FileId} {path text : String}
      (hk : t.jobs[k]? = some (.named file path text)) : t.Enabled (.reserve k)
  | read {k : Nat} {file : FileId} {generation : Nat} {path text : String}
      (hk : t.jobs[k]? = some (.reserved file generation path text)) : t.Enabled (.read k)
  | install {k : Nat} {p : Prepared} (hheld : t.held = none)
      (hk : t.jobs[k]? = some (.built p)) : t.Enabled (.install k)
  | remove {path : String} {file : FileId} (hheld : t.held = none)
      (hfile : t.workspace.files.fileId? path = some file) : t.Enabled (.remove path)
  | finish {e : Effect} (hheld : t.held = some e) : t.Enabled .finish
  | addRemappings {remappings : List Remapping} (hheld : t.held = none) :
      t.Enabled (.addRemappings remappings)

/-- A move that is not enabled does nothing. -/
theorem enabled_or (t : Traffic) (m : Move) : t.Enabled m ∨ t.move m = t := by
  cases m with
  | name path text => exact .inl (.name path text)
  | reserve k =>
      rw [move]
      split
      · exact .inl (.reserve ‹_›)
      · exact .inr rfl
  | read k =>
      rw [move]
      split
      · exact .inl (.read ‹_›)
      · exact .inr rfl
  | install k =>
      rw [move]
      split
      · exact .inl (.install ‹_› ‹_›)
      · exact .inr rfl
  | remove path =>
      rw [move]
      split
      · exact .inl (.remove ‹_› ‹_›)
      · exact .inr rfl
  | finish =>
      rw [move]
      split
      · exact .inl (.finish ‹_›)
      · exact .inr rfl
  | addRemappings remappings =>
      rw [move]
      split
      · exact .inl (.addRemappings ‹_›)
      · exact .inr rfl

/-! ### Calls one after the other -/

/-- The moves of a client that takes a step when nobody else is at work and some texts are still to be
installed. -/
def movesOf (outstanding : Nat) : Step → List Move
  | .prepare path text => [.name path text, .reserve outstanding, .read outstanding]
  | .install k => [.install k, .finish]
  | .remove path => [.remove path, .finish]
  | .addRemappings remappings => [.addRemappings remappings]

/-- What many clients have in common with a session: the workspace, what is still to be installed, and
nobody has the lock. -/
structure Resembles (t : Traffic) (s : Session) : Prop where
  workspace : t.workspace = s.workspace
  jobs : t.jobs = s.prepared.map .built
  held : t.held = none

/-- A text that is read while nobody else does anything is read as by one call. -/
theorem run_prepare (t : Traffic) (path text : String) :
    t.run (movesOf t.jobs.length (.prepare path text)) =
      { t with
        workspace := (t.workspace.prepare path text).2
        jobs := t.jobs ++ [.built (t.workspace.prepare path text).1]
        requests := ⟨(t.workspace.files.intern path).1, t.workspace.nextGeneration, some text⟩ ::
          t.requests } := by
  obtain ⟨w, jobs, held, requests, effects⟩ := t
  have hlast : ∀ j : Job, (jobs ++ [j])[jobs.length]? = some j := fun j =>
    List.getElem?_concat_length
  have hrest : ∀ j : Job, (jobs ++ [j]).eraseIdx jobs.length = jobs := fun j => by
    rw [List.eraseIdx_append_of_length_le (Nat.le_refl _), Nat.sub_self]
    exact List.append_nil jobs
  have hreserve := @move_reserve ⟨{ w with files := (w.files.intern path).2 },
    jobs ++ [.named (w.files.intern path).1 path text], held, requests, effects⟩ jobs.length _ _ _
    (hlast _)
  rw [hrest] at hreserve
  have hread := @move_read ⟨(w.reserve path).2,
    jobs ++ [.reserved (w.files.intern path).1 w.nextGeneration path text], held,
    ⟨(w.files.intern path).1, w.nextGeneration, some text⟩ :: requests, effects⟩ jobs.length _ _ _ _
    (hlast _)
  rw [hrest] at hread
  exact (congrArg (move · (.read jobs.length)) hreserve).trans hread

/-- What has been read is installed as by one call while nobody else has the lock. -/
theorem run_install (hheld : t.held = none) (hk : t.jobs[k]? = some (.built p)) :
    (t.run [.install k, .finish]).workspace = (t.workspace.install p).2 ∧
      (t.run [.install k, .finish]).jobs = t.jobs.eraseIdx k ∧
      (t.run [.install k, .finish]).held = none := by
  show ((t.move (.install k)).move .finish).workspace = _ ∧
    ((t.move (.install k)).move .finish).jobs = _ ∧ ((t.move (.install k)).move .finish).held = _
  by_cases hcurrent : t.workspace.requested.get? p.file = some p.generation
  · rw [move_install_of_current hheld hk hcurrent, move_finish rfl,
      (t.workspace.install_of_current hcurrent).1]
    exact ⟨rfl, rfl, rfl⟩
  · rw [move_install_of_not_current hheld hk hcurrent, move, hheld,
      t.workspace.install_of_not_current hcurrent]
    exact ⟨rfl, rfl, rfl⟩

/-- A step of a session is a few moves without interruption. -/
theorem Resembles.step {s : Session} (h : t.Resembles s) (a : Step) :
    (t.run (movesOf s.prepared.length a)).Resembles (s.step a) := by
  cases a with
  | prepare path text =>
      have hlength : s.prepared.length = t.jobs.length := by rw [h.jobs, List.length_map]
      rw [hlength, run_prepare]
      refine ⟨?_, ?_, h.held⟩
      · rw [h.workspace]
        rfl
      · show t.jobs ++ [.built _] = (s.prepared ++ [_]).map .built
        rw [h.workspace, h.jobs, List.map_append]
        rfl
  | install k =>
      cases hp : s.prepared[k]? with
      | none =>
          have hk : t.jobs[k]? = none := by
            rw [h.jobs, List.getElem?_map, hp]
            rfl
          have hmove : t.run [.install k, .finish] = t := by
            show (t.move (.install k)).move .finish = t
            rw [move, h.held, hk]
            simp only [move, h.held]
          have hstep : s.step (.install k) = s := by rw [Session.step, hp]
          rw [movesOf, hmove, hstep]
          exact h
      | some p =>
          have hk : t.jobs[k]? = some (.built p) := by
            rw [h.jobs, List.getElem?_map, hp]
            rfl
          obtain ⟨hworkspace, hjobs, hheld⟩ := run_install h.held hk
          refine ⟨?_, ?_, hheld⟩
          · rw [movesOf, hworkspace, h.workspace, Session.step, hp]
          · rw [movesOf, hjobs, h.jobs, Session.step, hp, List.eraseIdx_map]
  | remove path =>
      show ((t.move (.remove path)).move .finish).Resembles _
      cases hfile : t.workspace.files.fileId? path with
      | none =>
          have hmove : (t.move (.remove path)).move .finish = t := by
            rw [move, h.held, hfile]
            simp only [move, h.held]
          have hstep : s.step (.remove path) = s := by
            rw [h.workspace] at hfile
            simp only [Session.step, Workspace.remove, hfile]
          rw [hmove, hstep]
          exact h
      | some file =>
          rw [move_remove h.held hfile, move_finish rfl]
          rw [h.workspace] at hfile
          refine ⟨?_, ?_, rfl⟩
          · simp only [Session.step, Workspace.remove, hfile, h.workspace]
          · simp only [Session.step, Workspace.remove, hfile, h.jobs]
  | addRemappings remappings =>
      have hmove : t.run (movesOf s.prepared.length (.addRemappings remappings)) =
          { t with workspace := t.workspace.addRemappings remappings } := by
        show t.move (.addRemappings remappings) = _
        rw [move, h.held]
      rw [hmove]
      exact ⟨congrArg (·.addRemappings remappings) h.workspace, h.jobs, h.held⟩

/-- Whatever is reached by calls one after the other is reached by clients that take turns. -/
theorem exists_run_resembles (config : Config) (steps : List Step) : ∃ moves,
    ((start config).run moves).Resembles ((Session.start config).run steps) := by
  induction steps using List.reverseRecOn with
  | nil => exact ⟨[], rfl, rfl, rfl⟩
  | append_singleton steps a ih =>
      obtain ⟨moves, hmoves⟩ := ih
      refine ⟨moves ++ movesOf ((Session.start config).run steps).prepared.length a, ?_⟩
      rw [run_append, Session.run_append]
      exact hmoves.step a

end Traffic

end SolidityAtlas
