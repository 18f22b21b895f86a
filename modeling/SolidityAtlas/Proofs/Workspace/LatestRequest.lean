import Mathlib.Data.List.Nodup
import Mathlib.Data.List.Perm.Basic
import SolidityAtlas.Proofs.Workspace.Traffic

/-!
# The latest request wins

Many clients ask for trees of one file, or for its removal, and their moves come in any order.
What is put in place for a file comes from later and later requests: a tree is never replaced by
an older one, and no tree comes back after a later removal. When nobody is at work for the file
any more, what the latest request has asked for is there. What a client has read for an earlier
request is stale, and to install it changes nothing.

Each request is settled in one of three ways: a job for it is still to be done, its effect has
been decided on, or there is a later request for the file (`Traffic.Ordered.settled`).

## Main Definitions

* `SymbolTree.SameBuild`: trees that come from one reading
* `Traffic.Quiet`: no client is at work for a file
* `Traffic.Ordered`: requests, jobs and effects fit together

## Main Results

* `Traffic.latest_run`: the latest request wins
-/

namespace SolidityAtlas

/-! ## Generations of trees -/

namespace Snapshot

variable (s : Snapshot)

/-- The generation of the tree of a file. -/
def generation? (file : FileId) : Option Nat :=
  (s.tree? file).map (·.generation)

variable {s}

/-- Links come and go in one and the same build. -/
theorem generation?_modifyTree (file : FileId) {f : SymbolTree → SymbolTree}
    (hf : SymbolTree.LinkChange f) : (s.modifyTree file f).generation? = s.generation? := by
  have hgeneration : ∀ t, (f t).generation = t.generation := by
    cases hf <;> exact fun _ => rfl
  funext other
  rw [generation?, generation?, tree?_modifyTree]
  by_cases heq : other = file
  · rw [if_pos heq, heq, Option.map_map]
    exact congrArg ((s.tree? file).map ·) (funext hgeneration)
  · rw [if_neg heq]

end Snapshot

/-- Two trees that come from one reading: they have one generation and differ in links only that
lead out of the file. -/
structure SymbolTree.SameBuild (t u : SymbolTree) : Prop where
  generation : t.generation = u.generation
  alike : t.ReadAlike u

namespace SymbolTree.SameBuild

variable {t u v : SymbolTree}

theorem trans (h : SameBuild t u) (h' : SameBuild u v) : SameBuild t v :=
  ⟨h.generation.trans h'.generation, h.alike.trans h'.alike⟩

end SymbolTree.SameBuild

/-- A replacement puts the new tree in its place, and of the other files it changes links only. -/
theorem Workspace.Sound.sameBuild_replace {w : Workspace} {file : FileId} {tree : Option SymbolTree}
    (h : w.Sound) (htree : ∀ t, tree = some t → t.Grown (fun _ => False) ∧ t.file = file)
    (other : FileId) :
    Option.Rel SymbolTree.SameBuild (if other = file then tree else w.snapshot.tree? other)
      ((w.replace file tree).snapshot.tree? other) := by
  have hgeneration : ((w.replace file tree).snapshot.tree? other).map (·.generation) =
      (if other = file then tree else w.snapshot.tree? other).map (·.generation) := by
    have hlinked : (w.replace file tree).snapshot.generation? = (w.swapped file tree).generation? := by
      let P (s : Snapshot) := s.generation? = (w.swapped file tree).generation?
      have hchange : ∀ {s} changed {f}, SymbolTree.LinkChange f → P s → P (s.modifyTree changed f) :=
        fun changed _ hf hs => (Snapshot.generation?_modifyTree changed hf).trans hs
      have hdetached : P (w.detached file tree).2 := Snapshot.detachAll_changes hchange _ _ rfl
      rw [snapshot_replace]
      exact Snapshot.linkAll_changes hchange _ hdetached
    rw [← tree?_swapped fun t ht => (htree t ht).2]
    exact congrFun hlinked other
  refine (h.readAlike_replace htree other).imp_some fun t u ht hu halike => ⟨?_, halike⟩
  rw [ht, hu] at hgeneration
  exact (Option.some.inj hgeneration).symm

namespace Traffic

/-! ## Who is at work -/

/-- The generations that jobs are to be done for. -/
def waiting (t : Traffic) : List Nat :=
  t.jobs.filterMap Job.generation?

/-- What has been put in place and what is about to be, the latest first. -/
def decided (t : Traffic) : List Effect :=
  t.held.toList ++ t.effects

/-- The tree that was put in place last for a file. -/
def shown? (t : Traffic) (file : FileId) : Option SymbolTree :=
  (t.effects.find? (·.file == file)).bind (·.tree)

/-- Nobody is at work for a file: no request about it is waiting for a text to be read, for what has
been read to be installed, or for a tree to be put in place or taken away. -/
def Quiet (t : Traffic) (file : FileId) : Prop :=
  (∀ j ∈ t.jobs, j.file = file → j.generation? = none) ∧ ∀ e, t.held = some e → e.file ≠ file

end Traffic

/-- A job is done for a request. -/
def Job.Answers (config : Config) : Job → Request → Prop
  | .named _ _ _, _ => False
  | .reserved file generation _ text, r => r = ⟨file, generation, some text⟩
  | .built p, r => r.file = p.file ∧ r.generation = p.generation ∧
    ∀ w : Workspace, w.config = config → w.kept? p = r.tree? config

/-- A job that answers a request is labelled with its file and its number. -/
theorem Job.Answers.label {config : Config} {j : Job} {r : Request} (h : j.Answers config r) :
    r.file = j.file ∧ j.generation? = some r.generation := by
  cases j with
  | named file path text => exact h.elim
  | reserved file generation path text =>
      cases h
      exact ⟨rfl, rfl⟩
  | built p => exact ⟨h.1, congrArg some h.2.1.symm⟩

/-- What is read for a request is what the request asks for. -/
theorem Job.answers_read {config : Config} {w : Workspace} (h : w.config = config) (file : FileId)
    (generation : Nat) (path text : String) :
    (Job.built (w.read file generation path text)).Answers config ⟨file, generation, some text⟩ := by
  refine ⟨rfl, rfl, fun w' hw' => ?_⟩
  rw [Workspace.kept?, Workspace.read, Request.tree?, Option.bind_some, h, hw']

section Requests

variable {requests : List Request}
  (h : requests.Pairwise fun later earlier => earlier.generation < later.generation)

include h

/-- The first request for a file that is found is the latest one. -/
theorem Request.le_of_find? {file : FileId} {r r' : Request}
    (hr : requests.find? (·.file == file) = some r) (hr' : r' ∈ requests) (hfile : r'.file = file) :
    r'.generation ≤ r.generation := by
  obtain ⟨-, before, behind, rfl, hnot⟩ := List.find?_eq_some_iff_append.1 hr
  rcases List.mem_append.1 hr' with hmem | hmem
  · have hother := hnot r' hmem
    rw [hfile, beq_self_eq_true] at hother
    cases hother
  · rcases List.mem_cons.1 hmem with rfl | hmem
    · exact Nat.le_refl _
    · exact Nat.le_of_lt (List.rel_of_pairwise_cons (List.pairwise_append.1 h).2.1 hmem)

/-- No two requests have one generation. -/
theorem Request.eq_of_generation {r r' : Request} (hr : r ∈ requests) (hr' : r' ∈ requests)
    (heq : r.generation = r'.generation) : r = r' := by
  have hnodup : (requests.map (·.generation)).Nodup :=
    List.pairwise_map.2 (h.imp fun hlt => Nat.ne_of_gt hlt)
  exact List.inj_on_of_nodup_map hnodup hr hr' heq

end Requests

namespace Traffic

variable {t : Traffic} {k : Nat}

/-- Requests, jobs and effects fit together. -/
structure Ordered (config : Config) (t : Traffic) : Prop where
  settings : t.workspace.config = config
  ascending : t.requests.Pairwise fun later earlier => earlier.generation < later.generation
  fresh : ∀ r ∈ t.requests, r.generation < t.workspace.nextGeneration
  latest : ∀ file, t.workspace.requested.get? file =
    (t.requests.find? (·.file == file)).map (·.generation)
  answers : ∀ j ∈ t.jobs, ∀ generation, j.generation? = some generation →
    ∃ r ∈ t.requests, j.Answers config r
  effects : ∀ e ∈ t.decided, ∃ r ∈ t.requests, e = r.effect config
  distinct : (t.waiting ++ t.decided.map (·.generation)).Nodup
  order : t.decided.Pairwise fun later earlier =>
    later.file = earlier.file → earlier.generation < later.generation
  settled : ∀ r ∈ t.requests, r.generation ∈ t.waiting ∨ r.effect config ∈ t.decided ∨
    ∃ r' ∈ t.requests, r'.file = r.file ∧ r.generation < r'.generation

/-- At the start no request has been made. -/
theorem ordered_start (config : Config) : (start config).Ordered config where
  settings := rfl
  ascending := .nil
  fresh _ hr := absurd hr List.not_mem_nil
  latest _ := rfl
  answers _ hj := absurd hj List.not_mem_nil
  effects _ he := absurd he List.not_mem_nil
  distinct := .nil
  order := .nil
  settled _ hr := absurd hr List.not_mem_nil

/-- When a job is done, its generation waits no longer. -/
theorem waiting_perm {j : Job} (hk : t.jobs[k]? = some j) :
    t.waiting.Perm (j.generation?.toList ++ (t.jobs.eraseIdx k).filterMap Job.generation?) := by
  obtain ⟨hlt, rfl⟩ := List.getElem?_eq_some_iff.1 hk
  have hperm := (List.getElem_cons_eraseIdx_perm hlt).symm.filterMap Job.generation?
  refine hperm.trans (List.Perm.of_eq ?_)
  rw [List.filterMap_cons]
  cases t.jobs[k].generation? <;> rfl

/-- A job that comes last waits behind the others. -/
theorem waiting_append (jobs : List Job) (j : Job) :
    (jobs ++ [j]).filterMap Job.generation? =
      jobs.filterMap Job.generation? ++ j.generation?.toList := by
  rw [List.filterMap_append, List.filterMap_cons]
  cases j.generation? <;> rfl

namespace Ordered

variable {config : Config} (h : t.Ordered config)

include h

/-- What is waiting or decided has been asked for. -/
theorem exists_request {g : Nat} (hg : g ∈ t.waiting ++ t.decided.map (·.generation)) :
    ∃ r ∈ t.requests, r.generation = g := by
  rcases List.mem_append.1 hg with hg | hg
  · obtain ⟨j, hj, hgeneration⟩ := List.mem_filterMap.1 hg
    obtain ⟨r, hr, hanswers⟩ := h.answers j hj g hgeneration
    exact ⟨r, hr, Option.some.inj (hanswers.label.2.symm.trans hgeneration)⟩
  · obtain ⟨e, he, rfl⟩ := List.mem_map.1 hg
    obtain ⟨r, hr, rfl⟩ := h.effects e he
    exact ⟨r, hr, rfl⟩

/-- A new generation is neither waiting nor decided. -/
theorem nextGeneration_not_mem :
    t.workspace.nextGeneration ∉ t.waiting ++ t.decided.map (·.generation) := by
  intro hmem
  obtain ⟨r, hr, heq⟩ := h.exists_request hmem
  exact Nat.ne_of_lt (h.fresh r hr) heq

/-- Where the requests, the jobs and what has been decided are the same, they fit together as well. -/
theorem congr {t' : Traffic} (hconfig : t'.workspace.config = t.workspace.config)
    (hnext : t'.workspace.nextGeneration = t.workspace.nextGeneration)
    (hrequested : t'.workspace.requested = t.workspace.requested) (hjobs : t'.jobs = t.jobs)
    (hrequests : t'.requests = t.requests) (hdecided : t'.decided = t.decided) :
    t'.Ordered config := by
  have hwaiting : t'.waiting = t.waiting := congrArg (·.filterMap Job.generation?) hjobs
  constructor
  · exact hconfig.trans h.settings
  · rw [hrequests]
    exact h.ascending
  · rw [hrequests, hnext]
    exact h.fresh
  · rw [hrequests, hrequested]
    exact h.latest
  · rw [hjobs, hrequests]
    exact h.answers
  · rw [hdecided, hrequests]
    exact h.effects
  · rw [hwaiting, hdecided]
    exact h.distinct
  · rw [hdecided]
    exact h.order
  · rw [hrequests, hwaiting, hdecided]
    exact h.settled

/-- A number is given to a path. -/
theorem name (path text : String) : (t.move (.name path text)).Ordered config := by
  have hwaiting : (t.move (.name path text)).waiting = t.waiting :=
    (waiting_append t.jobs _).trans (List.append_nil _)
  refine ⟨h.settings, h.ascending, h.fresh, h.latest, fun j hj generation hgeneration => ?_,
    h.effects, ?_, h.order, fun r hr => ?_⟩
  · rcases List.mem_append.1 hj with hj | hj
    · exact h.answers j hj generation hgeneration
    · rw [List.mem_singleton.1 hj] at hgeneration
      cases hgeneration
  · rw [hwaiting]
    exact h.distinct
  · rw [hwaiting]
    exact h.settled r hr

/-- A request that is made now is the latest one for its file. -/
theorem latest_request (file : FileId) (text : Option String) (other : FileId) :
    (t.workspace.request file).2.requested.get? other =
      ((⟨file, t.workspace.nextGeneration, text⟩ :: t.requests : List Request).find?
        (·.file == other)).map (·.generation) := by
  show (t.workspace.requested.insert file t.workspace.nextGeneration).get? other = _
  rw [FileMap.get?_insert, List.find?_cons]
  by_cases heq : other = file
  · rw [if_pos heq, heq, beq_self_eq_true]
    rfl
  · rw [if_neg heq, beq_false_of_ne (Ne.symm heq)]
    exact h.latest other

/-- A generation is asked for. -/
theorem reserve {file : FileId} {path text : String} (hk : t.jobs[k]? = some (.named file path text)) :
    (t.move (.reserve k)).Ordered config := by
  have hwaiting : ((t.jobs.eraseIdx k ++
      [Job.reserved file t.workspace.nextGeneration path text]).filterMap Job.generation?).Perm
        (t.workspace.nextGeneration :: t.waiting) := by
    rw [waiting_append]
    exact List.perm_append_comm.trans ((waiting_perm hk).symm.cons _)
  rw [move_reserve hk]
  refine ⟨h.settings, List.pairwise_cons.2 ⟨h.fresh, h.ascending⟩, fun r hr => ?_,
    h.latest_request file (some text), fun j hj generation hgeneration => ?_, fun e he => ?_, ?_,
    h.order, fun r hr => ?_⟩
  · rcases List.mem_cons.1 hr with rfl | hr
    · exact Nat.lt_succ_self _
    · exact Nat.lt_succ_of_lt (h.fresh r hr)
  · rcases List.mem_append.1 hj with hj | hj
    · obtain ⟨r, hr, hanswers⟩ := h.answers j (List.mem_of_mem_eraseIdx hj) generation hgeneration
      exact ⟨r, List.mem_cons_of_mem _ hr, hanswers⟩
    · rw [List.mem_singleton.1 hj]
      exact ⟨_, List.mem_cons_self, rfl⟩
  · obtain ⟨r, hr, heq⟩ := h.effects e he
    exact ⟨r, List.mem_cons_of_mem _ hr, heq⟩
  · refine (hwaiting.append_right _).nodup_iff.2 ?_
    exact List.nodup_cons.2 ⟨h.nextGeneration_not_mem, h.distinct⟩
  · rcases List.mem_cons.1 hr with rfl | hr
    · exact .inl (hwaiting.mem_iff.2 List.mem_cons_self)
    · rcases h.settled r hr with hmem | hmem | ⟨r', hr', hnewer⟩
      · exact .inl (hwaiting.mem_iff.2 (List.mem_cons_of_mem _ hmem))
      · exact .inr (.inl hmem)
      · exact .inr (.inr ⟨r', List.mem_cons_of_mem _ hr', hnewer⟩)

/-- A text is read. -/
theorem read {file : FileId} {generation : Nat} {path text : String}
    (hk : t.jobs[k]? = some (.reserved file generation path text)) :
    (t.move (.read k)).Ordered config := by
  have hwaiting : ((t.jobs.eraseIdx k ++
      [Job.built (t.workspace.read file generation path text)]).filterMap Job.generation?).Perm
        t.waiting := by
    rw [waiting_append]
    exact List.perm_append_comm.trans (waiting_perm hk).symm
  rw [move_read hk]
  refine ⟨h.settings, h.ascending, h.fresh, h.latest, fun j hj g hgeneration => ?_, h.effects,
    (hwaiting.append_right _).nodup_iff.2 h.distinct, h.order, fun r hr => ?_⟩
  · rcases List.mem_append.1 hj with hj | hj
    · exact h.answers j (List.mem_of_mem_eraseIdx hj) g hgeneration
    · obtain ⟨r, hr, rfl⟩ := h.answers _ (List.mem_of_getElem? hk) generation rfl
      rw [List.mem_singleton.1 hj]
      exact ⟨_, hr, Job.answers_read h.settings file generation path text⟩
  · rcases h.settled r hr with hmem | hsettled
    · exact .inl (hwaiting.mem_iff.2 hmem)
    · exact .inr hsettled

/-- The request that a job is done for, which is the only one of its generation. -/
theorem exists_answered {j : Job} {generation : Nat} (hj : j ∈ t.jobs)
    (hgeneration : j.generation? = some generation) : ∃ r ∈ t.requests, j.Answers config r ∧
      ∀ r' ∈ t.requests, r'.generation = generation → r' = r := by
  obtain ⟨r, hr, hanswers⟩ := h.answers j hj generation hgeneration
  refine ⟨r, hr, hanswers, fun r' hr' heq => Request.eq_of_generation h.ascending hr' hr ?_⟩
  exact heq.trans (Option.some.inj (hgeneration.symm.trans hanswers.label.2))

/-- What has been read for a request is stale if there is a later request for the file, and only
then. -/
theorem stale_iff {p : Prepared} (hp : Job.built p ∈ t.jobs) :
    t.workspace.requested.get? p.file ≠ some p.generation ↔
      ∃ r ∈ t.requests, r.file = p.file ∧ p.generation < r.generation := by
  obtain ⟨r, hr, ⟨hfile, hgeneration, -⟩, -⟩ := h.exists_answered hp rfl
  obtain ⟨newest, hnewest⟩ := Option.isSome_iff_exists.1
    ((List.find?_isSome (p := (·.file == p.file))).2 ⟨r, hr, beq_of_eq hfile⟩)
  have hmem := List.mem_of_find?_eq_some hnewest
  have hsame : newest.file = p.file := by
    have hfound := List.find?_some hnewest
    exact eq_of_beq hfound
  rw [h.latest, hnewest, Option.map_some, Ne, Option.some.injEq]
  constructor
  · intro hne
    refine ⟨newest, hmem, hsame, Nat.lt_of_le_of_ne ?_ (Ne.symm hne)⟩
    rw [← hgeneration]
    exact Request.le_of_find? h.ascending hnewest hr hfile
  · rintro ⟨r', hr', hfile', hlt⟩ heq
    have hle := Request.le_of_find? h.ascending hnewest hr' hfile'
    rw [heq] at hle
    exact Nat.not_lt.2 hle hlt

/-- What is stale is given up. -/
theorem install_of_not_current {p : Prepared} (hheld : t.held = none)
    (hk : t.jobs[k]? = some (.built p))
    (hcurrent : t.workspace.requested.get? p.file ≠ some p.generation) :
    (t.move (.install k)).Ordered config := by
  have hwaiting := waiting_perm hk
  rw [move_install_of_not_current hheld hk hcurrent]
  refine ⟨h.settings, h.ascending, h.fresh, h.latest,
    fun j hj => h.answers j (List.mem_of_mem_eraseIdx hj), h.effects, ?_, h.order, fun r hr => ?_⟩
  · have hdistinct := (hwaiting.append_right _).nodup_iff.1 h.distinct
    exact (List.nodup_cons.1 hdistinct).2
  · rcases h.settled r hr with hmem | hsettled
    · rcases List.mem_cons.1 (hwaiting.mem_iff.1 hmem) with heq | hmem
      · -- The request whose job is given up is settled by the one that made it stale.
        have hp := List.mem_of_getElem? hk
        obtain ⟨r', -, ⟨hfile, -, -⟩, honly⟩ := h.exists_answered hp rfl
        obtain ⟨newer, hnewer, hsame, hlt⟩ := (h.stale_iff hp).1 hcurrent
        refine .inr (.inr ⟨newer, hnewer, ?_, by rw [heq]; exact hlt⟩)
        rw [hsame, honly r hr heq, hfile]
      · exact .inl hmem
    · exact .inr hsettled

/-- The lock is taken for what has been read for the latest request. -/
theorem install_of_current {p : Prepared} (hheld : t.held = none)
    (hk : t.jobs[k]? = some (.built p))
    (hcurrent : t.workspace.requested.get? p.file = some p.generation) :
    (t.move (.install k)).Ordered config := by
  have hp := List.mem_of_getElem? hk
  obtain ⟨r, hr, hanswers, honly⟩ := h.exists_answered hp rfl
  obtain ⟨hfile, hgeneration, hkept⟩ := hanswers
  have heffect : (⟨p.file, p.generation, t.workspace.kept? p⟩ : Effect) = r.effect config := by
    rw [Request.effect, hfile, hgeneration, hkept _ h.settings]
  have hwaiting : t.waiting.Perm
      (r.generation :: (t.jobs.eraseIdx k).filterMap Job.generation?) := by
    rw [hgeneration]
    exact waiting_perm hk
  have hdecided : t.decided = t.effects := by
    rw [decided, hheld]
    rfl
  have heffects := h.effects
  have horder := h.order
  have hdistinct := (hwaiting.append_right _).nodup_iff.1 h.distinct
  rw [hdecided] at heffects horder hdistinct
  rw [move_install_of_current hheld hk hcurrent, heffect]
  refine ⟨h.settings, h.ascending, h.fresh, h.latest,
    fun j hj => h.answers j (List.mem_of_mem_eraseIdx hj), fun e he => ?_,
    List.perm_middle.nodup_iff.2 hdistinct, List.pairwise_cons.2 ⟨fun e he hsame => ?_, horder⟩,
    fun r' hr' => ?_⟩
  · rcases List.mem_cons.1 he with rfl | he
    · exact ⟨r, hr, rfl⟩
    · exact heffects e he
  · -- What was put in place before comes from a request that is not later, and not from this one.
    obtain ⟨r', hr', rfl⟩ := heffects e he
    have hle : r'.generation ≤ r.generation := by
      rw [hgeneration]
      by_contra hnot
      refine (h.stale_iff hp).2 ⟨r', hr', ?_, Nat.not_le.1 hnot⟩ hcurrent
      exact hsame.symm.trans hfile
    refine Nat.lt_of_le_of_ne hle fun heq => ?_
    refine (List.nodup_cons.1 hdistinct).1 (List.mem_append_right _ ?_)
    exact List.mem_map.2 ⟨_, he, heq⟩
  · rcases h.settled r' hr' with hmem | hmem | hnewer
    · rcases List.mem_cons.1 (hwaiting.mem_iff.1 hmem) with heq | hmem
      · rw [honly r' hr' (heq.trans hgeneration)]
        exact .inr (.inl List.mem_cons_self)
      · exact .inl hmem
    · rw [hdecided] at hmem
      exact .inr (.inl (List.mem_cons_of_mem _ hmem))
    · exact .inr (.inr hnewer)

/-- The lock is taken for a removal. -/
theorem remove {file : FileId} {path : String} (hheld : t.held = none)
    (hfile : t.workspace.files.fileId? path = some file) :
    (t.move (.remove path)).Ordered config := by
  have hdecided : t.decided = t.effects := by
    rw [decided, hheld]
    rfl
  have heffects := h.effects
  have horder := h.order
  have hnew := h.nextGeneration_not_mem
  have hdistinct := h.distinct
  rw [hdecided] at heffects horder hnew hdistinct
  rw [move_remove hheld hfile]
  refine ⟨h.settings, List.pairwise_cons.2 ⟨h.fresh, h.ascending⟩, fun r hr => ?_,
    h.latest_request file none, fun j hj generation hgeneration => ?_, fun e he => ?_,
    List.perm_middle.nodup_iff.2 (List.nodup_cons.2 ⟨hnew, hdistinct⟩),
    List.pairwise_cons.2 ⟨fun e he _ => ?_, horder⟩, fun r hr => ?_⟩
  · rcases List.mem_cons.1 hr with rfl | hr
    · exact Nat.lt_succ_self _
    · exact Nat.lt_succ_of_lt (h.fresh r hr)
  · obtain ⟨r, hr, hanswers⟩ := h.answers j hj generation hgeneration
    exact ⟨r, List.mem_cons_of_mem _ hr, hanswers⟩
  · rcases List.mem_cons.1 he with rfl | he
    · exact ⟨_, List.mem_cons_self, rfl⟩
    · obtain ⟨r, hr, heq⟩ := heffects e he
      exact ⟨r, List.mem_cons_of_mem _ hr, heq⟩
  · obtain ⟨r, hr, rfl⟩ := heffects e he
    exact h.fresh r hr
  · rcases List.mem_cons.1 hr with rfl | hr
    · exact .inr (.inl List.mem_cons_self)
    · rcases h.settled r hr with hmem | hmem | ⟨r', hr', hnewer⟩
      · exact .inl hmem
      · rw [hdecided] at hmem
        exact .inr (.inl (List.mem_cons_of_mem _ hmem))
      · exact .inr (.inr ⟨r', List.mem_cons_of_mem _ hr', hnewer⟩)

/-- What was decided on is put in place. -/
theorem finish {e : Effect} (hheld : t.held = some e) : (t.move .finish).Ordered config := by
  have hreplace := t.workspace.replace_eq e.file e.tree
  rw [move_finish hheld]
  refine h.congr ?_ ?_ ?_ rfl rfl ?_
  · rw [hreplace]
  · rw [hreplace]
  · rw [hreplace]
  · rw [decided, decided, hheld]
    rfl

/-- What every move keeps. -/
theorem move (m : Move) : (t.move m).Ordered config := by
  rcases t.enabled_or m with henabled | hidle
  · cases henabled with
    | name path text => exact h.name path text
    | reserve hk => exact h.reserve hk
    | read hk => exact h.read hk
    | @install k p hheld hk =>
        by_cases hcurrent : t.workspace.requested.get? p.file = some p.generation
        · exact h.install_of_current hheld hk hcurrent
        · exact h.install_of_not_current hheld hk hcurrent
    | remove hheld hfile => exact h.remove hheld hfile
    | finish hheld => exact h.finish hheld
    | addRemappings hheld =>
        rw [Traffic.move, hheld]
        exact h.congr rfl rfl rfl rfl rfl (by rw [decided, decided, hheld])
  · rw [hidle]
    exact h

end Ordered

/-! ## What is shown -/

/-- What was put in place last for a file is what the workspace shows. -/
structure Shown (t : Traffic) : Prop where
  sound : t.workspace.Sound
  tree : ∀ file, Option.Rel SymbolTree.SameBuild (t.shown? file) (t.workspace.snapshot.tree? file)

/-- At the start nothing is shown. -/
theorem shown_start (config : Config) : (start config).Shown :=
  ⟨Workspace.sound_empty config, fun _ => .none⟩

namespace Shown

variable (h : t.Shown)

include h

/-- Where the trees and the links are the same, what is shown is the same. -/
theorem congr {t' : Traffic} (hlinks : t'.workspace.links = t.workspace.links)
    (htrees : t'.workspace.snapshot.trees = t.workspace.snapshot.trees)
    (heffects : t'.effects = t.effects) : t'.Shown := by
  refine ⟨⟨Snapshot.sound_of_trees_eq h.sound.snapshot htrees, ?_⟩, fun file => ?_⟩
  · rw [hlinks, Snapshot.linksInto_of_trees_eq htrees]
    exact h.sound.links
  · rw [shown?, heffects, Snapshot.tree?, htrees]
    exact h.tree file

/-- What is held is put in place when it is finished, and then it is shown. -/
theorem finish {config : Config} (hordered : t.Ordered config) {e : Effect}
    (hheld : t.held = some e) : (t.move .finish).Shown := by
  have hgrown : ∀ u, e.tree = some u → u.Grown (fun _ => False) ∧ u.file = e.file := by
    obtain ⟨r, -, rfl⟩ := hordered.effects e (by rw [decided, hheld]; exact List.mem_cons_self)
    exact fun u hu => ⟨(Request.of_tree? hu).1, (Request.of_tree? hu).2.1⟩
  rw [move_finish hheld]
  refine ⟨h.sound.replace hgrown, fun file => ?_⟩
  have hreplaced := h.sound.sameBuild_replace hgrown file
  by_cases heq : file = e.file
  · rw [if_pos heq] at hreplaced
    rw [shown?, List.find?_cons, heq, beq_self_eq_true]
    exact heq ▸ hreplaced
  · rw [if_neg heq] at hreplaced
    rw [shown?, List.find?_cons, beq_false_of_ne (Ne.symm heq)]
    exact (h.tree file).comp hreplaced fun _ _ _ => SymbolTree.SameBuild.trans

/-- After each move what was put in place last for a file is shown. -/
theorem move {config : Config} (hordered : t.Ordered config) (m : Move) : (t.move m).Shown := by
  rcases t.enabled_or m with henabled | hidle
  · cases henabled with
    | name path text => exact h.congr rfl rfl rfl
    | reserve hk =>
        rw [move_reserve hk]
        exact h.congr rfl rfl rfl
    | read hk =>
        rw [move_read hk]
        exact h.congr rfl rfl rfl
    | install hheld hk =>
        rw [Traffic.move, hheld, hk]
        exact h.congr rfl rfl rfl
    | remove hheld hfile =>
        rw [move_remove hheld hfile]
        exact h.congr rfl rfl rfl
    | finish hheld => exact h.finish hordered hheld
    | addRemappings hheld =>
        rw [Traffic.move, hheld]
        exact h.congr rfl (Snapshot.trees_foldl_refreshEdges _ _) rfl
  · rw [hidle]
    exact h

end Shown

/-- In every run requests are ordered, and what was put in place last is shown. -/
theorem ordered_shown_run (config : Config) (moves : List Move) :
    ((start config).run moves).Ordered config ∧ ((start config).run moves).Shown := by
  induction moves using List.reverseRecOn with
  | nil => exact ⟨ordered_start config, shown_start config⟩
  | append_singleton moves m ih =>
      rw [run_append]
      exact ⟨ih.1.move m, ih.2.move ih.1 m⟩

/-- When nobody is at work for a file, the latest request for it has taken effect last. -/
theorem Ordered.shown?_of_quiet {config : Config} (h : t.Ordered config) {r : Request}
    (hr : r ∈ t.requests) (hquiet : t.Quiet r.file)
    (hlatest : ∀ r' ∈ t.requests, r'.file = r.file → r'.generation ≤ r.generation) :
    t.shown? r.file = r.tree? config := by
  have heffect : r.effect config ∈ t.effects := by
    -- The request is settled, and neither by a job, as the file is quiet, nor by a later request.
    rcases h.settled r hr with hmem | hmem | ⟨r', hr', hfile, hlt⟩
    · obtain ⟨j, hj, hgeneration⟩ := List.mem_filterMap.1 hmem
      obtain ⟨r', -, hanswers, honly⟩ := h.exists_answered hj hgeneration
      rw [← honly r hr rfl] at hanswers
      have hnone := hquiet.1 j hj hanswers.label.1.symm
      rw [hgeneration] at hnone
      cases hnone
    · rcases List.mem_append.1 hmem with hmem | hmem
      · exact absurd rfl (hquiet.2 _ (Option.mem_toList.1 hmem))
      · exact hmem
    · exact absurd (hlatest r' hr' hfile) (Nat.not_le.2 hlt)
  obtain ⟨last, hlast⟩ := Option.isSome_iff_exists.1
    ((List.find?_isSome (p := (·.file == r.file))).2 ⟨_, heffect, beq_self_eq_true r.file⟩)
  obtain ⟨hfile, before, behind, hsplit, hnot⟩ := List.find?_eq_some_iff_append.1 hlast
  have hsame : r.effect config = last := by
    rw [hsplit] at heffect
    rcases List.mem_append.1 heffect with hmem | hmem
    · have hother := hnot _ hmem
      rw [Request.effect, beq_self_eq_true] at hother
      cases hother
    · rcases List.mem_cons.1 hmem with heq | hbehind
      · exact heq
      · -- The last effect would come from a later request.
        obtain ⟨r', hr', rfl⟩ := h.effects last
          (List.mem_append_right _ (List.mem_of_find?_eq_some hlast))
        have horder := (List.pairwise_append.1 h.order).2.1
        rw [hsplit] at horder
        have hsamefile : r'.file = r.file := eq_of_beq hfile
        have hlt : r.generation < r'.generation :=
          List.rel_of_pairwise_cons (List.pairwise_append.1 horder).2.1 hbehind hsamefile
        exact absurd (hlatest r' hr' hsamefile) (Nat.not_le.2 hlt)
  rw [shown?, hlast, Option.bind_some, ← hsame]
  rfl

/-- However the moves of many clients follow each other:

* what is put in place for a file comes from later and later requests, and the tree of the file is
  the one that was put in place last, if it was one;
* when nobody is at work for a file, its tree is the one that the latest request for it has asked
  for. There is none if this was a removal, if the text was too bad to be kept, or if there has been
  no request;
* what has been read is stale if there is a later request for the file, and only then, and to install
  it changes nothing in the workspace. -/
theorem latest_run (config : Config) (moves : List Move) :
    let t := (start config).run moves
    (t.effects.Pairwise (fun later earlier =>
        later.file = earlier.file → earlier.generation < later.generation) ∧
      ∀ file, Option.Rel SymbolTree.SameBuild (t.shown? file) (t.workspace.snapshot.tree? file)) ∧
    (∀ file, t.Quiet file →
      ((∀ r ∈ t.requests, r.file ≠ file) → t.workspace.snapshot.tree? file = none) ∧
      ∀ r ∈ t.requests, r.file = file →
        (∀ r' ∈ t.requests, r'.file = file → r'.generation ≤ r.generation) →
        Option.Rel SymbolTree.SameBuild (r.tree? config) (t.workspace.snapshot.tree? file)) ∧
    (∀ k p, t.held = none → t.jobs[k]? = some (.built p) →
      ((t.workspace.install p).1 = .ok (.stale p.file p.generation) ↔
        ∃ r ∈ t.requests, r.file = p.file ∧ p.generation < r.generation) ∧
      ((t.workspace.install p).1 = .ok (.stale p.file p.generation) →
        (t.run [.install k, .finish]).workspace = t.workspace ∧
        (t.workspace.install p).2 = t.workspace)) := by
  intro t
  obtain ⟨hordered, hshown⟩ : t.Ordered config ∧ t.Shown := ordered_shown_run config moves
  refine ⟨⟨(List.pairwise_append.1 hordered.order).2.1, hshown.tree⟩, fun file hquiet => ⟨?_, ?_⟩,
    fun k p hheld hk => ?_⟩
  · intro hnone
    have hshow := hshown.tree file
    have hnever : t.effects.find? (·.file == file) = none := by
      refine List.find?_eq_none.2 fun e he heq => ?_
      obtain ⟨r, hr, rfl⟩ := hordered.effects e (List.mem_append_right _ he)
      exact hnone r hr (eq_of_beq heq)
    rw [shown?, hnever] at hshow
    exact hshow.eq_none
  · rintro r hr rfl hlatest
    rw [← hordered.shown?_of_quiet hr hquiet hlatest]
    exact hshown.tree r.file
  · have hanswer : (t.workspace.install p).1 = .ok (.stale p.file p.generation) ↔
        t.workspace.requested.get? p.file ≠ some p.generation := by
      constructor
      · exact fun hstale hcurrent => (t.workspace.install_of_current hcurrent).2 _ _ hstale
      · intro hcurrent
        rw [t.workspace.install_of_not_current hcurrent]
    rw [hanswer, hordered.stale_iff (List.mem_of_getElem? hk)]
    refine ⟨Iff.rfl, fun hnewer => ?_⟩
    have hcurrent := (hordered.stale_iff (List.mem_of_getElem? hk)).2 hnewer
    have hsame : (t.workspace.install p).2 = t.workspace := by
      rw [t.workspace.install_of_not_current hcurrent]
    exact ⟨(run_install hheld hk).1.trans hsame, hsame⟩

/-- Two clients index one file, and the one whose request is the later one is ready first. -/
example : ((start .default).run
    [.name "A.sol" "contract Old \x7b\x7d", .name "A.sol" "contract New \x7b\x7d", .reserve 0,
      .reserve 0, .read 1, .install 1, .finish, .read 0, .install 0, .finish]).effects.map
        (·.generation) = [2] := by
  decide +kernel

end Traffic

end SolidityAtlas
