import Mathlib.Data.List.Count
import SolidityAtlas.Proofs.Project.Directory
import SolidityAtlas.Proofs.Workspace.Batches

/-!
# What a load reports

The files of a directory are indexed as one batch, so the outcome of each is settled by the
requests of the batch: an entry is stale if a later one has the same path in normal form, and
otherwise it is installed or faulty (`Workspace.fates_indexAll`). Stale entries are in neither
list of the report. Two files have the same path if a backslash in one name stands where the
other has a slash. The earlier one of them is hidden by the later one (`Disk.Hidden`), and it
alone is not accounted for (`Workspace.loadDirectory_accounts_for`).

## Main Definitions

* `Workspace.Fates`: what becomes of the entries of a batch
* `latestOf`: the texts that no later text has the path of
* `Disk.IsSource`, `Disk.HoldsText`: source files, and those that can be read
* `Disk.Hidden`: the source files that a later one has the path of

## Main Results

* `Workspace.fates_indexAll`
* `Workspace.loadDirectory_accounts_for`
-/

namespace SolidityAtlas

namespace Workspace

variable {w : Workspace} {path text : String} {batch : List (String × String)}

/-! ## Outcomes of a batch -/

/-- Whether the text of a file is installed if no later request for the file is made. -/
def Loads (tolerates : Bool) (text : String) : Prop :=
  (parse text).faults = [] ∨ tolerates = true

instance (tolerates : Bool) (text : String) : Decidable (Loads tolerates text) :=
  inferInstanceAs (Decidable (_ ∨ _))

/-- What becomes of the entries of a batch. -/
inductive Fates (tolerates : Bool) : List (String × String) → List (Except Failure Outcome) → Prop
  | nil : Fates tolerates [] []
  | stale {path text batch outcomes} (file generation : Nat) (hlater : Supersedes batch path)
      (hrest : Fates tolerates batch outcomes) :
      Fates tolerates ((path, text) :: batch) (.ok (.stale file generation) :: outcomes)
  | installed {path text batch outcomes} (file generation : Nat) (hlatest : ¬ Supersedes batch path)
      (hloads : Loads tolerates text) (hrest : Fates tolerates batch outcomes) :
      Fates tolerates ((path, text) :: batch) (.ok (.installed file generation) :: outcomes)
  | faulty {path text batch outcomes} (failure : Failure) (hlatest : ¬ Supersedes batch path)
      (hfaulty : ¬ Loads tolerates text) (hrest : Fates tolerates batch outcomes) :
      Fates tolerates ((path, text) :: batch) (.error failure :: outcomes)

/-- What becomes of a text does not hang on links and snapshot. -/
theorem fst_install_withLinks (w : Workspace) (links : LinkGraph) (snapshot : Snapshot)
    (p : Prepared) : ((w.withLinks links snapshot).install p).1 = (w.install p).1 := by
  rw [install, install, withLinks]
  split
  · rfl
  · split
    · rfl
    · rfl

/-- Installing changes no request, so what becomes of texts does not hang on their order. -/
theorem fst_installAll (w : Workspace) (ps : List Prepared) :
    (w.installAll ps).1 = ps.map fun p => (w.install p).1 := by
  induction ps generalizing w with
  | nil => rfl
  | cons p ps ih =>
      have hlater : ∀ q, ((w.install p).2.install q).1 = (w.install q).1 := fun q => by
        rw [w.install_withLinks p, fst_install_withLinks]
      rw [installAll, List.map_cons]
      simp only [ih, hlater]

/-- What was read is stale behind the requests of a batch where the batch supersedes it. -/
theorem fst_install_of_supersedes (h : Supersedes batch path) :
    (((w.prepare path text).2.prepareAll batch).2.install (w.prepare path text).1).1 =
      .ok (.stale (w.prepare path text).1.file (w.prepare path text).1.generation) := by
  obtain ⟨g, hg, hle⟩ := requested_prepareAll_of_supersedes (w.prepare path text).2
    (PathTable.fileId?_intern_self _ _) h
  rw [install_of_not_current]
  rw [show (w.prepare path text).1.file = (w.files.intern path).1 from rfl, hg]
  exact fun heq => absurd (Option.some.inj heq) (Nat.ne_of_gt hle)

/-- Otherwise it is installed or faulty. -/
theorem fst_install_of_not_supersedes (h : ¬ Supersedes batch path) :
    (((w.prepare path text).2.prepareAll batch).2.install (w.prepare path text).1).1 =
      if Loads w.config.toleratesFaults text then
        .ok (.installed (w.prepare path text).1.file (w.prepare path text).1.generation)
      else .error (.faulty (w.prepare path text).1.path (w.prepare path text).1.faults) := by
  have hcurrent : ((w.prepare path text).2.prepareAll batch).2.requested.get?
      (w.prepare path text).1.file = some (w.prepare path text).1.generation :=
    (requested_prepareAll_of_not_supersedes (w.prepare path text).2
      (PathTable.fileId?_intern_self _ _) h).trans
        ((get?_requested_prepare w path text _).trans (if_pos rfl))
  have hloads : ((w.prepare path text).1.faults.isEmpty || w.config.toleratesFaults) = true ↔
      Loads w.config.toleratesFaults text := by
    rw [Bool.or_eq_true, List.isEmpty_iff]
    rfl
  rw [install_eq_of_current hcurrent, (prepareAll_keeps _ _).1]
  by_cases hloaded : Loads w.config.toleratesFaults text
  · rw [if_pos hloaded]
    exact congrArg Prod.fst (if_pos (hloads.2 hloaded))
  · rw [if_neg hloaded]
    exact congrArg Prod.fst (if_neg (mt hloads.1 hloaded))

/-- An entry of a batch is stale if a later one is for the same file. Otherwise it is installed or
faulty. -/
theorem fates_indexAll (w : Workspace) (batch : List (String × String)) :
    Fates w.config.toleratesFaults batch (w.indexAll batch).1 := by
  rw [indexAll_eq, fst_installAll]
  induction batch generalizing w with
  | nil => exact .nil
  | cons entry batch ih =>
      obtain ⟨path, text⟩ := entry
      have hrest := ih (w.prepare path text).2
      rw [prepareAll, List.map_cons]
      by_cases hlater : Supersedes batch path
      · rw [fst_install_of_supersedes hlater]
        exact .stale _ _ hlater hrest
      · rw [fst_install_of_not_supersedes hlater]
        split
        · exact .installed _ _ hlater ‹_› hrest
        · exact .faulty _ hlater ‹_› hrest

end Workspace

/-! ## Texts that no later text replaces -/

/-- Whether two files of a directory are one file for a workspace. -/
def SamePath (names other : List String) : Prop :=
  Path.normalize (workspacePath names) = Path.normalize (workspacePath other)

instance (names other : List String) : Decidable (SamePath names other) :=
  inferInstanceAs (Decidable (_ = _))

/-- Whether one row of names comes before another. -/
def NamesLt (names other : List String) : Prop :=
  Disk.namesLe names other = true ∧ names ≠ other

instance (names other : List String) : Decidable (NamesLt names other) :=
  inferInstanceAs (Decidable (_ ∧ _))

/-- No row of names comes before itself. -/
theorem NamesLt.irrefl (names : List String) : ¬ NamesLt names names :=
  fun h => h.2 rfl

/-- No two rows of names come before each other. -/
theorem NamesLt.asymm {names other : List String} (h : NamesLt names other) :
    ¬ NamesLt other names :=
  fun h' => h.2 (Disk.namesLe_antisymm h.1 h'.1)

/-- The texts that no later text has the path of. -/
def latestOf : List (List String × String) → List (List String × String)
  | [] => []
  | t :: ts => if ∃ u ∈ ts, SamePath u.1 t.1 then latestOf ts else t :: latestOf ts

section Latest

variable {ts : List (List String × String)} {t : List String × String}

/-- The latest texts are listed as they were read, without the ones that are superseded. -/
theorem latestOf_sublist (ts : List (List String × String)) : (latestOf ts).Sublist ts := by
  induction ts with
  | nil => exact List.Sublist.slnil
  | cons t ts ih =>
      rw [latestOf]
      split
      · exact ih.cons t
      · exact ih.cons_cons t

/-- In order, the later texts are the ones with greater names. -/
theorem mem_latestOf_iff (hts : ts.Pairwise fun t u => NamesLt t.1 u.1) :
    t ∈ latestOf ts ↔ t ∈ ts ∧ ∀ u ∈ ts, NamesLt t.1 u.1 → ¬ SamePath u.1 t.1 := by
  induction ts with
  | nil => exact iff_of_false List.not_mem_nil fun h => List.not_mem_nil h.1
  | cons first ts ih =>
      obtain ⟨hfirst, hts⟩ := List.pairwise_cons.1 hts
      -- For the first text all others are later, and it is later than none of them.
      have hself : (∃ u ∈ ts, SamePath u.1 first.1) ↔
          ∃ u ∈ first :: ts, NamesLt first.1 u.1 ∧ SamePath u.1 first.1 := by
        constructor
        · rintro ⟨u, hu, hsame⟩
          exact ⟨u, List.mem_cons_of_mem _ hu, hfirst u hu, hsame⟩
        · rintro ⟨u, hu, hlt, hsame⟩
          rcases List.mem_cons.1 hu with rfl | hu
          · exact absurd hlt (NamesLt.irrefl _)
          · exact ⟨u, hu, hsame⟩
      have hrest : t ∈ ts → ((∀ u ∈ first :: ts, NamesLt t.1 u.1 → ¬ SamePath u.1 t.1) ↔
          ∀ u ∈ ts, NamesLt t.1 u.1 → ¬ SamePath u.1 t.1) := fun ht => by
        rw [List.forall_mem_cons]
        exact and_iff_right fun hlt => absurd hlt (hfirst t ht).asymm
      have hne : t ∈ ts → t ≠ first := fun ht heq => NamesLt.irrefl first.1 (by
        simpa only [heq] using hfirst t ht)
      rw [latestOf]
      split
      · rename_i hlater
        rw [ih hts, List.mem_cons, or_and_right]
        constructor
        · exact fun ⟨ht, h⟩ => .inr ⟨ht, (hrest ht).2 h⟩
        · rintro (⟨rfl, h⟩ | ⟨ht, h⟩)
          · obtain ⟨u, hu, hlt, hsame⟩ := hself.1 hlater
            exact absurd hsame (h u hu hlt)
          · exact ⟨ht, (hrest ht).1 h⟩
      · rename_i hlatest
        rw [List.mem_cons, ih hts, List.mem_cons, or_and_right]
        refine or_congr ⟨?_, fun h => h.1⟩ ?_
        · rintro rfl
          exact ⟨rfl, fun u hu hlt hsame => hlatest (hself.2 ⟨u, hu, hlt, hsame⟩)⟩
        · exact and_congr_right fun ht => (hrest ht).symm

end Latest

namespace LoadReport

open Workspace

/-- What a workspace is asked to index for texts. -/
def batchOf (ts : List (List String × String)) : List (String × String) :=
  ts.map fun t => (workspacePath t.1, t.2)

/-- The files that were installed. -/
def installedOf (results : List (List String × Except Failure Outcome)) : List (List String) :=
  results.filterMap fun
    | (names, .ok (.installed _ _)) => some names
    | _ => none

/-- The files that were not installed, each with the failure. -/
def faultyOf (results : List (List String × Except Failure Outcome)) :
    List (List String × Failure) :=
  results.filterMap fun
    | (names, .error failure) => some (names, failure)
    | _ => none

/-- A text is superseded by a later one with the same path. -/
theorem supersedes_batchOf {ts : List (List String × String)} {names : List String} :
    Supersedes (batchOf ts) (workspacePath names) ↔ ∃ u ∈ ts, SamePath u.1 names := by
  rw [Supersedes, batchOf]
  constructor
  · rintro ⟨entry, hentry, hsame⟩
    obtain ⟨u, hu, rfl⟩ := List.mem_map.1 hentry
    exact ⟨u, hu, hsame⟩
  · rintro ⟨u, hu, hsame⟩
    exact ⟨_, List.mem_map_of_mem hu, hsame⟩

/-- Of the latest texts, some are installed and the others are faulty. -/
theorem results_of_fates {tolerates : Bool} {ts : List (List String × String)}
    {outcomes : List (Except Failure Outcome)} (h : Fates tolerates (batchOf ts) outcomes)
    (route : List String × String → List String) :
    installedOf ((ts.map route).zip outcomes) =
        ((latestOf ts).filter fun t => Loads tolerates t.2).map route ∧
      (faultyOf ((ts.map route).zip outcomes)).map Prod.fst =
        ((latestOf ts).filter fun t => ¬ Loads tolerates t.2).map route := by
  induction ts generalizing outcomes with
  | nil =>
      cases h
      exact ⟨rfl, rfl⟩
  | cons t ts ih =>
      rw [latestOf]
      cases h with
      | stale file generation hlater hrest =>
          rw [if_pos (supersedes_batchOf.1 hlater)]
          exact ih hrest
      | installed file generation hlatest hloads hrest =>
          obtain ⟨hinstalled, hfaulty⟩ := ih hrest
          rw [if_neg (mt supersedes_batchOf.2 hlatest)]
          simp only [List.filter_cons, hloads, not_true, decide_true, decide_false, if_true,
            Bool.false_eq_true, if_false]
          exact ⟨congrArg (route t :: ·) hinstalled, hfaulty⟩
      | faulty failure hlatest hfaulted hrest =>
          obtain ⟨hinstalled, hfaulty⟩ := ih hrest
          rw [if_neg (mt supersedes_batchOf.2 hlatest)]
          simp only [List.filter_cons, hfaulted, not_false_eq_true, decide_true, decide_false,
            if_true, Bool.false_eq_true, if_false]
          exact ⟨hinstalled, congrArg (route t :: ·) hfaulty⟩

end LoadReport

/-! ## Source files that are read -/

namespace Disk

/-- Whether names lead from a place to a source file. -/
def IsSource (d : Disk) (place names : List String) : Prop :=
  names.getLast?.any isSourceName = true ∧ ∃ bytes, (place ++ names, bytes) ∈ d.files

/-- Whether names lead from a place to a file that holds a text. -/
def HoldsText (d : Disk) (place names : List String) (text : String) : Prop :=
  ∃ bytes, (place ++ names, bytes) ∈ d.files ∧ String.fromUTF8? bytes = some text

/-- Whether a file holds a text, and a later source file that holds one has the same path. -/
def Hidden (d : Disk) (place names : List String) : Prop :=
  (∃ text, d.HoldsText place names text) ∧ ∃ other text, d.IsSource place other ∧
    d.HoldsText place other text ∧ NamesLt names other ∧ SamePath other names

/-- The source files that can be read, each with its text. -/
def textsOf (d : Disk) (root : Route) : List (List String × String) :=
  (d.sourceFiles root).filterMap fun names =>
    (d.readText (root.into names)).toOption.map (names, ·)

/-- The source files that cannot be read, each with the failure. -/
def unreadableOf (d : Disk) (root : Route) : List (List String × Failure) :=
  (d.sourceFiles root).filterMap fun names =>
    match d.readText (root.into names) with
    | .error problem => some (root.names ++ names, .unreadable problem)
    | .ok _ => none

variable {d : Disk} {root : Route} {place names : List String} {text : String}

/-- The path of a source is not empty. -/
theorem IsSource.ne_nil (h : d.IsSource place names) : names ≠ [] := by
  rintro rfl
  exact Bool.false_ne_true h.1

/-- The texts that are read are those of the source files that can be read. -/
theorem mem_textsOf_iff_readText : (names, text) ∈ d.textsOf root ↔
    names ∈ d.sourceFiles root ∧ d.readText (root.into names) = .ok text := by
  rw [textsOf, List.mem_filterMap]
  constructor
  · rintro ⟨other, hother, heq⟩
    cases hread : d.readText (root.into other) with
    | error problem =>
        rw [hread] at heq
        cases heq
    | ok read =>
        rw [hread] at heq
        cases heq
        exact ⟨hother, hread⟩
  · rintro ⟨hmem, hread⟩
    refine ⟨names, hmem, ?_⟩
    rw [hread]
    rfl

/-- Reading keeps the order of the files. -/
theorem textsOf_fst_sublist (d : Disk) (root : Route) :
    ((d.textsOf root).map Prod.fst).Sublist (d.sourceFiles root) := by
  rw [textsOf]
  induction d.sourceFiles root with
  | nil => exact List.Sublist.slnil
  | cons names rest ih =>
      rw [List.filterMap_cons]
      cases d.readText (root.into names) with
      | error problem => exact ih.cons names
      | ok read => exact ih.cons_cons names

/-- The source files that cannot be read. -/
def unread (d : Disk) (root : Route) : List (List String) :=
  (d.sourceFiles root).filter fun names => ! (d.readText (root.into names)).isOk

/-- The files that hold a text of some kind and are not hidden. -/
def latestWith (d : Disk) (root : Route) (p : String → Prop) [DecidablePred p] :
    List (List String) :=
  ((latestOf (d.textsOf root)).filter fun t => p t.2).map Prod.fst

/-- The files that cannot be read are reported with the names of the root in front. -/
theorem map_fst_unreadableOf (d : Disk) (root : Route) :
    (d.unreadableOf root).map Prod.fst = (d.unread root).map (root.names ++ ·) := by
  rw [unreadableOf, unread]
  induction d.sourceFiles root with
  | nil => rfl
  | cons names rest ih =>
      rw [List.filterMap_cons, List.filter_cons]
      cases d.readText (root.into names) with
      | error problem => exact congrArg ((root.names ++ names) :: ·) ih
      | ok read => exact ih

section Sources

variable (hd : d.WellFormed) (hroot : d.locate root = .ok place)

include hd hroot

/-- A source file is read if it holds a text. -/
theorem readText_eq_ok_iff (hsource : d.IsSource place names) :
    d.readText (root.into names) = .ok text ↔ d.HoldsText place names text := by
  obtain ⟨-, bytes, hmem⟩ := id hsource
  constructor
  · exact fun heq => ⟨bytes, hmem, (readText_into_eq_ok_iff hd hroot hmem hsource.ne_nil).1 heq⟩
  · rintro ⟨found, hfound, htext⟩
    exact (readText_into_eq_ok_iff hd hroot hfound hsource.ne_nil).2 htext

variable (hdir : d.isDirectory place = true)

include hdir

/-- The texts that are read are those that the sources hold. -/
theorem mem_textsOf_iff : (names, text) ∈ d.textsOf root ↔
    d.IsSource place names ∧ d.HoldsText place names text := by
  rw [mem_textsOf_iff_readText, mem_sourceFiles_iff hd hroot hdir]
  exact and_congr_right fun hsource => readText_eq_ok_iff hd hroot hsource

/-- A file that cannot be read is a source without a text. -/
theorem mem_unread_iff : names ∈ d.unread root ↔
    d.IsSource place names ∧ ¬ ∃ text, d.HoldsText place names text := by
  rw [unread, List.mem_filter, mem_sourceFiles_iff hd hroot hdir]
  refine and_congr_right fun hsource => ?_
  simp only [← readText_eq_ok_iff hd hroot hsource]
  cases d.readText (root.into names) with
  | error problem => exact iff_of_true rfl fun ⟨text, heq⟩ => nomatch heq
  | ok text => exact iff_of_false Bool.false_ne_true (not_not_intro ⟨text, rfl⟩)

/-- The texts that are not replaced are those of the files that are not hidden. -/
theorem mem_latestOf_textsOf_iff : (names, text) ∈ latestOf (d.textsOf root) ↔
    d.IsSource place names ∧ d.HoldsText place names text ∧ ¬ d.Hidden place names := by
  have hsorted : (d.textsOf root).Pairwise fun t u => NamesLt t.1 u.1 :=
    List.pairwise_map.1 ((pairwise_sourceFiles hd hroot).sublist (d.textsOf_fst_sublist root))
  rw [mem_latestOf_iff hsorted, mem_textsOf_iff hd hroot hdir, and_assoc]
  refine and_congr_right fun _ => and_congr_right fun htext => ?_
  constructor
  · rintro hlatest ⟨-, other, read, hsource, hread, hlt, hsame⟩
    exact hlatest (other, read) ((mem_textsOf_iff hd hroot hdir).2 ⟨hsource, hread⟩) hlt hsame
  · rintro hhidden ⟨other, read⟩ hmem hlt hsame
    obtain ⟨hsource, hread⟩ := (mem_textsOf_iff hd hroot hdir).1 hmem
    exact hhidden ⟨⟨text, htext⟩, other, read, hsource, hread, hlt, hsame⟩

/-- Of the texts with a property, those are kept that are not hidden by a later one. -/
theorem mem_latestWith_iff {p : String → Prop} [DecidablePred p] :
    names ∈ d.latestWith root p ↔ d.IsSource place names ∧ ¬ d.Hidden place names ∧
      ∃ text, d.HoldsText place names text ∧ p text := by
  rw [latestWith, List.mem_map]
  constructor
  · rintro ⟨⟨names, text⟩, hmem, rfl⟩
    obtain ⟨hlatest, hp⟩ := List.mem_filter.1 hmem
    obtain ⟨hsource, htext, hhidden⟩ := (mem_latestOf_textsOf_iff hd hroot hdir).1 hlatest
    exact ⟨hsource, hhidden, text, htext, of_decide_eq_true hp⟩
  · rintro ⟨hsource, hhidden, text, htext, hp⟩
    have hlatest := (mem_latestOf_textsOf_iff hd hroot hdir).2 ⟨hsource, htext, hhidden⟩
    exact ⟨(names, text), List.mem_filter.2 ⟨hlatest, decide_eq_true hp⟩, rfl⟩

/-- Of the files that are not hidden, each is of one kind only: it cannot be read, its text is of
some kind, or its text is of the other kind. -/
theorem nodup_latestWith_append {p : String → Prop} [DecidablePred p] :
    (d.latestWith root p ++ (d.unread root ++ d.latestWith root (¬ p ·))).Nodup := by
  have hsource : (d.sourceFiles root).Nodup := (pairwise_sourceFiles hd hroot).imp fun h => h.2
  have hlatest : ∀ q : String → Prop, ∀ [DecidablePred q], (d.latestWith root q).Nodup := fun q _ =>
    hsource.sublist ((((List.filter_sublist).trans (latestOf_sublist _)).map Prod.fst).trans
      (d.textsOf_fst_sublist root))
  have hunique : ∀ names text text', d.HoldsText place names text → d.HoldsText place names text' →
      text = text' := by
    rintro names text text' ⟨bytes, hmem, htext⟩ ⟨bytes', hmem', htext'⟩
    have hbytes := (bytes?_of_mem hd hmem).symm.trans (bytes?_of_mem hd hmem')
    rw [← Option.some.inj hbytes, htext] at htext'
    exact Option.some.inj htext'
  have hread : ∀ (q : String → Prop) [DecidablePred q],
      ∀ names ∈ d.latestWith root q, names ∉ d.unread root := by
    intro q _ names hmem hunread
    obtain ⟨-, -, text, htext, -⟩ := (mem_latestWith_iff hd hroot hdir).1 hmem
    exact ((mem_unread_iff hd hroot hdir).1 hunread).2 ⟨text, htext⟩
  refine List.nodup_append'.2 ⟨hlatest p, List.nodup_append'.2 ⟨hsource.filter _, hlatest _,
    fun names hunread hmem => hread _ names hmem hunread⟩, fun names hmem hother => ?_⟩
  rcases List.mem_append.1 hother with hunread | hother
  · exact hread _ names hmem hunread
  · obtain ⟨-, -, text, htext, hp⟩ := (mem_latestWith_iff hd hroot hdir).1 hmem
    obtain ⟨-, -, text', htext', hnot⟩ := (mem_latestWith_iff hd hroot hdir).1 hother
    exact hnot (hunique names text text' htext htext' ▸ hp)

/-- Whatever the property: each source that is not hidden is listed, and no other one. -/
theorem mem_latestWith_append_iff {p : String → Prop} [DecidablePred p] :
    names ∈ d.latestWith root p ++ (d.unread root ++ d.latestWith root (¬ p ·)) ↔
      d.IsSource place names ∧ ¬ d.Hidden place names := by
  rw [List.mem_append, List.mem_append, mem_latestWith_iff hd hroot hdir,
    mem_unread_iff hd hroot hdir, mem_latestWith_iff hd hroot hdir]
  constructor
  · rintro (⟨hsource, hhidden, -⟩ | ⟨hsource, hunread⟩ | ⟨hsource, hhidden, -⟩)
    · exact ⟨hsource, hhidden⟩
    · exact ⟨hsource, fun hhidden => hunread hhidden.1⟩
    · exact ⟨hsource, hhidden⟩
  · rintro ⟨hsource, hhidden⟩
    by_cases htext : ∃ text, d.HoldsText place names text
    · obtain ⟨text, htext⟩ := htext
      by_cases hp : p text
      · exact .inl ⟨hsource, hhidden, text, htext, hp⟩
      · exact .inr (.inr ⟨hsource, hhidden, text, htext, hp⟩)
    · exact .inr (.inl ⟨hsource, htext⟩)

omit hroot hdir in
/-- Without backslashes in names no file is hidden. -/
theorem not_hidden (hback : ∀ f ∈ d.files, ∀ name ∈ f.1, '\\' ∉ name.toList)
    (hsource : d.IsSource place names) : ¬ d.Hidden place names := by
  rintro ⟨-, other, -, hother, -, hlt, hsame⟩
  obtain ⟨-, bytes, hmem⟩ := id hsource
  obtain ⟨-, bytes', hmem'⟩ := id hother
  refine hlt.2 (normalize_workspacePath_inj hsource.ne_nil hother.ne_nil ?_ ?_ hsame.symm)
  · rw [List.forall_mem_append]
    exact ⟨fun name hname => hd.names _ hmem name (List.mem_append_right _ hname),
      fun name hname => hd.names _ hmem' name (List.mem_append_right _ hname)⟩
  · rw [List.forall_mem_append]
    exact ⟨fun name hname => hback _ hmem name (List.mem_append_right _ hname),
      fun name hname => hback _ hmem' name (List.mem_append_right _ hname)⟩

end Sources

end Disk

/-! ## The report -/

/-- The files that a report names. -/
def LoadReport.paths (r : LoadReport) : List (List String) :=
  r.installed ++ r.failed.map Prod.fst

namespace Workspace

variable {w : Workspace} {d : Disk} {root : Route} {report : LoadReport}

/-- Remappings that are read from files leave the configuration of the workspace as it is. -/
theorem config_loadRemappings {w' : Workspace} (h : w.loadRemappings d root = .ok w') :
    w'.config = w.config := by
  simp only [loadRemappings] at h
  split at h
  · rw [← Except.ok.inj h]
  · split at h
    · split at h
      · cases h
      · rename_i text _
        cases hparse : Remapping.parseAll text with
        | error failure =>
            rw [hparse] at h
            cases h
        | ok remappings =>
            rw [hparse] at h
            rw [← Except.ok.inj h]
            rfl
    · rw [← Except.ok.inj h]

/-- The outcomes of the batch that a directory is loaded as. -/
def loadResults (w : Workspace) (d : Disk) (root : Route) :
    List (List String × Except Failure Outcome) :=
  ((d.textsOf root).map fun t => root.names ++ t.1).zip
    (w.indexAll (LoadReport.batchOf (d.textsOf root))).1

/-- What a load of a directory comes to. -/
theorem fst_loadDirectory {w' : Workspace} {place : List String}
    (hplace : d.locate root = .ok place) (hdir : d.isDirectory place = true)
    (hw' : w.loadRemappings d root = .ok w') :
    (w.loadDirectory d root).1 = .ok ⟨LoadReport.installedOf (w'.loadResults d root),
      d.unreadableOf root ++ LoadReport.faultyOf (w'.loadResults d root)⟩ := by
  rw [loadDirectory, hplace]
  simp only [hdir, hw', List.filterMap_map, Bool.not_true, Bool.false_eq_true, if_false]
  refine congrArg Except.ok (congrArg₂ LoadReport.mk rfl (congrArg₂ (· ++ ·) ?_ rfl))
  refine List.filterMap_congr fun names _ => ?_
  rw [Function.comp_apply]
  cases d.readText (root.into names) with
  | error problem => rfl
  | ok text => rfl

/-- A report is made of a directory. -/
theorem exists_of_loadDirectory (h : (w.loadDirectory d root).1 = .ok report) :
    ∃ place w', d.locate root = .ok place ∧ d.isDirectory place = true ∧
      w.loadRemappings d root = .ok w' := by
  unfold loadDirectory at h
  split at h
  · cases h
  · rename_i place hplace
    split at h
    · cases h
    · rename_i hdir
      split at h
      · cases h
      · rename_i w' hw'
        exact ⟨place, w', hplace, by simpa using hdir, hw'⟩

/-- The files that a report names are those that are not hidden: the ones that are installed, the
ones that cannot be read and the ones with faults. -/
theorem report_of_loadDirectory {w' : Workspace} {place : List String}
    (hplace : d.locate root = .ok place) (hdir : d.isDirectory place = true)
    (hw' : w.loadRemappings d root = .ok w') (h : (w.loadDirectory d root).1 = .ok report) :
    report.installed =
        (d.latestWith root (Loads w.config.toleratesFaults)).map (root.names ++ ·) ∧
      report.failed.map Prod.fst = (d.unread root ++
        d.latestWith root (¬ Loads w.config.toleratesFaults ·)).map (root.names ++ ·) := by
  rw [fst_loadDirectory hplace hdir hw'] at h
  have hfates := fates_indexAll w' (LoadReport.batchOf (d.textsOf root))
  rw [config_loadRemappings hw'] at hfates
  obtain ⟨hinstalled, hfaulty⟩ := LoadReport.results_of_fates hfates fun t => root.names ++ t.1
  rw [← Except.ok.inj h]
  refine ⟨hinstalled.trans ?_, ?_⟩
  · rw [Disk.latestWith, List.map_map]
    rfl
  · rw [List.map_append, List.map_append, Disk.map_fst_unreadableOf, loadResults, hfaulty,
      Disk.latestWith, List.map_map]
    rfl

/-- **A load accounts for every source file that is not hidden.** Each source file below the root
is listed once, and the report names no other file. If a file is hidden, because it holds a text and
a later source file that holds one has the same path, the report does not name it at all. Any other
source file is named once, and it is installed exactly if it holds a text that has no faults or
faults are tolerated. Without backslashes in names no file is hidden. -/
theorem loadDirectory_accounts_for (hd : d.WellFormed)
    (h : (w.loadDirectory d root).1 = .ok report) :
    ∃ place, d.locate root = .ok place ∧ (d.sourceFiles root).Nodup ∧
      (∀ names, names ∈ d.sourceFiles root ↔ d.IsSource place names) ∧
      (∀ path ∈ report.paths, ∃ names ∈ d.sourceFiles root, path = root.names ++ names) ∧
      (∀ names ∈ d.sourceFiles root,
        (¬ d.Hidden place names → report.paths.count (root.names ++ names) = 1) ∧
        (d.Hidden place names → root.names ++ names ∉ report.paths) ∧
        (root.names ++ names ∈ report.installed ↔ ¬ d.Hidden place names ∧
          ∃ text, d.HoldsText place names text ∧ Loads w.config.toleratesFaults text)) ∧
      ((∀ f ∈ d.files, ∀ name ∈ f.1, '\\' ∉ name.toList) →
        ∀ names ∈ d.sourceFiles root, ¬ d.Hidden place names) := by
  obtain ⟨place, w', hplace, hdir, hw'⟩ := exists_of_loadDirectory h
  have hsource : ∀ names, names ∈ d.sourceFiles root ↔ d.IsSource place names :=
    fun names => Disk.mem_sourceFiles_iff hd hplace hdir
  have hnodup : (d.sourceFiles root).Nodup :=
    (Disk.pairwise_sourceFiles hd hplace).imp fun h => h.2
  obtain ⟨hinstalled, hfailed⟩ := report_of_loadDirectory hplace hdir hw' h
  have hpaths : report.paths = (d.latestWith root (Loads w.config.toleratesFaults) ++
      (d.unread root ++ d.latestWith root (¬ Loads w.config.toleratesFaults ·))).map
        (root.names ++ ·) := by
    rw [LoadReport.paths, hinstalled, hfailed, ← List.map_append]
  have hinj : Function.Injective (root.names ++ ·) := List.append_right_injective _
  refine ⟨place, hplace, hnodup, hsource, fun path hpath => ?_,
    fun names hnames => ⟨fun hhidden => ?_, fun hhidden => ?_, ?_⟩,
    fun hback names hnames => Disk.not_hidden hd hback ((hsource names).1 hnames)⟩
  · rw [hpaths, List.mem_map] at hpath
    obtain ⟨names, hnames, rfl⟩ := hpath
    have hshown := (Disk.mem_latestWith_append_iff hd hplace hdir).1 hnames
    exact ⟨names, (hsource names).2 hshown.1, rfl⟩
  · rw [hpaths, List.count_map_of_injective _ _ hinj]
    exact List.count_eq_one_of_mem (Disk.nodup_latestWith_append hd hplace hdir)
      ((Disk.mem_latestWith_append_iff hd hplace hdir).2 ⟨(hsource names).1 hnames, hhidden⟩)
  · rw [hpaths, List.mem_map_of_injective hinj, Disk.mem_latestWith_append_iff hd hplace hdir]
    exact fun h => h.2 hhidden
  · rw [hinstalled, List.mem_map_of_injective hinj, Disk.mem_latestWith_iff hd hplace hdir]
    exact and_iff_right ((hsource names).1 hnames)

/-- A directory with the files `a/b.sol` and `a\b.sol`. -/
def twoNames : Disk :=
  ⟨[(["a", "b.sol"], "contract A {}".toUTF8), (["a\\b.sol"], "contract B {}".toUTF8)], []⟩

/-- The directory with `a/b.sol` and a file named `a\b.sol` is well formed. -/
theorem wellFormed_twoNames : twoNames.WellFormed :=
  ⟨by decide, by decide, by decide⟩

/-- The two names do not keep the directory from being loaded. -/
theorem isOk_loadDirectory_twoNames :
    ∃ report, ((empty .default).loadDirectory twoNames ⟨[], false⟩).1 = .ok report :=
  ⟨_, fst_loadDirectory rfl rfl rfl⟩

/-- Of the two files with one path only the later one is accounted for. -/
theorem loadDirectory_twoNames_accounts_for : ∃ report,
    ((empty .default).loadDirectory twoNames ⟨[], false⟩).1 = .ok report ∧
      ["a", "b.sol"] ∉ report.paths ∧ report.paths.count ["a\\b.sol"] = 1 ∧
      ["a\\b.sol"] ∈ report.installed := by
  obtain ⟨report, h⟩ := isOk_loadDirectory_twoNames
  obtain ⟨place, hplace, -, -, -, haccount, -⟩ := loadDirectory_accounts_for wellFormed_twoNames h
  obtain rfl : [] = place := Except.ok.inj hplace
  have htext : twoNames.HoldsText [] ["a", "b.sol"] "contract A {}" :=
    ⟨_, List.mem_cons_self, by decide +kernel⟩
  have htext' : twoNames.HoldsText [] ["a\\b.sol"] "contract B {}" :=
    ⟨_, List.mem_cons_of_mem _ List.mem_cons_self, by decide +kernel⟩
  have hhidden : twoNames.Hidden [] ["a", "b.sol"] :=
    ⟨⟨_, htext⟩, ["a\\b.sol"], _, ⟨by decide, _, List.mem_cons_of_mem _ List.mem_cons_self⟩, htext',
      by decide, by decide⟩
  -- Nothing comes behind the second file.
  have hshown : ¬ twoNames.Hidden [] ["a\\b.sol"] := by
    rintro ⟨-, other, -, ⟨-, bytes, hmem⟩, -, hlt, -⟩
    have hother : other ∈ twoNames.files.map Prod.fst := List.mem_map_of_mem hmem
    exact absurd hlt ((by decide : ∀ other ∈ twoNames.files.map Prod.fst,
      ¬ NamesLt ["a\\b.sol"] other) other hother)
  refine ⟨report, h, (haccount _ (by decide +kernel)).2.1 hhidden,
    (haccount _ (by decide +kernel)).1 hshown, ?_⟩
  exact (haccount _ (by decide +kernel)).2.2.2 ⟨hshown, _, htext', .inl (by decide +kernel)⟩

/-- Not every source file is accounted for: `a/b.sol` is missing when `a\b.sol` stands beside it. -/
theorem not_accounts_for_twoNames : ¬ ∀ (w : Workspace) (d : Disk) (root : Route)
    (report : LoadReport), d.WellFormed → (w.loadDirectory d root).1 = .ok report →
      ∀ names ∈ d.sourceFiles root, report.paths.count (root.names ++ names) = 1 := by
  intro hclaim
  have hcount := hclaim (empty .default) twoNames ⟨[], false⟩ _ wellFormed_twoNames
    (fst_loadDirectory rfl rfl rfl) ["a", "b.sol"] (by decide +kernel)
  exact absurd hcount (by decide +kernel)

end Workspace

end SolidityAtlas
