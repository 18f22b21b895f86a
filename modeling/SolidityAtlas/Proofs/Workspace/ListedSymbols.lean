import SolidityAtlas.Proofs.Workspace.Reindex
import Mathlib.Data.List.Nodup
import Mathlib.Data.List.Perm.Subperm
import Mathlib.Logic.Relation

/-!
# Where listed symbols lead

A listed symbol is followed over as many walks as there are listed symbols at all. Nothing is
lost by this bound if no symbol leads back to the file that lists it, be it by way of plain
imports or of other listed symbols: each walk then begins in a new file, and a file in which one
begins lists a symbol (`Trail.length_le`). So a symbol stands for the same, however much farther
it is followed (`Trail.symbolTargetWithin_eq`), and so it does not matter for what is
offered on a walk (`offered?_symbolTargetWithin`).

Plain imports may go in circles as they like, and aliases too, behind which no walk goes on.

## Main Definitions

* `Snapshot.ImportsAll`: a plain import, which brings in all that the imported file offers
* `Snapshot.ListsFrom`: an import that lists symbols
* `Snapshot.SymbolsLeadAway`: no listed symbol leads back to its file
* `Snapshot.Stands`: a place at which a walk from a file can come
-/

open Relation

namespace SolidityAtlas

namespace Snapshot

variable {s : Snapshot} {file start f g : FileId} {t : SymbolTree} {fresh : List FileId}
  {stops : List Stop}

/-- A plain import of a file means another one: it has no alias and lists no symbols. -/
def ImportsAll (s : Snapshot) (f g : FileId) : Prop :=
  ∃ t directive, s.tree? f = some t ∧ directive ∈ t.imports ∧ t.listedSymbols directive = [] ∧
    t.fileAlias? directive = none ∧ s.importTarget? f directive = some g

/-- An import of a file that lists a symbol means another file. -/
def ListsFrom (s : Snapshot) (f g : FileId) : Prop :=
  ∃ t id directive, s.tree? f = some t ∧ t.kind? id = some .importSymbol ∧
    t.parent? id = some directive ∧ s.importTarget? f directive = some g

/-- What is looked for in a file can have to be looked for in another one. -/
def LeadsTo (s : Snapshot) (f g : FileId) : Prop :=
  s.ImportsAll f g ∨ s.ListsFrom f g

/-- From the file that a listed symbol is looked for in, neither plain imports nor listed symbols lead
back to the file that lists it. -/
def SymbolsLeadAway (s : Snapshot) : Prop :=
  ∀ f g, s.ListsFrom f g → ¬ ReflTransGen s.LeadsTo g f

/-- Symbols lead away if files can be ranked so that a plain import means no higher file, and one that
lists a symbol means a lower file. -/
theorem symbolsLeadAway_of_rank (rank : FileId → Nat)
    (hall : ∀ f g, s.ImportsAll f g → rank g ≤ rank f)
    (hlists : ∀ f g, s.ListsFrom f g → rank g < rank f) : s.SymbolsLeadAway := by
  intro f g hfrom hback
  have hle : rank f ≤ rank g := by
    clear hfrom
    induction hback with
    | refl => exact Nat.le_refl _
    | tail _ hstep ih =>
        exact Nat.le_trans (hstep.elim (hall _ _) fun hlisted => Nat.le_of_lt (hlists _ _ hlisted)) ih
  exact Nat.not_lt.2 hle (hlists f g hfrom)

/-- Links play no part in where symbols lead. -/
theorem SameShape.symbolsLeadAway {s' : Snapshot} (h : SameShape s s') (haway : s.SymbolsLeadAway) :
    s'.SymbolsLeadAway := by
  have htree : ∀ {f t'}, s'.tree? f = some t' → ∃ t, s.tree? f = some t ∧ t.outline = t'.outline := by
    intro f t' ht'
    obtain ⟨t, ht, houtline⟩ := (h.tree f).flip.exists_right ht'
    exact ⟨t, ht, houtline⟩
  have hall : ∀ f g, s'.ImportsAll f g → s.ImportsAll f g := by
    rintro f g ⟨t', directive, ht', hmem, hunlisted, halias, htarget⟩
    obtain ⟨t, ht, houtline⟩ := htree ht'
    rw [← SymbolTree.imports_congr houtline] at hmem
    rw [← SymbolTree.listedSymbols_congr houtline] at hunlisted
    rw [← SymbolTree.fileAlias?_congr houtline] at halias
    exact ⟨t, directive, ht, hmem, hunlisted, halias, h.importTarget?_eq f directive ▸ htarget⟩
  have hlists : ∀ f g, s'.ListsFrom f g → s.ListsFrom f g := by
    rintro f g ⟨t', id, directive, ht', hkind, hparent, htarget⟩
    obtain ⟨t, ht, houtline⟩ := htree ht'
    rw [← SymbolTree.kind?_congr houtline] at hkind
    rw [← SymbolTree.parent?_congr houtline] at hparent
    exact ⟨t, id, directive, ht, hkind, hparent, h.importTarget?_eq f directive ▸ htarget⟩
  exact fun f g hfrom hback => haway f g (hlists f g hfrom)
    (ReflTransGen.mono (fun a b => Or.imp (hall a b) (hlists a b)) _ _ hback)

/-! ## Where a walk comes -/

/-- A place stands in a file that plain imports lead to. -/
inductive Stands (s : Snapshot) (start : FileId) : Stop → Prop
  | file {k : FileId} (reach : ReflTransGen s.ImportsAll start k) : Stands s start (.file k)
  | directive {k : FileId} {u : SymbolTree} {directive : NodeId}
      (reach : ReflTransGen s.ImportsAll start k) (tree : s.tree? k = some u)
      (place : Stop.directive k directive ∈ s.stopsOf u) : Stands s start (.directive k directive)

/-- Where a walk stands is reached by plain imports. -/
theorem Stands.reach {stop : Stop} (h : s.Stands start stop) :
    ReflTransGen s.ImportsAll start stop.home := by
  cases h with
  | file reach => exact reach
  | directive reach => exact reach

/-- The walk goes on behind a file to the files that its plain imports mean. -/
theorem file_mem_stopsOf_iff (ht : s.tree? f = some t) (hfile : t.file = f) :
    Stop.file g ∈ s.stopsOf t ↔ s.ImportsAll f g := by
  have hplain : ∀ directive, s.stopAt? t directive = some (.file g) ↔
      t.listedSymbols directive = [] ∧ t.fileAlias? directive = none ∧
        s.importTarget? f directive = some g := by
    intro directive
    rw [stopAt?, hfile]
    split
    · rename_i hcond
      rw [Bool.and_eq_true, List.isEmpty_iff, Option.isNone_iff_eq_none] at hcond
      simp [hcond]
    · rename_i hcond
      rw [Bool.and_eq_true, List.isEmpty_iff, Option.isNone_iff_eq_none] at hcond
      simp only [Option.some.injEq, reduceCtorEq, false_iff]
      exact fun hall => hcond ⟨hall.1, hall.2.1⟩
  rw [stopsOf, List.mem_filterMap]
  constructor
  · rintro ⟨directive, hmem, hstop⟩
    exact ⟨t, directive, ht, hmem, (hplain directive).1 hstop⟩
  · rintro ⟨t', directive, ht', hmem, hrest⟩
    obtain rfl : t = t' := Option.some.inj (ht.symm.trans ht')
    exact ⟨directive, hmem, (hplain directive).2 hrest⟩

/-- It stops at the imports that bring in certain names only. -/
theorem directive_mem_stopsOf_iff (hfile : t.file = f) {directive : NodeId} :
    Stop.directive g directive ∈ s.stopsOf t ↔ g = f ∧ directive ∈ t.imports ∧
      (t.listedSymbols directive = [] → t.fileAlias? directive ≠ none) := by
  have hstop : ∀ other, s.stopAt? t other = some (.directive g directive) ↔
      (g = f ∧ directive = other) ∧
        (t.listedSymbols other = [] → t.fileAlias? other ≠ none) := by
    intro other
    rw [stopAt?, hfile]
    split
    · rename_i hcond
      rw [Bool.and_eq_true, List.isEmpty_iff, Option.isNone_iff_eq_none] at hcond
      simp [hcond]
    · rename_i hcond
      rw [Bool.and_eq_true, List.isEmpty_iff, Option.isNone_iff_eq_none, not_and] at hcond
      simp only [Option.some.injEq, Stop.directive.injEq]
      constructor
      · rintro ⟨rfl, rfl⟩
        exact ⟨⟨rfl, rfl⟩, hcond⟩
      · rintro ⟨⟨rfl, rfl⟩, -⟩
        exact ⟨rfl, rfl⟩
  rw [stopsOf, List.mem_filterMap]
  constructor
  · rintro ⟨other, hmem, hother⟩
    obtain ⟨⟨hg, rfl⟩, hnames⟩ := (hstop other).1 hother
    exact ⟨hg, hmem, hnames⟩
  · rintro ⟨hg, hmem, hnames⟩
    exact ⟨directive, hmem, (hstop directive).2 ⟨⟨hg, rfl⟩, hnames⟩⟩

section Walks

variable (hhome : ∀ file t, s.tree? file = some t → t.file = file)

include hhome

/-- The stops of a file that is reached are reached. -/
theorem stands_stopsOf (ht : s.tree? g = some t) (hreach : ReflTransGen s.ImportsAll start g) :
    ∀ stop ∈ s.stopsOf t, s.Stands start stop := by
  intro stop hstop
  have hfile := hhome g t ht
  cases stop with
  | file k => exact .file (hreach.tail ((file_mem_stopsOf_iff ht hfile).1 hstop))
  | directive k directive =>
      obtain ⟨rfl, -⟩ := (directive_mem_stopsOf_iff hfile).1 hstop
      exact .directive hreach ht hstop

/-- A walk comes to such places only. -/
theorem stands_walk (hstops : ∀ stop ∈ stops, s.Stands start stop) :
    ∀ stop ∈ s.walk fresh stops, s.Stands start stop := by
  induction fresh, stops using walk.induct s with
  | case1 fresh =>
      rw [walk]
      exact hstops
  | case2 fresh file directive stops ih =>
      rw [walk]
      obtain ⟨hfirst, hrest⟩ := List.forall_mem_cons.1 hstops
      exact List.forall_mem_cons.2 ⟨hfirst, ih hrest⟩
  | case3 fresh file stops hmem t ht ih =>
      rw [walk_installed hmem ht]
      obtain ⟨hfirst, hrest⟩ := List.forall_mem_cons.1 hstops
      refine List.forall_mem_cons.2 ⟨hfirst, ih fun stop hstop => ?_⟩
      rcases List.mem_append.1 hstop with hstop | hstop
      · exact stands_stopsOf hhome ht hfirst.reach stop hstop
      · exact hrest stop hstop
  | case4 fresh file stops hmem ht ih =>
      rw [walk_absent hmem ht]
      exact ih (List.forall_mem_cons.1 hstops).2
  | case5 fresh file stops hmem ih =>
      rw [walk, dif_neg hmem]
      exact ih (List.forall_mem_cons.1 hstops).2

end Walks

/-! ## From symbol to symbol -/

/-- The files in which walks have begun, on the way to a file: each lists a symbol that leads there. -/
structure Trail (s : Snapshot) (trail : List FileId) (f : FileId) : Prop where
  nodup : trail.Nodup
  ahead : ∀ p ∈ trail, ∃ g, s.ListsFrom p g ∧ ReflTransGen s.LeadsTo g f

namespace Trail

variable {trail : List FileId}

/-- No symbol has been followed at the start of a trail. -/
theorem nil (f : FileId) : s.Trail [] f :=
  ⟨.nil, fun _ hp => absurd hp List.not_mem_nil⟩

/-- One more walk begins in a file in which none has begun. -/
theorem cons (h : s.Trail trail f) (haway : s.SymbolsLeadAway) (hfrom : s.ListsFrom f g) {k : FileId}
    (hreach : ReflTransGen s.ImportsAll g k) : s.Trail (f :: trail) k := by
  have hway : ReflTransGen s.LeadsTo g k :=
    ReflTransGen.mono (fun _ _ => Or.inl) _ _ hreach
  refine ⟨List.nodup_cons.2 ⟨fun hmem => ?_, h.nodup⟩, fun p hp => ?_⟩
  · obtain ⟨k', hfrom', hback⟩ := h.ahead f hmem
    exact haway f k' hfrom' hback
  · rcases List.mem_cons.1 hp with rfl | hp
    · exact ⟨g, hfrom, hway⟩
    · obtain ⟨k', hfrom', hreach'⟩ := h.ahead p hp
      exact ⟨k', hfrom', (hreach'.tail (.inr hfrom)).trans hway⟩

/-- No more walks have begun than there are listed symbols. -/
theorem length_le (h : s.Trail trail f) : trail.length ≤ s.listedCount := by
  have hsub : trail ⊆ (s.trees.entries.filter fun e =>
      0 < e.2.nodes.countP (·.kind == .importSymbol)).map (·.1) := by
    intro p hp
    obtain ⟨-, ⟨t, id, -, ht, hkind, -⟩, -⟩ := h.ahead p hp
    refine List.mem_map.2 ⟨(p, t), List.mem_filter.2 ⟨FileMap.mem_entries_of_get? ht, ?_⟩, rfl⟩
    obtain ⟨x, hx, hxkind⟩ := Option.map_eq_some_iff.1 hkind
    exact decide_eq_true (Array.countP_pos_iff.2
      ⟨x, Array.mem_of_getElem? hx, by rw [hxkind]; rfl⟩)
  have hlength := (h.nodup.subperm hsub).length_le
  rw [List.length_map] at hlength
  refine Nat.le_trans hlength (Nat.le_trans (length_filter_pos_le_total _ _) (Nat.le_of_eq ?_))
  rw [listedCount, FileMap.values, total_map]

end Trail

/-! ## Symbols that are followed farther -/

section Offers

variable {follow follow' : FileId → NodeId → Option Handle} {name : String} {accept : Symbol → Bool}

/-- What a place offers depends only on what the symbols stand for that are listed there. -/
theorem offerAt?_congr_follow {stop : Stop}
    (h : ∀ t id, s.tree? stop.home = some t → t.kind? id = some .importSymbol →
      follow stop.home id = follow' stop.home id) :
    s.offerAt? follow name accept stop = s.offerAt? follow' name accept stop := by
  cases stop with
  | file file => rfl
  | directive file directive =>
      refine Option.bind_congr fun t ht => ?_
      simp only
      split
      · rfl
      · refine List.findSome?_congr_left fun id hid => ?_
        have hlisted := List.mem_filter.1 (List.mem_of_mem_filter hid)
        have hsame : follow file id = follow' file id := h t id ht (eq_of_beq hlisted.2)
        rw [hsame]

/-- A search follows listed symbols only where it comes by. -/
theorem offered?_congr_follow
    (h : ∀ stop ∈ s.walk fresh stops, ∀ t id, s.tree? stop.home = some t →
      t.kind? id = some .importSymbol → follow stop.home id = follow' stop.home id) :
    s.offered? follow fresh stops name accept = s.offered? follow' fresh stops name accept :=
  List.findSome?_congr_left fun stop hstop => offerAt?_congr_follow (h stop hstop)

end Offers

/-- A listed symbol that stands for something has an import that means a file. -/
theorem listsFrom_of_symbolTargetWithin {hops : Nat} {id : NodeId} {d : Handle}
    (ht : s.tree? f = some t) (hkind : t.kind? id = some .importSymbol)
    (h : s.symbolTargetWithin hops f id = some d) : ∃ g, s.ListsFrom f g := by
  cases hops with
  | zero => cases h
  | succ hops =>
      obtain ⟨t', ht', h⟩ := Option.bind_eq_some_iff.1 h
      obtain rfl : t = t' := Option.some.inj (ht.symm.trans ht')
      obtain ⟨name, -, h⟩ := Option.bind_eq_some_iff.1 h
      obtain ⟨directive, hparent, h⟩ := Option.bind_eq_some_iff.1 h
      obtain ⟨g, hg, -⟩ := Option.bind_eq_some_iff.1 h
      exact ⟨g, t, id, directive, ht, hkind, hparent, hg⟩

section Away

variable (hhome : ∀ file t, s.tree? file = some t → t.file = file) (haway : s.SymbolsLeadAway)

include haway

/-- When all listed symbols have been used up, none is left to follow. -/
theorem Trail.symbolTargetWithin_eq_none {trail : List FileId} (h : s.Trail trail f)
    (hfull : s.listedCount ≤ trail.length) {id : NodeId} (ht : s.tree? f = some t)
    (hkind : t.kind? id = some .importSymbol) (hops : Nat) :
    s.symbolTargetWithin hops f id = none := by
  by_contra hsome
  obtain ⟨d, hd⟩ := Option.ne_none_iff_exists'.1 hsome
  obtain ⟨g, hfrom⟩ := listsFrom_of_symbolTargetWithin ht hkind hd
  have hlength := (h.cons haway hfrom .refl).length_le
  rw [List.length_cons] at hlength
  omega

include hhome

/-- A symbol stands for the same, however many more walks than there are symbols may be made. -/
theorem Trail.symbolTargetWithin_eq {trail : List FileId} (h : s.Trail trail f) {id : NodeId}
    (ht : s.tree? f = some t) (hkind : t.kind? id = some .importSymbol) {hops hops' : Nat}
    (henough : s.listedCount ≤ trail.length + hops) (henough' : s.listedCount ≤ trail.length + hops') :
    s.symbolTargetWithin hops f id = s.symbolTargetWithin hops' f id := by
  induction hops generalizing hops' trail f t id with
  | zero =>
      rw [h.symbolTargetWithin_eq_none haway henough ht hkind,
        h.symbolTargetWithin_eq_none haway henough ht hkind]
  | succ hops ih =>
      cases hops' with
      | zero =>
          rw [h.symbolTargetWithin_eq_none haway henough' ht hkind,
            h.symbolTargetWithin_eq_none haway henough' ht hkind]
      | succ hops' =>
          refine Option.bind_congr fun t' ht' => Option.bind_congr fun name _ =>
            Option.bind_congr fun directive hparent => Option.bind_congr fun g hg => ?_
          obtain rfl : t = t' := Option.some.inj (ht.symm.trans ht')
          have hfrom : s.ListsFrom f g := ⟨t, id, directive, ht, hkind, hparent, hg⟩
          refine offered?_congr_follow fun stop hstop u other hu hother => ?_
          have hstands := stands_walk hhome (s := s)
            (List.forall_mem_singleton.2 (.file .refl)) stop hstop
          have htrail := h.cons haway hfrom hstands.reach
          exact ih htrail hu hother (by rw [List.length_cons]; omega) (by rw [List.length_cons]; omega)

/-- With enough hops a listed symbol is followed to its end. -/
theorem symbolTargetWithin_eq_symbolTarget? {id : NodeId} (ht : s.tree? f = some t)
    (hkind : t.kind? id = some .importSymbol) {hops : Nat} (henough : s.listedCount ≤ hops) :
    s.symbolTargetWithin hops f id = s.symbolTarget? f id :=
  (Trail.nil f).symbolTargetWithin_eq hhome haway ht hkind (by simpa using henough) (by simp)

/-- On a walk symbols are followed as far as they lead, and a greater bound changes nothing. -/
theorem offered?_symbolTargetWithin {hops : Nat} (henough : s.listedCount ≤ hops)
    (fresh : List FileId) (stops : List Stop) (name : String) (accept : Symbol → Bool) :
    s.offered? (s.symbolTargetWithin hops) fresh stops name accept =
      s.offered? s.symbolTarget? fresh stops name accept :=
  offered?_congr_follow fun _ _ _ _ ht hkind =>
    symbolTargetWithin_eq_symbolTarget? hhome haway ht hkind henough

/-- Following listed symbols as far as needed is following them to their ends. -/
theorem offered?_follow? (fresh : List FileId) (stops : List Stop) (name : String)
    (accept : Symbol → Bool) :
    s.offered? s.follow? fresh stops name accept = s.offered? s.symbolTarget? fresh stops name accept :=
  offered?_symbolTargetWithin hhome haway (Nat.le_refl _) fresh stops name accept

end Away

end Snapshot

end SolidityAtlas
