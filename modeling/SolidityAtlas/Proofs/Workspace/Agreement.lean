import SolidityAtlas.Proofs.Symbol.LookUp
import SolidityAtlas.Workspace.Linking

/-!
# Snapshots that agree

Two snapshots agree on some files if there the trees agree and the imports mean the
same files, which are among these files again. The walks through the imports then
visit the same places (`Agree.walk_eq`), what is offered there are counterparts
(`Agree.offerAt?_rel`), and so the forests of the two snapshots agree
(`Agree.forest`), which settles every look-up of the linking phases
(`Agree.targetOf?_rel`).

The one look-up that is not bounded by the files alone is that of a listed symbol:
it goes from symbol to symbol, over as many walks as there are listed symbols in the
whole snapshot. It is compared for equal bounds here (`Agree.symbolTargetWithin_rel`).

## Main Definitions

* `Snapshot.Agree`: two snapshots that look alike from inside some files
-/

namespace SolidityAtlas

/-! ## Tables by file -/

namespace FileMap

variable {α : Type}

/-- The keys of a map are what is found in it. -/
theorem mem_keys_iff {m : FileMap α} {file : FileId} :
    file ∈ m.keys ↔ (m.get? file).isSome = true := by
  have hfind : ∀ es : List (FileId × α),
      file ∈ es.map (·.1) ↔ (find? file es).isSome = true := by
    intro es
    induction es with
    | nil => simp [find?]
    | cons e es ih =>
        rw [List.map_cons, List.mem_cons, ih, find?]
        split
        · rename_i he
          simp [he]
        · rename_i he
          simp [he]
  exact hfind m.entries

theorem mem_entries_of_get? {m : FileMap α} {file : FileId} {a : α} (h : m.get? file = some a) :
    (file, a) ∈ m.entries := by
  have hfind : ∀ es : List (FileId × α), find? file es = some a → (file, a) ∈ es := by
    intro es
    induction es with
    | nil => intro hnone; cases hnone
    | cons e es ih =>
        rw [find?]
        split
        · rename_i heq
          intro hsome
          cases hsome
          rw [heq]
          exact List.mem_cons_self
        · exact fun hrest => List.mem_cons_of_mem _ (ih hrest)
  exact hfind m.entries h

/-- No file has two entries. -/
theorem nodup_keys (m : FileMap α) : m.keys.Nodup :=
  (List.pairwise_map.2 m.sorted).imp fun hlt => Nat.ne_of_lt hlt

end FileMap

namespace Snapshot

/-- A file is installed if it has a tree. -/
theorem mem_installed_iff {s : Snapshot} {file : FileId} :
    file ∈ s.installed ↔ (s.tree? file).isSome = true :=
  FileMap.mem_keys_iff

theorem mem_installed_of_tree? {s : Snapshot} {file : FileId} {t : SymbolTree}
    (h : s.tree? file = some t) : file ∈ s.installed :=
  mem_installed_iff.2 (Option.isSome_of_eq_some h)

/-- No file is installed twice. -/
theorem nodup_installed (s : Snapshot) : s.installed.Nodup :=
  s.trees.nodup_keys

/-- A handle leads to the same node in the forest of the installed trees. -/
theorem symbol?_forest (s : Snapshot) (h : Handle) : s.forest.symbol? h = s.symbol? h := rfl

end Snapshot

/-- The file in which a place on a walk stands. -/
def Stop.home : Stop → FileId
  | .file f => f
  | .directive f _ => f

@[simp] theorem Stop.home_file (file : FileId) : (Stop.file file).home = file := rfl

@[simp] theorem Stop.home_directive (file : FileId) (directive : NodeId) :
    (Stop.directive file directive).home = file := rfl

namespace Snapshot

/-- A walk goes through an installed file by its stops. -/
theorem walk_installed {s : Snapshot} {fresh : List FileId} {file : FileId} {stops : List Stop}
    {t : SymbolTree} (hmem : file ∈ fresh) (ht : s.tree? file = some t) :
    s.walk fresh (.file file :: stops) =
      .file file :: s.walk (fresh.erase file) (s.stopsOf t ++ stops) := by
  rw [walk, dif_pos hmem]
  split
  · rename_i u hu
    rw [ht] at hu
    cases hu
    rfl
  · rename_i hnone
    rw [ht] at hnone
    cases hnone

/-- A walk passes over a file that is not installed. -/
theorem walk_absent {s : Snapshot} {fresh : List FileId} {file : FileId} {stops : List Stop}
    (hmem : file ∈ fresh) (ht : s.tree? file = none) :
    s.walk fresh (.file file :: stops) = s.walk (fresh.erase file) stops := by
  rw [walk, dif_pos hmem]
  split
  · rename_i u hu
    rw [ht] at hu
    cases hu
  · rfl

/-- Two snapshots agree on the files `K` if there the trees agree and the imports mean the same
files, all of them in `K`. -/
structure Agree (K : FileId → Prop) (s s' : Snapshot) : Prop
    extends Forest.TreesAgree K s.forest s'.forest where
  target : ∀ file, K file → ∀ directive,
    s.importTarget? file directive = s'.importTarget? file directive
  closed : ∀ file, K file → ∀ directive target,
    s.importTarget? file directive = some target → K target

namespace Agree

variable {K : FileId → Prop} {s s' : Snapshot} (h : Agree K s s')

include h

/-- The trees of a file in `K`, each taken from its snapshot. -/
theorem trees {file : FileId} (hK : K file) :
    Option.Rel (fun t u => s.tree? file = some t ∧ s'.tree? file = some u ∧ t.file = file ∧
      t.Agree (Forest.Counterpart K s.forest s'.forest) u) (s.tree? file) (s'.tree? file) := by
  have htree : Option.Rel _ (s.tree? file) (s'.tree? file) := h.tree file hK
  cases ht : s.tree? file with
  | none =>
      rw [ht] at htree
      rw [htree.eq_none]
      exact .none
  | some t =>
      obtain ⟨u, hu, hfile, htu⟩ := htree.exists_right ht
      rw [hu]
      exact .some ⟨rfl, rfl, hfile, htu⟩

/-- A file has the same tree on both sides, links aside. -/
theorem trees_at {file : FileId} (hK : K file) {t u : SymbolTree} (ht : s.tree? file = some t)
    (hu : s'.tree? file = some u) :
    t.file = file ∧ u.file = file ∧
      t.Agree (Forest.Counterpart K s.forest s'.forest) u := by
  have htu : Option.Rel _ (s.tree? file) (s'.tree? file) := h.tree file hK
  rw [ht, hu] at htu
  obtain ⟨hfile, htu⟩ := Option.rel_some_some.1 htu
  exact ⟨hfile, (SymbolTree.file_congr htu.outline).symm.trans hfile, htu⟩

/-- The handles of trees that agree are counterparts. -/
theorem counterpart {file : FileId} (hK : K file) {t u : SymbolTree} (ht : s.tree? file = some t)
    (hu : s'.tree? file = some u) {id : NodeId} (hid : id < t.size) :
    Forest.Counterpart K s.forest s'.forest (t.handle id) (u.handle id) := by
  obtain ⟨hfile, hfile', htu⟩ := h.trees_at hK ht hu
  have hid' : id < u.size := SymbolTree.size_congr htu.outline ▸ hid
  refine ⟨by rw [← hfile] at hK; exact hK, hfile.trans hfile'.symm, rfl, ?_, ?_⟩
  · rw [Forest.symbol?_eq_of_tree (f := s.forest) (h := t.handle id) ht hfile]
    exact SymbolTree.isSome_lookup?_iff.2 ⟨id, hid, rfl⟩
  · rw [Forest.symbol?_eq_of_tree (f := s'.forest) (h := u.handle id) hu hfile']
    exact SymbolTree.isSome_lookup?_iff.2 ⟨id, hid', rfl⟩

/-! ## Walks -/

/-- A file has the same stops on both sides. -/
theorem stopsOf_eq {file : FileId} (hK : K file) {t u : SymbolTree} (hfile : t.file = file)
    (houtline : t.outline = u.outline) :
    s.stopsOf t = s'.stopsOf u ∧ ∀ stop ∈ s.stopsOf t, K stop.home := by
  have hu : u.file = file := (SymbolTree.file_congr houtline).symm.trans hfile
  have hstop : ∀ directive, s.stopAt? t directive = s'.stopAt? u directive := by
    intro directive
    rw [stopAt?, stopAt?, SymbolTree.listedSymbols_congr houtline,
      SymbolTree.fileAlias?_congr houtline, hfile, hu, h.target file hK]
  constructor
  · rw [stopsOf, stopsOf, SymbolTree.imports_congr houtline]
    exact List.filterMap_congr fun directive _ => hstop directive
  · intro stop hmem
    obtain ⟨directive, -, hdirective⟩ := List.mem_filterMap.1 hmem
    unfold stopAt? at hdirective
    split at hdirective
    · obtain ⟨target, htarget, rfl⟩ := Option.map_eq_some_iff.1 hdirective
      rw [hfile] at htarget
      rw [Stop.home_file]
      exact h.closed file hK directive target htarget
    · cases hdirective
      rw [Stop.home_directive, hfile]
      exact hK

omit h in
/-- Striking a file off two rows leaves the same files of `K` in both if it was so before. -/
theorem mem_erase_iff {fresh fresh' : List FileId} (hfresh : fresh.Nodup) (hfresh' : fresh'.Nodup)
    (hsame : ∀ file, K file → (file ∈ fresh ↔ file ∈ fresh')) (file : FileId) :
    ∀ other, K other → (other ∈ fresh.erase file ↔ other ∈ fresh'.erase file) := by
  intro other hother
  rw [hfresh.mem_erase_iff, hfresh'.mem_erase_iff, hsame other hother]

/-- Two walks visit the same places if they start at the same places in `K` and have the same
files of `K` still before them. -/
theorem walk_eq {fresh fresh' : List FileId} {stops : List Stop}
    (hfresh : fresh.Nodup) (hfresh' : fresh'.Nodup)
    (hsame : ∀ file, K file → (file ∈ fresh ↔ file ∈ fresh'))
    (hstops : ∀ stop ∈ stops, K stop.home) :
    s.walk fresh stops = s'.walk fresh' stops ∧ ∀ stop ∈ s.walk fresh stops, K stop.home := by
  induction fresh, stops using walk.induct s generalizing fresh' with
  | case1 fresh => simp [walk]
  | case2 fresh file directive stops ih =>
      obtain ⟨heq, hin⟩ := ih hfresh hfresh' hsame fun stop hstop =>
        hstops stop (List.mem_cons_of_mem _ hstop)
      rw [walk, walk, heq]
      refine ⟨rfl, fun stop hstop => ?_⟩
      rcases List.mem_cons.1 hstop with rfl | hstop
      · exact hstops _ List.mem_cons_self
      · exact hin stop (heq ▸ hstop)
  | case3 fresh file stops hmem t ht ih =>
      have hK : K file := by simpa using hstops _ List.mem_cons_self
      have hrest : ∀ stop ∈ stops, K stop.home := fun stop hstop =>
        hstops stop (List.mem_cons_of_mem _ hstop)
      obtain ⟨u, hu, -, -, hfile, htu⟩ := (h.trees hK).exists_right ht
      obtain ⟨hof, hinof⟩ := h.stopsOf_eq hK hfile htu.outline
      obtain ⟨heq, hin⟩ := ih (hfresh.erase file) (hfresh'.erase file)
        (mem_erase_iff hfresh hfresh' hsame file) fun stop hstop =>
          (List.mem_append.1 hstop).elim (hinof stop) (hrest stop)
      rw [walk_installed hmem ht, walk_installed ((hsame file hK).1 hmem) hu, heq, hof]
      refine ⟨rfl, fun stop hstop => ?_⟩
      rcases List.mem_cons.1 hstop with rfl | hstop
      · exact hK
      · exact hin stop (by rw [heq, hof]; exact hstop)
  | case4 fresh file stops hmem ht ih =>
      have hK : K file := by simpa using hstops _ List.mem_cons_self
      have hu : s'.tree? file = none := by
        have htrees := h.trees hK
        rw [ht] at htrees
        exact htrees.eq_none
      rw [walk_absent hmem ht, walk_absent ((hsame file hK).1 hmem) hu]
      exact ih (hfresh.erase file) (hfresh'.erase file)
        (mem_erase_iff hfresh hfresh' hsame file) fun stop hstop =>
          hstops stop (List.mem_cons_of_mem _ hstop)
  | case5 fresh file stops hmem ih =>
      have hK : K file := by simpa using hstops _ List.mem_cons_self
      have hmem' : file ∉ fresh' := fun hmem' => hmem ((hsame file hK).2 hmem')
      rw [walk, walk, dif_neg hmem, dif_neg hmem']
      exact ih hfresh hfresh' hsame fun stop hstop => hstops stop (List.mem_cons_of_mem _ hstop)

/-! ## Offers -/

section Offers

variable {follow follow' : FileId → NodeId → Option Handle}
variable (hfollow : ∀ file, K file → ∀ id,
  Option.Rel (Forest.Counterpart K s.forest s'.forest) (follow file id) (follow' file id))
variable {accept accept' : Symbol → Bool}
variable (haccept : ∀ x y : Symbol, x.bare = y.bare → accept x = accept' y)

include hfollow haccept

omit hfollow in
/-- What a file offers are counterparts. -/
theorem offerAt?_file_rel (name : String) {file : FileId} (hK : K file) :
    Option.Rel (Forest.Counterpart K s.forest s'.forest)
      (s.offerAt? follow name accept (.file file))
      (s'.offerAt? follow' name accept' (.file file)) := by
  refine (h.trees hK).bind fun t u ⟨ht, hu, _, htu⟩ => ?_
  have hnamed : ∀ id, ((t.symbol? id).any fun d => d.name == some name && accept d) =
      (u.symbol? id).any fun d => d.name == some name && accept' d := fun id =>
    (SymbolTree.symbol?_congr htu.outline id).any_eq fun x y hxy => by
      rw [Symbol.name_congr hxy, haccept x y hxy]
  simp only [← SymbolTree.exported_congr htu.outline, ← hnamed]
  cases hid : t.exported.find? fun id =>
      (t.symbol? id).any fun d => d.name == some name && accept d with
  | none => exact .none
  | some id =>
      have hany := List.find?_some hid
      obtain ⟨x, hx, -⟩ := (Option.any_eq_true _ _).1 hany
      exact .some (h.counterpart hK ht hu (SymbolTree.lt_size_of_symbol? hx))

theorem offerAt?_directive_rel (name : String) {file : FileId} (directive : NodeId)
    (hK : K file) :
    Option.Rel (Forest.Counterpart K s.forest s'.forest)
      (s.offerAt? follow name accept (.directive file directive))
      (s'.offerAt? follow' name accept' (.directive file directive)) := by
  refine (h.trees hK).bind fun t u ⟨ht, hu, _, htu⟩ => ?_
  have hany : (t.symbol? directive).any accept = (u.symbol? directive).any accept' :=
    (SymbolTree.symbol?_congr htu.outline directive).any_eq haccept
  simp only [← SymbolTree.listedSymbols_congr htu.outline,
    ← SymbolTree.fileAlias?_congr htu.outline, ← hany, ← SymbolTree.localName?_congr htu.outline]
  split
  · split
    · rename_i hcond
      obtain ⟨x, hx, -⟩ := (Option.any_eq_true _ _).1 hcond.2
      exact .some (h.counterpart hK ht hu (SymbolTree.lt_size_of_symbol? hx))
    · exact .none
  · refine List.Forall₂.findSome?_rel (R := Eq) (by rw [List.forall₂_eq_eq_eq]) ?_
    rintro id _ rfl
    refine ((htu.declaration?_rel id).or (hfollow file hK id)).filter fun c d hcd => ?_
    exact (h.symbol?_rel hcd).any_eq haccept

/-- What a place offers in two snapshots that agree are counterparts. -/
theorem offerAt?_rel (name : String) {stop : Stop} (hK : K stop.home) :
    Option.Rel (Forest.Counterpart K s.forest s'.forest)
      (s.offerAt? follow name accept stop) (s'.offerAt? follow' name accept' stop) := by
  cases stop with
  | file file => exact h.offerAt?_file_rel haccept name hK
  | directive file directive => exact h.offerAt?_directive_rel hfollow haccept name directive hK

/-- A walk is offered counterparts, though it may pass over other files on one side. -/
theorem offered?_rel {fresh fresh' : List FileId} {stops : List Stop}
    (hfresh : fresh.Nodup) (hfresh' : fresh'.Nodup)
    (hsame : ∀ file, K file → (file ∈ fresh ↔ file ∈ fresh'))
    (hstops : ∀ stop ∈ stops, K stop.home) (name : String) :
    Option.Rel (Forest.Counterpart K s.forest s'.forest)
      (s.offered? follow fresh stops name accept)
      (s'.offered? follow' fresh' stops name accept') := by
  obtain ⟨heq, hin⟩ := h.walk_eq hfresh hfresh' hsame hstops
  unfold offered?
  rw [← heq]
  refine List.Forall₂.findSome?_rel (R := fun a b => a = b ∧ K a.home) ?_ ?_
  · exact List.forall₂_same.2 fun stop hstop => ⟨rfl, hin stop hstop⟩
  · rintro stop _ ⟨rfl, hK⟩
    exact h.offerAt?_rel hfollow haccept name hK

end Offers

/-- The same files are installed on both sides. -/
theorem mem_installed_iff_of_agree (file : FileId) (hK : K file) :
    file ∈ s.installed ↔ file ∈ s'.installed := by
  rw [mem_installed_iff, mem_installed_iff, (h.trees hK).isSome_eq]

/-- Symbols that imports list stand for counterparts, if they are followed equally far. -/
theorem symbolTargetWithin_rel (hops : Nat) {file : FileId} (hK : K file) (id : NodeId) :
    Option.Rel (Forest.Counterpart K s.forest s'.forest)
      (s.symbolTargetWithin hops file id) (s'.symbolTargetWithin hops file id) := by
  induction hops generalizing file id with
  | zero => exact .none
  | succ hops ih =>
      unfold symbolTargetWithin
      refine (h.trees hK).bind fun t u ⟨_, _, _, htu⟩ => ?_
      rw [← SymbolTree.name?_congr htu.outline, ← SymbolTree.parent?_congr htu.outline]
      cases (t.symbol? id).bind Symbol.name with
      | none => exact .none
      | some name =>
          cases t.parent? id with
          | none => exact .none
          | some directive =>
              simp only [Option.bind_eq_bind, Option.bind_some]
              rw [← h.target file hK]
              cases htarget : s.importTarget? file directive with
              | none => exact .none
              | some target =>
                  have hKt : K target := h.closed file hK directive target htarget
                  refine h.offered?_rel (fun file hK id => ih hK id) (fun _ _ _ => rfl)
                    s.nodup_installed s'.nodup_installed h.mem_installed_iff_of_agree ?_ name
                  intro stop hstop
                  rw [List.mem_singleton.1 hstop]
                  exact hKt

section Follow

variable (hfollow : ∀ file, K file → ∀ id,
  Option.Rel (Forest.Counterpart K s.forest s'.forest) (s.follow? file id) (s'.follow? file id))

include hfollow

/-- What files export are counterparts. -/
theorem exported?_rel {file : FileId} (hK : K file) (name : String) {accept accept' : Symbol → Bool}
    (haccept : ∀ x y : Symbol, x.bare = y.bare → accept x = accept' y) :
    Option.Rel (Forest.Counterpart K s.forest s'.forest) (s.exported? file name accept)
      (s'.exported? file name accept') := by
  refine h.offered?_rel hfollow haccept s.nodup_installed s'.nodup_installed
    h.mem_installed_iff_of_agree ?_ name
  intro stop hstop
  rw [List.mem_singleton.1 hstop]
  exact hK

/-- What files import are counterparts. -/
theorem imported?_rel (visited : List FileId) {file : FileId} (hK : K file) (name : String)
    {accept accept' : Symbol → Bool}
    (haccept : ∀ x y : Symbol, x.bare = y.bare → accept x = accept' y) :
    Option.Rel (Forest.Counterpart K s.forest s'.forest) (s.imported? visited file name accept)
      (s'.imported? visited file name accept') := by
  refine (h.trees hK).bind fun t u ⟨_, _, hfile, htu⟩ => ?_
  obtain ⟨heq, hin⟩ := h.stopsOf_eq hK hfile htu.outline
  rw [← heq]
  refine h.offered?_rel hfollow haccept (s.nodup_installed.filter _) (s'.nodup_installed.filter _)
    (fun other hother => ?_) hin name
  rw [List.mem_filter, List.mem_filter, h.mem_installed_iff_of_agree other hother]

/-- Snapshots that agree have forests that agree. -/
theorem forest : Forest.Agree K s.forest s'.forest where
  toTreesAgree := h.toTreesAgree
  imported := by
    intro a b hab name
    refine (h.symbol?_rel hab).bind fun _ _ _ => ?_
    rw [← hab.file, ← hab.node, ← h.target a.file hab.within]
    cases htarget : s.importTarget? a.file a.node with
    | none => exact .none
    | some target =>
        exact h.exported?_rel hfollow (h.closed a.file hab.within a.node target htarget) name
          fun _ _ _ => rfl

end Follow

/-! ## Phases -/

section Phases

variable (hcount : s.listedCount = s'.listedCount) (maxDepth : Nat)

include hcount

/-- What an imported symbol leads to has its counterpart. -/
theorem follow?_rel {file : FileId} (hK : K file) (id : NodeId) :
    Option.Rel (Forest.Counterpart K s.forest s'.forest) (s.follow? file id) (s'.follow? file id) := by
  rw [follow?, follow?, ← hcount]
  exact h.symbolTargetWithin_rel s.listedCount hK id

/-- What a directive imports under a name has its counterpart. -/
theorem symbolTarget?_rel {file : FileId} (hK : K file) (id : NodeId) :
    Option.Rel (Forest.Counterpart K s.forest s'.forest) (s.symbolTarget? file id)
      (s'.symbolTarget? file id) := by
  rw [symbolTarget?, symbolTarget?, ← hcount]
  exact h.symbolTargetWithin_rel (s.listedCount + 1) hK id

/-- Where the same files list the same, the forests agree. -/
theorem forest_of_listedCount_eq : Forest.Agree K s.forest s'.forest :=
  h.forest fun _ hK id => h.follow?_rel hcount hK id

theorem importedFor?_rel {file : FileId} (hK : K file) {x y : Symbol} (hxy : x.bare = y.bare) :
    Option.Rel (Forest.Counterpart K s.forest s'.forest) (s.importedFor? file x)
      (s'.importedFor? file y) := by
  rw [importedFor?, importedFor?, ← Symbol.name_congr hxy]
  cases x.name with
  | none => exact .none
  | some name =>
      exact h.imported?_rel (fun _ hK id => h.follow?_rel hcount hK id) [file] hK name
        fun _ _ hbare => Symbol.acceptsKind_congr hbare hxy

variable {file : FileId} {t u : SymbolTree} (hK : K file) (ht : s.tree? file = some t)
  (hu : s'.tree? file = some u) {usage : NodeId} {x y : Symbol} (hx : t.symbol? usage = some x)
  (hxy : x.bare = y.bare)

include hK ht hu hxy

theorem importTargetOf?_rel :
    Option.Rel (Forest.Counterpart K s.forest s'.forest) (s.importTargetOf? t usage x)
      (s'.importTargetOf? u usage y) := by
  obtain ⟨htfile, hufile, -⟩ := h.trees_at hK ht hu
  rw [importTargetOf?, importTargetOf?, htfile, hufile, ← Symbol.kind_congr hxy]
  split
  · exact h.symbolTarget?_rel hcount hK usage
  · exact h.importedFor?_rel hcount hK hxy

include hx

theorem nameTargetOf?_rel :
    Option.Rel (Forest.Counterpart K s.forest s'.forest) (s.nameTargetOf? maxDepth t usage x)
      (s'.nameTargetOf? maxDepth u usage y) := by
  obtain ⟨htfile, hufile, htu⟩ := h.trees_at hK ht hu
  refine Option.Rel.or ?_ (by rw [htfile, hufile]; exact h.importedFor?_rel hcount hK hxy)
  rw [SymbolTree.enclosingContract?, SymbolTree.enclosingContract?,
    ← SymbolTree.enclosing?_congr htu.outline]
  cases hc : t.enclosing? .contractDefinition usage with
  | none => exact .none
  | some c =>
      have hlt : c < usage := SymbolTree.lt_of_mem_ancestors (List.mem_of_find?_eq_some hc)
      exact (h.forest_of_listedCount_eq hcount).inherited?_rel maxDepth hxy
        (h.counterpart hK ht hu (Nat.lt_trans hlt (SymbolTree.lt_size_of_symbol? hx)))

theorem memberTargetOf?_rel :
    Option.Rel (Forest.Counterpart K s.forest s'.forest) (s.memberTargetOf? maxDepth t usage x)
      (s'.memberTargetOf? maxDepth u usage y) := by
  obtain ⟨htfile, hufile, -⟩ := h.trees_at hK ht hu
  have hforest := h.forest_of_listedCount_eq hcount
  have husage := h.counterpart hK ht hu (SymbolTree.lt_size_of_symbol? hx)
  rw [memberTargetOf?, memberTargetOf?, ← Symbol.detail_congr hxy, htfile, hufile]
  split
  · exact hforest.resolveAccess?_rel maxDepth husage
  · refine hforest.dottedTarget?_rel maxDepth (fun first => ?_) _ husage
    exact h.imported?_rel (fun _ hK id => h.follow?_rel hcount hK id) [file] hK first
      fun _ _ hbare => by rw [Symbol.kind_congr hbare]
  · exact .none

/-- In every phase, uses mean counterparts. -/
theorem targetOf?_rel (phase : Phase) :
    Option.Rel (Forest.Counterpart K s.forest s'.forest) (s.targetOf? maxDepth phase t usage x)
      (s'.targetOf? maxDepth phase u usage y) := by
  cases phase with
  | imports => exact h.importTargetOf?_rel hcount hK ht hu hxy
  | names => exact h.nameTargetOf?_rel hcount maxDepth hK ht hu hx hxy
  | members => exact h.memberTargetOf?_rel hcount maxDepth hK ht hu hx hxy

omit hx hxy

/-- A phase links a use to counterparts in two snapshots that agree. -/
theorem linkFor?_rel (phase : Phase) (usage : NodeId) :
    Option.Rel (fun l l' => l.1 = l'.1 ∧ Forest.Counterpart K s.forest s'.forest l.2 l'.2)
      (s.linkFor? maxDepth phase t usage) (s'.linkFor? maxDepth phase u usage) := by
  obtain ⟨-, -, htu⟩ := h.trees_at hK ht hu
  have hphase : ∀ {v w : Symbol}, v.bare = w.bare → t.phaseOf usage v = u.phaseOf usage w := by
    intro v w hvw
    rw [SymbolTree.phaseOf, SymbolTree.phaseOf, Symbol.kind_congr hvw, Symbol.isByName_congr hvw,
      SymbolTree.isBaseName_congr htu.outline]
  have husage := SymbolTree.symbol?_congr htu.outline usage
  unfold linkFor?
  cases hv : t.symbol? usage with
  | none =>
      rw [hv] at husage
      rw [husage.eq_none]
      exact .none
  | some v =>
      obtain ⟨w, hw, hvw⟩ := husage.exists_right hv
      rw [hw, Option.filter_some, Option.filter_some, ← hphase hvw]
      split
      · refine (h.targetOf?_rel hcount maxDepth hK ht hu hv hvw phase).map fun d d' hdd' => ?_
        exact ⟨rfl, (h.forest_of_listedCount_eq hcount).target_rel hvw hdd'⟩
      · exact .none

/-- A phase finds links to counterparts in two snapshots that agree, for the same uses. -/
theorem linksIn_rel (phase : Phase) (hpending : t.pending = u.pending) :
    List.Forall₂ (fun l l' => l.1 = l'.1 ∧ Forest.Counterpart K s.forest s'.forest l.2 l'.2)
      (s.linksIn maxDepth phase file) (s'.linksIn maxDepth phase file) := by
  simp only [linksIn, ht, hu, ← hpending]
  exact List.Forall₂.filterMap_rel
    (fun usage => h.linkFor?_rel hcount maxDepth hK ht hu phase usage) t.pending

end Phases

end Agree

end Snapshot

end SolidityAtlas
