import SolidityAtlas.Proofs.Workspace.BasesFirst
import SolidityAtlas.Proofs.Workspace.DepthFirst
import SolidityAtlas.Proofs.Workspace.ListedSymbols

/-!
# What is found through imports

A name that is looked for in a file, or through its imports, is found if and only if a file offers
it to which plain imports lead, and what is found is what such a file offers. So nothing is lost by
passing by the files that a search has visited, even where imports go in circles. When several
files offer the name, the first one in depth-first order is taken, the declarations of a file before
its imports.

All this is so as long as listed symbols lead away from the files that list them. What a symbol
stands for is then found by a search that comes to an end by itself.

## Main Definitions

* `Snapshot.Declares`: a file declares a name at its top level
* `Snapshot.Binds`: a file lists a name, or gives it to another file as a whole

## Main Results

* `Snapshot.found_iff_offered`
-/

open Relation

namespace SolidityAtlas

namespace Snapshot

variable {s : Snapshot} {name : String} {accept : Symbol → Bool} {f g start : FileId}
  {t : SymbolTree} {fresh left : List FileId} {stops : List Stop} {r : Handle}

/-! ## Offers of a file -/

/-- A file offers a declaration at its top level. -/
def Declares (s : Snapshot) (name : String) (accept : Symbol → Bool) (g : FileId) (r : Handle) : Prop :=
  ∃ t id d, s.tree? g = some t ∧ id ∈ t.exported ∧ t.symbol? id = some d ∧ d.name = some name ∧
    accept d = true ∧ r = t.handle id

/-- A file offers what one of its imports gives a name to. -/
inductive Binds (s : Snapshot) (name : String) (accept : Symbol → Bool) (g : FileId) : Handle → Prop
  /-- An import lists a symbol under this name. -/
  | listed {t : SymbolTree} {directive id : NodeId} {u d : Symbol} {r : Handle}
      (tree : s.tree? g = some t) (place : directive ∈ t.imports)
      (listed : id ∈ t.listedSymbols directive) (symbol : t.symbol? id = some u)
      (named : u.localName = some name)
      (target : u.declaration.or (s.symbolTarget? g id) = some r) (declaration : s.symbol? r = some d)
      (accepted : accept d = true) : Binds s name accept g r
  /-- The name is an alias, and the import stands for the file that it means. -/
  | unitAlias {t : SymbolTree} {directive : NodeId} {d : Symbol} (tree : s.tree? g = some t)
      (place : directive ∈ t.imports) (unlisted : t.listedSymbols directive = [])
      (named : t.fileAlias? directive = some name) (symbol : t.symbol? directive = some d)
      (accepted : accept d = true) : Binds s name accept g (t.handle directive)

/-- A file offers a name to its importers. -/
def Offers (s : Snapshot) (name : String) (accept : Symbol → Bool) (g : FileId) (r : Handle) : Prop :=
  s.Declares name accept g r ∨ s.Binds name accept g r

section OfferAt

variable {follow : FileId → NodeId → Option Handle}

/-- What a file offers it declares. -/
theorem declares_of_offerAt? (h : s.offerAt? follow name accept (.file g) = some r) :
    s.Declares name accept g r := by
  obtain ⟨t, ht, h⟩ := Option.bind_eq_some_iff.1 h
  obtain ⟨id, hid, h⟩ := Option.bind_eq_some_iff.1 h
  cases h
  have hany : (t.symbol? id).any (fun d => d.name == some name && accept d) = true :=
    List.find?_some (p := fun id => (t.symbol? id).any fun d => d.name == some name && accept d) hid
  obtain ⟨d, hd, haccept⟩ := (Option.any_eq_true _ _).1 hany
  obtain ⟨hname, haccept⟩ := Bool.and_eq_true_iff.1 haccept
  exact ⟨t, id, d, ht, List.mem_of_find?_eq_some hid, hd, eq_of_beq hname, haccept, rfl⟩

/-- A file that declares something offers something. -/
theorem Declares.offerAt?_ne_none (h : s.Declares name accept g r) :
    s.offerAt? follow name accept (.file g) ≠ none := by
  obtain ⟨t, id, d, ht, hid, hd, hname, haccept, -⟩ := h
  intro hnone
  have hfind : (t.exported.find? fun id =>
      (t.symbol? id).any fun d => d.name == some name && accept d) = none := by
    rw [offerAt?, ht, Option.bind_eq_bind, Option.bind_some] at hnone
    exact Option.eq_none_iff_forall_ne_some.2 fun found hfound =>
      absurd (Option.bind_eq_none_iff.1 hnone found hfound) (Option.some_ne_none _)
  refine List.find?_eq_none.1 hfind id hid ?_
  rw [hd, Option.any_some, hname, haccept, beq_self_eq_true, Bool.and_self]

/-- What a directive offers it binds. -/
theorem binds_of_offerAt? {directive : NodeId} (ht : s.tree? g = some t)
    (hplace : directive ∈ t.imports)
    (h : s.offerAt? s.symbolTarget? name accept (.directive g directive) = some r) :
    s.Binds name accept g r := by
  obtain ⟨t', ht', h⟩ := Option.bind_eq_some_iff.1 h
  obtain rfl : t = t' := Option.some.inj (ht.symm.trans ht')
  simp only at h
  split at h
  · rename_i hempty
    split at h
    · rename_i hcond
      obtain ⟨d, hd, haccept⟩ := (Option.any_eq_true _ _).1 hcond.2
      cases h
      exact .unitAlias ht hplace (List.isEmpty_iff.1 hempty) hcond.1 hd haccept
    · cases h
  · obtain ⟨id, hid, h⟩ := List.exists_of_findSome?_eq_some h
    obtain ⟨hlisted, hname⟩ := List.mem_filter.1 hid
    obtain ⟨u, hu, hname⟩ := Option.bind_eq_some_iff.1 (eq_of_beq hname)
    obtain ⟨htarget, hany⟩ := Option.filter_eq_some_iff.1 h
    obtain ⟨d, hd, haccept⟩ := (Option.any_eq_true _ _).1 hany
    rw [hu, Option.bind_some] at htarget
    exact .listed ht hplace hlisted hu hname htarget hd haccept

/-- What is bound to a name is bound at a place where a walk stops. -/
theorem Binds.exists_stop (hfile : ∀ t, s.tree? g = some t → t.file = g)
    (h : s.Binds name accept g r) : ∃ t, s.tree? g = some t ∧ ∃ stop ∈ s.stopsOf t,
      (∃ directive, stop = .directive g directive) ∧
        s.offerAt? s.symbolTarget? name accept stop ≠ none := by
  cases h with
  | @listed t directive id u d r ht hplace hlisted hu hname htarget hd haccept =>
      have hne : t.listedSymbols directive ≠ [] := List.ne_nil_of_mem hlisted
      refine ⟨t, ht, .directive g directive, (directive_mem_stopsOf_iff (hfile t ht)).2
        ⟨rfl, hplace, fun hnone => absurd hnone hne⟩, ⟨directive, rfl⟩, fun hnone => ?_⟩
      rw [offerAt?, ht, Option.bind_eq_bind, Option.bind_some] at hnone
      simp only [List.isEmpty_iff, if_neg hne] at hnone
      have hid := List.findSome?_eq_none_iff.1 hnone id
        (List.mem_filter.2 ⟨hlisted, by rw [hu, Option.bind_some, hname, beq_self_eq_true]⟩)
      rw [hu, Option.bind_some, htarget, Option.filter_some, hd, Option.any_some, haccept] at hid
      cases hid
  | @unitAlias t directive d ht hplace hnone hname hd haccept =>
      refine ⟨t, ht, .directive g directive, (directive_mem_stopsOf_iff (hfile t ht)).2
        ⟨rfl, hplace, fun _ => by rw [hname]; exact Option.some_ne_none name⟩,
        ⟨directive, rfl⟩, fun hnot => ?_⟩
      rw [offerAt?, ht, Option.bind_eq_bind, Option.bind_some] at hnot
      simp only [hnone, List.isEmpty_nil, if_true, hname, hd, Option.any_some, haccept, and_self] at hnot
      cases hnot

end OfferAt

/-! ## The files that are searched -/

/-- On a walk only such files as are fresh are gone into. -/
theorem mem_fresh_of_mem_walk (h : Stop.file g ∈ s.walk fresh stops) : g ∈ fresh := by
  induction fresh, stops using walk.induct s with
  | case1 fresh =>
      rw [walk] at h
      cases h
  | case2 fresh file directive stops ih =>
      rw [walk] at h
      rcases List.mem_cons.1 h with heq | h
      · cases heq
      · exact ih h
  | case3 fresh file stops hmem t ht ih =>
      rw [walk_installed hmem ht] at h
      rcases List.mem_cons.1 h with heq | h
      · cases heq
        exact hmem
      · exact List.mem_of_mem_erase (ih h)
  | case4 fresh file stops hmem ht ih =>
      rw [walk_absent hmem ht] at h
      exact List.mem_of_mem_erase (ih h)
  | case5 fresh file stops hmem ih =>
      rw [walk, dif_neg hmem] at h
      exact ih h

section Search

variable (hhome : ∀ file t, s.tree? file = some t → t.file = file)

include hhome

/-- What a walk finds is offered by a file that plain imports lead to. -/
theorem offers_of_offered? (hstops : ∀ stop ∈ stops, s.Stands start stop)
    (h : s.offered? s.symbolTarget? fresh stops name accept = some r) :
    ∃ g, ReflTransGen s.ImportsAll start g ∧
      (g ∈ fresh ∧ s.Declares name accept g r ∨ s.Binds name accept g r) := by
  obtain ⟨stop, hstop, hoffer⟩ := List.exists_of_findSome?_eq_some h
  cases stands_walk hhome hstops stop hstop with
  | file reach => exact ⟨_, reach, .inl ⟨mem_fresh_of_mem_walk hstop, declares_of_offerAt? hoffer⟩⟩
  | directive reach tree place =>
      obtain ⟨-, hplace, -⟩ := (directive_mem_stopsOf_iff (hhome _ _ tree)).1 place
      exact ⟨_, reach, .inr (binds_of_offerAt? tree hplace hoffer)⟩

/-- When a search has ended without an answer, it has seen all that plain imports lead to. -/
theorem Barren.of_reach {α : Type} {answer : Stop → Option α} (h : s.Barren answer fresh left)
    (hfresh : ∀ g ∈ s.installed, g ≠ start → g ∈ fresh)
    (hstart : ∀ t, s.tree? start = some t → ∀ stop ∈ s.stopsOf t, Spent answer left stop)
    (hreach : ReflTransGen s.ImportsAll start g) (ht : s.tree? g = some t) :
    (∀ stop ∈ s.stopsOf t, Spent answer left stop) ∧ (g ≠ start → answer (.file g) = none) := by
  induction hreach generalizing t with
  | refl => exact ⟨hstart t ht, fun hne => absurd rfl hne⟩
  | @tail between g _ himport ih =>
      by_cases heq : g = start
      · subst heq
        exact ⟨hstart t ht, fun hne => absurd rfl hne⟩
      · obtain ⟨u, -, hu, -⟩ := id himport
        have hleft : g ∉ left := (ih hu).1 (.file g) ((file_mem_stopsOf_iff hu (hhome _ _ hu)).2 himport)
        obtain ⟨hnone, hspent⟩ := h g (hfresh g (mem_installed_of_tree? ht) heq) hleft t ht
        exact ⟨hspent, fun _ => hnone⟩

/-- So nothing binds the name where a search has found nothing. -/
theorem not_binds_of_spent
    (hspent : ∀ t, s.tree? g = some t → ∀ stop ∈ s.stopsOf t,
      Spent (s.offerAt? s.symbolTarget? name accept) left stop) : ¬ s.Binds name accept g r := by
  intro hbinds
  obtain ⟨t, ht, stop, hstop, ⟨directive, rfl⟩, hsome⟩ := hbinds.exists_stop (hhome g)
  exact hsome (hspent t ht _ hstop)

end Search

/-! ## The look-ups -/

section LookUps

variable (hhome : ∀ file t, s.tree? file = some t → t.file = file) (haway : s.SymbolsLeadAway)

/-- All files but one are searched for what that one imports. -/
theorem filter_installed_eq_erase (s : Snapshot) (f : FileId) :
    (s.installed.filter fun g => ! [f].contains g) = s.installed.erase f := by
  rw [s.nodup_installed.erase_eq_filter]
  refine List.filter_congr fun g _ => ?_
  rw [List.contains_cons, List.contains_nil, Bool.or_false, bne]

include hhome haway

/-- What is exported is offered from the file on. -/
theorem exported?_eq : s.exported? f name accept =
    s.offered? s.symbolTarget? s.installed [.file f] name accept :=
  offered?_follow? hhome haway ..

/-- What is imported is offered by the stops of the file. -/
theorem imported?_eq (ht : s.tree? f = some t) : s.imported? [f] f name accept =
    s.offered? s.symbolTarget? (s.installed.erase f) (s.stopsOf t) name accept := by
  rw [imported?, ht, Option.bind_some, offered?_follow? hhome haway, filter_installed_eq_erase]

/-- What is found is offered by a file that plain imports lead to. -/
theorem offers_of_exported? (h : s.exported? f name accept = some r) :
    ∃ g, ReflTransGen s.ImportsAll f g ∧ s.Offers name accept g r := by
  rw [exported?_eq hhome haway] at h
  have hstart : ∀ stop ∈ [Stop.file f], s.Stands f stop := List.forall_mem_singleton.2 (.file .refl)
  obtain ⟨g, hreach, hoffers⟩ := offers_of_offered? hhome hstart h
  exact ⟨g, hreach, hoffers.imp_left And.right⟩

/-- A name is found if a file offers it that plain imports lead to. -/
theorem exported?_ne_none (hreach : ReflTransGen s.ImportsAll f g) (hoffers : s.Offers name accept g r) :
    s.exported? f name accept ≠ none := by
  rw [exported?_eq hhome haway]
  intro hnone
  have hsearched : s.Searched (s.offerAt? s.symbolTarget? name accept) s.installed s.installed
      [.file f] :=
    searched_walk s.nodup_installed fun _ hmem => hmem
  have hbarren := hsearched.barren hnone
  have hleft := hsearched.spent hnone (.file f) List.mem_cons_self
  have hown := fun t (ht : s.tree? f = some t) =>
    hbarren f (mem_installed_of_tree? ht) hleft t ht
  have hbehind := fun t (ht : s.tree? g = some t) => hbarren.of_reach hhome (fun _ hmem _ => hmem)
    (fun u hu => (hown u hu).2) hreach ht
  rcases hoffers with hdeclares | hbinds
  · obtain ⟨t, -, -, ht, -⟩ := id hdeclares
    by_cases heq : g = f
    · subst heq
      exact hdeclares.offerAt?_ne_none (hown t ht).1
    · exact hdeclares.offerAt?_ne_none ((hbehind t ht).2 heq)
  · exact not_binds_of_spent hhome (fun t ht => (hbehind t ht).1) hbinds

/-- What is imported is declared or bound by a file that is reached. -/
theorem offers_of_imported? (h : s.imported? [f] f name accept = some r) :
    ∃ g, ReflTransGen s.ImportsAll f g ∧
      (g ≠ f ∧ s.Declares name accept g r ∨ s.Binds name accept g r) := by
  obtain ⟨t, ht, -⟩ := Option.bind_eq_some_iff.1 h
  rw [imported?_eq hhome haway ht] at h
  obtain ⟨g, hreach, hoffers⟩ := offers_of_offered? hhome (stands_stopsOf hhome ht .refl) h
  refine ⟨g, hreach, hoffers.imp_left fun ⟨hmem, hdeclares⟩ => ⟨?_, hdeclares⟩⟩
  exact (s.nodup_installed.mem_erase_iff.1 hmem).1

/-- Something is imported if a file that is reached declares or binds something. -/
theorem imported?_ne_none (hreach : ReflTransGen s.ImportsAll f g)
    (hoffers : g ≠ f ∧ s.Declares name accept g r ∨ s.Binds name accept g r) :
    s.imported? [f] f name accept ≠ none := by
  -- A file that is not installed imports nothing, and so leads only to itself.
  have hinstalled : ∃ t, s.tree? f = some t := by
    rcases hreach.cases_head with heq | ⟨_, ⟨t, -, ht, -⟩, -⟩
    · subst heq
      rcases hoffers with ⟨hne, -⟩ | hbinds
      · exact absurd rfl hne
      · obtain ⟨t, ht, -⟩ := hbinds.exists_stop (hhome f)
        exact ⟨t, ht⟩
    · exact ⟨t, ht⟩
  obtain ⟨t, ht⟩ := hinstalled
  rw [imported?_eq hhome haway ht]
  intro hnone
  have hsearched : s.Searched (s.offerAt? s.symbolTarget? name accept) (s.installed.erase f)
      (s.installed.erase f) (s.stopsOf t) :=
    searched_walk (s.nodup_installed.erase f) fun _ hmem => List.mem_of_mem_erase hmem
  have hstart : ∀ u, s.tree? f = some u → ∀ stop ∈ s.stopsOf u,
      Spent (s.offerAt? s.symbolTarget? name accept)
        (s.unvisited (s.installed.erase f) (s.stopsOf t)) stop := by
    intro u hu
    obtain rfl : t = u := Option.some.inj (ht.symm.trans hu)
    exact hsearched.spent hnone
  have hbehind := fun u (hu : s.tree? g = some u) => (hsearched.barren hnone).of_reach hhome
    (fun _ hmem hne => s.nodup_installed.mem_erase_iff.2 ⟨hne, hmem⟩) hstart hreach hu
  rcases hoffers with ⟨hne, hdeclares⟩ | hbinds
  · obtain ⟨u, -, -, hu, -⟩ := id hdeclares
    exact hdeclares.offerAt?_ne_none ((hbehind u hu).2 hne)
  · exact not_binds_of_spent hhome (fun u hu => (hbehind u hu).1) hbinds

/-- What a file offers is the first offer in depth-first order. -/
theorem exported?_eq_findSome? : s.exported? f name accept =
    (s.depthFirst s.installed (.file f)).findSome? (s.offerAt? s.symbolTarget? name accept) := by
  rw [exported?_eq hhome haway, offered?, (searched_walk s.nodup_installed fun _ hmem => hmem).first,
    List.flatMap_singleton]

/-- What reaches a file through its imports is the first offer behind its own declarations. -/
theorem imported?_eq_findSome? : s.imported? [f] f name accept =
    (s.depthFirst s.installed (.file f)).tail.findSome? (s.offerAt? s.symbolTarget? name accept) := by
  cases ht : s.tree? f with
  | none =>
      have hmem : f ∉ s.installed := fun hmem => by
        have hsome := mem_installed_iff.1 hmem
        rw [ht] at hsome
        cases hsome
      rw [imported?, ht, depthFirst_taken hmem]
      rfl
  | some t =>
      rw [imported?_eq hhome haway ht, offered?, depthFirst_installed (mem_installed_of_tree? ht) ht,
        List.tail_cons, (searched_walk (s.nodup_installed.erase f) fun _ hmem =>
          List.mem_of_mem_erase hmem).first]

/-- Each tree is kept under its own file, and listed symbols lead away from the files that list them.
Then a name is found in a file, or through its imports, if and only if a file offers it that plain
imports lead to, whatever circles they go in. What is found is offered by such a file, and it is the
first offer in depth-first order. For what reaches a file through its imports, the file itself counts
only with what these bind. The bound up to which symbols are followed changes nothing. -/
theorem found_iff_offered :
    (∀ hops, s.listedCount ≤ hops → ∀ fresh stops name accept,
      s.offered? (s.symbolTargetWithin hops) fresh stops name accept =
        s.offered? s.symbolTarget? fresh stops name accept) ∧
    ∀ f name accept,
      ((∃ r, s.exported? f name accept = some r) ↔
        ∃ g r, ReflTransGen s.ImportsAll f g ∧ s.Offers name accept g r) ∧
      (∀ r, s.exported? f name accept = some r →
        ∃ g, ReflTransGen s.ImportsAll f g ∧ s.Offers name accept g r) ∧
      s.exported? f name accept =
        (s.depthFirst s.installed (.file f)).findSome? (s.offerAt? s.symbolTarget? name accept) ∧
      ((∃ r, s.imported? [f] f name accept = some r) ↔
        ∃ g r, ReflTransGen s.ImportsAll f g ∧
          (g ≠ f ∧ s.Declares name accept g r ∨ s.Binds name accept g r)) ∧
      (∀ r, s.imported? [f] f name accept = some r →
        ∃ g, ReflTransGen s.ImportsAll f g ∧
          (g ≠ f ∧ s.Declares name accept g r ∨ s.Binds name accept g r)) ∧
      s.imported? [f] f name accept =
        (s.depthFirst s.installed (.file f)).tail.findSome?
          (s.offerAt? s.symbolTarget? name accept) := by
  refine ⟨fun _ henough => offered?_symbolTargetWithin hhome haway henough, fun f name accept => ?_⟩
  refine ⟨⟨fun ⟨r, hr⟩ => ?_, fun ⟨g, r, hreach, hoffers⟩ => ?_⟩,
    fun r => offers_of_exported? hhome haway, exported?_eq_findSome? hhome haway,
    ⟨fun ⟨r, hr⟩ => ?_, fun ⟨g, r, hreach, hoffers⟩ => ?_⟩,
    fun r => offers_of_imported? hhome haway, imported?_eq_findSome? hhome haway⟩
  · obtain ⟨g, hreach, hoffers⟩ := offers_of_exported? hhome haway hr
    exact ⟨g, r, hreach, hoffers⟩
  · exact Option.ne_none_iff_exists'.1 (exported?_ne_none hhome haway hreach hoffers)
  · obtain ⟨g, hreach, hoffers⟩ := offers_of_imported? hhome haway hr
    exact ⟨g, r, hreach, hoffers⟩
  · exact Option.ne_none_iff_exists'.1 (imported?_ne_none hhome haway hreach hoffers)

end LookUps

/-- Two files that import each other, one of them under an alias as well, and a third one that lists a
symbol of theirs. -/
def circle : Snapshot :=
  ((Session.start .default).callAll [.index "A.sol" "import \"./B.sol\"; contract A \x7b\x7d",
    .index "B.sol" "import \"./A.sol\"; import \"./A.sol\" as a; contract B \x7b\x7d",
    .index "C.sol" "import \x7bA as X\x7d from \"./B.sol\";"]).workspace.snapshot

/-- The workspace with the circle is sound. -/
theorem sound_circle : circle.Sound := by
  rw [circle]
  exact (Session.sound_callAll .default _).workspace.snapshot

/-- In the circle the imports go on, but imported symbols lead to earlier files only. -/
theorem imports_circle :
    (∀ f ∈ circle.installed, ∀ t ∈ circle.tree? f,
      (∀ directive ∈ t.imports, ∀ g ∈ circle.importTarget? f directive, g / 2 ≤ f / 2) ∧
      ∀ id ∈ List.range t.size, t.kind? id = some .importSymbol → ∀ directive ∈ t.parent? id,
        ∀ g ∈ circle.importTarget? f directive, g / 2 < f / 2) ∧
    circle.exported? 2 "X" (fun _ => true) = some ⟨0, 1, 2⟩ := by
  decide +kernel

/-- In the circle no symbol leads back to its own file. -/
theorem symbolsLeadAway_circle : circle.SymbolsLeadAway := by
  have hranks := imports_circle.1
  refine symbolsLeadAway_of_rank (· / 2) (fun f g ⟨t, directive, ht, hmem, _, _, hg⟩ => ?_)
    fun f g ⟨t, id, directive, ht, hkind, hparent, hg⟩ => ?_
  · exact (hranks f (mem_installed_of_tree? ht) t ht).1 directive hmem g hg
  · obtain ⟨x, hx, -⟩ := Option.map_eq_some_iff.1 hkind
    exact (hranks f (mem_installed_of_tree? ht) t ht).2 id
      (List.mem_range.2 (SymbolTree.lt_size_of_symbol? hx)) hkind directive hparent g hg

/-- What the third file lists is found in the first one, around the circle. -/
theorem found_iff_offered_circle :
    ((∀ file t, circle.tree? file = some t → t.file = file) ∧ circle.SymbolsLeadAway) ∧
    circle.exported? 2 "X" (fun _ => true) = some ⟨0, 1, 2⟩ ∧
    ∃ g, ReflTransGen circle.ImportsAll 2 g ∧ circle.Offers "X" (fun _ => true) g ⟨0, 1, 2⟩ := by
  have hhome := sound_circle.home
  have hfound := imports_circle.2
  obtain ⟨-, hlookUps⟩ := found_iff_offered hhome symbolsLeadAway_circle
  exact ⟨⟨hhome, symbolsLeadAway_circle⟩, hfound, (hlookUps 2 "X" fun _ => true).2.1 _ hfound⟩

end Snapshot

end SolidityAtlas
