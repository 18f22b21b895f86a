import Mathlib.Data.Nat.Find
import SolidityAtlas.Proofs.Symbol.Linearization
import SolidityAtlas.Proofs.Workspace.Saturation
import SolidityAtlas.Proofs.Workspace.Session

/-!
# What bases declare comes before what imports bring in

A name inside a contract is looked up in the bases of the contract first, and then in what the
imports of the file bring in. Links are not taken back, so the bases have to be known when this
is done. The names of bases are therefore looked up in the first phase, but those that are
written with dots are not: like other dotted types they come last. A name for which something
else is found before then is linked as if the contract had no such base. A name for which
nothing is found is looked up again in the next round, when the base is known.

## Main Definitions

* `Snapshot.beforeNames`: the snapshot in which names are looked up, after some rounds
* `Snapshot.FoundFirst`: what is found for a name in the first round that finds anything
* `Snapshot.LinkedLate`: a use is linked to a contract, but not in the first phase
* `Snapshot.HasLateBase`: a contract of which a base is linked late

## Main Results

* `Snapshot.Sound.declaration?_of_nameTarget`
* `Snapshot.Sound.declaration?_of_foundFirst`
* `Snapshot.Sound.declaration?_of_inherited`
-/

namespace SolidityAtlas

namespace Snapshot

variable {s s' : Snapshot} {file : FileId} {maxDepth : Nat} {linked : FileId → Prop}

/-! ## Names -/

/-- A snapshot has its own imports. -/
theorem SameImports.refl (s : Snapshot) : SameImports s s :=
  ⟨fun _ _ => rfl, rfl, fun _ => .self fun _ _ => ⟨⟨rfl, fun _ _ => rfl⟩, fun _ _ => rfl⟩⟩

/-- What a name refers to is decided by the bare symbol and by the shape of the tree. -/
theorem nameTargetOf?_congr {t t' : SymbolTree} (hshape : SymbolTree.SameShape t t') {usage : NodeId}
    {x y : Symbol} (hx : t.symbol? usage = some x) (hbare : y.bare = x.bare) :
    s.nameTargetOf? maxDepth t' usage y = s.nameTargetOf? maxDepth t usage x := by
  have haccepts : ∀ d, s.forest.memberAccepting? y d = s.forest.memberAccepting? x d := fun d => by
    rw [Forest.memberAccepting?, Forest.memberAccepting?]
    refine congrArg (List.find? · _) (funext fun m => ?_)
    cases s.forest.symbol? m with
    | none => rfl
    | some v => exact Symbol.accepts_congr rfl hbare
  rw [nameTargetOf?, nameTargetOf?, (SameImports.refl s).importedFor?_eq t'.file hbare,
    SymbolTree.file_congr hshape.outline, SymbolTree.enclosingContract?, SymbolTree.enclosingContract?,
    SymbolTree.enclosing?_congr hshape.outline]
  cases hc : t.enclosing? .contractDefinition usage with
  | none => rfl
  | some c =>
      have hlt : c < t.size := Nat.lt_trans (SymbolTree.lt_of_mem_ancestors (List.mem_of_find?_eq_some hc))
        (SymbolTree.lt_size_of_symbol? hx)
      simp only [Option.bind_some, hshape.handle c hlt, Forest.inherited?, funext haccepts]

/-- What a name is found to refer to when the first phase has been repeated for the first time is what it
is linked to. -/
theorem Sound.declaration?_of_nameTarget (h : s.Sound) {t : SymbolTree} (ht : s.tree? file = some t)
    {u : NodeId} (hu : u ∈ t.pending) {x : Symbol} (hx : t.symbol? u = some x)
    (hphase : t.phaseOf u x = .names) {d : Handle}
    (hd : (s.exhaust maxDepth .imports file).1.nameTargetOf? maxDepth t u x = some d) :
    (s.linkFile maxDepth file).1.forest.declaration? (t.handle u) =
      some ((s.exhaust maxDepth .imports file).1.forest.target x d) := by
  obtain ⟨hsound, hextends, t₁, ht₁, hpending⟩ := h.exhaust maxDepth ht .imports
  have hshape := hextends.sameShape h hsound ht ht₁
  obtain ⟨y, hy, hbare⟩ := SymbolTree.symbol?_of_outline hshape.outline.symm hx
  obtain ⟨-, hnames⟩ := hsound.afterImports_linkFile ht₁ rfl
  generalize (s.exhaust maxDepth .imports file).1 = τ at hsound hextends ht₁ hnames hd ⊢
  have hnot : t.phaseOf u x ≠ .imports := by
    rw [hphase]
    nofun
  have hfound : (u, τ.forest.target y d) ∈ τ.linksIn maxDepth .names file :=
    (mem_linksIn_iff ht₁).2 ⟨hpending u x hx hnot hu, y, d, hy,
      by rw [SymbolTree.phaseOf_congr hshape.outline hbare.symm, hphase],
      (nameTargetOf?_congr hshape hx hbare.symm).trans hd, rfl⟩
  have htarget : τ.forest.target x d = τ.forest.target y d := by
    rw [Forest.target, Forest.target, Symbol.kind_congr hbare]
  rw [htarget, ← hshape.handle u (SymbolTree.lt_size_of_symbol? hx)]
  exact hnames.kept _ _ (((hsound.addLinks_linksIn maxDepth ht₁ .names).declaration u _).2 (.inr hfound))

/-! ## Rounds -/

/-- The snapshot after some rounds of all phases. -/
def afterRounds (maxDepth : Nat) (file : FileId) (n : Nat) (s : Snapshot) : Snapshot :=
  (fun s => (linkRound maxDepth file s).1)^[n] s

/-- The snapshot in which the names of a file are looked up, after some rounds of all phases. -/
def beforeNames (maxDepth : Nat) (file : FileId) (n : Nat) (s : Snapshot) : Snapshot :=
  ((s.afterRounds maxDepth file n).exhaust maxDepth .imports file).1

/-- What is found for a name in the first round that finds anything for it, after `n` other rounds. -/
structure FoundFirst (maxDepth : Nat) (file : FileId) (s : Snapshot) (t : SymbolTree) (u : NodeId)
    (x : Symbol) (n : Nat) (d : Handle) : Prop where
  before : ∀ m < n, (s.beforeNames maxDepth file m).nameTargetOf? maxDepth t u x = none
  found : (s.beforeNames maxDepth file n).nameTargetOf? maxDepth t u x = some d

/-- There is one round only that finds something first. -/
theorem FoundFirst.unique {t : SymbolTree} {u : NodeId} {x : Symbol} {n m : Nat} {d e : Handle}
    (h : FoundFirst maxDepth file s t u x n d) (h' : FoundFirst maxDepth file s t u x m e) :
    m = n ∧ e = d := by
  have hnot : ∀ {n m d e}, FoundFirst maxDepth file s t u x n d → FoundFirst maxDepth file s t u x m e →
      ¬ n < m := by
    intro n m d e h h' hlt
    have hnone := h'.before n hlt
    rw [h.found] at hnone
    cases hnone
  obtain rfl : m = n := Nat.le_antisymm (Nat.le_of_not_lt (hnot h h')) (Nat.le_of_not_lt (hnot h' h))
  exact ⟨rfl, Option.some.inj (h'.found.symm.trans h.found)⟩

/-- A file that has been linked in a round is linked to the end as before. -/
theorem linkFile_linkRound (s : Snapshot) :
    ((s.linkRound maxDepth file).1.linkFile maxDepth file).1 = (s.linkFile maxDepth file).1 := by
  by_cases hnone : (s.linkRound maxDepth file).2 = 0
  · rw [(linkRound_eq_self hnone).1]
  · conv_rhs => rw [linkFile, dif_neg hnone]

/-- Linking a file starts with any number of its rounds. -/
theorem linkFile_afterRounds (n : Nat) (s : Snapshot) :
    ((s.afterRounds maxDepth file n).linkFile maxDepth file).1 = (s.linkFile maxDepth file).1 := by
  induction n generalizing s with
  | zero => rfl
  | succ n ih => exact (ih (s.linkRound maxDepth file).1).trans (linkFile_linkRound s)

/-- The linked file is reached after some rounds, and names are looked up in it then. -/
theorem exists_beforeNames_eq (maxDepth : Nat) (file : FileId) (s : Snapshot) :
    ∃ n, s.beforeNames maxDepth file n = (s.linkFile maxDepth file).1 := by
  fun_induction linkFile maxDepth file s with
  | case1 s r hnone =>
      obtain ⟨hself, hfound⟩ := linkRound_eq_self hnone
      refine ⟨0, ?_⟩
      show (s.exhaust maxDepth .imports file).1 = r.1
      rw [Snapshot.exhaust, dif_pos (hfound .imports)]
      exact hself.symm
  | case2 s r _ linked n heq ih =>
      rw [heq] at ih
      obtain ⟨n, hn⟩ := ih
      exact ⟨n + 1, hn⟩

/-- A name for which nothing is found in a round is pending when the round is over. -/
theorem Sound.linkRound (h : s.Sound) {t : SymbolTree} (ht : s.tree? file = some t) {u : NodeId}
    (hu : u ∈ t.pending) {x : Symbol} (hx : t.symbol? u = some x) (hphase : t.phaseOf u x = .names)
    (hnone : (s.exhaust maxDepth .imports file).1.nameTargetOf? maxDepth t u x = none) :
    (s.linkRound maxDepth file).1.Sound ∧ Extends (· = file) s (s.linkRound maxDepth file).1 ∧
      ∃ t', (s.linkRound maxDepth file).1.tree? file = some t' ∧ u ∈ t'.pending := by
  have hother : ∀ {t' : SymbolTree} {y : Symbol} {phase : Phase}, t'.outline = t.outline →
      y.bare = x.bare → phase ≠ .names → t'.phaseOf u y ≠ phase := by
    intro t' y phase houtline hbare hne heq
    rw [SymbolTree.phaseOf_congr houtline hbare, hphase] at heq
    exact hne heq.symm
  obtain ⟨h₁, hextends₁, t₁, ht₁, hkept₁⟩ := h.exhaust maxDepth ht .imports
  have hshape₁ := hextends₁.sameShape h h₁ ht ht₁
  obtain ⟨h₂, hextends₂, ⟨t₂, ht₂, hpending₂⟩, -⟩ := h₁.addLinks_linksIn maxDepth ht₁ .names
  have hshape₂ := (hextends₁.trans hextends₂).sameShape h h₂ ht ht₂
  obtain ⟨y₂, hy₂, hbare₂⟩ := SymbolTree.symbol?_of_outline hshape₂.outline.symm hx
  have hu₂ : u ∈ t₂.pending := by
    refine (hpending₂ u).2 ⟨hkept₁ u x hx (hother rfl rfl (by decide)) hu, fun hlinked => ?_⟩
    obtain ⟨⟨_, d⟩, hmem, rfl⟩ := List.mem_map.1 hlinked
    obtain ⟨-, y, e, hy, -, he, -⟩ := (mem_linksIn_iff ht₁).1 hmem
    have hsame := (nameTargetOf?_congr hshape₁ hx (hshape₁.bare_eq hx hy)).trans hnone
    exact Option.some_ne_none e (Eq.trans (Eq.symm he) hsame)
  obtain ⟨h₃, hextends₃, t₃, ht₃, hkept₃⟩ := h₂.exhaust maxDepth ht₂ .members
  exact ⟨h₃, hextends₁.trans (hextends₂.trans hextends₃), t₃, ht₃,
    hkept₃ u y₂ hy₂ (hother hshape₂.outline hbare₂.symm (by decide)) hu₂⟩

/-- A name for which nothing is found in some rounds is pending when they are over. -/
theorem Sound.afterRounds (h : s.Sound) {t : SymbolTree} (ht : s.tree? file = some t) {u : NodeId}
    (hu : u ∈ t.pending) {x : Symbol} (hx : t.symbol? u = some x) (hphase : t.phaseOf u x = .names)
    {n : Nat} (hnone : ∀ m < n, (s.beforeNames maxDepth file m).nameTargetOf? maxDepth t u x = none) :
    (s.afterRounds maxDepth file n).Sound ∧ Extends (· = file) s (s.afterRounds maxDepth file n) ∧
      ∃ t', (s.afterRounds maxDepth file n).tree? file = some t' ∧ u ∈ t'.pending := by
  induction n with
  | zero => exact ⟨h, .refl _ s, t, ht, hu⟩
  | succ n ih =>
      obtain ⟨hsound, hextends, t', ht', hu'⟩ := ih fun m hm => hnone m (Nat.lt_succ_of_lt hm)
      have hshape := hextends.sameShape h hsound ht ht'
      obtain ⟨y, hy, hbare⟩ := SymbolTree.symbol?_of_outline hshape.outline.symm hx
      have hround := hsound.linkRound ht' hu' hy
        (by rw [SymbolTree.phaseOf_congr hshape.outline hbare.symm, hphase])
        ((nameTargetOf?_congr hshape hx hbare.symm).trans (hnone n (Nat.lt_succ_self n)))
      rw [Snapshot.afterRounds, Function.iterate_succ_apply']
      exact ⟨hround.1, hextends.trans hround.2.1, hround.2.2⟩

/-- What is first found for a name is what the name is linked to. -/
theorem Sound.declaration?_of_foundFirst (h : s.Sound) {t : SymbolTree} (ht : s.tree? file = some t)
    {u : NodeId} (hu : u ∈ t.pending) {x : Symbol} (hx : t.symbol? u = some x)
    (hphase : t.phaseOf u x = .names) {n : Nat} {d : Handle}
    (hfirst : FoundFirst maxDepth file s t u x n d) :
    (s.linkFile maxDepth file).1.forest.declaration? (t.handle u) =
      some ((s.linkFile maxDepth file).1.forest.target x d) := by
  obtain ⟨hsound, hextends, t', ht', hu'⟩ := h.afterRounds ht hu hx hphase hfirst.before
  have hshape := hextends.sameShape h hsound ht ht'
  obtain ⟨y, hy, hbare⟩ := SymbolTree.symbol?_of_outline hshape.outline.symm hx
  obtain ⟨hsound₁, -, t₁, ht₁, -⟩ := hsound.exhaust maxDepth ht' .imports
  obtain ⟨hafter, -⟩ := hsound₁.afterImports_linkFile ht₁ rfl
  have hlinked := hsound.declaration?_of_nameTarget ht' hu' hy
    (by rw [SymbolTree.phaseOf_congr hshape.outline hbare.symm, hphase])
    ((nameTargetOf?_congr hshape hx hbare.symm).trans hfirst.found)
  rw [← (hafter.more.gains hsound₁ hafter.sound).target_eq, linkFile_afterRounds,
    hshape.handle u (SymbolTree.lt_size_of_symbol? hx)] at hlinked
  rwa [Forest.target, Symbol.kind_congr hbare]

/-! ## Bases -/

/-- A use is linked to a contract in `s'` and not yet in `s`, but not in the first phase. -/
def LinkedLate (s s' : Snapshot) (name : Handle) : Prop :=
  s.forest.declaration? name = none ∧
    (∃ base ∈ s'.forest.declaration? name, s'.forest.kind? base = some .contractDefinition) ∧
    ∃ t ∈ s.tree? name.file, ∃ x ∈ t.symbol? name.node, t.phaseOf name.node x ≠ .imports

instance (s s' : Snapshot) (name : Handle) : Decidable (LinkedLate s s' name) :=
  inferInstanceAs (Decidable (_ ∧ _ ∧ _))

/-- A contract of which the name of a base is linked late. -/
def HasLateBase (s s' : Snapshot) (contract : Handle) : Prop :=
  ∃ specifier ∈ s'.forest.children contract, s'.forest.kind? specifier = some .inheritanceSpecifier ∧
    ∃ name ∈ s'.forest.firstChild? specifier, LinkedLate s s' name

instance (s s' : Snapshot) (contract : Handle) : Decidable (HasLateBase s s' contract) :=
  inferInstanceAs (Decidable (∃ specifier ∈ s'.forest.children contract, _ ∧ ∃ name ∈ _, LinkedLate s s' name))

/-- What is linked to a contract after the first phase is linked late: a use that is looked up in this phase
would have been linked in it. -/
theorem AfterImports.linkedLate {t : SymbolTree} (hafter : AfterImports file t s s') (h : s.Sound)
    (ht : s.tree? file = some t) {name base : Handle} (hnone : s.forest.declaration? name = none)
    (hlinked : s'.forest.declaration? name = some base)
    (hcontract : s'.forest.kind? base = some .contractDefinition) : LinkedLate s s' name := by
  obtain ⟨z, hz, -⟩ := Option.bind_eq_some_iff.1 hlinked
  obtain ⟨t', v, ht', hsymbol, rfl⟩ := exists_tree?_of_symbol? hz
  have hfile : (t'.handle v).file = file := by
    by_contra hne
    rw [hafter.more.others _ hne, hnone] at hlinked
    cases hlinked
  rw [hfile] at ht'
  have hshape := hafter.more.sameShape h hafter.sound ht ht'
  obtain ⟨y, hy, -⟩ := SymbolTree.symbol?_of_outline hshape.outline hsymbol
  refine ⟨hnone, ⟨base, hlinked, hcontract⟩, t, by rwa [hfile], y, hy, fun hphase => ?_⟩
  have hsame := hafter.imports v y hy hphase
  rw [← hshape.handle v (SymbolTree.lt_size_of_symbol? hy), hlinked, hnone] at hsame
  cases hsame

/-- When the names of a file are looked up, a contract has the bases that it has in the end but for those
that are linked late, and so finds in them what it finds in the end. -/
theorem AfterImports.inherited?_eq {t : SymbolTree} (hafter : AfterImports file t s s') (h : s.Sound)
    (ht : s.tree? file = some t) {c : Handle} (x : Symbol)
    (hlate : ∀ b ∈ s'.forest.linearize maxDepth c, ¬ HasLateBase s s' b) :
    s.forest.inherited? maxDepth c x = s'.forest.inherited? maxDepth c x := by
  have hgains := hafter.more.gains h hafter.sound
  have hbases : ∀ b ∈ s'.forest.linearize maxDepth c, s.forest.bases b = s'.forest.bases b := by
    intro b hb
    refine (hgains.bases_eq fun specifier hspecifier hk name hfirst hnone base hlinked hcontract =>
      hlate b hb ?_).symm
    exact ⟨specifier, by rwa [hgains.children_eq], by rwa [hgains.kind?_eq], name,
      by rwa [hgains.firstChild?_eq], hafter.linkedLate h ht hnone hlinked hcontract⟩
  rw [Forest.inherited?, Forest.inherited?, hgains.memberAccepting?_eq, Forest.linearize_congr hbases]

/-- A name in a contract is linked to what the bases of the contract declare, as they are known when the
file has been linked, unless something else is found for it while the base of some contract among them
is still to be linked. -/
theorem Sound.declaration?_of_inherited (h : s.Sound) {t : SymbolTree} (ht : s.tree? file = some t)
    (hs' : s' = (s.linkFile maxDepth file).1) {u c : NodeId} (hu : u ∈ t.pending) {x : Symbol}
    (hx : t.symbol? u = some x) (hname : x.isByName = true) (hbase : t.isBaseName u = false)
    (hc : t.enclosingContract? u = some c) {d : Handle}
    (hd : s'.forest.inherited? maxDepth (t.handle c) x = some d)
    (hlate : ∀ n e, FoundFirst maxDepth file s t u x n e → e ≠ d →
      ∀ b ∈ s'.forest.linearize maxDepth (t.handle c),
        ¬ HasLateBase (s.beforeNames maxDepth file n) s' b) :
    s'.forest.declaration? (t.handle u) = some (s'.forest.target x d) := by
  have hphase := SymbolTree.phaseOf_of_isByName hname hbase
  have hmeant : ∀ {τ : Snapshot}, τ.forest.inherited? maxDepth (t.handle c) x = some d →
      τ.nameTargetOf? maxDepth t u x = some d := by
    intro τ hinherited
    rw [nameTargetOf?, hc, Option.bind_some, hinherited, Option.some_or]
  -- Some round finds something for the name: in the end the bases declare it.
  have hsome : ∃ n, (s.beforeNames maxDepth file n).nameTargetOf? maxDepth t u x ≠ none := by
    obtain ⟨n, hn⟩ := exists_beforeNames_eq maxDepth file s
    refine ⟨n, ?_⟩
    rw [hn, ← hs', hmeant hd]
    exact Option.some_ne_none d
  obtain ⟨e, he⟩ := Option.ne_none_iff_exists'.1 (Nat.find_spec hsome)
  have hfirst : FoundFirst maxDepth file s t u x (Nat.find hsome) e :=
    ⟨fun m hm => not_not.1 (Nat.find_min hsome hm), he⟩
  -- It is what the bases declare, since these are known then or nothing else is found.
  have heq : e = d := by
    by_contra hne
    obtain ⟨hsound, hextends, t', ht', -⟩ := h.afterRounds ht hu hx hphase hfirst.before
    obtain ⟨hsound₁, -, t₁, ht₁, -⟩ := hsound.exhaust maxDepth ht' .imports
    obtain ⟨hafter, -⟩ := hsound₁.afterImports_linkFile ht₁ rfl
    rw [linkFile_afterRounds, ← hs'] at hafter
    have hinherited := hafter.inherited?_eq hsound₁ ht₁ x (hlate _ e hfirst hne)
    rw [hd] at hinherited
    exact hne (Option.some.inj (he.symm.trans (hmeant hinherited)))
  rw [hs', h.declaration?_of_foundFirst ht hu hx hphase hfirst, heq]

/-- What some calls lead to, with the links of a file taken back as when it is linked again. -/
def unlinkedAfter (calls : List Call) (file : FileId) : Snapshot :=
  let s := (Session.start .default).callAll calls
  s.workspace.links.unlinkIn file s.snapshot

/-- Taking back the links of a file leaves a workspace sound. -/
theorem sound_unlinkedAfter (calls : List Call) (file : FileId) : (unlinkedAfter calls file).Sound := by
  have hsound := (Session.sound_callAll .default calls).workspace
  exact hsound.snapshot.unlinkIn (hsound.links.targets file)

/-- A base with a local name, and another file that offers what it declares. -/
def listedBase : Snapshot :=
  unlinkedAfter [.index "B.sol" "contract Base \x7b function ping() internal \x7b\x7d \x7d",
    .index "X.sol" "function ping() \x7b\x7d",
    .index "C.sol" ("import \x7bBase as B\x7d from \"./B.sol\"; import \"./X.sol\";" ++
      "contract C is B \x7b function f() public \x7b ping(); \x7d \x7d")] 2

/-- A base that is written with a dot, and no other file. -/
def lateBase : Snapshot :=
  unlinkedAfter [.index "B.sol" "contract Base \x7b function ping() internal \x7b\x7d \x7d",
    .index "C.sol" ("import \"./B.sol\" as B;" ++
      "contract C is B.Base \x7b function f() public \x7b ping(); \x7d \x7d")] 1

/-- The one base is known when names are looked up for the first time. The other one is not, but nothing
else is found then. -/
theorem declaration?_listedBase_and_lateBase :
    (∃ t ∈ listedBase.tree? 2, ∃ x ∈ t.symbol? 12, ∃ d,
      (listedBase.linkFile defaultMaxDepth 2).1.forest.declaration? (t.handle 12) =
        some ((listedBase.linkFile defaultMaxDepth 2).1.forest.target x d)) ∧
    ∃ t ∈ lateBase.tree? 1, ∃ x ∈ t.symbol? 10, ∃ d,
      (lateBase.linkFile defaultMaxDepth 1).1.forest.declaration? (t.handle 10) =
        some ((lateBase.linkFile defaultMaxDepth 1).1.forest.target x d) := by
  constructor
  · have huse : ∃ t ∈ listedBase.tree? 2, ∃ x ∈ t.symbol? 12, 12 ∈ t.pending ∧ x.isByName = true ∧
        t.isBaseName 12 = false ∧ ∃ c ∈ t.enclosingContract? 12,
          ∃ d ∈ (listedBase.linkFile defaultMaxDepth 2).1.forest.inherited? defaultMaxDepth (t.handle c) x,
            (∀ b ∈ (listedBase.linkFile defaultMaxDepth 2).1.forest.linearize defaultMaxDepth (t.handle c),
              ¬ HasLateBase (listedBase.beforeNames defaultMaxDepth 2 0)
                (listedBase.linkFile defaultMaxDepth 2).1 b) ∧
            ((listedBase.beforeNames defaultMaxDepth 2 0).nameTargetOf? defaultMaxDepth t 12 x).isSome := by
      decide +kernel
    obtain ⟨t, ht, x, hx, hu, hname, hbase, c, hc, d, hd, hlate, hsome⟩ := huse
    obtain ⟨e, he⟩ := Option.isSome_iff_exists.1 hsome
    have hfirst : FoundFirst defaultMaxDepth 2 listedBase t 12 x 0 e := ⟨nofun, he⟩
    refine ⟨t, ht, x, hx, d, (sound_unlinkedAfter _ 2).declaration?_of_inherited ht rfl hu hx hname hbase
      hc hd fun n e' hfirst' _ => ?_⟩
    obtain ⟨rfl, -⟩ := hfirst.unique hfirst'
    exact hlate
  · have huse : ∃ t ∈ lateBase.tree? 1, ∃ x ∈ t.symbol? 10, 10 ∈ t.pending ∧ x.isByName = true ∧
        t.isBaseName 10 = false ∧ ∃ c ∈ t.enclosingContract? 10,
          ∃ d ∈ (lateBase.linkFile defaultMaxDepth 1).1.forest.inherited? defaultMaxDepth (t.handle c) x,
            (lateBase.beforeNames defaultMaxDepth 1 0).nameTargetOf? defaultMaxDepth t 10 x = none ∧
            (lateBase.beforeNames defaultMaxDepth 1 1).nameTargetOf? defaultMaxDepth t 10 x = some d := by
      decide +kernel
    obtain ⟨t, ht, x, hx, hu, hname, hbase, c, hc, d, hd, hnone, hfound⟩ := huse
    have hfirst : FoundFirst defaultMaxDepth 1 lateBase t 10 x 1 d := by
      refine ⟨fun m hm => ?_, hfound⟩
      obtain rfl := Nat.lt_one_iff.1 hm
      exact hnone
    refine ⟨t, ht, x, hx, d, (sound_unlinkedAfter _ 1).declaration?_of_inherited ht rfl hu hx hname hbase
      hc hd fun n e hfirst' hne => ?_⟩
    exact absurd (hfirst.unique hfirst').2 hne

/-- Names that are linked when a file is linked, and that the bases of a contract declare as they are known
then, are linked to what the bases declare. -/
def PrefersInherited (maxDepth : Nat) (s : Snapshot) (file : FileId) : Prop :=
  ∀ t u x c d e, s.tree? file = some t → t.external = [] → u ∈ t.pending → t.symbol? u = some x →
    x.isByName = true → t.isBaseName u = false → t.enclosingContract? u = some c →
    (s.linkFile maxDepth file).1.forest.declaration? (t.handle u) = some e →
    (s.linkFile maxDepth file).1.forest.inherited? maxDepth (t.handle c) x = some d →
      e = (s.linkFile maxDepth file).1.forest.target x d

/-- A base that is written with a dot, and another file that offers what it declares. -/
def dottedBase : Snapshot :=
  unlinkedAfter [.index "B.sol" "contract Base \x7b function ping() internal \x7b\x7d \x7d",
    .index "X.sol" "function ping() \x7b\x7d",
    .index "C.sol" ("import \"./B.sol\" as B;\nimport \"./X.sol\";\n" ++
      "contract C is B.Base \x7b function f() public \x7b ping(); \x7d \x7d")] 2

/-- What the other file offers is taken, because the base is not known yet. -/
theorem not_prefersInherited : ¬ PrefersInherited defaultMaxDepth dottedBase 2 := by
  intro h
  have hlinked : ∃ t ∈ dottedBase.tree? 2, ∃ x ∈ t.symbol? 11, t.external = [] ∧ 11 ∈ t.pending ∧
      x.isByName = true ∧ t.isBaseName 11 = false ∧ ∃ c ∈ t.enclosingContract? 11,
        (dottedBase.linkFile defaultMaxDepth 2).1.forest.declaration? (t.handle 11) = some ⟨1, 2, 1⟩ ∧
        (dottedBase.linkFile defaultMaxDepth 2).1.forest.inherited? defaultMaxDepth (t.handle c) x =
          some ⟨0, 1, 2⟩ ∧
        (dottedBase.linkFile defaultMaxDepth 2).1.forest.target x ⟨0, 1, 2⟩ = ⟨0, 1, 2⟩ := by
    decide +kernel
  obtain ⟨t, ht, x, hx, hexternal, hu, hname, hbase, c, hc, hlinked, hd, htarget⟩ := hlinked
  have heq := h t 11 x c _ _ ht hexternal hu hx hname hbase hc hlinked hd
  rw [htarget] at heq
  cases heq

end Snapshot

end SolidityAtlas
