import SolidityAtlas.Proofs.Symbol.Complete
import SolidityAtlas.Proofs.Symbol.Growing

/-!
# The moment of a link

Each use that is looked up by name and has found a declaration was linked at some moment,
when it was the turn of some node. There are four reasons for that (`Growth.Reason`): the
use was looked up, a declaration took it, or a contract around it was closed and its bases
or what is declared around it had a declaration for it. The tree at this moment is a stage
of the finished tree, so what is said about this moment can be compared with what is seen
in the end.

## Main Definitions

* `Growth.Reason`: why a use is linked when it is the turn of a node
* `Growth.LinkedOn`, `Growth.LinkedAsMember`: a use is linked on the way from one tree to another one
* `SymbolTree.Moment`: the moment at which a use is linked

## Main Results

* `SymbolTree.AccountedBut.linkedOn_accept`: dealing with a node links uses for one of the reasons
* `SymbolTree.exists_moment`: each link of a text has its moment
-/

namespace SolidityAtlas

namespace Growth

/-- When it is the turn of `id`, a contract around a use deals with it: the contract `id` itself, or one
that waits, if `id` is the file. A contract that is among those `left` waiting from now on deals with
the names of its bases only. -/
def Deals (waiting left : List NodeId) (id : NodeId) (t : SymbolTree) (u c : NodeId) : Prop :=
  c ∈ t.ancestors u ∧
    (c = id ∧ t.kind? id = some .contractDefinition ∧ (t.isBaseName u = false → id ∉ left) ∨
      c ∈ waiting ∧ t.kind? id = some .sourceUnit)

/-- Why a use is linked to what the declaration `d` stands for when it is the turn of `id`: the contracts
`waiting` wait, and those `left` will wait when the turn is over. -/
inductive Reason (maxDepth : Nat) (waiting left : List NodeId) (id : NodeId) (t : SymbolTree)
    (u : NodeId) (s : Symbol) (d : NodeId) : Prop where
  | lookedUp : u = id → t.meantInContract? s u = some d → Reason maxDepth waiting left id t u s d
  | claimed {scope y} : d = id → t.enclosingScope? d = some scope → scope ∈ t.ancestors u →
      t.symbol? d = some y → y.accepts s = true →
      (t.isBaseName u = false → ∀ c ∈ waiting, c ∉ t.ancestors u) →
      Reason maxDepth waiting left id t u s d
  | around {c} : Deals waiting left id t u c → t.meantAround? s c = some d →
      Reason maxDepth waiting left id t u s d
  | inherited {c} : Deals waiting left id t u c → t.isBaseName u = false →
      SymbolTree.inheritedNode? maxDepth c t s = some d → Reason maxDepth waiting left id t u s d

/-- When it is the turn of `id`, a use is linked to `h` on the way from one tree to another one. -/
def LinkedOn (maxDepth : Nat) (waiting left : List NodeId) (id : NodeId) (t t' : SymbolTree)
    (u : NodeId) (h : Handle) : Prop :=
  ∃ τ s d, τ.outline = t.outline ∧ t.Grows τ ∧ τ.Grows t' ∧ τ.symbol? u = some s ∧
    s.isByName = true ∧ (u = id ∨ u ∈ t.pending) ∧ h = τ.alone.target s (τ.handle d) ∧
    Reason maxDepth waiting left id τ u s d

/-- An access or a dotted type is linked, to what was found when a round began. -/
def LinkedAsMember (maxDepth : Nat) (t : SymbolTree) (u : NodeId) (h : Handle) : Prop :=
  ∃ (τ round : SymbolTree) (s : Symbol) (e : Handle), τ.outline = t.outline ∧
    round.outline = t.outline ∧ τ.handle = t.handle ∧ round.handle = t.handle ∧ τ.symbol? u = some s ∧ round.memberTarget? maxDepth u = some e ∧
    h = τ.alone.target s e

variable {maxDepth : Nat} {waiting left : List NodeId} {id : NodeId} {t t₁ t₂ t' : SymbolTree} {u : NodeId}
  {h : Handle}

/-- A link on a part of the way is a link on the way. -/
theorem LinkedOn.widen (hlinked : LinkedOn maxDepth waiting left id t₁ t₂ u h)
    (houtline : t₁.outline = t.outline) (hgrows : t.Grows t₁)
    (hpending : u ∈ t₁.pending → u = id ∨ u ∈ t.pending) (hrest : t₂.Grows t') :
    LinkedOn maxDepth waiting left id t t' u h := by
  obtain ⟨τ, s, d, hτ, hbefore, hafter, hs, hname, hu, hh, hreason⟩ := hlinked
  exact ⟨τ, s, d, hτ.trans houtline, hgrows.trans hbefore, hafter.trans hrest, hs, hname,
    hu.elim .inl hpending, hh, hreason⟩

/-- Whether an access is linked depends on the shape of the tree before. -/
theorem LinkedAsMember.congr (hlinked : LinkedAsMember maxDepth t₁ u h) (houtline : t₁.outline = t.outline)
    (hhandle : t₁.handle = t.handle) : LinkedAsMember maxDepth t u h := by
  obtain ⟨τ, round, s, e, hτ, hround, hhandleτ, hhandler, hrest⟩ := hlinked
  exact ⟨τ, round, s, e, hτ.trans houtline, hround.trans houtline, hhandleτ.trans hhandle,
    hhandler.trans hhandle, hrest⟩

end Growth

namespace SymbolTree

variable {t t' : SymbolTree} {rest : NodeId → Prop}

namespace AccountedBut

variable {why : SymbolTree → NodeId → Symbol → Handle → Prop} {u : NodeId} {h : Handle}

/-- Among a row of links there is the one by which a use has found its declaration. -/
theorem exists_of_links (hrecords : t.AccountedBut rest) (hlinks : Links why t t')
    (hnone : t.found? u = none) (hfound : t'.found? u = some h) :
    ∃ τ s e, Links why t τ ∧ τ.Grows t' ∧ u ∈ τ.pending ∧ τ.symbol? u = some s ∧ why τ u s e ∧
      h = τ.alone.target s e := by
  induction hlinks with
  | refl =>
      rw [hnone] at hfound
      cases hfound
  | @link τ v s e hlinks hv hs hwhy ih =>
      obtain ⟨-, -, hfree, -⟩ := (hrecords.links hlinks).of_mem_pending hv hs
      have hgrows := grows_connect hs hfree e
      obtain ⟨x, hx, hd⟩ := Option.bind_eq_some_iff.1 hfound
      obtain ⟨y, hy, -, hdeclaration, -⟩ := exists_of_symbol?_connect hs hx
      by_cases heq : u = v
      · subst heq
        rw [if_pos rfl, hd] at hdeclaration
        exact ⟨τ, s, e, hlinks, hgrows, hv, hs, hwhy, Option.some.inj hdeclaration⟩
      · rw [if_neg heq, hd] at hdeclaration
        obtain ⟨τ', s', e', hτ', hgrows', hrest⟩ := ih (by
          rw [found?, hy, Option.bind_some, ← hdeclaration])
        exact ⟨τ', s', e', hτ', hgrows'.trans hgrows, hrest⟩

/-- A row of links for reasons that are known. -/
theorem linkedOn_links {maxDepth : Nat} {waiting left : List NodeId} {id : NodeId}
    (hrecords : t.AccountedBut rest) (hlinks : Links why t t')
    (hreason : ∀ τ s e, τ.outline = t.outline → τ.symbol? u = some s → why τ u s e →
      s.isByName = true ∧ ∃ d, e = τ.handle d ∧ Growth.Reason maxDepth waiting left id τ u s d)
    (hnone : t.found? u = none) (hfound : t'.found? u = some h) :
    Growth.LinkedOn maxDepth waiting left id t t' u h := by
  obtain ⟨τ, s, e, hτ, hgrows, hu, hs, hwhy, hh⟩ := hrecords.exists_of_links hlinks hnone hfound
  obtain ⟨hname, d, rfl, hreason⟩ := hreason τ s e hτ.outline_eq hs hwhy
  exact ⟨τ, s, d, hτ.outline_eq, hrecords.grows_links hτ, hgrows, hs, hname,
    .inr (hτ.mem_pending_of_mem hu), hh, hreason⟩

end AccountedBut

end SymbolTree

namespace Growth

variable {maxDepth : Nat} {waiting left : List NodeId} {id u c : NodeId} {t : SymbolTree} {s : Symbol}
  {h : Handle} {g : Growth}

/-- What a contract that is closed does is done for one of the reasons. -/
theorem CloseReason.reason (hclose : CloseReason maxDepth c t u s h)
    (hdeals : c ∈ t.ancestors u → Deals waiting left id t u c) :
    s.isByName = true ∧ ∃ d, h = t.handle d ∧ Reason maxDepth waiting left id t u s d := by
  obtain ⟨hin, hname, d, heq, hd | ⟨hbase, hd⟩⟩ := hclose
  · exact ⟨hname, d, heq, .around (hdeals hin) hd⟩
  · exact ⟨hname, d, heq, .inherited (hdeals hin) hbase hd⟩

/-- What a declaration claims it claims at all trees with the same outline. -/
theorem Claims.reason {τ : SymbolTree} (hclaims : g.Claims id u) (houtline : τ.outline = g.tree.outline)
    (hs : τ.symbol? u = some s) (hwaiting : ∀ c ∈ waiting, c ∈ g.waiting) :
    s.isByName = true ∧ Reason maxDepth waiting left id τ u s id := by
  obtain ⟨scope, y, v, hscope, hy, -, hin, hv, hname, haccepts, hheld⟩ := hclaims
  obtain ⟨y', hy', hbare⟩ := SymbolTree.symbol?_of_outline houtline.symm hy
  obtain ⟨v', hv', hbare'⟩ := SymbolTree.symbol?_of_outline houtline.symm hv
  obtain rfl : s = v' := Option.some.inj (hs.symm.trans hv')
  have hstems := SymbolTree.stems_congr houtline
  have hscope' : τ.enclosingScope? id = some scope := by
    rw [SymbolTree.enclosingScope?_stems hstems, hscope]
  refine ⟨by rw [← Symbol.isByName_congr hbare', hname],
    .claimed rfl hscope' ?_ hy' ?_ fun hbase c hc hcu => ?_⟩
  · rw [SymbolTree.ancestors_stems hstems]
    exact hin
  · rw [← Symbol.accepts_congr hbare hbare', haccepts]
  · rw [SymbolTree.isBaseName_stems hstems] at hbase
    rw [SymbolTree.ancestors_stems hstems] at hcu
    rw [isHeld, hbase, Bool.not_false, Bool.true_and, List.any_eq_false] at hheld
    exact hheld c (hwaiting c hc) (SymbolTree.isInside_iff.2 hcu)

end Growth

namespace SymbolTree

variable {maxDepth : Nat} {rest : NodeId → Prop} {g : Growth} {id u : NodeId} {h : Handle}

/-- What a use means around itself in its contract depends on the outline. -/
theorem meantInContract?_congr {t t' : SymbolTree} (houtline : t.outline = t'.outline) {s v : Symbol}
    (hsv : s.bare = v.bare) (id : NodeId) : t.meantInContract? s id = t'.meantInContract? v id := by
  have hmeant : t.meantAt? s = t'.meantAt? v := funext (meantAt?_congr houtline hsv)
  rw [meantInContract?, meantInContract?, ancestorsInContract_stems (stems_congr houtline), hmeant]

namespace AccountedBut

/-- A declaration or a use that gets its record links uses for one of the reasons. -/
theorem linkedOn_record {g₁ g₂ g₃ : Growth} {s s₁ : Symbol} (hrecords : g₁.tree.AccountedBut rest)
    (hid : rest id) (hs : g₁.tree.symbol? id = some s₁) (hbare : s.bare = s₁.bare)
    (hdeclare : s.isDeclaration = true ∧ g₂ = (g₁.declare id).claim id ∨
      s.isDeclaration = false ∧ g₂ = g₁)
    (hlookUp : s.isUsage = true ∧ g₃ = g₂.lookUp id s ∨ s.isUsage = false ∧ g₃ = g₂)
    {waiting left : List NodeId} (hwaiting : ∀ c ∈ waiting, c ∈ g₁.waiting)
    (hnone : g₁.tree.found? u = none) (hfound : g₃.tree.found? u = some h) :
    Growth.LinkedOn maxDepth waiting left id g₁.tree g₃.tree u h := by
  obtain ⟨-, hdeclared⟩ := hrecords.record hid hs hbare
    (fun other => .refl (rest other ∧ other ≠ id)) hdeclare hlookUp
  rcases hdeclare with ⟨hd, rfl⟩ | ⟨-, rfl⟩
  · have hu := Symbol.isUsage_eq_false_of_isDeclaration hd
    obtain rfl : g₃ = (g₁.declare id).claim id :=
      (hlookUp.resolve_left fun hand => by rw [hu] at hand; cases hand.1).2
    have hnone' : (g₁.declare id).tree.found? u = none := by
      have hsymbol : (g₁.declare id).tree.symbol? u = _ := g₁.tree.symbol?_modify id _ u
      rw [found?, hsymbol]
      rw [found?] at hnone
      cases hx : g₁.tree.symbol? u with
      | none => rfl
      | some x =>
          rw [hx] at hnone
          rw [Option.map_some, Option.bind_some]
          split <;> exact hnone
    have hlinked : Growth.LinkedOn maxDepth waiting left id (g₁.declare id).tree
        ((g₁.declare id).claim id).tree u h :=
      (hdeclared hd).linkedOn_links (Growth.links_claim (hdeclared hd).nodup id)
        (fun τ v e houtline hv hwhy =>
          have hreason := hwhy.1.reason houtline hv hwaiting
          ⟨hreason.1, id, hwhy.2, hreason.2⟩) hnone' hfound
    exact hlinked.widen (Growth.outline_declare g₁ id) (grows_declare g₁ id) .inr (.refl _)
  · rcases hlookUp with ⟨-, rfl⟩ | ⟨-, rfl⟩
    · rcases g₂.lookUp_cases id s with ⟨d, hname, hmeant, heq⟩ | ⟨-, heq⟩ <;> rw [heq] at hfound ⊢
      · obtain ⟨hfree, -⟩ := hrecords.unsettled id s₁ hs hid
        have hgrows := grows_connect hs hfree (g₂.tree.handle d)
        obtain ⟨x, hx, hdx⟩ := Option.bind_eq_some_iff.1 hfound
        obtain ⟨y, hy, -, hdeclaration, -⟩ := exists_of_symbol?_connect hs hx
        split at hdeclaration
        · rename_i huid
          subst huid
          rw [hdx] at hdeclaration
          rw [meantInContract?_congr rfl hbare] at hmeant
          rw [Symbol.isByName_congr hbare] at hname
          exact ⟨g₂.tree, s₁, d, rfl, .refl _, hgrows, hs, hname, .inl rfl, Option.some.inj hdeclaration,
            .lookedUp rfl hmeant⟩
        · rw [found?, hy, Option.bind_some, ← hdeclaration, hdx] at hnone
          cases hnone
      · rw [show (g₂.tree.enqueue id).found? u = g₂.tree.found? u from rfl, hnone] at hfound
        cases hfound
    · rw [hnone] at hfound
      cases hfound

/-- A contract that is closed, or nothing, in the turn of a node. -/
theorem step_close {g₁ : Growth} {k : NodeKind} (hrecords : g.tree.AccountedBut rest)
    (hclose : k = .contractDefinition ∧ g₁ = g.close maxDepth id ∨ k ≠ .contractDefinition ∧ g₁ = g) :
    g.tree.Grows g₁.tree ∧ g₁.tree.AccountedBut rest ∧ g₁.tree.outline = g.tree.outline ∧
      (∀ c ∈ g.waiting, c ∈ g₁.waiting) ∧ (k = .sourceUnit → g₁.waiting = g.waiting) ∧
      (u ∈ g₁.tree.pending → u ∈ g.tree.pending) := by
  rcases hclose with ⟨rfl, rfl⟩ | ⟨-, rfl⟩
  · have hlinks := Growth.links_close maxDepth hrecords.nodup id
    refine ⟨hrecords.grows_links hlinks, hrecords.links hlinks, hlinks.outline_eq, fun c hc => ?_,
      nofun, hlinks.mem_pending_of_mem⟩
    rcases g.close_cases maxDepth id with ⟨-, heq⟩ | ⟨-, heq⟩ <;> rw [heq]
    · exact hc
    · exact List.mem_append_left _ hc
  · exact ⟨.refl _, hrecords, rfl, fun _ hc => hc, fun _ => rfl, fun hu => hu⟩

/-- A contract that is closed in its turn links uses for one of the reasons, and only names of its bases
if it waits from now on. -/
theorem linkedOn_close (hrecords : g.tree.AccountedBut rest) (hnew : id ∉ g.waiting)
    (hk : g.tree.kind? id = some .contractDefinition) (hnone : g.tree.found? u = none)
    (hfound : (g.close maxDepth id).tree.found? u = some h) :
    Growth.LinkedOn maxDepth g.waiting (g.close maxDepth id).waiting id g.tree
      (g.close maxDepth id).tree u h := by
  rcases g.close_cases maxDepth id with ⟨-, heq⟩ | ⟨-, heq⟩ <;> rw [heq] at hfound ⊢
  · refine hrecords.linkedOn_links (Growth.links_close_whole hrecords.nodup maxDepth id)
      (fun τ v e houtline hv hwhy => hwhy.reason fun hin => ⟨hin, .inl ⟨rfl, ?_, fun _ => hnew⟩⟩)
      hnone hfound
    rw [kind?_congr houtline, hk]
  · refine hrecords.linkedOn_links (links_closeBases hrecords.nodup id)
      (fun τ v e houtline hv ⟨hin, hname, hbase, d, hd, heq⟩ => ⟨hname, d, heq, .around ⟨hin,
        .inl ⟨rfl, ?_, fun hnot => ?_⟩⟩ hd⟩) hnone hfound
    · rw [kind?_congr houtline, hk]
    · rw [hbase] at hnot
      cases hnot

/-- At the end of the file the contracts that wait link uses for one of the reasons, and then accesses
and dotted types are linked. -/
theorem linkedOn_whole {left : List NodeId} (hrecords : g.tree.AccountedBut rest)
    (hk : g.tree.kind? id = some .sourceUnit) {x : Symbol} (hx : g.tree.symbol? u = some x)
    (hnone : g.tree.found? u = none)
    (hfound : ((g.closeWaiting maxDepth).tree.connectMembers maxDepth).found? u = some h) :
    Growth.LinkedOn maxDepth g.waiting left id g.tree
        ((g.closeWaiting maxDepth).tree.connectMembers maxDepth) u h ∨
      x.isByName = false ∧ Growth.LinkedAsMember maxDepth g.tree u h := by
  have hwaiting := Growth.links_closeWaiting maxDepth hrecords.nodup
  have hmembers := links_connectMembers (hwaiting.nodup_pending hrecords.nodup) maxDepth
  obtain ⟨-, hgrows⟩ := hrecords.grows_whole maxDepth
  cases hclosed : (g.closeWaiting maxDepth).tree.found? u with
  | some e =>
      obtain rfl : e = h := Option.some.inj ((hgrows.declaration u e hclosed).symm.trans hfound)
      refine .inl ((hrecords.linkedOn_links hwaiting (fun τ v d houtline hv ⟨c, hc, hwhy⟩ =>
        hwhy.reason fun hin => ⟨hin, .inr ⟨hc, ?_⟩⟩) hnone hclosed).widen rfl (.refl _) .inr hgrows)
      rw [kind?_congr houtline, hk]
  | none =>
      obtain ⟨τ, v, e, hτ, -, -, hv, ⟨hnot, round, hround, hhandle, htarget⟩, hh⟩ :=
        (hrecords.links hwaiting).exists_of_links hmembers hclosed hfound
      have houtline := hτ.outline_eq.trans hwaiting.outline_eq
      have hhandleτ := hτ.handle_eq.trans hwaiting.handle_eq
      obtain ⟨v', hv', hbare⟩ := symbol?_of_outline houtline.symm hx
      obtain rfl : v = v' := Option.some.inj (hv.symm.trans hv')
      rw [← Symbol.isByName_congr hbare] at hnot
      exact .inr ⟨hnot, τ, round, v, e, houtline, hround.trans houtline, hhandleτ,
        hhandle.trans hhandleτ, hv, htarget, hh⟩

/-- Dealing with a node links uses that are looked up by name for one of the reasons, and at the end of
the file accesses and dotted types. -/
theorem linkedOn_accept (hrecords : g.tree.AccountedBut rest) (hid : rest id) (hnew : id ∉ g.waiting)
    {s x : Symbol} (hs : g.tree.symbol? id = some s) (hx : g.tree.symbol? u = some x)
    (hnone : g.tree.found? u = none) (hfound : (g.accept maxDepth id).tree.found? u = some h) :
    Growth.LinkedOn maxDepth g.waiting (g.accept maxDepth id).waiting id g.tree
        (g.accept maxDepth id).tree u h ∨
      x.isByName = false ∧ Growth.LinkedAsMember maxDepth g.tree u h := by
  obtain ⟨g₁, g₂, g₃, hclose, hdeclare, hlookUp, hwhole⟩ := g.accept_cases maxDepth hs
  have hkind : g.tree.kind? id = some s.kind := by rw [kind?, hs, Option.map_some]
  obtain ⟨hgrows₁, hrecords₁, houtline₁, hwaiting₁, hfile₁, hpending₁⟩ := hrecords.step_close (u := u) hclose
  obtain ⟨s₁, hs₁, hbare⟩ := symbol?_of_outline houtline₁.symm hs
  obtain ⟨hrecords₃, -⟩ := hrecords₁.record hid hs₁ hbare
    (fun other => .refl (rest other ∧ other ≠ id)) hdeclare hlookUp
  have hgrows₃ := hrecords₁.grows_record hid hs₁ hbare hdeclare hlookUp
  have hwaiting₃ := Growth.waiting_record hdeclare hlookUp
  have hrest : g₃.tree.Grows (g.accept maxDepth id).tree := by
    rcases hwhole with ⟨-, heq⟩ | ⟨-, heq⟩ <;> rw [heq]
    · exact (hrecords₃.grows_whole maxDepth).1.trans (hrecords₃.grows_whole maxDepth).2
    · exact .refl _
  -- The part of the turn in which the use has been linked.
  cases hfound₁ : g₁.tree.found? u with
  | some h₁ =>
      -- A contract that is closed.
      have hsame := (hgrows₃.trans hrest).declaration u h₁ hfound₁
      obtain rfl : h₁ = h := Option.some.inj (hsame.symm.trans hfound)
      rcases hclose with ⟨hk, rfl⟩ | ⟨-, rfl⟩
      · rw [hk] at hkind
        have hleft : (g.accept maxDepth id).waiting = (g.close maxDepth id).waiting := by
          rcases hwhole with ⟨hfile, -⟩ | ⟨-, heq⟩
          · rw [hk] at hfile
            cases hfile
          · rw [heq, hwaiting₃]
        rw [hleft]
        exact .inl ((hrecords.linkedOn_close hnew hkind hnone hfound₁).widen rfl (.refl _) .inr
          (hgrows₃.trans hrest))
      · rw [hnone] at hfound₁
        cases hfound₁
  | none =>
  cases hfound₃ : g₃.tree.found? u with
  | some h₃ =>
      -- A declaration or a use.
      have hsame := hrest.declaration u h₃ hfound₃
      obtain rfl : h₃ = h := Option.some.inj (hsame.symm.trans hfound)
      exact .inl ((hrecords₁.linkedOn_record hid hs₁ hbare hdeclare hlookUp hwaiting₁ hfound₁
        hfound₃).widen houtline₁ hgrows₁ (fun hu => .inr (hpending₁ hu)) hrest)
  | none =>
  rcases hwhole with ⟨hk, heq⟩ | ⟨-, heq⟩
  · -- The end of the file.
    have houtline := (Growth.outline_record hdeclare hlookUp).trans houtline₁
    have hgrows := hgrows₁.trans hgrows₃
    obtain ⟨x₃, hx₃, hbare₃⟩ := symbol?_of_outline houtline.symm hx
    have hfile : g₃.tree.kind? id = some .sourceUnit := by rw [kind?_congr houtline, hkind, hk]
    rw [heq] at hfound ⊢
    rw [← hfile₁ hk, ← hwaiting₃, Symbol.isByName_congr hbare₃]
    rcases hrecords₃.linkedOn_whole hfile hx₃ hfound₃ hfound with hlinked | ⟨hnot, hlinked⟩
    · left
      exact hlinked.widen houtline hgrows (fun hu =>
        (Growth.mem_pending_record hdeclare hlookUp hrecords₁.nodup hu).imp_right hpending₁) (.refl _)
    · right
      exact ⟨hnot, hlinked.congr houtline hgrows.handle⟩
  · rw [heq, hfound₃] at hfound
    cases hfound

end AccountedBut

/-! ## Growth, one node after the other -/

/-- The growth of a text: the nodes `done` have been settled, and it is the turn of the nodes `rest`,
one after the other. -/
structure Underway (p : SymbolTree) (done rest : List NodeId) (g : Growth) : Prop where
  rooted : p.Rooted
  complete : g.Complete p done
  accounted : g.tree.AccountedBut (· ∈ rest)
  all : ∀ x, x < p.size → x ∈ done ∨ x ∈ rest
  turn : ∀ pre id post, rest = pre ++ id :: post → p.Turn (done ++ pre) id

variable {p : SymbolTree} {done rest row : List NodeId}

/-- A member that is attached changes no link. -/
theorem found?_attach (t : SymbolTree) (parent child u : NodeId) :
    (t.attach parent child).found? u = t.found? u := by
  rw [found?, attach, symbol?_modify, found?]
  cases t.symbol? u with
  | none => rfl
  | some x =>
      rw [Option.map_some, Option.bind_some]
      split <;> rfl

/-- Links are made when a node is dealt with, not when it is attached. -/
theorem found?_settle (maxDepth : Nat) (g : Growth) (id u : NodeId) :
    (g.settle maxDepth id).tree.found? u = (g.accept maxDepth id).tree.found? u := by
  simp only [Growth.settle]
  split
  · exact found?_attach _ _ _ _
  · rfl

/-- A node is attached at the end of its turn. -/
theorem grows_settle_accept (maxDepth : Nat) (g : Growth) (id : NodeId) :
    (g.accept maxDepth id).tree.Grows (g.settle maxDepth id).tree := by
  simp only [Growth.settle]
  split
  · exact grows_attach ‹_›
  · exact .refl _

namespace Underway

/-- The first node of the row has its turn. -/
theorem turn_head (h : Underway p done (id :: rest) g) : p.Turn done id := by
  have hturn := h.turn [] id rest rfl
  rwa [List.append_nil] at hturn

/-- A node has one turn. -/
theorem not_mem_tail (h : Underway p done (id :: rest) g) : id ∉ rest := fun hmem => by
  obtain ⟨pre, post, rfl⟩ := List.append_of_mem hmem
  exact (h.turn (id :: pre) id post rfl).not_mem (List.mem_append_right _ List.mem_cons_self)

/-- A node whose turn it is stands in the tree. -/
theorem lt_size (h : Underway p done (id :: rest) g) : id < g.tree.size := by
  rw [size_stems h.complete.stage.stems]
  exact h.turn_head.lt_size

/-- The turn of one node. -/
theorem settle (h : Underway p done (id :: rest) g) (maxDepth : Nat) :
    Underway p (done ++ [id]) rest (g.settle maxDepth id) where
  rooted := h.rooted
  complete := h.complete.settle h.rooted h.turn_head
  accounted := h.accounted.settle List.mem_cons_self h.lt_size fun other => by
    constructor
    · exact fun hother => ⟨List.mem_cons_of_mem _ hother, fun heq => h.not_mem_tail (heq ▸ hother)⟩
    · exact fun ⟨hother, hne⟩ => (List.mem_cons.1 hother).resolve_left hne
  all x hx := by
    rw [List.mem_append, List.mem_singleton]
    rcases h.all x hx with hmem | hmem
    · exact .inl (.inl hmem)
    · exact (List.mem_cons.1 hmem).imp_left .inr
  turn pre other post hrest := by
    have hturn := h.turn (id :: pre) other post (congrArg (id :: ·) hrest)
    rwa [List.append_cons] at hturn

/-- A turn makes the tree grow. -/
theorem grows_settle (h : Underway p done (id :: rest) g) (maxDepth : Nat) :
    g.tree.Grows (g.settle maxDepth id).tree :=
  h.accounted.grows_settle List.mem_cons_self h.lt_size

/-- The turns of a row of nodes. -/
theorem foldl_settle (h : Underway p done (row ++ rest) g) (maxDepth : Nat) :
    Underway p (done ++ row) rest (row.foldl (Growth.settle maxDepth) g) := by
  induction row generalizing done g with
  | nil => rwa [List.append_nil]
  | cons id row ih =>
      have hrest := ih (h.settle maxDepth)
      rwa [← List.append_cons] at hrest

/-- Turns in a row make the tree grow. -/
theorem grows_foldl_settle (h : Underway p done (row ++ rest) g) (maxDepth : Nat) :
    g.tree.Grows (row.foldl (Growth.settle maxDepth) g).tree := by
  induction row generalizing done g with
  | nil => exact .refl _
  | cons id row ih => exact (h.grows_settle maxDepth).trans (ih (h.settle maxDepth))

/-- All nodes that are still to come are a row behind which none is left. -/
theorem whole (h : Underway p done row g) : Underway p done (row ++ []) g := by
  rwa [List.append_nil]

/-- No node is settled twice. -/
theorem not_mem_rest (h : Underway p done rest g) (hu : u ∈ done) : u ∉ rest := fun hmem => by
  obtain ⟨pre, post, rfl⟩ := List.append_of_mem hmem
  exact (h.turn pre u post rfl).not_mem (List.mem_append_left _ hu)

/-- What stands inside a node that has been settled has been settled. -/
theorem inside (h : Underway p done rest g) {b : NodeId} (hb : b ∈ done) (hin : b ∈ p.ancestors u) :
    u ∈ done := by
  rcases h.all u (lt_size_of_mem_ancestors hin) with hu | hu
  · exact hu
  · obtain ⟨pre, post, rfl⟩ := List.append_of_mem hu
    have hturn := h.turn pre u post rfl
    exact absurd (hturn.inside b (List.mem_append_left _ hb) u hin) hturn.not_mem

/-- A use that has been settled and is not linked is pending. -/
theorem mem_pending (hway : Underway p done rest g) (hu : u ∈ done) {x : Symbol}
    (hx : g.tree.symbol? u = some x) (husage : x.isUsage = true) (hnone : g.tree.found? u = none) :
    u ∈ g.tree.pending := by
  rcases (hway.accounted.recorded u x hx (hway.not_mem_rest hu)).usage husage with
    ⟨hpending, -⟩ | ⟨-, e, he, -⟩
  · exact hpending
  · rw [found?, hx, Option.bind_some, he] at hnone
    cases hnone

/-- A use that finds its declaration finds it when it is the turn of some node. -/
theorem exists_turn (hway : Underway p done (row ++ rest) g) (hnone : g.tree.found? u = none)
    (hfound : (row.foldl (Growth.settle maxDepth) g).tree.found? u = some h) :
    ∃ pre id post, row = pre ++ id :: post ∧
      (pre.foldl (Growth.settle maxDepth) g).tree.found? u = none ∧
      ((pre.foldl (Growth.settle maxDepth) g).accept maxDepth id).tree.found? u = some h ∧
      ((pre.foldl (Growth.settle maxDepth) g).accept maxDepth id).tree.Grows
        (row.foldl (Growth.settle maxDepth) g).tree := by
  induction row generalizing done g with
  | nil =>
      rw [List.foldl_nil, hnone] at hfound
      cases hfound
  | cons id row ih =>
      have hgrows := (hway.settle maxDepth).grows_foldl_settle maxDepth
      cases hsettled : (g.settle maxDepth id).tree.found? u with
      | none =>
          obtain ⟨pre, other, post, rfl, hother⟩ := ih (hway.settle maxDepth) hsettled hfound
          exact ⟨id :: pre, other, post, rfl, hother⟩
      | some a =>
          obtain rfl : a = h := Option.some.inj ((hgrows.declaration u a hsettled).symm.trans hfound)
          rw [found?_settle] at hsettled
          exact ⟨[], id, row, rfl, hnone, hsettled, (grows_settle_accept maxDepth g id).trans hgrows⟩

end Underway

/-- The moment at which a use is linked: it is the turn of `id`, the nodes `done` have been settled and
have led to `g`, and what happens in this turn has led to the tree `τ` so far. -/
structure Moment (maxDepth : Nat) (p : SymbolTree) (done : List NodeId) (g : Growth) (id : NodeId)
    (τ : SymbolTree) (u : NodeId) (s : Symbol) (d : NodeId) : Prop where
  turn : p.Turn done id
  complete : g.Complete p done
  stage : p.Stage done τ
  symbol : τ.symbol? u = some s
  pending : u = id ∨ u ∈ done ∧ u ∈ g.tree.pending
  reason : Growth.Reason maxDepth g.waiting (g.settle maxDepth id).waiting id τ u s d

/-- Each link of a use that is looked up by name has its moment. -/
theorem Underway.exists_moment (hway : Underway p done (row ++ rest) g) {x : Symbol}
    (hx : p.symbol? u = some x) (hname : x.isByName = true) (hnone : g.tree.found? u = none)
    (hfound : (row.foldl (Growth.settle maxDepth) g).tree.found? u = some h) :
    ∃ pre id post τ s d, row = pre ++ id :: post ∧
      Moment maxDepth p (done ++ pre) (pre.foldl (Growth.settle maxDepth) g) id τ u s d ∧
      τ.Grows (row.foldl (Growth.settle maxDepth) g).tree ∧ h = τ.alone.target s (τ.handle d) := by
  obtain ⟨pre, id, post, rfl, hbefore, hafter, hrest⟩ := hway.exists_turn hnone hfound
  rw [List.append_assoc] at hway
  have hway' := hway.foldl_settle maxDepth
  obtain ⟨y, hy⟩ := exists_symbol?_of_lt hway'.lt_size
  obtain ⟨x', hx', hstem⟩ := exists_symbol?_stems hway'.complete.stage.stems.symm hx
  rcases hway'.accounted.linkedOn_accept List.mem_cons_self
    (fun hmem => hway'.turn_head.not_mem (hway'.complete.waiting id hmem).1) hy hx' hbefore hafter with
    ⟨τ, s, d, houtline, hgrows, hgrows', hs, -, hpending, hh, hreason⟩ | ⟨hnot, -⟩
  · refine ⟨pre, id, post, τ, s, d, rfl, ⟨hway'.turn_head, hway'.complete,
      hway'.complete.stage.congr houtline hgrows.handle, hs, hpending.imp_right fun hu => ⟨?_, hu⟩, ?_⟩,
      hgrows'.trans hrest, hh⟩
    · exact (hway'.all u (lt_size_of_symbol? hx)).resolve_right (hway'.accounted.pool u hu).1
    · rw [(Growth.settle_eq maxDepth _ id).2]
      exact hreason
  · rw [Symbol.stem_isByName hstem, hname] at hnot
    cases hnot

/-- The growth of a text begins with all nodes still to come. -/
theorem underway_planted (file generation : Nat) (m : LineMap) (text : String) :
    Underway (planted file generation m (parse text).tree) [] (settlingOrder 0 (parse text).tree)
      ⟨planted file generation m (parse text).tree, []⟩ where
  rooted := rooted_planted file generation m text
  complete := complete_planted _ _ _ _
  accounted := accountedBut_planted file generation m (parse text).tree
  all x hx := .inr (mem_settlingOrder_planted.2 hx)
  turn pre id post h := turn_of_append (by rw [List.nil_append, h])

/-- Nothing is linked in a tree that has only been planted. -/
theorem found?_planted (file generation : Nat) (m : LineMap) (tree : SyntaxTree) (u : NodeId) :
    (planted file generation m tree).found? u = none := by
  rw [found?]
  cases hs : (planted file generation m tree).symbol? u with
  | none => rfl
  | some s =>
      obtain ⟨_, _, _, rfl⟩ := exists_ofSite_of_symbol?_planted hs
      rfl

end SymbolTree

end SolidityAtlas
