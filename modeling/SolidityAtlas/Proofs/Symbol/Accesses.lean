import SolidityAtlas.Proofs.Symbol.Gains
import SolidityAtlas.Proofs.Symbol.MemberTarget
import SolidityAtlas.Proofs.Symbol.Moment

/-!
# What accesses are linked to

At the end of a file the accesses are linked in rounds. What a round finds depends on what the
rounds before have linked: of a chain of accesses each needs the type of the one inside it. No
link is taken back.

A member of the type in front of the dot that a round has found is found in the finished tree as
well, because links are only gained. It is different with the functions that are attached. They
are found in the first round already, and they are taken when the type in front of the dot is not
known yet. If this type is known later, and declares the name too, then the access is linked to
what it would not be linked to in the finished tree (`Forest.AttachedTooEarly`). All other
accesses are linked to what they refer to in the finished tree.

## Main Definitions

* `Forest.typeMember?`, `Forest.attachedMember?`: the two ways to find what an access refers to
* `Forest.GainsMembers`: a forest has more links, none of which leads to a contract
* `Forest.AttachedTooEarly`
* `SymbolTree.namesOnly`: a tree with the links of the uses that are looked up by name

## Main Results

* `Forest.GainsMembers.resolveAccess?_late_iff`
* `SymbolTree.AccountedBut.exists_round`: the round in which an access is linked
* `SymbolTree.resolveAccess?_eq_iff`
-/

namespace SolidityAtlas

/-! ## The two ways to find a member -/

namespace Forest

variable (f : Forest) (maxDepth : Nat)

/-- The member that the type of what stands in front of the dot declares. -/
def typeMember? (access : Handle) : Option Handle := do
  let name ← f.name? access
  let base ← f.firstChild? access
  let container ← f.container? base
  f.findMember? maxDepth container name

/-- The function that is attached where an access stands. -/
def attachedMember? (access : Handle) : Option Handle := do
  let name ← f.name? access
  (f.attachedLibraries access).findSome? fun l => f.findMember? maxDepth l name

variable {f maxDepth}

/-- What an access refers to is a member of a base, or of the type in front of the dot, or is
attached. -/
theorem resolveAccess?_eq {access base : Handle} (hk : f.kind? access = some .memberAccess)
    (hbase : f.firstChild? access = some base) :
    f.resolveAccess? maxDepth access =
      if f.isSuper base then (f.name? access).bind (f.superMember? maxDepth access)
      else (f.typeMember? maxDepth access).or (f.attachedMember? maxDepth access) := by
  obtain ⟨s, hs, hk⟩ := Option.map_eq_some_iff.1 hk
  have hkind : (s.kind == .memberAccess) = true := beq_iff_eq.2 hk
  have hname : f.name? access = s.name := by rw [name?, hs, Option.bind_some]
  simp only [resolveAccess?, typeMember?, attachedMember?, hs, hname, hbase, Option.filter_some, hkind,
    Option.bind_eq_bind, Option.bind_some, if_true]
  cases s.name with
  | none => split <;> rfl
  | some name => rfl

/-- Only an access with a base expression is resolved. -/
theorem exists_firstChild?_of_resolveAccess? {access d : Handle}
    (hd : f.resolveAccess? maxDepth access = some d) :
    f.kind? access = some .memberAccess ∧ ∃ base, f.firstChild? access = some base := by
  obtain ⟨s, hs, hd⟩ := Option.bind_eq_some_iff.1 hd
  obtain ⟨hs, hk⟩ := Option.filter_eq_some_iff.1 hs
  obtain ⟨name, -, hd⟩ := Option.bind_eq_some_iff.1 hd
  obtain ⟨base, hbase, -⟩ := Option.bind_eq_some_iff.1 hd
  refine ⟨?_, base, hbase⟩
  rw [kind?, hs, Option.map_some, beq_iff_eq.1 hk]

/-- None of the links that are gained leads to a contract. -/
structure GainsMembers (f g : Forest) : Prop extends Gains f g where
  plain : ∀ a d, f.declaration? a = none → g.declaration? a = some d →
    g.kind? d ≠ some .contractDefinition
  imported : g.imported = f.imported

namespace GainsMembers

variable {g : Forest} {a d : Handle} (h : GainsMembers f g)

include h

/-- A member of the type in front of the dot stays what is found. -/
theorem typeMember? (hnew : ∀ a, g.kind? a = some .newExpression → g.declaration? a = none)
    (hd : f.typeMember? maxDepth a = some d) : g.typeMember? maxDepth a = some d := by
  obtain ⟨name, hname, hd⟩ := Option.bind_eq_some_iff.1 hd
  obtain ⟨base, hbase, hd⟩ := Option.bind_eq_some_iff.1 hd
  obtain ⟨container, hcontainer, hd⟩ := Option.bind_eq_some_iff.1 hd
  rw [Forest.typeMember?, h.name?_eq, h.firstChild?_eq, h.findMember?_eq h.plain h.imported]
  exact Option.bind_eq_some_iff.2 ⟨name, hname, Option.bind_eq_some_iff.2 ⟨base, hbase,
    Option.bind_eq_some_iff.2 ⟨container, h.container? hnew hcontainer, hd⟩⟩⟩

/-- What is attached to the type of a base expression is found alike. -/
theorem attachedMember?_eq : g.attachedMember? maxDepth a = f.attachedMember? maxDepth a := by
  rw [attachedMember?, attachedMember?, h.name?_eq, h.attachedLibraries_eq h.plain,
    h.findMember?_eq h.plain h.imported]

variable (maxDepth) in
/-- What an access refers to after more links have been gained is known from the type in front of the dot,
unless it refers to a base. -/
theorem resolveAccess?_cases {base : Handle} (hk : f.kind? a = some .memberAccess)
    (hbase : f.firstChild? a = some base) :
    (g.isSuper base = true ∧ g.resolveAccess? maxDepth a = f.resolveAccess? maxDepth a) ∨
      g.isSuper base = false ∧
        f.resolveAccess? maxDepth a = (f.typeMember? maxDepth a).or (g.attachedMember? maxDepth a) ∧
        g.resolveAccess? maxDepth a = (g.typeMember? maxDepth a).or (g.attachedMember? maxDepth a) := by
  have hk' : g.kind? a = some .memberAccess := by rw [h.kind?_eq, hk]
  have hbase' : g.firstChild? a = some base := by rw [h.firstChild?_eq, hbase]
  rw [resolveAccess?_eq hk hbase, resolveAccess?_eq hk' hbase', h.isSuper_eq, h.attachedMember?_eq,
    h.name?_eq, h.superMember?_eq h.plain]
  cases f.isSuper base with
  | true => exact .inl ⟨rfl, rfl⟩
  | false => exact .inr ⟨rfl, rfl, rfl⟩

end GainsMembers

variable (f maxDepth) in
/-- A function that is attached has been taken for what an access refers to, because the type in front
of the dot was not known from the links of `before`. It declares the name as well. -/
def AttachedTooEarly (before : Forest) (access : Handle) : Prop :=
  ∃ base attached member, f.firstChild? access = some base ∧ f.isSuper base = false ∧
    f.attachedMember? maxDepth access = some attached ∧ before.typeMember? maxDepth access = none ∧
    f.typeMember? maxDepth access = some member ∧ member ≠ attached

/-- An access refers to `d` at some time, and to nothing else `before` if it referred to anything then. It
refers to `d` also at a later time, unless an attached function was taken too early. -/
theorem GainsMembers.resolveAccess?_late_iff {before late : Forest} {a d : Handle}
    (hbefore : GainsMembers before late) (h : GainsMembers f late)
    (hnew : ∀ a, late.kind? a = some .newExpression → late.declaration? a = none)
    (hd : f.resolveAccess? maxDepth a = some d)
    (hfirst : ∀ e, before.resolveAccess? maxDepth a = some e → d = e) :
    (late.resolveAccess? maxDepth a = some d ↔ ¬ late.AttachedTooEarly maxDepth before a) ∧
      (late.AttachedTooEarly maxDepth before a → late.attachedMember? maxDepth a = some d) := by
  obtain ⟨hk, base, hbase⟩ := exists_firstChild?_of_resolveAccess? hd
  have hbase' : late.firstChild? a = some base := by rw [h.firstChild?_eq, hbase]
  have hbefore' := hbefore.resolveAccess?_cases maxDepth
    (by rw [← hbefore.kind?_eq, h.kind?_eq, hk]) (hbefore.firstChild?_eq ▸ hbase')
  rcases h.resolveAccess?_cases maxDepth hk hbase with ⟨hsuper, heq⟩ | ⟨hplain, heq, hlate⟩
  · have hnot : ¬ late.AttachedTooEarly maxDepth before a := by
      rintro ⟨base', _, _, hb, hplain, -⟩
      obtain rfl : base = base' := Option.some.inj (hbase'.symm.trans hb)
      rw [hsuper] at hplain
      cases hplain
    exact ⟨⟨fun _ => hnot, fun _ => by rw [heq, hd]⟩, fun hearly => absurd hearly hnot⟩
  obtain ⟨-, hthen, -⟩ := hbefore'.resolve_left fun hsuper => by
    rw [hplain] at hsuper
    cases hsuper.1
  rw [heq] at hd
  rw [hthen] at hfirst
  rw [hlate]
  cases htype : f.typeMember? maxDepth a with
  | some e =>
      -- The type in front of the dot was known, and still is.
      obtain rfl : e = d := by rwa [htype, Option.some_or, Option.some.injEq] at hd
      rw [h.typeMember? hnew htype, Option.some_or]
      have hnot : ¬ late.AttachedTooEarly maxDepth before a := by
        rintro ⟨-, attached, member, -, -, hattached, hnone, hmember, hne⟩
        rw [h.typeMember? hnew htype] at hmember
        rw [hnone, hattached, Option.none_or] at hfirst
        exact hne ((Option.some.inj hmember).symm.trans (hfirst attached rfl))
      exact ⟨⟨fun _ => hnot, fun _ => rfl⟩, fun hearly => absurd hearly hnot⟩
  | none =>
      -- The attached function was taken. It was the right one if the type declares nothing else.
      have hattached : late.attachedMember? maxDepth a = some d := by rwa [htype, Option.none_or] at hd
      refine ⟨⟨?_, fun hnot => ?_⟩, fun _ => hattached⟩
      · rintro hsome ⟨-, attached, member, -, -, hattached', -, hmember, hne⟩
        rw [hmember, Option.some_or] at hsome
        rw [hattached] at hattached'
        exact hne ((Option.some.inj hsome).trans (Option.some.inj hattached'))
      · cases hmember : late.typeMember? maxDepth a with
        | none => rw [Option.none_or, hattached]
        | some member =>
            rw [Option.some_or, Option.some.injEq]
            by_contra hne
            cases hnone : before.typeMember? maxDepth a with
            | none =>
                exact hnot ⟨base, d, member, hbase', hplain, hattached, hnone, hmember, hne⟩
            | some e =>
                rw [hbefore.typeMember? hnew hnone, Option.some.injEq] at hmember
                rw [hnone, Option.some_or] at hfirst
                exact hne (hmember.symm.trans (hfirst e rfl).symm)

end Forest

namespace Symbol

variable {s : Symbol}

/-- Nothing more is said of accesses and of what is new. -/
theorem detail_eq_plain {k : NodeKind} (hk : s.kind = k)
    (hplain : k = .memberAccess ∨ k = .newExpression) : s.detail = .plain k := by
  revert hk
  rw [kind]
  rcases hplain with rfl | rfl <;> cases s.detail <;> simp [Detail.kind]

/-- What is new is no name. -/
theorem isUsage_eq_false_of_newExpression (hk : s.kind = .newExpression) : s.isUsage = false := by
  rw [isUsage, detail_eq_plain hk (.inr rfl)]
  exact Bool.and_false _

end Symbol

namespace SymbolTree

variable {t t' t₀ p : SymbolTree} {done row rest : List NodeId} {rest' : NodeId → Prop} {g : Growth}
  {maxDepth : Nat} {id u : NodeId} {s x : Symbol} {h : Handle}

/-- The target of an access is what the access is resolved to in the tree itself. -/
theorem memberTarget?_eq (hs : t.symbol? u = some s) (hk : s.kind = .memberAccess) :
    t.memberTarget? maxDepth u = t.alone.resolveAccess? maxDepth (t.handle u) := by
  rw [memberTarget?, hs, Option.bind_some, Symbol.detail_eq_plain hk (.inl rfl)]

/-! ## Links that are gained -/

/-- A tree by itself is the home of its own nodes only. -/
theorem home?_alone_eq (t : SymbolTree) (a : Handle) :
    t.alone.home? a = if t.owns a then some t else none := by
  rw [Forest.home?, tree_alone]
  split
  · rw [Option.filter_some]
  · rename_i hfile
    rw [if_neg]
    · rfl
    · simp [owns, hfile]

/-- More links in a tree make a richer tree. -/
theorem gains_alone (houtline : t'.outline = t.outline) (hhandle : t'.handle = t.handle)
    (hfound : ∀ u h, t.found? u = some h → t'.found? u = some h) : t.alone.Gains t'.alone := by
  refine ⟨fun a => ?_, fun a d hd => ?_⟩
  · have howns : t'.owns a = t.owns a := by
      rw [Bool.eq_iff_iff, owns_iff, owns_iff, hhandle, size_congr houtline]
    rw [home?_alone_eq, home?_alone_eq, howns]
    split
    · rw [Option.map_some, Option.map_some, houtline]
    · rfl
  · obtain ⟨y, hy, -⟩ := Option.bind_eq_some_iff.1 hd
    obtain ⟨id, -, rfl⟩ := isSome_symbol?_alone.1 (by rw [hy]; rfl)
    rw [declaration?_alone] at hd
    rw [← hhandle, declaration?_alone]
    exact hfound id d hd

/-- What is new refers to nothing. -/
theorem AccountedBut.declaration?_newExpression (hrecords : t.AccountedBut rest') (a : Handle)
    (hk : t.alone.kind? a = some .newExpression) : t.alone.declaration? a = none := by
  by_contra hsome
  obtain ⟨d, hd⟩ := Option.ne_none_iff_exists'.1 hsome
  obtain ⟨y, hy, hyd⟩ := Option.bind_eq_some_iff.1 hd
  obtain ⟨id, -, rfl⟩ := isSome_symbol?_alone.1 (by rw [hy]; rfl)
  rw [symbol?_alone, lookup?_handle] at hy
  rw [kind?_alone, kind?, hy, Option.map_some] at hk
  by_cases hid : rest' id
  · rw [(hrecords.unsettled id y hy hid).1] at hyd
    cases hyd
  · rw [declaration?_alone] at hd
    have husage := hrecords.isUsage_of_found? hy hid hd
    rw [Symbol.isUsage_eq_false_of_newExpression (Option.some.inj hk)] at husage
    cases husage

/-- What is linked in rounds is an access or a dotted type, and no contract is what it is linked to. -/
theorem Stage.of_found_links (hstage : p.Stage done t) (hroot : p.Rooted) (hrecords : t.AccountedBut rest')
    (hlinks : Links (MemberReason maxDepth) t t') (hnone : t.found? u = none) (hfound : t'.found? u = some h)
    (hx : t.symbol? u = some x) : x.isByName = false ∧ t'.alone.kind? h ≠ some .contractDefinition := by
  obtain ⟨τ, s, e, hτ, hrest, -, hs, ⟨hname, round, hround, hhandle, htarget⟩, rfl⟩ :=
    hrecords.exists_of_links hlinks hnone hfound
  obtain ⟨s', hs', hbare⟩ := symbol?_of_outline hτ.outline_eq hs
  obtain rfl : x = s' := Option.some.inj (hx.symm.trans hs')
  have hroundstage := hstage.congr (hround.trans hτ.outline_eq) (hhandle.trans hτ.handle_eq)
  have hne := hroundstage.kind?_memberTarget? hroot htarget
  have hkind : τ.alone.kind? e = round.alone.kind? e :=
    kind?_alone_congr hhandle.symm (stems_congr hround.symm) e
  have hplain : τ.alone.target s e = e := if_neg fun hcalls => hne (hkind ▸ hcalls.2)
  rw [← Symbol.isByName_congr hbare, hplain, hrest.kind?_alone, hkind]
  exact ⟨hname, hne⟩

/-- In rounds links are gained, and none of them leads to a contract. -/
theorem Stage.gains_links (hstage : p.Stage done t) (hroot : p.Rooted) (hrecords : t.AccountedBut rest')
    (hlinks : Links (MemberReason maxDepth) t t') : t.alone.GainsMembers t'.alone := by
  refine ⟨gains_alone hlinks.outline_eq hlinks.handle_eq (hrecords.grows_links hlinks).declaration,
    fun a d hnone hd => ?_, rfl⟩
  obtain ⟨y, hy, -⟩ := Option.bind_eq_some_iff.1 hd
  obtain ⟨id, -, rfl⟩ := isSome_symbol?_alone.1 (by rw [hy]; rfl)
  rw [declaration?_alone] at hd
  rw [hlinks.handle_eq, declaration?_alone] at hnone
  obtain ⟨x, hx, -⟩ := Option.bind_eq_some_iff.1 hd
  obtain ⟨x₀, hx₀, -⟩ := symbol?_of_outline hlinks.outline_eq hx
  exact (hstage.of_found_links hroot hrecords hlinks hnone hd hx₀).2

/-! ## Rounds -/

/-- A use for which something was found when a round began is linked in this round. -/
theorem not_mem_pending_connectAll (hnodup : t.pending.Nodup) (hu : u ∈ t.pending)
    (htarget : t.memberTarget? maxDepth u = some h) :
    u ∉ (t.connectAll (t.memberTargets maxDepth)).pending := by
  have hmem : (u, h) ∈ t.memberTargets maxDepth :=
    List.mem_filterMap.2 ⟨u, hu, by rw [htarget, Option.map_some]⟩
  have hsymbols : ∀ l ∈ t.memberTargets maxDepth, l.1 < t.size := by
    intro l hl
    obtain ⟨v, -, hv⟩ := List.mem_filterMap.1 hl
    obtain ⟨d, hd, rfl⟩ := Option.map_eq_some_iff.1 hv
    obtain ⟨s, hs, -⟩ := Option.bind_eq_some_iff.1 hd
    exact lt_size_of_symbol? hs
  revert hsymbols hmem
  generalize t.memberTargets maxDepth = links
  intro hmem hsymbols
  clear htarget hu
  induction links generalizing t with
  | nil => exact absurd hmem List.not_mem_nil
  | cons l links ih =>
      obtain ⟨s, hs⟩ := exists_symbol?_of_lt (hsymbols l List.mem_cons_self)
      have hpending : (t.connect l.1 l.2).pending = t.pending.erase l.1 := pending_connect hs _
      have hnodup' : (t.connect l.1 l.2).pending.Nodup := by
        rw [hpending]
        exact hnodup.erase l.1
      rcases List.mem_cons.1 hmem with rfl | hmem
      · intro hmem
        have hkept := connectAll_kept (P := fun t' => ∀ w, w ∈ t'.pending →
          w ∈ (t.connect u h).pending) (fun t' v e h w hw => h w (mem_pending_of_connect hw)) links
            (fun _ hw => hw) u hmem
        rw [hpending, hnodup.mem_erase_iff] at hkept
        exact hkept.1 rfl
      · refine ih hnodup' hmem fun k hk => ?_
        rw [size_congr (outline_connect _ _ _)]
        exact hsymbols k (List.mem_cons_of_mem _ hk)

/-- An access is linked in some round, and in the first one if something is found for it there. -/
theorem AccountedBut.exists_round (hrecords : t.AccountedBut rest') (hx : t.symbol? u = some x)
    (hk : x.kind = .memberAccess) (hnone : t.found? u = none)
    (hfound : (t.connectMembers maxDepth).found? u = some h) :
    ∃ round, Links (MemberReason maxDepth) t round ∧
      Links (MemberReason maxDepth) round (t.connectMembers maxDepth) ∧
      round.memberTarget? maxDepth u = some h ∧ ∀ e, t.memberTarget? maxDepth u = some e → h = e := by
  fun_induction connectMembers maxDepth t generalizing x with
  | case1 t hdone =>
      rw [hnone] at hfound
      cases hfound
  | case2 t hne ih =>
      have hround := links_connectAll hrecords.nodup maxDepth
      have hrest := links_connectMembers (hround.nodup_pending hrecords.nodup) maxDepth
      have hrecords' := hrecords.links hround
      obtain ⟨y, hy, hbare⟩ := symbol?_of_outline hround.outline_eq.symm hx
      cases hfirst : (t.connectAll (t.memberTargets maxDepth)).found? u with
      | some e =>
          -- This round links the access.
          obtain ⟨τ, s, d, hτ, -, -, hs, ⟨-, htarget⟩, rfl⟩ := hrecords.exists_of_links
            (links_connectAll_targets hrecords.nodup maxDepth) hnone hfirst
          obtain ⟨s', hs', hbare'⟩ := symbol?_of_outline hτ.outline_eq hs
          obtain rfl : x = s' := Option.some.inj (hx.symm.trans hs')
          have hplain : τ.alone.target s d = d := if_neg fun hcalls => by
            rw [Symbol.kind_congr hbare', hk] at hcalls
            cases hcalls.1
          rw [hplain] at hfirst
          have hsame := (hrecords'.grows_links hrest).declaration u d hfirst
          obtain rfl : d = h := Option.some.inj (hsame.symm.trans hfound)
          refine ⟨t, .refl, hround.trans hrest, htarget, fun e he => ?_⟩
          exact Option.some.inj (htarget.symm.trans he)
      | none =>
          obtain ⟨round, hbefore, hafter, htarget, -⟩ := ih hrecords' hy
            (by rw [← Symbol.kind_congr hbare, hk]) hfirst hfound
          refine ⟨round, hround.trans hbefore, hafter, htarget, fun e he => ?_⟩
          -- What is found in this round does not stay pending.
          obtain ⟨τ, -, -, hτ, -, hpending, -⟩ := hrecords'.exists_of_links hrest hfirst hfound
          have hleft := hτ.mem_pending_of_mem hpending
          exact absurd hleft
            (not_mem_pending_connectAll hrecords.nodup (hround.mem_pending_of_mem hleft) he)

/-! ## Before the rounds -/

/-- Only at the end of the file are uses linked that are not looked up by name. -/
theorem AccountedBut.isByName_of_accept (hrecords : g.tree.AccountedBut rest') (hid : rest' id)
    (hs : g.tree.symbol? id = some s) (hfile : s.kind ≠ .sourceUnit) (hx : g.tree.symbol? u = some x)
    (hnone : g.tree.found? u = none) (hfound : (g.accept maxDepth id).tree.found? u = some h) :
    x.isByName = true := by
  obtain ⟨g₁, g₂, g₃, hclose, hdeclare, hlookUp, hwhole⟩ := g.accept_cases maxDepth hs
  rw [(hwhole.resolve_left fun h => hfile h.1).2] at hfound
  have hcontract : Links (fun _ _ s _ => s.isByName = true) g.tree g₁.tree := by
    rcases hclose with ⟨-, rfl⟩ | ⟨-, rfl⟩
    · exact (Growth.links_close maxDepth hrecords.nodup id).mono fun _ _ _ _ _ _ _ hwhy => hwhy.2.1
    · exact .refl
  have hrecords₁ := hrecords.links hcontract
  have houtline := hcontract.outline_eq
  have hname : ∀ {τ : SymbolTree} {v}, τ.outline = g.tree.outline → τ.symbol? u = some v →
      v.isByName = true → x.isByName = true := by
    intro τ v hτ hv hname
    obtain ⟨v', hv', hbare⟩ := symbol?_of_outline hτ hv
    obtain rfl : x = v' := Option.some.inj (hx.symm.trans hv')
    rw [← Symbol.isByName_congr hbare, hname]
  cases hfound₁ : g₁.tree.found? u with
  | some e =>
      obtain ⟨τ, v, e, hτ, -, -, hv, hwhy, -⟩ := hrecords.exists_of_links hcontract hnone hfound₁
      exact hname hτ.outline_eq hv hwhy
  | none =>
      obtain ⟨s₁, hs₁, hbare⟩ := symbol?_of_outline houtline.symm hs
      have hlinked : Growth.LinkedOn maxDepth [] [] id g₁.tree g₃.tree u h :=
        hrecords₁.linkedOn_record hid hs₁ hbare hdeclare hlookUp
          (fun _ hc => absurd hc List.not_mem_nil) hfound₁ hfound
      obtain ⟨τ, v, d, hτ, -, -, hv, hwhy, -⟩ := hlinked
      exact hname (hτ.trans houtline) hv hwhy

/-- What is linked before the turn of the file is looked up by name. -/
theorem Underway.isByName_of_found (hway : Underway p done (row ++ rest) g)
    (hfile : ∀ id ∈ row, p.kind? id ≠ some .sourceUnit) (hx : p.symbol? u = some x)
    (hnone : g.tree.found? u = none) (hfound : (row.foldl (Growth.settle maxDepth) g).tree.found? u = some h) :
    x.isByName = true := by
  obtain ⟨pre, id, post, rfl, hbefore, hafter, -⟩ := hway.exists_turn hnone hfound
  rw [List.append_assoc] at hway
  have hturn := hway.foldl_settle maxDepth
  have hstems := hturn.complete.stage.stems
  obtain ⟨s, hs⟩ := exists_symbol?_of_lt hturn.lt_size
  obtain ⟨v, hv, hstem⟩ := exists_symbol?_stems hstems.symm hx
  rw [← Symbol.stem_isByName hstem]
  refine hturn.accounted.isByName_of_accept List.mem_cons_self hs (fun hk => ?_) hv hbefore hafter
  refine hfile id (List.mem_append_right _ List.mem_cons_self) ?_
  rw [← kind?_stems hstems, kind?, hs, Option.map_some, hk]

/-- The tree of a text before the rounds: only uses that are looked up by name are linked. -/
theorem exists_connectMembers (maxDepth file generation : Nat) (m : LineMap) (text : String) :
    ∃ (p : SymbolTree) (done : List NodeId) (rest : NodeId → Prop) (t₀ : SymbolTree),
      p.Rooted ∧ p.Stage done t₀ ∧ t₀.AccountedBut rest ∧
      (∀ u x h, t₀.symbol? u = some x → t₀.found? u = some h → x.isByName = true) ∧
      grow maxDepth file generation m (parse text).tree = t₀.connectMembers maxDepth := by
  have hway := underway_planted file generation m text
  have hnothing := found?_planted file generation m (parse text).tree
  obtain ⟨inner, htree, -⟩ := exists_topLevel_parse text
  have horder : settlingOrder 0 (parse text).tree = settlingOrderOf 1 inner ++ [root] := by
    rw [htree]
    rfl
  have hnodup := nodup_settlingOrder 0 (parse text).tree
  rw [grow]
  rw [horder] at hway hnodup ⊢
  generalize planted file generation m (parse text).tree = p at hway hnothing ⊢
  have hroot := hway.rooted
  have hfile : ∀ id ∈ settlingOrderOf 1 inner, p.kind? id ≠ some .sourceUnit := by
    intro id hid hk
    obtain rfl := hroot.unique id hk
    exact (List.nodup_append.1 hnodup).2.2 root hid root (List.mem_singleton_self _) rfl
  have hlast := hway.foldl_settle maxDepth
  have hfront : ∀ u x h, p.symbol? u = some x →
      ((settlingOrderOf 1 inner).foldl (Growth.settle maxDepth) ⟨p, []⟩).tree.found? u = some h →
        x.isByName = true :=
    fun u x h hx hfound => hway.isByName_of_found hfile hx (hnothing u) hfound
  rw [List.foldl_append, List.foldl_cons, List.foldl_nil]
  generalize (settlingOrderOf 1 inner).foldl (Growth.settle maxDepth) ⟨p, []⟩ = g at hlast hfront ⊢
  -- The end of the file: the contracts that have waited are closed, and then the rounds begin.
  have hstage := hlast.complete.stage
  have hclosed := Growth.links_closeWaiting maxDepth hlast.complete.nodup
  obtain ⟨s, hs⟩ := exists_symbol?_of_lt hlast.lt_size
  have hk : s.kind = .sourceUnit := by
    have hkind := hroot.kind
    rw [← kind?_stems hstage.stems, kind?, hs] at hkind
    exact Option.some.inj hkind
  refine ⟨p, _, _, (g.closeWaiting maxDepth).tree, hroot,
    hstage.congr hclosed.outline_eq hclosed.handle_eq, hlast.accounted.links hclosed, ?_, ?_⟩
  · intro u x h hx hfound
    obtain ⟨y, hy, hbare⟩ := symbol?_of_outline hclosed.outline_eq hx
    cases hbefore : g.tree.found? u with
    | some e =>
        obtain ⟨z, hz, hstem⟩ := exists_symbol?_stems hstage.stems hy
        rw [Symbol.isByName_congr hbare, ← Symbol.stem_isByName hstem]
        exact hfront u z e hz hbefore
    | none =>
        obtain ⟨τ, v, d, hτ, -, -, hv, ⟨-, -, -, hname, -⟩, -⟩ :=
          hlast.accounted.exists_of_links hclosed hbefore hfound
        obtain ⟨v', hv', hbare'⟩ := symbol?_of_outline hτ.outline_eq hv
        obtain rfl : y = v' := Option.some.inj (hy.symm.trans hv')
        rw [Symbol.isByName_congr hbare, ← Symbol.isByName_congr hbare', hname]
  · rw [Growth.settle, Growth.accept_file hs hk]
    rw [parent?_root]

/-! ## The links of names -/

/-- The tree with the links of the uses that are looked up by name, and no others. -/
def namesOnly (t : SymbolTree) : SymbolTree :=
  { t with nodes := t.nodes.map fun s => if s.isByName then s else { s with declaration := none } }

/-- Without the links of accesses, a use that is looked up by name keeps its declaration. -/
theorem symbol?_namesOnly (t : SymbolTree) (id : NodeId) : t.namesOnly.symbol? id =
    (t.symbol? id).map fun s => if s.isByName then s else { s with declaration := none } :=
  Array.getElem?_map

/-- Leaving out links does not change the shape. -/
theorem outline_namesOnly (t : SymbolTree) : t.namesOnly.outline = t.outline := by
  have hbare : (t.nodes.map fun s => if s.isByName then s else { s with declaration := none }).map
      Symbol.bare = t.nodes.map Symbol.bare := by
    rw [Array.map_map]
    refine Array.map_congr_left fun s _ => ?_
    rw [Function.comp_apply]
    split <;> rfl
  rw [outline, namesOnly, hbare]
  rfl

/-- Only uses that are looked up by name are linked still. -/
theorem found?_namesOnly (t : SymbolTree) (id : NodeId) : t.namesOnly.found? id =
    if (t.symbol? id).any Symbol.isByName then t.found? id else none := by
  rw [found?, found?, symbol?_namesOnly]
  cases t.symbol? id with
  | none => rfl
  | some s =>
      simp only [Option.map_some, Option.bind_some, Option.any_some]
      split <;> rfl

/-- Without what the rounds have linked, a tree has the links from before them. -/
theorem Stage.found?_namesOnly_links (hstage : p.Stage done t) (hroot : p.Rooted)
    (hrecords : t.AccountedBut rest') (hlinks : Links (MemberReason maxDepth) t t')
    (hnames : ∀ u x h, t.symbol? u = some x → t.found? u = some h → x.isByName = true) (id : NodeId) :
    t'.namesOnly.found? id = t.found? id := by
  rw [found?_namesOnly]
  cases hfound : t.found? id with
  | some e =>
      obtain ⟨x, hx, -⟩ := Option.bind_eq_some_iff.1 hfound
      obtain ⟨y, hy, hbare⟩ := symbol?_of_outline hlinks.outline_eq.symm hx
      rw [hy, Option.any_some, if_pos, (hrecords.grows_links hlinks).declaration id e hfound]
      rw [← Symbol.isByName_congr hbare, hnames id x e hx hfound]
  | none =>
      split
      · rename_i hname
        by_contra hsome
        obtain ⟨e, he⟩ := Option.ne_none_iff_exists'.1 hsome
        obtain ⟨y, hy, -⟩ := Option.bind_eq_some_iff.1 he
        obtain ⟨x, hx, hbare⟩ := symbol?_of_outline hlinks.outline_eq hy
        rw [hy, Option.any_some, Symbol.isByName_congr hbare] at hname
        rw [(hstage.of_found_links hroot hrecords hlinks hfound he hx).1] at hname
        cases hname
      · rfl

/-- Where all links are the same, the type in front of a dot declares the same. -/
theorem typeMember?_alone_congr (houtline : t'.outline = t.outline) (hhandle : t'.handle = t.handle)
    (hfound : ∀ id, t'.found? id = t.found? id) (hrecords : t.AccountedBut rest') (a : Handle) :
    t'.alone.typeMember? maxDepth a = t.alone.typeMember? maxDepth a := by
  have hgains : t.alone.Gains t'.alone :=
    gains_alone houtline hhandle fun u h hu => by rw [hfound, hu]
  have hback : t'.alone.Gains t.alone :=
    gains_alone houtline.symm hhandle.symm fun u h hu => by rw [← hfound, hu]
  have hdeclaration : ∀ a, t'.alone.declaration? a = t.alone.declaration? a := fun a =>
    Option.ext fun d => ⟨hback.declaration a d, hgains.declaration a d⟩
  have hnew := hrecords.declaration?_newExpression
  refine Option.ext fun d => ⟨?_, ?_⟩
  · refine Forest.GainsMembers.typeMember? ⟨hback, fun a d hnone hd => ?_, rfl⟩ hnew
    rw [hdeclaration, hd] at hnone
    cases hnone
  · refine Forest.GainsMembers.typeMember? ⟨hgains, fun a d hnone hd => ?_, rfl⟩ fun a hk => ?_
    · rw [← hdeclaration, hd] at hnone
      cases hnone
    · rw [hdeclaration, hnew a (by rw [hback.kind?_eq, hk])]

/-! ## What accesses refer to in the finished tree -/

/-- An access that is linked in the tree of a text is linked to what it refers to there, unless an attached
function has been taken too early. Then it is linked to this function. -/
theorem resolveAccess?_eq_iff {maxDepth file generation : Nat} {m : LineMap} {text : String}
    {t : SymbolTree} (ht : t = grow maxDepth file generation m (parse text).tree) {u : NodeId}
    {x : Symbol} (hx : t.symbol? u = some x) (hk : x.kind = .memberAccess) {h : Handle}
    (hh : x.declaration = some h) :
    (t.alone.resolveAccess? maxDepth (t.handle u) = some h ↔
        ¬ t.alone.AttachedTooEarly maxDepth t.namesOnly.alone (t.handle u)) ∧
      (t.alone.AttachedTooEarly maxDepth t.namesOnly.alone (t.handle u) →
        t.alone.attachedMember? maxDepth (t.handle u) = some h) := by
  have hrecords := accountedBut_grow maxDepth file generation m (parse text).tree
  obtain ⟨p, done, rest', t₀, hroot, hstage, hrecords₀, hnames, heq⟩ :=
    exists_connectMembers maxDepth file generation m text
  rw [← ht] at hrecords heq
  have hrounds : Links (MemberReason maxDepth) t₀ t := heq ▸ links_connectMembers hrecords₀.nodup maxDepth
  have hnamesOnly := hstage.found?_namesOnly_links hroot hrecords₀ hrounds hnames
  obtain ⟨x₀, hx₀, hbare⟩ := symbol?_of_outline hrounds.outline_eq hx
  have hk₀ : x₀.kind = .memberAccess := by rw [← Symbol.kind_congr hbare, hk]
  have hnone : t₀.found? u = none := by
    by_contra hsome
    obtain ⟨e, he⟩ := Option.ne_none_iff_exists'.1 hsome
    have hname := hnames u x₀ e hx₀ he
    rw [Symbol.isByName, hk₀] at hname
    cases hname
  have hfound : (t₀.connectMembers maxDepth).found? u = some h := by
    rw [← heq, found?, hx, Option.bind_some, hh]
  obtain ⟨round, hbefore, hafter, htarget, hfirst⟩ :=
    hrecords₀.exists_round hx₀ hk₀ hnone hfound
  rw [← heq] at hafter
  have hgains := (hstage.congr hbefore.outline_eq hbefore.handle_eq).gains_links hroot
    (hrecords₀.links hbefore) hafter
  obtain ⟨v, hv, hvx⟩ := symbol?_of_outline hbefore.outline_eq.symm hx₀
  rw [memberTarget?_eq hv (by rw [← Symbol.kind_congr hvx, hk₀]), ← hafter.handle_eq] at htarget
  rw [memberTarget?_eq hx₀ hk₀, ← hrounds.handle_eq] at hfirst
  have hearly : t.alone.AttachedTooEarly maxDepth t.namesOnly.alone (t.handle u) ↔
      t.alone.AttachedTooEarly maxDepth t₀.alone (t.handle u) := by
    rw [Forest.AttachedTooEarly, Forest.AttachedTooEarly, typeMember?_alone_congr
      ((outline_namesOnly t).trans hrounds.outline_eq) hrounds.handle_eq hnamesOnly hrecords₀]
  rw [hearly]
  exact (hstage.gains_links hroot hrecords₀ hrounds).resolveAccess?_late_iff hgains
    hrecords.declaration?_newExpression htarget hfirst

/-- A contract `T` and a library that is attached to it declare the same name, and a field of a struct
has the type `T`. -/
def attachedToField : SymbolTree :=
  let text := "library L \x7b function f() \x7b\x7d \x7d contract T \x7b function f() \x7b\x7d \x7d" ++
    " contract C \x7b struct S \x7b T t; \x7d using L for T; S s; function g() \x7b s.t.f(); \x7d \x7d"
  grow defaultMaxDepth 0 1 (.ofText text) (parse text).tree

/-- In `s.t.f` the name `f` is linked to the function of the library, and `T` declares one. -/
theorem linked_attachedToField : ∃ x ∈ attachedToField.symbol? 24, x.kind = .memberAccess ∧
    x.declaration = some (attachedToField.handle 2) ∧
    attachedToField.alone.resolveAccess? defaultMaxDepth (attachedToField.handle 24) =
      some (attachedToField.handle 6) := by
  decide +kernel

/-- The access `s.t.f` is not linked to what it is resolved to, and it was attached too early. -/
theorem resolveAccess?_attachedToField_iff : ∃ x ∈ attachedToField.symbol? 24, ∃ h,
    x.kind = .memberAccess ∧ x.declaration = some h ∧
      (attachedToField.alone.resolveAccess? defaultMaxDepth (attachedToField.handle 24) = some h ↔
        ¬ attachedToField.alone.AttachedTooEarly defaultMaxDepth attachedToField.namesOnly.alone
          (attachedToField.handle 24)) ∧
      (attachedToField.alone.AttachedTooEarly defaultMaxDepth attachedToField.namesOnly.alone
          (attachedToField.handle 24) →
        attachedToField.alone.attachedMember? defaultMaxDepth (attachedToField.handle 24) = some h) := by
  obtain ⟨x, hx, hk, hh, -⟩ := linked_attachedToField
  exact ⟨x, hx, _, hk, hh, resolveAccess?_eq_iff rfl hx hk hh⟩

/-- Each access that is linked is linked to what it refers to in the finished tree. -/
def StableAccesses (maxDepth : Nat) (t : SymbolTree) : Prop :=
  ∀ u x h, t.symbol? u = some x → x.kind = .memberAccess → x.declaration = some h →
    t.alone.resolveAccess? maxDepth (t.handle u) = some h

/-- The library comes before the contract, because the type of the field is not known in the first
round. -/
theorem not_stableAccesses : ¬ attachedToField.StableAccesses defaultMaxDepth := by
  intro h
  obtain ⟨x, hx, hk, hh, hthen⟩ := linked_attachedToField
  have hnow := h 24 x _ hx hk hh
  rw [hthen] at hnow
  cases hnow

end SymbolTree

end SolidityAtlas
