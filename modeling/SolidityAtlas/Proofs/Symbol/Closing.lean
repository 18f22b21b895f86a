import SolidityAtlas.Proofs.Symbol.ScopeSound

/-!
# When a contract deals with the uses inside it

A contract deals with the uses inside it in its own turn, or it waits and does so at the end
of the file. Then it is *closed*. A use that can mean nothing inside the contract is not
linked before the contract is closed: nothing is found for it in the contract, and what is
declared outside comes too late to take it or may not take it yet.

So at the turn in which the contract is closed such a use is still pending, and what the
bases of the contract declare is tried before anything else.

## Main Definitions

* `SymbolTree.MeantInside`: something inside a contract can be meant by a use
* `Growth.Closed`: a contract has dealt with the uses inside it

## Main Results

* `SymbolTree.Underway.closed_of_found`: no link before the contract is closed
* `SymbolTree.Underway.exists_closing`: the turn in which a contract is closed
* `SymbolTree.AccountedBut.exists_found?_closeUses`: what the bases declare is tried first
-/

namespace SolidityAtlas

/-- A contract has been settled and does not wait. -/
def Growth.Closed (done : List NodeId) (g : Growth) (c : NodeId) : Prop :=
  c ∈ done ∧ c ∉ g.waiting

namespace SymbolTree

variable {t t₀ τ p : SymbolTree} {done rest row : List NodeId} {rest' : NodeId → Prop} {g : Growth}
  {maxDepth : Nat} {id u d c : NodeId} {s x : Symbol}

/-- Something inside a contract can be meant by a use: it stands around the use, or belongs to a node
around the use, or does not come before the use, which stands in its scope. -/
def MeantInside (t : SymbolTree) (x : Symbol) (u c : NodeId) : Prop :=
  ∃ a < t.size, ∃ y ∈ t.symbol? a, y.accepts x = true ∧ (a = c ∨ c ∈ t.ancestors a) ∧
    (a ∈ t.ancestors u ∨ (∃ outer ∈ t.ancestors u, a ∈ t.members outer) ∨
      ¬ t.SettledBefore a u ∧ ∃ scope ∈ t.ancestors u, t.enclosingScope? a = some scope)

instance (t : SymbolTree) (x : Symbol) (u c : NodeId) : Decidable (t.MeantInside x u c) :=
  inferInstanceAs (Decidable (∃ a < t.size, ∃ y ∈ t.symbol? a, _))

/-! ## No link before the contract is closed -/

/-- What cannot be meant inside a contract in the end cannot be meant there while the tree grows. -/
theorem not_seen_of_not_meantInside (hτ : τ.stems = p.stems) (hgrows : τ.Grows t)
    (hnot : ¬ t.MeantInside x u c) (hstem : s.stem = x.stem) {a : NodeId} {y : Symbol}
    (hy : τ.symbol? a = some y) (haccepts : y.accepts s = true) (hin : a = c ∨ c ∈ p.ancestors a) :
    ¬ (a ∈ p.ancestors u ∨ (∃ outer ∈ p.ancestors u, a ∈ t.members outer) ∨
      ¬ p.SettledBefore a u ∧ ∃ scope ∈ p.ancestors u, p.enclosingScope? a = some scope) := by
  intro hsees
  have hstems := hgrows.stems.trans hτ
  obtain ⟨y', hy', hstemy⟩ := exists_symbol?_stems hgrows.stems.symm hy
  refine hnot ⟨a, lt_size_of_symbol? hy', y', hy',
    by rw [Symbol.stem_accepts hstemy hstem.symm, haccepts], ?_, ?_⟩
  · rwa [ancestors_stems hstems]
  · rwa [SettledBefore, ancestors_stems hstems, enclosingScope?_stems hstems]

/-- A contract that deals with a use is the one around it, and it is closed from then on. -/
theorem Moment.closed_of_deals (h : Moment maxDepth p done g id τ u s d) (hroot : p.Rooted)
    (hafter : (g.settle maxDepth id).Complete p (done ++ [id]))
    (hc : p.kind? c = some .contractDefinition) (hcu : c ∈ p.ancestors u)
    (hbase : p.isBaseName u = false) {a : NodeId}
    (hdeals : Growth.Deals g.waiting (g.settle maxDepth id).waiting id τ u a) :
    (g.settle maxDepth id).Closed (done ++ [id]) c := by
  have hτ := h.stage.stems
  have hac := hdeals.1
  rw [ancestors_stems hτ] at hac
  obtain rfl := hroot.eq_of_mem_ancestors hc (h.kind?_of_deals hdeals) hcu hac
  rcases hdeals.2 with ⟨rfl, -, hleft⟩ | ⟨hwaits, hfile⟩
  · exact ⟨List.mem_append_right _ List.mem_cons_self, hleft (by rw [isBaseName_stems hτ, hbase])⟩
  · rw [kind?_stems hτ] at hfile
    refine ⟨List.mem_append_left _ (h.complete.waiting a hwaits).1, ?_⟩
    rw [hafter.closed (by rw [hroot.unique id hfile]; exact List.mem_append_right _ List.mem_cons_self)]
    exact List.not_mem_nil

/-- Only the node whose turn it is can begin to wait. -/
theorem Moment.mem_waiting_of_mem (h : Moment maxDepth p done g id τ u s d) (hne : c ≠ id)
    (hc : c ∈ (g.settle maxDepth id).waiting) : c ∈ g.waiting := by
  have hlt : id < g.tree.size := by
    rw [size_stems h.complete.stage.stems]
    exact h.turn.lt_size
  obtain ⟨y, hy⟩ := exists_symbol?_of_lt hlt
  rw [(Growth.settle_eq maxDepth g id).2] at hc
  exact ((Growth.waiting_accept hy).2 c hc).resolve_left hne

/-- A use inside a contract that can mean nothing there is linked only when the contract is closed. -/
theorem Moment.closed (h : Moment maxDepth p done g id τ u s d) (hroot : p.Rooted) (hgrows : τ.Grows t)
    (hafter : (g.settle maxDepth id).Complete p (done ++ [id]))
    (hc : p.kind? c = some .contractDefinition) (hcu : c ∈ p.ancestors u) (hbase : p.isBaseName u = false)
    (hnot : ¬ t.MeantInside x u c) (hstem : s.stem = x.stem) :
    (g.settle maxDepth id).Closed (done ++ [id]) c := by
  have hτ := h.stage.stems
  cases h.reason with
  | lookedUp hu hmeant =>
      obtain ⟨outer, houter, hmeant⟩ := List.exists_of_findSome?_eq_some hmeant
      obtain ⟨hd, y, hy, haccepts⟩ := of_meantAt? hmeant
      rw [ancestorsInContract_stems hτ] at houter
      obtain ⟨houter, hin⟩ := of_mem_ancestorsInContract houter
      have hout := hin c hcu hc
      exfalso
      rcases hd with rfl | hd
      · exact not_seen_of_not_meantInside hτ hgrows hnot hstem hy haccepts hout (.inl houter)
      · refine not_seen_of_not_meantInside hτ hgrows hnot hstem hy haccepts (.inr ?_)
          (.inr (.inl ⟨outer, houter, hgrows.mem_members hd⟩))
        have hmem := (h.stage.mem_members_iff.1 hd).2.2.mem_ancestors
        rcases hout with rfl | hout
        · exact hmem
        · exact mem_ancestors_trans hout hmem
  | @claimed scope y hid hscope hmem hy haccepts hheld =>
      subst hid
      rw [enclosingScope?_stems hτ] at hscope
      rw [ancestors_stems hτ] at hmem
      have hlate : ¬ p.SettledBefore d u := by
        intro hbefore
        refine hbefore.not_settledBefore ?_
        rcases h.pending with rfl | ⟨hu, -⟩
        · exact hbefore
        · exact ((h.turn.mem_iff u).1 hu).2
      have hout : ¬ (d = c ∨ c ∈ p.ancestors d) := fun hin =>
        not_seen_of_not_meantInside hτ hgrows hnot hstem hy haccepts hin
          (.inr (.inr ⟨hlate, scope, hmem, hscope⟩))
      have hne : u ≠ d := fun heq => hout (.inr (heq ▸ hcu))
      obtain ⟨hu, -⟩ := h.pending.resolve_left hne
      have hdone : c ∈ done := h.turn.mem_of_mem_ancestors hu hcu (fun heq => hout (.inl heq.symm))
        fun hmem => hout (.inr hmem)
      -- The declaration stands outside, so it may take the use only if the contract does not wait.
      refine ⟨List.mem_append_left _ hdone, fun hwaits => ?_⟩
      have hwaits := h.mem_waiting_of_mem (fun heq => hout (.inl heq.symm)) hwaits
      refine hheld (by rw [isBaseName_stems hτ, hbase]) c hwaits ?_
      rw [ancestors_stems hτ]
      exact hcu
  | around hdeals _ => exact h.closed_of_deals hroot hafter hc hcu hbase hdeals
  | inherited hdeals _ _ => exact h.closed_of_deals hroot hafter hc hcu hbase hdeals

namespace Underway

variable (maxDepth) in
/-- A contract that is closed stays closed. -/
theorem closed_foldl (h : Underway p done (row ++ rest) g) (hclosed : g.Closed done c) :
    (row.foldl (Growth.settle maxDepth) g).Closed (done ++ row) c := by
  induction row generalizing done g with
  | nil => rwa [List.append_nil]
  | cons id row ih =>
      have hrest := ih (h.settle maxDepth) ⟨List.mem_append_left _ hclosed.1, fun hmem => ?_⟩
      · rwa [← List.append_cons] at hrest
      · obtain ⟨y, hy⟩ := exists_symbol?_of_lt h.lt_size
        rw [(Growth.settle_eq maxDepth g id).2] at hmem
        rcases (Growth.waiting_accept hy).2 c hmem with rfl | hmem
        · exact h.turn_head.not_mem hclosed.1
        · exact hclosed.2 hmem

/-- No use that can mean nothing inside a contract is linked before the contract is closed. -/
theorem closed_of_found (hway : Underway p done (row ++ rest) g) {v : Symbol} (hv : p.symbol? u = some v)
    (hstem : v.stem = x.stem) (hname : v.isByName = true)
    (hc : p.kind? c = some .contractDefinition) (hcu : c ∈ p.ancestors u)
    (hbase : p.isBaseName u = false) (hnot : ¬ t.MeantInside x u c) (hnone : g.tree.found? u = none)
    (hgrows : (row.foldl (Growth.settle maxDepth) g).tree.Grows t) {h : Handle}
    (hfound : (row.foldl (Growth.settle maxDepth) g).tree.found? u = some h) :
    (row.foldl (Growth.settle maxDepth) g).Closed (done ++ row) c := by
  obtain ⟨pre, id, post, τ, s, d, rfl, hmoment, hgrowsτ, -⟩ := hway.exists_moment hv hname hnone hfound
  rw [List.append_assoc, List.cons_append] at hway
  have hturn := hway.foldl_settle maxDepth
  obtain ⟨v', hv', hstem'⟩ := exists_symbol?_stems hmoment.stage.stems hmoment.symbol
  obtain rfl : v = v' := Option.some.inj (hv.symm.trans hv')
  have hclosed := hmoment.closed hway.rooted (hgrowsτ.trans hgrows) (hturn.settle maxDepth).complete hc hcu
    hbase hnot (hstem'.symm.trans hstem)
  have hlast := (hturn.settle maxDepth).closed_foldl maxDepth hclosed
  rwa [List.append_assoc, List.append_assoc, List.singleton_append, ← List.foldl_cons,
    ← List.foldl_append] at hlast

end Underway

/-- A contract that is closed in the end is closed in some turn. -/
theorem exists_closing (hopen : ¬ g.Closed done c)
    (hclosed : (row.foldl (Growth.settle maxDepth) g).Closed (done ++ row) c) :
    ∃ pre id post, row = pre ++ id :: post ∧
      ¬ (pre.foldl (Growth.settle maxDepth) g).Closed (done ++ pre) c ∧
      ((pre.foldl (Growth.settle maxDepth) g).settle maxDepth id).Closed (done ++ pre ++ [id]) c := by
  induction row generalizing done g with
  | nil =>
      rw [List.append_nil] at hclosed
      exact absurd hclosed hopen
  | cons id row ih =>
      by_cases hnext : (g.settle maxDepth id).Closed (done ++ [id]) c
      · exact ⟨[], id, row, rfl, by rwa [List.append_nil], by rwa [List.append_nil]⟩
      · rw [List.append_cons] at hclosed
        obtain ⟨pre, other, post, rfl, hbefore, hafter⟩ := ih hnext hclosed
        have hsplit : done ++ id :: pre = done ++ [id] ++ pre := List.append_cons done id pre
        refine ⟨id :: pre, other, post, rfl, ?_, ?_⟩ <;> rw [hsplit]
        · exact hbefore
        · exact hafter

/-! ## The closing turn -/

variable (maxDepth) in
/-- What the bases of a contract declare for a use is what the use is linked to when the contract deals
with the uses inside it, if it stays the same while this is done. -/
theorem AccountedBut.exists_found?_closeUses (hrecords : t₀.AccountedBut rest') (hu : u ∈ t₀.usesIn c)
    (hfinal : ∀ τ s, t₀.Grows τ → τ.Grows (Growth.closeUses maxDepth c t₀) → τ.outline = t₀.outline →
      τ.symbol? u = some s → inheritedNode? maxDepth c τ s = some d) :
    ∃ τ s, t₀.Grows τ ∧ τ.Grows (Growth.closeUses maxDepth c t₀) ∧ τ.symbol? u = some s ∧
      (Growth.closeUses maxDepth c t₀).found? u = some (τ.alone.target s (τ.handle d)) := by
  have hfirst := links_inherited hrecords.nodup maxDepth c
  have hgrows := hrecords.grows_links hfirst
  have hrest := (hrecords.links hfirst).grows_links (links_around hrecords.nodup maxDepth c)
  obtain ⟨hpending, -, ⟨v, hv, -⟩, -⟩ := mem_usesIn.1 hu
  have hnot : u ∉ (connectFound (inheritedNode? maxDepth c) t₀ (t₀.usesIn c)).1.pending := by
    intro hleft
    have hleft := mem_left_of_mem_pending (inheritedNode? maxDepth c) hrecords.nodup hu hleft
    obtain ⟨-, τ, hτ, hτrest, -, hnone⟩ := exists_of_mem_left (inheritedNode? maxDepth c)
      (nodup_usesIn hrecords.nodup c) (fun v hv => (mem_usesIn.1 hv).1) hleft
    obtain ⟨s, hs, -⟩ := symbol?_of_outline hτ.outline_eq.symm hv
    have hfound := hfinal τ s (hrecords.grows_links hτ)
      (((hrecords.links hτ).grows_links hτrest).trans hrest) hτ.outline_eq hs
    rw [hnone s hs] at hfound
    cases hfound
  obtain ⟨hsettled, husage, hnone, -⟩ := hrecords.of_mem_pending hpending hv
  obtain ⟨w, hw, hbare⟩ := symbol?_of_outline hfirst.outline_eq.symm hv
  rcases ((hrecords.links hfirst).recorded u w hw hsettled).usage
    (by rw [← Symbol.isUsage_congr hbare, husage]) with ⟨hleft, -⟩ | ⟨-, e, he, -⟩
  · exact absurd hleft hnot
  · obtain ⟨τ, s, e', hτ, hτrest, -, hs, ⟨-, d', hd', rfl⟩, rfl⟩ := hrecords.exists_of_links hfirst
      (u := u) (h := e) (by rw [found?, hv, Option.bind_some, hnone])
      (by rw [found?, hw, Option.bind_some, he])
    have hgrowsτ := hrecords.grows_links hτ
    have hd := hfinal τ s hgrowsτ (hτrest.trans hrest) hτ.outline_eq hs
    obtain rfl : d = d' := Option.some.inj (hd.symm.trans hd')
    refine ⟨τ, s, hgrowsτ, hτrest.trans hrest, hs, hrest.declaration u _ ?_⟩
    rw [found?, hw, Option.bind_some, he]

/-- Linking the names of the bases of a contract leaves all other uses pending. -/
theorem AccountedBut.mem_pending_closeBases (hrecords : t.AccountedBut rest') (ht : t.stems = p.stems)
    (c : NodeId) (hu : u ∈ t.pending) (hbase : p.isBaseName u = false) :
    u ∈ (Growth.closeBases c t).1.pending := by
  refine (links_closeBases hrecords.nodup c).mem_pending hu ?_
  intro t' s h hlinks _ _ ⟨_, _, hnot, _⟩
  rw [isBaseName_stems ((stems_congr hlinks.outline_eq).trans ht), hbase] at hnot
  cases hnot

namespace Underway

variable {y : Symbol}

variable (maxDepth) in
/-- A contract that waits deals with the uses inside it at the end of the file, when the contracts
before it have done so. -/
theorem exists_closeUses_of_waiting (hway : Underway p done (id :: rest) g)
    (hc : p.kind? c = some .contractDefinition) (hwaits : c ∈ g.waiting)
    (hy : g.tree.symbol? id = some y) (hk : y.kind = .sourceUnit) :
    ∃ t₀, g.tree.Grows t₀ ∧ t₀.outline = g.tree.outline ∧ t₀.AccountedBut (· ∈ id :: rest) ∧
      (Growth.closeUses maxDepth c t₀).Grows (g.accept maxDepth id).tree ∧
      ∀ u ∈ g.tree.pending, c ∈ p.ancestors u → p.isBaseName u = false → u ∈ t₀.pending := by
  have hstems := hway.complete.stage.stems
  obtain ⟨pre, post, hwaiting, hpre⟩ := List.eq_append_cons_of_mem hwaits
  have hlinks := Growth.links_foldl_close maxDepth pre hway.accounted.nodup
  have hrecords := hway.accounted.links hlinks
  have hgrows := hway.accounted.grows_links hlinks
  have hnames := links_closeBases hrecords.nodup c
  have hrecords₀ := hrecords.links hnames
  have huses := links_closeUses hrecords₀.nodup maxDepth c
  have hrecords₁ := hrecords₀.links huses
  have hpost := Growth.links_foldl_close maxDepth post hrecords₁.nodup
  have hwhole : (g.closeWaiting maxDepth).tree = _ := Growth.tree_closeWaiting
  rw [hwaiting, List.foldl_append, List.foldl_cons] at hwhole
  refine ⟨_, hgrows.trans (hrecords.grows_links hnames), hnames.outline_eq.trans hlinks.outline_eq,
    hrecords₀, ?_, fun u hu hcu hbase => ?_⟩
  · have hend := hway.accounted.grows_whole maxDepth
    rw [Growth.accept_file hy hk]
    refine (hrecords₁.grows_links hpost).trans ?_
    rw [← hwhole]
    exact hend.2
  · have hstems' := (stems_congr hlinks.outline_eq).trans hstems
    refine hrecords.mem_pending_closeBases hstems' c (hlinks.mem_pending hu ?_) hbase
    -- The contracts that wait are different ones, and the use stands in one only.
    intro t' s h hlinks' _ _ ⟨c', hc', hin, _⟩
    rw [ancestors_stems ((stems_congr hlinks'.outline_eq).trans hstems)] at hin
    have hk' := (hway.complete.waiting c' (by rw [hwaiting]; exact List.mem_append_left _ hc')).2
    rw [hway.rooted.eq_of_mem_ancestors hc hk' hcu hin] at hc'
    exact hpre hc'

/-- A contract that does not wait after its turn knew its bases in it, and dealt with the uses inside. -/
theorem closeUses_of_not_waiting (hway : Underway p done (c :: rest) g)
    (hy : g.tree.symbol? c = some y) (hk : y.kind = .contractDefinition)
    (hfree : c ∉ (g.accept maxDepth c).waiting) :
    (Growth.closeBases c g.tree).2 = true ∧
      (Growth.closeUses maxDepth c (Growth.closeBases c g.tree).1).Grows (g.accept maxDepth c).tree := by
  have hfile : y.kind ≠ .sourceUnit := by
    intro heq
    rw [hk] at heq
    cases heq
  obtain ⟨-, hgrows⟩ := hway.accounted.grows_accept maxDepth List.mem_cons_self hy
  rcases g.close_cases maxDepth c with ⟨hall, heq⟩ | ⟨-, heq⟩
  · have hclosed := hgrows hk
    rw [heq] at hclosed
    exact ⟨hall, hclosed⟩
  · refine absurd (Growth.mem_waiting_accept_of_close hy hk ?_) hfree
    rw [heq]
    exact List.mem_append_right _ List.mem_cons_self

/-- The turn in which a contract is closed: the tree `t₀` when the contract deals with the uses inside
it. A use that does not name a base, and is pending when the turn begins, is pending still. -/
theorem exists_closeUses (hway : Underway p done (id :: rest) g) (hopen : ¬ g.Closed done c)
    (hclosed : (g.settle maxDepth id).Closed (done ++ [id]) c)
    (hc : p.kind? c = some .contractDefinition) :
    ∃ t₀, g.tree.Grows t₀ ∧ t₀.outline = g.tree.outline ∧ t₀.AccountedBut (· ∈ id :: rest) ∧
      (Growth.closeUses maxDepth c t₀).Grows (g.settle maxDepth id).tree ∧
      (c = id ∧ t₀ = (Growth.closeBases c g.tree).1 ∧ (Growth.closeBases c g.tree).2 = true ∨
        c ∈ done ∧ id = root) ∧
      ∀ u ∈ g.tree.pending, c ∈ p.ancestors u → p.isBaseName u = false → u ∈ t₀.pending := by
  have hstems := hway.complete.stage.stems
  have haccept := grows_settle_accept maxDepth g id
  obtain ⟨y, hy⟩ := exists_symbol?_of_lt hway.lt_size
  have hkind : p.kind? id = some y.kind := by rw [← kind?_stems hstems, kind?, hy, Option.map_some]
  obtain ⟨hdone, hfree⟩ := hclosed
  rw [(Growth.settle_eq maxDepth g id).2] at hfree
  rcases List.mem_append.1 hdone with hdone | hid
  · -- The contract waited for the end of the file.
    have hwaits : c ∈ g.waiting := by
      by_contra hnot
      exact hopen ⟨hdone, hnot⟩
    have hk : y.kind = .sourceUnit := by
      by_contra hnot
      exact hfree ((Growth.waiting_accept hy).1 hnot c hwaits)
    obtain ⟨t₀, hgrows, houtline, hrecords, hdeals, hpending⟩ :=
      hway.exists_closeUses_of_waiting maxDepth hc hwaits hy hk
    have hroot : id = root := hway.rooted.unique id (by rw [hkind, hk])
    exact ⟨t₀, hgrows, houtline, hrecords, hdeals.trans haccept, .inr ⟨hdone, hroot⟩, hpending⟩
  · -- It is the turn of the contract.
    obtain rfl := List.mem_singleton.1 hid
    have hk : y.kind = .contractDefinition := Option.some.inj (hkind.symm.trans hc)
    obtain ⟨hall, hdeals⟩ := hway.closeUses_of_not_waiting hy hk hfree
    have hnames := links_closeBases hway.accounted.nodup c
    exact ⟨_, hway.accounted.grows_links hnames, hnames.outline_eq, hway.accounted.links hnames,
      hdeals.trans haccept, .inl ⟨rfl, rfl, hall⟩, fun u hu _ hbase =>
        hway.accounted.mem_pending_closeBases hstems c hu hbase⟩

end Underway

end SymbolTree

end SolidityAtlas
