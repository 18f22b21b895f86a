import SolidityAtlas.Proofs.Workspace.Accounted

/-!
# Answers about one cursor

Hovering shows the declaration that the use under the cursor is linked to; going to the
definition also needs the tree in which that declaration stands; and looking for references
starts from what the declaration lists. So the three answers come from three different records.
In a snapshot whose links are in order the records say the same, and the answers fit together.

## Main Definitions

* `Snapshot.CursorOn`: a cursor is in a use that has found its declaration
* `Snapshot.Fits`: what is shown about a use fits with where one is led from there

## Main Results

* `Snapshot.Sound.fits`: in a snapshot that is sound the answers fit together
* `Session.navigation_callAll`: so they do in every snapshot that calls lead to
-/

namespace SolidityAtlas

namespace Snapshot

/-- What is shown about the use under a cursor fits with the definition that one goes to and with
the references that are found there. -/
structure Fits (s : Snapshot) (file : FileId) (p : Position) (h : Hover) (d : Definition) : Prop where
  /-- One goes to the declaration that is shown. -/
  node : d.node = h.declaration
  /-- One goes to the place where the declaration of the use is named. -/
  location : s.definitionOf? h.node = some d.location
  /-- The declaration is shown as the type, too. -/
  declaredType : h.declaredType = some h.declaration
  /-- The references are those of the declaration that is shown. -/
  declaration : (s.referencesAt file p false).declaration = some h.declaration
  /-- The use is one of them, at the place that is shown, and it is listed once. -/
  once : (s.referencesAt file p false).entries.filter (·.node == h.node) =
    [⟨h.node, ⟨h.node.file, h.range⟩, false⟩]
  /-- None of them is the declaration. -/
  uses : ∀ r ∈ (s.referencesAt file p false).entries, r.isDefinition = false
  /-- If the declaration is asked for as well, it stands in front of them. -/
  withDeclaration : s.referencesAt file p true =
    ⟨some h.declaration,
      ⟨h.declaration, d.location, true⟩ :: (s.referencesAt file p false).entries⟩

/-- A cursor is in the use `u`, the node `id` of the tree `t`, which is linked to the declaration
behind `d`. -/
structure CursorOn (s : Snapshot) (file : FileId) (p : Position) (t : SymbolTree) (id : NodeId)
    (u : Symbol) (d : Handle) : Prop where
  tree : s.tree? file = some t
  node : t.nodeAt? p = some id
  symbol : t.symbol? id = some u
  hoverable : u.kind.isHoverable = true
  declaration : u.declaration = some d

variable {s : Snapshot} {file : FileId} {p : Position}

/-- Wherever there is a use under the cursor, it is one of an installed tree. -/
theorem exists_of_usageAt? {a : Handle} (ha : s.usageAt? file p = some a) :
    ∃ t id u, s.tree? file = some t ∧ t.nodeAt? p = some id ∧ t.symbol? id = some u ∧
      u.kind.isHoverable = true ∧ a = t.handle id := by
  obtain ⟨t, ht, ha⟩ := Option.bind_eq_some_iff.1 ha
  obtain ⟨id, hid, ha⟩ := Option.bind_eq_some_iff.1 ha
  split at ha
  · rename_i hkind
    obtain ⟨k, hk, hhoverable⟩ := Option.any_eq_true _ _ |>.1 hkind
    obtain ⟨u, hu, rfl⟩ := Option.map_eq_some_iff.1 hk
    exact ⟨t, id, u, ht, hid, hu, hhoverable, (Option.some.inj ha).symm⟩
  · cases ha

/-- What can be hovered over declares nothing. -/
theorem isDeclaration_eq_false_of_isHoverable {u : Symbol} (h : u.kind.isHoverable = true) :
    u.isDeclaration = false := by
  rw [Symbol.isDeclaration]
  revert h
  cases u.kind <;> simp [NodeKind.isHoverable, NodeKind.declares]

/-- A use that is listed once is found once. -/
theorem filter_filterMap_reference? {l : List Handle} {a : Handle} {r : Reference} (hl : l.Nodup)
    (ha : a ∈ l) (hr : s.reference? false a = some r) :
    (l.filterMap (s.reference? false)).filter (·.node == a) = [r] := by
  have hpick : (fun b => (s.reference? false b).filter (·.node == a)) =
      fun b => if b == a then s.reference? false b else none := by
    funext b
    cases hb : s.reference? false b with
    | none => simp
    | some v =>
        obtain ⟨location, -, rfl⟩ := Option.map_eq_some_iff.1 hb
        simp [Option.filter_some]
  rw [List.filter_filterMap, hpick, ← List.filterMap_filter, List.filter_beq,
    hl.count, if_pos ha, List.replicate_one, List.filterMap_cons, hr, List.filterMap_nil]

namespace CursorOn

variable {t : SymbolTree} {id : NodeId} {u : Symbol} {d : Handle}

/-- The use under the cursor is the one that is found. -/
theorem usageAt? (c : s.CursorOn file p t id u d) : s.usageAt? file p = some (t.handle id) := by
  simp [Snapshot.usageAt?, c.tree, c.node, SymbolTree.kind?, c.symbol, c.hoverable]

theorem symbol? (c : s.CursorOn file p t id u d) (h : s.Sound) :
    s.symbol? (t.handle id) = some u := by
  rw [h.symbol?_handle c.tree, c.symbol]

theorem declarationOf? (c : s.CursorOn file p t id u d) (h : s.Sound) :
    s.declarationOf? (t.handle id) = some d := by
  rw [Snapshot.declarationOf?, c.symbol? h, Option.bind_some, c.declaration]

/-- The declaration of a use stands in an installed tree and lists the use. -/
theorem exists_declaration (c : s.CursorOn file p t id u d) (h : s.Sound) :
    ∃ x, s.symbol? d = some x ∧ t.handle id ∈ x.references ∧ x.references.Nodup := by
  have hlinked : s.forest.declaration? (t.handle id) = some d := c.declarationOf? h
  obtain ⟨x, hx, hmem⟩ := h.paired.listed _ _ hlinked
  obtain ⟨t', id', ht', hid', -⟩ := exists_tree?_of_symbol? hx
  exact ⟨x, hx, hmem, (h.tidy _ t' ht').nodup_references id' x hid'⟩

/-- A node that is linked is a use, and its declaration is its type. -/
theorem recorded (c : s.CursorOn file p t id u d) (h : s.InOrder) :
    u.isUsage = true ∧ u.declaredType = [d] := by
  have hrecorded := (h file t c.tree).accounted.recorded id u c.symbol not_false
  have husage : u.isUsage = true := by
    by_contra hother
    have hnone := hrecorded.other (Bool.eq_false_iff.2 hother)
      (isDeclaration_eq_false_of_isHoverable c.hoverable)
    rw [c.declaration] at hnone
    cases hnone.1
  rcases hrecorded.usage husage with ⟨-, hnone, -⟩ | ⟨-, d', hd', htype⟩
  · rw [c.declaration] at hnone
    cases hnone
  · rw [c.declaration] at hd'
    cases hd'
    exact ⟨husage, htype⟩

/-- The text at the cursor is described by the use and its declaration. -/
theorem hover? (c : s.CursorOn file p t id u d) (h : s.Sound) (horder : s.InOrder) :
    s.hover? file p = some ⟨t.handle id, u.kind, u.name, u.nameRange, d, some d⟩ := by
  rw [Snapshot.hover?, c.usageAt?]
  simp [c.symbol? h, c.declaration, declaredType?, (c.recorded horder).2]

/-- Going to the definition leads to the name of the declaration. -/
theorem definitionAt? (c : s.CursorOn file p t id u d) (h : s.Sound) {x : Symbol}
    (hx : s.symbol? d = some x) :
    s.definitionAt? file p = some ⟨d, x.kind, x.name, ⟨d.file, x.nameRange⟩⟩ := by
  rw [Snapshot.definitionAt?, c.usageAt?]
  simp [c.declarationOf? h, hx]

/-- The cursor stands for the declaration of the use. -/
theorem declarationAt? (c : s.CursorOn file p t id u d) (horder : s.InOrder) :
    s.declarationAt? file p = some d := by
  simp [Snapshot.declarationAt?, c.tree, c.node, c.symbol, c.declaration, (c.recorded horder).1,
    isDeclaration_eq_false_of_isHoverable c.hoverable]

/-- The references are those of the declaration, and the declaration itself if it is wanted. -/
theorem referencesAt (c : s.CursorOn file p t id u d) (horder : s.InOrder) {x : Symbol}
    (hx : s.symbol? d = some x) (withDeclaration : Bool) :
    s.referencesAt file p withDeclaration =
      ⟨some d, (if withDeclaration then [⟨d, ⟨d.file, x.nameRange⟩, true⟩] else []) ++
        x.references.filterMap (s.reference? false)⟩ := by
  cases withDeclaration <;>
    simp [Snapshot.referencesAt, c.declarationAt? horder, hx, reference?, locationOf?]

/-- What is shown about a use, and where one is led from there. -/
theorem fits (c : s.CursorOn file p t id u d) (h : s.Sound) (horder : s.InOrder) :
    Option.Rel (s.Fits file p) (s.hover? file p) (s.definitionAt? file p) := by
  obtain ⟨x, hx, hmem, hnodup⟩ := c.exists_declaration h
  rw [c.hover? h horder, c.definitionAt? h hx]
  have hentries : (s.referencesAt file p false).entries =
      x.references.filterMap (s.reference? false) := by
    rw [c.referencesAt horder hx]
    rfl
  refine .some ⟨rfl, ?_, rfl, ?_, ?_, fun r hr => ?_, ?_⟩
  · simp [definitionOf?, c.declarationOf? h, locationOf?, hx]
  · rw [c.referencesAt horder hx]
  · rw [hentries]
    refine filter_filterMap_reference? hnodup hmem ?_
    simp [reference?, locationOf?, c.symbol? h]
  · rw [hentries] at hr
    obtain ⟨a, -, ha⟩ := List.mem_filterMap.1 hr
    obtain ⟨location, -, rfl⟩ := Option.map_eq_some_iff.1 ha
    rfl
  · rw [hentries, c.referencesAt horder hx]
    rfl

end CursorOn

/-- The answers about one cursor fit together: there is something to show exactly if there is
somewhere to go. -/
theorem Sound.fits (h : s.Sound) (horder : s.InOrder) (file : FileId) (p : Position) :
    Option.Rel (s.Fits file p) (s.hover? file p) (s.definitionAt? file p) := by
  cases husage : s.usageAt? file p with
  | none =>
      rw [hover?, definitionAt?, husage]
      exact .none
  | some a =>
      obtain ⟨t, id, u, ht, hid, hu, hhoverable, rfl⟩ := exists_of_usageAt? husage
      have hsymbol : s.symbol? (t.handle id) = some u := by rw [h.symbol?_handle ht, hu]
      cases hd : u.declaration with
      | none =>
          have hover : s.hover? file p = none := by
            simp [hover?, husage, hsymbol, hd]
          have definition : s.definitionAt? file p = none := by
            simp [definitionAt?, husage, declarationOf?, hsymbol, hd]
          rw [hover, definition]
          exact .none
      | some d => exact CursorOn.fits ⟨ht, hid, hu, hhoverable, hd⟩ h horder

end Snapshot

namespace Session

/-- Whatever calls are made, hovering, going to the definition and looking for references agree at
every cursor: something is shown exactly if there is a definition to go to, which is that of the
declaration shown, and the use is listed once among the references of this declaration. -/
theorem navigation_callAll (config : Config) (calls : List Call) (file : FileId) (p : Position) :
    let s := ((start config).callAll calls).snapshot
    Option.Rel (s.Fits file p) (s.hover? file p) (s.definitionAt? file p) := by
  intro s
  have horder : s.InOrder := by
    show ((start config).callAll calls).snapshot.InOrder
    rw [callAll_eq_run]
    exact ((inOrder_start config).run _).snapshot
  exact (sound_callAll config calls).workspace.snapshot.fits horder file p

/-- The cursor is on `ping` in a contract of the second file, which inherits it from the first. -/
example :
    (((start .default).callAll
      [.index "A.sol" "contract A \x7b function ping() internal \x7b\x7d \x7d",
        .index "B.sol" "import \"./A.sol\";\ncontract B is A \x7b function f() public \x7b ping(); \x7d \x7d"]
      ).snapshot.hover? 1 ⟨1, 42⟩).map Hover.declaration = some ⟨0, 1, 2⟩ := by
  decide +kernel

end Session

end SolidityAtlas
