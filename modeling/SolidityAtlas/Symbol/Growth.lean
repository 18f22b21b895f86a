import SolidityAtlas.Symbol.Member
import SolidityAtlas.Symbol.Planting

/-!
# Linking the names of a file

The nodes of a file are settled one after the other, each behind what it holds.

* A use looks for its declaration from the inside out, up to the contract it
  stands in; what is settled by then can be found. If there is none, the use is
  pending.
* A declaration takes the pending uses in its scope that can mean it, the oldest
  first.
* A contract, before that, deals with the pending uses inside it: it looks up its
  bases, then tries what the bases declare, then what is declared around it. If a
  base is missing so far, the contract *waits*, and until the end of the file
  nothing from outside can be meant inside it but its bases.
* The file, as the last node, deals with the waiting contracts. Then accesses and
  dotted types are looked up, over and over until nothing more is found.

So the innermost declaration that a use can mean gets it.

## Main Definitions

* `Growth`: a tree while its names are being linked
* `Growth.settle`: dealing with a node
* `SymbolTree.grow`: the symbols of a file, linked to each other as far as possible
-/

namespace SolidityAtlas

namespace SymbolTree

variable (t : SymbolTree)

/-- The forest of this tree alone. -/
def alone : Forest :=
  .ofTree t

/-- The first declaration that belongs to a node and can be what a use refers to. -/
def memberAccepting? (usage : Symbol) (scope : NodeId) : Option NodeId :=
  (t.members scope).find? fun m => (t.symbol? m).any (·.accepts usage)

/-- What a use can refer to at one node around it: the node itself, or what belongs to it. -/
def meantAt? (usage : Symbol) (outer : NodeId) : Option NodeId :=
  if (t.symbol? outer).any (·.accepts usage) then some outer
  else t.memberAccepting? usage outer

/-- What a use can refer to around a node, looked for from the inside out. -/
def meantAround? (usage : Symbol) (id : NodeId) : Option NodeId :=
  (t.ancestors id).findSome? (t.meantAt? usage)

/-- The nodes around a node up to the contract it stands in. -/
def ancestorsInContract (id : NodeId) : List NodeId :=
  let isContract (a : NodeId) : Bool := t.kind? a == some .contractDefinition
  let outer := t.ancestors id
  outer.takeWhile (! isContract ·) ++ ((outer.dropWhile (! isContract ·)).take 1)

/-- What a use can refer to inside the contract it stands in. -/
def meantInContract? (usage : Symbol) (id : NodeId) : Option NodeId :=
  (t.ancestorsInContract id).findSome? (t.meantAt? usage)

/-- Whether a use names a base of a contract. -/
def isBaseName (usage : NodeId) : Bool :=
  (t.parent? usage).any fun p => t.kind? p == some .inheritanceSpecifier

/-- The pending uses inside a node that are looked up by name. -/
def pendingByName (outer : NodeId) : List NodeId :=
  t.pending.filter fun u => t.isInside u outer && (t.symbol? u).any Symbol.isByName

/-- The tree with a use linked to what a declaration stands for, at both ends. -/
def connect (usage : NodeId) (declaration : Handle) : SymbolTree :=
  match t.symbol? usage with
  | none => t
  | some s =>
    let target := t.alone.target s declaration
    (t.link usage target).addReference target.node (t.handle usage)

/-- The tree with a use linked to a declaration of the same file. -/
def connectTo (usage declaration : NodeId) : SymbolTree :=
  t.connect usage (t.handle declaration)

/-- The tree with those of the uses linked that a search finds a declaration for, and the
uses that are left. -/
def connectFound (search : SymbolTree → Symbol → Option NodeId) :
    SymbolTree → List NodeId → SymbolTree × List NodeId
  | t, [] => (t, [])
  | t, u :: us =>
    match (t.symbol? u).bind (search t) with
    | some d => connectFound search (t.connectTo u d) us
    | none =>
      let (t, left) := connectFound search t us
      (t, u :: left)

/-! ### Accesses and dotted types -/

/-- The declaration that a pending access or a pending dotted type refers to. -/
def memberTarget? (maxDepth : Nat) (usage : NodeId) : Option Handle :=
  (t.symbol? usage).bind fun s =>
    match s.detail with
    | .plain .memberAccess => t.alone.resolveAccess? maxDepth (t.handle usage)
    | .typePath path =>
      if s.isQualified then t.alone.dottedTarget? maxDepth (fun _ => none) (t.handle usage) path
      else none
    | _ => none

/-- The pending accesses and dotted types that can be linked now. -/
def memberTargets (maxDepth : Nat) : List (NodeId × Handle) :=
  t.pending.filterMap fun u => (t.memberTarget? maxDepth u).map (u, ·)

/-- The tree with all these links. -/
def connectAll (links : List (NodeId × Handle)) : SymbolTree :=
  links.foldl (fun t l => t.connect l.1 l.2) t

/-- Connecting a use leaves no more uses pending than there were. -/
theorem length_pending_connect_le (usage : NodeId) (d : Handle) :
    (t.connect usage d).pending.length ≤ t.pending.length := by
  unfold connect
  split
  · exact Nat.le_refl _
  · exact List.length_erase_le

/-- Connecting uses in a row leaves no more of them pending. -/
theorem length_pending_connectAll_le (links : List (NodeId × Handle)) :
    (t.connectAll links).pending.length ≤ t.pending.length := by
  induction links generalizing t with
  | nil => exact Nat.le_refl _
  | cons l links ih =>
    exact Nat.le_trans (ih (t.connect l.1 l.2)) (t.length_pending_connect_le l.1 l.2)

/-- A round that finds anything leaves fewer uses pending. -/
theorem length_pending_connectAll_memberTargets_lt (maxDepth : Nat)
    (h : t.memberTargets maxDepth ≠ []) :
    (t.connectAll (t.memberTargets maxDepth)).pending.length < t.pending.length := by
  obtain ⟨l, links, hl⟩ := List.exists_cons_of_ne_nil h
  have hmem : l ∈ t.memberTargets maxDepth := by simp [hl]
  obtain ⟨u, hu, hl'⟩ := List.mem_filterMap.1 hmem
  obtain ⟨d, hd, rfl⟩ := Option.map_eq_some_iff.1 hl'
  obtain ⟨s, hs, -⟩ := Option.bind_eq_some_iff.1 hd
  have hlt : (t.connect u d).pending.length < t.pending.length := by
    simp only [connect, hs, pending_addReference, pending_link]
    have := List.length_erase_of_mem hu
    have := List.length_pos_of_mem hu
    omega
  rw [hl]
  exact Nat.lt_of_le_of_lt (length_pending_connectAll_le _ links) hlt

/-- The tree with accesses and dotted types linked until nothing more is found. -/
def connectMembers (maxDepth : Nat) (t : SymbolTree) : SymbolTree :=
  if _h : t.memberTargets maxDepth = [] then t
  else connectMembers maxDepth (t.connectAll (t.memberTargets maxDepth))
termination_by t.pending.length
decreasing_by exact t.length_pending_connectAll_memberTargets_lt maxDepth _h

end SymbolTree

/-- A tree while its names are being linked. -/
structure Growth where
  tree : SymbolTree
  /-- The contracts of which a base is missing so far, the oldest first. -/
  waiting : List NodeId

namespace Growth

variable (maxDepth : Nat) (g : Growth)

/-- Whether a use stands in a waiting contract and does not name its base. -/
def isHeld (usage : NodeId) : Bool :=
  ! g.tree.isBaseName usage && g.waiting.any (g.tree.isInside usage)

/-- The declaration takes the pending uses in its scope that can mean it. -/
def claim (declaration : NodeId) : Growth :=
  match g.tree.enclosingScope? declaration, g.tree.symbol? declaration with
  | some scope, some d =>
    let claimed := (g.tree.pendingByName scope).filter fun u =>
      (g.tree.symbol? u).any d.accepts && ! g.isHeld u
    { g with tree := claimed.foldl (·.connectTo · declaration) g.tree }
  | _, _ => g

/-- The tree with the bases of a contract linked to what is declared around it, and whether
all of them are. -/
def closeBases (contract : NodeId) (t : SymbolTree) : SymbolTree × Bool :=
  let (t, left) := SymbolTree.connectFound (fun t u => t.meantAround? u contract) t
    ((t.pendingByName contract).filter t.isBaseName)
  (t, left.isEmpty)

/-- The tree with the other pending uses inside a contract linked to what its bases declare,
or else to what is declared around it. -/
def closeUses (contract : NodeId) (t : SymbolTree) : SymbolTree :=
  let uses := (t.pendingByName contract).filter (! t.isBaseName ·)
  let (t, left) := SymbolTree.connectFound (fun t u =>
    (t.alone.inherited? maxDepth (t.handle contract) u).map Handle.node) t uses
  -- What a base declares has been tried for all uses before anything around the contract is.
  (SymbolTree.connectFound (fun t u => t.meantAround? u contract) t left).1

/-- The contract deals with the pending uses inside it, or waits. -/
def close (contract : NodeId) : Growth :=
  match closeBases contract g.tree with
  | (t, true) => { g with tree := closeUses maxDepth contract t }
  | (t, false) => ⟨t, g.waiting ++ [contract]⟩

/-- The waiting contracts deal with the pending uses inside them. -/
def closeWaiting : Growth where
  tree := g.waiting.foldl (fun t c => closeUses maxDepth c (closeBases c t).1) g.tree
  waiting := []

/-- The use is linked to what it can mean inside its contract, or becomes pending. -/
def lookUp (usage : NodeId) (s : Symbol) : Growth :=
  let found := if s.isByName then g.tree.meantInContract? s usage else none
  match found with
  | some d => { g with tree := g.tree.connectTo usage d }
  | none => { g with tree := g.tree.enqueue usage }

/-- The declaration lists itself as its type. -/
def declare (id : NodeId) : Growth :=
  { g with tree := g.tree.modify id fun s =>
      { s with declaredType := s.declaredType ++ [g.tree.handle id] } }

/-- The node takes part in the linking, according to what it is. -/
def accept (id : NodeId) : Growth :=
  match g.tree.symbol? id with
  | none => g
  | some s =>
    let g := if s.kind = .contractDefinition then g.close maxDepth id else g
    let g := if s.isDeclaration then (g.declare id).claim id else g
    let g := if s.isUsage then g.lookUp id s else g
    if s.kind = .sourceUnit then
      let g := g.closeWaiting maxDepth
      { g with tree := g.tree.connectMembers maxDepth }
    else g

/-- The node is dealt with and attached to the node around it. -/
def settle (id : NodeId) : Growth :=
  let g := g.accept maxDepth id
  match g.tree.parent? id with
  | some p => { g with tree := g.tree.attach p id }
  | none => g

end Growth

/-- How many steps of inheritance are followed if nothing else is said. -/
def defaultMaxDepth : Nat := 64

/-- The symbols of a file, linked to each other as far as possible. -/
def SymbolTree.grow (maxDepth : Nat) (file : FileId) (generation : Nat) (m : LineMap)
    (tree : SyntaxTree) : SymbolTree :=
  ((settlingOrder 0 tree).foldl (Growth.settle maxDepth)
    ⟨.planted file generation m tree, []⟩).tree

end SolidityAtlas
