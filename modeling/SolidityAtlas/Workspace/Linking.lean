import SolidityAtlas.Symbol.Growth
import SolidityAtlas.Workspace.Offers

/-!
# Linking across files

The uses of a file that have found no declaration in it are looked up in the other
files. This is done in three phases, because one kind of use may need the links of
another:

1. the symbols that imports list, and the names of bases;
2. other uses that are looked up by name: first in the bases of the contract
   around them, then in what the imports bring in;
3. accesses and dotted types.

The first and the third phase are repeated until they find nothing more, and all
three together until none does. Each link takes a use out of the pending ones, so
this comes to an end.

## Main Definitions

* `Phase`, `SymbolTree.phaseOf`
* `Snapshot.linksIn`: the links that a phase finds
* `Snapshot.linkFile`: the snapshot with all uses of a file linked, and how many
-/

namespace SolidityAtlas

/-- What is looked up together. -/
inductive Phase where
  | imports | names | members
deriving DecidableEq, Inhabited

/-- The phase in which a use is looked up. -/
def SymbolTree.phaseOf (t : SymbolTree) (usage : NodeId) (u : Symbol) : Phase :=
  if u.kind = .importSymbol then .imports
  else if ! u.isByName then .members
  else if u.kind = .userDefinedTypeName ∧ t.isBaseName usage then .imports
  else .names

namespace Snapshot

variable (s : Snapshot) (maxDepth : Nat)

/-- What reaches a file through its imports and can be what a use refers to. -/
def importedFor? (file : FileId) (u : Symbol) : Option Handle :=
  u.name.bind fun name => s.imported? [file] file name (·.acceptsKind u)

/-- What a use refers to that is looked up in the first phase. -/
def importTargetOf? (t : SymbolTree) (usage : NodeId) (u : Symbol) : Option Handle :=
  if u.kind = .importSymbol then s.symbolTarget? t.file usage
  else s.importedFor? t.file u

/-- What a use refers to that is looked up in the second phase. -/
def nameTargetOf? (t : SymbolTree) (usage : NodeId) (u : Symbol) : Option Handle :=
  ((t.enclosingContract? usage).bind fun c => s.forest.inherited? maxDepth (t.handle c) u).or
    (s.importedFor? t.file u)

/-- What a use refers to that is looked up in the third phase. -/
def memberTargetOf? (t : SymbolTree) (usage : NodeId) (u : Symbol) : Option Handle :=
  match u.detail with
  | .plain .memberAccess => s.forest.resolveAccess? maxDepth (t.handle usage)
  | .typePath path =>
    s.forest.dottedTarget? maxDepth
      (fun first => s.imported? [t.file] t.file first (·.kind.hasMembers)) (t.handle usage) path
  | _ => none

/-- What a use refers to, looked up in the way of its phase. -/
def targetOf? (phase : Phase) (t : SymbolTree) (usage : NodeId) (u : Symbol) : Option Handle :=
  match phase with
  | .imports => s.importTargetOf? t usage u
  | .names => s.nameTargetOf? maxDepth t usage u
  | .members => s.memberTargetOf? maxDepth t usage u

/-- The link that a phase finds for a pending use, if it is of that phase. -/
def linkFor? (phase : Phase) (t : SymbolTree) (usage : NodeId) : Option (NodeId × Handle) :=
  ((t.symbol? usage).filter fun u => t.phaseOf usage u == phase).bind fun u =>
    (s.targetOf? maxDepth phase t usage u).map fun d => (usage, s.forest.target u d)

/-- The links that a phase finds for the pending uses of a file. -/
def linksIn (phase : Phase) (file : FileId) : List (NodeId × Handle) :=
  match s.tree? file with
  | some t => t.pending.filterMap (s.linkFor? maxDepth phase t)
  | none => []

/-- The snapshot with a use of a file linked, at both ends. -/
def addLink (file : FileId) (l : NodeId × Handle) : Snapshot :=
  match s.tree? file with
  | none => s
  | some t =>
    let linked := s.modifyTree file (·.linkExternal l.1 l.2)
    -- The declaration can be in the same file, so it is looked up behind the first change.
    if (linked.symbol? l.2).isSome then
      linked.modifyTree l.2.file (·.addReference l.2.node (t.handle l.1))
    else linked

/-- The snapshot with uses of a file linked. -/
def addLinks (file : FileId) (links : List (NodeId × Handle)) : Snapshot :=
  links.foldl (·.addLink file ·) s

/-! ### Links leave fewer uses pending -/

/-- The number of uses of a file without a declaration. -/
def pendingCount (file : FileId) : Nat :=
  match s.tree? file with
  | some t => t.pending.length
  | none => 0

/-- The pending uses of a file are counted in its tree. -/
theorem pendingCount_eq {file : FileId} {t : SymbolTree} (h : s.tree? file = some t) :
    s.pendingCount file = t.pending.length := by
  simp [pendingCount, h]

/-- A link takes its use from the count. -/
theorem pendingCount_addLink {file : FileId} {t : SymbolTree} (h : s.tree? file = some t)
    (l : NodeId × Handle) :
    (s.addLink file l).pendingCount file = (t.pending.erase l.1).length := by
  have hlinked : (s.modifyTree file (·.linkExternal l.1 l.2)).tree? file =
      some (t.linkExternal l.1 l.2) := by simp [h]
  unfold addLink
  simp only [h]
  split
  · by_cases hf : l.2.file = file
    · rw [pendingCount, tree?_modifyTree, hf]
      simp [hlinked]
    · rw [pendingCount, tree?_modifyTree, if_neg (Ne.symm hf), hlinked]
      simp
  · simp [pendingCount, hlinked]

theorem pendingCount_addLink_le (file : FileId) (l : NodeId × Handle) :
    (s.addLink file l).pendingCount file ≤ s.pendingCount file := by
  cases h : s.tree? file with
  | none => simp [addLink, h]
  | some t =>
    rw [s.pendingCount_addLink h, s.pendingCount_eq h]
    exact List.length_erase_le

theorem pendingCount_addLinks_le (file : FileId) (links : List (NodeId × Handle)) :
    (s.addLinks file links).pendingCount file ≤ s.pendingCount file := by
  induction links generalizing s with
  | nil => exact Nat.le_refl _
  | cons l links ih => exact Nat.le_trans (ih (s.addLink file l)) (s.pendingCount_addLink_le file l)

/-- What a phase finds takes uses out of the pending ones. -/
theorem pendingCount_addLinks_linksIn_lt (phase : Phase) (file : FileId)
    (h : s.linksIn maxDepth phase file ≠ []) :
    (s.addLinks file (s.linksIn maxDepth phase file)).pendingCount file < s.pendingCount file := by
  obtain ⟨l, links, hl⟩ := List.exists_cons_of_ne_nil h
  cases ht : s.tree? file with
  | none => simp [linksIn, ht] at h
  | some t =>
    have hmem : l ∈ t.pending.filterMap (s.linkFor? maxDepth phase t) := by
      have : l ∈ s.linksIn maxDepth phase file := by simp [hl]
      simpa [linksIn, ht] using this
    obtain ⟨usage, husage, hfor⟩ := List.mem_filterMap.1 hmem
    have hl1 : l.1 = usage := by
      obtain ⟨u, -, hu⟩ := Option.bind_eq_some_iff.1 hfor
      obtain ⟨d, -, rfl⟩ := Option.map_eq_some_iff.1 hu
      rfl
    rw [hl]
    refine Nat.lt_of_le_of_lt (pendingCount_addLinks_le _ file links) ?_
    rw [s.pendingCount_addLink ht, s.pendingCount_eq ht, hl1, List.length_erase_of_mem husage]
    exact Nat.sub_lt (List.length_pos_of_mem husage) Nat.one_pos

/-! ### Phases and rounds -/

/-- The snapshot after a phase has been repeated until it finds nothing more, and the number
of links. -/
def exhaust (maxDepth : Nat) (phase : Phase) (file : FileId) (s : Snapshot) : Snapshot × Nat :=
  let links := s.linksIn maxDepth phase file
  if _h : links = [] then (s, 0)
  else
    let (linked, n) := exhaust maxDepth phase file (s.addLinks file links)
    (linked, links.length + n)
termination_by s.pendingCount file
decreasing_by exact s.pendingCount_addLinks_linksIn_lt maxDepth phase file _h

/-- The snapshot after one round of all phases, and the number of links. -/
def linkRound (maxDepth : Nat) (file : FileId) (s : Snapshot) : Snapshot × Nat :=
  let (s, imports) := s.exhaust maxDepth .imports file
  let names := s.linksIn maxDepth .names file
  let (s, members) := (s.addLinks file names).exhaust maxDepth .members file
  (s, imports + names.length + members)

/-- A phase leaves no more uses pending. -/
theorem pendingCount_exhaust_le (phase : Phase) (file : FileId) :
    (s.exhaust maxDepth phase file).1.pendingCount file ≤ s.pendingCount file := by
  fun_induction exhaust maxDepth phase file s with
  | case1 => exact Nat.le_refl _
  | case2 s links h linked n hn ih =>
    rw [hn] at ih
    exact Nat.le_trans ih (s.pendingCount_addLinks_le file links)

/-- A phase that has linked something leaves fewer uses pending. The rounds end by this. -/
theorem pendingCount_exhaust_lt (phase : Phase) (file : FileId)
    (h : (s.exhaust maxDepth phase file).2 ≠ 0) :
    (s.exhaust maxDepth phase file).1.pendingCount file < s.pendingCount file := by
  rw [exhaust] at h ⊢
  split
  · simp_all
  · rename_i hl
    exact Nat.lt_of_le_of_lt (pendingCount_exhaust_le _ maxDepth phase file)
      (s.pendingCount_addLinks_linksIn_lt maxDepth phase file hl)

/-- A round that links anything leaves fewer uses pending. -/
theorem pendingCount_linkRound_lt (file : FileId) (h : (s.linkRound maxDepth file).2 ≠ 0) :
    (s.linkRound maxDepth file).1.pendingCount file < s.pendingCount file := by
  simp only [linkRound] at h ⊢
  have h₁ := s.pendingCount_exhaust_le maxDepth .imports file
  have h₁' := s.pendingCount_exhaust_lt maxDepth .imports file
  generalize s.exhaust maxDepth .imports file = p at *
  have h₂ := p.1.pendingCount_addLinks_le file (p.1.linksIn maxDepth .names file)
  have h₂' := p.1.pendingCount_addLinks_linksIn_lt maxDepth .names file
  have h₃ := (p.1.addLinks file (p.1.linksIn maxDepth .names file)).pendingCount_exhaust_le
    maxDepth .members file
  have h₃' := (p.1.addLinks file (p.1.linksIn maxDepth .names file)).pendingCount_exhaust_lt
    maxDepth .members file
  generalize (p.1.addLinks file (p.1.linksIn maxDepth .names file)).exhaust maxDepth .members file =
    q at *
  by_cases hp : p.2 = 0
  · by_cases hn : p.1.linksIn maxDepth .names file = []
    · have : q.2 ≠ 0 := by simp_all
      have := h₃' this
      omega
    · have := h₂' hn
      omega
  · have := h₁' hp
    omega

/-- The snapshot with the uses of a file linked as far as possible, and the number of links. -/
def linkFile (maxDepth : Nat) (file : FileId) (s : Snapshot) : Snapshot × Nat :=
  let r := s.linkRound maxDepth file
  if _h : r.2 = 0 then (r.1, 0)
  else
    let (linked, n) := linkFile maxDepth file r.1
    (linked, r.2 + n)
termination_by s.pendingCount file
decreasing_by exact s.pendingCount_linkRound_lt maxDepth file _h

end Snapshot

end SolidityAtlas
