import SolidityAtlas.Syntax.Parse

/-!
# The steps of a reading

The rules of the grammar do a handful of things to a draft: they take trivia or a token,
note a fault, open a node, or close one. `Draft.Steps` says which drafts these steps lead
to from a given one. Whatever all of the steps keep holds of every draft that a text
leads to, so the rules have to be gone through only once.

The rules leave it to later goals to close what they open. So it must be known for every
goal what it needs of the open nodes and what it makes of them: `Goal.Leads`. A row of goals
*leads* from some open nodes to others, and each rule replaces a goal by goals that lead to
the same ones.

Where a node of a certain kind may be opened is part of the relation. A directive or a
contract is opened directly in the root, and a node that is opened at a mark, which takes
in children that are there already, is opened inside another one. So all goals but `items`
must be pursued inside an open node.

Where a token may be taken as a name is part of it too. That depends on the open node it comes
to stand in. A node that is opened at a mark must not take a name out of the node around it,
and so an open node is known with the place up to which it has names (`OpenNode.named`); a goal
with a mark needs the mark to be behind that place.

## Main Definitions

* `NodeKind.opensAt`: whether a node of a kind may be opened at a depth
* `TokenKind.isNameIn`, `NodeKind.TakesNames`: where in a node of a kind tokens are names
* `OpenNode`: what is known of an open node
* `Draft.Steps`: the drafts that steps lead to, with the nodes that are open in the root
* `Goal.Leads`, `Goal.LeadAll`: the open nodes after goals have been pursued
* `Pursuit.Keeps`: the draft comes from steps, and its goals lead to certain open nodes

## Main Results

* `Draft.Steps.named_le_mark`: the names of an open node are among its children
* `Draft.before?_bump`: the token that is taken last
-/

namespace SolidityAtlas

/-- Whether a node of a kind may be opened when `depth` nodes are open in the root. -/
def NodeKind.opensAt (depth : Nat) : NodeKind → Bool
  | sourceUnit => false
  | importDirective | contractDefinition | pragmaDirective => depth == 0
  | _ => true

/-! ## Names -/

/-- Whether a token is a name when it stands directly in a node of kind `node`, behind the token
`before` in the same node. A word that is reserved only in certain places begins or continues some
directives and definitions and is no name there. As an expression `type` is a name as well, and
behind a dot so is every reserved word. -/
def TokenKind.isNameIn : (node : NodeKind) → (before : Option TokenKind) → TokenKind → Bool
  | .identifier, _, k => k.isName || k == .typeKw
  | .memberAccess, before, k => before == some .dot && (k.isName || k.isKeyword)
  | .importDirective, before, k => (before == some .asKw || before == some .star) && k.isName
  | .functionDefinition, before, k => before == some .functionKw && k.isName
  | .customErrorDefinition, before, k => before == some .errorKw && k.isName
  | .importSymbol, _, k | .contractDefinition, _, k | .structDefinition, _, k
  | .enumDefinition, _, k | .enumValue, _, k | .eventDefinition, _, k | .modifierDefinition, _, k
  | .modifierInvocation, _, k | .userDefinedValueTypeDefinition, _, k
  | .userDefinedTypeName, _, k | .variableDeclaration, _, k | .mapping, _, k
  | .namedArgument, _, k | .catchClause, _, k => k.isName
  | _, _, _ => false

/-- Whether every word that may be a name is one in this place. -/
def NodeKind.TakesNames (node : NodeKind) (before : Option TokenKind) : Prop :=
  ∀ k : TokenKind, k.isName = true → k.isNameIn node before = true

/-- Variables and mappings take every word that may be a name. -/
theorem NodeKind.takesNames_of_eq {node : NodeKind} (before : Option TokenKind)
    (h : node = .variableDeclaration ∨ node = .mapping) : node.TakesNames before := by
  rcases h with rfl | rfl
  · exact fun _ => id
  · exact fun _ => id

/-- The kind of a tree that is a token and not trivia. -/
def SyntaxTree.solidKind? : SyntaxTree → Option TokenKind
  | leaf k _ => if k.isTrivia then none else some k
  | node _ _ => none

/-- The last token of a row of trees that is not trivia, nodes left out; `before` if there is
none. -/
def SyntaxTree.lastSolid? (before : Option TokenKind) (ts : List SyntaxTree) : Option TokenKind :=
  ts.foldl (fun last t => t.solidKind?.or last) before

/-- The last token that is not trivia and stands directly in an open node. -/
def Frame.before? (f : Frame) : Option TokenKind :=
  SyntaxTree.lastSolid? none f.taken.reverse

/-- What is known of an open node. -/
structure OpenNode where
  kind : NodeKind
  /-- The names that stand directly in the node are among its first `named` children. -/
  named : Nat

namespace Draft

/-! ## Steps -/

/-- The drafts that reading leads to from `start`, with the nodes that are open in the root, from
the inside out. What is known of the names in a node may be forgotten. -/
inductive Steps (start : Draft) : List OpenNode → Draft → Prop where
  | start : Steps start [] start
  | skipTrivia {nodes d} : Steps start nodes d → Steps start nodes d.skipTrivia
  | bump {nodes d} : Steps start nodes d → Steps start nodes d.bump
  | name {o nodes d} : Steps start (o :: nodes) d →
      (named : d.kind.isNameIn o.kind d.top.before? = true) →
      Steps start (⟨o.kind, (d.bumpAs .ident).mark⟩ :: nodes) (d.bumpAs .ident)
  | forget {o nodes d} : Steps start (o :: nodes) d → Steps start (⟨o.kind, d.mark⟩ :: nodes) d
  | fault {nodes d} : Steps start nodes d → (cause : FaultCause) →
      Steps start nodes (d.fault cause)
  | openNode {nodes d} : Steps start nodes d → (k : NodeKind) →
      (opens : k.opensAt nodes.length = true) → Steps start (⟨k, 0⟩ :: nodes) (d.openNode k)
  | openAt {o nodes d} : Steps start (o :: nodes) d → {mark : Nat} → (behind : o.named ≤ mark) →
      (k : NodeKind) → (opens : k.opensAt (nodes.length + 1) = true) →
      Steps start (⟨k, 0⟩ :: o :: nodes) (d.openAt mark k)
  | close {o nodes d} : Steps start (o :: nodes) d → Steps start nodes d.close

variable {d : Draft}

/-! ### Where names are -/

/-- The names of open nodes are among the children that they have. -/
def NamedWithin : List OpenNode → Frame → List Frame → Prop
  | [], _, _ => True
  | _ :: _, _, [] => False
  | o :: nodes, f, f' :: fs => o.named ≤ f.taken.length ∧ NamedWithin nodes f' fs

/-- Names stay among the children while there are more of these. -/
theorem NamedWithin.mono {nodes : List OpenNode} {f f' : Frame} {fs : List Frame}
    (h : NamedWithin nodes f fs) (hlength : f.taken.length ≤ f'.taken.length) :
    NamedWithin nodes f' fs := by
  match nodes, fs, h with
  | [], _, _ => trivial
  | _ :: _, _ :: _, h => exact ⟨Nat.le_trans h.1 hlength, h.2⟩

/-- The innermost open node may get more names. -/
theorem NamedWithin.renew {nodes : List OpenNode} {o : OpenNode} {f f' : Frame} {fs : List Frame}
    (h : NamedWithin (o :: nodes) f fs) (k : NodeKind) :
    NamedWithin (⟨k, f'.taken.length⟩ :: nodes) f' fs := by
  match fs, h with
  | _ :: _, h => exact ⟨Nat.le_refl _, h.2⟩

/-- A node that is opened has no names yet. -/
theorem NamedWithin.opened {nodes : List OpenNode} {f : Frame} {fs : List Frame}
    (h : NamedWithin nodes f fs) (f' : Frame) (k : NodeKind) :
    NamedWithin (⟨k, 0⟩ :: nodes) f' (f :: fs) :=
  ⟨Nat.zero_le _, h⟩

/-- What a mark behind the names leaves in a node has all of them. -/
theorem NamedWithin.cut {nodes : List OpenNode} {o : OpenNode} {f : Frame} {fs : List Frame}
    (h : NamedWithin (o :: nodes) f fs) {mark : Nat} (hmark : o.named ≤ mark) :
    NamedWithin (o :: nodes) { f with taken := f.taken.drop (f.taken.length - mark) } fs := by
  match fs, h with
  | _ :: _, h =>
      have hle := h.1
      refine ⟨?_, h.2⟩
      show o.named ≤ (f.taken.drop (f.taken.length - mark)).length
      rw [List.length_drop]
      omega

/-- A node that is closed leaves the names of the node around it among the children. -/
theorem NamedWithin.closed {nodes : List OpenNode} {o : OpenNode} {f f' : Frame}
    {fs : List Frame} (h : NamedWithin (o :: nodes) f (f' :: fs)) (t : SyntaxTree) :
    NamedWithin nodes { f' with taken := t :: f'.taken } fs :=
  h.2.mono (Nat.le_succ _)

/-- Taking a token leaves no fewer children. -/
theorem mark_le_mark_take (f : Token → SyntaxTree) : d.mark ≤ (d.take f).mark := by
  unfold take
  split
  · exact Nat.le_refl _
  · exact Nat.le_succ _

theorem outer_take (f : Token → SyntaxTree) : (d.take f).outer = d.outer := by
  unfold take
  split <;> rfl

theorem mark_le_mark_skipTrivia : d.mark ≤ d.skipTrivia.mark := by
  simp [mark, skipTrivia]

/-- Taking a token with the trivia in front of it leaves no fewer children. -/
theorem mark_le_mark_skipAndTake (f : Token → SyntaxTree) : d.mark ≤ (d.skipTrivia.take f).mark :=
  Nat.le_trans mark_le_mark_skipTrivia (mark_le_mark_take f)

namespace Steps

variable {start : Draft} {o : OpenNode} {nodes : List OpenNode}

/-- Whatever the steps were, the names of the open nodes stand among their children. -/
theorem namedWithin (h : Steps start nodes d) : NamedWithin nodes d.top d.outer := by
  induction h with
  | start => trivial
  | skipTrivia _ ih => exact ih.mono mark_le_mark_skipTrivia
  | bump _ ih =>
      rw [Draft.bump, outer_take]
      exact ih.mono (mark_le_mark_skipAndTake _)
  | @name o nodes d _ _ ih =>
      have houter : (d.bumpAs .ident).outer = d.outer := outer_take _
      rw [houter]
      exact ih.renew o.kind
  | @forget o nodes d _ ih => exact ih.renew o.kind
  | fault _ _ ih => exact ih
  | openNode _ k _ ih => exact (ih.mono mark_le_mark_skipTrivia).opened _ k
  | openAt _ behind k _ ih => exact (ih.cut behind).opened _ k
  | @close o nodes d _ ih =>
      unfold Draft.close
      split
      · -- A node is open in the root, so what is closed is not the root.
        rename_i houter
        rw [houter] at ih
        exact ih.elim
      · rename_i houter
        rw [houter] at ih
        exact ih.closed _

/-- A mark that is taken now stands behind all names of the innermost open node. -/
theorem named_le_mark (h : Steps start (o :: nodes) d) : o.named ≤ d.mark := by
  have hwithin := h.namedWithin
  match d.outer, hwithin with
  | _ :: _, hwithin => exact hwithin.1

end Steps

/-! ### The last token -/

/-- The token that is taken after the trivia is the next one. -/
theorem next?_of_rest_skipTrivia {t : Token} {ts : List Token} (h : d.skipTrivia.rest = t :: ts) :
    d.next? = some t := by
  have hsolid : t.isTrivia = false := by
    have hhead := List.head?_dropWhile_not Token.isTrivia d.rest
    rw [show d.rest.dropWhile Token.isTrivia = t :: ts from h] at hhead
    exact hhead
  rw [← next?_skipTrivia, next?, h, firstSolid?, hsolid]
  rfl

/-- The next token is not trivia. -/
theorem not_isTrivia_of_next? {t : Token} (h : d.next? = some t) : t.isTrivia = false := by
  obtain ⟨ts, hts⟩ := dropWhile_of_firstSolid? h
  have hhead := List.head?_dropWhile_not Token.isTrivia d.rest
  rw [hts] at hhead
  exact hhead

/-- The next token tells what is there. -/
theorem kind_of_next? {t : Token} (h : d.next? = some t) : d.kind = t.kind := by
  rw [kind, h]
  rfl

/-- The next token, if there is one, is the last that has been taken when it is taken. -/
theorem before?_bump (hend : d.atEnd = false) : d.bump.top.before? = some d.kind := by
  cases hrest : d.skipTrivia.rest with
  | nil =>
      rw [← atEnd_skipTrivia, atEnd, next?, hrest] at hend
      cases hend
  | cons t ts =>
      have hnext := next?_of_rest_skipTrivia hrest
      have hsolid : t.kind.isTrivia = false := not_isTrivia_of_next? hnext
      have hbump : d.bump.top.taken = leafOf t :: d.skipTrivia.top.taken := by
        rw [bump, take, hrest]
        rfl
      rw [kind_of_next? hnext, Frame.before?, hbump, List.reverse_cons, SyntaxTree.lastSolid?,
        List.foldl_append]
      simp [leafOf, SyntaxTree.solidKind?, hsolid]

/-- A token that was seen is the last one when it has been taken. -/
theorem before?_bump_of_kind {k : TokenKind} (hk : k ≠ .error) (h : d.kind = k) :
    d.bump.top.before? = some k := by
  rw [before?_bump (atEnd_of_kind_ne (h ▸ hk)), h]

/-- Behind an expected token it is the last one, or nothing has been taken. -/
theorem before?_expect {k : TokenKind} (hk : k ≠ .error) :
    (d.expect k).top.before? = some k ∨ (d.expect k).top.before? = d.top.before? := by
  unfold expect
  split
  · rename_i hat
    exact .inl (before?_bump_of_kind hk (eq_of_beq hat))
  · exact .inr rfl

/-! ### Sequences of steps -/

namespace Steps

variable {start : Draft} {o : OpenNode} {nodes : List OpenNode}

/-- A token is taken in steps, or none is. -/
theorem eat (h : Steps start nodes d) (k : TokenKind) : Steps start nodes (d.eat k) := by
  unfold Draft.eat
  split
  · exact h.bump
  · exact h

theorem expect (h : Steps start nodes d) (k : TokenKind) : Steps start nodes (d.expect k) := by
  unfold Draft.expect
  split
  · exact h.bump
  · exact h.fault _

/-- A name is wanted where every word that may be a name is one. -/
theorem expectName (h : Steps start (o :: nodes) d)
    (hnames : o.kind.TakesNames d.top.before?) :
    Steps start (⟨o.kind, d.expectName.mark⟩ :: nodes) d.expectName := by
  unfold Draft.expectName
  split
  · rename_i hname
    exact h.name (hnames _ hname)
  · exact (h.fault _).forget

/-- A name is taken in a step where a node takes names. -/
theorem eatName (h : Steps start (o :: nodes) d)
    (hnames : o.kind.TakesNames d.top.before?) :
    Steps start (⟨o.kind, d.eatName.mark⟩ :: nodes) d.eatName := by
  unfold Draft.eatName
  split
  · rename_i hname
    exact h.name (hnames _ hname)
  · exact h.forget

theorem bumpWhile (h : Steps start nodes d) (p : TokenKind → Bool) :
    Steps start nodes (d.bumpWhile p) := by
  fun_induction Draft.bumpWhile p d with
  | case1 d hmore ih => exact ih h.bump
  | case2 d hdone => exact h

theorem skipTo (h : Steps start nodes d) (stops : List TokenKind) :
    Steps start nodes (d.skipTo stops) :=
  h.bumpWhile _

theorem bumpBalanced (h : Steps start nodes d) (opening closing : TokenKind) (depth : Nat) :
    Steps start nodes (d.bumpBalanced opening closing depth) := by
  fun_induction Draft.bumpBalanced opening closing depth d with
  | case1 _ _ _ _ ih => exact ih h.bump
  | case2 => exact h.bump
  | case3 _ _ _ _ _ _ ih => exact ih h.bump
  | case4 _ _ _ _ _ ih => exact ih h.bump
  | case5 => exact h.fault _

/-- A recovery is made of steps. -/
theorem recover (h : Steps start nodes d) (cause : FaultCause) (stops : List TokenKind) :
    Steps start nodes (d.recover cause stops) := by
  have hopened := (h.fault cause).openNode .error rfl
  unfold Draft.recover
  simp only
  split
  · exact hopened.bump.close
  · exact (hopened.skipTo stops).close

end Steps

end Draft

/-! ## Where goals lead -/

namespace Goal

/-- Whether the innermost open node is closed when a goal and all that it leads to have been
pursued. The other goals leave the open nodes as they are. -/
def closes : Goal → Bool
  | close | importSymbols | bases | moreBases | contractBody | members | fields | fieldEnd
  | enumValues | eventEnd | modifierAttributes | functionAttributes | overrideNames | usingNames
  | usingFor | usingEnd | stateVariableAttributes | initialiser | parameterRow | parameterEnd
  | moreParameters | mappingEnd | functionTypeEnd | arguments | moreArguments | namedValues
  | moreNamedValues | tupleItems _ _ | moreTupleItems _ _ | statements | elseBranch | doWhileEnd
  | catches | localEnd => true
  | _ => false

/-- A goal may be pursued with certain nodes open, and whatever nodes are open afterwards satisfy
`after`. The members of a file are pursued in the root, all other goals inside an open node. A goal
that takes a name fits only in a node that has one, and a goal with a mark only behind the names of
the node. -/
def Leads (after : List OpenNode → Prop) : Goal → List OpenNode → Prop
  | items, [] => after []
  | items, _ :: _ => False
  | _, [] => False
  | fieldEnd, o :: nodes | parameterEnd, o :: nodes | localEnd, o :: nodes
  | stateVariableAttributes, o :: nodes => o.kind = .variableDeclaration ∧ after nodes
  | mappingArrow, o :: nodes => o.kind = .mapping ∧ ∀ n, after (⟨o.kind, n⟩ :: nodes)
  | mappingEnd, o :: nodes => o.kind = .mapping ∧ after nodes
  | arraySuffix mark, o :: nodes | operators mark _, o :: nodes | suffixes mark _, o :: nodes
  | indexMiddle mark, o :: nodes => o.named ≤ mark ∧ after (o :: nodes)
  | indexEnd mark k, o :: nodes =>
    (o.named ≤ mark ∧ k.opensAt (nodes.length + 1) = true) ∧ after (o :: nodes)
  | g, o :: nodes => after (if g.closes then nodes else o :: nodes)

theorem Leads.mono {after after' : List OpenNode → Prop}
    (hafter : ∀ nodes, after nodes → after' nodes) {g : Goal} {nodes : List OpenNode}
    (h : g.Leads after nodes) : g.Leads after' nodes := by
  cases nodes with
  | nil =>
      cases g with
      | items => exact hafter _ h
      | _ => exact h.elim
  | cons o nodes =>
      cases g with
      | items => exact h.elim
      | mappingArrow => exact ⟨h.1, fun n => hafter _ (h.2 n)⟩
      | fieldEnd | parameterEnd | localEnd | stateVariableAttributes | mappingEnd
      | arraySuffix | operators | suffixes | indexMiddle | indexEnd =>
          exact ⟨h.1, hafter _ h.2⟩
      | _ => exact hafter _ h

/-- The goals of a row may be pursued one after the other with certain nodes open, and whatever
nodes are open afterwards satisfy `after`. -/
def LeadAll (after : List OpenNode → Prop) : List Goal → List OpenNode → Prop
  | [], nodes => after nodes
  | g :: gs, nodes => g.Leads (LeadAll after gs) nodes

/-- A row of goals leads to where the goals behind it lead on from. -/
theorem leadAll_append (after : List OpenNode → Prop) (gs hs : List Goal) :
    LeadAll after (gs ++ hs) = LeadAll (LeadAll after hs) gs := by
  induction gs with
  | nil => rfl
  | cons g gs ih => exact congrArg (fun P => g.Leads P) ih

theorem LeadAll.mono {after after' : List OpenNode → Prop}
    (hafter : ∀ nodes, after nodes → after' nodes) {gs : List Goal} {nodes : List OpenNode}
    (h : LeadAll after gs nodes) : LeadAll after' gs nodes := by
  induction gs generalizing nodes with
  | nil => exact hafter nodes h
  | cons g gs ih => exact Leads.mono (fun _ => ih) h

end Goal

namespace Pursuit

variable {start : Draft} {p : Pursuit} {nodes nodes' : List OpenNode}

/-- The draft comes from steps, and its goals lead to certain open nodes. -/
def Keeps (start : Draft) (nodes : List OpenNode) (p : Pursuit) : Prop :=
  ∃ now, Draft.Steps start now p.1 ∧ Goal.LeadAll (· = nodes) p.2 now

/-- A draft in which nothing is left to be pursued. -/
theorem Keeps.done {d : Draft} (h : Draft.Steps start nodes d) : Keeps start nodes (d, []) :=
  ⟨nodes, h, rfl⟩

/-- What a rule leaves comes from steps, and leads on. -/
theorem Keeps.leads (h : p.Keeps start nodes) {after : List OpenNode → Prop}
    (hafter : after nodes) : ∃ now, Draft.Steps start now p.1 ∧ Goal.LeadAll after p.2 now := by
  obtain ⟨now, hnow, hleads⟩ := h
  exact ⟨now, hnow, hleads.mono fun _ heq => heq ▸ hafter⟩

/-- Goals may be put behind what a rule leaves. -/
theorem Keeps.andThen (h : p.Keeps start nodes) {gs : List Goal}
    (hgs : Goal.LeadAll (· = nodes') gs nodes) : (p.andThen gs).Keeps start nodes' := by
  obtain ⟨now, hnow, hleads⟩ := h.leads hgs
  rw [← Goal.leadAll_append] at hleads
  exact ⟨now, hnow, hleads⟩

end Pursuit

end SolidityAtlas
