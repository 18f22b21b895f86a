import Mathlib.Data.List.Forall2
import SolidityAtlas.Proofs.Syntax.Steps.Members

/-!
# The leaves of a tree and the tokens of a text

A leaf *spells* a token if it has its text, and its kind unless the token is taken as a name
in the place in which the leaf stands. Every draft that steps of a reading lead to spells what
has been read so far: its leaves spell, one after the other, the tokens that are no longer
in the rest (`Draft.Steps.spelled`).

A node that is opened at a mark takes leaves out of the node in which they stood. None of them
is a name, for the names of a node are in front of all marks that are used in it. So only the
children in front of that place are known to be spelled where they are, and the others are
spelled wherever they will be.

## Main Definitions

* `SyntaxTree.Leaf`, `SyntaxTree.leavesIn`: the tokens of a tree in their places
* `SyntaxTree.Leaf.Spells`: a leaf is for a token
* `SyntaxTree.Reads`: the trees of a row are for the tokens of a row
* `Draft.Spelled`: what is in a draft is for the tokens that it has taken

## Main Results

* `SyntaxTree.Reads.forall₂_spells`: leaf by leaf, trees spell what they are for
* `Draft.Steps.spelled`: steps of a reading keep drafts spelled
-/

namespace SolidityAtlas

namespace SyntaxTree

/-! ## Leaves in their places -/

/-- A token of a tree. -/
structure Leaf where
  /-- The kind of the node in which it stands directly, if it does not stand alone. -/
  around : Option NodeKind
  /-- The last token in front of it that stands directly in the same node and is not trivia. -/
  before : Option TokenKind
  kind : TokenKind
  text : String

mutual

/-- The tokens of a tree that stands in a node of kind `around`, behind the token `before`. -/
def leavesIn (around : Option NodeKind) (before : Option TokenKind) : SyntaxTree → List Leaf
  | leaf kind text => [⟨around, before, kind, text⟩]
  | node kind inner => rowLeavesIn (some kind) none inner

/-- The tokens of a row of trees that stands in a node of kind `around`, behind the token
`before`. -/
def rowLeavesIn (around : Option NodeKind) (before : Option TokenKind) :
    List SyntaxTree → List Leaf
  | [] => []
  | t :: ts => leavesIn around before t ++ rowLeavesIn around (t.solidKind?.or before) ts

end

mutual

/-- The leaves of a tree are its tokens. -/
theorem map_leavesIn (around : Option NodeKind) (before : Option TokenKind) (t : SyntaxTree) :
    (t.leavesIn around before).map (fun l => (l.kind, l.text)) = t.leaves := by
  cases t with
  | leaf kind text => simp [leavesIn, leaves]
  | node kind inner => rw [leavesIn, leaves, map_rowLeavesIn (some kind) none inner]

/-- The leaves of a row carry the kinds and the texts of its tokens. -/
theorem map_rowLeavesIn (around : Option NodeKind) (before : Option TokenKind)
    (ts : List SyntaxTree) :
    (rowLeavesIn around before ts).map (fun l => (l.kind, l.text)) = leavesOf ts := by
  cases ts with
  | nil => simp [rowLeavesIn, leavesOf]
  | cons t ts =>
      rw [rowLeavesIn, List.map_append, map_leavesIn around before t,
        map_rowLeavesIn around (t.solidKind?.or before) ts, leavesOf]

end

/-- A leaf has the text of a token, and its kind unless the token is a name where the leaf
stands. -/
structure Leaf.Spells (l : Leaf) (t : Token) : Prop where
  text : l.text = t.text
  kind : l.kind = t.kind ∨
    l.kind = .ident ∧ ∃ node, l.around = some node ∧ t.kind.isNameIn node l.before = true

/-! ## Trees for tokens -/

/-- The trees of a row that stands in a node of kind `around`, behind the token `before`, have the
tokens of a row as their leaves, in the same order. If there is no node around, no leaf of the row
itself is a name. -/
inductive Reads : (around : Option NodeKind) → (before : Option TokenKind) →
    List SyntaxTree → List Token → Prop
  | nil {around before} : Reads around before [] []
  | leaf {around before kind text t ts us} : Leaf.Spells ⟨around, before, kind, text⟩ t →
      Reads around ((leaf kind text).solidKind?.or before) ts us →
      Reads around before (leaf kind text :: ts) (t :: us)
  | node {around before kind inner vs ts us} : Reads (some kind) none inner vs →
      Reads around before ts us → Reads around before (node kind inner :: ts) (vs ++ us)

namespace Reads

variable {around : Option NodeKind} {before : Option TokenKind} {ts ts' : List SyntaxTree}
  {us us' : List Token}

/-- Rows are read one behind the other. What the last solid token of the first one was decides about
names. -/
theorem append (h : Reads around before ts us)
    (h' : Reads around (lastSolid? before ts) ts' us') :
    Reads around before (ts ++ ts') (us ++ us') := by
  induction h with
  | nil => exact h'
  | leaf hspells _ ih => exact .leaf hspells (ih h')
  | node hinner _ _ ih =>
      rw [List.append_assoc]
      exact .node hinner (ih h')

/-- A row that is read is cut where its trees are. -/
theorem exists_of_append (h : Reads around before (ts ++ ts') us) :
    ∃ vs vs', us = vs ++ vs' ∧ Reads around before ts vs ∧
      Reads around (lastSolid? before ts) ts' vs' := by
  induction ts generalizing us before with
  | nil => exact ⟨[], us, rfl, .nil, h⟩
  | cons t ts ih =>
      cases h with
      | leaf hspells hrest =>
          obtain ⟨vs, vs', rfl, hvs, hvs'⟩ := ih hrest
          exact ⟨_ :: vs, vs', rfl, .leaf hspells hvs, hvs'⟩
      | node hinner hrest =>
          obtain ⟨vs, vs', rfl, hvs, hvs'⟩ := ih hrest
          exact ⟨_ ++ vs, vs', (List.append_assoc _ _ _).symm, .node hinner hvs, hvs'⟩

/-- A row without names of its own may stand anywhere. -/
theorem anywhere (h : Reads none before ts us) (around : Option NodeKind)
    (before' : Option TokenKind) : Reads around before' ts us := by
  generalize hnone : (none : Option NodeKind) = bare at h
  induction h generalizing before' with
  | nil => exact .nil
  | leaf hspells _ ih =>
      subst hnone
      refine .leaf ⟨hspells.text, .inl ?_⟩ (ih _ rfl)
      -- A name is one in a node, and here none is around it.
      rcases hspells.kind with hkind | ⟨-, node, hnode, -⟩
      · exact hkind
      · cases hnode
  | node hinner _ _ ih => exact .node hinner (ih _ hnone)

/-- A token as a leaf. -/
theorem leafOf (around : Option NodeKind) (before : Option TokenKind) (t : Token) :
    Reads around before [Draft.leafOf t] [t] :=
  .leaf ⟨rfl, .inl rfl⟩ .nil

/-- Tokens that were taken as they are read themselves. -/
theorem map_leafOf (around : Option NodeKind) (before : Option TokenKind) (us : List Token) :
    Reads around before (us.map Draft.leafOf) us := by
  induction us generalizing before with
  | nil => exact .nil
  | cons t us ih => exact (leafOf around before t).append (ih _)

/-- Leaf by leaf, trees spell the tokens that they are for. -/
theorem forall₂_spells (h : Reads around before ts us) :
    List.Forall₂ Leaf.Spells (rowLeavesIn around before ts) us := by
  induction h with
  | nil => exact .nil
  | leaf hspells _ ih => exact .cons hspells ih
  | node _ _ ihinner ih => exact List.rel_append ihinner ih

end Reads

/-- Trivia is passed over when the last token is asked for. -/
theorem lastSolid?_trivia {us : List Token} (h : ∀ t ∈ us, t.isTrivia = true)
    (before : Option TokenKind) : lastSolid? before (us.map Draft.leafOf) = before := by
  induction us with
  | nil => rfl
  | cons t us ih =>
      have htrivia : t.kind.isTrivia = true := h t List.mem_cons_self
      have hskip : (Draft.leafOf t).solidKind? = none := if_pos htrivia
      show lastSolid? ((Draft.leafOf t).solidKind?.or before) (us.map Draft.leafOf) = before
      rw [hskip]
      exact ih fun u hu => h u (List.mem_cons_of_mem _ hu)

end SyntaxTree

open SyntaxTree

/-! ## Open nodes -/

/-- The children of an open node are for these tokens. Those up to its last name are spelled where
they are, and those behind it wherever they will be. -/
def Frame.Holds (o : OpenNode) (f : Frame) (us : List Token) : Prop :=
  ∃ front back vs ws, f.taken.reverse = front ++ back ∧ front.length = o.named ∧ us = vs ++ ws ∧
    Reads (some o.kind) none front vs ∧ Reads none none back ws

namespace Frame.Holds

variable {f : Frame} {o : OpenNode} {us : List Token}

/-- What a frame holds is read off its children. -/
theorem reads (h : f.Holds o us) : Reads (some o.kind) none f.taken.reverse us := by
  obtain ⟨front, back, vs, ws, htaken, -, rfl, hfront, hback⟩ := h
  rw [htaken]
  exact hfront.append (hback.anywhere _ _)

/-- A frame holds what its children are read as. -/
theorem of_reads {k : NodeKind} (h : Reads (some k) none f.taken.reverse us) :
    f.Holds ⟨k, f.taken.length⟩ us :=
  ⟨f.taken.reverse, [], us, [], (List.append_nil _).symm, List.length_reverse,
    (List.append_nil _).symm, h, .nil⟩

/-- More children that are no names. -/
theorem extend (h : f.Holds o us) {f' : Frame} {more : List SyntaxTree} {ws : List Token}
    (hmore : Reads none none more ws) (htaken : f'.taken = more.reverse ++ f.taken) :
    f'.Holds o (us ++ ws) := by
  obtain ⟨front, back, vs, vs', hsplit, hlength, rfl, hfront, hback⟩ := h
  refine ⟨front, back ++ more, vs, vs' ++ ws, ?_, hlength, List.append_assoc _ _ _, hfront,
    hback.append (hmore.anywhere _ _)⟩
  rw [htaken, List.reverse_append, List.reverse_reverse, hsplit, List.append_assoc]

/-- What stands behind a mark is spelled wherever it will be, if no name does. -/
theorem cut (h : f.Holds o us) {mark : Nat} (hmark : o.named ≤ mark) :
    ∃ vs ws, us = vs ++ ws ∧
      Frame.Holds o { f with taken := f.taken.drop (f.taken.length - mark) } vs ∧
      Reads none none (f.taken.take (f.taken.length - mark)).reverse ws := by
  obtain ⟨front, back, vs, vs', hsplit, hlength, rfl, hfront, hback⟩ := h
  have hkept : (f.taken.drop (f.taken.length - mark)).reverse ++
      (f.taken.take (f.taken.length - mark)).reverse = f.taken.reverse := by
    rw [← List.reverse_append, List.take_append_drop]
  -- No name stands behind the mark, so what is kept begins with the whole front.
  obtain ⟨mid, hmid⟩ : front <+: (f.taken.drop (f.taken.length - mark)).reverse := by
    apply List.prefix_of_prefix_length_le ⟨back, hsplit.symm⟩ ⟨_, hkept⟩
    have hlengths := congrArg List.length hsplit
    simp only [List.length_reverse, List.length_append, List.length_drop] at hlengths ⊢
    omega
  have hback' : back = mid ++ (f.taken.take (f.taken.length - mark)).reverse := by
    rw [hsplit, ← hmid, List.append_assoc] at hkept
    exact (List.append_cancel_left hkept).symm
  rw [hback'] at hback
  obtain ⟨ws, ws', rfl, hws, hws'⟩ := hback.exists_of_append
  exact ⟨vs ++ ws, ws', (List.append_assoc _ _ _).symm,
    ⟨front, mid, vs, ws, hmid.symm, hlength, rfl, hfront, hws⟩, hws'.anywhere _ _⟩

end Frame.Holds

/-- Open nodes and the nodes around them, up to the root, are for these tokens. The root has no
names. -/
def HoldFrames : List OpenNode → Frame → List Frame → List Token → Prop
  | [], f, fs, us => fs = [] ∧ f.Holds ⟨.sourceUnit, 0⟩ us
  | _ :: _, _, [], _ => False
  | o :: nodes, f, f' :: fs, us =>
    f.kind = o.kind ∧ ∃ vs ws, us = vs ++ ws ∧ HoldFrames nodes f' fs vs ∧ f.Holds o ws

namespace HoldFrames

variable {nodes : List OpenNode} {o : OpenNode} {f f' : Frame} {fs : List Frame}
  {us ws : List Token}

/-- A frame that gets more children holds more tokens. -/
theorem extend (h : HoldFrames nodes f fs us) {more : List SyntaxTree}
    (hmore : Reads none none more ws) (hkind : f'.kind = f.kind)
    (htaken : f'.taken = more.reverse ++ f.taken) : HoldFrames nodes f' fs (us ++ ws) := by
  match nodes, fs, h with
  | [], fs, h => exact ⟨h.1, h.2.extend hmore htaken⟩
  | _ :: _, _ :: _, ⟨hkind', vs, vs', hus, hrest, hf⟩ =>
      refine ⟨hkind.trans hkind', vs, vs' ++ ws, ?_, hrest, hf.extend hmore htaken⟩
      rw [hus, List.append_assoc]

/-- All children of the innermost open node, and those that are added, may be names. -/
theorem renew (h : HoldFrames (o :: nodes) f fs us) (hkind : f'.kind = f.kind)
    (hadd : ∀ vs, Reads (some o.kind) none f.taken.reverse vs →
      Reads (some o.kind) none f'.taken.reverse (vs ++ ws)) :
    HoldFrames (⟨o.kind, f'.taken.length⟩ :: nodes) f' fs (us ++ ws) := by
  match fs, h with
  | _ :: _, ⟨hkind', vs, vs', hus, hrest, hholds⟩ =>
      refine ⟨hkind.trans hkind', vs, vs' ++ ws, ?_, hrest, .of_reads (hadd vs' hholds.reads)⟩
      rw [hus, List.append_assoc]

/-- A node that is opened has no children, and so no names. -/
theorem opened (h : HoldFrames nodes f fs us) (k : NodeKind) :
    HoldFrames (⟨k, 0⟩ :: nodes) ⟨k, []⟩ (f :: fs) us :=
  ⟨rfl, us, [], (List.append_nil _).symm, h,
    ⟨[], [], [], [], rfl, rfl, rfl, .nil, .nil⟩⟩

/-- A node that is opened at a mark has no names. -/
theorem openedAt (h : HoldFrames (o :: nodes) f fs us) {mark : Nat} (hmark : o.named ≤ mark)
    (k : NodeKind) :
    HoldFrames (⟨k, 0⟩ :: o :: nodes) ⟨k, f.taken.take (f.taken.length - mark)⟩
      ({ f with taken := f.taken.drop (f.taken.length - mark) } :: fs) us := by
  match fs, h with
  | _ :: _, ⟨hkind, vs, vs', hus, hrest, hholds⟩ =>
      obtain ⟨ws, ws', rfl, hkept, hgone⟩ := hholds.cut hmark
      refine ⟨rfl, vs ++ ws, ws', ?_, ⟨hkind, vs, ws, rfl, hrest, hkept⟩, ?_⟩
      · rw [hus, List.append_assoc]
      · exact ⟨[], _, [], ws', rfl, rfl, rfl, .nil, hgone⟩

/-- The leaves of a node that is closed stand in it for good. -/
theorem closed (h : HoldFrames (o :: nodes) f (f' :: fs) us) :
    HoldFrames nodes { f' with taken := .node f.kind f.taken.reverse :: f'.taken } fs us := by
  obtain ⟨hkind, vs, ws, rfl, hrest, hf⟩ := h
  have hnode : Reads none none [.node f.kind f.taken.reverse] (ws ++ []) := by
    rw [hkind]
    exact .node hf.reads .nil
  rw [List.append_nil] at hnode
  exact hrest.extend hnode rfl rfl

end HoldFrames

/-! ## Drafts -/

namespace Draft

variable {d : Draft} {tokens : List Token}

/-- What is in a draft is for the tokens that are not left. -/
def Spelled (tokens : List Token) (nodes : List OpenNode) (d : Draft) : Prop :=
  ∃ read, tokens = read ++ d.rest ∧ HoldFrames nodes d.top d.outer read

/-- Trivia does not count for the token in front. -/
theorem before?_skipTrivia : d.skipTrivia.top.before? = d.top.before? := by
  show lastSolid? none (((d.rest.takeWhile Token.isTrivia).map leafOf).reverse ++
    d.top.taken).reverse = lastSolid? none d.top.taken.reverse
  rw [List.reverse_append, List.reverse_reverse, lastSolid?, List.foldl_append]
  exact lastSolid?_trivia (List.all_eq_true.1 List.all_takeWhile) _

namespace Spelled

variable {nodes : List OpenNode} {o : OpenNode}

/-- Trivia that is taken is spelled. -/
theorem skipTrivia (h : d.Spelled tokens nodes) : d.skipTrivia.Spelled tokens nodes := by
  obtain ⟨read, htokens, hframes⟩ := h
  refine ⟨read ++ d.rest.takeWhile Token.isTrivia, ?_, ?_⟩
  · show tokens = read ++ d.rest.takeWhile Token.isTrivia ++ d.rest.dropWhile Token.isTrivia
    rw [List.append_assoc, List.takeWhile_append_dropWhile]
    exact htokens
  · exact hframes.extend (.map_leafOf none none _) rfl rfl

/-- A token that is taken as it is is spelled. -/
theorem bump (h : d.Spelled tokens nodes) : d.bump.Spelled tokens nodes := by
  obtain ⟨read, htokens, hframes⟩ := h.skipTrivia
  unfold Draft.bump Draft.take
  split
  · exact ⟨read, htokens, hframes⟩
  · rename_i t ts hrest
    refine ⟨read ++ [t], ?_, hframes.extend (.leafOf none none t) rfl rfl⟩
    rw [htokens, hrest, List.append_assoc]
    rfl

/-- Children that are spelled may be treated as having names among them. -/
theorem forget (h : d.Spelled tokens (o :: nodes)) :
    d.Spelled tokens (⟨o.kind, d.mark⟩ :: nodes) := by
  obtain ⟨read, htokens, hframes⟩ := h
  refine ⟨read, htokens, ?_⟩
  have hsame : HoldFrames _ d.top d.outer (read ++ []) := hframes.renew rfl fun vs hvs => by
    rw [List.append_nil]
    exact hvs
  rw [List.append_nil] at hsame
  exact hsame

/-- A token that is taken as a name where it is one. -/
theorem name (h : d.Spelled tokens (o :: nodes))
    (named : d.kind.isNameIn o.kind d.top.before? = true) :
    (d.bumpAs .ident).Spelled tokens (⟨o.kind, (d.bumpAs .ident).mark⟩ :: nodes) := by
  obtain ⟨read, htokens, hframes⟩ := h.skipTrivia
  unfold Draft.bumpAs Draft.take
  split
  · -- Nothing is left that could be taken.
    exact h.skipTrivia.forget
  · rename_i t ts hrest
    have hleaf : Reads (some o.kind) d.skipTrivia.top.before? [.leaf .ident t.text] [t] := by
      rw [before?_skipTrivia]
      rw [kind_of_next? (next?_of_rest_skipTrivia hrest)] at named
      exact .leaf ⟨rfl, .inr ⟨rfl, o.kind, rfl, named⟩⟩ .nil
    refine ⟨read ++ [t], ?_, hframes.renew rfl fun vs hvs => ?_⟩
    · rw [htokens, hrest, List.append_assoc]
      rfl
    · show Reads (some o.kind) none (.leaf .ident t.text :: d.skipTrivia.top.taken).reverse _
      rw [List.reverse_cons]
      exact hvs.append hleaf

/-- A node that is opened spells nothing yet. -/
theorem openNode (h : d.Spelled tokens nodes) (k : NodeKind) :
    (d.openNode k).Spelled tokens (⟨k, 0⟩ :: nodes) := by
  obtain ⟨read, htokens, hframes⟩ := h.skipTrivia
  exact ⟨read, htokens, hframes.opened k⟩

/-- A node that takes in children behind the names spells the same tokens. -/
theorem openAt (h : d.Spelled tokens (o :: nodes)) {mark : Nat} (hmark : o.named ≤ mark)
    (k : NodeKind) : (d.openAt mark k).Spelled tokens (⟨k, 0⟩ :: o :: nodes) := by
  obtain ⟨read, htokens, hframes⟩ := h
  exact ⟨read, htokens, hframes.openedAt hmark k⟩

/-- A node that is closed spells the same tokens. -/
theorem close (h : d.Spelled tokens (o :: nodes)) : d.close.Spelled tokens nodes := by
  obtain ⟨read, htokens, hframes⟩ := h
  unfold Draft.close
  split
  · rename_i houter
    rw [houter] at hframes
    exact hframes.elim
  · rename_i f fs houter
    rw [houter] at hframes
    exact ⟨read, htokens, hframes.closed⟩

end Spelled

/-- Steps of a reading keep drafts spelled. -/
theorem Steps.spelled {start : Draft} {nodes : List OpenNode} (hstart : start.Spelled tokens [])
    (h : Steps start nodes d) : d.Spelled tokens nodes := by
  induction h with
  | start => exact hstart
  | skipTrivia _ ih => exact ih.skipTrivia
  | bump _ ih => exact ih.bump
  | name _ named ih => exact ih.name named
  | forget _ ih => exact ih.forget
  | fault _ _ ih => exact ih
  | openNode _ k _ ih => exact ih.openNode k
  | openAt _ behind k _ ih => exact ih.openAt behind k
  | close _ ih => exact ih.close

/-- Before a text is read nothing is spelled. -/
theorem spelled_start (tokens : List Token) : (start .sourceUnit tokens).Spelled tokens [] :=
  ⟨[], rfl, rfl, ⟨[], [], [], [], rfl, rfl, rfl, .nil, .nil⟩⟩

end Draft

end SolidityAtlas
