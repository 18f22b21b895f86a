import SolidityAtlas.Proofs.Syntax.Lossless
import SolidityAtlas.Proofs.Text.LineMap
import SolidityAtlas.Syntax.Reading
import SolidityAtlas.Symbol.Detail

/-!
# Where the nodes of a tree stand

The nodes of a tree get their places by adding up the lengths of what stands in front of them. The
text of a tree is the text that was read, so at the place of a node stands the text of the node
(`Site.startsAt_of_mem_descendTree`), and at the place of a token in it stands the token
(`Site.startsAt_of_mem_tokensAt`).

## Main Definitions

* `SyntaxTree.textOf`: the text of a row of trees
* `Site.Holds`: a node holds another one

## Main Results

* `text_parse`: the text of the tree of a text
* `Site.startsAt_of_mem_descendTree`, `Site.startsAt_of_mem_tokensAt`: what stands at a place
* `Site.within_of_mem_descendTree`, `Site.within_of_mem_tokensAt`: nothing reaches out of a tree
* `Site.apart_of_mem_tokensAt`: the tokens of a node are not in the nodes in it
* `mem_tokens_of_nameToken?`: the name of a node is a token of it
-/

namespace SolidityAtlas

namespace SyntaxTree

/-- The text of a row of trees. -/
def textOf (ts : List SyntaxTree) : String :=
  String.join ((leavesOf ts).map (·.2))

@[simp] theorem textOf_nil : textOf [] = "" := rfl

/-- The text of a row is that of its trees, one after the other. -/
@[simp] theorem textOf_cons (t : SyntaxTree) (ts : List SyntaxTree) :
    textOf (t :: ts) = t.text ++ textOf ts := by
  simp [textOf, text, leavesOf]

@[simp] theorem text_leaf (kind : TokenKind) (s : String) : (leaf kind s).text = s := by
  simp [text, leaves]

/-- The text of a node is that of its children. -/
@[simp] theorem text_node (kind : NodeKind) (inner : List SyntaxTree) :
    (node kind inner).text = textOf inner := by
  simp [text, textOf, leaves]

mutual

/-- A tree is as long as its text. -/
@[simp] theorem utf8ByteSize_text : (t : SyntaxTree) → t.text.utf8ByteSize = t.byteLength
  | leaf _ _ => by rw [text_leaf, byteLength]
  | node _ inner => by rw [text_node, byteLength, utf8ByteSize_textOf inner]

/-- A row is as long as its text. -/
@[simp] theorem utf8ByteSize_textOf :
    (ts : List SyntaxTree) → (textOf ts).utf8ByteSize = byteLengthOf ts
  | [] => rfl
  | t :: ts => by
    rw [textOf_cons, String.utf8ByteSize_append, byteLengthOf, utf8ByteSize_text t,
      utf8ByteSize_textOf ts]

end

end SyntaxTree

/-- The text of the tree that a text is read as is the text. -/
theorem text_parse (text : String) : (parse text).tree.text = text := by
  have hsteps := Draft.steps_reading (tokenize text)
  have hend := Draft.atEnd_pursue_items [] (.start .sourceUnit (tokenize text))
  have hleaves : List.Forall₂ SyntaxTree.Leaf.Spells ((parse text).tree.leavesIn none none)
      (tokenize text) :=
    (hsteps.spelled (Draft.spelled_start _)).finish (Draft.rest_skipTrivia_of_atEnd hend)
  rw [SyntaxTree.text, SyntaxTree.map_text_of_spells hleaves]
  exact spelling_tokenize text

namespace Site

open SyntaxTree

variable {text : String} {around : Option NodeKind} {start : Nat} {s outer : Site}

/-! ## Texts -/

mutual

/-- At the places of the nodes of a tree stand their texts. -/
theorem startsAt_of_mem_descendTree : {t : SyntaxTree} → {around : Option NodeKind} →
    {start : Nat} → StartsAt text t.text start → s ∈ descendTree around start t →
    StartsAt text (textOf s.children) s.start
  | .leaf _ _, _, _, _, hs => absurd hs List.not_mem_nil
  | .node kind inner, _, start, h, hs => by
    rw [text_node] at h
    rcases List.mem_cons.1 hs with rfl | hs
    · exact h
    · exact startsAt_of_mem_descendTrees h hs

/-- A node of a row starts where its text stands. -/
theorem startsAt_of_mem_descendTrees : {ts : List SyntaxTree} → {around : Option NodeKind} →
    {start : Nat} → StartsAt text (textOf ts) start → s ∈ descendTrees around start ts →
    StartsAt text (textOf s.children) s.start
  | [], _, _, _, hs => absurd hs List.not_mem_nil
  | t :: ts, _, start, h, hs => by
    rw [textOf_cons] at h
    rcases List.mem_append.1 hs with hs | hs
    · exact startsAt_of_mem_descendTree h.left hs
    · refine startsAt_of_mem_descendTrees ?_ hs
      rw [← utf8ByteSize_text]
      exact h.right

end

/-- At the places of the tokens of a row of trees stand their texts. -/
theorem startsAt_of_mem_tokensAt {ts : List SyntaxTree} {t : Token}
    (h : StartsAt text (textOf ts) start) (ht : t ∈ tokensAt start ts) :
    StartsAt text t.text t.start := by
  induction ts generalizing start with
  | nil => exact absurd ht List.not_mem_nil
  | cons u ts ih =>
      rw [textOf_cons] at h
      have hright := h.right
      cases u with
      | leaf kind word =>
          rw [text_leaf] at h hright
          rcases List.mem_cons.1 ht with rfl | ht
          · exact h.left
          · exact ih hright ht
      | node kind inner =>
          rw [text_node, utf8ByteSize_textOf] at hright
          exact ih hright ht

/-- The tokens of a row of trees stand in it. -/
theorem within_of_mem_tokensAt {ts : List SyntaxTree} {t : Token} (ht : t ∈ tokensAt start ts) :
    start ≤ t.start ∧ t.stop ≤ start + byteLengthOf ts := by
  induction ts generalizing start with
  | nil => exact absurd ht List.not_mem_nil
  | cons u ts ih =>
      cases u with
      | leaf kind word =>
          rw [byteLengthOf, byteLength]
          rcases List.mem_cons.1 ht with rfl | ht
          · exact ⟨Nat.le_refl _, by simp only [Token.stop]; omega⟩
          · have := ih ht
            omega
      | node kind inner =>
          rw [byteLengthOf, byteLength]
          have := ih ht
          omega

/-! ## Extents -/

/-- A node starts no later than another one and ends no earlier. -/
def Holds (outer s : Site) : Prop :=
  outer.start ≤ s.start ∧ s.stop ≤ outer.stop

mutual

/-- The nodes of a tree stand in it. -/
theorem within_of_mem_descendTree : {t : SyntaxTree} → {around : Option NodeKind} →
    {start : Nat} → s ∈ descendTree around start t →
    start ≤ s.start ∧ s.stop ≤ start + t.byteLength
  | .leaf _ _, _, _, hs => absurd hs List.not_mem_nil
  | .node kind inner, _, start, hs => by
    rcases List.mem_cons.1 hs with rfl | hs
    · exact ⟨Nat.le_refl _, Nat.le_refl _⟩
    · exact within_of_mem_descendTrees hs

/-- A node of a row stands within the row. -/
theorem within_of_mem_descendTrees : {ts : List SyntaxTree} → {around : Option NodeKind} →
    {start : Nat} → s ∈ descendTrees around start ts →
    start ≤ s.start ∧ s.stop ≤ start + byteLengthOf ts
  | [], _, _, hs => absurd hs List.not_mem_nil
  | t :: ts, _, start, hs => by
    rw [byteLengthOf]
    rcases List.mem_append.1 hs with hs | hs
    · have := within_of_mem_descendTree hs
      omega
    · have := within_of_mem_descendTrees hs
      omega

end

/-- A token that stands directly in a node is not in the nodes that stand in it too. -/
theorem apart_of_mem_tokensAt {ts : List SyntaxTree} {t : Token} (ht : t ∈ tokensAt start ts)
    (hs : s ∈ descendTrees around start ts) : t.stop ≤ s.start ∨ s.stop ≤ t.start := by
  induction ts generalizing start with
  | nil => exact absurd ht List.not_mem_nil
  | cons u ts ih =>
      cases u with
      | leaf kind word =>
          rw [descendTrees, descendTree, List.nil_append, byteLength] at hs
          rcases List.mem_cons.1 ht with rfl | ht
          · exact .inl (within_of_mem_descendTrees hs).1
          · exact ih ht hs
      | node kind inner =>
          have ht : t ∈ tokensAt (start + byteLengthOf inner) ts := ht
          rcases List.mem_append.1 hs with hs | hs
          · have hstop := (within_of_mem_descendTree hs).2
            rw [byteLength] at hstop
            exact .inr (Nat.le_trans hstop (within_of_mem_tokensAt ht).1)
          · exact ih ht hs

end Site

/-- The name of a node is a token that stands directly in it. -/
theorem mem_tokens_of_nameToken? {s : Site} {t : Token} (h : nameToken? s = some t) :
    t ∈ s.tokens := by
  unfold nameToken? at h
  split at h
  all_goals first
    | exact List.mem_of_mem_filter (List.mem_of_head? h)
    | exact List.mem_of_mem_filter (List.mem_of_getLast? h)
    | cases h

end SolidityAtlas
