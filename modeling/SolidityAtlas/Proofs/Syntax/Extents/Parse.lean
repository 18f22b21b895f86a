import SolidityAtlas.Proofs.Symbol.Places
import SolidityAtlas.Proofs.Syntax.Extents.Members

/-!
# Extents of the nodes of a text

In the tree of a text every node other than the root begins with a token that is not trivia, if it
has any tokens. In the tree of a text without faults it has tokens and ends with one that is not
trivia. So the places at which nodes start and end, and with them the ranges in which symbols are
looked up, are those of tokens that are not trivia. The root has all tokens of the text.

## Main Definitions

* `Site.tokensIn`: the tokens of a text that stand in a node
* `Site.Snug`: a node that begins and ends with the right tokens

## Main Results

* `snug_parse`
-/

namespace SolidityAtlas

open Site (descendTree descendTrees)
open SyntaxTree (leavesOf)

/-! ## Nodes and their leaves -/

/-- The text of a row of leaves. -/
def leafText (ls : List (TokenKind × String)) : String :=
  String.join (ls.map (·.2))

namespace Site

variable {s : Site} {faulty : Prop}

mutual

/-- The nodes of a trim tree are trim. -/
theorem trim_of_mem_descendTree : {t : SyntaxTree} → {around : Option NodeKind} → {start : Nat} →
    t.Trim faulty → s ∈ descendTree around start t →
    StartsSolid True (leavesOf s.children) ∧ (faulty ∨ EndsSolid (leavesOf s.children))
  | .leaf _ _, _, _, _, hs => absurd hs List.not_mem_nil
  | .node _ _, _, _, ⟨hnode, hinner⟩, hs => by
    rcases List.mem_cons.1 hs with rfl | hs
    · exact hnode
    · exact trim_of_mem_descendTrees hinner hs

/-- The nodes of a row begin and end with no trivia, as long as there is no fault. -/
theorem trim_of_mem_descendTrees : {ts : List SyntaxTree} → {around : Option NodeKind} →
    {start : Nat} → SyntaxTree.TrimAll faulty ts → s ∈ descendTrees around start ts →
    StartsSolid True (leavesOf s.children) ∧ (faulty ∨ EndsSolid (leavesOf s.children))
  | [], _, _, _, hs => absurd hs List.not_mem_nil
  | _ :: _, _, _, ⟨htree, htrees⟩, hs =>
    (List.mem_append.1 hs).elim (trim_of_mem_descendTree htree) (trim_of_mem_descendTrees htrees)

end

mutual

/-- The leaves of a node are a stretch of the leaves of the tree, and the node starts where those in
front of it end. -/
theorem exists_leaves_of_mem_descendTree : {t : SyntaxTree} → {around : Option NodeKind} →
    {start : Nat} → s ∈ descendTree around start t → ∃ front back,
    t.leaves = front ++ leavesOf s.children ++ back ∧ s.start = start + (leafText front).utf8ByteSize
  | .leaf _ _, _, _, hs => absurd hs List.not_mem_nil
  | .node _ inner, _, _, hs => by
    rcases List.mem_cons.1 hs with rfl | hs
    · exact ⟨[], [], by simp [SyntaxTree.leaves], rfl⟩
    · exact exists_leaves_of_mem_descendTrees hs

/-- What stands in front of a node of a row decides where it starts. -/
theorem exists_leaves_of_mem_descendTrees : {ts : List SyntaxTree} → {around : Option NodeKind} →
    {start : Nat} → s ∈ descendTrees around start ts → ∃ front back,
    leavesOf ts = front ++ leavesOf s.children ++ back ∧
      s.start = start + (leafText front).utf8ByteSize
  | [], _, _, hs => absurd hs List.not_mem_nil
  | t :: ts, _, _, hs => by
    rcases List.mem_append.1 hs with hs | hs
    · obtain ⟨front, back, hleaves, hstart⟩ := exists_leaves_of_mem_descendTree hs
      exact ⟨front, back ++ leavesOf ts, by rw [leavesOf, hleaves, List.append_assoc], hstart⟩
    · obtain ⟨front, back, hleaves, hstart⟩ := exists_leaves_of_mem_descendTrees hs
      refine ⟨t.leaves ++ front, back, by simp [leavesOf, hleaves], ?_⟩
      have htext : leafText (t.leaves ++ front) = t.text ++ leafText front := by
        simp [leafText, SyntaxTree.text]
      rw [htext, String.utf8ByteSize_append, SyntaxTree.utf8ByteSize_text, hstart, Nat.add_assoc]

end

/-! ## Nodes and the tokens of a text -/

/-- The tokens of a text that stand in a node. -/
def tokensIn (text : String) (s : Site) : List Token :=
  (tokenize text).filter fun t => s.start ≤ t.start ∧ t.stop ≤ s.stop

/-- A node begins with a token that is not trivia, if it has any tokens. If there are no faults, it
has tokens and ends with one that is not trivia. -/
structure Snug (text : String) (clean : Prop) (s : Site) : Prop where
  /-- The leaves of the node are the tokens of the text that stand in it. -/
  leaves : (leavesOf s.children).map (fun l => (l.1.isTrivia, l.2)) =
    (s.tokensIn text).map fun t => (t.isTrivia, t.text)
  /-- The node starts with the first one of them, and that is not trivia. -/
  first : ∀ t ∈ (s.tokensIn text).head?, t.isTrivia = false ∧ t.start = s.start
  /-- The node ends with the last one of them, and that is not trivia. -/
  last : clean → ∃ t ∈ (s.tokensIn text).getLast?, t.isTrivia = false ∧ t.stop = s.stop

end Site

/-- A name is not trivia. -/
theorem not_isTrivia_of_isNameIn {k : TokenKind} {node : NodeKind} {before : Option TokenKind}
    (h : k.isNameIn node before = true) : k.isTrivia = false := by
  cases hk : k.isTrivia with
  | false => rfl
  | true =>
      have hname : ∀ k : TokenKind, k.isTrivia = true →
          k.isName = false ∧ k.isKeyword = false ∧ (k == .typeKw) = false := by
        intro k hk
        cases k <;> first | exact ⟨rfl, rfl, rfl⟩ | cases hk
      obtain ⟨hnoName, hnoKeyword, hnoType⟩ := hname k hk
      unfold TokenKind.isNameIn at h
      split at h <;> simp_all

/-- The leaves of the tree of a text are its tokens. -/
theorem leaves_parse (text : String) : (parse text).tree.leaves.map (fun l => (l.1.isTrivia, l.2)) =
    (tokenize text).map fun t => (t.isTrivia, t.text) := by
  have hspells := (parse_lossless text).2.leaves
  rw [← SyntaxTree.map_leavesIn none none, List.map_map]
  generalize (parse text).tree.leavesIn none none = leaves at hspells ⊢
  generalize tokenize text = tokens at hspells ⊢
  induction hspells with
  | nil => rfl
  | @cons l t _ _ hspells _ ih =>
      rw [List.map_cons, List.map_cons, ih]
      have htrivia : l.kind.isTrivia = t.isTrivia := by
        rcases hspells.kind with hkind | ⟨hkind, node, -, hname⟩
        · rw [hkind]
          rfl
        · rw [hkind, Token.isTrivia, not_isTrivia_of_isNameIn hname]
          rfl
      exact congrArg (· :: _) (Prod.ext htrivia hspells.text)

/-- A text is spelled by its leaves as by its tokens. -/
theorem spelling_eq_leafText {ts : List Token} {ls : List (TokenKind × String)}
    (h : (ts.map fun t => (t.isTrivia, t.text)) = ls.map fun l => (l.1.isTrivia, l.2)) :
    spelling ts = leafText ls := by
  have htexts := congrArg (List.map Prod.snd) h
  rw [List.map_map, List.map_map] at htexts
  exact congrArg String.join htexts

/-- A node in the tree of a text that begins and ends as it should. -/
theorem Site.snug_of_leaves {text : String} {clean : Prop} {s : Site}
    (hs : s ∈ descendTree none 0 (parse text).tree)
    (hstarts : StartsSolid True (leavesOf s.children))
    (hends : clean → EndsSolid (leavesOf s.children)) : s.Snug text clean := by
  obtain ⟨front, back, hleaves, hstart⟩ := exists_leaves_of_mem_descendTree hs
  have htokens := leaves_parse text
  rw [hleaves, List.map_append, List.map_append] at htokens
  obtain ⟨rest, behind, hsplit, hrest, -⟩ := List.map_eq_append_iff.1 htokens.symm
  obtain ⟨before, within, rfl, hbefore, hwithin⟩ := List.map_eq_append_iff.1 hrest
  have hstart : s.start = (spelling before).utf8ByteSize := by
    rw [hstart, Nat.zero_add, spelling_eq_leafText hbefore]
  have hstop : s.stop = (spelling (before ++ within)).utf8ByteSize := by
    rw [Site.stop, ← SyntaxTree.utf8ByteSize_textOf, hstart, spelling_append,
      String.utf8ByteSize_append, spelling_eq_leafText hwithin]
    rfl
  have htokensIn : s.tokensIn text = within := by
    rw [tokensIn, hstart, hstop]
    exact filter_tokenize hsplit
  rw [List.append_assoc] at hsplit
  refine ⟨by rw [htokensIn, hwithin], fun t ht => ?_, fun hclean => ?_⟩
  · rw [htokensIn] at ht
    obtain ⟨ts, rfl⟩ := List.head?_eq_some_iff.1 ht
    obtain ⟨l, ls, hl⟩ := List.exists_cons_of_ne_nil (l := leavesOf s.children) fun hnil => by
      rw [hnil] at hwithin
      cases hwithin
    rw [hl] at hwithin hstarts
    have htrivia : t.isTrivia = l.1.isTrivia := congrArg Prod.fst (List.cons.inj hwithin).1
    exact ⟨htrivia.trans hstarts, by rw [hstart, start_of_tokenize hsplit]⟩
  · obtain ⟨l, hl, hsolid⟩ := hends hclean
    obtain ⟨ls, hls⟩ := List.getLast?_eq_some_iff.1 hl
    rw [hls, List.map_append] at hwithin
    obtain ⟨ts, last, rfl, -, hlast⟩ := List.map_eq_append_iff.1 hwithin
    obtain ⟨t, rfl, ht⟩ := List.map_eq_singleton_iff.1 hlast
    refine ⟨t, by rw [htokensIn, List.getLast?_concat]; rfl, ?_, ?_⟩
    · exact (congrArg Prod.fst ht).trans hsolid
    · have hfront : tokenize text = (before ++ ts) ++ t :: behind := by simp [hsplit]
      rw [hstop, ← List.append_assoc, stop_of_tokenize hfront]

/-- The tree of every text has tight nodes. -/
theorem trimAll_parse (text : String) : ∃ inner, (parse text).tree = .node .sourceUnit inner ∧
    SyntaxTree.TrimAll (¬ (parse text).isClean = true) inner := by
  obtain ⟨inner, htree, -⟩ := exists_topLevel_parse text
  refine ⟨inner, htree, ?_⟩
  have hstart : (Draft.start .sourceUnit (tokenize text)).Settled [] :=
    ⟨fun t ht => absurd ht List.not_mem_nil, .inl rfl⟩
  have hgoals : Goal.SuitAll [] [.items] [] := ⟨rfl, .refl []⟩
  have htrim := (Draft.Trim.pursue (.inl hstart) hgoals).skipTrivia
  have hparse : parse text = parseTokens (tokenize text) := rfl
  rw [parseTokens] at hparse
  generalize (pursue [.items] (.start .sourceUnit (tokenize text))).skipTrivia = d at htrim hparse
  have hroot : d.outer = [] ∧ ∀ t ∈ d.top.taken, t.Trim d.Faulty := by
    unfold Draft.Trim at htrim
    match houter : d.outer, htrim with
    | [], htrim => exact ⟨rfl, htrim⟩
  have hfinish : d.finish = .node d.top.kind d.top.taken.reverse := by
    rw [Draft.finish, hroot.1]
    rfl
  rw [hparse] at htree ⊢
  obtain ⟨-, rfl⟩ := SyntaxTree.node.inj (hfinish.symm.trans htree)
  refine SyntaxTree.trimAll_iff.2 fun t ht => (hroot.2 t (List.mem_reverse.1 ht)).imp fun hfaulty => ?_
  simp only [Parse.isClean, List.isEmpty_reverse, List.isEmpty_iff]
  exact hfaulty

/-- **Nodes are tight.** In the tree of every text each node other than the root that has any tokens
starts with one that is not trivia. In the tree of a text without faults each one has tokens and
ends with one that is not trivia, so the ranges in which symbols are looked up do too. The root
has all tokens of the text. -/
theorem snug_parse (maxDepth file generation : Nat) (text : String) :
    ∃ root, Site.ofTree? (parse text).tree = some root ∧
      (root.start = 0 ∧ root.stop = text.utf8ByteSize ∧ root.tokensIn text = tokenize text) ∧
      (∀ s ∈ descendTrees (some root.kind) root.start root.children,
        s.Snug text ((parse text).isClean = true)) ∧
      ((parse text).isClean = true → ∀ id u, id ≠ SymbolTree.root →
        (SymbolTree.grow maxDepth file generation (.ofText text) (parse text).tree).symbol? id =
          some u →
        ∃ first ∈ tokenize text, ∃ last ∈ tokenize text, first.isTrivia = false ∧
          last.isTrivia = false ∧ u.range = (LineMap.ofText text).span first.start last.stop) := by
  obtain ⟨inner, htree, htrim⟩ := trimAll_parse text
  have hsnug : ∀ s ∈ descendTrees (some .sourceUnit) 0 inner,
      s.Snug text ((parse text).isClean = true) := by
    intro s hs
    obtain ⟨hstarts, hends⟩ := Site.trim_of_mem_descendTrees htrim hs
    refine Site.snug_of_leaves ?_ hstarts fun hclean => hends.resolve_left (not_not_intro hclean)
    rw [htree]
    exact List.mem_cons_of_mem _ hs
  have hlength : SyntaxTree.byteLengthOf inner = text.utf8ByteSize := by
    have htext := text_parse text
    rw [htree, SyntaxTree.text_node] at htext
    rw [← SyntaxTree.utf8ByteSize_textOf, htext]
  have hstop : (⟨.sourceUnit, inner, 0, none⟩ : Site).stop = text.utf8ByteSize := by
    rw [Site.stop, hlength, Nat.zero_add]
  refine ⟨⟨.sourceUnit, inner, 0, none⟩, by rw [htree]; rfl, ⟨rfl, hstop, ?_⟩, hsnug,
    fun hclean id u hid hu => ?_⟩
  · rw [Site.tokensIn, hstop]
    exact List.filter_eq_self.2 fun t ht =>
      decide_eq_true ⟨Nat.zero_le _, stop_le_of_mem_tokenize ht⟩
  · have hpreorder := (SymbolTree.mirrorsText_grow maxDepth file generation text).preorder
    obtain ⟨s, hs, hstands⟩ := SymbolTree.exists_site hpreorder hu
    obtain ⟨n, rfl⟩ := Nat.exists_eq_add_one_of_ne_zero hid
    rw [htree, descendTree, List.getElem?_cons_succ] at hs
    obtain ⟨-, hfirst, hlast⟩ := hsnug s (List.mem_of_getElem? hs)
    obtain ⟨last, hmem, hsolid, hend⟩ := hlast hclean
    have hin : ∀ t ∈ s.tokensIn text, t ∈ tokenize text := fun t ht => (List.mem_filter.1 ht).1
    cases htokens : s.tokensIn text with
    | nil =>
        rw [htokens] at hmem
        cases hmem
    | cons first rest =>
        obtain ⟨hfirstSolid, hbegin⟩ := hfirst first (by rw [htokens]; rfl)
        refine ⟨first, hin first (by rw [htokens]; exact List.mem_cons_self), last,
          hin last (List.mem_of_getLast? hmem), hfirstSolid, hsolid, ?_⟩
        rw [hstands.range, hbegin, hend]

/-- Behind a fault a node can end with trivia. -/
example : (Site.ofTree? (parse "function f()\x7breturn \x7d").tree).map (fun root =>
    (root.descend.filter (·.kind == .returnStatement)).map fun s => leavesOf s.children) =
      some [[(.returnKw, "return"), (.whitespace, " ")]] := by
  decide +kernel

end SolidityAtlas
