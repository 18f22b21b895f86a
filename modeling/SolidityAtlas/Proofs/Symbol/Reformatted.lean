import SolidityAtlas.Proofs.Symbol.UnplacedGrowth
import SolidityAtlas.Proofs.Syntax.Alike.Parse

/-!
# Formatting does not change the symbols

What a node says is read off its words. Only the place of an operator is read off the first child of
its node, and that is no trivia. So a tree whose nodes do not begin with trivia is grown into the
same symbols as its solid part, places aside. Texts with the same words have the same solid parts,
and therefore the same symbols.

## Main Results

* `Detail.ofSite_congr`: what a node says is known from its words
* `SymbolTree.unplaced_grow_solid`: trivia plays no part in growing
* `SymbolTree.unplaced_grow_of_words`: nor does the formatting of a text without faults
-/

namespace SolidityAtlas

open SyntaxTree (solidRow TightAll)

/-! ## Words of a row of tokens -/

section Words

/-- A test on kinds that trivia does not pass. -/
def TokenKind.SolidOnly (p : TokenKind → Bool) : Prop :=
  ∀ k : TokenKind, k.isTrivia = true → p k = false

open TokenKind (SolidOnly)

/-- What holds of white space and of both kinds of comments holds of all trivia. -/
theorem TokenKind.forall_isTrivia {P : TokenKind → Prop} (hspace : P .whitespace)
    (hline : P .lineComment) (hblock : P .blockComment) :
    ∀ k : TokenKind, k.isTrivia = true → P k := by
  intro k hk
  unfold isTrivia at hk
  split at hk
  · exact hspace
  · exact hline
  · exact hblock
  · cases hk

/-- To be of a kind that is no trivia is a matter of the solid tokens. -/
theorem TokenKind.solidOnly_beq {k : TokenKind} (hk : k.isTrivia = false) : SolidOnly (· == k) := by
  intro k' hk'
  rw [beq_eq_false_iff_ne]
  rintro rfl
  rw [hk] at hk'
  cases hk'

variable {p : TokenKind → Bool} (hp : SolidOnly p) (ts : List Token)

include hp

/-- What is filtered by such a kind are words of the solid tokens. -/
theorem map_word_filter :
    (ts.filter (p ·.kind)).map Token.word = (solidWords ts).filter (p ·.1) := by
  rw [solidWords, List.filter_map, List.filter_filter]
  refine congrArg (List.map Token.word) (List.filter_congr fun t _ => ?_)
  cases ht : t.isTrivia with
  | true => simp [hp t.kind ht, Token.word]
  | false => simp [Token.word]

/-- What is found by such a kind is a word of the solid tokens. -/
theorem map_word_find? :
    (ts.find? (p ·.kind)).map Token.word = (solidWords ts).find? (p ·.1) := by
  rw [← List.head?_filter, ← List.head?_map, map_word_filter hp, List.head?_filter]

theorem any_words : ts.any (p ·.kind) = (solidWords ts).any (p ·.1) := by
  rw [← List.isSome_find?, ← List.isSome_find?, ← map_word_find? hp, Option.isSome_map]

omit hp

/-- What is made of the first such kind is made of the solid words. -/
theorem findSome?_words {α : Type} {f : TokenKind → Option α}
    (hf : ∀ k : TokenKind, k.isTrivia = true → f k = none) :
    ts.findSome? (fun t => f t.kind) = (solidWords ts).findSome? fun w => f w.1 := by
  induction ts with
  | nil => rfl
  | cons t ts ih =>
      cases ht : t.isTrivia with
      | true => rw [List.findSome?_cons, hf t.kind ht, solidWords_cons_of_isTrivia ht, ih]
      | false => rw [List.findSome?_cons, solidWords_cons ht, List.findSome?_cons, ih]; rfl

end Words

/-! ## Words of a node -/

namespace Site

/-- Two nodes of the same kind that stand in nodes of the same kind and have the same words. -/
structure Alike (s u : Site) : Prop where
  kind : s.kind = u.kind
  around : s.around = u.around
  words : solidWords s.tokens = solidWords u.tokens

namespace Alike

variable {s u : Site} (h : Alike s u)

include h

/-- Whether a token stands in a site is seen in its solid words. -/
theorem has {k : TokenKind} (hk : k.isTrivia = false) : s.has k = u.has k := by
  have hp := TokenKind.solidOnly_beq hk
  rw [Site.has, Site.has, any_words hp, any_words hp, h.words]

/-- The same words pass a test on kinds. -/
theorem filter {p : TokenKind → Bool} (hp : TokenKind.SolidOnly p) :
    (s.tokens.filter (p ·.kind)).map Token.word = (u.tokens.filter (p ·.kind)).map Token.word := by
  rw [map_word_filter hp, map_word_filter hp, h.words]

/-- The texts of certain tokens are seen in the solid words. -/
theorem texts {p : TokenKind → Bool} (hp : TokenKind.SolidOnly p) :
    (s.tokens.filter (p ·.kind)).map Token.text = (u.tokens.filter (p ·.kind)).map Token.text := by
  have hwords := congrArg (List.map Prod.snd) (h.filter hp)
  rwa [List.map_map, List.map_map] at hwords

/-- The text of the first token of a kind is seen in the solid words. -/
theorem find?_text {p : TokenKind → Bool} (hp : TokenKind.SolidOnly p) :
    (s.tokens.find? (p ·.kind)).map Token.text = (u.tokens.find? (p ·.kind)).map Token.text := by
  rw [← List.head?_filter, ← List.head?_filter, ← List.head?_map, ← List.head?_map, h.texts hp]

theorem findSome? {α : Type} {f : TokenKind → Option α}
    (hf : ∀ k : TokenKind, k.isTrivia = true → f k = none) :
    s.tokens.findSome? (fun t => f t.kind) = u.tokens.findSome? fun t => f t.kind := by
  rw [findSome?_words _ hf, findSome?_words _ hf, h.words]

/-- The names in a site are seen in its solid words, and so is what is read off them below. -/
theorem idents : s.idents.map Token.text = u.idents.map Token.text :=
  h.texts (TokenKind.solidOnly_beq rfl)

theorem firstIdent? : s.firstIdent?.map Token.text = u.firstIdent?.map Token.text := by
  rw [Site.firstIdent?, Site.firstIdent?, ← List.head?_map, ← List.head?_map, h.idents]

theorem lastIdent? : s.lastIdent?.map Token.text = u.lastIdent?.map Token.text := by
  rw [Site.lastIdent?, Site.lastIdent?, ← List.getLast?_map, ← List.getLast?_map, h.idents]

theorem pragmaText : s.pragmaText = u.pragmaText := by
  have hp : TokenKind.SolidOnly fun k => ! (k.isTrivia || k == .pragmaKw || k == .semicolon) :=
    fun k hk => by simp [hk]
  exact congrArg (String.intercalate " ") (h.texts hp)

/-- The path of an import has no trivia in it. -/
theorem importPath? : s.importPath? = u.importPath? := by
  have htext := h.find?_text (TokenKind.solidOnly_beq (k := .string) rfl)
  have hpath : ∀ s : Site, s.importPath? =
      ((s.tokens.find? (·.kind == .string)).map Token.text).map unquote := fun s => by
    rw [Option.map_map]
    rfl
  rw [hpath, hpath, htext]

theorem symbolAlias? : s.symbolAlias?.map Token.text = u.symbolAlias?.map Token.text := by
  rw [Site.symbolAlias?, Site.symbolAlias?, ← List.getElem?_map, ← List.getElem?_map, h.idents]

theorem isGlobal : s.isGlobal = u.isGlobal := by
  have hany : ∀ s : Site, s.isGlobal = (s.idents.map Token.text).any (· == "global") := fun s => by
    rw [List.any_map]
    rfl
  rw [hany, hany, h.idents]

theorem contractFlavour : s.contractFlavour = u.contractFlavour := by
  rw [Site.contractFlavour, Site.contractFlavour, h.has rfl, h.has rfl]

theorem functionFlavour : s.functionFlavour = u.functionFlavour := by
  rw [Site.functionFlavour, Site.functionFlavour,
    h.findSome? (TokenKind.forall_isTrivia rfl rfl rfl)]

/-- The words that say how visible, how mutable and where are solid ones. -/
theorem visibility? : s.visibility? = u.visibility? :=
  h.findSome? (TokenKind.forall_isTrivia rfl rfl rfl)

theorem mutability : s.mutability = u.mutability := by
  rw [Site.mutability, Site.mutability, h.findSome? (TokenKind.forall_isTrivia rfl rfl rfl)]

theorem location? : s.location? = u.location? :=
  h.findSome? (TokenKind.forall_isTrivia rfl rfl rfl)

theorem isStateVariable : s.isStateVariable = u.isStateVariable := by
  rw [Site.isStateVariable, Site.isStateVariable, h.around]

/-- A dotted path is put together of its names and dots. -/
theorem dottedPath : s.dottedPath = u.dottedPath :=
  congrArg (String.intercalate ".") h.idents

theorem elementaryName : s.elementaryName = u.elementaryName := by
  have hword : s.typeWord?.map Token.text = u.typeWord?.map Token.text :=
    h.find?_text (p := fun k => k == .elementaryTypeKw || k == .payableKw)
      (TokenKind.forall_isTrivia rfl rfl rfl)
  unfold Site.elementaryName
  rw [h.has rfl]
  generalize s.typeWord? = t at hword
  generalize u.typeWord? = t' at hword
  cases t <;> cases t' <;> simp_all

theorem binaryOperator? : s.binaryOperator?.map Token.text = u.binaryOperator?.map Token.text :=
  h.find?_text (p := TokenKind.isPunctuation)
    (TokenKind.forall_isTrivia rfl rfl rfl)

theorem unaryOperator? : s.unaryOperator?.map Token.text = u.unaryOperator?.map Token.text :=
  h.find?_text (p := fun k => k.isPunctuation || k == .deleteKw)
    (TokenKind.forall_isTrivia rfl rfl rfl)

theorem digits? : s.digits?.map Token.text = u.digits?.map Token.text :=
  h.find?_text (p := fun k => k == .decimalNumber || k == .hexNumber)
    (TokenKind.forall_isTrivia rfl rfl rfl)

/-- The text of a literal is one solid word. -/
theorem literalText {k : TokenKind} (hk : k.isTrivia = false) :
    s.literalText k = u.literalText k := by
  have hjoin : ∀ s : Site, s.literalText k =
      String.join (((s.tokens.filter (·.kind == k)).map Token.text).map unquote) := fun s => by
    rw [List.map_map]
    rfl
  rw [hjoin, hjoin, h.texts (TokenKind.solidOnly_beq hk)]

theorem isBuiltin :
    s.firstIdent?.any (SolidityAtlas.isBuiltin ·.text) =
      u.firstIdent?.any (SolidityAtlas.isBuiltin ·.text) := by
  have hany : ∀ t : Option Token, t.any (SolidityAtlas.isBuiltin ·.text) =
      (t.map Token.text).any SolidityAtlas.isBuiltin := fun t => by
    cases t <;> rfl
  rw [hany, hany, h.firstIdent?]

end Alike

end Site

/-- What a node says is known from its words, except where an operator stands. -/
theorem Detail.ofSite_congr {s u : Site} (h : s.Alike u)
    (hfirst : s.kind = .unaryOperation → s.operatorFirst = u.operatorFirst) :
    Detail.ofSite s = Detail.ofSite u := by
  unfold Detail.ofSite
  rw [← h.kind]
  split
  · rw [h.pragmaText]
  · rw [h.importPath?, h.firstIdent?, h.has rfl]
  · rw [h.symbolAlias?]
  · rw [h.contractFlavour, h.has rfl]
  · rw [h.isGlobal]
  · rw [h.has rfl]
  · rw [h.functionFlavour, h.visibility?, h.mutability, h.has rfl]
  · rw [h.has rfl]
  · rw [h.visibility?, h.location?, h.has rfl, h.has rfl, h.has rfl, h.isStateVariable]
  · rw [h.dottedPath]
  · rw [h.elementaryName]
  · rw [h.firstIdent?]
  · rw [h.firstIdent?]
  · rw [h.has rfl]
  · simp only [h.digits?, h.firstIdent?]
  · rw [h.has rfl]
  · rw [h.literalText rfl]
  · rw [h.literalText rfl]
  · rw [h.isBuiltin]
  · simp only [h.binaryOperator?]
  · rename_i hkind
    simp only [h.unaryOperator?, hfirst hkind]
  · rfl

/-- Sites with the same solid words have the same name. -/
theorem map_text_nameToken? {s u : Site} (h : s.Alike u) :
    (nameToken? s).map Token.text = (nameToken? u).map Token.text := by
  unfold nameToken?
  rw [← h.kind]
  split
  iterate 13
    · exact h.firstIdent?
  iterate 3
    · exact h.lastIdent?
  · rfl

/-- Nodes that say the same become the same symbols, places aside. -/
theorem Symbol.unplaced_ofSite {m m' : LineMap} {s u : Site} (h : s.Alike u)
    (hfirst : s.kind = .unaryOperation → s.operatorFirst = u.operatorFirst)
    (parent : Option NodeId) (context : Option NodeKind) :
    (ofSite m parent context s).unplaced = (ofSite m' parent context u).unplaced := by
  have hlabel : (ofSite m parent context s).unplaced.label =
      (ofSite m' parent context u).unplaced.label := by
    have hname : ∀ (m : LineMap) (s : Site), (ofSite m parent context s).unplaced.label =
        ((nameToken? s).map Token.text).map fun name => ⟨name, default⟩ := fun m s => by
      simp only [unplaced, ofSite, Option.map_map]
      rfl
    rw [hname, hname, map_text_nameToken? h]
  simp only [unplaced, ofSite] at hlabel ⊢
  rw [hlabel, Detail.ofSite_congr h hfirst]

/-! ## Planting -/

namespace SyntaxTree

mutual

/-- The solid part of a tree has all its nodes. -/
theorem nodeCount_solid : (t : SyntaxTree) → t.solid.nodeCount = t.nodeCount
  | .leaf _ _ => rfl
  | .node _ inner => by rw [solid, nodeCount, nodeCount, nodeCountOf_solidRow inner]

/-- The solid part of a row has all its nodes. -/
theorem nodeCountOf_solidRow : (ts : List SyntaxTree) → nodeCountOf (solidRow ts) = nodeCountOf ts
  | [] => rfl
  | .leaf kind text :: ts => by
    cases h : kind.isTrivia <;>
      simp [solidRow, isTrivia, solid, nodeCountOf, nodeCount, h, nodeCountOf_solidRow ts]
  | .node kind inner :: ts => by
    rw [solidRow_cons rfl, nodeCountOf, nodeCountOf, nodeCount_solid, nodeCountOf_solidRow ts]

end

end SyntaxTree

mutual

/-- Nodes are settled in one order with and without trivia. -/
theorem settlingOrder_solid (id : NodeId) :
    (t : SyntaxTree) → settlingOrder id t.solid = settlingOrder id t
  | .leaf _ _ => rfl
  | .node _ inner => by
    rw [SyntaxTree.solid, settlingOrder, settlingOrder, settlingOrderOf_solidRow (id + 1) inner]

/-- The nodes of a row are settled in one order with and without trivia. -/
theorem settlingOrderOf_solidRow (id : NodeId) :
    (ts : List SyntaxTree) → settlingOrderOf id (solidRow ts) = settlingOrderOf id ts
  | [] => rfl
  | .leaf kind text :: ts => by
    cases h : kind.isTrivia <;>
      simp [solidRow, SyntaxTree.isTrivia, SyntaxTree.solid, settlingOrderOf, settlingOrder,
        SyntaxTree.nodeCount, h, settlingOrderOf_solidRow id ts]
  | .node kind inner :: ts => by
    rw [SyntaxTree.solidRow_cons rfl, settlingOrderOf, settlingOrderOf, settlingOrder_solid id,
      SyntaxTree.nodeCount_solid, settlingOrderOf_solidRow _ ts]

end

namespace Site

/-- The solid part of a row has the same solid words. -/
theorem solidWords_tokensAt (start start' : Nat) (ts : List SyntaxTree) :
    solidWords (tokensAt start ts) = solidWords (tokensAt start' (solidRow ts)) := by
  induction ts generalizing start start' with
  | nil => rfl
  | cons t ts ih =>
      cases t with
      | node kind inner =>
          rw [SyntaxTree.solidRow_cons rfl, SyntaxTree.solid, tokensAt, tokensAt]
          exact ih _ _
      | leaf kind text =>
          rw [tokensAt]
          cases hkind : (SyntaxTree.leaf kind text).isTrivia with
          | true =>
              rw [SyntaxTree.solidRow_cons_of_isTrivia hkind,
                solidWords_cons_of_isTrivia (t := ⟨kind, text, start⟩) hkind]
              exact ih _ _
          | false =>
              rw [SyntaxTree.solidRow_cons hkind, SyntaxTree.solid, tokensAt,
                solidWords_cons (t := ⟨kind, text, start⟩) hkind,
                solidWords_cons (t := ⟨kind, text, start'⟩) hkind]
              exact congrArg _ (ih _ _)

/-- The node without the trivia in it. -/
theorem alike_solid (kind : NodeKind) (around : Option NodeKind) (inner : List SyntaxTree)
    (start start' : Nat) :
    Alike ⟨kind, inner, start, around⟩ ⟨kind, solidRow inner, start', around⟩ :=
  ⟨rfl, rfl, solidWords_tokensAt start start' inner⟩

/-- In a node that does not begin with trivia it is known where the operator stands. -/
theorem operatorFirst_solid (kind : NodeKind) (around : Option NodeKind) {inner : List SyntaxTree}
    (start start' : Nat) (h : inner.head?.all (! ·.isTrivia) = true) :
    operatorFirst ⟨kind, inner, start, around⟩ =
      operatorFirst ⟨kind, solidRow inner, start', around⟩ := by
  match inner, h with
  | [], _ => rfl
  | .node _ _ :: _, _ => rw [SyntaxTree.solidRow_cons rfl]; rfl
  | .leaf k _ :: _, h =>
      rw [SyntaxTree.solidRow_cons (by simpa using h)]
      rfl

end Site

mutual

/-- A tree whose nodes do not begin with trivia is planted as its solid part is, places aside. -/
theorem unplaced_plant (m m' : LineMap) (around : Surroundings) (id start start' : Nat) :
    (t : SyntaxTree) → t.Tight → (plant m around id start t).map Symbol.unplaced =
      (plant m' around id start' t.solid).map Symbol.unplaced
  | .leaf _ _, _ => rfl
  | .node kind inner, htight => by
    rw [SyntaxTree.solid, plant, plant, List.map_cons, List.map_cons,
      unplaced_plantAll m m' _ _ start start' inner htight.2,
      Symbol.unplaced_ofSite (Site.alike_solid kind around.kind inner start start')
        fun _ => Site.operatorFirst_solid kind around.kind start start' htight.1]

/-- A row of such trees is planted as its solid part is. -/
theorem unplaced_plantAll (m m' : LineMap) (around : Surroundings) (id start start' : Nat) :
    (ts : List SyntaxTree) → TightAll ts → (plantAll m around id start ts).map Symbol.unplaced =
      (plantAll m' around id start' (solidRow ts)).map Symbol.unplaced
  | [], _ => rfl
  | .leaf kind text :: ts, htight => by
    cases h : (SyntaxTree.leaf kind text).isTrivia
    · rw [SyntaxTree.solidRow_cons h, SyntaxTree.solid, plantAll, plantAll]
      exact unplaced_plantAll m m' around id _ _ ts htight.2
    · rw [SyntaxTree.solidRow_cons_of_isTrivia h, plantAll]
      exact unplaced_plantAll m m' around id _ start' ts htight.2
  | .node kind inner :: ts, htight => by
    rw [SyntaxTree.solidRow_cons rfl, plantAll, plantAll, List.map_append, List.map_append,
      unplaced_plant m m' around id start start' _ htight.1, SyntaxTree.nodeCount_solid]
    exact congrArg _ (unplaced_plantAll m m' _ _ _ _ ts htight.2)

end

/-! ## Growing -/

/-- Growing knows no places: without them, turns lead to the same growth. -/
theorem Growth.unplaced_foldl_settle (maxDepth : Nat) (ids : List NodeId) (g : Growth) :
    (ids.foldl (settle maxDepth) g).unplaced = ids.foldl (settle maxDepth) g.unplaced := by
  induction ids generalizing g with
  | nil => rfl
  | cons id ids ih => rw [List.foldl_cons, List.foldl_cons, ih, unplaced_settle]

namespace SymbolTree

/-- The places may as well be taken away before the tree is grown. -/
theorem unplaced_grow (maxDepth file generation : Nat) (m : LineMap) (tree : SyntaxTree) :
    (grow maxDepth file generation m tree).unplaced =
      ((settlingOrder 0 tree).foldl (Growth.settle maxDepth)
        ⟨(planted file generation m tree).unplaced, []⟩).tree :=
  congrArg Growth.tree (Growth.unplaced_foldl_settle maxDepth (settlingOrder 0 tree)
    ⟨planted file generation m tree, []⟩)

/-- Trivia plays no part in growing if no node but the root begins with it. -/
theorem unplaced_grow_solid (maxDepth file generation : Nat) (m m' : LineMap)
    {inner : List SyntaxTree} (htight : TightAll inner) :
    (grow maxDepth file generation m (.node .sourceUnit inner)).unplaced =
      (grow maxDepth file generation m' (.node .sourceUnit (solidRow inner))).unplaced := by
  have hroot : (plant m ⟨none, none, none⟩ 0 0 (.node .sourceUnit inner)).map Symbol.unplaced =
      (plant m' ⟨none, none, none⟩ 0 0 (.node .sourceUnit (solidRow inner))).map
        Symbol.unplaced := by
    rw [plant, plant, List.map_cons, List.map_cons, unplaced_plantAll m m' _ _ 0 0 inner htight,
      Symbol.unplaced_ofSite (Site.alike_solid .sourceUnit none inner 0 0) fun h => by cases h]
  have hplanted : (planted file generation m (.node .sourceUnit inner)).unplaced =
      (planted file generation m' (.node .sourceUnit (solidRow inner))).unplaced := by
    simp only [planted, unplaced, List.map_toArray, hroot]
  have horder : settlingOrder 0 (.node .sourceUnit (solidRow inner)) =
      settlingOrder 0 (.node .sourceUnit inner) :=
    settlingOrder_solid 0 (.node .sourceUnit inner)
  rw [unplaced_grow, unplaced_grow, hplanted, horder]

/-- If one of two texts with the same words has no faults, then neither has the other, and they are
grown into the same symbols, places aside: formatting does not change what is found. -/
theorem unplaced_grow_of_words {text text' : String}
    (hwords : solidWords (tokenize text) = solidWords (tokenize text'))
    (hclean : (parse text).isClean = true) :
    (parse text').isClean = true ∧ ∀ maxDepth file generation : Nat,
      (grow maxDepth file generation (.ofText text) (parse text).tree).unplaced =
        (grow maxDepth file generation (.ofText text') (parse text').tree).unplaced := by
  obtain ⟨hclean', inner, inner', htree, htree', hsolid, htight, htight'⟩ :=
    solid_parse hwords hclean
  refine ⟨hclean', fun maxDepth file generation => ?_⟩
  rw [htree, htree', unplaced_grow_solid maxDepth file generation _ (.ofText text') htight,
    unplaced_grow_solid maxDepth file generation _ (.ofText text') htight', hsolid]

/-- A contract without any blanks that are not needed. -/
def denseText : String :=
  "contract A\x7buint x;function f()public\x7bx++;-x;\x7d\x7d"

/-- The same contract with more blanks, with line breaks and comments. -/
def spreadText : String :=
  "// a\ncontract A \x7b\n  uint x; /* y */\n\n  function f( ) public \x7b x ++ ; - x; \x7d\n\x7d\n"

/-- One text in two layouts, a dense one and one that is spread out. -/
theorem unplaced_grow_spread :
    solidWords (tokenize denseText) = solidWords (tokenize spreadText) ∧
      (parse denseText).isClean = true ∧ (parse spreadText).isClean = true ∧
      ∀ maxDepth file generation : Nat,
        (grow maxDepth file generation (.ofText denseText) (parse denseText).tree).unplaced =
          (grow maxDepth file generation (.ofText spreadText) (parse spreadText).tree).unplaced := by
  have hwords : solidWords (tokenize denseText) = solidWords (tokenize spreadText) := by
    decide +kernel
  have hclean : (parse denseText).isClean = true := by
    decide +kernel
  exact ⟨hwords, hclean, unplaced_grow_of_words hwords hclean⟩

end SymbolTree

end SolidityAtlas
