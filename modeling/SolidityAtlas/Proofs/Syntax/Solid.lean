import SolidityAtlas.Syntax.Draft

/-!
# Texts and trees without trivia

The *words* of a row of tokens are the kinds and the texts of those that are not trivia. All that a
draft shows of the tokens ahead is decided by its words. A tree without its trivia is `solid`; if
in addition none of its nodes begins with trivia (`SyntaxTree.Tight`), then what its nodes say is
known from its solid part.

## Main Definitions

* `Token.word`, `solidWords`, `Draft.words`: the tokens that are not trivia
* `SyntaxTree.solid`, `SyntaxTree.solidRow`: trees without trivia
* `SyntaxTree.Tight`, `SyntaxTree.TightAll`: no node begins with trivia

## Main Results

* `Draft.kindAt_eq`, `Draft.textHere_eq`, `Draft.solidKinds_eq`: words decide what is ahead
* `Draft.words_skipTrivia`: trivia is taken from none of the words
-/

namespace SolidityAtlas

/-- A token has this kind and this text. -/
def Token.word (t : Token) : TokenKind × String :=
  (t.kind, t.text)

/-- The tokens of a row that are not trivia, without their places. -/
def solidWords (ts : List Token) : List (TokenKind × String) :=
  (ts.filter (! ·.isTrivia)).map Token.word

/-- Trivia has no words. -/
theorem solidWords_cons_of_isTrivia {t : Token} (h : t.isTrivia = true) (ts : List Token) :
    solidWords (t :: ts) = solidWords ts := by
  simp [solidWords, h]

/-- A token that is not trivia is the first of its words. -/
theorem solidWords_cons {t : Token} (h : t.isTrivia = false) (ts : List Token) :
    solidWords (t :: ts) = t.word :: solidWords ts := by
  simp [solidWords, h]

/-! ## Trees -/

namespace SyntaxTree

/-- Whether a tree is a token of trivia. -/
def isTrivia : SyntaxTree → Bool
  | leaf kind _ => kind.isTrivia
  | node _ _ => false

mutual

/-- The tree without the trivia in it. -/
def solid : SyntaxTree → SyntaxTree
  | leaf kind text => leaf kind text
  | node kind inner => node kind (solidRow inner)

/-- The trees of a row that are not trivia, each without the trivia in it. -/
def solidRow : List SyntaxTree → List SyntaxTree
  | [] => []
  | t :: ts => if t.isTrivia then solidRow ts else t.solid :: solidRow ts

end

mutual

/-- No node of the tree begins with trivia. -/
def Tight : SyntaxTree → Prop
  | leaf _ _ => True
  | node _ inner => inner.head?.all (! ·.isTrivia) = true ∧ TightAll inner

/-- No node of the trees of a row begins with trivia. -/
def TightAll : List SyntaxTree → Prop
  | [] => True
  | t :: ts => t.Tight ∧ TightAll ts

end

/-- The solid part of a row consists of the solid parts of its trees. -/
theorem solidRow_eq (ts : List SyntaxTree) :
    solidRow ts = (ts.filter (! ·.isTrivia)).map solid := by
  induction ts with
  | nil => rfl
  | cons t ts ih => cases h : t.isTrivia <;> simp [solidRow, h, ih]

theorem solidRow_append (ts us : List SyntaxTree) :
    solidRow (ts ++ us) = solidRow ts ++ solidRow us := by
  simp [solidRow_eq]

theorem solidRow_reverse (ts : List SyntaxTree) :
    solidRow ts.reverse = (solidRow ts).reverse := by
  simp [solidRow_eq, List.filter_reverse]

/-- A tree that is not trivia stays in the row. -/
theorem solidRow_cons {t : SyntaxTree} (h : t.isTrivia = false) (ts : List SyntaxTree) :
    solidRow (t :: ts) = t.solid :: solidRow ts := by
  rw [solidRow, if_neg (by rw [h]; exact Bool.false_ne_true)]

/-- Trivia drops out of the row. -/
theorem solidRow_cons_of_isTrivia {t : SyntaxTree} (h : t.isTrivia = true) (ts : List SyntaxTree) :
    solidRow (t :: ts) = solidRow ts := by
  rw [solidRow, if_pos h]

theorem solidRow_of_isTrivia {ts : List SyntaxTree} (h : ∀ t ∈ ts, t.isTrivia = true) :
    solidRow ts = [] := by
  rw [solidRow_eq, List.filter_eq_nil_iff.2 fun t ht => by simp [h t ht]]
  rfl

/-- A row is tight if its trees are. -/
theorem tightAll_iff {ts : List SyntaxTree} : TightAll ts ↔ ∀ t ∈ ts, t.Tight := by
  induction ts with
  | nil => simp [TightAll]
  | cons t ts ih => simp [TightAll, ih]

theorem tightAll_append {ts us : List SyntaxTree} (hts : TightAll ts) (hus : TightAll us) :
    TightAll (ts ++ us) :=
  tightAll_iff.2 fun t ht =>
    (List.mem_append.1 ht).elim (tightAll_iff.1 hts t) (tightAll_iff.1 hus t)

theorem tightAll_reverse {ts : List SyntaxTree} (h : TightAll ts) : TightAll ts.reverse :=
  tightAll_iff.2 fun t ht => tightAll_iff.1 h t (List.mem_reverse.1 ht)

theorem tightAll_of_isTrivia {ts : List SyntaxTree} (h : ∀ t ∈ ts, t.isTrivia = true) :
    TightAll ts :=
  tightAll_iff.2 fun t ht => by
    cases t with
    | leaf kind text => trivial
    | node kind inner => cases h _ ht

end SyntaxTree

/-! ## Drafts -/

namespace Draft

variable {d : Draft}

/-- The tokens ahead that are not trivia, without their places. -/
def words (d : Draft) : List (TokenKind × String) :=
  solidWords d.rest

/-- The next token that is not trivia is the first of the words. -/
theorem map_word_firstSolid? (ts : List Token) :
    (firstSolid? ts).map Token.word = (solidWords ts).head? := by
  induction ts with
  | nil => rfl
  | cons t ts ih =>
      cases h : t.isTrivia
      · rw [firstSolid?, h, solidWords_cons h]
        rfl
      · rw [firstSolid?, if_pos h, solidWords_cons_of_isTrivia h, ih]

/-- Behind the next token stand the words but the first. -/
theorem solidWords_behindSolid (ts : List Token) :
    solidWords (behindSolid ts) = (solidWords ts).tail := by
  induction ts with
  | nil => rfl
  | cons t ts ih =>
      cases h : t.isTrivia
      · rw [behindSolid, h, solidWords_cons h]
        rfl
      · rw [behindSolid, if_pos h, solidWords_cons_of_isTrivia h, ih]

/-- Further on stand the words but the first ones. -/
theorem solidWords_repeat_behindSolid (n : Nat) (ts : List Token) :
    solidWords (Nat.repeat behindSolid n ts) = (solidWords ts).drop n := by
  induction n with
  | zero => rfl
  | succ n ih => rw [Nat.repeat, solidWords_behindSolid, ih, List.tail_drop]

/-- The kind of the next token is that of the first word. -/
theorem map_kind_firstSolid? (ts : List Token) :
    (firstSolid? ts).map Token.kind = (solidWords ts).head?.map Prod.fst := by
  rw [← map_word_firstSolid?, Option.map_map]
  rfl

/-- The words decide about the kinds ahead. -/
theorem kindAt_eq (n : Nat) :
    d.kindAt n = ((d.words.drop n).head?.map Prod.fst).getD .error := by
  rw [kindAt, map_kind_firstSolid?, solidWords_repeat_behindSolid]
  rfl

theorem kind_eq : d.kind = (d.words.head?.map Prod.fst).getD .error := by
  rw [kind, next?, map_kind_firstSolid?]
  rfl

/-- The words decide about the text of the next token. -/
theorem textHere_eq : d.textHere = (d.words.head?.map Prod.snd).getD "" := by
  rw [textHere, next?, words, ← map_word_firstSolid?, Option.map_map]
  rfl

/-- Where there are no words the end is reached. -/
theorem atEnd_eq : d.atEnd = d.words.isEmpty := by
  have h := map_word_firstSolid? d.rest
  rw [atEnd, next?, words]
  cases hwords : solidWords d.rest with
  | nil =>
      rw [hwords, List.head?_nil, Option.map_eq_none_iff] at h
      rw [h]
      rfl
  | cons w ws =>
      rw [hwords, List.head?_cons] at h
      obtain ⟨t, ht, -⟩ := Option.map_eq_some_iff.1 h
      rw [ht]
      rfl

/-- The kinds ahead are those of the words. -/
theorem solidKinds_eq : d.solidKinds = d.words.map Prod.fst := by
  rw [solidKinds, words, solidWords, List.map_map]
  rfl

/-! ### Taking tokens -/

/-- The next token, if there is one, is not trivia. -/
def Ahead (d : Draft) : Prop :=
  ∀ t ∈ d.rest.head?, t.isTrivia = false

/-- Behind trivia comes a token, or the end. -/
theorem ahead_skipTrivia : d.skipTrivia.Ahead :=
  fun t ht => by
    have hhead := List.head?_dropWhile_not Token.isTrivia d.rest
    rw [show d.rest.dropWhile Token.isTrivia = d.skipTrivia.rest from rfl] at hhead
    rw [Option.mem_def.1 ht] at hhead
    exact hhead

/-- Dropping trivia drops no word. -/
theorem solidWords_dropWhile (ts : List Token) :
    solidWords (ts.dropWhile Token.isTrivia) = solidWords ts := by
  induction ts with
  | nil => rfl
  | cons t ts ih =>
      cases h : t.isTrivia
      · rw [List.dropWhile_cons_of_neg (by simp [h])]
      · rw [List.dropWhile_cons_of_pos h, ih, solidWords_cons_of_isTrivia h]

/-- Taking trivia takes no word. -/
@[simp] theorem words_skipTrivia : d.skipTrivia.words = d.words :=
  solidWords_dropWhile d.rest

end Draft

end SolidityAtlas
