import SolidityAtlas.Syntax.Fault
import SolidityAtlas.Syntax.Tree

/-!
# Trees in the making

A `Draft` is a syntax tree that is being written, together with the tokens that
are not in it yet. Each step of the reading moves tokens from the front of the
rest to the end of the innermost open node, opens a node, or closes one. No
step drops a token, so what is in the tree and what is left always make up the
whole text.

Trivia goes into the innermost open node as soon as the next other token does,
or as soon as a node is opened or a mark is taken. So every node that holds
anything begins with a token that is not trivia.

A *mark* remembers a place among the children of the innermost open node. A
node opened at a mark takes in all children behind it. This is how an operator
gets its left operand, which was read before the operator was seen.

## Main Definitions

* `Draft`, `Frame`: the state of the reading
* `Draft.kind`, `Draft.kindAt`, `Draft.textHere`: the tokens ahead
* `Draft.bump`, `Draft.bumpAs`, `Draft.expect`, `Draft.expectName`: taking tokens
* `Draft.openNode`, `Draft.openAt`, `Draft.close`: nodes
* `Draft.fault`, `Draft.recover`: faults and skipped text
-/

namespace SolidityAtlas

/-- An open node: its kind, and its children so far, last one first. -/
structure Frame where
  kind : NodeKind
  taken : List SyntaxTree
deriving Inhabited

/-- A tree in the making. -/
structure Draft where
  /-- The tokens that are not in the tree yet. -/
  rest : List Token
  /-- The innermost open node. -/
  top : Frame
  /-- The open nodes around it, from the inside out. -/
  outer : List Frame
  /-- The faults so far, last one first. -/
  faults : List Fault
  /-- The byte at which the text ends. -/
  textEnd : Nat
deriving Inhabited

namespace Draft

variable (d : Draft)

/-! ### The tokens ahead -/

/-- The first token of a list that is not trivia. -/
def firstSolid? : List Token → Option Token
  | [] => none
  | t :: ts => if t.isTrivia then firstSolid? ts else some t

/-- The tokens of a list that follow its first token that is not trivia. -/
def behindSolid : List Token → List Token
  | [] => []
  | t :: ts => if t.isTrivia then behindSolid ts else ts

/-- The next token that is not trivia. -/
def next? : Option Token :=
  firstSolid? d.rest

/-- Whether nothing but trivia is left. -/
def atEnd : Bool :=
  d.next?.isNone

/-- The kind of the next token; `error` at the end. -/
def kind : TokenKind :=
  (d.next?.map Token.kind).getD .error

/-- The text of the next token; empty at the end. -/
def textHere : String :=
  (d.next?.map Token.text).getD ""

/-- The kind of the token `n` tokens further on; `error` behind the end. -/
def kindAt (n : Nat) : TokenKind :=
  ((firstSolid? (Nat.repeat behindSolid n d.rest)).map Token.kind).getD .error

/-- Whether the next token is of this kind. -/
def isAt (k : TokenKind) : Bool :=
  d.kind == k

/-- Whether the next token may serve as a name. -/
def atName : Bool :=
  d.kind.isName

/-- The kinds of all tokens ahead that are not trivia. -/
def solidKinds : List TokenKind :=
  (d.rest.filter (! ·.isTrivia)).map Token.kind

/-! ### Taking tokens -/

/-- The token of a text as a leaf. -/
def leafOf (t : Token) : SyntaxTree :=
  .leaf t.kind t.text

/-- Adds a child to the innermost open node. -/
def push (t : SyntaxTree) : Draft :=
  { d with top := { d.top with taken := t :: d.top.taken } }

/-- Takes the trivia in front of the next token. -/
def skipTrivia : Draft :=
  { d with
    rest := d.rest.dropWhile Token.isTrivia
    top := { d.top with
      taken := ((d.rest.takeWhile Token.isTrivia).map leafOf).reverse ++ d.top.taken } }

/-- Takes the first token of the rest, as a leaf that `f` makes of it. -/
def take (f : Token → SyntaxTree) : Draft :=
  match d.rest with
  | [] => d
  | t :: ts => push { d with rest := ts } (f t)

/-- Takes the next token and the trivia in front of it. -/
def bump : Draft :=
  d.skipTrivia.take leafOf

/-- Takes the next token under another kind. Reserved words become identifiers in
this way where they serve as names. -/
def bumpAs (k : TokenKind) : Draft :=
  d.skipTrivia.take fun t => .leaf k t.text

/-! ### Faults -/

/-- Notes a fault at the next token, or at the end of the text. -/
def fault (cause : FaultCause) : Draft :=
  let (start, stop) := match d.next? with
    | some t => (t.start, t.stop)
    | none => (d.textEnd, d.textEnd)
  { d with faults := ⟨cause, start, stop⟩ :: d.faults }

/-! ### Wanted tokens -/

/-- Takes the next token if it is of this kind. -/
def eat (k : TokenKind) : Draft :=
  if d.isAt k then d.bump else d

/-- Takes the next token if it is of this kind, and notes a fault if it is not. -/
def expect (k : TokenKind) : Draft :=
  if d.isAt k then d.bump else d.fault (.expected k d.kind)

/-- Takes a name, and notes a fault if there is none. -/
def expectName : Draft :=
  if d.atName then d.bumpAs .ident else d.fault (.expectedIdentifier d.kind)

/-- Takes a name if there is one. -/
def eatName : Draft :=
  if d.atName then d.bumpAs .ident else d

/-! ### Nodes -/

/-- Opens a node in front of the next token. -/
def openNode (k : NodeKind) : Draft :=
  let d := d.skipTrivia
  { d with top := ⟨k, []⟩, outer := d.top :: d.outer }

/-- Closes the innermost open node. The outermost node stays open. -/
def close : Draft :=
  match d.outer with
  | [] => d
  | f :: fs =>
    { d with
      top := { f with taken := .node d.top.kind d.top.taken.reverse :: f.taken }
      outer := fs }

/-- The mark in front of the next token, for a draft that has taken the trivia there. -/
def mark : Nat :=
  d.top.taken.length

/-- Opens a node that takes in all children behind a mark. -/
def openAt (mark : Nat) (k : NodeKind) : Draft :=
  let n := d.top.taken.length - mark
  { d with
    top := ⟨k, d.top.taken.take n⟩
    outer := { d.top with taken := d.top.taken.drop n } :: d.outer }

/-! ### How much is left -/

/-- The number of tokens that are not in the tree yet. -/
def size : Nat :=
  d.rest.length

variable {d}

/-- A child is added without a token being taken. -/
@[simp] theorem size_push (t : SyntaxTree) : (d.push t).size = d.size := rfl

/-- Taking trivia leaves no more tokens than there were. -/
theorem size_skipTrivia_le : d.skipTrivia.size ≤ d.size :=
  (List.dropWhile_suffix _).length_le

theorem size_take_le (f : Token → SyntaxTree) : (d.take f).size ≤ d.size := by
  unfold take
  split
  · exact Nat.le_refl _
  · rename_i h
    simp [size, push, h]

theorem size_bump_le : d.bump.size ≤ d.size :=
  Nat.le_trans (size_take_le _) size_skipTrivia_le

theorem size_bumpAs_le (k : TokenKind) : (d.bumpAs k).size ≤ d.size :=
  Nat.le_trans (size_take_le _) size_skipTrivia_le

/-- A fault takes no token. -/
@[simp] theorem size_fault (cause : FaultCause) : (d.fault cause).size = d.size := rfl

/-- A node is closed without a token being taken. -/
@[simp] theorem size_close : d.close.size = d.size := by
  unfold close
  split <;> rfl

/-- A node that takes in earlier children takes no token. -/
@[simp] theorem size_openAt (m : Nat) (k : NodeKind) : (d.openAt m k).size = d.size := rfl

/-- In front of a node only trivia is taken. -/
@[simp] theorem size_openNode (k : NodeKind) : (d.openNode k).size = d.skipTrivia.size := rfl

theorem size_openNode_le (k : NodeKind) : (d.openNode k).size ≤ d.size :=
  size_skipTrivia_le

theorem size_eat_le (k : TokenKind) : (d.eat k).size ≤ d.size := by
  unfold eat
  split
  · exact size_bump_le
  · exact Nat.le_refl _

theorem size_expect_le (k : TokenKind) : (d.expect k).size ≤ d.size := by
  unfold expect
  split
  · exact size_bump_le
  · exact Nat.le_refl _

theorem size_expectName_le : d.expectName.size ≤ d.size := by
  unfold expectName
  split
  · exact size_bumpAs_le _
  · exact Nat.le_refl _

theorem size_eatName_le : d.eatName.size ≤ d.size := by
  unfold eatName
  split
  · exact size_bumpAs_le _
  · exact Nat.le_refl _

/-- Behind the trivia stands the first token that is not trivia. -/
theorem dropWhile_of_firstSolid? {ts : List Token} {t : Token} (h : firstSolid? ts = some t) :
    ∃ us, ts.dropWhile Token.isTrivia = t :: us := by
  induction ts with
  | nil => simp [firstSolid?] at h
  | cons u us ih =>
    unfold firstSolid? at h
    split at h
    · rename_i hu
      simpa [List.dropWhile_cons, hu] using ih h
    · rename_i hu
      obtain rfl : u = t := Option.some.inj h
      exact ⟨us, by simp [hu]⟩

/-- A token that is taken is no longer left. -/
theorem size_take_skipTrivia_lt (f : Token → SyntaxTree) (h : d.atEnd = false) :
    (d.skipTrivia.take f).size < d.size := by
  obtain ⟨t, ht⟩ : ∃ t, firstSolid? d.rest = some t := by
    rw [atEnd, next?] at h
    exact Option.isSome_iff_exists.1 (by simpa using h)
  obtain ⟨us, hus⟩ := dropWhile_of_firstSolid? ht
  have hle : d.skipTrivia.size ≤ d.size := size_skipTrivia_le
  have hrest : d.skipTrivia.rest = t :: us := hus
  unfold take
  rw [hrest]
  simp only [size, hrest, List.length_cons] at hle
  simp only [size, push]
  omega

/-- Before the end the next token is really taken. -/
theorem size_bump_lt (h : d.atEnd = false) : d.bump.size < d.size :=
  size_take_skipTrivia_lt _ h

theorem size_bumpAs_lt (k : TokenKind) (h : d.atEnd = false) : (d.bumpAs k).size < d.size :=
  size_take_skipTrivia_lt _ h

/-- A kind other than `error` is the kind of a token. -/
theorem atEnd_of_kind_ne (h : d.kind ≠ .error) : d.atEnd = false := by
  cases hn : d.next? with
  | none => simp [kind, hn] at h
  | some t => simp [atEnd, hn]

/-- Where a token of a certain kind comes next the end is not reached. -/
theorem atEnd_of_at {k : TokenKind} (hk : k ≠ .error) (h : d.isAt k = true) : d.atEnd = false :=
  atEnd_of_kind_ne (by simp_all [isAt])

theorem atEnd_of_atName (h : d.atName = true) : d.atEnd = false :=
  atEnd_of_kind_ne fun he => by simp [atName, he, TokenKind.isName] at h

/-! ### Skipping -/

/-- Takes tokens as long as their kinds satisfy `p`. -/
def bumpWhile (p : TokenKind → Bool) (d : Draft) : Draft :=
  if _h : d.atEnd = false ∧ p d.kind = true then bumpWhile p d.bump else d
termination_by d.size
decreasing_by exact size_bump_lt _h.1

theorem size_bumpWhile_le (p : TokenKind → Bool) (d : Draft) : (bumpWhile p d).size ≤ d.size := by
  fun_induction bumpWhile p d with
  | case1 d h ih => exact Nat.le_trans ih size_bump_le
  | case2 => exact Nat.le_refl _

/-- Takes tokens up to one of the kinds `stops`, which is left. -/
def skipTo (stops : List TokenKind) (d : Draft) : Draft :=
  d.bumpWhile fun k => ! stops.contains k

/-- Notes a fault, and puts what follows up to one of the kinds `stops` under a node of
kind `error`, at least one token. -/
def recover (cause : FaultCause) (stops : List TokenKind) (d : Draft) : Draft :=
  let d := (d.fault cause).openNode .error
  (if d.atEnd || stops.contains d.kind then d.bump else d.skipTo stops).close

theorem size_skipTo_le (stops : List TokenKind) : (d.skipTo stops).size ≤ d.size :=
  size_bumpWhile_le _ _

/-- The first token that is not trivia stays the first when the trivia is dropped. -/
theorem firstSolid?_dropWhile (ts : List Token) :
    firstSolid? (ts.dropWhile Token.isTrivia) = firstSolid? ts := by
  induction ts with
  | nil => rfl
  | cons t ts ih =>
    by_cases h : t.isTrivia = true
    · simp [h, ih, firstSolid?]
    · simp [h, firstSolid?]

/-- What comes next does not depend on the trivia in front of it. -/
@[simp] theorem next?_skipTrivia : d.skipTrivia.next? = d.next? :=
  firstSolid?_dropWhile _

/-- A node is opened in front of the next token, not behind it. -/
@[simp] theorem next?_openNode (k : NodeKind) : (d.openNode k).next? = d.next? :=
  firstSolid?_dropWhile _

@[simp] theorem next?_fault (cause : FaultCause) : (d.fault cause).next? = d.next? := rfl

@[simp] theorem next?_close : d.close.next? = d.next? := by
  unfold close
  split <;> rfl

@[simp] theorem atEnd_openNode (k : NodeKind) : (d.openNode k).atEnd = d.atEnd := by
  simp [atEnd]

@[simp] theorem atEnd_fault (cause : FaultCause) : (d.fault cause).atEnd = d.atEnd := rfl

/-- Trivia does not count for the end. -/
@[simp] theorem atEnd_skipTrivia : d.skipTrivia.atEnd = d.atEnd := by
  simp [atEnd]

/-- Recovery takes at least one token. -/
theorem size_recover_lt (cause : FaultCause) (stops : List TokenKind) (h : d.atEnd = false) :
    (d.recover cause stops).size < d.size := by
  have hopen : ((d.fault cause).openNode .error).size ≤ d.size := size_openNode_le _
  have hend : ((d.fault cause).openNode .error).atEnd = false := by simpa using h
  unfold recover
  simp only [size_close]
  split
  · exact Nat.lt_of_lt_of_le (size_bump_lt hend) hopen
  · rename_i hs
    refine Nat.lt_of_lt_of_le ?_ hopen
    rw [skipTo, bumpWhile, dif_pos ⟨hend, by simpa [hend] using hs⟩]
    exact Nat.lt_of_le_of_lt (size_bumpWhile_le _ _) (size_bump_lt hend)

/-- Takes tokens up to and including the partner of an opening bracket; `depth` counts
the brackets that are open. A missing partner is a fault at the end of the text. -/
def bumpBalanced (opening closing : TokenKind) (depth : Nat) (d : Draft) : Draft :=
  if h : d.atEnd = false then
    if d.kind = opening then bumpBalanced opening closing (depth + 1) d.bump
    else if d.kind = closing then
      if depth ≤ 1 then d.bump else bumpBalanced opening closing (depth - 1) d.bump
    else bumpBalanced opening closing depth d.bump
  else d.fault (.unterminated opening)
termination_by d.size
decreasing_by all_goals exact size_bump_lt h

/-- Brackets are taken up to the one that closes them, or up to the end, and no token comes back. -/
theorem size_bumpBalanced_le (opening closing : TokenKind) (depth : Nat) (d : Draft) :
    (bumpBalanced opening closing depth d).size ≤ d.size := by
  fun_induction bumpBalanced opening closing depth d with
  | case1 _ _ _ _ ih => exact Nat.le_trans ih size_bump_le
  | case2 => exact size_bump_le
  | case3 _ _ _ _ _ _ ih => exact Nat.le_trans ih size_bump_le
  | case4 _ _ _ _ _ ih => exact Nat.le_trans ih size_bump_le
  | case5 => exact Nat.le_refl _

/-! ### Start and end -/

/-- The draft of a text of which nothing has been read. The root is open and holds
even the trivia at the start. -/
def start (root : NodeKind) (tokens : List Token) : Draft where
  rest := tokens
  top := ⟨root, []⟩
  outer := []
  faults := []
  textEnd := (tokens.getLast?.map Token.stop).getD 0

/-- The tree of a draft, with all open nodes closed. -/
def finish (d : Draft) : SyntaxTree :=
  let closeInto (inner f : Frame) : Frame :=
    ⟨f.kind, .node inner.kind inner.taken.reverse :: f.taken⟩
  let root := d.outer.foldl closeInto d.top
  .node root.kind root.taken.reverse

end Draft

end SolidityAtlas
