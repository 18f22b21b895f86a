import SolidityAtlas.Token.Lexeme

/-!
# Token streams

A text is cut into tokens from left to right. Every character belongs to exactly
one token, and a token knows where it starts, in bytes.

## Main Definitions

* `Token`, `Token.stop`: a piece of text, its kind and its place
* `tokenize`: the tokens of a text
-/

namespace SolidityAtlas

/-- A piece of a text, with its kind and the byte at which it starts. -/
structure Token where
  kind : TokenKind
  text : String
  start : Nat
deriving DecidableEq, Inhabited

namespace Token

/-- The byte behind the token. -/
def stop (t : Token) : Nat :=
  t.start + t.text.utf8ByteSize

/-- White space and comments. -/
def isTrivia (t : Token) : Bool :=
  t.kind.isTrivia

end Token

/-- The tokens of the rest of a text that starts at byte `start`. -/
def tokensFrom (start : Nat) : List Char → List Token
  | [] => []
  | c :: cs =>
    let (kind, length) := lexeme (c :: cs)
    let text := String.ofList (c :: cs.take (length - 1))
    ⟨kind, text, start⟩ :: tokensFrom (start + text.utf8ByteSize) (cs.drop (length - 1))
termination_by cs => cs.length
decreasing_by
  simp only [List.length_drop, List.length_cons]
  omega

/-- The tokens of a text. -/
def tokenize (text : String) : List Token :=
  tokensFrom 0 text.toList

end SolidityAtlas
