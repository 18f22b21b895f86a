import SolidityAtlas.Token.Word

/-!
# Lexemes

How long the token at the start of a text is, and of which kind. Two families of
rules decide.

*Delimited* tokens have a beginning that nothing else has (`/*`, a quote,
`hex"`, `unicode'`), and run to a matching end. If the end does not come, the
stretch up to the place where the token could not go on is an error.

*Open-ended* tokens (blanks, line comments, words, numbers, operators) are as
long as their rule allows, and of several the longest wins. If no rule applies,
a single character is an error.

## Main Definitions

* `delimited?`: the delimited token at the start of a text
* `openEnded?`: the longest open-ended token at the start of a text
* `lexeme`: kind and length of the token at the start of a text
-/

namespace SolidityAtlas

namespace Lexeme

/-- The characters between tokens. -/
def isSpace (c : Char) : Bool :=
  c == ' ' || c == '\t' || c == '\r' || c == '\n' || c == '\x0c'

/-- The characters a word starts with. -/
def isWordStart (c : Char) : Bool :=
  c.isAlpha || c == '_' || c == '$'

/-- The characters a word goes on with. -/
def isWordPart (c : Char) : Bool :=
  isWordStart c || c.isDigit

/-- The characters a decimal number goes on with. -/
def isDigitPart (c : Char) : Bool :=
  c.isDigit || c == '_'

/-- The characters of a hexadecimal number. -/
def isHexPart (c : Char) : Bool :=
  isDigitPart c || ('a' ≤ c && c ≤ 'f') || ('A' ≤ c && c ≤ 'F')

/-- How many characters of a class stand at the start of a text. -/
def run (p : Char → Bool) (cs : List Char) : Nat :=
  (cs.takeWhile p).length

/-- A number that must not be zero. -/
def positive? (n : Nat) : Option Nat :=
  if n = 0 then none else some n

/-- Blanks. -/
def space? (cs : List Char) : Option Nat :=
  positive? (run isSpace cs)

/-- A comment from `//` to the end of the line. -/
def lineComment? : List Char → Option Nat
  | '/' :: '/' :: cs => some (2 + run (· != '\n') cs)
  | _ => none

/-- A word. -/
def word? : List Char → Option Nat
  | c :: cs => if isWordStart c then some (1 + run isWordPart cs) else none
  | [] => none

/-- Digits, with underscores behind the first one. -/
def digits? : List Char → Option Nat
  | c :: cs => if c.isDigit then some (1 + run isDigitPart cs) else none
  | [] => none

/-- The length of a fraction, zero if there is none. -/
def fraction : List Char → Nat
  | '.' :: cs => (digits? cs).elim 0 (1 + ·)
  | _ => 0

/-- The length of an exponent, zero if there is none. -/
def exponent : List Char → Nat
  | c :: '-' :: cs => if c = 'e' ∨ c = 'E' then (digits? cs).elim 0 (2 + ·) else 0
  | c :: cs => if c = 'e' ∨ c = 'E' then (digits? cs).elim 0 (1 + ·) else 0
  | [] => 0

/-- A decimal number: digits, then a fraction, then an exponent. -/
def decimal? (cs : List Char) : Option Nat :=
  (digits? cs).map fun n =>
    let m := n + fraction (cs.drop n)
    m + exponent (cs.drop m)

/-- A hexadecimal number: `0x` and at least one digit. -/
def hex? : List Char → Option Nat
  | '0' :: x :: cs => if x = 'x' ∨ x = 'X' then (positive? (run isHexPart cs)).map (2 + ·) else none
  | _ => none

/-- An operator or bracket, the longest that fits. -/
def mark? (cs : List Char) : Option (TokenKind × Nat) :=
  punctuation.foldl
    (fun best (text, kind) =>
      if text.toList.isPrefixOf cs ∧ best.all (·.2 < text.length) then some (kind, text.length)
      else best)
    none

/-- How far a delimited token runs, and whether its end was found. -/
structure Extent where
  length : Nat
  closed : Bool
deriving DecidableEq, Inhabited

/-- The extent with `n` characters in front. -/
def Extent.shift (n : Nat) (e : Extent) : Extent :=
  ⟨n + e.length, e.closed⟩

/-- The inside of quoted text and the closing quote. A backslash takes the next
character with it; no newline may occur. -/
def quoted (quote : Char) : List Char → Extent
  | [] => ⟨0, false⟩
  | '\\' :: c :: cs => if c = '\n' then ⟨0, false⟩ else (quoted quote cs).shift 2
  | c :: cs =>
    if c = quote then ⟨1, true⟩
    else if c = '\\' ∨ c = '\n' then ⟨0, false⟩
    else (quoted quote cs).shift 1

/-- The digits of hexadecimal text and the closing quote. -/
def hexQuoted (quote : Char) (cs : List Char) : Extent :=
  let n := run isHexPart cs
  if (cs.drop n).head? = some quote then ⟨n + 1, true⟩ else ⟨n, false⟩

/-- The rest of a comment up to and including the first `*/`. -/
def commentBody : List Char → Extent
  | '*' :: '/' :: _ => ⟨2, true⟩
  | _ :: cs => (commentBody cs).shift 1
  | [] => ⟨0, false⟩

/-- The quote a text starts with. -/
def quote? : List Char → Option Char
  | c :: _ => if c = '"' ∨ c = '\'' then some c else none
  | [] => none

/-- Quoted text that follows a fixed beginning. -/
def quotedAfter? (front : String) (inside : Char → List Char → Extent) (cs : List Char) :
    Option Extent := do
  let rest ← dropFront? front.toList cs
  let quote ← quote? rest
  return (inside quote rest.tail).shift (front.length + 1)

/-- A comment in `/* … */`. -/
def blockComment? (cs : List Char) : Option Extent :=
  (dropFront? ['/', '*'] cs).map fun rest => (commentBody rest).shift 2

end Lexeme

open Lexeme

/-- The delimited token at the start of a text. -/
def delimited? (cs : List Char) : Option (TokenKind × Extent) :=
  [ (TokenKind.blockComment, blockComment? cs),
    (.string, quotedAfter? "" quoted cs),
    (.string, quotedAfter? "unicode" quoted cs),
    (.hexString, quotedAfter? "hex" hexQuoted cs) ].findSome?
      fun (kind, extent?) => extent?.map (kind, ·)

/-- Of two lengths with their kinds the greater one, the first at a tie. -/
def longer (best : Option (TokenKind × Nat)) (next : Option (TokenKind × Nat)) :
    Option (TokenKind × Nat) :=
  match best, next with
  | some b, some n => if b.2 < n.2 then some n else some b
  | some b, none => some b
  | none, n => n

/-- The longest open-ended token at the start of a text. -/
def openEnded? (cs : List Char) : Option (TokenKind × Nat) :=
  [ (space? cs).map (TokenKind.whitespace, ·),
    (lineComment? cs).map (TokenKind.lineComment, ·),
    (word? cs).map fun n => (classify (String.ofList (cs.take n)), n),
    (decimal? cs).map (TokenKind.decimalNumber, ·),
    (hex? cs).map (TokenKind.hexNumber, ·),
    mark? cs ].foldl longer none

/-- Kind and length of the token at the start of a text. -/
def lexeme (cs : List Char) : TokenKind × Nat :=
  match delimited? cs with
  | some (kind, extent) => (if extent.closed then kind else .error, extent.length)
  | none => (openEnded? cs).getD (.error, 1)

end SolidityAtlas
