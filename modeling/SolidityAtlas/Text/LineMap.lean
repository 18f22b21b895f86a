import SolidityAtlas.Text.Position

/-!
# From byte offsets to positions

Tools that read source text count bytes of its UTF-8 form; editors ask for
lines and columns, and count a column in UTF-16 code units. A `LineMap` holds a
text and turns the one into the other.

A line ends behind its newline character, so a newline at the end of the text
opens an empty last line. An offset behind the end of the text stands for the
end. An offset inside a character is no place at all; it is reported on its line
by the number of bytes from the start of that line.

## Main Definitions

* `units16`: the length of a character in UTF-16 code units
* `LineMap.position`: the position of a byte offset
* `LineMap.span`: the span of a pair of byte offsets
-/

namespace SolidityAtlas

/-- How many UTF-16 code units a character takes. -/
def units16 (c : Char) : Nat :=
  if c.toNat < 0x10000 then 1 else 2

/-- A text, ready to be asked for positions. -/
structure LineMap where
  chars : List Char
deriving Inhabited

namespace LineMap

/-- The map of a text. -/
def ofText (text : String) : LineMap :=
  ⟨text.toList⟩

/-- The number of lines: one more than there are newlines. -/
def lineCount (m : LineMap) : Nat :=
  m.chars.count '\n' + 1

/-- The position of byte `target`, read on from byte `here` at position `p`;
`lineStart` is the byte at which the line of `p` begins. -/
def seek (target : Nat) : List Char → (here lineStart : Nat) → Position → Position
  | [], _, _, p => p
  | c :: cs, here, lineStart, p =>
    if target ≤ here then p
    else if target < here + c.utf8Size then ⟨p.line, target - lineStart⟩
    else if c = '\n' then
      seek target cs (here + c.utf8Size) (here + c.utf8Size) ⟨p.line + 1, 0⟩
    else
      seek target cs (here + c.utf8Size) lineStart ⟨p.line, p.column + units16 c⟩

/-- The position of a byte offset. -/
def position (m : LineMap) (offset : Nat) : Position :=
  seek offset m.chars 0 0 ⟨0, 0⟩

/-- The span between two byte offsets. -/
def span (m : LineMap) (start stop : Nat) : Span :=
  ⟨m.position start, m.position stop⟩

end LineMap

end SolidityAtlas
