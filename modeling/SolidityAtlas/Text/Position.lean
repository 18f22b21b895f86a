/-!
# Positions and spans

A `Position` is a zero-based line and a zero-based column, ordered by line and
then by column. A `Span` is a pair of positions. Both ends of a span belong to
it: a cursor behind the last character of a name still points at the name.

## Main Definitions

* `Position`, with its lexicographic order
* `Span.contains`: whether a cursor touches a span
* `Span.isWithin`: whether one span lies inside another
-/

namespace SolidityAtlas

/-- A place in a text: line and column, both counted from zero. -/
structure Position where
  line : Nat
  column : Nat
deriving DecidableEq, Inhabited

namespace Position

/-- Positions are ordered as one reads: by line, then by column. -/
instance : LE Position where
  le p q := p.line < q.line ∨ p.line = q.line ∧ p.column ≤ q.column

/-- The strict order by line, then by column. -/
instance : LT Position where
  lt p q := p.line < q.line ∨ p.line = q.line ∧ p.column < q.column

/-- Positions are ordered by their lines, and within a line by their columns. -/
theorem le_def {p q : Position} :
    p ≤ q ↔ p.line < q.line ∨ p.line = q.line ∧ p.column ≤ q.column :=
  Iff.rfl

/-- A position comes before another one in an earlier line, or further left in the same one. -/
theorem lt_def {p q : Position} :
    p < q ↔ p.line < q.line ∨ p.line = q.line ∧ p.column < q.column :=
  Iff.rfl

instance (p q : Position) : Decidable (p ≤ q) :=
  decidable_of_iff _ le_def.symm

instance (p q : Position) : Decidable (p < q) :=
  decidable_of_iff _ lt_def.symm

end Position

/-- The stretch of a text between two positions. -/
structure Span where
  start : Position
  stop : Position
deriving DecidableEq, Inhabited

namespace Span

/-- Whether `p` falls into the span, both ends included. -/
def contains (s : Span) (p : Position) : Bool :=
  decide (s.start ≤ p ∧ p ≤ s.stop)

/-- Whether the span lies entirely inside `outer`. -/
def isWithin (s outer : Span) : Bool :=
  decide (outer.start ≤ s.start ∧ s.stop ≤ outer.stop)

end Span

end SolidityAtlas
