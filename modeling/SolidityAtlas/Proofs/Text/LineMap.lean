import SolidityAtlas.Text.LineMap

/-!
# Positions follow the text

An offset between two characters is reported at the position that one comes to by reading what
stands in front of it (`LineMap.position_append`). Every character takes one further, so these
positions are in the order of the offsets, and the span of a piece of text tells which piece it is.

Offsets inside a character are left out: they are no places, and what is reported for them need
not be in order.

## Main Definitions

* `Position.read`: the position behind a text that one starts to read at a position
* `IsOffset`: the offsets between two characters of a text
* `StartsAt`, `StandsAt`: a piece of a text starts at a byte, or stands in a span

## Main Results

* `LineMap.position_append`: the position of an offset
* `LineMap.position_lt_iff`, `LineMap.position_le_iff`: positions are in the order of offsets
* `StandsAt.unique`: a span holds one piece of text
-/

namespace SolidityAtlas

namespace Position

variable {p q r : Position}

protected theorem le_refl (p : Position) : p ≤ p :=
  .inr ⟨rfl, Nat.le_refl _⟩

protected theorem lt_trans (hpq : p < q) (hqr : q < r) : p < r := by
  rw [lt_def] at *
  omega

protected theorem le_trans (hpq : p ≤ q) (hqr : q ≤ r) : p ≤ r := by
  rw [le_def] at *
  omega

protected theorem lt_of_lt_of_le (hpq : p < q) (hqr : q ≤ r) : p < r := by
  rw [lt_def] at *
  rw [le_def] at hqr
  omega

protected theorem le_antisymm (hpq : p ≤ q) (hqp : q ≤ p) : p = q := by
  rw [le_def] at *
  cases p
  cases q
  rw [mk.injEq]
  simp only at hpq hqp
  omega

protected theorem le_of_lt (h : p < q) : p ≤ q := by
  rw [lt_def] at h
  rw [le_def]
  omega

protected theorem lt_irrefl (p : Position) : ¬ p < p := by
  rw [lt_def]
  omega

protected theorem not_lt_of_le (h : p ≤ q) : ¬ q < p := by
  rw [le_def] at h
  rw [lt_def]
  omega

/-- The position behind a character that stands at a position. -/
def behind (p : Position) (c : Char) : Position :=
  if c = '\n' then ⟨p.line + 1, 0⟩ else ⟨p.line, p.column + units16 c⟩

/-- The position behind a row of characters that starts at a position. -/
def read (p : Position) (cs : List Char) : Position :=
  cs.foldl behind p

@[simp] theorem read_nil (p : Position) : p.read [] = p := rfl

@[simp] theorem read_cons (p : Position) (c : Char) (cs : List Char) :
    p.read (c :: cs) = (p.behind c).read cs := rfl

/-- Reading goes on where it stopped. -/
theorem read_append (p : Position) (cs ds : List Char) :
    p.read (cs ++ ds) = (p.read cs).read ds :=
  List.foldl_append

/-- Every character takes one further. -/
theorem lt_behind (p : Position) (c : Char) : p < p.behind c := by
  have hunits : 0 < units16 c := by
    unfold units16
    split <;> omega
  unfold behind
  split
  · exact .inl (Nat.lt_succ_self _)
  · exact .inr ⟨rfl, Nat.lt_add_of_pos_right hunits⟩

/-- Reading a character moves a position forward. -/
theorem lt_read {cs : List Char} (p : Position) (h : cs ≠ []) : p < p.read cs := by
  induction cs generalizing p with
  | nil => exact absurd rfl h
  | cons c cs ih =>
      by_cases hcs : cs = []
      · rw [hcs]
        exact lt_behind p c
      · exact Position.lt_trans (lt_behind p c) (ih _ hcs)

end Position

/-! ## Offsets -/

/-- The length of a text in bytes is added up over its characters. -/
theorem utf8ByteSize_ofList_cons (c : Char) (cs : List Char) :
    (String.ofList (c :: cs)).utf8ByteSize = c.utf8Size + (String.ofList cs).utf8ByteSize := by
  rw [String.ofList_cons, String.utf8ByteSize_append, String.utf8ByteSize_singleton]

/-- An offset of a text that does not fall into a character. -/
def IsOffset (text : String) (n : Nat) : Prop :=
  ∃ front back, text = front ++ back ∧ front.utf8ByteSize = n

/-- Of two ways to cut a text, the one with more in front has the other one's front in its own. -/
theorem exists_append_of_utf8ByteSize_le {front back front' back' : String}
    (h : front ++ back = front' ++ back') (hle : front.utf8ByteSize ≤ front'.utf8ByteSize) :
    ∃ between, front' = front ++ between ∧ back = between ++ back' := by
  have hchars := congrArg String.toList h
  rw [String.toList_append, String.toList_append, List.append_eq_append_iff] at hchars
  rcases hchars with ⟨cs, hfront, hback⟩ | ⟨cs, hfront, hback⟩
  · refine ⟨String.ofList cs, String.toList_injective ?_, String.toList_injective ?_⟩
    · rw [hfront, String.toList_append, String.toList_ofList]
    · rw [hback, String.toList_append, String.toList_ofList]
  · have hsplit : front = front' ++ String.ofList cs :=
      String.toList_injective (by rw [hfront, String.toList_append, String.toList_ofList])
    rw [hsplit, String.utf8ByteSize_append] at hle
    have hempty : String.ofList cs = "" := String.utf8ByteSize_eq_zero_iff.1 (by omega)
    rw [hempty, String.append_empty] at hsplit
    have hnil : cs = [] := by rw [← String.toList_ofList (l := cs), hempty, String.toList_empty]
    rw [hnil, List.nil_append] at hback
    exact ⟨"", by rw [hsplit, String.append_empty],
      by rw [String.empty_append, String.toList_injective hback]⟩

/-- A text is cut in one way at a number of bytes. -/
theorem append_inj_of_utf8ByteSize_eq {front back front' back' : String}
    (h : front ++ back = front' ++ back') (heq : front.utf8ByteSize = front'.utf8ByteSize) :
    front = front' ∧ back = back' := by
  obtain ⟨between, rfl, rfl⟩ := exists_append_of_utf8ByteSize_le h (Nat.le_of_eq heq)
  rw [String.utf8ByteSize_append] at heq
  obtain rfl : between = "" := String.utf8ByteSize_eq_zero_iff.1 (by omega)
  exact ⟨String.append_empty.symm, String.empty_append⟩

namespace LineMap

/-- Seeking the end of a front reads the front. -/
theorem seek_append (front back : List Char) (here lineStart : Nat) (p : Position) :
    seek (here + (String.ofList front).utf8ByteSize) (front ++ back) here lineStart p =
      p.read front := by
  induction front generalizing here lineStart p with
  | nil =>
      cases back with
      | nil => rfl
      | cons c cs => simp [seek]
  | cons c cs ih =>
      have hsize : 0 < c.utf8Size := c.utf8Size_pos
      rw [utf8ByteSize_ofList_cons, List.cons_append, seek, if_neg (by omega), if_neg (by omega),
        ← Nat.add_assoc, Position.read_cons, Position.behind]
      split <;> exact ih _ _ _

/-- An offset is reported at the position behind what stands in front of it. -/
theorem position_append (front back : String) :
    (ofText (front ++ back)).position front.utf8ByteSize = (⟨0, 0⟩ : Position).read front.toList := by
  have hseek := seek_append front.toList back.toList 0 0 ⟨0, 0⟩
  rwa [Nat.zero_add, String.ofList_toList, ← String.toList_append] at hseek

variable {text : String} {a b : Nat}

/-- Offsets further on have positions further on. -/
theorem position_lt_of_lt (ha : IsOffset text a) (hb : IsOffset text b) (h : a < b) :
    (ofText text).position a < (ofText text).position b := by
  obtain ⟨front, back, rfl, rfl⟩ := ha
  obtain ⟨front', back', htext, rfl⟩ := hb
  obtain ⟨between, rfl, -⟩ := exists_append_of_utf8ByteSize_le htext (Nat.le_of_lt h)
  rw [position_append, htext, position_append, String.toList_append, Position.read_append]
  refine Position.lt_read _ fun hnil => ?_
  rw [String.toList_eq_nil_iff.1 hnil, String.append_empty] at h
  exact Nat.lt_irrefl _ h

/-- Positions are in the order of the offsets. -/
theorem position_lt_iff (ha : IsOffset text a) (hb : IsOffset text b) :
    (ofText text).position a < (ofText text).position b ↔ a < b := by
  refine ⟨fun h => ?_, position_lt_of_lt ha hb⟩
  rcases Nat.lt_trichotomy a b with hlt | rfl | hlt
  · exact hlt
  · exact absurd h (Position.lt_irrefl _)
  · exact absurd (Position.lt_trans h (position_lt_of_lt hb ha hlt)) (Position.lt_irrefl _)

/-- Positions are ordered as their offsets are. -/
theorem position_le_iff (ha : IsOffset text a) (hb : IsOffset text b) :
    (ofText text).position a ≤ (ofText text).position b ↔ a ≤ b := by
  constructor
  · intro h
    exact Nat.not_lt.1 fun hlt => Position.not_lt_of_le h (position_lt_of_lt hb ha hlt)
  · intro h
    rcases Nat.eq_or_lt_of_le h with rfl | hlt
    · exact Position.le_refl _
    · exact Position.le_of_lt (position_lt_of_lt ha hb hlt)

/-- A position is that of one offset. -/
theorem position_inj (ha : IsOffset text a) (hb : IsOffset text b) :
    (ofText text).position a = (ofText text).position b ↔ a = b := by
  refine ⟨fun h => Nat.le_antisymm ?_ ?_, fun h => by rw [h]⟩
  · exact (position_le_iff ha hb).1 (h ▸ Position.le_refl _)
  · exact (position_le_iff hb ha).1 (h ▸ Position.le_refl _)

/-- Spans are told apart by their offsets. -/
theorem span_inj {a' b' : Nat} (ha : IsOffset text a) (hb : IsOffset text b)
    (ha' : IsOffset text a') (hb' : IsOffset text b') :
    (ofText text).span a b = (ofText text).span a' b' ↔ a = a' ∧ b = b' := by
  rw [span, span, Span.mk.injEq, position_inj ha ha', position_inj hb hb']

/-- Spans lie in each other as the pieces of the text do. -/
theorem isWithin_span {a' b' : Nat} (ha : IsOffset text a) (hb : IsOffset text b)
    (ha' : IsOffset text a') (hb' : IsOffset text b') :
    ((ofText text).span a b).isWithin ((ofText text).span a' b') = true ↔ a' ≤ a ∧ b ≤ b' := by
  rw [Span.isWithin, decide_eq_true_iff, span, span, position_le_iff ha' ha, position_le_iff hb hb']

end LineMap

/-! ## Pieces -/

/-- A piece of a text starts at a byte. -/
def StartsAt (text piece : String) (start : Nat) : Prop :=
  ∃ front back, text = front ++ (piece ++ back) ∧ front.utf8ByteSize = start

/-- A piece of a text stands in a span. -/
def StandsAt (text piece : String) (range : Span) : Prop :=
  ∃ start, StartsAt text piece start ∧
    (LineMap.ofText text).span start (start + piece.utf8ByteSize) = range

section Pieces

variable {text piece : String} {start : Nat}

/-- A piece starts at an offset. -/
theorem StartsAt.isOffset (h : StartsAt text piece start) : IsOffset text start := by
  obtain ⟨front, back, rfl, rfl⟩ := h
  exact ⟨front, piece ++ back, rfl, rfl⟩

/-- A piece ends at an offset. -/
theorem StartsAt.isOffset_stop (h : StartsAt text piece start) :
    IsOffset text (start + piece.utf8ByteSize) := by
  obtain ⟨front, back, rfl, rfl⟩ := h
  exact ⟨front ++ piece, back, String.append_assoc.symm, String.utf8ByteSize_append⟩

/-- The parts of a piece stand one behind the other. -/
theorem StartsAt.left {piece' : String} (h : StartsAt text (piece ++ piece') start) :
    StartsAt text piece start := by
  obtain ⟨front, back, rfl, rfl⟩ := h
  exact ⟨front, piece' ++ back, by rw [String.append_assoc], rfl⟩

/-- The second half of a piece starts where the first one ends. -/
theorem StartsAt.right {piece' : String} (h : StartsAt text (piece ++ piece') start) :
    StartsAt text piece' (start + piece.utf8ByteSize) := by
  obtain ⟨front, back, rfl, rfl⟩ := h
  exact ⟨front ++ piece, back, by simp only [String.append_assoc], String.utf8ByteSize_append⟩

theorem startsAt_self (text : String) : StartsAt text text 0 :=
  ⟨"", "", by simp, rfl⟩

/-- In a span stands one piece of text. -/
theorem StandsAt.unique {piece' : String} {range : Span} (h : StandsAt text piece range)
    (h' : StandsAt text piece' range) : piece = piece' := by
  obtain ⟨start, hstart, rfl⟩ := h
  obtain ⟨start', hstart', hspan⟩ := h'
  obtain ⟨rfl, hstop⟩ := (LineMap.span_inj hstart'.isOffset hstart'.isOffset_stop hstart.isOffset
    hstart.isOffset_stop).1 hspan
  obtain ⟨front, back, rfl, rfl⟩ := hstart
  obtain ⟨front', back', htext, hsize⟩ := hstart'
  obtain ⟨rfl, hbehind⟩ := append_inj_of_utf8ByteSize_eq htext hsize.symm
  exact (append_inj_of_utf8ByteSize_eq hbehind (by omega)).1

end Pieces

end SolidityAtlas
