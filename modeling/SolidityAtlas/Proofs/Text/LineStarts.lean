import Mathlib.Algebra.GroupWithZero.Nat
import Mathlib.Data.List.DropRight
import SolidityAtlas.Proofs.Text.ByteOrder
import SolidityAtlas.Proofs.Text.LineMap

/-!
# Positions by the starts of lines

A position can be looked up instead of being read. The starts of the lines are an ascending row
of bytes, a search by halves finds the last of them that is not behind the offset, and what is
left of the line in front of the offset is measured. Each step could fail: the search could end
in front of the first line, the line could be none of the text, and the offset could stand in
front of it. None of this happens, for no offset (`lookUp?_eq`). So the position of an offset
between two characters is the number of newline bytes in front of it and the length of what
stands behind the last of them (`position_is_exact`).

## Main Definitions

* `searchBetween`: search by halves
* `lineStarts`: the bytes at which lines start
* `lookUp?`: a position by search and measure, with all ways to fail
* `lastLine`: what stands behind the last newline

## Main Results

* `LineMap.lookUp?_eq`, `LineMap.position_is_exact`
-/

namespace SolidityAtlas

/-! ## Search by halves -/

/-- The place of a number in an ascending row, or, as an error, the place that it had to be put
to. Only the places from `lo` on and before `hi` are looked at. -/
def searchBetween (row : List Nat) (x lo hi : Nat) : Except Nat Nat :=
  if lo < hi then
    let middle := (lo + hi) / 2
    match row[middle]? with
    | none => .error lo
    | some y =>
      if y = x then .ok middle
      else if y < x then searchBetween row x (middle + 1) hi
      else searchBetween row x lo middle
  else .error lo
termination_by hi - lo

section Search

variable {row : List Nat} {x lo hi : Nat}

/-- What a search answers: a place where the number stands, or the place between what is less and
what is greater. -/
def Placed (row : List Nat) (x : Nat) : Except Nat Nat → Prop
  | .ok i => row[i]? = some x
  | .error i => i ≤ row.length ∧ (∀ j y, row[j]? = some y → j < i → y < x) ∧
      ∀ j y, row[j]? = some y → i ≤ j → x < y

/-- In an ascending row, what stands further on is larger. -/
theorem getElem?_lt (h : row.Pairwise (· < ·)) {i j y z : Nat} (hi : row[i]? = some y)
    (hj : row[j]? = some z) (hlt : i < j) : y < z := by
  obtain ⟨hil, rfl⟩ := List.getElem?_eq_some_iff.1 hi
  obtain ⟨hjl, rfl⟩ := List.getElem?_eq_some_iff.1 hj
  exact List.pairwise_iff_getElem.1 h i j hil hjl hlt

/-- Each step keeps what is less in front of `lo` and what is greater behind `hi`. -/
theorem placed_searchBetween (h : row.Pairwise (· < ·)) (hle : lo ≤ hi) (hhi : hi ≤ row.length)
    (hless : ∀ j y, row[j]? = some y → j < lo → y < x)
    (hgreater : ∀ j y, row[j]? = some y → hi ≤ j → x < y) :
    Placed row x (searchBetween row x lo hi) := by
  fun_induction searchBetween row x lo hi with
  | case1 lo hi hlt middle hnone =>
      have hout := List.getElem?_eq_none_iff.1 hnone
      omega
  | case2 lo hi hlt middle hfound => exact hfound
  | case3 lo hi hlt middle y hmiddle hne hyx ih =>
      refine ih (by omega) hhi (fun j z hz hj => ?_) hgreater
      rcases Nat.lt_or_eq_of_le (Nat.le_of_lt_succ hj) with hj | rfl
      · exact (getElem?_lt h hz hmiddle hj).trans hyx
      · rw [hmiddle] at hz
        exact Option.some.inj hz ▸ hyx
  | case4 lo hi hlt middle y hmiddle hne hyx ih =>
      have hxy : x < y := by omega
      refine ih (by omega) (by omega) hless fun j z hz hj => ?_
      rcases Nat.lt_or_eq_of_le hj with hj | rfl
      · exact hxy.trans (getElem?_lt h hmiddle hz hj)
      · rw [hmiddle] at hz
        exact Option.some.inj hz ▸ hxy
  | case5 lo hi hge =>
      obtain rfl : lo = hi := by omega
      exact ⟨hhi, hless, hgreater⟩

/-! In a row cut in two, the first part not greater than the number and the second part greater,
the place is at the cut. -/

variable {below above : List Nat} {i : Nat}

/-- A number that is found stands last among those that are not larger. -/
theorem Placed.add_one_eq_length (h : Placed (below ++ above) x (.ok i))
    (hrow : (below ++ above).Pairwise (· < ·)) (hbelow : ∀ n ∈ below, n ≤ x)
    (habove : ∀ n ∈ above, x < n) : i + 1 = below.length := by
  have hfound : (below ++ above)[i]? = some x := h
  rcases Nat.lt_trichotomy (i + 1) below.length with hlt | heq | hgt
  · have hnext : (below ++ above)[i + 1]? = some below[i + 1] := by
      rw [List.getElem?_append_left hlt, List.getElem?_eq_getElem]
    have hless := getElem?_lt hrow hfound hnext (Nat.lt_succ_self i)
    exact absurd hless (Nat.not_lt.2 (hbelow _ (List.getElem_mem hlt)))
  · exact heq
  · rw [List.getElem?_append_right (Nat.le_of_lt_succ hgt)] at hfound
    exact absurd (habove x (List.mem_of_getElem? hfound)) (Nat.lt_irrefl x)

/-- A number that is not found belongs between the smaller and the larger ones. -/
theorem Placed.eq_length (h : Placed (below ++ above) x (.error i))
    (hbelow : ∀ n ∈ below, n ≤ x) (habove : ∀ n ∈ above, x < n) : i = below.length := by
  obtain ⟨hi, hless, hgreater⟩ := h
  rcases Nat.lt_trichotomy i below.length with hlt | heq | hgt
  · have hget : (below ++ above)[i]? = some below[i] := by
      rw [List.getElem?_append_left hlt, List.getElem?_eq_getElem]
    exact absurd (hgreater _ _ hget (Nat.le_refl i))
      (Nat.not_lt.2 (hbelow _ (List.getElem_mem hlt)))
  · exact heq
  · have hin : below.length < (below ++ above).length := Nat.lt_of_lt_of_le hgt hi
    have hget := List.getElem?_eq_getElem hin
    have hx := hless _ _ hget hgt
    rw [List.getElem?_append_right (Nat.le_refl _)] at hget
    exact absurd (habove _ (List.mem_of_getElem? hget)) hx.asymm

end Search

/-! ## Lines -/

/-- The byte of a newline. -/
def newlineByte : UInt8 := 10

/-- The bytes behind newlines in the rest of a text that starts at byte `here`. -/
def startsBehind (here : Nat) : List UInt8 → List Nat
  | [] => []
  | b :: bs =>
    if b = newlineByte then (here + 1) :: startsBehind (here + 1) bs
    else startsBehind (here + 1) bs

/-- The bytes at which the lines of a text start. -/
def lineStarts (text : String) : List Nat :=
  0 :: startsBehind 0 (textBytes text)

/-- The characters of the first `n` bytes, if no character is cut. -/
def takeBytes? : Nat → List Char → Option (List Char)
  | 0, _ => some []
  | _ + 1, [] => none
  | n + 1, c :: cs =>
    if c.utf8Size ≤ n + 1 then (takeBytes? (n + 1 - c.utf8Size) cs).map (c :: ·) else none

/-- The characters behind the first `n` bytes, if no character is cut. -/
def dropBytes? : Nat → List Char → Option (List Char)
  | 0, cs => some cs
  | _ + 1, [] => none
  | n + 1, c :: cs => if c.utf8Size ≤ n + 1 then dropBytes? (n + 1 - c.utf8Size) cs else none

/-- The characters between two bytes, if no character is cut. -/
def slice? (text : String) (start stop : Nat) : Option (List Char) :=
  (dropBytes? start text.toList).bind (takeBytes? (stop - start))

/-- The length of a row of characters in UTF-16 code units. -/
def units16Of (cs : List Char) : Nat :=
  (cs.map units16).sum

/-- The line on which a byte falls, by the starts of the lines. There is none if the byte stands in
front of the first line. -/
def lineIn? (starts : List Nat) (offset : Nat) : Option Nat :=
  match searchBetween starts offset 0 starts.length with
  | .ok line => some line
  | .error 0 => none
  | .error (line + 1) => some line

namespace LineMap

/-- The position of a byte, by the starts of the lines: it is `none` if no line is found, if that
line is not there, or if the line starts behind the byte. -/
def lookUp? (text : String) (offset : Nat) : Option Position := do
  let offset := min offset text.utf8ByteSize
  let line ← lineIn? (lineStarts text) offset
  let start ← (lineStarts text)[line]?
  if offset < start then none
  else some ⟨line, ((slice? text start offset).map units16Of).getD (offset - start)⟩

end LineMap

/-- What stands behind the last newline, or all if there is none. -/
def lastLine (cs : List Char) : List Char :=
  cs.rtakeWhile (· != '\n')

/-- What stands in front of the last line, up to its newline. -/
def linesBefore (cs : List Char) : List Char :=
  cs.rdropWhile (· != '\n')

/-! ## The starts of lines -/

section Starts

variable {here : Nat} {as bs : List UInt8}

/-- The lines of a text start where those of its halves do. -/
theorem startsBehind_append (here : Nat) (as bs : List UInt8) :
    startsBehind here (as ++ bs) = startsBehind here as ++ startsBehind (here + as.length) bs := by
  induction as generalizing here with
  | nil => rfl
  | cons a as ih =>
      rw [List.cons_append, startsBehind, startsBehind, ih, List.length_cons, Nat.add_right_comm,
        Nat.add_assoc]
      split
      · rfl
      · rfl

/-- Without a newline no further line starts. -/
theorem startsBehind_of_not_mem (h : newlineByte ∉ bs) : startsBehind here bs = [] := by
  induction bs generalizing here with
  | nil => rfl
  | cons b bs ih =>
      obtain ⟨hb, hbs⟩ := not_or.1 (mt List.mem_cons.2 h)
      rw [startsBehind, if_neg (Ne.symm hb), ih hbs]

/-- A line starts behind a newline of the bytes. -/
theorem mem_startsBehind {n : Nat} (h : n ∈ startsBehind here bs) :
    here < n ∧ n ≤ here + bs.length := by
  induction bs generalizing here with
  | nil => cases h
  | cons b bs ih =>
      rw [startsBehind] at h
      rw [List.length_cons]
      split at h
      · rcases List.mem_cons.1 h with rfl | h
        · omega
        · have := ih h
          omega
      · have := ih h
        omega

/-- The starts are ascending. -/
theorem pairwise_startsBehind (here : Nat) (bs : List UInt8) :
    (startsBehind here bs).Pairwise (· < ·) := by
  induction bs generalizing here with
  | nil => exact .nil
  | cons b bs ih =>
      rw [startsBehind]
      split
      · exact .cons (fun n hn => (mem_startsBehind hn).1) (ih _)
      · exact ih _

/-- As many lines start as there are newlines. -/
theorem length_startsBehind (here : Nat) (bs : List UInt8) :
    (startsBehind here bs).length = bs.count newlineByte := by
  induction bs generalizing here with
  | nil => rfl
  | cons b bs ih =>
      rw [startsBehind, List.count_cons]
      by_cases hb : b = newlineByte
      · rw [if_pos hb, List.length_cons, ih, hb, beq_self_eq_true, if_pos rfl]
      · rw [if_neg hb, ih, if_neg (by rwa [beq_iff_eq]), Nat.add_zero]

end Starts

/-! ### Bytes of characters -/

/-- The byte of a newline is in the bytes of a newline only. -/
theorem newlineByte_mem_encode {c : Char} (h : newlineByte ∈ String.utf8EncodeChar c) :
    c = '\n' := by
  have hbound : c.val.toNat < 1114112 := by
    rcases c.valid with hlow | ⟨-, hhigh⟩
    · exact Nat.lt_trans hlow (by decide)
    · exact hhigh
  have hbyte : ∀ n < 256, newlineByte = UInt8.ofNat n → n = 10 := fun n hn heq => by
    have hnat := congrArg UInt8.toNat heq
    rw [UInt8.toNat_ofNat', Nat.mod_eq_of_lt hn] at hnat
    exact hnat.symm
  have hlarge : ∀ n, 128 ≤ n → n < 256 → newlineByte ≠ UInt8.ofNat n := fun n hle hn heq => by
    have := hbyte n hn heq
    omega
  have hcode : c.val.toNat = 10 := by
    unfold String.utf8EncodeChar at h
    simp only at h
    -- Longer encodings have bytes from 128 on only.
    split_ifs at h with hone htwo hthree
    · exact hbyte _ (by omega) (List.mem_singleton.1 h)
    all_goals simp only [List.mem_cons, List.not_mem_nil, or_false] at h
    · rcases h with h | h <;> exact absurd h (hlarge _ (by omega) (by omega))
    · rcases h with h | h | h <;> exact absurd h (hlarge _ (by omega) (by omega))
    · rcases h with h | h | h | h <;> exact absurd h (hlarge _ (by omega) (by omega))
  exact Char.ext (UInt32.toNat_inj.1 hcode)

/-- The bytes of two texts follow each other. -/
theorem textBytes_append (front back : String) :
    textBytes (front ++ back) = textBytes front ++ textBytes back := by
  rw [textBytes_eq, textBytes_eq, textBytes_eq, String.toList_append, List.flatMap_append]

theorem textBytes_ofList_cons (c : Char) (cs : List Char) :
    textBytes (String.ofList (c :: cs)) =
      String.utf8EncodeChar c ++ textBytes (String.ofList cs) := by
  rw [textBytes_eq, textBytes_eq, String.toList_ofList, String.toList_ofList, List.flatMap_cons]

/-- A text has as many bytes as its length says. -/
theorem length_textBytes (text : String) : (textBytes text).length = text.utf8ByteSize := by
  rw [textBytes, Array.length_toList]
  rfl

/-- There are as many newline bytes as newlines. -/
theorem count_textBytes (cs : List Char) :
    (textBytes (String.ofList cs)).count newlineByte = cs.count '\n' := by
  induction cs with
  | nil => rfl
  | cons c cs ih =>
      rw [textBytes_ofList_cons, List.count_append, ih, List.count_cons]
      by_cases hc : c = '\n'
      · subst hc
        rw [beq_self_eq_true, if_pos rfl, Nat.add_comm]
        rfl
      · rw [List.count_eq_zero_of_not_mem (mt newlineByte_mem_encode hc),
          if_neg (by rwa [beq_iff_eq]), Nat.zero_add, Nat.add_zero]

/-- Only the newline has the byte of the newline. -/
theorem newlineByte_not_mem {cs : List Char} (h : '\n' ∉ cs) :
    newlineByte ∉ textBytes (String.ofList cs) := by
  rw [← List.count_eq_zero, count_textBytes]
  exact List.count_eq_zero.2 h

/-! ### Last lines -/

section LastLine

/-- A text is its full lines and the last line. -/
theorem linesBefore_append_lastLine (cs : List Char) : linesBefore cs ++ lastLine cs = cs :=
  List.rdropWhile_append_rtakeWhile

/-- The last line is not ended. -/
theorem newline_not_mem_lastLine (cs : List Char) : '\n' ∉ lastLine cs := fun h => by
  have := List.mem_rtakeWhile_imp h
  simp at this

/-- A character goes on with the last line, or ends it. -/
theorem lastLine_concat (cs : List Char) (c : Char) :
    lastLine (cs ++ [c]) = if c = '\n' then [] else lastLine cs ++ [c] := by
  rw [lastLine, List.rtakeWhile_concat, lastLine]
  by_cases hc : c = '\n'
  · rw [if_pos hc, hc]
    rfl
  · rw [if_neg hc, if_pos (by rwa [bne_iff_ne])]

/-- The lines in front of the last one end with a newline, if there are any. -/
theorem linesBefore_cases (cs : List Char) :
    linesBefore cs = [] ∨ ∃ front, linesBefore cs = front ++ ['\n'] := by
  induction cs using List.reverseRecOn with
  | nil => exact .inl rfl
  | append_singleton cs c ih =>
      rw [linesBefore, List.rdropWhile_concat]
      by_cases hc : c = '\n'
      · rw [hc]
        exact .inr ⟨cs, rfl⟩
      · rw [if_pos (by rwa [bne_iff_ne])]
        exact ih

/-- One comes to a position by counting newlines, and by measuring what stands behind the last
one. -/
theorem read_eq (cs : List Char) :
    (⟨0, 0⟩ : Position).read cs = ⟨cs.count '\n', units16Of (lastLine cs)⟩ := by
  induction cs using List.reverseRecOn with
  | nil => rfl
  | append_singleton cs c ih =>
      rw [Position.read_append, ih, Position.read_cons, Position.read_nil, Position.behind,
        lastLine_concat, List.count_append, List.count_singleton]
      by_cases hc : c = '\n'
      · rw [if_pos hc, if_pos hc, hc]
        rfl
      · rw [if_neg hc, if_neg hc, if_neg (by rwa [beq_iff_eq]), units16Of, units16Of,
          List.map_append, List.sum_append]
        rfl

end LastLine

/-! ### The starts that are not behind an offset -/

/-- A text that goes on starts further lines. -/
theorem lineStarts_append (front back : String) :
    lineStarts (front ++ back) =
      lineStarts front ++ startsBehind front.utf8ByteSize (textBytes back) := by
  rw [lineStarts, textBytes_append, startsBehind_append, length_textBytes, Nat.zero_add, lineStarts,
    List.cons_append]

/-- The starts of lines ascend. -/
theorem pairwise_lineStarts (text : String) : (lineStarts text).Pairwise (· < ·) :=
  .cons (fun _ h => (mem_startsBehind h).1) (pairwise_startsBehind _ _)

/-- No line starts behind the end. -/
theorem le_of_mem_lineStarts {text : String} {n : Nat} (h : n ∈ lineStarts text) :
    n ≤ text.utf8ByteSize := by
  rcases List.mem_cons.1 h with rfl | h
  · exact Nat.zero_le _
  · have := (mem_startsBehind h).2
    rwa [length_textBytes, Nat.zero_add] at this

/-- There is one more line than there are newlines. -/
theorem length_lineStarts (cs : List Char) :
    (lineStarts (String.ofList cs)).length = cs.count '\n' + 1 := by
  rw [lineStarts, List.length_cons, length_startsBehind, count_textBytes]

/-- The last line of a text starts behind its last newline. -/
theorem getLast?_lineStarts (cs : List Char) :
    (lineStarts (String.ofList cs)).getLast? =
      some (String.ofList (linesBefore cs)).utf8ByteSize := by
  have hcut : lineStarts (String.ofList cs) = lineStarts (String.ofList (linesBefore cs)) := by
    conv_lhs => rw [← linesBefore_append_lastLine cs, String.ofList_append, lineStarts_append]
    rw [startsBehind_of_not_mem (newlineByte_not_mem (newline_not_mem_lastLine cs)),
      List.append_nil]
  rw [hcut]
  rcases linesBefore_cases cs with hnone | ⟨front, hfront⟩
  · rw [hnone]
    rfl
  · rw [hfront, String.ofList_append, lineStarts_append, String.utf8ByteSize_append]
    exact List.getLast?_append_cons _ _ _

/-- Of an ascending row the search finds the last number that is not greater. -/
theorem lineIn?_append {below above : List Nat} {x : Nat} (hne : below ≠ [])
    (hrow : (below ++ above).Pairwise (· < ·)) (hbelow : ∀ n ∈ below, n ≤ x)
    (habove : ∀ n ∈ above, x < n) :
    lineIn? (below ++ above) x = some (below.length - 1) := by
  have hplaced : Placed (below ++ above) x
      (searchBetween (below ++ above) x 0 (below ++ above).length) :=
    placed_searchBetween hrow (Nat.zero_le _) (Nat.le_refl _) (fun j y _ hj => by omega)
      fun j y hy hj => by
        have := (List.getElem?_eq_some_iff.1 hy).1
        omega
  rw [lineIn?]
  cases hsearch : searchBetween (below ++ above) x 0 (below ++ above).length with
  | ok i =>
      rw [hsearch] at hplaced
      rw [← hplaced.add_one_eq_length hrow hbelow habove]
      rfl
  | error i =>
      rw [hsearch] at hplaced
      obtain ⟨n, hn⟩ := Nat.exists_eq_add_one.2 (List.length_pos_of_ne_nil hne)
      rw [hplaced.eq_length hbelow habove, hn]
      rfl

/-! ## Slices -/

section Slices

variable {c : Char} {cs ds : List Char} {k : Nat}

/-- A character is taken if its bytes are. -/
theorem takeBytes?_cons_append (hsize : 0 < c.utf8Size) (n : Nat) :
    takeBytes? (c.utf8Size + n) (c :: cs) = (takeBytes? n cs).map (c :: ·) := by
  obtain ⟨m, hm⟩ := Nat.exists_eq_add_one.2 (Nat.add_pos_left hsize n)
  rw [hm, takeBytes?, if_pos (by omega), ← hm, Nat.add_sub_cancel_left]

/-- All bytes of a front are taken. -/
theorem takeBytes?_append (cs ds : List Char) :
    takeBytes? (String.ofList cs).utf8ByteSize (cs ++ ds) = some cs := by
  induction cs with
  | nil => rw [String.ofList_nil, String.utf8ByteSize_empty, takeBytes?]
  | cons c cs ih =>
      rw [utf8ByteSize_ofList_cons, List.cons_append, takeBytes?_cons_append c.utf8Size_pos, ih]
      rfl

/-- A character that would be cut is not taken. -/
theorem takeBytes?_append_inside (cs ds : List Char) (hpos : 0 < k) (hk : k < c.utf8Size) :
    takeBytes? ((String.ofList cs).utf8ByteSize + k) (cs ++ c :: ds) = none := by
  induction cs with
  | nil =>
      obtain ⟨n, rfl⟩ := Nat.exists_eq_add_one.2 hpos
      rw [String.ofList_nil, String.utf8ByteSize_empty, Nat.zero_add, List.nil_append, takeBytes?,
        if_neg (by omega)]
  | cons d cs ih =>
      rw [utf8ByteSize_ofList_cons, List.cons_append, Nat.add_assoc,
        takeBytes?_cons_append d.utf8Size_pos, ih]
      rfl

/-- All bytes of a front are dropped. -/
theorem dropBytes?_append (cs ds : List Char) :
    dropBytes? (String.ofList cs).utf8ByteSize (cs ++ ds) = some ds := by
  induction cs with
  | nil => rw [String.ofList_nil, String.utf8ByteSize_empty, List.nil_append, dropBytes?]
  | cons c cs ih =>
      obtain ⟨n, hn⟩ := Nat.exists_eq_add_one.2
        (Nat.add_pos_left c.utf8Size_pos (String.ofList cs).utf8ByteSize)
      rw [utf8ByteSize_ofList_cons, hn, List.cons_append, dropBytes?, if_pos (by omega), ← hn,
        Nat.add_sub_cancel_left, ih]

end Slices

namespace LineMap

/-! ## Reading and looking up -/

section Seek

variable {c : Char} {cs ds : List Char} {target here lineStart : Nat} {p : Position}

/-- A character in front of the offset is read. -/
theorem seek_cons (h : here + c.utf8Size ≤ target) :
    seek target (c :: cs) here lineStart p = seek target cs (here + c.utf8Size)
      (if c = '\n' then here + c.utf8Size else lineStart) (p.behind c) := by
  have hpos := c.utf8Size_pos
  rw [seek, if_neg (by omega), if_neg (by omega), Position.behind]
  split
  · rfl
  · rfl

/-- All of a text is read for an offset that is not in front of its end. -/
theorem seek_of_le (h : here + (String.ofList cs).utf8ByteSize ≤ target) :
    seek target cs here lineStart p = p.read cs := by
  induction cs generalizing here lineStart p with
  | nil => rfl
  | cons c cs ih =>
      rw [utf8ByteSize_ofList_cons, ← Nat.add_assoc] at h
      rw [seek_cons (by omega), ih h, Position.read_cons]

/-- A line is read, and it stays the line. -/
theorem seek_line (hline : '\n' ∉ cs) (h : here + (String.ofList cs).utf8ByteSize ≤ target) :
    seek target (cs ++ ds) here lineStart p =
      seek target ds (here + (String.ofList cs).utf8ByteSize) lineStart (p.read cs) := by
  induction cs generalizing here p with
  | nil => rfl
  | cons c cs ih =>
      obtain ⟨hc, hcs⟩ := not_or.1 (mt List.mem_cons.2 hline)
      rw [utf8ByteSize_ofList_cons, ← Nat.add_assoc] at h
      rw [List.cons_append, seek_cons (by omega), if_neg (Ne.symm hc), ih hcs h,
        utf8ByteSize_ofList_cons, Nat.add_assoc, Position.read_cons]

/-- Reading counts the newlines. -/
theorem line_read (p : Position) (cs : List Char) : (p.read cs).line = p.line + cs.count '\n' := by
  induction cs generalizing p with
  | nil => rfl
  | cons c cs ih =>
      rw [Position.read_cons, ih, Position.behind, List.count_cons]
      by_cases hc : c = '\n'
      · rw [if_pos hc, if_pos (by rwa [beq_iff_eq]), Nat.add_comm (cs.count _), Nat.add_assoc]
      · rw [if_neg hc, if_neg (by rwa [beq_iff_eq]), Nat.add_zero]

/-- Behind a newline a line starts. -/
theorem seek_lines (h : here + (String.ofList (cs ++ ['\n'])).utf8ByteSize ≤ target) :
    seek target (cs ++ ['\n'] ++ ds) here lineStart p =
      seek target ds (here + (String.ofList (cs ++ ['\n'])).utf8ByteSize)
        (here + (String.ofList (cs ++ ['\n'])).utf8ByteSize) (p.read (cs ++ ['\n'])) := by
  induction cs generalizing here lineStart p with
  | nil => exact seek_cons h
  | cons c cs ih =>
      rw [List.cons_append, utf8ByteSize_ofList_cons, ← Nat.add_assoc] at h
      rw [List.cons_append, List.cons_append, seek_cons (by omega), ih h, utf8ByteSize_ofList_cons,
        Nat.add_assoc, Position.read_cons]

/-- An offset inside a character is reported by the bytes from the start of its line. -/
theorem seek_line_inside {k : Nat} (hline : '\n' ∉ cs) (hpos : 0 < k) (hk : k < c.utf8Size) :
    seek (here + (String.ofList cs).utf8ByteSize + k) (cs ++ c :: ds) here here p =
      ⟨p.line, (String.ofList cs).utf8ByteSize + k⟩ := by
  have hcount := line_read p cs
  rw [List.count_eq_zero_of_not_mem hline, Nat.add_zero] at hcount
  rw [seek_line hline (by omega), seek, if_neg (by omega), if_pos (by omega), hcount]
  exact congrArg (Position.mk _) (by omega)

/-- Inside a character an offset seeks a column in bytes. -/
theorem seek_inside {k : Nat} (hpos : 0 < k) (hk : k < c.utf8Size) :
    seek ((String.ofList cs).utf8ByteSize + k) (cs ++ c :: ds) 0 0 ⟨0, 0⟩ =
      ⟨cs.count '\n', (String.ofList (lastLine cs)).utf8ByteSize + k⟩ := by
  have hcs := linesBefore_append_lastLine cs
  have hline := newline_not_mem_lastLine cs
  rcases linesBefore_cases cs with hnone | ⟨front, hfront⟩
  · rw [hnone, List.nil_append] at hcs
    rw [hcs] at hline ⊢
    have hseek : seek (0 + (String.ofList cs).utf8ByteSize + k) (cs ++ c :: ds) 0 0 ⟨0, 0⟩ =
        ⟨0, (String.ofList cs).utf8ByteSize + k⟩ := seek_line_inside hline hpos hk
    rw [Nat.zero_add] at hseek
    rw [hseek, List.count_eq_zero_of_not_mem hline]
  · rw [hfront] at hcs
    have hcount : cs.count '\n' = ((⟨0, 0⟩ : Position).read (front ++ ['\n'])).line := by
      rw [line_read, Nat.zero_add, ← hcs, List.count_append, List.count_eq_zero_of_not_mem hline,
        Nat.add_zero]
    have hsize : (String.ofList cs).utf8ByteSize = (String.ofList (front ++ ['\n'])).utf8ByteSize +
        (String.ofList (lastLine cs)).utf8ByteSize := by
      rw [← String.utf8ByteSize_append, ← String.ofList_append, hcs]
    have hrow : cs ++ c :: ds = front ++ ['\n'] ++ (lastLine cs ++ c :: ds) := by
      rw [← List.append_assoc, hcs]
    rw [hrow, seek_lines (by omega), Nat.zero_add, hsize, seek_line_inside hline hpos hk, hcount]

end Seek

/-- Each offset up to the end of a text stands between two characters or inside one. -/
theorem exists_cut {cs : List Char} {offset : Nat} (h : offset ≤ (String.ofList cs).utf8ByteSize) :
    ∃ front back, cs = front ++ back ∧ ((String.ofList front).utf8ByteSize = offset ∨
      ∃ c rest k, back = c :: rest ∧ 0 < k ∧ k < c.utf8Size ∧
        (String.ofList front).utf8ByteSize + k = offset) := by
  induction cs generalizing offset with
  | nil => exact ⟨[], [], rfl, .inl (Nat.le_zero.1 h).symm⟩
  | cons c cs ih =>
      rw [utf8ByteSize_ofList_cons] at h
      rcases Nat.eq_zero_or_pos offset with rfl | hpos
      · exact ⟨[], c :: cs, rfl, .inl rfl⟩
      · by_cases hc : offset < c.utf8Size
        · exact ⟨[], c :: cs, rfl, .inr ⟨c, cs, offset, rfl, hpos, hc, Nat.zero_add _⟩⟩
        · have hrest : offset - c.utf8Size ≤ (String.ofList cs).utf8ByteSize := by omega
          obtain ⟨front, back, rfl, hcut⟩ := ih hrest
          refine ⟨c :: front, back, rfl, ?_⟩
          rw [utf8ByteSize_ofList_cons]
          rcases hcut with heq | ⟨d, rest, k, rfl, hk, hd, heq⟩
          · exact .inl (by omega)
          · exact .inr ⟨d, rest, k, rfl, hk, hd, by omega⟩

section LookUp

variable {front back : List Char} {k : Nat}

/-- The byte where the last line in front of an offset starts, and how far the offset is behind
it. -/
theorem utf8ByteSize_front (front : List Char) :
    (String.ofList front).utf8ByteSize = (String.ofList (linesBefore front)).utf8ByteSize +
      (String.ofList (lastLine front)).utf8ByteSize := by
  rw [← String.utf8ByteSize_append, ← String.ofList_append, linesBefore_append_lastLine]

/-- The line of an offset is found if all other lines start behind the offset. -/
theorem lineIn?_lineStarts (hbehind : ∀ n ∈ startsBehind (String.ofList front).utf8ByteSize
      (textBytes (String.ofList back)), (String.ofList front).utf8ByteSize + k < n) :
    lineIn? (lineStarts (String.ofList (front ++ back))) ((String.ofList front).utf8ByteSize + k) =
        some (front.count '\n') ∧
      (lineStarts (String.ofList (front ++ back)))[front.count '\n']? =
        some (String.ofList (linesBefore front)).utf8ByteSize := by
  have hlength := length_lineStarts front
  have hlast : (lineStarts (String.ofList front)).length - 1 = front.count '\n' := by omega
  have hpairwise := pairwise_lineStarts (String.ofList front ++ String.ofList back)
  rw [lineStarts_append] at hpairwise
  have hne : lineStarts (String.ofList front) ≠ [] := List.cons_ne_nil _ _
  rw [String.ofList_append, lineStarts_append, ← hlast]
  constructor
  · exact lineIn?_append hne hpairwise
      (fun n hn => (le_of_mem_lineStarts hn).trans (Nat.le_add_right _ _)) hbehind
  · rw [List.getElem?_append_left (by omega), ← List.getLast?_eq_getElem?, getLast?_lineStarts]

/-- What stands between the start of the line and the offset. -/
theorem slice?_lastLine (front back : List Char) (k : Nat) :
    slice? (String.ofList (front ++ back)) (String.ofList (linesBefore front)).utf8ByteSize
        ((String.ofList front).utf8ByteSize + k) =
      takeBytes? ((String.ofList (lastLine front)).utf8ByteSize + k) (lastLine front ++ back) := by
  have hdrop := dropBytes?_append (linesBefore front) (lastLine front ++ back)
  rw [← List.append_assoc, linesBefore_append_lastLine] at hdrop
  rw [slice?, String.toList_ofList, hdrop, Option.bind_some, utf8ByteSize_front, Nat.add_assoc,
    Nat.add_sub_cancel_left]

/-- The look-up of an offset, from the line it stands in and the bytes in front of it there. -/
theorem lookUp?_append (hbehind : ∀ n ∈ startsBehind (String.ofList front).utf8ByteSize
      (textBytes (String.ofList back)), (String.ofList front).utf8ByteSize + k < n)
    (hk : k ≤ (String.ofList back).utf8ByteSize) :
    lookUp? (String.ofList (front ++ back)) ((String.ofList front).utf8ByteSize + k) =
      some ⟨front.count '\n', ((takeBytes? ((String.ofList (lastLine front)).utf8ByteSize + k)
        (lastLine front ++ back)).map units16Of).getD
          ((String.ofList (lastLine front)).utf8ByteSize + k)⟩ := by
  obtain ⟨hline, hstart⟩ := lineIn?_lineStarts hbehind
  have hmin : min ((String.ofList front).utf8ByteSize + k)
      (String.ofList (front ++ back)).utf8ByteSize = (String.ofList front).utf8ByteSize + k := by
    rw [String.ofList_append, String.utf8ByteSize_append]
    omega
  have hwidth :
      (String.ofList front).utf8ByteSize + k - (String.ofList (linesBefore front)).utf8ByteSize =
      (String.ofList (lastLine front)).utf8ByteSize + k := by
    rw [utf8ByteSize_front]
    omega
  have hnot : ¬ (String.ofList front).utf8ByteSize + k <
      (String.ofList (linesBefore front)).utf8ByteSize := by
    rw [utf8ByteSize_front]
    omega
  rw [lookUp?, hmin, hline, Option.bind_eq_bind, Option.bind_some, hstart, Option.bind_some,
    if_neg hnot, slice?_lastLine, hwidth]

end LookUp

section Position

variable {text : String} {offset : Nat}

/-- An offset behind the end stands for the end. -/
theorem position_of_le (h : text.utf8ByteSize ≤ offset) :
    (ofText text).position offset = (⟨0, 0⟩ : Position).read text.toList := by
  rw [← String.ofList_toList (s := text)] at h
  exact seek_of_le (by rwa [Nat.zero_add])

/-- Behind a character that an offset stands in, lines start behind the offset. -/
theorem lt_of_mem_startsBehind {here k : Nat} {c : Char} {rest : List Char} (hk : k < c.utf8Size) :
    ∀ n ∈ startsBehind here (textBytes (String.ofList (c :: rest))), here + k < n := by
  intro n hn
  by_cases hc : c = '\n'
  · have hzero : k = 0 := by
      rw [hc] at hk
      exact Nat.lt_one_iff.1 hk
    rw [hzero, Nat.add_zero]
    exact (mem_startsBehind hn).1
  · rw [textBytes_ofList_cons, startsBehind_append,
      startsBehind_of_not_mem (mt newlineByte_mem_encode hc), List.nil_append,
      String.length_utf8EncodeChar] at hn
    exact Nat.lt_of_le_of_lt (Nat.add_le_add_left (Nat.le_of_lt hk) here) (mem_startsBehind hn).1

/-- Up to the end of a text the look-up and the search from the front agree. -/
theorem lookUp?_of_le (h : offset ≤ text.utf8ByteSize) :
    lookUp? text offset = some ((ofText text).position offset) := by
  rw [← String.ofList_toList (s := text)] at h ⊢
  obtain ⟨front, back, hchars, hcut⟩ := exists_cut h
  rw [hchars]
  rcases hcut with rfl | ⟨c, rest, k, rfl, hpos, hk, rfl⟩
  · have hlook := @lookUp?_append front back 0 (fun n hn => (mem_startsBehind hn).1) (Nat.zero_le _)
    rw [Nat.add_zero, Nat.add_zero, takeBytes?_append] at hlook
    rw [hlook, String.ofList_append, position_append, String.toList_ofList, read_eq]
    rfl
  · have hsize : k ≤ (String.ofList (c :: rest)).utf8ByteSize := by
      rw [utf8ByteSize_ofList_cons]
      omega
    have hseek := @seek_inside c front rest k hpos hk
    rw [lookUp?_append (lt_of_mem_startsBehind hk) hsize, takeBytes?_append_inside _ _ hpos hk,
      position, ofText, String.toList_ofList, hseek]
    rfl

/-- A look-up by the starts of the lines never fails, and it gives the position. -/
theorem lookUp?_eq (text : String) (offset : Nat) :
    lookUp? text offset = some ((ofText text).position offset) := by
  rcases Nat.le_total offset text.utf8ByteSize with hle | hge
  · exact lookUp?_of_le hle
  · have hend : lookUp? text offset = lookUp? text text.utf8ByteSize := by
      rw [lookUp?, Nat.min_eq_right hge, lookUp?, Nat.min_self]
    rw [hend, lookUp?_of_le (Nat.le_refl _), position_of_le hge, position_of_le (Nat.le_refl _)]

/-- A span has the positions whose offsets it has, both ends included. -/
theorem contains_span {a b : Nat} (ha : IsOffset text a) (hb : IsOffset text b)
    (ho : IsOffset text offset) :
    ((ofText text).span a b).contains ((ofText text).position offset) = true ↔
      a ≤ offset ∧ offset ≤ b := by
  rw [Span.contains, decide_eq_true_iff, span, position_le_iff ha ho, position_le_iff ho hb]

/-- **Positions are exact and in the order of the offsets.** The position of an offset between two
characters is the number of newline bytes in front of it, and the number of UTF-16 code units
behind the last of them. An offset behind the end has the position of the end. A look-up by the
starts of the lines gives the position of every offset, and no step of it fails. Offsets between
characters are as their positions are, and spans contain and include each other as the pieces
of the text do. -/
theorem position_is_exact (text : String) :
    (∀ front back, text = front ++ back → (ofText text).position front.utf8ByteSize =
        ⟨(textBytes front).count newlineByte, units16Of (lastLine front.toList)⟩) ∧
      (∀ offset, text.utf8ByteSize ≤ offset →
        (ofText text).position offset = (ofText text).position text.utf8ByteSize) ∧
      (∀ offset, lookUp? text offset = some ((ofText text).position offset)) ∧
      (∀ a b, IsOffset text a → IsOffset text b →
        ((ofText text).position a < (ofText text).position b ↔ a < b) ∧
          ((ofText text).position a = (ofText text).position b ↔ a = b)) ∧
      ∀ a b, IsOffset text a → IsOffset text b →
        (∀ offset, IsOffset text offset →
          (((ofText text).span a b).contains ((ofText text).position offset) = true ↔
            a ≤ offset ∧ offset ≤ b)) ∧
        ∀ a' b', IsOffset text a' → IsOffset text b' →
          (((ofText text).span a b).isWithin ((ofText text).span a' b') = true ↔
            a' ≤ a ∧ b ≤ b') := by
  refine ⟨?_, fun offset h => ?_, lookUp?_eq text,
    fun a b ha hb => ⟨position_lt_iff ha hb, position_inj ha hb⟩,
    fun a b ha hb => ⟨fun offset ho => contains_span ha hb ho,
      fun a' b' ha' hb' => isWithin_span ha hb ha' hb'⟩⟩
  · rintro front back rfl
    have hcount := count_textBytes front.toList
    rw [String.ofList_toList] at hcount
    rw [position_append, read_eq, hcount]
  · rw [position_of_le h, position_of_le (Nat.le_refl _)]

-- A newline, a character of two code units and one of three bytes.
example : LineMap.lookUp? "a\n😀€b" 9 = some ⟨1, 3⟩ ∧
    LineMap.lookUp? "a\n😀€b" 7 = some ⟨1, 5⟩ := by
  decide +kernel

end Position

end LineMap

end SolidityAtlas
