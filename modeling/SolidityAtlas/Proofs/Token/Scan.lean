import SolidityAtlas.Proofs.Token.Pattern

/-!
# Scanners and patterns

Each scanner of a token reads the pattern of its kind: it finds the longest prefix that belongs to
the pattern, and if it finds none there is none. For decimal numbers this holds because a point or
the sign of an exponent is no digit. Between quotes and in comments in `/* … */` at most one prefix
belongs to the pattern, since the end is the first one that comes.

## Main Definitions

* `Lexeme.Extent.found?`: the length of a delimited token whose end was found

## Main Results

* `Pattern.reads_space`, `Pattern.reads_lineComment`, `Pattern.reads_word`,
  `Pattern.reads_decimal`, `Pattern.reads_hex`
* `Pattern.reads_blockComment`, `Pattern.reads_quoted`, `Pattern.reads_hexQuoted`
-/

namespace SolidityAtlas

open Lexeme
open scoped Computability

namespace Pattern

variable {p q : Char → Bool} {c quote : Char} {cs ds : List Char}

/-! ## Open-ended tokens -/

/-- A character of one class and then characters of another. -/
theorem reads_one_mul_star (p q : Char → Bool) (cs : List Char) :
    Reads q (one p * (one q)∗) cs
      (match cs with | c :: cs => if p c then some (1 + run q cs) else none | [] => none) := by
  cases cs with
  | nil => exact .of_not_mem fun _ => not_mem_lengths_one_mul_nil
  | cons c cs =>
      by_cases hc : p c = true
      · simp only [if_pos hc]
        exact Greedy.one_mul hc (Greedy.star_one q cs)
      · simp only [if_neg hc]
        exact .of_not_mem fun _ => not_mem_lengths_one_mul_cons (Bool.eq_false_iff.2 hc)

/-- Characters of a class, at least one. -/
theorem reads_many (p : Char → Bool) (cs : List Char) :
    Reads p (one p * (one p)∗) cs (positive? (run p cs)) := by
  have hrun : positive? (run p cs) =
      match cs with | c :: cs => if p c then some (1 + run p cs) else none | [] => none := by
    cases cs with
    | nil => rfl
    | cons c cs =>
        rw [run, List.takeWhile_cons]
        by_cases hc : p c = true
        · simp only [if_pos hc]
          exact congrArg some (Nat.add_comm _ 1)
        · simp only [if_neg hc]
          rfl
  rw [hrun]
  exact reads_one_mul_star p p cs

/-- Blanks are read as far as they go. -/
theorem reads_space (cs : List Char) : Reads isSpace blanks cs (space? cs) :=
  reads_many isSpace cs

/-- A line comment is read to the end of its line. -/
theorem reads_lineComment (cs : List Char) :
    Reads (· != '\n') lineComments cs (lineComment? cs) := by
  unfold lineComment?
  split
  · rename_i cs
    exact Greedy.exactly_mul (Greedy.star_one (· != '\n') cs)
  · rename_i hfront
    exact .of_not_mem fun _ => not_mem_lengths_exactly_mul hfront

theorem reads_word (cs : List Char) : Reads isWordPart words cs (word? cs) :=
  reads_one_mul_star isWordStart isWordPart cs

theorem reads_digits (cs : List Char) : Reads isDigitPart digits cs (digits? cs) :=
  reads_one_mul_star Char.isDigit isDigitPart cs

theorem map_one_map_one (found : Option Nat) :
    (found.map (1 + ·)).map (1 + ·) = found.map (2 + ·) := by
  rw [Option.map_map]
  exact congrArg (Option.map · found) (funext fun n => (Nat.add_assoc 1 1 n).symm)

/-- A hexadecimal number is read as far as it goes. -/
theorem reads_hex (cs : List Char) : Reads isHexPart hexadecimals cs (hex? cs) := by
  unfold hex?
  split
  · rename_i x cs
    by_cases hx : x = 'x' ∨ x = 'X'
    · have hmark : isHexMark x = true := by
        rwa [isHexMark, Bool.or_eq_true, beq_iff_eq, beq_iff_eq]
      rw [if_pos hx, ← map_one_map_one]
      exact Reads.exactly_mul (Reads.one_mul hmark (reads_many isHexPart cs))
    · have hmark : isHexMark x = false := by
        rwa [isHexMark, Bool.eq_false_iff, ne_eq, Bool.or_eq_true, beq_iff_eq, beq_iff_eq]
      rw [if_neg hx]
      exact Reads.exactly_mul (.of_not_mem fun _ => not_mem_lengths_one_mul_cons hmark)
  · rename_i hfront
    intro k hk
    obtain ⟨rest, rfl, n, hn, -⟩ := mem_lengths_exactly_mul.1 hk
    cases rest with
    | nil => exact not_mem_lengths_one_mul_nil hn
    | cons x rest => exact hfront x rest rfl

/-! ## Decimal numbers -/

/-- A fraction is taken if there is one. -/
theorem greedy_fraction (cs : List Char) :
    Greedy (fun c => c == '.' || isDigitPart c) (optional fractions) cs (fraction cs) := by
  unfold fraction
  split
  · rename_i cs
    have hdigits := reads_digits cs
    cases hfound : digits? cs with
    | none =>
        rw [hfound] at hdigits
        exact Greedy.optional_of_none (Reads.exactly_mul hdigits)
    | some n =>
        rw [hfound] at hdigits
        have hpoint : Greedy isDigitPart fractions ('.' :: cs) (1 + n) := Greedy.exactly_mul hdigits
        exact (hpoint.mono fun c hc => by rw [hc, Bool.or_true]).optional rfl
  · rename_i hfront
    exact Greedy.optional_of_none fun _ => not_mem_lengths_exactly_mul hfront

/-- Digits with a minus sign in front that may be left out. -/
def signed? : List Char → Option Nat
  | '-' :: cs => (digits? cs).map (1 + ·)
  | cs => digits? cs

/-- A number may have a sign. -/
theorem reads_signed (cs : List Char) :
    Reads isDigitPart (optional (exactly "-") * digits) cs (signed? cs) := by
  rw [optional, add_mul, one_mul]
  unfold signed?
  split
  · rename_i cs
    exact Reads.add_left (Reads.exactly_mul (reads_digits cs)) fun _ =>
      not_mem_lengths_one_mul_cons rfl
  · rename_i hfront
    exact Reads.add_right (reads_digits cs) fun _ => not_mem_lengths_exactly_mul hfront

/-- An exponent starts with its mark, and without digits it is none. -/
theorem exponent_cons (c : Char) (cs : List Char) : exponent (c :: cs) =
    if isExponentMark c then (signed? cs).elim 0 (1 + ·) else 0 := by
  have hmark : isExponentMark c = true ↔ c = 'e' ∨ c = 'E' := by
    rw [isExponentMark, Bool.or_eq_true, beq_iff_eq, beq_iff_eq]
  rw [if_congr hmark rfl rfl]
  cases cs with
  | nil => rfl
  | cons d ds =>
      by_cases hd : d = '-'
      · subst hd
        rw [exponent, signed?]
        cases digits? ds with
        | none => rfl
        | some n => exact congrArg (ite _ · 0) (Nat.add_assoc 1 1 n)
      · have hsigned : signed? (d :: ds) = digits? (d :: ds) := by
          unfold signed?
          split
          · rename_i heq
            exact absurd (List.cons.inj heq).1 hd
          · rfl
        rw [hsigned]
        unfold exponent
        split
        · rename_i heq
          obtain ⟨-, hrest⟩ := List.cons.inj heq
          exact absurd (List.cons.inj hrest).1 hd
        · rename_i heq
          obtain ⟨rfl, rfl⟩ := List.cons.inj heq
          rfl
        · rename_i heq
          cases heq

/-- An exponent is taken if there is one. -/
theorem greedy_exponent (cs : List Char) :
    Greedy (fun _ => true) (optional exponents) cs (exponent cs) := by
  cases cs with
  | nil => exact Greedy.optional_of_none fun _ => not_mem_lengths_one_mul_nil
  | cons c cs =>
      rw [exponent_cons]
      have hsigned := reads_signed cs
      by_cases hc : isExponentMark c = true
      · rw [if_pos hc]
        cases hfound : signed? cs with
        | none =>
            rw [hfound] at hsigned
            exact Greedy.optional_of_none (Reads.one_mul hc hsigned)
        | some n =>
            rw [hfound] at hsigned
            have hexponent : Greedy isDigitPart exponents (c :: cs) (1 + n) :=
              Greedy.one_mul hc hsigned
            exact (hexponent.mono fun _ _ => rfl).optional rfl
      · rw [if_neg hc]
        exact Greedy.optional_of_none fun _ =>
          not_mem_lengths_one_mul_cons (Bool.eq_false_iff.2 hc)

/-- Nothing of a fraction comes next where digits could go on. -/
theorem eq_zero_of_isDigitPart {j : Nat} (hc : isDigitPart c = true)
    (h : j ∈ lengths (optional fractions) (c :: ds)) : j = 0 := by
  rcases mem_lengths_optional.1 h with rfl | h
  · rfl
  · obtain ⟨rest, hrest, -⟩ := mem_lengths_exactly_mul.1 h
    obtain ⟨rfl, -⟩ := List.cons.inj hrest
    cases hc

/-- Nothing of an exponent comes next where digits or a fraction could go on. -/
theorem eq_zero_of_isNumberPart {j : Nat}
    (hc : (isDigitPart c || (c == '.' || isDigitPart c)) = true)
    (h : j ∈ lengths (optional exponents) (c :: ds)) : j = 0 := by
  rcases mem_lengths_optional.1 h with rfl | h
  · rfl
  · obtain ⟨hmark, -⟩ := mem_lengths_one_mul_cons.1 h
    rw [isExponentMark, Bool.or_eq_true, beq_iff_eq, beq_iff_eq] at hmark
    rcases hmark with rfl | rfl
    · cases hc
    · cases hc

/-- A decimal number is read with its fraction and its exponent. -/
theorem reads_decimal (cs : List Char) : Reads (fun _ => true) decimals cs (decimal? cs) := by
  have hdigits := reads_digits cs
  unfold decimal?
  cases hfound : digits? cs with
  | none =>
      rw [hfound] at hdigits
      exact .of_not_mem fun _ => not_mem_lengths_mul fun _ => not_mem_lengths_mul hdigits
  | some n =>
      rw [hfound] at hdigits
      have hpoint : Greedy _ (digits * optional fractions) cs (n + fraction (cs.drop n)) :=
        hdigits.mul (greedy_fraction _) fun _ _ _ hc hj => eq_zero_of_isDigitPart hc hj
      exact (hpoint.mul (greedy_exponent _) fun _ _ _ hc hj => eq_zero_of_isNumberPart hc hj).mono
        fun _ _ => rfl

/-! ## Delimited tokens -/

end Pattern

namespace Lexeme

/-- The length of a delimited token whose end was found. -/
def Extent.found? (e : Extent) : Option Nat :=
  if e.closed then some e.length else none

/-- What is found further on is found by so much later. -/
theorem Extent.found?_shift (n : Nat) (e : Extent) : (e.shift n).found? = e.found?.map (n + ·) := by
  rw [found?, found?, shift]
  cases e.closed with
  | false => rfl
  | true => rfl

end Lexeme

namespace Pattern

/-- A comment is read to the first stop. -/
theorem reads_commentBody (cs : List Char) :
    Reads (fun _ => false) (through "*/") cs (commentBody cs).found? := by
  fun_induction commentBody cs with
  | case1 cs => exact Reads.through_append
  | case2 c cs hend ih =>
      rw [Extent.found?_shift]
      refine ih.through_cons fun ⟨rest, hrest⟩ => ?_
      obtain ⟨hc, hcs⟩ := List.cons.inj hrest
      exact hend _ hc.symm hcs.symm
  | case3 => exact .of_not_mem fun _ => not_mem_lengths_through_nil (by decide)

/-- What may come behind the opening quote. -/
theorem quotedRest_element (quote : Char) : quotedRest quote (element quote) =
    one (· == quote) + (one (fun c => c != quote && c != '\\' && c != '\n') *
      quotedRest quote (element quote) +
        exactly "\\" * (one (· != '\n') * quotedRest quote (element quote))) := by
  conv_lhs => rw [quotedRest, kstar_mul, ← quotedRest]
  rw [element, add_mul, mul_assoc]

/-- A quoted text is read to the first quote that is not escaped. -/
theorem reads_quoted (hquote : quote ≠ '\\') (cs : List Char) :
    Reads (fun _ => false) (quotedRest quote (element quote)) cs (quoted quote cs).found? := by
  have hescape : ('\\' == quote) = false := beq_eq_false_iff_ne.2 (Ne.symm hquote)
  have hplain : ('\\' != quote && '\\' != '\\' && '\\' != '\n') = false := by
    rw [bne_self_eq_false, Bool.and_false, Bool.false_and]
  have hnot : ∀ {c cs}, c ≠ '\\' → ∀ rest, c :: cs = "\\".toList ++ rest → False :=
    fun hc _ hrest => hc (List.cons.inj hrest).1
  rw [quotedRest_element]
  fun_induction quoted quote cs with
  | case1 =>
      refine Reads.add_left (Reads.add_left ?_ fun _ => not_mem_lengths_one_mul_nil)
        fun _ => not_mem_lengths_one_nil
      exact .of_not_mem fun _ => not_mem_lengths_exactly_mul fun rest hrest =>
        List.cons_ne_nil _ _ hrest.symm
  | case2 cs =>
      refine Reads.add_left (Reads.add_left ?_ fun _ => not_mem_lengths_one_mul_cons hplain)
        fun _ => not_mem_lengths_one_cons hescape
      exact Reads.exactly_mul (.of_not_mem fun _ => not_mem_lengths_one_mul_cons rfl)
  | case3 c cs hc ih =>
      rw [Extent.found?_shift, ← map_one_map_one]
      refine Reads.add_left (Reads.add_left ?_ fun _ => not_mem_lengths_one_mul_cons hplain)
        fun _ => not_mem_lengths_one_cons hescape
      rw [← quotedRest_element] at ih
      exact Reads.exactly_mul (Reads.one_mul (bne_iff_ne.2 hc) ih)
  | case4 cs hback =>
      have hself : (quote != quote && quote != '\\' && quote != '\n') = false := by
        rw [bne_self_eq_false, Bool.false_and, Bool.false_and]
      refine Reads.add_right (Reads.one (beq_self_eq_true _)) ?_
      exact fun _ => not_mem_lengths_add (not_mem_lengths_one_mul_cons hself)
        (not_mem_lengths_exactly_mul (hnot hquote))
  | case5 c cs hback hc hend =>
      refine Reads.add_left (Reads.add_left ?_ fun _ => not_mem_lengths_one_mul_cons ?_)
        fun _ => not_mem_lengths_one_cons (beq_eq_false_iff_ne.2 hc)
      · rcases hend with rfl | rfl
        · cases cs with
          | nil =>
              have hnil : "\\".toList ++ [] = ['\\'] := rfl
              exact hnil ▸ Reads.exactly_mul (.of_not_mem fun _ => not_mem_lengths_one_mul_nil)
          | cons d ds => exact absurd rfl (hback d ds rfl)
        · exact .of_not_mem fun _ => not_mem_lengths_exactly_mul (hnot (by decide))
      · rcases hend with rfl | rfl
        · exact hplain
        · rw [bne_self_eq_false, Bool.and_false]
  | case6 c cs hback hc hend ih =>
      obtain ⟨hslash, hnewline⟩ := not_or.1 hend
      rw [Extent.found?_shift]
      refine Reads.add_left (Reads.add_right ?_ fun _ => not_mem_lengths_exactly_mul (hnot hslash))
        fun _ => not_mem_lengths_one_cons (beq_eq_false_iff_ne.2 hc)
      rw [← quotedRest_element] at ih
      refine Reads.one_mul ?_ ih
      rw [bne_iff_ne.2 hc, bne_iff_ne.2 hslash, bne_iff_ne.2 hnewline]
      rfl

/-- Quoted hexadecimal digits are read to the quote. -/
theorem reads_hexQuoted (hquote : isHexPart quote = false) (cs : List Char) :
    Reads (fun _ => false) (quotedRest quote (one isHexPart)) cs (hexQuoted quote cs).found? := by
  have hrun := Greedy.star_one isHexPart cs
  -- The quote is no digit, so it comes behind all digits.
  have honly : ∀ k, k ∈ lengths (quotedRest quote (one isHexPart)) cs →
      (cs.drop (run isHexPart cs)).head? = some quote ∧ k = run isHexPart cs + 1 := by
    intro k hk
    obtain ⟨n, hn, j, hj, rfl⟩ := mem_lengths_mul.1 hk
    cases hrest : cs.drop n with
    | nil =>
        rw [hrest] at hj
        exact absurd hj not_mem_lengths_one_nil
    | cons c ds =>
        rw [hrest] at hj
        obtain ⟨hc, rfl⟩ := mem_lengths_one_cons.1 hj
        obtain rfl := eq_of_beq hc
        rcases Nat.lt_or_eq_of_le (hrun.greatest.2 hn) with hlt | rfl
        · obtain ⟨d, hd, hpart⟩ := hrun.next n hn hlt
          rw [hrest] at hd
          obtain rfl := Option.some.inj hd
          exact absurd hpart (Bool.eq_false_iff.1 hquote)
        · rw [hrest]
          exact ⟨rfl, rfl⟩
  by_cases hhead : (cs.drop (run isHexPart cs)).head? = some quote
  · have hclosed : hexQuoted quote cs = ⟨run isHexPart cs + 1, true⟩ := if_pos hhead
    obtain ⟨ds, hds⟩ := List.head?_eq_some_iff.1 hhead
    rw [hclosed]
    refine ⟨⟨mem_lengths_mul.2 ⟨_, hrun.greatest.1, 1, ?_, rfl⟩, fun k hk => (honly k hk).2.le⟩,
      fun k hk hlt => absurd (honly k hk).2 (Nat.ne_of_lt hlt)⟩
    rw [hds]
    exact mem_lengths_one_cons.2 ⟨beq_self_eq_true _, rfl⟩
  · have hopen : hexQuoted quote cs = ⟨run isHexPart cs, false⟩ := if_neg hhead
    rw [hopen]
    exact fun k hk => hhead (honly k hk).1

end Pattern

end SolidityAtlas
