import Mathlib.Computability.Language
import SolidityAtlas.Token.Lexeme

/-!
# Patterns of tokens

Each kind of token has a pattern, a language of the texts that can be tokens of the kind. A token
is cut off the front of a text, so what matters of a language is how long the prefixes of a text
are that belong to it (`lengths`). For each way of putting languages together there is a lemma
that gives the lengths.

Most patterns are read by taking as many characters as possible for each of their parts. This
finds the longest prefix if a part that could have been longer is never followed by what the next
part begins with (`Greedy.mul`).

## Main Definitions

* `Pattern.patterns`: the kinds of tokens with their patterns
* `Pattern.openings`: the beginnings of comments in `/* … */` and of texts in quotes
* `Pattern.lengths`: the lengths of the prefixes that belong to a language
* `Pattern.Greedy`: the longest of them, and what follows the shorter ones
* `Pattern.Reads`: the longest of them if there is one

## Main Results

* `Pattern.mem_lengths_one_mul_cons`, `Pattern.mem_lengths_exactly_mul`,
  `Pattern.mem_lengths_star_one`
* `Pattern.Greedy.mul`
* `Pattern.Reads.through_cons`, `Pattern.Reads.through_append`
-/

namespace SolidityAtlas

open Lexeme
open scoped Computability

namespace Pattern

/-! ## Languages -/

/-- One character of a class. -/
def one (p : Char → Bool) : Language Char :=
  {cs | ∃ c, p c = true ∧ cs = [c]}

/-- One fixed text. -/
def exactly (text : String) : Language Char :=
  {text.toList}

/-- A text of a language, or nothing. -/
def optional (l : Language Char) : Language Char :=
  1 + l

/-- All up to and including the first place where a text stands. -/
def through (stop : String) : Language Char :=
  {cs | stop.toList <:+ cs ∧ ∀ front, front <+: cs → stop.toList <:+ front → front = cs}

/-- Blanks. -/
def blanks : Language Char :=
  one isSpace * (one isSpace)∗

/-- A comment from `//` to the end of the line. -/
def lineComments : Language Char :=
  exactly "//" * (one (· != '\n'))∗

/-- Words, reserved or not. -/
def words : Language Char :=
  one isWordStart * (one isWordPart)∗

/-- Digits, with underscores behind the first one. -/
def digits : Language Char :=
  one Char.isDigit * (one isDigitPart)∗

/-- The part of a decimal number from the point on. -/
def fractions : Language Char :=
  exactly "." * digits

/-- Whether a character announces an exponent. -/
def isExponentMark (c : Char) : Bool :=
  c == 'e' || c == 'E'

/-- The part of a decimal number from `e` on. -/
def exponents : Language Char :=
  one isExponentMark * (optional (exactly "-") * digits)

/-- Decimal numbers. -/
def decimals : Language Char :=
  digits * optional fractions * optional exponents

/-- Whether a character behind a zero announces a hexadecimal number. -/
def isHexMark (c : Char) : Bool :=
  c == 'x' || c == 'X'

/-- Hexadecimal numbers. -/
def hexadecimals : Language Char :=
  exactly "0" * (one isHexMark * (one isHexPart * (one isHexPart)∗))

/-- A character between quotes: neither quote nor backslash, or any behind a backslash. It is never
a newline. -/
def element (quote : Char) : Language Char :=
  one (fun c => c != quote && c != '\\' && c != '\n') + exactly "\\" * one (· != '\n')

/-- What comes behind an opening quote: texts of a language, and the closing quote. -/
def quotedRest (quote : Char) (inside : Language Char) : Language Char :=
  inside∗ * one (· == quote)

/-- The beginning of a kind of token, and what comes behind it. -/
structure Opening where
  kind : TokenKind
  front : String
  rest : Language Char

/-- The beginnings of comments in `/* … */` and of texts in quotes. -/
def openings : List Opening :=
  [ ⟨.blockComment, "/*", through "*/"⟩,
    ⟨.string, "\"", quotedRest '"' (element '"')⟩,
    ⟨.string, "'", quotedRest '\'' (element '\'')⟩,
    ⟨.string, "unicode\"", quotedRest '"' (element '"')⟩,
    ⟨.string, "unicode'", quotedRest '\'' (element '\'')⟩,
    ⟨.hexString, "hex\"", quotedRest '"' (one isHexPart)⟩,
    ⟨.hexString, "hex'", quotedRest '\'' (one isHexPart)⟩ ]

/-- The texts with a beginning. -/
def Opening.texts (o : Opening) : Language Char :=
  exactly o.front * o.rest

/-- The kinds of open-ended tokens with their patterns. -/
def openPatterns : List (TokenKind × Language Char) :=
  [ (.whitespace, blanks),
    (.lineComment, lineComments),
    (.ident, words),
    (.decimalNumber, decimals),
    (.hexNumber, hexadecimals) ] ++
  punctuation.map fun (text, kind) => (kind, exactly text)

/-- The kinds of tokens with their patterns. -/
def patterns : List (TokenKind × Language Char) :=
  openPatterns ++ openings.map fun o => (o.kind, o.texts)

/-! ## Lengths of prefixes -/

/-- The lengths of the prefixes of a text that belong to a language. -/
def lengths (l : Language Char) (cs : List Char) : Set Nat :=
  {n | n ≤ cs.length ∧ cs.take n ∈ l}

variable {l m : Language Char} {p q : Char → Bool} {c : Char} {cs ds : List Char} {k n : Nat}

/-- A length is one of a language if the front of that length belongs to it. -/
theorem mem_lengths : n ∈ lengths l cs ↔ n ≤ cs.length ∧ cs.take n ∈ l :=
  Iff.rfl

/-- The whole of a text is a length exactly if it belongs to the language. -/
theorem length_mem_lengths_append : cs.length ∈ lengths l (cs ++ ds) ↔ cs ∈ l := by
  rw [mem_lengths, List.length_append, List.take_left]
  exact and_iff_right (Nat.le_add_right _ _)

/-- The lengths of a language are those of the fronts that belong to it. -/
theorem mem_lengths_iff : n ∈ lengths l cs ↔ ∃ front back, cs = front ++ back ∧ front ∈ l ∧
    n = front.length := by
  constructor
  · rintro ⟨hn, hmem⟩
    exact ⟨cs.take n, cs.drop n, (List.take_append_drop n cs).symm, hmem,
      (List.length_take_of_le hn).symm⟩
  · rintro ⟨front, back, rfl, hmem, rfl⟩
    exact length_mem_lengths_append.2 hmem

theorem length_mem_lengths (h : cs ∈ l) (hbegin : cs <+: ds) : cs.length ∈ lengths l ds := by
  obtain ⟨back, rfl⟩ := hbegin
  exact length_mem_lengths_append.2 h

/-- A sum of languages has the lengths of both. -/
theorem mem_lengths_add : n ∈ lengths (l + m) cs ↔ n ∈ lengths l cs ∨ n ∈ lengths m cs :=
  and_or_left

theorem not_mem_lengths_add (hl : n ∉ lengths l cs) (hm : n ∉ lengths m cs) :
    n ∉ lengths (l + m) cs :=
  fun h => (mem_lengths_add.1 h).elim hl hm

theorem mem_lengths_one : n ∈ lengths 1 cs ↔ n = 0 := by
  rw [mem_lengths, Language.mem_one, List.take_eq_nil_iff]
  constructor
  · rintro ⟨hn, rfl | rfl⟩
    · rfl
    · exact Nat.le_zero.1 hn
  · rintro rfl
    exact ⟨Nat.zero_le _, .inl rfl⟩

/-- What is optional has the length zero besides. -/
theorem mem_lengths_optional : n ∈ lengths (optional l) cs ↔ n = 0 ∨ n ∈ lengths l cs := by
  rw [optional, mem_lengths_add, mem_lengths_one]

/-- A prefix that belongs to a product is cut into two. -/
theorem mem_lengths_mul : k ∈ lengths (l * m) cs ↔
    ∃ n ∈ lengths l cs, ∃ j ∈ lengths m (cs.drop n), n + j = k := by
  constructor
  · intro hk
    obtain ⟨_, back, rfl, hmem, rfl⟩ := mem_lengths_iff.1 hk
    obtain ⟨as, has, bs, hbs, rfl⟩ := Language.mem_mul.1 hmem
    refine ⟨as.length, ?_, bs.length, ?_, List.length_append.symm⟩
    · rw [List.append_assoc]
      exact length_mem_lengths_append.2 has
    · rw [List.append_assoc, List.drop_left]
      exact length_mem_lengths_append.2 hbs
  · rintro ⟨n, ⟨hn, hl⟩, j, ⟨hj, hm⟩, rfl⟩
    rw [List.length_drop] at hj
    refine ⟨by omega, ?_⟩
    rw [List.take_add]
    exact Language.append_mem_mul hl hm

/-- A product has no lengths if its first factor has none. -/
theorem not_mem_lengths_mul (h : ∀ n, n ∉ lengths l cs) : k ∉ lengths (l * m) cs := by
  intro hk
  obtain ⟨n, hn, -⟩ := mem_lengths_mul.1 hk
  exact h n hn

/-- A text that starts with one character of a kind goes on with the rest. -/
theorem mem_one_mul : cs ∈ one p * l ↔ ∃ c ds, cs = c :: ds ∧ p c = true ∧ ds ∈ l := by
  rw [Language.mem_mul]
  constructor
  · rintro ⟨_, ⟨c, hc, rfl⟩, ds, hds, rfl⟩
    exact ⟨c, ds, rfl, hc, hds⟩
  · rintro ⟨c, ds, rfl, hc, hds⟩
    exact ⟨[c], ⟨c, hc, rfl⟩, ds, hds, rfl⟩

theorem not_mem_lengths_one_mul_nil : k ∉ lengths (one p * l) [] := by
  intro hk
  obtain ⟨n, ⟨-, c, -, hc⟩, -⟩ := mem_lengths_mul.1 hk
  rw [List.take_nil] at hc
  cases hc

/-- Behind one character of a kind the lengths are those of the rest, longer by one. -/
theorem mem_lengths_one_mul_cons : k ∈ lengths (one p * l) (c :: cs) ↔
    p c = true ∧ ∃ n ∈ lengths l cs, 1 + n = k := by
  constructor
  · intro hk
    obtain ⟨_, back, hcs, hmem, rfl⟩ := mem_lengths_iff.1 hk
    obtain ⟨d, bs, rfl, hd, hbs⟩ := mem_one_mul.1 hmem
    obtain ⟨rfl, rfl⟩ := List.cons.inj hcs
    exact ⟨hd, bs.length, length_mem_lengths_append.2 hbs, Nat.add_comm 1 _⟩
  · rintro ⟨hc, n, hn, rfl⟩
    exact mem_lengths_mul.2 ⟨1, ⟨Nat.succ_le_succ (Nat.zero_le _), c, hc, rfl⟩, n, hn, rfl⟩

theorem not_mem_lengths_one_mul_cons (hc : p c = false) : k ∉ lengths (one p * l) (c :: cs) :=
  fun hk => Bool.eq_false_iff.1 hc (mem_lengths_one_mul_cons.1 hk).1

theorem not_mem_lengths_one_nil : k ∉ lengths (one p) [] :=
  mul_one (one p) ▸ not_mem_lengths_one_mul_nil

theorem mem_lengths_one_cons : k ∈ lengths (one p) (c :: cs) ↔ p c = true ∧ k = 1 := by
  rw [← mul_one (one p), mem_lengths_one_mul_cons]
  refine and_congr_right fun _ => ?_
  constructor
  · rintro ⟨n, hn, rfl⟩
    rw [mem_lengths_one.1 hn]
  · rintro rfl
    exact ⟨0, mem_lengths_one.2 rfl, rfl⟩

theorem not_mem_lengths_one_cons (hc : p c = false) : k ∉ lengths (one p) (c :: cs) :=
  fun hk => Bool.eq_false_iff.1 hc (mem_lengths_one_cons.1 hk).1

/-- A fixed text has its own length only. -/
theorem mem_lengths_exactly {text : String} :
    k ∈ lengths (exactly text) cs ↔ text.toList <+: cs ∧ k = text.length := by
  rw [mem_lengths_iff]
  constructor
  · rintro ⟨_, back, rfl, rfl, rfl⟩
    exact ⟨List.prefix_append _ _, String.length_toList⟩
  · rintro ⟨⟨back, rfl⟩, rfl⟩
    exact ⟨_, back, rfl, rfl, String.length_toList.symm⟩

/-- Behind a fixed text the lengths are those of the rest, longer by the text. -/
theorem mem_lengths_exactly_mul {text : String} : k ∈ lengths (exactly text * l) cs ↔
    ∃ rest, cs = text.toList ++ rest ∧ ∃ n ∈ lengths l rest, text.length + n = k := by
  rw [mem_lengths_mul]
  constructor
  · rintro ⟨n, hn, j, hj, rfl⟩
    obtain ⟨⟨rest, rfl⟩, rfl⟩ := mem_lengths_exactly.1 hn
    rw [← String.length_toList, List.drop_left] at hj
    exact ⟨rest, rfl, j, hj, rfl⟩
  · rintro ⟨rest, rfl, n, hn, rfl⟩
    refine ⟨_, mem_lengths_exactly.2 ⟨List.prefix_append _ _, rfl⟩, n, ?_, rfl⟩
    rwa [← String.length_toList, List.drop_left]

/-- Where a fixed text does not stand nothing follows it. -/
theorem not_mem_lengths_exactly_mul {text : String} (h : ∀ rest, cs = text.toList ++ rest → False) :
    k ∉ lengths (exactly text * l) cs := by
  intro hk
  obtain ⟨rest, hrest, -⟩ := mem_lengths_exactly_mul.1 hk
  exact h rest hrest

/-- A row of texts of a language, and what comes behind. -/
theorem kstar_mul : l∗ * m = m + l * (l∗ * m) := by
  conv_lhs => rw [← Language.one_add_self_mul_kstar_eq_kstar]
  rw [add_mul, one_mul, mul_assoc]

/-- The lengths of repeated characters are those up to the end of their run. -/
theorem mem_lengths_star_one : k ∈ lengths ((one p)∗) cs ↔ k ≤ run p cs := by
  induction cs generalizing k with
  | nil =>
      rw [← Language.one_add_self_mul_kstar_eq_kstar, mem_lengths_add, mem_lengths_one,
        or_iff_left not_mem_lengths_one_mul_nil]
      exact Nat.le_zero.symm
  | cons c cs ih =>
      rw [← Language.one_add_self_mul_kstar_eq_kstar, mem_lengths_add, mem_lengths_one,
        mem_lengths_one_mul_cons, run, List.takeWhile_cons]
      simp only [ih]
      by_cases hc : p c = true
      · rw [if_pos hc, List.length_cons]
        constructor
        · rintro (rfl | ⟨-, n, hn, rfl⟩)
          · exact Nat.zero_le _
          · rw [Nat.add_comm]
            exact Nat.succ_le_succ hn
        · intro hk
          cases k with
          | zero => exact .inl rfl
          | succ k => exact .inr ⟨hc, k, Nat.le_of_succ_le_succ hk, Nat.add_comm 1 k⟩
      · rw [if_neg hc, List.length_nil, Nat.le_zero]
        exact or_iff_left fun h => hc h.1

/-- A stop that is not empty is not found in the empty text. -/
theorem nil_not_mem_through {stop : String} (hstop : stop.toList ≠ []) : [] ∉ through stop :=
  fun h => hstop (List.suffix_nil.1 h.1)

theorem not_mem_lengths_through_nil {stop : String} (hstop : stop.toList ≠ []) :
    k ∉ lengths (through stop) [] := by
  rintro ⟨-, hmem⟩
  rw [List.take_nil] at hmem
  exact nil_not_mem_through hstop hmem

/-- Characters in front of a stop are passed over. -/
theorem cons_mem_through {stop : String} (hstop : ¬ stop.toList <+: c :: cs) :
    c :: cs ∈ through stop ↔ cs ∈ through stop := by
  have hends : ∀ row, row <+: cs → (stop.toList <:+ c :: row ↔ stop.toList <:+ row) :=
    fun row hrow => by
      rw [List.suffix_cons_iff, or_iff_right]
      rintro heq
      exact hstop (heq ▸ (List.prefix_cons_inj c).2 hrow)
  constructor
  · rintro ⟨hsuffix, hfirst⟩
    refine ⟨(hends cs (List.prefix_refl _)).1 hsuffix, fun front hfront hbehind => ?_⟩
    exact (List.cons.inj (hfirst (c :: front) ((List.prefix_cons_inj c).2 hfront)
      ((hends front hfront).2 hbehind))).2
  · rintro ⟨hsuffix, hfirst⟩
    refine ⟨(hends cs (List.prefix_refl _)).2 hsuffix, fun front hfront hbehind => ?_⟩
    cases front with
    | nil => exact absurd (List.suffix_nil.1 hbehind ▸ List.nil_prefix) hstop
    | cons d front =>
        obtain ⟨rfl, hrest⟩ := List.cons_prefix_cons.1 hfront
        exact congrArg (d :: ·) (hfirst front hrest ((hends front hrest).1 hbehind))

/-! ## Longest prefixes -/

/-- The longest prefix of a text that belongs to a language has a length, and where a shorter one
belongs to it too, a character of a class comes next. -/
structure Greedy (p : Char → Bool) (l : Language Char) (cs : List Char) (n : Nat) : Prop where
  greatest : IsGreatest (lengths l cs) n
  next : ∀ k ∈ lengths l cs, k < n → ∃ c ∈ (cs.drop k).head?, p c = true

namespace Greedy

/-- What is greedy for a kind is greedy for every wider one. -/
theorem mono (h : Greedy p l cs n) (hpq : ∀ c, p c = true → q c = true) : Greedy q l cs n :=
  ⟨h.greatest, fun k hk hlt => (h.next k hk hlt).imp fun c hc => ⟨hc.1, hpq c hc.2⟩⟩

/-- A row of characters is as long as it can be. -/
theorem star_one (p : Char → Bool) (cs : List Char) : Greedy p ((one p)∗) cs (run p cs) := by
  refine ⟨⟨mem_lengths_star_one.2 (Nat.le_refl _), fun k hk => mem_lengths_star_one.1 hk⟩,
    fun k hk hlt => ?_⟩
  have hk : k < (cs.takeWhile p).length := hlt
  refine ⟨(cs.takeWhile p)[k], ?_, List.all_eq_true.1 List.all_takeWhile _ (List.getElem_mem hk)⟩
  rw [Option.mem_def, List.head?_drop, (List.takeWhile_prefix p).getElem hk]
  exact List.getElem?_eq_getElem _

/-- One character may stand in front of what is greedy. -/
theorem one_mul (hc : p c = true) (h : Greedy q l cs n) :
    Greedy q (one p * l) (c :: cs) (1 + n) := by
  refine ⟨⟨mem_lengths_one_mul_cons.2 ⟨hc, n, h.greatest.1, rfl⟩, fun k hk => ?_⟩,
    fun k hk hlt => ?_⟩
  · obtain ⟨-, j, hj, rfl⟩ := mem_lengths_one_mul_cons.1 hk
    exact Nat.add_le_add_left (h.greatest.2 hj) 1
  · obtain ⟨-, j, hj, rfl⟩ := mem_lengths_one_mul_cons.1 hk
    rw [Nat.add_comm 1 j, List.drop_succ_cons]
    exact h.next j hj (by omega)

/-- The longest prefix of a product is made of the longest prefixes, if the second one never begins
with what comes next where the first one could be longer. -/
theorem mul (h : Greedy p l cs n) (h' : Greedy q m (cs.drop n) k)
    (hapart : ∀ c ds j, p c = true → j ∈ lengths m (c :: ds) → j = 0) :
    Greedy (fun c => p c || q c) (l * m) cs (n + k) := by
  have hshort : ∀ i ∈ lengths l cs, i < n → ∀ j ∈ lengths m (cs.drop i), j = 0 := by
    intro i hi hlt j hj
    obtain ⟨c, hhead, hc⟩ := h.next i hi hlt
    obtain ⟨ds, hds⟩ := List.head?_eq_some_iff.1 hhead
    rw [hds] at hj
    exact hapart c ds j hc hj
  refine ⟨⟨mem_lengths_mul.2 ⟨n, h.greatest.1, k, h'.greatest.1, rfl⟩, fun sum hsum => ?_⟩,
    fun sum hsum hlt => ?_⟩
  · obtain ⟨i, hi, j, hj, rfl⟩ := mem_lengths_mul.1 hsum
    rcases Nat.lt_or_eq_of_le (h.greatest.2 hi) with hless | rfl
    · rw [hshort i hi hless j hj]
      omega
    · exact Nat.add_le_add_left (h'.greatest.2 hj) i
  · obtain ⟨i, hi, j, hj, rfl⟩ := mem_lengths_mul.1 hsum
    rcases Nat.lt_or_eq_of_le (h.greatest.2 hi) with hless | rfl
    · obtain ⟨c, hhead, hc⟩ := h.next i hi hless
      rw [hshort i hi hless j hj]
      exact ⟨c, hhead, by rw [hc, Bool.true_or]⟩
    · obtain ⟨c, hhead, hc⟩ := h'.next j hj (by omega)
      rw [List.drop_drop] at hhead
      exact ⟨c, hhead, by rw [hc, Bool.or_true]⟩

/-- A fixed text may stand in front of what is greedy. -/
theorem exactly_mul {text : String} (h : Greedy q l cs n) :
    Greedy q (exactly text * l) (text.toList ++ cs) (text.length + n) := by
  have hcut : ∀ k, k ∈ lengths (exactly text * l) (text.toList ++ cs) ↔
      ∃ j ∈ lengths l cs, text.length + j = k := by
    intro k
    rw [mem_lengths_exactly_mul]
    constructor
    · rintro ⟨rest, hrest, hk⟩
      rwa [List.append_cancel_left hrest]
    · exact fun hk => ⟨cs, rfl, hk⟩
  refine ⟨⟨(hcut _).2 ⟨n, h.greatest.1, rfl⟩, fun k hk => ?_⟩, fun k hk hlt => ?_⟩
  · obtain ⟨j, hj, rfl⟩ := (hcut k).1 hk
    exact Nat.add_le_add_left (h.greatest.2 hj) _
  · obtain ⟨j, hj, rfl⟩ := (hcut k).1 hk
    rw [← String.length_toList, ← List.drop_drop, List.drop_left]
    exact h.next j hj (by omega)

/-- What may be left out is taken if it is there. -/
theorem optional (h : Greedy p l (c :: cs) n) (hc : p c = true) :
    Greedy p (optional l) (c :: cs) n := by
  refine ⟨⟨mem_lengths_optional.2 (.inr h.greatest.1), fun k hk => ?_⟩, fun k hk hlt => ?_⟩
  · rcases mem_lengths_optional.1 hk with rfl | hk
    · exact Nat.zero_le _
    · exact h.greatest.2 hk
  · rcases mem_lengths_optional.1 hk with rfl | hk
    · exact ⟨c, rfl, hc⟩
    · exact h.next k hk hlt

/-- What is optional and does not match is greedy for nothing. -/
theorem optional_of_none (h : ∀ k, k ∉ lengths l cs) : Greedy p (Pattern.optional l) cs 0 := by
  refine ⟨⟨mem_lengths_optional.2 (.inl rfl), fun k hk => ?_⟩,
    fun k hk hlt => absurd hlt k.not_lt_zero⟩
  rcases mem_lengths_optional.1 hk with rfl | hk
  · exact Nat.le_refl 0
  · exact absurd hk (h k)

end Greedy

/-- The longest prefix of a text that belongs to a language, if there is one. -/
def Reads (p : Char → Bool) (l : Language Char) (cs : List Char) : Option Nat → Prop
  | some n => Greedy p l cs n
  | none => ∀ k, k ∉ lengths l cs

namespace Reads

variable {found : Option Nat}

/-- Nothing is read where no front belongs to the language. -/
theorem of_not_mem (h : ∀ k, k ∉ lengths l cs) : Reads p l cs none :=
  h

theorem one_mul (hc : p c = true) (h : Reads q l cs found) :
    Reads q (one p * l) (c :: cs) (found.map (1 + ·)) := by
  cases found with
  | some n => exact Greedy.one_mul hc h
  | none =>
      intro k hk
      obtain ⟨-, n, hn, -⟩ := mem_lengths_one_mul_cons.1 hk
      exact h n hn

theorem one (hc : p c = true) : Reads q (one p) (c :: cs) (some 1) := by
  have hone : ∀ k, k ∈ lengths (Pattern.one p) (c :: cs) → k = 1 := fun k hk =>
    (mem_lengths_one_cons.1 hk).2
  refine ⟨⟨mem_lengths_one_cons.2 ⟨hc, rfl⟩, fun k hk => (hone k hk).le⟩, fun k hk hlt => ?_⟩
  exact absurd (hone k hk) (Nat.ne_of_lt hlt)

/-- A fixed text is read in front of the rest. -/
theorem exactly_mul {text : String} (h : Reads q l cs found) :
    Reads q (exactly text * l) (text.toList ++ cs) (found.map (text.length + ·)) := by
  cases found with
  | some n => exact Greedy.exactly_mul h
  | none =>
      intro k hk
      obtain ⟨rest, hrest, n, hn, -⟩ := mem_lengths_exactly_mul.1 hk
      rw [← List.append_cancel_left hrest] at hn
      exact h n hn

theorem of_lengths_eq (h : Reads p l cs found) (hlengths : lengths m cs = lengths l cs) :
    Reads p m cs found := by
  cases found with
  | some n => exact ⟨hlengths ▸ h.greatest, hlengths ▸ h.next⟩
  | none => exact fun k hk => h k (hlengths ▸ hk)

/-- Where only one of two languages has prefixes, this one is read. -/
theorem add_left (h : Reads p m cs found) (hl : ∀ k, k ∉ lengths l cs) :
    Reads p (l + m) cs found :=
  h.of_lengths_eq (Set.ext fun k => mem_lengths_add.trans (or_iff_right (hl k)))

/-- An alternative that does not match changes nothing. -/
theorem add_right (h : Reads p l cs found) (hm : ∀ k, k ∉ lengths m cs) :
    Reads p (l + m) cs found :=
  h.of_lengths_eq (Set.ext fun k => mem_lengths_add.trans (or_iff_left (hm k)))

/-- Where the end does not stand, one character more is read. -/
theorem through_cons {stop : String} (h : Reads p (through stop) cs found)
    (hstop : ¬ stop.toList <+: c :: cs) :
    Reads p (through stop) (c :: cs) (found.map (1 + ·)) := by
  have hone : Reads p (Pattern.one (fun _ => true) * through stop) (c :: cs) (found.map (1 + ·)) :=
    h.one_mul rfl
  refine hone.of_lengths_eq (Set.ext fun k => ?_)
  rw [mem_lengths_one_mul_cons, and_iff_right rfl]
  cases k with
  | zero =>
      refine iff_of_false (fun hk => nil_not_mem_through ?_ hk.2) ?_
      · rintro hnil
        exact hstop (hnil ▸ List.nil_prefix)
      · rintro ⟨n, -, hn⟩
        omega
  | succ k =>
      have hrow : ¬ stop.toList <+: c :: cs.take k := fun hbegin =>
        hstop (hbegin.trans ((List.prefix_cons_inj c).2 (List.take_prefix k cs)))
      rw [mem_lengths, List.length_cons, List.take_succ_cons, Nat.succ_le_succ_iff,
        cons_mem_through hrow]
      constructor
      · exact fun hk => ⟨k, hk, Nat.add_comm 1 k⟩
      · rintro ⟨n, hn, heq⟩
        rwa [show k = n by omega]

/-- Where the end stands, it is read. -/
theorem through_append {stop : String} : Reads p (through stop) (stop.toList ++ cs)
    (some stop.length) := by
  have honly : ∀ k, k ∈ lengths (through stop) (stop.toList ++ cs) → k = stop.length := by
    intro k hk
    obtain ⟨front, back, hcs, ⟨hends, hfirst⟩, rfl⟩ := mem_lengths_iff.1 hk
    have hbegin : stop.toList <+: front :=
      List.prefix_of_prefix_length_le (List.prefix_append _ _) ⟨back, hcs.symm⟩ hends.length_le
    rw [← hfirst _ hbegin (List.suffix_refl _), String.length_toList]
  refine ⟨⟨?_, fun k hk => (honly k hk).le⟩, fun k hk hlt => absurd (honly k hk) (Nat.ne_of_lt hlt)⟩
  rw [← String.length_toList, length_mem_lengths_append]
  exact ⟨List.suffix_refl _, fun front hfront hends =>
    hfront.eq_of_length (Nat.le_antisymm hfront.length_le hends.length_le)⟩

end Reads

end Pattern

end SolidityAtlas
