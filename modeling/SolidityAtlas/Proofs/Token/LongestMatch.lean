import Mathlib.Algebra.GroupWithZero.Nat
import SolidityAtlas.Proofs.Token.Lexeme
import SolidityAtlas.Proofs.Token.Places

/-!
# The longest match

A text is cut from left to right into the longest prefixes that belong to a pattern. The text of a
token belongs to patterns of one kind only (`Pattern.kind_unique`), and this is the kind of the
token, but for words, which are told apart by what they mean (`classify`). Where no prefix belongs
to a pattern the token is an error. It is one too where an opening of more than one character is not
closed, although a part of the opening would match: the slash of `/*`, or the word in front of a
quote.

## Main Definitions

* `Pattern.openKind`: the kind of pattern that an open-ended token belongs to
* `Pattern.IsLongestMatch`: the longest prefix that belongs to a pattern, and its kind
* `Pattern.NoMatch`, `Pattern.Unclosed`: where an error is

## Main Results

* `Pattern.isLongestMatch_lexeme`, `Pattern.fst_lexeme_eq_error_iff_unclosed`
* `tokenize_is_longest_match`
-/

namespace SolidityAtlas

open Lexeme

namespace Pattern

variable {p : TokenKind × Language Char} {o : Opening} {cs text : List Char}

/-! ## Kinds -/

/-- The kind of pattern that an open-ended token belongs to. -/
def openKind : List Char → TokenKind
  | '/' :: '/' :: _ => .lineComment
  | c :: cs =>
    if isSpace c then .whitespace
    else if isWordStart c then .ident
    else if c.isDigit then if cs.head?.any isHexMark then .hexNumber else .decimalNumber
    else (punctuation.lookup (String.ofList (c :: cs))).getD .error
  | [] => .error

/-- The first character, and for a number the second one, tells the kind of what is open-ended. -/
theorem openKind_cons {c : Char} (hc : c ≠ '/') (cs : List Char) : openKind (c :: cs) =
    if isSpace c then .whitespace
    else if isWordStart c then .ident
    else if c.isDigit then if cs.head?.any isHexMark then .hexNumber else .decimalNumber
    else (punctuation.lookup (String.ofList (c :: cs))).getD .error := by
  unfold openKind
  split
  · rename_i heq
    exact absurd (List.cons.inj heq).1 hc
  · rename_i heq
    obtain ⟨rfl, rfl⟩ := List.cons.inj heq
    rfl
  · rename_i heq
    cases heq

/-- What starts a word or a number is no space. -/
theorem isSpace_eq_false {c : Char} (h : isWordStart c = true ∨ c.isDigit = true) :
    isSpace c = false := by
  rw [Bool.eq_false_iff]
  intro hspace
  simp only [isSpace, Bool.or_eq_true, beq_iff_eq] at hspace
  rcases hspace with (((rfl | rfl) | rfl) | rfl) | rfl
  · revert h; decide
  · revert h; decide
  · revert h; decide
  · revert h; decide
  · revert h; decide

/-- A digit starts no word. -/
theorem isWordStart_eq_false {c : Char} (h : c.isDigit = true) : isWordStart c = false := by
  have hdigit : c.val.toNat ≤ 57 := (Char.isDigit_iff_toNat.1 h).2
  have hbelow : ∀ d : UInt32, 57 < d.toNat → ¬ d ≤ c.val := fun d hd hle =>
    absurd (UInt32.le_iff_toNat_le.1 hle) (Nat.not_le_of_lt (Nat.lt_of_le_of_lt hdigit hd))
  have hupper : c.isUpper = false :=
    decide_eq_false fun hletter => hbelow 'A'.val (by decide) hletter.1
  have hlower : decide (c.val ≥ 'a'.val) = false := decide_eq_false (hbelow 'a'.val (by decide))
  have halpha : c.isAlpha = (c.isUpper || (decide (c.val ≥ 'a'.val) && c.val ≤ 'z'.val)) := rfl
  have hunder : c ≠ '_' := by
    rintro rfl
    exact absurd h (by decide)
  have hdollar : c ≠ '$' := by
    rintro rfl
    exact absurd h (by decide)
  rw [isWordStart, halpha, hupper, hlower, beq_eq_false_iff_ne.2 hunder,
    beq_eq_false_iff_ne.2 hdollar]
  rfl

/-- Behind a digit nothing of a decimal number is a sign of a hexadecimal one. -/
theorem not_isHexMark {c : Char} {ds : List Char} (h : c :: ds ∈ decimals) :
    ds.head?.any isHexMark = false := by
  -- The scanner reads no more than the digit, so the whole text would be one character.
  rw [Bool.eq_false_iff, ne_eq, Option.any_eq_true]
  rintro ⟨x, hx, hmark⟩
  obtain ⟨ds, rfl⟩ := List.head?_eq_some_iff.1 hx
  have hlength : (c :: x :: ds).length ∈ lengths decimals (c :: x :: ds) :=
    length_mem_lengths h (List.prefix_refl _)
  have hdecimal : decimal? (c :: x :: ds) = if c.isDigit then some 1 else none := by
    rw [isHexMark, Bool.or_eq_true, beq_iff_eq, beq_iff_eq] at hmark
    by_cases hc : c.isDigit = true
    · rw [if_pos hc, decimal?, digits?, if_pos hc]
      rcases hmark with rfl | rfl
      · exact congrArg (fun n => some (1 + 0 + n)) (exponent_cons 'x' ds)
      · exact congrArg (fun n => some (1 + 0 + n)) (exponent_cons 'X' ds)
    · rw [if_neg hc, decimal?, digits?, if_neg hc]
      rfl
  have hreads := reads_decimal (c :: x :: ds)
  rw [hdecimal] at hreads
  split at hreads
  · have hle := hreads.greatest.2 hlength
    rw [List.length_cons, List.length_cons] at hle
    omega
  · exact hreads _ hlength

/-- The first characters of a text tell which open-ended pattern may match it. -/
theorem openKind_eq (hp : p ∈ openPatterns) (h : cs ∈ p.2) : openKind cs = p.1 := by
  have hslash : ∀ {c : Char} {q : Char → Bool}, q c = true → q '/' = false → c ≠ '/' :=
    fun hc hnot heq => Bool.eq_false_iff.1 hnot (heq ▸ hc)
  rcases List.mem_append.1 hp with hp | hp
  · simp only [List.mem_cons, List.not_mem_nil, or_false] at hp
    rcases hp with rfl | rfl | rfl | rfl | rfl
    · obtain ⟨c, ds, rfl, hc, -⟩ := mem_one_mul.1 h
      rw [openKind_cons (hslash hc rfl), if_pos hc]
    · obtain ⟨_, rfl, ds, -, rfl⟩ := Language.mem_mul.1 h
      rfl
    · obtain ⟨c, ds, rfl, hc, -⟩ := mem_one_mul.1 h
      rw [openKind_cons (hslash hc rfl), isSpace_eq_false (.inl hc), if_neg Bool.false_ne_true,
        if_pos hc]
    · have hmark := h
      rw [decimals, digits, mul_assoc, mul_assoc] at h
      obtain ⟨c, ds, rfl, hc, -⟩ := mem_one_mul.1 h
      rw [openKind_cons (hslash hc rfl), isSpace_eq_false (.inr hc), isWordStart_eq_false hc,
        if_neg Bool.false_ne_true, if_neg Bool.false_ne_true, if_pos hc, not_isHexMark hmark,
        if_neg Bool.false_ne_true]
    · obtain ⟨_, rfl, ds, hds, rfl⟩ := Language.mem_mul.1 h
      obtain ⟨x, ds, rfl, hx, -⟩ := mem_one_mul.1 hds
      exact if_pos hx
  · obtain ⟨mark, hmark, rfl⟩ := List.mem_map.1 hp
    have hall : ∀ mark ∈ punctuation, openKind mark.1.toList = mark.2 := by decide +kernel
    obtain rfl : cs = mark.1.toList := h
    exact hall mark hmark

/-- No pattern matches the empty text. -/
theorem nil_not_mem (hp : p ∈ patterns) : [] ∉ p.2 := by
  intro h
  have hzero : 0 ∈ lengths p.2 [] := length_mem_lengths h (List.prefix_refl _)
  rcases List.mem_append.1 hp with hp | hp
  · obtain ⟨x, hx, -⟩ := le_of_openEnded? hp hzero
    cases hx
  · obtain ⟨o, ho, rfl⟩ := List.mem_map.1 hp
    obtain ⟨rest, hrest, -⟩ := mem_lengths_exactly_mul.1 hzero
    have hfront : ∀ front ∈ openings.map Opening.front, front.toList ≠ [] := by decide
    exact hfront _ (List.mem_map_of_mem ho) (List.append_eq_nil_iff.1 hrest.symm).1

/-- A text that belongs to an opening belongs to no other pattern. -/
theorem eq_of_mem_texts (hp : p ∈ patterns) (ho : o ∈ openings) (h : cs ∈ p.2)
    (h' : cs ∈ o.texts) : p = (o.kind, o.texts) := by
  obtain ⟨_, rfl, rest, -, rfl⟩ := Language.mem_mul.1 h'
  have hfront := List.prefix_append o.front.toList rest
  have hlength := length_mem_lengths h (List.prefix_refl _)
  refine (length_lt_front_or ho hfront hp hlength).resolve_left fun hlt => ?_
  rw [List.length_append, String.length_toList] at hlt
  omega

/-- The patterns that a text belongs to are of one kind. -/
theorem kind_unique {p' : TokenKind × Language Char} (hp : p ∈ patterns) (hp' : p' ∈ patterns)
    (h : cs ∈ p.2) (h' : cs ∈ p'.2) : p.1 = p'.1 := by
  rcases List.mem_append.1 hp with hopen | hopening
  · rcases List.mem_append.1 hp' with hopen' | hopening'
    · rw [← openKind_eq hopen h, ← openKind_eq hopen' h']
    · obtain ⟨o, ho, rfl⟩ := List.mem_map.1 hopening'
      rw [eq_of_mem_texts hp ho h h']
  · obtain ⟨o, ho, rfl⟩ := List.mem_map.1 hopening
    rw [eq_of_mem_texts hp' ho h' h]

/-! ## The longest match -/

/-- Whether a text is the longest beginning of another one that belongs to a pattern, and of the
kind of this pattern. -/
structure IsLongestMatch (kind : TokenKind) (text rest : List Char) : Prop where
  before : text <+: rest
  matched : ∃ p ∈ patterns, text ∈ p.2
  kind_eq : ∀ p ∈ patterns, text ∈ p.2 → kind = kindFor p.1 text
  longest : ∀ p ∈ patterns, ∀ other ∈ p.2, other <+: rest → other.length ≤ text.length

/-- Whether no beginning of a text belongs to a pattern. -/
def NoMatch (rest : List Char) : Prop :=
  ∀ p ∈ patterns, ∀ text ∈ p.2, ¬ text <+: rest

/-- Whether a text begins with an opening, and no beginning that goes on behind the opening belongs
to a pattern. -/
def Unclosed (front : String) (rest : List Char) : Prop :=
  front.toList <+: rest ∧
    ∀ p ∈ patterns, ∀ text ∈ p.2, front.toList <+: text → ¬ text <+: rest

/-- What an opening starts is one of the patterns. -/
theorem mem_patterns_of_mem_openings (ho : o ∈ openings) : (o.kind, o.texts) ∈ patterns :=
  List.mem_append_right _ (List.mem_map_of_mem ho)

/-- A text is unclosed if it starts with an opening and no match follows. -/
theorem unclosed_iff (ho : o ∈ openings) :
    Unclosed o.front cs ↔ o.front.toList <+: cs ∧ ∀ k, k ∉ lengths o.texts cs := by
  refine and_congr_right fun hfront =>
    ⟨fun h k hk => ?_, fun h p hp text htext hbegins hbegin => ?_⟩
  · obtain ⟨text, back, rfl, htext, rfl⟩ := mem_lengths_iff.1 hk
    obtain ⟨_, rfl, rest, -, rfl⟩ := Language.mem_mul.1 htext
    exact h _ (mem_patterns_of_mem_openings ho) _ htext (List.prefix_append _ _)
      (List.prefix_append _ _)
  · have hlength := length_mem_lengths htext hbegin
    rcases length_lt_front_or ho hfront hp hlength with hlt | rfl
    · have hle := hbegins.length_le
      rw [String.length_toList] at hle
      omega
    · exact h _ hlength

/-- What is delimited is neither a word nor an error. -/
theorem kind_of_mem_openings (ho : o ∈ openings) : o.kind ≠ .ident ∧ o.kind ≠ .error := by
  have hall : ∀ kind ∈ openings.map Opening.kind, kind ≠ .ident ∧ kind ≠ .error := by decide
  exact hall _ (List.mem_map_of_mem ho)

section Opening

variable {scan : List Char → Extent} (ho : o ∈ openings) (hscan : Scans o scan)

include hscan

/-- What an opening starts is read by its scanner. -/
theorem reads_texts (rest : List Char) : Reads (fun _ => false) o.texts (o.front.toList ++ rest)
    ((scan rest).found?.map (o.front.length + ·)) :=
  Reads.exactly_mul (hscan.reads rest)

include ho

/-- An opening that is not closed makes an error. -/
theorem unclosed_append_iff (rest : List Char) :
    Unclosed o.front (o.front.toList ++ rest) ↔ (scan rest).closed = false := by
  rw [unclosed_iff ho, and_iff_right (List.prefix_append _ _)]
  have hreads := reads_texts hscan rest
  cases hclosed : (scan rest).closed with
  | false =>
      rw [Extent.found?, hclosed, if_neg Bool.false_ne_true] at hreads
      exact iff_of_true hreads rfl
  | true =>
      rw [Extent.found?, hclosed, if_pos rfl] at hreads
      exact iff_of_false (fun h => h _ hreads.greatest.1) (Ne.symm Bool.false_ne_true)

/-- Behind an opening there is an error exactly if it is not closed. -/
theorem fst_lexeme_opening_iff (rest : List Char) :
    (lexeme (o.front.toList ++ rest)).1 = .error ↔ Unclosed o.front (o.front.toList ++ rest) := by
  rw [lexeme_opening hscan, unclosed_append_iff ho hscan]
  cases (scan rest).closed with
  | false => exact iff_of_true rfl rfl
  | true => exact iff_of_false (kind_of_mem_openings ho).2 (Ne.symm Bool.false_ne_true)

end Opening

/-- A word is never an error. -/
theorem classify_ne_error (word : String) : classify word ≠ .error := by
  unfold classify
  split
  · rename_i kind hkind
    have hall : ∀ entry ∈ reservedWords, entry.2 ≠ .error := by decide
    obtain ⟨front, back, heq, -⟩ := List.lookup_eq_some_iff.1 hkind
    exact hall (word, kind) (heq ▸ List.mem_append_right _ List.mem_cons_self)
  · split
    · exact (nomatch ·)
    · exact (nomatch ·)

/-- What matches an open-ended pattern is never an error. -/
theorem kindFor_ne_error (hp : p ∈ openPatterns) (text : List Char) :
    kindFor p.1 text ≠ .error := by
  unfold kindFor
  split
  · exact classify_ne_error _
  · have hall : ∀ kind ∈ openPatterns.map Prod.fst, kind ≠ .error := by decide
    exact hall _ (List.mem_map_of_mem hp)

/-- What is no error is the longest match. -/
theorem lexeme_is_longest (h : (lexeme cs).1 ≠ .error) : ∃ p ∈ patterns,
    (lexeme cs).2 ∈ lengths p.2 cs ∧ (lexeme cs).1 = kindFor p.1 (cs.take (lexeme cs).2) ∧
      ∀ p' ∈ patterns, ∀ k ∈ lengths p'.2 cs, k ≤ (lexeme cs).2 := by
  by_cases hopening : ∃ o ∈ openings, o.front.toList <+: cs
  · obtain ⟨o, ho, rest, rfl⟩ := hopening
    obtain ⟨scan, hscan⟩ := exists_scans ho
    rw [ne_eq, fst_lexeme_opening_iff ho hscan, unclosed_append_iff ho hscan,
      Bool.not_eq_false] at h
    have hreads := reads_texts hscan rest
    rw [Extent.found?, if_pos h] at hreads
    rw [lexeme_opening hscan, if_pos h]
    refine ⟨_, mem_patterns_of_mem_openings ho, hreads.greatest.1,
      (if_neg (kind_of_mem_openings ho).1).symm, fun p' hp' k hk => ?_⟩
    rcases length_lt_front_or ho (List.prefix_append _ _) hp' hk with hlt | rfl
    · exact Nat.le_trans hlt.le (Nat.le_add_right _ _)
    · exact hreads.greatest.2 hk
  · have hnone : ∀ o ∈ openings, ¬ o.front.toList <+: cs := fun o ho hfront =>
      hopening ⟨o, ho, hfront⟩
    rw [lexeme_of_not_opening hnone] at h ⊢
    cases hopen : openEnded? cs with
    | none =>
        rw [hopen] at h
        exact absurd rfl h
    | some x =>
        obtain ⟨p, hp, hlength, hkind⟩ := openEnded?_eq_some hopen
        refine ⟨p, List.mem_append_left _ hp, hlength, hkind, fun p' hp' k hk => ?_⟩
        rcases List.mem_append.1 hp' with hp' | hp'
        · obtain ⟨y, hy, hle⟩ := le_of_openEnded? hp' hk
          rw [hopen] at hy
          rwa [← Option.some.inj hy] at hle
        · obtain ⟨o, ho, rfl⟩ := List.mem_map.1 hp'
          obtain ⟨rest, hrest, -⟩ := mem_lengths_exactly_mul.1 hk
          exact absurd ⟨rest, hrest.symm⟩ (hnone o ho)

/-- A token that is no error is a longest match. -/
theorem isLongestMatch_lexeme (h : (lexeme cs).1 ≠ .error) :
    0 < (lexeme cs).2 ∧ IsLongestMatch (lexeme cs).1 (cs.take (lexeme cs).2) cs := by
  obtain ⟨p, hp, hlength, hkind, hlongest⟩ := lexeme_is_longest h
  refine ⟨Nat.pos_of_ne_zero fun hzero => ?_, List.take_prefix _ _, ⟨p, hp, hlength.2⟩,
    fun p' hp' htext => ?_, fun p' hp' other hother hbegin => ?_⟩
  · have hnil := hlength.2
    rw [hzero] at hnil
    exact nil_not_mem hp hnil
  · rw [hkind, kind_unique hp hp' hlength.2 htext]
  · rw [List.length_take_of_le hlength.1]
    exact hlongest p' hp' _ (length_mem_lengths hother hbegin)

/-- A token is an error if nothing matches, or an opening is not closed. -/
theorem fst_lexeme_eq_error_iff : (lexeme cs).1 = .error ↔
    NoMatch cs ∨ ∃ o ∈ openings, Unclosed o.front cs := by
  constructor
  · intro h
    by_cases hopening : ∃ o ∈ openings, o.front.toList <+: cs
    · obtain ⟨o, ho, rest, rfl⟩ := hopening
      obtain ⟨scan, hscan⟩ := exists_scans ho
      exact .inr ⟨o, ho, (fst_lexeme_opening_iff ho hscan rest).1 h⟩
    · have hnone : ∀ o ∈ openings, ¬ o.front.toList <+: cs := fun o ho hfront =>
        hopening ⟨o, ho, hfront⟩
      rw [lexeme_of_not_opening hnone] at h
      refine .inl fun p hp text htext hbegin => ?_
      rcases List.mem_append.1 hp with hp | hp
      · obtain ⟨⟨kind, n⟩, hx, -⟩ := le_of_openEnded? hp (length_mem_lengths htext hbegin)
        obtain ⟨p', hp', -, hkind⟩ := openEnded?_eq_some hx
        rw [hx] at h
        exact kindFor_ne_error hp' _ (hkind.symm.trans h)
      · obtain ⟨o, ho, rfl⟩ := List.mem_map.1 hp
        obtain ⟨_, rfl, rest, -, rfl⟩ := Language.mem_mul.1 htext
        exact hnone o ho ((List.prefix_append _ _).trans hbegin)
  · rintro (hnone | ⟨o, ho, hunclosed⟩)
    · by_contra hkind
      obtain ⟨p, hp, hlength, -⟩ := lexeme_is_longest hkind
      exact hnone p hp _ hlength.2 (List.take_prefix _ _)
    · obtain ⟨rest, rfl⟩ := hunclosed.1
      obtain ⟨scan, hscan⟩ := exists_scans ho
      exact (fst_lexeme_opening_iff ho hscan rest).2 hunclosed

/-- Without its closing quote, a text in plain quotes begins with nothing that belongs to a
pattern. -/
theorem noMatch_of_unclosed (ho : o ∈ openings) (hplain : o.front.length = 1)
    (h : Unclosed o.front cs) : NoMatch cs := by
  intro p hp text htext hbegin
  have hlength := length_mem_lengths htext hbegin
  rcases length_lt_front_or ho h.1 hp hlength with hlt | rfl
  · rw [hplain, Nat.lt_one_iff, List.length_eq_zero_iff] at hlt
    exact nil_not_mem hp (hlt ▸ htext)
  · exact ((unclosed_iff ho).1 h).2 _ hlength

/-- An error is where nothing matches, where a comment is not closed, or where a text in quotes with
a word in front is not. -/
theorem fst_lexeme_eq_error_iff_unclosed : (lexeme cs).1 = .error ↔ NoMatch cs ∨ Unclosed "/*" cs ∨
    ∃ front ∈ ["hex\"", "hex'", "unicode\"", "unicode'"], Unclosed front cs := by
  rw [fst_lexeme_eq_error_iff]
  have hopening : ∀ front ∈ ["/*", "hex\"", "hex'", "unicode\"", "unicode'"],
      ∃ o ∈ openings, o.front = front := by
    intro front hfront
    have hmem : front ∈ openings.map Opening.front :=
      (by decide : ∀ front ∈ ["/*", "hex\"", "hex'", "unicode\"", "unicode'"],
        front ∈ openings.map Opening.front) front hfront
    exact List.mem_map.1 hmem
  constructor
  · rintro (hnone | ⟨o, ho, hunclosed⟩)
    · exact .inl hnone
    · have hkinds : ∀ front ∈ openings.map Opening.front, front.length = 1 ∨ front = "/*" ∨
          front ∈ ["hex\"", "hex'", "unicode\"", "unicode'"] := by decide
      rcases hkinds _ (List.mem_map_of_mem ho) with hplain | hcomment | hword
      · exact .inl (noMatch_of_unclosed ho hplain hunclosed)
      · exact .inr (.inl (hcomment ▸ hunclosed))
      · exact .inr (.inr ⟨_, hword, hunclosed⟩)
  · rintro (hnone | hunclosed | ⟨front, hfront, hunclosed⟩)
    · exact .inl hnone
    · obtain ⟨o, ho, heq⟩ := hopening "/*" (by decide)
      exact .inr ⟨o, ho, heq ▸ hunclosed⟩
    · obtain ⟨o, ho, heq⟩ := hopening front (List.mem_cons_of_mem _ hfront)
      exact .inr ⟨o, ho, heq ▸ hunclosed⟩

/-- A comment that is not closed goes on to the end. -/
theorem snd_lexeme_of_unclosed (h : Unclosed "/*" cs) : (lexeme cs).2 = cs.length := by
  have ho : (⟨.blockComment, "/*", through "*/"⟩ : Opening) ∈ openings := List.mem_cons_self
  obtain ⟨scan, hscan⟩ := exists_scans ho
  obtain ⟨rest, rfl⟩ := h.1
  have hclosed := (unclosed_append_iff ho hscan rest).1 h
  have hlexeme := lexeme_opening hscan rest
  rw [hlexeme, hscan.toEnd rfl rest hclosed, List.length_append, String.length_toList]

end Pattern

open Pattern

/-! ## Tokens of a text -/

/-- A token is what stands at the start of the rest of the text. -/
theorem lexeme_of_tokensFrom {start : Nat} {cs : List Char} {front back : List Token} {t : Token}
    (h : tokensFrom start cs = front ++ t :: back) : ∃ c ds stop,
      spelling (t :: back) = String.ofList (c :: ds) ∧ t.kind = (lexeme (c :: ds)).1 ∧
      t.text = String.ofList (c :: ds.take ((lexeme (c :: ds)).2 - 1)) ∧
      back = tokensFrom stop (ds.drop ((lexeme (c :: ds)).2 - 1)) := by
  induction front generalizing start cs with
  | nil =>
      cases cs with
      | nil => simp [tokensFrom] at h
      | cons c ds =>
          have hspelling := spelling_tokensFrom start (c :: ds)
          rw [h, List.nil_append] at hspelling
          rw [tokensFrom] at h
          obtain ⟨rfl, rfl⟩ := List.cons.inj h
          exact ⟨c, ds, _, hspelling, rfl, rfl, rfl⟩
  | cons u front ih =>
      cases cs with
      | nil => simp [tokensFrom] at h
      | cons c ds =>
          rw [tokensFrom] at h
          exact ih (List.cons.inj h).2

/-- Spelled tokens are as long as they are together. -/
theorem utf8ByteSize_spelling (ts : List Token) :
    (spelling ts).utf8ByteSize = (ts.map fun t => t.text.utf8ByteSize).sum := by
  induction ts with
  | nil => rfl
  | cons t ts ih => rw [spelling_cons, String.utf8ByteSize_append, ih, List.map_cons, List.sum_cons]

/-- **A text is cut into its longest matches.** The tokens are not empty, put together they are the
text, and each starts behind the bytes of those in front of it. What is no error is the longest
beginning of the rest of the text that belongs to a pattern, and it is of this pattern's kind. An
error is exactly where no beginning of the rest belongs to a pattern, where a comment is not closed,
or where a text in quotes with a word in front is not. The comment is then the last token. -/
theorem tokenize_is_longest_match (text : String) :
    spelling (tokenize text) = text ∧ (∀ t ∈ tokenize text, t.text ≠ "") ∧
    ∀ front t back, tokenize text = front ++ t :: back →
      t.start = (front.map fun u => u.text.utf8ByteSize).sum ∧
      (t.kind ≠ .error →
        IsLongestMatch t.kind t.text.toList (spelling (t :: back)).toList) ∧
      (t.kind = .error ↔ NoMatch (spelling (t :: back)).toList ∨
        Unclosed "/*" (spelling (t :: back)).toList ∨
        ∃ opening ∈ ["hex\"", "hex'", "unicode\"", "unicode'"],
          Unclosed opening (spelling (t :: back)).toList) ∧
      (Unclosed "/*" (spelling (t :: back)).toList → back = []) := by
  refine ⟨spelling_tokenize text, fun t ht hempty => ?_, fun front t back hsplit => ?_⟩
  · have hlt := start_lt_stop_of_mem_tokensFrom ht
    rw [Token.stop, hempty] at hlt
    exact absurd hlt (Nat.lt_irrefl _)
  · obtain ⟨c, ds, stop, hspelling, hkind, htext, hback⟩ := lexeme_of_tokensFrom hsplit
    rw [hspelling, String.toList_ofList, hkind, htext, String.toList_ofList]
    refine ⟨?_, fun herror => ?_, fst_lexeme_eq_error_iff_unclosed, fun hunclosed => ?_⟩
    · rw [start_of_tokenize hsplit, utf8ByteSize_spelling]
    · obtain ⟨hpos, hmatch⟩ := isLongestMatch_lexeme herror
      rwa [← List.take_succ_cons, Nat.sub_add_cancel hpos]
    · rw [hback, snd_lexeme_of_unclosed hunclosed, List.length_cons, Nat.add_sub_cancel,
        List.drop_length, tokensFrom]

example : (tokenize "0x1e5>>>=1e5").map Token.text = ["0x1e5", ">>>=", "1e5"] := by
  decide +kernel

end SolidityAtlas
