import SolidityAtlas.Proofs.Token.Scan

/-!
# The token at the start of a text

A token that begins with an opening, of a comment in `/* … */` or of a text in quotes, is read
behind the opening (`Pattern.lexeme_opening`). Openings are told apart by their fronts, and an
open-ended token ends before the front of an opening does, so nothing else than the texts of the
opening can match there (`Pattern.length_lt_front_or`). Without an opening the longest open-ended
token is taken (`Pattern.lexeme_of_not_opening`), and this is the longest prefix that belongs to an
open-ended pattern, since for each pattern its own longest prefix is offered.

## Main Definitions

* `Pattern.kindFor`: the kind of a token by the pattern that its text belongs to
* `Pattern.IsLongest`: the longest of some offers
* `Pattern.Offered`: what is offered for a pattern
* `Pattern.Scans`: how an opening is read on

## Main Results

* `Pattern.openEnded?_eq_some`, `Pattern.le_of_openEnded?`
* `Pattern.lexeme_opening`, `Pattern.lexeme_of_not_opening`
* `Pattern.length_lt_front_or`
-/

namespace SolidityAtlas

open Lexeme

namespace Pattern

variable {p : TokenKind × Language Char} {o o' : Opening} {cs : List Char} {k n : Nat}

/-! ## The longest offer -/

/-- Whether an offer is not longer than another one. -/
def Below (offer choice : Option (TokenKind × Nat)) : Prop :=
  ∀ x, offer = some x → ∃ y, choice = some y ∧ x.2 ≤ y.2

theorem Below.refl (offer : Option (TokenKind × Nat)) : Below offer offer :=
  fun x hx => ⟨x, hx, Nat.le_refl _⟩

/-- Offers are ordered by their lengths. -/
theorem Below.trans {offer next choice : Option (TokenKind × Nat)} (h : Below offer next)
    (h' : Below next choice) : Below offer choice := by
  intro x hx
  obtain ⟨y, hy, hle⟩ := h x hx
  obtain ⟨z, hz, hle'⟩ := h' y hy
  exact ⟨z, hz, hle.trans hle'⟩

/-- Of two offers the longer one is kept, and the first one if they are equally long. -/
theorem longer_cases (best next : Option (TokenKind × Nat)) :
    longer best next = best ∧ Below next best ∨ longer best next = next ∧ Below best next := by
  cases best with
  | none => exact .inr ⟨rfl, fun x hx => nomatch hx⟩
  | some b =>
      cases next with
      | none => exact .inl ⟨rfl, fun x hx => nomatch hx⟩
      | some n =>
          by_cases hlt : b.2 < n.2
          · refine .inr ⟨if_pos hlt, fun x hx => ⟨n, rfl, ?_⟩⟩
            rw [← Option.some.inj hx]
            exact hlt.le
          · refine .inl ⟨if_neg hlt, fun x hx => ⟨b, rfl, ?_⟩⟩
            rw [← Option.some.inj hx]
            exact Nat.le_of_not_lt hlt

/-- Whether one of some offers is chosen, and none of them is longer. -/
def IsLongest (offers : List (Option (TokenKind × Nat))) (choice : Option (TokenKind × Nat)) :
    Prop :=
  (choice = none ∨ choice ∈ offers) ∧ ∀ offer ∈ offers, Below offer choice

/-- The longest of the offers so far and those to come is kept. -/
theorem isLongest_foldl_cons (best : Option (TokenKind × Nat))
    (offers : List (Option (TokenKind × Nat))) :
    IsLongest (best :: offers) (offers.foldl longer best) := by
  induction offers generalizing best with
  | nil => exact ⟨.inr List.mem_cons_self, List.forall_mem_singleton.2 (Below.refl best)⟩
  | cons next offers ih =>
      obtain ⟨hchosen, hlongest⟩ := ih (longer best next)
      rw [List.forall_mem_cons] at hlongest
      rw [IsLongest, List.foldl_cons, List.forall_mem_cons, List.forall_mem_cons]
      rcases longer_cases best next with ⟨heq, hbelow⟩ | ⟨heq, hbelow⟩
      · rw [heq] at hchosen hlongest ⊢
        refine ⟨hchosen.imp_right fun hmem => ?_, hlongest.1, hbelow.trans hlongest.1, hlongest.2⟩
        rcases List.mem_cons.1 hmem with heq | hmem
        · exact List.mem_cons.2 (.inl heq)
        · exact List.mem_cons_of_mem _ (List.mem_cons_of_mem _ hmem)
      · rw [heq] at hchosen hlongest ⊢
        exact ⟨hchosen.imp_right (List.mem_cons_of_mem _), hbelow.trans hlongest.1, hlongest⟩

/-- The longest offer of a row is kept. -/
theorem isLongest_foldl (offers : List (Option (TokenKind × Nat))) :
    IsLongest offers (offers.foldl longer none) := by
  obtain ⟨hchosen, hlongest⟩ := isLongest_foldl_cons none offers
  refine ⟨?_, (List.forall_mem_cons.1 hlongest).2⟩
  rcases hchosen with hnone | hmem
  · exact .inl hnone
  · exact (List.mem_cons.1 hmem).imp_left id

/-- An offer may itself be the longest of some. -/
theorem IsLongest.append {front offers : List (Option (TokenKind × Nat))}
    {offer choice : Option (TokenKind × Nat)} (h : IsLongest (front ++ [offer]) choice)
    (hoffer : IsLongest offers offer) : IsLongest (front ++ offers) choice := by
  obtain ⟨hchosen, hlongest⟩ := h
  rw [List.forall_mem_append, List.forall_mem_singleton] at hlongest
  refine ⟨?_, List.forall_mem_append.2 ⟨hlongest.1, fun o ho =>
    (hoffer.2 o ho).trans hlongest.2⟩⟩
  rcases hchosen with hnone | hmem
  · exact .inl hnone
  · rcases List.mem_append.1 hmem with hmem | hmem
    · exact .inr (List.mem_append_left _ hmem)
    · obtain rfl := List.mem_singleton.1 hmem
      exact hoffer.1.imp_right (List.mem_append_right _)

/-! ## Open-ended tokens -/

/-- The kind of a token by the pattern that its text belongs to. -/
def kindFor (kind : TokenKind) (text : List Char) : TokenKind :=
  if kind = .ident then classify (String.ofList text) else kind

/-- Whether a token is offered for a pattern if the text begins with one, the longest one. -/
def Offered (p : TokenKind × Language Char) (cs : List Char) (offer : Option (TokenKind × Nat)) :
    Prop :=
  (∀ x, offer = some x → x.2 ∈ lengths p.2 cs ∧ x.1 = kindFor p.1 (cs.take x.2)) ∧
    ∀ k ∈ lengths p.2 cs, ∃ x, offer = some x ∧ k ≤ x.2

/-- What a scanner reads is offered under the kind of its pattern. -/
theorem offered_of_reads {q : Char → Bool} {kind : TokenKind} {l : Language Char}
    {found : Option Nat} (h : Reads q l cs found) :
    Offered (kind, l) cs (found.map fun n => (kindFor kind (cs.take n), n)) := by
  cases found with
  | none => exact ⟨fun x hx => (nomatch hx), fun k hk => absurd hk (h k)⟩
  | some n =>
      refine ⟨fun x hx => ?_, fun k hk => ⟨_, rfl, h.greatest.2 hk⟩⟩
      rw [← Option.some.inj hx]
      exact ⟨h.greatest.1, rfl⟩

/-- What is offered for an operator or bracket. -/
def markOffer (cs : List Char) (mark : String × TokenKind) : Option (TokenKind × Nat) :=
  if mark.1.toList.isPrefixOf cs then some (mark.2, mark.1.length) else none

/-- A punctuation mark is offered where it stands. -/
theorem offered_mark {mark : String × TokenKind} (hmark : mark ∈ punctuation) (cs : List Char) :
    Offered (mark.2, exactly mark.1) cs (markOffer cs mark) := by
  have hkind : mark.2 ≠ .ident := by
    have hall : ∀ mark ∈ punctuation, mark.2 ≠ .ident := by decide
    exact hall mark hmark
  unfold markOffer
  split
  · rename_i hbegin
    refine ⟨fun x hx => ?_, fun k hk => ⟨_, rfl, (mem_lengths_exactly.1 hk).2.le⟩⟩
    rw [← Option.some.inj hx]
    exact ⟨mem_lengths_exactly.2 ⟨List.isPrefixOf_iff_prefix.1 hbegin, rfl⟩, (if_neg hkind).symm⟩
  · rename_i hbegin
    refine ⟨fun x hx => (nomatch hx), fun k hk => ?_⟩
    exact absurd (List.isPrefixOf_iff_prefix.2 (mem_lengths_exactly.1 hk).1) hbegin

/-- The longest punctuation mark is chosen. -/
theorem mark?_eq (cs : List Char) :
    mark? cs = (punctuation.map (markOffer cs)).foldl longer none := by
  rw [mark?, List.foldl_map]
  refine congrArg (List.foldl · none punctuation) (funext₂ fun best mark => ?_)
  obtain ⟨text, kind⟩ := mark
  simp only [markOffer]
  by_cases hbegin : text.toList.isPrefixOf cs = true
  · rw [if_pos hbegin]
    cases best with
    | none => exact if_pos ⟨hbegin, rfl⟩
    | some b =>
        have hshorter : (text.toList.isPrefixOf cs = true ∧
            (some b).all (fun x => decide (x.2 < text.length)) = true) ↔ b.2 < text.length := by
          rw [and_iff_right hbegin]
          exact decide_eq_true_iff
        exact if_congr hshorter rfl rfl
  · rw [if_neg hbegin, if_neg (mt And.left hbegin)]
    cases best with
    | none => rfl
    | some b => rfl

/-- What is offered for the open-ended tokens. -/
def offers (cs : List Char) : List (Option (TokenKind × Nat)) :=
  [ (space? cs).map fun n => (kindFor .whitespace (cs.take n), n),
    (lineComment? cs).map fun n => (kindFor .lineComment (cs.take n), n),
    (word? cs).map fun n => (kindFor .ident (cs.take n), n),
    (decimal? cs).map fun n => (kindFor .decimalNumber (cs.take n), n),
    (hex? cs).map fun n => (kindFor .hexNumber (cs.take n), n) ] ++
  punctuation.map (markOffer cs)

/-- Of what is open-ended the longest match is chosen. -/
theorem isLongest_openEnded? (cs : List Char) : IsLongest (offers cs) (openEnded? cs) := by
  have hmark : IsLongest (punctuation.map (markOffer cs)) (mark? cs) := by
    rw [mark?_eq]
    exact isLongest_foldl _
  exact (isLongest_foldl _).append hmark

/-- For each open-ended pattern something is offered, and nothing is offered for others. -/
theorem forall₂_offered (cs : List Char) :
    List.Forall₂ (Offered · cs ·) openPatterns (offers cs) := by
  refine List.rel_append ?_ ?_
  · exact .cons (offered_of_reads (reads_space cs)) (.cons (offered_of_reads (reads_lineComment cs))
      (.cons (offered_of_reads (reads_word cs)) (.cons (offered_of_reads (reads_decimal cs))
        (.cons (offered_of_reads (reads_hex cs)) .nil))))
  · rw [List.forall₂_map_left_iff, List.forall₂_map_right_iff, List.forall₂_same]
    exact fun mark hmark => offered_mark hmark cs

/-- An open-ended token is the longest prefix that belongs to an open-ended pattern. -/
theorem openEnded?_eq_some {kind : TokenKind} (h : openEnded? cs = some (kind, n)) :
    ∃ p ∈ openPatterns, n ∈ lengths p.2 cs ∧ kind = kindFor p.1 (cs.take n) := by
  have hmem : some (kind, n) ∈ offers cs :=
    (h ▸ (isLongest_openEnded? cs).1).resolve_left (Option.some_ne_none _)
  obtain ⟨i, hi, hoffer⟩ := List.getElem_of_mem hmem
  have hoffered := forall₂_offered cs
  have hlength := hoffered.length_eq
  refine ⟨openPatterns[i], List.getElem_mem _, ?_⟩
  exact (hoffered.get (hlength ▸ hi) hi).1 _ hoffer

/-- No match of an open-ended pattern is longer than the choice. -/
theorem le_of_openEnded? (hp : p ∈ openPatterns) (hk : k ∈ lengths p.2 cs) :
    ∃ x, openEnded? cs = some x ∧ k ≤ x.2 := by
  obtain ⟨i, hi, rfl⟩ := List.getElem_of_mem hp
  have hoffered := forall₂_offered cs
  have hi' : i < (offers cs).length := hoffered.length_eq ▸ hi
  obtain ⟨x, hx, hle⟩ := (hoffered.get hi hi').2 k hk
  obtain ⟨y, hy, hle'⟩ := (isLongest_openEnded? cs).2 _ (List.getElem_mem hi') x hx
  exact ⟨y, hy, hle.trans hle'⟩

/-! ## Delimited tokens -/

/-- A comment that is not closed goes on to the end. -/
theorem length_commentBody (h : (commentBody cs).closed = false) :
    (commentBody cs).length = cs.length := by
  fun_induction commentBody cs with
  | case1 cs => cases h
  | case2 c cs hend ih =>
      rw [Extent.shift, ih h, List.length_cons, Nat.add_comm]
  | case3 => rfl

/-- How an opening is read on. -/
structure Scans (o : Opening) (scan : List Char → Extent) : Prop where
  reads : ∀ rest, Reads (fun _ => false) o.rest rest (scan rest).found?
  delimited : ∀ rest, delimited? (o.front.toList ++ rest) =
    some (o.kind, (scan rest).shift o.front.length)
  /-- A comment whose end is missing goes on to the end. -/
  toEnd : o.kind = .blockComment → ∀ rest, (scan rest).closed = false →
    (scan rest).length = rest.length

/-- Every opening has its scanner. -/
theorem exists_scans (ho : o ∈ openings) : ∃ scan, Scans o scan := by
  rw [openings] at ho
  simp only [List.mem_cons, List.not_mem_nil, or_false] at ho
  rcases ho with rfl | rfl | rfl | rfl | rfl | rfl | rfl
  · exact ⟨commentBody, reads_commentBody, fun _ => rfl, fun _ _ => length_commentBody⟩
  · exact ⟨quoted '"', reads_quoted (by decide), fun _ => rfl, (nomatch ·)⟩
  · exact ⟨quoted '\'', reads_quoted (by decide), fun _ => rfl, (nomatch ·)⟩
  · exact ⟨quoted '"', reads_quoted (by decide), fun _ => rfl, (nomatch ·)⟩
  · exact ⟨quoted '\'', reads_quoted (by decide), fun _ => rfl, (nomatch ·)⟩
  · exact ⟨hexQuoted '"', reads_hexQuoted (by decide), fun _ => rfl, (nomatch ·)⟩
  · exact ⟨hexQuoted '\'', reads_hexQuoted (by decide), fun _ => rfl, (nomatch ·)⟩

/-- Behind an opening an open-ended token stops within it. -/
theorem length_openEnded?_lt (ho : o ∈ openings) (rest : List Char) :
    (openEnded? (o.front.toList ++ rest)).elim 0 Prod.snd < o.front.length := by
  rw [openings] at ho
  simp only [List.mem_cons, List.not_mem_nil, or_false] at ho
  rcases ho with rfl | rfl | rfl | rfl | rfl | rfl | rfl
  -- The front settles what the scanners find: the slash, nothing, or the word in front of a quote.
  · exact (by decide : 1 < 2)
  · exact (by decide : 0 < 1)
  · exact (by decide : 0 < 1)
  · exact (by decide : 7 < 8)
  · exact (by decide : 7 < 8)
  · exact (by decide : 3 < 4)
  · exact (by decide : 3 < 4)

/-- No opening begins with another one. -/
theorem front_unique (ho : o ∈ openings) (ho' : o' ∈ openings) (h : o.front.toList <+: cs)
    (h' : o'.front.toList <+: cs) : o.front = o'.front := by
  have hapart : ∀ front ∈ openings.map Opening.front, ∀ other ∈ openings.map Opening.front,
      front.toList <+: other.toList → front = other := by decide
  rcases List.prefix_or_prefix_of_prefix h h' with hbegin | hbegin
  · exact hapart _ (List.mem_map_of_mem ho) _ (List.mem_map_of_mem ho') hbegin
  · exact (hapart _ (List.mem_map_of_mem ho') _ (List.mem_map_of_mem ho) hbegin).symm

/-- Without a quote behind its front nothing is quoted. -/
theorem quotedAfter?_eq_none {front : String} {inside : Char → List Char → Extent}
    (h : ∀ quote, quote = '"' ∨ quote = '\'' → ¬ front.toList ++ [quote] <+: cs) :
    quotedAfter? front inside cs = none := by
  cases hrest : dropFront? front.toList cs with
  | none =>
      rw [quotedAfter?, hrest]
      rfl
  | some rest =>
      obtain rfl := dropFront?_eq_some_iff.1 hrest
      have hquote : quote? rest = none := by
        cases rest with
        | nil => rfl
        | cons c rest => exact if_neg fun hc => h c hc (by simp)
      rw [quotedAfter?, hrest]
      simp only [bind, Option.bind_some, hquote, Option.bind_none]

/-- Without an opening nothing is delimited. -/
theorem delimited?_eq_none (h : ∀ o ∈ openings, ¬ o.front.toList <+: cs) :
    delimited? cs = none := by
  have hfront : ∀ front ∈ openings.map Opening.front, ¬ front.toList <+: cs :=
    List.forall_mem_map.2 h
  have hcomment : blockComment? cs = none := by
    rw [blockComment?, Option.map_eq_none_iff, Option.eq_none_iff_forall_ne_some]
    exact fun rest hrest => hfront "/*" (by decide) ⟨rest, (dropFront?_eq_some_iff.1 hrest).symm⟩
  have hplain : quotedAfter? "" quoted cs = none := by
    refine quotedAfter?_eq_none fun quote hquote => ?_
    rcases hquote with rfl | rfl
    · exact hfront "\"" (by decide)
    · exact hfront "'" (by decide)
  have hunicode : quotedAfter? "unicode" quoted cs = none := by
    refine quotedAfter?_eq_none fun quote hquote => ?_
    rcases hquote with rfl | rfl
    · exact hfront "unicode\"" (by decide)
    · exact hfront "unicode'" (by decide)
  have hhex : quotedAfter? "hex" hexQuoted cs = none := by
    refine quotedAfter?_eq_none fun quote hquote => ?_
    rcases hquote with rfl | rfl
    · exact hfront "hex\"" (by decide)
    · exact hfront "hex'" (by decide)
  rw [delimited?, hcomment, hplain, hunicode, hhex]
  rfl

/-! ## The token at the start of a text -/

/-- No text that belongs to an opening is an open-ended token too. -/
theorem length_lt_front (ho : o ∈ openings) (h : o.front.toList <+: cs) (hp : p ∈ openPatterns)
    (hk : k ∈ lengths p.2 cs) : k < o.front.length := by
  obtain ⟨rest, rfl⟩ := h
  obtain ⟨x, hx, hle⟩ := le_of_openEnded? hp hk
  have hlt := length_openEnded?_lt ho rest
  rw [hx] at hlt
  exact Nat.lt_of_le_of_lt hle hlt

/-- Openings with the same front are read alike. -/
theorem eq_of_front_eq (ho : o ∈ openings) (ho' : o' ∈ openings) (h : o.front = o'.front) :
    o = o' := by
  have hnodup : (openings.map Opening.front).Nodup := by decide
  exact List.inj_on_of_nodup_map hnodup ho ho' h

/-- Behind an opening only the texts that belong to it are found, but for what stops within it. -/
theorem length_lt_front_or (ho : o ∈ openings) (h : o.front.toList <+: cs) (hp : p ∈ patterns)
    (hk : k ∈ lengths p.2 cs) : k < o.front.length ∨ p = (o.kind, o.texts) := by
  rcases List.mem_append.1 hp with hp | hp
  · exact .inl (length_lt_front ho h hp hk)
  · obtain ⟨o', ho', rfl⟩ := List.mem_map.1 hp
    obtain ⟨rest, hrest, -⟩ := mem_lengths_exactly_mul.1 hk
    have hfront := front_unique ho ho' h ⟨rest, hrest.symm⟩
    rw [eq_of_front_eq ho ho' hfront]
    exact .inr rfl

/-- Behind an opening the scanner decides: its kind if it finds the end, and an error if it does
not. -/
theorem lexeme_opening {scan : List Char → Extent} (hscan : Scans o scan) (rest : List Char) :
    lexeme (o.front.toList ++ rest) = (if (scan rest).closed then o.kind else .error,
      o.front.length + (scan rest).length) := by
  rw [lexeme, hscan.delimited]
  rfl

/-- Without an opening the longest open-ended match is taken, or one character that is an error. -/
theorem lexeme_of_not_opening (h : ∀ o ∈ openings, ¬ o.front.toList <+: cs) :
    lexeme cs = (openEnded? cs).getD (.error, 1) := by
  rw [lexeme, delimited?_eq_none h]

end Pattern

end SolidityAtlas
