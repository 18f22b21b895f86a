import SolidityAtlas.Token.Stream

/-!
# Where the tokens of a text stand

The tokens of a text put together are the text again. So a token starts where the text of
the tokens in front of it ends (`start_of_tokenize`), and all that is known of the places of
tokens follows from that: no two tokens overlap, and the last one ends where the text does.

## Main Definitions

* `spelling`: the text of a row of tokens

## Main Results

* `spelling_tokenize`: the tokens of a text put together
* `start_of_tokenize`: the place of a token
* `pairwise_tokenize`: the tokens stand one behind the other
* `filter_tokenize`: the tokens between two places
* `stop_getLast_tokenize`: the place where the last token ends
-/

namespace SolidityAtlas

/-- The text of a row of tokens. -/
def spelling (ts : List Token) : String :=
  String.join (ts.map Token.text)

@[simp] theorem spelling_nil : spelling [] = "" := rfl

/-- The text of a row of tokens is that of each, one after the other. -/
@[simp] theorem spelling_cons (t : Token) (ts : List Token) :
    spelling (t :: ts) = t.text ++ spelling ts := by
  simp [spelling]

/-- Rows of tokens are spelled one after the other. -/
@[simp] theorem spelling_append (ts us : List Token) :
    spelling (ts ++ us) = spelling ts ++ spelling us := by
  simp [spelling]

/-- The tokens of a text spell it, from wherever it starts. -/
theorem spelling_tokensFrom (start : Nat) (cs : List Char) :
    spelling (tokensFrom start cs) = String.ofList cs := by
  fun_induction tokensFrom start cs with
  | case1 start => rfl
  | case2 start c cs kind length hlexeme text ih =>
      rw [spelling_cons, ih]
      calc text ++ String.ofList (cs.drop (length - 1))
          = String.ofList (c :: cs.take (length - 1) ++ cs.drop (length - 1)) :=
            String.ofList_append.symm
        _ = String.ofList (c :: cs) := by rw [List.cons_append, List.take_append_drop]

/-- A token starts where the tokens in front of it end. -/
theorem start_of_tokensFrom {start : Nat} {cs : List Char} {front back : List Token} {t : Token}
    (h : tokensFrom start cs = front ++ t :: back) :
    t.start = start + (spelling front).utf8ByteSize := by
  induction front generalizing start cs with
  | nil =>
      cases cs with
      | nil => simp [tokensFrom] at h
      | cons c cs =>
          rw [tokensFrom] at h
          obtain ⟨rfl, -⟩ := List.cons.inj h
          rfl
  | cons u front ih =>
      cases cs with
      | nil => simp [tokensFrom] at h
      | cons c cs =>
          rw [tokensFrom] at h
          obtain ⟨rfl, hrest⟩ := List.cons.inj h
          rw [ih hrest, spelling_cons, String.utf8ByteSize_append, Nat.add_assoc]

/-- No token starts before the end of an earlier one. -/
theorem pairwise_tokensFrom (start : Nat) (cs : List Char) :
    (tokensFrom start cs).Pairwise fun t u => t.stop ≤ u.start := by
  fun_induction tokensFrom start cs with
  | case1 start => exact .nil
  | case2 start c cs kind length hlexeme text ih =>
      refine .cons (fun u hu => ?_) ih
      obtain ⟨front, back, hsplit⟩ := List.append_of_mem hu
      rw [start_of_tokensFrom hsplit]
      exact Nat.le_add_right _ _

/-- No token is empty. -/
theorem start_lt_stop_of_mem_tokensFrom {start : Nat} {cs : List Char} {t : Token}
    (h : t ∈ tokensFrom start cs) : t.start < t.stop := by
  fun_induction tokensFrom start cs with
  | case1 start => cases h
  | case2 start c cs kind length hlexeme text ih =>
      rcases List.mem_cons.1 h with rfl | h
      · refine Nat.lt_add_of_pos_right (Nat.pos_of_ne_zero fun hzero => ?_)
        have hempty : text = "" := String.utf8ByteSize_eq_zero_iff.1 hzero
        simp [text] at hempty
      · exact ih h

section Text

variable {text : String} {t : Token}

/-- The tokens of a text put together are the text. -/
theorem spelling_tokenize (text : String) : spelling (tokenize text) = text := by
  rw [tokenize, spelling_tokensFrom, String.ofList_toList]

/-- A token starts where the tokens before it end. -/
theorem start_of_tokenize {front back : List Token} (h : tokenize text = front ++ t :: back) :
    t.start = (spelling front).utf8ByteSize := by
  rw [start_of_tokensFrom h, Nat.zero_add]

/-- A token ends where the tokens up to it do. -/
theorem stop_of_tokenize {front back : List Token} (h : tokenize text = front ++ t :: back) :
    t.stop = (spelling (front ++ [t])).utf8ByteSize := by
  simp [Token.stop, start_of_tokenize h]

/-- The tokens of a text stand one behind the other. -/
theorem pairwise_tokenize (text : String) :
    (tokenize text).Pairwise fun t u => t.stop ≤ u.start :=
  pairwise_tokensFrom 0 text.toList

/-- No token goes on behind the end of the text. -/
theorem stop_le_of_mem_tokenize (h : t ∈ tokenize text) : t.stop ≤ text.utf8ByteSize := by
  obtain ⟨front, back, hsplit⟩ := List.append_of_mem h
  have htext := spelling_tokenize text
  rw [hsplit] at htext
  rw [stop_of_tokenize hsplit, ← htext]
  simp

/-- The tokens of a stretch of a text stand in it. -/
theorem within_of_tokenize {front within back : List Token}
    (h : tokenize text = front ++ within ++ back) (ht : t ∈ within) :
    (spelling front).utf8ByteSize ≤ t.start ∧
      t.stop ≤ (spelling (front ++ within)).utf8ByteSize := by
  obtain ⟨before, behind, rfl⟩ := List.append_of_mem ht
  have hsplit : tokenize text = (front ++ before) ++ t :: (behind ++ back) := by simp [h]
  rw [start_of_tokenize hsplit, stop_of_tokenize hsplit]
  simp

/-- No other tokens stand in a stretch of a text than its own. -/
theorem filter_tokenize {front within back : List Token}
    (h : tokenize text = front ++ within ++ back) :
    (tokenize text).filter (fun t => (spelling front).utf8ByteSize ≤ t.start ∧
      t.stop ≤ (spelling (front ++ within)).utf8ByteSize) = within := by
  have hfilled : ∀ {t}, t ∈ tokenize text → t.start < t.stop := start_lt_stop_of_mem_tokensFrom
  rw [h] at hfilled
  have hfront : ∀ t ∈ front, ¬ (spelling front).utf8ByteSize ≤ t.start := fun t ht => by
    have hsplit : tokenize text = [] ++ front ++ (within ++ back) := by simp [h]
    have hstop := (within_of_tokenize hsplit ht).2
    have := hfilled (List.mem_append_left _ (List.mem_append_left _ ht))
    rw [List.nil_append] at hstop
    omega
  have hback : ∀ t ∈ back, ¬ t.stop ≤ (spelling (front ++ within)).utf8ByteSize := fun t ht => by
    have hsplit : tokenize text = (front ++ within) ++ back ++ [] := by simp [h]
    have hstart := (within_of_tokenize hsplit ht).1
    have := hfilled (List.mem_append_right _ ht)
    omega
  rw [h, List.filter_append, List.filter_append,
    List.filter_eq_nil_iff.2 fun t ht hin => hfront t ht (of_decide_eq_true hin).1,
    List.filter_eq_self.2 fun t ht => decide_eq_true (within_of_tokenize h ht),
    List.filter_eq_nil_iff.2 fun t ht hin => hback t ht (of_decide_eq_true hin).2,
    List.nil_append, List.append_nil]

/-- The last token ends where the text does. -/
theorem stop_getLast_tokenize (text : String) :
    ((tokenize text).getLast?.map Token.stop).getD 0 = text.utf8ByteSize := by
  have htext := spelling_tokenize text
  cases hlast : (tokenize text).getLast? with
  | none =>
      rw [List.getLast?_eq_none_iff.1 hlast] at htext
      rw [← htext]
      rfl
  | some t =>
      obtain ⟨front, hsplit⟩ := List.getLast?_eq_some_iff.1 hlast
      rw [hsplit] at htext
      rw [← htext]
      exact stop_of_tokenize hsplit

end Text

end SolidityAtlas
