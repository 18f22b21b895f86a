import Mathlib.Logic.Function.Iterate
import SolidityAtlas.Proofs.Syntax.FaultPlaces
import SolidityAtlas.Proofs.Syntax.Leaves
import SolidityAtlas.Proofs.Token.Places

/-!
# Reading loses nothing

Every text is read to its end, whatever it holds, and its tree has all of its tokens as leaves
and nothing else. What does not fit is reported at the places of the tokens that were met.

A reading is a loop whose turns advance one goal each. How many turns it takes is bounded
by the load that each of them makes smaller. It does not stop before all is read, because
the goal that it begins with stays at the bottom until only trivia is left.

## Main Definitions

* `turn`: a turn of the loop
* `Parse.Lossless`: a tree that has exactly the tokens of a text, with faults that are in order

## Main Results

* `exists_iterate_turn`: the loop ends
* `Draft.atEnd_pursue_items`: it ends at the end of the text
* `parse_lossless`: every text is read to its end, and nothing is lost
-/

namespace SolidityAtlas

/-! ## The loop -/

/-- A turn of the loop: the goal on top is advanced, and what it leaves takes its place. -/
def turn : List Goal × Draft → List Goal × Draft
  | ([], d) => ([], d)
  | (g :: gs, d) => ((g.advance d).2 ++ gs, (g.advance d).1)

/-- After as many turns as there is load, at most, no goal is left. -/
theorem exists_iterate_turn (goals : List Goal) (d : Draft) :
    ∃ n ≤ 16 * d.size + Goal.weights goals, turn^[n] (goals, d) = ([], pursue goals d) := by
  induction goals, d using pursue.induct with
  | case1 d => exact ⟨0, Nat.zero_le _, by rw [pursue]; rfl⟩
  | case2 g gs d p ih =>
      obtain ⟨n, hn, hturns⟩ := ih
      -- The load that this turn takes away pays for it.
      have hload : 16 * p.1.size + Goal.weights p.2 < 16 * d.size + g.weight :=
        Goal.load_advance_lt d g
      refine ⟨n + 1, ?_, ?_⟩
      · rw [Goal.weights_append] at hn
        rw [Goal.weights_cons]
        omega
      · rw [Function.iterate_succ_apply, pursue]
        exact hturns

namespace Draft

variable {d : Draft}

/-- As long as the members of a file are still to be found, the reading does not stop before the
end of the text. -/
theorem atEnd_pursue_items (goals : List Goal) (d : Draft) :
    (pursue (goals ++ [.items]) d).atEnd = true := by
  generalize hall : goals ++ [.items] = all
  induction all, d using pursue.induct generalizing goals with
  | case1 d => simp at hall
  | case2 g gs d p ih =>
      rw [pursue]
      cases goals with
      | cons g' goals =>
          obtain ⟨rfl, rfl⟩ := List.cons.inj hall
          -- What a goal leaves comes on top, so the one at the bottom stays there.
          exact ih (p.2 ++ goals) (List.append_assoc _ _ _)
      | nil =>
          obtain ⟨rfl, rfl⟩ := List.cons.inj hall
          by_cases hend : d.atEnd = true
          · have hp : p = (d, []) := if_pos hend
            rw [show Goal.advance d .items = (d, []) from hp, List.append_nil, pursue]
            exact hend
          · -- A member is read, and then the goal is at the bottom again.
            have hp : p = (Grammar.item d).andThen [.items] := if_neg hend
            refine ih (Grammar.item d).2 ?_
            rw [hp, List.append_nil]
            rfl

/-- At the end there is nothing but trivia to take. -/
theorem rest_skipTrivia_of_atEnd (h : d.atEnd = true) : d.skipTrivia.rest = [] := by
  cases hrest : d.skipTrivia.rest with
  | nil => rfl
  | cons t ts =>
      rw [atEnd, next?_of_rest_skipTrivia hrest] at h
      cases h

/-- When all is read and only the root is open, the tree has the leaves of the text. -/
theorem Spelled.finish {tokens : List Token} (h : d.Spelled tokens []) (hrest : d.rest = []) :
    List.Forall₂ SyntaxTree.Leaf.Spells (d.finish.leavesIn none none) tokens := by
  obtain ⟨read, htokens, houter, hroot⟩ := h
  rw [hrest, List.append_nil] at htokens
  obtain ⟨front, back, vs, ws, htaken, hlength, rfl, hfront, hback⟩ := hroot
  rw [List.eq_nil_of_length_eq_zero hlength] at htaken hfront
  cases hfront
  rw [Draft.finish, houter, htokens]
  show List.Forall₂ _ (SyntaxTree.rowLeavesIn (some d.top.kind) none d.top.taken.reverse) _
  rw [htaken]
  exact (hback.anywhere _ _).forall₂_spells

end Draft

/-! ## Lossless trees -/

/-- The tree has the tokens of the text as its leaves, and the faults are in the order of their
places. -/
structure Parse.Lossless (text : String) (p : Parse) : Prop where
  /-- Leaf by leaf the tree has the tokens of the text, and those that are taken as names are
  identifiers. -/
  leaves : List.Forall₂ SyntaxTree.Leaf.Spells (p.tree.leavesIn none none) (tokenize text)
  /-- The texts of the leaves are those of the tokens. -/
  leafTexts : p.tree.leaves.map (·.2) = (tokenize text).map Token.text
  /-- The text of the tree is the text. -/
  treeText : p.tree.text = text
  /-- Each fault is about a token that is not trivia, or about the end of the text. -/
  about : ∀ f ∈ p.faults, f.IsAbout (tokenize text) text.utf8ByteSize
  /-- No fault starts before one that is reported earlier. -/
  sorted : p.faults.Pairwise fun f g => f.start ≤ g.start

/-- Leaves that spell tokens have their texts. -/
theorem SyntaxTree.map_text_of_spells {t : SyntaxTree} {tokens : List Token}
    (h : List.Forall₂ Leaf.Spells (t.leavesIn none none) tokens) :
    t.leaves.map (·.2) = tokens.map Token.text := by
  rw [← map_leavesIn none none t, List.map_map]
  generalize t.leavesIn none none = leaves at h
  induction h with
  | nil => rfl
  | cons hspells _ ih => rw [List.map_cons, List.map_cons, ih, ← hspells.text]; rfl

/-- Every text is read to its end in a bounded number of turns, and its tree has its tokens as
leaves, one for one. -/
theorem parse_lossless (text : String) :
    (∃ n ≤ 16 * (tokenize text).length + 1, ∃ d : Draft,
      turn^[n] ([.items], .start .sourceUnit (tokenize text)) = ([], d) ∧
        parse text = ⟨d.skipTrivia.finish, d.skipTrivia.faults.reverse⟩) ∧
      (parse text).Lossless text := by
  obtain ⟨n, hn, hturns⟩ := exists_iterate_turn [.items] (.start .sourceUnit (tokenize text))
  refine ⟨⟨n, hn, _, hturns, rfl⟩, ?_⟩
  have hsteps := Draft.steps_reading (tokenize text)
  have hend := Draft.atEnd_pursue_items [] (.start .sourceUnit (tokenize text))
  have hleaves : List.Forall₂ SyntaxTree.Leaf.Spells ((parse text).tree.leavesIn none none)
      (tokenize text) :=
    (hsteps.spelled (Draft.spelled_start _)).finish (Draft.rest_skipTrivia_of_atEnd hend)
  have htexts := SyntaxTree.map_text_of_spells hleaves
  have hcharted := Draft.charted_start .sourceUnit (tokenize text)
  rw [stop_getLast_tokenize] at hcharted
  have hplaces := hsteps.charted hcharted
    ((pairwise_tokenize text).imp fun h => Nat.le_trans (Nat.le_add_right _ _) h)
    fun t ht => Nat.le_trans (Nat.le_add_right _ _) (stop_le_of_mem_tokenize ht)
  refine ⟨hleaves, htexts, ?_, fun f hf => ?_, ?_⟩
  · rw [SyntaxTree.text, htexts]
    exact spelling_tokenize text
  · exact hplaces.about f (List.mem_reverse.1 hf)
  · exact List.pairwise_reverse.2 hplaces.sorted

/-- The word that begins the definition keeps its kind; the same word as its name, and the one
behind the dot, are identifiers. -/
example : ((parse "error error(); uint a = b.new;").tree.leaves.filter (·.1 == .ident)).map (·.2) =
    ["error", "a", "b", "new"] := by
  decide +kernel

end SolidityAtlas
