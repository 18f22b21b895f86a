import SolidityAtlas.Proofs.Syntax.Alike.Members
import SolidityAtlas.Proofs.Syntax.Nesting

/-!
# Texts that differ in trivia

Faults are never taken back. So as long as the first of two readings ends without faults, pursuing
goals that go together keeps the drafts alike. Hence if one of two texts with the same words has no
faults, then neither has the other, and their trees are the same without trivia.

## Main Results

* `Draft.Faulty.pursue`: faults are never taken back
* `Draft.Alike.pursue`: pursuing goals that go together
* `solid_parse`: two texts with the same words
-/

namespace SolidityAtlas

open SyntaxTree (solidRow TightAll)

namespace Draft

variable {start d e : Draft} {opened : List OpenNode} {nodes : List Marks}

/-! ## Faults stay -/

/-- The draft with other faults. -/
def withFaults (faults : List Fault) (d : Draft) : Draft :=
  { d with faults := faults }

/-- A token is taken whatever faults have been noted. -/
theorem take_withFaults (faults : List Fault) (f : Token → SyntaxTree) (d : Draft) :
    (d.withFaults faults).take f = (d.take f).withFaults faults := by
  obtain ⟨rest, top, outer, noted, textEnd⟩ := d
  cases rest <;> rfl

/-- A node is closed whatever faults have been noted. -/
theorem close_withFaults (faults : List Fault) (d : Draft) :
    (d.withFaults faults).close = d.close.withFaults faults := by
  obtain ⟨rest, top, outer, noted, textEnd⟩ := d
  cases outer <;> rfl

/-- The same steps lead from a draft with other faults to one that has only these. -/
theorem Steps.withFaults (h : Steps start opened d) (faults : List Fault) :
    Steps (start.withFaults faults) opened (d.withFaults faults) := by
  induction h with
  | start => exact .start
  | skipTrivia _ ih => exact ih.skipTrivia
  | @bump _ d _ ih =>
      have hbump := take_withFaults faults leafOf d.skipTrivia
      exact hbump ▸ ih.bump
  | @name o nodes d _ named ih =>
      have hname : (d.withFaults faults).bumpAs .ident = (d.bumpAs .ident).withFaults faults :=
        take_withFaults faults _ d.skipTrivia
      have hstep := ih.name named
      rwa [hname] at hstep
  | forget _ ih => exact ih.forget
  | fault _ _ ih => exact ih
  | openNode _ k opens ih => exact ih.openNode k opens
  | openAt _ behind k opens ih => exact ih.openAt behind k opens
  | close _ ih => exact close_withFaults faults _ ▸ ih.close

/-- The faults that are there at the start stay. -/
theorem Steps.faults_suffix (h : Steps start opened d) : start.faults <:+ d.faults := by
  have htake : ∀ (d : Draft) (f : Token → SyntaxTree), (d.skipTrivia.take f).faults = d.faults := by
    intro d f
    unfold Draft.take
    split <;> rfl
  induction h with
  | start => exact List.suffix_refl _
  | skipTrivia _ ih => exact ih
  | bump _ ih =>
      rw [Draft.bump, htake]
      exact ih
  | name _ _ ih =>
      rw [Draft.bumpAs, htake]
      exact ih
  | forget _ ih => exact ih
  | fault _ _ ih => exact ih.trans (List.suffix_cons _ _)
  | openNode _ _ _ ih => exact ih
  | openAt _ _ _ _ ih => exact ih
  | close _ ih =>
      unfold Draft.close
      split <;> exact ih

/-- When there is a fault, there still is one after goals have been pursued. -/
theorem Faulty.pursue (hd : d.Faulty) (h : Steps start opened d) {after : List OpenNode → Prop}
    {goals : List Goal} (hgoals : Goal.LeadAll after goals opened) :
    (SolidityAtlas.pursue goals d).Faulty := by
  -- From a start with the faults of the draft it is reached with no fault noted.
  obtain ⟨now, hnow, -⟩ := Steps.pursue (d := d) (h.withFaults d.faults) hgoals
  intro hnil
  have hsuffix := hnow.faults_suffix
  rw [hnil] at hsuffix
  exact hd (List.suffix_nil.1 hsuffix)

/-! ## Two readings -/

/-- Pursuing goals that go together keeps drafts alike if there is no fault in the end. -/
theorem Alike.pursue (h : Alike nodes d e) (hsteps : Steps start opened d)
    {last : List OpenNode → Prop} {after : List Marks → Prop} (hlasting : Goal.Lasting after)
    {goals goals' : List Goal} (hgoals : Goal.LeadAll last goals opened)
    (halike : Goal.LeadAllAlike after goals goals' nodes)
    (hclean : ¬ (SolidityAtlas.pursue goals d).Faulty) :
    ∃ now, Alike now (SolidityAtlas.pursue goals d) (SolidityAtlas.pursue goals' e) ∧
      after now := by
  induction goals, d using SolidityAtlas.pursue.induct generalizing opened nodes e goals' with
  | case1 d =>
      cases goals' with
      | nil =>
          rw [SolidityAtlas.pursue, SolidityAtlas.pursue]
          exact ⟨nodes, h, halike⟩
      | cons g' gs' => exact halike.elim
  | case2 g gs d p =>
      rename_i ih
      cases goals' with
      | nil => exact halike.elim
      | cons g' gs' =>
          obtain ⟨opened', hsteps', hleft⟩ := Goal.keeps_advance hsteps hgoals
          rw [← Goal.leadAll_append] at hleft
          rw [SolidityAtlas.pursue] at hclean ⊢
          rw [SolidityAtlas.pursue]
          rcases Goal.alike_advance h (Goal.lasting_leadAllAlike hlasting gs gs') halike with
            hfaulty | ⟨now, hnow, hleads⟩
          · exact absurd (hfaulty.pursue hsteps' hleft) hclean
          · exact ih hnow hsteps' hleft hleads.append hclean

/-- Two texts with the same words begin alike. -/
theorem alike_start (k : NodeKind) {ts ts' : List Token} (h : solidWords ts = solidWords ts') :
    Alike [] (.start k ts) (.start k ts') :=
  ⟨h, rfl, rfl, rfl, rfl, trivial, trivial⟩

end Draft

namespace Draft

/-- The trees of two drafts of which only the roots are open. -/
theorem Alike.finish {d e : Draft} (h : Alike [] d e) :
    d.finish = .node d.top.kind d.top.taken.reverse ∧
      e.finish = .node d.top.kind e.top.taken.reverse ∧
      solidRow d.top.taken.reverse = solidRow e.top.taken.reverse ∧
      TightAll d.top.taken.reverse ∧ TightAll e.top.taken.reverse := by
  obtain ⟨houter, houter'⟩ := h.frames.outer_eq_nil
  obtain ⟨hkind, htaken, hleft, hright⟩ := h.frames.alike
  refine ⟨by rw [Draft.finish, houter]; rfl, by rw [Draft.finish, houter', hkind]; rfl, ?_, ?_, ?_⟩
  · rw [SyntaxTree.solidRow_reverse, SyntaxTree.solidRow_reverse, htaken]
  · exact SyntaxTree.tightAll_reverse hleft
  · exact SyntaxTree.tightAll_reverse hright

end Draft

/-- If one of two texts with the same words has no faults, then neither has the other. Their trees
are the same without trivia, and no node in them but the root begins with trivia. -/
theorem solid_parse {text text' : String}
    (hwords : solidWords (tokenize text) = solidWords (tokenize text'))
    (hclean : (parse text).isClean = true) :
    (parse text').isClean = true ∧
      ∃ inner inner', (parse text).tree = .node .sourceUnit inner ∧
        (parse text').tree = .node .sourceUnit inner' ∧ solidRow inner = solidRow inner' ∧
        TightAll inner ∧ TightAll inner' := by
  have hunfaulty : ¬ (pursue [.items] (.start .sourceUnit (tokenize text))).Faulty := by
    intro hfaulty
    simp only [Parse.isClean, parse, parseTokens, List.isEmpty_reverse, List.isEmpty_iff] at hclean
    exact hfaulty hclean
  have hgoals : Goal.LeadAll (· = []) [.items] [] := rfl
  have hleads : Goal.LeadAllAlike (Marks.Known []) [.items] [.items] [] := ⟨rfl, rfl, .refl []⟩
  obtain ⟨now, halike, hnow⟩ := (Draft.alike_start .sourceUnit hwords).pursue .start
    (Goal.lasting_known []) hgoals hleads hunfaulty
  cases hnow
  have hroots := halike.skipTrivia
  obtain ⟨htree, htree', hsolid, htight, htight'⟩ := hroots.finish
  -- The root is a source unit, whatever the text.
  obtain ⟨inner, hinner, -⟩ := exists_topLevel_parse text
  obtain ⟨hkind, -⟩ := SyntaxTree.node.inj (htree.symm.trans hinner)
  rw [hkind] at htree htree'
  refine ⟨?_, _, _, htree, htree', hsolid, htight, htight'⟩
  rw [Parse.isClean, parse, parseTokens, hroots.right]
  rfl

/-- With a fault the blank in front of it decides how much text is skipped. -/
example : (parse "contract A\x7bfunction f()\x7b)x;\x7d\x7d").faults.length = 2 ∧
    (parse "contract A\x7bfunction f()\x7b )x;\x7d\x7d").faults.length = 3 := by
  decide +kernel

end SolidityAtlas
