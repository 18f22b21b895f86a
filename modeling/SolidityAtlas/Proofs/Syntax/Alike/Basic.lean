import Mathlib.Data.List.Forall2
import SolidityAtlas.Proofs.Syntax.Solid
import SolidityAtlas.Proofs.Syntax.Steps.Basic

/-!
# Open nodes that differ in trivia

Two texts that differ only in trivia are read side by side. The open nodes of the two readings then
hold the same trees without trivia, and no node but the root begins with trivia.

A mark is a number of children, and trivia counts. So the goals of the two readings have different
marks, and it must be known of each open node which marks go together (`Marks`): the children in
front of them are the same without trivia, and those behind them do not begin with trivia. A node
that is opened at such a mark does not begin with trivia either.

## Main Definitions

* `Marks`: the marks of two open nodes that go together
* `BeginsSolid`, `MarksAlike`: what does not begin with trivia
* `FramesAlike`: the open nodes of two readings

## Main Results

* `FramesAlike.trivia`, `FramesAlike.cons`: taking tokens keeps open nodes alike
* `FramesAlike.opened`, `FramesAlike.cut`, `FramesAlike.closed`: so does opening and closing nodes
-/

namespace SolidityAtlas

open SyntaxTree (solidRow TightAll)

/-! ## Marks -/

/-- The marks in an open node of one reading that go together with marks in the node of the other
reading. -/
abbrev Marks := Nat → Nat → Prop

namespace Marks

/-- One more pair of marks. -/
def add (marks : Marks) (m m' : Nat) : Marks :=
  fun p q => marks p q ∨ p = m ∧ q = m'

/-- The marks up to a pair. -/
def upTo (marks : Marks) (m m' : Nat) : Marks :=
  fun p q => marks p q ∧ (p < m ∧ q < m' ∨ p = m ∧ q = m')

/-- No marks. -/
def none : Marks :=
  fun _ _ => False

/-- At least these marks are known in each open node. -/
def Known (nodes now : List Marks) : Prop :=
  List.Forall₂ (fun marks marks' => ∀ p q, marks p q → marks' p q) nodes now

theorem Known.refl (nodes : List Marks) : Known nodes nodes :=
  List.forall₂_same.2 fun _ _ _ _ h => h

theorem Known.trans {nodes now now' : List Marks} (h : Known nodes now) (h' : Known now now') :
    Known nodes now' := by
  induction h generalizing now' with
  | nil => exact h'
  | cons hm _ ih =>
      cases h' with
      | cons hm' h' => exact .cons (fun p q hpq => hm' p q (hm p q hpq)) (ih h')

/-- What is known of the nodes around stays known when a mark is set to the current place. -/
theorem Known.upTo {marks marks' : Marks} {nodes now : List Marks}
    (h : Known (marks :: nodes) (marks' :: now)) (m m' : Nat) :
    Known (marks.upTo m m' :: nodes) (marks'.upTo m m' :: now) := by
  cases h with
  | cons hm h => exact .cons (fun p q hpq => ⟨hm p q hpq.1, hpq.2⟩) h

/-- The place that a mark is set to is among its places. -/
theorem upTo_self {marks : Marks} {m m' : Nat} (h : marks m m') : marks.upTo m m' m m' :=
  ⟨h, .inr ⟨rfl, rfl⟩⟩

/-- Setting a mark forgets no other one. -/
theorem known_upTo (marks : Marks) (m m' : Nat) (nodes : List Marks) :
    Known (marks.upTo m m' :: nodes) (marks :: nodes) :=
  .cons (fun _ _ h => h.1) (Known.refl nodes)

/-- No mark is lost when the node is cut at the same marks once more. -/
theorem known_upTo_upTo (marks : Marks) (m m' : Nat) (nodes : List Marks) :
    Known (marks.upTo m m' :: nodes) ((marks.upTo m m').upTo m m' :: nodes) :=
  .cons (fun _ _ h => ⟨h, h.2⟩) (Known.refl nodes)

end Marks

/-! ## Rows of children -/

/-- The children that are listed last one first do not begin with trivia. If there are none yet, then
`pending` must hold. -/
def BeginsSolid (pending : Prop) (newer : List SyntaxTree) : Prop :=
  match newer.getLast? with
  | none => pending
  | some t => t.isTrivia = false

namespace BeginsSolid

variable {pending pending' : Prop} {newer older : List SyntaxTree} {t : SyntaxTree}

/-- A list without trees begins with nothing that counts. -/
theorem nil (h : pending) : BeginsSolid pending [] := h

/-- What begins solid under a condition does so under every weaker one. -/
theorem imp (h : BeginsSolid pending newer) (himp : pending → pending') :
    BeginsSolid pending' newer := by
  unfold BeginsSolid at h ⊢
  split <;> simp_all

/-- A child that is no trivia may be added. -/
theorem cons (h : BeginsSolid pending newer) (ht : t.isTrivia = false) :
    BeginsSolid pending' (t :: newer) := by
  unfold BeginsSolid at h ⊢
  rw [List.getLast?_cons]
  cases hlast : newer.getLast? with
  | none => exact ht
  | some c => rw [hlast] at h; exact h

/-- What is added to a row that is there does not matter. -/
theorem append_iff (hne : older ≠ []) :
    BeginsSolid pending (newer ++ older) ↔ BeginsSolid pending' older := by
  unfold BeginsSolid
  rw [List.getLast?_append]
  cases hlast : older.getLast? with
  | none => exact absurd (List.getLast?_eq_none_iff.1 hlast) hne
  | some c => exact Iff.rfl

/-- If what comes next may be trivia, then it comes behind something. -/
theorem trivia {ts : List SyntaxTree} (h : BeginsSolid pending newer) (hts : pending → ts = []) :
    BeginsSolid True (ts ++ newer) := by
  by_cases hne : newer = []
  · subst hne
    rw [hts h]
    exact .nil trivial
  · exact (append_iff hne).2 h

/-- A row that is there and does not begin with trivia is not all trivia. -/
theorem solidRow_ne_nil (h : BeginsSolid pending newer) (hne : newer ≠ []) :
    solidRow newer ≠ [] := by
  obtain ⟨front, last, rfl⟩ := List.eq_nil_or_concat newer |>.resolve_left hne
  have hlast : last.isTrivia = false := by simpa [BeginsSolid] using h
  rw [List.concat_eq_append, SyntaxTree.solidRow_append, SyntaxTree.solidRow_cons hlast]
  simp

end BeginsSolid

/-! ## Open nodes -/

/-- The marks `m` and `m'` go together: what is in front of them is the same without trivia, and what
is behind them does not begin with trivia. -/
def MarksAlike (pending pending' : Prop) (taken taken' : List SyntaxTree) (m m' : Nat) : Prop :=
  ∃ newer older newer' older', taken = newer ++ older ∧ taken' = newer' ++ older' ∧
    older.length = m ∧ older'.length = m' ∧ solidRow older = solidRow older' ∧
    BeginsSolid pending newer ∧ BeginsSolid pending' newer'

/-- Two open nodes are of the same kind and hold the same trees without trivia. -/
structure Frame.Alike (f g : Frame) : Prop where
  kind : f.kind = g.kind
  taken : solidRow f.taken = solidRow g.taken
  left : TightAll f.taken
  right : TightAll g.taken

/-- The open nodes of two readings from the inside out, with the marks that go together in them. No
node but the root begins with trivia. In the innermost nodes `pending` and `pending'` say that what
comes next is no trivia; into the others a node will be put next. -/
def FramesAlike (pending pending' : Prop) :
    List Marks → Frame → Frame → List Frame → List Frame → Prop
  | [], f, g, [], [] => f.Alike g
  | marks :: nodes, f, g, f' :: fs, g' :: gs =>
    f.Alike g ∧ BeginsSolid pending f.taken ∧ BeginsSolid pending' g.taken ∧
      (∀ m m', marks m m' → MarksAlike pending pending' f.taken g.taken m m') ∧
      FramesAlike True True nodes f' g' fs gs
  | _, _, _, _, _ => False

namespace MarksAlike

variable {pending pending' : Prop} {taken taken' : List SyntaxTree} {m m' : Nat}

/-- Both marks have something behind them, or none of them has. -/
theorem lt_or_eq (h : MarksAlike pending pending' taken taken' m m')
    (htaken : solidRow taken = solidRow taken') :
    m < taken.length ∧ m' < taken'.length ∨ m = taken.length ∧ m' = taken'.length := by
  obtain ⟨newer, older, newer', older', rfl, rfl, rfl, rfl, holder, hnewer, hnewer'⟩ := h
  rw [SyntaxTree.solidRow_append, SyntaxTree.solidRow_append, holder] at htaken
  have hsame := List.append_cancel_right htaken
  rcases newer with _ | ⟨c, cs⟩
  · by_cases hne : newer' = []
    · rw [hne]
      simp
    · exact absurd hsame.symm (hnewer'.solidRow_ne_nil hne)
  · by_cases hne : newer' = []
    · rw [hne] at hsame
      exact absurd hsame (hnewer.solidRow_ne_nil (List.cons_ne_nil _ _))
    · have := List.length_pos_of_ne_nil hne
      simp only [List.length_append, List.length_cons]
      omega

theorem imp {Q Q' : Prop} (h : MarksAlike pending pending' taken taken' m m') (hq : pending → Q)
    (hq' : pending' → Q') : MarksAlike Q Q' taken taken' m m' := by
  obtain ⟨newer, older, newer', older', ht, ht', hm, hm', holder, hnewer, hnewer'⟩ := h
  exact ⟨newer, older, newer', older', ht, ht', hm, hm', holder, hnewer.imp hq, hnewer'.imp hq'⟩

/-- Children that are no trivia may be added to both nodes. -/
theorem cons {Q Q' : Prop} {t t' : SyntaxTree} (h : MarksAlike pending pending' taken taken' m m')
    (ht : t.isTrivia = false) (ht' : t'.isTrivia = false) :
    MarksAlike Q Q' (t :: taken) (t' :: taken') m m' := by
  obtain ⟨newer, older, newer', older', rfl, rfl, hm, hm', holder, hnewer, hnewer'⟩ := h
  exact ⟨t :: newer, older, t' :: newer', older', rfl, rfl, hm, hm', holder, hnewer.cons ht,
    hnewer'.cons ht'⟩

/-- Trivia may be added to both nodes unless what comes next is none. -/
theorem trivia {ts ts' : List SyntaxTree} (h : MarksAlike pending pending' taken taken' m m')
    (hts : pending → ts = []) (hts' : pending' → ts' = []) :
    MarksAlike True True (ts ++ taken) (ts' ++ taken') m m' := by
  obtain ⟨newer, older, newer', older', rfl, rfl, hm, hm', holder, hnewer, hnewer'⟩ := h
  exact ⟨ts ++ newer, older, ts' ++ newer', older', (List.append_assoc _ _ _).symm,
    (List.append_assoc _ _ _).symm, hm, hm', holder, hnewer.trivia hts, hnewer'.trivia hts'⟩

/-- What a mark in front leaves of a node. -/
theorem of_append {newer older newer' older' : List SyntaxTree} {P P' : Prop}
    (h : MarksAlike pending pending' (newer ++ older) (newer' ++ older') m m')
    (hm : m < older.length) (hm' : m' < older'.length) : MarksAlike P P' older older' m m' := by
  obtain ⟨cs, ds, cs', ds', ht, ht', rfl, rfl, hds, hcs, hcs'⟩ := h
  obtain ⟨es, rfl⟩ : ∃ es, older = es ++ ds := by
    rcases List.append_eq_append_iff.1 ht with ⟨es, -, h⟩ | ⟨es, -, h⟩
    · exact ⟨es, h⟩
    · have hlength := congrArg List.length h
      rw [List.length_append] at hlength
      omega
  obtain ⟨es', rfl⟩ : ∃ es', older' = es' ++ ds' := by
    rcases List.append_eq_append_iff.1 ht' with ⟨es, -, h⟩ | ⟨es, -, h⟩
    · exact ⟨es, h⟩
    · have hlength := congrArg List.length h
      rw [List.length_append] at hlength
      omega
  have hes : es ≠ [] := by rintro rfl; simp at hm
  have hes' : es' ≠ [] := by rintro rfl; simp at hm'
  rw [← List.append_assoc] at ht ht'
  rw [← List.append_cancel_right ht, BeginsSolid.append_iff hes] at hcs
  rw [← List.append_cancel_right ht', BeginsSolid.append_iff hes'] at hcs'
  exact ⟨es, ds, es', ds', rfl, rfl, rfl, rfl, hds, hcs, hcs'⟩

end MarksAlike

namespace FramesAlike

variable {pending pending' Q Q' : Prop} {nodes : List Marks} {marks marks' : Marks} {f g : Frame}
  {fs gs : List Frame}

/-- Frames that are alike with their marks are alike. -/
theorem alike (h : FramesAlike pending pending' nodes f g fs gs) : f.Alike g := by
  match nodes, fs, gs, h with
  | [], [], [], h => exact h
  | _ :: _, _ :: _, _ :: _, h => exact h.1

/-- Without further marks only the roots are open. -/
theorem outer_eq_nil (h : FramesAlike pending pending' [] f g fs gs) : fs = [] ∧ gs = [] := by
  match fs, gs, h with
  | [], [], _ => exact ⟨rfl, rfl⟩

/-- What comes next need not be known any more. -/
theorem imp (h : FramesAlike pending pending' nodes f g fs gs) (hq : pending → Q)
    (hq' : pending' → Q') : FramesAlike Q Q' nodes f g fs gs := by
  match nodes, fs, gs, h with
  | [], [], [], h => exact h
  | _ :: _, _ :: _, _ :: _, ⟨halike, hf, hg, hmarks, houter⟩ =>
      exact ⟨halike, hf.imp hq, hg.imp hq', fun m m' hm => (hmarks m m' hm).imp hq hq', houter⟩

/-- The innermost nodes get trivia, unless what comes next is none. -/
theorem trivia {ts ts' : List SyntaxTree} (h : FramesAlike pending pending' nodes f g fs gs)
    (htrivia : ∀ t ∈ ts, t.isTrivia = true) (htrivia' : ∀ t ∈ ts', t.isTrivia = true)
    (hts : pending → ts = []) (hts' : pending' → ts' = []) :
    FramesAlike True True nodes ⟨f.kind, ts ++ f.taken⟩ ⟨g.kind, ts' ++ g.taken⟩ fs gs := by
  have halike : (⟨f.kind, ts ++ f.taken⟩ : Frame).Alike ⟨g.kind, ts' ++ g.taken⟩ := by
    obtain ⟨hkind, htaken, hleft, hright⟩ := h.alike
    refine ⟨hkind, ?_, SyntaxTree.tightAll_append (SyntaxTree.tightAll_of_isTrivia htrivia) hleft,
      SyntaxTree.tightAll_append (SyntaxTree.tightAll_of_isTrivia htrivia') hright⟩
    rw [SyntaxTree.solidRow_append, SyntaxTree.solidRow_append,
      SyntaxTree.solidRow_of_isTrivia htrivia, SyntaxTree.solidRow_of_isTrivia htrivia', htaken]
  match nodes, fs, gs, h with
  | [], [], [], _ => exact halike
  | _ :: _, _ :: _, _ :: _, ⟨_, hf, hg, hmarks, houter⟩ =>
      exact ⟨halike, hf.trivia hts, hg.trivia hts',
        fun m m' hm => (hmarks m m' hm).trivia hts hts', houter⟩

/-- In front of what is no trivia a pair of marks may be taken. -/
theorem marked (h : FramesAlike pending pending' (marks :: nodes) f g fs gs) (hp : pending)
    (hp' : pending') :
    FramesAlike pending pending' (marks.add f.taken.length g.taken.length :: nodes) f g fs gs := by
  match fs, gs, h with
  | _ :: _, _ :: _, ⟨halike, hf, hg, hmarks, houter⟩ =>
      refine ⟨halike, hf, hg, ?_, houter⟩
      rintro m m' (hm | ⟨rfl, rfl⟩)
      · exact hmarks m m' hm
      · exact ⟨[], _, [], _, rfl, rfl, rfl, rfl, halike.taken, .nil hp, .nil hp'⟩

/-- The marks that are known are up to the ends of the innermost nodes. -/
theorem upTo_ends (h : FramesAlike pending pending' (marks :: nodes) f g fs gs) {m m' : Nat}
    (hm : marks m m') :
    m < f.taken.length ∧ m' < g.taken.length ∨ m = f.taken.length ∧ m' = g.taken.length := by
  match fs, gs, h with
  | _ :: _, _ :: _, ⟨halike, _, _, hmarks, _⟩ => exact (hmarks m m' hm).lt_or_eq halike.taken

/-- The innermost nodes get children that are alike and no trivia. -/
theorem cons (h : FramesAlike pending pending' nodes f g fs gs) {t t' : SyntaxTree}
    (ht : t.isTrivia = false) (ht' : t'.isTrivia = false) (hsolid : t.solid = t'.solid)
    (htight : t.Tight) (htight' : t'.Tight) :
    FramesAlike Q Q' nodes ⟨f.kind, t :: f.taken⟩ ⟨g.kind, t' :: g.taken⟩ fs gs := by
  have halike : (⟨f.kind, t :: f.taken⟩ : Frame).Alike ⟨g.kind, t' :: g.taken⟩ := by
    obtain ⟨hkind, htaken, hleft, hright⟩ := h.alike
    refine ⟨hkind, ?_, ⟨htight, hleft⟩, ⟨htight', hright⟩⟩
    rw [SyntaxTree.solidRow_cons ht, SyntaxTree.solidRow_cons ht', hsolid, htaken]
  match nodes, fs, gs, h with
  | [], [], [], _ => exact halike
  | _ :: _, _ :: _, _ :: _, ⟨_, hf, hg, hmarks, houter⟩ =>
      exact ⟨halike, hf.cons ht, hg.cons ht', fun m m' hm => (hmarks m m' hm).cons ht ht', houter⟩

/-- Nodes are opened in front of what is no trivia. -/
theorem opened (h : FramesAlike True True nodes f g fs gs) (k : NodeKind) (hq : Q) (hq' : Q') :
    FramesAlike Q Q' (Marks.none :: nodes) ⟨k, []⟩ ⟨k, []⟩ (f :: fs) (g :: gs) :=
  ⟨⟨rfl, rfl, trivial, trivial⟩, .nil hq, .nil hq', fun _ _ hm => hm.elim, h⟩

/-- Nodes that take in the children behind marks that go together. The marks up to these still go
together in what is left. -/
theorem cut (h : FramesAlike pending pending' (marks :: nodes) f g fs gs) {m m' : Nat}
    (hm : marks m m') (k : NodeKind) :
    FramesAlike pending pending' (Marks.none :: marks.upTo m m' :: nodes)
      ⟨k, f.taken.take (f.taken.length - m)⟩ ⟨k, g.taken.take (g.taken.length - m')⟩
      ({ f with taken := f.taken.drop (f.taken.length - m) } :: fs)
      ({ g with taken := g.taken.drop (g.taken.length - m') } :: gs) := by
  match fs, gs, h with
  | _ :: _, _ :: _, ⟨⟨hkind, htaken, hleft, hright⟩, hf, hg, hmarks, houter⟩ =>
      obtain ⟨newer, older, newer', older', ht, ht', rfl, rfl, holder, hnewer, hnewer'⟩ := hmarks m m' hm
      rw [ht, ht'] at hmarks htaken
      rw [ht] at hleft hf ⊢
      rw [ht'] at hright hg ⊢
      rw [SyntaxTree.solidRow_append, SyntaxTree.solidRow_append, holder] at htaken
      rw [SyntaxTree.tightAll_iff] at hleft hright
      simp only [List.length_append, Nat.add_sub_cancel, List.take_left, List.drop_left]
      refine ⟨⟨rfl, List.append_cancel_right htaken, ?_, ?_⟩, hnewer, hnewer',
        fun _ _ hnone => hnone.elim, ⟨hkind, holder, ?_, ?_⟩, ?_, ?_, ?_, houter⟩
      · exact SyntaxTree.tightAll_iff.2 fun t ht => hleft t (List.mem_append_left _ ht)
      · exact SyntaxTree.tightAll_iff.2 fun t ht => hright t (List.mem_append_left _ ht)
      · exact SyntaxTree.tightAll_iff.2 fun t ht => hleft t (List.mem_append_right _ ht)
      · exact SyntaxTree.tightAll_iff.2 fun t ht => hright t (List.mem_append_right _ ht)
      · by_cases hne : older = []
        · rw [hne]
          exact .nil trivial
        · exact (BeginsSolid.append_iff hne).1 hf
      · by_cases hne : older' = []
        · rw [hne]
          exact .nil trivial
        · exact (BeginsSolid.append_iff hne).1 hg
      · rintro p q ⟨hpq, ⟨hp, hq⟩ | ⟨rfl, rfl⟩⟩
        · exact (hmarks p q hpq).of_append hp hq
        · exact ⟨[], older, [], older', rfl, rfl, rfl, rfl, holder, .nil trivial, .nil trivial⟩

/-- The innermost nodes are put into the nodes around them. -/
theorem closed {f' g' : Frame} (h : FramesAlike pending pending' (marks :: nodes) f g (f' :: fs) (g' :: gs)) :
    FramesAlike Q Q' nodes ⟨f'.kind, .node f.kind f.taken.reverse :: f'.taken⟩
      ⟨g'.kind, .node g.kind g.taken.reverse :: g'.taken⟩ fs gs := by
  obtain ⟨⟨hkind, htaken, hleft, hright⟩, hf, hg, -, houter⟩ := h
  have htight : ∀ {P : Prop} {k : NodeKind} {taken : List SyntaxTree}, BeginsSolid P taken →
      TightAll taken → (SyntaxTree.node k taken.reverse).Tight := by
    intro P k taken hbegins hall
    refine ⟨?_, SyntaxTree.tightAll_reverse hall⟩
    rw [List.head?_reverse]
    unfold BeginsSolid at hbegins
    split at hbegins <;> simp_all
  refine houter.cons rfl rfl ?_ (htight hf hleft) (htight hg hright)
  rw [SyntaxTree.solid, SyntaxTree.solid, SyntaxTree.solidRow_reverse, SyntaxTree.solidRow_reverse,
    hkind, htaken]

/-- Fewer marks need to be known. -/
theorem forget {now : List Marks} (h : FramesAlike pending pending' now f g fs gs)
    (hknown : Marks.Known nodes now) : FramesAlike pending pending' nodes f g fs gs := by
  induction hknown generalizing pending pending' f g fs gs with
  | nil => exact h
  | cons hm _ ih =>
      match fs, gs, h with
      | _ :: _, _ :: _, ⟨halike, hf, hg, hmarks, houter⟩ =>
          exact ⟨halike, hf, hg, fun m m' hR => hmarks m m' (hm m m' hR), ih houter⟩

end FramesAlike

end SolidityAtlas
