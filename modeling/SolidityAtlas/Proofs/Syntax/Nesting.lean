import SolidityAtlas.Proofs.Syntax.Steps.Members

/-!
# What stands only at the top of a file

A file is a source unit. Directives and contracts stand directly in it and nowhere else,
and there is no further source unit inside. This holds of every draft that steps of a
reading lead to, as far as the draft is a tree already: what has been taken into a frame
that is open in the root is free of such nodes, and the frame itself may be one only if it
is open directly in the root.

## Main Definitions

* `SyntaxTree.Inner`, `SyntaxTree.TopLevel`: what may stand inside and directly in the root
* `Draft.Nested`: what has been read is nested in this way

## Main Results

* `Draft.Steps.nested`: steps keep drafts nested
* `exists_topLevel_parse`: the tree of every text is nested in this way
-/

namespace SolidityAtlas

namespace SyntaxTree

mutual

/-- Whether all nodes of a tree are of kinds that stand inside other nodes. -/
def Inner : SyntaxTree → Prop
  | leaf _ _ => True
  | node kind inner => kind.opensAt 1 = true ∧ InnerAll inner

/-- Whether all nodes of a row of trees are of kinds that stand inside other nodes. -/
def InnerAll : List SyntaxTree → Prop
  | [] => True
  | t :: ts => Inner t ∧ InnerAll ts

end

/-- Whether a tree can stand directly in the root of a file. -/
def TopLevel : SyntaxTree → Prop
  | leaf _ _ => True
  | node kind inner => kind.opensAt 0 = true ∧ InnerAll inner

/-- A row has only inner nodes if its trees have. -/
theorem innerAll_iff {ts : List SyntaxTree} : InnerAll ts ↔ ∀ t ∈ ts, t.Inner := by
  induction ts with
  | nil => simp [InnerAll]
  | cons t ts ih => simp [InnerAll, ih]

end SyntaxTree

/-- What may be opened deep inside may be opened anywhere. -/
theorem NodeKind.opensAt_of_opensAt_succ {k : NodeKind} {n : Nat} (h : k.opensAt (n + 1) = true)
    (m : Nat) : k.opensAt m = true := by
  cases k <;> first | rfl | cases h

/-- What may stand inside a node may stand directly in the file. -/
theorem SyntaxTree.Inner.topLevel : {t : SyntaxTree} → t.Inner → t.TopLevel
  | .leaf _ _, _ => trivial
  | .node _ _, h => ⟨NodeKind.opensAt_of_opensAt_succ h.1 0, h.2⟩

/-! ## Drafts -/

/-- What has been read into an open node and the nodes around it is nested: the last frame is the
root, each other frame holds only what may stand inside, and may be open where it is. -/
def NestedFrames (f : Frame) : List Frame → Prop
  | [] => f.kind = .sourceUnit ∧ ∀ t ∈ f.taken, t.TopLevel
  | o :: os =>
    (∀ t ∈ f.taken, t.Inner) ∧ f.kind.opensAt os.length = true ∧ NestedFrames o os

namespace Draft

variable {d : Draft} {n : Nat}

/-- What has been read is nested, and `n` nodes are open in the root. -/
structure Nested (n : Nat) (d : Draft) : Prop where
  frames : NestedFrames d.top d.outer
  depth : d.outer.length = n

namespace Nested

/-- More children in the innermost open node. -/
theorem extend (h : d.Nested n) {f : Frame} (hkind : f.kind = d.top.kind) {more : List SyntaxTree}
    (hmore : ∀ t ∈ more, t.Inner) (htaken : f.taken = more ++ d.top.taken) :
    NestedFrames f d.outer := by
  have hframes := h.frames
  cases houter : d.outer with
  | nil =>
      rw [houter] at hframes
      refine ⟨hkind.trans hframes.1, fun t ht => ?_⟩
      rw [htaken] at ht
      rcases List.mem_append.1 ht with ht | ht
      · exact (hmore t ht).topLevel
      · exact hframes.2 t ht
  | cons o os =>
      rw [houter] at hframes
      refine ⟨fun t ht => ?_, hkind ▸ hframes.2⟩
      rw [htaken] at ht
      rcases List.mem_append.1 ht with ht | ht
      · exact hmore t ht
      · exact hframes.1 t ht

/-- Trivia nests nothing. -/
theorem skipTrivia (h : d.Nested n) : d.skipTrivia.Nested n := by
  refine ⟨h.extend rfl (fun t ht => ?_) rfl, h.depth⟩
  obtain ⟨token, -, rfl⟩ := List.mem_map.1 (List.mem_reverse.1 ht)
  trivial

/-- A tree that may stand inside a node may be taken. -/
theorem take (h : d.Nested n) {f : Token → SyntaxTree} (hf : ∀ t, (f t).Inner) :
    (d.take f).Nested n := by
  unfold Draft.take
  cases d.rest with
  | nil => exact h
  | cons t ts =>
      have hmore : ∀ u ∈ [f t], u.Inner := fun u hu => by
        rw [List.mem_singleton.1 hu]
        exact hf t
      exact ⟨h.extend rfl hmore rfl, h.depth⟩

/-- A node of a kind that may be opened at this depth nests one deeper. -/
theorem openNode (h : d.Nested n) {k : NodeKind} (hk : k.opensAt n = true) :
    (d.openNode k).Nested (n + 1) := by
  have hskip := h.skipTrivia
  refine ⟨⟨fun _ ht => absurd ht List.not_mem_nil, ?_, hskip.frames⟩,
    congrArg (· + 1) hskip.depth⟩
  rw [hskip.depth]
  exact hk

/-- A node that is opened at a mark takes in only what may stand inside. -/
theorem openAt (h : d.Nested (n + 1)) (mark : Nat) {k : NodeKind} (hk : k.opensAt (n + 1) = true) :
    (d.openAt mark k).Nested (n + 2) := by
  have hframes := h.frames
  have hdepth := h.depth
  cases houter : d.outer with
  | nil =>
      rw [houter] at hdepth
      cases hdepth
  | cons o os =>
      rw [houter] at hframes
      obtain ⟨hinner, hrest⟩ := hframes
      refine ⟨⟨fun t ht => hinner t (List.mem_of_mem_take ht), ?_, ?_⟩, congrArg (· + 1) hdepth⟩
      · rw [hdepth]
        exact hk
      · rw [houter]
        exact ⟨fun t ht => hinner t (List.mem_of_mem_drop ht), hrest⟩

/-- A node that is closed leaves what was nested around it. -/
theorem close (h : d.Nested (n + 1)) : d.close.Nested n := by
  have hframes := h.frames
  have hdepth := h.depth
  unfold Draft.close
  cases houter : d.outer with
  | nil =>
      rw [houter] at hdepth
      cases hdepth
  | cons o os =>
      rw [houter] at hframes hdepth
      obtain ⟨hfree, hkind, hrest⟩ := hframes
      have hinner : SyntaxTree.InnerAll d.top.taken.reverse :=
        SyntaxTree.innerAll_iff.2 fun t ht => hfree t (List.mem_reverse.1 ht)
      refine ⟨?_, Nat.succ.inj hdepth⟩
      cases os with
      | nil =>
          refine ⟨hrest.1, fun t ht => ?_⟩
          rcases List.mem_cons.1 ht with rfl | ht
          · exact ⟨hkind, hinner⟩
          · exact hrest.2 t ht
      | cons o' os =>
          refine ⟨fun t ht => ?_, hrest.2⟩
          rcases List.mem_cons.1 ht with rfl | ht
          · exact ⟨NodeKind.opensAt_of_opensAt_succ hkind 1, hinner⟩
          · exact hrest.1 t ht

end Nested

/-- Steps of a reading keep drafts nested. -/
theorem Steps.nested {start : Draft} {nodes : List OpenNode} (hstart : start.Nested 0)
    (h : Steps start nodes d) : d.Nested nodes.length := by
  induction h with
  | start => exact hstart
  | skipTrivia _ ih => exact ih.skipTrivia
  | bump _ ih => exact ih.skipTrivia.take fun _ => trivial
  | name _ _ ih => exact ih.skipTrivia.take fun _ => trivial
  | forget _ ih => exact ih
  | fault _ _ ih => exact ⟨ih.frames, ih.depth⟩
  | openNode _ _ hk ih => exact ih.openNode hk
  | @openAt _ _ _ _ mark _ _ hk ih => exact ih.openAt mark hk
  | close _ ih => exact ih.close

/-- Before a text is read nothing is nested. -/
theorem nested_start (tokens : List Token) : (start .sourceUnit tokens).Nested 0 :=
  ⟨⟨rfl, fun _ ht => absurd ht List.not_mem_nil⟩, rfl⟩

end Draft

/-- The tree of every text is a source unit, and directives and contracts stand only directly in
it. -/
theorem exists_topLevel_parse (text : String) :
    ∃ inner, (parse text).tree = .node .sourceUnit inner ∧ ∀ t ∈ inner, t.TopLevel := by
  have hnested := (Draft.steps_reading (tokenize text)).nested (Draft.nested_start _)
  have hframes := hnested.frames
  have htree : (parse text).tree = (pursue [.items]
    (Draft.start .sourceUnit (tokenize text))).skipTrivia.finish := rfl
  rw [htree, Draft.finish]
  rw [List.eq_nil_of_length_eq_zero hnested.depth] at hframes ⊢
  obtain ⟨hkind, htaken⟩ := hframes
  refine ⟨_, by rw [List.foldl_nil, hkind], fun t ht => htaken t (List.mem_reverse.1 ht)⟩

end SolidityAtlas
