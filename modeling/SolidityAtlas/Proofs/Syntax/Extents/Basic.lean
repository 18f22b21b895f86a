import Mathlib.Data.List.Forall2
import Mathlib.Data.Set.Basic
import SolidityAtlas.Proofs.Syntax.Alike.Draft

/-!
# What nodes begin and end with

A node begins with a token that is not trivia, since trivia is taken in front of the place at which
it is opened. It ends with one too if its last token has just been taken when it is closed, and
that is so as long as no fault has been noted. Where a node is opened at a mark, the children
behind the mark must begin in this way. So it must be known of each open node at which *places* a
node may be opened.

Unlike two readings that are alike, a reading is followed behind faults here. There nodes can be
empty, and they can end with trivia.

## Main Definitions

* `StartsSolid`, `EndsSolid`: rows of tokens that begin and end with no trivia
* `SyntaxTree.Trim`: a tree of which all nodes are like this
* `FramesTrim`: open nodes and what they hold
* `Draft.Trim`, `Draft.Settled`: a reading, and one in which the innermost node may be closed
* `Goal.Suits`, `Goal.SuitAll`: goals that open nodes only at known places
* `Pursuit.Trim`: what a rule leaves

## Main Results

* `FramesTrim.append`, `FramesTrim.cut`, `FramesTrim.closed`: open nodes stay trim
* `Draft.Trim.bump`, `Draft.Trim.openNode`, `Draft.Trim.openAt`, `Draft.Settled.close`: so do drafts
-/

namespace SolidityAtlas

/-! ## Rows of tokens -/

/-- A row of tokens does not begin with trivia. If it is empty, then `pending` must hold. -/
def StartsSolid (pending : Prop) : List (TokenKind × String) → Prop
  | [] => pending
  | l :: _ => l.1.isTrivia = false

/-- A row of tokens ends with one that is not trivia. -/
def EndsSolid (ls : List (TokenKind × String)) : Prop :=
  ∃ l ∈ ls.getLast?, l.1.isTrivia = false

section Rows

variable {pending pending' : Prop} {ls ls' : List (TokenKind × String)}

/-- What may be empty under a condition may be so under every weaker one. -/
theorem StartsSolid.imp (h : StartsSolid pending ls) (himp : pending → pending') :
    StartsSolid pending' ls := by
  cases ls with
  | nil => exact himp h
  | cons l ls => exact h

/-- What comes behind a row matters only if the row is empty. -/
theorem StartsSolid.append (h : StartsSolid pending ls) (h' : pending → StartsSolid pending' ls') :
    StartsSolid pending' (ls ++ ls') := by
  cases ls with
  | nil => exact h' h
  | cons l ls => exact h

/-- The front of a row begins as the row does, or is empty. -/
theorem StartsSolid.of_append (h : StartsSolid pending (ls ++ ls')) : StartsSolid True ls := by
  cases ls with
  | nil => trivial
  | cons l ls => exact h

/-- Only the end of a row counts for how it ends. -/
theorem EndsSolid.append_left (h : EndsSolid ls') (ls : List (TokenKind × String)) :
    EndsSolid (ls ++ ls') := by
  obtain ⟨l, hl, hsolid⟩ := h
  exact ⟨l, by rw [List.getLast?_append, Option.mem_def.1 hl]; rfl, hsolid⟩

theorem endsSolid_singleton {l : TokenKind × String} (h : l.1.isTrivia = false) : EndsSolid [l] :=
  ⟨l, rfl, h⟩

end Rows

/-! ## Trees -/

namespace SyntaxTree

mutual

/-- Every node of the tree that has tokens begins with one that is not trivia. Unless `faulty` holds,
it has tokens and ends with one that is not trivia. -/
def Trim (faulty : Prop) : SyntaxTree → Prop
  | leaf _ _ => True
  | node _ inner =>
    (StartsSolid True (leavesOf inner) ∧ (faulty ∨ EndsSolid (leavesOf inner))) ∧
      TrimAll faulty inner

/-- The same of the trees of a row. -/
def TrimAll (faulty : Prop) : List SyntaxTree → Prop
  | [] => True
  | t :: ts => t.Trim faulty ∧ TrimAll faulty ts

end

variable {faulty faulty' : Prop}

/-- A row is trim if its trees are. -/
theorem trimAll_iff {ts : List SyntaxTree} : TrimAll faulty ts ↔ ∀ t ∈ ts, t.Trim faulty := by
  induction ts with
  | nil => simp [TrimAll]
  | cons t ts ih => simp [TrimAll, ih]

mutual

/-- Where a fault excuses more, a tree is trim still. -/
theorem Trim.imp (himp : faulty → faulty') : {t : SyntaxTree} → t.Trim faulty → t.Trim faulty'
  | leaf _ _, _ => trivial
  | node _ _, ⟨⟨hstarts, hends⟩, hinner⟩ =>
    ⟨⟨hstarts, hends.imp_left himp⟩, TrimAll.imp himp hinner⟩

theorem TrimAll.imp (himp : faulty → faulty') :
    {ts : List SyntaxTree} → TrimAll faulty ts → TrimAll faulty' ts
  | [], _ => trivial
  | _ :: _, ⟨h, hs⟩ => ⟨Trim.imp himp h, TrimAll.imp himp hs⟩

end

/-- The tokens in a row of children that are listed last one first. -/
def leavesBack (taken : List SyntaxTree) : List (TokenKind × String) :=
  leavesOf taken.reverse

/-- Trees that are taken later have their leaves behind. -/
theorem leavesBack_append (newer older : List SyntaxTree) :
    leavesBack (newer ++ older) = leavesBack older ++ leavesBack newer := by
  rw [leavesBack, List.reverse_append, leavesOf_append]
  rfl

/-- A tree that is taken has its leaves behind all others. -/
theorem leavesBack_cons (t : SyntaxTree) (taken : List SyntaxTree) :
    leavesBack (t :: taken) = leavesBack taken ++ t.leaves := by
  rw [leavesBack, List.reverse_cons, leavesOf_append, leavesOf, leavesOf, List.append_nil]
  rfl

end SyntaxTree

open SyntaxTree (leavesBack leavesBack_append leavesBack_cons)

/-! ## Open nodes -/

/-- The places at which nodes may be opened, for each open node. At least these are known in each
one. -/
def KnownPlaces (nodes now : List (Set Nat)) : Prop :=
  List.Forall₂ (· ⊆ ·) nodes now

theorem KnownPlaces.refl (nodes : List (Set Nat)) : KnownPlaces nodes nodes :=
  List.forall₂_same.2 fun _ _ => Set.Subset.rfl

/-- What is known of the places lasts while more becomes known. -/
theorem KnownPlaces.trans {nodes now now' : List (Set Nat)} (h : KnownPlaces nodes now)
    (h' : KnownPlaces now now') : KnownPlaces nodes now' := by
  induction h generalizing now' with
  | nil => exact h'
  | cons hp _ ih =>
      cases h' with
      | cons hp' h' => exact .cons (Set.Subset.trans hp hp') (ih h')

/-- The places up to one of them. -/
def placesUpTo (places : Set Nat) (m : Nat) : Set Nat :=
  {p ∈ places | p ≤ m}

/-- More places in front of a mark make more places up to it. -/
theorem placesUpTo_subset {places places' : Set Nat} (h : places ⊆ places') (m : Nat) :
    placesUpTo places m ⊆ placesUpTo places' m :=
  fun _ hp => ⟨h hp.1, hp.2⟩

theorem mem_placesUpTo {places : Set Nat} {m : Nat} (h : m ∈ places) : m ∈ placesUpTo places m :=
  ⟨h, Nat.le_refl m⟩

theorem known_placesUpTo (places : Set Nat) (m : Nat) (nodes : List (Set Nat)) :
    KnownPlaces (placesUpTo places m :: nodes) (places :: nodes) :=
  .cons (fun _ hp => hp.1) (KnownPlaces.refl nodes)

/-- No place is lost when the places up to the same one are left once more. -/
theorem known_placesUpTo_twice (places : Set Nat) (m : Nat) (nodes : List (Set Nat)) :
    KnownPlaces (placesUpTo places m :: nodes) (placesUpTo (placesUpTo places m) m :: nodes) :=
  .cons (fun _ hp => ⟨hp, hp.2⟩) (KnownPlaces.refl nodes)

/-- A node may be opened at a place: the children behind it do not begin with trivia. -/
def IsPlace (pending : Prop) (taken : List SyntaxTree) (m : Nat) : Prop :=
  ∃ newer older, taken = newer ++ older ∧ older.length = m ∧
    StartsSolid pending (leavesBack newer)

/-- Open nodes from the inside out, with places in them. What they hold is trim, and none of them but
the root begins with trivia. In the innermost one `pending` says that what comes next is no
trivia; into the others a node will be put next. -/
def FramesTrim (pending faulty : Prop) : List (Set Nat) → Frame → List Frame → Prop
  | [], f, [] => ∀ t ∈ f.taken, t.Trim faulty
  | places :: nodes, f, o :: os =>
    (∀ t ∈ f.taken, t.Trim faulty) ∧ StartsSolid pending (leavesBack f.taken) ∧
      (∀ m ∈ places, IsPlace pending f.taken m) ∧ FramesTrim True faulty nodes o os
  | _, _, _ => False

namespace IsPlace

variable {pending pending' : Prop} {taken : List SyntaxTree} {m : Nat}

theorem imp (h : IsPlace pending taken m) (himp : pending → pending') : IsPlace pending' taken m := by
  obtain ⟨newer, older, htaken, hm, hstarts⟩ := h
  exact ⟨newer, older, htaken, hm, hstarts.imp himp⟩

/-- A place stands among the children of its node. -/
theorem le_length (h : IsPlace pending taken m) : m ≤ taken.length := by
  obtain ⟨newer, older, rfl, rfl, -⟩ := h
  rw [List.length_append]
  exact Nat.le_add_left _ _

/-- What comes behind the place matters only if nothing is there yet. -/
theorem append (h : IsPlace pending taken m) {ts : List SyntaxTree}
    (hstarts : pending → StartsSolid pending' (leavesBack ts)) :
    IsPlace pending' (ts ++ taken) m := by
  obtain ⟨newer, older, rfl, hm, hnewer⟩ := h
  refine ⟨ts ++ newer, older, (List.append_assoc _ _ _).symm, hm, ?_⟩
  rw [leavesBack_append]
  exact hnewer.append hstarts

/-- A place stays one when what is behind a later one is taken away. -/
theorem of_append {newer older : List SyntaxTree} (h : IsPlace pending (newer ++ older) m)
    (hm : m ≤ older.length) : IsPlace True older m := by
  obtain ⟨newer', older', htaken, rfl, hnewer'⟩ := h
  obtain ⟨between, rfl⟩ : ∃ between, older = between ++ older' := by
    rcases List.append_eq_append_iff.1 htaken with ⟨between, -, h⟩ | ⟨between, -, h⟩
    · exact ⟨between, h⟩
    · have hlength := congrArg List.length h
      rw [List.length_append] at hlength
      have hnil : between = [] := List.eq_nil_of_length_eq_zero (by omega)
      exact ⟨[], by rw [h, hnil, List.nil_append, List.nil_append]⟩
  rw [← List.append_assoc] at htaken
  rw [← List.append_cancel_right htaken, leavesBack_append] at hnewer'
  exact ⟨between, older', rfl, rfl, hnewer'.of_append⟩

end IsPlace

namespace FramesTrim

variable {pending pending' faulty faulty' : Prop} {nodes : List (Set Nat)} {places : Set Nat}
  {f o : Frame} {fs os : List Frame} {m : Nat}

/-- What the innermost node holds is trim. -/
theorem trim (h : FramesTrim pending faulty nodes f fs) : ∀ t ∈ f.taken, t.Trim faulty := by
  match nodes, fs, h with
  | [], [], h => exact h
  | _ :: _, _ :: _, h => exact h.1

theorem imp (h : FramesTrim pending faulty nodes f fs) (hp : pending → pending')
    (hf : faulty → faulty') : FramesTrim pending' faulty' nodes f fs := by
  induction nodes generalizing f fs pending pending' with
  | nil =>
      match fs, h with
      | [], h => exact fun t ht => (h t ht).imp hf
  | cons places nodes ih =>
      match fs, h with
      | _ :: _, ⟨htrim, hstarts, hplaces, houter⟩ =>
          exact ⟨fun t ht => (htrim t ht).imp hf, hstarts.imp hp,
            fun m hm => (hplaces m hm).imp hp, ih houter id⟩

/-- The innermost node gets more children. -/
theorem append (h : FramesTrim pending faulty nodes f fs) (ts : List SyntaxTree)
    (hts : ∀ t ∈ ts, t.Trim faulty) (hstarts : pending → StartsSolid pending' (leavesBack ts)) :
    FramesTrim pending' faulty nodes ⟨f.kind, ts ++ f.taken⟩ fs := by
  have htrim : ∀ t ∈ ts ++ f.taken, t.Trim faulty := fun t ht =>
    (List.mem_append.1 ht).elim (hts t) (h.trim t)
  match nodes, fs, h with
  | [], [], _ => exact htrim
  | _ :: _, _ :: _, ⟨_, hf, hplaces, houter⟩ =>
      refine ⟨htrim, ?_, fun m hm => (hplaces m hm).append hstarts, houter⟩
      rw [leavesBack_append]
      exact hf.append hstarts

/-- In front of what is no trivia a node may be opened. -/
theorem marked (h : FramesTrim pending faulty (places :: nodes) f fs) (hp : pending) :
    FramesTrim pending faulty (insert f.taken.length places :: nodes) f fs := by
  match fs, h with
  | _ :: _, ⟨htrim, hstarts, hplaces, houter⟩ =>
      refine ⟨htrim, hstarts, ?_, houter⟩
      rintro m (rfl | hm)
      · exact ⟨[], f.taken, rfl, rfl, hp⟩
      · exact hplaces m hm

/-- The places of the innermost node stand among its children. -/
theorem le_length (h : FramesTrim pending faulty (places :: nodes) f fs) (hm : m ∈ places) :
    m ≤ f.taken.length := by
  match fs, h with
  | _ :: _, h => exact (h.2.2.1 m hm).le_length

/-- A node is opened in front of what is no trivia. -/
theorem opened (h : FramesTrim True faulty nodes f fs) (k : NodeKind) (hp : pending) :
    FramesTrim pending faulty (∅ :: nodes) ⟨k, []⟩ (f :: fs) :=
  ⟨fun _ ht => absurd ht List.not_mem_nil, hp, fun _ hm => hm.elim, h⟩

/-- A node is opened that takes in the children behind a place. The places up to this one stay. -/
theorem cut (h : FramesTrim pending faulty (places :: nodes) f fs) (hm : m ∈ places)
    (k : NodeKind) : FramesTrim pending faulty (∅ :: placesUpTo places m :: nodes)
      ⟨k, f.taken.take (f.taken.length - m)⟩
      ({ f with taken := f.taken.drop (f.taken.length - m) } :: fs) := by
  match fs, h with
  | _ :: _, ⟨htrim, hstarts, hplaces, houter⟩ =>
      obtain ⟨newer, older, htaken, rfl, hnewer⟩ := hplaces m hm
      rw [htaken] at htrim hstarts hplaces ⊢
      rw [leavesBack_append] at hstarts
      simp only [List.length_append, Nat.add_sub_cancel, List.take_left, List.drop_left]
      exact ⟨fun t ht => htrim t (List.mem_append_left _ ht), hnewer, fun _ hp => hp.elim,
        fun t ht => htrim t (List.mem_append_right _ ht), hstarts.of_append,
        fun p hp => (hplaces p hp.1).of_append hp.2, houter⟩

/-- The innermost node is put into the node around it. -/
theorem closed (h : FramesTrim pending faulty (places :: nodes) f (o :: os))
    (hends : faulty ∨ EndsSolid (leavesBack f.taken)) :
    FramesTrim pending faulty nodes ⟨o.kind, .node f.kind f.taken.reverse :: o.taken⟩ os := by
  obtain ⟨htrim, hstarts, -, houter⟩ := h
  have hnode : (SyntaxTree.node f.kind f.taken.reverse).Trim faulty :=
    ⟨⟨hstarts.imp fun _ => trivial, hends⟩,
      SyntaxTree.trimAll_iff.2 fun t ht => htrim t (List.mem_reverse.1 ht)⟩
  refine houter.append [.node f.kind f.taken.reverse]
    (fun t ht => List.mem_singleton.1 ht ▸ hnode) fun _ => ?_
  rw [leavesBack_cons]
  exact hstarts

/-- Fewer places need to be known. -/
theorem forget {now : List (Set Nat)} (h : FramesTrim pending faulty now f fs)
    (hknown : KnownPlaces nodes now) : FramesTrim pending faulty nodes f fs := by
  induction hknown generalizing pending f fs with
  | nil => exact h
  | cons hp _ ih =>
      match fs, h with
      | _ :: _, ⟨htrim, hstarts, hplaces, houter⟩ =>
          exact ⟨htrim, hstarts, fun m hm => hplaces m (hp hm), ih houter⟩

end FramesTrim

/-! ## Drafts -/

namespace Draft

/-- A reading in which open nodes are trim, with places in them. -/
def Trim (nodes : List (Set Nat)) (d : Draft) : Prop :=
  FramesTrim d.Ahead d.Faulty nodes d.top d.outer

/-- Besides, the innermost node may be closed: it ends with a token that is not trivia unless it is the
root or there has been a fault. -/
structure Settled (nodes : List (Set Nat)) (d : Draft) : Prop where
  trim : d.Trim nodes
  ends : nodes = [] ∨ d.Faulty ∨ EndsSolid (leavesBack d.top.taken)

variable {d : Draft} {nodes now : List (Set Nat)} {places : Set Nat} {m : Nat}

/-! ### The tokens ahead -/

/-- Where a token of a certain kind comes next there is one. -/
theorem atEnd_of_kind {k : TokenKind} (hk : k ≠ .error) (h : d.kind = k) : d.atEnd = false :=
  atEnd_of_kind_ne (h ▸ hk)

/-- What does not hold of the end holds of a token. -/
theorem atEnd_of_test {p : TokenKind → Bool} (hp : p .error = false) (h : p d.kind = true) :
    d.atEnd = false := by
  refine atEnd_of_kind_ne fun herror => ?_
  rw [herror, hp] at h
  cases h

/-- The next token is the first of the words ahead. -/
theorem words_bump : d.bump.words = d.words.tail := by
  rw [← words_skipTrivia (d := d), bump, take, words, words]
  cases hrest : d.skipTrivia.rest with
  | nil =>
      rw [hrest]
      rfl
  | cons t ts => rw [solidWords_cons (ahead_skipTrivia t (by rw [hrest]; rfl))]; rfl

/-- When a token is taken, the one behind it is still there. -/
theorem atEnd_bump_of_kindAt {k : TokenKind} (hk : k ≠ .error) (h : d.kindAt 1 = k) :
    d.bump.atEnd = false := by
  refine atEnd_of_kind hk ?_
  rw [kind_eq, words_bump, ← h, kindAt_eq, List.drop_one]

/-- When a token is taken, it is the last child of the innermost node. -/
theorem exists_taken_bump (hmore : d.atEnd = false) :
    ∃ kind text taken, d.bump.top.taken = .leaf kind text :: taken ∧ kind.isTrivia = false ∧
      d.mark ≤ taken.length := by
  cases hrest : d.skipTrivia.rest with
  | nil => rw [← atEnd_skipTrivia, atEnd, next?, hrest] at hmore; cases hmore
  | cons t ts =>
      refine ⟨t.kind, t.text, d.skipTrivia.top.taken, ?_, ahead_skipTrivia t (by rw [hrest]; rfl),
        mark_le_mark_skipTrivia⟩
      rw [bump, take, hrest]
      rfl

/-! ### Taking tokens -/

namespace Trim

variable (h : Trim nodes d)

include h

/-- Behind a fault every node may be closed. -/
theorem settled (hfaulty : d.Faulty) : Settled nodes d :=
  ⟨h, .inr (.inl hfaulty)⟩

/-- Places may be forgotten. -/
theorem forget (hknown : KnownPlaces now nodes) : Trim now d :=
  FramesTrim.forget h hknown

/-- Trivia may be taken when a reading is trim. -/
theorem skipTrivia : Trim nodes d.skipTrivia := by
  refine FramesTrim.append h _ (fun t ht => ?_) fun hahead => ?_
  · obtain ⟨token, -, rfl⟩ := List.mem_map.1 (List.mem_reverse.1 ht)
    trivial
  · -- Where nothing but trivia could come next, there is none.
    have hnone : d.rest.takeWhile Token.isTrivia = [] := by
      cases hrest : d.rest with
      | nil => rfl
      | cons t ts => simp [hahead t (by rw [hrest]; rfl)]
    rw [hnone]
    exact ahead_skipTrivia

/-- A token that is not trivia is taken as a leaf that is none either. -/
theorem take (hahead : d.Ahead) (hmore : d.atEnd = false) {f : TokenKind → TokenKind}
    (hf : ∀ k, k.isTrivia = false → (f k).isTrivia = false) :
    Settled nodes (d.take fun t => .leaf (f t.kind) t.text) := by
  unfold Draft.take
  cases hrest : d.rest with
  | nil => simp [atEnd, next?, hrest, firstSolid?] at hmore
  | cons t ts =>
      have hsolid := hf _ (hahead t (by rw [hrest]; rfl))
      refine ⟨FramesTrim.append h [.leaf (f t.kind) t.text] (fun u hu => ?_)
        fun _ => hsolid, .inr (.inr ?_)⟩
      · rw [List.mem_singleton.1 hu]
        trivial
      · show EndsSolid (leavesBack (_ :: d.top.taken))
        rw [leavesBack_cons]
        exact (endsSolid_singleton hsolid).append_left _

/-- The next token is the last one that has been taken when it is taken. -/
theorem bumpNext (hmore : d.atEnd = false) : Settled nodes d.bump :=
  h.skipTrivia.take ahead_skipTrivia (by rwa [atEnd_skipTrivia]) (f := id) fun _ => id

/-- Behind a token that was seen a node may be closed. -/
theorem bumpAt {k : TokenKind} (hat : d.isAt k = true) (hk : k ≠ .error) : Settled nodes d.bump :=
  h.bumpNext (atEnd_of_at hk hat)

/-- Behind a name that is there a node may be closed. -/
theorem bumpAs (hmore : d.atEnd = false) : Settled nodes (d.bumpAs .ident) :=
  h.skipTrivia.take ahead_skipTrivia (by rwa [atEnd_skipTrivia]) (f := fun _ => .ident) fun _ _ => rfl

theorem bump : Trim nodes d.bump := by
  by_cases hmore : d.atEnd = false
  · exact (h.bumpNext hmore).trim
  · have hrest : d.skipTrivia.rest = [] := by
      cases hrest : d.skipTrivia.rest with
      | nil => rfl
      | cons t ts =>
          rw [← atEnd_skipTrivia, atEnd, next?_skipTrivia, next?_of_rest_skipTrivia hrest] at hmore
          exact absurd rfl hmore
    rw [Draft.bump, Draft.take, hrest]
    exact h.skipTrivia

/-- A fault lets every node be closed. -/
theorem fault (cause : FaultCause) : Settled nodes (d.fault cause) := by
  have hfault : Trim nodes (d.fault cause) := FramesTrim.imp h id fun _ => faulty_fault cause
  exact hfault.settled (faulty_fault cause)

/-- An expected token is taken, or its fault lets the node be closed. -/
theorem expect {k : TokenKind} (hk : k ≠ .error) : Settled nodes (d.expect k) := by
  unfold Draft.expect
  split
  · rename_i hat
    exact h.bumpAt hat hk
  · exact h.fault _

theorem expectName : Settled nodes d.expectName := by
  unfold Draft.expectName
  split
  · rename_i hname
    exact h.bumpAs (atEnd_of_atName hname)
  · exact h.fault _

/-- Brackets that are skipped end with one, or in a fault. -/
theorem bumpBalanced (opening closing : TokenKind) (depth : Nat) :
    Settled nodes (d.bumpBalanced opening closing depth) := by
  fun_induction Draft.bumpBalanced opening closing depth d with
  | case1 _ _ _ _ ih => exact ih h.bump
  | case2 _ _ hmore => exact h.bumpNext hmore
  | case3 _ _ _ _ _ _ ih => exact ih h.bump
  | case4 _ _ _ _ _ ih => exact ih h.bump
  | case5 => exact h.fault _

/-! ### Nodes -/

/-- A node is opened in front of a token, and nothing in it is a place yet. -/
theorem openNode (k : NodeKind) : Trim (∅ :: nodes) (d.openNode k) :=
  (FramesTrim.imp h.skipTrivia (fun _ => trivial) id).opened k ahead_skipTrivia

/-- A node is opened and the next token is taken into it. -/
theorem openNext (k : NodeKind) (hmore : d.atEnd = false) :
    Settled (∅ :: nodes) (d.openNode k).bump :=
  (h.openNode k).bumpNext (by rwa [atEnd_openNode])

omit h

/-- In front of a token the mark is a place. -/
theorem marked (h : Trim (places :: nodes) d) (hahead : d.Ahead) :
    Trim (insert d.mark places :: nodes) d :=
  FramesTrim.marked h hahead

/-- No place is behind the end. -/
theorem known_marked (h : Trim (places :: nodes) d) :
    KnownPlaces (places :: nodes) (placesUpTo (insert d.mark places) d.mark :: nodes) :=
  .cons (fun _ hm => ⟨.inr hm, FramesTrim.le_length h hm⟩) (KnownPlaces.refl nodes)

/-- At a place a node may be opened, and it takes in children that begin there. -/
theorem openAt (h : Trim (places :: nodes) d) (hm : m ∈ places) (k : NodeKind) :
    Trim (∅ :: placesUpTo places m :: nodes) (d.openAt m k) :=
  FramesTrim.cut h hm k

end Trim

namespace Settled

theorem forget (h : Settled nodes d) (hknown : KnownPlaces now nodes) : Settled now d := by
  refine ⟨h.trim.forget hknown, h.ends.imp_left fun hnil => ?_⟩
  subst hnil
  cases hknown
  rfl

/-- A node that may be closed leaves the node around it so that it may be closed. -/
theorem close (h : Settled (places :: nodes) d) : Settled nodes d.close := by
  obtain ⟨htrim, hends⟩ := h
  have hends := hends.resolve_left (List.cons_ne_nil _ _)
  unfold Draft.close
  unfold Trim at htrim
  -- A node is open around the innermost one.
  match houter : d.outer, htrim with
  | o :: os, htrim =>
      refine ⟨htrim.closed hends, .inr (hends.imp id fun hends => ?_)⟩
      show EndsSolid (leavesBack (_ :: o.taken))
      rw [leavesBack_cons]
      exact hends.append_left _

variable (h : Settled nodes d)

include h

/-- A token that is taken or not leaves a node so that it may be closed. -/
theorem eat {k : TokenKind} (hk : k ≠ .error) : Settled nodes (d.eat k) := by
  unfold Draft.eat
  split
  · rename_i hat
    exact h.trim.bumpAt hat hk
  · exact h

theorem eatName : Settled nodes d.eatName := by
  unfold Draft.eatName
  split
  · rename_i hname
    exact h.trim.bumpAs (atEnd_of_atName hname)
  · exact h

theorem bumpWhile (p : TokenKind → Bool) : Settled nodes (d.bumpWhile p) := by
  fun_induction Draft.bumpWhile p d with
  | case1 d hmore ih => exact ih (h.trim.bumpNext hmore.1)
  | case2 d hdone => exact h

theorem skipTo (stops : List TokenKind) : Settled nodes (d.skipTo stops) :=
  h.bumpWhile _

end Settled

/-- Skipped text is put under a node of its own, behind a fault. -/
theorem Trim.recover (h : Trim nodes d) (cause : FaultCause) (stops : List TokenKind) :
    Settled nodes (d.recover cause stops) := by
  have hopened : Settled (∅ :: nodes) ((d.fault cause).openNode .error) :=
    ((h.fault cause).trim.openNode .error).settled ((faulty_openNode _).2 (faulty_fault cause))
  unfold Draft.recover
  simp only
  split
  · exact (hopened.trim.bump.settled (faulty_bump.2 (faulty_fault cause))).close
  · exact (hopened.skipTo stops).close

end Draft

/-! ## Goals -/

namespace Goal

/-- The token that a goal takes last. -/
def lastToken? : Goal → Option TokenKind
  | expect k | tupleItems _ k | moreTupleItems _ k => some k
  | _ => none

/-- A goal may be pursued with certain places known in the open nodes; `after` holds of those that
are known afterwards. Directly in the root only the members of a file are pursued. A goal with a
mark opens nodes there and forgets the places behind. Goals do not look for the end of the text. -/
def Suits (after : List (Set Nat) → Prop) (g : Goal) : List (Set Nat) → Prop
  | [] => g = .items ∧ after []
  | places :: nodes =>
    match g.mark?, g.lastToken? with
    | some m, _ => m ∈ places ∧ after (placesUpTo places m :: nodes)
    | none, some k => k ≠ .error ∧ after (if g.closes then nodes else places :: nodes)
    | none, none => after (if g.closes then nodes else places :: nodes)

/-- The goals of a row may be pursued one after the other with certain places known, and at least the
places `last` are known afterwards. -/
def SuitAll (last : List (Set Nat)) : List Goal → List (Set Nat) → Prop
  | [], nodes => KnownPlaces last nodes
  | g :: gs, nodes => g.Suits (SuitAll last gs) nodes

variable {after after' : List (Set Nat) → Prop} {g : Goal} {gs hs : List Goal}
  {nodes now last : List (Set Nat)}

/-- A goal suits whatever is to follow it, and whatever is weaker. -/
theorem Suits.mono (h : g.Suits after nodes) (hafter : ∀ nodes, after nodes → after' nodes) :
    g.Suits after' nodes := by
  cases nodes with
  | nil => exact ⟨h.1, hafter _ h.2⟩
  | cons places nodes =>
      cases hmark : g.mark? with
      | some m =>
          simp only [Suits, hmark] at h ⊢
          exact ⟨h.1, hafter _ h.2⟩
      | none =>
          cases htoken : g.lastToken? with
          | some k =>
              simp only [Suits, hmark, htoken] at h ⊢
              exact ⟨h.1, hafter _ h.2⟩
          | none =>
              simp only [Suits, hmark, htoken] at h ⊢
              exact hafter _ h

/-- A goal suits every place where more is known. -/
theorem Suits.known (h : g.Suits after nodes)
    (hafter : ∀ ⦃nodes now⦄, KnownPlaces nodes now → after nodes → after now)
    (hknown : KnownPlaces nodes now) : g.Suits after now := by
  cases hknown with
  | nil => exact h
  | @cons places places' nodes now hp hknown =>
      have hleft : KnownPlaces (if g.closes then nodes else places :: nodes)
          (if g.closes then now else places' :: now) := by
        split
        · exact hknown
        · exact .cons hp hknown
      cases hmark : g.mark? with
      | some m =>
          simp only [Suits, hmark] at h ⊢
          exact ⟨hp h.1, hafter (.cons (placesUpTo_subset hp m) hknown) h.2⟩
      | none =>
          cases htoken : g.lastToken? with
          | some k =>
              simp only [Suits, hmark, htoken] at h ⊢
              exact ⟨h.1, hafter hleft h.2⟩
          | none =>
              simp only [Suits, hmark, htoken] at h ⊢
              exact hafter hleft h

theorem SuitAll.known (h : SuitAll last gs nodes) (hknown : KnownPlaces nodes now) :
    SuitAll last gs now := by
  induction gs generalizing nodes now with
  | nil => exact KnownPlaces.trans h hknown
  | cons g gs ih => exact Suits.known h (fun _ _ hknown h => ih h hknown) hknown

/-- Rows of goals suit one after the other. -/
theorem SuitAll.append (h : SuitAll nodes gs now) (h' : SuitAll last hs nodes) :
    SuitAll last (gs ++ hs) now := by
  induction gs generalizing now with
  | nil => exact h'.known h
  | cons g gs ih => exact Suits.mono h fun _ => ih

end Goal

/-- The innermost node may be closed, or an expression is read next. This is the one goal that is
pursued in a node that has just been opened. -/
def Draft.Ready (nodes : List (Set Nat)) (d : Draft) (goals : List Goal) : Prop :=
  d.Settled nodes ∨ d.Trim nodes ∧ ∃ min gs, goals = .expression min :: gs

namespace Pursuit

variable {d : Draft} {p : Pursuit} {gs : List Goal} {nodes now last : List (Set Nat)}

/-- The draft is trim, and so it is when its goals have been pursued. At least the places `nodes` are
known then. -/
def Trim (nodes : List (Set Nat)) (p : Pursuit) : Prop :=
  ∃ now, p.1.Ready now p.2 ∧ Goal.SuitAll nodes p.2 now

namespace Trim

/-- What may be closed, with goals that suit it, is trim. -/
theorem of (h : d.Settled now) (hgs : Goal.SuitAll nodes gs now) : Trim nodes (d, gs) :=
  ⟨now, .inl h, hgs⟩

/-- A draft in which nothing is left to be pursued. -/
theorem done (h : d.Settled nodes) : Trim nodes (d, []) :=
  .of h (.refl nodes)

/-- An expression may be read in a node that has just been opened. -/
theorem expression (h : d.Trim now) {min : Nat}
    (hgs : Goal.SuitAll nodes (.expression min :: gs) now) : Trim nodes (d, .expression min :: gs) :=
  ⟨now, .inr ⟨h, min, gs, rfl⟩, hgs⟩

/-- A token is taken if it is the next one, and otherwise something else is done. -/
theorem bumpIf (h : d.Trim now) {k : TokenKind} (hk : k ≠ .error)
    (hgs : Goal.SuitAll nodes gs now) (hp : Trim nodes p) :
    Trim nodes (if d.isAt k then (d.bump, gs) else p) := by
  split
  · rename_i hat
    exact .of (h.bumpAt hat hk) hgs
  · exact hp

/-- Goals that suit what a rule leaves may be put behind it. -/
theorem andThen (h : Trim nodes p) (hgs : Goal.SuitAll last gs nodes) :
    (p.andThen gs).Trim last := by
  obtain ⟨now, hready, hsuits⟩ := h
  refine ⟨now, hready.imp_right fun ⟨htrim, min, hs, heq⟩ => ⟨htrim, min, hs ++ gs, ?_⟩,
    hsuits.append hgs⟩
  rw [Pursuit.andThen, heq]
  rfl

end Trim

end Pursuit

end SolidityAtlas
