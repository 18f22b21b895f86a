import SolidityAtlas.Proofs.Syntax.Alike.Basic

/-!
# Readings that differ in trivia

Two drafts are *alike* if nothing but trivia tells them apart: the same words are ahead, and the
open nodes hold the same trees without trivia. What the rules of the grammar do with them is then
alike too, since no rule looks at trivia as long as no fault has been noted. (Behind a fault this
is no longer so: whether text is skipped there depends on what has been taken, trivia included.)

A rule that notes a fault in the first reading need not be followed any further. Therefore all that
is said about a rule has two cases: a fault, or drafts that are alike with goals that go together.

## Main Definitions

* `Draft.Faulty`, `Draft.Alike`, `Draft.Follows`: drafts that are alike, unless there is a fault
* `Goal.LeadsAlike`, `Goal.LeadAllAlike`: goals that go together
* `Pursuit.Alike`: what a rule makes of two drafts

## Main Results

* `Draft.Alike.bump`, `Draft.Alike.openNode`, `Draft.Alike.openAt`, `Draft.Alike.close`: the steps of
  a reading keep drafts alike
-/

namespace SolidityAtlas

namespace Draft

/-- A fault has been noted. -/
def Faulty (d : Draft) : Prop :=
  d.faults ≠ []

/-- Two drafts that nothing but trivia tells apart, without faults. -/
structure Alike (nodes : List Marks) (d e : Draft) : Prop where
  words : d.words = e.words
  left : d.faults = []
  right : e.faults = []
  frames : FramesAlike d.Ahead e.Ahead nodes d.top e.top d.outer e.outer

/-- Two drafts are alike unless there is a fault. -/
def Follows (nodes : List Marks) (d e : Draft) : Prop :=
  d.Faulty ∨ Alike nodes d e

/-! ## Faults -/

section Faults

variable {d : Draft}

@[simp] theorem faulty_skipTrivia : d.skipTrivia.Faulty ↔ d.Faulty := Iff.rfl

/-- Taking a token notes no fault. -/
@[simp] theorem faulty_take (f : Token → SyntaxTree) : (d.take f).Faulty ↔ d.Faulty := by
  unfold take
  split <;> rfl

@[simp] theorem faulty_bump : d.bump.Faulty ↔ d.Faulty := faulty_take _

@[simp] theorem faulty_bumpAs (k : TokenKind) : (d.bumpAs k).Faulty ↔ d.Faulty := faulty_take _

@[simp] theorem faulty_openNode (k : NodeKind) : (d.openNode k).Faulty ↔ d.Faulty := Iff.rfl

@[simp] theorem faulty_openAt (m : Nat) (k : NodeKind) : (d.openAt m k).Faulty ↔ d.Faulty := Iff.rfl

@[simp] theorem faulty_close : d.close.Faulty ↔ d.Faulty := by
  unfold close
  split <;> rfl

/-- Noting a fault makes a draft faulty for good. -/
@[simp] theorem faulty_fault (cause : FaultCause) : (d.fault cause).Faulty :=
  List.cons_ne_nil _ _

@[simp] theorem faulty_bumpWhile (p : TokenKind → Bool) : (d.bumpWhile p).Faulty ↔ d.Faulty := by
  fun_induction bumpWhile p d with
  | case1 d hmore ih => rw [ih, faulty_bump]
  | case2 => rfl

@[simp] theorem faulty_skipTo (stops : List TokenKind) : (d.skipTo stops).Faulty ↔ d.Faulty :=
  faulty_bumpWhile _

/-- A recovery notes a fault. -/
@[simp] theorem faulty_recover (cause : FaultCause) (stops : List TokenKind) :
    (d.recover cause stops).Faulty := by
  unfold recover
  simp only [faulty_close]
  split <;> simp

@[simp] theorem faulty_eat (k : TokenKind) : (d.eat k).Faulty ↔ d.Faulty := by
  unfold eat
  split <;> simp

@[simp] theorem faulty_eatName : d.eatName.Faulty ↔ d.Faulty := by
  unfold eatName
  split <;> simp

namespace Faulty

variable (h : d.Faulty)

include h

theorem expect (k : TokenKind) : (d.expect k).Faulty := by
  unfold Draft.expect
  split <;> simp [h]

theorem expectName : d.expectName.Faulty := by
  unfold Draft.expectName
  split <;> simp [h]

theorem bumpBalanced (opening closing : TokenKind) (depth : Nat) :
    (d.bumpBalanced opening closing depth).Faulty := by
  fun_induction Draft.bumpBalanced opening closing depth d with
  | case1 _ _ _ _ ih => exact ih (faulty_bump.2 h)
  | case2 => exact faulty_bump.2 h
  | case3 _ _ _ _ _ _ ih => exact ih (faulty_bump.2 h)
  | case4 _ _ _ _ _ ih => exact ih (faulty_bump.2 h)
  | case5 => exact faulty_fault _

end Faulty

end Faults

/-! ## Steps -/

namespace Alike

variable {d e : Draft} {nodes : List Marks} {marks : Marks}

section

variable (h : Alike nodes d e)

include h

/-- The next token is of one kind on both sides. -/
theorem kind : e.kind = d.kind := by
  rw [kind_eq, kind_eq, h.words]

/-- The tokens ahead are of the same kinds on both sides. -/
theorem kindAt (n : Nat) : e.kindAt n = d.kindAt n := by
  rw [kindAt_eq, kindAt_eq, h.words]

/-- The next token has one text on both sides. -/
theorem textHere : e.textHere = d.textHere := by
  rw [textHere_eq, textHere_eq, h.words]

/-- The ends are reached together. -/
theorem atEnd : e.atEnd = d.atEnd := by
  rw [atEnd_eq, atEnd_eq, h.words]

/-- What is ahead is the same on both sides, trivia aside. -/
theorem solidKinds : e.solidKinds = d.solidKinds := by
  rw [solidKinds_eq, solidKinds_eq, h.words]

theorem isAt (k : TokenKind) : e.isAt k = d.isAt k := by
  rw [Draft.isAt, Draft.isAt, h.kind]

theorem atName : e.atName = d.atName := by
  rw [Draft.atName, Draft.atName, h.kind]

theorem forget {nodes' : List Marks} (hknown : Marks.Known nodes' nodes) : Alike nodes' d e :=
  ⟨h.words, h.left, h.right, h.frames.forget hknown⟩

/-- Drafts that are alike follow each other. -/
theorem follows : Follows nodes d e := .inr h

/-! ### Taking tokens -/

/-- Trivia may be taken on both sides, on each as much as there is. -/
theorem skipTrivia : Alike nodes d.skipTrivia e.skipTrivia := by
  have htrivia : ∀ ts : List Token,
      ∀ t ∈ ((ts.takeWhile Token.isTrivia).map leafOf).reverse, t.isTrivia = true := by
    intro ts t ht
    obtain ⟨u, hu, rfl⟩ := List.mem_map.1 (List.mem_reverse.1 ht)
    exact (List.all_eq_true.1 List.all_takeWhile) u hu
  have hahead : ∀ d : Draft, d.Ahead →
      ((d.rest.takeWhile Token.isTrivia).map leafOf).reverse = [] := by
    intro d hd
    cases hrest : d.rest with
    | nil => rfl
    | cons t ts =>
        have ht : t.isTrivia = false := hd t (by rw [hrest]; rfl)
        simp [ht]
  exact ⟨by rw [words_skipTrivia, words_skipTrivia, h.words], h.left, h.right,
    (h.frames.trivia (htrivia _) (htrivia _) (hahead d) (hahead e)).imp
      (fun _ => ahead_skipTrivia) fun _ => ahead_skipTrivia⟩

/-- Tokens that are alike are taken as leaves that are alike. -/
theorem take (hd : d.Ahead) (he : e.Ahead) {f : TokenKind → TokenKind}
    (hf : ∀ k, k.isTrivia = false → (f k).isTrivia = false) :
    Alike nodes (d.take fun t => .leaf (f t.kind) t.text)
      (e.take fun t => .leaf (f t.kind) t.text) := by
  have hwords := h.words
  unfold Draft.words at hwords
  unfold Draft.take
  cases hrest : d.rest with
  | nil =>
      cases hrest' : e.rest with
      | nil => exact h
      | cons t ts =>
          rw [hrest, hrest', solidWords_cons (he t (by rw [hrest']; rfl))] at hwords
          cases hwords
  | cons t ts =>
      have ht : t.isTrivia = false := hd t (by rw [hrest]; rfl)
      rw [hrest, solidWords_cons ht] at hwords
      cases hrest' : e.rest with
      | nil =>
          rw [hrest'] at hwords
          cases hwords
      | cons t' ts' =>
          have ht' : t'.isTrivia = false := he t' (by rw [hrest']; rfl)
          rw [hrest', solidWords_cons ht'] at hwords
          obtain ⟨hword, hwords⟩ := List.cons.inj hwords
          obtain ⟨hkind, htext⟩ := Prod.mk.inj hword
          refine ⟨hwords, h.left, h.right, h.frames.cons (hf _ ht) (hf _ ht') ?_ trivial trivial⟩
          simp only [hkind, htext]

/-- The next token is taken on both sides. -/
theorem bump : Alike nodes d.bump e.bump :=
  h.skipTrivia.take ahead_skipTrivia ahead_skipTrivia (f := id) fun _ => id

theorem bumpAs {k : TokenKind} (hk : k.isTrivia = false) :
    Alike nodes (d.bumpAs k) (e.bumpAs k) :=
  h.skipTrivia.take ahead_skipTrivia ahead_skipTrivia (f := fun _ => k) fun _ _ => hk

/-- A token is taken on both sides or on none. -/
theorem eat (k : TokenKind) : Alike nodes (d.eat k) (e.eat k) := by
  unfold Draft.eat
  rw [h.isAt]
  split
  · exact h.bump
  · exact h

theorem eatName : Alike nodes d.eatName e.eatName := by
  unfold Draft.eatName
  rw [h.atName]
  split
  · exact h.bumpAs rfl
  · exact h

/-- Where an expected token is missing both drafts are faulty. -/
theorem expect (k : TokenKind) : Follows nodes (d.expect k) (e.expect k) := by
  unfold Draft.expect
  rw [h.isAt]
  split
  · exact .inr h.bump
  · exact .inl (faulty_fault _)

theorem expectName : Follows nodes d.expectName e.expectName := by
  unfold Draft.expectName
  rw [h.atName]
  split
  · exact .inr (h.bumpAs rfl)
  · exact .inl (faulty_fault _)

/-! ### Nodes -/

/-- A node is opened on both sides, and nothing in it is marked yet. -/
theorem openNode (k : NodeKind) : Alike (Marks.none :: nodes) (d.openNode k) (e.openNode k) := by
  have hd := h.skipTrivia
  exact ⟨hd.words, hd.left, hd.right, (hd.frames.imp (fun _ => trivial) fun _ => trivial).opened k
    ahead_skipTrivia ahead_skipTrivia⟩

end

/-- In front of what is no trivia a pair of marks may be taken. -/
theorem marked (h : Alike (marks :: nodes) d e) (hd : d.Ahead) (he : e.Ahead) :
    Alike (marks.add d.mark e.mark :: nodes) d e :=
  ⟨h.words, h.left, h.right, h.frames.marked hd he⟩

/-- No mark is lost when a node is cut where it ends now. -/
theorem known_marked (h : Alike (marks :: nodes) d e) :
    Marks.Known (marks :: nodes) ((marks.add d.mark e.mark).upTo d.mark e.mark :: nodes) :=
  .cons (fun _ _ hm => ⟨.inl hm, h.frames.upTo_ends hm⟩) (Marks.Known.refl nodes)

/-- A node that takes in earlier children is opened behind marks that belong together. -/
theorem openAt (h : Alike (marks :: nodes) d e) {m m' : Nat} (hm : marks m m') (k : NodeKind) :
    Alike (Marks.none :: marks.upTo m m' :: nodes) (d.openAt m k) (e.openAt m' k) :=
  ⟨h.words, h.left, h.right, h.frames.cut hm k⟩

/-- The innermost nodes are closed on both sides. -/
theorem close (h : Alike (marks :: nodes) d e) : Alike nodes d.close e.close := by
  obtain ⟨hwords, hleft, hright, hframes⟩ := h
  unfold Draft.close
  -- A node is open around the innermost one in both readings.
  match houter : d.outer, houter' : e.outer, hframes with
  | _ :: _, _ :: _, hframes => exact ⟨hwords, hleft, hright, hframes.closed⟩

/-! ### Skipping -/

/-- Tokens of a kind are taken on both sides. -/
theorem bumpWhile (h : Alike nodes d e) (p : TokenKind → Bool) :
    Alike nodes (d.bumpWhile p) (e.bumpWhile p) := by
  fun_induction Draft.bumpWhile p d generalizing e with
  | case1 d hmore ih =>
      have he : e.bumpWhile p = e.bump.bumpWhile p := by
        rw [Draft.bumpWhile, dif_pos (by rwa [h.atEnd, h.kind])]
      rw [he]
      exact ih h.bump
  | case2 d hdone =>
      rw [Draft.bumpWhile, dif_neg (by rwa [h.atEnd, h.kind])]
      exact h

theorem skipTo (h : Alike nodes d e) (stops : List TokenKind) :
    Alike nodes (d.skipTo stops) (e.skipTo stops) :=
  h.bumpWhile _

/-- Brackets are skipped on both sides, and where they do not close both drafts are faulty. -/
theorem bumpBalanced (h : Alike nodes d e) (opening closing : TokenKind) (depth : Nat) :
    Follows nodes (d.bumpBalanced opening closing depth)
      (e.bumpBalanced opening closing depth) := by
  fun_induction Draft.bumpBalanced opening closing depth d generalizing e with
  | case1 depth d hmore hkind ih =>
      rw [Draft.bumpBalanced.eq_def _ _ _ e, h.atEnd, h.kind, dif_pos hmore, if_pos hkind]
      exact ih h.bump
  | case2 depth d hmore hopening hkind hdepth =>
      rw [Draft.bumpBalanced.eq_def _ _ _ e, h.atEnd, h.kind, dif_pos hmore, if_neg hopening,
        if_pos hkind, if_pos hdepth]
      exact .inr h.bump
  | case3 depth d hmore hopening hkind hdepth ih =>
      rw [Draft.bumpBalanced.eq_def _ _ _ e, h.atEnd, h.kind, dif_pos hmore, if_neg hopening,
        if_pos hkind, if_neg hdepth]
      exact ih h.bump
  | case4 depth d hmore hopening hkind ih =>
      rw [Draft.bumpBalanced.eq_def _ _ _ e, h.atEnd, h.kind, dif_pos hmore, if_neg hopening,
        if_neg hkind]
      exact ih h.bump
  | case5 => exact .inl (faulty_fault _)

end Alike

/-! ### Unless there is a fault -/

namespace Follows

variable {d e : Draft} {nodes : List Marks} {marks : Marks}

/-- Drafts that follow each other do so when a node is closed. -/
theorem close (h : Follows (marks :: nodes) d e) : Follows nodes d.close e.close :=
  h.imp faulty_close.2 Alike.close

theorem expect (h : Follows nodes d e) (k : TokenKind) :
    Follows nodes (d.expect k) (e.expect k) :=
  h.elim (fun hfaulty => .inl (hfaulty.expect k)) (·.expect k)

theorem expectName (h : Follows nodes d e) : Follows nodes d.expectName e.expectName :=
  h.elim (fun hfaulty => .inl hfaulty.expectName) Alike.expectName

end Follows

end Draft

/-! ## Goals -/

namespace Goal

/-- The mark that a goal has. -/
def mark? : Goal → Option Nat
  | arraySuffix mark | operators mark _ | suffixes mark _ | indexMiddle mark | indexEnd mark _ =>
    some mark
  | _ => none

/-- The goal with another mark, if it has one. -/
def withMark (mark : Nat) : Goal → Goal
  | arraySuffix _ => arraySuffix mark
  | operators _ min => operators mark min
  | suffixes _ last => suffixes mark last
  | indexMiddle _ => indexMiddle mark
  | indexEnd _ k => indexEnd mark k
  | g => g

/-- Two goals that may be pursued side by side with certain marks known in the open nodes; `after`
holds of those that are known afterwards. Directly in the root only the members of a file are
pursued. Goals with marks that go together forget the marks behind these. -/
def LeadsAlike (after : List Marks → Prop) (g g' : Goal) : List Marks → Prop
  | [] => g = .items ∧ g' = .items ∧ after []
  | marks :: nodes =>
    match g.mark? with
    | none => g' = g ∧ after (if g.closes then nodes else marks :: nodes)
    | some m => ∃ m', marks m m' ∧ g' = g.withMark m' ∧ after (marks.upTo m m' :: nodes)

/-- Two rows of goals that may be pursued side by side. -/
def LeadAllAlike (after : List Marks → Prop) : List Goal → List Goal → List Marks → Prop
  | [], [], nodes => after nodes
  | g :: gs, g' :: gs', nodes => g.LeadsAlike (LeadAllAlike after gs gs') g' nodes
  | _, _, _ => False

/-- What holds if certain marks are known also holds if more of them are. -/
def Lasting (after : List Marks → Prop) : Prop :=
  ∀ ⦃nodes now : List Marks⦄, Marks.Known nodes now → after nodes → after now

variable {after after' : List Marks → Prop} {g g' : Goal} {gs gs' : List Goal}
  {nodes now : List Marks}

/-- What is known of marks lasts while more becomes known. -/
theorem lasting_known (nodes : List Marks) : Lasting (Marks.Known nodes) :=
  fun _ _ h h' => h'.trans h

theorem LeadsAlike.mono (h : g.LeadsAlike after g' nodes) (hafter : ∀ nodes, after nodes → after' nodes) :
    g.LeadsAlike after' g' nodes := by
  cases nodes with
  | nil => exact ⟨h.1, h.2.1, hafter _ h.2.2⟩
  | cons marks nodes =>
      cases hmark : g.mark? with
      | none =>
          simp only [LeadsAlike, hmark] at h ⊢
          exact ⟨h.1, hafter _ h.2⟩
      | some m =>
          simp only [LeadsAlike, hmark] at h ⊢
          obtain ⟨m', hm, hg, h⟩ := h
          exact ⟨m', hm, hg, hafter _ h⟩

/-- A goal leads on from every place where as much is known. -/
theorem LeadsAlike.known (h : g.LeadsAlike after g' nodes) (hlasting : Lasting after)
    (hknown : Marks.Known nodes now) : g.LeadsAlike after g' now := by
  cases hknown with
  | nil => exact h
  | @cons marks marks' nodes now hm hknown =>
      cases hmark : g.mark? with
      | none =>
          simp only [LeadsAlike, hmark] at h ⊢
          refine ⟨h.1, hlasting ?_ h.2⟩
          split
          · exact hknown
          · exact .cons hm hknown
      | some m =>
          simp only [LeadsAlike, hmark] at h ⊢
          obtain ⟨m', hR, hg, h⟩ := h
          exact ⟨m', hm _ _ hR, hg, hlasting (Marks.Known.upTo (.cons hm hknown) m m') h⟩

theorem LeadAllAlike.mono (h : LeadAllAlike after gs gs' nodes)
    (hafter : ∀ nodes, after nodes → after' nodes) : LeadAllAlike after' gs gs' nodes := by
  induction gs generalizing gs' nodes with
  | nil =>
      cases gs' with
      | nil => exact hafter _ h
      | cons g' gs' => exact h.elim
  | cons g gs ih =>
      cases gs' with
      | nil => exact h.elim
      | cons g' gs' => exact LeadsAlike.mono h fun _ h => ih h

theorem lasting_leadAllAlike (hlasting : Lasting after) (gs gs' : List Goal) :
    Lasting (LeadAllAlike after gs gs') := by
  intro nodes now hknown h
  induction gs generalizing gs' nodes now with
  | nil =>
      cases gs' with
      | nil => exact hlasting hknown h
      | cons g' gs' => exact h.elim
  | cons g gs ih =>
      cases gs' with
      | nil => exact h.elim
      | cons g' gs' => exact LeadsAlike.known h (fun _ _ hknown h => ih gs' hknown h) hknown

/-- Rows of goals are pursued one after the other. -/
theorem LeadAllAlike.append {hs hs' : List Goal}
    (h : LeadAllAlike (LeadAllAlike after hs hs') gs gs' nodes) :
    LeadAllAlike after (gs ++ hs) (gs' ++ hs') nodes := by
  induction gs generalizing gs' nodes with
  | nil =>
      cases gs' with
      | nil => exact h
      | cons g' gs' => exact h.elim
  | cons g gs ih =>
      cases gs' with
      | nil => exact h.elim
      | cons g' gs' => exact LeadsAlike.mono h fun _ h => ih h

end Goal

namespace Pursuit

variable {d e : Draft} {p q : Pursuit} {nodes nodes' now : List Marks} {gs gs' : List Goal}

/-- A fault has been noted, or the drafts are alike and the goals go together. When these have been
pursued, at least the marks `nodes` are known. -/
def Alike (nodes : List Marks) (p q : Pursuit) : Prop :=
  p.1.Faulty ∨
    ∃ now, Draft.Alike now p.1 q.1 ∧ Goal.LeadAllAlike (Marks.Known nodes) p.2 q.2 now

namespace Alike

/-- Drafts that follow each other, with goals that lead on alike, are pursued alike. -/
theorem of (h : Draft.Follows now d e) (hgs : Goal.LeadAllAlike (Marks.Known nodes) gs gs' now) :
    Alike nodes (d, gs) (e, gs') :=
  h.imp id fun halike => ⟨now, halike, hgs⟩

/-- Drafts in which nothing is left to be pursued. -/
theorem done (h : Draft.Follows nodes d e) : Alike nodes (d, []) (e, []) :=
  .of h (.refl nodes)

/-- What is pursued alike ends alike, or in a fault. -/
theorem leads (h : Alike nodes p q) {after : List Marks → Prop} (hlasting : Goal.Lasting after)
    (hafter : after nodes) :
    p.1.Faulty ∨ ∃ now, Draft.Alike now p.1 q.1 ∧ Goal.LeadAllAlike after p.2 q.2 now :=
  h.imp id fun ⟨now, halike, hgs⟩ => ⟨now, halike, hgs.mono fun _ hknown => hlasting hknown hafter⟩

/-- Goals that lead on alike may be put behind. -/
theorem andThen (h : Alike nodes p q)
    (hgs : Goal.LeadAllAlike (Marks.Known nodes') gs gs' nodes) :
    Alike nodes' (p.andThen gs) (q.andThen gs') :=
  (h.leads (Goal.lasting_leadAllAlike (Goal.lasting_known nodes') gs gs') hgs).imp id
    fun ⟨now, halike, hgs⟩ => ⟨now, halike, hgs.append⟩

end Alike

end Pursuit

end SolidityAtlas
