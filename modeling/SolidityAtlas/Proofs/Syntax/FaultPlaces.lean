import SolidityAtlas.Proofs.Syntax.Steps.Basic

/-!
# Where faults are

A fault is noted at the next token that is not trivia, or at the end of the text when there
is none. The next token is always one of the text, and it never stands in front of one that
was next before. So the faults of a reading are about tokens of the text, and they come in
the order of their places.

All that a step may do beside noting a fault is to leave less of the rest
(`Draft.Quiet`), which moves neither the faults nor the end of the text.

## Main Definitions

* `Fault.IsAbout`: a fault is about a token or about the end
* `Draft.Quiet`: a draft that has no more faults and no more left
* `Draft.Charted`: the faults of a draft are where they may be

## Main Results

* `Draft.Steps.charted`: steps of a reading keep drafts charted
-/

namespace SolidityAtlas

/-- The bytes that a fault is about are those of a token that is not trivia, or none at the end of
the text. -/
def Fault.IsAbout (tokens : List Token) (textEnd : Nat) (f : Fault) : Prop :=
  (∃ t ∈ tokens, t.isTrivia = false ∧ f.start = t.start ∧ f.stop = t.stop) ∨
    f.start = textEnd ∧ f.stop = textEnd

namespace Draft

variable {d e : Draft} {tokens : List Token}

/-! ## Quiet steps -/

/-- Less is left, and no fault has been noted. -/
structure Quiet (d e : Draft) : Prop where
  rest : e.rest <:+ d.rest
  faults : e.faults = d.faults
  textEnd : e.textEnd = d.textEnd

namespace Quiet

theorem refl (d : Draft) : Quiet d d :=
  ⟨List.suffix_refl _, rfl, rfl⟩

theorem trans {d₁ d₂ d₃ : Draft} (h : Quiet d₁ d₂) (h' : Quiet d₂ d₃) : Quiet d₁ d₃ :=
  ⟨h'.rest.trans h.rest, h'.faults.trans h.faults, h'.textEnd.trans h.textEnd⟩

/-- Taking trivia is quiet. -/
theorem skipTrivia (d : Draft) : Quiet d d.skipTrivia :=
  ⟨List.dropWhile_suffix _, rfl, rfl⟩

theorem take (d : Draft) (f : Token → SyntaxTree) : Quiet d (d.take f) := by
  unfold Draft.take
  split
  · exact refl d
  · rename_i t ts hrest
    exact ⟨⟨[t], hrest.symm⟩, rfl, rfl⟩

theorem skipAndTake (d : Draft) (f : Token → SyntaxTree) : Quiet d (d.skipTrivia.take f) :=
  (skipTrivia d).trans (take _ f)

theorem openNode (d : Draft) (k : NodeKind) : Quiet d (d.openNode k) :=
  ⟨List.dropWhile_suffix _, rfl, rfl⟩

theorem close (d : Draft) : Quiet d d.close := by
  unfold Draft.close
  split <;> exact ⟨List.suffix_refl _, rfl, rfl⟩

end Quiet

/-! ## The next token -/

/-- The next token is the first one that is not trivia. -/
theorem firstSolid?_eq_find? (ts : List Token) : firstSolid? ts = ts.find? (! ·.isTrivia) := by
  induction ts with
  | nil => rfl
  | cons t ts ih => by_cases h : t.isTrivia = true <;> simp [firstSolid?, h, ih]

/-- The next token comes first among the tokens that are left and are not trivia. -/
theorem start_le_of_next? {t u : Token} (hsorted : d.rest.Pairwise fun t u => t.start ≤ u.start)
    (h : d.next? = some t) (hu : u ∈ d.rest) (hsolid : u.isTrivia = false) : t.start ≤ u.start := by
  rw [next?, firstSolid?_eq_find?, List.find?_eq_some_iff_append] at h
  obtain ⟨-, front, back, hrest, hfront⟩ := h
  rw [hrest] at hu hsorted
  rcases List.mem_append.1 hu with hu | hu
  · have htrivia := hfront u hu
    rw [hsolid] at htrivia
    cases htrivia
  · rcases List.mem_cons.1 hu with rfl | hu
    · exact Nat.le_refl _
    · exact (List.pairwise_cons.1 (List.pairwise_append.1 hsorted).2.1).1 u hu

/-! ## Charted drafts -/

/-- The faults of a draft are about tokens of the text or its end, in the order of their places, and
none lies behind what is to be read next. -/
structure Charted (tokens : List Token) (textEnd : Nat) (d : Draft) : Prop where
  rest : d.rest <:+ tokens
  ends : d.textEnd = textEnd
  about : ∀ f ∈ d.faults, f.IsAbout tokens textEnd
  behind : ∀ f ∈ d.faults, f.start ≤ textEnd ∧
    ∀ t ∈ d.rest, t.isTrivia = false → f.start ≤ t.start
  sorted : d.faults.Pairwise fun f g => g.start ≤ f.start

namespace Charted

variable {textEnd : Nat}

/-- A quiet step leaves the faults where they are. -/
theorem quiet (h : d.Charted tokens textEnd) (hquiet : Quiet d e) : e.Charted tokens textEnd where
  rest := hquiet.rest.trans h.rest
  ends := hquiet.textEnd.trans h.ends
  about := by
    rw [hquiet.faults]
    exact h.about
  behind := by
    rw [hquiet.faults]
    intro f hf
    exact ⟨(h.behind f hf).1, fun t ht => (h.behind f hf).2 t (hquiet.rest.subset ht)⟩
  sorted := by
    rw [hquiet.faults]
    exact h.sorted

/-- One more fault, where no other one lies behind it. -/
theorem note (h : d.Charted tokens textEnd) {f : Fault} (habout : f.IsAbout tokens textEnd)
    (hbehind : f.start ≤ textEnd ∧ ∀ t ∈ d.rest, t.isTrivia = false → f.start ≤ t.start)
    (hlast : ∀ g ∈ d.faults, g.start ≤ f.start) :
    ({ d with faults := f :: d.faults } : Draft).Charted tokens textEnd where
  rest := h.rest
  ends := h.ends
  about := List.forall_mem_cons.2 ⟨habout, h.about⟩
  behind := List.forall_mem_cons.2 ⟨hbehind, h.behind⟩
  sorted := .cons hlast h.sorted

/-- A fault that is noted is about the next token, and so behind all others. -/
theorem fault (h : d.Charted tokens textEnd)
    (hsorted : tokens.Pairwise fun t u => t.start ≤ u.start)
    (hend : ∀ t ∈ tokens, t.start ≤ textEnd) (cause : FaultCause) :
    (d.fault cause).Charted tokens textEnd := by
  cases hnext : d.next? with
  | none =>
      have hfault : d.fault cause = { d with faults := ⟨cause, textEnd, textEnd⟩ :: d.faults } := by
        rw [Draft.fault, hnext, h.ends]
      rw [hfault]
      refine h.note (.inr ⟨rfl, rfl⟩) ⟨Nat.le_refl textEnd, fun t ht hsolid => ?_⟩
        fun g hg => (h.behind g hg).1
      rw [next?, firstSolid?_eq_find?, List.find?_eq_none] at hnext
      exact absurd (by simp [hsolid]) (hnext t ht)
  | some t =>
      have hfault : d.fault cause = { d with faults := ⟨cause, t.start, t.stop⟩ :: d.faults } := by
        rw [Draft.fault, hnext]
      obtain ⟨ht, hsolid⟩ : t ∈ d.rest ∧ t.isTrivia = false := by
        rw [next?, firstSolid?_eq_find?] at hnext
        exact ⟨List.mem_of_find?_eq_some hnext, by simpa using List.find?_some hnext⟩
      have hmem : t ∈ tokens := h.rest.subset ht
      rw [hfault]
      refine h.note (.inl ⟨t, hmem, hsolid, rfl, rfl⟩) ⟨hend t hmem, fun u hu husolid => ?_⟩
        fun g hg => (h.behind g hg).2 t ht hsolid
      exact start_le_of_next? (hsorted.sublist h.rest.sublist) hnext hu husolid

end Charted

/-- Steps of a reading keep drafts charted. -/
theorem Steps.charted {start : Draft} {nodes : List OpenNode} {textEnd : Nat}
    (hstart : start.Charted tokens textEnd)
    (hsorted : tokens.Pairwise fun t u => t.start ≤ u.start)
    (hend : ∀ t ∈ tokens, t.start ≤ textEnd) (h : Steps start nodes d) :
    d.Charted tokens textEnd := by
  induction h with
  | start => exact hstart
  | skipTrivia _ ih => exact ih.quiet (.skipTrivia _)
  | bump _ ih => exact ih.quiet (.skipAndTake _ _)
  | name _ _ ih => exact ih.quiet (.skipAndTake _ _)
  | forget _ ih => exact ih
  | fault _ cause ih => exact ih.fault hsorted hend cause
  | openNode _ k _ ih => exact ih.quiet (.openNode _ k)
  | openAt _ _ _ _ ih => exact ih.quiet ⟨List.suffix_refl _, rfl, rfl⟩
  | close _ ih => exact ih.quiet (.close _)

/-- Before a text is read there are no faults. -/
theorem charted_start (root : NodeKind) (tokens : List Token) :
    (start root tokens).Charted tokens ((tokens.getLast?.map Token.stop).getD 0) :=
  ⟨List.suffix_refl _, rfl, fun _ hf => absurd hf List.not_mem_nil,
    fun _ hf => absurd hf List.not_mem_nil, .nil⟩

end Draft

end SolidityAtlas
