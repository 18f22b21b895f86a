import SolidityAtlas.Proofs.Workspace.LatestRequest

/-!
# The files that link into a file

Which file links into which is kept three times: in the trees, by the declarations that their
uses have, in a table of the files that a file links into, and in a table of the files that
link into a file. While a tree is replaced the three differ, because the files that link into
the old tree are forgotten first, then the links are taken back from one file after the other,
and last the links that have been found anew are noted (`LinkGraph.Notes`). But no client sees
a workspace in the middle of a replacement, and at all other times the three say the same.

So the files that are linked again when a tree is replaced are the ones that link into it. None
is missed, and none is linked again that has lost its last link.

## Main Definitions

* `Workspace.LinksMatch`: the two tables say what the trees say

## Main Results

* `Workspace.linksMatch_run`
-/

namespace SolidityAtlas

namespace Workspace

/-- The two tables of links say what the trees say, and the dependents of a file are the other
installed files that have a use which is linked into it, in ascending order. -/
structure LinksMatch (w : Workspace) : Prop where
  sources : ∀ source target, source ∈ w.links.sources target ↔ target ∈ w.links.targets source
  targets : ∀ source target, target ∈ w.links.targets source ↔
    target ≠ source ∧ ∃ t, w.snapshot.tree? source = some t ∧
      ∃ id x d, t.symbol? id = some x ∧ x.declaration = some d ∧ d.file = target
  dependents : ∀ source target, source ∈ w.links.dependents target ↔
    source ≠ target ∧ ∃ t, w.snapshot.tree? source = some t ∧
      ∃ id x d, t.symbol? id = some x ∧ x.declaration = some d ∧ d.file = target
  ascending : ∀ target, (w.links.dependents target).Pairwise (· < ·)

/-- What the tables list are the links of the trees. -/
theorem Sound.linksMatch {w : Workspace} (h : w.Sound) : w.LinksMatch := by
  have hlinks : ∀ source target, w.snapshot.LinksInto source target ↔
      target ≠ source ∧ ∃ t, w.snapshot.tree? source = some t ∧
        ∃ id x d, t.symbol? id = some x ∧ x.declaration = some d ∧ d.file = target := by
    intro source target
    constructor
    · rintro ⟨t, ht, hne, hlink⟩
      rw [h.snapshot.home source t ht] at hne
      exact ⟨hne, t, ht, hlink⟩
    · rintro ⟨hne, t, ht, hlink⟩
      rw [← h.snapshot.home source t ht] at hne
      exact ⟨t, ht, hne, hlink⟩
  refine ⟨fun source target => ?_, fun source target => ?_, fun source target => ?_,
    h.links.pairwise_dependents⟩
  · rw [h.links.sources, h.links.targets]
  · rw [h.links.targets, hlinks]
  · rw [h.links.mem_dependents_iff, hlinks, ne_comm (a := target), and_self_left]

/-- Whatever many clients do at the same time, and whatever calls are made one after the other:
whenever somebody can look at the workspace, its tables of links say what its trees say. -/
theorem linksMatch_run (config : Config) :
    (∀ moves, ((Traffic.start config).run moves).workspace.LinksMatch) ∧
      ∀ calls, ((Session.start config).callAll calls).workspace.LinksMatch :=
  ⟨fun moves => (Traffic.ordered_shown_run config moves).2.sound.linksMatch,
    fun calls => (Session.sound_callAll config calls).workspace.linksMatch⟩

end Workspace

end SolidityAtlas
