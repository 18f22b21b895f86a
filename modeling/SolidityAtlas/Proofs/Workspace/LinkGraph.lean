import SolidityAtlas.Proofs.Symbol.LinkEnds
import SolidityAtlas.Workspace.LinkGraph

/-!
# The graph of links between files

A link graph is kept in two tables, the files that a file links into and the files
that link into a file. What the two tables say is compared here with two relations
between files (`LinkGraph.Notes`), one for each table, because in the middle of a
change they differ: whoever links into the changed file is forgotten first, and the
links themselves are taken back later.

## Main Definitions

* `SymbolTree.LinksTo`: a tree has a use that is linked into another file
* `LinkGraph.Notes`: what the two tables of a link graph say

## Main Results

* `LinkGraph.Notes.forget`, `LinkGraph.Notes.forgetDependents`: fewer links
* `LinkGraph.Notes.recordFile`: the links of one file found anew
-/

namespace SolidityAtlas

/-! ## The files that a tree links into -/

/-- A tree has a use that is linked into another file. -/
def SymbolTree.LinksTo (t : SymbolTree) (file : FileId) : Prop :=
  file ≠ t.file ∧ ∃ id s d, t.symbol? id = some s ∧ s.declaration = some d ∧ d.file = file

/-- A tree lists the other files that its uses are linked into. -/
theorem SymbolTree.mem_linkedFiles {t : SymbolTree} {file : FileId} :
    file ∈ t.linkedFiles ↔ t.LinksTo file := by
  simp only [linkedFiles, List.mem_eraseDups, mem_ascending, List.mem_filter, bne_iff_ne,
    List.mem_filterMap, LinksTo]
  constructor
  · rintro ⟨⟨s, hs, hd⟩, hne⟩
    obtain ⟨d, hsd, rfl⟩ := Option.map_eq_some_iff.1 hd
    obtain ⟨id, hid, rfl⟩ := List.getElem_of_mem hs
    refine ⟨hne, id, _, d, ?_, hsd, rfl⟩
    rw [symbol?, ← Array.getElem?_toList, List.getElem?_eq_getElem hid]
  · rintro ⟨hne, id, s, d, hs, hd, rfl⟩
    refine ⟨⟨s, ?_, by rw [hd]; rfl⟩, hne⟩
    rw [symbol?, ← Array.getElem?_toList] at hs
    exact List.mem_of_getElem? hs

namespace LinkGraph

variable {g : LinkGraph} {L M : FileId → FileId → Prop}

/-- What the two tables of a link graph say: `L` is who links into whom by the first one, `M` by
the second one. -/
structure Notes (L M : FileId → FileId → Prop) (g : LinkGraph) : Prop where
  targets : ∀ source target, target ∈ g.targets source ↔ L source target
  sources : ∀ source target, source ∈ g.sources target ↔ M source target
  nodup : ∀ target, (g.sources target).Nodup

theorem notes_empty : Notes (fun _ _ => False) (fun _ _ => False) empty :=
  ⟨fun _ _ => by simp [empty, LinkGraph.targets],
    fun _ _ => by simp [empty, LinkGraph.sources], fun _ => by simp [empty, LinkGraph.sources]⟩

/-- What is noted of links is noted of every relation that says the same. -/
theorem Notes.congr {L' M' : FileId → FileId → Prop} (h : g.Notes L M)
    (hL : ∀ source target, L source target ↔ L' source target)
    (hM : ∀ source target, M source target ↔ M' source target) : g.Notes L' M' :=
  ⟨fun source target => (h.targets source target).trans (hL source target),
    fun source target => (h.sources source target).trans (hM source target), h.nodup⟩

/-- The dependents of a file are the other files with links into it. -/
theorem Notes.mem_dependents_iff (h : g.Notes L M) {source target : FileId} :
    source ∈ g.dependents target ↔ source ≠ target ∧ M source target := by
  rw [dependents, mem_ascending, List.mem_filter, bne_iff_ne, h.sources, and_comm]

/-- Dependents are listed in ascending order. -/
theorem Notes.pairwise_dependents (h : g.Notes L M) (target : FileId) :
    (g.dependents target).Pairwise (· < ·) :=
  pairwise_lt_ascending ((h.nodup target).filter _)

/-! ## Fewer links -/

/-- A file whose dependents are forgotten has none noted. -/
theorem Notes.forgetDependents (h : g.Notes L M) (file : FileId) :
    (g.forgetDependents file).Notes L fun source target => target ≠ file ∧ M source target := by
  have hsources : ∀ target, (g.forgetDependents file).sources target =
      if target = file then [] else g.sources target := by
    intro target
    simp only [LinkGraph.sources, LinkGraph.forgetDependents, FileMap.get?_erase]
    split <;> rfl
  refine ⟨h.targets, fun source target => ?_, fun target => ?_⟩
  · rw [hsources]
    split
    · rename_i heq
      simp [heq]
    · rename_i hne
      simp [hne, h.sources]
  · rw [hsources]
    split
    · exact List.nodup_nil
    · exact h.nodup target

theorem targets_forget (g : LinkGraph) (file source : FileId) :
    (g.forget file).targets source = if source = file then [] else g.targets source := by
  simp only [LinkGraph.targets, forget, FileMap.get?_erase]
  split <;> rfl

/-- A file that is struck off some rows is in the others still. -/
theorem mem_getD_foldl_erase (file : FileId) (targets : List FileId) (m : FileMap (List FileId))
    (hm : ∀ target, ((m.get? target).getD []).Nodup) (target : FileId) :
    let m' := targets.foldl (fun m target => m.modify target (·.erase file)) m
    ((m'.get? target).getD []).Nodup ∧
      ∀ source, source ∈ (m'.get? target).getD [] ↔
        source ∈ (m.get? target).getD [] ∧ ¬ (source = file ∧ target ∈ targets) := by
  induction targets generalizing m with
  | nil => exact ⟨hm target, fun source => by simp⟩
  | cons first targets ih =>
      have hget : ∀ other, ((m.modify first (·.erase file)).get? other).getD [] =
          if other = first then ((m.get? first).getD []).erase file else (m.get? other).getD [] := by
        intro other
        rw [FileMap.get?_modify]
        split
        · cases m.get? first <;> rfl
        · rfl
      obtain ⟨hnodup, hmem⟩ := ih (m.modify first (·.erase file)) fun other => by
        rw [hget]
        split
        · exact (hm first).erase file
        · exact hm other
      refine ⟨hnodup, fun source => ?_⟩
      rw [List.foldl_cons, hmem, hget, List.mem_cons]
      by_cases heq : target = first
      · rw [if_pos heq, (hm first).mem_erase_iff, heq]
        simp only [true_or, and_true]
        constructor
        · exact fun h => ⟨h.1.2, h.1.1⟩
        · exact fun h => ⟨⟨h.2, h.1⟩, fun hsource => h.2 hsource.1⟩
      · rw [if_neg heq]
        simp [heq]

/-- A file that is forgotten has no links noted. -/
theorem Notes.forget (h : g.Notes L M) (hsub : ∀ source target, M source target → L source target)
    (file : FileId) :
    (g.forget file).Notes (fun source target => source ≠ file ∧ L source target)
      fun source target => source ≠ file ∧ M source target := by
  have hfold := mem_getD_foldl_erase file (g.targets file) g.incoming h.nodup
  refine ⟨fun source target => ?_, fun source target => ?_, fun target => (hfold target).1⟩
  · rw [targets_forget]
    split
    · rename_i heq
      simp [heq]
    · rename_i hne
      simp [hne, h.targets]
  · have hmem : source ∈ (g.forget file).sources target ↔
        source ∈ g.sources target ∧ ¬ (source = file ∧ target ∈ g.targets file) :=
      (hfold target).2 source
    rw [hmem, h.sources, h.targets]
    constructor
    · rintro ⟨hM, hnot⟩
      exact ⟨fun heq => hnot ⟨heq, heq ▸ hsub source target hM⟩, hM⟩
    · rintro ⟨hne, hM⟩
      exact ⟨hM, fun heq => hne heq.1⟩

/-! ## The links of a file found anew -/

/-- The targets of a file have it noted as a source. -/
theorem Notes.addSources (h : g.Notes L M) (file : FileId) (targets : List FileId) :
    (targets.foldl (·.addSource · file) g).Notes L fun source target =>
      M source target ∨ source = file ∧ target ∈ targets := by
  induction targets generalizing g M with
  | nil => exact h.congr (fun _ _ => Iff.rfl) fun _ _ => by simp
  | cons first targets ih =>
      have hsources : ∀ target, (g.addSource first file).sources target =
          if target = first then appendNew (g.sources first) file else g.sources target := by
        intro target
        simp only [LinkGraph.sources, addSource, FileMap.get?_insert]
        split <;> rfl
      have hadd : (g.addSource first file).Notes L fun source target =>
          M source target ∨ source = file ∧ target = first := by
        refine ⟨h.targets, fun source target => ?_, fun target => ?_⟩
        · rw [hsources]
          split
          · rename_i heq
            simp [heq, h.sources]
          · rename_i hne
            simp [hne, h.sources]
        · rw [hsources]
          split
          · exact nodup_appendNew file (h.nodup first)
          · exact h.nodup target
      refine (ih hadd).congr (fun _ _ => Iff.rfl) fun source target => ?_
      rw [List.mem_cons, or_assoc, ← and_or_left]

/-- The graph says of a file what its tree says, and of the others what it said before. -/
theorem Notes.recordFile (h : g.Notes L M)
    (hsub : ∀ source target, M source target → L source target) (s : Snapshot) (file : FileId)
    (links : FileId → Prop)
    (hlinks : ∀ target, links target ↔ ∃ t, s.tree? file = some t ∧ t.LinksTo target) :
    (g.recordFile s file).Notes
      (fun source target => source = file ∧ links target ∨ source ≠ file ∧ L source target)
      fun source target => source = file ∧ links target ∨ source ≠ file ∧ M source target := by
  have hforget := h.forget hsub file
  unfold LinkGraph.recordFile
  cases ht : s.tree? file with
  | none =>
      have hnone : ∀ target, ¬ links target := fun target htarget => by
        obtain ⟨t, ht', -⟩ := (hlinks target).1 htarget
        rw [ht] at ht'
        cases ht'
      exact hforget.congr (fun _ _ => by simp [hnone]) fun _ _ => by simp [hnone]
  | some t =>
      have hmem : ∀ target, target ∈ t.linkedFiles ↔ links target := fun target => by
        rw [hlinks, SymbolTree.mem_linkedFiles, ht]
        simp
      have hsources := hforget.addSources file t.linkedFiles
      have hnotes : ∀ g' : LinkGraph, g'.incoming = (t.linkedFiles.foldl (·.addSource · file)
            (g.forget file)).incoming →
          (∀ source target, target ∈ g'.targets source ↔
            source = file ∧ links target ∨ source ≠ file ∧ L source target) →
          g'.Notes
            (fun source target => source = file ∧ links target ∨ source ≠ file ∧ L source target)
            fun source target => source = file ∧ links target ∨ source ≠ file ∧ M source target := by
        intro g' hincoming htargets
        have heq : g'.sources = (t.linkedFiles.foldl (·.addSource · file) (g.forget file)).sources := by
          funext target
          rw [LinkGraph.sources, LinkGraph.sources, hincoming]
        refine ⟨htargets, fun source target => ?_, fun target => ?_⟩
        · rw [heq, hsources.sources, hmem, or_comm]
        · rw [heq]
          exact hsources.nodup target
      simp only
      split
      · rename_i hempty
        refine hnotes _ rfl fun source target => ?_
        have hnone : ¬ links target := by
          rw [← hmem, List.isEmpty_iff.1 hempty]
          exact List.not_mem_nil
        rw [hsources.targets]
        simp [hnone]
      · refine hnotes _ rfl fun source target => ?_
        have htargets : ∀ g₀ : LinkGraph, ({ g₀ with
            outgoing := g₀.outgoing.insert file t.linkedFiles } : LinkGraph).targets source =
            if source = file then t.linkedFiles else g₀.targets source := by
          intro g₀
          simp only [LinkGraph.targets, FileMap.get?_insert]
          split <;> rfl
        rw [htargets]
        split
        · rename_i heq
          simp [heq, hmem]
        · rename_i hne
          rw [hsources.targets]
          simp [hne]

end LinkGraph

end SolidityAtlas
