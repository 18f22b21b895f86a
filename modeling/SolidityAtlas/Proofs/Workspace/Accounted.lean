import SolidityAtlas.Proofs.Symbol.Accounted
import SolidityAtlas.Proofs.Workspace.BackLinks

/-!
# The pending uses of a workspace

In every tree of a workspace each use is either pending or linked, and the pending uses
are in the order of the text. The first holds of a text from the moment it has been read.
The second does not: while a tree grows, a use becomes pending when its turn comes, and an
access comes behind the expression in front of its dot. It is when the links of a file are
taken back that its pending uses are put in order, and this happens to every tree once
when it is installed. Links made later only take uses away.

## Main Definitions

* `Snapshot.Accounted`: no use of any tree is lost, and pending uses are in order

## Main Results

* `Workspace.inOrder_replace`: what another tree for a file keeps
* `Session.accounted_callAll`: every tree that can be seen, and every text that is read
-/

namespace SolidityAtlas

/-- All nodes have their records, and the pending uses are in the order of the text. -/
structure SymbolTree.InOrder (t : SymbolTree) : Prop where
  accounted : t.AccountedBut fun _ => False
  ascending : t.pending.Pairwise (· < ·)

namespace SymbolTree

variable {t : SymbolTree}

/-- Uses whose links are taken back are put in order with the others. -/
theorem AccountedBut.inOrder_unlinkExternal (h : t.AccountedBut fun _ => False) :
    t.unlinkExternal.InOrder :=
  ⟨h.unlinkExternal, t.pairwise_pending_unlinkExternal h.nodup⟩

namespace InOrder

variable (h : t.InOrder)

include h

theorem dropReferencesFrom (file : FileId) : (t.dropReferencesFrom file).InOrder :=
  ⟨h.accounted.dropReferencesFrom file, h.ascending⟩

theorem addReference (declaration : NodeId) (usage : Handle) :
    (t.addReference declaration usage).InOrder :=
  ⟨h.accounted.addReference declaration usage, h.ascending⟩

/-- A pending use that is linked into another file leaves a tree in order. -/
theorem linkExternal {u : NodeId} (hu : u ∈ t.pending) (d : Handle) : (t.linkExternal u d).InOrder :=
  ⟨h.accounted.linkExternal hu d, h.ascending.sublist List.erase_sublist⟩

end InOrder

end SymbolTree

namespace Snapshot

variable {s : Snapshot}

/-- In every tree of a snapshot each node has the record of what it is, uses are pending or linked,
and the pending ones are in the order of the text. -/
def Accounted (s : Snapshot) : Prop :=
  ∀ file t, s.tree? file = some t → t.Accounted ∧ t.pending.Pairwise (· < ·)

/-- The trees of a snapshot, each in order. -/
def InOrder (s : Snapshot) : Prop :=
  ∀ file t, s.tree? file = some t → t.InOrder

/-- What a change of one tree keeps. -/
theorem InOrder.modifyTree (h : s.InOrder) {file : FileId} {f : SymbolTree → SymbolTree}
    (hf : ∀ t, s.tree? file = some t → (f t).InOrder) : (s.modifyTree file f).InOrder := by
  intro other t ht
  rw [tree?_modifyTree] at ht
  split at ht
  · obtain ⟨t', ht', rfl⟩ := Option.map_eq_some_iff.1 ht
    exact hf t' ht'
  · exact h other t ht

/-- Every link leaves the trees in order. -/
theorem InOrder.addLink (h : s.InOrder) {file : FileId} {t : SymbolTree} {u : NodeId}
    (ht : s.tree? file = some t) (hu : u ∈ t.pending) (d : Handle) : (s.addLink file (u, d)).InOrder := by
  have hlinked : (s.modifyTree file (·.linkExternal u d)).InOrder := h.modifyTree fun t' ht' => by
    obtain rfl : t = t' := Option.some.inj (ht.symm.trans ht')
    exact (h file t ht).linkExternal hu d
  simp only [Snapshot.addLink, ht]
  split
  · exact hlinked.modifyTree fun t' ht' => (hlinked _ t' ht').addReference _ _
  · exact hlinked

/-- Linking a file leaves the trees in order. -/
theorem InOrder.linkFile (h : s.InOrder) (maxDepth : Nat) (file : FileId) :
    (s.linkFile maxDepth file).1.InOrder :=
  linkFile_induction (P := InOrder) (Q := fun _ => True)
    (fun _ t h ht => (h file t ht).accounted.nodup) (fun _ _ _ _ _ => trivial)
    (fun _ _ _ d h ht hu _ => h.addLink ht hu d) h

theorem InOrder.linkAll (h : s.InOrder) (maxDepth : Nat) (files : List FileId) :
    (Workspace.linkAll maxDepth files s).InOrder := by
  induction files generalizing s with
  | nil => exact h
  | cons file files ih => exact ih (h.linkFile maxDepth file)

/-- Taking back the links of a file puts its own tree in order, whatever it was. -/
theorem inOrder_unlinkIn {file : FileId} (hothers : ∀ other t, other ≠ file →
    s.tree? other = some t → t.InOrder) (hfile : ∀ t, s.tree? file = some t →
      t.AccountedBut fun _ => False) (g : LinkGraph) : (g.unlinkIn file s).InOrder := by
  intro other t ht
  rw [tree?_unlinkIn] at ht
  obtain ⟨t', ht', rfl⟩ := Option.map_eq_some_iff.1 ht
  have hunlinked : (if other = file then t'.unlinkExternal else t').InOrder := by
    split
    · rename_i heq
      exact (hfile t' (heq ▸ ht')).inOrder_unlinkExternal
    · rename_i hne
      exact hothers other t' hne ht'
  simp only
  split
  · exact hunlinked.dropReferencesFrom file
  · exact hunlinked

/-- Detaching files leaves the trees in order. -/
theorem InOrder.detachAll (h : s.InOrder) (g : LinkGraph) (files : List FileId) :
    (g.detachAll files s).2.InOrder := by
  induction files generalizing g s with
  | nil => exact h
  | cons file files ih =>
      rw [LinkGraph.detachAll_cons]
      exact ih (inOrder_unlinkIn (fun other t _ ht => h other t ht)
        (fun t ht => (h file t ht).accounted) g) _

end Snapshot

/-- What another tree for a file keeps. -/
theorem Workspace.inOrder_replace {w : Workspace} (h : w.snapshot.InOrder) {file : FileId}
    {tree : Option SymbolTree}
    (htree : ∀ t, tree = some t → t.AccountedBut (fun _ => False) ∧ t.file = file) :
    (w.replace file tree).snapshot.InOrder := by
  have hswapped := tree?_swapped (w := w) fun t ht => (htree t ht).2
  rw [snapshot_replace, relinked, detached, LinkGraph.detachAll_cons]
  refine ((Snapshot.inOrder_unlinkIn (fun other t hne ht => ?_) (fun t ht => ?_) _).detachAll _
    _).linkAll _ _
  · rw [hswapped, if_neg hne] at ht
    exact h other t ht
  · rw [hswapped, if_pos rfl] at ht
    exact (htree t ht).1

namespace Session

/-- The trees of a session are in order, and what has been read has its records. -/
structure InOrder (s : Session) : Prop where
  snapshot : s.snapshot.InOrder
  prepared : ∀ p ∈ s.prepared, p.tree.AccountedBut (fun _ => False) ∧ p.tree.file = p.file

variable {s : Session}

/-- Every step leaves the trees in order. -/
theorem InOrder.step (h : s.InOrder) (a : Step) : (s.step a).InOrder := by
  refine ⟨?_, fun p hp => ?_⟩
  · rcases s.step_cases a with ⟨-, htrees, -⟩ |
      ⟨w, file, tree, heq, -, hsnapshot, htree, -⟩
    · intro file t ht
      rw [Snapshot.tree?, htrees] at ht
      exact h.snapshot file t ht
    · rw [Session.snapshot, heq]
      refine Workspace.inOrder_replace (by rw [hsnapshot]; exact h.snapshot) fun t ht => ?_
      obtain ⟨k, p, -, hp, rfl, rfl⟩ := htree t ht
      exact h.prepared p (List.mem_of_getElem? hp)
  · rcases s.mem_prepared_step hp with hp | ⟨path, text, -, rfl⟩
    · exact h.prepared p hp
    · exact ⟨SymbolTree.accountedBut_grow _ _ _ _ _, (SymbolTree.label_grow _ _ _ _ _).1⟩

/-- Steps in a row leave the trees in order. -/
theorem InOrder.run (h : s.InOrder) (steps : List Step) : (s.run steps).InOrder := by
  induction steps generalizing s with
  | nil => exact h
  | cons a steps ih => exact ih (h.step a)

/-- At the start there are no trees. -/
theorem inOrder_start (config : Config) : (start config).InOrder :=
  ⟨fun _ _ ht => (nomatch ht), fun _ hp => absurd hp List.not_mem_nil⟩

/-- Whatever calls are made, no use of an installed tree is lost. Neither is one of a text that has
just been read, though its pending uses need not be in order. -/
theorem accounted_callAll (config : Config) (calls : List Call) :
    ((start config).callAll calls).snapshot.Accounted ∧ ∀ maxDepth file generation m tree,
      (SymbolTree.grow maxDepth file generation m tree).Accounted := by
  refine ⟨fun file t ht => ?_, fun maxDepth file generation m tree =>
    (SymbolTree.accountedBut_grow maxDepth file generation m tree).accounted⟩
  rw [callAll_eq_run] at ht
  have horder := ((inOrder_start config).run _).snapshot file t ht
  exact ⟨horder.accounted.accounted, horder.ascending⟩

end Session

end SolidityAtlas
