import Mathlib.Data.Nat.Find
import SolidityAtlas.Proofs.Symbol.MergedOrders
import SolidityAtlas.Symbol.Growth
import SolidityAtlas.Syntax.Parse

/-!
# Chains of bases

A *chain* leads from a contract to a base of it, to a base of that, and so on. A
linearization is cut where a contract is met that is on the chain already, and where the
chain gets too long. No contract is lost by the first: a shortest chain to a contract meets
none twice. So a linearization lists the contracts that chains of a bounded length lead to
(`mem_linearize_iff`).

Where all chains are short enough nothing is cut at all. Then the linearization of a contract
is merged from those of its bases (`ChainsWithin.linearize_eq_mergeOrders`), and keeps to
them unless they are contradictory.

## Main Definitions

* `Forest.BaseChain`: a chain of bases of a certain length
* `Forest.ChainsWithin`: no chain from a contract is longer than a bound
* `Forest.baseOrders`: the orders that the bases of a contract give

## Main Results

* `Forest.linearize_lists_chains`: what a linearization lists
* `Forest.keepsTo_linearize`: in what order
-/

namespace SolidityAtlas

namespace Forest

variable {f : Forest} {m n steps maxDepth : Nat} {path : List Handle} {a b c x : Handle}

/-- A chain of `n` steps, each from a contract to one of its bases. -/
inductive BaseChain (f : Forest) : Nat → Handle → Handle → Prop
  | refl (c : Handle) : BaseChain f 0 c c
  | step {n : Nat} {a b c : Handle} (hbase : b ∈ f.bases a) (hchain : BaseChain f n b c) :
      BaseChain f (n + 1) a c

namespace BaseChain

/-- A base is a chain of one step. -/
theorem single (h : b ∈ f.bases a) : f.BaseChain 1 a b :=
  .step h (.refl b)

/-- Chains are put together. -/
theorem trans (h : f.BaseChain m a b) (h' : f.BaseChain n b c) : f.BaseChain (m + n) a c := by
  induction h with
  | refl => rwa [Nat.zero_add]
  | step hbase _ ih =>
      rw [Nat.add_right_comm]
      exact .step hbase (ih h')

/-- A chain that leads back can be gone along again. -/
theorem exists_longer (h : f.BaseChain (n + 1) c c) (bound : Nat) :
    ∃ m, bound < m ∧ f.BaseChain m c c := by
  induction bound with
  | zero => exact ⟨n + 1, Nat.succ_pos n, h⟩
  | succ bound ih =>
      obtain ⟨m, hlt, hchain⟩ := ih
      exact ⟨m + (n + 1), by omega, hchain.trans h⟩

end BaseChain

/-! ## What a linearization lists -/

/-- A linearization lists the contract itself. -/
theorem self_mem_linearizeWithin (f : Forest) (steps : Nat) (path : List Handle) (c : Handle) :
    c ∈ f.linearizeWithin steps path c := by
  obtain ⟨row, hrow, -⟩ := f.exists_linearizeWithin_eq steps path c
  rw [hrow]
  exact List.mem_cons_self

/-- What a linearization lists is reached by a chain of bases, within its depth. -/
theorem exists_chain_of_mem_linearizeWithin (h : x ∈ f.linearizeWithin steps path c) :
    ∃ n ≤ steps, f.BaseChain n c x := by
  induction steps generalizing path c with
  | zero =>
      obtain rfl : x = c := List.mem_singleton.1 h
      exact ⟨0, Nat.le_refl 0, .refl x⟩
  | succ steps ih =>
      rcases mem_linearizeWithin_succ.1 h with rfl | ⟨-, ⟨b, hb, hx⟩ | hx⟩
      · exact ⟨0, Nat.zero_le _, .refl x⟩
      · obtain ⟨n, hn, hchain⟩ := ih hx
        exact ⟨n + 1, Nat.succ_le_succ hn, .step hb hchain⟩
      · exact ⟨1, Nat.succ_le_succ (Nat.zero_le steps), .single hx⟩

/-- What a shortest chain leads to is listed, if the contracts on the way to its beginning are
farther from it: then none of them is met again on the chain. -/
theorem mem_linearizeWithin_of_shortest (hchain : f.BaseChain n c x) (hn : n ≤ steps)
    (hshortest : ∀ m < n, ¬ f.BaseChain m c x)
    (hfar : ∀ p ∈ path, ∀ m ≤ n, ¬ f.BaseChain m p x) : x ∈ f.linearizeWithin steps path c := by
  induction hchain generalizing steps path with
  | refl c => exact f.self_mem_linearizeWithin steps path c
  | @step n a b x hbase hchain ih =>
      cases steps with
      | zero => cases hn
      | succ steps =>
          have hpath : path.contains a = false := by
            rw [Bool.eq_false_iff, ne_eq, List.contains_iff_mem]
            intro ha
            exact hfar a ha (n + 1) (Nat.le_refl _) (.step hbase hchain)
          refine mem_linearizeWithin_succ.2 (.inr ⟨hpath, .inl ⟨b, hbase, ?_⟩⟩)
          refine ih (Nat.le_of_succ_le_succ hn) (fun m hm hb => ?_) fun p hp m hm hp' => ?_
          · exact hshortest (m + 1) (Nat.succ_lt_succ hm) (.step hbase hb)
          · rcases List.mem_cons.1 hp with rfl | hp
            · exact hshortest m (Nat.lt_succ_of_le hm) hp'
            · exact hfar p hp m (Nat.le_succ_of_le hm) hp'

/-- A linearization lists the contracts that chains of a bounded length lead to. -/
theorem mem_linearize_iff :
    x ∈ f.linearize maxDepth c ↔ ∃ n ≤ maxDepth, f.BaseChain n c x := by
  classical
  constructor
  · exact exists_chain_of_mem_linearizeWithin
  · rintro ⟨n, hn, hchain⟩
    have hsome : ∃ n, f.BaseChain n c x := ⟨n, hchain⟩
    exact mem_linearizeWithin_of_shortest (Nat.find_spec hsome)
      (Nat.le_trans (Nat.find_min' hsome hchain) hn) (fun m hm => Nat.find_min hsome hm)
      fun p hp => absurd hp List.not_mem_nil

/-- A linearization lists nothing twice. -/
theorem nodup_linearizeWithin (f : Forest) (steps : Nat) (path : List Handle) (c : Handle) :
    (f.linearizeWithin steps path c).Nodup := by
  cases steps with
  | zero => exact List.pairwise_singleton _ c
  | succ steps =>
      rw [linearizeWithin_succ]
      split
      · exact List.pairwise_singleton _ c
      · exact (prefix_nodup_mergeOrders _ (List.pairwise_singleton _ c)).2

/-- A linearization begins with the contract and lists, each of them once, the contracts that
chains of a bounded length lead to. Neither what is met again on a chain nor a contradiction
between orders takes any of them away. -/
theorem linearize_lists_chains (f : Forest) (maxDepth : Nat) (c : Handle) :
    (∃ row, f.linearize maxDepth c = c :: row) ∧ (f.linearize maxDepth c).Nodup ∧
      ∀ x, x ∈ f.linearize maxDepth c ↔ ∃ n ≤ maxDepth, f.BaseChain n c x := by
  obtain ⟨row, hrow, -⟩ := f.exists_linearize_eq maxDepth c
  exact ⟨⟨row, hrow⟩, f.nodup_linearizeWithin maxDepth [] c, fun x => mem_linearize_iff⟩

/-! ## Chains of a bounded length -/

/-- The contracts that chains of `n` steps lead to. -/
def chainEnds (f : Forest) : (n : Nat) → Handle → List Handle
  | 0, c => [c]
  | n + 1, c => (f.bases c).flatMap (f.chainEnds n)

/-- What is listed are the ends of the chains of this length. -/
theorem mem_chainEnds_iff : x ∈ f.chainEnds n c ↔ f.BaseChain n c x := by
  induction n generalizing c with
  | zero =>
      rw [chainEnds, List.mem_singleton]
      constructor
      · rintro rfl
        exact .refl x
      · rintro ⟨⟩
        rfl
  | succ n ih =>
      rw [chainEnds, List.mem_flatMap]
      constructor
      · rintro ⟨b, hb, hx⟩
        exact .step hb (ih.1 hx)
      · rintro (_ | ⟨hb, hchain⟩)
        exact ⟨_, hb, ih.2 hchain⟩

/-- No chain from a contract has more than `bound` steps. -/
def ChainsWithin (f : Forest) (bound : Nat) (c : Handle) : Prop :=
  ∀ n x, f.BaseChain n c x → n ≤ bound

/-- A chain that is too long has a beginning that is too long by one step. -/
theorem BaseChain.exists_beginning (h : f.BaseChain (m + n) a c) : ∃ b, f.BaseChain m a b := by
  induction m generalizing a with
  | zero => exact ⟨a, .refl a⟩
  | succ m ih =>
      rw [Nat.add_right_comm] at h
      cases h with
      | step hbase hchain =>
          obtain ⟨b, hb⟩ := ih hchain
          exact ⟨b, .step hbase hb⟩

/-- No chain is longer than the bound if none is longer by one step. -/
theorem chainsWithin_iff {bound : Nat} :
    f.ChainsWithin bound c ↔ f.chainEnds (bound + 1) c = [] := by
  rw [List.eq_nil_iff_forall_not_mem]
  constructor
  · intro h x hx
    exact Nat.not_succ_le_self bound (h _ x (mem_chainEnds_iff.1 hx))
  · intro h n x hchain
    by_contra hlt
    obtain ⟨k, rfl⟩ := Nat.exists_eq_add_of_lt (Nat.lt_of_not_le hlt)
    rw [Nat.add_right_comm] at hchain
    obtain ⟨b, hb⟩ := hchain.exists_beginning
    exact h b (mem_chainEnds_iff.2 hb)

instance (f : Forest) (bound : Nat) (c : Handle) : Decidable (f.ChainsWithin bound c) :=
  decidable_of_iff _ chainsWithin_iff.symm

namespace ChainsWithin

/-- Behind a base the chains are shorter by a step. -/
theorem of_mem_bases (h : f.ChainsWithin (n + 1) c) (hb : b ∈ f.bases c) : f.ChainsWithin n b :=
  fun _ x hchain => Nat.le_of_succ_le_succ (h _ x (.step hb hchain))

/-- A contract without chains has no bases. -/
theorem bases_eq_nil (h : f.ChainsWithin 0 c) : f.bases c = [] := by
  refine List.eq_nil_iff_forall_not_mem.2 fun b hb => ?_
  exact Nat.not_succ_le_zero 0 (h 1 b (.single hb))

/-- Chains that are all short enough do not lead back. -/
theorem not_chain_of_mem_bases (h : f.ChainsWithin maxDepth c) (hb : b ∈ f.bases c) (n : Nat) :
    ¬ f.BaseChain n b c := by
  intro hchain
  obtain ⟨m, hlt, hback⟩ := (BaseChain.step hb hchain).exists_longer maxDepth
  exact Nat.not_le_of_lt hlt (h m c hback)

end ChainsWithin

/-! ## Linearizations that are not cut -/

/-- A contract without bases is linearized alone. -/
theorem linearizeWithin_of_bases_eq_nil (h : f.bases c = []) (steps : Nat) (path : List Handle) :
    f.linearizeWithin steps path c = [c] := by
  cases steps with
  | zero => rfl
  | succ steps =>
      rw [linearizeWithin_succ, h]
      split
      · rfl
      · exact mergeOrders_nil [c]

/-- Where all chains are short enough and lead to no contract on the way, it makes no difference how
many steps are allowed and what the way is. -/
theorem linearizeWithin_eq {steps' : Nat} {path' : List Handle} (h : f.ChainsWithin steps c)
    (h' : f.ChainsWithin steps' c) (hpath : ∀ p ∈ path, ∀ n, ¬ f.BaseChain n c p)
    (hpath' : ∀ p ∈ path', ∀ n, ¬ f.BaseChain n c p) :
    f.linearizeWithin steps path c = f.linearizeWithin steps' path' c := by
  induction steps generalizing steps' path path' c with
  | zero => rw [linearizeWithin_of_bases_eq_nil h.bases_eq_nil,
      linearizeWithin_of_bases_eq_nil h.bases_eq_nil]
  | succ steps ih =>
      cases steps' with
      | zero => rw [linearizeWithin_of_bases_eq_nil h'.bases_eq_nil,
          linearizeWithin_of_bases_eq_nil h'.bases_eq_nil]
      | succ steps' =>
          -- The way to a base has the contract on it too, and no chain leads back to that.
          have hnot : ∀ {way : List Handle}, (∀ p ∈ way, ∀ n, ¬ f.BaseChain n c p) →
              way.contains c = false ∧
                ∀ b ∈ f.bases c, ∀ p ∈ c :: way, ∀ n, ¬ f.BaseChain n b p := by
            intro way hway
            constructor
            · rw [Bool.eq_false_iff, ne_eq, List.contains_iff_mem]
              exact fun hc => hway c hc 0 (.refl c)
            · intro b hb p hp n hchain
              rcases List.mem_cons.1 hp with rfl | hp
              · exact h.not_chain_of_mem_bases hb n hchain
              · exact hway p hp (n + 1) (.step hb hchain)
          obtain ⟨hc, hbases⟩ := hnot hpath
          obtain ⟨hc', hbases'⟩ := hnot hpath'
          rw [linearizeWithin_succ, linearizeWithin_succ, hc, hc']
          rw [List.map_congr_left fun b hb => ih (h.of_mem_bases (List.mem_reverse.1 hb))
            (h'.of_mem_bases (List.mem_reverse.1 hb)) (hbases b (List.mem_reverse.1 hb))
            (hbases' b (List.mem_reverse.1 hb))]

/-- The orders that the bases of a contract give: their linearizations, the last base first, and the
order of the bases themselves. -/
def baseOrders (f : Forest) (maxDepth : Nat) (c : Handle) : List (List Handle) :=
  (f.bases c).reverse.map (f.linearize maxDepth) ++ [(f.bases c).reverse]

/-- What is merged is reached from a base. -/
theorem mem_flatten_baseOrders (h : x ∈ (f.baseOrders maxDepth c).flatten) :
    ∃ b ∈ f.bases c, ∃ n, f.BaseChain n b x := by
  obtain ⟨row, hrow, hx⟩ := List.mem_flatten.1 h
  rcases List.mem_append.1 hrow with hrow | hrow
  · obtain ⟨b, hb, rfl⟩ := List.mem_map.1 hrow
    obtain ⟨n, -, hchain⟩ := mem_linearize_iff.1 hx
    exact ⟨b, List.mem_reverse.1 hb, n, hchain⟩
  · rw [List.mem_singleton.1 hrow] at hx
    exact ⟨x, List.mem_reverse.1 hx, 0, .refl x⟩

namespace ChainsWithin

variable (h : f.ChainsWithin maxDepth c)

include h

/-- A linearization that is not cut is merged from the linearizations of the bases. -/
theorem linearize_eq_mergeOrders :
    f.linearize maxDepth c = mergeOrders (f.baseOrders maxDepth c) [c] := by
  cases maxDepth with
  | zero =>
      rw [baseOrders, h.bases_eq_nil]
      exact (mergeOrders_nil [c]).symm
  | succ maxDepth =>
      have hrows : ∀ b ∈ (f.bases c).reverse,
          f.linearizeWithin maxDepth [c] b = f.linearize (maxDepth + 1) b := by
        intro b hb
        have hb := List.mem_reverse.1 hb
        have hwithin := h.of_mem_bases hb
        refine linearizeWithin_eq hwithin (fun n x hchain => Nat.le_succ_of_le (hwithin n x hchain))
          (fun p hp => ?_) fun p hp => absurd hp List.not_mem_nil
        rw [List.mem_singleton.1 hp]
        exact h.not_chain_of_mem_bases hb
      rw [linearize, linearizeWithin_succ, List.map_congr_left hrows]
      rfl

/-- The contract itself is not among what is merged. -/
theorem not_mem_flatten_baseOrders : ∀ a ∈ (f.baseOrders maxDepth c).flatten, a ∉ [c] := by
  intro a ha hc
  rw [List.mem_singleton.1 hc] at ha
  obtain ⟨b, hb, n, hchain⟩ := mem_flatten_baseOrders ha
  exact h.not_chain_of_mem_bases hb n hchain

end ChainsWithin

/-- Merging appends what it takes in turn and falls back on the rows that are left then, if any are.
None are left if and only if some row keeps to all of them, and then what is appended does. So where no
chain is cut and the orders that the bases of a contract give are not contradictory, its linearization
keeps to them: it begins with the contract, the linearization of each base is contained in it, and the
bases stand in it from the last to the first. -/
theorem keepsTo_linearize :
    (∀ (rows : List (List Handle)) (taken : List Handle), mergeOrders rows taken =
      (leftOver rows).flatten.foldl appendNew ((takenInTurn rows).foldl appendNew taken)) ∧
    (∀ rows : List (List Handle), Contradictory rows ↔ ¬ ∃ order, KeepsTo rows order) ∧
    (∀ (rows : List (List Handle)) (taken : List Handle), (∀ a ∈ rows.flatten, a ∉ taken) →
      ¬ Contradictory rows →
        ∃ order, mergeOrders rows taken = taken ++ order ∧ KeepsTo rows order) ∧
    ∀ (f : Forest) (maxDepth : Nat) (c : Handle), f.ChainsWithin maxDepth c →
      ¬ Contradictory (f.baseOrders maxDepth c) →
        f.linearize maxDepth c = mergeOrders (f.baseOrders maxDepth c) [c] ∧
        (∃ order, f.linearize maxDepth c = c :: order) ∧
        (∀ b ∈ f.bases c, (f.linearize maxDepth b).Sublist (f.linearize maxDepth c)) ∧
        (f.bases c).reverse.Sublist (f.linearize maxDepth c) := by
  refine ⟨mergeOrders_eq, fun rows => contradictory_iff, fun rows taken htaken hclear => ?_,
    fun f maxDepth c hshort hclear => ?_⟩
  · exact ⟨takenInTurn rows, mergeOrders_of_not_contradictory htaken hclear, keepsTo_takenInTurn hclear⟩
  · have hmerge := hshort.linearize_eq_mergeOrders
    have hrow := mergeOrders_of_not_contradictory hshort.not_mem_flatten_baseOrders hclear
    have hkeeps := keepsTo_takenInTurn hclear
    refine ⟨hmerge, ?_⟩
    rw [hmerge, hrow, List.singleton_append]
    refine ⟨⟨_, rfl⟩, fun b hb => ?_, ?_⟩
    · refine (hkeeps.sublist _ (List.mem_append_left _ ?_)).cons c
      exact List.mem_map_of_mem (List.mem_reverse.2 hb)
    · exact (hkeeps.sublist _ (List.mem_append_right _ (List.mem_singleton_self _))).cons c

/-- A contract whose two bases have a base in common. -/
def diamond : SymbolTree :=
  SymbolTree.grow defaultMaxDepth 0 1 (.ofText "") (parse
    "contract A \x7b\x7d contract B is A \x7b\x7d contract C is A \x7b\x7d contract D is B, C \x7b\x7d").tree

/-- In a diamond the orders of the bases do not contradict each other. -/
theorem orders_diamond :
    diamond.alone.ChainsWithin defaultMaxDepth (diamond.handle 8) ∧
    ¬ Contradictory (diamond.alone.baseOrders defaultMaxDepth (diamond.handle 8)) ∧
    (∀ a ∈ (diamond.alone.baseOrders defaultMaxDepth (diamond.handle 8)).flatten,
      a ∉ [diamond.handle 8]) ∧
    (diamond.alone.bases (diamond.handle 8)).reverse = [diamond.handle 5, diamond.handle 2] := by
  decide +kernel

/-- The linearization of a diamond keeps to the orders of its bases. -/
theorem keepsTo_linearize_diamond :
    (∃ order, mergeOrders (diamond.alone.baseOrders defaultMaxDepth (diamond.handle 8)) [diamond.handle 8] =
        [diamond.handle 8] ++ order ∧
      KeepsTo (diamond.alone.baseOrders defaultMaxDepth (diamond.handle 8)) order) ∧
    (∀ b ∈ diamond.alone.bases (diamond.handle 8),
      (diamond.alone.linearize defaultMaxDepth b).Sublist
        (diamond.alone.linearize defaultMaxDepth (diamond.handle 8))) ∧
    (diamond.alone.bases (diamond.handle 8)).reverse = [diamond.handle 5, diamond.handle 2] := by
  obtain ⟨hshort, hclear, hnew, hbases⟩ := orders_diamond
  obtain ⟨-, -, hmerged, hlinearized⟩ := keepsTo_linearize
  exact ⟨hmerged _ _ hnew hclear, (hlinearized _ _ _ hshort hclear).2.2.1, hbases⟩

end Forest

end SolidityAtlas
