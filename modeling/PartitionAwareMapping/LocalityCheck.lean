-- What `If_CutCheckPartition` accepts once `If_ManSetPartitionInfo` has filled the manager,
-- said in the terms of the network it was filled from. A leaf passes the check of a target
-- partition exactly when every node copied to it is unassigned or in the target, or it is the
-- copy of a fanin that crosses into the target and the target is below `nPartitions`: the
-- check reads the recorded inputs of in-range partitions only.
import PartitionAwareMapping.CutEngine

namespace abc_partition.locality_check

open abc_partition.vectors abc_partition.network abc_partition.if_manager
  abc_partition.partition_info abc_partition.cut_engine

/-- In the network's terms, IF object `l` may be a leaf of a cut for partition `t`: every node
copied to `l` is unassigned or in `t`, or `l` is the copy of a fanin of a node in `t` that
crosses into `t` from another assigned partition, with `t` in range. -/
def LeafAllowed (N : AbcNtk) (vPartition : List Int) (nPartitions t : Int) (l : Nat) : Prop :=
  (∀ n ∈ abcNodes N, ∀ a, n.2.pCopy = some l → vPartition[n.1]? = some a → a = -1 ∨ a = t) ∨
    (t < nPartitions ∧ ∃ n ∈ abcNodes N, ∃ f ∈ n.2.vFanins, ∃ b, vPartition[n.1]? = some t ∧
      vPartition[f]? = some b ∧ 0 ≤ b ∧ b ≠ t ∧ copyOf N f = some l)

/-- The check of a manager the setup filled reads the filled vector. -/
theorem ifCutCheckPartition_withPartitionData (p : IfMan) (d : PartitionData)
    (nPartitions : Int) (c : IfCut) (t : Int) :
    ifCutCheckPartition (withPartitionData p d nPartitions) c t =
      if t < 0 then true else c.leaves.all (leafOk (withPartitionData p d nPartitions)
        d.vPartition t) :=
  rfl

section filled

variable {p : IfMan} {N : AbcNtk} {vPartition : List Int} {nPartitions : Int}
  {d : PartitionData} (hF : Filled p N vPartition (abcNodes N) d)
include hF

/-- The filled vector puts `l` past its end, unassigned or in `t` exactly when every node
copied to `l` is unassigned or in `t`. -/
theorem filled_leaf_iff {t : Int} {l : Nat} :
    (d.vPartition[l]? = none ∨ d.vPartition[l]? = some (-1) ∨ d.vPartition[l]? = some t) ↔
      ∀ n ∈ abcNodes N, ∀ a, n.2.pCopy = some l → vPartition[n.1]? = some a →
        a = -1 ∨ a = t := by
  constructor
  · intro h n hn a hl ha
    simpa [hF.assigned n hn l a hl ha] using h
  · intro H
    rcases hv : d.vPartition[l]? with _ | a
    · exact .inl rfl
    refine .inr ?_
    have hl : l < p.objNum := hF.length_eq ▸ (List.getElem?_eq_some_iff.mp hv).1
    by_cases hex : ∃ n ∈ abcNodes N, n.1 < vPartition.length ∧ n.2.pCopy = some l
    · -- a node inside the vector is copied to `l`: the entry is its partition
      obtain ⟨n, hn, hlt, hcl⟩ := hex
      have ha := hF.assigned n hn l _ hcl (List.getElem?_eq_getElem hlt)
      rw [hv] at ha; cases ha
      rcases H n hn _ hcl (List.getElem?_eq_getElem hlt) with h | h <;> simp [h]
    · -- no such node: the entry stayed unassigned
      push_neg at hex
      have hu := hF.unassigned l hl hex
      rw [hv] at hu; cases hu
      exact .inl rfl

/-- In the filled manager, `l` is an input of an assigned partition `t` exactly when `t` is in
range and `l` is the copy of a fanin that crosses into `t`. -/
theorem filled_input_iff (hns : ∀ n ∈ abcNodes N, n.2.pCopy.isSome) {t : Int} (ht : 0 ≤ t)
    {l : Nat} :
    ifObjIsPartitionInput (withPartitionData p d nPartitions) l t = true ↔
      t < nPartitions ∧ ∃ n ∈ abcNodes N, ∃ f ∈ n.2.vFanins, ∃ b, vPartition[n.1]? = some t ∧
        vPartition[f]? = some b ∧ 0 ≤ b ∧ b ≠ t ∧ copyOf N f = some l := by
  simp only [ifObjIsPartitionInput, withPartitionData]
  by_cases htP : t < nPartitions
  · rw [if_neg (by omega), decide_eq_true_iff, vecIntFind_ne_iff, hF.inputs]
    simp only [htP, true_and]
    refine exists_congr fun n => and_congr_right fun hn => ?_
    rw [inputOf_iff (hns n hn), Int.toNat_of_nonneg ht]
  · rw [if_pos (by omega)]
    simp [htP]

/-- A cut passes the check of the filled manager for an assigned target partition exactly
when every leaf is allowed there in the network's terms. -/
theorem withPartitionData_check_iff (hc : CopiedInto N p) {t : Int} (ht : 0 ≤ t) (c : IfCut) :
    ifCutCheckPartition (withPartitionData p d nPartitions) c t = true ↔
      ∀ l ∈ c.leaves, LeafAllowed N vPartition nPartitions t l := by
  rw [ifCutCheckPartition_withPartitionData, if_neg (not_lt.mpr ht), List.all_eq_true]
  refine forall₂_congr fun l _ => ?_
  rw [LeafAllowed, ← filled_leaf_iff hF,
    ← filled_input_iff hF (fun _ => pCopy_isSome_of_node hc) ht]
  unfold leafOk
  rcases d.vPartition[l]? with _ | a <;> simp

end filled

section setup

variable {p p' : IfMan} {N : AbcNtk} {vPartition : List Int} {nPartitions : Int}
  (hS : N.Strashed) (hc : CopiedInto N p)
  (hp : ifManSetPartitionInfo p N vPartition nPartitions = .ok p')
include hS hc hp

/-- After `If_ManSetPartitionInfo`, a cut passes `If_CutCheckPartition` for an assigned target
partition exactly when every leaf is allowed there in the network's terms. -/
theorem cut_check_exact {t : Int} (ht : 0 ≤ t) (c : IfCut) :
    ifCutCheckPartition p' c t = true ↔
      ∀ l ∈ c.leaves, LeafAllowed N vPartition nPartitions t l := by
  obtain ⟨d, hF, rfl⟩ := ifManSetPartitionInfo_filled hS hc hp
  exact withPartitionData_check_iff hF hc ht c

/-- The partition-aware mapper, run after `If_ManSetPartitionInfo` from best cuts that pass
the check, maps the copy of every node of an assigned partition `t` onto leaves allowed for
`t`: whatever sequence of calls it makes, the best cut of the copy uses only copies of nodes
that are unassigned or in `t`, combinational inputs, and copies of fanins crossing into `t`. -/
theorem mapped_best_cuts_allowed {ops : IfOps} {q : IfMan} (hb : BestsLocal p')
    (h : Relation.ReflTransGen (MapStep ops) p' q) {n : Nat × AbcObj} (hn : n ∈ abcNodes N)
    {j : Nat} (hj : n.2.pCopy = some j) {t : Int} (ht : vPartition[n.1]? = some t)
    (ht0 : 0 ≤ t) {o : IfObj} (ho : q.obj j = some o) (hand : ifObjIsAnd o) :
    ∀ l ∈ o.cutBest.leaves, LeafAllowed N vPartition nPartitions t l := by
  obtain ⟨d, hF, rfl⟩ := ifManSetPartitionInfo_filled hS hc hp
  obtain ⟨hd, hq⟩ := bestsLocal_of_run hb h
  -- the mapper reads the copy's partition as the node's
  have hjt : ifObjPartition q j = t := by
    obtain ⟨i, o', hi, ho', -⟩ := copyIs_some (hc.node_copy n (mem_abcNodes.mp hn).1
      (mem_abcNodes.mp hn).2)
    rw [hj] at hi; cases hi
    have hv := filled_node_copy hc hF hn hj (List.getElem?_eq_some_iff.mp ho').1
    rw [ifObjPartition_congr hd]
    simp [ifObjPartition, withPartitionData, List.getD_eq_getElem?_getD, hv, ht]
  have hcheck := hq j o ho hand
  rw [ifCutCheckPartition_congr hd, hjt] at hcheck
  exact (withPartitionData_check_iff hF hc ht0 _).mp hcheck

end setup

theorem cut_check_exact_andCo :
    ∃ p', ifManSetPartitionInfo ifAndCo aigAndCo [-1, 0, 1, 1] 2 = .ok p' ∧
      (ifCutCheckPartition p' ⟨[1, 2], 0, 0, 0⟩ 1 = true ↔
        ∀ l ∈ [1, 2], LeafAllowed aigAndCo [-1, 0, 1, 1] 2 1 l) :=
  ⟨_, rfl, @cut_check_exact ifAndCo _ aigAndCo [-1, 0, 1, 1] 2 (by decide) (by decide) rfl 1
    (by decide) _⟩

/-- `ifAndCo` as the mapper finds it: its two CIs carry their trivial cut sets, and the AND's
best cut is its trivial cut. -/
def ifAndCoCut : IfMan :=
  ⟨[ifObjNew .const1 none none,
    { ifObjNew .ci none none with pCutSet := some ⟨8, [⟨[1], 2, 0, 0⟩]⟩ },
    { ifObjNew .ci none none with pCutSet := some ⟨8, [⟨[2], 4, 0, 0⟩]⟩ },
    { ifObjNew .and (some 1) (some 2) with cutBest := ⟨[3], 8, 0, 0⟩ },
    ifObjNew .co (some 3) none],
    none, none, none, 0, 6, 8, false, false, 0, 0, 0⟩

/-- With the first input in partition 0 and the AND in partition 1, one partition-aware call
at the AND merges the cuts of its inputs and keeps the merged cut `{1, 2}` as its best: the
first input is a recorded input of partition 1. -/
theorem mapped_best_cuts_allowed_andCo :
    ∃ p' r o, ifManSetPartitionInfo ifAndCoCut aigAndCo [-1, 0, 1, 1] 2 = .ok p' ∧
      BestsLocal p' ∧ ifObjPerformMappingAndPartitionAware ifOpsPlain p' 3 0 false true = .ok r ∧
      r.1.obj 3 = some o ∧ ifObjIsAnd o ∧ o.cutBest.leaves = [1, 2] ∧
      ∀ l ∈ o.cutBest.leaves, LeafAllowed aigAndCo [-1, 0, 1, 1] 2 1 l := by
  -- the setup, and one call at the AND that does not fall back
  obtain ⟨p', r, o, hp, hb, hfb, hr, ho, hand, hleaves⟩ : ∃ p' r o,
      ifManSetPartitionInfo ifAndCoCut aigAndCo [-1, 0, 1, 1] 2 = .ok p' ∧ BestsLocal p' ∧
      (∀ pObj ∈ p'.obj 3, ifTakesFallback p' pObj true = false) ∧
      ifObjPerformMappingAndPartitionAware ifOpsPlain p' 3 0 false true = .ok r ∧
      r.1.obj 3 = some o ∧ ifObjIsAnd o ∧ o.cutBest.leaves = [1, 2] :=
    ⟨_, _, _, rfl, by decide, by decide, rfl, rfl, by decide, rfl⟩
  exact ⟨p', r, o, hp, hb, hr, ho, hand, hleaves,
    @mapped_best_cuts_allowed ifAndCoCut p' aigAndCo _ _ (by decide) (by decide) hp ifOpsPlain r.1
      hb (.single (.perform p' 3 0 false true r hfb hr)) (3, ⟨.node, [1, 2], [4], 1, some 3⟩)
      (by decide) 3 rfl 1 rfl (by decide) o ho hand⟩

end abc_partition.locality_check
