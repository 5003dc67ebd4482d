-- The partition views of `Aig_ApplyPartitionResult`. Step 1 puts every object whose partition
-- is in range into that partition, in id order. Step 2 walks the fanouts of every PI and the
-- fanins of every node, and records each connection that leaves one partition for another,
-- once, as an output of the first and an input of the second. Step 3 adds the driver of every
-- PO to the outputs of its partition. `If_ManSetPartitionInfo` records on the IF side only the
-- crossings through nodes, at the copies of their fanins.
import PartitionAwareMapping.PartitionResult
import PartitionAwareMapping.PartitionInfo

namespace abc_partition.partition_interface

open abc_partition.vectors abc_partition.network abc_partition.partition_result
  abc_partition.partition_info abc_partition.if_manager abc_partition.hypergraph

/-! ## The steps of the call -/

/-- Step 1 of `Aig_ApplyPartitionResult`: `vPartNodes` and `vPartSize`. -/
def aigPartAssign (N : AbcNtk) (vPartition : List Int) (nPartitions : Int) :
    List (List Nat) × List Nat :=
  (N.objs.map Prod.fst).foldl (applyAssign vPartition nPartitions)
    (vecVecStart nPartitions.toNat, List.replicate nPartitions.toNat 0)

/-- Step 2: `vPartInputs` and `vPartOutputs` once the PIs and then the nodes are walked. -/
def aigPartInterface (N : AbcNtk) (vPartition : List Int) (nPartitions : Int) :
    List (List Nat) × List (List Nat) :=
  (N.objs.filter (fun p => abcObjIsNode p.2)).foldl (applyNode vPartition nPartitions)
    (N.vPis.foldl (applyPi N vPartition nPartitions)
      (vecVecStart nPartitions.toNat, vecVecStart nPartitions.toNat))

/-- Step 3: `vPartOutputs` once the drivers of the POs are added. -/
def aigPartOutputs (N : AbcNtk) (vPartition : List Int) (nPartitions : Int) : List (List Nat) :=
  N.vPos.foldl (applyPo N vPartition nPartitions) (aigPartInterface N vPartition nPartitions).2

/-- A report prints the views the three steps leave. -/
theorem aigApplyPartitionResult_views {N : AbcNtk} {vPartition : List Int} {nPartitions : Int}
    {r : PartitionReport} (h : aigApplyPartitionResult N vPartition nPartitions = .reported r) :
    r.vPartNodes = (aigPartAssign N vPartition nPartitions).1 ∧
      r.vPartSize = (aigPartAssign N vPartition nPartitions).2 ∧
      r.vPartInputs = (aigPartInterface N vPartition nPartitions).1 ∧
      r.vPartOutputs = aigPartOutputs N vPartition nPartitions := by
  unfold aigApplyPartitionResult at h
  split at h
  · cases h
  · dsimp only at h
    split at h
    · rename_i r' hr
      cases h
      obtain ⟨a, -, hr⟩ := bind_eq_ok.mp hr
      obtain ⟨lines, -, hr⟩ := bind_eq_ok.mp hr
      cases hr
      exact ⟨rfl, rfl, rfl, rfl⟩
    · cases h

/-! ## Step 1: the objects of each partition -/

@[simp]
theorem inRange_iff {a nPartitions : Int} : inRange a nPartitions = true ↔ 0 ≤ a ∧ a < nPartitions := by
  simp [inRange]

section assign

variable {vPartition : List Int} {nPartitions : Int}

/-- One object joins the level of its partition, at the end. -/
theorem applyAssign_fst (acc : List (List Nat) × List Nat) (i : Nat) {q : Nat}
    (hq : (q : Int) < nPartitions) :
    vecVecEntry (applyAssign vPartition nPartitions acc i).1 q =
      vecVecEntry acc.1 q ++ if partOf vPartition i = some (q : Int) then [i] else [] := by
  unfold applyAssign
  split
  · rename_i a hp
    rw [hp]
    split
    · rename_i hr
      have ha := inRange_iff.mp hr
      rw [vecVecEntry_push]
      by_cases hqa : (q : Int) = a
      · rw [if_pos (by omega), if_pos (by rw [hqa])]
      · rw [if_neg (by omega), if_neg (by rintro ⟨⟩; exact hqa rfl), List.append_nil]
    · rename_i hr
      rw [if_neg (by rintro ⟨⟩; exact hr (inRange_iff.mpr ⟨by omega, hq⟩)), List.append_nil]
  · rename_i hp
    rw [hp, if_neg (by simp), List.append_nil]

/-- One object counts in the size of its partition. -/
theorem applyAssign_snd (acc : List (List Nat) × List Nat) (i : Nat) :
    (applyAssign vPartition nPartitions acc i).2.length = acc.2.length ∧
      ∀ q : Nat, (q : Int) < nPartitions → (applyAssign vPartition nPartitions acc i).2[q]? =
        acc.2[q]?.map (· + if partOf vPartition i = some (q : Int) then 1 else 0) := by
  unfold applyAssign
  split
  · rename_i a hp
    rw [hp]
    split
    · rename_i hr
      have ha := inRange_iff.mp hr
      refine ⟨List.length_modify _ _ _, fun q hq => ?_⟩
      rw [List.getElem?_modify]
      by_cases hqa : (q : Int) = a
      · have hq' : a.toNat = q := by omega
        rw [if_pos (by rw [hqa])]
        cases acc.2[q]? <;> simp [hq']
      · have hq' : a.toNat ≠ q := by omega
        rw [if_neg (by rintro ⟨⟩; exact hqa rfl)]
        cases acc.2[q]? <;> simp [hq']
    · rename_i hr
      refine ⟨rfl, fun q hq => ?_⟩
      rw [if_neg (by rintro ⟨⟩; exact hr (inRange_iff.mpr ⟨by omega, hq⟩))]
      cases acc.2[q]? <;> rfl
  · rename_i hp
    refine ⟨rfl, fun q _ => ?_⟩
    rw [hp, if_neg (by simp)]
    cases acc.2[q]? <;> rfl

theorem foldl_applyAssign_fst (ids : List Nat) (acc : List (List Nat) × List Nat) {q : Nat}
    (hq : (q : Int) < nPartitions) :
    vecVecEntry (ids.foldl (applyAssign vPartition nPartitions) acc).1 q =
      vecVecEntry acc.1 q ++ ids.filter (fun i => partOf vPartition i = some (q : Int)) := by
  induction ids generalizing acc with
  | nil => simp
  | cons i ids ih =>
    rw [List.foldl_cons, ih, applyAssign_fst acc i hq, List.filter_cons, List.append_assoc]
    split <;> simp_all

theorem foldl_applyAssign_snd (ids : List Nat) (acc : List (List Nat) × List Nat) :
    (ids.foldl (applyAssign vPartition nPartitions) acc).2.length = acc.2.length ∧
      ∀ q : Nat, (q : Int) < nPartitions →
        (ids.foldl (applyAssign vPartition nPartitions) acc).2[q]? =
          acc.2[q]?.map (· + (ids.filter (fun i => partOf vPartition i = some (q : Int))).length) := by
  induction ids generalizing acc with
  | nil => exact ⟨rfl, fun q _ => by simp⟩
  | cons i ids ih =>
    obtain ⟨hlen, hq⟩ := @applyAssign_snd vPartition nPartitions acc i
    rw [List.foldl_cons, (ih _).1, hlen]
    refine ⟨rfl, fun q hq' => ?_⟩
    rw [(ih _).2 q hq', hq q hq', List.filter_cons, Option.map_map]
    congr 1
    funext v
    by_cases hi : partOf vPartition i = some (q : Int)
    · simp only [hi, if_true, decide_True, Function.comp, List.length_cons]
      omega
    · simp [hi]

end assign

/-! ## Step 2: the connections that cross -/

/-- `y` is a node and `x` one of its fanins. -/
def FeedsNode (N : AbcNtk) (x y : Nat) : Prop :=
  ∃ o, N.obj y = some o ∧ abcObjIsNode o ∧ x ∈ o.vFanins

theorem feedsNode_iff {N : AbcNtk} {x y : Nat} :
    FeedsNode N x y ↔ ∃ o, (y, o) ∈ abcNodes N ∧ x ∈ o.vFanins := by
  simp only [FeedsNode, mem_abcNodes, AbcNtk.mem_objs, and_assoc]

/-- Object `x` feeds object `y` along a connection that the interface loops walk: `x` is a PI
and `y` one of its fanouts, or `y` is a node and `x` one of its fanins. -/
def Feeds (N : AbcNtk) (x y : Nat) : Prop :=
  (x ∈ N.vPis ∧ ∃ o, N.obj x = some o ∧ y ∈ o.vFanouts) ∨ FeedsNode N x y

/-- The connection from `x` to `y` leaves partition `a` for partition `b`, both in range. -/
def CrossesInto (vPartition : List Int) (nPartitions : Int) (x y : Nat) (a b : Int) : Prop :=
  partOf vPartition x = some a ∧ partOf vPartition y = some b ∧ a ≠ b ∧
    inRange a nPartitions ∧ inRange b nPartitions

/-- `x` drives a PO: it is the first fanin of one. -/
def DrivesPo (N : AbcNtk) (x : Nat) : Prop :=
  ∃ po ∈ N.vPos, ∃ o, N.obj po = some o ∧ o.vFanins.head? = some x

/-- `acc'` is `acc` with the signals `In q` added to the inputs and `Out q` to the outputs of
each partition `q`, none twice. -/
structure Adds (acc acc' : List (List Nat) × List (List Nat)) (In Out : Nat → Nat → Prop) :
    Prop where
  inputs : ∀ q x, x ∈ vecVecEntry acc'.1 q ↔ x ∈ vecVecEntry acc.1 q ∨ In q x
  outputs : ∀ q x, x ∈ vecVecEntry acc'.2 q ↔ x ∈ vecVecEntry acc.2 q ∨ Out q x
  nodup_inputs : NodupLevels acc.1 → NodupLevels acc'.1
  nodup_outputs : NodupLevels acc.2 → NodupLevels acc'.2

namespace Adds

variable {a b c : List (List Nat) × List (List Nat)} {In Out In' Out' : Nat → Nat → Prop}

theorem of_none (h : ∀ q x, ¬ In q x) (h' : ∀ q x, ¬ Out q x) : Adds a a In Out :=
  ⟨fun q x => by simp [h q x], fun q x => by simp [h' q x], id, id⟩

theorem trans (h : Adds a b In Out) (h' : Adds b c In' Out') :
    Adds a c (fun q x => In q x ∨ In' q x) (fun q x => Out q x ∨ Out' q x) :=
  ⟨fun q x => by rw [h'.inputs, h.inputs, or_assoc],
    fun q x => by rw [h'.outputs, h.outputs, or_assoc],
    h'.nodup_inputs ∘ h.nodup_inputs, h'.nodup_outputs ∘ h.nodup_outputs⟩

theorem congr (h : Adds a b In Out) (hi : ∀ q x, In q x ↔ In' q x)
    (ho : ∀ q x, Out q x ↔ Out' q x) : Adds a b In' Out' :=
  ⟨fun q x => by rw [h.inputs, hi], fun q x => by rw [h.outputs, ho], h.nodup_inputs,
    h.nodup_outputs⟩

/-- A loop of steps, each adding what `In e` and `Out e` say, adds what some step adds. -/
theorem foldl {α : Type} (f : List (List Nat) × List (List Nat) → α → List (List Nat) × List (List Nat))
    (In Out : α → Nat → Nat → Prop) (hf : ∀ acc e, Adds acc (f acc e) (In e) (Out e)) :
    ∀ (L : List α) acc, Adds acc (L.foldl f acc) (fun q x => ∃ e ∈ L, In e q x)
      (fun q x => ∃ e ∈ L, Out e q x)
  | [], _ => of_none (by simp) (by simp)
  | e :: L, acc => ((hf acc e).trans (foldl f In Out hf L _)).congr (by simp) (by simp)

end Adds

section interface

variable {N : AbcNtk} {vPartition : List Int} {nPartitions : Int} {x y : Nat} {a b : Int}

theorem crossesInto_iff (hx : partOf vPartition x = some a) (hy : partOf vPartition y = some b)
    {c d : Int} : CrossesInto vPartition nPartitions x y c d ↔
      c = a ∧ d = b ∧ a ≠ b ∧ inRange a nPartitions ∧ inRange b nPartitions := by
  simp only [CrossesInto, hx, hy, Option.some.injEq]
  constructor <;> rintro ⟨rfl, rfl, h⟩ <;> exact ⟨rfl, rfl, h⟩

theorem CrossesInto.src (hx : partOf vPartition x = some a) {c d : Int}
    (h : CrossesInto vPartition nPartitions x y c d) : c = a ∧ inRange a nPartitions := by
  obtain ⟨hxc, -, -, hc, -⟩ := h
  cases hx.symm.trans hxc
  exact ⟨rfl, hc⟩

theorem CrossesInto.dst (hy : partOf vPartition y = some b) {c d : Int}
    (h : CrossesInto vPartition nPartitions x y c d) : d = b ∧ inRange b nPartitions := by
  obtain ⟨-, hyd, -, -, hd⟩ := h
  cases hy.symm.trans hyd
  exact ⟨rfl, hd⟩

/-- What the connection from `x` to `y` adds to the inputs: `x`, at the partition it enters. -/
def CrossIn (vPartition : List Int) (nPartitions : Int) (x y q z : Nat) : Prop :=
  z = x ∧ ∃ c, CrossesInto vPartition nPartitions x y c q

/-- What the connection from `x` to `y` adds to the outputs: `x`, at the partition it leaves. -/
def CrossOut (vPartition : List Int) (nPartitions : Int) (x y q z : Nat) : Prop :=
  z = x ∧ ∃ d, CrossesInto vPartition nPartitions x y q d

/-- A connection that crosses is recorded by `applyCross`. -/
theorem adds_applyCross (acc : List (List Nat) × List (List Nat))
    (hx : partOf vPartition x = some a) (hy : partOf vPartition y = some b)
    (h : a ≠ b ∧ inRange a nPartitions ∧ inRange b nPartitions) :
    Adds acc (applyCross acc x a b) (CrossIn vPartition nPartitions x y)
      (CrossOut vPartition nPartitions x y) := by
  have ha := inRange_iff.mp h.2.1
  have hb := inRange_iff.mp h.2.2
  refine ⟨fun q z => ?_, fun q z => ?_, fun hn => nodupLevels_pushUniqueInt hn _ _,
    fun hn => nodupLevels_pushUniqueInt hn _ _⟩ <;>
    simp only [applyCross, mem_vecVecEntry_pushUniqueInt, CrossIn, CrossOut,
      crossesInto_iff hx hy] <;>
    refine or_congr_right (and_comm.trans (and_congr_right fun _ => ⟨fun hq => ?_, fun hq => ?_⟩))
  · exact ⟨a, rfl, by omega, h⟩
  · obtain ⟨_, -, rfl, -⟩ := hq; omega
  · exact ⟨b, by omega, rfl, h⟩
  · obtain ⟨_, h1, -⟩ := hq; omega

/-- A connection that does not cross leaves the views as they are. -/
theorem adds_noCross (acc : List (List Nat) × List (List Nat))
    (h : ∀ c d, ¬ CrossesInto vPartition nPartitions x y c d) :
    Adds acc acc (CrossIn vPartition nPartitions x y) (CrossOut vPartition nPartitions x y) :=
  Adds.of_none (fun _ _ ⟨_, c, hc⟩ => h c _ hc) (fun _ _ ⟨_, d, hd⟩ => h _ d hd)

/-- The fanouts of PI `x` that cross add `x`. -/
theorem adds_applyPi (acc : List (List Nat) × List (List Nat)) (x : Nat) :
    Adds acc (applyPi N vPartition nPartitions acc x)
      (fun q z => ∃ o, N.obj x = some o ∧ ∃ y ∈ o.vFanouts, CrossIn vPartition nPartitions x y q z)
      (fun q z => ∃ o, N.obj x = some o ∧ ∃ y ∈ o.vFanouts,
        CrossOut vPartition nPartitions x y q z) := by
  unfold applyPi
  split
  · rename_i a o hx ho
    split
    · rename_i ha
      refine (Adds.foldl _ (CrossIn vPartition nPartitions x) (CrossOut vPartition nPartitions x)
        (fun acc y => ?_) o.vFanouts acc).congr (fun q z => by simp [ho])
        (fun q z => by simp [ho])
      dsimp only
      split
      · rename_i b hy
        split
        · rename_i hc
          simp only [Bool.and_eq_true, decide_eq_true_eq] at hc
          exact adds_applyCross acc hx hy ⟨Ne.symm hc.1, ha, hc.2⟩
        · rename_i hc
          refine adds_noCross acc fun c d hcd => hc ?_
          obtain ⟨-, -, hne, -, hb⟩ := (crossesInto_iff hx hy).mp hcd
          simp [Ne.symm hne, hb]
      · rename_i hy
        exact adds_noCross acc fun c d hcd => by cases hy.symm.trans hcd.2.1
    · rename_i ha
      exact Adds.of_none (fun q z ⟨_, _, y, _, _, c, hc⟩ => ha (hc.src hx).2)
        (fun q z ⟨_, _, y, _, _, d, hd⟩ => ha (hd.src hx).2)
  · rename_i hnone
    exact Adds.of_none (fun q z ⟨o, ho, y, _, _, c, hxc, _⟩ => hnone c o hxc ho)
      (fun q z ⟨o, ho, y, _, _, c, hxc, _⟩ => hnone _ o hxc ho)

/-- The fanins of node `p` that cross add themselves. -/
theorem adds_applyNode (acc : List (List Nat) × List (List Nat)) (p : Nat × AbcObj) :
    Adds acc (applyNode vPartition nPartitions acc p)
      (fun q z => ∃ f ∈ p.2.vFanins, CrossIn vPartition nPartitions f p.1 q z)
      (fun q z => ∃ f ∈ p.2.vFanins, CrossOut vPartition nPartitions f p.1 q z) := by
  unfold applyNode
  split
  · rename_i b hy
    split
    · rename_i hb
      refine Adds.foldl _ (fun f => CrossIn vPartition nPartitions f p.1)
        (fun f => CrossOut vPartition nPartitions f p.1) (fun acc f => ?_) p.2.vFanins acc
      dsimp only
      split
      · rename_i a hx
        split
        · rename_i hc
          simp only [Bool.and_eq_true, decide_eq_true_eq] at hc
          exact adds_applyCross acc hx hy ⟨hc.1, hc.2, hb⟩
        · rename_i hc
          refine adds_noCross acc fun c d hcd => hc ?_
          obtain ⟨-, -, hne, ha, -⟩ := (crossesInto_iff hx hy).mp hcd
          simp [hne, ha]
      · rename_i hx
        exact adds_noCross acc fun c d hcd => by cases hx.symm.trans hcd.1
    · rename_i hb
      exact Adds.of_none (fun q z ⟨_, _, _, c, hc⟩ => hb (hc.dst hy).2)
        (fun q z ⟨_, _, _, d, hd⟩ => hb (hd.dst hy).2)
  · rename_i hy
    exact Adds.of_none (fun q z ⟨_, _, _, c, hc⟩ => by cases hy.symm.trans hc.2.1)
      (fun q z ⟨_, _, _, d, hd⟩ => by cases hy.symm.trans hd.2.1)

/-- PO `po` has driver `x`, in partition `q`, in range. -/
def PoDriver (N : AbcNtk) (vPartition : List Int) (nPartitions : Int) (po q x : Nat) : Prop :=
  ∃ o, N.obj po = some o ∧ o.vFanins.head? = some x ∧ partOf vPartition x = some (q : Int) ∧
    inRange q nPartitions

/-- Step 3 for one PO, as a step on both views that keeps the inputs. -/
theorem adds_applyPo (acc : List (List Nat) × List (List Nat)) (po : Nat) :
    Adds acc (acc.1, applyPo N vPartition nPartitions acc.2 po) (fun _ _ => False)
      (fun q x => PoDriver N vPartition nPartitions po q x) := by
  refine ⟨fun q x => by simp, fun q x => ?_, id, fun hn => ?_⟩ <;> unfold applyPo
  · simp only [PoDriver]
    split
    · rename_i o ho
      split
      · rename_i f hf
        split
        · rename_i a hx
          split
          · rename_i ha
            have ha' := inRange_iff.mp ha
            rw [mem_vecVecEntry_pushUniqueInt]
            refine or_congr_right ⟨?_, ?_⟩
            · rintro ⟨rfl, rfl⟩
              exact ⟨o, ho, hf, by rw [hx]; congr 1; omega, by simp; omega⟩
            · rintro ⟨_, ho', hf', hx', -⟩
              cases ho.symm.trans ho'; cases hf.symm.trans hf'; cases hx.symm.trans hx'
              exact ⟨by omega, rfl⟩
          · rename_i ha
            refine ⟨Or.inl, fun h => h.resolve_right fun ⟨_, ho', hf', hx', hq⟩ => ha ?_⟩
            cases ho.symm.trans ho'; cases hf.symm.trans hf'; cases hx.symm.trans hx'; exact hq
        · exact ⟨Or.inl, fun h => h.resolve_right fun ⟨_, ho', hf', hx', hq⟩ => by simp_all⟩
      · exact ⟨Or.inl, fun h => h.resolve_right fun ⟨_, ho', hf', hx', hq⟩ => by simp_all⟩
    · exact ⟨Or.inl, fun h => h.resolve_right fun ⟨_, ho', hf', hx', hq⟩ => by simp_all⟩
  · repeat' split
    all_goals first | exact nodupLevels_pushUniqueInt hn _ _ | exact hn

theorem foldl_keep_fst {β : Type} (g : List (List Nat) → β → List (List Nat)) :
    ∀ (L : List β) (acc : List (List Nat) × List (List Nat)),
      L.foldl (fun acc e => (acc.1, g acc.2 e)) acc = (acc.1, L.foldl g acc.2)
  | [], _ => rfl
  | e :: L, acc => foldl_keep_fst g L (acc.1, g acc.2 e)

/-- The three steps together: the inputs of `q` are the objects with a connection into `q`
from another partition, and its outputs those with a connection out of `q` or a PO to drive. -/
theorem adds_aigPartOutputs (acc : List (List Nat) × List (List Nat)) :
    Adds acc (((N.objs.filter (fun p => abcObjIsNode p.2)).foldl (applyNode vPartition nPartitions)
        (N.vPis.foldl (applyPi N vPartition nPartitions) acc)).1,
      N.vPos.foldl (applyPo N vPartition nPartitions)
        ((N.objs.filter (fun p => abcObjIsNode p.2)).foldl (applyNode vPartition nPartitions)
          (N.vPis.foldl (applyPi N vPartition nPartitions) acc)).2)
      (fun q x => ∃ y, Feeds N x y ∧ ∃ a, CrossesInto vPartition nPartitions x y a q)
      (fun q x => (∃ y, Feeds N x y ∧ ∃ b, CrossesInto vPartition nPartitions x y q b) ∨
        (DrivesPo N x ∧ partOf vPartition x = some (q : Int) ∧ inRange q nPartitions)) := by
  have h1 := Adds.foldl (applyPi N vPartition nPartitions) _ _ adds_applyPi N.vPis acc
  have h2 := Adds.foldl (applyNode vPartition nPartitions) _ _ adds_applyNode (N.objs.filter (fun p => abcObjIsNode p.2))
    (N.vPis.foldl (applyPi N vPartition nPartitions) acc)
  have h3 := Adds.foldl (fun acc po => (acc.1, applyPo N vPartition nPartitions acc.2 po)) _ _
    adds_applyPo N.vPos
    ((N.objs.filter (fun p => abcObjIsNode p.2)).foldl (applyNode vPartition nPartitions)
      (N.vPis.foldl (applyPi N vPartition nPartitions) acc))
  rw [foldl_keep_fst] at h3
  refine ((h1.trans h2).trans h3).congr (fun q x => ?_) (fun q x => ?_) <;>
    simp only [and_false, exists_false, or_false, CrossIn, CrossOut, Feeds, FeedsNode,
      List.mem_filter]
  · constructor
    · rintro (⟨e, he, o, ho, y, hy, rfl, c, hc⟩ | ⟨⟨y, o⟩, ⟨hp, hn⟩, f, hf, rfl, c, hc⟩)
      · exact ⟨y, .inl ⟨he, o, ho, hy⟩, c, hc⟩
      · exact ⟨y, .inr ⟨o, AbcNtk.mem_objs.mp hp, hn, hf⟩, c, hc⟩
    · rintro ⟨y, ⟨he, o, ho, hy⟩ | ⟨o, ho, hn, hf⟩, c, hc⟩
      · exact .inl ⟨x, he, o, ho, y, hy, rfl, c, hc⟩
      · exact .inr ⟨(y, o), ⟨AbcNtk.mem_objs.mpr ho, hn⟩, x, hf, rfl, c, hc⟩
  · constructor
    · rintro ((⟨e, he, o, ho, y, hy, rfl, c, hc⟩ | ⟨⟨y, o⟩, ⟨hp, hn⟩, f, hf, rfl, c, hc⟩) |
        ⟨po, hpo, o, ho, hf, hx, hq⟩)
      · exact .inl ⟨y, .inl ⟨he, o, ho, hy⟩, c, hc⟩
      · exact .inl ⟨y, .inr ⟨o, AbcNtk.mem_objs.mp hp, hn, hf⟩, c, hc⟩
      · exact .inr ⟨⟨po, hpo, o, ho, hf⟩, hx, hq⟩
    · rintro (⟨y, ⟨he, o, ho, hy⟩ | ⟨o, ho, hn, hf⟩, c, hc⟩ | ⟨⟨po, hpo, o, ho, hf⟩, hx, hq⟩)
      · exact .inl (.inl ⟨x, he, o, ho, y, hy, rfl, c, hc⟩)
      · exact .inl (.inr ⟨(y, o), ⟨AbcNtk.mem_objs.mpr ho, hn⟩, x, hf, rfl, c, hc⟩)
      · exact .inr ⟨po, hpo, o, ho, hf, hx, hq⟩

/-! ## What the report holds -/

/-- Step 1 places every object whose partition is in range, and only those, in id order, and
`vPartSize` counts the objects of each partition. -/
theorem aigPartAssign_exact (N : AbcNtk) (vPartition : List Int) (nPartitions : Int) :
    (∀ q : Nat, (q : Int) < nPartitions → vecVecEntry (aigPartAssign N vPartition nPartitions).1 q =
      (N.objs.map Prod.fst).filter (fun i => partOf vPartition i = some (q : Int))) ∧
    (aigPartAssign N vPartition nPartitions).2 = (List.range nPartitions.toNat).map
      (fun q => (vecVecEntry (aigPartAssign N vPartition nPartitions).1 q).length) := by
  have hfst : ∀ q : Nat, (q : Int) < nPartitions →
      vecVecEntry (aigPartAssign N vPartition nPartitions).1 q =
        (N.objs.map Prod.fst).filter (fun i => partOf vPartition i = some (q : Int)) :=
    fun q hq => by rw [aigPartAssign, foldl_applyAssign_fst _ _ hq, vecVecEntry_start, List.nil_append]
  obtain ⟨hlen, hget⟩ := @foldl_applyAssign_snd vPartition nPartitions (N.objs.map Prod.fst)
    (vecVecStart nPartitions.toNat, List.replicate nPartitions.toNat 0)
  refine ⟨hfst, List.ext_getElem? fun q => ?_⟩
  by_cases hq : q < nPartitions.toNat
  · rw [List.getElem?_map, List.getElem?_range hq, Option.map_some', hfst q (by omega),
      aigPartAssign, hget q (by omega), List.getElem?_replicate_of_lt hq]
    simp
  · rw [List.getElem?_eq_none (by rw [aigPartAssign, hlen]; simpa using hq),
      List.getElem?_eq_none (by simpa using hq)]

/-- Steps 2 and 3 record each connection that leaves one partition in range for another once,
as an input of the second and an output of the first, and the driver of each PO as an output
of its partition; nothing else, and nothing twice. -/
theorem aigPartInterface_exact (N : AbcNtk) (vPartition : List Int) (nPartitions : Int) :
    NodupLevels (aigPartInterface N vPartition nPartitions).1 ∧
      NodupLevels (aigPartOutputs N vPartition nPartitions) ∧ ∀ q x,
      (x ∈ vecVecEntry (aigPartInterface N vPartition nPartitions).1 q ↔
        ∃ y, Feeds N x y ∧ ∃ a, CrossesInto vPartition nPartitions x y a q) ∧
      (x ∈ vecVecEntry (aigPartOutputs N vPartition nPartitions) q ↔
        (∃ y, Feeds N x y ∧ ∃ b, CrossesInto vPartition nPartitions x y q b) ∨
          (DrivesPo N x ∧ partOf vPartition x = some (q : Int) ∧ inRange q nPartitions)) := by
  have h : Adds (vecVecStart nPartitions.toNat, vecVecStart nPartitions.toNat)
      ((aigPartInterface N vPartition nPartitions).1, aigPartOutputs N vPartition nPartitions) _ _ :=
    adds_aigPartOutputs _
  exact ⟨h.nodup_inputs (nodupLevels_start _), h.nodup_outputs (nodupLevels_start _),
    fun q x => ⟨by simp [h.inputs, vecVecEntry_start], by simp [h.outputs, vecVecEntry_start]⟩⟩

end interface

/-! ## The report -/

/-- For every partition count, step 1 lists the objects of each partition in range, in id
order, and its sizes count them; a report, when the call prints one, holds these views. -/
theorem partition_report_nodes_exact (N : AbcNtk) (vPartition : List Int) (nPartitions : Int) :
    (∀ q : Nat, (q : Int) < nPartitions → vecVecEntry (aigPartAssign N vPartition nPartitions).1 q =
      (N.objs.map Prod.fst).filter (fun i => partOf vPartition i = some (q : Int))) ∧
    (aigPartAssign N vPartition nPartitions).2 = (List.range nPartitions.toNat).map
      (fun q => (vecVecEntry (aigPartAssign N vPartition nPartitions).1 q).length) ∧
    ∀ r, aigApplyPartitionResult N vPartition nPartitions = .reported r →
      r.vPartNodes = (aigPartAssign N vPartition nPartitions).1 ∧
        r.vPartSize = (aigPartAssign N vPartition nPartitions).2 :=
  ⟨(aigPartAssign_exact N vPartition nPartitions).1, (aigPartAssign_exact N vPartition nPartitions).2,
    fun _ h => ⟨(aigApplyPartitionResult_views h).1, (aigApplyPartitionResult_views h).2.1⟩⟩

/-- For every partition count, steps 2 and 3 make the inputs of a partition the objects with a
connection into it from another partition in range, and its outputs those with a connection
out of it or a PO to drive, with no object twice in a level; a report, when the call prints
one, holds these views. -/
theorem partition_report_interface_exact (N : AbcNtk) (vPartition : List Int)
    (nPartitions : Int) :
    NodupLevels (aigPartInterface N vPartition nPartitions).1 ∧
      NodupLevels (aigPartOutputs N vPartition nPartitions) ∧ (∀ q x,
      (x ∈ vecVecEntry (aigPartInterface N vPartition nPartitions).1 q ↔
        ∃ y, Feeds N x y ∧ ∃ a, CrossesInto vPartition nPartitions x y a q) ∧
      (x ∈ vecVecEntry (aigPartOutputs N vPartition nPartitions) q ↔
        (∃ y, Feeds N x y ∧ ∃ b, CrossesInto vPartition nPartitions x y q b) ∨
          (DrivesPo N x ∧ partOf vPartition x = some (q : Int) ∧ inRange q nPartitions))) ∧
      ∀ r, aigApplyPartitionResult N vPartition nPartitions = .reported r →
        r.vPartInputs = (aigPartInterface N vPartition nPartitions).1 ∧
          r.vPartOutputs = aigPartOutputs N vPartition nPartitions :=
  let ⟨hIn, hOut, hq⟩ := aigPartInterface_exact N vPartition nPartitions
  ⟨hIn, hOut, hq, fun _ h => (aigApplyPartitionResult_views h).2.2⟩

/-! ## The two sides agree -/

section agree

variable {N : AbcNtk} {p : IfMan} {vPartition : List Int} {nPartitions : Int}

theorem inRange_of_getElem? (hπ : ∀ v ∈ vPartition, v = -1 ∨ inRange v nPartitions) {i : Nat}
    {v : Int} (h : vPartition[i]? = some v) (h0 : 0 ≤ v) : inRange v nPartitions :=
  (hπ v (List.getElem?_mem h)).resolve_left (by omega)

/-- When every object's partition is -1 or in range, `If_ManSetPartitionInfo` and steps 2 and 3
of `Aig_ApplyPartitionResult` agree on every partition, whatever the partition count: the IF
inputs are the copies of the report's inputs that feed a node of the partition, and the IF
outputs the copies of the report's outputs that feed a node of another partition. What only
the report holds are the crossings from a PI to an object that is not a node, and PO drivers
that cross nowhere. -/
theorem partition_interfaces_agree (hS : N.Strashed) (hc : CopiedInto N p)
    (hπ : ∀ v ∈ vPartition, v = -1 ∨ inRange v nPartitions) {p' : IfMan}
    (hp : ifManSetPartitionInfo p N vPartition nPartitions = .ok p') :
    ∃ vIn vOut, p'.vPartInputs = some vIn ∧ p'.vPartOutputs = some vOut ∧ ∀ q x,
      (x ∈ vecVecEntry vIn q ↔
        ∃ z ∈ vecVecEntry (aigPartInterface N vPartition nPartitions).1 q, copyOf N z = some x ∧
          ∃ y, FeedsNode N z y ∧ partOf vPartition y = some (q : Int)) ∧
      (x ∈ vecVecEntry vOut q ↔
        ∃ z ∈ vecVecEntry (aigPartOutputs N vPartition nPartitions) q, copyOf N z = some x ∧
          ∃ y b, FeedsNode N z y ∧ partOf vPartition y = some b ∧ b ≠ q ∧ 0 ≤ b) := by
  obtain ⟨d, hF, rfl⟩ := ifManSetPartitionInfo_filled hS hc hp
  obtain ⟨-, -, hAig⟩ := aigPartInterface_exact N vPartition nPartitions
  refine ⟨_, _, rfl, rfl, fun q x => ⟨?_, ?_⟩⟩
  · rw [hF.inputs]
    constructor
    · rintro ⟨n, hn, hx⟩
      obtain ⟨f, hf, b, hq, hb, hb0, hbq, hfx⟩ := (inputOf_iff (pCopy_isSome_of_node hc hn)).mp hx
      have hfeed : FeedsNode N f n.1 := feedsNode_iff.mpr ⟨n.2, hn, hf⟩
      exact ⟨f, (hAig q f).1.mpr ⟨n.1, .inr hfeed, b, hb, hq, hbq, inRange_of_getElem? hπ hb hb0,
        inRange_of_getElem? hπ hq (by omega)⟩, hfx, n.1, hfeed, hq⟩
    · rintro ⟨z, hz, hzx, y, hzy, hy⟩
      obtain ⟨o, hn, hzo⟩ := feedsNode_iff.mp hzy
      obtain ⟨-, -, a, hza, -, haq, ha, -⟩ := (hAig q z).1.mp hz
      exact ⟨(y, o), hn, (inputOf_iff (pCopy_isSome_of_node hc hn)).mpr
        ⟨z, hzo, a, hy, hza, (inRange_iff.mp ha).1, haq, hzx⟩⟩
  · rw [hF.outputs]
    constructor
    · rintro ⟨n, hn, hx⟩
      obtain ⟨f, hf, a, ha, hq, ha0, haq, hfx⟩ := (outputOf_iff (pCopy_isSome_of_node hc hn)).mp hx
      have hfeed : FeedsNode N f n.1 := feedsNode_iff.mpr ⟨n.2, hn, hf⟩
      exact ⟨f, (hAig q f).2.mpr (.inl ⟨n.1, .inr hfeed, a, hq, ha, Ne.symm haq,
        inRange_of_getElem? hπ hq (by omega), inRange_of_getElem? hπ ha ha0⟩), hfx, n.1, a, hfeed,
        ha, haq, ha0⟩
    · rintro ⟨z, hz, hzx, y, b, hzy, hy, hbq, hb0⟩
      obtain ⟨o, hn, hzo⟩ := feedsNode_iff.mp hzy
      have hzq : partOf vPartition z = some (q : Int) := by
        rcases (hAig q z).2.mp hz with ⟨-, -, -, hzq, -⟩ | ⟨-, hzq, -⟩ <;> exact hzq
      exact ⟨(y, o), hn, (outputOf_iff (pCopy_isSome_of_node hc hn)).mpr
        ⟨z, hzo, b, hy, hzq, hb0, hbq, hzx⟩⟩

/-- The agreement with three partitions, where the call itself overflows its PI counter. -/
theorem partition_interfaces_agree_andCo :
    ∃ p', ifManSetPartitionInfo ifAndCo aigAndCo [-1, 0, 1, 1] 3 = .ok p' ∧
      ∃ vIn vOut, p'.vPartInputs = some vIn ∧ p'.vPartOutputs = some vOut ∧ ∀ q x,
      (x ∈ vecVecEntry vIn q ↔
        ∃ z ∈ vecVecEntry (aigPartInterface aigAndCo [-1, 0, 1, 1] 3).1 q,
          copyOf aigAndCo z = some x ∧
          ∃ y, FeedsNode aigAndCo z y ∧ partOf [-1, 0, 1, 1] y = some (q : Int)) ∧
      (x ∈ vecVecEntry vOut q ↔
        ∃ z ∈ vecVecEntry (aigPartOutputs aigAndCo [-1, 0, 1, 1] 3) q, copyOf aigAndCo z = some x ∧
          ∃ y b, FeedsNode aigAndCo z y ∧ partOf [-1, 0, 1, 1] y = some b ∧ b ≠ q ∧ 0 ≤ b) :=
  ⟨_, rfl, @partition_interfaces_agree aigAndCo ifAndCo [-1, 0, 1, 1] 3 (by decide)
    (by decide) (by decide) _ rfl⟩

end agree

end abc_partition.partition_interface
