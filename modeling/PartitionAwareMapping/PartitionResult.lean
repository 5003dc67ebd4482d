-- Applying a partition vector to the AIG network: `Aig_ApplyPartitionResult`
-- assigns objects to partitions, collects the interface signals of each
-- partition, and prints per-partition statistics. Its PI counter is a C array of
-- two slots, whatever the number of partitions.
import PartitionAwareMapping.HypergraphLaws

namespace abc_partition.partition_result

open abc_partition.vectors abc_partition.network abc_partition.hypergraph

/-! ## The pure model -/

/-- The partition of id `i` in the vector `vPartition`, when `i` is inside it. -/
def partOf (vPartition : List Int) (i : Nat) : Option Int := vPartition[i]?

/-- A partition index that names one of the `nPartitions` partitions. -/
def inRange (part nPartitions : Int) : Bool := 0 ≤ part && part < nPartitions

/-- The statistics `Aig_ApplyPartitionResult` prints. `lines` holds, for each partition `i`,
the values of the line it prints: `i`, nodes, PIs, inputs, outputs. -/
structure PartitionReport where
  vPartNodes : List (List Nat)
  vPartInputs : List (List Nat)
  vPartOutputs : List (List Nat)
  vPartSize : List Nat
  lines : List (Nat × Nat × Nat × Nat × Nat)
  nCutEdges : Nat
  deriving DecidableEq, Repr

/-- What a call comes to: the arguments are refused and it returns 0; or it prints its
report and returns 1; or it reaches an access of the two-slot PI counter at an index past
the end of the array, a write or a read outside it. -/
inductive ApplyOutcome
  | refused
  | reported (r : PartitionReport)
  | counterOverflow (index : Nat)
  deriving DecidableEq, Repr

/-- Step 1, for one object: an object with a partition in range joins it. -/
def applyAssign (vPartition : List Int) (nPartitions : Int)
    (acc : List (List Nat) × List Nat) (objId : Nat) : List (List Nat) × List Nat :=
  match partOf vPartition objId with
  | some partId =>
    if inRange partId nPartitions then
      (vecVecPush acc.1 partId.toNat objId, acc.2.modify (· + 1) partId.toNat)
    else acc
  | none => acc

/-- One cross-partition connection from `src` into a consumer in partition `dst`: `src` is an
output of its partition and an input of `dst`. `acc` is (inputs, outputs). -/
def applyCross (acc : List (List Nat) × List (List Nat)) (src : Nat) (srcPart dstPart : Int) :
    List (List Nat) × List (List Nat) :=
  (vecVecPushUniqueInt acc.1 dstPart.toNat src, vecVecPushUniqueInt acc.2 srcPart.toNat src)

/-- Step 2, for one PI: every fanout in another partition in range crosses. -/
def applyPi (N : AbcNtk) (vPartition : List Int) (nPartitions : Int)
    (acc : List (List Nat) × List (List Nat)) (nodeIdx : Nat) : List (List Nat) × List (List Nat) :=
  match partOf vPartition nodeIdx, N.obj nodeIdx with
  | some partId, some pObj =>
    if inRange partId nPartitions then
      pObj.vFanouts.foldl
        (fun acc fanoutIdx =>
          match partOf vPartition fanoutIdx with
          | some fanoutPart =>
            if fanoutPart ≠ partId && inRange fanoutPart nPartitions then
              applyCross acc nodeIdx partId fanoutPart
            else acc
          | none => acc)
        acc
    else acc
  | _, _ => acc

/-- Step 2, for one internal node: every fanin in another partition in range crosses. -/
def applyNode (vPartition : List Int) (nPartitions : Int)
    (acc : List (List Nat) × List (List Nat)) (p : Nat × AbcObj) : List (List Nat) × List (List Nat) :=
  match partOf vPartition p.1 with
  | some partId =>
    if inRange partId nPartitions then
      p.2.vFanins.foldl
        (fun acc faninIdx =>
          match partOf vPartition faninIdx with
          | some faninPart =>
            if faninPart ≠ partId && inRange faninPart nPartitions then
              applyCross acc faninIdx faninPart partId
            else acc
          | none => acc)
        acc
    else acc
  | none => acc

/-- Step 3, for one PO: its driver, in a partition in range, is an output of it. -/
def applyPo (N : AbcNtk) (vPartition : List Int) (nPartitions : Int)
    (vPartOutputs : List (List Nat)) (poId : Nat) : List (List Nat) :=
  match N.obj poId with
  | some pObj =>
    match pObj.vFanins.head? with
    | some faninIdx =>
      match partOf vPartition faninIdx with
      | some faninPart =>
        if inRange faninPart nPartitions then vecVecPushUniqueInt vPartOutputs faninPart.toNat faninIdx
        else vPartOutputs
      | none => vPartOutputs
    | none => vPartOutputs
  | none => vPartOutputs

/-- `nPIsInPartition[part]++` on the C array `a`: past its end it is an overflow at `part`. -/
def cArrayIncr (a : List Nat) (part : Nat) : Except Nat (List Nat) :=
  if part < a.length then .ok (a.modify (· + 1) part) else .error part

/-- `nPIsInPartition[i]` on the C array `a`: past its end it is an overflow at `i`. -/
def cArrayRead (a : List Nat) (i : Nat) : Except Nat Nat :=
  match a[i]? with
  | some n => .ok n
  | none => .error i

/-- Step 4, for one PI: a PI with a partition in range is counted in the array. -/
def countPi (vPartition : List Int) (nPartitions : Int) (a : List Nat) (objId : Nat) :
    Except Nat (List Nat) :=
  match partOf vPartition objId with
  | some part => if inRange part nPartitions then cArrayIncr a part.toNat else .ok a
  | none => .ok a

/-- Step 4, the count, on `int nPIsInPartition[2] = {0, 0}`. -/
def aigCountPis (N : AbcNtk) (vPartition : List Int) (nPartitions : Int) : Except Nat (List Nat) :=
  N.vPis.foldlM (countPi vPartition nPartitions) [0, 0]

/-- `Aig_ApplyPartitionResult`. The network, hypergraph and vector pointers are values here,
never null, so the only refusal left is `nPartitions <= 0`; the hypergraph is not read. -/
def aigApplyPartitionResult (N : AbcNtk) (vPartition : List Int) (nPartitions : Int) :
    ApplyOutcome :=
  if nPartitions ≤ 0 then .refused
  else
    let n := nPartitions.toNat
    let assigned := (N.objs.map Prod.fst).foldl (applyAssign vPartition nPartitions)
      (vecVecStart n, List.replicate n 0)
    let io := N.vPis.foldl (applyPi N vPartition nPartitions) (vecVecStart n, vecVecStart n)
    let io := (N.objs.filter (fun p => abcObjIsNode p.2)).foldl (applyNode vPartition nPartitions) io
    let outputs := N.vPos.foldl (applyPo N vPartition nPartitions) io.2
    let report : Except Nat PartitionReport := do
      let nPIsInPartition ← aigCountPis N vPartition nPartitions
      let lines ← (List.range n).mapM (fun i => do
        let nPis ← cArrayRead nPIsInPartition i
        pure (i, (vecVecEntry assigned.1 i).length, nPis, (vecVecEntry io.1 i).length,
          (vecVecEntry outputs i).length))
      pure ⟨assigned.1, io.1, outputs, assigned.2, lines,
        ((List.range n).map (fun i => (vecVecEntry io.1 i).length)).sum⟩
    match report with
    | .ok r => .reported r
    | .error i => .counterOverflow i

/-! ## The PI counter -/


/-- One count keeps the length of the array, and overflows only past its end. -/
theorem countPi_spec (vPartition : List Int) (nPartitions : Int) (a : List Nat) (x : Nat) :
    (∀ b, countPi vPartition nPartitions a x = .ok b → b.length = a.length) ∧
      (∀ i, countPi vPartition nPartitions a x = .error i → a.length ≤ i) := by
  unfold countPi cArrayIncr
  split
  · split
    · split
      · exact ⟨fun b h => by cases h; simp, fun i h => (by cases h)⟩
      · exact ⟨fun b h => (by cases h), fun i h => by cases h; omega⟩
    · exact ⟨fun b h => by cases h; rfl, fun i h => (by cases h)⟩
  · exact ⟨fun b h => by cases h; rfl, fun i h => (by cases h)⟩

/-- The count keeps the array at two slots, and an overflow of it is at an index of at
least 2. -/
theorem foldlM_countPi (vPartition : List Int) (nPartitions : Int) :
    ∀ (l : List Nat) (a : List Nat), a.length = 2 →
      (∀ b, l.foldlM (countPi vPartition nPartitions) a = .ok b → b.length = 2) ∧
        (∀ i, l.foldlM (countPi vPartition nPartitions) a = .error i → 2 ≤ i)
  | [], a, ha => ⟨fun b h => by cases h; exact ha, fun i h => by cases h⟩
  | x :: l, a, ha => by
    rw [List.foldlM_cons]
    have hs := countPi_spec vPartition nPartitions a x
    rcases hx : countPi vPartition nPartitions a x with i | b
    · exact ⟨fun b h => (by cases h), fun j h => by cases h; exact ha ▸ hs.2 i hx⟩
    · exact foldlM_countPi vPartition nPartitions l b (by rw [hs.1 b hx, ha])

/-- With at most two partitions the count stays inside the array. -/
theorem foldlM_countPi_ok (vPartition : List Int) (nPartitions : Int) (h : nPartitions ≤ 2) :
    ∀ (l : List Nat) (a : List Nat), a.length = 2 →
      ∃ b, l.foldlM (countPi vPartition nPartitions) a = .ok b ∧ b.length = 2
  | [], a, ha => ⟨a, rfl, ha⟩
  | x :: l, a, ha => by
    rw [List.foldlM_cons]
    have hs := countPi_spec vPartition nPartitions a x
    rcases hx : countPi vPartition nPartitions a x with i | b
    · exfalso
      have hi := hs.2 i hx
      unfold countPi cArrayIncr at hx
      split at hx
      · rename_i part _
        split at hx
        · rename_i hr
          simp only [inRange, Bool.and_eq_true, decide_eq_true_eq] at hr
          split at hx
          · cases hx
          · cases hx; omega
        · cases hx
      · cases hx
    · exact foldlM_countPi_ok vPartition nPartitions h l b (by rw [hs.1 b hx, ha])

/-- Reading the first `n` slots of the array: all of them when they lie inside it, else an
overflow at the first index past its end. -/
theorem mapM_cArrayRead {β : Type} (a : List Nat) (g : Nat → Nat → β) : ∀ n,
    (List.range n).mapM (fun i => do let x ← cArrayRead a i; pure (g i x)) =
      if n ≤ a.length then .ok ((List.range n).map (fun i => g i (a.getD i 0)))
      else .error a.length
  | 0 => by rw [if_pos (Nat.zero_le _)]; rfl
  | n + 1 => by
    rw [List.range_succ, List.mapM_append, mapM_cArrayRead a g n, List.mapM_cons, List.mapM_nil]
    by_cases h : n + 1 ≤ a.length
    · rw [if_pos (by omega), if_pos h]
      simp [cArrayRead, List.getElem?_eq_getElem h, List.getD_eq_getElem?_getD]
    · rw [if_neg h]
      by_cases h' : n ≤ a.length
      · rw [if_pos h']
        simp [cArrayRead, List.getElem?_eq_none (show a.length ≤ n by omega)]
        rw [show n = a.length by omega]
      · rw [if_neg h']; rfl

/-- With one or two partitions every access of the counter is inside it, and the call prints
its report. -/
theorem aigApplyPartitionResult_reported (N : AbcNtk) (vPartition : List Int) (nPartitions : Int)
    (h1 : 1 ≤ nPartitions) (h2 : nPartitions ≤ 2) :
    ∃ r, aigApplyPartitionResult N vPartition nPartitions = .reported r := by
  obtain ⟨a, ha, hl⟩ := foldlM_countPi_ok vPartition nPartitions h2 N.vPis [0, 0] rfl
  unfold aigApplyPartitionResult aigCountPis
  rw [if_neg (by omega)]
  simp only [ha, ok_bind, mapM_cArrayRead, hl, if_pos (show nPartitions.toNat ≤ 2 by omega)]
  exact ⟨_, rfl⟩

/-- With at most two partitions the call never reaches the counter past its end: it refuses
the count, or prints its report. -/
theorem aigApplyPartitionResult_no_overflow (N : AbcNtk) (vPartition : List Int)
    {nPartitions : Int} (h2 : nPartitions ≤ 2) :
    aigApplyPartitionResult N vPartition nPartitions = .refused ∨
      ∃ r, aigApplyPartitionResult N vPartition nPartitions = .reported r := by
  by_cases h0 : nPartitions ≤ 0
  · exact .inl (by rw [aigApplyPartitionResult, if_pos h0])
  · exact .inr (aigApplyPartitionResult_reported N vPartition nPartitions (by omega) h2)

/-- With three partitions or more the call always reaches the counter past its two slots:
the count writes past them, or else the report reads slot 2. -/
theorem aigApplyPartitionResult_overflow (N : AbcNtk) (vPartition : List Int) (nPartitions : Int)
    (h3 : 3 ≤ nPartitions) :
    ∃ i, 2 ≤ i ∧ aigApplyPartitionResult N vPartition nPartitions = .counterOverflow i := by
  have hc := foldlM_countPi vPartition nPartitions N.vPis [0, 0] rfl
  unfold aigApplyPartitionResult
  rw [if_neg (by omega)]
  rcases hx : aigCountPis N vPartition nPartitions with i | a
  · simp only [hx, error_bind]
    exact ⟨i, hc.2 i hx, rfl⟩
  · simp only [hx, ok_bind, mapM_cArrayRead, hc.1 a hx, if_neg (show ¬ nPartitions.toNat ≤ 2 by omega)]
    exact ⟨2, le_refl 2, rfl⟩

/-- On one input driving one output, with three partitions, the report reads the counter at
index 2, past its end; with the input in partition 2 the count already writes there. -/
theorem apply_partition_result_three_partitions :
    aigApplyPartitionResult aigPiPo [-1, 0, 0] 3 = .counterOverflow 2 ∧
      aigApplyPartitionResult aigPiPo [-1, 2, 2] 3 = .counterOverflow 2 ∧
      aigCountPis aigPiPo [-1, 2, 2] 3 = .error 2 :=
  ⟨by decide, by decide, rfl⟩

end abc_partition.partition_result
