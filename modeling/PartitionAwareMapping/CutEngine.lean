-- The partition-aware cut computation of one AND object,
-- `If_ObjPerformMappingAndPartitionAware`, and what it keeps over whole runs:
-- in any order of calls, every AND object's best cut passes the locality check
-- of its partition. On its fallback path the routine runs the prologue of the
-- unconstrained routine a second time.
import PartitionAwareMapping.PartitionInfo
import Mathlib.Logic.Relation
import Mathlib.Tactic.NormNum

namespace abc_partition.cut_engine

open abc_partition.vectors abc_partition.if_manager abc_partition.partition_info

/-! ## The pure model -/

/-- `If_WordCountOnes`: the ones of a signature, counted by adding neighbouring bit fields. -/
def ifWordCountOnes (uWord : UInt32) : UInt32 :=
  let uWord : UInt32 := (uWord &&& (0x55555555 : UInt32)) + ((uWord >>> 1) &&& 0x55555555)
  let uWord : UInt32 := (uWord &&& (0x33333333 : UInt32)) + ((uWord >>> 2) &&& 0x33333333)
  let uWord : UInt32 := (uWord &&& (0x0F0F0F0F : UInt32)) + ((uWord >>> 4) &&& 0x0F0F0F0F)
  let uWord : UInt32 := (uWord &&& (0x00FF00FF : UInt32)) + ((uWord >>> 8) &&& 0x00FF00FF)
  (uWord &&& (0x0000FFFF : UInt32)) + (uWord >>> 16)

/-- How a call stops short: an assertion fails (the object is an AND with two fanins; the set
is within its capacity; the set has a cut when the best one is chosen), or `If_ObjForEachCut`
walks a fanin that has no cut set. -/
inductive MapFault
  | notAnd
  | setOverflow
  | noCuts
  | nullCutSet
  deriving DecidableEq, Repr

/-- A call of the area accounting of the generic engine on the best cut of an object. -/
inductive AreaCall
  | deref (i : Nat)
  | ref (i : Nat)
  deriving DecidableEq, Repr

/-- The assertions that open the routine: object `i` is an AND with both fanins. -/
def ifAndObj (p : IfMan) (i : Nat) : Except MapFault IfObj :=
  match p.obj i with
  | some pObj =>
    if ifObjIsAnd pObj && pObj.pFanin0.isSome && pObj.pFanin1.isSome then .ok pObj
    else .error .notAnd
  | none => .error .notAnd

/-- The `EstRefs` update: mode 0 takes the reference count, mode 1 averages it in. -/
def ifUpdateEstRefs (mode : Int) (pObj : IfObj) : IfObj :=
  { pObj with
    estRefs :=
      if mode = 0 then pObj.nRefs
      else if mode = 1 then (2 * pObj.estRefs + pObj.nRefs) / 3
      else pObj.estRefs }

/-- The reference counts `count` gives every object. -/
def setNRefs (p : IfMan) (count : Nat → Int) : IfMan :=
  p.mapObjs fun j o => { o with nRefs := count j }

/-- `If_CutAreaDeref` or `If_CutAreaRef` of the best cut of object `i`, made when the mode is
set and the object is referenced, and logged as `call i`. -/
def ifAreaCall (count : IfMan → IfCut → Nat → Int) (call : Nat → AreaCall) (p : IfMan)
    (i : Nat) (mode : Int) : IfMan × List AreaCall :=
  match p.obj i with
  | some pObj =>
    if mode ≠ 0 ∧ 0 < pObj.nRefs then (setNRefs p (count p pObj.cutBest), [call i])
    else (p, [])
  | none => (p, [])

/-- The prologue: update `EstRefs`, then "Deref the selected cut". -/
def ifPrologue (ops : IfOps) (p : IfMan) (i : Nat) (mode : Int) : IfMan × List AreaCall :=
  ifAreaCall ops.cutAreaDeref .deref (p.modifyObj i (ifUpdateEstRefs mode)) i mode

/-- `If_ManDerefNodeCutSet`: the visit counts it leaves, and the cut sets it recycles. -/
def ifManDerefNodeCutSet (ops : IfOps) (p : IfMan) (i : Nat) : IfMan :=
  p.mapObjs fun j o =>
    { o with
      nVisits := (ops.derefNodeCutSet p i j).1
      pCutSet := if (ops.derefNodeCutSet p i j).2 then none else o.pCutSet }

/-- Modelled from the spec: `If_ObjPerformMappingAnd` of `ifMap.c` is not among the sources.
It is the unconstrained routine the fallback calls. Like the partition-aware routine it opens
with the `EstRefs` update and the dereference of the best cut; it then enumerates and selects
cuts (`cutsUnconstrained`), references the best cut again when the mode is set and the object
is referenced, and frees the cut sets. -/
def ifObjPerformMappingAnd (ops : IfOps) (p : IfMan) (i : Nat) (mode : Int)
    (fPreprocess fFirst : Bool) : IfMan × List AreaCall :=
  let pro := ifPrologue ops p i mode
  let epi := ifAreaCall ops.cutAreaRef .ref
    (ops.cutsUnconstrained pro.1 i mode fPreprocess fFirst) i mode
  (ifManDerefNodeCutSet ops epi.1 i, pro.2 ++ epi.2)

/-- The cut set of the object a fanin points to; `NULL` is `none`. -/
def ifFaninCutSet (p : IfMan) (pFanin : Option Nat) : Option IfSet :=
  pFanin.bind fun f => (p.obj f).bind IfObj.pCutSet

/-- The fallback test: not the first round, and a fanin without a cut set. -/
def ifTakesFallback (p : IfMan) (pObj : IfObj) (fFirst : Bool) : Bool :=
  !fFirst && ((ifFaninCutSet p pObj.pFanin0).isNone || (ifFaninCutSet p pObj.pFanin1).isNone)

/-- `EstRefs` of an object with no estimate yet: its reference count, at least 1. -/
def ifInitEstRefs (fEpsilon : ℚ) (pObj : IfObj) : IfObj :=
  { pObj with
    estRefs :=
      if pObj.estRefs ≤ fEpsilon then (if 0 < pObj.nRefs then pObj.nRefs else 1)
      else pObj.estRefs }

/-- "Ensure EstRefs" for one fanin: it gets an estimate when it and the object are assigned to
different partitions. -/
def ifEnsureEstRefs (p : IfMan) (objPartition : Int) : Option Nat → IfMan
  | some f =>
    if ifObjPartition p f ≠ objPartition ∧ 0 ≤ ifObjPartition p f ∧ 0 ≤ objPartition then
      p.modifyObj f (ifInitEstRefs p.fEpsilon)
    else p
  | none => p

/-- "Get partition information": with partition data, each fanin that crosses into the
object's partition gets an estimate of its references. -/
def ifEnsureFaninEstRefs (p : IfMan) (objPartition : Int) (pObj : IfObj) : IfMan :=
  if p.vPartition.isSome then
    ifEnsureEstRefs (ifEnsureEstRefs p objPartition pObj.pFanin0) objPartition pObj.pFanin1
  else p

/-- Modelled from the spec: `If_ManSetupNodeCutSet` of `ifMan.c` is not among the sources. A
node's cuts of the round before are invalid before new cuts are written into its slots, so the
set it hands out holds no cut, with the capacity `nCutsMax` of the parameters. -/
def ifManSetupNodeCutSet (p : IfMan) : IfSet := ⟨p.nCutsMax, []⟩

/-- "Recompute cut parameters": the best cut's delay, then its area flow. -/
def ifRecomputeBest (ops : IfOps) (p : IfMan) (i : Nat) : IfMan :=
  let p := p.modifyObj i fun o =>
    { o with cutBest := { o.cutBest with delay := ops.cutDelay p i o.cutBest } }
  p.modifyObj i fun o =>
    { o with cutBest := { o.cutBest with area := ops.cutAreaFlow p o.cutBest } }

/-- "Prepare the cutset"; when it is not the first round, the best cut is recomputed and saved
into the set, unless preprocessing keeps a cut of several leaves out. -/
def ifSetupCuts (ops : IfOps) (p : IfMan) (i : Nat) (fPreprocess fFirst : Bool) :
    IfMan × IfSet :=
  let pCutSet := ifManSetupNodeCutSet p
  let p := p.modifyObj i fun o => { o with pCutSet := some pCutSet }
  if fFirst then (p, pCutSet)
  else
    let p := ifRecomputeBest ops p i
    match p.obj i with
    | some pObj =>
      if !fPreprocess || pObj.cutBest.leaves.length ≤ 1 then
        (p, { pCutSet with cuts := pCutSet.cuts ++ [pObj.cutBest] })
      else (p, pCutSet)
    | none => (p, pCutSet)

/-- The cuts `If_ObjForEachCut` walks for a fanin: those of its cut set, read through a null
pointer when it has none. -/
def ifFaninCuts (p : IfMan) (pFanin : Option Nat) : Except MapFault (List IfCut) :=
  match ifFaninCutSet p pFanin with
  | some pCutSet => .ok pCutSet.cuts
  | none => .error .nullCutSet

/-- The pairs of the two nested `If_ObjForEachCut` loops, the first fanin's cut outside. -/
def ifCutPairs (cuts0 cuts1 : List IfCut) : List (IfCut × IfCut) :=
  cuts0.flatMap fun pCut0 => cuts1.map fun pCut1 => (pCut0, pCut1)

/-- The two counters of merged cuts, one more. -/
def ifCountMerged (p : IfMan) : IfMan :=
  { p with
    nCutsMerged := p.nCutsMerged + 1
    nCutsTotal := p.nCutsTotal + 1 }

/-- A merged cut that passed the partition check, once counted: it is filtered, given its truth
table, its delay and its area flow, and sorted into the set. -/
def ifEnumAccept (ops : IfOps) (i : Nat) (pObj : IfObj) (p : IfMan) (pCutSet : IfSet)
    (pair : IfCut × IfCut) (pCut : IfCut) : IfSet :=
  let filtered := if p.fSkipCutFilter then (false, pCutSet) else ops.cutFilter pCutSet pCut
  if filtered.1 then filtered.2
  else
    match if p.fTruth then ops.cutComputeTruth p pCut pair.1 pair.2 pObj.fCompl0 pObj.fCompl1
        else some pCut with
    | none => filtered.2
    | some pCut =>
      let pCut := { pCut with delay := ops.cutDelay p i pCut }
      if pCut.delay = (-1 : ℚ) then filtered.2
      else ops.cutSort p filtered.2 { pCut with area := ops.cutAreaFlow p pCut }

/-- One pair of fanin cuts: the capacity assertion, the signature test, the merge and the
partition check, then `ifEnumAccept`. -/
def ifEnumStep (ops : IfOps) (i : Nat) (pObj : IfObj) (objPartition : Int)
    (st : IfMan × IfSet) (pair : IfCut × IfCut) : Except MapFault (IfMan × IfSet) :=
  if st.2.nCutsMax < st.2.cuts.length then .error .setOverflow
  else if st.1.nLutSize < (ifWordCountOnes (pair.1.uSign ||| pair.2.uSign)).toNat then .ok st
  else
    match ops.cutMergeOrdered st.1 pair.1 pair.2 with
    | none => .ok st
    | some pCut =>
      if st.1.vPartition.isSome && decide (0 ≤ objPartition) &&
          !ifCutCheckPartition st.1 pCut objPartition then .ok st
      else .ok (ifCountMerged st.1, ifEnumAccept ops i pObj (ifCountMerged st.1) st.2 pair pCut)

/-- "Make sure we have at least one cut": an empty set gets the trivial cut. -/
def ifEnsureCut (ops : IfOps) (p : IfMan) (i : Nat) (pCutSet : IfSet) : IfSet :=
  if pCutSet.cuts.isEmpty then { pCutSet with cuts := [ops.setupCutTriv p i] } else pCutSet

/-- "Update best cut": after the assertion that the set has a cut, its first cut becomes the
best one, unless preprocessing finds it later than required. -/
def ifUpdateBest (p : IfMan) (i : Nat) (fPreprocess : Bool) (pCutSet : IfSet) :
    Except MapFault IfMan :=
  match pCutSet.cuts with
  | [] => .error .noCuts
  | pCut :: _ =>
    .ok (p.modifyObj i fun o =>
      { o with
        cutBest :=
          if !fPreprocess || pCut.delay ≤ o.required + p.fEpsilon then pCut else o.cutBest })

/-- "Add trivial cut" after a best cut of several leaves, unless the object skips it, with the
capacity assertion; the set is then the object's. -/
def ifAddCutTriv (ops : IfOps) (p : IfMan) (i : Nat) (pCutSet : IfSet) :
    Except MapFault IfMan :=
  match p.obj i with
  | some pObj =>
    if !pObj.fSkipCut && 1 < pObj.cutBest.leaves.length then
      if pCutSet.nCutsMax + 1 < pCutSet.cuts.length + 1 then .error .setOverflow
      else .ok (p.modifyObj i fun o =>
        { o with pCutSet := some { pCutSet with cuts := pCutSet.cuts ++ [ops.setupCutTriv p i] } })
    else .ok (p.modifyObj i fun o => { o with pCutSet := some pCutSet })
  | none => .ok (p.modifyObj i fun o => { o with pCutSet := some pCutSet })

/-- `If_ObjPerformMappingAndPartitionAware` (`ifPartition.c`, lines 270-426). The counts of
merged cuts are the manager's, so the routines it calls see them as the loop leaves them. -/
def ifObjPerformMappingAndPartitionAware (ops : IfOps) (p : IfMan) (i : Nat) (mode : Int)
    (fPreprocess fFirst : Bool) : Except MapFault (IfMan × List AreaCall) := do
  let pObj ← ifAndObj p i
  let pro := ifPrologue ops p i mode
  if ifTakesFallback pro.1 pObj fFirst then
    let r := ifObjPerformMappingAnd ops pro.1 i mode fPreprocess fFirst
    return (r.1, pro.2 ++ r.2)
  let objPartition := ifObjPartition pro.1 i
  let st := ifSetupCuts ops (ifEnsureFaninEstRefs pro.1 objPartition pObj) i fPreprocess fFirst
  let cuts0 ← ifFaninCuts st.1 pObj.pFanin0
  let cuts1 ← ifFaninCuts st.1 pObj.pFanin1
  let st ← (ifCutPairs cuts0 cuts1).foldlM (ifEnumStep ops i pObj objPartition) st
  let pCutSet := ifEnsureCut ops st.1 i st.2
  let q ← ifUpdateBest st.1 i fPreprocess pCutSet
  let q ← ifAddCutTriv ops q i pCutSet
  let epi := ifAreaCall ops.cutAreaRef .ref q i mode
  return (ifManDerefNodeCutSet ops epi.1 i, pro.2 ++ epi.2)

/-- `If_ObjLimitCutsToTrivial`: an object with a cut set gets an estimate of its references and
keeps one cut, its trivial cut, with the best cut's delay and the area of one LUT. The cut is
written into the set's first slot; the stale slot of an empty set is read as `emptyCut`. -/
def ifObjLimitCutsToTrivial (ops : IfOps) (p : IfMan) (i : Nat) : IfMan :=
  match (p.obj i).bind IfObj.pCutSet with
  | none => p
  | some pCutSet =>
    let p := p.modifyObj i (ifInitEstRefs p.fEpsilon)
    match p.obj i with
    | none => p
    | some pObj =>
      let pCut := { pCutSet.cuts.headD emptyCut with
        leaves := [i]
        uSign := ops.objCutSign i
        delay := pObj.cutBest.delay }
      let pCut := { pCut with area := ops.cutLutArea p pCut }
      p.modifyObj i fun o => { o with pCutSet := some { pCutSet with cuts := [pCut] } }

/-! ## What a stage can change -/

/-- The partition data the locality check reads. -/
def ifPartitionData (p : IfMan) : Option (List Int) × Option (List (List Nat)) × Int :=
  (p.vPartition, p.vPartInputs, p.nPartitions)

/-- What the locality invariant reads of an object: its type and its best cut's leaves. -/
def ifObjKey (o : IfObj) : IfType × List Nat := (o.type, o.cutBest.leaves)

/-- A change the locality invariant does not see: the partition data, and the type and the
leaves of the best cut of every object, are as they were. -/
structure KeepsBests (p q : IfMan) : Prop where
  partitionData : ifPartitionData q = ifPartitionData p
  obj_key : ∀ j, (q.obj j).map ifObjKey = (p.obj j).map ifObjKey

theorem KeepsBests.refl (p : IfMan) : KeepsBests p p := ⟨rfl, fun _ => rfl⟩

theorem KeepsBests.trans {p q r : IfMan} (h : KeepsBests p q) (h' : KeepsBests q r) :
    KeepsBests p r :=
  ⟨h'.partitionData.trans h.partitionData, fun j => (h'.obj_key j).trans (h.obj_key j)⟩

theorem KeepsBests.obj {p q : IfMan} (h : KeepsBests p q) {j : Nat} {o' : IfObj}
    (ho' : q.obj j = some o') :
    ∃ o, p.obj j = some o ∧ o.type = o'.type ∧ o.cutBest.leaves = o'.cutBest.leaves := by
  have hk := h.obj_key j
  rw [ho'] at hk
  cases ho : p.obj j with
  | none => rw [ho] at hk; cases hk
  | some o =>
    rw [ho] at hk
    simp only [Option.map_some', Option.some.injEq, ifObjKey, Prod.mk.injEq] at hk
    exact ⟨o, rfl, hk.1.symm, hk.2.symm⟩

theorem keepsBests_modifyObj (p : IfMan) (i : Nat) (f : IfObj → IfObj)
    (hf : ∀ o, ifObjKey (f o) = ifObjKey o) : KeepsBests p (p.modifyObj i f) := by
  refine ⟨rfl, fun j => ?_⟩
  rw [IfMan.obj_modifyObj]
  split
  · rw [Option.map_map, show ifObjKey ∘ f = ifObjKey from funext hf]
  · rfl

theorem keepsBests_mapObjs (p : IfMan) (f : Nat → IfObj → IfObj)
    (hf : ∀ j o, ifObjKey (f j o) = ifObjKey o) : KeepsBests p (p.mapObjs f) :=
  ⟨rfl, fun j => by rw [IfMan.obj_mapObjs, Option.map_map, show ifObjKey ∘ f j = ifObjKey from
    funext (hf j)]⟩

theorem keepsBests_ifAreaCall (count : IfMan → IfCut → Nat → Int) (call : Nat → AreaCall)
    (p : IfMan) (i : Nat) (mode : Int) : KeepsBests p (ifAreaCall count call p i mode).1 := by
  unfold ifAreaCall
  split
  · split
    · exact keepsBests_mapObjs p _ (by intros; rfl)
    · exact .refl p
  · exact .refl p

theorem keepsBests_ifPrologue (ops : IfOps) (p : IfMan) (i : Nat) (mode : Int) :
    KeepsBests p (ifPrologue ops p i mode).1 :=
  (keepsBests_modifyObj p i _ (by intro; rfl)).trans (keepsBests_ifAreaCall _ _ _ _ _)

theorem keepsBests_ifManDerefNodeCutSet (ops : IfOps) (p : IfMan) (i : Nat) :
    KeepsBests p (ifManDerefNodeCutSet ops p i) :=
  keepsBests_mapObjs p _ (by intros; rfl)

theorem keepsBests_ifEnsureFaninEstRefs (p : IfMan) (t : Int) (pObj : IfObj) :
    KeepsBests p (ifEnsureFaninEstRefs p t pObj) := by
  have hf : ∀ (q : IfMan) f, KeepsBests q (ifEnsureEstRefs q t f) := by
    rintro q (_ | f)
    · exact .refl q
    · simp only [ifEnsureEstRefs]
      split
      · exact keepsBests_modifyObj q f _ (by intro; rfl)
      · exact .refl q
  unfold ifEnsureFaninEstRefs
  split
  · exact (hf _ _).trans (hf _ _)
  · exact .refl p

theorem keepsBests_ifRecomputeBest (ops : IfOps) (p : IfMan) (i : Nat) :
    KeepsBests p (ifRecomputeBest ops p i) :=
  (keepsBests_modifyObj _ _ _ (by intro; rfl)).trans (keepsBests_modifyObj _ _ _ (by intro; rfl))

/-- The manager after "Prepare the cutset", which the rest of `ifSetupCuts` starts from. -/
theorem keepsBests_setupNode (p : IfMan) (i : Nat) :
    KeepsBests p (p.modifyObj i fun o => { o with pCutSet := some (ifManSetupNodeCutSet p) }) :=
  keepsBests_modifyObj p i _ (by intro; rfl)

theorem keepsBests_ifSetupCuts (ops : IfOps) (p : IfMan) (i : Nat) (fPreprocess fFirst : Bool) :
    KeepsBests p (ifSetupCuts ops p i fPreprocess fFirst).1 := by
  have k := (keepsBests_setupNode p i).trans (keepsBests_ifRecomputeBest ops _ i)
  unfold ifSetupCuts
  dsimp only
  split
  · exact keepsBests_setupNode p i
  · split
    · split <;> exact k
    · exact k

/-- The cuts the set starts with: none, or the best cut of the object, recomputed. -/
theorem mem_ifSetupCuts {ops : IfOps} {p : IfMan} {i : Nat} {fPreprocess fFirst : Bool}
    {c : IfCut} (hc : c ∈ (ifSetupCuts ops p i fPreprocess fFirst).2.cuts) :
    ∃ o, p.obj i = some o ∧ o.cutBest.leaves = c.leaves := by
  have k := (keepsBests_setupNode p i).trans (keepsBests_ifRecomputeBest ops _ i)
  unfold ifSetupCuts at hc
  dsimp only at hc
  split at hc
  · simp [ifManSetupNodeCutSet] at hc
  · split at hc
    next pObj hpObj =>
      split at hc
      · simp only [ifManSetupNodeCutSet, List.nil_append, List.mem_singleton] at hc
        obtain ⟨o, ho, -, hl⟩ := k.obj hpObj
        exact ⟨o, ho, hc ▸ hl⟩
      · simp [ifManSetupNodeCutSet] at hc
    · simp [ifManSetupNodeCutSet] at hc

/-- What the redundancy check leaves for a merged cut: at most the cuts of the set, and only
cuts of it, within the same capacity. -/
theorem ifFilter_spec (ops : IfOps) (q : IfMan) (s : IfSet) (pCut : IfCut) :
    (if q.fSkipCutFilter then (false, s) else ops.cutFilter s pCut).2.nCutsMax = s.nCutsMax ∧
      (if q.fSkipCutFilter then (false, s) else ops.cutFilter s pCut).2.cuts.length ≤
        s.cuts.length ∧
      ∀ c ∈ (if q.fSkipCutFilter then (false, s) else ops.cutFilter s pCut).2.cuts, c ∈ s.cuts := by
  split
  · exact ⟨rfl, le_refl _, fun _ => id⟩
  · exact ⟨(ops.filter_capacity s pCut).1, (ops.filter_capacity s pCut).2, ops.filter_cuts s pCut⟩

/-- Everything the rest of the loop body can do with a merged cut: refuse it at the redundancy,
truth or delay check, leaving the set as the redundancy check left it; or sort into that set a
cut with only leaves of the merged cut. -/
theorem ifEnumAccept_cases (ops : IfOps) (i : Nat) (pObj : IfObj) (q : IfMan) (s : IfSet)
    (pair : IfCut × IfCut) (pCut : IfCut) :
    ifEnumAccept ops i pObj q s pair pCut =
        (if q.fSkipCutFilter then (false, s) else ops.cutFilter s pCut).2 ∨
      ∃ c, (∀ l ∈ c.leaves, l ∈ pCut.leaves) ∧ ifEnumAccept ops i pObj q s pair pCut =
        ops.cutSort q (if q.fSkipCutFilter then (false, s) else ops.cutFilter s pCut).2 c := by
  unfold ifEnumAccept
  dsimp only
  generalize (if q.fSkipCutFilter then (false, s) else ops.cutFilter s pCut) = filtered
  generalize htr : (if q.fTruth then ops.cutComputeTruth q pCut pair.1 pair.2 pObj.fCompl0
    pObj.fCompl1 else some pCut) = truth
  split
  · exact .inl rfl
  rcases truth with _ | pCut'
  · exact .inl rfl
  dsimp only
  split
  · exact .inl rfl
  -- the truth table keeps only leaves of the merged cut
  refine .inr ⟨_, fun l hl => ?_, rfl⟩
  split at htr
  · exact ops.truth_leaves _ _ _ _ _ _ _ htr l hl
  · cases htr; exact hl

/-- A cut the loop body leaves in the set was there before, or has only leaves of the merged
cut. -/
theorem mem_ifEnumAccept {ops : IfOps} {i : Nat} {pObj : IfObj} {p : IfMan} {s : IfSet}
    {pair : IfCut × IfCut} {pCut c : IfCut}
    (hc : c ∈ (ifEnumAccept ops i pObj p s pair pCut).cuts) :
    c ∈ s.cuts ∨ ∀ l ∈ c.leaves, l ∈ pCut.leaves := by
  have hf := (ifFilter_spec ops p s pCut).2.2
  rcases ifEnumAccept_cases ops i pObj p s pair pCut with h | ⟨c', hl, h⟩ <;> rw [h] at hc
  · exact .inl (hf c hc)
  · rcases ops.sort_cuts _ _ _ c hc with h | rfl
    · exact .inl (hf c h)
    · exact .inr hl

/-! ## The locality check -/

theorem ifCutCheckPartition_congr {p q : IfMan} (hd : ifPartitionData q = ifPartitionData p)
    (c : IfCut) (t : Int) : ifCutCheckPartition q c t = ifCutCheckPartition p c t := by
  simp only [ifPartitionData, Prod.mk.injEq] at hd
  have hleaf : leafOk q = leafOk p := by
    funext v t l
    simp only [leafOk, ifObjIsPartitionInput, hd]
  simp only [ifCutCheckPartition, hd, hleaf]

theorem ifObjPartition_congr {p q : IfMan} (hd : ifPartitionData q = ifPartitionData p)
    (j : Nat) : ifObjPartition q j = ifObjPartition p j := by
  simp only [ifPartitionData, Prod.mk.injEq] at hd
  simp only [ifObjPartition, hd]

@[simp]
theorem ifCutCheckPartition_modifyObj (p : IfMan) (i : Nat) (f : IfObj → IfObj) (c : IfCut)
    (t : Int) : ifCutCheckPartition (p.modifyObj i f) c t = ifCutCheckPartition p c t := rfl

@[simp]
theorem ifObjPartition_modifyObj (p : IfMan) (i : Nat) (f : IfObj → IfObj) (j : Nat) :
    ifObjPartition (p.modifyObj i f) j = ifObjPartition p j := rfl

/-- The check passes for a cut whose leaves are among those of a cut that passes. -/
theorem ifCutCheckPartition_mono {p : IfMan} {c c' : IfCut} {t : Int}
    (hl : ∀ l ∈ c'.leaves, l ∈ c.leaves) (h : ifCutCheckPartition p c t = true) :
    ifCutCheckPartition p c' t = true := by
  unfold ifCutCheckPartition at h ⊢
  split at h
  · rfl
  · split_ifs at h ⊢
    · rfl
    · rw [List.all_eq_true] at h ⊢
      exact fun l hl' => h l (hl l hl')

/-- Without partition data, or for an unassigned target, every cut passes. -/
theorem ifCutCheckPartition_free {p : IfMan} {t : Int}
    (h : (p.vPartition.isSome && decide (0 ≤ t)) = false) (c : IfCut) :
    ifCutCheckPartition p c t = true := by
  unfold ifCutCheckPartition
  cases hv : p.vPartition with
  | none => rfl
  | some v =>
    rw [hv] at h
    simp only [Option.isSome_some, Bool.true_and, decide_eq_false_iff_not, not_le] at h
    simp [h]

/-- The trivial cut of an object passes the check of the object's partition. -/
theorem ifCutCheckPartition_triv (p : IfMan) {c : IfCut} {i : Nat} (hc : c.leaves = [i]) :
    ifCutCheckPartition p c (ifObjPartition p i) = true := by
  unfold ifCutCheckPartition ifObjPartition
  cases p.vPartition with
  | none => rfl
  | some v =>
    dsimp only
    split_ifs
    · rfl
    · rcases hvi : v[i]? with _ | x <;> simp [hc, leafOk, List.getD_eq_getElem?_getD, hvi]

/-- Every AND object's best cut passes the locality check of its partition. -/
def BestsLocal (p : IfMan) : Prop :=
  ∀ j, ∀ o ∈ p.obj j, ifObjIsAnd o →
    ifCutCheckPartition p o.cutBest (ifObjPartition p j) = true

instance : DecidablePred BestsLocal := fun p =>
  decidable_of_iff (∀ j < p.objNum, ∀ o ∈ p.obj j, ifObjIsAnd o →
      ifCutCheckPartition p o.cutBest (ifObjPartition p j) = true)
    ⟨fun h j o ho => h j (List.getElem?_eq_some_iff.mp (Option.mem_def.mp ho)).1 o ho,
      fun h j _ => h j⟩

/-- Every cut of a set passes the locality check of partition `t`. -/
def CutsLocal (p : IfMan) (t : Int) (s : IfSet) : Prop :=
  ∀ c ∈ s.cuts, ifCutCheckPartition p c t = true

theorem BestsLocal.keeps {p q : IfMan} (hp : BestsLocal p) (h : KeepsBests p q) :
    BestsLocal q := by
  intro j o' ho' hand
  obtain ⟨o, ho, hty, hl⟩ := h.obj (Option.mem_def.mp ho')
  rw [ifObjPartition_congr h.partitionData, ifCutCheckPartition_congr h.partitionData]
  refine ifCutCheckPartition_mono (by rw [hl]; exact fun _ => id) (hp j o ho ?_)
  simpa only [ifObjIsAnd, hty] using hand

/-- The first round starts from trivial best cuts, which keep the invariant. -/
theorem bestsLocal_of_trivial {p : IfMan}
    (h : ∀ j, ∀ o ∈ p.obj j, ifObjIsAnd o → o.cutBest.leaves = [j]) : BestsLocal p :=
  fun j o ho hand => ifCutCheckPartition_triv p (h j o ho hand)

theorem cutsLocal_congr {p q : IfMan} (k : KeepsBests p q) {i : Nat} {s : IfSet}
    (hs : CutsLocal p (ifObjPartition p i) s) : CutsLocal q (ifObjPartition q i) s :=
  fun c hc => by
    rw [ifCutCheckPartition_congr k.partitionData, ifObjPartition_congr k.partitionData]
    exact hs c hc

/-! ## One call keeps the locality invariant -/

section call

variable {ops : IfOps} {p : IfMan} {i : Nat} {pObj : IfObj}

theorem ifAndObj_spec (h : ifAndObj p i = .ok pObj) : p.obj i = some pObj ∧ ifObjIsAnd pObj := by
  unfold ifAndObj at h
  split at h
  next o ho =>
    split at h
    next hc =>
      cases h
      simp only [Bool.and_eq_true] at hc
      exact ⟨ho, hc.1.1⟩
    next => cases h
  next => cases h

/-- The cuts the set starts with pass the check of the object's partition: the best cut of the
round before passed it. -/
theorem cutsLocal_ifSetupCuts {p1 : IfMan} (k : KeepsBests p p1) (hp : BestsLocal p)
    (hpi : p.obj i = some pObj) (hand : ifObjIsAnd pObj) (fPreprocess fFirst : Bool) :
    CutsLocal p (ifObjPartition p i) (ifSetupCuts ops p1 i fPreprocess fFirst).2 := by
  intro c hc
  obtain ⟨o, ho, hl⟩ := mem_ifSetupCuts hc
  obtain ⟨o0, ho0, -, hl0⟩ := k.obj ho
  rw [hpi] at ho0
  cases ho0
  exact ifCutCheckPartition_mono (by rw [← hl, ← hl0]; exact fun _ => id) (hp i pObj hpi hand)

/-- Everything one pair of fanin cuts can do when the loop body completes: be refused at the
signature, merge or locality check, which changes nothing; or give a merged cut that passes the
check of the object's partition, which is counted and handed to the rest of the loop body. -/
theorem ifEnumStep_cases {t : Int} {st st' : IfMan × IfSet} {pair : IfCut × IfCut}
    (h : ifEnumStep ops i pObj t st pair = .ok st') :
    st' = st ∨ ∃ pCut, ops.cutMergeOrdered st.1 pair.1 pair.2 = some pCut ∧
      ifCutCheckPartition st.1 pCut t = true ∧
      st' = (ifCountMerged st.1, ifEnumAccept ops i pObj (ifCountMerged st.1) st.2 pair pCut) := by
  unfold ifEnumStep at h
  split at h
  · cases h
  split at h
  · cases h; exact .inl rfl
  split at h
  · cases h; exact .inl rfl
  next pCut hm =>
  split at h
  · cases h; exact .inl rfl
  next hchk =>
  cases h
  -- without partition data, or for an unassigned object, every cut passes
  refine .inr ⟨pCut, hm, ?_, rfl⟩
  cases hv : (st.1.vPartition.isSome && decide (0 ≤ t))
  · exact ifCutCheckPartition_free hv pCut
  · revert hchk; rw [hv]; simp

/-- One pair of fanin cuts keeps the best cuts, and every cut it leaves in the set was there
before or passes the check of the object's partition. -/
theorem ifEnumStep_spec {t : Int} {st st' : IfMan × IfSet} {pair : IfCut × IfCut}
    (h : ifEnumStep ops i pObj t st pair = .ok st') :
    KeepsBests st.1 st'.1 ∧
      ∀ c ∈ st'.2.cuts, c ∈ st.2.cuts ∨ ifCutCheckPartition st.1 c t := by
  rcases ifEnumStep_cases h with rfl | ⟨pCut, -, hpass, rfl⟩
  · exact ⟨.refl _, fun c hc => .inl hc⟩
  · exact ⟨⟨rfl, fun _ => rfl⟩, fun c hc =>
      (mem_ifEnumAccept hc).imp id fun hl => ifCutCheckPartition_mono hl hpass⟩

/-- The enumeration keeps the best cuts, and the cuts of the set pass the check when those it
started with did. -/
theorem foldlM_ifEnumStep {t : Int} {r0 : IfMan} {st st' : IfMan × IfSet}
    {l : List (IfCut × IfCut)} (hk : KeepsBests r0 st.1) (hs : CutsLocal r0 t st.2)
    (h : l.foldlM (ifEnumStep ops i pObj t) st = .ok st') :
    KeepsBests r0 st'.1 ∧ CutsLocal r0 t st'.2 :=
  foldlM_invariant (ifEnumStep ops i pObj t) (fun _ d => KeepsBests r0 d.1 ∧ CutsLocal r0 t d.2)
    l (fun _ _ _ _ _ ⟨hkd, hsd⟩ hstep =>
      have hspec := ifEnumStep_spec hstep
      ⟨hkd.trans hspec.1, fun c hc => (hspec.2 c hc).elim (hsd c) fun hc' => by
        rwa [← ifCutCheckPartition_congr hkd.partitionData]⟩)
    l [] st st' rfl ⟨hk, hs⟩ h

theorem ifEnsureCut_ne_nil (q : IfMan) (s : IfSet) : (ifEnsureCut ops q i s).cuts ≠ [] := by
  unfold ifEnsureCut
  split
  · exact List.cons_ne_nil _ _
  · rename_i h
    simpa using h

theorem cutsLocal_ifEnsureCut {s : IfSet} (q : IfMan) (hs : CutsLocal p (ifObjPartition p i) s) :
    CutsLocal p (ifObjPartition p i) (ifEnsureCut ops q i s) := by
  unfold ifEnsureCut
  split
  · intro c hc
    rw [List.mem_singleton.mp hc]
    exact ifCutCheckPartition_triv p (ops.setupCutTriv_leaves q i)
  · exact hs

/-- The best cut is chosen from a set whose cuts pass the check, or kept. -/
theorem bestsLocal_ifUpdateBest {q : IfMan} {fPreprocess : Bool} {s : IfSet} (hp : BestsLocal p)
    (hs : CutsLocal p (ifObjPartition p i) s) (h : ifUpdateBest p i fPreprocess s = .ok q) :
    ifPartitionData q = ifPartitionData p ∧ BestsLocal q := by
  unfold ifUpdateBest at h
  split at h
  · cases h
  next c cs hcs =>
  cases h
  refine ⟨rfl, fun j o' ho' hand => ?_⟩
  rw [Option.mem_def, IfMan.obj_modifyObj] at ho'
  simp only [ifCutCheckPartition_modifyObj, ifObjPartition_modifyObj]
  split at ho'
  next hij =>
    subst hij
    obtain ⟨o, ho, rfl⟩ := Option.map_eq_some'.mp ho'
    dsimp only
    split
    · exact hs c (by rw [hcs]; exact List.mem_cons_self _ _)
    · exact hp i o ho hand
  next => exact hp j o' ho' hand

theorem keepsBests_ifAddCutTriv {q : IfMan} {s : IfSet} (h : ifAddCutTriv ops p i s = .ok q) :
    KeepsBests p q := by
  unfold ifAddCutTriv at h
  split at h
  · split at h
    · split at h
      · cases h
      · cases h; exact keepsBests_modifyObj p i _ (by intro; rfl)
    · cases h; exact keepsBests_modifyObj p i _ (by intro; rfl)
  · cases h; exact keepsBests_modifyObj p i _ (by intro; rfl)

/-- Every object keeps its cut set through the prologue. -/
theorem ifFaninCutSet_ifPrologue (mode : Int) (f : Option Nat) :
    ifFaninCutSet (ifPrologue ops p i mode).1 f = ifFaninCutSet p f := by
  have hmod : ∀ j, ((p.modifyObj i (ifUpdateEstRefs mode)).obj j).bind IfObj.pCutSet =
      (p.obj j).bind IfObj.pCutSet := fun j => by
    rw [IfMan.obj_modifyObj]
    split <;> cases p.obj j <;> rfl
  have harea : ∀ j, ((ifPrologue ops p i mode).1.obj j).bind IfObj.pCutSet =
      (p.obj j).bind IfObj.pCutSet := fun j => by
    unfold ifPrologue ifAreaCall
    split
    · split
      · rw [setNRefs, IfMan.obj_mapObjs, ← hmod j]
        cases (p.modifyObj i (ifUpdateEstRefs mode)).obj j <;> rfl
      · exact hmod j
    · exact hmod j
  cases f <;> simp only [ifFaninCutSet, Option.bind_some, Option.bind_none, harea]

theorem ifTakesFallback_ifPrologue (mode : Int) (fFirst : Bool) :
    ifTakesFallback (ifPrologue ops p i mode).1 pObj fFirst = ifTakesFallback p pObj fFirst := by
  simp only [ifTakesFallback, ifFaninCutSet_ifPrologue]

/-- A call that does not take the fallback branch and completes, stage by stage: its object is
an AND, the enumeration starts from the set prepared once the fanins' estimates are ensured,
and the result is the update of the best cut, the trivial cut, and the epilogue. -/
theorem ifObjPerformMappingAndPartitionAware_stages {mode : Int} {fPreprocess fFirst : Bool}
    {r : IfMan × List AreaCall} (hfb : ∀ pObj ∈ p.obj i, ifTakesFallback p pObj fFirst = false)
    (h : ifObjPerformMappingAndPartitionAware ops p i mode fPreprocess fFirst = .ok r) :
    ∃ pObj, p.obj i = some pObj ∧ ifObjIsAnd pObj ∧ ∃ cuts0 cuts1 st q q',
      let st0 := ifSetupCuts ops (ifEnsureFaninEstRefs (ifPrologue ops p i mode).1
        (ifObjPartition p i) pObj) i fPreprocess fFirst
      ifFaninCuts st0.1 pObj.pFanin0 = .ok cuts0 ∧ ifFaninCuts st0.1 pObj.pFanin1 = .ok cuts1 ∧
      (ifCutPairs cuts0 cuts1).foldlM (ifEnumStep ops i pObj (ifObjPartition p i)) st0 = .ok st ∧
      ifUpdateBest st.1 i fPreprocess (ifEnsureCut ops st.1 i st.2) = .ok q ∧
      ifAddCutTriv ops q i (ifEnsureCut ops st.1 i st.2) = .ok q' ∧
      r = (ifManDerefNodeCutSet ops (ifAreaCall ops.cutAreaRef .ref q' i mode).1 i,
        (ifPrologue ops p i mode).2 ++ (ifAreaCall ops.cutAreaRef .ref q' i mode).2) := by
  unfold ifObjPerformMappingAndPartitionAware at h
  obtain ⟨pObj, hobj, h⟩ := bind_eq_ok.mp h
  obtain ⟨hpi, hand⟩ := ifAndObj_spec hobj
  dsimp only at h
  rw [ifTakesFallback_ifPrologue, hfb pObj hpi,
    ifObjPartition_congr (keepsBests_ifPrologue ops p i mode).partitionData] at h
  simp only [Bool.false_eq_true, if_false, pure_bind] at h
  obtain ⟨cuts0, h0, h⟩ := bind_eq_ok.mp h
  obtain ⟨cuts1, h1, h⟩ := bind_eq_ok.mp h
  obtain ⟨st, hst, h⟩ := bind_eq_ok.mp h
  obtain ⟨q, hq, h⟩ := bind_eq_ok.mp h
  obtain ⟨q', hq', h⟩ := bind_eq_ok.mp h
  exact ⟨pObj, hpi, hand, cuts0, cuts1, st, q, q', h0, h1, hst, hq, hq', (Except.ok.inj h).symm⟩

/-- One call that does not take the fallback branch and completes keeps the partition data
and the locality invariant. -/
theorem bestsLocal_ifObjPerformMappingAndPartitionAware {mode : Int} {fPreprocess fFirst : Bool}
    {r : IfMan × List AreaCall} (hp : BestsLocal p)
    (hfb : ∀ pObj ∈ p.obj i, ifTakesFallback p pObj fFirst = false)
    (h : ifObjPerformMappingAndPartitionAware ops p i mode fPreprocess fFirst = .ok r) :
    ifPartitionData r.1 = ifPartitionData p ∧ BestsLocal r.1 := by
  unfold ifObjPerformMappingAndPartitionAware at h
  obtain ⟨pObj, hobj, h⟩ := bind_eq_ok.mp h
  obtain ⟨hpi, hand⟩ := ifAndObj_spec hobj
  have k0 := keepsBests_ifPrologue ops p i mode
  dsimp only at h
  rw [ifTakesFallback_ifPrologue, hfb pObj hpi, ifObjPartition_congr k0.partitionData] at h
  simp only [Bool.false_eq_true, if_false, pure_bind] at h
  obtain ⟨cuts0, -, h⟩ := bind_eq_ok.mp h
  obtain ⟨cuts1, -, h⟩ := bind_eq_ok.mp h
  obtain ⟨st, hst, h⟩ := bind_eq_ok.mp h
  obtain ⟨q, hq, h⟩ := bind_eq_ok.mp h
  obtain ⟨q', hq', h⟩ := bind_eq_ok.mp h
  cases h
  have k1 := k0.trans (keepsBests_ifEnsureFaninEstRefs _ (ifObjPartition p i) pObj)
  obtain ⟨k3, hs3⟩ := foldlM_ifEnumStep (k1.trans (keepsBests_ifSetupCuts ops _ i _ _))
    (cutsLocal_ifSetupCuts k1 hp hpi hand fPreprocess fFirst) hst
  obtain ⟨hd4, hp4⟩ := bestsLocal_ifUpdateBest (hp.keeps k3)
    (cutsLocal_congr k3 (cutsLocal_ifEnsureCut st.1 hs3)) hq
  have k5 := ((keepsBests_ifAddCutTriv hq').trans
    (keepsBests_ifAreaCall ops.cutAreaRef .ref _ i mode)).trans
    (keepsBests_ifManDerefNodeCutSet ops _ i)
  exact ⟨k5.partitionData.trans (hd4.trans k3.partitionData), hp4.keeps k5⟩

end call

theorem keepsBests_ifObjLimitCutsToTrivial (ops : IfOps) (p : IfMan) (i : Nat) :
    KeepsBests p (ifObjLimitCutsToTrivial ops p i) := by
  have k := keepsBests_modifyObj p i (ifInitEstRefs p.fEpsilon) (by intro; rfl)
  unfold ifObjLimitCutsToTrivial
  split
  · exact .refl p
  · dsimp only
    split
    · exact k
    · exact k.trans (keepsBests_modifyObj _ i _ (by intro; rfl))

/-- `If_ObjLimitCutsToTrivial` leaves an object with a cut set one cut, its trivial cut, with
the object's signature. -/
theorem ifObjLimitCutsToTrivial_sign (ops : IfOps) {p : IfMan} {i : Nat} {s : IfSet}
    (h : (p.obj i).bind IfObj.pCutSet = some s) :
    ∃ c, ((ifObjLimitCutsToTrivial ops p i).obj i).bind IfObj.pCutSet =
      some { s with cuts := [c] } ∧ c.leaves = [i] ∧ c.uSign = ops.objCutSign i := by
  obtain ⟨o, ho, -⟩ := Option.bind_eq_some.mp h
  unfold ifObjLimitCutsToTrivial
  rw [h]
  simp only [IfMan.obj_modifyObj, ho, if_true, Option.map_some', Option.some_bind]
  exact ⟨_, rfl, rfl, rfl⟩

/-! ## Runs -/

/-- One step of the mapper on the cut engine: a call of the partition-aware routine that does
not take the fallback branch and completes, or a call of `If_ObjLimitCutsToTrivial`. -/
inductive MapStep (ops : IfOps) : IfMan → IfMan → Prop
  | perform (p : IfMan) (i : Nat) (mode : Int) (fPreprocess fFirst : Bool)
      (r : IfMan × List AreaCall)
      (hfb : ∀ pObj ∈ p.obj i, ifTakesFallback p pObj fFirst = false)
      (hr : ifObjPerformMappingAndPartitionAware ops p i mode fPreprocess fFirst = .ok r) :
      MapStep ops p r.1
  | limit (p : IfMan) (i : Nat) : MapStep ops p (ifObjLimitCutsToTrivial ops p i)

theorem bestsLocal_mapStep {ops : IfOps} {p q : IfMan} (hp : BestsLocal p) (h : MapStep ops p q) :
    ifPartitionData q = ifPartitionData p ∧ BestsLocal q := by
  cases h with
  | perform i mode fPreprocess fFirst r hfb hr =>
    exact bestsLocal_ifObjPerformMappingAndPartitionAware hp hfb hr
  | limit i =>
    have k := keepsBests_ifObjLimitCutsToTrivial ops p i
    exact ⟨k.partitionData, hp.keeps k⟩

theorem bestsLocal_of_run {ops : IfOps} {p q : IfMan} (hp : BestsLocal p)
    (h : Relation.ReflTransGen (MapStep ops) p q) :
    ifPartitionData q = ifPartitionData p ∧ BestsLocal q := by
  induction h with
  | refl => exact ⟨rfl, hp⟩
  | tail _ hstep ih =>
    obtain ⟨hd, hq⟩ := bestsLocal_mapStep ih.2 hstep
    exact ⟨hd.trans ih.1, hq⟩

/-! ## How a call can stop -/

/-- The assertion before "Update best cut" holds: the set has a cut. -/
theorem ifUpdateBest_ifEnsureCut (ops : IfOps) (p q : IfMan) (i : Nat) (fPreprocess : Bool)
    (s : IfSet) : ∃ p', ifUpdateBest p i fPreprocess (ifEnsureCut ops q i s) = .ok p' := by
  unfold ifUpdateBest
  split
  · rename_i h; exact absurd h (ifEnsureCut_ne_nil q s)
  · exact ⟨_, rfl⟩

section faults

variable {ops : IfOps} {p : IfMan} {i : Nat} {e : MapFault}

theorem ifAndObj_error (h : ifAndObj p i = .error e) : e = .notAnd := by
  unfold ifAndObj at h
  split at h
  · split at h
    · cases h
    · cases h; rfl
  · cases h; rfl

theorem ifFaninCuts_error {g : Option Nat} (h : ifFaninCuts p g = .error e) : e = .nullCutSet := by
  unfold ifFaninCuts at h
  split at h
  · cases h
  · cases h; rfl

theorem ifEnumStep_error {pObj : IfObj} {t : Int} {st : IfMan × IfSet} {pair : IfCut × IfCut}
    (h : ifEnumStep ops i pObj t st pair = .error e) : e = .setOverflow := by
  unfold ifEnumStep at h
  split at h
  · cases h; rfl
  split at h
  · cases h
  split at h
  · cases h
  split at h <;> cases h

theorem ifAddCutTriv_error {s : IfSet} (h : ifAddCutTriv ops p i s = .error e) :
    e = .setOverflow := by
  unfold ifAddCutTriv at h
  split at h
  · split at h
    · split at h
      · cases h; rfl
      · cases h
    · cases h
  · cases h

/-- No call stops at the assertion that the set has a cut when the best cut is chosen. -/
theorem ifObjPerformMappingAndPartitionAware_ne_noCuts (mode : Int) (fPreprocess fFirst : Bool) :
    ifObjPerformMappingAndPartitionAware ops p i mode fPreprocess fFirst ≠ .error .noCuts := by
  intro h
  unfold ifObjPerformMappingAndPartitionAware at h
  rcases bind_eq_error.mp h with h | ⟨pObj, -, h⟩
  · cases ifAndObj_error h
  dsimp only at h
  split at h
  · cases h
  simp only [pure_bind] at h
  rcases bind_eq_error.mp h with h | ⟨cuts0, -, h⟩
  · cases ifFaninCuts_error h
  rcases bind_eq_error.mp h with h | ⟨cuts1, -, h⟩
  · cases ifFaninCuts_error h
  rcases bind_eq_error.mp h with h | ⟨st, -, h⟩
  · cases foldlM_error _ (· = MapFault.setOverflow) (fun _ _ _ => ifEnumStep_error) _ _ _ h
  rcases bind_eq_error.mp h with h | ⟨q, -, h⟩
  · obtain ⟨_, hq⟩ := ifUpdateBest_ifEnsureCut ops st.1 st.1 i fPreprocess st.2
    rw [hq] at h
    cases h
  rcases bind_eq_error.mp h with h | ⟨q', -, h⟩
  · cases ifAddCutTriv_error h
  cases h

end faults

/-! ## A call on an AND whose fanins have cut sets completes -/

/-- A set of capacity `m` that holds at most `m` cuts. -/
def SetFits (m : Nat) (s : IfSet) : Prop := s.nCutsMax = m ∧ s.cuts.length ≤ m

section progress

variable (ops : IfOps) {p : IfMan} {i : Nat} {pObj : IfObj}

theorem ifFaninCutSet_modifyObj {f : IfObj → IfObj} {g : Option Nat}
    (hf : ∀ o, o.pCutSet.isSome → (f o).pCutSet.isSome) (h : (ifFaninCutSet p g).isSome) :
    (ifFaninCutSet (p.modifyObj i f) g).isSome := by
  rcases g with _ | g
  · exact h
  simp only [ifFaninCutSet, Option.some_bind, IfMan.obj_modifyObj] at h ⊢
  split
  · cases ho : p.obj g with
    | none => rw [ho] at h; exact h
    | some o => rw [ho] at h; exact hf o h
  · exact h

theorem ifFaninCutSet_ifEnsureFaninEstRefs {t : Int} {g : Option Nat}
    (h : (ifFaninCutSet p g).isSome) :
    (ifFaninCutSet (ifEnsureFaninEstRefs p t pObj) g).isSome := by
  have he : ∀ q f, (ifFaninCutSet q g).isSome →
      (ifFaninCutSet (ifEnsureEstRefs q t f) g).isSome := by
    rintro q (_ | f) hq
    · exact hq
    · simp only [ifEnsureEstRefs]
      split
      · exact ifFaninCutSet_modifyObj (by intro _ h; exact h) hq
      · exact hq
  unfold ifEnsureFaninEstRefs
  split
  · exact he _ _ (he _ _ h)
  · exact h

theorem ifFaninCutSet_ifSetupCuts {g : Option Nat} (fPreprocess fFirst : Bool)
    (h : (ifFaninCutSet p g).isSome) :
    (ifFaninCutSet (ifSetupCuts ops p i fPreprocess fFirst).1 g).isSome := by
  have h1 : (ifFaninCutSet (p.modifyObj i fun o =>
      { o with pCutSet := some (ifManSetupNodeCutSet p) }) g).isSome :=
    ifFaninCutSet_modifyObj (fun _ _ => rfl) h
  have h2 : (ifFaninCutSet (ifRecomputeBest ops (p.modifyObj i fun o =>
      { o with pCutSet := some (ifManSetupNodeCutSet p) }) i) g).isSome :=
    ifFaninCutSet_modifyObj (by intro _ h; exact h)
      (ifFaninCutSet_modifyObj (by intro _ h; exact h) h1)
  unfold ifSetupCuts
  dsimp only
  split
  · exact h1
  · split
    · split <;> exact h2
    · exact h2

theorem nCutsMax_ifPrologue (mode : Int) : (ifPrologue ops p i mode).1.nCutsMax = p.nCutsMax := by
  unfold ifPrologue ifAreaCall
  split
  · split <;> rfl
  · rfl

theorem nCutsMax_ifEnsureFaninEstRefs (t : Int) :
    (ifEnsureFaninEstRefs p t pObj).nCutsMax = p.nCutsMax := by
  have he : ∀ q f, (ifEnsureEstRefs q t f).nCutsMax = q.nCutsMax := by
    rintro q (_ | f)
    · rfl
    · simp only [ifEnsureEstRefs]
      split <;> rfl
  unfold ifEnsureFaninEstRefs
  split
  · rw [he, he]
  · rfl

theorem setFits_ifSetupCuts (fPreprocess fFirst : Bool) (hmax : 1 ≤ p.nCutsMax) :
    SetFits p.nCutsMax (ifSetupCuts ops p i fPreprocess fFirst).2 := by
  unfold ifSetupCuts
  dsimp only
  split
  · exact ⟨rfl, Nat.zero_le _⟩
  · split
    · split
      · exact ⟨rfl, hmax⟩
      · exact ⟨rfl, Nat.zero_le _⟩
    · exact ⟨rfl, Nat.zero_le _⟩

theorem setFits_cutSort {m : Nat} {q : IfMan} {s : IfSet} {c : IfCut} (hs : SetFits m s) :
    SetFits m (ops.cutSort q s c) :=
  have h := ops.sort_capacity q s c (hs.1 ▸ hs.2)
  ⟨h.1.trans hs.1, hs.1 ▸ h.2⟩

theorem setFits_ifEnumAccept {m : Nat} {q : IfMan} {s : IfSet} (pair : IfCut × IfCut)
    (pCut : IfCut) (hs : SetFits m s) : SetFits m (ifEnumAccept ops i pObj q s pair pCut) := by
  obtain ⟨hmax, hlen, -⟩ := ifFilter_spec ops q s pCut
  have hf : SetFits m (if q.fSkipCutFilter then (false, s) else ops.cutFilter s pCut).2 :=
    ⟨hmax.trans hs.1, hlen.trans hs.2⟩
  rcases ifEnumAccept_cases ops i pObj q s pair pCut with h | ⟨c, -, h⟩ <;> rw [h]
  · exact hf
  · exact setFits_cutSort ops hf

theorem ifEnumStep_ok {m : Nat} {t : Int} {st : IfMan × IfSet} (pair : IfCut × IfCut)
    (hst : SetFits m st.2) :
    ∃ st', ifEnumStep ops i pObj t st pair = .ok st' ∧ SetFits m st'.2 := by
  unfold ifEnumStep
  rw [if_neg (by rw [hst.1]; exact Nat.not_lt.mpr hst.2)]
  split
  · exact ⟨st, rfl, hst⟩
  split
  · exact ⟨st, rfl, hst⟩
  split
  · exact ⟨st, rfl, hst⟩
  · exact ⟨_, rfl, setFits_ifEnumAccept ops pair _ hst⟩

theorem ifAddCutTriv_ok {s : IfSet} (hs : s.cuts.length ≤ s.nCutsMax) :
    ∃ q, ifAddCutTriv ops p i s = .ok q := by
  unfold ifAddCutTriv
  split
  · split
    · rw [if_neg (by omega)]
      exact ⟨_, rfl⟩
    · exact ⟨_, rfl⟩
  · exact ⟨_, rfl⟩

theorem ifEnsureCut_fits {m : Nat} (q : IfMan) {s : IfSet} (hm : 1 ≤ m) (hs : SetFits m s) :
    (ifEnsureCut ops q i s).cuts.length ≤ (ifEnsureCut ops q i s).nCutsMax := by
  unfold ifEnsureCut
  split
  · exact hs.1 ▸ hm
  · exact hs.1 ▸ hs.2

/-- A call on an AND object whose two fanins have cut sets completes, for a capacity of at
least one cut: it never takes the fallback branch and no assertion fails. -/
theorem ifObjPerformMappingAndPartitionAware_ok (mode : Int) (fPreprocess fFirst : Bool)
    (hobj : ifAndObj p i = .ok pObj) (h0 : (ifFaninCutSet p pObj.pFanin0).isSome)
    (h1 : (ifFaninCutSet p pObj.pFanin1).isSome) (hmax : 1 ≤ p.nCutsMax) :
    ∃ r, ifObjPerformMappingAndPartitionAware ops p i mode fPreprocess fFirst = .ok r := by
  set pro := ifPrologue ops p i mode
  set st0 := ifSetupCuts ops (ifEnsureFaninEstRefs pro.1 (ifObjPartition pro.1 i) pObj) i
    fPreprocess fFirst
  have hfb : ifTakesFallback pro.1 pObj fFirst = false := by
    obtain ⟨s0, hs0⟩ := Option.isSome_iff_exists.mp h0
    obtain ⟨s1, hs1⟩ := Option.isSome_iff_exists.mp h1
    simp [pro, ifTakesFallback, ifFaninCutSet_ifPrologue, hs0, hs1]
  -- the fanin cut sets survive the prologue and the setup, so the loop can read them
  have hcut : ∀ g, (ifFaninCutSet p g).isSome → ∃ cuts, ifFaninCuts st0.1 g = .ok cuts :=
    fun g hg => by
      have hg1 : (ifFaninCutSet pro.1 g).isSome := by rw [ifFaninCutSet_ifPrologue]; exact hg
      obtain ⟨sg, hsg⟩ := Option.isSome_iff_exists.mp
        (ifFaninCutSet_ifSetupCuts ops fPreprocess fFirst (ifFaninCutSet_ifEnsureFaninEstRefs hg1))
      exact ⟨sg.cuts, by rw [ifFaninCuts, hsg]⟩
  obtain ⟨cuts0, hc0⟩ := hcut _ h0
  obtain ⟨cuts1, hc1⟩ := hcut _ h1
  have hfit0 : SetFits p.nCutsMax st0.2 := by
    have hn : (ifEnsureFaninEstRefs pro.1 (ifObjPartition pro.1 i) pObj).nCutsMax = p.nCutsMax := by
      rw [nCutsMax_ifEnsureFaninEstRefs, nCutsMax_ifPrologue]
    rw [← hn]
    exact setFits_ifSetupCuts ops fPreprocess fFirst (hn ▸ hmax)
  -- the loop keeps the set within its capacity, so the steps after it cannot fail
  obtain ⟨st, hst, hfit⟩ := foldlM_ok (ifEnumStep ops i pObj (ifObjPartition pro.1 i))
    (fun st => SetFits p.nCutsMax st.2) (ifCutPairs cuts0 cuts1) st0 hfit0
    (fun pair _ _ hd => ifEnumStep_ok ops pair hd)
  obtain ⟨q, hq⟩ := ifUpdateBest_ifEnsureCut ops st.1 st.1 i fPreprocess st.2
  obtain ⟨q', hq'⟩ :=
    ifAddCutTriv_ok ops (p := q) (i := i) (ifEnsureCut_fits ops (i := i) st.1 hmax hfit)
  unfold ifObjPerformMappingAndPartitionAware
  rw [hobj, ok_bind]
  dsimp only
  rw [hfb]
  simp only [Bool.false_eq_true, if_false, pure_bind]
  rw [hc0, ok_bind, hc1, ok_bind, hst, ok_bind, hq, ok_bind, hq', ok_bind]
  exact ⟨_, rfl⟩

end progress

/-! ## The locality invariant over runs -/

/-- A plain engine: merging unites the leaves within the LUT size, nothing is filtered, the
truth table keeps the cut, delays are 0 and area flows count leaves, a cut is sorted in at the
end while there is room, the area accounting counts each leaf of the cut, and the enumeration
of the unconstrained routine changes nothing. -/
def ifOpsPlain : IfOps where
  objCutSign j := 1 <<< (j % 31).toUInt32
  cutDelay _ _ _ := 0
  cutAreaFlow _ c := c.leaves.length
  cutLutArea _ _ := 1
  cutMergeOrdered p c0 c1 :=
    if (c0.leaves ∪ c1.leaves).length ≤ p.nLutSize then
      some ⟨c0.leaves ∪ c1.leaves, c0.uSign ||| c1.uSign, 0, 0⟩
    else none
  cutFilter s _ := (false, s)
  cutComputeTruth _ c _ _ _ _ := some c
  cutSort _ s c := if s.cuts.length < s.nCutsMax then { s with cuts := s.cuts ++ [c] } else s
  setupCutTriv _ i := ⟨[i], 1 <<< (i % 31).toUInt32, 0, 1⟩
  cutAreaDeref p c j := match p.obj j with
    | some o => if j ∈ c.leaves then o.nRefs - 1 else o.nRefs
    | none => 0
  cutAreaRef p c j := match p.obj j with
    | some o => if j ∈ c.leaves then o.nRefs + 1 else o.nRefs
    | none => 0
  derefNodeCutSet p _ j := (((p.obj j).map IfObj.nVisits).getD 0, false)
  cutsUnconstrained p _ _ _ _ := p
  merge_leaves p c0 c1 c h l hl := by
    dsimp only at h
    split at h
    · cases h; exact List.mem_union_iff.mp hl
    · cases h
  filter_cuts _ _ _ h := h
  filter_capacity _ _ := ⟨rfl, le_refl _⟩
  truth_leaves _ c _ _ _ _ c' h := by cases h; exact fun _ => id
  sort_cuts _ s c x hx := by
    dsimp only at hx
    split at hx
    · simpa using hx
    · exact .inl hx
  sort_capacity _ s c h := by
    dsimp only
    split
    · simp only [List.length_append, List.length_singleton, true_and]; omega
    · exact ⟨rfl, h⟩
  setupCutTriv_leaves _ _ := rfl
  cutsUnconstrained_estRefs _ _ _ _ _ _ := rfl

/-- The constant, two inputs that carry their trivial cut sets, and their AND, whose best cut
is its trivial cut. The first input is in partition 0, the second input and the AND in
partition 1, and no input of a partition is recorded. -/
def ifAndParted : IfMan :=
  ⟨[ifObjNew .const1 none none,
    { ifObjNew .ci none none with pCutSet := some ⟨8, [⟨[1], 2, 0, 0⟩]⟩ },
    { ifObjNew .ci none none with pCutSet := some ⟨8, [⟨[2], 4, 0, 0⟩]⟩ },
    { ifObjNew .and (some 1) (some 2) with cutBest := ⟨[3], 8, 0, 0⟩ }],
    some [-1, 0, 1, 1], some [[], []], some [[], []], 2, 6, 8, false, false, 0, 0, 0⟩

/-- The locality invariant holds over whole runs. From a manager whose AND objects' best cuts
pass the check of their partitions, as trivial best cuts do, every sequence of calls of the
partition-aware routine that do not take the fallback branch, in any order and with any mode
and flags, mixed with calls of `If_ObjLimitCutsToTrivial`, keeps the partition data and the
invariant after every call. And no call finds the set empty when it chooses the best cut. -/
theorem cut_engine_keeps_locality (ops : IfOps) :
    (∀ p q, BestsLocal p → Relation.ReflTransGen (MapStep ops) p q →
      ifPartitionData q = ifPartitionData p ∧ BestsLocal q) ∧
    ∀ p i mode fPreprocess fFirst,
      ifObjPerformMappingAndPartitionAware ops p i mode fPreprocess fFirst ≠ .error .noCuts :=
  ⟨fun _ _ hp h => bestsLocal_of_run hp h,
    fun _ _ mode fPreprocess fFirst =>
      ifObjPerformMappingAndPartitionAware_ne_noCuts mode fPreprocess fFirst⟩

theorem cut_engine_keeps_locality_parted :
    BestsLocal ifAndParted ∧
      BestsLocal ((ifObjPerformMappingAndPartitionAware ifOpsPlain ifAndParted 3 0 false
        true).toOption.elim ifAndParted Prod.fst) :=
  have h0 : BestsLocal ifAndParted := by decide
  ⟨h0, ((cut_engine_keeps_locality ifOpsPlain).1 _ _ h0
    (.single (.perform ifAndParted 3 0 false true _ (by decide) rfl))).2⟩

/-- The merged cut of the two inputs has the first input, of partition 0, as a leaf: the AND
of partition 1 refuses it, and its cut set keeps only the trivial cut. With the first input
moved into partition 1, the same call takes the merged cut as its best. -/
example :
    ((ifObjPerformMappingAndPartitionAware ifOpsPlain ifAndParted 3 0 false true).toOption.map
      fun r => ((r.1.obj 3).bind IfObj.pCutSet).map fun s => s.cuts.map IfCut.leaves) =
        some (some [[3]]) ∧
    ((ifObjPerformMappingAndPartitionAware ifOpsPlain
      { ifAndParted with vPartition := some [-1, 1, 1, 1] } 3 0 false true).toOption.map
        fun r => (r.1.obj 3).map fun o => o.cutBest.leaves) = some (some [1, 2]) :=
  ⟨by decide, by decide⟩

/-! ## The fallback path runs the prologue twice -/

section fallback

variable (ops : IfOps) {p : IfMan} {i : Nat} {pObj : IfObj} (mode : Int)
  (fPreprocess fFirst : Bool)

/-- On the fallback path the call is the unconstrained routine, run on the state that the
routine's own prologue left. -/
theorem ifObjPerformMappingAndPartitionAware_fallback (hobj : ifAndObj p i = .ok pObj)
    (hfb : ifTakesFallback p pObj fFirst = true) :
    ifObjPerformMappingAndPartitionAware ops p i mode fPreprocess fFirst =
      .ok ((ifObjPerformMappingAnd ops (ifPrologue ops p i mode).1 i mode fPreprocess fFirst).1,
        (ifPrologue ops p i mode).2 ++
          (ifObjPerformMappingAnd ops (ifPrologue ops p i mode).1 i mode fPreprocess fFirst).2) := by
  unfold ifObjPerformMappingAndPartitionAware
  rw [hobj, ok_bind]
  dsimp only
  rw [ifTakesFallback_ifPrologue, hfb, if_pos rfl]
  rfl

theorem ifPrologue_snd (ho : p.obj i = some pObj) (hm : mode ≠ 0) (hn : 0 < pObj.nRefs) :
    (ifPrologue ops p i mode).2 = [.deref i] := by
  simp [ifPrologue, ifAreaCall, ho, hm, hn, ifUpdateEstRefs]

theorem count_deref_ifAreaCall_ref (count : IfMan → IfCut → Nat → Int) (q : IfMan) :
    (ifAreaCall count .ref q i mode).2.count (.deref i) = 0 := by
  unfold ifAreaCall
  split
  · split <;> simp
  · simp

theorem obj_ifPrologue (ho : p.obj i = some pObj) :
    ∃ o₁, (ifPrologue ops p i mode).1.obj i = some o₁ := by
  have hk := (keepsBests_ifPrologue ops p i mode).obj_key i
  rw [ho] at hk
  obtain ⟨o₁, h₁, -⟩ := Option.map_eq_some'.mp hk
  exact ⟨o₁, h₁⟩

/-- When the mode is set and the object stays referenced, the fallback path dereferences the
best cut twice, where the unconstrained routine called directly dereferences it once. -/
theorem fallback_derefs_twice (hobj : ifAndObj p i = .ok pObj)
    (hfb : ifTakesFallback p pObj fFirst = true) (hm : mode ≠ 0) (hn : 0 < pObj.nRefs)
    (hn₁ : ∀ o ∈ (ifPrologue ops p i mode).1.obj i, 0 < o.nRefs) :
    (∃ r, ifObjPerformMappingAndPartitionAware ops p i mode fPreprocess fFirst = .ok r ∧
      r.2.count (.deref i) = 2) ∧
    (ifObjPerformMappingAnd ops p i mode fPreprocess fFirst).2.count (.deref i) = 1 := by
  have hpi := (ifAndObj_spec hobj).1
  obtain ⟨o₁, ho₁⟩ := obj_ifPrologue ops mode hpi
  refine ⟨⟨_, ifObjPerformMappingAndPartitionAware_fallback ops mode fPreprocess fFirst hobj hfb,
    ?_⟩, ?_⟩
  · simp [ifObjPerformMappingAnd, ifPrologue_snd ops mode hpi hm hn,
      ifPrologue_snd ops mode ho₁ hm (hn₁ o₁ ho₁), count_deref_ifAreaCall_ref]
  · simp [ifObjPerformMappingAnd, ifPrologue_snd ops mode hpi hm hn, count_deref_ifAreaCall_ref]

theorem estRefs_ifAreaCall (count : IfMan → IfCut → Nat → Int) (call : Nat → AreaCall)
    (q : IfMan) (j : Nat) :
    ((ifAreaCall count call q i mode).1.obj j).map IfObj.estRefs = (q.obj j).map IfObj.estRefs := by
  unfold ifAreaCall
  split
  · split
    · rw [setNRefs, IfMan.obj_mapObjs, Option.map_map]; rfl
    · rfl
  · rfl

theorem estRefs_ifObjPerformMappingAnd (j : Nat) :
    ((ifObjPerformMappingAnd ops p i mode fPreprocess fFirst).1.obj j).map IfObj.estRefs =
      ((ifPrologue ops p i mode).1.obj j).map IfObj.estRefs := by
  rw [ifObjPerformMappingAnd, ifManDerefNodeCutSet, IfMan.obj_mapObjs, Option.map_map]
  exact (estRefs_ifAreaCall mode _ _ _ j).trans (ops.cutsUnconstrained_estRefs _ _ _ _ _ j)

theorem estRefs_ifPrologue (ho : p.obj i = some pObj) :
    ((ifPrologue ops p i mode).1.obj i).map IfObj.estRefs =
      some (ifUpdateEstRefs mode pObj).estRefs := by
  rw [ifPrologue, estRefs_ifAreaCall, IfMan.obj_modifyObj, if_pos rfl, ho]
  rfl

/-- On the fallback path the estimate of the object's references is updated twice, once by
each prologue, where the unconstrained routine called directly updates it once. -/
theorem fallback_updates_estRefs_twice (hobj : ifAndObj p i = .ok pObj)
    (hfb : ifTakesFallback p pObj fFirst = true) :
    (∃ r o₁, ifObjPerformMappingAndPartitionAware ops p i mode fPreprocess fFirst = .ok r ∧
      (ifPrologue ops p i mode).1.obj i = some o₁ ∧
      o₁.estRefs = (ifUpdateEstRefs mode pObj).estRefs ∧
      (r.1.obj i).map IfObj.estRefs = some (ifUpdateEstRefs mode o₁).estRefs) ∧
    ((ifObjPerformMappingAnd ops p i mode fPreprocess fFirst).1.obj i).map IfObj.estRefs =
      some (ifUpdateEstRefs mode pObj).estRefs := by
  have hpi := (ifAndObj_spec hobj).1
  obtain ⟨o₁, ho₁⟩ := obj_ifPrologue ops mode hpi
  have he₁ := estRefs_ifPrologue ops mode hpi
  rw [ho₁, Option.map_some', Option.some.injEq] at he₁
  refine ⟨⟨_, o₁, ifObjPerformMappingAndPartitionAware_fallback ops mode fPreprocess fFirst hobj
    hfb, ho₁, he₁, ?_⟩, ?_⟩
  · rw [estRefs_ifObjPerformMappingAnd, estRefs_ifPrologue ops mode ho₁]
  · rw [estRefs_ifObjPerformMappingAnd, estRefs_ifPrologue ops mode hpi]

end fallback

/-- The constant, an input with no cut set, an input with its trivial cut set, and their AND,
referenced once, with no estimate yet and the two inputs as its best cut; each input is
referenced once, and there is no partition data. -/
def ifAndRef : IfMan :=
  ⟨[ifObjNew .const1 none none,
    { ifObjNew .ci none none with nRefs := 1 },
    { ifObjNew .ci none none with nRefs := 1, pCutSet := some ⟨8, [⟨[2], 4, 0, 0⟩]⟩ },
    { ifObjNew .and (some 1) (some 2) with nRefs := 1, cutBest := ⟨[1, 2], 6, 0, 0⟩ }],
    none, none, none, 0, 6, 8, false, false, 0, 0, 0⟩

/-- Mode 1, not the first round, and the first input has no cut set: the routine takes the
fallback branch. It updates the estimate twice, to 5/9 where a direct call of the unconstrained
routine leaves 1/3, and dereferences the best cut twice against one reference, so the first
input ends with 0 references where a direct call leaves it 1. -/
theorem fallback_repeats_prologue_at_andRef :
    (∃ r, ifObjPerformMappingAndPartitionAware ifOpsPlain ifAndRef 3 1 false false = .ok r ∧
      (r.1.obj 3).map IfObj.estRefs = some (5 / 9) ∧ (r.1.obj 1).map IfObj.nRefs = some 0 ∧
      r.2 = [.deref 3, .deref 3, .ref 3]) ∧
    ((ifObjPerformMappingAnd ifOpsPlain ifAndRef 3 1 false false).1.obj 3).map IfObj.estRefs =
      some (1 / 3) ∧
    ((ifObjPerformMappingAnd ifOpsPlain ifAndRef 3 1 false false).1.obj 1).map IfObj.nRefs =
      some 1 ∧
    (ifObjPerformMappingAnd ifOpsPlain ifAndRef 3 1 false false).2 = [.deref 3, .ref 3] := by
  have hobj : ifAndObj ifAndRef 3 = .ok { ifObjNew .and (some 1) (some 2) with
      nRefs := 1, cutBest := ⟨[1, 2], 6, 0, 0⟩ } := rfl
  obtain ⟨⟨r, o₁, hr, ho₁, he₁, her⟩, hed⟩ :=
    fallback_updates_estRefs_twice ifOpsPlain 1 false false hobj (by decide)
  have hn₁ : ((ifPrologue ifOpsPlain ifAndRef 3 1).1.obj 3).map IfObj.nRefs = some 1 := by decide
  rw [ho₁, Option.map_some', Option.some.injEq] at hn₁
  have hint : (ifObjPerformMappingAndPartitionAware ifOpsPlain ifAndRef 3 1 false false).toOption.map
      (fun r => ((r.1.obj 1).map IfObj.nRefs, r.2)) =
        some (some 0, [.deref 3, .deref 3, .ref 3]) := by
    decide
  rw [hr] at hint
  simp only [Except.toOption, Option.map_some', Option.some.injEq, Prod.mk.injEq] at hint
  refine ⟨⟨r, hr, ?_, hint⟩, ?_, by decide, by decide⟩
  · rw [her]
    norm_num [ifUpdateEstRefs, he₁, hn₁, ifObjNew]
  · rw [hed]
    norm_num [ifUpdateEstRefs, ifObjNew]

end abc_partition.cut_engine
