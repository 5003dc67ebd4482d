-- The adapter to the external partitioner: `Kahypar_PartitionHypergraph` checks the
-- exported arrays, creates the partitioner's context, configuration and hypergraph, and
-- runs it; the outcome of each external step is a parameter. The two callers hand the
-- vector on only when the adapter reports a success, and only after the
-- `Aig_ApplyPartitionResult` they call first has come back. The earlier copy of the adapter
-- in `src/map/if/ifHyper.c` calls the four-argument export and copies its offsets unchecked.
import PartitionAwareMapping.PartitionResult

namespace abc_partition.kahypar

open abc_partition.network abc_partition.hypergraph abc_partition.partition_result

/-! ## The pure model -/

/-- `Kahypar_Par_t`; the `double` `dImbalance` is kept exactly. -/
structure KahyparPar where
  nPartitions : Int
  dImbalance : ℚ
  pConfigFile : Option String
  fVerbose : Bool
  fUseNodeWeights : Bool
  fUseEdgeWeights : Bool
  deriving DecidableEq, Repr

/-- `Kahypar_ParAlloc`, which sets the defaults of `Kahypar_ParSetDefault`. -/
def kahyparParAlloc : KahyparPar where
  nPartitions := 2
  dImbalance := 9 / 10
  pConfigFile := none
  fVerbose := false
  fUseNodeWeights := false
  fUseEdgeWeights := false

/-- `Kahypar_Result_t`. -/
structure KahyparResult where
  nVertices : Nat
  nPartitions : Int
  vPartition : List Int
  nCutEdges : Int
  fSuccess : Bool
  deriving DecidableEq, Repr

/-- `Kahypar_ResultAlloc`: every vertex in partition -1, and no success. -/
def kahyparResultAlloc (nVertices : Nat) : KahyparResult where
  nVertices := nVertices
  nPartitions := 0
  vPartition := List.replicate nVertices (-1)
  nCutEdges := 0
  fSuccess := false

/-- The arguments of `kahypar_create_hypergraph`. -/
structure KahyparHypergraph where
  nPartitions : Int
  nVertices : Nat
  nHyperedges : Nat
  pHyperedgeIndices : List Nat
  pHyperedges : List Nat
  pEdgeWeights : Option (List Int)
  pNodeWeights : Option (List Int)
  deriving DecidableEq, Repr

/-- The external steps of the adapter. `exported` holds the arrays of the five-argument
`Aig_HyperExportForPartitioning` this copy calls, which is not among the sources: the pins,
the offsets and the edge weights, and the vertex weights when it returns them. Then whether
`kahypar_context_new`, `Kahypar_CreateTempConfig` and `kahypar_create_hypergraph` succeed,
and what `kahypar_partition_hypergraph` leaves in the partition array it is given, with the
objective. The partitioner writes inside that array: its output has the array's length. -/
structure KahyparEnv where
  exported : CsrArrays × Option (List Int)
  contextNew : Bool
  createTempConfig : Bool
  createHypergraph : KahyparHypergraph → Bool
  partitionHypergraph : KahyparHypergraph → Int → ℚ → (pPartition : List Int) →
    { l : List Int // l.length = pPartition.length } × Int

/-- The external steps, in the order the adapter may make them. -/
inductive KahyparCall
  | hyperExport | contextNew | createTempConfig | createHypergraph | partitionHypergraph
  deriving DecidableEq, Repr

/-- `pEdgeWeights`: with `fUseEdgeWeights`, the hypergraph's weights when there is one per
edge, else 1 for every edge. -/
def kahyparEdgeWeights {σ : Type} (pHyper : AigHyper σ) (pPars : KahyparPar) :
    Option (List Int) :=
  if pPars.fUseEdgeWeights then
    some (if pHyper.vEdgeWeights.length = pHyper.nHyperedges then pHyper.vEdgeWeights
      else List.replicate pHyper.nHyperedges 1)
  else none

/-- `pNodeWeights`: with `fUseNodeWeights`, the first `nVertices` exported vertex weights when
there are that many, else 1 for every vertex. -/
def kahyparNodeWeights (nVertices : Nat) (vVertexWeights : Option (List Int))
    (pPars : KahyparPar) : Option (List Int) :=
  if pPars.fUseNodeWeights then
    some (match vVertexWeights with
      | some w => if nVertices ≤ w.length then w.take nVertices else List.replicate nVertices 1
      | none => List.replicate nVertices 1)
  else none

/-- The hypergraph the adapter hands to `kahypar_create_hypergraph`, once the offsets have
passed the consistency check: all `nHyperedges + 1` offsets and all the pins. -/
def kahyparHypergraphOf {σ : Type} (pHyper : AigHyper σ) (pPars : KahyparPar)
    (exported : CsrArrays × Option (List Int)) : KahyparHypergraph where
  nPartitions := pPars.nPartitions
  nVertices := pHyper.nVertices
  nHyperedges := pHyper.nHyperedges
  pHyperedgeIndices := exported.1.vIndices
  pHyperedges := exported.1.vHyperedges
  pEdgeWeights := kahyparEdgeWeights pHyper pPars
  pNodeWeights := kahyparNodeWeights pHyper.nVertices exported.2 pPars

/-- The copy loop `Vec_IntWriteEntry( pResult->vPartition, i, pPartition[i] )` for
`i < nVertices`. -/
def copyPartition (pPartition : List Int) (nVertices : Nat) (vPartition : List Int) : List Int :=
  (List.range nVertices).foldl (fun v i => v.set i (pPartition.getD i (-1))) vPartition

/-- `Kahypar_PartitionHypergraph` (`part_001`, lines 188-396): the result, and the external
steps it made. -/
def kahyparPartitionHypergraph {σ : Type} (pHyper : AigHyper σ) (pPars : KahyparPar)
    (env : KahyparEnv) : KahyparResult × List KahyparCall :=
  let nVertices := pHyper.nVertices
  let pResult := { kahyparResultAlloc nVertices with nPartitions := pPars.nPartitions }
  if pPars.nPartitions = 1 then
    ({ pResult with vPartition := List.replicate nVertices 0, fSuccess := true }, [])
  else if env.exported.1.vIndices.length ≠ pHyper.nHyperedges + 1 then
    (pResult, [.hyperExport])
  else if !env.contextNew then
    (pResult, [.hyperExport, .contextNew])
  else if pPars.pConfigFile.isNone && !env.createTempConfig then
    (pResult, [.hyperExport, .contextNew, .createTempConfig])
  else
    let calls := [.hyperExport, .contextNew] ++
      (if pPars.pConfigFile.isNone then [.createTempConfig] else [])
    let pKahyparHyper := kahyparHypergraphOf pHyper pPars env.exported
    if !env.createHypergraph pKahyparHyper then
      (pResult, calls ++ [.createHypergraph])
    else
      let out := env.partitionHypergraph pKahyparHyper pPars.nPartitions pPars.dImbalance
        (List.replicate nVertices (-1))
      ({ pResult with
          vPartition := copyPartition out.1.val nVertices pResult.vPartition
          nCutEdges := out.2
          fSuccess := true },
        calls ++ [.createHypergraph, .partitionHypergraph])

/-- What a caller leaves: its return value and `*pvPartition`. -/
structure GetOutcome where
  ret : Int
  pvPartition : Option (List Int)
  deriving DecidableEq, Repr

/-- Where a caller stops without returning: the `Aig_ApplyPartitionResult` it calls on a
success reaches its two-slot PI counter at `index`, past the end. -/
inductive GetFault
  | piCounterOverflow (index : Nat)
  deriving DecidableEq, Repr

/-- The body shared by `Kahypar_GetPartition` and `Kahypar_GetTimingAwarePartition`, on the
hypergraph `pHyper` built from `pNtk`. The builders never return `NULL` here. On a success the
caller calls `Aig_ApplyPartitionResult` and only prints what it returns. -/
def kahyparGetPartitionWith (pNtk : AbcNtk) (pHyper : AigHyper (List (List Nat)))
    (pPars : KahyparPar) (env : KahyparEnv) : Except GetFault GetOutcome :=
  let pResult := (kahyparPartitionHypergraph pHyper pPars env).1
  if pResult.fSuccess then
    match aigApplyPartitionResult pNtk pResult.vPartition pResult.nPartitions with
    | .counterOverflow i => .error (.piCounterOverflow i)
    | _ => .ok ⟨1, some pResult.vPartition⟩
  else .ok ⟨0, none⟩

/-- The parameters `Kahypar_GetPartition` sets. -/
def getPartitionPars (nPartitions : Int) : KahyparPar :=
  { kahyparParAlloc with nPartitions := nPartitions, fVerbose := true }

/-- The parameters `Kahypar_GetTimingAwarePartition` sets. -/
def timingAwarePartitionPars (nPartitions : Int) : KahyparPar :=
  { kahyparParAlloc with
    nPartitions := nPartitions
    fVerbose := true
    fUseNodeWeights := true
    fUseEdgeWeights := true }

/-- `Kahypar_GetPartition`. -/
def kahyparGetPartition (pNtk : AbcNtk) (nPartitions : Int) (env : KahyparEnv) :
    Except GetFault GetOutcome :=
  kahyparGetPartitionWith pNtk (aigNtkBuildHypergraph pNtk) (getPartitionPars nPartitions) env

/-- `Kahypar_GetTimingAwarePartition`. Its builder has run the level pass on `pNtk`, so the
partition is applied to the relevelled network. -/
def kahyparGetTimingAwarePartition (abcNtkLevel : AbcNtk → (Nat → Nat) × Nat) (pNtk : AbcNtk)
    (nPartitions : Int) (env : KahyparEnv) : Except GetFault GetOutcome :=
  kahyparGetPartitionWith (aigNtkLevelled abcNtkLevel pNtk).1
    (aigNtkBuildTimingAwareHypergraph abcNtkLevel pNtk) (timingAwarePartitionPars nPartitions) env

/-- An environment in which every external step succeeds, the five-argument export gives
`exported`, and the partitioner puts every vertex in partition 0. -/
def kahyparEnvOk (exported : CsrArrays × Option (List Int)) : KahyparEnv where
  exported := exported
  contextNew := true
  createTempConfig := true
  createHypergraph := fun _ => true
  partitionHypergraph := fun _ _ _ p => (⟨List.replicate p.length 0, List.length_replicate _ _⟩, 0)

namespace unchecked

/-- Where the earlier copy stops without returning: `Vec_IntEntry( vIndices, i )` at an `i`
past the `len` offsets the export gave, which fails the assertion of `Vec_IntEntry`, or reads
outside the vector where assertions are off. -/
inductive KahyparFault
  | indicesOutOfRange (len : Nat)
  deriving DecidableEq, Repr

/-- The hypergraph the earlier copy hands to `kahypar_create_hypergraph`: the first
`nHyperedges + 1` offsets, all the pins, and weight 1 for every edge and every vertex when the
parameters ask for weights. -/
def kahyparHypergraphOf {σ : Type} (pHyper : AigHyper σ) (pPars : KahyparPar) (X : CsrArrays) :
    KahyparHypergraph where
  nPartitions := pPars.nPartitions
  nVertices := pHyper.nVertices
  nHyperedges := pHyper.nHyperedges
  pHyperedgeIndices := X.vIndices.take (pHyper.nHyperedges + 1)
  pHyperedges := X.vHyperedges
  pEdgeWeights := if pPars.fUseEdgeWeights then some (List.replicate pHyper.nHyperedges 1) else none
  pNodeWeights := if pPars.fUseNodeWeights then some (List.replicate pHyper.nVertices 1) else none

/-- `Kahypar_PartitionHypergraph`, the earlier copy (`src/map/if/ifHyper.c`, lines 509-677).
It calls the four-argument `Aig_HyperExportForPartitioning`, here `hyperExport`, and copies
`nHyperedges + 1` offsets without checking how many the export gave. -/
def kahyparPartitionHypergraph {σ : Type} (hyperExport : AigHyper σ → CsrArrays)
    (pHyper : AigHyper σ) (pPars : KahyparPar) (env : KahyparEnv) :
    Except KahyparFault (KahyparResult × List KahyparCall) :=
  let nVertices := pHyper.nVertices
  let pResult := { kahyparResultAlloc nVertices with nPartitions := pPars.nPartitions }
  if pPars.nPartitions = 1 then
    .ok ({ pResult with vPartition := List.replicate nVertices 0, fSuccess := true }, [])
  else
    let X := hyperExport pHyper
    if !env.contextNew then
      .ok (pResult, [.hyperExport, .contextNew])
    else if pPars.pConfigFile.isNone && !env.createTempConfig then
      .ok (pResult, [.hyperExport, .contextNew, .createTempConfig])
    else if X.vIndices.length ≤ pHyper.nHyperedges then
      .error (.indicesOutOfRange X.vIndices.length)
    else
      let calls := [.hyperExport, .contextNew] ++
        (if pPars.pConfigFile.isNone then [.createTempConfig] else [])
      let pKahyparHyper := kahyparHypergraphOf pHyper pPars X
      if !env.createHypergraph pKahyparHyper then
        .ok (pResult, calls ++ [.createHypergraph])
      else
        let out := env.partitionHypergraph pKahyparHyper pPars.nPartitions pPars.dImbalance
          (List.replicate nVertices (-1))
        .ok ({ pResult with
            vPartition := copyPartition out.1.val nVertices pResult.vPartition
            nCutEdges := out.2
            fSuccess := true },
          calls ++ [.createHypergraph, .partitionHypergraph])

/-- `Kahypar_TestPartition` (`src/map/if/ifHyper.c`, lines 733-770), the caller of the earlier
copy: 1 on a success, else 0. `aigNtkBuild` and `hyperExport` are the builder and the export
of one copy of `abcHyperTiming.c`; `Kahypar_PrintResult` only prints. -/
def kahyparTestPartition {σ : Type} (aigNtkBuild : AbcNtk → AigHyper σ)
    (hyperExport : AigHyper σ → CsrArrays) (pNtk : AbcNtk) (nPartitions : Int) (env : KahyparEnv) :
    Except KahyparFault Int := do
  let r ← kahyparPartitionHypergraph hyperExport (aigNtkBuild pNtk) (getPartitionPars nPartitions) env
  pure (if r.1.fSuccess then 1 else 0)

end unchecked

/-! ## What the adapter promises -/

/-- What one call of the adapter must give: a vector with one entry per vertex; the trivial
split on one partition, with no external step; a failure that leaves every vertex at -1; and
a success past one partition only when the partitioner ran, with its output on the array
filled with -1 as the vector. -/
structure Atomic {σ : Type} (pHyper : AigHyper σ) (pPars : KahyparPar) (env : KahyparEnv) :
    Prop where
  length_vPartition :
    (kahyparPartitionHypergraph pHyper pPars env).1.vPartition.length = pHyper.nVertices
  trivial : pPars.nPartitions = 1 →
    (kahyparPartitionHypergraph pHyper pPars env).1.fSuccess = true ∧
      (kahyparPartitionHypergraph pHyper pPars env).1.vPartition =
        List.replicate pHyper.nVertices 0 ∧
      (kahyparPartitionHypergraph pHyper pPars env).2 = []
  failure : (kahyparPartitionHypergraph pHyper pPars env).1.fSuccess = false →
    ∀ x ∈ (kahyparPartitionHypergraph pHyper pPars env).1.vPartition, x = -1
  success : (kahyparPartitionHypergraph pHyper pPars env).1.fSuccess = true →
    pPars.nPartitions ≠ 1 →
    env.exported.1.vIndices.length = pHyper.nHyperedges + 1 ∧
      KahyparCall.partitionHypergraph ∈ (kahyparPartitionHypergraph pHyper pPars env).2 ∧
      (kahyparPartitionHypergraph pHyper pPars env).1.vPartition =
        (env.partitionHypergraph (kahyparHypergraphOf pHyper pPars env.exported)
          pPars.nPartitions pPars.dImbalance (List.replicate pHyper.nVertices (-1))).1.val

/-- What a caller makes of the adapter's result `r`: 0 and no vector on a failure; on a
success, 1 and the vector with at most two partitions, and with three or more the overflow of
the two-slot PI counter in the `Aig_ApplyPartitionResult` it calls first. -/
def HandsOn (o : Except GetFault GetOutcome) (r : KahyparResult) : Prop :=
  if r.fSuccess then
    if r.nPartitions ≤ 2 then o = .ok ⟨1, some r.vPartition⟩
    else ∃ i, 2 ≤ i ∧ o = .error (.piCounterOverflow i)
  else o = .ok ⟨0, none⟩

/-! ## The copy loop -/

theorem length_foldl_set (p : List Int) (k : Nat) (v : List Int) :
    ((List.range k).foldl (fun v i => v.set i (p.getD i (-1))) v).length = v.length := by
  induction k with
  | zero => rfl
  | succ k ih => rw [List.range_succ, List.foldl_append, List.foldl_cons, List.foldl_nil,
      List.length_set, ih]

theorem getElem?_foldl_set (p : List Int) (v : List Int) (j : Nat) :
    ∀ k, k ≤ v.length →
      ((List.range k).foldl (fun v i => v.set i (p.getD i (-1))) v)[j]? =
        if j < k then some (p.getD j (-1)) else v[j]?
  | 0, _ => by simp
  | k + 1, hk => by
    rw [List.range_succ, List.foldl_append, List.foldl_cons, List.foldl_nil,
      List.getElem?_set, getElem?_foldl_set p v j k (by omega), length_foldl_set]
    by_cases hj : k = j
    · subst hj
      rw [if_pos rfl, if_pos (by omega), if_pos (by omega)]
    · rw [if_neg hj]
      by_cases hjk : j < k
      · rw [if_pos hjk, if_pos (by omega)]
      · rw [if_neg hjk, if_neg (by omega)]

/-- Copying a whole array over a vector of its length gives the array. -/
theorem copyPartition_eq (p v : List Int) (n : Nat) (hp : p.length = n) (hv : v.length = n) :
    copyPartition p n v = p := by
  apply List.ext_getElem?
  intro j
  rw [copyPartition, getElem?_foldl_set p v j _ (by omega)]
  split
  · rename_i hj; simp [List.getD_eq_getElem?_getD, List.getElem?_eq_getElem (hp ▸ hj : j < p.length)]
  · rw [List.getElem?_eq_none (by omega), List.getElem?_eq_none (by omega)]

/-! ## The adapter -/

@[simp]
theorem length_partitionHypergraph (env : KahyparEnv) (G : KahyparHypergraph) (k : Int) (d : ℚ)
    (pPartition : List Int) :
    (env.partitionHypergraph G k d pPartition).1.val.length = pPartition.length :=
  (env.partitionHypergraph G k d pPartition).1.property

section adapter

variable {σ : Type} (pHyper : AigHyper σ) (pPars : KahyparPar) (env : KahyparEnv)

/-- Everything one call of the adapter can come to: the trivial split on one partition,
with no external step; a failure, with the result as allocated and the partitioner not run;
or a success after the check passed and the partitioner ran, with its output as the vector. -/
theorem kahyparPartitionHypergraph_cases :
    (pPars.nPartitions = 1 ∧
      kahyparPartitionHypergraph pHyper pPars env =
        ({ kahyparResultAlloc pHyper.nVertices with
            nPartitions := pPars.nPartitions
            vPartition := List.replicate pHyper.nVertices 0
            fSuccess := true }, [])) ∨
    (pPars.nPartitions ≠ 1 ∧
      (kahyparPartitionHypergraph pHyper pPars env).1 =
        { kahyparResultAlloc pHyper.nVertices with nPartitions := pPars.nPartitions } ∧
      KahyparCall.partitionHypergraph ∉ (kahyparPartitionHypergraph pHyper pPars env).2) ∨
    (pPars.nPartitions ≠ 1 ∧ env.exported.1.vIndices.length = pHyper.nHyperedges + 1 ∧
      (kahyparPartitionHypergraph pHyper pPars env).1.fSuccess = true ∧
      (kahyparPartitionHypergraph pHyper pPars env).1.vPartition =
        (env.partitionHypergraph (kahyparHypergraphOf pHyper pPars env.exported)
          pPars.nPartitions pPars.dImbalance (List.replicate pHyper.nVertices (-1))).1.val ∧
      KahyparCall.partitionHypergraph ∈ (kahyparPartitionHypergraph pHyper pPars env).2) := by
  unfold kahyparPartitionHypergraph
  dsimp only
  by_cases h1 : pPars.nPartitions = 1
  · rw [if_pos h1]; exact .inl ⟨h1, rfl⟩
  rw [if_neg h1]
  -- each check that fails is an exit with the result as allocated
  by_cases h2 : env.exported.1.vIndices.length ≠ pHyper.nHyperedges + 1
  · rw [if_pos h2]; exact .inr (.inl ⟨h1, rfl, by simp⟩)
  rw [if_neg h2]
  by_cases h3 : (!env.contextNew) = true
  · rw [if_pos h3]; exact .inr (.inl ⟨h1, rfl, by simp⟩)
  rw [if_neg h3]
  by_cases h4 : (pPars.pConfigFile.isNone && !env.createTempConfig) = true
  · rw [if_pos h4]; exact .inr (.inl ⟨h1, rfl, by simp⟩)
  rw [if_neg h4]
  by_cases h5 : (!env.createHypergraph (kahyparHypergraphOf pHyper pPars env.exported)) = true
  · rw [if_pos h5]; exact .inr (.inl ⟨h1, rfl, by simp⟩)
  -- the partitioner ran, and its array is copied whole
  rw [if_neg h5]
  exact .inr (.inr ⟨h1, not_not.mp h2, rfl, copyPartition_eq _ _ _
    (by rw [length_partitionHypergraph, List.length_replicate]) (List.length_replicate _ _),
    by simp⟩)

/-- The adapter keeps its promise on every hypergraph, every parameter set and every outcome
of the external steps. -/
theorem atomic_kahyparPartitionHypergraph : Atomic pHyper pPars env := by
  rcases kahyparPartitionHypergraph_cases pHyper pPars env with
    ⟨h1, he⟩ | ⟨h1, he, -⟩ | ⟨h1, hc, hs, hv, hm⟩
  · exact ⟨by rw [he]; exact List.length_replicate _ _, fun _ => by rw [he]; exact ⟨rfl, rfl, rfl⟩,
      fun h => (by rw [he] at h; cases h), fun _ h => absurd h1 h⟩
  · exact ⟨by rw [he]; exact List.length_replicate _ _, fun h => absurd h h1,
      fun _ x hx => by rw [he] at hx; exact List.eq_of_mem_replicate hx,
      fun h => (by rw [he] at h; cases h)⟩
  · exact ⟨by simp [hv], fun h => absurd h h1, fun h => (by rw [hs] at h; cases h),
      fun _ _ => ⟨hc, hm, hv⟩⟩

end adapter

/-! ## The callers -/

theorem handsOn_kahyparGetPartitionWith (pNtk : AbcNtk) (pHyper : AigHyper (List (List Nat)))
    (pPars : KahyparPar) (env : KahyparEnv) :
    HandsOn (kahyparGetPartitionWith pNtk pHyper pPars env)
      (kahyparPartitionHypergraph pHyper pPars env).1 := by
  unfold HandsOn kahyparGetPartitionWith
  set r := (kahyparPartitionHypergraph pHyper pPars env).1
  by_cases hs : r.fSuccess = true
  · rw [if_pos hs, if_pos hs]
    by_cases h2 : r.nPartitions ≤ 2
    · -- the count stays inside the counter, and the caller returns
      rw [if_pos h2]
      rcases aigApplyPartitionResult_no_overflow pNtk r.vPartition h2 with ho | ⟨_, ho⟩ <;>
        rw [ho]
    · obtain ⟨i, hi, ho⟩ := aigApplyPartitionResult_overflow pNtk r.vPartition r.nPartitions
        (by omega)
      rw [if_neg h2, ho]
      exact ⟨i, hi, rfl⟩
  · simp [hs]

/-- The adapter fails atomically, and its callers hand out its vector exactly on a success,
once the report they print first has come back. -/
theorem kahypar_adapter_fails_atomically (env : KahyparEnv) :
    (∀ {σ : Type} (pHyper : AigHyper σ) (pPars : KahyparPar), Atomic pHyper pPars env) ∧
      (∀ (pNtk : AbcNtk) (nPartitions : Int),
        HandsOn (kahyparGetPartition pNtk nPartitions env)
          (kahyparPartitionHypergraph (aigNtkBuildHypergraph pNtk)
            (getPartitionPars nPartitions) env).1) ∧
      (∀ (abcNtkLevel : AbcNtk → (Nat → Nat) × Nat) (pNtk : AbcNtk) (nPartitions : Int),
        HandsOn (kahyparGetTimingAwarePartition abcNtkLevel pNtk nPartitions env)
          (kahyparPartitionHypergraph (aigNtkBuildTimingAwareHypergraph abcNtkLevel pNtk)
            (timingAwarePartitionPars nPartitions) env).1) :=
  ⟨fun pHyper pPars => atomic_kahyparPartitionHypergraph pHyper pPars env,
    fun pNtk _ => handsOn_kahyparGetPartitionWith pNtk _ _ env,
    fun abcNtkLevel pNtk _ =>
      handsOn_kahyparGetPartitionWith (aigNtkLevelled abcNtkLevel pNtk).1 _ _ env⟩

/-! ## The earlier copy -/

section unchecked_adapter

variable {σ : Type} (hyperExport : AigHyper σ → CsrArrays) (pHyper : AigHyper σ)
  (pPars : KahyparPar) (env : KahyparEnv)

/-- Past one partition, once the context and the configuration exist, an export of at most
`nHyperedges` offsets makes the earlier copy read past them. -/
theorem unchecked.kahyparPartitionHypergraph_short (h1 : pPars.nPartitions ≠ 1)
    (hc : env.contextNew = true) (ht : env.createTempConfig = true)
    (hs : (hyperExport pHyper).vIndices.length ≤ pHyper.nHyperedges) :
    unchecked.kahyparPartitionHypergraph hyperExport pHyper pPars env =
      .error (.indicesOutOfRange (hyperExport pHyper).vIndices.length) := by
  simp only [unchecked.kahyparPartitionHypergraph, if_neg h1, hc, ht, Bool.not_true,
    Bool.and_false, Bool.false_eq_true, if_false, if_pos hs]

/-- Past one partition, with every external step succeeding, an export of more than
`nHyperedges` offsets passes, whether it has the right number or too many: the earlier copy
runs the partitioner on the first `nHyperedges + 1` of them and reports a success. -/
theorem unchecked.kahyparPartitionHypergraph_long (h1 : pPars.nPartitions ≠ 1)
    (hc : env.contextNew = true) (ht : env.createTempConfig = true)
    (hh : ∀ G, env.createHypergraph G = true)
    (hl : pHyper.nHyperedges < (hyperExport pHyper).vIndices.length) :
    ∃ r, unchecked.kahyparPartitionHypergraph hyperExport pHyper pPars env = .ok r ∧
      r.1.fSuccess = true ∧ KahyparCall.partitionHypergraph ∈ r.2 := by
  simp only [unchecked.kahyparPartitionHypergraph, if_neg h1, hc, ht, hh, Bool.not_true,
    Bool.and_false, Bool.false_eq_true, if_false, if_neg (not_le.mpr hl)]
  exact ⟨_, rfl, rfl, by simp⟩

end unchecked_adapter

/-- The earlier copy on the second copy's builder and export, which file the edges by size.
On an AND driving an output, the export gives four offsets for four edges and the copy reads
a fifth past them. On an input driving an output, it gives four offsets for two edges, and
the copy passes the partitioner two empty edges and reports a success. And with three
partitions, `Kahypar_GetPartition` overflows the PI counter after a success. -/
theorem kahypar_adapter_unchecked_at_andPo :
    unchecked.kahyparTestPartition by_size.aigNtkBuildHypergraph
        (by_size.aigHyperExportForPartitioning (fun _ _ => 0)) aigAndPo 2
        (kahyparEnvOk ⟨⟨[], [], []⟩, none⟩) = .error (.indicesOutOfRange 4) ∧
    (by_size.aigHyperExportForPartitioning (fun _ _ => 0)
        (by_size.aigNtkBuildHypergraph aigPiPo)).vIndices.length ≠
      (by_size.aigNtkBuildHypergraph aigPiPo).nHyperedges + 1 ∧
    unchecked.kahyparTestPartition by_size.aigNtkBuildHypergraph
        (by_size.aigHyperExportForPartitioning (fun _ _ => 0)) aigPiPo 2
        (kahyparEnvOk ⟨⟨[], [], []⟩, none⟩) = .ok 1 ∧
    kahyparGetPartition aigPiPo 3
        (kahyparEnvOk (aigHyperExportForPartitioning (aigNtkBuildHypergraph aigPiPo), none)) =
      .error (.piCounterOverflow 2) := by
  refine ⟨?_, by decide, ?_, rfl⟩
  · rw [unchecked.kahyparTestPartition, unchecked.kahyparPartitionHypergraph_short _ _ _ _
      (by decide) rfl rfl (by decide)]
    rfl
  · obtain ⟨r, hr, hs, -⟩ := unchecked.kahyparPartitionHypergraph_long
      (by_size.aigHyperExportForPartitioning (fun _ _ => 0))
      (by_size.aigNtkBuildHypergraph aigPiPo) (getPartitionPars 2)
      (kahyparEnvOk ⟨⟨[], [], []⟩, none⟩) (by decide) rfl rfl (fun _ => rfl) (by decide)
    rw [unchecked.kahyparTestPartition, hr]
    simp [hs]

end abc_partition.kahypar
