-- The AIG hypergraph builders of `abcHyperTiming.c` and the export to the CSR
-- arrays the partitioner reads. There are three builders: the plain one that
-- appends each edge, its older copy that files each edge under its size, and
-- the timing-aware one that also weighs the vertices and the edges.
import PartitionAwareMapping.Criticality
import Mathlib.Algebra.BigOperators.Group.List

namespace abc_partition.hypergraph

open abc_partition.vectors abc_partition.network abc_partition.criticality

/-! ## The pure model -/

/-- `Aig_Hyper_t`, over the storage `σ` its hyperedges are kept in. -/
@[ext]
structure AigHyper (σ : Type) where
  nVertices : Nat
  nHyperedges : Nat
  nPins : Nat
  vHyperedges : σ
  vEdgeWeights : List Int
  vVertexWeights : List Int
  deriving DecidableEq, Repr

/-- `Aig_HyperAlloc`. -/
def aigHyperAlloc {σ : Type} (N : AbcNtk) (empty : σ) : AigHyper σ where
  nVertices := N.objNumMax
  nHyperedges := 0
  nPins := 0
  vHyperedges := empty
  vEdgeWeights := []
  vVertexWeights := []

/-- `Aig_HyperAlloc`, then `Vec_IntFill( vVertexWeights, nVertices, 1 )`: how every
builder starts. -/
def aigHyperStart {σ : Type} (N : AbcNtk) (empty : σ) : AigHyper σ :=
  let h := aigHyperAlloc N empty
  { h with vVertexWeights := List.replicate h.nVertices 1 }

/-- The fanouts the builders keep: `Abc_ObjIsNode(pFanout) || Abc_ObjIsPo(pFanout)`. -/
def abcNtkIsNodeOrPo (N : AbcNtk) (f : Nat) : Bool :=
  match N.obj f with
  | some pFanout => abcObjIsNode pFanout || abcObjIsPo pFanout
  | none => false

/-- The driver an output keeps: `Abc_ObjFanin0(pObj)`, when it is there and is not the
constant. -/
def aigPoDriver (N : AbcNtk) (pObj : AbcObj) : List Nat :=
  match pObj.vFanins.head? with
  | some f =>
    match N.obj f with
    | some pFanin => if abcAigNodeIsConst pFanin then [] else [f]
    | none => []
  | none => []

/-- `vConnections` of the builders' loop body, for an object that is not the constant. -/
def aigConnections (N : AbcNtk) (pObj : AbcObj) : List Nat :=
  if !abcObjIsPo pObj then pObj.vFanouts.filter (abcNtkIsNodeOrPo N)
  else if abcObjIsPo pObj && !abcObjIsLatch pObj then aigPoDriver N pObj
  else []

/-- The hyperedge the builders' loop body makes for id `i`: none for an empty slot, the
constant, or an object with no connections; else the object, then its connections. -/
def aigHyperedgeOf (N : AbcNtk) (i : Nat) : Option (List Nat) :=
  match N.obj i with
  | none => none
  | some pObj =>
    if abcAigNodeIsConst pObj then none
    else
      let vConnections := aigConnections N pObj
      if 0 < vConnections.length then some (i :: vConnections) else none

/-- The hyperedges of `N`, in the order the builders create them. -/
def aigHyperedges (N : AbcNtk) : List (List Nat) :=
  (List.range N.objNumMax).filterMap (aigHyperedgeOf N)

/-- The end of the loop body that appends the edge: `Vec_PtrPush` it, push its weight,
count it and its pins. -/
def aigHyperPushEdge (h : AigHyper (List (List Nat))) (vHyperEdge : List Nat) (w : Int) :
    AigHyper (List (List Nat)) :=
  { h with
    vHyperedges := h.vHyperedges ++ [vHyperEdge]
    vEdgeWeights := h.vEdgeWeights ++ [w]
    nHyperedges := h.nHyperedges + 1
    nPins := h.nPins + vHyperEdge.length }

/-- The loop body of `Aig_NtkBuildHypergraph` for id `i`. -/
def aigHyperStep (N : AbcNtk) (h : AigHyper (List (List Nat))) (i : Nat) :
    AigHyper (List (List Nat)) :=
  match aigHyperedgeOf N i with
  | some vHyperEdge => aigHyperPushEdge h vHyperEdge 1
  | none => h

/-- `Aig_NtkBuildHypergraph` (`abcHyperTiming.c`, lines 387-475). -/
def aigNtkBuildHypergraph (N : AbcNtk) : AigHyper (List (List Nat)) :=
  (List.range N.objNumMax).foldl (aigHyperStep N) (aigHyperStart N [])

/-- `Aig_HyperForEachEdge` of `src/map/if/ifHyperAig.h` over edges pushed one by one: entry
`i` of the vector for every `i < Vec_VecSize`, each entry an edge. -/
def aigHyperForEachEdge (H : AigHyper (List (List Nat))) : List (List Nat) := H.vHyperedges

/-- The copy of the macro in the header `part_003`: entry `i` for `i < nHyperedges`; an entry
past the end fails the assertion of `Vec_PtrEntry`, and the whole walk is `none`. -/
def aigHyperForEachEdgeCounted (H : AigHyper (List (List Nat))) : Option (List (List Nat)) :=
  (List.range H.nHyperedges).mapM (fun i => H.vHyperedges[i]?)

/-- The arrays the export returns: the pins, the offsets, the edge weights. -/
structure CsrArrays where
  vHyperedges : List Nat
  vIndices : List Nat
  vWeights : List Int
  deriving DecidableEq, Repr

/-- One turn of the export loop: push the entries of the vector, then the number of pins
so far. -/
def csrPush (acc : List Nat × List Nat) (vEdge : List Nat) : List Nat × List Nat :=
  (acc.1 ++ vEdge, acc.2 ++ [(acc.1 ++ vEdge).length])

/-- The export loop over the vectors the edge macro visits, after `Vec_IntPush( vIndices, 0 )`. -/
def csrExport (visited : List (List Nat)) : List Nat × List Nat :=
  visited.foldl csrPush ([], [0])

/-- `Aig_HyperExportForPartitioning`. -/
def aigHyperExportForPartitioning (H : AigHyper (List (List Nat))) : CsrArrays :=
  let r := csrExport (aigHyperForEachEdge H)
  ⟨r.1, r.2, H.vEdgeWeights⟩

/-- The edges read back from CSR arrays: the pins from each offset up to the next. -/
def csrEdges (pins : List Nat) : List Nat → List (List Nat)
  | [] => []
  | a :: tl =>
    match tl with
    | [] => []
    | b :: _ => (pins.drop a).take (b - a) :: csrEdges pins tl

/-- The offsets of a list of edges: 0, then the running sums of their sizes. -/
def csrOffsets (es : List (List Nat)) : List Nat := es.scanl (fun n e => n + e.length) 0

/-- Levels of edge pointers read as `Vec_Int_t`s: a level gives as many words as it holds
edges, word `k` being `word lvl k`, bits of the pointers. -/
def levelsAsVecInt (word : List (List Nat) → Nat → Nat) (p : List (List (List Nat))) :
    List (List Nat) :=
  p.map (fun lvl => (List.range lvl.length).map (word lvl))

namespace by_size

/-- The end of the loop body in the second copy: `Vec_VecPush( vHyperedges,
Vec_IntSize(vHyperEdge), vHyperEdge )` files the edge at the level of its size. -/
def aigHyperPushEdge (h : AigHyper (List (List (List Nat)))) (vHyperEdge : List Nat) (w : Int) :
    AigHyper (List (List (List Nat))) :=
  { h with
    vHyperedges := vecVecPush h.vHyperedges vHyperEdge.length vHyperEdge
    vEdgeWeights := h.vEdgeWeights ++ [w]
    nHyperedges := h.nHyperedges + 1
    nPins := h.nPins + vHyperEdge.length }

/-- The loop body of the second copy for id `i`. -/
def aigHyperStep (N : AbcNtk) (h : AigHyper (List (List (List Nat)))) (i : Nat) :
    AigHyper (List (List (List Nat))) :=
  match aigHyperedgeOf N i with
  | some vHyperEdge => aigHyperPushEdge h vHyperEdge 1
  | none => h

/-- `Aig_NtkBuildHypergraph` (`abcHyperTiming.c`, lines 911-999). -/
def aigNtkBuildHypergraph (N : AbcNtk) : AigHyper (List (List (List Nat))) :=
  (List.range N.objNumMax).foldl (aigHyperStep N) (aigHyperStart N [])

/-- `Aig_HyperForEachEdge` of `src/map/if/ifHyperAig.h` over levels: `Vec_VecEntry` gives
level `i`, a `Vec_Ptr_t` of edges, which the loop reads as a `Vec_Int_t`. -/
def aigHyperForEachEdge (word : List (List Nat) → Nat → Nat)
    (H : AigHyper (List (List (List Nat)))) : List (List Nat) :=
  levelsAsVecInt word H.vHyperedges

/-- `Aig_HyperExportForPartitioning` (`abcHyperTiming.c`, lines 1061-1086). -/
def aigHyperExportForPartitioning (word : List (List Nat) → Nat → Nat)
    (H : AigHyper (List (List (List Nat)))) : CsrArrays :=
  let r := csrExport (aigHyperForEachEdge word H)
  ⟨r.1, r.2, H.vEdgeWeights⟩

end by_size

/-! ## The timing-aware builder -/

/-- The network after `Abc_NtkLevel` as the timing-aware builder calls it, and the largest
level raised to at least 1. `abcNtkLevel` is the level pass of ABC: the level it gives each
id, and the largest. The first call is the one made when the network has no mapping, as a
strashed network never has. -/
def aigNtkLevelled (abcNtkLevel : AbcNtk → (Nat → Nat) × Nat) (N : AbcNtk) : AbcNtk × Nat :=
  let N := N.setLevels (abcNtkLevel N).1
  let r := abcNtkLevel N
  (N.setLevels r.1, if r.2 = 0 then 1 else r.2)

/-- One turn of the fanout loop of the timing-aware builder: keep an AND or output fanout
and raise the largest edge criticality. -/
def aigTimingFanout (N : AbcNtk) (pObj : AbcObj) (maxLevel : Nat) (acc : List Nat × Int)
    (f : Nat) : List Nat × Int :=
  match N.obj f with
  | some pFanout =>
    if abcObjIsNode pFanout || abcObjIsPo pFanout then
      let w := aigComputeEdgeCriticality pObj pFanout maxLevel
      (acc.1 ++ [f], if w > acc.2 then w else acc.2)
    else acc
  | none => acc

/-- `vConnections` and `edgeWeight` of the timing-aware loop body. -/
def aigTimingConnections (N : AbcNtk) (pObj : AbcObj) (maxLevel : Nat) : List Nat × Int :=
  if !abcObjIsPo pObj then pObj.vFanouts.foldl (aigTimingFanout N pObj maxLevel) ([], 1)
  else if abcObjIsPo pObj && !abcObjIsLatch pObj then
    match pObj.vFanins.head? with
    | some f =>
      match N.obj f with
      | some pFanin => if abcAigNodeIsConst pFanin then ([], 1) else ([f], 10)
      | none => ([], 1)
    | none => ([], 1)
  else ([], 1)

/-- The vertex-weight write of the timing-aware loop body: the criticality of the object,
when its id is inside the weight vector. -/
def aigTimingVertexWeight (pObj : AbcObj) (maxLevel i : Nat) (h : AigHyper (List (List Nat))) :
    AigHyper (List (List Nat)) :=
  if i < h.vVertexWeights.length then
    { h with vVertexWeights := h.vVertexWeights.set i (aigComputeNodeCriticality pObj maxLevel) }
  else h

/-- The loop body of `Aig_NtkBuildTimingAwareHypergraph` for id `i`. -/
def aigTimingStep (N : AbcNtk) (maxLevel : Nat) (h : AigHyper (List (List Nat))) (i : Nat) :
    AigHyper (List (List Nat)) :=
  match N.obj i with
  | none => h
  | some pObj =>
    if abcAigNodeIsConst pObj then h
    else
      let h := aigTimingVertexWeight pObj maxLevel i h
      let r := aigTimingConnections N pObj maxLevel
      if 0 < r.1.length then aigHyperPushEdge h (i :: r.1) r.2 else h

/-- `Aig_NtkBuildTimingAwareHypergraph`. -/
def aigNtkBuildTimingAwareHypergraph (abcNtkLevel : AbcNtk → (Nat → Nat) × Nat)
    (N : AbcNtk) : AigHyper (List (List Nat)) :=
  let h := aigHyperStart N []
  let L := aigNtkLevelled abcNtkLevel N
  (List.range L.1.objNumMax).foldl (aigTimingStep L.1 L.2) h

/-- The weight the spec gives a hyperedge of the timing-aware builder: 10 when its anchor is
an output, else the largest edge criticality from the anchor to a member, and at least 1. -/
def aigHyperedgeWeightSpec (N : AbcNtk) (maxLevel : Nat) : List Nat → Int
  | [] => 1
  | a :: members =>
    match N.obj a with
    | none => 1
    | some pAnchor =>
      if abcObjIsPo pAnchor then 10
      else (members.filterMap
        (fun f => (N.obj f).map (aigComputeEdgeCriticality pAnchor · maxLevel))).foldl max 1

/-! ## One hyperedge -/

/-- The hyperedge of `i` is `i` followed by the connections of its object, when that object
is not the constant and has some. -/
theorem aigHyperedgeOf_eq_some {N : AbcNtk} {i : Nat} {e : List Nat} :
    aigHyperedgeOf N i = some e ↔
      ∃ o, N.obj i = some o ∧ abcAigNodeIsConst o = false ∧ aigConnections N o ≠ [] ∧
        e = i :: aigConnections N o := by
  unfold aigHyperedgeOf
  rcases hi : N.obj i with _ | o
  · simp
  · by_cases hc : abcAigNodeIsConst o = true
    · simp [hc]
    · simp only [hc, Bool.false_eq_true, if_false, List.length_pos, ne_eq, Option.some.injEq,
        exists_eq_left', Bool.not_eq_true]
      split_ifs with h
      · simp [h]
      · simp [h, eq_comm]

theorem length_of_aigHyperedgeOf {N : AbcNtk} {i : Nat} {e : List Nat}
    (h : aigHyperedgeOf N i = some e) : 2 ≤ e.length := by
  obtain ⟨o, -, -, hc, rfl⟩ := aigHyperedgeOf_eq_some.mp h
  have := List.length_pos.mpr hc
  simp; omega

theorem mem_aigHyperedges {N : AbcNtk} {e : List Nat} :
    e ∈ aigHyperedges N ↔ ∃ i < N.objNumMax, aigHyperedgeOf N i = some e := by
  simp [aigHyperedges]

/-! ## Loops -/

section fold

variable {β γ : Type} (s : β → Nat → β)

/-- A loop whose turn `i` appends `g i` to a field appends them all, in order. -/
theorem foldl_field_append (π : β → List γ) (g : Nat → List γ)
    (hs : ∀ b i, π (s b i) = π b ++ g i) (l : List Nat) (b : β) :
    π (l.foldl s b) = π b ++ l.flatMap g := by
  induction l generalizing b with
  | nil => simp
  | cons i l ih => simp [ih, hs]

/-- A loop whose turns keep a property keeps it. -/
theorem foldl_keeps (P : β → Prop) (hs : ∀ b i, P b → P (s b i)) (l : List Nat) (b : β)
    (hb : P b) : P (l.foldl s b) := by
  induction l generalizing b with
  | nil => exact hb
  | cons i l ih => exact ih _ (hs b i hb)

end fold

/-- The counters of a hypergraph agree with its edges: `nHyperedges` counts them, `nPins`
counts their pins, and there is one edge weight per edge. -/
structure AigHyper.Counted (H : AigHyper (List (List Nat))) : Prop where
  nHyperedges_eq : H.nHyperedges = H.vHyperedges.length
  nPins_eq : H.nPins = (H.vHyperedges.map List.length).sum
  weights_length : H.vEdgeWeights.length = H.nHyperedges

theorem counted_start (N : AbcNtk) : (aigHyperStart N ([] : List (List Nat))).Counted :=
  ⟨rfl, rfl, rfl⟩

theorem counted_pushEdge {h : AigHyper (List (List Nat))} (hc : h.Counted) (e : List Nat)
    (w : Int) : (aigHyperPushEdge h e w).Counted := by
  obtain ⟨h1, h2, h3⟩ := hc
  exact ⟨by simp [aigHyperPushEdge, h1], by simp [aigHyperPushEdge, h2, List.sum_append], by
    simp [aigHyperPushEdge, h3]⟩

/-! ## The plain builder -/

section plain

variable (N : AbcNtk) (h : AigHyper (List (List Nat))) (i : Nat)

@[simp]
theorem aigHyperStep_vHyperedges :
    (aigHyperStep N h i).vHyperedges = h.vHyperedges ++ (aigHyperedgeOf N i).toList := by
  unfold aigHyperStep; split <;> simp_all [aigHyperPushEdge]

@[simp]
theorem aigHyperStep_vEdgeWeights :
    (aigHyperStep N h i).vEdgeWeights =
      h.vEdgeWeights ++ ((aigHyperedgeOf N i).map (fun _ => (1 : Int))).toList := by
  unfold aigHyperStep; split <;> simp_all [aigHyperPushEdge]

@[simp]
theorem aigHyperStep_nVertices : (aigHyperStep N h i).nVertices = h.nVertices := by
  unfold aigHyperStep; split <;> rfl

@[simp]
theorem aigHyperStep_vVertexWeights : (aigHyperStep N h i).vVertexWeights = h.vVertexWeights := by
  unfold aigHyperStep; split <;> rfl

theorem counted_aigHyperStep (hc : h.Counted) : (aigHyperStep N h i).Counted := by
  unfold aigHyperStep; split
  · exact counted_pushEdge hc _ _
  · exact hc

end plain

/-- The plain builder files the hyperedges of `N` in creation order, each of weight 1, and
keeps every vertex weight 1. -/
theorem aigNtkBuildHypergraph_spec (N : AbcNtk) :
    (aigNtkBuildHypergraph N).vHyperedges = aigHyperedges N ∧
      (aigNtkBuildHypergraph N).vEdgeWeights = (aigHyperedges N).map (fun _ => 1) ∧
      (aigNtkBuildHypergraph N).nVertices = N.objNumMax ∧
      (aigNtkBuildHypergraph N).vVertexWeights = List.replicate N.objNumMax 1 ∧
      (aigNtkBuildHypergraph N).Counted := by
  unfold aigNtkBuildHypergraph aigHyperedges
  refine ⟨?_, ?_, ?_, ?_, ?_⟩
  · rw [foldl_field_append _ AigHyper.vHyperedges _ (aigHyperStep_vHyperedges N),
      List.filterMap_eq_flatMap_toList]
    rfl
  · rw [foldl_field_append _ AigHyper.vEdgeWeights _ (aigHyperStep_vEdgeWeights N),
      List.map_filterMap, List.filterMap_eq_flatMap_toList]
    rfl
  · exact foldl_keeps _ (fun b : AigHyper _ => b.nVertices = N.objNumMax) (by simp) _ _ rfl
  · exact foldl_keeps _ (fun b : AigHyper _ => b.vVertexWeights = List.replicate N.objNumMax 1)
      (by simp) _ _ rfl
  · exact foldl_keeps _ _ (counted_aigHyperStep N) _ _ (counted_start N)


/-! ## The export and its read-back -/

theorem scanl_eq_cons (f : Nat → List Nat → Nat) (b : Nat) (l : List (List Nat)) :
    l.scanl f b = b :: (l.scanl f b).tail := by
  cases l <;> rfl

theorem foldl_csrPush (vs : List (List Nat)) (pre ix : List Nat) :
    vs.foldl csrPush (pre, ix) =
      (pre ++ vs.flatten, ix ++ (vs.scanl (fun n e => n + e.length) pre.length).tail) := by
  induction vs generalizing pre ix with
  | nil => simp
  | cons v vs ih =>
    rw [List.foldl_cons, csrPush, ih, List.scanl_cons, scanl_eq_cons _ (pre.length + v.length)]
    simp

/-- The export returns the visited vectors laid end to end, and their offsets. -/
theorem csrExport_eq (vs : List (List Nat)) : csrExport vs = (vs.flatten, csrOffsets vs) := by
  rw [csrExport, foldl_csrPush, csrOffsets, scanl_eq_cons _ 0]
  rfl

theorem csrEdges_cons_cons (pins : List Nat) (a b : Nat) (rest : List Nat) :
    csrEdges pins (a :: b :: rest) = (pins.drop a).take (b - a) :: csrEdges pins (b :: rest) :=
  rfl

theorem csrEdges_scanl (pre : List Nat) (vs : List (List Nat)) :
    csrEdges (pre ++ vs.flatten) (vs.scanl (fun n e => n + e.length) pre.length) = vs := by
  induction vs generalizing pre with
  | nil => simp [csrEdges]
  | cons v vs ih =>
    have hv := ih (pre ++ v)
    rw [List.length_append, List.append_assoc] at hv
    rw [List.flatten_cons, List.scanl_cons, scanl_eq_cons _ (pre.length + v.length),
      List.singleton_append, csrEdges_cons_cons, ← scanl_eq_cons, hv, List.drop_left,
      Nat.add_sub_cancel_left, List.take_left]

/-- Reading the exported arrays back gives the visited vectors, in order. -/
theorem csrEdges_csrExport (vs : List (List Nat)) :
    csrEdges (csrExport vs).1 (csrExport vs).2 = vs := by
  simpa [csrExport_eq, csrOffsets] using csrEdges_scanl [] vs

theorem length_csrOffsets (vs : List (List Nat)) : (csrOffsets vs).length = vs.length + 1 := by
  simp [csrOffsets, List.length_scanl]

/-- The export of a hypergraph whose edges were appended: pins end to end, offsets, weights. -/
theorem aigHyperExportForPartitioning_eq (H : AigHyper (List (List Nat))) :
    aigHyperExportForPartitioning H =
      ⟨H.vHyperedges.flatten, csrOffsets H.vHyperedges, H.vEdgeWeights⟩ := by
  simp [aigHyperExportForPartitioning, csrExport_eq, aigHyperForEachEdge]

theorem mapM_getElem?_range (l : List (List Nat)) :
    ∀ n ≤ l.length, (List.range n).mapM (fun i => l[i]?) = some (l.take n)
  | 0, _ => rfl
  | n + 1, hn => by
    have hlt : n < l.length := by omega
    rw [List.range_succ, List.mapM_append, mapM_getElem?_range l n (by omega),
      List.take_succ, List.getElem?_eq_getElem hlt, List.mapM_cons, List.mapM_nil,
      List.getElem?_eq_getElem hlt]
    rfl

/-- The counted copy of the edge macro walks the same edges when the count is right. -/
theorem aigHyperForEachEdgeCounted_eq {H : AigHyper (List (List Nat))} (hc : H.Counted) :
    aigHyperForEachEdgeCounted H = some (aigHyperForEachEdge H) := by
  rw [aigHyperForEachEdgeCounted, hc.nHyperedges_eq, mapM_getElem?_range _ _ le_rfl,
    List.take_length]
  rfl

/-! ## Edges filed by size -/

/-- Filing a list of edges at the levels of their sizes, as the second copy does. -/
def fileBySize (v : List (List (List Nat))) (es : List (List Nat)) : List (List (List Nat)) :=
  es.foldl (fun v e => vecVecPush v e.length e) v

theorem vecVecEntry_fileBySize (v : List (List (List Nat))) (es : List (List Nat)) (k : Nat) :
    vecVecEntry (fileBySize v es) k = vecVecEntry v k ++ es.filter (·.length = k) := by
  induction es generalizing v with
  | nil => simp [fileBySize]
  | cons e es ih =>
    simp only [fileBySize, List.foldl_cons] at ih ⊢
    rw [ih, vecVecEntry_push]
    by_cases hk : k = e.length
    · subst hk; simp
    · simp [hk, Ne.symm hk]

theorem length_fileBySize_pos (v : List (List (List Nat))) (es : List (List Nat)) (hes : es ≠ []) :
    0 < (fileBySize v es).length := by
  obtain ⟨e, es, rfl⟩ := List.exists_cons_of_ne_nil hes
  have hmono : ∀ (w : List (List (List Nat))) (l : List (List Nat)),
      w.length ≤ (fileBySize w l).length := by
    intro w l
    induction l generalizing w with
    | nil => exact le_rfl
    | cons x l ih =>
      exact le_trans (by rw [length_vecVecPush]; omega) (ih (vecVecPush w x.length x))
  exact lt_of_lt_of_le (by rw [length_vecVecPush]; omega) (hmono _ es)

/-- Edges of at least one pin, filed by size and read back through the levels, are lost:
the first vector read back is level 0, which is empty. -/
theorem csrEdges_fileBySize_ne (word : List (List Nat) → Nat → Nat) (es : List (List Nat))
    (hes : es ≠ []) (hpos : ∀ e ∈ es, 0 < e.length) :
    csrEdges (csrExport (levelsAsVecInt word (fileBySize [] es))).1
      (csrExport (levelsAsVecInt word (fileBySize [] es))).2 ≠ es := by
  rw [csrEdges_csrExport]
  have h0 : vecVecEntry (fileBySize [] es) 0 = [] := by
    rw [vecVecEntry_fileBySize, List.filter_eq_nil_iff.mpr (fun e he => by
      simpa using (hpos e he).ne')]
    rfl
  obtain ⟨lvl, rest, hl⟩ := List.exists_cons_of_length_pos (length_fileBySize_pos [] es hes)
  obtain ⟨e, es', rfl⟩ := List.exists_cons_of_ne_nil hes
  rw [hl] at h0 ⊢
  simp only [vecVecEntry, List.getD_cons_zero] at h0
  subst h0
  intro heq
  simp only [levelsAsVecInt, List.map_cons, List.length_nil, List.range_zero, List.map_nil,
    List.cons.injEq] at heq
  exact absurd heq.1.symm (List.ne_nil_of_length_pos (hpos e (List.mem_cons_self _ _)))

/-- The second copy files the hyperedges of `N`, in creation order, at the levels of their
sizes. -/
theorem by_size.aigNtkBuildHypergraph_vHyperedges (N : AbcNtk) :
    (by_size.aigNtkBuildHypergraph N).vHyperedges = fileBySize [] (aigHyperedges N) := by
  have step : ∀ (l : List Nat) (h : AigHyper (List (List (List Nat)))),
      (l.foldl (by_size.aigHyperStep N) h).vHyperedges =
        fileBySize h.vHyperedges (l.filterMap (aigHyperedgeOf N)) := by
    intro l
    induction l with
    | nil => intro h; rfl
    | cons i l ih =>
      intro h
      rw [List.foldl_cons, ih, List.filterMap_cons]
      unfold by_size.aigHyperStep
      split <;> simp_all [fileBySize, by_size.aigHyperPushEdge]
  exact step _ _

/-! ## Levels leave the hyperedges alone -/

@[simp]
theorem abcNtkIsNodeOrPo_setLevels (N : AbcNtk) (lev : Nat → Nat) :
    abcNtkIsNodeOrPo (N.setLevels lev) = abcNtkIsNodeOrPo N := by
  funext f
  simp only [abcNtkIsNodeOrPo, AbcNtk.obj_setLevels]
  rcases N.obj f <;> rfl

theorem aigConnections_setLevels (N : AbcNtk) (lev : Nat → Nat) (o : AbcObj) (l : Nat) :
    aigConnections (N.setLevels lev) { o with level := l } = aigConnections N o := by
  simp only [aigConnections, aigPoDriver, abcObjIsPo, abcObjIsLatch, abcNtkIsNodeOrPo_setLevels,
    AbcNtk.obj_setLevels]
  rcases o.vFanins.head? with _ | f
  · rfl
  · cases hf : N.obj f <;> simp [hf, abcAigNodeIsConst]

/-- Writing levels, as `Abc_NtkLevel` does, changes no hyperedge. -/
@[simp]
theorem aigHyperedges_setLevels (N : AbcNtk) (lev : Nat → Nat) :
    aigHyperedges (N.setLevels lev) = aigHyperedges N := by
  unfold aigHyperedges
  congr 1
  · funext i
    simp only [aigHyperedgeOf, AbcNtk.obj_setLevels]
    rcases N.obj i with _ | o
    · rfl
    · simp only [Option.map_some', aigConnections_setLevels]; rfl
  · simp

/-! ## The timing-aware builder -/

theorem ite_gt_eq_max (w a : Int) : (if w > a then w else a) = max a w := by
  split <;> omega

theorem foldl_aigTimingFanout (N : AbcNtk) (o : AbcObj) (L : Nat) (fs : List Nat)
    (acc : List Nat × Int) :
    fs.foldl (aigTimingFanout N o L) acc =
      (acc.1 ++ fs.filter (abcNtkIsNodeOrPo N),
        ((fs.filter (abcNtkIsNodeOrPo N)).filterMap
          (fun f => (N.obj f).map (aigComputeEdgeCriticality o · L))).foldl max acc.2) := by
  induction fs generalizing acc with
  | nil => simp
  | cons f fs ih =>
    rw [List.foldl_cons, ih]
    unfold aigTimingFanout abcNtkIsNodeOrPo
    rcases hf : N.obj f with _ | fo
    · simp [hf]
    · by_cases hp : (abcObjIsNode fo || abcObjIsPo fo) = true
      · simp [hf, hp, ite_gt_eq_max]
      · simp [hf, hp]

theorem aigTimingConnections_fst (N : AbcNtk) (o : AbcObj) (L : Nat) :
    (aigTimingConnections N o L).1 = aigConnections N o := by
  unfold aigTimingConnections aigConnections aigPoDriver
  split
  · simp [foldl_aigTimingFanout]
  · split
    · split
      · rename_i f _; split
        · split <;> rfl
        · rfl
      · rfl
    · rfl

theorem aigTimingConnections_snd (N : AbcNtk) (o : AbcObj) (L i : Nat) (hi : N.obj i = some o)
    (hc : 0 < (aigConnections N o).length) :
    (aigTimingConnections N o L).2 = aigHyperedgeWeightSpec N L (i :: aigConnections N o) := by
  unfold aigTimingConnections aigHyperedgeWeightSpec
  simp only [hi]
  by_cases hpo : abcObjIsPo o = true
  · have hl : abcObjIsLatch o = false := by
      simp only [abcObjIsPo, abcObjIsLatch, beq_iff_eq] at hpo ⊢; simp [hpo]
    simp only [hpo, hl, Bool.not_true, Bool.not_false, Bool.and_self, if_true]
    simp only [aigConnections, hpo, hl, Bool.not_true, Bool.not_false, Bool.and_self,
      Bool.false_eq_true, if_false, if_true, aigPoDriver] at hc
    split at hc
    · rename_i f _; split at hc
      · split at hc
        · simp at hc
        · simp_all
      · simp at hc
    · simp at hc
  · simp only [hpo, Bool.not_false, if_true, Bool.false_eq_true, if_false,
      foldl_aigTimingFanout, aigConnections, List.nil_append]

section timing

variable (N : AbcNtk) (L : Nat) (h : AigHyper (List (List Nat))) (i : Nat)

@[simp]
theorem aigTimingVertexWeight_vHyperedges (o : AbcObj) :
    (aigTimingVertexWeight o L i h).vHyperedges = h.vHyperedges := by
  unfold aigTimingVertexWeight; split <;> rfl

@[simp]
theorem aigTimingVertexWeight_vEdgeWeights (o : AbcObj) :
    (aigTimingVertexWeight o L i h).vEdgeWeights = h.vEdgeWeights := by
  unfold aigTimingVertexWeight; split <;> rfl

@[simp]
theorem aigTimingVertexWeight_nVertices (o : AbcObj) :
    (aigTimingVertexWeight o L i h).nVertices = h.nVertices := by
  unfold aigTimingVertexWeight; split <;> rfl

theorem counted_aigTimingVertexWeight (o : AbcObj) (hc : h.Counted) :
    (aigTimingVertexWeight o L i h).Counted := by
  unfold aigTimingVertexWeight; split
  · exact ⟨hc.1, hc.2, hc.3⟩
  · exact hc

/-- The turn for id `i` appends the hyperedge of `i`, if any. -/
@[simp]
theorem aigTimingStep_vHyperedges :
    (aigTimingStep N L h i).vHyperedges = h.vHyperedges ++ (aigHyperedgeOf N i).toList := by
  unfold aigTimingStep aigHyperedgeOf
  split
  · simp
  · split
    · simp
    · simp only [aigTimingConnections_fst]; split <;> simp [aigHyperPushEdge]

/-- The turn for id `i` appends the weight the spec gives the hyperedge of `i`, if any. -/
@[simp]
theorem aigTimingStep_vEdgeWeights :
    (aigTimingStep N L h i).vEdgeWeights =
      h.vEdgeWeights ++ ((aigHyperedgeOf N i).map (aigHyperedgeWeightSpec N L)).toList := by
  unfold aigTimingStep aigHyperedgeOf
  split
  · simp
  · rename_i o ho
    split
    · simp
    · simp only [aigTimingConnections_fst]
      split
      · rename_i hc; simp [aigHyperPushEdge, aigTimingConnections_snd N o L i ho hc]
      · simp

@[simp]
theorem aigTimingStep_nVertices : (aigTimingStep N L h i).nVertices = h.nVertices := by
  unfold aigTimingStep
  split
  · rfl
  · split
    · rfl
    · dsimp only; split <;> simp [aigHyperPushEdge]

theorem counted_aigTimingStep (hc : h.Counted) : (aigTimingStep N L h i).Counted := by
  unfold aigTimingStep
  split
  · exact hc
  · split
    · exact hc
    · dsimp only; split
      · exact counted_pushEdge (counted_aigTimingVertexWeight L h i _ hc) _ _
      · exact counted_aigTimingVertexWeight L h i _ hc

/-- Every vertex weight stays in `[1, 10]` and the weight vector keeps its length. -/
theorem aigTimingStep_vVertexWeights (n : Nat)
    (hw : h.vVertexWeights.length = n ∧ ∀ w ∈ h.vVertexWeights, 1 ≤ w ∧ w ≤ 10) :
    (aigTimingStep N L h i).vVertexWeights.length = n ∧
      ∀ w ∈ (aigTimingStep N L h i).vVertexWeights, 1 ≤ w ∧ w ≤ 10 := by
  have hv : ∀ o : AbcObj, (aigTimingVertexWeight o L i h).vVertexWeights.length = n ∧
      ∀ w ∈ (aigTimingVertexWeight o L i h).vVertexWeights, 1 ≤ w ∧ w ≤ 10 := by
    intro o
    unfold aigTimingVertexWeight
    split
    · refine ⟨by simp [hw.1], fun w hw' => ?_⟩
      rcases List.mem_or_eq_of_mem_set hw' with h1 | rfl
      · exact hw.2 w h1
      · exact aigComputeNodeCriticality_mem o L
    · exact hw
  unfold aigTimingStep
  split
  · exact hw
  · split
    · exact hw
    · dsimp only; split
      · exact hv _
      · exact hv _

end timing

/-- The timing-aware builder files the same hyperedges as the plain one, each with the
weight the spec gives it, and keeps every vertex weight in `[1, 10]`. -/
theorem aigNtkBuildTimingAwareHypergraph_spec (abcNtkLevel : AbcNtk → (Nat → Nat) × Nat)
    (N : AbcNtk) :
    let L := aigNtkLevelled abcNtkLevel N
    let T := aigNtkBuildTimingAwareHypergraph abcNtkLevel N
    T.vHyperedges = aigHyperedges N ∧
      T.vEdgeWeights = (aigHyperedges N).map (aigHyperedgeWeightSpec L.1 L.2) ∧
      T.nVertices = N.objNumMax ∧ T.vVertexWeights.length = N.objNumMax ∧
      (∀ w ∈ T.vVertexWeights, 1 ≤ w ∧ w ≤ 10) ∧ T.Counted := by
  intro L T
  have hL : aigHyperedges L.1 = aigHyperedges N := by simp [L, aigNtkLevelled]
  have hn : L.1.objNumMax = N.objNumMax := by simp [L, aigNtkLevelled]
  refine ⟨?_, ?_, ?_, ?_, ?_⟩
  · simp only [T, aigNtkBuildTimingAwareHypergraph]
    rw [foldl_field_append _ AigHyper.vHyperedges _ (aigTimingStep_vHyperedges L.1 L.2),
      ← hL, aigHyperedges, List.filterMap_eq_flatMap_toList]
    rfl
  · simp only [T, aigNtkBuildTimingAwareHypergraph]
    rw [foldl_field_append _ AigHyper.vEdgeWeights _ (aigTimingStep_vEdgeWeights L.1 L.2),
      ← hL, aigHyperedges, List.map_filterMap, List.filterMap_eq_flatMap_toList]
    rfl
  · exact foldl_keeps _ (fun b : AigHyper _ => b.nVertices = N.objNumMax) (by simp) _ _ rfl
  · exact (foldl_keeps _ (fun b : AigHyper _ => b.vVertexWeights.length = N.objNumMax ∧
      ∀ w ∈ b.vVertexWeights, 1 ≤ w ∧ w ≤ 10) (fun b i hb => aigTimingStep_vVertexWeights _ _ _ _ _ hb)
      _ _ ⟨by simp [aigHyperStart, aigHyperAlloc], by simp [aigHyperStart]⟩).1
  · refine ⟨(foldl_keeps _ (fun b : AigHyper _ => b.vVertexWeights.length = N.objNumMax ∧
      ∀ w ∈ b.vVertexWeights, 1 ≤ w ∧ w ≤ 10) (fun b i hb => aigTimingStep_vVertexWeights _ _ _ _ _ hb)
      _ _ ⟨by simp [aigHyperStart, aigHyperAlloc], by simp [aigHyperStart]⟩).2, ?_⟩
    exact foldl_keeps _ _ (counted_aigTimingStep L.1 L.2) _ _ (counted_start N)

end abc_partition.hypergraph
