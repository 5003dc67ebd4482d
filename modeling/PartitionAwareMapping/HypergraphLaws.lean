-- The laws of the AIG hypergraph: the hyperedges are exactly the combinational
-- connections of the network, the CSR export reads back to them when edges are
-- appended but loses them when they are filed by size, and the timing-aware
-- builder makes the same hyperedges as the plain one, with weights in [1, 10].
import PartitionAwareMapping.AigHypergraph

namespace abc_partition.hypergraph

open abc_partition.vectors abc_partition.network abc_partition.criticality

/-! ## What a connection is -/

/-- A connection of an object names a non-constant object: a fanout that is an AND or an
output, or, for an output, its driver. -/
theorem mem_aigConnections {N : AbcNtk} {o : AbcObj} {f : Nat} (hf : f ∈ aigConnections N o) :
    ∃ fo, N.obj f = some fo ∧ fo.type ≠ .const1 ∧
      ((f ∈ o.vFanouts ∧ (fo.type = .node ∨ fo.type = .po)) ∨
        (o.type = .po ∧ o.vFanins.head? = some f)) := by
  unfold aigConnections at hf
  split at hf
  · rw [List.mem_filter] at hf
    obtain ⟨hm, hp⟩ := hf
    unfold abcNtkIsNodeOrPo at hp
    rcases hfo : N.obj f with _ | fo
    · simp [hfo] at hp
    · simp only [hfo, abcObjIsNode, abcObjIsPo, Bool.or_eq_true, beq_iff_eq] at hp
      exact ⟨fo, rfl, by rcases hp with h | h <;> simp [h], Or.inl ⟨hm, hp⟩⟩
  · split at hf
    · rename_i hpo hd
      have hpo' : o.type = .po := by simpa [abcObjIsPo] using hpo
      unfold aigPoDriver at hf
      rcases hh : o.vFanins.head? with _ | g
      · simp [hh] at hf
      · rcases hgo : N.obj g with _ | go
        · simp [hh, hgo] at hf
        · by_cases hc : abcAigNodeIsConst go = true
          · simp [hh, hgo, hc] at hf
          · simp only [hh, hgo, hc, Bool.false_eq_true, if_false, List.mem_singleton] at hf
            subst hf
            exact ⟨go, hgo, by simpa [abcAigNodeIsConst] using hc, Or.inr ⟨hpo', rfl⟩⟩
    · simp at hf

theorem anchor_of_mem_aigHyperedges {N : AbcNtk} {e : List Nat} (he : e ∈ aigHyperedges N) :
    ∃ i o, N.obj i = some o ∧ o.type ≠ .const1 ∧ aigConnections N o ≠ [] ∧
      e = i :: aigConnections N o := by
  obtain ⟨i, -, hi⟩ := mem_aigHyperedges.mp he
  obtain ⟨o, ho, hc, hne, rfl⟩ := aigHyperedgeOf_eq_some.mp hi
  exact ⟨i, o, ho, by simpa [abcAigNodeIsConst] using hc, hne, rfl⟩

/-! ## The hyperedges are the connections of the network -/

section connections

variable (N : AbcNtk)

/-- Every pin names a non-constant object, below the vertex count. -/
theorem pins_of_aigHyperedges :
    ∀ e ∈ aigHyperedges N, ∀ p ∈ e, p < N.objNumMax ∧ ∃ o, N.obj p = some o ∧ o.type ≠ .const1 := by
  intro e he p hp
  obtain ⟨i, o, ho, hc, -, rfl⟩ := anchor_of_mem_aigHyperedges he
  rcases List.mem_cons.mp hp with rfl | hp
  · exact ⟨AbcNtk.lt_of_obj_eq_some ho, o, ho, hc⟩
  · obtain ⟨fo, hfo, hfc, -⟩ := mem_aigConnections hp
    exact ⟨AbcNtk.lt_of_obj_eq_some hfo, fo, hfo, hfc⟩

/-- Anchors strictly increase along the list, so an object anchors at most one hyperedge. -/
theorem anchors_increase_aigHyperedges :
    (aigHyperedges N).Pairwise (fun e e' => e.headD 0 < e'.headD 0) := by
  refine (List.pairwise_lt_range N.objNumMax).filterMap _ ?_
  intro a a' haa' e he e' he'
  obtain ⟨o, -, -, -, rfl⟩ := aigHyperedgeOf_eq_some.mp he
  obtain ⟨o', -, -, -, rfl⟩ := aigHyperedgeOf_eq_some.mp he'
  exact haa'

/-- Every pin after the anchor is a fanout of the anchor that is an AND or an output, or
the driver of an output anchor. -/
theorem members_of_aigHyperedges :
    ∀ e ∈ aigHyperedges N, ∃ a oa, e.head? = some a ∧ N.obj a = some oa ∧ ∀ p ∈ e.tail,
      (p ∈ oa.vFanouts ∧ ∃ o, N.obj p = some o ∧ (o.type = .node ∨ o.type = .po)) ∨
        (oa.type = .po ∧ oa.vFanins.head? = some p) := by
  intro e he
  obtain ⟨i, o, ho, -, -, rfl⟩ := anchor_of_mem_aigHyperedges he
  refine ⟨i, o, rfl, ho, fun p hp => ?_⟩
  obtain ⟨fo, hfo, -, hfan | hdrv⟩ := mem_aigConnections hp
  · exact Or.inl ⟨hfan.1, fo, hfo, hfan.2⟩
  · exact Or.inr hdrv

variable {N} (hN : N.Wf)
include hN

/-- With fanout lists free of repeats, the pins of a hyperedge are distinct. -/
theorem nodup_of_aigHyperedges (hfo : ∀ p ∈ N.objs, p.2.vFanouts.Nodup) :
    ∀ e ∈ aigHyperedges N, e.Nodup := by
  intro e he
  obtain ⟨i, o, ho, -, -, rfl⟩ := anchor_of_mem_aigHyperedges he
  refine List.nodup_cons.mpr ⟨fun hi => ?_, ?_⟩
  · obtain ⟨fo, hfo', -, hfan | hdrv⟩ := mem_aigConnections hi
    · exact hN.not_mem_fanouts ho hfan.1
    · exact hN.not_mem_fanins ho (List.mem_of_mem_head? hdrv.2)
  · unfold aigConnections aigPoDriver
    split
    · exact (hfo (i, o) (AbcNtk.mem_objs.mpr ho)).filter _
    · split
      · split
        · split
          · split <;> simp
          · simp
        · simp
      · simp

/-- Every fanin edge into an AND or an output lies in some hyperedge, unless the fanin is
the constant. -/
theorem complete_aigHyperedges :
    ∀ u ou, N.obj u = some ou → (ou.type = .node ∨ ou.type = .po) →
      ∀ v ∈ ou.vFanins, ∀ ov, N.obj v = some ov → ov.type ≠ .const1 →
        ∃ e ∈ aigHyperedges N, v ∈ e ∧ u ∈ e := by
  intro u ou hu hut v hv ov hov hc
  have huv : u ∈ ov.vFanouts := hN.mem_fanouts_of_fanin hu hv hov
  have hpo : ov.type ≠ .po := fun hp => by simp [hN.fanouts_of_po hov hp] at huv
  have hnp : abcNtkIsNodeOrPo N u = true := by
    simp only [abcNtkIsNodeOrPo, hu, abcObjIsNode, abcObjIsPo, Bool.or_eq_true, beq_iff_eq]
    exact hut
  have hconn : u ∈ aigConnections N ov := by
    have hnpo : (!abcObjIsPo ov) = true := by simpa [abcObjIsPo] using hpo
    rw [aigConnections, if_pos hnpo]
    exact List.mem_filter.mpr ⟨huv, hnp⟩
  refine ⟨v :: aigConnections N ov, mem_aigHyperedges.mpr ⟨v, AbcNtk.lt_of_obj_eq_some hov, ?_⟩,
    List.mem_cons_self _ _, List.mem_cons_of_mem _ hconn⟩
  exact aigHyperedgeOf_eq_some.mpr ⟨ov, hov, by simpa [abcAigNodeIsConst] using hc,
    List.ne_nil_of_mem hconn, rfl⟩

end connections

/-- The hypergraph of `Aig_NtkBuildHypergraph` captures exactly the combinational connections
of a network: its hyperedges are well formed, every member is a fanout or an output's driver
of the anchor, and every non-constant fanin edge into an AND or an output is covered. -/
theorem aig_hypergraph_captures_connections (N : AbcNtk) (hN : N.Wf) :
    let H := aigNtkBuildHypergraph N
    H.nVertices = N.objNumMax ∧ (∀ e ∈ H.vHyperedges, 2 ≤ e.length) ∧
      (∀ e ∈ H.vHyperedges, ∀ p ∈ e,
        p < H.nVertices ∧ ∃ o, N.obj p = some o ∧ o.type ≠ .const1) ∧
      H.vHyperedges.Pairwise (fun e e' => e.headD 0 < e'.headD 0) ∧
      ((∀ p ∈ N.objs, p.2.vFanouts.Nodup) → ∀ e ∈ H.vHyperedges, e.Nodup) ∧
      (∀ e ∈ H.vHyperedges, ∃ a oa, e.head? = some a ∧ N.obj a = some oa ∧ ∀ p ∈ e.tail,
        (p ∈ oa.vFanouts ∧ ∃ o, N.obj p = some o ∧ (o.type = .node ∨ o.type = .po)) ∨
          (oa.type = .po ∧ oa.vFanins.head? = some p)) ∧
      (∀ u ou, N.obj u = some ou → (ou.type = .node ∨ ou.type = .po) →
        ∀ v ∈ ou.vFanins, ∀ ov, N.obj v = some ov → ov.type ≠ .const1 →
          ∃ e ∈ H.vHyperedges, v ∈ e ∧ u ∈ e) := by
  obtain ⟨hE, -, hV, -, -⟩ := aigNtkBuildHypergraph_spec N
  simp only [hE, hV]
  refine ⟨trivial, fun e he => ?_, pins_of_aigHyperedges N, anchors_increase_aigHyperedges N,
    nodup_of_aigHyperedges hN, members_of_aigHyperedges N, complete_aigHyperedges hN⟩
  obtain ⟨i, -, hi⟩ := mem_aigHyperedges.mp he
  exact length_of_aigHyperedgeOf hi

/-- A network of the constant, one input and one output it drives. -/
def aigPiPo : AbcNtk where
  vObjs := [some ⟨.const1, [], [], 0, none⟩, some ⟨.pi, [], [2], 0, none⟩,
    some ⟨.po, [1], [], 0, none⟩]
  vPis := [1]
  vPos := [2]

/-- A network of the constant, two inputs, their AND, and an output it drives. -/
def aigAndPo : AbcNtk where
  vObjs := [some ⟨.const1, [], [], 0, none⟩, some ⟨.pi, [], [3], 0, none⟩,
    some ⟨.pi, [], [3], 0, none⟩, some ⟨.node, [1, 2], [4], 1, none⟩,
    some ⟨.po, [3], [], 0, none⟩]
  vPis := [1, 2]
  vPos := [4]

theorem aig_hypergraph_captures_connections_andPo :
    aigAndPo.Wf ∧
      (aigNtkBuildHypergraph aigAndPo).vHyperedges = [[1, 3], [2, 3], [3, 4], [4, 3]] ∧
      ∀ e ∈ (aigNtkBuildHypergraph aigAndPo).vHyperedges, 2 ≤ e.length :=
  have hN : aigAndPo.Wf := by decide
  ⟨hN, by decide, (aig_hypergraph_captures_connections aigAndPo hN).2.1⟩

/-! ## The CSR export -/

/-- The CSR law for a hypergraph whose edges were appended and counted: both copies of the
edge macro walk its edges in order, and the export has one offset more than edges, starts
at 0, reads back to the edges, and carries the edge weights. -/
theorem csr_law_of_counted {H : AigHyper (List (List Nat))} (hc : H.Counted) :
    let X := aigHyperExportForPartitioning H
    aigHyperForEachEdge H = H.vHyperedges ∧
      aigHyperForEachEdgeCounted H = some H.vHyperedges ∧
      X.vIndices = csrOffsets H.vHyperedges ∧ X.vIndices.length = H.nHyperedges + 1 ∧
      X.vIndices.head? = some 0 ∧ csrEdges X.vHyperedges X.vIndices = H.vHyperedges ∧
      X.vHyperedges.length = H.nPins ∧ X.vWeights = H.vEdgeWeights ∧
      X.vWeights.length = H.nHyperedges := by
  rw [aigHyperExportForPartitioning_eq]
  refine ⟨rfl, aigHyperForEachEdgeCounted_eq hc, rfl, by rw [length_csrOffsets, hc.1], ?_,
    by simpa [csrExport_eq] using csrEdges_csrExport H.vHyperedges, ?_, rfl, hc.3⟩
  · rw [csrOffsets, scanl_eq_cons]; rfl
  · simp [List.length_flatten, hc.2]

/-- The plain builder and the timing-aware builder both obey the CSR law. -/
theorem csr_law_of_appending_builders (abcNtkLevel : AbcNtk → (Nat → Nat) × Nat) (N : AbcNtk) :
    csrEdges (aigHyperExportForPartitioning (aigNtkBuildHypergraph N)).vHyperedges
        (aigHyperExportForPartitioning (aigNtkBuildHypergraph N)).vIndices = aigHyperedges N ∧
      csrEdges (aigHyperExportForPartitioning (aigNtkBuildTimingAwareHypergraph abcNtkLevel N)).vHyperedges
        (aigHyperExportForPartitioning (aigNtkBuildTimingAwareHypergraph abcNtkLevel N)).vIndices =
          aigHyperedges N := by
  obtain ⟨hP, -, -, -, hcP⟩ := aigNtkBuildHypergraph_spec N
  obtain ⟨hT, -, -, -, -, hcT⟩ := aigNtkBuildTimingAwareHypergraph_spec abcNtkLevel N
  exact ⟨hP ▸ (csr_law_of_counted hcP).2.2.2.2.2.1, hT ▸ (csr_law_of_counted hcT).2.2.2.2.2.1⟩

/-- The second copy of the builder files each edge at the level of its size and the export
walks levels: on every network with a hyperedge, the arrays no longer read back to the
hyperedges, whatever the pointer words read. -/
theorem by_size_export_loses_edges (word : List (List Nat) → Nat → Nat) (N : AbcNtk)
    (h : aigHyperedges N ≠ []) :
    let X := by_size.aigHyperExportForPartitioning word (by_size.aigNtkBuildHypergraph N)
    csrEdges X.vHyperedges X.vIndices ≠ aigHyperedges N := by
  simp only [by_size.aigHyperExportForPartitioning, by_size.aigHyperForEachEdge,
    by_size.aigNtkBuildHypergraph_vHyperedges]
  refine csrEdges_fileBySize_ne word _ h (fun e he => ?_)
  obtain ⟨i, -, hi⟩ := mem_aigHyperedges.mp he
  have := length_of_aigHyperedgeOf hi
  omega

theorem by_size_export_loses_edges_piPo :
    aigHyperedges aigPiPo ≠ [] ∧
      csrEdges (by_size.aigHyperExportForPartitioning (fun _ _ => 0)
          (by_size.aigNtkBuildHypergraph aigPiPo)).vHyperedges
        (by_size.aigHyperExportForPartitioning (fun _ _ => 0)
          (by_size.aigNtkBuildHypergraph aigPiPo)).vIndices ≠ aigHyperedges aigPiPo :=
  have h : aigHyperedges aigPiPo ≠ [] := by decide
  ⟨h, by_size_export_loses_edges (fun _ _ => 0) aigPiPo h⟩

/-- The second copy on one input driving one output: two hyperedges, but the export walks
three levels, so it returns four offsets, and the arrays read back to two empty vectors and
one vector of two pointer words. -/
theorem by_size_export_at_piPo :
    aigHyperedges aigPiPo = [[1, 2], [2, 1]] ∧
      (by_size.aigNtkBuildHypergraph aigPiPo).nHyperedges = 2 ∧
      (by_size.aigHyperExportForPartitioning (fun _ _ => 0)
        (by_size.aigNtkBuildHypergraph aigPiPo)).vIndices = [0, 0, 0, 2] ∧
      csrEdges
        (by_size.aigHyperExportForPartitioning (fun _ _ => 0)
          (by_size.aigNtkBuildHypergraph aigPiPo)).vHyperedges
        (by_size.aigHyperExportForPartitioning (fun _ _ => 0)
          (by_size.aigNtkBuildHypergraph aigPiPo)).vIndices = [[], [], [0, 0]] := by
  decide

/-! ## The timing-aware builder refines the plain one -/

theorem foldl_max_mem (l : List Int) (a : Int) (ha : 1 ≤ a ∧ a ≤ 10)
    (hl : ∀ w ∈ l, 1 ≤ w ∧ w ≤ 10) : 1 ≤ l.foldl max a ∧ l.foldl max a ≤ 10 := by
  induction l generalizing a with
  | nil => exact ha
  | cons w l ih =>
    have hw := hl w (List.mem_cons_self _ _)
    exact ih _ ⟨by omega, by omega⟩ (fun x hx => hl x (List.mem_cons_of_mem _ hx))

theorem aigHyperedgeWeightSpec_mem (N : AbcNtk) (L : Nat) (e : List Nat) :
    1 ≤ aigHyperedgeWeightSpec N L e ∧ aigHyperedgeWeightSpec N L e ≤ 10 := by
  unfold aigHyperedgeWeightSpec
  split
  · omega
  · split
    · omega
    · split
      · omega
      · refine foldl_max_mem _ _ (by omega) (fun w hw => ?_)
        obtain ⟨f, -, hf⟩ := List.mem_filterMap.mp hw
        obtain ⟨fo, -, rfl⟩ := Option.map_eq_some'.mp hf
        exact aigComputeEdgeCriticality_mem _ _ _

/-- `Aig_NtkBuildTimingAwareHypergraph` refines `Aig_NtkBuildHypergraph`: the level pass
keeps the topology, both make the same hyperedges and counts, the timing-aware edge weight
is 10 for an output anchor and else the largest edge criticality to a member, at least 1,
all its weights lie in `[1, 10]`, and the plain builder's weights are all 1. -/
theorem timing_aware_builder_refines_plain (abcNtkLevel : AbcNtk → (Nat → Nat) × Nat)
    (N : AbcNtk) :
    let P := aigNtkBuildHypergraph N
    let T := aigNtkBuildTimingAwareHypergraph abcNtkLevel N
    let L := aigNtkLevelled abcNtkLevel N
    (∀ i, (L.1.obj i).map (fun o => (o.type, o.vFanins, o.vFanouts)) =
      (N.obj i).map (fun o => (o.type, o.vFanins, o.vFanouts))) ∧
      T.vHyperedges = P.vHyperedges ∧ T.nHyperedges = P.nHyperedges ∧ T.nPins = P.nPins ∧
      T.nVertices = P.nVertices ∧ T.vEdgeWeights.length = T.nHyperedges ∧
      T.vEdgeWeights = T.vHyperedges.map (aigHyperedgeWeightSpec L.1 L.2) ∧
      (∀ w ∈ T.vEdgeWeights, 1 ≤ w ∧ w ≤ 10) ∧ (∀ w ∈ T.vVertexWeights, 1 ≤ w ∧ w ≤ 10) ∧
      (∀ w ∈ P.vEdgeWeights, w = 1) ∧ (∀ w ∈ P.vVertexWeights, w = 1) := by
  intro P T L
  obtain ⟨hPE, hPW, hPV, hPVW, hPc⟩ := aigNtkBuildHypergraph_spec N
  obtain ⟨hTE, hTW, hTV, -, hTVW, hTc⟩ := aigNtkBuildTimingAwareHypergraph_spec abcNtkLevel N
  have hE : T.vHyperedges = P.vHyperedges := hTE.trans hPE.symm
  refine ⟨fun i => ?_, hE, by rw [hTc.1, hPc.1, hE], by rw [hTc.2, hPc.2, hE],
    hTV.trans hPV.symm, hTc.3, by rw [hTW, hTE], fun w hw => ?_, hTVW, fun w hw => ?_,
    fun w hw => ?_⟩
  · simp only [L, aigNtkLevelled, AbcNtk.obj_setLevels]
    rcases N.obj i <;> rfl
  · rw [hTW] at hw
    obtain ⟨e, -, rfl⟩ := List.mem_map.mp hw
    exact aigHyperedgeWeightSpec_mem _ _ _
  · rw [hPW] at hw
    obtain ⟨e, -, rfl⟩ := List.mem_map.mp hw
    rfl
  · rw [hPVW] at hw
    exact List.eq_of_mem_replicate hw

/-! ## Output edges outweigh the rest -/

theorem foldl_max_le {l : List Int} {a b : Int} (ha : a ≤ b) (hl : ∀ w ∈ l, w ≤ b) :
    l.foldl max a ≤ b := by
  induction l generalizing a with
  | nil => exact ha
  | cons w l ih =>
    exact ih (max_le ha (hl w (List.mem_cons_self _ _)))
      fun x hx => hl x (List.mem_cons_of_mem _ hx)

section levelled

variable (abcNtkLevel : AbcNtk → (Nat → Nat) × Nat)
  (hlev : ∀ M i, (abcNtkLevel M).1 i ≤ (abcNtkLevel M).2)

/-- The level pass keeps every object's type. -/
theorem type_aigNtkLevelled (N : AbcNtk) (i : Nat) :
    ((aigNtkLevelled abcNtkLevel N).1.obj i).map AbcObj.type = (N.obj i).map AbcObj.type := by
  simp only [aigNtkLevelled, AbcNtk.obj_setLevels]
  rcases N.obj i <;> rfl

include hlev

/-- When the level pass bounds every level by its maximum, so does the maximum the builder
divides by, which is never zero. -/
theorem level_le_aigNtkLevelled {N : AbcNtk} {i : Nat} {o : AbcObj}
    (h : (aigNtkLevelled abcNtkLevel N).1.obj i = some o) :
    o.level ≤ (aigNtkLevelled abcNtkLevel N).2 := by
  simp only [aigNtkLevelled, AbcNtk.obj_setLevels, Option.map_map] at h ⊢
  obtain ⟨o', -, rfl⟩ := Option.map_eq_some'.mp h
  have := hlev (N.setLevels (abcNtkLevel N).1) i
  split_ifs <;> simp only [Function.comp] <;> omega

/-- With a level pass whose maximum bounds every level it gives, the timing-aware builder
weighs the hyperedge of every output 10 and every other hyperedge between 1 and 6. Output
edges always outweigh the rest, and the clamp of an edge criticality to 10 never fires. -/
theorem timing_weights_favour_outputs (N : AbcNtk) :
    let T := aigNtkBuildTimingAwareHypergraph abcNtkLevel N
    ∀ (k : Nat) (e : List Nat) (w : Int), T.vHyperedges[k]? = some e →
      T.vEdgeWeights[k]? = some w →
      ∃ a oa, e.head? = some a ∧ N.obj a = some oa ∧ (oa.type = .po → w = 10) ∧
        (oa.type ≠ .po → 1 ≤ w ∧ w ≤ 6) := by
  intro T k e w he hw
  obtain ⟨hE, hW, -⟩ := aigNtkBuildTimingAwareHypergraph_spec abcNtkLevel N
  replace he : (aigHyperedges N)[k]? = some e := by rw [← hE]; exact he
  rw [hW, List.getElem?_map, he, Option.map_some', Option.some_inj] at hw
  obtain ⟨a, oa, hoa, -, -, rfl⟩ := anchor_of_mem_aigHyperedges (List.getElem?_mem he)
  have hmem := aigHyperedgeWeightSpec_mem (aigNtkLevelled abcNtkLevel N).1
    (aigNtkLevelled abcNtkLevel N).2 (a :: aigConnections N oa)
  rw [hw] at hmem
  -- the anchor keeps its type in the levelled network
  obtain ⟨la, hla, hty⟩ : ∃ la, (aigNtkLevelled abcNtkLevel N).1.obj a = some la ∧
      la.type = oa.type := by
    have := type_aigNtkLevelled abcNtkLevel N a
    rw [hoa] at this
    obtain ⟨la, hla, hty⟩ := Option.map_eq_some'.mp this
    exact ⟨la, hla, hty⟩
  simp only [aigHyperedgeWeightSpec, hla, abcObjIsPo, hty] at hw
  refine ⟨a, oa, rfl, hoa, fun hpo => ?_, fun hpo => ⟨hmem.1, ?_⟩⟩
  · simpa [hpo] using hw.symm
  · rw [← hw, if_neg (by simpa using hpo)]
    refine foldl_max_le (by norm_num) fun x hx => ?_
    obtain ⟨f, -, hf⟩ := List.mem_filterMap.mp hx
    obtain ⟨fo, hfo, rfl⟩ := Option.map_eq_some'.mp hf
    exact aigComputeEdgeCriticality_le_six _ (level_le_aigNtkLevelled abcNtkLevel hlev hfo)

end levelled

theorem timing_weights_favour_outputs_andPo :
    let T := aigNtkBuildTimingAwareHypergraph (fun _ => (fun i => min i 3, 3)) aigAndPo
    ∀ (k : Nat) (e : List Nat) (w : Int), T.vHyperedges[k]? = some e →
      T.vEdgeWeights[k]? = some w →
      ∃ a oa, e.head? = some a ∧ aigAndPo.obj a = some oa ∧ (oa.type = .po → w = 10) ∧
        (oa.type ≠ .po → 1 ≤ w ∧ w ≤ 6) :=
  timing_weights_favour_outputs _ (fun _ _ => Nat.min_le_right _ _) aigAndPo

end abc_partition.hypergraph
