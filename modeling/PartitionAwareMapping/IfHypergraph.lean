-- The hypergraph the IF mapper builds of its own objects, `If_ManBuildHypergraph`,
-- and its export. Like the second copy of the AIG builder, it files each edge at
-- the level of its size, and the export walks the levels as if they were edges.
import PartitionAwareMapping.IfManager
import PartitionAwareMapping.AigHypergraph

namespace abc_partition.if_hypergraph

open abc_partition.vectors abc_partition.if_manager abc_partition.hypergraph

/-! ## The pure model -/

/-- `vConnections` of an object `i` that is not an output: every AND with `i` as a fanin and
every output `i` drives, in object order. -/
def ifFanoutsOf (p : IfMan) (i : Nat) : List Nat :=
  (List.range p.objNum).filter fun j =>
    match p.obj j with
    | some pOther =>
      if ifObjIsAnd pOther then pOther.pFanin0 == some i || pOther.pFanin1 == some i
      else if ifObjIsCo pOther then pOther.pFanin0 == some i
      else false
    | none => false

/-- `vConnections` of an output that is not a latch: its driver, unless it is the constant. -/
def ifCoDriver (p : IfMan) (pObj : IfObj) : List Nat :=
  match pObj.pFanin0 with
  | some f =>
    match p.obj f with
    | some pFanin => if ifObjIsConst1 pFanin then [] else [f]
    | none => []
  | none => []

/-- The hyperedge the loop body makes for id `i`: the object, then its connections, when it
is not the constant and has some. `ifObjIsLatch` is `If_ObjIsLatch`, which `if.h` defines and
the sources do not include. -/
def ifHyperedgeOf (ifObjIsLatch : IfObj → Bool) (p : IfMan) (i : Nat) : Option (List Nat) :=
  match p.obj i with
  | none => none
  | some pObj =>
    if ifObjIsConst1 pObj then none
    else
      let vConnections :=
        if !ifObjIsCo pObj then ifFanoutsOf p i
        else if ifObjIsCo pObj && !ifObjIsLatch pObj then ifCoDriver p pObj
        else []
      if 0 < vConnections.length then some (i :: vConnections) else none

/-- The hyperedges of `p`, in the order the builder creates them. -/
def ifHyperedges (ifObjIsLatch : IfObj → Bool) (p : IfMan) : List (List Nat) :=
  (List.range p.objNum).filterMap (ifHyperedgeOf ifObjIsLatch p)

/-- `If_HyperAlloc`, then `Vec_IntFill( vVertexWeights, nVertices, 1 )`. `If_Hyper_t` has the
fields of `Aig_Hyper_t`, and the manager, which nothing here reads. -/
def ifHyperStart (p : IfMan) : AigHyper (List (List (List Nat))) where
  nVertices := p.objNum
  nHyperedges := 0
  nPins := 0
  vHyperedges := []
  vEdgeWeights := []
  vVertexWeights := List.replicate p.objNum 1

/-- The loop body of `If_ManBuildHypergraph` for id `i`; it ends as the second copy of the
AIG builder does, with `Vec_VecPush( vHyperedges, Vec_IntSize(vHyperEdge), vHyperEdge )`. -/
def ifHyperStep (ifObjIsLatch : IfObj → Bool) (p : IfMan) (h : AigHyper (List (List (List Nat))))
    (i : Nat) : AigHyper (List (List (List Nat))) :=
  match ifHyperedgeOf ifObjIsLatch p i with
  | some vHyperEdge => by_size.aigHyperPushEdge h vHyperEdge 1
  | none => h

/-- `If_ManBuildHypergraph` (`ifHyper.c`, lines 93-181). -/
def ifManBuildHypergraph (ifObjIsLatch : IfObj → Bool) (p : IfMan) :
    AigHyper (List (List (List Nat))) :=
  (List.range p.objNum).foldl (ifHyperStep ifObjIsLatch p) (ifHyperStart p)

/-- `If_HyperForEachEdge`, which is `Vec_VecForEachLevel`: the walk of the AIG copy over
levels. -/
def ifHyperForEachEdge (word : List (List Nat) → Nat → Nat)
    (H : AigHyper (List (List (List Nat)))) : List (List Nat) :=
  by_size.aigHyperForEachEdge word H

/-- `If_HyperExportForPartitioning` (`ifHyper.c`, lines 243-268), the same loop as the AIG
copy's export. -/
def ifHyperExportForPartitioning (word : List (List Nat) → Nat → Nat)
    (H : AigHyper (List (List (List Nat)))) : CsrArrays :=
  by_size.aigHyperExportForPartitioning word H

/-! ## The builder files the hyperedges by size -/

/-- Pushing the edges of a loop by size files them, in order, at the levels of their sizes. -/
theorem foldl_pushBySize_vHyperedges (edgeOf : Nat → Option (List Nat)) (l : List Nat)
    (h : AigHyper (List (List (List Nat)))) :
    (l.foldl (fun h i => match edgeOf i with
        | some e => by_size.aigHyperPushEdge h e 1
        | none => h) h).vHyperedges = fileBySize h.vHyperedges (l.filterMap edgeOf) := by
  induction l generalizing h with
  | nil => rfl
  | cons i l ih =>
    rw [List.foldl_cons, ih, List.filterMap_cons]
    split <;> simp_all [fileBySize, by_size.aigHyperPushEdge]

theorem ifManBuildHypergraph_vHyperedges (ifObjIsLatch : IfObj → Bool) (p : IfMan) :
    (ifManBuildHypergraph ifObjIsLatch p).vHyperedges = fileBySize [] (ifHyperedges ifObjIsLatch p) :=
  foldl_pushBySize_vHyperedges _ _ _

theorem length_of_ifHyperedgeOf {ifObjIsLatch : IfObj → Bool} {p : IfMan} {i : Nat}
    {e : List Nat} (h : ifHyperedgeOf ifObjIsLatch p i = some e) : 2 ≤ e.length := by
  unfold ifHyperedgeOf at h
  split at h
  · cases h
  · dsimp only at h
    split at h
    · cases h
    · obtain ⟨hpos, he⟩ := Option.ite_none_right_eq_some.mp h
      cases he
      exact Nat.succ_le_succ hpos

/-- The IF builder files each edge at the level of its size and the export walks levels: on
every manager with a hyperedge, the arrays no longer read back to the hyperedges, whatever
the pointer words read. -/
theorem if_export_loses_edges (word : List (List Nat) → Nat → Nat) (ifObjIsLatch : IfObj → Bool)
    (p : IfMan) (h : ifHyperedges ifObjIsLatch p ≠ []) :
    csrEdges (ifHyperExportForPartitioning word (ifManBuildHypergraph ifObjIsLatch p)).vHyperedges
      (ifHyperExportForPartitioning word (ifManBuildHypergraph ifObjIsLatch p)).vIndices ≠
        ifHyperedges ifObjIsLatch p := by
  simp only [ifHyperExportForPartitioning, by_size.aigHyperExportForPartitioning,
    by_size.aigHyperForEachEdge, ifManBuildHypergraph_vHyperedges]
  refine csrEdges_fileBySize_ne word _ h (fun e he => ?_)
  obtain ⟨i, -, hi⟩ := List.mem_filterMap.mp he
  have := length_of_ifHyperedgeOf hi
  omega

/-! ## The builder files every connection -/

/-- Object `j` reads object `a`: an AND with `a` as a fanin, or an output `a` drives. -/
def ReadsFrom (p : IfMan) (j a : Nat) : Prop :=
  ∃ o, p.obj j = some o ∧
    ((o.type = .and ∧ (o.pFanin0 = some a ∨ o.pFanin1 = some a)) ∨
      (o.type = .co ∧ o.pFanin0 = some a))

theorem mem_ifFanoutsOf {p : IfMan} {a j : Nat} : j ∈ ifFanoutsOf p a ↔ ReadsFrom p j a := by
  simp only [ifFanoutsOf, ReadsFrom, List.mem_filter, List.mem_range]
  rcases ho : p.obj j with _ | o
  · simp
  · have hlt : j < p.objNum := (List.getElem?_eq_some_iff.mp ho).1
    cases ht : o.type <;> simp [ifObjIsAnd, ifObjIsCo, ht, hlt]

/-- An output's connections are its driver when that is a non-constant object, else none. -/
theorem ifCoDriver_cases (p : IfMan) (o : IfObj) :
    (ifCoDriver p o = [] ∧ ∀ f of, o.pFanin0 = some f → p.obj f = some of → of.type = .const1) ∨
      ∃ f of, o.pFanin0 = some f ∧ p.obj f = some of ∧ of.type ≠ .const1 ∧
        ifCoDriver p o = [f] := by
  unfold ifCoDriver
  rcases h0 : o.pFanin0 with _ | f
  · exact .inl ⟨rfl, fun _ _ h => by cases h⟩
  dsimp only
  rcases hf : p.obj f with _ | of
  · refine .inl ⟨rfl, fun f' of' hf' hof' => ?_⟩
    cases hf'; rw [hf] at hof'; cases hof'
  by_cases hc : of.type = .const1
  · refine .inl ⟨by simp [ifObjIsConst1, hc], fun f' of' hf' hof' => ?_⟩
    cases hf'; rw [hf] at hof'; cases hof'; exact hc
  · exact .inr ⟨f, of, rfl, hf, hc, by simp [ifObjIsConst1, hc]⟩

/-- The hyperedge of `i`: `i` and the objects reading it, when it is neither the constant nor
an output; `i` and its connections as an output, when it is an output that is not a latch. -/
theorem ifHyperedgeOf_eq_some {ifObjIsLatch : IfObj → Bool} {p : IfMan} {i : Nat}
    {e : List Nat} :
    ifHyperedgeOf ifObjIsLatch p i = some e ↔ ∃ o, p.obj i = some o ∧ o.type ≠ .const1 ∧
      ((o.type ≠ .co ∧ ifFanoutsOf p i ≠ [] ∧ i :: ifFanoutsOf p i = e) ∨
        (o.type = .co ∧ ifObjIsLatch o = false ∧ ifCoDriver p o ≠ [] ∧
          i :: ifCoDriver p o = e)) := by
  unfold ifHyperedgeOf
  rcases ho : p.obj i with _ | o
  · simp
  · cases ht : o.type <;> cases hl : ifObjIsLatch o <;>
      simp [ifObjIsConst1, ifObjIsCo, ht, hl, List.length_pos]

theorem mem_ifHyperedges {ifObjIsLatch : IfObj → Bool} {p : IfMan} {e : List Nat} :
    e ∈ ifHyperedges ifObjIsLatch p ↔ ∃ i < p.objNum, ifHyperedgeOf ifObjIsLatch p i = some e := by
  simp [ifHyperedges]

/-- `If_ManBuildHypergraph` files every connection of the manager. Level `k` of what it builds
holds the hyperedges of `k` pins, in the order it makes them, and an object anchors at most
one. A hyperedge anchored at an object that is neither the constant nor an output lists
exactly the objects that read it; one anchored at an output that is not a latch lists the
output's non-constant driver. Every connection out of such an object, and out of such an
output, is covered. The edges its export loses are lost by the export alone. -/
theorem if_builder_files_connections (ifObjIsLatch : IfObj → Bool) (p : IfMan) :
    let H := ifManBuildHypergraph ifObjIsLatch p
    let E := ifHyperedges ifObjIsLatch p
    (∀ k, vecVecEntry H.vHyperedges k = E.filter (·.length = k)) ∧
      E.Pairwise (fun e e' => e.headD 0 < e'.headD 0) ∧
      (∀ e ∈ E, ∃ a oa, e.head? = some a ∧ p.obj a = some oa ∧ oa.type ≠ .const1 ∧
        ((oa.type ≠ .co ∧ ∀ j, j ∈ e.tail ↔ ReadsFrom p j a) ∨
          (oa.type = .co ∧ ifObjIsLatch oa = false ∧ ∃ f of, oa.pFanin0 = some f ∧
            p.obj f = some of ∧ of.type ≠ .const1 ∧ e.tail = [f]))) ∧
      (∀ a oa, p.obj a = some oa → oa.type ≠ .const1 → oa.type ≠ .co →
        ∀ j, ReadsFrom p j a → ∃ e ∈ E, e.head? = some a ∧ j ∈ e) ∧
      (∀ j oj, p.obj j = some oj → oj.type = .co → ifObjIsLatch oj = false →
        ∀ f of, oj.pFanin0 = some f → p.obj f = some of → of.type ≠ .const1 → [j, f] ∈ E) := by
  intro H E
  refine ⟨fun k => ?_, ?_, fun e he => ?_, fun a oa hoa hc hco j hj => ?_,
    fun j oj hoj hco hl f of hf hof hfc => ?_⟩
  · -- the levels
    rw [ifManBuildHypergraph_vHyperedges, vecVecEntry_fileBySize]
    simp [vecVecEntry]
  · -- one hyperedge per anchor, in id order
    refine (List.pairwise_lt_range p.objNum).filterMap _ fun a a' haa' e he e' he' => ?_
    obtain ⟨-, -, -, ⟨-, -, rfl⟩ | ⟨-, -, -, rfl⟩⟩ := ifHyperedgeOf_eq_some.mp he <;>
      obtain ⟨-, -, -, ⟨-, -, rfl⟩ | ⟨-, -, -, rfl⟩⟩ := ifHyperedgeOf_eq_some.mp he' <;>
      exact haa'
  · -- the pins of a hyperedge
    obtain ⟨a, -, ha⟩ := mem_ifHyperedges.mp he
    obtain ⟨oa, hoa, hc, ⟨hco, -, rfl⟩ | ⟨hco, hl, hne, rfl⟩⟩ := ifHyperedgeOf_eq_some.mp ha
    · exact ⟨a, oa, rfl, hoa, hc, .inl ⟨hco, fun j => mem_ifFanoutsOf⟩⟩
    rcases ifCoDriver_cases p oa with ⟨h0, -⟩ | ⟨f, of, hf, hof, hfc, hd⟩
    · exact absurd h0 hne
    · exact ⟨a, oa, rfl, hoa, hc, .inr ⟨hco, hl, f, of, hf, hof, hfc, hd⟩⟩
  · -- a reader of a non-output
    have hm : j ∈ ifFanoutsOf p a := mem_ifFanoutsOf.mpr hj
    exact ⟨a :: ifFanoutsOf p a, mem_ifHyperedges.mpr ⟨a, (List.getElem?_eq_some_iff.mp hoa).1,
      ifHyperedgeOf_eq_some.mpr ⟨oa, hoa, hc, .inl ⟨hco, List.ne_nil_of_mem hm, rfl⟩⟩⟩, rfl,
      List.mem_cons_of_mem _ hm⟩
  · -- the driver of an output
    rcases ifCoDriver_cases p oj with ⟨-, h⟩ | ⟨f', of', hf', -, -, hd⟩
    · exact absurd (h f of hf hof) hfc
    rw [hf] at hf'; cases hf'
    exact mem_ifHyperedges.mpr ⟨j, (List.getElem?_eq_some_iff.mp hoj).1,
      ifHyperedgeOf_eq_some.mpr ⟨oj, hoj, by rw [hco]; decide, .inr ⟨hco, hl, by simp [hd],
        by rw [hd]⟩⟩⟩

/-- A manager of the constant, one CI and one output it drives. -/
def ifCiCo : IfMan :=
  ⟨[ifObjNew .const1 none none, ifObjNew .ci none none, ifObjNew .co (some 1) none],
    none, none, none, 0, 6, 8, false, false, 0, 0, 0⟩

/-- The IF builder on one input driving one output, no output being a latch: two hyperedges,
but the export walks three levels, so it returns four offsets, and the arrays read back to
two empty vectors and one vector of two pointer words. -/
theorem if_export_at_ciCo :
    ifHyperedges (fun _ => false) ifCiCo = [[1, 2], [2, 1]] ∧
      (ifManBuildHypergraph (fun _ => false) ifCiCo).nHyperedges = 2 ∧
      (ifHyperExportForPartitioning (fun _ _ => 0)
        (ifManBuildHypergraph (fun _ => false) ifCiCo)).vIndices = [0, 0, 0, 2] ∧
      csrEdges
        (ifHyperExportForPartitioning (fun _ _ => 0)
          (ifManBuildHypergraph (fun _ => false) ifCiCo)).vHyperedges
        (ifHyperExportForPartitioning (fun _ _ => 0)
          (ifManBuildHypergraph (fun _ => false) ifCiCo)).vIndices = [[], [], [0, 0]] := by
  decide

end abc_partition.if_hypergraph
