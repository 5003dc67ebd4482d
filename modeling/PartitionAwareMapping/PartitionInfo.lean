-- The partition data on the mapper's manager. `If_ManSetPartitionInfo` carries
-- the partition vector of the AIG over to the IF ids through `pCopy` and records
-- the inputs and outputs of every partition; `If_CutCheckPartition` is the
-- locality filter the cut engine applies with them.
import PartitionAwareMapping.IfManager
import PartitionAwareMapping.AbcNetwork

namespace abc_partition.partition_info

open abc_partition.vectors abc_partition.network abc_partition.if_manager

/-! ## The pure model -/

/-- The IF id of the copy of AIG object `i`, `If_ObjId((If_Obj_t *)pObj->pCopy)`. -/
def copyOf (N : AbcNtk) (i : Nat) : Option Nat := (N.obj i).bind AbcObj.pCopy

/-- What `If_ManSetPartitionInfo` can run into: a fanin with no copy, whose `pCopy` it reads
through, or a write past the end of the new partition vector, which `Vec_IntWriteEntry`
asserts against. -/
inductive SetInfoFault
  | nullCopy (faninId : Nat)
  | writeOutOfRange (ifId : Nat)
  deriving DecidableEq, Repr

/-- What `If_ManSetPartitionInfo` fills: the partition of every IF object, and the inputs
and the outputs of every partition. -/
structure PartitionData where
  vPartition : List Int
  vPartInputs : List (List Nat)
  vPartOutputs : List (List Nat)
  deriving DecidableEq, Repr

/-- One fanin of a node in partition `partId`: a fanin in another partition, both assigned,
is an output of its partition and an input of the node's. -/
def setPartFanin (N : AbcNtk) (vPartition : List Int) (partId : Int) (d : PartitionData)
    (faninId : Nat) : Except SetInfoFault PartitionData :=
  match vPartition[faninId]? with
  | none => .ok d
  | some faninPart =>
    if faninPart ≠ partId ∧ 0 ≤ faninPart ∧ 0 ≤ partId then
      match copyOf N faninId with
      | some c => .ok { d with
          vPartOutputs := vecVecPushUniqueInt d.vPartOutputs faninPart.toNat c
          vPartInputs := vecVecPushUniqueInt d.vPartInputs partId.toNat c }
      | none => .error (.nullCopy faninId)
    else .ok d

/-- One node of `Abc_NtkForEachNode`: a node with a copy and inside the vector gives its
copy its partition, then looks at its fanins. -/
def setPartNode (N : AbcNtk) (vPartition : List Int) (d : PartitionData) (q : Nat × AbcObj) :
    Except SetInfoFault PartitionData :=
  match q.2.pCopy with
  | none => .ok d
  | some ifId =>
    match vPartition[q.1]? with
    | none => .ok d
    | some partId =>
      if ifId < d.vPartition.length then
        let d := { d with vPartition := d.vPartition.set ifId partId }
        if 0 < q.2.vFanins.length then q.2.vFanins.foldlM (setPartFanin N vPartition partId) d
        else .ok d
      else .error (.writeOutOfRange ifId)

/-- The nodes `Abc_NtkForEachNode` visits, in id order. -/
def abcNodes (N : AbcNtk) : List (Nat × AbcObj) := N.objs.filter (fun q => abcObjIsNode q.2)

/-- The partition data before the loop: every IF object unassigned, and `nPartitions` empty
levels of inputs and of outputs. -/
def partitionDataStart (p : IfMan) (nPartitions : Int) : PartitionData :=
  ⟨List.replicate p.objNum (-1), vecVecStart nPartitions.toNat, vecVecStart nPartitions.toNat⟩

/-- `If_ManSetPartitionInfo`; the manager and the vector are never `NULL` here. -/
def ifManSetPartitionInfo (p : IfMan) (N : AbcNtk) (vPartition : List Int) (nPartitions : Int) :
    Except SetInfoFault IfMan := do
  let d ← (abcNodes N).foldlM (setPartNode N vPartition) (partitionDataStart p nPartitions)
  pure { p with
    vPartition := some d.vPartition
    nPartitions := nPartitions
    vPartInputs := some d.vPartInputs
    vPartOutputs := some d.vPartOutputs }

/-- `If_ObjIsPartitionInput`. -/
def ifObjIsPartitionInput (p : IfMan) (nodeId : Nat) (partId : Int) : Bool :=
  match p.vPartInputs with
  | none => false
  | some vPartInputs =>
    if partId < 0 ∨ partId ≥ p.nPartitions then false
    else vecIntFind (vecVecEntry vPartInputs partId.toNat) nodeId ≠ -1

/-- `If_ObjPartition`: -1 with no vector, or past its end. -/
def ifObjPartition (p : IfMan) (i : Nat) : Int :=
  match p.vPartition with
  | none => -1
  | some vPartition => vPartition.getD i (-1)

/-- One leaf of `If_CutCheckPartition`: past the vector, unassigned, in the target
partition, or an input of it. -/
def leafOk (p : IfMan) (vPartition : List Int) (targetPartition : Int) (leafId : Nat) : Bool :=
  match vPartition[leafId]? with
  | none => true
  | some leafPartition =>
    leafPartition == -1 || leafPartition == targetPartition ||
      ifObjIsPartitionInput p leafId targetPartition

/-- `If_CutCheckPartition`. -/
def ifCutCheckPartition (p : IfMan) (c : IfCut) (targetPartition : Int) : Bool :=
  match p.vPartition with
  | none => true
  | some vPartition =>
    if targetPartition < 0 then true else c.leaves.all (leafOk p vPartition targetPartition)

/-- `If_ManCleanPartitionInfo`: the partition data freed, and no partition. -/
def ifManCleanPartitionInfo (p : IfMan) : IfMan :=
  { p with
    vPartition := none
    vPartInputs := none
    vPartOutputs := none
    nPartitions := 0 }

/-! ## One fanin -/

/-- Fanin `f` of a node in partition `a` is in partition `b`: both assigned, and different. -/
def Crosses (vPartition : List Int) (a : Int) (f : Nat) (b : Int) : Prop :=
  vPartition[f]? = some b ∧ b ≠ a ∧ 0 ≤ b ∧ 0 ≤ a

section fanin

variable {N : AbcNtk} {vPartition : List Int} {a : Int} {d d' : PartitionData} {f : Nat}

/-- What one fanin does: it keeps the partition vector, and adds its copy to the inputs of the
node's partition and to the outputs of its own exactly when it crosses. -/
theorem setPartFanin_spec (h : setPartFanin N vPartition a d f = .ok d') :
    d'.vPartition = d.vPartition ∧
      (∀ q x, x ∈ vecVecEntry d'.vPartInputs q ↔ x ∈ vecVecEntry d.vPartInputs q ∨
        ∃ b, Crosses vPartition a f b ∧ q = a.toNat ∧ copyOf N f = some x) ∧
      (∀ q x, x ∈ vecVecEntry d'.vPartOutputs q ↔ x ∈ vecVecEntry d.vPartOutputs q ∨
        ∃ b, Crosses vPartition a f b ∧ q = b.toNat ∧ copyOf N f = some x) ∧
      (NodupLevels d.vPartInputs → NodupLevels d'.vPartInputs) ∧
      (NodupLevels d.vPartOutputs → NodupLevels d'.vPartOutputs) := by
  unfold setPartFanin at h
  split at h
  · rename_i hf
    cases h
    exact ⟨rfl, fun q x => by simp [Crosses, hf], fun q x => by simp [Crosses, hf], id, id⟩
  · rename_i b hf
    split at h
    · rename_i hc
      obtain ⟨hba, hb, ha⟩ := hc
      split at h
      · rename_i c hcopy
        cases h
        refine ⟨rfl, fun q x => ?_, fun q x => ?_, fun hn => nodupLevels_pushUniqueInt hn _ _,
          fun hn => nodupLevels_pushUniqueInt hn _ _⟩ <;>
        · rw [mem_vecVecEntry_pushUniqueInt]
          simp [Crosses, hf, hcopy, hba, hb, ha, Ne.symm hba, @eq_comm _ c x, and_assoc]
      · cases h
    · rename_i hc
      cases h
      -- the fanin does not cross, so neither vector gains an entry
      have hno : ∀ b', ¬ Crosses vPartition a f b' := fun b' ⟨hb', hcr⟩ =>
        hc (by rw [hf] at hb'; cases hb'; exact hcr)
      exact ⟨rfl, fun q x => (or_iff_left fun ⟨b', hcr, _⟩ => hno b' hcr).symm,
        fun q x => (or_iff_left fun ⟨b', hcr, _⟩ => hno b' hcr).symm, id, id⟩

/-- The fanin loop of a node in partition `a`: its fanins that cross, and only they, add their
copies. -/
theorem foldlM_setPartFanin_spec (fs : List Nat) (d0 : PartitionData)
    (h : fs.foldlM (setPartFanin N vPartition a) d0 = .ok d) :
    d.vPartition = d0.vPartition ∧
      (∀ q x, x ∈ vecVecEntry d.vPartInputs q ↔ x ∈ vecVecEntry d0.vPartInputs q ∨
        ∃ f ∈ fs, ∃ b, Crosses vPartition a f b ∧ q = a.toNat ∧ copyOf N f = some x) ∧
      (∀ q x, x ∈ vecVecEntry d.vPartOutputs q ↔ x ∈ vecVecEntry d0.vPartOutputs q ∨
        ∃ f ∈ fs, ∃ b, Crosses vPartition a f b ∧ q = b.toNat ∧ copyOf N f = some x) ∧
      (NodupLevels d0.vPartInputs → NodupLevels d.vPartInputs) ∧
      (NodupLevels d0.vPartOutputs → NodupLevels d.vPartOutputs) := by
  refine foldlM_invariant _ (fun done d => d.vPartition = d0.vPartition ∧
      (∀ q x, x ∈ vecVecEntry d.vPartInputs q ↔ x ∈ vecVecEntry d0.vPartInputs q ∨
        ∃ f ∈ done, ∃ b, Crosses vPartition a f b ∧ q = a.toNat ∧ copyOf N f = some x) ∧
      (∀ q x, x ∈ vecVecEntry d.vPartOutputs q ↔ x ∈ vecVecEntry d0.vPartOutputs q ∨
        ∃ f ∈ done, ∃ b, Crosses vPartition a f b ∧ q = b.toNat ∧ copyOf N f = some x) ∧
      (NodupLevels d0.vPartInputs → NodupLevels d.vPartInputs) ∧
      (NodupLevels d0.vPartOutputs → NodupLevels d.vPartOutputs)) fs ?_ fs [] d0 d rfl
    ⟨rfl, by simp, by simp, id, id⟩ h
  rintro done f d1 d2 - ⟨hv, hin, hout, hni, hno⟩ hf
  obtain ⟨hv', hin', hout', hni', hno'⟩ := setPartFanin_spec hf
  refine ⟨hv'.trans hv, fun q x => ?_, fun q x => ?_, hni' ∘ hni, hno' ∘ hno⟩
  · rw [hin', hin]; simp [or_and_right, exists_or, or_assoc]
  · rw [hout', hout]; simp [or_and_right, exists_or, or_assoc]

theorem setPartFanin_ok (hc : (copyOf N f).isSome) (d : PartitionData) :
    ∃ d', setPartFanin N vPartition a d f = .ok d' := by
  obtain ⟨c, hc⟩ := Option.isSome_iff_exists.mp hc
  unfold setPartFanin
  split
  · exact ⟨d, rfl⟩
  · split
    · rw [hc]; exact ⟨_, rfl⟩
    · exact ⟨d, rfl⟩

end fanin

/-! ## One node -/

/-- Node `n` makes `x` an input of partition `q`: a fanin of `n` with copy `x` crosses into
`q`, the partition of `n`. -/
def InputOf (N : AbcNtk) (vPartition : List Int) (n : Nat × AbcObj) (q x : Nat) : Prop :=
  n.2.pCopy.isSome ∧ ∃ a, vPartition[n.1]? = some a ∧
    ∃ f ∈ n.2.vFanins, ∃ b, Crosses vPartition a f b ∧ q = a.toNat ∧ copyOf N f = some x

/-- Node `n` makes `x` an output of partition `q`: a fanin of `n` with copy `x` lies in `q` and
crosses into the partition of `n`. -/
def OutputOf (N : AbcNtk) (vPartition : List Int) (n : Nat × AbcObj) (q x : Nat) : Prop :=
  n.2.pCopy.isSome ∧ ∃ a, vPartition[n.1]? = some a ∧
    ∃ f ∈ n.2.vFanins, ∃ b, Crosses vPartition a f b ∧ q = b.toNat ∧ copyOf N f = some x

/-- The write of node `n` to the partition vector of the IF objects. -/
def writeNode (vPartition : List Int) (n : Nat × AbcObj) (v : List Int) : List Int :=
  match n.2.pCopy, vPartition[n.1]? with
  | some c, some a => v.set c a
  | _, _ => v

section node

variable {N : AbcNtk} {vPartition : List Int} {d d' : PartitionData} {n : Nat × AbcObj}

/-- What one node does: it writes its partition at its copy, and adds to the inputs and the
outputs what its crossing fanins make them. -/
theorem setPartNode_spec (h : setPartNode N vPartition d n = .ok d') :
    (∀ c a, n.2.pCopy = some c → vPartition[n.1]? = some a → c < d.vPartition.length) ∧
      d'.vPartition = writeNode vPartition n d.vPartition ∧
      (∀ q x, x ∈ vecVecEntry d'.vPartInputs q ↔ x ∈ vecVecEntry d.vPartInputs q ∨
        InputOf N vPartition n q x) ∧
      (∀ q x, x ∈ vecVecEntry d'.vPartOutputs q ↔ x ∈ vecVecEntry d.vPartOutputs q ∨
        OutputOf N vPartition n q x) ∧
      (NodupLevels d.vPartInputs → NodupLevels d'.vPartInputs) ∧
      (NodupLevels d.vPartOutputs → NodupLevels d'.vPartOutputs) := by
  unfold setPartNode at h
  split at h
  · rename_i hc
    cases h
    refine ⟨by simp [hc], by simp [writeNode, hc], fun q x => ?_, fun q x => ?_, id, id⟩ <;>
      simp only [InputOf, OutputOf, hc, Option.isSome_none, Bool.false_eq_true, false_and, or_false]
  · rename_i c hc
    split at h
    · rename_i ha
      cases h
      refine ⟨by simp [ha], by simp [writeNode, hc, ha], fun q x => ?_, fun q x => ?_, id, id⟩ <;>
        simp only [InputOf, OutputOf, ha, reduceCtorEq, false_and, exists_const, and_false,
          or_false]
    · rename_i a ha
      split at h
      · rename_i hlt
        have hw : writeNode vPartition n d.vPartition = d.vPartition.set c a := by
          simp [writeNode, hc, ha]
        have hin_range : ∀ c' a', n.2.pCopy = some c' → vPartition[n.1]? = some a' →
            c' < d.vPartition.length := by
          intro c' a' hc' _; rw [hc] at hc'; cases hc'; exact hlt
        split at h
        · obtain ⟨hv, hin, hout, hni, hno⟩ := foldlM_setPartFanin_spec _ _ h
          refine ⟨hin_range, hv.trans hw.symm, fun q x => ?_, fun q x => ?_, hni, hno⟩
          · rw [hin]
            simp only [InputOf, hc, Option.isSome_some, ha, Option.some.injEq, exists_eq_left',
              true_and]
          · rw [hout]
            simp only [OutputOf, hc, Option.isSome_some, ha, Option.some.injEq, exists_eq_left',
              true_and]
        · rename_i hl
          have hnil : n.2.vFanins = [] := List.eq_nil_of_length_eq_zero (by omega)
          cases h
          refine ⟨hin_range, hw.symm, fun q x => ?_, fun q x => ?_, id, id⟩ <;>
            simp only [InputOf, OutputOf, hnil, List.not_mem_nil, false_and, exists_const,
              and_false, or_false]
      · cases h

theorem setPartNode_ok (hlt : ∀ c, n.2.pCopy = some c → c < d.vPartition.length)
    (hf : ∀ f ∈ n.2.vFanins, (copyOf N f).isSome) :
    ∃ d', setPartNode N vPartition d n = .ok d' ∧ d'.vPartition.length = d.vPartition.length := by
  unfold setPartNode
  split
  · exact ⟨d, rfl, rfl⟩
  · rename_i c hc
    split
    · exact ⟨d, rfl, rfl⟩
    · rename_i a _
      rw [if_pos (hlt c hc)]
      split
      · obtain ⟨d', h', -⟩ := foldlM_ok (setPartFanin N vPartition a) (fun _ => True) n.2.vFanins
          _ trivial (fun f hfm d _ => (setPartFanin_ok (hf f hfm) d).elim fun d' h => ⟨d', h, trivial⟩)
        exact ⟨d', h', by rw [(foldlM_setPartFanin_spec _ _ h').1, List.length_set]⟩
      · exact ⟨_, rfl, List.length_set _ _ _⟩

end node

/-! ## The node loop -/

/-- What the node loop has filled after the nodes `done`: the copy of each of them inside
the vector has its partition and every other IF object is unassigned; the inputs and the
outputs of every partition are those its crossing fanins make, without duplicates. -/
structure Filled (p : IfMan) (N : AbcNtk) (vPartition : List Int) (done : List (Nat × AbcObj))
    (d : PartitionData) : Prop where
  length_eq : d.vPartition.length = p.objNum
  assigned : ∀ n ∈ done, ∀ c a, n.2.pCopy = some c → vPartition[n.1]? = some a →
    d.vPartition[c]? = some a
  unassigned : ∀ i < p.objNum, (∀ n ∈ done, n.1 < vPartition.length → n.2.pCopy ≠ some i) →
    d.vPartition[i]? = some (-1)
  inputs : ∀ q x, x ∈ vecVecEntry d.vPartInputs q ↔ ∃ n ∈ done, InputOf N vPartition n q x
  outputs : ∀ q x, x ∈ vecVecEntry d.vPartOutputs q ↔ ∃ n ∈ done, OutputOf N vPartition n q x
  nodup_inputs : NodupLevels d.vPartInputs
  nodup_outputs : NodupLevels d.vPartOutputs

theorem filled_start (p : IfMan) (N : AbcNtk) (vPartition : List Int) (nPartitions : Int) :
    Filled p N vPartition [] (partitionDataStart p nPartitions) where
  length_eq := List.length_replicate _ _
  assigned := by simp
  unassigned i hi _ := by simp [partitionDataStart, hi]
  inputs := by simp [partitionDataStart]
  outputs := by simp [partitionDataStart]
  nodup_inputs := nodupLevels_start _
  nodup_outputs := nodupLevels_start _

/-- One node keeps what the loop has filled, when no two nodes share a copy. -/
theorem filled_step {p : IfMan} {N : AbcNtk} {vPartition : List Int}
    {done : List (Nat × AbcObj)} {m : Nat × AbcObj} {d d' : PartitionData}
    (hinj : ∀ n ∈ done, n.2.pCopy.isSome → n.2.pCopy = m.2.pCopy → n.1 = m.1)
    (hF : Filled p N vPartition done d) (h : setPartNode N vPartition d m = .ok d') :
    Filled p N vPartition (done ++ [m]) d' := by
  obtain ⟨hlt, hv, hin, hout, hni, hno⟩ := setPartNode_spec h
  refine ⟨?_, ?_, ?_, fun q x => ?_, fun q x => ?_, hni hF.nodup_inputs, hno hF.nodup_outputs⟩
  · rw [hv, writeNode]; split <;> simp [hF.length_eq]
  · intro n hn c a hc ha
    rw [hv, writeNode]
    split
    · rename_i c' a' hc' ha'
      rcases List.mem_append.mp hn with hn | hn
      · by_cases hcc : c' = c
        · subst hcc
          have := hinj n hn (by simp [hc]) (hc.trans hc'.symm)
          rw [this, ha'] at ha; cases ha
          exact List.getElem?_set_self (hlt _ _ hc' ha')
        · rw [List.getElem?_set_ne hcc]; exact hF.assigned n hn c a hc ha
      · rw [List.mem_singleton.mp hn] at hc ha
        rw [hc] at hc'; cases hc'; rw [ha] at ha'; cases ha'
        exact List.getElem?_set_self (hlt _ _ hc ha)
    · rename_i hne
      rcases List.mem_append.mp hn with hn | hn
      · exact hF.assigned n hn c a hc ha
      · rw [List.mem_singleton.mp hn] at hc ha; exact (hne c a hc ha).elim
  · intro i hi hnot
    have hold := hF.unassigned i hi (fun n hn => hnot n (List.mem_append_left _ hn))
    rw [hv, writeNode]
    split
    · rename_i c' a' hc' ha'
      have hm := hnot m (List.mem_append_right _ (List.mem_singleton_self _))
        (List.getElem?_eq_some_iff.mp ha').1
      rw [List.getElem?_set_ne (fun h : c' = i => hm (h ▸ hc'))]
      exact hold
    · exact hold
  · rw [hin, hF.inputs]; simp [or_and_right, exists_or]
  · rw [hout, hF.outputs]; simp [or_and_right, exists_or]

/-! ## Copies into the manager -/

/-- Whether `c` names an object of `p` of type `t`. -/
def copyIs (p : IfMan) (t : IfType) (c : Option Nat) : Bool :=
  match c.bind p.obj with
  | some o => o.type == t
  | none => false

/-- The nodes and the combinational inputs of `N` are copied into `p`: each node to an AND
object, each input to a CI, and no two nodes to one object. -/
structure CopiedInto (N : AbcNtk) (p : IfMan) : Prop where
  node_copy : ∀ q ∈ N.objs, abcObjIsNode q.2 → copyIs p .and q.2.pCopy
  ci_copy : ∀ q ∈ N.objs, abcObjIsCi q.2 → copyIs p .ci q.2.pCopy
  node_inj : ∀ q ∈ N.objs, ∀ r ∈ N.objs, abcObjIsNode q.2 → abcObjIsNode r.2 →
    q.2.pCopy = r.2.pCopy → q.1 = r.1

instance (N : AbcNtk) (p : IfMan) : Decidable (CopiedInto N p) :=
  decidable_of_iff (_ ∧ _ ∧ _)
    ⟨fun ⟨a, b, c⟩ => ⟨a, b, c⟩, fun ⟨a, b, c⟩ => ⟨a, b, c⟩⟩

theorem copyIs_some {p : IfMan} {t : IfType} {c : Option Nat} (h : copyIs p t c) :
    ∃ i o, c = some i ∧ p.obj i = some o ∧ o.type = t := by
  unfold copyIs at h
  split at h
  · rename_i o ho
    obtain ⟨i, hi, hio⟩ := Option.bind_eq_some.mp ho
    exact ⟨i, o, hi, hio, by simpa using h⟩
  · cases h

theorem mem_abcNodes {N : AbcNtk} {n : Nat × AbcObj} :
    n ∈ abcNodes N ↔ n ∈ N.objs ∧ abcObjIsNode n.2 := by
  simp [abcNodes]

/-- Every node has a copy. -/
theorem pCopy_isSome_of_node {N : AbcNtk} {p : IfMan} (hc : CopiedInto N p)
    {n : Nat × AbcObj} (hn : n ∈ abcNodes N) : n.2.pCopy.isSome := by
  obtain ⟨i, -, hi, -⟩ := copyIs_some (hc.node_copy n (mem_abcNodes.mp hn).1 (mem_abcNodes.mp hn).2)
  simp [hi]

section copied

variable {N : AbcNtk} {p : IfMan} (hS : N.Strashed) (hc : CopiedInto N p)
include hS hc

/-- Every fanin of a node has a copy: it is a node or a combinational input. -/
theorem copyOf_fanin {n : Nat × AbcObj} (hn : n ∈ abcNodes N) {f : Nat} (hf : f ∈ n.2.vFanins) :
    (copyOf N f).isSome := by
  obtain ⟨hn, hnode⟩ := mem_abcNodes.mp hn
  obtain ⟨fo, hfo⟩ := hS.wf.fanin_some (AbcNtk.mem_objs.mp hn) hf
  have hk := hS.fanin_kind n hn hnode f hf fo hfo
  have hfm : (f, fo) ∈ N.objs := AbcNtk.mem_objs.mpr hfo
  rcases Bool.or_eq_true _ _ ▸ hk with hk | hk
  · obtain ⟨i, -, hi, -⟩ := copyIs_some (hc.node_copy _ hfm hk)
    simp [copyOf, hfo, show fo.pCopy = some i from hi]
  · obtain ⟨i, -, hi, -⟩ := copyIs_some (hc.ci_copy _ hfm hk)
    simp [copyOf, hfo, show fo.pCopy = some i from hi]

/-- The node loop runs to its end, and fills the partition data of all the nodes. -/
theorem foldlM_setPartNode_filled (vPartition : List Int) (nPartitions : Int) :
    ∃ d, (abcNodes N).foldlM (setPartNode N vPartition) (partitionDataStart p nPartitions) = .ok d ∧
      Filled p N vPartition (abcNodes N) d := by
  obtain ⟨d, hd, -⟩ := foldlM_ok (setPartNode N vPartition) (fun d => d.vPartition.length = p.objNum)
    (abcNodes N) (partitionDataStart p nPartitions) (List.length_replicate _ _) (fun m hm d hl => by
      refine (setPartNode_ok (fun c hcm => ?_) (fun f hf => copyOf_fanin hS hc hm hf)).imp
        fun d' h => ⟨h.1, h.2.trans hl⟩
      obtain ⟨i, o, hi, ho, -⟩ := copyIs_some (hc.node_copy _ (mem_abcNodes.mp hm).1
        (mem_abcNodes.mp hm).2)
      rw [hcm] at hi; cases hi
      exact hl ▸ (List.getElem?_eq_some_iff.mp ho).1)
  refine ⟨d, hd, foldlM_invariant _ (Filled p N vPartition) _ ?_ _ [] _ d rfl
    (filled_start p N vPartition nPartitions) hd⟩
  intro done m d1 d2 hpre hF h
  have hm := mem_abcNodes.mp (hpre.subset (List.mem_append_right _ (List.mem_singleton_self m)))
  refine filled_step (fun n hn _ heq => ?_) hF h
  have hn := mem_abcNodes.mp (hpre.subset (List.mem_append_left _ hn))
  exact hc.node_inj n hn.1 m hm.1 hn.2 hm.2 heq

end copied

/-! ## The partition of a copy -/

section filled

variable {p : IfMan} {N : AbcNtk} {vPartition : List Int} {d : PartitionData}
  (hc : CopiedInto N p) (hF : Filled p N vPartition (abcNodes N) d)
include hc hF

/-- The copy of a node has the node's partition, or -1 when the node is past the vector. -/
theorem filled_node_copy {n : Nat × AbcObj} (hn : n ∈ abcNodes N) {c : Nat}
    (hcn : n.2.pCopy = some c) (hlt : c < p.objNum) :
    d.vPartition[c]? = some (vPartition[n.1]?.getD (-1)) := by
  rcases ha : vPartition[n.1]? with _ | a
  · refine hF.unassigned c hlt fun m hm hml hmc => ?_
    have := hc.node_inj m (mem_abcNodes.mp hm).1 n (mem_abcNodes.mp hn).1 (mem_abcNodes.mp hm).2
      (mem_abcNodes.mp hn).2 (hmc.trans hcn.symm)
    rw [← this, List.getElem?_eq_getElem hml] at ha
    cases ha
  · exact hF.assigned n hn c a hcn ha

/-- The copy of a combinational input stays unassigned: no node is copied to a CI. -/
theorem filled_ci_copy {n : Nat × AbcObj} (hn : n ∈ N.objs) (hci : abcObjIsCi n.2) {c : Nat}
    (hcn : n.2.pCopy = some c) (hlt : c < p.objNum) : d.vPartition[c]? = some (-1) := by
  refine hF.unassigned c hlt fun m hm _ hmc => ?_
  obtain ⟨i, o, hi, ho, hot⟩ := copyIs_some (hc.ci_copy n hn hci)
  obtain ⟨j, o', hj, ho', hot'⟩ := copyIs_some (hc.node_copy m (mem_abcNodes.mp hm).1
    (mem_abcNodes.mp hm).2)
  rw [hcn] at hi; rw [hmc] at hj; cases hi; cases hj
  rw [ho] at ho'; cases ho'
  rw [hot] at hot'; cases hot'

end filled

/-! ## The propagator is exact -/

theorem inputOf_iff {N : AbcNtk} {vPartition : List Int} {n : Nat × AbcObj} {q x : Nat}
    (hcopy : n.2.pCopy.isSome) :
    InputOf N vPartition n q x ↔ ∃ f ∈ n.2.vFanins, ∃ b, vPartition[n.1]? = some (q : Int) ∧
      vPartition[f]? = some b ∧ 0 ≤ b ∧ b ≠ q ∧ copyOf N f = some x := by
  simp only [InputOf, Crosses, hcopy, true_and]
  constructor
  · rintro ⟨a, ha, f, hf, b, ⟨hb, hba, hb0, ha0⟩, hq, hx⟩
    exact ⟨f, hf, b, by rw [ha]; congr 1; omega, hb, hb0, by omega, hx⟩
  · rintro ⟨f, hf, b, ha, hb, hb0, hbq, hx⟩
    exact ⟨q, ha, f, hf, b, ⟨hb, hbq, hb0, by omega⟩, by omega, hx⟩

theorem outputOf_iff {N : AbcNtk} {vPartition : List Int} {n : Nat × AbcObj} {q x : Nat}
    (hcopy : n.2.pCopy.isSome) :
    OutputOf N vPartition n q x ↔ ∃ f ∈ n.2.vFanins, ∃ a, vPartition[n.1]? = some a ∧
      vPartition[f]? = some (q : Int) ∧ 0 ≤ a ∧ a ≠ q ∧ copyOf N f = some x := by
  simp only [OutputOf, Crosses, hcopy, true_and]
  constructor
  · rintro ⟨a, ha, f, hf, b, ⟨hb, hba, hb0, ha0⟩, hq, hx⟩
    exact ⟨f, hf, a, ha, by rw [hb]; congr 1; omega, ha0, by omega, hx⟩
  · rintro ⟨f, hf, a, ha, hb, ha0, haq, hx⟩
    exact ⟨a, ha, f, hf, q, ⟨hb, Ne.symm haq, by omega, ha0⟩, by omega, hx⟩

/-- `If_ManSetPartitionInfo` carries the partition vector over exactly: the copy of each node
inside the vector gets the node's partition and every other IF object -1, and the inputs and
the outputs of each partition are, without duplicates, the copies of the fanins that cross
into it and out of it. -/
theorem partition_propagation_exact (p : IfMan) (N : AbcNtk) (vPartition : List Int)
    (nPartitions : Int) (hS : N.Strashed) (hc : CopiedInto N p) :
    ∃ p', ifManSetPartitionInfo p N vPartition nPartitions = .ok p' ∧
      p'.nPartitions = nPartitions ∧ p'.vObjs = p.vObjs ∧
      ∃ v vIn vOut, p'.vPartition = some v ∧ p'.vPartInputs = some vIn ∧
        p'.vPartOutputs = some vOut ∧ v.length = p.objNum ∧
        (∀ n ∈ abcNodes N, ∀ c a, n.2.pCopy = some c → vPartition[n.1]? = some a →
          v[c]? = some a) ∧
        (∀ i < p.objNum, (∀ n ∈ abcNodes N, n.1 < vPartition.length → n.2.pCopy ≠ some i) →
          v[i]? = some (-1)) ∧
        (∀ q : Nat, (vecVecEntry vIn q).Nodup ∧ ∀ x, x ∈ vecVecEntry vIn q ↔
          ∃ n ∈ abcNodes N, ∃ f ∈ n.2.vFanins, ∃ b, vPartition[n.1]? = some (q : Int) ∧
            vPartition[f]? = some b ∧ 0 ≤ b ∧ b ≠ q ∧ copyOf N f = some x) ∧
        (∀ q : Nat, (vecVecEntry vOut q).Nodup ∧ ∀ x, x ∈ vecVecEntry vOut q ↔
          ∃ n ∈ abcNodes N, ∃ f ∈ n.2.vFanins, ∃ a, vPartition[n.1]? = some a ∧
            vPartition[f]? = some (q : Int) ∧ 0 ≤ a ∧ a ≠ q ∧ copyOf N f = some x) := by
  obtain ⟨d, hd, hF⟩ := foldlM_setPartNode_filled hS hc vPartition nPartitions
  have hcopy : ∀ n ∈ abcNodes N, n.2.pCopy.isSome := fun n hn => by
    obtain ⟨i, -, hi, -⟩ := copyIs_some (hc.node_copy n (mem_abcNodes.mp hn).1
      (mem_abcNodes.mp hn).2)
    simp [hi]
  refine ⟨{ p with
      vPartition := some d.vPartition
      nPartitions := nPartitions
      vPartInputs := some d.vPartInputs
      vPartOutputs := some d.vPartOutputs },
    by rw [ifManSetPartitionInfo, hd]; rfl, rfl, rfl, _, _, _, rfl, rfl, rfl,
    hF.length_eq, hF.assigned, hF.unassigned, fun q => ⟨hF.nodup_inputs q, fun x => ?_⟩,
    fun q => ⟨hF.nodup_outputs q, fun x => ?_⟩⟩
  · rw [hF.inputs]
    exact ⟨fun ⟨n, hn, h⟩ => ⟨n, hn, (inputOf_iff (hcopy n hn)).mp h⟩,
      fun ⟨n, hn, h⟩ => ⟨n, hn, (inputOf_iff (hcopy n hn)).mpr h⟩⟩
  · rw [hF.outputs]
    exact ⟨fun ⟨n, hn, h⟩ => ⟨n, hn, (outputOf_iff (hcopy n hn)).mp h⟩,
      fun ⟨n, hn, h⟩ => ⟨n, hn, (outputOf_iff (hcopy n hn)).mpr h⟩⟩

/-! ## The filter never rejects the fanins of a node -/

/-- The IF fanins of the copy of every node are the copies of its AIG fanins. -/
def FaninsCopied (N : AbcNtk) (p : IfMan) : Prop :=
  ∀ n ∈ abcNodes N, ∀ c ∈ n.2.pCopy, ∀ o ∈ p.obj c,
    n.2.vFanins.map (copyOf N) = [o.pFanin0, o.pFanin1]

instance (N : AbcNtk) (p : IfMan) : Decidable (FaninsCopied N p) :=
  inferInstanceAs (Decidable (∀ n ∈ abcNodes N, _))

/-- The partition data once `If_ManSetPartitionInfo` has filled it into `p`. -/
def withPartitionData (p : IfMan) (d : PartitionData) (nPartitions : Int) : IfMan :=
  { p with
    vPartition := some d.vPartition
    nPartitions := nPartitions
    vPartInputs := some d.vPartInputs
    vPartOutputs := some d.vPartOutputs }

/-- What `If_ManSetPartitionInfo` leaves is the manager with the data the node loop filled. -/
theorem ifManSetPartitionInfo_filled {p p' : IfMan} {N : AbcNtk} {vPartition : List Int}
    {nPartitions : Int} (hS : N.Strashed) (hc : CopiedInto N p)
    (hp : ifManSetPartitionInfo p N vPartition nPartitions = .ok p') :
    ∃ d, Filled p N vPartition (abcNodes N) d ∧ p' = withPartitionData p d nPartitions := by
  obtain ⟨d, hd, hF⟩ := foldlM_setPartNode_filled hS hc vPartition nPartitions
  exact ⟨d, hF, (Except.ok.inj (by rw [← hp, ifManSetPartitionInfo, hd]; rfl)).symm⟩

section leaf

variable {p : IfMan} {N : AbcNtk} {vPartition : List Int} {nPartitions : Int}
  {d : PartitionData} (hS : N.Strashed) (hc : CopiedInto N p)
  (hF : Filled p N vPartition (abcNodes N) d)
  (hπ : ∀ n ∈ abcNodes N, ∀ a ∈ vPartition[n.1]?, a = -1 ∨ (0 ≤ a ∧ a < nPartitions))
include hS hc hF hπ

/-- The copy of a fanin of a node passes the locality test of the node's partition `t`: it is
unassigned, or in `t`, or was recorded as an input of `t`. -/
theorem leafOk_of_fanin {n : Nat × AbcObj} (hn : n ∈ abcNodes N) {t : Int}
    (ht : vPartition[n.1]? = some t) (ht0 : 0 ≤ t) {f l : Nat} (hf : f ∈ n.2.vFanins)
    (hl : copyOf N f = some l) :
    leafOk (withPartitionData p d nPartitions) d.vPartition t l = true := by
  have hnm := mem_abcNodes.mp hn
  have htn := ((hπ n hn t ht).resolve_left (by omega)).2
  obtain ⟨fo, hfo⟩ := hS.wf.fanin_some (AbcNtk.mem_objs.mp hnm.1) hf
  have hfl : fo.pCopy = some l := by simpa [copyOf, hfo] using hl
  have hfm : (f, fo) ∈ N.objs := AbcNtk.mem_objs.mpr hfo
  unfold leafOk
  -- a fanin is a node or an input, and its copy is an object of the manager
  rcases Bool.or_eq_true _ _ ▸ hS.fanin_kind n hnm.1 hnm.2 f hf fo hfo with hk | hk
  · obtain ⟨i, o, hi, ho, -⟩ := copyIs_some (hc.node_copy _ hfm hk)
    rw [hfl] at hi; cases hi
    rw [filled_node_copy hc hF (mem_abcNodes.mpr ⟨hfm, hk⟩) hfl (List.getElem?_eq_some_iff.mp ho).1]
    rcases hb : vPartition[f]? with _ | b
    · simp
    · simp only [Option.getD_some, Bool.or_eq_true, beq_iff_eq]
      by_cases hb1 : b = -1
      · exact .inl (.inl hb1)
      by_cases hbt : b = t
      · exact .inl (.inr hbt)
      have hb0 := ((hπ _ (mem_abcNodes.mpr ⟨hfm, hk⟩) b hb).resolve_left hb1).1
      have hns : n.2.pCopy.isSome := by
        obtain ⟨i, -, hi, -⟩ := copyIs_some (hc.node_copy n hnm.1 hnm.2); simp [hi]
      refine .inr ?_
      simp only [ifObjIsPartitionInput, withPartitionData]
      rw [if_neg (by omega)]
      exact decide_eq_true ((vecIntFind_ne_iff _ _).mpr ((hF.inputs _ _).mpr
        ⟨n, hn, hns, t, ht, f, hf, b, ⟨hb, hbt, hb0, ht0⟩, rfl, hl⟩))
  · obtain ⟨i, o, hi, ho, -⟩ := copyIs_some (hc.ci_copy _ hfm hk)
    rw [hfl] at hi; cases hi
    rw [filled_ci_copy hc hF hfm hk hfl (List.getElem?_eq_some_iff.mp ho).1]
    simp

end leaf

/-- The filter and the propagator agree: after `If_ManSetPartitionInfo`, every cut of the
copy of a node whose leaves are among the copy's two fanins passes `If_CutCheckPartition` for
the copy's partition, and so does every merge of the two fanins' trivial cuts. -/
theorem locality_never_starves_fanin_cut (p : IfMan) (N : AbcNtk) (vPartition : List Int)
    (nPartitions : Int) (hS : N.Strashed) (hc : CopiedInto N p) (hfan : FaninsCopied N p)
    (hπ : ∀ n ∈ abcNodes N, ∀ a ∈ vPartition[n.1]?, a = -1 ∨ (0 ≤ a ∧ a < nPartitions)) :
    ∃ p', ifManSetPartitionInfo p N vPartition nPartitions = .ok p' ∧
      ∀ n ∈ abcNodes N, ∀ c o g0 g1, n.2.pCopy = some c → p'.obj c = some o →
        o.pFanin0 = some g0 → o.pFanin1 = some g1 →
        (∀ cut : IfCut, (∀ l ∈ cut.leaves, l = g0 ∨ l = g1) →
          ifCutCheckPartition p' cut (ifObjPartition p' c) = true) ∧
        (∀ (ops : IfOps) (c0 c1 cut : IfCut), c0.leaves = [g0] → c1.leaves = [g1] →
          ops.cutMergeOrdered p' c0 c1 = some cut →
          ifCutCheckPartition p' cut (ifObjPartition p' c) = true) := by
  obtain ⟨d, hd, hF⟩ := foldlM_setPartNode_filled hS hc vPartition nPartitions
  refine ⟨withPartitionData p d nPartitions, by rw [ifManSetPartitionInfo, hd]; rfl, ?_⟩
  intro n hn c o g0 g1 hcn ho hg0 hg1
  have hsub : ∀ cut : IfCut, (∀ l ∈ cut.leaves, l = g0 ∨ l = g1) →
      ifCutCheckPartition (withPartitionData p d nPartitions) cut
        (ifObjPartition (withPartitionData p d nPartitions) c) = true := by
    intro cut hcut
    have hlt : c < p.objNum := (List.getElem?_eq_some_iff.mp ho).1
    have hpart : ifObjPartition (withPartitionData p d nPartitions) c =
        vPartition[n.1]?.getD (-1) := by
      simp [ifObjPartition, withPartitionData, List.getD_eq_getElem?_getD,
        filled_node_copy hc hF hn hcn hlt]
    rw [ifCutCheckPartition, hpart]
    rcases ht : vPartition[n.1]? with _ | t
    · simp [withPartitionData]
    · simp only [Option.getD_some, withPartitionData]
      split
      · rfl
      · rename_i ht0
        refine List.all_eq_true.mpr fun l hl => ?_
        have hmap := hfan n hn c hcn o ho
        obtain ⟨f, hf, hfl⟩ : ∃ f ∈ n.2.vFanins, copyOf N f = some l := by
          have : some l ∈ n.2.vFanins.map (copyOf N) := by
            rw [hmap]; rcases hcut l hl with rfl | rfl <;> simp [hg0, hg1]
          simpa using this
        exact leafOk_of_fanin hS hc hF hπ hn ht (by omega) hf hfl
  refine ⟨hsub, fun ops c0 c1 cut h0 h1 hm => hsub cut fun l hl => ?_⟩
  rcases ops.merge_leaves _ c0 c1 cut hm l hl with h | h
  · rw [h0] at h; exact .inl (List.mem_singleton.mp h)
  · rw [h1] at h; exact .inr (List.mem_singleton.mp h)

/-- The manager of the constant, two inputs, their AND and an output, with no partition data. -/
def ifAndCo : IfMan :=
  ⟨[ifObjNew .const1 none none, ifObjNew .ci none none, ifObjNew .ci none none,
    ifObjNew .and (some 1) (some 2), ifObjNew .co (some 3) none],
    none, none, none, 0, 6, 8, false, false, 0, 0, 0⟩

/-- The AIG of two inputs, their AND and an output, copied into `ifAndCo` id for id. -/
def aigAndCo : AbcNtk where
  vObjs := [some ⟨.const1, [], [], 0, some 0⟩, some ⟨.pi, [], [3], 0, some 1⟩,
    some ⟨.pi, [], [3], 0, some 2⟩, some ⟨.node, [1, 2], [4], 1, some 3⟩,
    some ⟨.po, [3], [], 0, some 4⟩]
  vPis := [1, 2]
  vPos := [4]

theorem partition_propagation_exact_andCo :
    aigAndCo.Strashed ∧ CopiedInto aigAndCo ifAndCo ∧
      ∃ p', ifManSetPartitionInfo ifAndCo aigAndCo [-1, 0, 1, 1] 2 = .ok p' :=
  have hS : aigAndCo.Strashed := by decide
  have hc : CopiedInto aigAndCo ifAndCo := by decide
  ⟨hS, hc, (partition_propagation_exact ifAndCo aigAndCo [-1, 0, 1, 1] 2 hS hc).imp
    fun _ h => h.1⟩

theorem locality_never_starves_fanin_cut_andCo :
    aigAndCo.Strashed ∧ CopiedInto aigAndCo ifAndCo ∧ FaninsCopied aigAndCo ifAndCo ∧
      (∀ n ∈ abcNodes aigAndCo, ∀ a ∈ [-1, 0, 1, 1][n.1]?, a = -1 ∨ (0 ≤ a ∧ a < 2)) ∧
      ∃ p', ifManSetPartitionInfo ifAndCo aigAndCo [-1, 0, 1, 1] 2 = .ok p' :=
  have hS : aigAndCo.Strashed := by decide
  have hc : CopiedInto aigAndCo ifAndCo := by decide
  have hfan : FaninsCopied aigAndCo ifAndCo := by decide
  have hπ : ∀ n ∈ abcNodes aigAndCo, ∀ a ∈ [-1, 0, 1, 1][n.1]?, a = -1 ∨ (0 ≤ a ∧ a < 2) := by
    decide
  ⟨hS, hc, hfan, hπ, (locality_never_starves_fanin_cut ifAndCo aigAndCo [-1, 0, 1, 1] 2 hS hc hfan
    hπ).imp fun _ h => h.1⟩

/-- With the AND in partition 1 and its first input in partition 0, that input is the one
input of partition 1 and the one output of partition 0. -/
example : ((ifManSetPartitionInfo ifAndCo aigAndCo [-1, 0, 1, 1] 2).toOption.map
    fun p => (p.vPartition, p.vPartInputs, p.vPartOutputs)) =
    some (some [-1, -1, -1, 1, -1], some [[], [1]], some [[1], []]) := by
  decide

end abc_partition.partition_info
