-- The estimates of references the partition-aware routine ensures. Before it enumerates the
-- cuts of an object, "Get partition information" gives every fanin that sits in another
-- assigned partition an estimate above `fEpsilon`, or of at least one reference, and no later
-- stage of the call writes an estimate. So the area flows of the cuts through such a fanin
-- never divide by an estimate at or below `fEpsilon` that is also below one.
import PartitionAwareMapping.CutEngine

namespace abc_partition.est_refs

open abc_partition.vectors abc_partition.if_manager abc_partition.partition_info
  abc_partition.cut_engine

/-! ## The invariant -/

/-- Object `f` of `p` has a usable estimate of its references: above `fEpsilon`, or at least
one. -/
def Estimated (p : IfMan) (f : Nat) : Prop :=
  ∀ o ∈ p.obj f, p.fEpsilon < o.estRefs ∨ 1 ≤ o.estRefs

/-- Whatever estimate an object had, `ifInitEstRefs` leaves a usable one. -/
theorem ifInitEstRefs_estimated (fEpsilon : ℚ) (o : IfObj) :
    fEpsilon < (ifInitEstRefs fEpsilon o).estRefs ∨ 1 ≤ (ifInitEstRefs fEpsilon o).estRefs := by
  unfold ifInitEstRefs
  dsimp only
  split
  · refine .inr ?_
    split
    · rename_i hn
      exact_mod_cast hn
    · exact le_refl 1
  · exact .inl (lt_of_not_le ‹_›)

/-- From `p` to `q` the threshold and the estimate of every object stay. -/
structure KeepsEstRefs (p q : IfMan) : Prop where
  fEpsilon_eq : q.fEpsilon = p.fEpsilon
  estRefs : ∀ j, (q.obj j).map IfObj.estRefs = (p.obj j).map IfObj.estRefs

namespace KeepsEstRefs

variable {p q r : IfMan}

theorem refl (p : IfMan) : KeepsEstRefs p p := ⟨rfl, fun _ => rfl⟩

theorem trans (h : KeepsEstRefs p q) (h' : KeepsEstRefs q r) : KeepsEstRefs p r :=
  ⟨h'.fEpsilon_eq.trans h.fEpsilon_eq, fun j => (h'.estRefs j).trans (h.estRefs j)⟩

theorem estimated (h : KeepsEstRefs p q) {f : Nat} (hp : Estimated p f) : Estimated q f := by
  intro o' ho'
  have he := h.estRefs f
  rw [Option.mem_def.mp ho'] at he
  obtain ⟨o, ho, heq⟩ := Option.map_eq_some'.mp he.symm
  rw [h.fEpsilon_eq, ← heq]
  exact hp o ho

end KeepsEstRefs

/-! ## The stages after "Get partition information" -/

section stages

variable {p : IfMan}

theorem keepsEstRefs_modifyObj (k : Nat) {f : IfObj → IfObj} (hf : ∀ o, (f o).estRefs = o.estRefs) :
    KeepsEstRefs p (p.modifyObj k f) := by
  refine ⟨rfl, fun j => ?_⟩
  rw [IfMan.obj_modifyObj]
  split
  · rw [Option.map_map, show IfObj.estRefs ∘ f = IfObj.estRefs from funext hf]
  · rfl

theorem keepsEstRefs_mapObjs {f : Nat → IfObj → IfObj} (hf : ∀ j o, (f j o).estRefs = o.estRefs) :
    KeepsEstRefs p (p.mapObjs f) :=
  ⟨rfl, fun j => by rw [IfMan.obj_mapObjs, Option.map_map, show IfObj.estRefs ∘ f j =
    IfObj.estRefs from funext (hf j)]⟩

theorem keepsEstRefs_ifAreaCall (count : IfMan → IfCut → Nat → Int) (call : Nat → AreaCall)
    (i : Nat) (mode : Int) : KeepsEstRefs p (ifAreaCall count call p i mode).1 := by
  unfold ifAreaCall
  split
  · split
    · exact keepsEstRefs_mapObjs (by intros; rfl)
    · exact .refl p
  · exact .refl p

theorem keepsEstRefs_ifSetupCuts (ops : IfOps) (i : Nat) (fPreprocess fFirst : Bool) :
    KeepsEstRefs p (ifSetupCuts ops p i fPreprocess fFirst).1 := by
  have h1 : KeepsEstRefs p (p.modifyObj i fun o =>
      { o with pCutSet := some (ifManSetupNodeCutSet p) }) := keepsEstRefs_modifyObj i (by intro; rfl)
  have h2 : KeepsEstRefs p (ifRecomputeBest ops (p.modifyObj i fun o =>
      { o with pCutSet := some (ifManSetupNodeCutSet p) }) i) := by
    unfold ifRecomputeBest
    dsimp only
    exact h1.trans ((keepsEstRefs_modifyObj i (by intro; rfl)).trans (keepsEstRefs_modifyObj i (by intro; rfl)))
  unfold ifSetupCuts
  dsimp only
  split
  · exact h1
  · split
    · split <;> exact h2
    · exact h2

theorem keepsEstRefs_foldlM_ifEnumStep {ops : IfOps} {i : Nat} {pObj : IfObj} {t : Int}
    {st st' : IfMan × IfSet} {l : List (IfCut × IfCut)}
    (h : l.foldlM (ifEnumStep ops i pObj t) st = .ok st') : KeepsEstRefs st.1 st'.1 :=
  foldlM_invariant (ifEnumStep ops i pObj t) (fun _ d => KeepsEstRefs st.1 d.1) l
    (fun _ _ d _ _ hd hstep => by
      rcases ifEnumStep_cases hstep with rfl | ⟨_, -, -, rfl⟩
      · exact hd
      · exact hd.trans ⟨rfl, fun _ => rfl⟩)
    l [] st st' rfl (.refl _) h

theorem keepsEstRefs_ifUpdateBest {q : IfMan} {i : Nat} {fPreprocess : Bool} {s : IfSet}
    (h : ifUpdateBest p i fPreprocess s = .ok q) : KeepsEstRefs p q := by
  unfold ifUpdateBest at h
  split at h
  · cases h
  · cases h
    exact keepsEstRefs_modifyObj i (by intro; rfl)

theorem keepsEstRefs_ifAddCutTriv {ops : IfOps} {i : Nat} {s : IfSet} {q : IfMan}
    (h : ifAddCutTriv ops p i s = .ok q) : KeepsEstRefs p q := by
  unfold ifAddCutTriv at h
  split at h
  · split at h
    · split at h
      · cases h
      · cases h
        exact keepsEstRefs_modifyObj i (by intro; rfl)
    · cases h
      exact keepsEstRefs_modifyObj i (by intro; rfl)
  · cases h
    exact keepsEstRefs_modifyObj i (by intro; rfl)

theorem keepsEstRefs_ifManDerefNodeCutSet (ops : IfOps) (i : Nat) :
    KeepsEstRefs p (ifManDerefNodeCutSet ops p i) :=
  keepsEstRefs_mapObjs (by intros; rfl)

end stages

/-! ## "Get partition information" -/

section ensure

variable {q : IfMan} {t : Int} {f : Nat}

theorem ifObjPartition_ifEnsureEstRefs (g : Option Nat) (j : Nat) :
    ifObjPartition (ifEnsureEstRefs q t g) j = ifObjPartition q j := by
  rcases g with _ | g
  · rfl
  · simp only [ifEnsureEstRefs]
    split <;> rfl

/-- A fanin in another assigned partition gets a usable estimate. -/
theorem estimated_ifEnsureEstRefs_self
    (hc : ifObjPartition q f ≠ t ∧ 0 ≤ ifObjPartition q f ∧ 0 ≤ t) :
    Estimated (ifEnsureEstRefs q t (some f)) f := by
  intro o ho
  simp only [ifEnsureEstRefs, if_pos hc, Option.mem_def, IfMan.obj_modifyObj, if_pos rfl] at ho ⊢
  obtain ⟨o0, -, rfl⟩ := Option.map_eq_some'.mp ho
  exact ifInitEstRefs_estimated q.fEpsilon o0

/-- The estimate of another fanin keeps a usable one. -/
theorem estimated_ifEnsureEstRefs (hq : Estimated q f) (g : Option Nat) :
    Estimated (ifEnsureEstRefs q t g) f := by
  rcases g with _ | g
  · exact hq
  simp only [ifEnsureEstRefs]
  split
  · intro o ho
    rw [Option.mem_def, IfMan.obj_modifyObj] at ho
    split at ho
    · obtain ⟨o0, -, rfl⟩ := Option.map_eq_some'.mp ho
      exact ifInitEstRefs_estimated _ o0
    · exact hq o ho
  · exact hq

theorem estimated_ifEnsureFaninEstRefs {pObj : IfObj} (hv : q.vPartition.isSome)
    (hf : pObj.pFanin0 = some f ∨ pObj.pFanin1 = some f)
    (hc : ifObjPartition q f ≠ t ∧ 0 ≤ ifObjPartition q f ∧ 0 ≤ t) :
    Estimated (ifEnsureFaninEstRefs q t pObj) f := by
  unfold ifEnsureFaninEstRefs
  rw [if_pos hv]
  rcases hf with hf | hf <;> rw [hf]
  · exact estimated_ifEnsureEstRefs (estimated_ifEnsureEstRefs_self hc) _
  · exact estimated_ifEnsureEstRefs_self (by rwa [ifObjPartition_ifEnsureEstRefs])

end ensure

/-! ## One call -/

/-- After a call that completes without the fallback, with partition data, every fanin of the
object that sits in another assigned partition has a usable estimate of its references. -/
theorem crossing_fanins_estimated {ops : IfOps} {p : IfMan} {i : Nat} {mode : Int}
    {fPreprocess fFirst : Bool} {r : IfMan × List AreaCall}
    (hfb : ∀ pObj ∈ p.obj i, ifTakesFallback p pObj fFirst = false)
    (h : ifObjPerformMappingAndPartitionAware ops p i mode fPreprocess fFirst = .ok r)
    (hv : p.vPartition.isSome) {pObj : IfObj} (hpi : p.obj i = some pObj) {f : Nat}
    (hf : pObj.pFanin0 = some f ∨ pObj.pFanin1 = some f)
    (hc : ifObjPartition p f ≠ ifObjPartition p i ∧ 0 ≤ ifObjPartition p f ∧
      0 ≤ ifObjPartition p i) :
    Estimated r.1 f := by
  obtain ⟨pObj', hpi', -, _, _, st, q, q', -, -, hst, hq, hq', rfl⟩ :=
    ifObjPerformMappingAndPartitionAware_stages hfb h
  rw [hpi] at hpi'
  cases hpi'
  have k0 := keepsBests_ifPrologue ops p i mode
  -- the prologue keeps the partition data the crossing test reads
  have hv' : (ifPrologue ops p i mode).1.vPartition.isSome := by
    have hd := k0.partitionData
    simp only [ifPartitionData, Prod.mk.injEq] at hd
    rw [hd.1]
    exact hv
  have he := estimated_ifEnsureFaninEstRefs (t := ifObjPartition p i) hv' hf
    (by rwa [ifObjPartition_congr k0.partitionData])
  exact ((((keepsEstRefs_ifSetupCuts ops i fPreprocess fFirst).trans
    (keepsEstRefs_foldlM_ifEnumStep hst)).trans (keepsEstRefs_ifUpdateBest hq)).trans
    (((keepsEstRefs_ifAddCutTriv hq').trans (keepsEstRefs_ifAreaCall _ _ i mode)).trans
      (keepsEstRefs_ifManDerefNodeCutSet ops i))).estimated he

theorem crossing_fanins_estimated_parted :
    ∃ r, ifObjPerformMappingAndPartitionAware ifOpsPlain ifAndParted 3 0 false true = .ok r ∧
      Estimated r.1 1 :=
  let ⟨r, hr⟩ := ifObjPerformMappingAndPartitionAware_ok ifOpsPlain 0 false true
    (show ifAndObj ifAndParted 3 = .ok { ifObjNew .and (some 1) (some 2) with
      cutBest := ⟨[3], 8, 0, 0⟩ } from rfl) rfl rfl (by decide)
  ⟨r, hr, crossing_fanins_estimated (by decide) hr rfl rfl (.inl rfl) (by decide)⟩

end abc_partition.est_refs
