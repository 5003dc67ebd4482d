-- The cut sets the mapper stores at its objects. A call of the partition-aware routine that
-- completes stores, at its object only, the set its loop leaves, with the trivial cut appended
-- when the capacity allows; `If_ObjLimitCutsToTrivial` stores one cut, the trivial one; the
-- recycling of `If_ManDerefNodeCutSet` only drops sets; every other stage leaves the sets alone.
-- So along every run of the mapper each stored set keeps the capacity with at most one cut past
-- it, which every later `If_ObjForEachCut` over a fanin relies on, and holds only cuts that pass
-- the locality check of its object's partition.
import PartitionAwareMapping.CutArena

namespace abc_partition.cut_store

open abc_partition.vectors abc_partition.if_manager abc_partition.partition_info
  abc_partition.cut_engine abc_partition.cut_arena

/-! ## What a stage does to the stored sets -/

/-- From `p` to `q` the capacity and the partition data stay, and every cut set stored in `q`
was stored at the same object of `p`, or is stored at `i` and satisfies `New`. -/
structure StoresFrom (p q : IfMan) (i : Nat) (New : IfSet → Prop) : Prop where
  nCutsMax_eq : q.nCutsMax = p.nCutsMax
  partitionData : ifPartitionData q = ifPartitionData p
  sets : ∀ j, ∀ o' ∈ q.obj j, ∀ s ∈ o'.pCutSet, (∃ o ∈ p.obj j, s ∈ o.pCutSet) ∨ (j = i ∧ New s)

namespace StoresFrom

variable {p q r : IfMan} {i : Nat} {New New' : IfSet → Prop}

theorem refl (p : IfMan) : StoresFrom p p i New := ⟨rfl, rfl, fun _ o ho _ hs => .inl ⟨o, ho, hs⟩⟩

theorem trans (h : StoresFrom p q i New) (h' : StoresFrom q r i New) : StoresFrom p r i New := by
  refine ⟨h'.nCutsMax_eq.trans h.nCutsMax_eq, h'.partitionData.trans h.partitionData,
    fun j o'' ho'' s hs => ?_⟩
  rcases h'.sets j o'' ho'' s hs with ⟨o', ho', hs'⟩ | hn
  · exact h.sets j o' ho' s hs'
  · exact .inr hn

theorem mono (h : StoresFrom p q i New) (hN : ∀ s, New s → New' s) : StoresFrom p q i New' :=
  ⟨h.nCutsMax_eq, h.partitionData, fun j o ho s hs =>
    (h.sets j o ho s hs).imp id fun ⟨hj, hn⟩ => ⟨hj, hN s hn⟩⟩

end StoresFrom

section stages

variable {p : IfMan} {i : Nat} {New : IfSet → Prop}

/-- A change of object `i` that stores no set, or one that satisfies `New`. -/
theorem storesFrom_modifyObj {f : IfObj → IfObj}
    (hf : ∀ o, ∀ s ∈ (f o).pCutSet, s ∈ o.pCutSet ∨ New s) :
    StoresFrom p (p.modifyObj i f) i New := by
  refine ⟨rfl, rfl, fun j o ho s hs => ?_⟩
  rw [IfMan.obj_modifyObj] at ho
  split at ho
  · rename_i hij
    subst hij
    obtain ⟨o0, ho0, rfl⟩ := Option.map_eq_some'.mp ho
    exact (hf o0 s hs).imp (fun h => ⟨o0, ho0, h⟩) fun h => ⟨rfl, h⟩
  · exact .inl ⟨o, ho, hs⟩

/-- A change of any object that leaves its cut set alone. -/
theorem storesFrom_modifyObj_keep (k : Nat) {f : IfObj → IfObj}
    (hf : ∀ o, (f o).pCutSet = o.pCutSet) : StoresFrom p (p.modifyObj k f) i New := by
  refine ⟨rfl, rfl, fun j o ho s hs => .inl ?_⟩
  rw [IfMan.obj_modifyObj] at ho
  split at ho
  · obtain ⟨o0, ho0, rfl⟩ := Option.map_eq_some'.mp ho
    exact ⟨o0, ho0, hf o0 ▸ hs⟩
  · exact ⟨o, ho, hs⟩

/-- A change of every object that stores no new set. -/
theorem storesFrom_mapObjs {f : Nat → IfObj → IfObj}
    (hf : ∀ j o, ∀ s ∈ (f j o).pCutSet, s ∈ o.pCutSet) : StoresFrom p (p.mapObjs f) i New := by
  refine ⟨rfl, rfl, fun j o ho s hs => .inl ?_⟩
  rw [IfMan.obj_mapObjs] at ho
  obtain ⟨o0, ho0, rfl⟩ := Option.map_eq_some'.mp ho
  exact ⟨o0, ho0, hf j o0 s hs⟩

theorem storesFrom_ifAreaCall (count : IfMan → IfCut → Nat → Int) (call : Nat → AreaCall)
    (k : Nat) (mode : Int) : StoresFrom p (ifAreaCall count call p k mode).1 i New := by
  unfold ifAreaCall
  split
  · split
    · exact storesFrom_mapObjs fun _ _ _ hs => hs
    · exact .refl p
  · exact .refl p

theorem storesFrom_ifPrologue (ops : IfOps) (mode : Int) :
    StoresFrom p (ifPrologue ops p i mode).1 i New :=
  (storesFrom_modifyObj_keep i (by intro; rfl)).trans (storesFrom_ifAreaCall _ _ i mode)

theorem storesFrom_ifEnsureFaninEstRefs (t : Int) (pObj : IfObj) :
    StoresFrom p (ifEnsureFaninEstRefs p t pObj) i New := by
  have he : ∀ q f, StoresFrom q (ifEnsureEstRefs q t f) i New := by
    rintro q (_ | f)
    · exact .refl q
    · simp only [ifEnsureEstRefs]
      split
      · exact storesFrom_modifyObj_keep f (by intro; rfl)
      · exact .refl q
  unfold ifEnsureFaninEstRefs
  split
  · exact (he p _).trans (he _ _)
  · exact .refl p

theorem storesFrom_ifManDerefNodeCutSet (ops : IfOps) (k : Nat) :
    StoresFrom p (ifManDerefNodeCutSet ops p k) i New :=
  storesFrom_mapObjs fun j o s hs => by
    dsimp only at hs
    split at hs
    · cases hs
    · exact hs

/-- "Prepare the cutset" stores an empty set of the capacity at the object. -/
theorem storesFrom_ifSetupCuts (ops : IfOps) (fPreprocess fFirst : Bool)
    (hS : New (ifManSetupNodeCutSet p)) :
    StoresFrom p (ifSetupCuts ops p i fPreprocess fFirst).1 i New := by
  have h1 : StoresFrom p (p.modifyObj i fun o =>
      { o with pCutSet := some (ifManSetupNodeCutSet p) }) i New :=
    storesFrom_modifyObj fun _ s hs => by cases hs; exact .inr hS
  have h2 : StoresFrom p (ifRecomputeBest ops (p.modifyObj i fun o =>
      { o with pCutSet := some (ifManSetupNodeCutSet p) }) i) i New := by
    unfold ifRecomputeBest
    dsimp only
    exact h1.trans ((storesFrom_modifyObj_keep i (by intro; rfl)).trans
      (storesFrom_modifyObj_keep i (by intro; rfl)))
  unfold ifSetupCuts
  dsimp only
  split
  · exact h1
  · split
    · split <;> exact h2
    · exact h2

theorem storesFrom_ifUpdateBest {q : IfMan} {fPreprocess : Bool} {s : IfSet}
    (h : ifUpdateBest p i fPreprocess s = .ok q) : StoresFrom p q i New := by
  unfold ifUpdateBest at h
  split at h
  · cases h
  · cases h
    exact storesFrom_modifyObj_keep i (by intro; rfl)

/-- "Add trivial cut" stores the set, with a trivial cut appended when the capacity allows. -/
theorem storesFrom_ifAddCutTriv {ops : IfOps} {s : IfSet} {q : IfMan}
    (h : ifAddCutTriv ops p i s = .ok q) :
    StoresFrom p q i (fun s' => s' = s ∨ ∃ c, c.leaves = [i] ∧ s.cuts.length ≤ s.nCutsMax ∧
      s' = { s with cuts := s.cuts ++ [c] }) := by
  unfold ifAddCutTriv at h
  split at h
  · split at h
    · split at h
      · cases h
      · rename_i hlen
        cases h
        exact storesFrom_modifyObj fun _ _ hs => by
          cases hs
          exact .inr (.inr ⟨_, ops.setupCutTriv_leaves p i, by omega, rfl⟩)
    · cases h
      exact storesFrom_modifyObj fun _ _ hs => by cases hs; exact .inr (.inl rfl)
  · cases h
    exact storesFrom_modifyObj fun _ _ hs => by cases hs; exact .inr (.inl rfl)

end stages

/-! ## One call -/

/-- A set the loop of a call on the AND object `i` of `p` can leave, once "Make sure we have at
least one cut" has run: it has the capacity, at most `max nCutsMax 1` cuts, and each of its cuts
has the leaves of the best cut of `i` from the round before, or passes the check of `i`'s
partition, or is the trivial cut of `i`. -/
structure LoopSet (p : IfMan) (i : Nat) (s : IfSet) : Prop where
  nCutsMax_eq : s.nCutsMax = p.nCutsMax
  length_le : s.cuts.length ≤ max p.nCutsMax 1
  cuts : ∀ c ∈ s.cuts, (∃ o ∈ p.obj i, ifObjIsAnd o ∧ c.leaves = o.cutBest.leaves) ∨
    ifCutCheckPartition p c (ifObjPartition p i) = true ∨ c.leaves = [i]

/-- What a completed call may store at its object `i`: the empty set of "Prepare the cutset",
the set `s` its loop leaves, or `s` with a trivial cut appended within the capacity. -/
def CallStores (p : IfMan) (i : Nat) (s s' : IfSet) : Prop :=
  s' = ifManSetupNodeCutSet p ∨ s' = s ∨
    ∃ c, c.leaves = [i] ∧ s.cuts.length ≤ s.nCutsMax ∧ s' = { s with cuts := s.cuts ++ [c] }

section call

variable {ops : IfOps} {p : IfMan} {i : Nat} {pObj : IfObj}

/-- A step of the loop passed the capacity assertion on the set it was given. -/
theorem ifEnumStep_le {t : Int} {st st' : IfMan × IfSet} {pair : IfCut × IfCut}
    (h : ifEnumStep ops i pObj t st pair = .ok st') : st.2.cuts.length ≤ st.2.nCutsMax := by
  unfold ifEnumStep at h
  split at h
  · cases h
  · omega

/-- The loop stores no set, and leaves a set the loop can leave. -/
theorem foldlM_ifEnumStep_loopSet {st st' : IfMan × IfSet} {l : List (IfCut × IfCut)}
    (hd : ifPartitionData st.1 = ifPartitionData p) (hst : LoopSet p i st.2)
    (h : l.foldlM (ifEnumStep ops i pObj (ifObjPartition p i)) st = .ok st') :
    (∀ New, StoresFrom st.1 st'.1 i New) ∧ LoopSet p i st'.2 := by
  refine foldlM_invariant (ifEnumStep ops i pObj (ifObjPartition p i))
    (fun _ d => (∀ New, StoresFrom st.1 d.1 i New) ∧ LoopSet p i d.2) l
    (fun _ pair d d' _ ⟨hs, hl⟩ hstep => ?_) l [] st st' rfl ⟨fun _ => .refl _, hst⟩ h
  rcases ifEnumStep_cases hstep with rfl | ⟨pCut, -, hpass, rfl⟩
  · exact ⟨hs, hl⟩
  have hd' : ifPartitionData d.1 = ifPartitionData p := (hs fun _ => False).partitionData.trans hd
  have hfit : SetFits p.nCutsMax (ifEnumAccept ops i pObj (ifCountMerged d.1) d.2 pair pCut) :=
    setFits_ifEnumAccept ops pair pCut ⟨hl.nCutsMax_eq, hl.nCutsMax_eq ▸ ifEnumStep_le hstep⟩
  refine ⟨fun New => (hs New).trans ⟨rfl, rfl, fun _ o ho _ hs' => .inl ⟨o, ho, hs'⟩⟩,
    hfit.1, hfit.2.trans (le_max_left _ _), fun c hc => ?_⟩
  rcases mem_ifEnumAccept hc with hc | hsub
  · exact hl.cuts c hc
  · refine .inr (.inl ?_)
    rw [← ifCutCheckPartition_congr hd']
    exact ifCutCheckPartition_mono hsub hpass

/-- Everything a call that completes without the fallback does to the stored sets: it keeps the
capacity and the partition data, and every set it leaves was stored before, or is stored at its
object and is one `CallStores` allows, for a set `s` its loop can leave. -/
theorem storesFrom_ifObjPerformMappingAndPartitionAware {mode : Int} {fPreprocess fFirst : Bool}
    {r : IfMan × List AreaCall} (hfb : ∀ pObj ∈ p.obj i, ifTakesFallback p pObj fFirst = false)
    (h : ifObjPerformMappingAndPartitionAware ops p i mode fPreprocess fFirst = .ok r) :
    ∃ s, LoopSet p i s ∧ StoresFrom p r.1 i (CallStores p i s) := by
  obtain ⟨pObj, hpi, hand, _, _, st, q, q', -, -, hst, hq, hq', rfl⟩ :=
    ifObjPerformMappingAndPartitionAware_stages hfb h
  set p1 := ifEnsureFaninEstRefs (ifPrologue ops p i mode).1 (ifObjPartition p i) pObj
  have k1 : KeepsBests p p1 :=
    (keepsBests_ifPrologue ops p i mode).trans (keepsBests_ifEnsureFaninEstRefs _ _ pObj)
  have h1 : ∀ New, StoresFrom p p1 i New := fun _ =>
    (storesFrom_ifPrologue ops mode).trans (storesFrom_ifEnsureFaninEstRefs _ pObj)
  have hS : ifManSetupNodeCutSet p1 = ifManSetupNodeCutSet p := by
    simp only [ifManSetupNodeCutSet, (h1 fun _ => False).nCutsMax_eq]
  -- the set "Prepare the cutset" hands out: empty, or the best cut of the round before
  have hset : LoopSet p i (ifSetupCuts ops p1 i fPreprocess fFirst).2 := by
    refine ⟨?_, ?_, fun c hc => .inl ?_⟩
    · unfold ifSetupCuts
      dsimp only
      split
      · exact congrArg IfSet.nCutsMax hS
      · split
        · split <;> exact congrArg IfSet.nCutsMax hS
        · exact congrArg IfSet.nCutsMax hS
    · unfold ifSetupCuts
      dsimp only
      split
      · exact Nat.zero_le _
      · split
        · split
          · exact le_max_right _ _
          · exact Nat.zero_le _
        · exact Nat.zero_le _
    · obtain ⟨o1, ho1, hl1⟩ := mem_ifSetupCuts hc
      obtain ⟨o, ho, -, hl⟩ := k1.obj ho1
      rw [hpi] at ho
      cases ho
      exact ⟨pObj, hpi, hand, hl1 ▸ hl.symm⟩
  have hd : ifPartitionData (ifSetupCuts ops p1 i fPreprocess fFirst).1 = ifPartitionData p :=
    (k1.trans (keepsBests_ifSetupCuts ops p1 i fPreprocess fFirst)).partitionData
  obtain ⟨hloop, hls⟩ := foldlM_ifEnumStep_loopSet hd hset hst
  -- "Make sure we have at least one cut"
  have hens : LoopSet p i (ifEnsureCut ops st.1 i st.2) := by
    unfold ifEnsureCut
    split
    · refine ⟨hls.nCutsMax_eq, le_max_right _ _, fun c hc => .inr (.inr ?_)⟩
      rw [List.mem_singleton.mp hc]
      exact ops.setupCutTriv_leaves st.1 i
    · exact hls
  refine ⟨_, hens, ((((h1 _).trans (storesFrom_ifSetupCuts ops fPreprocess fFirst (.inl hS))).trans
    (hloop _)).trans (storesFrom_ifUpdateBest hq)).trans ?_⟩
  exact (((storesFrom_ifAddCutTriv hq').trans (storesFrom_ifAreaCall _ _ i mode)).trans
    (storesFrom_ifManDerefNodeCutSet ops i)).mono fun _ h => .inr h

/-- `If_ObjLimitCutsToTrivial` stores, at its object only, one trivial cut in the set the object
had. -/
theorem storesFrom_ifObjLimitCutsToTrivial (ops : IfOps) (p : IfMan) (i : Nat) :
    StoresFrom p (ifObjLimitCutsToTrivial ops p i) i (fun s' => ∃ s,
      (p.obj i).bind IfObj.pCutSet = some s ∧ ∃ c, c.leaves = [i] ∧ s' = { s with cuts := [c] }) := by
  unfold ifObjLimitCutsToTrivial
  split
  · exact .refl p
  · rename_i s hs
    dsimp only
    split
    · exact storesFrom_modifyObj_keep i (by intro; rfl)
    · exact (storesFrom_modifyObj_keep i (by intro; rfl)).trans (storesFrom_modifyObj fun _ _ hs' => by
        cases hs'
        exact .inr ⟨s, hs, _, rfl, rfl⟩)

end call

/-! ## The capacity of the stored sets over runs -/

/-- A set of capacity `m` with at most one cut past it. -/
def SetHolds (m : Nat) (s : IfSet) : Prop := s.nCutsMax = m ∧ s.cuts.length ≤ m + 1

instance (m : Nat) (s : IfSet) : Decidable (SetHolds m s) := inferInstanceAs (Decidable (_ ∧ _))

/-- The manager has capacity `m`, and every cut set stored at one of its objects holds. -/
structure StoreFits (m : Nat) (p : IfMan) : Prop where
  nCutsMax_eq : p.nCutsMax = m
  sets : ∀ j, ∀ o ∈ p.obj j, ∀ s ∈ o.pCutSet, SetHolds m s

/-- The invariant read over the object array, where it can be decided. -/
theorem storeFits_iff {m : Nat} {p : IfMan} :
    StoreFits m p ↔ p.nCutsMax = m ∧ ∀ o ∈ p.vObjs, ∀ s ∈ o.pCutSet, SetHolds m s := by
  refine ⟨fun h => ⟨h.nCutsMax_eq, fun o ho => ?_⟩, fun h => ⟨h.1, fun j o ho => h.2 o
    (List.getElem?_mem ho)⟩⟩
  obtain ⟨j, hj⟩ := List.mem_iff_getElem?.mp ho
  exact h.sets j o hj

theorem StoreFits.of_storesFrom {m : Nat} {p q : IfMan} {i : Nat} {New : IfSet → Prop}
    (hp : StoreFits m p) (h : StoresFrom p q i New) (hN : ∀ s, New s → SetHolds m s) :
    StoreFits m q :=
  ⟨h.nCutsMax_eq.trans hp.nCutsMax_eq, fun j o' ho' s hs =>
    (h.sets j o' ho' s hs).elim (fun ⟨o, ho, hs'⟩ => hp.sets j o ho s hs') fun ⟨_, hn⟩ => hN s hn⟩

theorem storeFits_mapStep {m : Nat} {ops : IfOps} {p q : IfMan} (hp : StoreFits m p)
    (h : MapStep ops p q) : StoreFits m q := by
  cases h with
  | perform i mode fPreprocess fFirst r hfb hr =>
    obtain ⟨s, hs, hr⟩ := storesFrom_ifObjPerformMappingAndPartitionAware hfb hr
    have hm := hs.nCutsMax_eq.trans hp.nCutsMax_eq
    have hlen := hp.nCutsMax_eq ▸ hs.length_le
    refine hp.of_storesFrom hr fun s' hs' => ?_
    rcases hs' with rfl | rfl | ⟨c, -, hle, rfl⟩
    · exact ⟨hp.nCutsMax_eq, Nat.zero_le _⟩
    · exact ⟨hm, by omega⟩
    · exact ⟨hm, by simp only [List.length_append, List.length_singleton]; omega⟩
  | limit i =>
    refine hp.of_storesFrom (storesFrom_ifObjLimitCutsToTrivial ops p i)
      fun s' ⟨s, hs, c, _, hs'⟩ => ?_
    obtain ⟨o, ho, hos⟩ := Option.bind_eq_some.mp hs
    subst hs'
    exact ⟨(hp.sets i o ho s hos).1, by simp⟩

/-- Along every run of the mapper the capacity stays as it was, and every cut set stored at an
object has that capacity and at most one cut past it. -/
theorem stored_cut_sets_fit_of_run {ops : IfOps} {p q : IfMan} (hp : StoreFits p.nCutsMax p)
    (h : Relation.ReflTransGen (MapStep ops) p q) : StoreFits p.nCutsMax q := by
  induction h with
  | refl => exact hp
  | tail _ hstep ih => exact storeFits_mapStep ih hstep

theorem stored_cut_sets_fit_of_run_reconv :
    ∃ r, ifObjPerformMappingAndPartitionAware ifOpsDominance ifReconv 5 0 false false = .ok r ∧
      StoreFits ifReconv.nCutsMax ifReconv ∧ StoreFits ifReconv.nCutsMax r.1 :=
  have hp : StoreFits ifReconv.nCutsMax ifReconv := storeFits_iff.mpr (by decide)
  let ⟨r, hr⟩ := ifObjPerformMappingAndPartitionAware_ok ifOpsDominance 0 false false
    (show ifAndObj ifReconv 5 = .ok ifReconvAnd from rfl) rfl rfl (by decide)
  ⟨r, hr, hp, stored_cut_sets_fit_of_run hp (.single (MapStep.perform ifReconv 5 0 false false r
    (by decide) hr))⟩

/-! ## Stored cuts pass the locality check over runs -/

/-- Every cut of every set stored at an object passes the check of the object's partition. -/
def StoredLocal (p : IfMan) : Prop :=
  ∀ j, ∀ o ∈ p.obj j, ∀ s ∈ o.pCutSet, CutsLocal p (ifObjPartition p j) s

instance : DecidablePred StoredLocal := fun p =>
  decidable_of_iff (∀ j < p.objNum, ∀ o ∈ p.obj j, ∀ s ∈ o.pCutSet, ∀ c ∈ s.cuts,
      ifCutCheckPartition p c (ifObjPartition p j) = true)
    ⟨fun h j o ho => h j (List.getElem?_eq_some_iff.mp (Option.mem_def.mp ho)).1 o ho,
      fun h j _ => h j⟩

theorem StoredLocal.of_storesFrom {p q : IfMan} {i : Nat} {New : IfSet → Prop}
    (hp : StoredLocal p) (h : StoresFrom p q i New)
    (hN : ∀ s, New s → CutsLocal p (ifObjPartition p i) s) : StoredLocal q := by
  intro j o' ho' s hs c hc
  rw [ifCutCheckPartition_congr h.partitionData, ifObjPartition_congr h.partitionData]
  rcases h.sets j o' ho' s hs with ⟨o, ho, hs'⟩ | ⟨rfl, hn⟩
  · exact hp j o ho s hs' c hc
  · exact hN s hn c hc

/-- With every best cut local, every cut a loop can leave is local. -/
theorem LoopSet.cutsLocal {p : IfMan} {i : Nat} {s : IfSet} (hb : BestsLocal p)
    (hs : LoopSet p i s) : CutsLocal p (ifObjPartition p i) s := fun c hc => by
  rcases hs.cuts c hc with ⟨o, ho, hand, hl⟩ | hpass | htriv
  · exact ifCutCheckPartition_mono (hl ▸ fun _ h => h) (hb i o ho hand)
  · exact hpass
  · exact ifCutCheckPartition_triv p htriv

theorem storedLocal_mapStep {ops : IfOps} {p q : IfMan} (hb : BestsLocal p) (hp : StoredLocal p)
    (h : MapStep ops p q) : StoredLocal q := by
  cases h with
  | perform i mode fPreprocess fFirst r hfb hr =>
    obtain ⟨s, hs, hr⟩ := storesFrom_ifObjPerformMappingAndPartitionAware hfb hr
    refine hp.of_storesFrom hr fun s' hs' c hc => ?_
    rcases hs' with rfl | rfl | ⟨c', hc', -, rfl⟩
    · cases hc
    · exact hs.cutsLocal hb c hc
    · rcases List.mem_append.mp hc with hc | hc
      · exact hs.cutsLocal hb c hc
      · rw [List.mem_singleton.mp hc]
        exact ifCutCheckPartition_triv p hc'
  | limit i =>
    refine hp.of_storesFrom (storesFrom_ifObjLimitCutsToTrivial ops p i)
      fun s' ⟨s, _, c', hc', hs'⟩ c hc => ?_
    subst hs'
    rw [List.mem_singleton.mp hc]
    exact ifCutCheckPartition_triv p hc'

/-- Along every run of the mapper from a manager whose best cuts and stored cuts pass the
locality check, every cut stored at any object still passes the check of its partition, and
so does every best cut. -/
theorem stored_cuts_local_of_run {ops : IfOps} {p q : IfMan} (hb : BestsLocal p)
    (hp : StoredLocal p) (h : Relation.ReflTransGen (MapStep ops) p q) :
    BestsLocal q ∧ StoredLocal q := by
  induction h with
  | refl => exact ⟨hb, hp⟩
  | tail _ hstep ih => exact ⟨(bestsLocal_mapStep ih.1 hstep).2, storedLocal_mapStep ih.1 ih.2 hstep⟩

theorem stored_cuts_local_of_run_parted :
    ∃ r, ifObjPerformMappingAndPartitionAware ifOpsPlain ifAndParted 3 0 false true = .ok r ∧
      BestsLocal ifAndParted ∧ StoredLocal ifAndParted ∧ BestsLocal r.1 ∧ StoredLocal r.1 :=
  have hb : BestsLocal ifAndParted := by decide
  have hp : StoredLocal ifAndParted := by decide
  let ⟨r, hr⟩ := ifObjPerformMappingAndPartitionAware_ok ifOpsPlain 0 false true
    (show ifAndObj ifAndParted 3 = .ok { ifObjNew .and (some 1) (some 2) with
      cutBest := ⟨[3], 8, 0, 0⟩ } from rfl) rfl rfl (by decide)
  ⟨r, hr, hb, hp, stored_cuts_local_of_run hb hp (.single (MapStep.perform ifAndParted 3 0 false true
    r (by decide) hr))⟩

end abc_partition.cut_store
