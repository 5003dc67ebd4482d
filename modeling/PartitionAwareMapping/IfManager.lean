-- The manager of the IF mapper as the partition code reads it: objects by id,
-- each with its fanins, reference counts, best cut and cut set, and the
-- partition data attached to the manager. The routines of the generic cut
-- engine are parameters, each with the contract the partition code relies on.
import PartitionAwareMapping.Vectors
import Mathlib.Data.Rat.Defs

namespace abc_partition.if_manager

/-! ## The pure model -/

/-- `If_Type_t`, the object types of the mapper. -/
inductive IfType
  | const1 | ci | co | and
  deriving DecidableEq, Repr

/-- `If_Cut_t`, with the fields the partition code reads or writes; the `float` delay and
area are kept exactly. -/
structure IfCut where
  leaves : List Nat
  uSign : UInt32
  delay : ℚ
  area : ℚ
  deriving DecidableEq, Repr

/-- `If_Set_t`: its capacity, and the cuts `ppCuts[0 .. nCuts)` it holds. -/
structure IfSet where
  nCutsMax : Nat
  cuts : List IfCut
  deriving DecidableEq, Repr

/-- `If_Obj_t`, with the fields the partition code reads or writes. A fanin is the id of the
object it points to. -/
structure IfObj where
  type : IfType
  pFanin0 : Option Nat
  pFanin1 : Option Nat
  fCompl0 : Bool
  fCompl1 : Bool
  fSkipCut : Bool
  nRefs : Int
  nVisits : Int
  estRefs : ℚ
  required : ℚ
  cutBest : IfCut
  pCutSet : Option IfSet
  deriving DecidableEq, Repr

/-- `If_Man_t`: the objects by id (`vObjs`), the partition data of `ifPartition.c`, the
parameters the partition code reads, and its two counters. A `NULL` vector is `none`. -/
structure IfMan where
  vObjs : List IfObj
  vPartition : Option (List Int)
  vPartInputs : Option (List (List Nat))
  vPartOutputs : Option (List (List Nat))
  nPartitions : Int
  nLutSize : Nat
  nCutsMax : Nat
  fSkipCutFilter : Bool
  fTruth : Bool
  fEpsilon : ℚ
  nCutsMerged : Nat
  nCutsTotal : Nat
  deriving DecidableEq, Repr

/-- `If_ObjIsConst1`. -/
def ifObjIsConst1 (o : IfObj) : Bool := o.type == .const1

/-- `If_ObjIsCi`. -/
def ifObjIsCi (o : IfObj) : Bool := o.type == .ci

/-- `If_ObjIsCo`. -/
def ifObjIsCo (o : IfObj) : Bool := o.type == .co

/-- `If_ObjIsAnd`. -/
def ifObjIsAnd (o : IfObj) : Bool := o.type == .and

/-- A cut with no leaves. -/
def emptyCut : IfCut := ⟨[], 0, 0, 0⟩

/-- An object of type `t` with fanins `f0` and `f1`, with no counts, no cut and no cut set
yet. -/
def ifObjNew (t : IfType) (f0 f1 : Option Nat) : IfObj :=
  ⟨t, f0, f1, false, false, false, 0, 0, 0, 0, emptyCut, none⟩

namespace IfMan

/-- `If_ManObjNum`. -/
def objNum (p : IfMan) : Nat := p.vObjs.length

/-- `If_ManObj`: the object of id `i`. -/
def obj (p : IfMan) (i : Nat) : Option IfObj := p.vObjs[i]?

/-- The manager with the object of id `i` changed by `f`. -/
def modifyObj (p : IfMan) (i : Nat) (f : IfObj → IfObj) : IfMan :=
  { p with vObjs := p.vObjs.modify f i }

@[simp]
theorem obj_modifyObj (p : IfMan) (i j : Nat) (f : IfObj → IfObj) :
    (p.modifyObj i f).obj j = if i = j then (p.obj j).map f else p.obj j := by
  simp only [obj, modifyObj, List.getElem?_modify]
  split <;> simp

/-- The manager with every object changed by `f`, which is given the object's id. -/
def mapObjs (p : IfMan) (f : Nat → IfObj → IfObj) : IfMan :=
  { p with vObjs := p.vObjs.mapIdx f }

@[simp]
theorem obj_mapObjs (p : IfMan) (f : Nat → IfObj → IfObj) (j : Nat) :
    (p.mapObjs f).obj j = (p.obj j).map (f j) := by
  simp [obj, mapObjs]

@[simp]
theorem objNum_modifyObj (p : IfMan) (i : Nat) (f : IfObj → IfObj) :
    (p.modifyObj i f).objNum = p.objNum := by
  simp [objNum, modifyObj]

end IfMan

/-- The routines of the generic cut engine (`ifCut.c`, `ifMan.c`, `ifTime.c`, `ifMap.c`), which
are not among the sources and which the spec treats as collaborators, with what the partition
code needs of them: a merged cut has only leaves of the two cuts merged; filtering and sorting
keep only cuts of the set and the new cut, and keep a set within its capacity; computing the
truth table keeps only leaves of the cut; and the trivial cut of an object has the object as its
only leaf. `cutAreaDeref` and `cutAreaRef` give the reference count of every object afterwards,
and `derefNodeCutSet` the visit count of every object and whether its cut set is recycled.
`cutsUnconstrained` is the cut enumeration and selection of `If_ObjPerformMappingAnd`, which
leaves the estimates of references as it found them. -/
structure IfOps where
  objCutSign : Nat → UInt32
  cutDelay : IfMan → Nat → IfCut → ℚ
  cutAreaFlow : IfMan → IfCut → ℚ
  cutLutArea : IfMan → IfCut → ℚ
  cutMergeOrdered : IfMan → IfCut → IfCut → Option IfCut
  cutFilter : IfSet → IfCut → Bool × IfSet
  cutComputeTruth : IfMan → IfCut → IfCut → IfCut → Bool → Bool → Option IfCut
  cutSort : IfMan → IfSet → IfCut → IfSet
  setupCutTriv : IfMan → Nat → IfCut
  cutAreaDeref : IfMan → IfCut → Nat → Int
  cutAreaRef : IfMan → IfCut → Nat → Int
  derefNodeCutSet : IfMan → Nat → Nat → Int × Bool
  cutsUnconstrained : IfMan → Nat → Int → Bool → Bool → IfMan
  merge_leaves : ∀ p c0 c1 c, cutMergeOrdered p c0 c1 = some c →
    ∀ l ∈ c.leaves, l ∈ c0.leaves ∨ l ∈ c1.leaves
  filter_cuts : ∀ s c, ∀ x ∈ (cutFilter s c).2.cuts, x ∈ s.cuts
  filter_capacity : ∀ s c, (cutFilter s c).2.nCutsMax = s.nCutsMax ∧
    (cutFilter s c).2.cuts.length ≤ s.cuts.length
  truth_leaves : ∀ p c c0 c1 b0 b1 c', cutComputeTruth p c c0 c1 b0 b1 = some c' →
    ∀ l ∈ c'.leaves, l ∈ c.leaves
  sort_cuts : ∀ p s c, ∀ x ∈ (cutSort p s c).cuts, x ∈ s.cuts ∨ x = c
  sort_capacity : ∀ p s c, s.cuts.length ≤ s.nCutsMax →
    (cutSort p s c).nCutsMax = s.nCutsMax ∧ (cutSort p s c).cuts.length ≤ s.nCutsMax
  setupCutTriv_leaves : ∀ p i, (setupCutTriv p i).leaves = [i]
  cutsUnconstrained_estRefs : ∀ p i mode fPreprocess fFirst j,
    ((cutsUnconstrained p i mode fPreprocess fFirst).obj j).map IfObj.estRefs =
      (p.obj j).map IfObj.estRefs

end abc_partition.if_manager
