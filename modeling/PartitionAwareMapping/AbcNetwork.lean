-- The AIG network of ABC as the hypergraph and partition code reads it: an
-- array of objects indexed by id, with empty slots for deleted objects, and
-- the invariants ABC keeps between the fanin and the fanout lists.
import PartitionAwareMapping.Vectors

namespace abc_partition.network

/-! ## The pure model -/

/-- `Abc_ObjType_t`, the object types of a strashed network. -/
inductive AbcObjType
  | const1 | pi | po | bi | bo | node | latch
  deriving DecidableEq, Repr

/-- `Abc_Obj_t`, with the fields the code reads. The id of an object is its slot in
`vObjs`, as `Abc_ObjId` gives it. -/
structure AbcObj where
  type : AbcObjType
  vFanins : List Nat
  vFanouts : List Nat
  level : Nat
  pCopy : Option Nat
  deriving DecidableEq, Repr

/-- `Abc_Ntk_t`: the object array, `none` for a deleted object, and the lists of
primary inputs and outputs that `Abc_NtkForEachPi` and `Abc_NtkForEachPo` walk. -/
structure AbcNtk where
  vObjs : List (Option AbcObj)
  vPis : List Nat
  vPos : List Nat
  deriving DecidableEq, Repr

/-- `Abc_ObjIsPo`. -/
def abcObjIsPo (o : AbcObj) : Bool := o.type == .po

/-- `Abc_ObjIsNode`. -/
def abcObjIsNode (o : AbcObj) : Bool := o.type == .node

/-- `Abc_ObjIsLatch`. -/
def abcObjIsLatch (o : AbcObj) : Bool := o.type == .latch

/-- `Abc_ObjIsCi`: a primary input or the output of a latch. -/
def abcObjIsCi (o : AbcObj) : Bool := o.type == .pi || o.type == .bo

/-- `Abc_AigNodeIsConst`. -/
def abcAigNodeIsConst (o : AbcObj) : Bool := o.type == .const1

namespace AbcNtk

/-- `Abc_NtkObjNumMax`. -/
def objNumMax (N : AbcNtk) : Nat := N.vObjs.length

/-- `Abc_NtkObj`: the object of id `i`. -/
def obj (N : AbcNtk) (i : Nat) : Option AbcObj := N.vObjs.getD i none

/-- The objects `Abc_NtkForEachObj` visits, with their ids, in id order. -/
def objs (N : AbcNtk) : List (Nat × AbcObj) :=
  (List.range N.objNumMax).filterMap (fun i => (N.obj i).map (i, ·))

/-- The network with the levels `lev` written, all else kept: what `Abc_NtkLevel`
does to a network. -/
def setLevels (N : AbcNtk) (lev : Nat → Nat) : AbcNtk :=
  { N with vObjs := N.vObjs.mapIdx (fun i oo => oo.map ({ · with level := lev i })) }

theorem lt_of_obj_eq_some {N : AbcNtk} {i : Nat} {o : AbcObj} (h : N.obj i = some o) :
    i < N.objNumMax := by
  by_contra hn
  rw [obj, List.getD_eq_default _ _ (by unfold objNumMax at hn; omega)] at h
  cases h

@[simp]
theorem mem_objs {N : AbcNtk} {i : Nat} {o : AbcObj} : (i, o) ∈ N.objs ↔ N.obj i = some o := by
  simp only [objs, List.mem_filterMap, List.mem_range, Option.map_eq_some', Prod.mk.injEq]
  constructor
  · rintro ⟨j, -, o', ho', rfl, rfl⟩; exact ho'
  · intro h; exact ⟨i, lt_of_obj_eq_some h, o, h, rfl, rfl⟩

@[simp]
theorem objNumMax_setLevels (N : AbcNtk) (lev : Nat → Nat) :
    (N.setLevels lev).objNumMax = N.objNumMax := by
  simp [setLevels, objNumMax]

@[simp]
theorem obj_setLevels (N : AbcNtk) (lev : Nat → Nat) (i : Nat) :
    (N.setLevels lev).obj i = (N.obj i).map ({ · with level := lev i }) := by
  simp only [obj, setLevels, List.getD_eq_getElem?_getD, List.getElem?_mapIdx]
  rcases N.vObjs[i]? with _ | _ | _ <;> rfl

/-! ## What ABC keeps true of every network -/

/-- The representation invariants ABC keeps for every network, a strashed one
included: fanin and fanout ids name objects, a fanin lists its consumer among its
fanouts, an output drives nothing, and no object feeds itself. -/
structure Wf (N : AbcNtk) : Prop where
  fanin_obj : ∀ p ∈ N.objs, ∀ f ∈ p.2.vFanins, (N.obj f).isSome
  fanout_obj : ∀ p ∈ N.objs, ∀ f ∈ p.2.vFanouts, (N.obj f).isSome
  fanout_of_fanin : ∀ p ∈ N.objs, ∀ f ∈ p.2.vFanins, ∀ q ∈ N.obj f, p.1 ∈ q.vFanouts
  po_no_fanout : ∀ p ∈ N.objs, p.2.type = .po → p.2.vFanouts = []
  not_fanin_self : ∀ p ∈ N.objs, p.1 ∉ p.2.vFanins
  not_fanout_self : ∀ p ∈ N.objs, p.1 ∉ p.2.vFanouts

instance (N : AbcNtk) : Decidable N.Wf :=
  decidable_of_iff (_ ∧ _ ∧ _ ∧ _ ∧ _ ∧ _)
    ⟨fun ⟨a, b, c, d, e, f⟩ => ⟨a, b, c, d, e, f⟩, fun ⟨a, b, c, d, e, f⟩ => ⟨a, b, c, d, e, f⟩⟩

section wf

variable {N : AbcNtk} (hN : N.Wf) {i : Nat} {o : AbcObj} (ho : N.obj i = some o)
include hN ho

theorem Wf.fanin_some {f : Nat} (hf : f ∈ o.vFanins) : ∃ fo, N.obj f = some fo :=
  Option.isSome_iff_exists.mp (hN.fanin_obj (i, o) (mem_objs.mpr ho) f hf)

theorem Wf.mem_fanouts_of_fanin {f : Nat} {fo : AbcObj} (hf : f ∈ o.vFanins)
    (hfo : N.obj f = some fo) : i ∈ fo.vFanouts :=
  hN.fanout_of_fanin (i, o) (mem_objs.mpr ho) f hf fo hfo

theorem Wf.fanouts_of_po (hpo : o.type = .po) : o.vFanouts = [] :=
  hN.po_no_fanout (i, o) (mem_objs.mpr ho) hpo

theorem Wf.not_mem_fanins : i ∉ o.vFanins := hN.not_fanin_self (i, o) (mem_objs.mpr ho)

theorem Wf.not_mem_fanouts : i ∉ o.vFanouts := hN.not_fanout_self (i, o) (mem_objs.mpr ho)

end wf

/-- What strashing adds to `Wf`: every AND node has two fanins, each an AND node or a
combinational input. -/
structure Strashed (N : AbcNtk) : Prop where
  wf : N.Wf
  two_fanins : ∀ p ∈ N.objs, abcObjIsNode p.2 → p.2.vFanins.length = 2
  fanin_kind : ∀ p ∈ N.objs, abcObjIsNode p.2 → ∀ f ∈ p.2.vFanins,
    ∀ fo ∈ N.obj f, abcObjIsNode fo || abcObjIsCi fo

instance (N : AbcNtk) : Decidable N.Strashed :=
  decidable_of_iff (_ ∧ _ ∧ _)
    ⟨fun ⟨a, b, c⟩ => ⟨a, b, c⟩, fun ⟨a, b, c⟩ => ⟨a, b, c⟩⟩

end AbcNtk

end abc_partition.network
