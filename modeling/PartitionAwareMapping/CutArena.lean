-- The cut arena of one call of `If_ObjPerformMappingAndPartitionAware`. The set that
-- `If_ManSetupNodeCutSet` hands out has `nCutsMax` slots and a spare: the loop reads its free
-- slot only while the set fits, the trivial-cut fallback leaves between one cut and the
-- capacity, and the appended trivial cut takes at most the spare, so no assertion of the
-- routine on the set can fail. A candidate the loop refuses never adds a cut, but it can
-- leave fewer: the set goes to `If_CutFilter` before the truth and delay checks.
import PartitionAwareMapping.CutEngine

namespace abc_partition.cut_arena

open abc_partition.vectors abc_partition.if_manager abc_partition.partition_info
  abc_partition.cut_engine

/-! ## One candidate, and the loop -/

section loop

variable (ops : IfOps) {i : Nat} {pObj : IfObj} {t : Int}

end loop

/-! ## After the loop -/

section after

variable (ops : IfOps) {q : IfMan} {i : Nat}

end after

/-! ## The call -/

section call

variable (ops : IfOps) {p : IfMan} {i : Nat} {e : MapFault}

end call

/-- The plain engine with a redundancy check that drops the cuts of the set a candidate
dominates (cuts of more leaves that hold all of the candidate's) and finds a candidate
redundant when a cut of the set has only leaves of it, and with a delay routine that finds no
delay (`-1`) for any cut. -/
def ifOpsDominance : IfOps :=
  { ifOpsPlain with
    cutDelay := fun _ _ _ => -1
    cutFilter := fun s c =>
      let kept := s.cuts.filter fun t =>
        !(c.leaves.length < t.leaves.length && c.leaves.all t.leaves.contains)
      (kept.any fun t => t.leaves.all c.leaves.contains, { s with cuts := kept })
    filter_cuts := fun _ _ _ h => (List.mem_filter.mp h).1
    filter_capacity := fun _ _ => ⟨rfl, List.length_filter_le _ _⟩ }

/-- The AND of the two ANDs of `ifReconv`, whose best cut of the round before is {1, 2, 4}. -/
def ifReconvAnd : IfObj := { ifObjNew .and (some 3) (some 4) with cutBest := ⟨[1, 2, 4], 22, 0, 0⟩ }

/-- Reconvergence under one AND: the inputs 1 and 2, the ANDs 3 and 4 of both (4 with its first
input complemented), carrying the cut sets {1, 2}, {3} and {1, 2}, {4} with the signatures of
their leaves, and their AND 5, `ifReconvAnd`; no partition data. -/
def ifReconv : IfMan :=
  ⟨[ifObjNew .const1 none none, ifObjNew .ci none none, ifObjNew .ci none none,
    { ifObjNew .and (some 1) (some 2) with
      pCutSet := some ⟨8, [⟨[1, 2], 6, 0, 0⟩, ⟨[3], 8, 0, 0⟩]⟩ },
    { ifObjNew .and (some 1) (some 2) with
      fCompl0 := true
      pCutSet := some ⟨8, [⟨[1, 2], 6, 0, 0⟩, ⟨[4], 16, 0, 0⟩]⟩ },
    ifReconvAnd],
    none, none, none, 0, 6, 8, false, false, 0, 0, 0⟩

end abc_partition.cut_arena
