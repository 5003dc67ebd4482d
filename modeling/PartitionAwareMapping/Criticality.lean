-- The criticality estimator: the weight of a node from its level and its fanout count, and
-- the weight of a driver-to-fanout edge from the levels at its two ends. Both compute in
-- `float`; the node's fanout factors are `double` literals, so each such product is formed in
-- `double` and stored back in the `float`. The model rounds at every one of these steps
-- (`rounding`). Division by a zero `maxLevel` follows `ℚ`, where `x / 0 = 0`: the one caller,
-- `Aig_NtkBuildTimingAwareHypergraph`, replaces a zero maximum level by 1 first.
import PartitionAwareMapping.AbcNetwork
import PartitionAwareMapping.Rounding

namespace abc_partition.criticality

open abc_partition.network abc_partition.rounding

/-! ## The pure model -/

/-- The C cast `(int)x`: truncation toward zero. -/
def cIntCast (x : ℚ) : Int := if 0 ≤ x then ⌊x⌋ else ⌈x⌉

/-- `Aig_ComputeNodeCriticality`. -/
def aigComputeNodeCriticality (pObj : AbcObj) (maxLevel : Nat) : Int :=
  let level := pObj.level
  let fanoutCount := pObj.vFanouts.length
  let criticality := roundFloat (roundFloat level / roundFloat maxLevel)
  let criticality :=
    if fanoutCount > 10 then roundFloat (roundDouble (criticality * roundDouble (3 / 2)))
    else if fanoutCount > 5 then roundFloat (roundDouble (criticality * roundDouble (6 / 5)))
    else if fanoutCount > 2 then roundFloat (roundDouble (criticality * roundDouble (11 / 10)))
    else criticality
  let weight := cIntCast (roundFloat (criticality * 9)) + 1
  let weight := if weight > 10 then 10 else weight
  if weight < 1 then 1 else weight

/-- `Aig_ComputeEdgeCriticality`: 1 unless the fanout sits one level above the driver. -/
def aigComputeEdgeCriticality (pDriver pFanout : AbcObj) (maxLevel : Nat) : Int :=
  let driverLevel := pDriver.level
  let fanoutLevel := pFanout.level
  if fanoutLevel = driverLevel + 1 then
    let criticality := roundFloat (roundFloat fanoutLevel / roundFloat maxLevel)
    let weight := cIntCast (roundFloat (criticality * 5)) + 1
    if weight > 10 then 10 else weight
  else 1

/-! ## The level ratio both weights start from -/

/-- `(float)level / (float)maxLevel`, stored in a `float`. -/
def levelRatio (level maxLevel : Nat) : ℚ := roundFloat (roundFloat level / roundFloat maxLevel)

theorem floatRatio_nonneg (level maxLevel : Nat) : 0 ≤ roundFloat level / roundFloat maxLevel :=
  div_nonneg (roundFloat_nonneg level.cast_nonneg) (roundFloat_nonneg maxLevel.cast_nonneg)

theorem levelRatio_nonneg (level maxLevel : Nat) : 0 ≤ levelRatio level maxLevel :=
  roundFloat_nonneg (floatRatio_nonneg level maxLevel)

theorem levelRatio_mono {level level' maxLevel maxLevel' : Nat} (hl : level ≤ level')
    (hm : 0 < maxLevel') (hmm : maxLevel' ≤ maxLevel) :
    levelRatio level maxLevel ≤ levelRatio level' maxLevel' := by
  have hm' : 0 < roundFloat maxLevel' := roundFloat_pos (by exact_mod_cast hm)
  -- a numerator no smaller over a positive denominator no larger, each a rounded int
  refine roundFloat_mono (floatRatio_nonneg _ _)
    (div_le_div₀ (roundFloat_nonneg level'.cast_nonneg) ?_ hm' ?_)
  · exact roundFloat_mono level.cast_nonneg (by exact_mod_cast hl)
  · exact roundFloat_mono maxLevel'.cast_nonneg (by exact_mod_cast hmm)

/-- A level no deeper than the maximum gives a ratio of at most 1, in `float` too. -/
theorem levelRatio_le_one {level maxLevel : Nat} (h : level ≤ maxLevel) :
    levelRatio level maxLevel ≤ 1 := by
  have hle : roundFloat level / roundFloat maxLevel ≤ 1 :=
    div_le_one_of_le₀ (roundFloat_mono level.cast_nonneg (by exact_mod_cast h))
      (roundFloat_nonneg maxLevel.cast_nonneg)
  simpa using roundFloat_mono (floatRatio_nonneg level maxLevel) hle

/-! ## Both weights lie in `[1, 10]` -/

theorem cIntCast_nonneg {x : ℚ} (h : 0 ≤ x) : 0 ≤ cIntCast x := by
  simp only [cIntCast, h, if_true]; exact Int.floor_nonneg.mpr h

theorem cIntCast_mono {x y : ℚ} (hx : 0 ≤ x) (h : x ≤ y) : cIntCast x ≤ cIntCast y := by
  simp only [cIntCast, hx, hx.trans h, if_true]
  exact Int.floor_mono h

/-- The two clamps that close `Aig_ComputeNodeCriticality`. -/
def clampWeight (weight : Int) : Int :=
  let weight := if weight > 10 then 10 else weight
  if weight < 1 then 1 else weight

theorem clampWeight_mem (weight : Int) : 1 ≤ clampWeight weight ∧ clampWeight weight ≤ 10 := by
  unfold clampWeight; dsimp only; split_ifs <;> omega

theorem clampWeight_mono {w w' : Int} (h : w ≤ w') : clampWeight w ≤ clampWeight w' := by
  unfold clampWeight; dsimp only; split_ifs <;> omega

/-- The factor `Aig_ComputeNodeCriticality` gives a fanout count: the `double` nearest the
literal, and 1 where the code leaves the criticality as it is. -/
def fanoutFactor (fanoutCount : Nat) : ℚ :=
  if fanoutCount > 10 then roundDouble (3 / 2)
  else if fanoutCount > 5 then roundDouble (6 / 5)
  else if fanoutCount > 2 then roundDouble (11 / 10)
  else 1

/-- A float times 1, formed in `double` and stored back, is the float itself, so the fanout
adjustment scales by `fanoutFactor` in all four branches. -/
theorem fanoutAdjust_eq (n : Nat) {z : ℚ} (hz : 0 ≤ z) :
    (if n > 10 then roundFloat (roundDouble (roundFloat z * roundDouble (3 / 2)))
      else if n > 5 then roundFloat (roundDouble (roundFloat z * roundDouble (6 / 5)))
      else if n > 2 then roundFloat (roundDouble (roundFloat z * roundDouble (11 / 10)))
      else roundFloat z) = roundFloat (roundDouble (roundFloat z * fanoutFactor n)) := by
  unfold fanoutFactor
  split_ifs <;> first | rfl | rw [mul_one, roundDouble_roundFloat hz, roundFloat_roundFloat hz]

theorem aigComputeNodeCriticality_eq (pObj : AbcObj) (maxLevel : Nat) :
    aigComputeNodeCriticality pObj maxLevel = clampWeight (cIntCast (roundFloat (roundFloat
      (roundDouble (levelRatio pObj.level maxLevel * fanoutFactor pObj.vFanouts.length)) * 9))
        + 1) := by
  simp only [aigComputeNodeCriticality, levelRatio, clampWeight,
    fanoutAdjust_eq _ (floatRatio_nonneg pObj.level maxLevel)]

theorem aigComputeNodeCriticality_mem (pObj : AbcObj) (maxLevel : Nat) :
    1 ≤ aigComputeNodeCriticality pObj maxLevel ∧
      aigComputeNodeCriticality pObj maxLevel ≤ 10 := by
  rw [aigComputeNodeCriticality_eq]; exact clampWeight_mem _

theorem aigComputeEdgeCriticality_mem (pDriver pFanout : AbcObj) (maxLevel : Nat) :
    1 ≤ aigComputeEdgeCriticality pDriver pFanout maxLevel ∧
      aigComputeEdgeCriticality pDriver pFanout maxLevel ≤ 10 := by
  have := cIntCast_nonneg (roundFloat_nonneg
    (mul_nonneg (levelRatio_nonneg pFanout.level maxLevel) (by norm_num : (0 : ℚ) ≤ 5)))
  simp only [aigComputeEdgeCriticality, levelRatio] at this ⊢
  split_ifs <;> omega

/-! ## A deeper node, or one with more fanouts, weighs no less -/

theorem fanoutFactor_mono {n n' : Nat} (h : n ≤ n') : fanoutFactor n ≤ fanoutFactor n' := by
  -- the doubles nearest 1.1, 1.2 and 1.5 keep the order of the literals, and 1 is a double
  have h1 : 1 ≤ roundDouble (11 / 10) := by
    simpa using roundDouble_mono zero_le_one (by norm_num : (1 : ℚ) ≤ 11 / 10)
  have h2 : roundDouble (11 / 10) ≤ roundDouble (6 / 5) :=
    roundDouble_mono (by norm_num) (by norm_num)
  have h3 : roundDouble (6 / 5) ≤ roundDouble (3 / 2) :=
    roundDouble_mono (by norm_num) (by norm_num)
  unfold fanoutFactor
  split_ifs <;> first | omega | linarith

theorem fanoutFactor_nonneg (n : Nat) : 0 ≤ fanoutFactor n :=
  zero_le_one.trans (by simpa [fanoutFactor] using fanoutFactor_mono (Nat.zero_le n))

/-- A node at least as deep and with at least as many fanouts, against a maximum level no
larger and not zero, never gets a lower weight. -/
theorem node_criticality_monotone {o o' : AbcObj} {maxLevel maxLevel' : Nat}
    (hl : o.level ≤ o'.level) (hf : o.vFanouts.length ≤ o'.vFanouts.length)
    (hm : 0 < maxLevel') (hmm : maxLevel' ≤ maxLevel) :
    aigComputeNodeCriticality o maxLevel ≤ aigComputeNodeCriticality o' maxLevel' := by
  rw [aigComputeNodeCriticality_eq, aigComputeNodeCriticality_eq]
  have hc0 :=
    mul_nonneg (levelRatio_nonneg o.level maxLevel) (fanoutFactor_nonneg o.vFanouts.length)
  -- the criticality after the fanout adjustment, then times 9, each stored in a `float`
  have hs := roundFloat_mono (roundDouble_nonneg hc0) (roundDouble_mono hc0 (mul_le_mul
    (levelRatio_mono hl hm hmm) (fanoutFactor_mono hf) (fanoutFactor_nonneg _)
    (levelRatio_nonneg _ _)))
  have hs0 := mul_nonneg (roundFloat_nonneg (roundDouble_nonneg hc0)) (by norm_num : (0 : ℚ) ≤ 9)
  exact clampWeight_mono (add_le_add_right (cIntCast_mono (roundFloat_nonneg hs0)
    (roundFloat_mono hs0 (mul_le_mul_of_nonneg_right hs (by norm_num)))) 1)

theorem node_criticality_monotone_deeper :
    aigComputeNodeCriticality ⟨.node, [1, 2], [4], 1, none⟩ 3 ≤
      aigComputeNodeCriticality ⟨.node, [1, 2], [4, 5, 6], 2, none⟩ 2 :=
  node_criticality_monotone (by decide) (by decide) (by decide) (by decide)

/-! ## An edge to a fanout within the maximum level weighs at most 6 -/

/-- An edge to a fanout no deeper than `maxLevel` weighs at most 6, so the clamp of
`Aig_ComputeEdgeCriticality` to 10 never fires: the `float` ratio stays at most 1, and 5 is
a `float`. -/
theorem aigComputeEdgeCriticality_le_six (pDriver : AbcObj) {pFanout : AbcObj}
    {maxLevel : Nat} (h : pFanout.level ≤ maxLevel) :
    aigComputeEdgeCriticality pDriver pFanout maxLevel ≤ 6 := by
  have hc0 := mul_nonneg (levelRatio_nonneg pFanout.level maxLevel) (by norm_num : (0 : ℚ) ≤ 5)
  have hc : cIntCast (roundFloat (levelRatio pFanout.level maxLevel * 5)) ≤ 5 :=
    calc cIntCast (roundFloat (levelRatio pFanout.level maxLevel * 5))
        ≤ cIntCast (roundFloat 5) := cIntCast_mono (roundFloat_nonneg hc0) (roundFloat_mono hc0
          (mul_le_of_le_one_left (by norm_num) (levelRatio_le_one h)))
      _ = 5 := by
        rw [show (5 : ℚ) = (5 : Nat) by norm_num, roundFloat_natCast (by norm_num)]
        norm_num [cIntCast]
  simp only [aigComputeEdgeCriticality, levelRatio] at hc ⊢
  split_ifs <;> omega

end abc_partition.criticality
