-- The value a C `float` or `double` holds once an exact result is stored in it: round to
-- nearest, ties to even, at the format's precision. The exponent is unbounded: the
-- criticality code only forms int levels, ratios of two of them and such a ratio times at
-- most 13.5, all far inside the normal range of both formats, so no result overflows or
-- becomes subnormal. Rounding is monotone and fixes the values a format holds; the laws of
-- the criticality estimator rest on these two facts.
import Mathlib.Data.Rat.Floor
import Mathlib.Data.Int.Log

namespace abc_partition.rounding

/-! ## The pure model -/

/-- Round half to even: the integer nearest `x`, the even one on a tie. -/
def roundHalfEven (x : ℚ) : Int :=
  let n := ⌊x⌋
  if x - n < 1 / 2 then n
  else if 1 / 2 < x - n then n + 1
  else if n % 2 = 0 then n else n + 1

/-- The value nearest `x` with `p` significant bits, ties to even. -/
def roundBinary (p : Nat) (x : ℚ) : ℚ :=
  if x = 0 then 0
  else
    let e : Int := Int.log 2 |x| + 1 - p
    (if x < 0 then -1 else 1) * roundHalfEven (|x| / 2 ^ e) * 2 ^ e

/-- A C `float`: IEEE 754 binary32, 24 significant bits. -/
def roundFloat (x : ℚ) : ℚ := roundBinary 24 x

/-- A C `double`: IEEE 754 binary64, 53 significant bits. -/
def roundDouble (x : ℚ) : ℚ := roundBinary 53 x

/-! ## Rounding to an integer -/

theorem floor_le_roundHalfEven (x : ℚ) : ⌊x⌋ ≤ roundHalfEven x := by
  unfold roundHalfEven; dsimp only; split_ifs <;> omega

theorem roundHalfEven_le_floor_add_one (x : ℚ) : roundHalfEven x ≤ ⌊x⌋ + 1 := by
  unfold roundHalfEven; dsimp only; split_ifs <;> omega

@[simp]
theorem roundHalfEven_intCast (k : Int) : roundHalfEven k = k := by
  simp [roundHalfEven]

theorem roundHalfEven_mono {x y : ℚ} (h : x ≤ y) : roundHalfEven x ≤ roundHalfEven y := by
  rcases (Int.floor_mono h).lt_or_eq with hlt | heq
  · -- a whole unit apart: the nearest integers are ordered too
    calc roundHalfEven x ≤ ⌊x⌋ + 1 := roundHalfEven_le_floor_add_one x
      _ ≤ ⌊y⌋ := hlt
      _ ≤ roundHalfEven y := floor_le_roundHalfEven y
  · -- within one unit: the fractional parts are ordered
    have hfrac : x - ⌊y⌋ ≤ y - ⌊y⌋ := by linarith
    unfold roundHalfEven; dsimp only; rw [heq]
    split_ifs <;> first | omega | (exfalso; linarith)

/-! ## The significand of a positive value -/

section significand

variable (q : Nat) {x : ℚ}

theorem two_pow_mul_zpow_sub (n : Nat) (L : Int) :
    (2 : ℚ) ^ n * 2 ^ (L - q) = 2 ^ (L + (n - q)) := by
  rw [← zpow_natCast, ← zpow_add₀ two_ne_zero]; ring_nf

/-- With `q + 1` bits, a positive value is its significand times `2 ^ (log₂ x - q)`. -/
theorem roundBinary_of_pos (hx : 0 < x) :
    roundBinary (q + 1) x =
      roundHalfEven (x / 2 ^ (Int.log 2 x - q)) * 2 ^ (Int.log 2 x - q) := by
  have he : Int.log 2 x + 1 - ((q + 1 : Nat) : Int) = Int.log 2 x - q := by push_cast; ring
  simp only [roundBinary, hx.ne', if_false, abs_of_pos hx, not_lt.mpr hx.le, he, one_mul]

/-- The significand of a positive value lies in `[2 ^ q, 2 ^ (q + 1))`. -/
theorem significand_mem (hx : 0 < x) :
    (2 : ℚ) ^ q ≤ x / 2 ^ (Int.log 2 x - q) ∧ x / 2 ^ (Int.log 2 x - q) < 2 ^ (q + 1) := by
  have hpos : (0 : ℚ) < 2 ^ (Int.log 2 x - q) := zpow_pos (by norm_num) _
  have hlo : (2 : ℚ) ^ Int.log 2 x ≤ x := by
    simpa using Int.zpow_log_le_self (b := 2) (by norm_num) hx
  have hhi : x < (2 : ℚ) ^ (Int.log 2 x + 1) := by
    simpa using Int.lt_zpow_succ_log_self (b := 2) (by norm_num) x
  constructor
  · rw [le_div_iff₀ hpos, two_pow_mul_zpow_sub]; simpa using hlo
  · rw [div_lt_iff₀ hpos, two_pow_mul_zpow_sub]; push_cast; simpa [add_comm] using hhi

theorem le_roundHalfEven_significand (hx : 0 < x) :
    (2 : Int) ^ q ≤ roundHalfEven (x / 2 ^ (Int.log 2 x - q)) :=
  (Int.le_floor.mpr (by exact_mod_cast (significand_mem q hx).1)).trans
    (floor_le_roundHalfEven _)

theorem roundHalfEven_significand_le (hx : 0 < x) :
    roundHalfEven (x / 2 ^ (Int.log 2 x - q)) ≤ 2 ^ (q + 1) :=
  (roundHalfEven_le_floor_add_one _).trans
    (Int.add_one_le_of_lt (Int.floor_lt.mpr (by exact_mod_cast (significand_mem q hx).2)))

end significand

/-! ## Rounding keeps the sign and the order -/

section order

variable {q : Nat} {x y : ℚ}

@[simp]
theorem roundBinary_zero (p : Nat) : roundBinary p 0 = 0 := by simp [roundBinary]

theorem roundBinary_pos (hx : 0 < x) : 0 < roundBinary (q + 1) x := by
  rw [roundBinary_of_pos q hx]
  exact mul_pos (by exact_mod_cast lt_of_lt_of_le (by positivity) (le_roundHalfEven_significand q hx))
    (zpow_pos (by norm_num) _)

theorem roundBinary_nonneg (hx : 0 ≤ x) : 0 ≤ roundBinary (q + 1) x := by
  rcases hx.eq_or_lt with rfl | hx
  · simp
  · exact (roundBinary_pos hx).le

/-- Rounding is monotone on the values the criticality code forms. -/
theorem roundBinary_mono (hx : 0 ≤ x) (h : x ≤ y) :
    roundBinary (q + 1) x ≤ roundBinary (q + 1) y := by
  rcases hx.eq_or_lt with rfl | hx
  · simpa using roundBinary_nonneg h
  have hy := lt_of_lt_of_le hx h
  rw [roundBinary_of_pos q hx, roundBinary_of_pos q hy]
  rcases (Int.log_mono_right (b := 2) hx h).lt_or_eq with hlt | heq
  · -- in a lower binade, the rounded value stays at most the next power of two
    calc (roundHalfEven (x / 2 ^ (Int.log 2 x - q)) : ℚ) * 2 ^ (Int.log 2 x - q)
        ≤ 2 ^ (q + 1) * 2 ^ (Int.log 2 x - q) :=
          mul_le_mul_of_nonneg_right (by exact_mod_cast roundHalfEven_significand_le q hx)
            (zpow_pos (by norm_num) _).le
      _ = 2 ^ (Int.log 2 x + 1) := by rw [two_pow_mul_zpow_sub]; push_cast; ring_nf
      _ ≤ 2 ^ Int.log 2 y := zpow_le_zpow_right₀ (by norm_num) (by omega)
      _ = 2 ^ q * 2 ^ (Int.log 2 y - q) := by rw [two_pow_mul_zpow_sub]; ring_nf
      _ ≤ (roundHalfEven (y / 2 ^ (Int.log 2 y - q)) : ℚ) * 2 ^ (Int.log 2 y - q) :=
          mul_le_mul_of_nonneg_right (by exact_mod_cast le_roundHalfEven_significand q hy)
            (zpow_pos (by norm_num) _).le
  · -- in the same binade, the significands are ordered
    rw [heq]
    have hm := roundHalfEven_mono (div_le_div_of_nonneg_right h
      (zpow_pos (by norm_num : (0 : ℚ) < 2) (Int.log 2 y - q)).le)
    exact mul_le_mul_of_nonneg_right (by exact_mod_cast hm) (zpow_pos (by norm_num) _).le

end order

/-! ## Rounding fixes the values a format holds -/

section exact

variable {q : Nat}

/-- A value of at most `q + 1` significant bits rounds to itself. -/
theorem roundBinary_eq_self {k : Nat} (hk : k < 2 ^ (q + 1)) (e : Int) :
    roundBinary (q + 1) (k * 2 ^ e) = k * 2 ^ e := by
  rcases Nat.eq_zero_or_pos k with rfl | hk0
  · simp
  have hy : (0 : ℚ) < k * 2 ^ e := mul_pos (by exact_mod_cast hk0) (zpow_pos (by norm_num) _)
  have hlog : Nat.log 2 k ≤ q := Nat.lt_succ_iff.mp (Nat.log_lt_of_lt_pow hk0.ne' hk)
  -- the binade of `k * 2 ^ e` is the binade of `k`, shifted by `e`
  have hL : Int.log 2 ((k : ℚ) * 2 ^ e) = Nat.log 2 k + e := by
    have hlo : (2 : ℚ) ^ ((Nat.log 2 k : Int) + e) ≤ k * 2 ^ e := by
      rw [zpow_add₀ two_ne_zero, zpow_natCast]
      exact mul_le_mul_of_nonneg_right (by exact_mod_cast Nat.pow_log_le_self 2 hk0.ne')
        (zpow_pos (by norm_num) _).le
    have hhi : (k : ℚ) * 2 ^ e < 2 ^ ((Nat.log 2 k : Int) + e + 1) := by
      rw [add_right_comm, zpow_add₀ two_ne_zero, ← Nat.cast_succ, zpow_natCast]
      exact mul_lt_mul_of_pos_right (by exact_mod_cast Nat.lt_pow_succ_log_self (by norm_num) k)
        (zpow_pos (by norm_num) _)
    have h1 := (Int.zpow_le_iff_le_log (b := 2) (by norm_num) hy).mp (by simpa using hlo)
    have h2 := (Int.lt_zpow_iff_log_lt (b := 2) (by norm_num) hy).mp (by simpa using hhi)
    omega
  -- its significand is the integer `k * 2 ^ (q - log₂ k)`
  have hsig : (k : ℚ) * 2 ^ e / 2 ^ ((Nat.log 2 k : Int) + e - q) =
      ((k * 2 ^ (q - Nat.log 2 k) : Nat) : Int) := by
    rw [div_eq_iff (zpow_ne_zero _ two_ne_zero)]
    push_cast
    rw [← zpow_natCast, mul_assoc, ← zpow_add₀ two_ne_zero, Nat.cast_sub hlog]
    ring_nf
  -- an integer significand rounds to itself, and the value is its significand scaled back
  rw [roundBinary_of_pos q hy, hL, hsig, roundHalfEven_intCast, ← hsig,
    div_mul_cancel₀ _ (zpow_ne_zero _ two_ne_zero)]

/-- Rounding with at least as many bits keeps a rounded value. -/
theorem roundBinary_roundBinary {r : Nat} (hqr : q ≤ r) {x : ℚ} (hx : 0 ≤ x) :
    roundBinary (r + 1) (roundBinary (q + 1) x) = roundBinary (q + 1) x := by
  rcases hx.eq_or_lt with rfl | hx
  · simp
  rw [roundBinary_of_pos q hx]
  have hn0 := le_trans (by positivity) (le_roundHalfEven_significand q hx)
  have hn1 := roundHalfEven_significand_le q hx
  have hqr' : (2 : Int) ^ (q + 1) ≤ 2 ^ (r + 1) := pow_le_pow_right₀ (by norm_num) (by omega)
  obtain ⟨k, hk⟩ : ∃ k : Nat, roundHalfEven (x / 2 ^ (Int.log 2 x - q)) = k :=
    ⟨_, (Int.toNat_of_nonneg hn0).symm⟩
  rw [hk] at hn1 ⊢
  rcases (show (k : Int) < 2 ^ (r + 1) ∨ (k : Int) = 2 ^ (r + 1) by omega) with hlt | heq
  · exact_mod_cast roundBinary_eq_self (by exact_mod_cast hlt) _
  · -- a significand of `2 ^ (r + 1)` is one bit at the next binade
    have hk : (k : ℚ) * 2 ^ (Int.log 2 x - q) =
        ((1 : Nat) : ℚ) * 2 ^ (Int.log 2 x - q + ((r + 1 : Nat) : Int)) := by
      rw [zpow_add₀ two_ne_zero, zpow_natCast, show (k : ℚ) = 2 ^ (r + 1) by exact_mod_cast heq]
      push_cast; ring
    push_cast
    rw [hk, roundBinary_eq_self (Nat.one_lt_two_pow (by omega))]

end exact

/-! ## `float` and `double` -/

theorem roundFloat_mono {x y : ℚ} (hx : 0 ≤ x) (h : x ≤ y) : roundFloat x ≤ roundFloat y :=
  roundBinary_mono hx h

theorem roundDouble_mono {x y : ℚ} (hx : 0 ≤ x) (h : x ≤ y) : roundDouble x ≤ roundDouble y :=
  roundBinary_mono hx h

theorem roundFloat_nonneg {x : ℚ} (hx : 0 ≤ x) : 0 ≤ roundFloat x := roundBinary_nonneg hx

theorem roundDouble_nonneg {x : ℚ} (hx : 0 ≤ x) : 0 ≤ roundDouble x := roundBinary_nonneg hx

theorem roundFloat_pos {x : ℚ} (hx : 0 < x) : 0 < roundFloat x := roundBinary_pos hx

/-- A float holds every integer below `2 ^ 24`. -/
theorem roundFloat_natCast {n : Nat} (h : n < 2 ^ 24) : roundFloat n = n := by
  simpa using roundBinary_eq_self (q := 23) h 0

theorem roundDouble_natCast {n : Nat} (h : n < 2 ^ 53) : roundDouble n = n := by
  simpa using roundBinary_eq_self (q := 52) h 0

@[simp]
theorem roundFloat_one : roundFloat 1 = 1 := by
  simpa using roundFloat_natCast (n := 1) (by norm_num)

@[simp]
theorem roundDouble_one : roundDouble 1 = 1 := by
  simpa using roundDouble_natCast (n := 1) (by norm_num)

/-- A double holds every float. -/
theorem roundDouble_roundFloat {x : ℚ} (hx : 0 ≤ x) : roundDouble (roundFloat x) = roundFloat x :=
  roundBinary_roundBinary (by norm_num) hx

theorem roundFloat_roundFloat {x : ℚ} (hx : 0 ≤ x) : roundFloat (roundFloat x) = roundFloat x :=
  roundBinary_roundBinary le_rfl hx

end abc_partition.rounding
