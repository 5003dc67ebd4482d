-- The signature prefilter of the cut loop. `If_WordCountOnes` counts the ones of a word by
-- adding neighbouring bit fields, in five steps from fields of one bit to one field of 32;
-- it gives the number of set bits of every word. A cut's signature sets the bit of each leaf
-- modulo 31, so the ones of two signatures never outnumber the leaves of the merged cut, and
-- the quick check at line 356 refuses only pairs the merge would refuse.
import PartitionAwareMapping.CutEngine
import Mathlib.Data.Finset.Card
import Mathlib.Tactic.Ring

namespace abc_partition.signature

open abc_partition.vectors abc_partition.if_manager abc_partition.partition_info
  abc_partition.cut_engine

/-! ## Words as fields -/

/-- The number whose fields of `w` bits hold `cs`, the lowest field first. -/
def fieldSum (w : Nat) : List Nat → Nat
  | [] => 0
  | c :: cs => c + 2 ^ w * fieldSum w cs

/-- The fields of even index. -/
def evens : List Nat → List Nat
  | a :: _ :: cs => a :: evens cs
  | cs => cs
termination_by structural cs => cs

/-- The sums of neighbouring fields, the lower one first: one step of the count. -/
def pairSums : List Nat → List Nat
  | a :: b :: cs => (a + b) :: pairSums cs
  | cs => cs
termination_by structural cs => cs

/-- The lowest `n` bits of `x`, the lowest first. -/
def bitList : Nat → Nat → List Nat
  | 0, _ => []
  | n + 1, x => x % 2 :: bitList n (x / 2)

/-- The number of set bits of a 32-bit word. -/
def onesOf (x : UInt32) : Nat := ((Finset.range 32).filter fun i => x.toNat.testBit i).card

@[simp] theorem fieldSum_nil (w : Nat) : fieldSum w [] = 0 := rfl

@[simp] theorem fieldSum_cons (w c : Nat) (cs : List Nat) :
    fieldSum w (c :: cs) = c + 2 ^ w * fieldSum w cs := rfl

@[simp] theorem pairSums_nil : pairSums [] = [] := rfl

@[simp] theorem pairSums_singleton (a : Nat) : pairSums [a] = [a] := rfl

@[simp] theorem pairSums_cons_cons (a b : Nat) (cs : List Nat) :
    pairSums (a :: b :: cs) = (a + b) :: pairSums cs := rfl

@[simp] theorem evens_singleton (a : Nat) : evens [a] = [a] := rfl

theorem evens_cons (b : Nat) (cs : List Nat) : evens (b :: cs) = b :: evens cs.tail := by
  rcases cs with _ | ⟨c, cs⟩ <;> rfl

/-! ## Splitting at a field boundary -/

/-- Below `K` the bits of `a + 2^K * b` are those of `a`, from `K` on those of `b`. -/
theorem testBit_add_two_pow_mul {K a b : Nat} (ha : a < 2 ^ K) (i : Nat) :
    (a + 2 ^ K * b).testBit i = if i < K then a.testBit i else b.testBit (i - K) := by
  split
  · next hi =>
    have h := Nat.testBit_mod_two_pow (a + 2 ^ K * b) K i
    rw [Nat.add_mul_mod_self_left, Nat.mod_eq_of_lt ha, decide_eq_true hi, Bool.true_and] at h
    exact h.symm
  · next hi =>
    have h := Nat.testBit_shiftRight (a + 2 ^ K * b) (i := K) (j := i - K)
    rwa [Nat.shiftRight_eq_div_pow, Nat.add_mul_div_left _ _ (Nat.two_pow_pos K),
      Nat.div_eq_of_lt ha, Nat.zero_add, Nat.add_sub_cancel' (by omega), eq_comm] at h

theorem land_add_two_pow_mul {K a b c d : Nat} (ha : a < 2 ^ K) (hc : c < 2 ^ K) :
    (a + 2 ^ K * b) &&& (c + 2 ^ K * d) = (a &&& c) + 2 ^ K * (b &&& d) :=
  Nat.eq_of_testBit_eq fun i => by
    rw [Nat.testBit_and, testBit_add_two_pow_mul ha, testBit_add_two_pow_mul hc,
      testBit_add_two_pow_mul (Nat.and_lt_two_pow a hc), Nat.testBit_and, Nat.testBit_and]
    split <;> rfl

theorem shiftRight_add_two_pow_mul {K a b : Nat} (ha : a < 2 ^ K) : (a + 2 ^ K * b) >>> K = b := by
  rw [Nat.shiftRight_eq_div_pow, Nat.add_mul_div_left _ _ (Nat.two_pow_pos K),
    Nat.div_eq_of_lt ha, Nat.zero_add]

/-! ## One step of the count -/

section step

variable {w : Nat}

theorem fieldSum_lt {cs : List Nat} (hcs : ∀ c ∈ cs, c < 2 ^ w) :
    fieldSum w cs < 2 ^ (w * cs.length) := by
  induction cs with
  | nil => simp
  | cons c cs ih =>
    have ih := ih fun c hc => hcs c (List.mem_cons_of_mem _ hc)
    have hc := hcs c (List.mem_cons_self _ _)
    calc fieldSum w (c :: cs) < 2 ^ w * (fieldSum w cs + 1) := by
          rw [fieldSum_cons, Nat.mul_succ]; omega
      _ ≤ 2 ^ w * 2 ^ (w * cs.length) := Nat.mul_le_mul_left _ ih
      _ = 2 ^ (w * (c :: cs).length) := by
          rw [← Nat.pow_add, List.length_cons, Nat.mul_succ, Nat.add_comm]

/-- Two fields of `w` bits are one field of `2 * w` bits. -/
theorem fieldSum_cons_cons (a b : Nat) (cs : List Nat) :
    fieldSum w (a :: b :: cs) = (a + 2 ^ w * b) + 2 ^ (2 * w) * fieldSum w cs := by
  rw [fieldSum_cons, fieldSum_cons, Nat.two_mul, Nat.pow_add]
  ring

theorem two_pow_add_lt {a b : Nat} (ha : a < 2 ^ w) (hb : b < 2 ^ w) :
    a + 2 ^ w * b < 2 ^ (2 * w) := by
  rw [Nat.two_mul, Nat.pow_add]
  calc a + 2 ^ w * b < 2 ^ w * (b + 1) := by rw [Nat.mul_succ]; omega
    _ ≤ 2 ^ w * 2 ^ w := Nat.mul_le_mul_left _ hb

theorem two_pow_le_two_pow_two_mul : 2 ^ w ≤ 2 ^ (2 * w) :=
  Nat.pow_le_pow_right (by decide) (by omega)

/-- The low half of the first field of `2 * w` bits, and the mask of the rest. -/
theorem land_low_half {x y : Nat} (ds : List Nat) (hx : x < 2 ^ (2 * w)) :
    (x + 2 ^ (2 * w) * y) &&& fieldSum (2 * w) ((2 ^ w - 1) :: ds) =
      x % 2 ^ w + 2 ^ (2 * w) * (y &&& fieldSum (2 * w) ds) := by
  have hm : 2 ^ w - 1 < 2 ^ (2 * w) :=
    Nat.lt_of_lt_of_le (Nat.sub_lt (Nat.two_pow_pos w) Nat.one_pos) two_pow_le_two_pow_two_mul
  rw [fieldSum_cons, land_add_two_pow_mul hx hm, Nat.and_pow_two_sub_one_eq_mod]

/-- The mask with the low `w` bits of each of `n` fields of `2 * w` bits keeps the fields of
even index. -/
theorem fieldSum_land_mask : ∀ {cs : List Nat} {n : Nat}, (∀ c ∈ cs, c < 2 ^ w) →
    cs.length ≤ 2 * n →
      fieldSum w cs &&& fieldSum (2 * w) (List.replicate n (2 ^ w - 1)) =
        fieldSum (2 * w) (evens cs)
  | [], _, _, _ => Nat.zero_and _
  | _ :: _, 0, _, hn => (Nat.not_succ_le_zero _ hn).elim
  | [a], n + 1, hcs, _ => by
    have ha := hcs a (List.mem_singleton_self a)
    have h := land_low_half (y := 0) (List.replicate n (2 ^ w - 1))
      (Nat.lt_of_lt_of_le ha two_pow_le_two_pow_two_mul)
    simpa [Nat.mod_eq_of_lt ha] using h
  | a :: b :: cs, n + 1, hcs, hn => by
    have ha := hcs a (by simp)
    have hb := hcs b (by simp)
    rw [fieldSum_cons_cons, List.replicate_succ, land_low_half _ (two_pow_add_lt ha hb),
      Nat.add_mul_mod_self_left, Nat.mod_eq_of_lt ha,
      fieldSum_land_mask (fun c hc => hcs c (by simp [hc])) (by simp at hn; omega)]
    rfl

theorem fieldSum_evens_add_evens_tail (K : Nat) :
    ∀ cs : List Nat, fieldSum K (evens cs) + fieldSum K (evens cs.tail) = fieldSum K (pairSums cs)
  | [] => rfl
  | [a] => by simp [evens]
  | a :: b :: cs => by
    rw [evens, List.tail_cons, evens_cons, pairSums_cons_cons, fieldSum_cons, fieldSum_cons,
      fieldSum_cons, ← fieldSum_evens_add_evens_tail K cs]
    ring

theorem length_pairSums : ∀ cs : List Nat, (pairSums cs).length = (cs.length + 1) / 2
  | [] => rfl
  | [_] => by simp
  | _ :: _ :: cs => by simp only [pairSums_cons_cons, List.length_cons, length_pairSums cs]; omega

theorem sum_pairSums : ∀ cs : List Nat, (pairSums cs).sum = cs.sum
  | [] => rfl
  | [_] => rfl
  | _ :: _ :: cs => by simp only [pairSums_cons_cons, List.sum_cons, sum_pairSums cs]; omega

theorem lt_of_mem_pairSums (hw : 1 ≤ w) :
    ∀ {cs : List Nat}, (∀ c ∈ cs, c < 2 ^ w) → ∀ c ∈ pairSums cs, c < 2 ^ (2 * w)
  | [], _ => by simp
  | [a], hcs => by
    simpa using Nat.lt_of_lt_of_le (hcs a (List.mem_singleton_self a)) two_pow_le_two_pow_two_mul
  | a :: b :: cs, hcs => by
    have h2 : 2 * 2 ^ w ≤ 2 ^ (2 * w) := by
      rw [Nat.two_mul w, Nat.pow_add]
      exact Nat.mul_le_mul_right _ (Nat.le_self_pow (by omega) 2 |>.trans' (by decide))
    have ha := hcs a (by simp)
    have hb := hcs b (by simp)
    rw [pairSums_cons_cons, List.forall_mem_cons]
    exact ⟨by omega, lt_of_mem_pairSums hw fun c hc => hcs c (by simp [hc])⟩

/-- One step of the count on fields of `w` bits: the word masked, plus the word shifted by `w`
and masked, holds the sums of neighbouring fields in fields of `2 * w` bits. -/
theorem fieldSum_step {cs : List Nat} (hcs : ∀ c ∈ cs, c < 2 ^ w) {n : Nat}
    (hn : cs.length ≤ 2 * n) :
    (fieldSum w cs &&& fieldSum (2 * w) (List.replicate n (2 ^ w - 1))) +
      ((fieldSum w cs >>> w) &&& fieldSum (2 * w) (List.replicate n (2 ^ w - 1))) =
        fieldSum (2 * w) (pairSums cs) := by
  have hshift : fieldSum w cs >>> w = fieldSum w cs.tail := by
    rcases cs with _ | ⟨a, cs⟩
    · simp
    · exact shiftRight_add_two_pow_mul (hcs a (by simp))
  rw [hshift, fieldSum_land_mask hcs hn,
    fieldSum_land_mask (fun c hc => hcs c (List.mem_of_mem_tail hc))
      (by rw [List.length_tail]; omega),
    fieldSum_evens_add_evens_tail]

end step

/-! ## The count of `If_WordCountOnes` -/

theorem uint32_toNat_add (a b : UInt32) : (a + b).toNat = (a.toNat + b.toNat) % 2 ^ 32 :=
  BitVec.toNat_add _ _

theorem uint32_toNat_or (a b : UInt32) : (a ||| b).toNat = a.toNat ||| b.toNat :=
  BitVec.toNat_or _ _

/-- A shift reads its amount modulo 32, as the `UInt32` shifts of Lean and of the C code do. -/
theorem uint32_toNat_shiftRight (a b : UInt32) : (a >>> b).toNat = a.toNat >>> (b.toNat % 32) := by
  show (a.toBitVec >>> (b.toBitVec % 32#32)).toNat = _
  rw [BitVec.ushiftRight_eq', BitVec.toNat_ushiftRight, BitVec.toNat_umod]
  rfl

theorem uint32_toNat_shiftLeft (a b : UInt32) :
    (a <<< b).toNat = (a.toNat <<< (b.toNat % 32)) % 2 ^ 32 := by
  show (a.toBitVec <<< (b.toBitVec % 32#32)).toNat = _
  rw [BitVec.shiftLeft_eq', BitVec.toNat_shiftLeft, BitVec.toNat_umod]
  rfl

theorem uint32_toNat_lt (x : UInt32) : x.toNat < 2 ^ 32 := x.toNat_lt_size

theorem length_bitList (n x : Nat) : (bitList n x).length = n := by
  induction n generalizing x <;> simp [bitList, *]

theorem lt_of_mem_bitList {n x c : Nat} (h : c ∈ bitList n x) : c < 2 ^ 1 := by
  induction n generalizing x with
  | zero => simp [bitList] at h
  | succ n ih =>
    rcases List.mem_cons.mp h with rfl | h
    · exact Nat.mod_lt _ (by decide)
    · exact ih h

/-- The one-bit fields of the low `n` bits of `x` make `x` modulo `2^n`. -/
theorem fieldSum_bitList (n x : Nat) : fieldSum 1 (bitList n x) = x % 2 ^ n := by
  induction n generalizing x with
  | zero => simp [bitList, Nat.mod_one]
  | succ n ih => rw [bitList, fieldSum_cons, ih, Nat.pow_one, Nat.pow_succ', Nat.mod_mul]

/-- The set bits among the low `n` are as many as the one-bit fields add up to. -/
theorem card_filter_testBit (n x : Nat) :
    ((Finset.range n).filter fun i => x.testBit i).card = (bitList n x).sum := by
  show ((List.range n).filter _).length = _
  simp only [Bool.decide_eq_true, ← List.countP_eq_length_filter]
  induction n generalizing x with
  | zero => rfl
  | succ n ih =>
    have hsucc : (fun i => x.testBit i) ∘ Nat.succ = fun i => (x / 2).testBit i :=
      funext fun i => Nat.testBit_succ x i
    rw [List.range_succ_eq_map, List.countP_cons, List.countP_map, hsucc, ih, bitList,
      List.sum_cons, Nat.testBit_zero]
    rcases Nat.mod_two_eq_zero_or_one x with h | h <;> simp [h, Nat.add_comm]

/-- The word `u` holds the fields `cs`, `n` of them, each of `w` bits. -/
structure Fields (w n : Nat) (u : UInt32) (cs : List Nat) : Prop where
  toNat_eq : u.toNat = fieldSum w cs
  length_eq : cs.length = n
  lt : ∀ c ∈ cs, c < 2 ^ w

/-- A stage of `If_WordCountOnes`: masking the word and the word shifted by `w` with the low
halves of fields of `2 * w` bits, and adding, sums neighbouring fields. Fields as wide as the
word has room for never carry into each other, nor out of the word. -/
theorem fields_step (m s : UInt32) {w n : Nat} {u : UInt32} {cs : List Nat}
    (h : Fields w (2 * n) u cs) (hw : 1 ≤ w) (hwn : 2 * (w * n) = 32)
    (hm : m.toNat = fieldSum (2 * w) (List.replicate n (2 ^ w - 1))) (hs : s.toNat = w) :
    Fields (2 * w) n ((u &&& m) + ((u >>> s) &&& m)) (pairSums cs) := by
  have hlt := lt_of_mem_pairSums hw h.lt
  have hlen : (pairSums cs).length = n := by rw [length_pairSums, h.length_eq]; omega
  have hw32 : w < 32 := by
    have : w ≤ w * n :=
      Nat.le_mul_of_pos_right w (Nat.pos_of_ne_zero (by rintro rfl; simp at hwn))
    omega
  have hbound : fieldSum (2 * w) (pairSums cs) < 2 ^ 32 := by
    have := fieldSum_lt hlt
    rwa [hlen, Nat.mul_assoc, hwn] at this
  refine ⟨?_, hlen, hlt⟩
  rw [uint32_toNat_add, UInt32.and_toNat, UInt32.and_toNat, uint32_toNat_shiftRight, hs,
    Nat.mod_eq_of_lt hw32, hm, h.toNat_eq, fieldSum_step h.lt (by rw [h.length_eq]),
    Nat.mod_eq_of_lt hbound]

/-- The last stage leaves the high field unmasked: it has nothing above it to clear. -/
theorem fields_last {u : UInt32} {cs : List Nat} (h : Fields 16 2 u cs) :
    ((u &&& (0x0000FFFF : UInt32)) + (u >>> 16)).toNat = fieldSum 32 (pairSums cs) := by
  have hlt : (u >>> 16).toNat < 2 ^ 16 := by
    rw [uint32_toNat_shiftRight, Nat.shiftRight_eq_div_pow]
    exact Nat.div_lt_of_lt_mul (uint32_toNat_lt u)
  have hhigh : (u >>> 16).toNat = ((u >>> 16) &&& (0x0000FFFF : UInt32)).toNat := by
    rw [UInt32.and_toNat, show (0x0000FFFF : UInt32).toNat = 2 ^ 16 - 1 from rfl,
      Nat.and_pow_two_sub_one_eq_mod, Nat.mod_eq_of_lt hlt]
  rw [uint32_toNat_add, hhigh, ← uint32_toNat_add]
  exact (fields_step 0x0000FFFF 16 (w := 16) (n := 1) h (by decide) (by decide) rfl rfl).toNat_eq

/-- `If_WordCountOnes` gives the number of set bits of every word. -/
theorem toNat_ifWordCountOnes (x : UInt32) : (ifWordCountOnes x).toNat = onesOf x := by
  have h0 : Fields 1 32 x (bitList 32 x.toNat) :=
    ⟨by rw [fieldSum_bitList, Nat.mod_eq_of_lt (uint32_toNat_lt x)], length_bitList _ _,
      fun _ => lt_of_mem_bitList⟩
  have h1 := fields_step 0x55555555 1 (n := 16) h0 (by decide) (by decide) rfl rfl
  have h2 := fields_step 0x33333333 2 (n := 8) h1 (by decide) (by decide) rfl rfl
  have h3 := fields_step 0x0F0F0F0F 4 (n := 4) h2 (by decide) (by decide) rfl rfl
  have h4 := fields_step 0x00FF00FF 8 (n := 2) h3 (by decide) (by decide) rfl rfl
  have h5 : (pairSums (pairSums (pairSums (pairSums (pairSums (bitList 32 x.toNat)))))).length
      = 1 := by simp only [length_pairSums, length_bitList]
  obtain ⟨c, hc⟩ := List.length_eq_one.mp h5
  calc (ifWordCountOnes x).toNat
      = fieldSum 32 (pairSums (pairSums (pairSums (pairSums (pairSums (bitList 32 x.toNat)))))) :=
        fields_last h4
    _ = (pairSums (pairSums (pairSums (pairSums (pairSums (bitList 32 x.toNat)))))).sum := by
        rw [hc]; simp
    _ = onesOf x := by simp only [sum_pairSums, onesOf, card_filter_testBit]

example : (ifWordCountOnes 0xFFFFFFFF).toNat = 32 := by decide

/-! ## Signatures -/

/-- Modelled from the spec: `If_ObjCutSign` of `if.h` is not among the sources. The signature of
an object has the bit of its id modulo 31. -/
def ifObjCutSign (objId : Nat) : UInt32 := 1 <<< (objId % 31).toUInt32

/-- The signature of a leaf set: the bits of its leaves. -/
def cutSignOf (leaves : List Nat) : UInt32 := leaves.foldr (fun l s => ifObjCutSign l ||| s) 0

/-- A cut whose signature is that of its leaves. -/
def Signed (c : IfCut) : Prop := c.uSign = cutSignOf c.leaves

instance : DecidablePred Signed := fun c => inferInstanceAs (Decidable (c.uSign = _))

theorem toNat_ifObjCutSign (objId : Nat) : (ifObjCutSign objId).toNat = 2 ^ (objId % 31) := by
  have h31 : objId % 31 < 31 := Nat.mod_lt _ (by decide)
  have hamt : (objId % 31).toUInt32.toNat = objId % 31 := Nat.mod_eq_of_lt (by omega)
  rw [ifObjCutSign, uint32_toNat_shiftLeft, hamt, Nat.mod_eq_of_lt (show objId % 31 < 32 by omega),
    Nat.shiftLeft_eq, show (1 : UInt32).toNat = 1 from rfl, Nat.one_mul]
  exact Nat.mod_eq_of_lt (Nat.pow_lt_pow_right (by decide : 1 < 2) (by omega))

/-- Bit `b` of a signature is set when a leaf is `b` modulo 31. -/
theorem testBit_cutSignOf (leaves : List Nat) (b : Nat) :
    (cutSignOf leaves).toNat.testBit b = leaves.any fun l => decide (l % 31 = b) := by
  induction leaves with
  | nil => simp [cutSignOf]
  | cons l leaves ih =>
    rw [cutSignOf, List.foldr_cons, uint32_toNat_or, Nat.testBit_or, ← cutSignOf, ih,
      toNat_ifObjCutSign, Nat.testBit_two_pow, List.any_cons]

/-- A word whose set bits are among the leaves modulo 31 has no more ones than leaves. -/
theorem onesOf_le_card {x : UInt32} {leaves : List Nat}
    (h : ∀ b, x.toNat.testBit b = leaves.any fun l => decide (l % 31 = b)) :
    onesOf x ≤ leaves.toFinset.card := by
  have hsub : (Finset.range 32).filter (fun b => x.toNat.testBit b) ⊆
      leaves.toFinset.image (· % 31) := by
    intro b hb
    obtain ⟨l, hl, hlb⟩ := List.any_eq_true.mp ((h b).symm.trans (Finset.mem_filter.mp hb).2)
    exact Finset.mem_image.mpr ⟨l, List.mem_toFinset.mpr hl, of_decide_eq_true hlb⟩
  exact (Finset.card_le_card hsub).trans Finset.card_image_le

/-- The count of the ones of two signatures never exceeds the leaves of the two cuts. -/
theorem ifWordCountOnes_or_le {c0 c1 : IfCut} (h0 : Signed c0) (h1 : Signed c1) :
    (ifWordCountOnes (c0.uSign ||| c1.uSign)).toNat ≤
      (c0.leaves.toFinset ∪ c1.leaves.toFinset).card := by
  rw [toNat_ifWordCountOnes, ← List.toFinset_append]
  refine onesOf_le_card fun b => ?_
  rw [uint32_toNat_or, Nat.testBit_or, h0, h1, testBit_cutSignOf, testBit_cutSignOf,
    List.any_append]

/-- Leaves 3 and 34 share a bit: their signature has one. -/
example : (ifWordCountOnes (cutSignOf [3, 34])).toNat = 1 := by decide

theorem ifObjCutSign_or_zero (objId : Nat) : ifObjCutSign objId ||| 0 = ifObjCutSign objId :=
  UInt32.eq_of_toBitVec_eq (BitVec.or_zero (x := (ifObjCutSign objId).toBitVec))

/-- With the signatures of `If_ObjCutSign`, the cut `If_ObjLimitCutsToTrivial` writes is signed. -/
theorem signed_ifObjLimitCutsToTrivial (ops : IfOps) (hsign : ops.objCutSign = ifObjCutSign)
    (p : IfMan) (i : Nat) :
    ∀ o ∈ (ifObjLimitCutsToTrivial ops p i).obj i, ∀ s ∈ o.pCutSet, ∀ c ∈ s.cuts, Signed c := by
  intro o ho s hs c hc
  cases hp : (p.obj i).bind IfObj.pCutSet with
  | none =>
    have hsame : ifObjLimitCutsToTrivial ops p i = p := by
      unfold ifObjLimitCutsToTrivial
      rw [hp]
    rw [hsame] at ho
    rw [Option.mem_def.mp ho, Option.some_bind, Option.mem_def.mp hs] at hp
    cases hp
  | some s0 =>
    obtain ⟨c', hset, hleaves, hsgn⟩ := ifObjLimitCutsToTrivial_sign ops hp
    rw [Option.mem_def.mp ho, Option.some_bind, Option.mem_def.mp hs] at hset
    cases hset
    rw [List.mem_singleton.mp hc, Signed, hsgn, hleaves, hsign, cutSignOf, List.foldr_cons,
      List.foldr_nil, ifObjCutSign_or_zero]

/-! ## The quick check refines the merge -/

/-- `If_CutMergeOrdered` merges only cuts with at most `nLutSize` leaves between them. -/
def MergeWithinLutSize (ops : IfOps) : Prop :=
  ∀ p c0 c1 c, ops.cutMergeOrdered p c0 c1 = some c →
    (c0.leaves.toFinset ∪ c1.leaves.toFinset).card ≤ p.nLutSize

/-- The plain engine merges within the LUT size: its merge counts the leaves of the list union. -/
theorem mergeWithinLutSize_ifOpsPlain : MergeWithinLutSize ifOpsPlain := by
  intro p c0 c1 c h
  dsimp only [ifOpsPlain] at h
  split at h
  · rw [← List.toFinset_union]
    exact (List.toFinset_card_le _).trans ‹_›
  · cases h

/-- The loop body without the quick check of line 356: the capacity assertion, the merge, the
partition check and `ifEnumAccept`. -/
def ifEnumStepWithoutPrefilter (ops : IfOps) (i : Nat) (pObj : IfObj) (objPartition : Int)
    (st : IfMan × IfSet) (pair : IfCut × IfCut) : Except MapFault (IfMan × IfSet) :=
  if st.2.nCutsMax < st.2.cuts.length then .error .setOverflow
  else
    match ops.cutMergeOrdered st.1 pair.1 pair.2 with
    | none => .ok st
    | some pCut =>
      if st.1.vPartition.isSome && decide (0 ≤ objPartition) &&
          !ifCutCheckPartition st.1 pCut objPartition then .ok st
      else .ok (ifCountMerged st.1, ifEnumAccept ops i pObj (ifCountMerged st.1) st.2 pair pCut)

section refine

variable {ops : IfOps} (hmerge : MergeWithinLutSize ops)

include hmerge

/-- A pair of signed cuts that the quick check refuses is one the merge refuses. -/
theorem cutMergeOrdered_eq_none {p : IfMan} {c0 c1 : IfCut} (h0 : Signed c0) (h1 : Signed c1)
    (hq : p.nLutSize < (ifWordCountOnes (c0.uSign ||| c1.uSign)).toNat) :
    ops.cutMergeOrdered p c0 c1 = none := by
  cases hm : ops.cutMergeOrdered p c0 c1 with
  | none => rfl
  | some c =>
    have := (ifWordCountOnes_or_le h0 h1).trans (hmerge p c0 c1 c hm)
    omega

theorem ifEnumStep_eq_withoutPrefilter (i : Nat) (pObj : IfObj) (t : Int) (st : IfMan × IfSet)
    {pair : IfCut × IfCut} (h0 : Signed pair.1) (h1 : Signed pair.2) :
    ifEnumStep ops i pObj t st pair = ifEnumStepWithoutPrefilter ops i pObj t st pair := by
  unfold ifEnumStep ifEnumStepWithoutPrefilter
  by_cases hov : st.2.nCutsMax < st.2.cuts.length
  · rw [if_pos hov, if_pos hov]
  rw [if_neg hov, if_neg hov]
  by_cases hq : st.1.nLutSize < (ifWordCountOnes (pair.1.uSign ||| pair.2.uSign)).toNat
  · rw [if_pos hq, cutMergeOrdered_eq_none hmerge h0 h1 hq]
  · exact if_neg hq

/-- Over signed pairs, the loop with the quick check runs as the loop without it. -/
theorem foldlM_ifEnumStep_eq_withoutPrefilter (i : Nat) (pObj : IfObj) (t : Int)
    (pairs : List (IfCut × IfCut)) (hsigned : ∀ pair ∈ pairs, Signed pair.1 ∧ Signed pair.2)
    (st : IfMan × IfSet) :
    pairs.foldlM (ifEnumStep ops i pObj t) st =
      pairs.foldlM (ifEnumStepWithoutPrefilter ops i pObj t) st := by
  induction pairs generalizing st with
  | nil => rfl
  | cons pair pairs ih =>
    obtain ⟨h0, h1⟩ := hsigned pair (List.mem_cons_self _ _)
    rw [List.foldlM_cons, List.foldlM_cons,
      ifEnumStep_eq_withoutPrefilter hmerge i pObj t st h0 h1]
    exact congrArg (bind _) (funext fun st' =>
      ih (fun q hq => hsigned q (List.mem_cons_of_mem _ hq)) st')

end refine

/-- The signature prefilter is sound: `If_WordCountOnes` counts the ones of every word; the
signatures of two signed cuts have no more ones than the cuts have leaves; the trivial cut of
`If_ObjLimitCutsToTrivial` is signed; so, when merging keeps to the LUT size, the quick check
refuses only pairs the merge refuses, and the loop over signed pairs runs as it would without it. -/
theorem signature_prefilter_sound :
    (∀ x : UInt32, (ifWordCountOnes x).toNat = onesOf x) ∧
    (∀ c0 c1 : IfCut, Signed c0 → Signed c1 →
      (ifWordCountOnes (c0.uSign ||| c1.uSign)).toNat ≤
        (c0.leaves.toFinset ∪ c1.leaves.toFinset).card) ∧
    (∀ ops : IfOps, ops.objCutSign = ifObjCutSign → ∀ p i,
      ∀ o ∈ (ifObjLimitCutsToTrivial ops p i).obj i, ∀ s ∈ o.pCutSet, ∀ c ∈ s.cuts, Signed c) ∧
    (∀ ops : IfOps, MergeWithinLutSize ops → ∀ p c0 c1, Signed c0 → Signed c1 →
      p.nLutSize < (ifWordCountOnes (c0.uSign ||| c1.uSign)).toNat →
        ops.cutMergeOrdered p c0 c1 = none) ∧
    (∀ ops : IfOps, MergeWithinLutSize ops → ∀ i pObj t (pairs : List (IfCut × IfCut)) st,
      (∀ pair ∈ pairs, Signed pair.1 ∧ Signed pair.2) →
        pairs.foldlM (ifEnumStep ops i pObj t) st =
          pairs.foldlM (ifEnumStepWithoutPrefilter ops i pObj t) st) :=
  ⟨toNat_ifWordCountOnes, fun _ _ => ifWordCountOnes_or_le, signed_ifObjLimitCutsToTrivial,
    fun _ hmerge _ _ _ h0 h1 hq => cutMergeOrdered_eq_none hmerge h0 h1 hq,
    fun _ hmerge i pObj t pairs st hsigned =>
      foldlM_ifEnumStep_eq_withoutPrefilter hmerge i pObj t pairs hsigned st⟩

/-- On a manager with LUTs of two inputs, the signed cuts {1, 2} and {3} count three ones: the
quick check refuses them, and the plain engine's merge refuses them too. -/
theorem quick_check_refuses_three_leaves :
    MergeWithinLutSize ifOpsPlain ∧ Signed ⟨[1, 2], cutSignOf [1, 2], 0, 0⟩ ∧
      Signed ⟨[3], cutSignOf [3], 0, 0⟩ ∧
      (2 : Nat) < (ifWordCountOnes (cutSignOf [1, 2] ||| cutSignOf [3])).toNat ∧
      ifOpsPlain.cutMergeOrdered ⟨[], none, none, none, 0, 2, 8, false, false, 0, 0, 0⟩
        ⟨[1, 2], cutSignOf [1, 2], 0, 0⟩ ⟨[3], cutSignOf [3], 0, 0⟩ = none :=
  ⟨mergeWithinLutSize_ifOpsPlain, rfl, rfl, by decide,
    signature_prefilter_sound.2.2.2.1 ifOpsPlain mergeWithinLutSize_ifOpsPlain _ _ _ rfl rfl
      (by decide)⟩

end abc_partition.signature
