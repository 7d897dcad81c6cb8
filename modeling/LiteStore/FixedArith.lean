-- 64-bit arithmetic with overflow (exp/exp_arith.cpp): EXP_FIXED_ARITH_OV_OPER
-- casts both operands to 16-byte Big Nums, computes there and converts back.
import LiteStore.BigNum

namespace litestore

open limbs

/-! ## The model -/

/-- The four shorts of a 64-bit word in memory. -/
def shortsOf (word : UInt64) : List UInt16 :=
  [word.toUInt16, (word >>> 16).toUInt16, (word >>> 32).toUInt16, (word >>> 48).toUInt16]

/-- `ConvInt64ToBigNumWithSignHelper` for a signed source. The negated smallest integer is
itself, and its bits are its magnitude. -/
def convInt64ToBigNum (shorts : Nat) (source : Int64) : List UInt16 :=
  let magnitude := if source < 0 then -source else source
  let target := shortsOf magnitude.toUInt64 ++ List.replicate (shorts - 4) 0
  if source < 0 then setSign target else target

/-- `ConvBigNumWithSignToInt64Helper` for a signed target. -/
def convBigNumToInt64 (source : List UInt16) : Option Int64 :=
  let magnitude := clrSign source
  if trim (magnitude.drop 4) ≠ [] then none
  else
    let target := (UInt64.ofNat (value (magnitude.take 4))).toInt64
    if !getSign source then
      if 0 ≤ target then some target else none
    else if 0 ≤ target then some (-target)
    else if target = Int64.minValue then some target
    else none

/-- The operations of `EXP_FIXED_ARITH_OV_OPER`. -/
inductive FixedOper where
  | plus
  | minus
  | times
  | divide
deriving DecidableEq, Repr

/-- The operation on Big Nums. -/
def FixedOper.run : FixedOper → OpData → Int × OpData
  | .plus, data => BigNum.add false data
  | .minus, data => BigNum.sub false data
  | .times, data => BigNum.mul data
  | .divide, data => BigNum.div data

/-- The length of the temporary Big Nums, in shorts. -/
def bigNumTempShorts : Nat := 8

/-- `EXP_FIXED_ARITH_OV_OPER`: the returned value and the overflow flag. The result area is on
the stack and holds whatever was there. -/
def expFixedArithOvOper (oper : FixedOper) (area : List UInt16) (op1 op2 : Int64) :
    Int64 × Bool :=
  let done := oper.run ⟨area, convInt64ToBigNum bigNumTempShorts op1,
    convInt64ToBigNum bigNumTempShorts op2⟩
  if done.1 ≠ 0 then (-1, true)
  else
    match convBigNumToInt64 done.2.result with
    | none => (-1, true)
    | some result => (result, false)

/-! ## The conversions -/

theorem shortsOf_value (word : UInt64) : value (shortsOf word) = word.toNat := by
  have hlt := word.toNat_lt
  simp only [shortsOf, value_cons, value_nil, UInt64.toNat_toUInt16, UInt64.toNat_shiftRight,
    UInt64.reduceToNat, Nat.reduceMod, Nat.shiftRight_eq_div_pow]
  omega

theorem convInt64ToBigNum_length (source : Int64) :
    (convInt64ToBigNum bigNumTempShorts source).length = 8 := by
  unfold convInt64ToBigNum
  dsimp only
  split <;> simp [shortsOf, bigNumTempShorts]

theorem int64Bits_eq_emod (x : Int64) : (x.toUInt64.toNat : Int) = x.toInt % 2 ^ 64 := by
  have hlt := x.toBitVec.isLt
  change (x.toBitVec.toNat : Int) = x.toBitVec.toInt % 2 ^ 64
  rw [BitVec.toInt_eq_toNat_cond]
  split <;> omega

theorem toInt_int64Bits {n : Nat} (h : n < 2 ^ 64) :
    ((UInt64.ofNat n).toInt64).toInt = if n < 2 ^ 63 then (n : Int) else n - 2 ^ 64 := by
  change (BitVec.ofNat 64 n).toInt = _
  rw [BitVec.toInt_eq_toNat_cond, BitVec.toNat_ofNat, Nat.mod_eq_of_lt h]
  split <;> split <;> omega

/-- The stored magnitude is the absolute value, also for the smallest integer. -/
theorem magnitude_toNat (source : Int64) :
    (if source < 0 then -source else source).toUInt64.toNat = source.toInt.natAbs := by
  have hlo := source.le_toInt
  have hhi := source.toInt_lt
  rw [← Int.natCast_inj, int64Bits_eq_emod]
  split
  · rename_i hneg
    have hneg : source.toInt < 0 := Int64.lt_iff_toInt_lt.mp hneg
    have hmod : (-source).toInt % 2 ^ 64 = (-source.toInt) % 2 ^ 64 := by
      rw [Int64.toInt_neg]
      exact Int.bmod_emod
    rw [hmod]
    omega
  · rename_i hpos
    have hpos : ¬ source.toInt < 0 := fun h => hpos (Int64.lt_iff_toInt_lt.mpr h)
    omega

theorem convInt64ToBigNum_value (source : Int64) :
    signedValue (convInt64ToBigNum bigNumTempShorts source) = source.toInt := by
  have hlo := source.le_toInt
  have hhi := source.toInt_lt
  have hmag := magnitude_toNat source
  have hvalue := shortsOf_value (if source < 0 then -source else source).toUInt64
  have hlen : (shortsOf (if source < 0 then -source else source).toUInt64).length = 4 := rfl
  unfold convInt64ToBigNum
  dsimp only
  generalize shortsOf (if source < 0 then -source else source).toUInt64 = shorts at *
  generalize htarget : shorts ++ List.replicate (bigNumTempShorts - 4) (0 : UInt16) = target
  have htlen : target.length = 8 := by simp [← htarget, hlen, bigNumTempShorts]
  have htvalue : value target = source.toInt.natAbs := by
    rw [← htarget, value_append, value_replicate_zero, hvalue, hmag, Nat.mul_zero, Nat.add_zero]
  have htne : target ≠ [] := by
    rw [← List.length_pos_iff, htlen]
    decide
  have hfits : value target < 2 ^ (16 * target.length - 1) := by
    rw [htvalue, htlen]
    omega
  split
  · rename_i hneg
    have hneg : source.toInt < 0 := Int64.lt_iff_toInt_lt.mp hneg
    have hset := @signedValue_of_fits target true htne hfits
    rw [signResult, if_pos rfl, if_pos rfl, htvalue] at hset
    rw [hset]
    omega
  · rename_i hpos
    have hpos : ¬ source.toInt < 0 := fun h => hpos (Int64.lt_iff_toInt_lt.mpr h)
    have hclear := @signedValue_of_fits target false htne hfits
    rw [signResult, if_neg Bool.false_ne_true, if_neg Bool.false_ne_true, htvalue,
      clrSign_of_fits hfits] at hclear
    rw [hclear]
    omega

theorem convBigNumToInt64_spec (source : List UInt16) :
    convBigNumToInt64 source =
      if -2 ^ 63 ≤ signedValue source ∧ signedValue source < 2 ^ 63
        then some (Int64.ofInt (signedValue source)) else none := by
  have hsigned := signedValue.eq_def source
  unfold convBigNumToInt64
  dsimp only
  generalize clrSign source = magnitude at *
  generalize getSign source = sign at *
  obtain ⟨htake, hdrop⟩ := value_take_drop magnitude 4
  split
  · -- a short above the fourth is set
    rename_i hlong
    have hlarge : value (magnitude.drop 4) ≠ 0 := fun h => hlong (trim_eq_nil_iff.mpr h)
    rw [hdrop] at hlarge
    rw [if_neg]
    cases sign <;> simp only [Bool.false_eq_true, if_false, if_true] at hsigned <;> omega
  · rename_i hfour
    have hsmall : value (magnitude.drop 4) = 0 := trim_eq_nil_iff.mp (not_not.mp hfour)
    rw [hdrop] at hsmall
    have hlt : value (magnitude.take 4) < 2 ^ 64 := by omega
    have hbits := toInt_int64Bits hlt
    have hmag : value (magnitude.take 4) = value magnitude := by omega
    rw [hmag] at hlt hbits ⊢
    generalize (UInt64.ofNat (value magnitude)).toInt64 = target at *
    have hnonneg : (0 : Int64) ≤ target ↔ value magnitude < 2 ^ 63 := by
      rw [Int64.le_iff_toInt_le, hbits]
      change (0 : Int) ≤ _ ↔ _
      split <;> omega
    cases sign with
    | false =>
      rw [if_neg Bool.false_ne_true] at hsigned
      rw [Bool.not_false, if_pos rfl, hsigned]
      split
      · rename_i hpos
        have hv := hnonneg.mp hpos
        rw [if_pos hv] at hbits
        rw [if_pos (by omega), ← hbits, Int64.ofInt_toInt]
      · rename_i hneg
        have hv : ¬ value magnitude < 2 ^ 63 := fun h => hneg (hnonneg.mpr h)
        rw [if_neg (by omega)]
    | true =>
      rw [if_pos rfl] at hsigned
      rw [Bool.not_true, if_neg Bool.false_ne_true, hsigned]
      split
      · rename_i hpos
        have hv := hnonneg.mp hpos
        rw [if_pos hv] at hbits
        rw [if_pos (by omega), ← hbits, Int64.ofInt_neg, Int64.ofInt_toInt]
      rename_i hneg
      have hv : ¬ value magnitude < 2 ^ 63 := fun h => hneg (hnonneg.mpr h)
      rw [if_neg hv] at hbits
      split
      · rename_i hmin
        rw [hmin, Int64.toInt_minValue] at hbits
        rw [if_pos (by omega), hmin, show -(value magnitude : Int) = Int64.minValue.toInt by
          rw [Int64.toInt_minValue]; omega, Int64.ofInt_toInt]
      · rename_i hmin
        have hne : target.toInt ≠ Int64.minValue.toInt := fun h => hmin (Int64.toInt_inj.mp h)
        rw [Int64.toInt_minValue, hbits] at hne
        rw [if_neg (by omega)]

/-! ## The results -/

/-- The exact result, where there is one. -/
def FixedOper.exact : FixedOper → Int → Int → Option Int
  | .plus, a, b => some (a + b)
  | .minus, a, b => some (a - b)
  | .times, a, b => some (a * b)
  | .divide, a, b => if b = 0 then none else some (a.tdiv b)

theorem FixedOper.run_exact (oper : FixedOper) {data : OpData} {a b : Int64}
    (h : Aligned data) (hlen : data.result.length = bigNumTempShorts)
    (hleft : signedValue data.left = a.toInt) (hright : signedValue data.right = b.toInt) :
    (∀ x, oper.exact a.toInt b.toInt = some x → Computes (oper.run data) data x) ∧
      (oper.exact a.toInt b.toInt = none → (oper.run data).1 = -1) := by
  have halo := a.le_toInt
  have hahi := a.toInt_lt
  have hblo := b.le_toInt
  have hbhi := b.toInt_lt
  have hfits : ∀ x : Int, x.natAbs ≤ 2 ^ 126 → FitsShorts data.result.length x := by
    intro x hx
    rw [FitsShorts, hlen, bigNumTempShorts]
    omega
  cases oper with
  | plus =>
    refine ⟨fun x hx => ?_, fun hx => absurd hx (by simp [FixedOper.exact])⟩
    obtain rfl : a.toInt + b.toInt = x := Option.some_inj.mp hx
    rw [← hleft, ← hright]
    refine BigNum.add_computes h (hfits _ ?_)
    omega
  | minus =>
    refine ⟨fun x hx => ?_, fun hx => absurd hx (by simp [FixedOper.exact])⟩
    obtain rfl : a.toInt - b.toInt = x := Option.some_inj.mp hx
    rw [← hleft, ← hright]
    refine BigNum.sub_computes h (hfits _ ?_)
    omega
  | times =>
    refine ⟨fun x hx => ?_, fun hx => absurd hx (by simp [FixedOper.exact])⟩
    obtain rfl : a.toInt * b.toInt = x := Option.some_inj.mp hx
    rw [← hleft, ← hright]
    refine BigNum.mul_computes h.result_ne_nil (hfits _ ?_)
    rw [hleft, hright, Int.natAbs_mul]
    calc a.toInt.natAbs * b.toInt.natAbs ≤ 2 ^ 63 * 2 ^ 63 :=
          Nat.mul_le_mul (by omega) (by omega)
      _ = 2 ^ 126 := by norm_num
  | divide =>
    by_cases hb : b.toInt = 0
    · refine ⟨fun x hx => absurd hx (by simp [FixedOper.exact, hb]), fun _ => ?_⟩
      rw [FixedOper.run, BigNum.div_zero (hright.trans hb)]
    · refine ⟨fun x hx => ?_, fun hx => absurd hx (by simp [FixedOper.exact, hb])⟩
      obtain rfl : a.toInt.tdiv b.toInt = x := by
        rw [FixedOper.exact, if_neg hb] at hx
        exact Option.some_inj.mp hx
      have hbne : signedValue data.right ≠ 0 := by rwa [hright]
      obtain ⟨hcode, hl, hr⟩ := BigNum.div_operands hbne
      refine ⟨hcode, hl, hr, ?_⟩
      rw [← hleft, ← hright]
      refine (BigNum.div_result_iff h.result_ne_nil hbne (hfits _ ?_)).mpr ?_
      · rw [hleft, hright, Int.natAbs_tdiv]
        exact (Nat.div_le_self _ _).trans (by omega)
      · rw [List.drop_of_length_le (by rw [h.left_length])]
        rfl

/-- A representable result is returned with the overflow flag clear, and any other sets it. -/
theorem expFixedArithOvOper_spec (oper : FixedOper) {area : List UInt16}
    (hlen : area.length = bigNumTempShorts) (op1 op2 : Int64) :
    (∀ x : Int64, oper.exact op1.toInt op2.toInt = some x.toInt →
        expFixedArithOvOper oper area op1 op2 = (x, false)) ∧
      ((∀ x : Int64, oper.exact op1.toInt op2.toInt ≠ some x.toInt) →
        (expFixedArithOvOper oper area op1 op2).2 = true) := by
  have haligned : Aligned ⟨area, convInt64ToBigNum bigNumTempShorts op1,
      convInt64ToBigNum bigNumTempShorts op2⟩ := by
    refine ⟨?_, (convInt64ToBigNum_length op1).trans hlen.symm,
      (convInt64ToBigNum_length op2).trans hlen.symm⟩
    rw [← List.length_pos_iff, hlen]
    decide
  obtain ⟨hsome, hnone⟩ := oper.run_exact haligned hlen (convInt64ToBigNum_value op1)
    (convInt64ToBigNum_value op2)
  unfold expFixedArithOvOper
  dsimp only
  constructor
  · intro x hx
    have hdone := hsome _ hx
    rw [if_neg (not_not.mpr hdone.code), convBigNumToInt64_spec, hdone.result,
      if_pos ⟨x.le_toInt, x.toInt_lt⟩, Int64.ofInt_toInt]
  · intro hx
    rcases hexact : oper.exact op1.toInt op2.toInt with - | y
    · rw [if_pos (by rw [hnone hexact]; decide)]
    · have hdone := hsome y hexact
      rw [if_neg (not_not.mpr hdone.code), convBigNumToInt64_spec, hdone.result, if_neg]
      intro hrange
      refine hx (Int64.ofInt y) ?_
      rw [Int64.toInt_ofInt_of_le hrange.1 hrange.2, hexact]

/-! ## Exactness of all the arithmetic -/

/-- Sums, differences and products that fit are exact and so are the four 64-bit operations.
A quotient is exact where the shorts of the result area above the dividend's length were zero,
and the long division reports a remainder exactly when there is one, unless the dividend is
zero and shorts of the divisor's copy are read in its place. -/
theorem big_num_arithmetic_exact_iff (data : OpData) (dividend divisor : List UInt16)
    (short : UInt16) (oper : FixedOper) (area : List UInt16) (op1 op2 : Int64) :
    (Aligned data →
      (FitsShorts data.result.length (signedValue data.left + signedValue data.right) →
        Computes (BigNum.add false data) data (signedValue data.left + signedValue data.right)) ∧
      (FitsShorts data.result.length (signedValue data.left - signedValue data.right) →
        Computes (BigNum.sub false data) data
          (signedValue data.left - signedValue data.right))) ∧
    (data.result ≠ [] →
      (FitsShorts data.result.length (signedValue data.left * signedValue data.right) →
        Computes (BigNum.mul data) data (signedValue data.left * signedValue data.right)) ∧
      (BigNum.div data).2.left = data.left ∧ (BigNum.div data).2.right = data.right ∧
      ((BigNum.div data).1 ≠ 0 ↔ signedValue data.right = 0) ∧
      (signedValue data.right ≠ 0 →
        FitsShorts data.result.length ((signedValue data.left).tdiv (signedValue data.right)) →
        (signedValue (BigNum.div data).2.result =
            (signedValue data.left).tdiv (signedValue data.right) ↔
          value (clrSign (data.result.drop data.left.length)) = 0))) ∧
    (short ≠ 0 → (simpleDivHelper dividend [short]).1 =
        if value dividend % short.toNat ≠ 0 then 1 else 0) ∧
    (LongDivisor divisor →
      ((divHelper dividend divisor).1 = (if value dividend % value divisor ≠ 0 then 1 else 0) ↔
        value dividend ≠ 0 ∨ 65536 ^ (divisor.length - (dividend.length + 1)) ∣
          divisorScale divisor * value divisor)) ∧
    (area.length = bigNumTempShorts →
      (∀ x : Int64, oper.exact op1.toInt op2.toInt = some x.toInt →
        expFixedArithOvOper oper area op1 op2 = (x, false)) ∧
      ((∀ x : Int64, oper.exact op1.toInt op2.toInt ≠ some x.toInt) →
        (expFixedArithOvOper oper area op1 op2).2 = true)) := by
  refine ⟨fun h => ⟨BigNum.add_computes h, BigNum.sub_computes h⟩,
    fun h => ⟨BigNum.mul_computes h, ?_⟩, fun h => ?_,
    fun h => divHelper_flag_right_iff h dividend,
    fun h => expFixedArithOvOper_spec oper h op1 op2⟩
  · by_cases hzero : signedValue data.right = 0
    · rw [BigNum.div_zero hzero]
      exact ⟨rfl, rfl, iff_of_true (show (-1 : Int) ≠ 0 by decide) hzero,
        fun h => absurd hzero h⟩
    · obtain ⟨hcode, hl, hr⟩ := BigNum.div_operands hzero
      exact ⟨hl, hr, iff_of_false (not_not.mpr hcode) hzero,
        fun hne hfits => BigNum.div_result_iff h hne hfits⟩
  · rw [(simpleDivHelper_spec h dividend).1, ite_not]

/-- Seven and three: the sum, the difference, the product, the quotient and the remainder flag, for
a short divisor and for a long one, and a sum of two 64-bit operands. -/
theorem seven_and_three_are_exact :
    Computes (BigNum.add false ⟨[0, 0], [7, 0], [3, 0]⟩) ⟨[0, 0], [7, 0], [3, 0]⟩ 10 ∧
    Computes (BigNum.sub false ⟨[0, 0], [7, 0], [3, 0]⟩) ⟨[0, 0], [7, 0], [3, 0]⟩ 4 ∧
    Computes (BigNum.mul ⟨[0, 0], [7, 0], [3, 0]⟩) ⟨[0, 0], [7, 0], [3, 0]⟩ 21 ∧
    signedValue (BigNum.div ⟨[0, 0], [7, 0], [3, 0]⟩).2.result = 2 ∧
    (simpleDivHelper [7] [3]).1 = 1 ∧
    (divHelper [7] [1, 0, 0x100]).1 = 1 ∧
    expFixedArithOvOper .plus (List.replicate bigNumTempShorts 0) 40 2 = (42, false) := by
  obtain ⟨hadd, hmul, hshort, hlong, h64⟩ := big_num_arithmetic_exact_iff ⟨[0, 0], [7, 0], [3, 0]⟩
    [7] [1, 0, 0x100] 3 .plus (List.replicate bigNumTempShorts 0) 40 2
  obtain ⟨hadd, hsub⟩ := hadd ⟨by decide, by decide, by decide⟩
  obtain ⟨hmul, -, -, -, hdiv⟩ := hmul (by decide)
  exact ⟨hadd (by decide +kernel), hsub (by decide +kernel), hmul (by decide +kernel),
    (hdiv (by decide +kernel) (by decide +kernel)).mpr (by decide +kernel), hshort (by decide),
    (hlong ⟨by decide, by decide⟩).mpr (.inl (by decide)), (h64 (by decide)).1 42 (by decide)⟩

/-- Zero by a divisor of three shorts leaves no remainder and one is reported; a quotient of one
short leaves the second short of its result area as it was. -/
theorem long_division_reads_stale_shorts :
    ((divHelper [0] [1, 0, 0x100]).1 = 1 ∧ value [0] % value [1, 0, 0x100] = 0) ∧
      (signedValue (BigNum.div ⟨[0, 5], [6], [3]⟩).2.result = 2 + 65536 * 5 ∧
        (signedValue [6]).tdiv (signedValue [3]) = 2) := by
  decide +kernel

end litestore
