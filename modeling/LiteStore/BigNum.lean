-- Signed Big Num arithmetic (exp/exp_bignum.cpp): sign and magnitude, the sign
-- the top bit of the last byte. BigNum::add, sub, mul and div clear the sign
-- bits of their operands, work on the magnitudes and put the signs back.
import LiteStore.BigNumDivision

namespace litestore

open limbs List

/-! ## The model -/

/-- A change of the top short. -/
def onTop (f : UInt16 → UInt16) : List UInt16 → List UInt16
  | [] => []
  | [d] => [f d]
  | d :: e :: ds => d :: onTop f (e :: ds)

/-- `BIGN_GET_SIGN` -/
def getSign (ds : List UInt16) : Bool := ds.getLastD 0 &&& 0x8000 ≠ 0

/-- `BIGN_CLR_SIGN` -/
def clrSign : List UInt16 → List UInt16 := onTop (· &&& 0x7FFF)

/-- `BIGN_SET_SIGN` -/
def setSign : List UInt16 → List UInt16 := onTop (· ||| 0x8000)

/-- The integer that the shorts of a signed Big Num stand for. -/
def signedValue (ds : List UInt16) : Int :=
  if getSign ds then -(value (clrSign ds) : Int) else value (clrSign ds)

/-- The areas of `op_data`: the result and the two operands. -/
structure OpData where
  result : List UInt16
  left : List UInt16
  right : List UInt16
deriving DecidableEq, Repr

/-- The step that resets the sign bit of an operand. -/
def resetSign (sign : Bool) (ds : List UInt16) : List UInt16 := if sign then setSign ds else ds

/-- The step that sets or clears the sign bit of the result. -/
def signResult (negative : Bool) (ds : List UInt16) : List UInt16 :=
  if negative then setSign ds else clrSign ds

def BigNum.add (isUnsigned : Bool) (data : OpData) : Int × OpData :=
  let leftSign := getSign data.left
  let rightSign := getSign data.right
  let left := clrSign data.left
  let right := clrSign data.right
  let done : Int × List UInt16 :=
    if !isUnsigned && (leftSign || rightSign) then
      if !leftSign && rightSign then subHelper left right
      else if leftSign && !rightSign then subHelper right left
      else (1, addHelper left right)
    else (0, addHelper left right)
  (0, ⟨signResult (done.1 ≠ 0) done.2, resetSign leftSign left, resetSign rightSign right⟩)

def BigNum.sub (isUnsigned : Bool) (data : OpData) : Int × OpData :=
  let leftSign := getSign data.left
  let rightSign := getSign data.right
  let left := clrSign data.left
  let right := clrSign data.right
  let done : Int × List UInt16 :=
    if !isUnsigned && (leftSign || rightSign) then
      if !leftSign then (0, addHelper left right)
      else if !rightSign then (1, addHelper left right)
      else subHelper right left
    else subHelper left right
  (0, ⟨signResult (done.1 ≠ 0) done.2, resetSign leftSign left, resetSign rightSign right⟩)

def BigNum.mul (data : OpData) : Int × OpData :=
  let leftSign := getSign data.left
  let rightSign := getSign data.right
  let left := clrSign data.left
  let right := clrSign data.right
  let result := mulHelper data.result.length left right
  (0, ⟨signResult (leftSign ≠ rightSign) result, resetSign leftSign left,
    resetSign rightSign right⟩)

/-- The helpers write one quotient short for each short of the dividend, over what the
result area held. -/
def writeQuotient (quotient result : List UInt16) : List UInt16 :=
  quotient.take result.length ++ result.drop quotient.length

def BigNum.div (data : OpData) : Int × OpData :=
  let leftSign := getSign data.left
  let rightSign := getSign data.right
  let left := clrSign data.left
  let right := clrSign data.right
  let divisor := trim right
  if divisor.length = 0 then
    (-1, ⟨data.result, resetSign leftSign left, resetSign rightSign right⟩)
  else
    let quotient :=
      if divisor.length = 1 then (simpleDivHelper left divisor).2 else (divHelper left divisor).2
    (0, ⟨signResult (leftSign ≠ rightSign) (writeQuotient quotient data.result),
      resetSign leftSign left, resetSign rightSign right⟩)

/-! ## The sign bit -/

section

variable (f : UInt16 → UInt16) (low : List UInt16) (d : UInt16) (ds : List UInt16)

theorem onTop_append {es : List UInt16} (h : es ≠ []) : onTop f (ds ++ es) = ds ++ onTop f es := by
  induction ds with
  | nil => rfl
  | cons d ds ih =>
    obtain ⟨e, rest, hrest⟩ : ∃ e rest, ds ++ es = e :: rest :=
      exists_cons_of_ne_nil (by simp [h])
    rw [cons_append, cons_append, ← ih, hrest]
    rfl

@[simp] theorem onTop_concat :
    onTop f (low ++ [d]) = low ++ [f d] := onTop_append f low (cons_ne_nil d [])

@[simp] theorem onTop_length : (onTop f ds).length = ds.length := by
  fun_induction onTop f ds with
  | case1 => rfl
  | case2 => rfl
  | case3 d e ds ih => simp [ih]

@[simp] theorem clrSign_length : (clrSign ds).length = ds.length :=
  onTop_length _ ds

@[simp] theorem setSign_length : (setSign ds).length = ds.length :=
  onTop_length _ ds

@[simp] theorem clrSign_concat :
    clrSign (low ++ [d]) = low ++ [d &&& 0x7FFF] := onTop_concat _ low d

@[simp] theorem setSign_concat :
    setSign (low ++ [d]) = low ++ [d ||| 0x8000] := onTop_concat _ low d

theorem getSign_concat : getSign (low ++ [d]) = decide (32768 ≤ d.toNat) := by
  rw [getSign, getLastD_concat]
  simp only [ne_eq, top_clear_iff, Nat.not_lt]

/-- Clearing the sign bit and putting it back changes nothing. -/
theorem resetSign_clrSign : resetSign (getSign ds) (clrSign ds) = ds := by
  rcases eq_or_ne ds [] with rfl | h
  · rfl
  obtain ⟨low, d, rfl⟩ := exists_concat h
  have hd := d.toNat_lt
  rw [getSign_concat, clrSign_concat, resetSign]
  split_ifs with htop
  · have htop := of_decide_eq_true htop
    rw [setSign_concat]
    congr 2
    rw [← UInt16.toNat_inj, toNat_set_top, toNat_clear_top]
    omega
  · have htop : ¬ 32768 ≤ d.toNat := fun h => htop (decide_eq_true h)
    congr 2
    rw [← UInt16.toNat_inj, toNat_clear_top]
    omega

end

/-- The bits below the sign bit. -/
theorem two_pow_bits (n : Nat) : 2 ^ (16 * (n + 1) - 1) = 65536 ^ n * 32768 := by
  rw [show 16 * (n + 1) - 1 = 16 * n + 15 by omega, pow_add, pow_mul]
  rfl

theorem two_pow_bits_le (n : Nat) : 2 ^ (16 * n - 1) ≤ 65536 ^ n := by
  rw [show (65536 : Nat) = 2 ^ 16 by decide, ← pow_mul]
  exact Nat.pow_le_pow_right (by decide) (Nat.sub_le _ _)

variable {ds : List UInt16}

theorem clrSign_lt (h : ds ≠ []) : value (clrSign ds) < 2 ^ (16 * ds.length - 1) := by
  obtain ⟨low, d, rfl⟩ := exists_concat h
  have hlow := value_lt low
  have hmod := Nat.mod_lt d.toNat (show 32768 > 0 by decide)
  rw [length_append, length_singleton, two_pow_bits, clrSign_concat, value_append,
    value_cons, value_nil, toNat_clear_top, Nat.mul_zero, Nat.add_zero]
  calc value low + 65536 ^ low.length * (d.toNat % 32768)
      < 65536 ^ low.length + 65536 ^ low.length * (d.toNat % 32768) := by omega
    _ = 65536 ^ low.length * (d.toNat % 32768 + 1) := by ring
    _ ≤ 65536 ^ low.length * 32768 := Nat.mul_le_mul_left _ hmod

/-- A magnitude that leaves the sign bit free is not changed by clearing it. -/
theorem value_clrSign (h : value ds < 2 ^ (16 * ds.length - 1)) :
    value (clrSign ds) = value ds := by
  rcases eq_or_ne ds [] with rfl | hne
  · rfl
  obtain ⟨low, d, rfl⟩ := exists_concat hne
  rw [length_append, length_singleton, two_pow_bits, value_append, value_cons,
    value_nil, Nat.mul_zero, Nat.add_zero] at h
  have hd : d.toNat < 32768 := by
    by_contra hge
    have := Nat.mul_le_mul_left (65536 ^ low.length) (Nat.not_lt.mp hge)
    omega
  simp only [clrSign_concat, value_append, value_cons, value_nil, toNat_clear_top,
    Nat.mod_eq_of_lt hd]

theorem clrSign_of_fits (h : value ds < 2 ^ (16 * ds.length - 1)) :
    clrSign ds = ds := value_inj (clrSign_length ds) (value_clrSign h)

theorem signedValue_signResult (negative : Bool) (h : ds ≠ []) :
    signedValue (signResult negative ds) =
      if negative then -(value (clrSign ds) : Int) else value (clrSign ds) := by
  obtain ⟨low, d, rfl⟩ := exists_concat h
  have hmod := Nat.mod_lt d.toNat (show 32768 > 0 by decide)
  unfold signedValue signResult
  cases negative with
  | false =>
    simp only [Bool.false_eq_true, if_false, clrSign_concat, getSign_concat, toNat_clear_top,
      value_append, value_cons, Nat.mod_mod, decide_eq_true_eq]
    rw [if_neg (by omega)]
  | true =>
    simp only [if_true, setSign_concat, clrSign_concat, getSign_concat, toNat_set_top,
      toNat_clear_top, value_append, value_cons, decide_eq_true_eq]
    rw [if_pos (by omega), Nat.add_mod_right, Nat.mod_mod]

/-! ## The results are exact -/

/-- A successful operation with this result, after which the operands are as before. -/
structure Computes (run : Int × OpData) (data : OpData) (x : Int) : Prop where
  code : run.1 = 0
  left : run.2.left = data.left
  right : run.2.right = data.right
  result : signedValue run.2.result = x

/-- The magnitude leaves the sign bit of so many shorts free. -/
def FitsShorts (shorts : Nat) (x : Int) : Prop := x.natAbs < 2 ^ (16 * shorts - 1)

instance (shorts : Nat) (x : Int) : Decidable (FitsShorts shorts x) :=
  inferInstanceAs (Decidable (_ < _))

theorem signedValue_of_fits {negative : Bool} (h : ds ≠ [])
    (hfits : value ds < 2 ^ (16 * ds.length - 1)) :
    signedValue (signResult negative ds) =
      if negative then -(value ds : Int) else value ds := by
  rw [signedValue_signResult negative h, value_clrSign hfits]

section Operations

variable {left right : List UInt16}

/-- The signed sum of two magnitudes of one sign. -/
theorem signed_addHelper (negative : Bool) (hne : left ≠ []) (hlen : left.length = right.length)
    (hfits : value left + value right < 2 ^ (16 * left.length - 1)) :
    signedValue (signResult negative (addHelper left right)) =
      if negative then -((value left : Int) + value right) else value left + value right := by
  have hrlen : (addHelper left right).length = left.length := by
    rw [addHelper, addDigits_length, hlen, Nat.min_self]
  have hvalue : value (addHelper left right) = value left + value right := by
    rw [addHelper, addDigits_value 0 left right hlen, Nat.add_zero,
      Nat.mod_eq_of_lt (hfits.trans_le (two_pow_bits_le _))]
  have hrne : addHelper left right ≠ [] := by
    rw [← length_pos_iff, hrlen]
    exact length_pos_of_ne_nil hne
  rw [signedValue_of_fits hrne (by rw [hvalue, hrlen]; exact hfits), hvalue, Nat.cast_add]

/-- The signed difference of two magnitudes. -/
theorem signed_subHelper (hne : left ≠ []) (hlen : left.length = right.length)
    (hl : value left < 2 ^ (16 * left.length - 1))
    (hr : value right < 2 ^ (16 * left.length - 1)) :
    signedValue (signResult ((subHelper left right).1 ≠ 0) (subHelper left right).2) =
      (value left : Int) - value right := by
  have hrlen := subHelper_length hlen
  have hrne : (subHelper left right).2 ≠ [] := by
    rw [← length_pos_iff, hrlen]
    exact length_pos_of_ne_nil hne
  rcases Nat.lt_or_ge (value left) (value right) with hlt | hge
  · obtain ⟨hcode, hvalue⟩ := subHelper_of_lt hlen hlt
    rw [signedValue_of_fits hrne (by rw [hvalue, hrlen]; omega), hcode, hvalue]
    simp only [ne_eq, Int.neg_eq_zero, one_ne_zero, not_false_eq_true, decide_true, if_true]
    omega
  · obtain ⟨hcode, hvalue⟩ := subHelper_of_le hlen hge
    rw [signedValue_of_fits hrne (by rw [hvalue, hrlen]; omega), hcode, hvalue]
    simp only [ne_eq, not_true_eq_false, decide_false, Bool.false_eq_true, if_false]
    omega

end Operations

/-- Operands and result of one length, as sum and difference take them. -/
structure Aligned (data : OpData) : Prop where
  result_ne_nil : data.result ≠ []
  left_length : data.left.length = data.result.length
  right_length : data.right.length = data.result.length

variable {data : OpData}

theorem Aligned.magnitudes (h : Aligned data) :
    clrSign data.left ≠ [] ∧ clrSign data.right ≠ [] ∧
      (clrSign data.left).length = data.result.length ∧
      (clrSign data.right).length = data.result.length ∧
      value (clrSign data.left) < 2 ^ (16 * data.result.length - 1) ∧
      value (clrSign data.right) < 2 ^ (16 * data.result.length - 1) := by
  have hpos := length_pos_of_ne_nil h.result_ne_nil
  have hl : data.left ≠ [] := length_pos_iff.mp (h.left_length ▸ hpos)
  have hr : data.right ≠ [] := length_pos_iff.mp (h.right_length ▸ hpos)
  have hlt := clrSign_lt hl
  have hrt := clrSign_lt hr
  rw [h.left_length] at hlt
  rw [h.right_length] at hrt
  refine ⟨?_, ?_, (clrSign_length _).trans h.left_length, (clrSign_length _).trans h.right_length,
    hlt, hrt⟩
  · rw [← length_pos_iff, clrSign_length, h.left_length]
    exact hpos
  · rw [← length_pos_iff, clrSign_length, h.right_length]
    exact hpos

theorem BigNum.add_computes (h : Aligned data)
    (hfits : FitsShorts data.result.length (signedValue data.left + signedValue data.right)) :
    Computes (BigNum.add false data) data (signedValue data.left + signedValue data.right) := by
  refine ⟨rfl, resetSign_clrSign _, resetSign_clrSign _, ?_⟩
  obtain ⟨hlne, hrne, hllen, hrlen, hl, hr⟩ := h.magnitudes
  simp only [BigNum.add, signedValue.eq_def data.left, signedValue.eq_def data.right, FitsShorts]
    at hfits ⊢
  generalize clrSign data.left = left at *
  generalize clrSign data.right = right at *
  rw [← hllen] at hfits hl hr
  have hlen := hllen.trans hrlen.symm
  generalize getSign data.left = leftSign at hfits ⊢
  generalize getSign data.right = rightSign at hfits ⊢
  cases leftSign <;> cases rightSign
  · simp only [Bool.false_eq_true, if_false] at hfits
    simpa using signed_addHelper false hlne hlen (by omega)
  · have := signed_subHelper hlne hlen hl hr
    simpa [sub_eq_add_neg] using this
  · have := signed_subHelper hrne hlen.symm (by rwa [← hlen]) (by rwa [← hlen])
    simpa [sub_eq_add_neg, add_comm] using this
  · simp only [if_true] at hfits
    simpa [add_comm] using signed_addHelper true hlne hlen (by omega)

theorem BigNum.sub_computes (h : Aligned data)
    (hfits : FitsShorts data.result.length (signedValue data.left - signedValue data.right)) :
    Computes (BigNum.sub false data) data (signedValue data.left - signedValue data.right) := by
  refine ⟨rfl, resetSign_clrSign _, resetSign_clrSign _, ?_⟩
  obtain ⟨hlne, hrne, hllen, hrlen, hl, hr⟩ := h.magnitudes
  simp only [BigNum.sub, signedValue.eq_def data.left, signedValue.eq_def data.right, FitsShorts]
    at hfits ⊢
  generalize clrSign data.left = left at *
  generalize clrSign data.right = right at *
  rw [← hllen] at hfits hl hr
  have hlen := hllen.trans hrlen.symm
  generalize getSign data.left = leftSign at hfits ⊢
  generalize getSign data.right = rightSign at hfits ⊢
  cases leftSign <;> cases rightSign
  · have := signed_subHelper hlne hlen hl hr
    simpa using this
  · simp only [Bool.false_eq_true, if_false, if_true] at hfits
    simpa using signed_addHelper false hlne hlen (by omega)
  · simp only [Bool.false_eq_true, if_false, if_true] at hfits
    simpa [sub_eq_add_neg, add_comm] using signed_addHelper true hlne hlen (by omega)
  · have := signed_subHelper hrne hlen.symm (by rwa [← hlen]) (by rwa [← hlen])
    simpa [sub_eq_add_neg, add_comm] using this

theorem natAbs_signedValue (ds : List UInt16) : (signedValue ds).natAbs = value (clrSign ds) := by
  unfold signedValue
  split <;> omega

theorem BigNum.mul_computes (hne : data.result ≠ [])
    (hfits : FitsShorts data.result.length (signedValue data.left * signedValue data.right)) :
    Computes (BigNum.mul data) data (signedValue data.left * signedValue data.right) := by
  refine ⟨rfl, resetSign_clrSign _, resetSign_clrSign _, ?_⟩
  rw [FitsShorts, Int.natAbs_mul, natAbs_signedValue, natAbs_signedValue] at hfits
  have hvalue := mulHelper_value (hfits.trans_le (two_pow_bits_le _))
  have hlen := mulHelper_length data.result.length (clrSign data.left) (clrSign data.right)
  have hrne : mulHelper data.result.length (clrSign data.left) (clrSign data.right) ≠ [] := by
    rw [← length_pos_iff, hlen]
    exact length_pos_of_ne_nil hne
  simp only [BigNum.mul]
  rw [signedValue_of_fits hrne (by rw [hvalue, hlen]; exact hfits), hvalue,
    signedValue.eq_def data.left, signedValue.eq_def data.right]
  cases getSign data.left <;> cases getSign data.right <;> simp

/-! ## Quotients -/

/-- The quotient of the magnitudes, in as many shorts as the dividend has. -/
theorem quotient_spec {left right : List UInt16} (hne : value right ≠ 0) :
    let quotient := if (trim right).length = 1 then (simpleDivHelper left (trim right)).2
      else (divHelper left (trim right)).2
    value quotient = value left / value right ∧ quotient.length = left.length := by
  have htrim : trim right ≠ [] := fun h => hne (trim_eq_nil_iff.mp h)
  have htop := getLastD_trim_ne htrim
  have hvalue := value_trim right
  dsimp only
  split
  · rename_i hone
    obtain ⟨d, hd⟩ := length_eq_one_iff.mp hone
    rw [hd] at htop hvalue ⊢
    have hdne : d ≠ 0 := htop
    rw [value_cons, value_nil, Nat.mul_zero, Nat.add_zero] at hvalue
    rw [← hvalue]
    exact ⟨(simpleDivHelper_spec hdne left).2, simpleDivide_length d left⟩
  · rename_i hmany
    have hpos := length_pos_of_ne_nil htrim
    have hlong : LongDivisor (trim right) := ⟨by omega, htop⟩
    rw [← hvalue]
    obtain ⟨hquot, -, -, hlen⟩ := divideLoop_divides hlong left
    exact ⟨hquot, hlen⟩

/-- A quotient that fits its result area stands there exactly when the shorts of the area
above the dividend's length were zero. -/
theorem value_writeQuotient_iff {quotient result : List UInt16}
    (hfits : value quotient < 2 ^ (16 * result.length - 1)) :
    value (clrSign (writeQuotient quotient result)) = value quotient ↔
      value (clrSign (result.drop quotient.length)) = 0 := by
  rw [writeQuotient]
  rcases Nat.lt_or_ge quotient.length result.length with hshort | hlong
  · have hdrop : result.drop quotient.length ≠ [] := by
      rw [← length_pos_iff, length_drop]
      omega
    rw [take_of_length_le hshort.le, clrSign, onTop_append _ _ hdrop, value_append,
      Nat.add_eq_left, Nat.mul_eq_zero, or_iff_right (by positivity)]
  · have htake : value (quotient.take result.length) = value quotient := by
      rw [(value_take_drop _ _).1, Nat.mod_eq_of_lt (hfits.trans_le (two_pow_bits_le _))]
    rw [drop_of_length_le hlong, append_nil]
    rw [value_clrSign (by rwa [htake, length_take_of_le hlong]), htake]
    exact iff_of_true rfl rfl

/-- A zero divisor fails, and leaves everything as it was. -/
theorem BigNum.div_zero (hzero : signedValue data.right = 0) : BigNum.div data = (-1, data) := by
  have hvalue : value (clrSign data.right) = 0 := by
    rw [← natAbs_signedValue, hzero, Int.natAbs_zero]
  simp only [BigNum.div, trim_eq_nil_iff.mpr hvalue, length_nil, if_true, resetSign_clrSign]

theorem trim_clrSign_ne {x : List UInt16} (hx : signedValue x ≠ 0) :
    value (clrSign x) ≠ 0 ∧ (trim (clrSign x)).length ≠ 0 := by
  rw [← Int.natAbs_ne_zero, natAbs_signedValue] at hx
  exact ⟨hx, fun h => hx (trim_eq_nil_iff.mp (length_eq_zero_iff.mp h))⟩

theorem BigNum.div_operands (hzero : signedValue data.right ≠ 0) :
    (BigNum.div data).1 = 0 ∧ (BigNum.div data).2.left = data.left ∧
      (BigNum.div data).2.right = data.right := by
  obtain ⟨hvalue, hlen⟩ := trim_clrSign_ne hzero
  simp only [BigNum.div, if_neg hlen, resetSign_clrSign, and_self]

theorem BigNum.div_result_iff (hne : data.result ≠ []) (hzero : signedValue data.right ≠ 0)
    (hfits : FitsShorts data.result.length ((signedValue data.left).tdiv (signedValue data.right))) :
    signedValue (BigNum.div data).2.result =
        (signedValue data.left).tdiv (signedValue data.right) ↔
      value (clrSign (data.result.drop data.left.length)) = 0 := by
  obtain ⟨hvalue, hlen⟩ := trim_clrSign_ne hzero
  rw [FitsShorts, Int.natAbs_tdiv, natAbs_signedValue, natAbs_signedValue] at hfits
  obtain ⟨hquot, hqlen⟩ := @quotient_spec (clrSign data.left) _ hvalue
  simp only [BigNum.div, if_neg hlen]
  generalize (if (trim (clrSign data.right)).length = 1
    then (simpleDivHelper (clrSign data.left) (trim (clrSign data.right))).2
    else (divHelper (clrSign data.left) (trim (clrSign data.right))).2) = quotient at hquot hqlen ⊢
  rw [clrSign_length] at hqlen
  have hwne : writeQuotient quotient data.result ≠ [] := by
    rw [← length_pos_iff, writeQuotient, length_append, length_take,
      length_drop]
    have := length_pos_of_ne_nil hne
    omega
  rw [← hqlen, ← value_writeQuotient_iff (hquot ▸ hfits), hquot,
    signedValue_signResult _ hwne, signedValue.eq_def data.left, signedValue.eq_def data.right]
  generalize value (clrSign (writeQuotient quotient data.result)) = written
  have hdiv : ((value (clrSign data.left) : Int)).tdiv (value (clrSign data.right)) =
      ((value (clrSign data.left) / value (clrSign data.right) : Nat) : Int) := rfl
  cases getSign data.left <;> cases getSign data.right <;>
    simp [Int.neg_tdiv, Int.tdiv_neg, hdiv] <;> omega

end litestore
