-- Unsigned Big Num arithmetic on 16-bit digits (common/BigNumHelper.cpp):
-- AddHelper, SubHelper, MulHelper, SimpleDivHelper and DivHelper, the long
-- division that normalises its divisor to a leading byte.
import LiteStore.Lib.Limbs

namespace litestore

open limbs List

/-! ## The model

A Big Num is its unsigned shorts, the lowest first. The 32-bit temporaries of the
loops never overflow, so they are naturals here. -/

/-- The loop of `AddHelper`. -/
def addDigits : Nat → List UInt16 → List UInt16 → List UInt16
  | carry, l :: ls, r :: rs =>
    let temp := l.toNat + r.toNat + carry
    UInt16.ofNat temp :: addDigits (temp / 65536) ls rs
  | _, _, _ => []

def addHelper (left right : List UInt16) : List UInt16 := addDigits 0 left right

/-- The first loop of `SubHelper`: `-1` where the right number is larger. -/
def compareDigits : Int → List UInt16 → List UInt16 → Int
  | neg, l :: ls, r :: rs =>
    compareDigits (if r > l then -1 else if r < l then 0 else neg) ls rs
  | neg, _, _ => neg

/-- The second loop of `SubHelper`, whose carry is `0` or `-1`. -/
def subDigits : Int → List UInt16 → List UInt16 → List UInt16
  | carry, l :: ls, r :: rs =>
    let temp : Int := l.toNat - r.toNat + carry
    UInt16.ofNat (temp + 65536).toNat :: subDigits (if temp < 0 then -1 else 0) ls rs
  | _, _, _ => []

/-- The sign of the difference, and its magnitude. -/
def subHelper (left right : List UInt16) : Int × List UInt16 :=
  let neg := compareDigits 0 left right
  if neg = -1 then (neg, subDigits 0 right left) else (neg, subDigits 0 left right)

/-- The inner loop of `MulHelper` for one digit of the right operand, on the digits of
the result from the place of that digit on. -/
def mulRow (r : UInt16) : Nat → List UInt16 → List UInt16 → List UInt16
  | _, _, [] => []
  | carry, [], d :: result => if carry = 0 then d :: result else UInt16.ofNat carry :: result
  | carry, l :: ls, d :: result =>
    let temp := l.toNat * r.toNat + d.toNat + carry
    UInt16.ofNat temp :: mulRow r (temp / 65536) ls result

/-- The outer loop. The lowest digit of the result is final after its row. -/
def mulRows (left : List UInt16) : List UInt16 → List UInt16 → List UInt16
  | [], result => result
  | r :: rs, result =>
    let row := mulRow r 0 left result
    row.take 1 ++ mulRows left rs (row.drop 1)

/-- The product in `length` shorts. -/
def mulHelper (length : Nat) (left right : List UInt16) : List UInt16 :=
  let result := replicate length 0
  if trim right = [] then result
  else if trim left = [] then result
  else mulRows (trim left) (trim right) result

/-- The loop of `SimpleDivHelper`, from the top digit down. -/
def simpleDivide (divisor : UInt16) : List UInt16 → List UInt16 × Nat
  | [] => ([], 0)
  | d :: dividend =>
    let upper := simpleDivide divisor dividend
    let temp := upper.2 * 65536 + d.toNat
    (UInt16.ofNat (temp / divisor.toNat) :: upper.1, temp % divisor.toNat)

/-- The return code, and the quotient where one is computed. -/
def simpleDivHelper (dividend divisor : List UInt16) : Int × List UInt16 :=
  if divisor.length > 1 then (-1, [])
  else
    let done := simpleDivide (divisor.getD 0 0) dividend
    (if done.2 ≠ 0 then 1 else 0, done.1)

/-- A copy one byte further up, in one short more. -/
def shiftByte : Nat → List UInt16 → List UInt16
  | low, [] => [UInt16.ofNat low]
  | low, d :: ds => UInt16.ofNat (low + 256 * (d.toNat % 256)) :: shiftByte (d.toNat / 256) ds

/-- The normalised copy: times `0x100` where the top short of the divisor is one byte. -/
def normalized (divisor ds : List UInt16) : List UInt16 :=
  if divisor.getLastD 0 ≤ 0xFF then shiftByte 0 ds else ds ++ [0]

/-- The quotient digit that the leading digits suggest. A quotient of `2^16` has become
zero, and is the largest digit. -/
def guessDigit (n : Nat) (divisor window : List UInt16) : UInt16 :=
  let temp3 := (window.getD n 0).toNat * 65536 ^ 2 + (window.getD (n - 1) 0).toNat * 65536 +
    (window.getD (n - 2) 0).toNat
  let temp1 := (divisor.getD (n - 1) 0).toNat * 65536 + (divisor.getD (n - 2) 0).toNat
  let q := UInt16.ofNat (temp3 / temp1)
  if q = 0 ∧ window.getD n 0 = divisor.getD (n - 1) 0 then 0xFFFF else q

/-- One turn of the main loop of `DivHelper`, on the `n + 1` shorts of the dividend from the
place of the quotient digit on. -/
def divideWindow (n : Nat) (divisor window : List UInt16) : UInt16 × List UInt16 :=
  let q := guessDigit n divisor window
  let rest := subHelper window (mulHelper (n + 1) (divisor.take n) [q])
  if rest.1 ≠ 0 then (q - 1, (subHelper divisor rest.2).2) else (q, rest.2)

/-- The main loop, for the quotient digits at the places below its counter. -/
def divideLoop (n : Nat) (divisor : List UInt16) :
    Nat → List UInt16 → List UInt16 → List UInt16 × List UInt16
  | 0, dividend, quotient => (dividend, quotient)
  | place + 1, dividend, quotient =>
    let turn := divideWindow n divisor ((dividend.drop place).take (n + 1))
    divideLoop n divisor place
      (dividend.take place ++ turn.2 ++ dividend.drop (place + n + 1))
      (quotient.set place turn.1)

/-- The remainder flag and the quotient. The temporary area holds the copy of the dividend
and right after it the copy of the divisor, and the flag is read from its first shorts. -/
def divHelper (dividend divisor : List UInt16) : Int × List UInt16 :=
  let n := divisor.length
  let tempDivisor := normalized divisor divisor
  let done := divideLoop n tempDivisor (dividend.length + 1 - n) (normalized divisor dividend)
    (replicate dividend.length 0)
  (if ((done.1 ++ tempDivisor).take n).any (· ≠ 0) then 1 else 0, done.2)

/-! ## Sums and differences -/

@[simp] theorem addDigits_length (carry : Nat) (left right : List UInt16) :
    (addDigits carry left right).length = min left.length right.length := by
  induction left generalizing carry right with
  | nil => simp [addDigits]
  | cons l ls ih =>
    cases right with
    | nil => simp [addDigits]
    | cons r rs => simp [addDigits, ih]

theorem addDigits_value (carry : Nat) (left right : List UInt16)
    (hlen : left.length = right.length) :
    value (addDigits carry left right) =
      (value left + value right + carry) % 65536 ^ left.length := by
  induction left generalizing carry right with
  | nil => simp [addDigits, Nat.mod_one]
  | cons l ls ih =>
    cases right with
    | nil => cases hlen
    | cons r rs =>
      simp only [addDigits, value_cons, ih _ rs (by simpa using hlen), length_cons, pow_succ',
        digit_ofNat]
      rw [show l.toNat + 65536 * value ls + (r.toNat + 65536 * value rs) + carry =
          (l.toNat + r.toNat + carry) + 65536 * (value ls + value rs) by ring,
        Nat.mod_mul, Nat.add_mul_mod_self_left, Nat.add_mul_div_left _ _ (by decide),
        Nat.add_comm (_ / 65536)]

variable {left right : List UInt16}

theorem compareDigits_eq (neg : Int) (left right : List UInt16)
    (hlen : left.length = right.length) :
    compareDigits neg left right =
      if value left < value right then -1 else if value right < value left then 0 else neg := by
  induction left generalizing neg right with
  | nil =>
    obtain rfl := length_eq_zero_iff.mp hlen.symm
    simp [compareDigits]
  | cons l ls ih =>
    cases right with
    | nil => cases hlen
    | cons r rs =>
      have hl := l.toNat_lt
      have hr := r.toNat_lt
      rw [compareDigits, ih _ rs (by simpa using hlen)]
      simp only [value_cons, gt_iff_lt, UInt16.lt_iff_toNat_lt]
      rcases Nat.lt_trichotomy (value ls) (value rs) with h | h | h
      · rw [if_pos h, if_pos (by omega)]
      · rw [h, if_neg (by omega), if_neg (by omega)]
        split_ifs <;> first | rfl | omega
      · rw [if_neg (by omega), if_pos h, if_neg (by omega), if_pos (by omega)]

@[simp] theorem subDigits_length (carry : Int) (left right : List UInt16) :
    (subDigits carry left right).length = min left.length right.length := by
  induction left generalizing carry right with
  | nil => simp [subDigits]
  | cons l ls ih =>
    cases right with
    | nil => simp [subDigits]
    | cons r rs => simp [subDigits, ih]

/-- With `borrow` the negated carry of the loop. -/
theorem subDigits_value (borrow : Nat) (hb : borrow ≤ 1) (left right : List UInt16)
    (hlen : left.length = right.length) (hle : value right + borrow ≤ value left) :
    value (subDigits (-(borrow : Int)) left right) + value right + borrow = value left := by
  induction left generalizing borrow right with
  | nil =>
    obtain rfl := length_eq_zero_iff.mp hlen.symm
    simp only [subDigits, value_nil] at hle ⊢
    omega
  | cons l ls ih =>
    cases right with
    | nil => cases hlen
    | cons r rs =>
      have hl := l.toNat_lt
      have hr := r.toNat_lt
      have hlen' : ls.length = rs.length := by simpa using hlen
      simp only [subDigits, value_cons, digit_ofNat] at hle ⊢
      by_cases hneg : ((l.toNat : Int) - r.toNat + -(borrow : Int)) < 0
      · have hrest := ih 1 le_rfl rs hlen' (by omega)
        rw [if_pos hneg]
        rw [Nat.cast_one] at hrest
        omega
      · have hrest := ih 0 (Nat.zero_le 1) rs hlen' (by omega)
        rw [if_neg hneg]
        rw [Nat.cast_zero, neg_zero] at hrest
        omega

section

variable (hlen : left.length = right.length)

include hlen

theorem subHelper_length :
    (subHelper left right).2.length = left.length := by
  unfold subHelper
  dsimp only
  split <;> simp [hlen]

theorem subHelper_of_le (hle : value right ≤ value left) :
    (subHelper left right).1 = 0 ∧
      value (subHelper left right).2 = value left - value right := by
  have hneg : compareDigits 0 left right = 0 := by
    rw [compareDigits_eq 0 left right hlen, if_neg (by omega)]
    simp
  have hval := subDigits_value 0 (Nat.zero_le 1) left right hlen (by omega)
  rw [Nat.cast_zero, neg_zero] at hval
  simp only [subHelper, hneg]
  rw [if_neg (by decide)]
  exact ⟨rfl, by dsimp only; omega⟩

theorem subHelper_of_lt (hlt : value left < value right) :
    (subHelper left right).1 = -1 ∧
      value (subHelper left right).2 = value right - value left := by
  have hneg : compareDigits 0 left right = -1 := by
    rw [compareDigits_eq 0 left right hlen, if_pos hlt]
  have hval := subDigits_value 0 (Nat.zero_le 1) right left hlen.symm (by omega)
  rw [Nat.cast_zero, neg_zero] at hval
  simp only [subHelper, hneg]
  rw [if_pos trivial]
  exact ⟨rfl, by dsimp only; omega⟩

end

/-! ## Products -/

@[simp] theorem mulRow_length (r : UInt16) (carry : Nat) (left result : List UInt16) :
    (mulRow r carry left result).length = result.length := by
  fun_induction mulRow r carry left result with
  | case1 => rfl
  | case2 => rfl
  | case3 => rfl
  | case4 carry l ls d result temp ih => simp [ih]

/-- A row adds its multiple of the left operand, as long as the result holds the sum and
the place of the last carry has not been written. -/
theorem mulRow_value (r : UInt16) (carry : Nat) (left result : List UInt16)
    (hc : carry < 65536) (hfits : value left * r.toNat + value result + carry <
      65536 ^ result.length) (hlen : left.length ≤ result.length)
    (hzero : value (result.drop left.length) = 0) :
    value (mulRow r carry left result) = value left * r.toNat + value result + carry := by
  induction left generalizing carry result with
  | nil =>
    cases result with
    | nil =>
      simp only [length_nil, pow_zero, value_nil] at hfits
      simp only [mulRow, value_nil]
      omega
    | cons d result =>
      have hd : d.toNat = 0 := by
        rw [length_nil, drop_zero, value_cons] at hzero
        omega
      rw [mulRow]
      split
      · rename_i h
        simp [h]
      · simp only [value_cons, value_nil, digit_ofNat, hd]
        omega
  | cons l ls ih =>
    cases result with
    | nil => simp at hlen
    | cons d result =>
      have hl := l.toNat_lt
      have hr := r.toNat_lt
      have hd := d.toNat_lt
      have hlr : l.toNat * r.toNat ≤ 65535 * 65535 := Nat.mul_le_mul (by omega) (by omega)
      rw [length_cons, pow_succ'] at hfits
      have hexpand : value (l :: ls) * r.toNat + value (d :: result) + carry =
          (l.toNat * r.toNat + d.toNat + carry) +
            65536 * (value ls * r.toNat + value result) := by
        simp only [value_cons]
        ring
      rw [hexpand] at hfits ⊢
      have hrest := ih ((l.toNat * r.toNat + d.toNat + carry) / 65536) result
        (by omega) (by omega) (by simpa using hlen) (by simpa using hzero)
      simp only [mulRow, value_cons, digit_ofNat, hrest]
      omega

@[simp] theorem mulRows_length (left right result : List UInt16) :
    (mulRows left right result).length = result.length := by
  induction right generalizing result with
  | nil => rfl
  | cons r rs ih =>
    simp only [mulRows, length_append, length_take, ih, length_drop, mulRow_length]
    omega

/-- After a row only the digits up to the place of its carry can be nonzero. -/
theorem mulRow_drop (r : UInt16) {result : List UInt16}
    (hvalue : value (mulRow r 0 left result) = value left * r.toNat + value result)
    (hzero : value (result.drop left.length) = 0) :
    value ((mulRow r 0 left result).drop (left.length + 1)) = 0 := by
  have hl := value_lt left
  have hr := r.toNat_lt
  have hresult : value result < 65536 ^ left.length := by
    rw [(value_take_drop result left.length).2] at hzero
    exact (Nat.div_eq_zero_iff_lt (by positivity)).mp hzero
  rw [(value_take_drop _ _).2, hvalue, pow_succ]
  refine Nat.div_eq_of_lt ?_
  calc value left * r.toNat + value result
      ≤ (65536 ^ left.length - 1) * 65535 + (65536 ^ left.length - 1) :=
        Nat.add_le_add (Nat.mul_le_mul (by omega) (by omega)) (by omega)
    _ < 65536 ^ left.length * 65536 := by omega

theorem mulRows_value (left right result : List UInt16)
    (hfits : value left * value right + value result < 65536 ^ result.length)
    (hlen : left.length + right.length ≤ result.length + 1)
    (hzero : value (result.drop left.length) = 0) :
    value (mulRows left right result) = value left * value right + value result := by
  induction right generalizing result with
  | nil => simp [mulRows]
  | cons r rs ih =>
    have hexpand : value left * value (r :: rs) + value result =
        (value left * r.toNat + value result) + 65536 * (value left * value rs) := by
      rw [value_cons]
      ring
    rw [hexpand] at hfits ⊢
    simp only [length_cons] at hlen
    have hrow : value (mulRow r 0 left result) = value left * r.toNat + value result :=
      mulRow_value r 0 left result (by decide) (by omega) (by omega) hzero
    have hdrop := mulRow_drop r hrow hzero
    have hrowlen := mulRow_length r 0 left result
    simp only [mulRows]
    generalize mulRow r 0 left result = row at hrow hdrop hrowlen ⊢
    cases row with
    | nil =>
      have hleft : left = [] := by
        apply length_eq_zero_iff.mp
        rw [length_nil] at hrowlen
        omega
      have hrest : mulRows left rs [] = [] := length_eq_zero_iff.mp (mulRows_length _ _ _)
      rw [← hrow, hleft] at *
      simp [hrest]
    | cons d row =>
      simp only [length_cons] at hrowlen
      simp only [value_cons] at hrow
      rw [← hrowlen, pow_succ'] at hfits
      have hrest := ih row (by omega) (by omega) (by simpa using hdrop)
      simp only [take_succ_cons, take_zero, drop_succ_cons, drop_zero,
        singleton_append, value_cons, hrest]
      omega

@[simp] theorem mulHelper_length (length : Nat) (left right : List UInt16) :
    (mulHelper length left right).length = length := by
  unfold mulHelper
  dsimp only
  split
  · exact length_replicate
  · split
    · exact length_replicate
    · rw [mulRows_length, length_replicate]

theorem mulHelper_value {length : Nat} (hfits : value left * value right < 65536 ^ length) :
    value (mulHelper length left right) = value left * value right := by
  unfold mulHelper
  dsimp only
  split
  · rename_i hr
    rw [trim_eq_nil_iff.mp hr, value_replicate_zero, Nat.mul_zero]
  split
  · rename_i hl
    rw [trim_eq_nil_iff.mp hl, value_replicate_zero, Nat.zero_mul]
  rename_i hr hl
  have hplaces : 65536 ^ (((trim left).length - 1) + ((trim right).length - 1)) <
      65536 ^ length := by
    rw [pow_add]
    exact (Nat.mul_le_mul (le_value_trim hl) (le_value_trim hr)).trans_lt hfits
  have hlen := (Nat.pow_lt_pow_iff_right (by decide)).mp hplaces
  have hlpos := length_pos_of_ne_nil hl
  have hrpos := length_pos_of_ne_nil hr
  rw [mulRows_value _ _ _ (by simpa using hfits) (by rw [length_replicate]; omega)
    (by simp)]
  simp

/-! ## Division by one short -/

@[simp] theorem simpleDivide_length (divisor : UInt16) (dividend : List UInt16) :
    (simpleDivide divisor dividend).1.length = dividend.length := by
  induction dividend with
  | nil => rfl
  | cons d dividend ih => simp [simpleDivide, ih]

theorem simpleDivide_value {divisor : UInt16} (hd : divisor ≠ 0) (dividend : List UInt16) :
    value (simpleDivide divisor dividend).1 = value dividend / divisor.toNat ∧
      (simpleDivide divisor dividend).2 = value dividend % divisor.toNat := by
  have hpos : 0 < divisor.toNat := Nat.pos_of_ne_zero (fun h => hd (UInt16.toNat_inj.mp h))
  have hlt := divisor.toNat_lt
  induction dividend with
  | nil => simp [simpleDivide]
  | cons d dividend ih =>
    have hdl := d.toNat_lt
    obtain ⟨hq, hr⟩ := ih
    have hrem := Nat.mod_lt (value dividend) hpos
    have hdm := Nat.div_add_mod (value dividend) divisor.toNat
    simp only [simpleDivide, value_cons, digit_ofNat, hq, hr]
    generalize value dividend / divisor.toNat = q at hdm ⊢
    generalize value dividend % divisor.toNat = rem at hdm hrem ⊢
    -- what comes down is below the divisor, so the quotient is one digit
    have hexpand : d.toNat + 65536 * value dividend =
        (rem * 65536 + d.toNat) + divisor.toNat * (65536 * q) := by
      rw [← hdm]
      ring
    have hdigit : (rem * 65536 + d.toNat) / divisor.toNat < 65536 := by
      rw [Nat.div_lt_iff_lt_mul hpos]
      nlinarith
    rw [hexpand, Nat.add_mul_div_left _ _ hpos, Nat.add_mul_mod_self_left, Nat.mod_eq_of_lt hdigit]
    exact ⟨rfl, rfl⟩

/-- A one-short divisor: the quotient, and whether there is a remainder. -/
theorem simpleDivHelper_spec {divisor : UInt16} (hd : divisor ≠ 0) (dividend : List UInt16) :
    (simpleDivHelper dividend [divisor]).1 =
        (if value dividend % divisor.toNat = 0 then 0 else 1) ∧
      value (simpleDivHelper dividend [divisor]).2 = value dividend / divisor.toNat := by
  obtain ⟨hq, hr⟩ := simpleDivide_value hd dividend
  have hdef : simpleDivHelper dividend [divisor] =
      (if (simpleDivide divisor dividend).2 ≠ 0 then 1 else 0,
        (simpleDivide divisor dividend).1) := rfl
  rw [hdef, hr]
  exact ⟨ite_not _ _ _, hq⟩

end litestore
