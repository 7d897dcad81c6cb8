-- The long division of DivHelper (common/BigNumHelper.cpp): a quotient digit
-- guessed from three digits over two is at most one too large, one correction
-- repairs it, and the digits that stay behind are the remainder.
import LiteStore.BigNumHelper

namespace litestore

open limbs List

/-! ## The normalised copies -/

/-- The factor of the normalising step. -/
def divisorScale (divisor : List UInt16) : Nat := if divisor.getLastD 0 ≤ 0xFF then 256 else 1

theorem shiftByte_length (low : Nat) (ds : List UInt16) :
    (shiftByte low ds).length = ds.length + 1 := by
  induction ds generalizing low with
  | nil => rfl
  | cons d ds ih => simp [shiftByte, ih]

theorem shiftByte_value {low : Nat} (hlow : low < 256) (ds : List UInt16) :
    value (shiftByte low ds) = low + 256 * value ds := by
  induction ds generalizing low with
  | nil =>
    simp only [shiftByte, value_cons, value_nil, digit_ofNat]
    omega
  | cons d ds ih =>
    have hd := d.toNat_lt
    simp only [shiftByte, value_cons, digit_ofNat, ih (show d.toNat / 256 < 256 by omega)]
    omega

@[simp] theorem normalized_length (divisor ds : List UInt16) :
    (normalized divisor ds).length = ds.length + 1 := by
  unfold normalized
  split
  · exact shiftByte_length 0 ds
  · simp

theorem normalized_value (divisor ds : List UInt16) :
    value (normalized divisor ds) = divisorScale divisor * value ds := by
  unfold normalized divisorScale
  split
  · rw [shiftByte_value (by decide), Nat.zero_add]
  · simp

theorem divisorScale_pos (divisor : List UInt16) : 0 < divisorScale divisor := by
  unfold divisorScale
  split <;> decide

/-- A divisor that `DivHelper` is called with: at least two shorts, the top one no zero. -/
structure LongDivisor (divisor : List UInt16) : Prop where
  two_shorts : 2 ≤ divisor.length
  top_ne_zero : divisor.getLastD 0 ≠ 0

/-- What the normalising step achieves: the leading short of the copy is at least `0x100`,
and the short above it is still zero. -/
structure Normal (n : Nat) (divisor : List UInt16) : Prop where
  length_eq : divisor.length = n + 3
  lower : 256 * 65536 ^ (n + 1) ≤ value divisor
  upper : value divisor < 65536 ^ (n + 2)

variable {divisor : List UInt16}

section

variable (h : LongDivisor divisor)

include h

theorem LongDivisor.split :
    ∃ low top, divisor = low ++ [top] ∧ top.toNat ≠ 0 := by
  have hne : divisor ≠ [] := by
    rintro rfl
    exact absurd h.two_shorts (by decide)
  obtain ⟨low, top, rfl⟩ := exists_concat hne
  refine ⟨low, top, rfl, fun htop => ?_⟩
  have hlast := h.top_ne_zero
  rw [getLastD_concat] at hlast
  exact hlast (UInt16.toNat_inj.mp htop)

theorem LongDivisor.le_value :
    65536 ^ (divisor.length - 1) ≤ value divisor := le_value_of_top h.top_ne_zero

/-- A number of fewer digits is smaller. -/
theorem LongDivisor.lt_value {dividend : List UInt16}
    (hshort : dividend.length + 1 < divisor.length) : value dividend < value divisor := by
  calc value dividend < 65536 ^ dividend.length := value_lt dividend
    _ ≤ 65536 ^ (divisor.length - 1) := Nat.pow_le_pow_right (by decide) (by omega)
    _ ≤ value divisor := h.le_value

theorem LongDivisor.normal :
    Normal (divisor.length - 2) (normalized divisor divisor) := by
  have htwo := h.two_shorts
  obtain ⟨low, top, hsplit, htop⟩ := h.split
  have hn : divisor.length = low.length + 1 := by simp [hsplit]
  have hscale : divisorScale divisor = if top ≤ 0xFF then 256 else 1 := by
    rw [divisorScale, hsplit, getLastD_concat]
  have hvalue : value divisor = value low + 65536 ^ low.length * top.toNat := by
    simp [hsplit]
  have hlow := value_lt low
  have hp : low.length = divisor.length - 2 + 1 := by omega
  refine ⟨by rw [normalized_length]; omega, ?_, ?_⟩
  · rw [normalized_value, hscale, hvalue, ← hp]
    split
    · calc 256 * 65536 ^ low.length ≤ 256 * (65536 ^ low.length * top.toNat) :=
            Nat.mul_le_mul_left _ (Nat.le_mul_of_pos_right _ (by omega))
        _ ≤ _ := Nat.mul_le_mul_left _ (Nat.le_add_left _ _)
    · rename_i hbig
      rw [UInt16.not_le, UInt16.lt_iff_toNat_lt] at hbig
      change 255 < top.toNat at hbig
      calc 256 * 65536 ^ low.length = 65536 ^ low.length * 256 := Nat.mul_comm _ _
        _ ≤ 65536 ^ low.length * top.toNat := Nat.mul_le_mul_left _ hbig
        _ ≤ _ := by omega
  · rw [normalized_value, hscale, show divisor.length - 2 + 2 = low.length + 1 by omega,
      pow_succ]
    split
    · rename_i hsmall
      rw [UInt16.le_iff_toNat_le] at hsmall
      change top.toNat ≤ 255 at hsmall
      have hmul : 65536 ^ low.length * top.toNat ≤ 65536 ^ low.length * 255 :=
        Nat.mul_le_mul_left _ hsmall
      rw [hvalue]
      omega
    · have hlt := value_lt divisor
      rw [hn, pow_succ] at hlt
      omega

end

/-! ## One quotient digit -/

section Window

variable {n : Nat} {window : List UInt16}

theorem Normal.pos (h : Normal n divisor) : 0 < value divisor :=
  lt_of_lt_of_le (by positivity) h.lower

/-- The shorts above the first `n`. -/
theorem exists_leading (ds : List UInt16) (hlen : ds.length = n + 3) :
    ∃ low a b c, ds = low ++ [a, b, c] ∧ low.length = n := by
  refine ⟨ds.take n, ds.getD n 0, ds.getD (n + 1) 0, ds.getD (n + 2) 0, ?_, by simp [hlen]⟩
  have hdrop : ds.drop n = [ds.getD n 0, ds.getD (n + 1) 0, ds.getD (n + 2) 0] := by
    apply ext_getElem
    · simp [hlen]
    · intro i h₁ h₂
      simp only [length_cons, length_nil] at h₂
      interval_cases i <;> simp [hlen]
  rw [← hdrop, take_append_drop]

/-- The three leading digits over the two leading digits, cut at the largest digit: where the
quotient wraps to zero, the top digits agree and the largest digit is taken. -/
theorem guess_eq_min {a b c e f : UInt16} (hf : 256 ≤ f.toNat)
    (hlt : c.toNat * 65536 ^ 2 + b.toNat * 65536 + a.toNat <
      (f.toNat * 65536 + e.toNat + 1) * 65536) :
    (if UInt16.ofNat ((c.toNat * 65536 ^ 2 + b.toNat * 65536 + a.toNat) /
          (f.toNat * 65536 + e.toNat)) = 0 ∧ c = f then (0xFFFF : UInt16)
        else UInt16.ofNat ((c.toNat * 65536 ^ 2 + b.toNat * 65536 + a.toNat) /
          (f.toNat * 65536 + e.toNat))).toNat =
      min ((c.toNat * 65536 ^ 2 + b.toNat * 65536 + a.toNat) / (f.toNat * 65536 + e.toNat))
        65535 := by
  have ha := a.toNat_lt
  have hb := b.toNat_lt
  have he := e.toNat_lt
  have hflt := f.toNat_lt
  have hpos : 0 < f.toNat * 65536 + e.toNat := by omega
  have hdm := Nat.div_add_mod (c.toNat * 65536 ^ 2 + b.toNat * 65536 + a.toNat)
    (f.toNat * 65536 + e.toNat)
  have hmod := Nat.mod_lt (c.toNat * 65536 ^ 2 + b.toNat * 65536 + a.toNat) hpos
  have hbase : (c.toNat * 65536 ^ 2 + b.toNat * 65536 + a.toNat) / (f.toNat * 65536 + e.toNat) <
      65537 := by
    rw [Nat.div_lt_iff_lt_mul hpos]
    omega
  generalize (c.toNat * 65536 ^ 2 + b.toNat * 65536 + a.toNat) / (f.toNat * 65536 + e.toNat) = q
    at hdm hbase ⊢
  have hzero : UInt16.ofNat q = 0 ↔ q % 65536 = 0 := by
    rw [← UInt16.toNat_inj, digit_ofNat]
    rfl
  split
  · rename_i hwrap
    have hq := hzero.mp hwrap.1
    have hcf : c.toNat = f.toNat := congrArg UInt16.toNat hwrap.2
    -- a true zero would need a zero digit on top of the window
    have hne : q ≠ 0 := by
      rintro rfl
      rw [Nat.mul_zero, Nat.zero_add] at hdm
      omega
    have : q = 65536 := by omega
    rw [this]
    decide
  · rename_i hstay
    rw [digit_ofNat]
    have hne : q ≠ 65536 := by
      rintro rfl
      exact hstay ⟨rfl, UInt16.toNat_inj.mp (by omega)⟩
    omega

/-- Numbers below a product are compared by their leading parts. -/
theorem lead_lt (p x₀ : Nat) {x y : Nat} (h : x * p + x₀ < y * p) : x < y := by
  by_contra hge
  have := Nat.mul_le_mul_right p (Nat.not_lt.mp hge)
  omega

/-- The guessed digit is the quotient digit or one more. -/
theorem guessDigit_spec (h : Normal n divisor) (hlen : window.length = n + 3)
    (hlt : value window < value divisor * 65536) :
    value window / value divisor ≤ (guessDigit (n + 2) divisor window).toNat ∧
      (guessDigit (n + 2) divisor window).toNat ≤ value window / value divisor + 1 := by
  obtain ⟨low, a, b, c, rfl, hlow⟩ := exists_leading window hlen
  obtain ⟨dlow, e, f, g, rfl, hdlow⟩ := exists_leading divisor h.length_eq
  have hlower := h.lower
  have hupper := h.upper
  have hu₀ := value_lt low
  have hd₀ := value_lt dlow
  have he := e.toNat_lt
  rw [hlow] at hu₀
  rw [hdlow] at hd₀
  have hwindow : value (low ++ [a, b, c]) =
      (c.toNat * 65536 ^ 2 + b.toNat * 65536 + a.toNat) * 65536 ^ n + value low := by
    simp only [value_append, value_cons, value_nil, hlow]
    ring
  have hdivisor : value (dlow ++ [e, f, g]) =
      (g.toNat * 65536 ^ 2 + f.toNat * 65536 + e.toNat) * 65536 ^ n + value dlow := by
    simp only [value_append, value_cons, value_nil, hdlow]
    ring
  have hguess : guessDigit (n + 2) (dlow ++ [e, f, g]) (low ++ [a, b, c]) =
      if UInt16.ofNat ((c.toNat * 65536 ^ 2 + b.toNat * 65536 + a.toNat) /
          (f.toNat * 65536 + e.toNat)) = 0 ∧ c = f then 0xFFFF
        else UInt16.ofNat ((c.toNat * 65536 ^ 2 + b.toNat * 65536 + a.toNat) /
          (f.toNat * 65536 + e.toNat)) := by
    simp [guessDigit, hlow, hdlow]
  rw [pow_succ] at hlower
  rw [pow_add] at hupper
  generalize value (low ++ [a, b, c]) = u at *
  generalize value (dlow ++ [e, f, g]) = d at *
  generalize 65536 ^ n = p at *
  have hg : g.toNat = 0 := by
    have hlead : g.toNat * 65536 ^ 2 + f.toNat * 65536 + e.toNat < 65536 ^ 2 :=
      lead_lt p (value dlow) (by rw [← hdivisor]; linarith)
    omega
  rw [hg, Nat.zero_mul, Nat.zero_add] at hdivisor
  have hf : 256 ≤ f.toNat := by
    have hlead : 256 * 65536 < f.toNat * 65536 + e.toNat + 1 :=
      lead_lt p 0 (by linarith)
    omega
  have hlead : c.toNat * 65536 ^ 2 + b.toNat * 65536 + a.toNat <
      (f.toNat * 65536 + e.toNat + 1) * 65536 :=
    lead_lt p (value low) (by linarith)
  have hd₁ : 65535 + 1 < f.toNat * 65536 + e.toNat := by omega
  rw [hwindow, hdivisor] at hlt
  rw [hguess, guess_eq_min hf hlead, hwindow, hdivisor]
  exact estimate_cut hu₀ hd₀ hd₁ hlt

/-- One turn of the loop finds the quotient digit and leaves the remainder. -/
theorem divideWindow_spec (h : Normal n divisor) (hlen : window.length = n + 3)
    (hlt : value window < value divisor * 65536) :
    (divideWindow (n + 2) divisor window).1.toNat = value window / value divisor ∧
      value (divideWindow (n + 2) divisor window).2 = value window % value divisor ∧
      (divideWindow (n + 2) divisor window).2.length = n + 3 := by
  have hpos := h.pos
  obtain ⟨hge, hle⟩ := guessDigit_spec h hlen hlt
  have hdm := Nat.div_add_mod (value window) (value divisor)
  have hmod := Nat.mod_lt (value window) hpos
  have htake : value (divisor.take (n + 2)) = value divisor := by
    rw [(value_take_drop _ _).1, Nat.mod_eq_of_lt h.upper]
  unfold divideWindow
  dsimp only
  generalize guessDigit (n + 2) divisor window = q at hge hle ⊢
  have hq := q.toNat_lt
  have hproduct : value (mulHelper (n + 2 + 1) (divisor.take (n + 2)) [q]) =
      value divisor * q.toNat := by
    rw [mulHelper_value] <;> rw [htake, value_cons, value_nil, Nat.mul_zero, Nat.add_zero]
    rw [pow_succ]
    exact Nat.mul_lt_mul'' h.upper hq
  have hplen : window.length = (mulHelper (n + 2 + 1) (divisor.take (n + 2)) [q]).length := by
    rw [mulHelper_length, hlen]
  generalize mulHelper (n + 2 + 1) (divisor.take (n + 2)) [q] = product at hproduct hplen ⊢
  by_cases hfit : value divisor * q.toNat ≤ value window
  · obtain ⟨hneg, hrest⟩ := subHelper_of_le hplen (hproduct ▸ hfit)
    have hexact : q.toNat = value window / value divisor := by
      have : q.toNat ≤ value window / value divisor := by
        rw [Nat.le_div_iff_mul_le hpos]
        linarith
      omega
    rw [hneg, if_neg (by decide)]
    refine ⟨hexact, ?_, by rw [subHelper_length hplen, hlen]⟩
    rw [hrest, hproduct, hexact]
    omega
  · obtain ⟨hneg, hrest⟩ := subHelper_of_lt hplen (by omega)
    have hlarge : q.toNat = value window / value divisor + 1 := by
      have : value window / value divisor ≠ q.toNat := by
        intro heq
        rw [← heq] at hfit
        omega
      omega
    have hexcess : value divisor * q.toNat =
        value divisor * (value window / value divisor) + value divisor := by
      rw [hlarge, Nat.mul_add, Nat.mul_one]
    rw [hneg, if_pos (by decide)]
    have hblen : divisor.length = (subHelper window product).2.length := by
      rw [subHelper_length hplen, h.length_eq, hlen]
    obtain ⟨-, hback⟩ := subHelper_of_le hblen (by omega)
    refine ⟨?_, ?_, by rw [subHelper_length hblen, h.length_eq]⟩
    · have hone : (1 : UInt16) ≤ q := by
        rw [UInt16.le_iff_toNat_le]
        change 1 ≤ q.toNat
        rw [hlarge]
        exact Nat.le_add_left 1 _
      rw [UInt16.toNat_sub_of_le _ _ hone]
      change q.toNat - 1 = _
      rw [hlarge, Nat.add_sub_cancel]
    · rw [hback, hrest, hproduct, hexcess]
      generalize value divisor * (value window / value divisor) = product' at hdm ⊢
      omega

/-! ## The loop over the quotient digits -/

/-- The loop divides the rest of the dividend: from any place on, quotient and remainder
recompose what was there, and the remainder is below the divisor. -/
theorem divideLoop_spec (h : Normal n divisor) (places : Nat) (dividend above : List UInt16)
    (hlen : places + (n + 2) ≤ dividend.length)
    (hlt : value (dividend.drop places) < value divisor) :
    let done := divideLoop (n + 2) divisor places dividend
      (replicate places 0 ++ above)
    value done.1 + value divisor * value done.2 =
        value dividend + value divisor * value (replicate places 0 ++ above) ∧
      value done.1 < value divisor ∧ done.1.length = dividend.length ∧
      done.2.length = places + above.length := by
  induction places generalizing dividend above with
  | zero =>
    rw [drop_zero] at hlt
    exact ⟨rfl, hlt, rfl, by simp [divideLoop]⟩
  | succ place ih =>
    have hset : ∀ q : UInt16, (replicate (place + 1) 0 ++ above).set place q =
        replicate place 0 ++ q :: above := by
      intro q
      rw [replicate_succ', append_assoc, set_append_right _ _ (by simp)]
      simp
    have hplen : (dividend.take place).length = place := length_take_of_le (by omega)
    have hdigit : value (dividend.drop place) < value divisor * 65536 := by
      have hhead : dividend.drop place =
          dividend.get ⟨place, by omega⟩ :: dividend.drop (place + 1) :=
        drop_eq_getElem_cons (by omega)
      rw [hhead, value_cons]
      have := (dividend.get ⟨place, by omega⟩).toNat_lt
      omega
    -- the digits above the window are zero
    have hwindow : value ((dividend.drop place).take (n + 3)) = value (dividend.drop place) := by
      rw [(value_take_drop _ _).1, Nat.mod_eq_of_lt]
      calc value (dividend.drop place) < value divisor * 65536 := hdigit
        _ ≤ 65536 ^ (n + 2) * 65536 := Nat.mul_le_mul_right _ h.upper.le
        _ = 65536 ^ (n + 3) := (pow_succ _ _).symm
    have habove : value (dividend.drop (place + (n + 2) + 1)) = 0 := by
      have hsplit := value_append ((dividend.drop place).take (n + 3))
        ((dividend.drop place).drop (n + 3))
      rw [take_append_drop, hwindow, drop_drop] at hsplit
      have hzero : 65536 ^ ((dividend.drop place).take (n + 3)).length *
          value (dividend.drop (place + (n + 3))) = 0 := by omega
      exact (Nat.mul_eq_zero.mp hzero).resolve_left (by positivity)
    have hwlen : ((dividend.drop place).take (n + 3)).length = n + 3 := by
      rw [length_take_of_le]
      rw [length_drop]
      omega
    obtain ⟨hq, hr, hrlen⟩ := divideWindow_spec h hwlen (hwindow.trans_lt hdigit)
    have hdividend : value dividend =
        value (dividend.take place) + 65536 ^ place * value (dividend.drop place) := by
      have hsplit := value_append (dividend.take place) (dividend.drop place)
      rwa [take_append_drop, hplen] at hsplit
    have hdm := Nat.div_add_mod (value (dividend.drop place)) (value divisor)
    have hmod := Nat.mod_lt (value (dividend.drop place)) h.pos
    rw [hwindow] at hq hr
    simp only [divideLoop]
    rw [hset]
    generalize divideWindow (n + 2) divisor ((dividend.drop place).take (n + 2 + 1)) = turn
      at hq hr hrlen ⊢
    have hnext : value (dividend.take place ++ turn.2 ++ dividend.drop (place + (n + 2) + 1)) =
        value (dividend.take place) + 65536 ^ place * (value (dividend.drop place) % value divisor) := by
      simp only [append_assoc, value_append, habove, hr, hplen, Nat.mul_zero, Nat.add_zero]
    have hdrop : (dividend.take place ++ turn.2 ++ dividend.drop (place + (n + 2) + 1)).drop place =
        turn.2 ++ dividend.drop (place + (n + 2) + 1) := by
      rw [append_assoc, drop_left' hplen]
    have hnlen : (dividend.take place ++ turn.2 ++
        dividend.drop (place + (n + 2) + 1)).length = dividend.length := by
      simp only [length_append, hplen, hrlen, length_drop]
      omega
    have hrest := ih (dividend.take place ++ turn.2 ++ dividend.drop (place + (n + 2) + 1))
      (turn.1 :: above) (by omega) (by
        rw [hdrop, value_append, habove, hr]
        omega)
    obtain ⟨hvalue, hsmall, hlen₁, hlen₂⟩ := hrest
    refine ⟨?_, hsmall, hlen₁.trans hnlen, ?_⟩
    · rw [hvalue, hnext, hdividend]
      simp only [value_append, value_cons, value_replicate_zero, length_replicate, hq,
        Nat.zero_add, pow_succ]
      calc _ = value (dividend.take place) + 65536 ^ place *
            (value divisor * (value (dividend.drop place) / value divisor) +
              value (dividend.drop place) % value divisor) +
            value divisor * (65536 ^ place * 65536 * value above) := by ring
        _ = _ := by rw [hdm]
    · rw [hlen₂, length_cons]
      omega

end Window

/-! ## The whole division -/

/-- The copy of the divisor lies right above the copy of the dividend in the temporary area. -/
def remainderRead (dividend divisor : List UInt16) : List UInt16 :=
  (normalized divisor divisor).take (divisor.length - (dividend.length + 1))

theorem normalized_drop_lt (h : LongDivisor divisor) (dividend : List UInt16) :
    value ((normalized divisor dividend).drop (dividend.length + 1 - divisor.length)) <
      value (normalized divisor divisor) := by
  have hle := h.le_value
  have htwo := h.two_shorts
  have hlt := value_lt dividend
  rw [(value_take_drop _ _).2, normalized_value, normalized_value,
    Nat.div_lt_iff_lt_mul (by positivity), Nat.mul_assoc]
  refine Nat.mul_lt_mul_of_pos_left (hlt.trans_le ?_) (divisorScale_pos divisor)
  calc 65536 ^ dividend.length
      ≤ 65536 ^ (divisor.length - 1 + (dividend.length + 1 - divisor.length)) :=
        Nat.pow_le_pow_right (by decide) (by omega)
    _ = 65536 ^ (divisor.length - 1) * 65536 ^ (dividend.length + 1 - divisor.length) :=
        pow_add _ _ _
    _ ≤ _ := Nat.mul_le_mul_right _ hle

/-- What the loop leaves: the quotient, and the scaled remainder. -/
theorem divideLoop_divides (h : LongDivisor divisor) (dividend : List UInt16) :
    let done := divideLoop divisor.length (normalized divisor divisor)
      (dividend.length + 1 - divisor.length) (normalized divisor dividend)
      (replicate dividend.length 0)
    value done.2 = value dividend / value divisor ∧
      value done.1 = divisorScale divisor * (value dividend % value divisor) ∧
      done.1.length = dividend.length + 1 ∧ done.2.length = dividend.length := by
  have htwo := h.two_shorts
  have hn : divisor.length - 2 + 2 = divisor.length := by omega
  have hscale := divisorScale_pos divisor
  have hdpos : 0 < value divisor := lt_of_lt_of_le (by positivity) h.le_value
  have hplaces : replicate dividend.length (0 : UInt16) =
      replicate (dividend.length + 1 - divisor.length) 0 ++
        replicate (dividend.length - (dividend.length + 1 - divisor.length)) 0 := by
    rw [replicate_append_replicate]
    congr 1
    omega
  have hvalue := normalized_value divisor dividend
  have hdivisor := normalized_value divisor divisor
  have hlen := normalized_length divisor dividend
  rcases Nat.lt_or_ge (dividend.length + 1) divisor.length with hshort | hlong
  · -- the divisor is too long for even one quotient digit
    have hzero : dividend.length + 1 - divisor.length = 0 := by omega
    have hlt := h.lt_value hshort
    simp only [hzero, divideLoop]
    rw [Nat.div_eq_of_lt hlt, Nat.mod_eq_of_lt hlt]
    exact ⟨value_replicate_zero _, hvalue, hlen, length_replicate⟩
  · have hspec := divideLoop_spec h.normal (dividend.length + 1 - divisor.length)
      (normalized divisor dividend)
      (replicate (dividend.length - (dividend.length + 1 - divisor.length)) 0)
      (by omega) (normalized_drop_lt h dividend)
    rw [hn, ← hplaces] at hspec
    obtain ⟨hsum, hsmall, hlen₁, hlen₂⟩ := hspec
    dsimp only
    generalize divideLoop divisor.length (normalized divisor divisor)
      (dividend.length + 1 - divisor.length) (normalized divisor dividend)
      (replicate dividend.length 0) = done at hsum hsmall hlen₁ hlen₂ ⊢
    rw [value_replicate_zero, Nat.mul_zero, Nat.add_zero, hvalue, hdivisor] at hsum
    rw [hdivisor] at hsmall
    obtain ⟨hquot, hrem⟩ := (Nat.div_mod_unique (Nat.mul_pos hscale hdpos)).mpr ⟨hsum, hsmall⟩
    rw [Nat.mul_div_mul_left _ _ hscale] at hquot
    rw [Nat.mul_mod_mul_left] at hrem
    refine ⟨hquot.symm, hrem.symm, hlen₁.trans hlen, hlen₂.trans ?_⟩
    rw [length_replicate]
    omega

theorem any_ne_zero_iff (ds : List UInt16) : ds.any (· ≠ 0) = true ↔ value ds ≠ 0 := by
  rw [ne_eq, value_eq_zero_iff]
  simp

/-- The flag is raised by a remainder, and by digits of the divisor's copy. -/
theorem divHelper_flag (h : LongDivisor divisor) (dividend : List UInt16) :
    (divHelper dividend divisor).1 =
      if value dividend % value divisor ≠ 0 ∨ value (remainderRead dividend divisor) ≠ 0
        then 1 else 0 := by
  obtain ⟨-, hrem, hlen, -⟩ := divideLoop_divides h dividend
  have hscale := divisorScale_pos divisor
  have hdpos : 0 < value divisor := lt_of_lt_of_le (by positivity) h.le_value
  have htwo := h.two_shorts
  unfold divHelper
  dsimp only
  generalize divideLoop divisor.length (normalized divisor divisor)
      (dividend.length + 1 - divisor.length) (normalized divisor dividend)
      (replicate dividend.length 0) = done at hrem hlen ⊢
  have hsmall : value (done.1.take divisor.length) = value done.1 := by
    rw [(value_take_drop _ _).1, Nat.mod_eq_of_lt]
    have hupper := h.normal.upper
    rw [normalized_value, show divisor.length - 2 + 2 = divisor.length by omega] at hupper
    rw [hrem]
    exact lt_of_le_of_lt (Nat.mul_le_mul_left _ (Nat.mod_lt _ hdpos).le) hupper
  have hread : ((done.1 ++ normalized divisor divisor).take divisor.length).any (· ≠ 0) = true ↔
      value dividend % value divisor ≠ 0 ∨ value (remainderRead dividend divisor) ≠ 0 := by
    rw [take_append, any_append, Bool.or_eq_true, any_ne_zero_iff, any_ne_zero_iff,
      hsmall, hlen, hrem, Nat.mul_ne_zero_iff]
    exact or_congr_left (and_iff_right hscale.ne')
  exact if_congr hread rfl rfl

/-- Exactly when the flag says whether there is a remainder. -/
theorem divHelper_flag_right_iff (h : LongDivisor divisor) (dividend : List UInt16) :
    ((divHelper dividend divisor).1 = if value dividend % value divisor ≠ 0 then 1 else 0) ↔
      value dividend ≠ 0 ∨ 65536 ^ (divisor.length - (dividend.length + 1)) ∣
        divisorScale divisor * value divisor := by
  have hread : 65536 ^ (divisor.length - (dividend.length + 1)) ∣
      divisorScale divisor * value divisor ↔ value (remainderRead dividend divisor) = 0 := by
    rw [remainderRead, (value_take_drop _ _).1, normalized_value, Nat.dvd_iff_mod_eq_zero]
  rw [divHelper_flag h, hread]
  rcases Nat.lt_or_ge (dividend.length + 1) divisor.length with hshort | hlong
  · rw [Nat.mod_eq_of_lt (h.lt_value hshort)]
    by_cases hzero : value dividend = 0
    · simp [hzero]
    · simp [hzero]
  · have hnone : remainderRead dividend divisor = [] := by
      rw [remainderRead, Nat.sub_eq_zero_of_le hlong, take_zero]
    simp [hnone]

end litestore
