-- Numbers as lists of 16-bit digits, the lowest digit first, and the estimate
-- of a quotient digit from the leading digits of a long division.
import Mathlib

namespace limbs

open List

/-! ## The value of some digits -/

/-- The number that some digits stand for, the lowest digit first. -/
def value (ds : List UInt16) : Nat := Nat.ofDigits 65536 (ds.map UInt16.toNat)

theorem digit_ofNat (n : Nat) : (UInt16.ofNat n).toNat = n % 65536 := UInt16.toNat_ofNat'

@[simp] theorem value_nil : value [] = 0 := rfl

@[simp] theorem value_cons (d : UInt16) (ds : List UInt16) :
    value (d :: ds) = d.toNat + 65536 * value ds := by
  simp [value, Nat.ofDigits_cons]

@[simp] theorem value_append (ds es : List UInt16) :
    value (ds ++ es) = value ds + 65536 ^ ds.length * value es := by
  simp [value, Nat.ofDigits_append]

theorem value_lt (ds : List UInt16) : value ds < 65536 ^ ds.length := by
  have h := @Nat.ofDigits_lt_base_pow_length 65536 (ds.map UInt16.toNat) (by decide) (by
    intro x hx
    obtain ⟨d, -, rfl⟩ := mem_map.mp hx
    exact d.toNat_lt)
  simpa [value] using h

@[simp] theorem value_replicate_zero (n : Nat) : value (replicate n 0) = 0 := by
  induction n with
  | zero => rfl
  | succ n ih => simp [replicate_succ, ih]

variable {ds : List UInt16}

theorem value_eq_zero_iff : value ds = 0 ↔ ∀ d ∈ ds, d = 0 := by
  induction ds with
  | nil => simp
  | cons d ds ih =>
    rw [value_cons, forall_mem_cons, ← ih, ← UInt16.toNat_inj]
    simp

/-- Digits are determined by their number and their value. -/
theorem value_inj {es : List UInt16} (hlen : ds.length = es.length) (h : value ds = value es) :
    ds = es := by
  induction ds generalizing es with
  | nil => exact (length_eq_zero_iff.mp hlen.symm).symm
  | cons d ds ih =>
    cases es with
    | nil => cases hlen
    | cons e es =>
      rw [value_cons, value_cons] at h
      have hd := d.toNat_lt
      have he := e.toNat_lt
      have hhead : d.toNat = e.toNat := by omega
      have htail : value ds = value es := by omega
      rw [UInt16.toNat_inj.mp hhead, ih (by simpa using hlen) htail]

/-- The low digits are the remainder and the others the quotient. -/
theorem value_take_drop (ds : List UInt16) (k : Nat) :
    value (ds.take k) = value ds % 65536 ^ k ∧ value (ds.drop k) = value ds / 65536 ^ k := by
  rcases Nat.lt_or_ge k ds.length with hk | hk
  · have hlen : (ds.take k).length = k := length_take_of_le hk.le
    have hsplit : value ds = value (ds.take k) + 65536 ^ k * value (ds.drop k) := by
      have h := value_append (ds.take k) (ds.drop k)
      rwa [take_append_drop, hlen] at h
    have hlt : value (ds.take k) < 65536 ^ k := by
      have h := value_lt (ds.take k)
      rwa [hlen] at h
    rw [hsplit]
    constructor
    · rw [Nat.add_mul_mod_self_left, Nat.mod_eq_of_lt hlt]
    · rw [Nat.add_mul_div_left _ _ (by positivity), Nat.div_eq_of_lt hlt, Nat.zero_add]
  · have hlt : value ds < 65536 ^ k :=
      (value_lt ds).trans_le (Nat.pow_le_pow_right (by decide) hk)
    rw [take_of_length_le hk, drop_of_length_le hk, Nat.mod_eq_of_lt hlt, Nat.div_eq_of_lt hlt]
    exact ⟨rfl, rfl⟩

/-! ## Digits without the zeros at the top -/

/-- The digits below the zeros at the top. -/
def trim (ds : List UInt16) : List UInt16 := ds.rdropWhile (· == 0)

@[simp] theorem value_trim (ds : List UInt16) : value (trim ds) = value ds := by
  induction ds using reverseRecOn with
  | nil => rfl
  | append_singleton ds d ih =>
    rw [trim, rdropWhile_concat]
    split
    · rename_i hd
      rw [beq_iff_eq.mp hd, ← trim, ih]
      simp
    · rfl

theorem trim_eq_nil_iff : trim ds = [] ↔ value ds = 0 := by
  rw [trim, rdropWhile_eq_nil_iff, value_eq_zero_iff]
  simp

theorem exists_concat (h : ds ≠ []) : ∃ low d, ds = low ++ [d] :=
  ⟨_, _, (dropLast_append_getLast h).symm⟩

/-- A number is at least the place of its top digit. -/
theorem le_value_of_top (h : ds.getLastD 0 ≠ 0) : 65536 ^ (ds.length - 1) ≤ value ds := by
  rcases eq_or_ne ds [] with rfl | hne
  · exact absurd rfl h
  obtain ⟨low, d, rfl⟩ := exists_concat hne
  rw [getLastD_concat] at h
  have hd : d.toNat ≠ 0 := fun hzero => h (UInt16.toNat_inj.mp hzero)
  simp only [length_append, length_singleton, Nat.add_sub_cancel, value_append,
    value_cons, value_nil, Nat.mul_zero, Nat.add_zero]
  exact (Nat.le_mul_of_pos_right _ (Nat.pos_of_ne_zero hd)).trans (Nat.le_add_left _ _)

theorem getLastD_trim_ne (h : trim ds ≠ []) : (trim ds).getLastD 0 ≠ 0 := by
  have htop := rdropWhile_last_not (· == 0) ds h
  rw [getLastD_eq_getLast?, getLast?_eq_some_getLast h, Option.getD_some]
  exact fun hzero => htop (beq_iff_eq.mpr hzero)

theorem le_value_trim (h : trim ds ≠ []) : 65536 ^ ((trim ds).length - 1) ≤ value ds :=
  (le_value_of_top (getLastD_trim_ne h)).trans_eq (value_trim ds)

/-! ## The top bit of a digit -/

theorem toNat_clear_top (d : UInt16) : (d &&& 0x7FFF).toNat = d.toNat % 32768 := by
  rw [UInt16.toNat_and]
  exact Nat.and_two_pow_sub_one_eq_mod d.toNat 15

theorem toNat_set_top (d : UInt16) : (d ||| 0x8000).toNat = d.toNat % 32768 + 32768 := by
  have hd := d.toNat_lt
  have hor : 32768 ||| d.toNat % 32768 = 32768 + d.toNat % 32768 :=
    (Nat.two_pow_add_eq_or_of_lt (i := 15) (Nat.mod_lt _ (by decide)) 1).symm
  rw [UInt16.toNat_or]
  change d.toNat ||| 32768 = _
  rcases Nat.lt_or_ge d.toNat 32768 with h | h
  · rw [Nat.or_comm, ← Nat.mod_eq_of_lt h, hor, Nat.mod_mod, Nat.add_comm]
  · have hsplit : d.toNat = 32768 ||| d.toNat % 32768 := by omega
    nth_rewrite 1 [hsplit]
    rw [Nat.or_right_comm, Nat.or_self, hor, Nat.add_comm]

theorem top_clear_iff (d : UInt16) : d &&& 0x8000 = 0 ↔ d.toNat < 32768 := by
  have hd := d.toNat_lt
  have hand : d.toNat &&& 32768 = (d.toNat.testBit 15).toNat * 32768 := Nat.and_two_pow d.toNat 15
  rw [← UInt16.toNat_inj, UInt16.toNat_and]
  change d.toNat &&& 32768 = 0 ↔ _
  rw [hand, Nat.testBit_eq_decide_div_mod_eq]
  simp
  omega

/-! ## The estimate of a quotient digit

A dividend `u` and a divisor `d` are cut after the same number of places, into
`u₁ * p + u₀` and `d₁ * p + d₀`. The quotient of the leading parts is never too
small, and where the leading part of the divisor exceeds the base it is at most
one too large. -/

section Estimate

variable {b p u₁ u₀ d₁ d₀ : Nat}

theorem le_estimate (hu : u₀ < p) (hd₁ : 0 < d₁) :
    (u₁ * p + u₀) / (d₁ * p + d₀) ≤ u₁ / d₁ := by
  rw [Nat.le_div_iff_mul_le hd₁]
  have hmul := Nat.div_mul_le_self (u₁ * p + u₀) (d₁ * p + d₀)
  generalize (u₁ * p + u₀) / (d₁ * p + d₀) = q at hmul ⊢
  have hlt : q * d₁ * p < (u₁ + 1) * p := by
    calc q * d₁ * p ≤ q * (d₁ * p + d₀) := by nlinarith [Nat.zero_le (q * d₀)]
      _ ≤ u₁ * p + u₀ := hmul
      _ < (u₁ + 1) * p := by linarith
  have := lt_of_mul_lt_mul_right hlt (Nat.zero_le p)
  omega

/-- The estimate is a digit, or the base itself. -/
theorem estimate_le_base (hd : d₀ < p) (hb : b < d₁)
    (hlt : u₁ * p + u₀ < (d₁ * p + d₀) * b) : u₁ / d₁ ≤ b := by
  have hlead : u₁ * p < (d₁ + 1) * b * p := by
    calc u₁ * p ≤ u₁ * p + u₀ := Nat.le_add_right _ _
      _ < (d₁ * p + d₀) * b := hlt
      _ ≤ ((d₁ + 1) * p) * b := Nat.mul_le_mul_right b (by linarith)
      _ = (d₁ + 1) * b * p := by ring
  have hu₁ : u₁ < (d₁ + 1) * b := lt_of_mul_lt_mul_right hlead (Nat.zero_le p)
  rw [← Nat.lt_succ_iff, Nat.div_lt_iff_lt_mul (by omega)]
  calc u₁ < (d₁ + 1) * b := hu₁
    _ = b * d₁ + b := by ring
    _ ≤ b * d₁ + d₁ := by omega
    _ = (b + 1) * d₁ := by ring

theorem estimate_le (hd : d₀ < p) (hb : b < d₁)
    (hlt : u₁ * p + u₀ < (d₁ * p + d₀) * b) :
    u₁ / d₁ ≤ (u₁ * p + u₀) / (d₁ * p + d₀) + 1 := by
  have hbase := estimate_le_base hd hb hlt
  have hmul := Nat.div_mul_le_self u₁ d₁
  have hpos : 0 < d₁ * p + d₀ := by
    have : 0 < d₁ * p := Nat.mul_pos (by omega) (by omega)
    omega
  generalize u₁ / d₁ = e at hbase hmul ⊢
  rw [← Nat.sub_le_iff_le_add, Nat.le_div_iff_mul_le hpos]
  rcases Nat.eq_zero_or_pos e with rfl | he
  · simp
  -- e * d exceeds e * d₁ * p by less than e * p, which is no more than one d
  have hexcess : e * d₀ ≤ d₁ * p := Nat.mul_le_mul (by omega) hd.le
  calc (e - 1) * (d₁ * p + d₀) = e * (d₁ * p + d₀) - (d₁ * p + d₀) := by
        rw [Nat.sub_mul, Nat.one_mul]
    _ ≤ e * d₁ * p := by
        have hexpand : e * (d₁ * p + d₀) = e * d₁ * p + e * d₀ := by ring
        omega
    _ ≤ u₁ * p := Nat.mul_le_mul_right p hmul
    _ ≤ u₁ * p + u₀ := Nat.le_add_right _ _

/-- The estimate cut at the largest digit is the quotient digit or one more. -/
theorem estimate_cut (hu : u₀ < p) (hd : d₀ < p) (hb : b + 1 < d₁)
    (hlt : u₁ * p + u₀ < (d₁ * p + d₀) * (b + 1)) :
    (u₁ * p + u₀) / (d₁ * p + d₀) ≤ min (u₁ / d₁) b ∧
      min (u₁ / d₁) b ≤ (u₁ * p + u₀) / (d₁ * p + d₀) + 1 := by
  have hdigit : (u₁ * p + u₀) / (d₁ * p + d₀) < b + 1 := Nat.div_lt_of_lt_mul hlt
  have hge : (u₁ * p + u₀) / (d₁ * p + d₀) ≤ u₁ / d₁ := le_estimate hu (by omega)
  have hle : u₁ / d₁ ≤ (u₁ * p + u₀) / (d₁ * p + d₀) + 1 := estimate_le hd hb hlt
  omega

end Estimate

end limbs
