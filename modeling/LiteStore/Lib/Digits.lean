-- Numbers as digits, the most significant first. With the same number of
-- digits the order of the digit strings is the order of the numbers.
import Mathlib

namespace digits

open List

variable {b : Nat}

/-- The number that some digits stand for. -/
def value (b : Nat) (ds : List Nat) : Nat := ds.foldl (fun acc d => acc * b + d) 0

/-- The last `width` digits of a number. -/
def fixed (b width n : Nat) : List Nat := (range width).reverse.map fun i => n / b ^ i % b

@[simp] theorem value_nil : value b [] = 0 := rfl

theorem foldl_value (ds : List Nat) (acc : Nat) :
    ds.foldl (fun acc d => acc * b + d) acc = acc * b ^ ds.length + value b ds := by
  induction ds generalizing acc with
  | nil => simp [value]
  | cons d ds ih =>
    have hcons : value b (d :: ds) = ds.foldl (fun acc d => acc * b + d) d := by
      simp [value]
    rw [hcons, ih, foldl_cons, ih, length_cons, pow_succ]
    ring

theorem value_cons (d : Nat) (ds : List Nat) :
    value b (d :: ds) = d * b ^ ds.length + value b ds := by
  have h := foldl_value (b := b) ds d
  simpa [value] using h

theorem value_append (ds es : List Nat) :
    value b (ds ++ es) = value b ds * b ^ es.length + value b es := by
  rw [value, foldl_append, foldl_value]
  rfl

variable {ds : List Nat}

theorem value_lt (h : ∀ d ∈ ds, d < b) : value b ds < b ^ ds.length := by
  induction ds with
  | nil => simp
  | cons d ds ih =>
    rw [value_cons, length_cons, pow_succ']
    have hd : d + 1 ≤ b := h d mem_cons_self
    have hrest := ih fun e he => h e (mem_cons_of_mem _ he)
    calc d * b ^ ds.length + value b ds < d * b ^ ds.length + b ^ ds.length := by omega
      _ = (d + 1) * b ^ ds.length := by ring
      _ ≤ b * b ^ ds.length := Nat.mul_le_mul_right _ hd

theorem value_eq_zero_iff (hb : 0 < b) : value b ds = 0 ↔ ∀ d ∈ ds, d = 0 := by
  induction ds with
  | nil => simp
  | cons d ds ih =>
    have hpow : b ^ ds.length ≠ 0 := (Nat.pow_pos hb).ne'
    rw [value_cons, Nat.add_eq_zero_iff, ih, Nat.mul_eq_zero, or_iff_left hpow, forall_mem_cons]

theorem value_replicate_zero (n : Nat) : value b (replicate n 0) = 0 := by
  induction n with
  | zero => rfl
  | succ n ih => rw [replicate_succ, value_cons, ih, Nat.zero_mul]

/-- Zeros in front do not count. -/
theorem value_dropWhile_zero (ds : List Nat) : value b (ds.dropWhile (· = 0)) = value b ds := by
  induction ds with
  | nil => rfl
  | cons d ds ih =>
    by_cases hd : d = 0
    · rw [dropWhile_cons_of_pos (by simpa using hd), ih, value_cons, hd, Nat.zero_mul,
        Nat.zero_add]
    · rw [dropWhile_cons_of_neg (by simpa using hd)]

theorem pow_le_value {d : Nat} (hd : d ≠ 0) (ds : List Nat) :
    b ^ ds.length ≤ value b (d :: ds) := by
  rw [value_cons]
  calc b ^ ds.length ≤ d * b ^ ds.length := Nat.le_mul_of_pos_left _ (Nat.pos_of_ne_zero hd)
    _ ≤ d * b ^ ds.length + value b ds := Nat.le_add_right _ _

/-- The digits of Mathlib, which begin with the last one. -/
theorem value_reverse_digits (n : Nat) : value b (Nat.digits b n).reverse = n := by
  have hfold : value b (Nat.digits b n).reverse = Nat.ofDigits b (Nat.digits b n) := by
    rw [value, foldl_reverse, Nat.ofDigits_eq_foldr]
    congr 1
    funext d acc
    simp [Nat.mul_comm, Nat.add_comm]
  rw [hfold, Nat.ofDigits_digits]

@[simp] theorem fixed_length (width n : Nat) : (fixed b width n).length = width := by
  simp [fixed]

theorem fixed_succ (width n : Nat) :
    fixed b (width + 1) n = (n / b ^ width % b) :: fixed b width n := by
  simp [fixed, range_succ]

theorem fixed_lt (hb : 0 < b) {width n d : Nat} (h : d ∈ fixed b width n) : d < b := by
  obtain ⟨i, -, rfl⟩ := mem_map.mp h
  exact Nat.mod_lt _ hb

/-- Digits and number are the same thing. -/
theorem value_fixed (width n : Nat) : value b (fixed b width n) = n % b ^ width := by
  induction width with
  | zero => simp [fixed, Nat.mod_one]
  | succ width ih =>
    rw [fixed_succ, value_cons, fixed_length, ih, pow_succ, Nat.mod_mul, mul_comm]
    omega

theorem fixed_inj {width n m : Nat} (hn : n < b ^ width) (hm : m < b ^ width)
    (h : fixed b width n = fixed b width m) : n = m := by
  have hv := congrArg (value b) h
  rwa [value_fixed, value_fixed, Nat.mod_eq_of_lt hn, Nat.mod_eq_of_lt hm] at hv

/-- The order of digit strings of one length is the order of the numbers. -/
theorem cons_lt_cons {d e k lo hi : Nat} (hde : d < e) (hlo : lo < b ^ k) :
    d * b ^ k + lo < e * b ^ k + hi :=
  calc d * b ^ k + lo < d * b ^ k + b ^ k := by omega
    _ = (d + 1) * b ^ k := by ring
    _ ≤ e * b ^ k := Nat.mul_le_mul_right _ hde
    _ ≤ _ := Nat.le_add_right _ _

theorem compare_eq {es : List Nat} (hlen : ds.length = es.length) (hd : ∀ d ∈ ds, d < b)
    (he : ∀ e ∈ es, e < b) : compare ds es = compare (value b ds) (value b es) := by
  induction ds generalizing es with
  | nil =>
    cases es with
    | nil => rfl
    | cons e es => simp at hlen
  | cons d ds ih =>
    cases es with
    | nil => simp at hlen
    | cons e es =>
      have hlen' : ds.length = es.length := by simpa using hlen
      have hds : ∀ x ∈ ds, x < b := fun x hx => hd x (mem_cons_of_mem _ hx)
      have hes : ∀ x ∈ es, x < b := fun x hx => he x (mem_cons_of_mem _ hx)
      have hlo := value_lt hds
      have hlo' := value_lt hes
      rw [List.compare_cons_cons, ih hlen' hds hes, value_cons, value_cons, hlen']
      rw [hlen'] at hlo
      rcases Nat.lt_trichotomy d e with hde | rfl | hde
      · rw [Nat.compare_eq_lt.mpr hde, Nat.compare_eq_lt.mpr (cons_lt_cons hde hlo)]
        rfl
      · have hself : compare d d = .eq := Std.ReflOrd.compare_self
        rw [hself]
        show compare (value b ds) (value b es) = _
        simp only [compare, compareOfLessAndEq, Nat.add_lt_add_iff_left, Nat.add_left_cancel_iff]
      · rw [Nat.compare_eq_gt.mpr hde, Nat.compare_eq_gt.mpr (cons_lt_cons hde hlo')]
        rfl

/-- The digits of the number that some digits stand for are those digits. -/
theorem fixed_value (h : ∀ d ∈ ds, d < b) : fixed b ds.length (value b ds) = ds := by
  cases ds with
  | nil => rfl
  | cons d ds =>
    have hb : 0 < b := Nat.lt_of_le_of_lt (Nat.zero_le d) (h d mem_cons_self)
    have hcmp := compare_eq (b := b) (fixed_length (d :: ds).length (value b (d :: ds)))
      (fun _ => fixed_lt hb) h
    rw [value_fixed, Nat.mod_eq_of_lt (value_lt h), Std.ReflOrd.compare_self] at hcmp
    exact Std.LawfulEqOrd.eq_of_compare hcmp

end digits
