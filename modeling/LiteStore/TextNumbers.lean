-- What the texts of numbers stand for, and what the parsers of the codec make of
-- them. A decimal text is a sign and digits, with one point among the digits.
import LiteStore.CellTexts
import LiteStore.OrderedKeys
import LiteStore.Lib.Buffer

namespace litestore

open List

/-! ## Decimal texts -/

def digitOf (c : Char) : Nat := c.toNat - '0'.toNat

def wholePart (body : List Char) : List Char := body.takeWhile (· ≠ '.')

def fractionPart (body : List Char) : List Char := (body.dropWhile (· ≠ '.')).drop 1

def signedNumber (negative : Bool) (magnitude : Nat) : Int :=
  if negative then -(magnitude : Int) else magnitude

/-- The number that a text stands for: all of its digits, and how many of them are behind the
point. None for every other text. -/
def decimalText (text : List Char) : Option (Int × Nat) :=
  let body := (splitSign text).2
  let ds := wholePart body ++ fractionPart body
  if ds.isEmpty || !ds.all Char.isDigit then none
  else some (signedNumber (splitSign text).1 (digits.value 10 (ds.map digitOf)),
    (fractionPart body).length)

@[simp] theorem natAbs_signedNumber (negative : Bool) (magnitude : Nat) :
    (signedNumber negative magnitude).natAbs = magnitude := by
  cases negative <;> simp [signedNumber]

theorem signedNumber_mul (negative : Bool) (magnitude k : Nat) :
    signedNumber negative (magnitude * k) = signedNumber negative magnitude * k := by
  cases negative <;> simp [signedNumber]

variable {c : Char} {text : List Char} {scale length f precision : Nat} {ds : List Nat} {m : Int}

theorem isDigit_iff : c.isDigit = true ↔ 48 ≤ c.toNat ∧ c.toNat ≤ 57 := by
  simp only [Char.isDigit, Bool.and_eq_true, decide_eq_true_eq, ge_iff_le]
  rfl

theorem digitOf_lt (h : c.isDigit = true) : digitOf c < 10 := by
  have hc := isDigit_iff.mp h
  show c.toNat - 48 < 10
  omega

theorem digits_lt {cs : List Char} (h : cs.all Char.isDigit = true) :
    ∀ d ∈ cs.map digitOf, d < 10 := by
  intro d hd
  obtain ⟨c, hc, rfl⟩ := mem_map.mp hd
  exact digitOf_lt (all_eq_true.mp h c hc)

/-! ## The loop over the digits -/

theorem point_not_digit : Char.isDigit '.' = false := by decide

theorem scanScaled_true (body : List Char) : scanScaled true body =
    if body.all Char.isDigit then some (body.map digitOf, body.length) else none := by
  induction body with
  | nil => rfl
  | cons c rest ih =>
    unfold scanScaled
    by_cases hpoint : c = '.'
    · subst hpoint
      simp [point_not_digit]
    · rw [if_neg hpoint, ih]
      cases hc : c.isDigit with
      | false => simp [hc]
      | true =>
        by_cases hrest : rest.all Char.isDigit = true
        · simp [hc, hrest, digitOf]
        · simp [hc, hrest]

theorem scanScaled_false (body : List Char) : scanScaled false body =
    if (wholePart body ++ fractionPart body).all Char.isDigit then
      some ((wholePart body ++ fractionPart body).map digitOf, (fractionPart body).length)
    else none := by
  induction body with
  | nil => rfl
  | cons c rest ih =>
    unfold scanScaled
    by_cases hpoint : c = '.'
    · subst hpoint
      rw [if_pos rfl, if_neg (by simp), scanScaled_true]
      rfl
    · have hwhole : wholePart (c :: rest) = c :: wholePart rest := by
        simp [wholePart, hpoint]
      have hfraction : fractionPart (c :: rest) = fractionPart rest := by
        simp [fractionPart, hpoint]
      rw [if_neg hpoint, ih, hwhole, hfraction]
      cases hc : c.isDigit with
      | false => simp [hc]
      | true =>
        by_cases hrest : (wholePart rest ++ fractionPart rest).all Char.isDigit = true
        · simp only [hc, Bool.not_true, Bool.false_eq_true, if_false, hrest, if_true,
            Option.map_some, cons_append, all_cons, Bool.true_and, map_cons]
          rfl
        · simp [hc, hrest]

/-! ## Scaled digits -/

/-- No digits come out of a text that is not a number or has too many digits behind the point. -/
theorem scaledDigits_eq_none :
    scaledDigits text scale = none ↔ ∀ m f, decimalText text = some (m, f) → scale < f := by
  unfold scaledDigits decimalText
  rw [scanScaled_false]
  dsimp only
  generalize wholePart (splitSign text).2 ++ fractionPart (splitSign text).2 = ds
  by_cases hdigits : ds.all Char.isDigit = true
  · cases ds with
    | nil => simp
    | cons d rest => simp [hdigits]
  · simp [hdigits]

theorem scaledDigits_eq_some {negative : Bool} (h : scaledDigits text scale = some (negative, ds)) :
    ∃ m f, decimalText text = some (m, f) ∧ f ≤ scale ∧ (∀ d ∈ ds, d < 10) ∧
      signedNumber negative (digits.value 10 ds) = m * 10 ^ (scale - f) := by
  unfold scaledDigits at h
  rw [scanScaled_false] at h
  by_cases hdigits :
      (wholePart (splitSign text).2 ++ fractionPart (splitSign text).2).all Char.isDigit = true
  · rw [if_pos hdigits] at h
    simp only [Option.ite_none_left_eq_some, Option.some.injEq, Prod.mk.injEq, Bool.or_eq_true,
      decide_eq_true_eq, not_or, isEmpty_map, Nat.not_lt] at h
    obtain ⟨⟨hne, hscale⟩, rfl, rfl⟩ := h
    have htext : decimalText text = some (signedNumber (splitSign text).1 (digits.value 10
        ((wholePart (splitSign text).2 ++ fractionPart (splitSign text).2).map digitOf)),
        (fractionPart (splitSign text).2).length) := by
      unfold decimalText
      dsimp only
      rw [if_neg (by simp [hne, hdigits])]
    refine ⟨_, _, htext, hscale, ?_, ?_⟩
    · intro d hd
      rcases mem_append.mp hd with hd | hd
      · exact digits_lt hdigits d hd
      · rw [eq_of_mem_replicate hd]
        decide
    · rw [digits.value_append, digits.value_replicate_zero, length_replicate, Nat.add_zero,
        signedNumber_mul]
      push_cast
      rfl
  · rw [if_neg hdigits] at h
    cases h

/-! ## Numbers of the machine -/

/-- The numbers of a type of `length` bytes. -/
def InBinaryRange (unsigned : Bool) (length : Nat) (n : Int) : Prop :=
  if unsigned then 0 ≤ n ∧ n < 2 ^ (8 * length)
  else -2 ^ (8 * length - 1) ≤ n ∧ n < 2 ^ (8 * length - 1)

instance (unsigned : Bool) (length : Nat) (n : Int) : Decidable (InBinaryRange unsigned length n) := by
  unfold InBinaryRange
  infer_instance

theorem littleEndian_intBytes (v : Int) (length : Nat) :
    (littleEndian (intBytes v length) : Int) = v % 2 ^ (8 * length) := by
  have hpow : (256 ^ length : Nat) = 2 ^ (8 * length) := by
    rw [pow_mul]
    norm_num
  have hpos : (0 : Int) < (2 ^ (8 * length) : Nat) := by positivity
  have hnonneg := Int.emod_nonneg v hpos.ne'
  have hlt := Int.emod_lt_of_pos v hpos
  unfold intBytes
  rw [littleEndian_lowFirst, hpow, Nat.mod_eq_of_lt (by omega), Int.toNat_of_nonneg hnonneg]
  push_cast
  rfl

/-- A number in range is read back as it was written. -/
theorem binaryNumber_intBytes {unsigned : Bool} {n : Int} (hpos : 0 < length)
    (h : InBinaryRange unsigned length n) : binaryNumber (intBytes n length) unsigned = n := by
  obtain ⟨-, hbits, -, hsign⟩ := pow_bits hpos
  have hbytes := littleEndian_intBytes n length
  unfold binaryNumber
  rw [intBytes_length, hbytes]
  unfold InBinaryRange at h
  cases unsigned with
  | true =>
    rw [if_pos rfl] at h
    rw [Bool.true_or, if_pos rfl, Int.emod_eq_of_lt h.1 h.2]
  | false =>
    rw [if_neg (by simp)] at h
    rw [Bool.false_or]
    by_cases hn : 0 ≤ n
    · have hmod : n % 2 ^ (8 * length) = n := Int.emod_eq_of_lt hn (by omega)
      rw [if_pos (by rw [decide_eq_true_eq]; omega), hmod]
    · have hmod : n % 2 ^ (8 * length) = n + 2 ^ (8 * length) := by
        rw [← Int.add_emod_right, Int.emod_eq_of_lt (by omega) (by omega)]
      rw [if_neg (by rw [decide_eq_true_eq]; omega), hmod]
      ring

/-- What is read is always in range. -/
theorem binaryNumber_inRange {b : Bytes} {unsigned : Bool} (hpos : 0 < b.length) :
    InBinaryRange unsigned b.length (binaryNumber b unsigned) := by
  have hlt := littleEndian_lt b
  obtain ⟨hbytes, hbits, hcast, hsign⟩ := pow_bits hpos
  unfold InBinaryRange binaryNumber
  cases unsigned with
  | true =>
    simp only [Bool.true_or, if_true]
    omega
  | false =>
    simp only [Bool.false_or, decide_eq_true_eq, Bool.false_eq_true, if_false]
    split <;> omega

/-- The bytes depend on the number up to 64 bits only. -/
theorem intBytes_congr {v w : Int} (h : v ≡ w [ZMOD 2 ^ 64]) (hlen : length ≤ 8) :
    intBytes v length = intBytes w length := by
  have hdvd : ((2 ^ (8 * length) : Nat) : Int) ∣ 2 ^ 64 := by
    exact_mod_cast pow_dvd_pow 2 (show 8 * length ≤ 64 by omega)
  unfold intBytes
  rw [(h.of_dvd hdvd).eq]

/-! ### Scaled integers -/

theorem foldl_mod (ds : List Nat) (acc : Nat) :
    ds.foldl (fun (m d : Nat) => (m * 10 + d) % 2 ^ 64) (acc % 2 ^ 64) =
      ds.foldl (fun m d => m * 10 + d) acc % 2 ^ 64 := by
  induction ds generalizing acc with
  | nil => rfl
  | cons d rest ih =>
    rw [foldl_cons, foldl_cons, ← ih]
    congr 1
    omega

/-- The sum of `parseScaledInt64` is right up to 64 bits. -/
theorem parseScaledInt64_eq_some {z : Int} (h : parseScaledInt64 text scale = some z) :
    ∃ m f, decimalText text = some (m, f) ∧ f ≤ scale ∧ z ≡ m * 10 ^ (scale - f) [ZMOD 2 ^ 64] := by
  unfold parseScaledInt64 at h
  obtain ⟨⟨negative, ds⟩, hds, hz⟩ := Option.map_eq_some_iff.mp h
  obtain ⟨m, f, htext, hf, -, hvalue⟩ := scaledDigits_eq_some hds
  refine ⟨m, f, htext, hf, ?_⟩
  have hsum : ds.foldl (fun (m d : Nat) => (m * 10 + d) % 2 ^ 64) 0 =
      digits.value 10 ds % 2 ^ 64 := foldl_mod ds 0
  dsimp only at hz
  rw [hsum] at hz
  rw [← hvalue, ← hz]
  generalize digits.value 10 ds = n
  unfold Int.ModEq signedNumber
  cases negative with
  | true =>
    simp only [if_true]
    split <;> omega
  | false =>
    simp only [Bool.false_eq_true, if_false]
    split <;> omega

theorem parseScaledInt64_eq_none :
    parseScaledInt64 text scale = none ↔ ∀ m f, decimalText text = some (m, f) → scale < f := by
  unfold parseScaledInt64
  rw [Option.map_eq_none_iff, scaledDigits_eq_none]

/-! ### `strtol` -/

/-- What `strtol` reads of a text behind its blanks. -/
theorem strtol_eq (text : List Char) : strtol text =
    let signed := splitSign (text.dropWhile isSpace)
    if signed.1 then max (-(leadingDigits signed.2 : Int)) (-2 ^ 63)
    else min (leadingDigits signed.2 : Int) (2 ^ 63 - 1) := by
  unfold strtol
  generalize text.dropWhile isSpace = s
  split
  · rfl
  · rfl
  · rename_i hminus hplus
    have hsign : splitSign s = (false, s) := by
      unfold splitSign
      split
      · exact absurd rfl (hminus _)
      · exact absurd rfl (hplus _)
      · rfl
    rw [hsign]
    rfl

theorem takeWhile_isDigit {body : List Char} (h : (wholePart body).all Char.isDigit = true) :
    body.takeWhile Char.isDigit = wholePart body := by
  induction body with
  | nil => rfl
  | cons c rest ih =>
    unfold wholePart at h ih ⊢
    by_cases hpoint : c = '.'
    · subst hpoint
      rw [takeWhile_cons_of_neg (by simp [point_not_digit]),
        takeWhile_cons_of_neg (by simp)]
    · rw [takeWhile_cons_of_pos (by simpa using hpoint), all_cons,
        Bool.and_eq_true] at h
      rw [takeWhile_cons_of_pos h.1, takeWhile_cons_of_pos (by simpa using hpoint),
        ih h.2]

/-- Of a number `strtol` reads the digits in front of the point, up to the bounds of a `long`. -/
theorem strtol_of_decimal (h : decimalText (text.dropWhile isSpace) = some (m, f)) :
    strtol text = max (min (m.tdiv (10 ^ f)) (2 ^ 63 - 1)) (-2 ^ 63) := by
  rw [strtol_eq]
  unfold decimalText at h
  simp only [Option.ite_none_left_eq_some, Option.some.injEq, Prod.mk.injEq, Bool.or_eq_true,
    Bool.not_eq_true', not_or, Bool.not_eq_false, all_append, Bool.and_eq_true] at h
  obtain ⟨⟨-, hwhole, hfraction⟩, rfl, rfl⟩ := h
  generalize splitSign (text.dropWhile isSpace) = signed at *
  obtain ⟨negative, body⟩ := signed
  dsimp only at *
  have hlead : leadingDigits body = digits.value 10 ((wholePart body).map digitOf) := by
    unfold leadingDigits digits.value
    rw [takeWhile_isDigit hwhole, foldl_map]
    rfl
  have hdiv : digits.value 10 ((wholePart body ++ fractionPart body).map digitOf) /
      10 ^ (fractionPart body).length = leadingDigits body := by
    have hlt := digits.value_lt (digits_lt hfraction)
    rw [length_map] at hlt
    rw [map_append, digits.value_append, length_map, ← hlead,
      Nat.add_div_of_dvd_right (Dvd.intro_left _ rfl), Nat.mul_div_cancel _ (by positivity),
      Nat.div_eq_of_lt hlt, Nat.add_zero]
  have hcast : ((10 ^ (fractionPart body).length : Nat) : Int) = 10 ^ (fractionPart body).length := by
    push_cast
    rfl
  rw [← hcast]
  unfold signedNumber
  cases negative with
  | true =>
    simp only [if_true]
    rw [Int.neg_tdiv, ← Int.ofNat_tdiv, hdiv]
    omega
  | false =>
    simp only [Bool.false_eq_true, if_false]
    rw [← Int.ofNat_tdiv, hdiv]
    omega

/-! ## Digits in bytes -/

/-- The digits of `parseScaledDigits` are those of the number, which has no more than
`precision` of them. -/
theorem parseScaledDigits_eq_some {negative : Bool}
    (h : parseScaledDigits text scale precision = some (negative, ds)) :
    ∃ m f, decimalText text = some (m, f) ∧ f ≤ scale ∧ ds.length = precision ∧
      (∀ d ∈ ds, d < 10) ∧ signedNumber negative (digits.value 10 ds) = m * 10 ^ (scale - f) := by
  unfold parseScaledDigits at h
  split at h
  · cases h
  · rename_i sign all hall
    obtain ⟨m, f, htext, hf, hlt, hvalue⟩ := scaledDigits_eq_some hall
    simp only [Option.ite_none_left_eq_some, Option.some.injEq, Prod.mk.injEq, Nat.not_lt] at h
    obtain ⟨hlen, rfl, rfl⟩ := h
    refine ⟨m, f, htext, hf, ?_, ?_, ?_⟩
    · rw [length_append, length_replicate]
      omega
    · intro d hd
      rcases mem_append.mp hd with hd | hd
      · rw [eq_of_mem_replicate hd]
        decide
      · split at hd
        · rw [mem_singleton.mp hd]
          decide
        · exact hlt d ((dropWhile_sublist _).subset hd)
    · rw [digits.value_append, digits.value_replicate_zero, Nat.zero_mul, Nat.zero_add, ← hvalue]
      have hsame := digits.value_dropWhile_zero (b := 10) all
      cases hsig : all.dropWhile (· = 0) with
      | nil =>
        rw [hsig] at hsame
        rw [← hsame]
        cases sign <;> rfl
      | cons d rest =>
        rw [hsig] at hsame
        simp [hsame]

theorem parseScaledDigits_eq_none (hpos : 0 < precision) :
    parseScaledDigits text scale precision = none ↔ ∀ m f, decimalText text = some (m, f) →
      f ≤ scale → 10 ^ precision ≤ (m * 10 ^ (scale - f)).natAbs := by
  unfold parseScaledDigits
  split
  · rename_i hnone
    have hall := scaledDigits_eq_none.mp hnone
    refine iff_of_true rfl fun m f htext hf => ?_
    have := hall m f htext
    omega
  · rename_i negative all hall
    obtain ⟨m, f, htext, hf, hlt, hvalue⟩ := scaledDigits_eq_some hall
    have hcount : (if (all.dropWhile (· = 0)).isEmpty then [0]
        else all.dropWhile (· = 0)).length > precision ↔
        10 ^ precision ≤ (m * 10 ^ (scale - f)).natAbs := by
      rw [← hvalue, natAbs_signedNumber, ← digits.value_dropWhile_zero]
      cases hsig : all.dropWhile (· = 0) with
      | nil =>
        have h1 : 0 < 10 ^ precision := by positivity
        simp only [isEmpty_nil, if_true, length_singleton, digits.value_nil]
        omega
      | cons d rest =>
        -- the first digit that counts is not zero, so it carries the size of the number
        have hd : d ≠ 0 := by
          have := head_dropWhile_not (· = 0) (show all.dropWhile (· = 0) ≠ [] by simp [hsig])
          simpa [hsig] using this
        have hmem : ∀ e ∈ d :: rest, e < 10 := fun e he =>
          hlt e ((dropWhile_sublist _).subset (hsig ▸ he))
        have hup := digits.value_lt hmem
        have hlo := digits.pow_le_value (b := 10) hd rest
        simp only [isEmpty_cons, Bool.false_eq_true, if_false]
        rw [length_cons] at hup ⊢
        constructor
        · intro hlen
          exact (Nat.pow_le_pow_right (by decide) (by omega)).trans hlo
        · intro hge
          have := (Nat.pow_lt_pow_iff_right (show 1 < 10 by decide)).mp (hge.trans_lt hup)
          omega
    simp only [ite_eq_left_iff, reduceCtorEq, imp_false, not_not, htext, Option.some.injEq,
      Prod.mk.injEq, hcount]
    constructor
    · rintro hge _ _ ⟨rfl, rfl⟩ -
      exact hge
    · intro hge
      exact hge m f ⟨rfl, rfl⟩ hf

/-- The digits in the bytes of a `DECIMAL` are read back. -/
theorem decimalNumber_digitBytes (hne : ds ≠ []) (h : ∀ d ∈ ds, d < 10) (negative : Bool) :
    decimalNumber (if negative then (digitBytes ds).modifyHead (· ||| 128) else digitBytes ds) =
      some (signedNumber negative (digits.value 10 ds)) := by
  have hbyte : ∀ d < 10, isDigitByte (UInt8.ofNat (48 + d)) = true ∧
      (UInt8.ofNat (48 + d)).toNat - 48 = d ∧
      UInt8.ofNat (48 + d) &&& 127 = UInt8.ofNat (48 + d) ∧
      (UInt8.ofNat (48 + d) ||| 128) &&& 127 = UInt8.ofNat (48 + d) ∧
      ¬ UInt8.ofNat (48 + d) ≥ 128 ∧ UInt8.ofNat (48 + d) ||| 128 ≥ 128 := by decide
  have hall : ∀ es : List Nat, (∀ d ∈ es, d < 10) → (digitBytes es).all isDigitByte = true := by
    intro es hes
    rw [all_eq_true]
    intro x hx
    obtain ⟨d, hd, rfl⟩ := mem_map.mp hx
    exact (hbyte d (hes d hd)).1
  have hback : (digitBytes ds).map (fun d => d.toNat - 48) = ds := by
    unfold digitBytes
    rw [map_map]
    conv_rhs => rw [← map_id ds]
    exact map_congr_left fun d hd => (hbyte d (h d hd)).2.1
  have hnumber : digitsNumber negative (digitBytes ds) =
      signedNumber negative (digits.value 10 ds) := by
    unfold digitsNumber
    rw [hback]
    rfl
  rw [← hnumber]
  cases ds with
  | nil => exact absurd rfl hne
  | cons d rest =>
    obtain ⟨-, -, hplain, hsigned, hlow, hhigh⟩ := hbyte d (h d mem_cons_self)
    have hread : ∀ first : UInt8, first &&& 127 = UInt8.ofNat (48 + d) →
        decimalNumber (first :: digitBytes rest) =
          some (digitsNumber (decide (first ≥ 128)) (digitBytes (d :: rest))) := by
      intro first hfirst
      dsimp only [decimalNumber]
      rw [hfirst]
      exact if_pos (hall _ h)
    cases negative with
    | true => exact (hread _ hsigned).trans (by rw [decide_eq_true hhigh])
    | false => exact (hread _ hplain).trans (by rw [decide_eq_false hlow])

/-! ## Large numbers -/

theorem lowFirst_concat (n length : Nat) :
    lowFirst n (length + 1) = lowFirst n length ++ [byteAt n length] := by
  simp [lowFirst, range_succ]

/-- The sign goes to a bit that the magnitude leaves free. -/
theorem littleEndian_signed {n : Nat} (hn : n < 2 ^ (8 * (length + 1) - 1)) :
    littleEndian ((lowFirst n (length + 1)).modify length (· ||| 128)) =
      n + 2 ^ (8 * (length + 1) - 1) := by
  have hsign : 2 ^ (8 * (length + 1) - 1) = 128 * 256 ^ length := by
    rw [show 8 * (length + 1) - 1 = 7 + 8 * length by omega, pow_add, pow_mul]
    norm_num
  have htop : (byteAt n length).toNat < 128 := by
    have hdiv : n / 256 ^ length < 128 := Nat.div_lt_of_lt_mul (by rw [mul_comm]; omega)
    rw [byteAt_toNat]
    exact (Nat.mod_le _ _).trans_lt hdiv
  have hor : ∀ k < 128, (UInt8.ofNat k ||| 128).toNat = k + 128 := by decide
  have hbyte : (byteAt n length ||| 128).toNat = (byteAt n length).toNat + 128 := by
    have := hor _ htop
    rwa [UInt8.ofNat_toNat] at this
  have hmodify : (lowFirst n (length + 1)).modify length (· ||| 128) =
      lowFirst n length ++ [byteAt n length ||| 128] := by
    have hlast := buffer.modify_concat (lowFirst n length) (byteAt n length) (· ||| 128)
    rwa [lowFirst_length, ← lowFirst_concat] at hlast
  have hone : ∀ x : UInt8, littleEndian [x] = x.toNat := fun x => by simp [littleEndian]
  have hwhole := littleEndian_lowFirst n (length + 1)
  rw [lowFirst_concat, littleEndian_append, lowFirst_length, hone, Nat.mod_eq_of_lt (by
    rw [pow_succ]; omega)] at hwhole
  rw [hmodify, littleEndian_append, lowFirst_length, hone, hbyte, hsign]
  linarith

/-- A magnitude and a sign are read back where the storage has room for the precision. -/
theorem bigNumber_lowFirst {n : Nat} (hpos : 0 < length) (hn : n < 10 ^ precision)
    (hroom : n < 2 ^ (8 * length - 1)) (negative : Bool) :
    bigNumber (if negative then (lowFirst n length).modify (length - 1) (· ||| 128)
      else lowFirst n length) precision = some (signedNumber negative n) := by
  obtain ⟨len, rfl⟩ := Nat.exists_eq_succ_of_ne_zero hpos.ne'
  have hfit : n < 2 ^ (8 * (len + 1) - 1) := hroom
  unfold bigNumber
  cases negative with
  | true =>
    have hbytes := littleEndian_signed hfit
    simp only [if_true, Nat.succ_eq_add_one, Nat.add_sub_cancel, length_modify,
      lowFirst_length, hbytes, Nat.add_mod_right, Nat.mod_eq_of_lt hfit, hn]
    simp [signedNumber]
  | false =>
    have hpow : 256 ^ (len + 1) = 2 * 2 ^ (8 * (len + 1) - 1) := by
      rw [← pow_succ', show 8 * (len + 1) - 1 + 1 = 8 * (len + 1) by omega, pow_mul]
      norm_num
    have hbytes : littleEndian (lowFirst n (len + 1)) = n := by
      rw [littleEndian_lowFirst, Nat.mod_eq_of_lt (by omega)]
    simp only [Bool.false_eq_true, if_false, Nat.succ_eq_add_one, lowFirst_length, hbytes,
      Nat.mod_eq_of_lt hfit, hn, if_true]
    rw [if_neg (by omega)]
    rfl

/-- The digits that `writeBigNumValue` hands on: their count goes through an `Lng32`. -/
def digitsKept (precision : Nat) : Nat := (lng32 (precision + 1) - 1).toNat

theorem digitsKept_eq (h : precision + 1 < 2 ^ 31) : digitsKept precision = precision := by
  unfold digitsKept lng32
  rw [Nat.mod_eq_of_lt (by omega), if_pos h]
  omega

theorem digitsKept_cases (precision : Nat) : digitsKept precision = 0 ∨
    (digitsKept precision = precision % 2 ^ 32 ∧ digitsKept precision + 1 < 2 ^ 31) := by
  unfold digitsKept lng32
  split <;> omega

theorem digitsKept_le (precision : Nat) : digitsKept precision ≤ precision := by
  have := digitsKept_cases precision
  have := Nat.mod_le precision (2 ^ 32)
  omega

theorem digitsKept_lt (h : 2 ^ 31 ≤ precision + 1) : digitsKept precision < precision := by
  have := digitsKept_cases precision
  omega

/-- The storage of a large number has room for its digits and for the sign: a digit takes less
than 3.328 bits, since `10 ^ 59 ≤ 2 ^ 196`. -/
theorem pow_le_bigNumStorage (precision : Nat) :
    10 ^ digitsKept precision ≤ 2 ^ (8 * bigNumStorageSize precision - 1) := by
  have hbits : 196 * digitsKept precision ≤ 59 * (8 * bigNumStorageSize precision - 1) := by
    rcases digitsKept_cases precision with h | ⟨h, hlt⟩
    · rw [h]
      exact Nat.zero_le _
    · unfold bigNumStorageSize
      dsimp only
      rw [← h, if_pos (by omega)]
      have := Nat.le_max_left (digitsKept precision) 18
      omega
  refine (Nat.pow_le_pow_iff_left (show 59 ≠ 0 by decide)).mp ?_
  calc (10 ^ digitsKept precision) ^ 59 = (10 ^ 59) ^ digitsKept precision := by
        rw [← pow_mul, ← pow_mul, mul_comm]
    _ ≤ (2 ^ 196) ^ digitsKept precision := Nat.pow_le_pow_left (by norm_num) _
    _ = 2 ^ (196 * digitsKept precision) := by rw [← pow_mul]
    _ ≤ 2 ^ (59 * (8 * bigNumStorageSize precision - 1)) := Nat.pow_le_pow_right (by decide) hbits
    _ = _ := by rw [← pow_mul, mul_comm]

/-! ## Texts and zero bytes -/

/-- The characters of a decimal text. -/
def isNumberChar (c : Char) : Bool := c = '+' || c = '-' || c = '.' || c.isDigit

theorem isNumberChar_body {body : List Char}
    (h : (wholePart body ++ fractionPart body).all Char.isDigit = true) :
    ∀ c ∈ body, isNumberChar c = true := by
  have hdigit : ∀ c ∈ wholePart body ++ fractionPart body, isNumberChar c = true := by
    intro c hc
    simp [isNumberChar, all_eq_true.mp h c hc]
  intro c hc
  rw [← takeWhile_append_dropWhile (p := (· ≠ '.')) (l := body)] at hc
  rcases mem_append.mp hc with hc | hc
  · exact hdigit c (mem_append_left _ hc)
  · cases hdrop : body.dropWhile (· ≠ '.') with
    | nil =>
      rw [hdrop] at hc
      cases hc
    | cons d rest =>
      have hpoint : d = '.' := by
        have := head_dropWhile_not (· ≠ '.')
          (show body.dropWhile (· ≠ '.') ≠ [] by rw [hdrop]; exact cons_ne_nil _ _)
        simp only [hdrop, head_cons] at this
        simpa using this
      rw [hdrop] at hc
      rcases mem_cons.mp hc with rfl | hc
      · rw [hpoint]
        decide
      · refine hdigit c (mem_append_right _ ?_)
        unfold fractionPart
        rw [hdrop]
        exact hc

theorem isNumberChar_of_decimal (h : decimalText text = some (m, f)) :
    ∀ c ∈ text, isNumberChar c = true := by
  unfold decimalText at h
  simp only [Option.ite_none_left_eq_some, Bool.or_eq_true, Bool.not_eq_true', not_or,
    Bool.not_eq_false] at h
  have hbody := isNumberChar_body h.1.2
  unfold splitSign at hbody
  intro c hc
  split at hbody
  iterate 2
    · rcases mem_cons.mp hc with rfl | hc
      · decide
      · exact hbody c hc
  · exact hbody c hc

theorem isSpace_of_isNumberChar (h : isNumberChar c = true) : isSpace c = false := by
  simp only [isNumberChar, Bool.or_eq_true, decide_eq_true_eq] at h
  rcases h with ((rfl | rfl) | rfl) | h
  · decide
  · decide
  · decide
  · have := isDigit_iff.mp h
    unfold isSpace
    simp only [Bool.or_eq_false_iff, Bool.and_eq_false_iff, decide_eq_false_iff_not]
    omega

/-- A decimal text has no blanks in front. -/
theorem dropWhile_of_decimal (h : decimalText text = some (m, f)) :
    text.dropWhile isSpace = text := by
  cases text with
  | nil => rfl
  | cons c rest =>
    have hc := isSpace_of_isNumberChar (isNumberChar_of_decimal h c mem_cons_self)
    rw [dropWhile_cons_of_neg (by simp [hc])]

theorem cBytes_of_no_zero {value : Bytes} (h : (0 : UInt8) ∉ value) : cBytes value = value := by
  unfold cBytes
  rw [takeWhile_eq_self_iff]
  intro b hb
  rw [decide_eq_true_eq]
  rintro rfl
  exact h hb

/-- The number of a text in units of a scale, where it is a whole number of them. Blanks may
stand in front. -/
def numberText (text : List Char) (scale : Nat) : Option Int :=
  match decimalText (text.dropWhile isSpace) with
  | none => none
  | some (m, f) =>
    if (10 ^ f : Int) ∣ m * 10 ^ scale then some (m * 10 ^ scale / 10 ^ f) else none

/-- No number has a zero byte in its text. -/
theorem no_zero_of_numberText {value : Bytes} {n : Int}
    (h : numberText (charsOf value) scale = some n) : (0 : UInt8) ∉ value := by
  intro hzero
  have hmem : Char.ofNat 0 ∈ charsOf value := mem_map.mpr ⟨0, hzero, rfl⟩
  unfold numberText at h
  split at h
  · cases h
  · rename_i m f htext
    rw [← takeWhile_append_dropWhile (p := isSpace) (l := charsOf value)] at hmem
    rcases mem_append.mp hmem with hmem | hmem
    · have := mem_takeWhile_imp hmem
      revert this
      decide
    · have := isNumberChar_of_decimal htext _ hmem
      revert this
      decide

/-- Where the digits behind the point are not more than the scale. -/
theorem numberText_of_decimal (h : decimalText text = some (m, f)) (hf : f ≤ scale) :
    numberText text scale = some (m * 10 ^ (scale - f)) := by
  have hpow : (10 ^ scale : Int) = 10 ^ (scale - f) * 10 ^ f := by
    rw [← pow_add, Nat.sub_add_cancel hf]
  have hne : (10 ^ f : Int) ≠ 0 := by positivity
  unfold numberText
  rw [dropWhile_of_decimal h, h]
  dsimp only
  rw [hpow, ← mul_assoc, if_pos (Dvd.intro_left _ rfl), Int.mul_ediv_cancel _ hne]

end litestore
