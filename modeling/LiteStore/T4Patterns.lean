-- The patterns of the catalog calls (TrafodionLiteServerMain.cpp). A call for tables, columns or
-- keys gives a pattern for each part of the name. t4PatternMatches goes through the pattern and
-- the value at once and tries every place behind a percent sign, so it is LIKE on bytes.
import LiteStore.LikeAnswers

namespace litestore

open List wildcard

variable {value pattern : Bytes}

/-! ## The functions of the server -/

/-- The inner loop: the first offset from here on where no percent sign stands. -/
def skipPercents (pattern : Bytes) (patternOffset : Nat) : Nat :=
  if pattern[patternOffset]? = some 37 then skipPercents pattern (patternOffset + 1)
  else patternOffset
termination_by pattern.length - patternOffset
decreasing_by
  obtain ⟨hlt, -⟩ := List.getElem?_eq_some_iff.mp ‹_›
  omega

theorem le_skipPercents (pattern : Bytes) (patternOffset : Nat) :
    patternOffset ≤ skipPercents pattern patternOffset := by
  fun_induction skipPercents pattern patternOffset with
  | case1 offset _ ih => exact (Nat.le_succ offset).trans ih
  | case2 => exact le_rfl

theorem lt_skipPercents {patternOffset : Nat} (hp : patternOffset < pattern.length)
    (hrun : pattern[patternOffset] = 37) : patternOffset < skipPercents pattern patternOffset := by
  rw [skipPercents, if_pos (List.getElem?_eq_some_iff.mpr ⟨hp, hrun⟩)]
  exact le_skipPercents pattern (patternOffset + 1)

/-- `t4PatternMatches`: a turn of the loop goes on with the two offsets behind it. The calls behind
percent signs begin at every place that is left in the value, its end included. -/
def t4PatternMatches (value pattern : Bytes) (valueOffset patternOffset : Nat) : Bool :=
  if hp : patternOffset < pattern.length then
    if hrun : pattern[patternOffset] = 37 then
      if skipPercents pattern patternOffset = pattern.length then true
      else (range' valueOffset (value.length + 1 - valueOffset)).any fun i =>
        t4PatternMatches value pattern i (skipPercents pattern patternOffset)
    else if hv : valueOffset < value.length then
      if pattern[patternOffset] ≠ 95 ∧ pattern[patternOffset] ≠ value[valueOffset] then false
      else t4PatternMatches value pattern (valueOffset + 1) (patternOffset + 1)
    else false
  else valueOffset == value.length
termination_by pattern.length - patternOffset
decreasing_by
  · have := lt_skipPercents hp hrun
    omega
  · omega

/-- `t4Matches`: an empty pattern asks for nothing. -/
def t4Matches (value pattern : Bytes) : Bool :=
  pattern.isEmpty || pattern == [37] || t4PatternMatches value pattern 0 0

/-! ## What matches -/

/-- What the bytes of a pattern stand for: a percent sign for a run, an underscore for one byte,
and any other byte for itself. -/
def t4Elements (pattern : Bytes) : List (Element UInt8) := pattern.map (plain 95 37)

/-- The elements from an offset on. -/
theorem t4Elements_drop {offset : Nat} (h : offset < pattern.length) :
    t4Elements (pattern.drop offset) =
      plain 95 37 pattern[offset] :: t4Elements (pattern.drop (offset + 1)) := by
  rw [drop_eq_getElem_cons h]
  rfl

/-- Behind a run, more percent signs change nothing. -/
theorem cut_skipPercents (pattern : Bytes) (patternOffset : Nat) (text : Bytes) :
    Cut (.run :: t4Elements (pattern.drop (skipPercents pattern patternOffset))) text ↔
      Cut (.run :: t4Elements (pattern.drop patternOffset)) text := by
  fun_induction skipPercents pattern patternOffset with
  | case1 offset h ih =>
    obtain ⟨hlt, hrun⟩ := List.getElem?_eq_some_iff.mp h
    rw [ih, t4Elements_drop hlt, hrun]
    exact (cut_run_run _ _).symm
  | case2 => rfl

section

variable {patternOffset : Nat} {text : Bytes} (hp : patternOffset < pattern.length)
include hp

theorem cut_percent (hrun : pattern[patternOffset] = 37) :
    Cut (t4Elements (pattern.drop patternOffset)) text ↔
      Cut (.run :: t4Elements (pattern.drop (skipPercents pattern patternOffset))) text := by
  rw [cut_skipPercents, t4Elements_drop hp, hrun]
  exact (cut_run_run _ _).symm

/-- A byte of the pattern that is no percent sign takes one byte of the text. -/
theorem cut_byte (hrun : pattern[patternOffset] ≠ 37) :
    Cut (t4Elements (pattern.drop patternOffset)) text ↔
      ∃ c rest, text = c :: rest ∧ (pattern[patternOffset] = 95 ∨ pattern[patternOffset] = c) ∧
        Cut (t4Elements (pattern.drop (patternOffset + 1))) rest := by
  rw [t4Elements_drop hp, plain]
  by_cases hone : pattern[patternOffset] = 95
  · simp [hone, cut_slot_cons, Slot.Takes]
  · simp [hone, hrun, cut_slot_cons, Slot.Takes]

end

/-- The places behind a run are the offsets from where the text begins to the end of the value. -/
theorem cut_run_drop_iff {es : List (Element UInt8)} {valueOffset : Nat}
    (hv : valueOffset ≤ value.length) : Cut (.run :: es) (value.drop valueOffset) ↔
      ∃ i, valueOffset ≤ i ∧ i ≤ value.length ∧ Cut es (value.drop i) := by
  rw [cut_run_cons]
  constructor
  · rintro ⟨a, b, heq, hb⟩
    have hlen := congrArg List.length heq
    rw [length_drop, length_append] at hlen
    refine ⟨valueOffset + a.length, by omega, by omega, ?_⟩
    rwa [← drop_drop, heq, drop_left]
  · rintro ⟨i, hle, hi, hcut⟩
    refine ⟨(value.drop valueOffset).take (i - valueOffset), value.drop i, ?_, hcut⟩
    have hi : value.drop i = (value.drop valueOffset).drop (i - valueOffset) := by
      rw [drop_drop, Nat.add_sub_cancel' hle]
    rw [hi, take_append_drop]

/-- From any two offsets, what is left of the value is matched with what is left of the pattern. -/
theorem t4PatternMatches_from {valueOffset : Nat} (patternOffset : Nat)
    (hv : valueOffset ≤ value.length) : t4PatternMatches value pattern valueOffset patternOffset ↔
      Cut (t4Elements (pattern.drop patternOffset)) (value.drop valueOffset) := by
  -- The induction is on the calls of the function, the turns of the loop among them.
  fun_induction t4PatternMatches value pattern valueOffset patternOffset with
  | case1 valueOffset patternOffset hp hrun hend =>
    rw [cut_percent hp hrun, hend, drop_length]
    exact iff_of_true rfl (cut_run _)
  | case2 valueOffset patternOffset hp hrun hend ih =>
    rw [cut_percent hp hrun, cut_run_drop_iff hv, any_eq_true]
    refine exists_congr fun i => ?_
    rw [mem_range'_1, ← and_assoc]
    refine ⟨fun ⟨hi, hmatch⟩ => ?_, fun ⟨hi, hcut⟩ => ?_⟩
    · exact ⟨by omega, (ih i (by omega)).mp hmatch⟩
    · exact ⟨by omega, (ih i hi.2).mpr hcut⟩
  | case3 valueOffset patternOffset hp hrun hlt hne =>
    rw [cut_byte hp hrun, drop_eq_getElem_cons hlt]
    refine iff_of_false Bool.false_ne_true ?_
    rintro ⟨c, rest, htext, htakes, -⟩
    obtain ⟨rfl, -⟩ := cons.inj htext
    exact htakes.elim hne.1 hne.2
  | case4 valueOffset patternOffset hp hrun hlt heq ih =>
    rw [cut_byte hp hrun, drop_eq_getElem_cons hlt, ih hlt]
    have htakes : pattern[patternOffset] = 95 ∨ pattern[patternOffset] = value[valueOffset] := by
      tauto
    constructor
    · intro hcut
      exact ⟨_, _, rfl, htakes, hcut⟩
    · rintro ⟨c, rest, htext, -, hcut⟩
      rwa [(cons.inj htext).2]
  | case5 valueOffset patternOffset hp hrun hlt =>
    rw [cut_byte hp hrun, drop_eq_nil_of_le (Nat.not_lt.mp hlt)]
    simp
  | case6 valueOffset patternOffset hp =>
    rw [drop_eq_nil_of_le (Nat.not_lt.mp hp), t4Elements, map_nil, cut_nil, drop_eq_nil_iff,
      beq_iff_eq]
    omega

/-- The catalog calls match like LIKE: `t4PatternMatches` returns, and it returns true exactly when
the value can be cut into pieces that match the bytes of the pattern in order. -/
theorem t4PatternMatches_iff (value pattern : Bytes) :
    t4PatternMatches value pattern 0 0 = true ↔ Cut (t4Elements pattern) value :=
  t4PatternMatches_from 0 (Nat.zero_le _)

/-- A catalog call and LIKE without an escape character give the same answer for the bytes of
ISO 8859-1, except that the empty pattern lets a catalog call take every value. LIKE reads lengths
of 16 bits. -/
theorem like_eq_t4Matches_iff (hvalue : value.length < 65536) (hpattern : pattern.length < 65536)
    (behind after : Memory) :
    likeAnswer .iso88591 pattern behind none value after = .ok (t4Matches value pattern) ↔
      (pattern = [] → value = []) := by
  have hmatch : t4PatternMatches value pattern 0 0 = true ↔ Cut (t4Elements pattern) value :=
    t4PatternMatches_from 0 (Nat.zero_le _)
  have hshort : ShortTexts .iso88591 pattern value := by
    constructor
    · exact (flatMap_encode_iso88591 pattern).symm ▸ hpattern
    · exact (flatMap_encode_iso88591 value).symm ▸ hvalue
  have hpercent : pattern = [37] → Cut (t4Elements pattern) value := by
    rintro rfl
    exact cut_run value
  obtain ⟨b, hb, (hiff : _ ↔ Cut (t4Elements pattern) value)⟩ :=
    (@likeRight_iff .iso88591 _ _ _ _ (parse_none 95 37 pattern) hshort behind after).mpr
      ((matchesWhole_and_room_iff _ _ _).mpr trivial)
  refine hb.congr_left.trans ?_
  rw [Except.ok.injEq, Bool.eq_iff_iff, hiff]
  simp only [t4Matches, Bool.or_eq_true, List.isEmpty_iff, beq_iff_eq, hmatch]
  by_cases hempty : pattern = []
  · simp [hempty, t4Elements]
  · tauto

theorem table_name_matches : t4Matches (textBytes "TABLE_1") (textBytes "T%1") = true ∧
    likeAnswer .iso88591 (textBytes "T%1") (Stream'.const 0) none (textBytes "TABLE_1")
      (Stream'.const 0) = .ok (t4Matches (textBytes "TABLE_1") (textBytes "T%1")) :=
  ⟨by decide +kernel, (like_eq_t4Matches_iff (by decide) (by decide) _ _).mpr (by decide)⟩

end litestore
