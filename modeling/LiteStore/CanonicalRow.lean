-- The canonical row that the codec fills: a row of zeros with its header, into
-- which the cells of some columns are stored. A cell is read back as it was
-- stored, whatever is stored in the other columns.
import LiteStore.CellTexts
import LiteStore.Placement
import LiteStore.Lib.Buffer

namespace litestore

open buffer List LiteStoredColumn

/-! ## Null bits -/

def nullMask (bit : Nat) : UInt8 := UInt8.ofNat (2 ^ (7 - bit % 8))

section

variable (row : Bytes) (bitmap : Nat)

def setNullBit (bitIndex : Int) : Bytes :=
  row.modify (bitmap + bitIndex.toNat / 8) (· ||| nullMask bitIndex.toNat)

def clearNullBit (bitIndex : Int) : Bytes :=
  row.modify (bitmap + bitIndex.toNat / 8) (· &&& ~~~nullMask bitIndex.toNat)

theorem nullMask_testBit (bit : Nat) {j : Nat} (hj : j < 8) :
    (nullMask bit).toNat.testBit j = decide (j = 7 - bit % 8) ∧
      (~~~nullMask bit).toNat.testBit j = !decide (j = 7 - bit % 8) := by
  have hall : ∀ r < 8, ∀ j < 8, (UInt8.ofNat (2 ^ (7 - r))).toNat.testBit j = decide (j = 7 - r) ∧
      (~~~UInt8.ofNat (2 ^ (7 - r))).toNat.testBit j = !decide (j = 7 - r) := by decide
  exact hall (bit % 8) (Nat.mod_lt _ (by omega)) j hj

theorem nullBitSet_eq (k : Nat) (hk : k < 2 ^ 15) :
    nullBitSet row bitmap k = (byteOf row (bitmap + k / 8)).toNat.testBit (7 - k % 8) := by
  have hcut : ((k : Int) % 65536).toNat = k := by omega
  simp only [nullBitSet, hcut, Nat.testBit_eq_decide_div_mod_eq]

theorem byteOf_modify (i j : Nat) (f : UInt8 → UInt8) (hi : i < row.length) :
    byteOf (row.modify i f) j = if i = j then f (byteOf row j) else byteOf row j := by
  unfold byteOf
  rw [getD_eq_getElem?_getD, getD_eq_getElem?_getD, getElem?_modify]
  by_cases hij : i = j
  · subst hij
    simp [hi]
  · simp [hij]

/-- Setting or clearing one bit decides that bit and leaves the others. -/
theorem nullBitSet_modify {k l : Nat} (hl : l < 2 ^ 15) (hin : bitmap + k / 8 < row.length) :
    nullBitSet (setNullBit row bitmap k) bitmap l =
      (decide (k = l) || nullBitSet row bitmap l) ∧
    nullBitSet (clearNullBit row bitmap k) bitmap l =
      (!decide (k = l) && nullBitSet row bitmap l) := by
  have hmask := nullMask_testBit k (show 7 - l % 8 < 8 by omega)
  have hsame : k / 8 = l / 8 → (7 - l % 8 = 7 - k % 8 ↔ k = l) := by omega
  rw [nullBitSet_eq _ _ _ hl, nullBitSet_eq _ _ _ hl, nullBitSet_eq _ _ _ hl]
  unfold setNullBit clearNullBit
  rw [Int.toNat_natCast, byteOf_modify _ _ _ _ hin, byteOf_modify _ _ _ _ hin]
  by_cases hbyte : bitmap + k / 8 = bitmap + l / 8
  · have hiff := hsame (by omega)
    rw [if_pos hbyte, if_pos hbyte, UInt8.toNat_or, UInt8.toNat_and, Nat.testBit_or,
      Nat.testBit_and, hmask.1, hmask.2, decide_eq_decide.mpr hiff, Bool.or_comm, Bool.and_comm]
    exact ⟨rfl, rfl⟩
  · have hne : k ≠ l := by
      rintro rfl
      exact hbyte rfl
    rw [if_neg hbyte, if_neg hbyte]
    simp [hne]

/-! ## Storing a cell -/

/-- What `writeValue` and `copyAttrToCanonical` do to the row. -/
def storeCell (col : LiteStoredColumn) : Cell → Bytes
  | none => setNullBit row col.nullIndOffset col.nullBitIndex
  | some bytes =>
    let row := if col.nullable then clearNullBit row col.nullIndOffset col.nullBitIndex else row
    let row := if isVariableType col.type then
      patch row col.vcLenIndOffset (lowFirst bytes.length variableLenSize) else row
    patch row col.offset bytes

/-- The bytes of a column without a check of the row's length. -/
def columnBytes (col : LiteStoredColumn) : Bytes :=
  slice row col.offset
    (if isVariableType col.type then varLength row col.vcLenIndOffset else col.length)

end

/-- What a cell looks like in a row of zeros: the length of a variable column has 32 bits, and
a fixed column keeps the zeros behind the bytes. -/
def cellContent (col : LiteStoredColumn) : Cell → Bytes
  | none => if isVariableType col.type then [] else replicate col.length 0
  | some bytes =>
    if isVariableType col.type then bytes.take (bytes.length % 2 ^ 32)
    else padded bytes col.length 0

/-- Nothing was stored in the column yet. -/
structure Blank (row : Bytes) (col : LiteStoredColumn) : Prop where
  notNull : storedColumnIsNull row col = false
  zeros : ∀ i, col.start ≤ i → i < col.stop → row[i]? = some 0

/-- The column holds a cell. -/
structure Holds (row : Bytes) (col : LiteStoredColumn) (cell : Cell) : Prop where
  isNull : storedColumnIsNull row col = cell.isNone
  bytes : columnBytes row col = cellContent col cell
  short : isVariableType col.type = true → varLength row col.vcLenIndOffset ≤ col.length

/-- Only a nullable column takes a NULL, and the bytes stay inside the column. -/
def CellFits (col : LiteStoredColumn) (cell : Cell) : Prop :=
  (cell = none → col.nullable = true) ∧ ∀ bytes, cell = some bytes → bytes.length ≤ col.length

/-- Two rows do not differ in a column. -/
structure SameColumn (row row' : Bytes) (col : LiteStoredColumn) : Prop where
  isNull : storedColumnIsNull row' col = storedColumnIsNull row col
  agree : AgreeOn row' row col.start col.stop

/-- Two columns share neither a byte nor a bit. -/
structure Apart (c d : LiteStoredColumn) : Prop where
  bytes : c.stop ≤ d.start ∨ d.stop ≤ c.start
  bits : c.nullable = true → d.nullable = true →
    c.nullIndOffset = d.nullIndOffset ∧ c.nullBitIndex ≠ d.nullBitIndex

variable {c : LiteStoredColumn}

theorem Apart.symm {d : LiteStoredColumn} (h : Apart c d) : Apart d c :=
  ⟨h.bytes.symm, fun hd hc => ⟨(h.bits hc hd).1.symm, (h.bits hc hd).2.symm⟩⟩

variable {columns : List LiteStoredColumn}

theorem Placed.apart_of_ne {rowLen first : Nat} (h : Placed columns rowLen first) {i j : Nat}
    {d : LiteStoredColumn} (hi : columns[i]? = some c) (hj : columns[j]? = some d) (hne : i ≠ j) :
    Apart c d := by
  have hlt : ∀ {i j : Nat} {c d : LiteStoredColumn}, columns[i]? = some c →
      columns[j]? = some d → i < j → Apart c d := by
    intro i j c d hi hj hij
    obtain ⟨hi', rfl⟩ := List.getElem?_eq_some_iff.mp hi
    obtain ⟨hj', rfl⟩ := List.getElem?_eq_some_iff.mp hj
    exact ⟨pairwise_iff_getElem.mp h.apart i j hi' hj' hij,
      pairwise_iff_getElem.mp h.bits i j hi' hj' hij⟩
  rcases Nat.lt_or_gt_of_ne hne with hij | hij
  · exact hlt hi hj hij
  · exact (hlt hj hi hij).symm

/-! ## Reading inside a column -/

variable {off hi lo : Nat} {row : Bytes}

theorem varLength_congr {row' : Bytes} (h : AgreeOn row' row off hi) (hhi : off + 4 ≤ hi) :
    varLength row' off = varLength row off := by
  have hbyte : ∀ k < 4, byteOf row' (off + k) = byteOf row (off + k) := by
    intro k hk
    unfold byteOf
    rw [getD_eq_getElem?_getD, getD_eq_getElem?_getD,
      h (off + k) (by omega) (by omega)]
  unfold varLength
  rw [hbyte 1 (by omega), hbyte 2 (by omega), hbyte 3 (by omega)]
  have h0 := hbyte 0 (by omega)
  rw [Nat.add_zero] at h0
  rw [h0]

theorem slice_zeros {n : Nat} (hz : ∀ i, lo ≤ i → i < hi → row[i]? = some 0) (hlo : lo ≤ off)
    (hhi : off + n ≤ hi) : slice row off n = replicate n 0 := by
  apply ext_getElem?
  intro i
  unfold slice
  rw [getElem?_take, getElem?_replicate]
  split
  · rw [getElem?_drop, hz (off + i) (by omega) (by omega)]
  · rfl

theorem varLength_zeros (hz : ∀ i, lo ≤ i → i < hi → row[i]? = some 0) (hlo : lo ≤ off)
    (hhi : off + 4 ≤ hi) : varLength row off = 0 := by
  have hbyte : ∀ k < 4, byteOf row (off + k) = 0 := by
    intro k hk
    unfold byteOf
    rw [getD_eq_getElem?_getD, hz (off + k) (by omega) (by omega), Option.getD_some]
  have h0 := hbyte 0 (by omega)
  rw [Nat.add_zero] at h0
  unfold varLength
  rw [h0, hbyte 1 (by omega), hbyte 2 (by omega), hbyte 3 (by omega)]
  decide

theorem varLength_eq (h : off + 4 ≤ row.length) :
    varLength row off = littleEndian (slice row off 4) := by
  have hrange : hasRange row off 4 = true := by
    simp only [hasRange, Bool.and_eq_true, decide_eq_true_eq]
    omega
  rw [slice_eq_map hrange]
  rfl

/-- A range that begins with a patch and goes on with zeros. -/
theorem slice_patch_padded {bs : Bytes} {n : Nat} (hz : ∀ i, lo ≤ i → i < hi → row[i]? = some 0)
    (hlo : lo ≤ off) (hhi : off + n ≤ hi) (hbs : bs.length ≤ n) (hrow : hi ≤ row.length) :
    slice (patch row off bs) off n = padded bs n 0 := by
  have hroom : off + bs.length ≤ row.length := by omega
  have hsplit : n = bs.length + (n - bs.length) := by omega
  have hrest : slice (patch row off bs) (off + bs.length) (n - bs.length) =
      replicate (n - bs.length) 0 := by
    have hagree : AgreeOn (patch row off bs) row (off + bs.length) hi :=
      agreeOn_patch hroom (.inr le_rfl)
    exact (hagree.window le_rfl (by omega)).trans
      (slice_zeros hz (by omega) (by omega))
  unfold padded
  rw [← hrest]
  unfold slice
  conv_lhs => rw [hsplit]
  rw [List.take_add, window_patch hroom, drop_drop]

section Columns

variable {rowLen first : Nat} (hp : Placed columns rowLen first) {d : LiteStoredColumn}
  (hc : c ∈ columns) (hbits : (columns.filter (·.nullable)).length ≤ 2 ^ 15) {row' : Bytes}

include hp hc

theorem Holds.of_same {cell : Cell} (h : Holds row c cell) (hsame : SameColumn row row' c) :
    Holds row' c cell := by
  obtain ⟨hstart, hstop⟩ := start_le_stop hp hc
  have hvar : isVariableType c.type = true →
      varLength row' c.vcLenIndOffset = varLength row c.vcLenIndOffset := by
    intro hv
    have hoff := hp.lengthFirst c hc hv
    have hs : c.start = c.vcLenIndOffset := by simp [start, hv]
    have hagree := hsame.agree
    rw [hs] at hagree
    exact varLength_congr hagree (by omega)
  refine ⟨hsame.isNull.trans h.isNull, ?_, fun hv => (hvar hv).trans_le (h.short hv)⟩
  rw [← h.bytes]
  unfold columnBytes slice
  split
  · rename_i hv
    rw [hvar hv]
    have := h.short hv
    exact hsame.agree.window hstart (by unfold stop; omega)
  · exact hsame.agree.window hstart le_rfl

omit hp hc in
theorem Blank.of_same (h : Blank row c) (hsame : SameColumn row row' c) : Blank row' c :=
  ⟨hsame.isNull.trans h.notNull, fun i hlo hhi => (hsame.agree i hlo hhi).trans (h.zeros i hlo hhi)⟩

end Columns

theorem SameColumn.trans {row₁ row₂ row₃ : Bytes} (h : SameColumn row₁ row₂ c)
    (h' : SameColumn row₂ row₃ c) : SameColumn row₁ row₃ c :=
  ⟨h'.isNull.trans h.isNull, h'.agree.trans h.agree⟩

/-- What a write inside one column may do. -/
structure WriteOf (columns : List LiteStoredColumn) (c : LiteStoredColumn) (row row' : Bytes) :
    Prop where
  length : row'.length = row.length
  others : ∀ d ∈ columns, Apart c d → SameColumn row row' d

theorem WriteOf.refl (columns : List LiteStoredColumn) (c : LiteStoredColumn) (row : Bytes) :
    WriteOf columns c row row := ⟨rfl, fun _ _ _ => ⟨rfl, AgreeOn.refl _ _ _⟩⟩

theorem WriteOf.trans {row₁ row₂ row₃ : Bytes} (h : WriteOf columns c row₁ row₂)
    (h' : WriteOf columns c row₂ row₃) : WriteOf columns c row₁ row₃ :=
  ⟨h'.length.trans h.length, fun d hd ha => (h.others d hd ha).trans (h'.others d hd ha)⟩

section Writes

variable {rowLen first : Nat} (hp : Placed columns rowLen first)
  (hbits : (columns.filter (·.nullable)).length ≤ 2 ^ 15) {d : LiteStoredColumn}
  (hc : c ∈ columns) {row' : Bytes} (hlen : row.length = rowLen)

include hp hbits

theorem isNull_eq (hd : d ∈ columns) (hn : d.nullable = true) (hlen : row.length = rowLen) :
    ∃ k : Nat, d.nullBitIndex = k ∧ k < 2 ^ 15 ∧ d.nullIndOffset + k / 8 < first ∧
      first ≤ rowLen ∧ storedColumnIsNull row d = nullBitSet row d.nullIndOffset k := by
  obtain ⟨-, k, hk, hlt, hfirst⟩ := hp.bitmap d hd hn
  have hle := hp.room
  refine ⟨k, hk, by omega, hfirst, hle, ?_⟩
  have hin : ¬ d.nullIndOffset ≥ row.length := by omega
  simp [storedColumnIsNull, hn, hin, hk]

/-- A column's null bit stands in front of the columns. -/
theorem isNull_of_agree (hd : d ∈ columns) (hlen : row.length = rowLen)
    (hlen' : row'.length = rowLen) (h : AgreeOn row' row 0 first) :
    storedColumnIsNull row' d = storedColumnIsNull row d := by
  cases hn : d.nullable with
  | false => simp [storedColumnIsNull, hn]
  | true =>
    obtain ⟨k, hindex, hk, hfirst, -, heq⟩ := isNull_eq hp hbits hd hn hlen
    obtain ⟨k', hk', -, -, -, heq'⟩ := isNull_eq hp hbits hd hn hlen'
    obtain rfl : k = k' := by omega
    rw [heq, heq', nullBitSet_eq _ _ _ hk, nullBitSet_eq _ _ _ hk]
    unfold byteOf
    rw [getD_eq_getElem?_getD, getD_eq_getElem?_getD, h _ (Nat.zero_le _) hfirst]

include hc hlen

theorem patch_writeOf {start : Nat} {bs : Bytes} (hs : c.start ≤ start)
    (he : start + bs.length ≤ c.stop) :
    WriteOf columns c row (patch row start bs) ∧
      storedColumnIsNull (patch row start bs) c = storedColumnIsNull row c := by
  have hin := hp.inside c hc
  have hbehind := hp.behind c hc
  have hroom : start + bs.length ≤ row.length := by omega
  have hlen' : (patch row start bs).length = rowLen := (patch_length hroom).trans hlen
  have hnull : ∀ d ∈ columns, storedColumnIsNull (patch row start bs) d =
      storedColumnIsNull row d := fun d hd =>
    isNull_of_agree hp hbits hd hlen hlen' (agreeOn_patch hroom (by omega))
  refine ⟨⟨patch_length hroom, fun d hd ha => ⟨hnull d hd, ?_⟩⟩, hnull c hc⟩
  apply agreeOn_patch hroom
  rcases ha.bytes with h | h
  · exact .inr (by omega)
  · exact .inl (by omega)

/-- Setting and clearing the null bit of a column. -/
theorem nullBit_writeOf (hn : c.nullable = true) :
    (WriteOf columns c row (setNullBit row c.nullIndOffset c.nullBitIndex) ∧
      storedColumnIsNull (setNullBit row c.nullIndOffset c.nullBitIndex) c = true ∧
      AgreeOn (setNullBit row c.nullIndOffset c.nullBitIndex) row c.start c.stop) ∧
    (WriteOf columns c row (clearNullBit row c.nullIndOffset c.nullBitIndex) ∧
      storedColumnIsNull (clearNullBit row c.nullIndOffset c.nullBitIndex) c = false ∧
      AgreeOn (clearNullBit row c.nullIndOffset c.nullBitIndex) row c.start c.stop) := by
  obtain ⟨k, hk, hk15, hfirst, hle, -⟩ := isNull_eq hp hbits hc hn hlen
  rw [hk]
  have hbyte : c.nullIndOffset + k / 8 < row.length := by omega
  have hagree : ∀ (f : UInt8 → UInt8) d, d ∈ columns →
      AgreeOn (row.modify (c.nullIndOffset + k / 8) f) row d.start d.stop := by
    intro f d hd
    have := hp.behind d hd
    exact agreeOn_modify (by omega)
  have hset : (setNullBit row c.nullIndOffset k).length = rowLen := by
    simp [setNullBit, hlen]
  have hclear : (clearNullBit row c.nullIndOffset k).length = rowLen := by
    simp [clearNullBit, hlen]
  -- the bit of another column is another bit of the same map
  have hother : ∀ d ∈ columns, Apart c d →
      storedColumnIsNull (setNullBit row c.nullIndOffset k) d = storedColumnIsNull row d ∧
      storedColumnIsNull (clearNullBit row c.nullIndOffset k) d = storedColumnIsNull row d := by
    intro d hd ha
    cases hdn : d.nullable with
    | false => simp [storedColumnIsNull, hdn]
    | true =>
      obtain ⟨l, hl, hl15, -, -, heq⟩ := isNull_eq hp hbits hd hdn hlen
      obtain ⟨l₁, hl₁, -, -, -, heq₁⟩ := isNull_eq hp hbits hd hdn hset
      obtain ⟨l₂, hl₂, -, -, -, heq₂⟩ := isNull_eq hp hbits hd hdn hclear
      obtain rfl : l = l₁ := by omega
      obtain rfl : l = l₂ := by omega
      obtain ⟨hmap, hne⟩ := ha.bits hn hdn
      have hkl : k ≠ l := by
        rintro rfl
        exact hne (hk.trans hl.symm)
      have hbit := nullBitSet_modify row c.nullIndOffset hl15 hbyte
      rw [heq, heq₁, heq₂, ← hmap, hbit.1, hbit.2]
      simp [hkl]
  have hself := nullBitSet_modify row c.nullIndOffset hk15 hbyte
  obtain ⟨k₁, hk₁, -, -, -, heq₁⟩ := isNull_eq hp hbits hc hn hset
  obtain ⟨k₂, hk₂, -, -, -, heq₂⟩ := isNull_eq hp hbits hc hn hclear
  obtain rfl : k = k₁ := by omega
  obtain rfl : k = k₂ := by omega
  refine ⟨⟨⟨hset.trans hlen.symm, fun d hd ha => ⟨(hother d hd ha).1, hagree _ d hd⟩⟩, ?_,
    hagree _ c hc⟩, ⟨hclear.trans hlen.symm, fun d hd ha => ⟨(hother d hd ha).2, hagree _ d hd⟩⟩,
    ?_, hagree _ c hc⟩
  · rw [heq₁, hself.1]
    simp
  · rw [heq₂, hself.2]
    simp

omit hbits hlen in
/-- A column of zeros holds NULL as the prefix builder reads it. -/
theorem zeros_content (hz : ∀ i, c.start ≤ i → i < c.stop → row[i]? = some 0) :
    columnBytes row c = cellContent c none ∧
      (isVariableType c.type = true → varLength row c.vcLenIndOffset ≤ c.length) := by
  obtain ⟨hstart, -⟩ := start_le_stop hp hc
  cases hv : isVariableType c.type with
  | true =>
    have hs : c.start = c.vcLenIndOffset := by simp [start, hv]
    have ho := hp.lengthFirst c hc hv
    have hzero := varLength_zeros hz hs.le (by unfold stop; omega)
    simp only [columnBytes, cellContent, hv, if_true, hzero]
    exact ⟨rfl, fun _ => Nat.zero_le _⟩
  | false =>
    simp only [columnBytes, cellContent, hv, Bool.false_eq_true, if_false]
    exact ⟨slice_zeros hz hstart le_rfl, fun h => by cases h⟩

/-- Bytes stored in a blank column of fixed length. -/
theorem fixed_holds (hblank : Blank row c) (hv : isVariableType c.type = false) {bytes : Bytes}
    (hfit : bytes.length ≤ c.length) :
    WriteOf columns c row (patch row c.offset bytes) ∧
      Holds (patch row c.offset bytes) c (some bytes) := by
  obtain ⟨hstart, -⟩ := start_le_stop hp hc
  have hin := hp.inside c hc
  have hend : c.offset + bytes.length ≤ c.stop := Nat.add_le_add_left hfit _
  obtain ⟨hwrite, hkeep⟩ := patch_writeOf hp hbits hc hlen hstart hend
  refine ⟨hwrite, hkeep.trans hblank.notNull, ?_, fun h => by simp [hv] at h⟩
  simp only [columnBytes, cellContent, hv, Bool.false_eq_true, if_false]
  exact slice_patch_padded hblank.zeros hstart le_rfl hfit (by omega)

/-- Bytes stored in a blank variable column, behind their length. -/
theorem variable_holds (hblank : Blank row c) (hv : isVariableType c.type = true) {bytes : Bytes}
    (hfit : bytes.length ≤ c.length) :
    WriteOf columns c row
      (patch (patch row c.vcLenIndOffset (lowFirst bytes.length 4)) c.offset bytes) ∧
    Holds (patch (patch row c.vcLenIndOffset (lowFirst bytes.length 4)) c.offset bytes) c
      (some bytes) := by
  obtain ⟨hstart, -⟩ := start_le_stop hp hc
  have hin := hp.inside c hc
  have hs : c.start = c.vcLenIndOffset := by simp [start, hv]
  have ho := hp.lengthFirst c hc hv
  have hstop : c.stop = c.offset + c.length := rfl
  have hroom : c.vcLenIndOffset + (lowFirst bytes.length 4).length ≤ row.length := by
    rw [lowFirst_length]
    omega
  obtain ⟨hwrite₁, hkeep₁⟩ := patch_writeOf hp hbits hc hlen hs.le
    (show c.vcLenIndOffset + (lowFirst bytes.length 4).length ≤ c.stop by
      rw [lowFirst_length]
      omega)
  have hwindow := window_patch hroom
  rw [lowFirst_length] at hwindow
  have hlen₁ := hwrite₁.length.trans hlen
  generalize patch row c.vcLenIndOffset (lowFirst bytes.length 4) = row₁
    at hwrite₁ hkeep₁ hlen₁ hwindow ⊢
  obtain ⟨hwrite₂, hkeep₂⟩ := patch_writeOf hp hbits hc hlen₁ hstart
    (show c.offset + bytes.length ≤ c.stop by omega)
  have hroom₁ : c.offset + bytes.length ≤ row₁.length := by omega
  -- the length stands in front of the bytes, so it is read as it was written
  have hvar : varLength (patch row₁ c.offset bytes) c.vcLenIndOffset = bytes.length % 2 ^ 32 := by
    have hagree : AgreeOn (patch row₁ c.offset bytes) row₁ c.vcLenIndOffset c.offset :=
      agreeOn_patch hroom₁ (.inl le_rfl)
    rw [varLength_congr hagree ho.ge, varLength_eq (by omega), slice, hwindow,
      littleEndian_lowFirst]
    norm_num
  have hmod : bytes.length % 2 ^ 32 ≤ bytes.length := Nat.mod_le _ _
  refine ⟨hwrite₁.trans hwrite₂, (hkeep₂.trans hkeep₁).trans hblank.notNull, ?_, fun _ => by omega⟩
  simp only [columnBytes, cellContent, hv, if_true, hvar, slice]
  rw [← Nat.min_eq_left hmod, ← take_take, window_patch hroom₁, Nat.min_eq_left hmod]

/-- A cell that fits its blank column is read back from it, and no other column changes. -/
theorem storeCell_spec (hblank : Blank row c) {cell : Cell} (hfits : CellFits c cell) :
    WriteOf columns c row (storeCell row c cell) ∧ Holds (storeCell row c cell) c cell := by
  cases cell with
  | none =>
    obtain ⟨⟨hwrite, hset, hagree⟩, -⟩ := nullBit_writeOf hp hbits hc hlen (hfits.1 rfl)
    have hcontent := zeros_content hp hc fun i hlo hhi =>
      (hagree i hlo hhi).trans (hblank.zeros i hlo hhi)
    exact ⟨hwrite, hset, hcontent.1, hcontent.2⟩
  | some bytes =>
    have hfit := hfits.2 bytes rfl
    obtain ⟨row₁, hrow₁, hwrite₁, hblank₁⟩ : ∃ row₁, row₁ = (if c.nullable then
        clearNullBit row c.nullIndOffset c.nullBitIndex else row) ∧ WriteOf columns c row row₁ ∧
        Blank row₁ c := by
      cases hn : c.nullable with
      | true =>
        obtain ⟨-, hwrite, hclear, hagree⟩ := nullBit_writeOf hp hbits hc hlen hn
        exact ⟨_, rfl, hwrite, hclear, fun i hlo hhi =>
          (hagree i hlo hhi).trans (hblank.zeros i hlo hhi)⟩
      | false => exact ⟨_, rfl, WriteOf.refl _ _ _, hblank⟩
    have hlen₁ : row₁.length = rowLen := hwrite₁.length.trans hlen
    have hstore : storeCell row c (some bytes) = patch (if isVariableType c.type then
        patch row₁ c.vcLenIndOffset (lowFirst bytes.length variableLenSize) else row₁)
        c.offset bytes := by
      rw [hrow₁]
      rfl
    rw [hstore]
    cases hv : isVariableType c.type with
    | false =>
      obtain ⟨hwrite, hholds⟩ := fixed_holds hp hbits hc hlen₁ hblank₁ hv hfit
      exact ⟨hwrite₁.trans hwrite, hholds⟩
    | true =>
      obtain ⟨hwrite, hholds⟩ := variable_holds hp hbits hc hlen₁ hblank₁ hv hfit
      exact ⟨hwrite₁.trans hwrite, hholds⟩

omit hc in
/-- Cells stored in columns that lie apart are all read back. -/
theorem storeCells_spec {pairs : List (LiteStoredColumn × Cell)}
    (hmem : ∀ p ∈ pairs, p.1 ∈ columns) (hapart : pairs.Pairwise fun p q => Apart p.1 q.1)
    (hblank : ∀ p ∈ pairs, Blank row p.1) (hfits : ∀ p ∈ pairs, CellFits p.1 p.2) :
    (pairs.foldl (fun r p => storeCell r p.1 p.2) row).length = rowLen ∧
    (∀ p ∈ pairs, Holds (pairs.foldl (fun r p => storeCell r p.1 p.2) row) p.1 p.2) ∧
    ∀ d ∈ columns, (∀ p ∈ pairs, Apart p.1 d) →
      SameColumn row (pairs.foldl (fun r p => storeCell r p.1 p.2) row) d := by
  induction pairs generalizing row with
  | nil => exact ⟨hlen, by simp, fun _ _ _ => ⟨rfl, AgreeOn.refl _ _ _⟩⟩
  | cons p rest ih =>
    rw [pairwise_cons] at hapart
    simp only [forall_mem_cons] at hmem hblank hfits
    obtain ⟨hwrite, hholds⟩ := storeCell_spec hp hbits hmem.1 hlen hblank.1 hfits.1
    obtain ⟨hlen', hrest, hsame⟩ := ih (hwrite.length.trans hlen) hmem.2 hapart.2
      (fun q hq => (hblank.2 q hq).of_same (hwrite.others q.1 (hmem.2 q hq) (hapart.1 q hq)))
      hfits.2
    simp only [foldl_cons, forall_mem_cons]
    refine ⟨hlen', ⟨?_, hrest⟩, ?_⟩
    · exact hholds.of_same hp hmem.1 (hsame p.1 hmem.1 fun q hq => (hapart.1 q hq).symm)
    · intro d hd ha
      exact (hwrite.others d hd ha.1).trans (hsame d hd ha.2)

end Writes

/-! ## The empty row -/

/-- The offset of the first fixed column and that of the bitmap, as the header keeps them. -/
def headerOffsets (columns : List LiteStoredColumn) (rowLen : Nat) : Nat × Nat :=
  let firstFixed := columns.foldl (fun f c =>
    if !isVariableType c.type && c.offset < f then c.offset else f) rowLen
  let bitmapOffset := columns.foldl (fun b c => if c.nullable then c.nullIndOffset else b) 0
  (if firstFixed = rowLen then hdrSize else firstFixed, bitmapOffset)

/-- The numbers of the header are cut to sixteen bits; each variable column has an entry that
says where its length stands. -/
def initializeCanonicalRow (columns : List LiteStoredColumn) (rowLen : Nat) : Bytes :=
  let (firstFixed, bitmapOffset) := headerOffsets columns rowLen
  let row := patch (replicate rowLen 0) 0 (lowFirst (firstFixed % 2 ^ 16) offsetSize)
  let row := patch row offsetSize (lowFirst (bitmapOffset % 2 ^ 16) offsetSize)
  columns.foldl (fun row c => if isVariableType c.type then
    patch row c.voaOffset (lowFirst c.vcLenIndOffset offsetSize) else row) row

theorem voaEntries_spec {first : Nat} (hfirst : first ≤ row.length)
    (hvoa : ∀ c ∈ columns, isVariableType c.type = true → c.voaOffset + 4 ≤ first) :
    (columns.foldl (fun row c => if isVariableType c.type then
      patch row c.voaOffset (lowFirst c.vcLenIndOffset offsetSize) else row) row).length =
      row.length ∧
    ∀ i, (∀ c ∈ columns, isVariableType c.type = true → c.voaOffset + 4 ≤ i) →
      (columns.foldl (fun row c => if isVariableType c.type then
        patch row c.voaOffset (lowFirst c.vcLenIndOffset offsetSize) else row) row)[i]? =
      row[i]? := by
  induction columns generalizing row with
  | nil => simp
  | cons c rest ih =>
    simp only [forall_mem_cons] at hvoa ⊢
    rw [foldl_cons]
    by_cases hv : isVariableType c.type = true
    · have hroom : c.voaOffset + (lowFirst c.vcLenIndOffset offsetSize).length ≤ row.length := by
        have := hvoa.1 hv
        rw [lowFirst_length]
        show c.voaOffset + 4 ≤ row.length
        omega
      rw [if_pos hv]
      obtain ⟨hlen, hsame⟩ := ih (by rw [patch_length hroom]; exact hfirst) hvoa.2
      refine ⟨hlen.trans (patch_length hroom), fun i hi => (hsame i hi.2).trans ?_⟩
      apply getElem?_patch_outside hroom
      rw [lowFirst_length]
      exact .inr (hi.1 hv)
    · rw [if_neg hv]
      obtain ⟨hlen, hsame⟩ := ih hfirst hvoa.2
      exact ⟨hlen, fun i hi => hsame i hi.2⟩

/-- Every column of the empty row is blank. -/
theorem initializeCanonicalRow_blank {rowLen first : Nat} (hp : Placed columns rowLen first)
    (hbits : (columns.filter (·.nullable)).length ≤ 2 ^ 15) :
    (initializeCanonicalRow columns rowLen).length = rowLen ∧
      ∀ c ∈ columns, Blank (initializeCanonicalRow columns rowLen) c := by
  have hheader := hp.header
  have hfirst := hp.room
  have hsize : ∀ n, (lowFirst n offsetSize).length = 4 := fun n => lowFirst_length n 4
  unfold initializeCanonicalRow
  generalize headerOffsets columns rowLen = offsets
  obtain ⟨firstFixed, bitmapOffset⟩ := offsets
  dsimp only
  generalize hrow₁ : patch (replicate rowLen (0 : UInt8)) 0
    (lowFirst (firstFixed % 2 ^ 16) offsetSize) = row₁
  have hroom₁ : 0 + (lowFirst (firstFixed % 2 ^ 16) offsetSize).length ≤
      (replicate rowLen (0 : UInt8)).length := by
    rw [hsize, length_replicate]
    omega
  have hlen₁ : row₁.length = rowLen := by
    rw [← hrow₁, patch_length hroom₁, length_replicate]
  have hroom₂ : offsetSize + (lowFirst (bitmapOffset % 2 ^ 16) offsetSize).length ≤
      row₁.length := by
    rw [hsize]
    show 4 + 4 ≤ row₁.length
    omega
  generalize hrow₂ : patch row₁ offsetSize (lowFirst (bitmapOffset % 2 ^ 16) offsetSize) = row₂
  have hlen₂ : row₂.length = rowLen := by rw [← hrow₂, patch_length hroom₂, hlen₁]
  have hzero₂ : ∀ i, 8 ≤ i → i < rowLen → row₂[i]? = some 0 := by
    intro i hi hlt
    have h₂ : row₂[i]? = row₁[i]? := by
      rw [← hrow₂]
      apply getElem?_patch_outside hroom₂
      rw [hsize]
      exact .inr hi
    have h₁ : row₁[i]? = (replicate rowLen (0 : UInt8))[i]? := by
      rw [← hrow₁]
      apply getElem?_patch_outside hroom₁
      rw [hsize]
      omega
    rw [h₂, h₁, getElem?_replicate, if_pos hlt]
  obtain ⟨hlen, hsame⟩ := voaEntries_spec (show first ≤ row₂.length by omega)
    fun c hc hv => (hp.voa c hc hv).2.1
  refine ⟨hlen.trans hlen₂, fun c hc => ⟨?_, fun i hlo hhi => ?_⟩⟩
  · cases hn : c.nullable with
    | false => simp [storedColumnIsNull, hn]
    | true =>
      obtain ⟨k, -, hk, hlt, hle, heq⟩ := isNull_eq hp hbits hc hn (hlen.trans hlen₂)
      have hin := (hp.bitmap c hc hn).1
      rw [heq, nullBitSet_eq _ _ _ hk, byteOf, getD_eq_getElem?_getD,
        hsame _ fun d hd hv => ((hp.voa d hd hv).2.2 c hc hn).trans (Nat.le_add_right _ _),
        hzero₂ _ (by omega) (by omega)]
      simp
  · have hbehind := hp.behind c hc
    have hin := hp.inside c hc
    rw [hsame i fun d hd hv => by have := (hp.voa d hd hv).2.1; omega,
      hzero₂ i (by omega) (by omega)]

/-! ## A row cut short -/

theorem agreeOn_take (row : Bytes) (cut : Nat) : AgreeOn (row.take cut) row 0 cut := by
  intro i _ hi
  rw [getElem?_take, if_pos hi]

theorem hasRange_iff {offset length : Nat} :
    hasRange row offset length = true ↔ offset + length ≤ row.length := by
  simp only [hasRange, Bool.and_eq_true, decide_eq_true_eq]
  omega

/-- A piece of the row is read exactly when it ends before the cut. -/
theorem slice_take_iff {b : Bytes} {cut offset length : Nat} {e : String}
    (hcut : cut ≤ row.length) (hin : offset + length ≤ row.length) :
    (if !hasRange (row.take cut) offset length then .error e
      else .ok (slice (row.take cut) offset length)) = Except.ok b ↔
      b = slice row offset length ∧ offset + b.length ≤ cut := by
  have htake : (row.take cut).length = cut := by
    rw [length_take]
    omega
  have hfull : (slice row offset length).length = length := slice_length (hasRange_iff.mpr hin)
  by_cases hrange : offset + length ≤ cut
  · have hsame : slice (row.take cut) offset length = slice row offset length :=
      (agreeOn_take row cut).window (Nat.zero_le _) hrange
    rw [if_neg (by rw [hasRange_iff.mpr (by omega)]; simp), hsame, Except.ok.injEq]
    constructor
    · rintro rfl
      exact ⟨rfl, by omega⟩
    · rintro ⟨rfl, -⟩
      rfl
  · have hno : hasRange (row.take cut) offset length = false := by
      rw [Bool.eq_false_iff, ne_eq, hasRange_iff]
      omega
    simp only [hno, Bool.not_false, if_true, reduceCtorEq, false_iff, not_and]
    rintro rfl
    omega

section Cut

variable {rowLen first : Nat} (hp : Placed columns rowLen first)
  (hc : c ∈ columns) (hlen : row.length = rowLen)
  {cut : Nat} (hcut : cut ≤ rowLen) {cell : Cell} (h : Holds row c cell)

include hp hc hlen hcut h

/-- The key readers take a column only when it ends inside the row. -/
theorem storedKeyBytes_take {b : Bytes} : storedKeyBytes (row.take cut) c = .ok b ↔
    b = cellContent c cell ∧ c.offset + b.length ≤ cut := by
  obtain ⟨hstart, -⟩ := start_le_stop hp hc
  have hin := hp.inside c hc
  have hstop : c.stop = c.offset + c.length := rfl
  rw [← h.bytes]
  unfold storedKeyBytes columnBytes
  cases hv : isVariableType c.type with
  | false =>
    simp only [Bool.false_eq_true, if_false]
    exact slice_take_iff (by omega) (by omega)
  | true =>
    have ho := hp.lengthFirst c hc hv
    have hshort := h.short hv
    simp only [if_true]
    have hfull : (slice row c.offset (varLength row c.vcLenIndOffset)).length =
        varLength row c.vcLenIndOffset := slice_length (hasRange_iff.mpr (by omega))
    have hfour : hasRange (row.take cut) c.vcLenIndOffset variableLenSize = true ↔
        c.vcLenIndOffset + 4 ≤ cut := by
      rw [hasRange_iff, length_take, variableLenSize]
      omega
    by_cases hlength : c.vcLenIndOffset + 4 ≤ cut
    · have hvar : varLength (row.take cut) c.vcLenIndOffset = varLength row c.vcLenIndOffset :=
        varLength_congr ((agreeOn_take row cut).mono (Nat.zero_le _) le_rfl) hlength
      rw [if_neg (by simp [hfour.mpr hlength]), hvar]
      exact slice_take_iff (by omega) (by omega)
    · have hno := hfour.not.mpr hlength
      rw [Bool.not_eq_true] at hno
      simp only [hno, Bool.not_false, if_true, reduceCtorEq, false_iff, not_and]
      rintro rfl
      omega

/-- Where the column is inside, the bitmap in front of it is too. -/
theorem storedColumnIsNull_take (hbits : (columns.filter (·.nullable)).length ≤ 2 ^ 15)
    (hinside : c.offset ≤ cut) : storedColumnIsNull (row.take cut) c = cell.isNone := by
  obtain ⟨hstart, -⟩ := start_le_stop hp hc
  have hbehind := hp.behind c hc
  rw [← h.isNull]
  cases hn : c.nullable with
  | false => simp [storedColumnIsNull, hn]
  | true =>
    obtain ⟨k, hk, hk15, hfirst, -, heq⟩ := isNull_eq hp hbits hc hn hlen
    have hin : ¬ c.nullIndOffset ≥ (row.take cut).length := by
      rw [length_take]
      omega
    rw [heq, nullBitSet_eq _ _ _ hk15]
    simp only [storedColumnIsNull, hn, Bool.not_true, Bool.false_eq_true, if_false, if_neg hin, hk]
    rw [nullBitSet_eq _ _ _ hk15, byteOf, byteOf, getD_eq_getElem?_getD,
      getD_eq_getElem?_getD, agreeOn_take row cut _ (Nat.zero_le _) (by omega)]

end Cut

end litestore
