-- The values of a prepared statement (`bindPreparedParameters`). Every parameter
-- has a part of the input buffer for its value and one for its indicator; the
-- text of the client is written there in the type of the parameter.
import LiteStore.TextNumbers
import LiteStore.PhysicalWal

namespace litestore

open buffer List

/-! ## The plan -/

inductive IntegerWidth
  | bits8 | bits16 | bits32 | bits64
  deriving DecidableEq, Repr

def IntegerWidth.bytes : IntegerWidth → Nat
  | .bits8 => 1
  | .bits16 => 2
  | .bits32 => 4
  | .bits64 => 8

/-- The types that `bindPreparedParameters` tells apart. A wide text has two bytes to a
character. The type of a bit field of at most 16 bits is bound like 16 unsigned bits. -/
inductive ParameterType
  | character (wide : Bool)
  | varChar (wide : Bool)
  | boolean
  | integer (unsigned : Bool) (width : IntegerWidth)
  | float32
  | float64
  | textBinding
  deriving DecidableEq, Repr

/-- An entry of the input descriptor. An offset is negative where there is no such part; the
length is an integer of 32 bits. -/
structure TrafodionLitePreparedParameter where
  fsDatatype : ParameterType
  length : Int
  indOffset : Int
  varOffset : Int
  narrow : length < 2 ^ 31
  deriving DecidableEq, Repr

/-- The bytes in front of a text of varying length: four for the long types. -/
def varCharHeader (length : Int) : Nat := if length < 2 ^ 15 then 2 else 4

/-- The bytes of the buffer that the descriptor sets aside for a value. -/
def ParameterType.room (length : Int) : ParameterType → Nat
  | .character _ => length.toNat
  | .varChar _ => varCharHeader length + length.toNat
  | .boolean => 1
  | .integer _ width => width.bytes
  | .float32 => 4
  | .float64 => 8
  | .textBinding => length.toNat

namespace TrafodionLitePreparedParameter

variable (p : TrafodionLitePreparedParameter)

def HasData : Prop := 0 ≤ p.varOffset ∧ 0 < p.length

instance : Decidable p.HasData := by
  unfold HasData
  infer_instance

def indicatorParts : List (Nat × Nat) := if 0 ≤ p.indOffset then [(p.indOffset.toNat, 2)] else []

def dataParts : List (Nat × Nat) :=
  if p.HasData then [(p.varOffset.toNat, p.fsDatatype.room p.length)] else []

/-- The parts of the buffer that belong to a parameter. -/
def parts : List (Nat × Nat) := p.indicatorParts ++ p.dataParts

end TrafodionLitePreparedParameter

/-- A prepared plan. The descriptor gives every value and every indicator its own part of the
buffer, and the buffer was allocated with the plan. -/
structure TrafodionLitePreparedPlan where
  parameters : List TrafodionLitePreparedParameter
  inputDatalen : Nat
  inputBuf : Option Bytes
  allocated : 0 < inputDatalen → inputBuf.isSome = true
  inside : ∀ part ∈ parameters.flatMap (·.parts), part.1 + part.2 ≤ inputDatalen
  apart : (parameters.flatMap (·.parts)).Pairwise buffer.Apart

open ParameterType TrafodionLitePreparedParameter

/-! ## Reading numbers -/

/-- `strtoll` in base ten. It reads the same characters as `strtoull`. -/
def strtoll (s : List Char) : Int × List Char := (strtol s, (strtoull s).2)

/-- `strtod`, with the text it leaves, and the conversion to a `float`. -/
structure FloatReader where
  strtod : List Char → UInt64 × List Char
  toSingle : UInt64 → UInt32

section

variable (reader : FloatReader)

/-- What a case of the switch over the types stores, and where it leaves `end`: none is the null
pointer. There is no case for the types that are bound as texts. -/
def convertParameter (type : ParameterType) (value : Bytes) : Option (Bytes × Option (List Char)) :=
  match type with
  | .boolean =>
    some ([if upper (charsOf value) = "TRUE".toList || charsOf value = "1".toList then 1 else 0],
      none)
  | .integer false width =>
    let read := strtoll (cText value)
    some (intBytes read.1 width.bytes, some read.2)
  | .integer true width =>
    let read := strtoull (cText value)
    some (intBytes read.1.toNat width.bytes, some read.2)
  | .float32 =>
    let read := reader.strtod (cText value)
    some (lowFirst (reader.toSingle read.1).toNat 4, some read.2)
  | .float64 =>
    let read := reader.strtod (cText value)
    some (lowFirst read.1.toNat 8, some read.2)
  | _ => none

/-! ## The binder -/

/-- A parameter with the value that the client sent for it. -/
structure BoundParameter extends TrafodionLitePreparedParameter where
  value : Bytes
  null : Bool
  deriving DecidableEq, Repr

def blank : UInt8 := 32

/-- The value goes to its place in the buffer. -/
def bindValue (input : Bytes) (b : BoundParameter) : Except String Bytes :=
  let target := b.varOffset.toNat
  match b.fsDatatype with
  | .varChar _ =>
    if b.value.length > b.length.toNat then
      .error "Trafodion Lite prepared character parameter is too long"
    else
      .ok (patch (patch input target (lowFirst b.value.length 2)) (target + 2) b.value)
  | .character _ =>
    .ok (patch (patch input target (replicate b.length.toNat blank)) target
      (b.value.take b.length.toNat))
  | type =>
    match convertParameter reader type b.value with
    | none => .error "Trafodion Lite prepared parameter type requires text binding"
    | some (bytes, rest) =>
      if rest = some [] then .ok (patch input target bytes)
      else .error "Trafodion Lite prepared numeric parameter is invalid"

/-- One turn of the loop of `bindPreparedParameters`. -/
def bindParameter (input : Bytes) (b : BoundParameter) : Except String Bytes :=
  let input := if 0 ≤ b.indOffset then
      patch input b.indOffset.toNat (intBytes (if b.null then -1 else 0) 2)
    else input
  if b.null then .ok input
  else if ¬ b.HasData then
    .error "Trafodion Lite prepared input descriptor has no data slot"
  else bindValue reader input b

def bindLoop (reader : FloatReader) : Bytes → List BoundParameter → Except String Bytes
  | input, [] => .ok input
  | input, b :: rest =>
    match bindParameter reader input b with
    | .error e => .error e
    | .ok input => bindLoop reader input rest

def boundParameters : List TrafodionLitePreparedParameter → List Bytes → List Bool →
    List BoundParameter
  | p :: ps, value :: values, null :: nulls =>
    ⟨p, value, null⟩ :: boundParameters ps values nulls
  | _, _, _ => []

/-- The input buffer after the call, where it returns true. -/
def bindPreparedParameters (plan : TrafodionLitePreparedPlan) (values : List Bytes)
    (nulls : List Bool) : Except String Bytes :=
  if values.length ≠ plan.parameters.length ∨ nulls.length ≠ values.length then
    .error "Trafodion Lite prepared parameter count mismatch"
  else if 0 < plan.inputDatalen ∧ plan.inputBuf = none then
    .error "Trafodion Lite prepared input buffer is unavailable"
  else
    bindLoop reader (replicate plan.inputDatalen 0)
      (boundParameters plan.parameters values nulls)

/-! ## What the buffer should hold -/

/-- The integer of a text: blanks, a sign, and digits up to the end. -/
def integerText (text : List Char) : Option Int :=
  let signed := splitSign (text.dropWhile isSpace)
  if signed.2 ≠ [] ∧ signed.2.all Char.isDigit then
    some (signedNumber signed.1 (leadingDigits signed.2))
  else none

def truthText (text : List Char) : Option UInt8 :=
  if upper text = "TRUE".toList ∨ text = "1".toList then some 1
  else if upper text = "FALSE".toList ∨ text = "0".toList then some 0
  else none

/-- The bytes of a text of the type `wide`, filled with blanks up to `length`. -/
def blankPadded (wide : Bool) (value : Bytes) (length : Nat) : Option Bytes :=
  if wide then
    if 2 ∣ value.length ∧ 2 ∣ length ∧ value.length ≤ length then
      some (value ++ (replicate ((length - value.length) / 2) [blank, 0]).flatten)
    else none
  else if value.length ≤ length then
    some (value ++ replicate (length - value.length) blank)
  else none

/-- The bytes of a value in a type, where the type can hold it. -/
def valueSlot (type : ParameterType) (length : Int) (value : Bytes) : Option Bytes :=
  match type with
  | .character wide => blankPadded wide value length.toNat
  | .varChar wide =>
    if value.length ≤ length.toNat ∧ (wide = true → 2 ∣ value.length) then
      some (lowFirst value.length (varCharHeader length) ++ value)
    else none
  | .boolean => (truthText (charsOf value)).map fun b => [b]
  | .integer unsigned width =>
    (integerText (charsOf value)).bind fun n =>
      if InBinaryRange unsigned width.bytes n then some (intBytes n width.bytes) else none
  | .float32 =>
    if (reader.strtod (cText value)).2 = [] then
      some (lowFirst (reader.toSingle (reader.strtod (cText value)).1).toNat 4)
    else none
  | .float64 =>
    if (reader.strtod (cText value)).2 = [] then
      some (lowFirst (reader.strtod (cText value)).1.toNat 8)
    else none
  | .textBinding => none

end

namespace BoundParameter

variable (reader : FloatReader) (b : BoundParameter)

/-- The parameter can hold what the client sent: a NULL where there is an indicator, another
value where it has a form in the type. -/
def Representable : Prop :=
  if b.null then 0 ≤ b.indOffset
  else b.HasData ∧ (valueSlot reader b.fsDatatype b.length b.value).isSome = true

/-- The buffer holds what the client sent. -/
def HeldIn (buffer : Bytes) : Prop :=
  if b.null then 0 ≤ b.indOffset ∧ slice buffer b.indOffset.toNat 2 = intBytes (-1) 2
  else (0 ≤ b.indOffset → slice buffer b.indOffset.toNat 2 = intBytes 0 2) ∧
    ∃ slot, valueSlot reader b.fsDatatype b.length b.value = some slot ∧
      slice buffer b.varOffset.toNat slot.length = slot

end BoundParameter

/-- The binder takes the values that their parameters can hold, and no others. Where it takes
them, the buffer holds every one of them. -/
def BindingLaw (reader : FloatReader) (plan : TrafodionLitePreparedPlan) (values : List Bytes)
    (nulls : List Bool) : Prop :=
  ((bindPreparedParameters reader plan values nulls).isOk = true ↔
    values.length = plan.parameters.length ∧ nulls.length = values.length ∧
      ∀ b ∈ boundParameters plan.parameters values nulls, b.Representable reader) ∧
  ∀ buffer, bindPreparedParameters reader plan values nulls = .ok buffer →
    ∀ b ∈ boundParameters plan.parameters values nulls, b.HeldIn reader buffer

open BoundParameter

/-! ## Texts of integers -/

theorem strtoull_eq (text : List Char) : strtoull text =
    let signed := splitSign (text.dropWhile isSpace)
    if signed.2.takeWhile Char.isDigit = [] then (0, text)
    else
      let n := leadingDigits signed.2
      (UInt64.ofNat (if n ≥ 2 ^ 64 then 2 ^ 64 - 1 else if signed.1 then 2 ^ 64 - n else n),
        signed.2.dropWhile Char.isDigit) := by
  dsimp only
  generalize hsigned : splitSign (text.dropWhile isSpace) = signed
  have hread : strtoull text = if (signed.2.takeWhile Char.isDigit).isEmpty then (0, text)
      else (UInt64.ofNat (if leadingDigits signed.2 ≥ 2 ^ 64 then 2 ^ 64 - 1
        else if signed.1 then 2 ^ 64 - leadingDigits signed.2 else leadingDigits signed.2),
          signed.2.dropWhile Char.isDigit) := by
    rw [← hsigned]
    rfl
  rw [hread]
  simp only [List.isEmpty_iff]

variable {text : List Char} {n length : Int} {value input out : Bytes} {type : ParameterType}
  {values : List Bytes} {nulls : List Bool} {reader : FloatReader}

theorem integerText_eq_some :
    integerText text = some n ↔
      let signed := splitSign (text.dropWhile isSpace)
      signed.2 ≠ [] ∧ (∀ c ∈ signed.2, c.isDigit = true) ∧
        n = signedNumber signed.1 (leadingDigits signed.2) := by
  unfold integerText
  simp only [Option.ite_none_right_eq_some, Option.some.injEq, all_eq_true, and_assoc,
    eq_comm (a := n)]

/-- Both readers come to the end of the texts of integers, and of the empty text, where they
find no digit and stay where they are. -/
theorem strtoull_rest (text : List Char) :
    (strtoull text).2 = [] ↔ text = [] ∨ (integerText text).isSome = true := by
  rw [strtoull_eq, Option.isSome_iff_exists]
  simp only [integerText_eq_some]
  generalize hsigned : splitSign (text.dropWhile isSpace) = signed
  obtain ⟨negative, body⟩ := signed
  dsimp only
  by_cases hnone : body.takeWhile Char.isDigit = []
  · rw [if_pos hnone]
    constructor
    · exact .inl
    · rintro (htext | ⟨n, hne, hdigits, -⟩)
      · exact htext
      · rw [takeWhile_eq_self_iff.mpr hdigits] at hnone
        exact absurd hnone hne
  · rw [if_neg hnone]
    constructor
    · intro hrest
      refine .inr ⟨_, ?_, dropWhile_eq_nil_iff.mp hrest, rfl⟩
      rintro rfl
      exact hnone rfl
    · rintro (htext | ⟨n, -, hdigits, -⟩)
      · rw [htext] at hsigned
        obtain ⟨rfl, rfl⟩ := Prod.mk.inj hsigned
        exact absurd rfl hnone
      · exact dropWhile_eq_nil_iff.mpr hdigits

theorem no_zero_of_integerText (h : integerText (charsOf value) = some n) :
    (0 : UInt8) ∉ value := by
  intro hzero
  have hmem : Char.ofNat 0 ∈ charsOf value := mem_map.mpr ⟨0, hzero, rfl⟩
  obtain ⟨-, hdigits, -⟩ := integerText_eq_some.mp h
  rw [← takeWhile_append_dropWhile (p := isSpace) (l := charsOf value)] at hmem
  rcases mem_append.mp hmem with hmem | hmem
  · have hspace := mem_takeWhile_imp hmem
    revert hspace
    decide
  · -- behind the blanks there are a sign and digits
    have hsplit : ∀ c ∈ (charsOf value).dropWhile isSpace,
        c = '-' ∨ c = '+' ∨ c ∈ (splitSign ((charsOf value).dropWhile isSpace)).2 := by
      intro c hc
      unfold splitSign
      split
      iterate 2
        · rename_i rest hrest
          rw [hrest, mem_cons] at hc
          tauto
      · exact .inr (.inr hc)
    rcases hsplit _ hmem with h | h | h
    · exact absurd h (by decide)
    · exact absurd h (by decide)
    · exact absurd (hdigits _ h) (by decide)

theorem cText_of_integerText (h : integerText (charsOf value) = some n) :
    cText value = charsOf value := by
  rw [cText_eq, cBytes_of_no_zero (no_zero_of_integerText h)]

/-- An integer that fits in 64 bits is read as it is. -/
theorem strtol_of_integerText (h : integerText text = some n) (hrange : InBinaryRange false 8 n) :
    strtol text = n := by
  obtain ⟨-, -, hn⟩ := integerText_eq_some.mp h
  rw [strtol_eq]
  unfold InBinaryRange at hrange
  unfold signedNumber at hn
  simp only [Bool.false_eq_true, if_false] at hrange
  dsimp only
  split at hn
  · rename_i hnegative
    rw [if_pos hnegative]
    omega
  · rename_i hpositive
    rw [if_neg hpositive]
    omega

theorem strtoull_of_integerText (h : integerText text = some n) (hrange : InBinaryRange true 8 n) :
    ((strtoull text).1.toNat : Int) = n := by
  obtain ⟨hne, hdigits, hn⟩ := integerText_eq_some.mp h
  unfold InBinaryRange at hrange
  unfold signedNumber at hn
  simp only [if_true] at hrange
  rw [strtoull_eq]
  dsimp only
  rw [if_neg (by rwa [takeWhile_eq_self_iff.mpr hdigits])]
  dsimp only
  rw [UInt64.toNat_ofNat']
  split at hn
  · rename_i hnegative
    rw [if_pos hnegative]
    -- the only number below one that is in range
    split <;> omega
  · rename_i hpositive
    rw [if_neg hpositive]
    split <;> omega

/-! ## What the binder takes and writes -/

/-- The texts that the binder takes for a type. Of an integer it reads what stands in front of
the first zero byte. -/
def TakenText (reader : FloatReader) (type : ParameterType) (length : Int) (value : Bytes) : Prop :=
  match type with
  | .character _ => True
  | .varChar _ => value.length ≤ length.toNat
  | .integer _ _ => cText value = [] ∨ (integerText (cText value)).isSome = true
  | .float32 | .float64 => (reader.strtod (cText value)).2 = []
  | .boolean | .textBinding => False

/-- The bytes that the binder leaves for a value. -/
def writtenBytes (reader : FloatReader) (type : ParameterType) (length : Int) (value : Bytes) :
    Bytes :=
  match type with
  | .varChar _ => lowFirst value.length 2 ++ value
  | .character _ => value.take length.toNat ++ replicate (length.toNat - value.length) blank
  | type => (convertParameter reader type value).elim [] Prod.fst

theorem convertParameter_ends (hchar : ∀ wide, type ≠ .character wide)
    (hvar : ∀ wide, type ≠ .varChar wide) :
    (∃ bytes, convertParameter reader type value = some (bytes, some [])) ↔
      TakenText reader type length value := by
  cases type with
  | character wide => exact absurd rfl (hchar wide)
  | varChar wide => exact absurd rfl (hvar wide)
  | boolean | float32 | float64 | textBinding => simp [convertParameter, TakenText]
  | integer unsigned width =>
    cases unsigned with
    | false => simp [convertParameter, TakenText, strtoll, strtoull_rest]
    | true => simp [convertParameter, TakenText, strtoull_rest]

theorem two_le_varCharHeader (length : Int) : 2 ≤ varCharHeader length := by
  unfold varCharHeader
  split <;> omega

theorem writtenBytes_length_le (h : TakenText reader type length value) :
    (writtenBytes reader type length value).length ≤ type.room length := by
  cases type with
  | character wide =>
    simp [writtenBytes, room]
    omega
  | varChar wide =>
    have hle : value.length ≤ length.toNat := h
    have hheader := two_le_varCharHeader length
    simp only [writtenBytes, room, length_append, lowFirst_length]
    omega
  | boolean | textBinding => exact h.elim
  | integer unsigned width =>
    cases unsigned <;> simp [writtenBytes, convertParameter, room]
  | float32 | float64 => simp [writtenBytes, convertParameter, room]

theorem bindValue_eq_ok {b : BoundParameter}
    (hroom : b.varOffset.toNat + b.fsDatatype.room b.length ≤ input.length) :
    bindValue reader input b = .ok out ↔ TakenText reader b.fsDatatype b.length b.value ∧
      out = patch input b.varOffset.toNat
        (writtenBytes reader b.fsDatatype b.length b.value) := by
  generalize htype : b.fsDatatype = type at hroom
  -- the two texts are written in two steps, a number in one
  have hnumber : (∀ wide, type ≠ .character wide) → (∀ wide, type ≠ .varChar wide) →
      (bindValue reader input b = .ok out ↔ TakenText reader type b.length b.value ∧
        out = patch input b.varOffset.toNat (writtenBytes reader type b.length b.value)) := by
    intro hchar hvar
    rw [← convertParameter_ends hchar hvar]
    unfold bindValue writtenBytes
    rw [htype]
    cases type with
    | character wide => exact absurd rfl (hchar wide)
    | varChar wide => exact absurd rfl (hvar wide)
    | _ =>
      dsimp only
      cases hconvert : convertParameter reader _ b.value with
      | none => simp
      | some read =>
        obtain ⟨bytes, rest⟩ := read
        by_cases hend : rest = some []
        · simp [hend, eq_comm]
        · simp [hend]
  cases type with
  | character wide =>
    unfold bindValue TakenText writtenBytes
    rw [htype]
    dsimp only
    rw [patch_patch_front (by simpa [room] using hroom) (by simp)]
    simp only [Except.ok.injEq, true_and, length_take, drop_replicate, eq_comm (a := out)]
    have hcount : b.length.toNat - min b.length.toNat b.value.length =
        b.length.toNat - b.value.length := by omega
    rw [hcount]
  | varChar wide =>
    have hheader := two_le_varCharHeader b.length
    have hinside : b.varOffset.toNat + (lowFirst b.value.length 2).length ≤ input.length := by
      unfold room at hroom
      rw [lowFirst_length]
      dsimp only at hroom
      omega
    have hmerge : patch (patch input b.varOffset.toNat (lowFirst b.value.length 2))
        (b.varOffset.toNat + (lowFirst b.value.length 2).length) b.value =
        patch input b.varOffset.toNat (lowFirst b.value.length 2 ++ b.value) :=
      patch_patch_append hinside
    rw [lowFirst_length] at hmerge
    unfold bindValue TakenText writtenBytes
    rw [htype]
    dsimp only
    rw [hmerge]
    by_cases hlong : b.value.length > b.length.toNat
    · rw [if_pos hlong]
      simp only [reduceCtorEq, false_iff, not_and]
      omega
    · rw [if_neg hlong, Except.ok.injEq, eq_comm]
      simp only [Nat.not_lt.mp hlong, true_and]
  | boolean | integer unsigned width | float32 | float64 | textBinding =>
    exact hnumber (by simp) (by simp)

def zeroReader : FloatReader := ⟨fun _ => (0, []), fun _ => 0⟩

namespace BoundParameter

variable (reader : FloatReader) (b : BoundParameter)

/-- The binder takes what the client sent for a parameter. A NULL it takes in any case. -/
def Taken : Prop :=
  b.null = true ∨ b.HasData ∧ TakenText reader b.fsDatatype b.length b.value

def indicatorSlots : List (Slot UInt8) :=
  if 0 ≤ b.indOffset then [⟨b.indOffset.toNat, 2, intBytes (if b.null then -1 else 0) 2⟩] else []

def dataSlots : List (Slot UInt8) :=
  if b.HasData then
    [⟨b.varOffset.toNat, b.fsDatatype.room b.length,
      if b.null then [] else writtenBytes reader b.fsDatatype b.length b.value⟩]
  else []

/-- What a turn of the loop writes to the parts of its parameter. -/
def slots : List (Slot UInt8) := b.indicatorSlots ++ b.dataSlots reader

theorem slots_parts : (b.slots reader).map Slot.part = b.parts := by
  unfold slots indicatorSlots dataSlots parts
    indicatorParts dataParts
  rw [map_append]
  congr 1
  · split <;> rfl
  · split <;> rfl

variable {reader b}

theorem indicatorSlots_inside (hinside : ∀ part ∈ b.parts, part.1 + part.2 ≤ input.length) :
    ∀ slot ∈ b.indicatorSlots, Inside input slot := by
  intro slot hslot
  refine ⟨?_, hinside slot.part ?_⟩
  · unfold indicatorSlots at hslot
    split at hslot
    · rw [mem_singleton.mp hslot]
      simp
    · cases hslot
  · rw [← slots_parts zeroReader]
    exact mem_map_of_mem (mem_append_left _ hslot)

theorem slots_inside (htaken : b.Taken reader)
    (hinside : ∀ part ∈ b.parts, part.1 + part.2 ≤ input.length) :
    ∀ slot ∈ b.slots reader, Inside input slot := by
  intro slot hslot
  rcases mem_append.mp hslot with h | h
  · exact indicatorSlots_inside hinside slot h
  · refine ⟨?_, hinside slot.part (by rw [← slots_parts reader]; exact mem_map_of_mem hslot)⟩
    unfold dataSlots at h
    split at h
    · rw [mem_singleton.mp h]
      rcases htaken with hnull | ⟨-, htext⟩
      · simp [hnull]
      · dsimp only
        split
        · exact Nat.zero_le _
        · exact writtenBytes_length_le htext
    · cases h

theorem fill_indicatorSlots (input : Bytes) : fill input b.indicatorSlots =
    if 0 ≤ b.indOffset then
      patch input b.indOffset.toNat (intBytes (if b.null then -1 else 0) 2)
    else input := by
  unfold indicatorSlots
  split <;> rfl

theorem bindParameter_eq_ok (hinside : ∀ part ∈ b.parts, part.1 + part.2 ≤ input.length) :
    bindParameter reader input b = .ok out ↔
      b.Taken reader ∧ out = fill input (b.slots reader) := by
  have hlength := fill_length (indicatorSlots_inside hinside)
  unfold bindParameter
  rw [← fill_indicatorSlots]
  unfold slots Taken
  rw [fill_append]
  by_cases hnull : b.null = true
  · have hdata : fill (fill input b.indicatorSlots) (b.dataSlots reader) =
        fill input b.indicatorSlots := by
      unfold dataSlots
      split
      · simp
      · rfl
    rw [hdata]
    simp [hnull, eq_comm]
  · by_cases hhas : b.HasData
    · have hroom : b.varOffset.toNat + b.fsDatatype.room b.length ≤
          (fill input b.indicatorSlots).length := by
        rw [hlength]
        apply hinside (b.varOffset.toNat, b.fsDatatype.room b.length)
        unfold parts dataParts
        simp [hhas]
      have hdata : fill (fill input b.indicatorSlots) (b.dataSlots reader) =
          patch (fill input b.indicatorSlots) b.varOffset.toNat
            (writtenBytes reader b.fsDatatype b.length b.value) := by
        unfold dataSlots
        simp [hhas, hnull]
      rw [if_neg hnull, if_neg (by simpa using hhas), bindValue_eq_ok hroom, hdata]
      simp [hnull, hhas]
    · rw [if_neg hnull, if_pos hhas]
      simp [hnull, hhas]

end BoundParameter

/-- The loop takes the values where every turn takes its own, and fills the parts of all. -/
theorem bindLoop_eq_ok {bs : List BoundParameter}
    (hinside : ∀ part ∈ bs.flatMap (·.parts), part.1 + part.2 ≤ input.length) :
    bindLoop reader input bs = .ok out ↔
      (∀ b ∈ bs, b.Taken reader) ∧ out = fill input (bs.flatMap (·.slots reader)) := by
  induction bs generalizing input with
  | nil => simp [bindLoop, eq_comm]
  | cons b rest ih =>
    have hfirst : ∀ part ∈ b.parts, part.1 + part.2 ≤ input.length :=
      fun part hpart => hinside part (mem_flatMap.mpr ⟨b, mem_cons_self, hpart⟩)
    have hstep : ∀ next, bindParameter reader input b = .ok next ↔
        b.Taken reader ∧ next = fill input (b.slots reader) :=
      fun next => bindParameter_eq_ok hfirst
    have hrest : ∀ part ∈ rest.flatMap (·.parts), part.1 + part.2 ≤ input.length := by
      intro part hpart
      obtain ⟨other, hmem, hpart⟩ := mem_flatMap.mp hpart
      exact hinside part (mem_flatMap.mpr ⟨other, mem_cons_of_mem _ hmem, hpart⟩)
    rw [flatMap_cons, fill_append, forall_mem_cons]
    unfold bindLoop
    cases hbind : bindParameter reader input b with
    | error e =>
      have hnot : ¬ b.Taken reader := by
        intro htaken
        have := (hstep _).mpr ⟨htaken, rfl⟩
        rw [hbind] at this
        cases this
      simp [hnot]
    | ok next =>
      obtain ⟨htaken, rfl⟩ := (hstep next).mp hbind
      have hlength := fill_length (slots_inside htaken hfirst)
      dsimp only
      rw [ih (by rwa [hlength])]
      simp [htaken]

/-! ## Where the buffer holds the value -/

/-- The texts, of those the binder takes, that the buffer then holds. A fixed text must not be
longer than its type, and one of wide characters must fill it; a long type of varying length has
four bytes in front, of which the binder writes two; an integer must be there to its last
character and in range. -/
def KeptText (type : ParameterType) (length : Int) (value : Bytes) : Prop :=
  match type with
  | .character wide => value.length ≤ length.toNat ∧
      (wide = true → 2 ∣ value.length ∧ value.length = length.toNat)
  | .varChar wide => (wide = true → 2 ∣ value.length) ∧
      (length < 2 ^ 15 ∨ value.length < 2 ^ 16 ∧ ∀ byte ∈ value, byte = 0)
  | .integer unsigned width =>
    ∃ n, integerText (charsOf value) = some n ∧ InBinaryRange unsigned width.bytes n
  | _ => True

/-- The part of the buffer for a value holds the value. -/
def HoldsValue (reader : FloatReader) (type : ParameterType) (length : Int) (value : Bytes) : Prop :=
  ∃ slot, valueSlot reader type length value = some slot ∧
    (writtenBytes reader type length value ++ replicate (type.room length -
      (writtenBytes reader type length value).length) 0).take slot.length = slot

/-- The two bytes that are missing in front are those that are left behind: only zeros look the
same. -/
theorem shifted_eq {a b : UInt8} (h : value ++ [0, 0] = a :: b :: value) :
    a = 0 ∧ b = 0 ∧ ∀ byte ∈ value, byte = 0 := by
  induction value using List.twoStepInduction generalizing a b with
  | nil =>
    simp only [nil_append, List.cons.injEq, and_true] at h
    exact ⟨h.1.symm, h.2.symm, by simp⟩
  | singleton x =>
    simp only [cons_append, nil_append, List.cons.injEq, and_true] at h
    obtain ⟨rfl, rfl, rfl⟩ := h
    simp
  | cons_cons x y rest ih _ =>
    simp only [cons_append, List.cons.injEq] at h
    obtain ⟨rfl, rfl, h⟩ := h
    obtain ⟨rfl, rfl, hrest⟩ := ih h
    simpa using hrest

theorem holdsValue_character {wide : Bool} :
    HoldsValue reader (.character wide) length value ↔ KeptText (.character wide) length value := by
  unfold HoldsValue KeptText valueSlot writtenBytes blankPadded room
  dsimp only
  generalize length.toNat = n
  have hzeros : n - (value.take n ++ replicate (n - value.length) blank).length = 0 := by
    simp
    omega
  rw [hzeros, replicate_zero, append_nil]
  by_cases hle : value.length ≤ n
  · rw [take_of_length_le hle]
    cases wide with
    | false =>
      simp only [Bool.false_eq_true, if_false, hle, if_true, Option.some.injEq, exists_eq_left',
        take_length, false_implies, and_true]
    | true =>
      simp only [if_true, hle, and_true, Option.ite_none_right_eq_some, Option.some.injEq,
        true_implies, true_and]
      constructor
      · rintro ⟨_, ⟨⟨heven, hn⟩, rfl⟩, hsame⟩
        refine ⟨heven, ?_⟩
        by_contra hne
        -- the second byte of the first blank is a zero in the type and a blank in the buffer
        obtain ⟨k, hk⟩ : ∃ k, (n - value.length) / 2 = k + 1 := ⟨(n - value.length) / 2 - 1, by omega⟩
        obtain ⟨m, hm⟩ : ∃ m, n - value.length = m + 2 := ⟨n - value.length - 2, by omega⟩
        rw [hk, hm, replicate_succ, replicate_succ, replicate_succ,
          flatten_cons, length_append, List.take_length_add_append] at hsame
        have hcons := append_cancel_left hsame
        simp [blank] at hcons
      · rintro ⟨heven, hsize⟩
        refine ⟨value, ⟨⟨heven, hsize ▸ heven⟩, ?_⟩, ?_⟩
        · rw [hsize]
          simp
        · simp
  · cases wide with
    | false | true => simp [hle]

theorem lowFirst_four (n : Nat) :
    lowFirst n 4 = lowFirst n 2 ++ [byteAt n 2, byteAt n 3] := rfl

theorem holdsValue_varChar {wide : Bool} (hnarrow : length < 2 ^ 31)
    (htaken : value.length ≤ length.toNat) :
    HoldsValue reader (.varChar wide) length value ↔ KeptText (.varChar wide) length value := by
  unfold HoldsValue KeptText valueSlot writtenBytes room varCharHeader
  dsimp only
  simp only [htaken, true_and, Option.ite_none_right_eq_some, Option.some.injEq]
  by_cases hshort : length < 2 ^ 15
  · simp only [hshort, if_true, true_or, and_true]
    constructor
    · rintro ⟨_, ⟨heven, rfl⟩, -⟩
      exact heven
    · intro heven
      exact ⟨_, ⟨heven, rfl⟩, take_left⟩
  · simp only [hshort, if_false, false_or, lowFirst_four]
    -- behind the text there are at least the two bytes it stands too far in front
    have hzeros : 4 + length.toNat - (lowFirst value.length 2 ++ value).length =
        2 + (length.toNat - value.length) := by
      simp only [length_append, lowFirst_length]
      omega
    have htail : ∀ slot : Bytes, slot = lowFirst value.length 2 ++
          [byteAt value.length 2, byteAt value.length 3] ++ value →
        (lowFirst value.length 2 ++ value ++ replicate (2 + (length.toNat - value.length))
          0).take slot.length = lowFirst value.length 2 ++ (value ++ [0, 0]) := by
      intro slot hslot
      rw [hslot, replicate_add, ← append_assoc, take_append_of_le_length
        (by simp), take_of_length_le (by simp), append_assoc]
      rfl
    rw [hzeros]
    constructor
    · rintro ⟨slot, ⟨heven, rfl⟩, hsame⟩
      rw [htail _ rfl, append_assoc] at hsame
      obtain ⟨hthird, hfourth, hzero⟩ := shifted_eq (append_cancel_left hsame)
      have hbytes := And.intro (congrArg UInt8.toNat hthird) (congrArg UInt8.toNat hfourth)
      rw [byteAt_toNat, byteAt_toNat, UInt8.toNat_zero] at hbytes
      exact ⟨heven, by omega, hzero⟩
    · rintro ⟨heven, hsmall, hzero⟩
      have hhigh : byteAt value.length 2 = 0 ∧ byteAt value.length 3 = 0 := by
        constructor
        all_goals
          apply UInt8.toNat_inj.mp
          rw [byteAt_toNat, UInt8.toNat_zero]
          omega
      have hall : value = replicate value.length 0 := eq_replicate_of_mem hzero
      have hswap : value ++ [0, 0] = [0, 0] ++ value := by
        rw [hall]
        exact replicate_append_replicate.trans
          ((congrArg (replicate · 0) (Nat.add_comm _ 2)).trans
            replicate_append_replicate.symm)
      refine ⟨_, ⟨heven, rfl⟩, ?_⟩
      rw [htail _ rfl, hhigh.1, hhigh.2, hswap, append_assoc]

theorem holdsValue_integer {unsigned : Bool} {width : IntegerWidth} :
    HoldsValue reader (.integer unsigned width) length value ↔
      KeptText (.integer unsigned width) length value := by
  unfold HoldsValue KeptText valueSlot
  simp only [Option.bind_eq_some_iff, Option.ite_none_right_eq_some, Option.some.injEq]
  constructor
  · rintro ⟨_, ⟨n, htext, hrange, -⟩, -⟩
    exact ⟨n, htext, hrange⟩
  · rintro ⟨n, htext, hrange⟩
    refine ⟨_, ⟨n, htext, hrange, rfl⟩, ?_⟩
    have hwide : InBinaryRange unsigned 8 n := by
      unfold InBinaryRange at hrange ⊢
      cases unsigned <;> cases width <;> simp [IntegerWidth.bytes] at hrange ⊢ <;> omega
    have hchars := cText_of_integerText htext
    have hwritten : writtenBytes reader (.integer unsigned width) length value =
        intBytes n width.bytes := by
      cases unsigned with
      | false =>
        show intBytes (strtol (cText value)) width.bytes = _
        rw [hchars, strtol_of_integerText htext hwide]
      | true =>
        show intBytes ((strtoull (cText value)).1.toNat : Int) width.bytes = _
        rw [hchars, strtoull_of_integerText htext hwide]
    rw [hwritten, take_left]

/-- Of the texts that the binder takes, the buffer holds those of `KeptText`. -/
theorem holdsValue_iff (hnarrow : length < 2 ^ 31)
    (htaken : TakenText reader type length value) :
    HoldsValue reader type length value ↔ KeptText type length value := by
  cases type with
  | character wide => exact holdsValue_character
  | varChar wide => exact holdsValue_varChar hnarrow htaken
  | boolean | textBinding => exact htaken.elim
  | integer unsigned width => exact holdsValue_integer
  | float32 =>
    have hslot : valueSlot reader .float32 length value = some (writtenBytes reader .float32 length
        value) := if_pos htaken
    exact ⟨fun _ => trivial, fun _ => ⟨_, hslot, take_left⟩⟩
  | float64 =>
    have hslot : valueSlot reader .float64 length value = some (writtenBytes reader .float64 length
        value) := if_pos htaken
    exact ⟨fun _ => trivial, fun _ => ⟨_, hslot, take_left⟩⟩

theorem valueSlot_length_le {slot : Bytes}
    (h : valueSlot reader type length value = some slot) : slot.length ≤ type.room length := by
  cases type with
  | character wide =>
    unfold valueSlot blankPadded at h
    dsimp only at h
    cases wide with
    | false =>
      simp only [Bool.false_eq_true, if_false, Option.ite_none_right_eq_some,
        Option.some.injEq] at h
      obtain ⟨hle, rfl⟩ := h
      simp [room]
      omega
    | true =>
      simp only [if_true, Option.ite_none_right_eq_some, Option.some.injEq] at h
      obtain ⟨⟨-, -, hle⟩, rfl⟩ := h
      simp [room]
      omega
  | varChar wide =>
    simp only [valueSlot, Option.ite_none_right_eq_some, Option.some.injEq] at h
    obtain ⟨⟨hle, -⟩, rfl⟩ := h
    simp only [length_append, lowFirst_length, room]
    omega
  | boolean =>
    obtain ⟨b, -, rfl⟩ := Option.map_eq_some_iff.mp h
    exact le_rfl
  | integer unsigned width =>
    simp only [valueSlot, Option.bind_eq_some_iff, Option.ite_none_right_eq_some,
      Option.some.injEq] at h
    obtain ⟨n, -, -, rfl⟩ := h
    simp [room]
  | float32 | float64 =>
    simp only [valueSlot, Option.ite_none_right_eq_some, Option.some.injEq] at h
    obtain ⟨-, rfl⟩ := h
    simp [room]
  | textBinding => cases h

/-- A value that the type can hold is taken, unless it is a boolean. -/
theorem takenText_of_valueSlot
    (h : (valueSlot reader type length value).isSome = true) :
    TakenText reader type length value ↔ type ≠ .boolean := by
  obtain ⟨slot, hslot⟩ := Option.isSome_iff_exists.mp h
  cases type with
  | character wide | boolean => simp [TakenText]
  | varChar wide =>
    simp only [valueSlot, Option.ite_none_right_eq_some] at hslot
    simp [TakenText, hslot.1.1]
  | integer unsigned width =>
    obtain ⟨n, htext, -⟩ := Option.bind_eq_some_iff.mp hslot
    simp [TakenText, cText_of_integerText htext, htext]
  | float32 | float64 =>
    simp only [valueSlot, Option.ite_none_right_eq_some] at hslot
    simp [TakenText, hslot.1]
  | textBinding => cases hslot

namespace BoundParameter

variable {b : BoundParameter}

/-- The buffer holds what the client sent, if the binder takes it: a NULL needs an indicator, a
text is one of `KeptText`. -/
def Kept (b : BoundParameter) : Prop :=
  if b.null then 0 ≤ b.indOffset else KeptText b.fsDatatype b.length b.value

/-- Where every part holds what its owner wrote, a parameter that was taken is held in the buffer
exactly if it is one of those that are kept. -/
theorem heldIn_iff {buffer : Bytes} (htaken : b.Taken reader)
    (hslots : ∀ slot ∈ b.slots reader, slice buffer slot.start slot.size =
      slot.elems ++ replicate (slot.size - slot.elems.length) 0) :
    b.HeldIn reader buffer ↔ b.Kept := by
  have hindicator : 0 ≤ b.indOffset → slice buffer b.indOffset.toNat 2 =
      intBytes (if b.null then -1 else 0) 2 := by
    intro hoffset
    have hslot := hslots ⟨b.indOffset.toNat, 2, intBytes (if b.null then -1 else 0) 2⟩
      (by simp [slots, indicatorSlots, hoffset])
    simpa using hslot
  unfold HeldIn Kept
  by_cases hnull : b.null = true
  · rw [if_pos hnull, if_pos hnull]
    rw [hnull, if_pos rfl] at hindicator
    exact ⟨And.left, fun hoffset => ⟨hoffset, hindicator hoffset⟩⟩
  · rw [if_neg hnull, if_neg hnull]
    rw [if_neg hnull] at hindicator
    obtain ⟨hhas, htext⟩ := htaken.resolve_left hnull
    have hdata := hslots ⟨b.varOffset.toNat, b.fsDatatype.room b.length,
      writtenBytes reader b.fsDatatype b.length b.value⟩ (by simp [slots, dataSlots, hhas, hnull])
    rw [← holdsValue_iff b.narrow htext]
    unfold HoldsValue
    rw [← hdata]
    have hwindow : ∀ slot, valueSlot reader b.fsDatatype b.length b.value = some slot →
        slice buffer b.varOffset.toNat slot.length =
          (slice buffer b.varOffset.toNat (b.fsDatatype.room b.length)).take slot.length := by
      intro slot hslot
      unfold slice
      rw [take_take, Nat.min_eq_left (valueSlot_length_le hslot)]
    constructor
    · rintro ⟨-, slot, hslot, hheld⟩
      exact ⟨slot, hslot, by rw [← hwindow slot hslot, hheld]⟩
    · rintro ⟨slot, hslot, hheld⟩
      exact ⟨hindicator, slot, hslot, by rw [hwindow slot hslot, hheld]⟩

theorem representable_of_kept (htaken : b.Taken reader) (hkept : b.Kept) :
    b.Representable reader := by
  unfold Kept at hkept
  unfold Representable
  by_cases hnull : b.null = true
  · rw [if_pos hnull] at hkept ⊢
    exact hkept
  · rw [if_neg hnull] at hkept ⊢
    obtain ⟨hhas, htext⟩ := htaken.resolve_left hnull
    obtain ⟨slot, hslot, -⟩ := (holdsValue_iff b.narrow htext).mpr hkept
    exact ⟨hhas, by rw [hslot]; rfl⟩

/-- Of what a parameter can hold, the booleans are refused. -/
theorem taken_of_representable (h : b.Representable reader) :
    b.Taken reader ↔ b.null = true ∨ b.fsDatatype ≠ .boolean := by
  unfold Representable at h
  unfold Taken
  by_cases hnull : b.null = true
  · simp [hnull]
  · rw [if_neg hnull] at h
    simp [hnull, h.1, takenText_of_valueSlot h.2]

end BoundParameter

theorem boundParameters_parameters {ps : List TrafodionLitePreparedParameter}
    (hvalues : values.length = ps.length) (hnulls : nulls.length = values.length) :
    (boundParameters ps values nulls).map (·.toTrafodionLitePreparedParameter) = ps := by
  induction ps generalizing values nulls with
  | nil => rfl
  | cons p rest ih =>
    obtain ⟨value, values, rfl⟩ := exists_cons_of_length_eq_add_one hvalues
    obtain ⟨null, nulls, rfl⟩ := exists_cons_of_length_eq_add_one hnulls
    simp only [length_cons, Nat.add_right_cancel_iff] at hvalues hnulls
    simp only [boundParameters, map_cons, ih hvalues hnulls]

section Plan

variable {plan : TrafodionLitePreparedPlan} {bs : List BoundParameter}
  (hbs : bs.map (·.toTrafodionLitePreparedParameter) = plan.parameters)

include hbs

theorem bound_parts_inside :
    ∀ part ∈ bs.flatMap (·.parts), part.1 + part.2 ≤ (replicate plan.inputDatalen
      (0 : UInt8)).length := by
  intro part hpart
  rw [length_replicate]
  apply plan.inside part
  rw [← hbs, flatMap_map]
  exact hpart

/-- After a loop that succeeds every part of the buffer holds what was written for it. -/
theorem bound_slots_held (htaken : ∀ b ∈ bs, b.Taken reader) {b : BoundParameter} (hb : b ∈ bs)
    {slot : Slot UInt8} (hslot : slot ∈ b.slots reader) :
    slice (fill (replicate plan.inputDatalen 0) (bs.flatMap (·.slots reader))) slot.start
      slot.size = slot.elems ++ replicate (slot.size - slot.elems.length) 0 := by
  have hparts : (bs.flatMap (·.slots reader)).map Slot.part =
      plan.parameters.flatMap (·.parts) := by
    rw [← hbs, flatMap_map, map_flatMap]
    exact flatMap_congr fun other _ => slots_parts reader other
  apply window_fill
  · intro other hother
    obtain ⟨owner, howner, hother⟩ := mem_flatMap.mp hother
    apply slots_inside (htaken owner howner) _ other hother
    exact fun part hpart => bound_parts_inside hbs part (mem_flatMap.mpr ⟨owner, howner, hpart⟩)
  · rw [hparts]
    exact plan.apart
  · exact mem_flatMap.mpr ⟨b, hb, hslot⟩

end Plan

/-- Behind its two checks, which never find the buffer missing, the call is the loop. -/
theorem bindPreparedParameters_eq_loop {plan : TrafodionLitePreparedPlan}
    (hvalues : values.length = plan.parameters.length) (hnulls : nulls.length = values.length) :
    bindPreparedParameters reader plan values nulls = bindLoop reader
      (replicate plan.inputDatalen 0) (boundParameters plan.parameters values nulls) := by
  have hbuffer : ¬ (0 < plan.inputDatalen ∧ plan.inputBuf = none) := by
    rintro ⟨hpos, hnone⟩
    have hsome := plan.allocated hpos
    rw [hnone] at hsome
    cases hsome
  unfold bindPreparedParameters
  rw [if_neg (by simp [hvalues, hnulls]), if_neg hbuffer]

/-- What the client sends is bound as it should be: if all of it is taken, all of it is kept, and
if all of it has a form in its types, no value is a boolean. -/
def BindsPlainly (reader : FloatReader) (bs : List BoundParameter) : Prop :=
  ((∀ b ∈ bs, b.Taken reader) → ∀ b ∈ bs, b.Kept) ∧
  ((∀ b ∈ bs, b.Representable reader) → ∀ b ∈ bs, b.null = true ∨ b.fsDatatype ≠ .boolean)

theorem prepared_parameters_bound_iff (reader : FloatReader) (plan : TrafodionLitePreparedPlan)
    (values : List Bytes) (nulls : List Bool) :
    BindingLaw reader plan values nulls ↔
      (values.length = plan.parameters.length → nulls.length = values.length →
        BindsPlainly reader (boundParameters plan.parameters values nulls)) := by
  unfold BindingLaw
  by_cases hcount : values.length = plan.parameters.length ∧ nulls.length = values.length
  · obtain ⟨hvalues, hnulls⟩ := hcount
    have hbs := boundParameters_parameters hvalues hnulls
    rw [bindPreparedParameters_eq_loop hvalues hnulls]
    simp only [hvalues, hnulls, true_and, true_implies]
    generalize boundParameters plan.parameters values nulls = bs at hbs ⊢
    have hok := fun out => @bindLoop_eq_ok _ out reader bs (bound_parts_inside hbs)
    have hheld : (∀ b ∈ bs, b.Taken reader) → ∀ b ∈ bs, (b.HeldIn reader
        (fill (replicate plan.inputDatalen 0) (bs.flatMap (·.slots reader))) ↔ b.Kept) :=
      fun htaken b hb => heldIn_iff (htaken b hb)
        fun slot hslot => bound_slots_held hbs htaken hb hslot
    have hisOk : (bindLoop reader (replicate plan.inputDatalen 0) bs).isOk = true ↔
        ∀ b ∈ bs, b.Taken reader := by
      constructor
      · intro hsuccess
        cases hresult : bindLoop reader (replicate plan.inputDatalen 0) bs with
        | error e =>
          rw [hresult] at hsuccess
          cases hsuccess
        | ok buffer => exact ((hok buffer).mp hresult).1
      · intro htaken
        rw [(hok _).mpr ⟨htaken, rfl⟩]
        rfl
    rw [hisOk]
    unfold BindsPlainly
    constructor
    · rintro ⟨hboth, hlaw⟩
      constructor
      · intro htaken b hb
        exact (hheld htaken b hb).mp (hlaw _ ((hok _).mpr ⟨htaken, rfl⟩) b hb)
      · intro hrepresentable b hb
        exact (taken_of_representable (hrepresentable b hb)).mp
          (hboth.mpr hrepresentable b hb)
    · rintro ⟨hkept, hboolean⟩
      refine ⟨⟨fun htaken b hb => ?_, fun hrepresentable b hb => ?_⟩, ?_⟩
      · exact representable_of_kept (htaken b hb) (hkept htaken b hb)
      · exact (taken_of_representable (hrepresentable b hb)).mpr
          (hboolean hrepresentable b hb)
      · intro buffer hresult b hb
        obtain ⟨htaken, rfl⟩ := (hok buffer).mp hresult
        exact (hheld htaken b hb).mpr (hkept htaken b hb)
  · have hrefused : bindPreparedParameters reader plan values nulls =
        .error "Trafodion Lite prepared parameter count mismatch" := by
      unfold bindPreparedParameters
      rw [if_pos]
      tauto
    rw [hrefused]
    simp only [reduceCtorEq, false_implies, implies_true, and_true]
    constructor
    · intro _ hvalues hnulls
      exact absurd ⟨hvalues, hnulls⟩ hcount
    · intro _
      constructor
      · intro h
        cases h
      · rintro ⟨hvalues, hnulls, -⟩
        exact absurd ⟨hvalues, hnulls⟩ hcount

/-- A plan with one parameter of eight bits, behind its indicator. -/
def tinyPlan : TrafodionLitePreparedPlan where
  parameters := [⟨.integer false .bits8, 1, 0, 2, by decide⟩]
  inputDatalen := 3
  inputBuf := some [0, 0, 0]
  allocated := by decide
  inside := by decide
  apart := by decide

/-- The text 300 is taken for eight bits with a sign, and the buffer then holds 44. -/
theorem number_out_of_range_is_cut :
    bindPreparedParameters zeroReader tinyPlan [textBytes "300"] [false] = .ok [0, 0, 44] ∧
    ¬ BindingLaw zeroReader tinyPlan [textBytes "300"] [false] := by
  have hbound : bindPreparedParameters zeroReader tinyPlan [textBytes "300"] [false] =
      .ok [0, 0, 44] := by decide +kernel
  refine ⟨hbound, fun hlaw => ?_⟩
  obtain ⟨-, -, hrepresentable⟩ := hlaw.1.mp (by rw [hbound]; rfl)
  have hparameter := hrepresentable _ mem_cons_self
  revert hparameter
  unfold BoundParameter.Representable
  decide +kernel

end litestore
