-- The sequence generators. A sequence is one record of the catalog that holds the
-- next value, and an allocation gives an interval of values and moves the next
-- value behind it. All numbers are 64-bit numbers that wrap around.
import LiteStore.CatalogKeys
import LiteStore.Lib.Checked
import LiteStore.Lib.Progression

namespace litestore

open checked progression List Counter

/-! ## The record of a sequence -/

/-- A sequence. Its name stands in the key of its record and not in the record. -/
structure LiteSequenceDef where
  objectUid : UInt64
  fsDataType : Int32
  startValue : Int64
  increment : Int64
  minValue : Int64
  maxValue : Int64
  nextValue : Int64
  cycle : Bool
  cache : Int64
  numCalls : UInt64
  internal : Bool
deriving DecidableEq

def sequenceFields (s : LiteSequenceDef) : List UInt64 :=
  [s.objectUid, s.fsDataType.toInt64.toUInt64, s.startValue.toUInt64, s.increment.toUInt64,
    s.minValue.toUInt64, s.maxValue.toUInt64, s.nextValue.toUInt64, if s.cycle then 1 else 0,
    s.cache.toUInt64, s.numCalls, if s.internal then 1 else 0]

def encodeSequence (s : LiteSequenceDef) : Bytes :=
  textBytes "LTS1" ++ (sequenceFields s).flatMap uint64Bytes

/-- The number of index `i` behind the four letters. -/
def sequenceField (value : Bytes) (i : Nat) : UInt64 := readUint64 (value.drop (4 + 8 * i))

def decodeSequence (value : Bytes) : Except String LiteSequenceDef :=
  if value.length ≠ 4 + 11 * 8 ∨ value.take 4 ≠ textBytes "LTS1" then
    .error "invalid lite sequence metadata"
  else
    .ok {
      objectUid := sequenceField value 0
      fsDataType := (sequenceField value 1).toInt64.toInt32
      startValue := (sequenceField value 2).toInt64
      increment := (sequenceField value 3).toInt64
      minValue := (sequenceField value 4).toInt64
      maxValue := (sequenceField value 5).toInt64
      nextValue := (sequenceField value 6).toInt64
      cycle := sequenceField value 7 ≠ 0
      cache := (sequenceField value 8).toInt64
      numCalls := sequenceField value 9
      internal := sequenceField value 10 ≠ 0 }

theorem flatMap_uint64Bytes_drop (fields : List UInt64) (i : Nat) :
    (fields.flatMap uint64Bytes).drop (8 * i) = (fields.drop i).flatMap uint64Bytes := by
  induction fields generalizing i with
  | nil => simp
  | cons v fields ih =>
    cases i with
    | zero => rfl
    | succ i =>
      have hlen : 8 * (i + 1) = (uint64Bytes v).length + 8 * i := by
        rw [uint64Bytes_length]
        ring
      rw [flatMap_cons, hlen, drop_length_add_append, ih, drop_succ_cons]

variable {s : LiteSequenceDef}

/-- The number of index `i` is the field of index `i`. -/
theorem sequenceField_encode (s : LiteSequenceDef) (i : Nat) :
    sequenceField (encodeSequence s) i = (sequenceFields s).getD i 0 := by
  have hhead : (textBytes "LTS1").length = 4 := rfl
  unfold sequenceField encodeSequence
  rw [← hhead, drop_length_add_append, flatMap_uint64Bytes_drop, getD_eq_getElem?_getD,
    ← head?_drop]
  cases (sequenceFields s).drop i with
  | nil => rfl
  | cons v rest => rw [flatMap_cons, readUint64_uint64Bytes_append, head?_cons, Option.getD_some]

section

variable (o : ObjectName) (s : LiteSequenceDef) (next requestedCount : Int64) (catalog : Catalog)

theorem decodeSequence_encode : decodeSequence (encodeSequence s) = .ok s := by
  have hlen : (encodeSequence s).length = 4 + 11 * 8 := rfl
  have htake : (encodeSequence s).take 4 = textBytes "LTS1" := rfl
  have hbool : ∀ b : Bool, decide ((if b then (1 : UInt64) else 0) ≠ 0) = b := by decide
  unfold decodeSequence
  rw [if_neg (by simp [hlen, htake])]
  simp only [sequenceField_encode, sequenceFields, getD_cons_zero, getD_cons_succ, hbool]
  simp

/-! ## Creation and allocation -/

def loadSequence (o : ObjectName) : Except String (Option LiteSequenceDef) :=
  match catalog[sequenceKey o]? with
  | none => .ok none
  | some value => (decodeSequence value).map some

/-- The target of a synonym. A part that is empty fails with no text. -/
def resolveSynonym (o : ObjectName) : Except String (Option ObjectName) :=
  match catalog[synonymKey o]? with
  | none => .ok none
  | some encoded =>
    match pieces.cut 10 encoded with
    | none => .error "invalid lite synonym metadata"
    | some (targetCatalog, rest) =>
      match pieces.cut 10 rest with
      | none => .error "invalid lite synonym metadata"
      | some (targetSchema, targetName) =>
        if targetCatalog = [] ∨ targetSchema = [] ∨ targetName = [] then .error ""
        else .ok (some ⟨targetCatalog, targetSchema, targetName⟩)

def createSequence : Except String Catalog := do
  let existing ← loadSequence catalog o
  let synonym ← resolveSynonym catalog o
  guardOk (¬ (existing.isSome ∨ tableExists catalog o ∨ synonym.isSome ∨
    catalog.contains (indexKey o))) ("lite object already exists: " ++ dotted o)
  return (catalog.insert (sequenceKey o) (encodeSequence s)).insert (uidKey s.objectUid)
    (sequenceKey o)

/-- The value an allocation begins with: the next value, or the lowest when the values of a
cycle are used up. -/
def LiteSequenceDef.begin : Except String Int64 :=
  if s.maxValue < s.nextValue then
    if s.cycle then .ok s.minValue else .error "lite sequence has reached MAXVALUE"
  else .ok s.nextValue

/-- How many values there are from `next` on. -/
def LiteSequenceDef.available : UInt64 :=
  ((s.maxValue - next) / s.increment).toUInt64 + 1

def LiteSequenceDef.count : UInt64 :=
  if requestedCount.toUInt64 < s.available next then requestedCount.toUInt64
  else s.available next

def LiteSequenceDef.endValue : Int64 :=
  next + (s.count next requestedCount - 1).toInt64 * s.increment

/-- The values of an allocation and the sequence it leaves. -/
def LiteSequenceDef.allocate : Except String ((Int64 × Int64) × LiteSequenceDef) := do
  guardOk (¬ (s.increment ≤ 0 ∨ requestedCount ≤ 0)) "invalid lite sequence allocation"
  let next ← s.begin
  let endValue := s.endValue next requestedCount
  return ((next, endValue),
    { s with nextValue := endValue + s.increment, numCalls := s.numCalls + 1 })

/-- The key of a sequence is `sequence|catalog|schema|name`. -/
def checkSequenceKey (key : Bytes) : Except String Unit :=
  if key.take 9 ≠ textBytes "sequence|" then
    .error "lite sequence UID resolves to another object"
  else if ((pieces.cut bar (key.drop 9)).bind fun p => pieces.cut bar p.2).isNone then
    .error "invalid lite sequence catalog key"
  else .ok ()

/-- The record that a key was found for. -/
def required (record : Option Bytes) (error : String) : Except String Bytes :=
  match record with
  | none => .error error
  | some value => .ok value

def allocateSequence (objectUid : UInt64) (requestedCount : Int64) (catalog : Catalog) :
    Except String ((Int64 × Int64) × Catalog) := do
  let key ← required catalog[uidKey objectUid]? "lite sequence does not exist"
  checkSequenceKey key
  let value ← required catalog[key]? "lite sequence metadata is missing"
  let sequence ← decodeSequence value
  let allocated ← sequence.allocate requestedCount
  return (allocated.1, catalog.insert key (encodeSequence allocated.2))

/-- The answers to a row of calls. A call that fails leaves the catalog as it is. -/
def allocations (objectUid : UInt64) : Catalog → List Int64 → List (Except String (Int64 × Int64))
  | _, [] => []
  | catalog, count :: counts =>
    match allocateSequence objectUid count catalog with
    | .error e => .error e :: allocations objectUid catalog counts
    | .ok (interval, catalog') => .ok interval :: allocations objectUid catalog' counts

/-! ## The record along the calls -/

/-- The catalog holds a sequence under its name and its number. -/
structure HoldsSequence (catalog : Catalog) (o : ObjectName) (uid : UInt64)
    (s : LiteSequenceDef) : Prop where
  uid : catalog[uidKey uid]? = some (sequenceKey o)
  record : catalog[sequenceKey o]? = some (encodeSequence s)

theorem sequenceKey_ne_uidKey (uid : UInt64) : sequenceKey o ≠ uidKey uid := by
  intro h
  exact absurd (congrArg head? h) (by simp [sequenceKey, objectKey, uidKey, textBytes])

theorem checkSequenceKey_sequenceKey : checkSequenceKey (sequenceKey o) = .ok () := by
  have htake : (sequenceKey o).take 9 = textBytes "sequence|" := rfl
  have hdrop : (sequenceKey o).drop 9 = o.catalog ++ bar :: (o.schema ++ bar :: o.name) := rfl
  obtain ⟨p, m, hcut⟩ := pieces.cut_join bar o.catalog (o.schema ++ bar :: o.name)
  obtain ⟨q, n, hcut'⟩ := pieces.cut_join bar (m ++ o.schema) o.name
  rw [append_assoc] at hcut'
  unfold checkSequenceKey
  rw [hdrop, hcut, Option.bind_some, hcut', if_neg (by simp [htake])]
  rfl

end

variable {o : ObjectName} {catalog : Catalog} {uid : UInt64} {start : Int}

theorem createSequence_holds {catalog' : Catalog} (h : createSequence o s catalog = .ok catalog') :
    HoldsSequence catalog' o s.objectUid s := by
  unfold createSequence at h
  obtain ⟨existing, -, h⟩ := bind_eq_ok.mp h
  obtain ⟨synonym, -, h⟩ := bind_eq_ok.mp h
  obtain ⟨-, -, h⟩ := bind_eq_ok.mp h
  obtain rfl := Except.ok.inj h
  have hne := (sequenceKey_ne_uidKey o s.objectUid).symm
  constructor
  · simp
  · rw [Std.ExtTreeMap.getElem?_insert, if_neg (by simpa using hne)]
    simp

section

variable (h : HoldsSequence catalog o uid s)

include h

/-- An allocation on the catalog is one on the sequence that it holds. -/
theorem allocateSequence_eq (count : Int64) :
    allocateSequence uid count catalog = (s.allocate count).map fun r =>
      (r.1, catalog.insert (sequenceKey o) (encodeSequence r.2)) := by
  unfold allocateSequence
  rw [h.uid]
  simp only [required, ok_bind, checkSequenceKey_sequenceKey, h.record, decodeSequence_encode]
  cases s.allocate count with
  | error e => rfl
  | ok r => rfl

theorem HoldsSequence.update (s' : LiteSequenceDef) :
    HoldsSequence (catalog.insert (sequenceKey o) (encodeSequence s')) o uid s' := by
  have hne := sequenceKey_ne_uidKey o uid
  constructor
  · simp [Std.ExtTreeMap.getElem?_insert, hne, h.uid]
  · simp

/-- The answers to a row of calls, from the sequence alone. -/
def LiteSequenceDef.answers : LiteSequenceDef → List Int64 → List (Except String (Int64 × Int64))
  | _, [] => []
  | s, count :: counts =>
    match s.allocate count with
    | .error e => .error e :: s.answers counts
    | .ok (interval, s') => .ok interval :: s'.answers counts

theorem allocations_eq (counts : List Int64) :
    allocations uid catalog counts = s.answers counts := by
  induction counts generalizing catalog s with
  | nil => rfl
  | cons count counts ih =>
    unfold allocations LiteSequenceDef.answers
    rw [allocateSequence_eq h]
    cases s.allocate count with
    | error e => exact congrArg _ (ih h)
    | ok r => exact congrArg _ (ih (h.update r.2))

end

/-! ## Numbers that do not wrap around -/

theorem toInt_of_range {x y : Int} (h : x = y.bmod (2 ^ 64)) (hlo : -2 ^ 63 ≤ y)
    (hhi : y < 2 ^ 63) : x = y := by
  rw [h]
  apply Int.bmod_eq_of_le
  · norm_num at hlo ⊢
    exact hlo
  · norm_num at hhi ⊢
    exact hhi

theorem toNat_toUInt64 {x : Int64} (h : 0 ≤ x.toInt) : (x.toUInt64.toNat : Int) = x.toInt := by
  have hle : 0 ≤ x := Int64.le_iff_toInt_le.mpr h
  rw [Int64.toNat_toUInt64_of_le hle, Int64.toNatClampNeg, Int.toNat_of_nonneg h]

theorem toInt_toInt64 {x : UInt64} (h : x.toNat < 2 ^ 63) : x.toInt64.toInt = x.toNat := by
  show x.toBitVec.toInt = x.toNat
  exact BitVec.toInt_eq_toNat_of_lt (by simpa using by omega)

/-! ## Sequences and counters -/

/-- What a sequence is created with. -/
structure LiteSequenceDef.WellFormed (s : LiteSequenceDef) : Prop where
  increment_pos : 0 < s.increment
  min_le_next : s.minValue ≤ s.nextValue
  next_le_max : s.nextValue ≤ s.maxValue

/-- The values from `start` on, and the value that is due behind the last of them, are at a
distance that 64 bits hold. -/
def LiteSequenceDef.Fits (s : LiteSequenceDef) (start : Int64) : Prop :=
  s.maxValue.toInt - start.toInt < 2 ^ 63 ∧
    start.toInt + ((s.maxValue.toInt - start.toInt) / s.increment.toInt + 1) * s.increment.toInt
      < 2 ^ 63

/-- The sequence counts as a counter does, and has room for all that the counter can give. -/
structure Counts (s : LiteSequenceDef) (c : Counter) : Prop where
  step : s.increment.toInt = c.step
  lo : s.minValue.toInt = c.lo
  hi : s.maxValue.toInt = c.hi
  cycles : s.cycle = c.cycles
  room : ∀ start, c.first s.nextValue.toInt = some start →
    c.hi - start < 2 ^ 63 ∧ c.limit start < 2 ^ 63
  cycleRoom : c.cycles = true → c.hi - c.lo < 2 ^ 63 ∧ c.limit c.lo < 2 ^ 63

/-- What the caller of an allocation learns: the first value and how many there are. -/
def outcome (increment : Int64) : Except String (Int64 × Int64) → Option (Int × Nat)
  | .error _ => none
  | .ok (next, last) =>
    some (next.toInt, ((last.toInt - next.toInt) / increment.toInt + 1).toNat)

variable {c : Counter}

theorem begin_none (h : Counts s c) (hfirst : c.first s.nextValue.toInt = none) :
    s.begin = .error "lite sequence has reached MAXVALUE" := by
  unfold first at hfirst
  unfold LiteSequenceDef.begin
  simp only [Int64.lt_iff_toInt_lt, h.hi, h.cycles]
  split at hfirst
  · cases hfirst
  · split at hfirst
    · cases hfirst
    · rw [if_pos (by omega), if_neg (by assumption)]

theorem begin_some (h : Counts s c) (hfirst : c.first s.nextValue.toInt = some start) :
    ∃ next, s.begin = .ok next ∧ next.toInt = start := by
  unfold first at hfirst
  unfold LiteSequenceDef.begin
  simp only [Int64.lt_iff_toInt_lt, h.hi, h.cycles]
  split at hfirst
  · obtain rfl := Option.some.inj hfirst
    exact ⟨s.nextValue, if_neg (by omega), rfl⟩
  · split at hfirst
    · obtain rfl := Option.some.inj hfirst
      refine ⟨s.minValue, ?_, h.lo⟩
      rw [if_pos (by omega), if_pos (by assumption)]
    · cases hfirst

variable {count : Int64}

/-- The count of an allocation is the number that the counter grants. -/
theorem count_toNat (h : Counts s c) {next : Int64} (hcount : 0 < count) (hle : next.toInt ≤ c.hi)
    (hroom : c.hi - next.toInt < 2 ^ 63) :
    (s.count next count).toNat = c.granted next.toInt count.toInt.toNat := by
  have hpos := c.step_pos
  have hcount' : 0 < count.toInt := Int64.lt_iff_toInt_lt.mp hcount
  have hsub : (s.maxValue - next).toInt = c.hi - next.toInt := by
    refine toInt_of_range ?_ (by omega) hroom
    rw [Int64.toInt_sub, h.hi]
  have hne : s.increment ≠ -1 := by
    intro hneg
    have hstep := h.step
    rw [hneg] at hstep
    have : ((-1 : Int64)).toInt = -1 := by decide
    omega
  have hdiv : ((s.maxValue - next) / s.increment).toInt = (c.hi - next.toInt) / c.step := by
    rw [Int64.toInt_div_of_ne_right _ _ hne, hsub, h.step,
      Int.tdiv_eq_ediv_of_nonneg (by omega)]
  have hnonneg : 0 ≤ (c.hi - next.toInt) / c.step := Int.ediv_nonneg (by omega) hpos.le
  have hquot : (c.hi - next.toInt) / c.step ≤ c.hi - next.toInt := Int.ediv_le_self _ (by omega)
  have havail : (s.available next).toNat = ((c.hi - next.toInt) / c.step).toNat + 1 := by
    unfold LiteSequenceDef.available
    have hnat := toNat_toUInt64 (hdiv ▸ hnonneg)
    rw [hdiv] at hnat
    rw [UInt64.toNat_add, UInt64.toNat_one, Nat.mod_eq_of_lt (by omega)]
    omega
  have hreq : count.toUInt64.toNat = count.toInt.toNat := by
    have hnat := toNat_toUInt64 hcount'.le
    omega
  unfold LiteSequenceDef.count granted
  simp only [UInt64.lt_iff_toNat_lt, havail, hreq]
  split <;> rename_i hlt <;> simp only [havail, hreq] <;> omega

theorem Counts.next (h : Counts s c) {count : Nat} {next : Int64}
    (hfirst : c.first s.nextValue.toInt = some start)
    (hnext : next.toInt = start + c.granted start count * c.step) (calls : UInt64) :
    Counts { s with nextValue := next, numCalls := calls } c := by
  refine ⟨h.step, h.lo, h.hi, h.cycles, ?_, h.cycleRoom⟩
  intro start' hfirst'
  obtain ⟨hdist, hlimit⟩ := h.room start hfirst
  show c.hi - start' < 2 ^ 63 ∧ c.limit start' < 2 ^ 63
  have hfirst'' : c.first next.toInt = some start' := hfirst'
  unfold first at hfirst''
  split at hfirst''
  · obtain rfl := Option.some.inj hfirst''
    have hge : 0 ≤ (c.granted start count : Int) * c.step :=
      mul_nonneg (Int.natCast_nonneg _) c.step_pos.le
    rw [hnext, limit_add]
    exact ⟨by omega, hlimit⟩
  · split at hfirst''
    · rename_i hcycles
      obtain rfl := Option.some.inj hfirst''
      exact h.cycleRoom hcycles
    · cases hfirst''

section

variable (h : Counts s c) (hcount : 0 < count)

include h hcount

/-- The last value of an allocation and the value behind it. -/
theorem endValue_toInt {next : Int64} (hle : next.toInt ≤ c.hi)
    (hroom : c.hi - next.toInt < 2 ^ 63) (hlimit : c.limit next.toInt < 2 ^ 63) :
    ∃ k : Nat, c.granted next.toInt count.toInt.toNat = k + 1 ∧
      (s.endValue next count).toInt = next.toInt + k * c.step ∧
      (s.endValue next count + s.increment).toInt = next.toInt + (k + 1 : Nat) * c.step := by
  have hnat := count_toNat h hcount hle hroom
  have hpos : 0 < c.granted next.toInt count.toInt.toNat :=
    granted_pos (Int.pos_iff_toNat_pos.mp (Int64.lt_iff_toInt_lt.mp hcount))
  have hbehind := granted_le_limit hle count.toInt.toNat
  obtain ⟨k, hk⟩ := Nat.exists_eq_succ_of_ne_zero hpos.ne'
  rw [hk, Nat.succ_eq_add_one] at hnat hbehind
  have hstep := c.step_pos
  have hlo := next.le_toInt
  have hprod : 0 ≤ (k : Int) * c.step := mul_nonneg (Int.natCast_nonneg _) hstep.le
  have hsucc : ((k + 1 : Nat) : Int) * c.step = k * c.step + c.step := by
    push_cast
    ring
  have hsmall : (k : Int) ≤ k * c.step := le_mul_of_one_le_right (Int.natCast_nonneg _) hstep
  have hkroom : (k : Int) * c.step ≤ c.hi - next.toInt := by
    have hlast : next.toInt + k * c.step ≤ c.hi := granted_le hle (hk ▸ Nat.lt_succ_self k)
    omega
  have hminus : (s.count next count - 1).toInt64.toInt = k := by
    have hone : (s.count next count - 1).toNat = k := by
      rw [UInt64.toNat_sub_of_le _ _ (by rw [UInt64.le_iff_toNat_le, hnat]; simp), hnat]
      simp
    rw [toInt_toInt64 (by omega), hone]
  have hmul : ((s.count next count - 1).toInt64 * s.increment).toInt = k * c.step := by
    refine toInt_of_range ?_ (by omega) (by omega)
    rw [Int64.toInt_mul, hminus, h.step]
  have hend : (s.endValue next count).toInt = next.toInt + k * c.step := by
    refine toInt_of_range ?_ (by omega) (by omega)
    rw [LiteSequenceDef.endValue, Int64.toInt_add, hmul]
  refine ⟨k, hk, hend, ?_⟩
  refine toInt_of_range ?_ (by omega) (by omega)
  rw [Int64.toInt_add, hend, h.step]
  congr 1
  push_cast
  ring

theorem allocate_guard : ¬ (s.increment ≤ 0 ∨ count ≤ 0) := by
  have hstep := h.step ▸ c.step_pos
  rw [Int64.lt_iff_toInt_lt] at hcount
  rw [Int64.le_iff_toInt_le, Int64.le_iff_toInt_le]
  simp only [Int64.toInt_zero] at hcount ⊢
  omega

theorem allocate_none (hfirst : c.first s.nextValue.toInt = none) :
    s.allocate count = .error "lite sequence has reached MAXVALUE" := by
  unfold LiteSequenceDef.allocate
  rw [guardOk, if_pos (allocate_guard h hcount), begin_none h hfirst]
  rfl

/-- An allocation gives what the counter grants, and the sequence goes on as the counter does. -/
theorem allocate_some (hfirst : c.first s.nextValue.toInt = some start) :
    ∃ next last nextValue, s.allocate count = .ok ((next, last),
        { s with nextValue := nextValue, numCalls := s.numCalls + 1 }) ∧
      next.toInt = start ∧
      (∃ k : Nat, c.granted start count.toInt.toNat = k + 1 ∧ last.toInt = start + k * c.step) ∧
      nextValue.toInt = start + c.granted start count.toInt.toNat * c.step := by
  obtain ⟨next, hbegin, rfl⟩ := begin_some h hfirst
  obtain ⟨hdist, hlimit⟩ := h.room _ hfirst
  obtain ⟨k, hk, hlast, hnext⟩ := endValue_toInt h hcount (first_le_hi hfirst) hdist hlimit
  refine ⟨next, s.endValue next count, s.endValue next count + s.increment, ?_, rfl,
    ⟨k, hk, hlast⟩, ?_⟩
  · unfold LiteSequenceDef.allocate
    rw [guardOk, if_pos (allocate_guard h hcount), hbegin]
    rfl
  · rw [hk, hnext]

end

/-! ## Runs of allocations -/

/-- The answers to a row of calls are the draws of the counter. -/
theorem answers_eq (h : Counts s c) {counts : List Int64} (hcounts : ∀ n ∈ counts, 0 < n) :
    (s.answers counts).map (outcome s.increment) =
      c.draw s.nextValue.toInt (counts.map fun n => n.toInt.toNat) := by
  induction counts generalizing s with
  | nil => rfl
  | cons count counts ih =>
    rw [forall_mem_cons] at hcounts
    rw [map_cons]
    unfold LiteSequenceDef.answers draw
    cases hfirst : c.first s.nextValue.toInt with
    | none =>
      rw [allocate_none h hcounts.1 hfirst]
      exact congrArg _ (ih h hcounts.2)
    | some start =>
      obtain ⟨next, last, nextValue, heq, hstart, ⟨k, hk, hlast⟩, hnext⟩ :=
        allocate_some h hcounts.1 hfirst
      have hrest := ih (h.next hfirst hnext (s.numCalls + 1)) hcounts.2
      have hcount : outcome s.increment (.ok (next, last)) =
          some (start, c.granted start count.toInt.toNat) := by
        have hdiff : last.toInt - next.toInt = k * c.step := by omega
        rw [outcome, hdiff, h.step, Int.mul_ediv_cancel _ c.step_pos.ne', hstart, hk]
        congr 2
      rw [heq]
      simp only [map_cons, hcount]
      rw [← hnext]
      exact congrArg _ hrest

/-- Each answer is an interval of whole steps, or the error of a sequence that is used up. -/
theorem mem_answers (h : Counts s c) {counts : List Int64} (hcounts : ∀ n ∈ counts, 0 < n) :
    ∀ r ∈ s.answers counts, r = .error "lite sequence has reached MAXVALUE" ∨
      ∃ next last, r = .ok (next, last) ∧ ∃ k : Nat, last.toInt = next.toInt + k * c.step := by
  induction counts generalizing s with
  | nil => simp [LiteSequenceDef.answers]
  | cons count counts ih =>
    rw [forall_mem_cons] at hcounts
    unfold LiteSequenceDef.answers
    cases hfirst : c.first s.nextValue.toInt with
    | none =>
      rw [allocate_none h hcounts.1 hfirst]
      rw [forall_mem_cons]
      exact ⟨.inl rfl, ih h hcounts.2⟩
    | some start =>
      obtain ⟨next, last, nextValue, heq, rfl, ⟨k, -, hlast⟩, hnext⟩ :=
        allocate_some h hcounts.1 hfirst
      rw [heq]
      rw [forall_mem_cons]
      exact ⟨.inr ⟨next, last, rfl, k, hlast⟩, ih (h.next hfirst hnext _) hcounts.2⟩

/-- The values of an answer: `next`, `next + increment` and so on up to the last one. -/
def intervalValues (increment : Int64) (r : Except String (Int64 × Int64)) : List Int :=
  (outcome increment r).elim [] fun p => values increment.toInt p.1 p.2

/-- All values of a row of answers, in order. -/
def issuedValues (s : LiteSequenceDef) (answers : List (Except String (Int64 × Int64))) :
    List Int :=
  answers.flatMap (intervalValues s.increment)

/-- The value that is due after some answers. -/
def dueValue (s : LiteSequenceDef) (answers : List (Except String (Int64 × Int64))) : Int :=
  (issuedValues s answers).getLast?.elim s.nextValue.toInt fun v => v + s.increment.toInt

/-- What the values of a sequence keep to: they are in range, none is left out, none comes twice
without a new start, and an allocation fails when there is no next value. -/
structure SequenceLaws (s : LiteSequenceDef)
    (answers : List (Except String (Int64 × Int64))) : Prop where
  intervals : ∀ next last, .ok (next, last) ∈ answers → s.minValue ≤ next ∧ next ≤ last ∧
    last ≤ s.maxValue ∧ s.increment.toInt ∣ last.toInt - next.toInt
  inRange : ∀ v ∈ issuedValues s answers, s.minValue.toInt ≤ v ∧ v ≤ s.maxValue.toInt
  distinct : s.cycle = false → (issuedValues s answers).Nodup
  exhausted : ∀ before r after, answers = before ++ r :: after →
    ((∃ e, r = .error e) ↔ s.cycle = false ∧ s.maxValue.toInt < dueValue s before)
  error : ∀ e, .error e ∈ answers → e = "lite sequence has reached MAXVALUE"
  restarts : ∀ (i j : Nat) (v : Int), i < j → (issuedValues s answers)[i]? = some v →
    (issuedValues s answers)[j]? = some v →
    ∃ k, i < k ∧ k ≤ j ∧ (issuedValues s answers)[k]? = some s.minValue.toInt
  first : ∀ v ∈ (issuedValues s answers).head?, v = s.nextValue.toInt
  complete : (issuedValues s answers).IsChain fun v w =>
    w = v + s.increment.toInt ∨
      (s.cycle = true ∧ s.maxValue.toInt < v + s.increment.toInt ∧ w = s.minValue.toInt)

/-- The counter that a sequence is created as. -/
def LiteSequenceDef.counter (s : LiteSequenceDef) (h : s.WellFormed) : Counter where
  step := s.increment.toInt
  lo := s.minValue.toInt
  hi := s.maxValue.toInt
  cycles := s.cycle
  step_pos := Int64.lt_iff_toInt_lt.mp h.increment_pos
  lo_le := Int64.le_iff_toInt_le.mp (Int64.le_trans h.min_le_next h.next_le_max)

theorem counts_counter (h : s.WellFormed) (hfits : s.Fits s.nextValue)
    (hcycle : s.cycle = true → s.Fits s.minValue) : Counts s (s.counter h) := by
  refine ⟨rfl, rfl, rfl, rfl, ?_, hcycle⟩
  intro start hfirst
  have hle : s.nextValue.toInt ≤ (s.counter h).hi := Int64.le_iff_toInt_le.mp h.next_le_max
  rw [first, if_pos hle] at hfirst
  obtain rfl := Option.some.inj hfirst
  exact hfits

theorem issuedValues_eq (h : s.WellFormed) (answers : List (Except String (Int64 × Int64))) :
    issuedValues s answers = (s.counter h).drawn (answers.map (outcome s.increment)) := by
  unfold issuedValues drawn
  rw [flatMap_map]
  rfl

theorem dueValue_eq (h : s.WellFormed) (answers : List (Except String (Int64 × Int64))) :
    dueValue s answers = (s.counter h).due s.nextValue.toInt
      ((s.counter h).drawn (answers.map (outcome s.increment))) := by
  unfold dueValue due
  rw [issuedValues_eq h]
  rfl

theorem outcome_eq_none {increment : Int64} {r : Except String (Int64 × Int64)} :
    outcome increment r = none ↔ ∃ e, r = .error e := by
  cases r with
  | error e | ok p => simp [outcome]

theorem first_eq_none {next : Int} :
    c.first next = none ↔ c.cycles = false ∧ c.hi < next := by
  unfold first
  split
  · rename_i hle
    simp [hle]
  · rename_i hle
    cases hc : c.cycles with
    | false => simpa using hle
    | true => simp

/-- The first and the last value of an answer are among its values. -/
theorem mem_intervalValues {increment next last : Int64} {k : Nat} (hpos : 0 < increment.toInt)
    (h : last.toInt = next.toInt + k * increment.toInt) :
    next.toInt ∈ intervalValues increment (.ok (next, last)) ∧
      last.toInt ∈ intervalValues increment (.ok (next, last)) := by
  have hcount : ((last.toInt - next.toInt) / increment.toInt + 1).toNat = k + 1 := by
    rw [h, add_sub_cancel_left, Int.mul_ediv_cancel _ hpos.ne']
    rfl
  simp only [intervalValues, outcome, hcount, Option.elim_some, values, mem_map, mem_range]
  exact ⟨⟨0, by omega, by simp⟩, ⟨k, by omega, h.symm⟩⟩

/-- A sequence that was created with room for its values keeps to the laws, whatever is asked
of it. -/
theorem sequence_run_lawful (o : ObjectName) (s : LiteSequenceDef) (catalog catalog' : Catalog)
    (counts : List Int64) (hcreate : createSequence o s catalog = .ok catalog')
    (hwf : s.WellFormed) (hfits : s.Fits s.nextValue)
    (hcycle : s.cycle = true → s.Fits s.minValue) (hcounts : ∀ n ∈ counts, 0 < n) :
    SequenceLaws s (allocations s.objectUid catalog' counts) := by
  rw [allocations_eq (createSequence_holds hcreate)]
  have hc := counts_counter hwf hfits hcycle
  have hdraw := answers_eq hc hcounts
  have hissued := issuedValues_eq hwf (s.answers counts)
  have hcounts' : ∀ n ∈ counts.map fun n => n.toInt.toNat, 0 < n := by
    simp only [forall_mem_map]
    intro n hn
    exact Int.pos_iff_toNat_pos.mp (Int64.lt_iff_toInt_lt.mp (hcounts n hn))
  have hchain : List.IsChain (s.counter hwf).Follows
      ((s.nextValue.toInt - (s.counter hwf).step) :: issuedValues s (s.answers counts)) := by
    rw [hissued, hdraw]
    exact draw_chain hcounts'
  have htail := hchain.tail
  rw [tail_cons] at htail
  have hlow : (s.counter hwf).lo ≤ s.nextValue.toInt := Int64.le_iff_toInt_le.mp hwf.min_le_next
  have hhigh : s.nextValue.toInt ≤ (s.counter hwf).hi := Int64.le_iff_toInt_le.mp hwf.next_le_max
  have hrange := chain_inRange hchain (by omega)
  refine ⟨?_, hrange, fun hno => chain_nodup hno htail, ?_, ?_, ?_, ?_, ?_⟩
  · intro next last hmem
    rcases mem_answers hc hcounts _ hmem with herr | ⟨next', last', heq, k, hk⟩
    · cases herr
    · cases heq
      have hin := mem_intervalValues (s.counter hwf).step_pos hk
      have hnext := hrange _ (mem_flatMap.mpr ⟨_, hmem, hin.1⟩)
      have hlast := hrange _ (mem_flatMap.mpr ⟨_, hmem, hin.2⟩)
      have hnonneg : 0 ≤ (k : Int) * (s.counter hwf).step :=
        mul_nonneg (Int.natCast_nonneg _) (s.counter hwf).step_pos.le
      simp only [Int64.le_iff_toInt_le]
      refine ⟨hnext.1, by omega, hlast.2, k, ?_⟩
      rw [hk, add_sub_cancel_left, mul_comm]
      rfl
  · intro before r after hsplit
    rw [hsplit, map_append, map_cons] at hdraw
    have hnone := draw_exhausted hcounts' hdraw.symm
    rw [← dueValue_eq hwf, first_eq_none, outcome_eq_none] at hnone
    exact hnone
  · intro e hmem
    rcases mem_answers hc hcounts _ hmem with herr | ⟨_, _, heq, -⟩
    · exact Except.error.inj herr
    · cases heq
  · intro i j v hij hi hj
    obtain ⟨k, u, hik, hkj, -, -, hk⟩ := chain_restarts htail hij hi hj
    exact ⟨k, hik, hkj, hk⟩
  · intro v hv
    cases hvs : issuedValues s (s.answers counts) with
    | nil => simp [hvs] at hv
    | cons w ws =>
      rw [hvs] at hchain hv
      obtain rfl : w = v := by simpa using hv
      rcases (isChain_cons_cons.mp hchain).1 with ⟨heq, -⟩ | ⟨-, hbehind, -⟩
      · omega
      · omega
  · refine htail.imp fun v w hvw => ?_
    rcases hvw with ⟨hnext, -⟩ | hrestart
    · exact .inl hnext
    · exact .inr hrestart

/-- The default sequence of the catalog. -/
def plainSequence : LiteSequenceDef where
  objectUid := 7
  fsDataType := 0
  startValue := 1
  increment := 1
  minValue := 1
  maxValue := 9223372036854775806
  nextValue := 1
  cycle := false
  cache := 25
  numCalls := 0
  internal := false

def plainName : ObjectName := ⟨textBytes "TRAFODION", textBytes "S", textBytes "Q"⟩

/-- The catalog that holds one sequence. -/
def sequenceCatalog (s : LiteSequenceDef) : Catalog :=
  ((∅ : Catalog).insert (sequenceKey plainName) (encodeSequence s)).insert (uidKey s.objectUid)
    (sequenceKey plainName)

/-- The default bounds leave room for every value. -/
theorem default_sequence_lawful :
    SequenceLaws plainSequence
      (allocations 7 (sequenceCatalog plainSequence) [25, 25]) := by
  have hfits : plainSequence.Fits plainSequence.nextValue := by
    unfold LiteSequenceDef.Fits
    decide
  have hcounts : ∀ n ∈ ([25, 25] : List Int64), 0 < n := by simp
  exact sequence_run_lawful plainName plainSequence ∅ _ [25, 25] rfl
    ⟨by decide, by decide, by decide⟩ hfits (fun hcycle => Bool.noConfusion hcycle) hcounts

/-- A sequence that ends at the largest 64-bit number, with one value left. -/
def largestSequence : LiteSequenceDef :=
  { plainSequence with maxValue := 9223372036854775807, nextValue := 9223372036854775807 }

/-- Behind the largest 64-bit number the sequence goes on with the smallest one. -/
theorem largest_value_wraps :
    createSequence plainName largestSequence ∅ = .ok (sequenceCatalog largestSequence) ∧
      largestSequence.WellFormed ∧
      ¬ SequenceLaws largestSequence
        (allocations 7 (sequenceCatalog largestSequence) [1, 1]) := by
  refine ⟨rfl, ⟨by decide, by decide, by decide⟩, ?_⟩
  intro h
  have hanswers : allocations 7 (sequenceCatalog largestSequence) [1, 1] =
      [.ok (9223372036854775807, 9223372036854775807),
        .ok (-9223372036854775808, 9223372036854775807)] := by
    decide +kernel
  have hmem : .ok (-9223372036854775808, 9223372036854775807) ∈
      allocations 7 (sequenceCatalog largestSequence) [1, 1] := by
    rw [hanswers]
    simp
  exact absurd (h.intervals _ _ hmem).1 (by decide)

end litestore
