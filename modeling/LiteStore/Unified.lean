-- The logical databases of `LiteUnifiedRocksDB.cpp`. The catalog and every
-- table are a database of their own for the code above; below, all of them
-- live in one RocksDB under a prefix made from the path, with keys in hex.
import LiteStore.Records
import LiteStore.Lib.Keyspace

namespace litestore

open checked batch orderedscan keyspace List

/-! ## Hex -/

/-- The table `0123456789abcdef`. -/
def hexChar (n : Nat) : UInt8 := UInt8.ofNat (if n < 10 then 48 + n else 87 + n)

section

variable (root path value : Bytes)

def hexEncode : Bytes :=
  value.flatMap fun c => [hexChar (c.toNat / 16), hexChar (c.toNat % 16)]

/-- Both cases of the letters are read. -/
def hexDigit (c : UInt8) : Option Nat :=
  if 48 ≤ c ∧ c ≤ 57 then some (c.toNat - 48)
  else if 97 ≤ c ∧ c ≤ 102 then some (c.toNat - 97 + 10)
  else if 65 ≤ c ∧ c ≤ 70 then some (c.toNat - 65 + 10)
  else none

def hexDecode : Bytes → Option Bytes
  | [] => some []
  | [_] => none
  | a :: b :: rest => do
    let high ← hexDigit a
    let low ← hexDigit b
    let tail ← hexDecode rest
    some (UInt8.ofNat (high * 16 + low) :: tail)

theorem hexDigit_hexChar {n : Nat} (h : n < 16) : hexDigit (hexChar n) = some n := by
  interval_cases n <;> rfl

theorem hexEncode_cons (c : UInt8) : hexEncode (c :: value) =
    hexChar (c.toNat / 16) :: hexChar (c.toNat % 16) :: hexEncode value := rfl

theorem hexDecode_hexEncode : hexDecode (hexEncode value) = some value := by
  induction value with
  | nil => rfl
  | cons c value ih =>
    have hlt : c.toNat < 256 := c.toNat_lt
    have hbyte : c.toNat / 16 * 16 + c.toNat % 16 = c.toNat := by omega
    rw [hexEncode_cons, hexDecode, hexDigit_hexChar (by omega), hexDigit_hexChar (by omega), ih]
    show some (UInt8.ofNat (c.toNat / 16 * 16 + c.toNat % 16) :: value) = some (c :: value)
    rw [hbyte, UInt8.ofNat_toNat]

theorem hexEncode_inj {a b : Bytes} (h : hexEncode a = hexEncode b) : a = b := by
  have hdec := hexDecode_hexEncode a
  rw [h, hexDecode_hexEncode] at hdec
  exact (Option.some.inj hdec).symm

theorem compare_hexChar {m n : Nat} (hm : m < 16) (hn : n < 16) :
    compare (hexChar m) (hexChar n) = compare m n := by
  interval_cases m <;> interval_cases n <;> rfl

/-- The order of two bytes is the order of their halves, the high one first. -/
theorem compare_halves (x y : Nat) :
    (compare (x / 16) (y / 16)).then (compare (x % 16) (y % 16)) = compare x y := by
  rcases Nat.lt_trichotomy (x / 16) (y / 16) with h | h | h
  · have hxy : x < y := by omega
    rw [Nat.compare_eq_lt.mpr h, Nat.compare_eq_lt.mpr hxy]
    rfl
  · rw [Nat.compare_eq_eq.mpr h]
    show compare (x % 16) (y % 16) = compare x y
    rcases Nat.lt_trichotomy (x % 16) (y % 16) with h' | h' | h'
    · rw [Nat.compare_eq_lt.mpr h', Nat.compare_eq_lt.mpr (by omega)]
    · rw [Nat.compare_eq_eq.mpr h', Nat.compare_eq_eq.mpr (by omega)]
    · rw [Nat.compare_eq_gt.mpr h', Nat.compare_eq_gt.mpr (by omega)]
  · have hyx : y < x := by omega
    rw [Nat.compare_eq_gt.mpr h, Nat.compare_eq_gt.mpr hyx]
    rfl

/-- Hex keeps the order of byte strings. -/
theorem compare_hexEncode (a b : Bytes) : compare (hexEncode a) (hexEncode b) = compare a b := by
  induction a generalizing b with
  | nil => cases b <;> rfl
  | cons x a ih =>
    cases b with
    | nil => rfl
    | cons y b =>
      have hx : x.toNat < 256 := x.toNat_lt
      have hy : y.toNat < 256 := y.toNat_lt
      rw [hexEncode_cons, hexEncode_cons, List.compare_cons_cons, List.compare_cons_cons, List.compare_cons_cons, ih,
        compare_hexChar (by omega) (by omega), compare_hexChar (by omega) (by omega),
        compare_byte, ← compare_halves x.toNat y.toNat, Ordering.then_assoc]

/-- A slash is no digit. -/
theorem slash_not_hex : (47 : UInt8) ∉ hexEncode value := by
  have hchar : ∀ n < 16, hexChar n ≠ 47 := by decide
  induction value with
  | nil => simp [hexEncode]
  | cons c value ih =>
    have hlt : c.toNat < 256 := c.toNat_lt
    rw [hexEncode_cons, mem_cons, mem_cons, not_or, not_or]
    exact ⟨(hchar _ (by omega)).symm, (hchar _ (by omega)).symm, ih⟩

/-! ## Paths -/

/-- `logicalPrefixForPath` of an open store: the catalog, or a table under `data/`. -/
def logicalPrefixForPath : Option Bytes :=
  if path = root ++ textBytes "/catalog" then some (textBytes "catalog/")
  else if (root ++ textBytes "/data/").isPrefixOf path then
    some (textBytes "table/" ++
      hexEncode (path.drop (root ++ textBytes "/data/").length) ++ textBytes "/")
  else none

/-- A handle that `LiteRocksDBOpen` gives out. -/
structure LogicalDb (root : Bytes) where
  path : Bytes
  keyPrefix : Bytes
  opened : logicalPrefixForPath root path = some keyPrefix
deriving DecidableEq

def unsupportedPath : String :=
  "unsupported Lite RocksDB path: " ++ String.ofList (path.map fun b => Char.ofNat b.toNat)

def liteRocksDBOpen : Except String (LogicalDb root) :=
  match h : logicalPrefixForPath root path with
  | none => .error (unsupportedPath path)
  | some keyPrefix => .ok ⟨path, keyPrefix, h⟩

theorem liteRocksDBOpen_cases : (liteRocksDBOpen root path = .error (unsupportedPath path) ∧
      logicalPrefixForPath root path = none) ∨
    ∃ db : LogicalDb root, liteRocksDBOpen root path = .ok db ∧ db.path = path := by
  unfold liteRocksDBOpen
  split
  · rename_i hnone
    exact .inl ⟨rfl, hnone⟩
  · exact .inr ⟨_, rfl, rfl⟩

def physicalKey {root : Bytes} (db : LogicalDb root) (key : Bytes) : Bytes :=
  db.keyPrefix ++ hexEncode key

def hasPrefix (keyPrefix : Bytes) : Bool := keyPrefix.isPrefixOf value

end

/-- The keys that the store keeps for itself: its format, its activation and the commits of
the physical log. -/
inductive MarkerFamily
  | m12 | m13 | m23
deriving DecidableEq

def MarkerFamily.text : MarkerFamily → Bytes
  | .m12 => textBytes "m12/"
  | .m13 => textBytes "m13/"
  | .m23 => textBytes "m23/"

def markerKey (family : MarkerFamily) (rest : Bytes) : Bytes := family.text ++ rest

section Prefixes

variable {root : Bytes}

/-- The prefix of a handle is the prefix of the catalog or that of a table. -/
theorem LogicalDb.prefix_cases (db : LogicalDb root) :
    (db.path = root ++ textBytes "/catalog" ∧ db.keyPrefix = textBytes "catalog/") ∨
    ∃ name, db.path = root ++ textBytes "/data/" ++ name ∧
      db.keyPrefix = textBytes "table/" ++ hexEncode name ++ textBytes "/" := by
  have h := db.opened
  unfold logicalPrefixForPath at h
  split at h
  · rename_i hpath
    exact .inl ⟨hpath, (Option.some.inj h).symm⟩
  · split at h
    · rename_i hdata
      obtain ⟨name, hname⟩ := isPrefixOf_iff_prefix.mp hdata
      refine .inr ⟨name, hname.symm, ?_⟩
      rw [← Option.some.inj h, ← hname, drop_left]
    · simp at h

theorem LogicalDb.ext_path {a b : LogicalDb root} (h : a.path = b.path) : a = b := by
  obtain ⟨path, keyPrefix, hopened⟩ := a
  obtain ⟨path', keyPrefix', hopened'⟩ := b
  cases h
  rw [hopened] at hopened'
  cases hopened'
  rfl

/-- No prefix of a handle begins the key of another handle. -/
theorem owns_other {a b : LogicalDb root} {key : Bytes}
    (h : hasPrefix (physicalKey b key) a.keyPrefix = true) : a = b := by
  apply LogicalDb.ext_path
  obtain ⟨rest, hrest⟩ := isPrefixOf_iff_prefix.mp h
  unfold physicalKey at hrest
  rcases a.prefix_cases with ⟨hpath, hpre⟩ | ⟨name, hpath, hpre⟩ <;>
    rcases b.prefix_cases with ⟨hpath', hpre'⟩ | ⟨name', hpath', hpre'⟩
  · rw [hpath, hpath']
  iterate 2
    · rw [hpre, hpre'] at hrest
      simp [textBytes] at hrest
  · -- both are tables: the names in hex end at the same slash
    rw [hpre, hpre'] at hrest
    have hslash : textBytes "/" = [47] := rfl
    rw [hslash] at hrest
    simp only [append_assoc, append_cancel_left_eq, cons_append, nil_append] at hrest
    have hname : hexEncode name = hexEncode name' := by
      have htake := congrArg (takeWhile (· ≠ 47)) hrest
      have hall : ∀ n : Bytes, ∀ r : Bytes,
          (hexEncode n ++ 47 :: r).takeWhile (· ≠ 47) = hexEncode n := by
        intro n r
        rw [takeWhile_append_of_pos]
        · simp
        · intro x hx
          have := slash_not_hex n
          simp only [ne_eq, decide_not, Bool.not_eq_true', decide_eq_false_iff_not]
          rintro rfl
          exact this hx
      rwa [hall, hall] at htake
    rw [hpath, hpath', hexEncode_inj hname]

/-- A marker is the key of no handle. -/
theorem marker_not_owned (db : LogicalDb root) (family : MarkerFamily) (rest : Bytes) :
    hasPrefix (markerKey family rest) db.keyPrefix = false := by
  rcases db.prefix_cases with ⟨-, hpre⟩ | ⟨name, -, hpre⟩ <;> rw [hpre] <;> cases family <;> rfl

theorem physicalKey_ne_marker (db : LogicalDb root) (key : Bytes) (family : MarkerFamily)
    (rest : Bytes) : physicalKey db key ≠ markerKey family rest := by
  intro h
  have hown : hasPrefix (physicalKey db key) db.keyPrefix = true :=
    isPrefixOf_iff_prefix.mpr (prefix_append _ _)
  rw [h, marker_not_owned] at hown
  cases hown

/-- The keys of the handles, as spaces in the one database. -/
def logicalSpaces (root : Bytes) :
    Keyspace (LogicalDb root) Bytes Bytes (compare : Bytes → Bytes → Ordering) compare where
  first db := db.keyPrefix
  key := physicalKey
  owns db key := hasPrefix key db.keyPrefix
  order db a b := by
    unfold physicalKey
    induction db.keyPrefix with
    | nil => exact compare_hexEncode a b
    | cons x p ih =>
      have hself : compare x x = .eq := Std.ReflOrd.compare_self
      rw [List.cons_append, List.cons_append, List.compare_cons_cons, hself]
      exact ih
  owns_own db key := List.isPrefixOf_iff_prefix.mpr (List.prefix_append _ _)
  owns_other _ _ _ h := owns_other h
  not_before db key := not_lt_of_extends (List.prefix_append _ _)
  convex db a b ha hab hb := by
    rw [hasPrefix, List.isPrefixOf_iff_prefix] at hb ⊢
    exact extends_between ha hab hb

end Prefixes

/-! ## The calls of the source -/

/-- An iterator keeps the records as they were when it was made. `rest` is what lies ahead,
with the current record first. -/
structure LogicalIterator where
  keyPrefix : Bytes
  view : List (Bytes × Bytes)
  rest : List (Bytes × Bytes) := []
  decodeError : Option String := none

section Calls

variable {root : Bytes} (db : LogicalDb root)

section

variable (base view : RecordMap) (key : Bytes)

def liteRocksDBGet : Option Bytes := view[physicalKey db key]?

def liteRocksDBMultiGet (keys : List Bytes) : List (Option Bytes) :=
  (keys.map (physicalKey db)).map fun storedKey => view[storedKey]?

def liteRocksDBPut (value : Bytes) : RecordMap :=
  base.insert (physicalKey db key) value

def liteRocksDBDelete : RecordMap :=
  base.erase (physicalKey db key)

/-- A batch of a handle, written as one batch of physical keys. -/
def liteRocksDBWrite (operations : List (Op Bytes Bytes)) : RecordMap :=
  apply base (operations.map (Op.mapKey (physicalKey db)))

def liteRocksDBCreateIterator : LogicalIterator :=
  { keyPrefix := db.keyPrefix, view := view.toList }

end

end Calls

section

variable (it : LogicalIterator)

/-- `rocksdb_iter_seek`. -/
def LogicalIterator.seekPhysical (storedKey : Bytes) : LogicalIterator :=
  { it with rest := it.view.dropWhile fun r => compare r.1 storedKey = .lt }

def LogicalIterator.valid : Bool :=
  match it.rest with
  | [] => false
  | r :: _ => hasPrefix r.1 it.keyPrefix

def LogicalIterator.seekToFirst : LogicalIterator :=
  it.seekPhysical it.keyPrefix

def LogicalIterator.seek (key : Bytes) : LogicalIterator :=
  it.seekPhysical (it.keyPrefix ++ hexEncode key)

def LogicalIterator.next : LogicalIterator :=
  { it with rest := it.rest.tail }

/-- `LiteRocksDBIteratorKey`: a key that cannot be decoded leaves an error behind. -/
def LogicalIterator.key (it : LogicalIterator) : Bytes × LogicalIterator :=
  let stored := (it.rest.head?.map Prod.fst).getD []
  let decoded := if hasPrefix stored it.keyPrefix
    then hexDecode (stored.drop it.keyPrefix.length) else none
  match decoded with
  | none => ([], { it with decodeError := some "invalid unified Lite logical key" })
  | some key => (key, it)

def LogicalIterator.value : Bytes := (it.rest.head?.map Prod.snd).getD []

/-- The record at an iterator, read as callers do: the key and the value when it is valid. -/
def LogicalIterator.current : Option (Bytes × Bytes) × LogicalIterator :=
  if it.valid then (some (it.key.1, it.value), it.key.2) else (none, it)

end

/-- `LiteRocksDBDestroy`: walk from the prefix while it holds, and delete what is found. -/
def liteRocksDBDestroy (root : Bytes) (base : RecordMap) (path : Bytes) :
    Except String RecordMap :=
  match logicalPrefixForPath root path with
  | none => .error (unsupportedPath path)
  | some keyPrefix =>
    let found := scanWhile compare Prod.fst keyPrefix (fun k => hasPrefix k keyPrefix) base.toList
    .ok (apply base (found.map fun r => Op.delete r.1))

/-! ## Sequences of calls -/

/-- A call on the logical databases. A read names a snapshot or none, and an iterator or a
snapshot is named by the number that its creation returned. `marker` is a write of the store
for itself. -/
inductive LogicalCall (root : Bytes)
  | get (db : LogicalDb root) (snapshot : Option Nat) (key : Bytes)
  | multiGet (db : LogicalDb root) (snapshot : Option Nat) (keys : List Bytes)
  | put (db : LogicalDb root) (key value : Bytes)
  | delete (db : LogicalDb root) (key : Bytes)
  | write (db : LogicalDb root) (operations : List (Op Bytes Bytes))
  | createSnapshot (db : LogicalDb root)
  | createIterator (db : LogicalDb root) (snapshot : Option Nat)
  | seekToFirst (iterator : Nat)
  | seek (iterator : Nat) (key : Bytes)
  | next (iterator : Nat)
  | current (iterator : Nat)
  | getError (iterator : Nat)
  | destroy (path : Bytes)
  | marker (family : MarkerFamily) (rest value : Bytes)

inductive LogicalReply
  | done
  | value (v : Option Bytes)
  | values (vs : List (Option Bytes))
  | number (n : Nat)
  | record (r : Option (Bytes × Bytes))
  | failed (error : Option String)
  | noSuchObject
deriving DecidableEq

/-- The one database, with its live snapshots and iterators. -/
structure UnifiedDb where
  base : RecordMap
  snapshots : List RecordMap := []
  iterators : List LogicalIterator := []

/-- What a read sees: the database, or one of its snapshots. -/
def UnifiedDb.view (st : UnifiedDb) : Option Nat → Option RecordMap
  | none => some st.base
  | some n => st.snapshots[n]?

/-- Move an iterator. -/
def UnifiedDb.move (st : UnifiedDb) (n : Nat) (f : LogicalIterator → LogicalIterator) :
    LogicalReply × UnifiedDb :=
  match st.iterators[n]? with
  | none => (.noSuchObject, st)
  | some it => (.done, { st with iterators := st.iterators.set n (f it) })

def UnifiedDb.call {root : Bytes} (st : UnifiedDb) : LogicalCall root → LogicalReply × UnifiedDb
  | .get db snapshot key =>
    match st.view snapshot with
    | none => (.noSuchObject, st)
    | some view => (.value (liteRocksDBGet db view key), st)
  | .multiGet db snapshot keys =>
    match st.view snapshot with
    | none => (.noSuchObject, st)
    | some view => (.values (liteRocksDBMultiGet db view keys), st)
  | .put db key value => (.done, { st with base := liteRocksDBPut db st.base key value })
  | .delete db key => (.done, { st with base := liteRocksDBDelete db st.base key })
  | .write db operations => (.done, { st with base := liteRocksDBWrite db st.base operations })
  | .createSnapshot _ =>
    (.number st.snapshots.length, { st with snapshots := st.snapshots ++ [st.base] })
  | .createIterator db snapshot =>
    match st.view snapshot with
    | none => (.noSuchObject, st)
    | some view => (.number st.iterators.length,
        { st with iterators := st.iterators ++ [liteRocksDBCreateIterator db view] })
  | .seekToFirst n => st.move n LogicalIterator.seekToFirst
  | .seek n key => st.move n fun it => it.seek key
  | .next n => st.move n LogicalIterator.next
  | .current n =>
    match st.iterators[n]? with
    | none => (.noSuchObject, st)
    | some it => (.record it.current.1,
        { st with iterators := st.iterators.set n it.current.2 })
  | .getError n =>
    match st.iterators[n]? with
    | none => (.noSuchObject, st)
    | some it => (.failed it.decodeError, st)
  | .destroy path =>
    match liteRocksDBDestroy root st.base path with
    | .error e => (.failed (some e), st)
    | .ok base => (.done, { st with base := base })
  | .marker family rest value =>
    (.done, { st with base := st.base.insert (markerKey family rest) value })

end litestore
