-- The logical databases are independent. Each handle answers as if it had an
-- ordered map of its own, and the markers of the store are a map of their own
-- as well: no call on one of them shows in another.
import LiteStore.Unified

namespace litestore

open checked batch orderedscan keyspace List Function LogicalIterator

variable {root : Bytes}

/-! ## Private maps -/

/-- A walk over a private map. -/
structure PrivateIterator where
  view : List (Bytes × Bytes)
  rest : List (Bytes × Bytes) := []

/-- What the logical databases are for: one map for each handle, one for the markers. A
snapshot is a copy of the maps of all handles. -/
structure PrivateDbs (root : Bytes) where
  maps : LogicalDb root → RecordMap := fun _ => ∅
  markers : MarkerFamily → RecordMap := fun _ => ∅
  snapshots : List (LogicalDb root → RecordMap) := []
  iterators : List PrivateIterator := []

def PrivateDbs.view (st : PrivateDbs root) : Option Nat → Option (LogicalDb root → RecordMap)
  | none => some st.maps
  | some n => st.snapshots[n]?

def PrivateDbs.change (st : PrivateDbs root) (db : LogicalDb root) (f : RecordMap → RecordMap) :
    PrivateDbs root :=
  { st with maps := update st.maps db (f (st.maps db)) }

def PrivateDbs.move (st : PrivateDbs root) (n : Nat) (f : PrivateIterator → PrivateIterator) :
    LogicalReply × PrivateDbs root :=
  match st.iterators[n]? with
  | none => (.noSuchObject, st)
  | some it => (.done, { st with iterators := st.iterators.set n (f it) })

def PrivateDbs.call (st : PrivateDbs root) : LogicalCall root → LogicalReply × PrivateDbs root
  | .get db snapshot key =>
    match st.view snapshot with
    | none => (.noSuchObject, st)
    | some maps => (.value (maps db)[key]?, st)
  | .multiGet db snapshot keys =>
    match st.view snapshot with
    | none => (.noSuchObject, st)
    | some maps => (.values (keys.map fun key => (maps db)[key]?), st)
  | .put db key value => (.done, st.change db fun m => m.insert key value)
  | .delete db key => (.done, st.change db fun m => m.erase key)
  | .write db operations => (.done, st.change db fun m => apply m operations)
  | .createSnapshot _ =>
    (.number st.snapshots.length, { st with snapshots := st.snapshots ++ [st.maps] })
  | .createIterator db snapshot =>
    match st.view snapshot with
    | none => (.noSuchObject, st)
    | some maps => (.number st.iterators.length,
        { st with iterators := st.iterators ++ [{ view := (maps db).toList }] })
  | .seekToFirst n => st.move n fun it => { it with rest := it.view }
  | .seek n key => st.move n fun it =>
    { it with rest := it.view.dropWhile fun r => compare r.1 key = .lt }
  | .next n => st.move n fun it => { it with rest := it.rest.tail }
  | .current n =>
    match st.iterators[n]? with
    | none => (.noSuchObject, st)
    | some it => (.record it.rest.head?, st)
  | .getError n =>
    match st.iterators[n]? with
    | none => (.noSuchObject, st)
    | some _ => (.failed none, st)
  | .destroy path =>
    match liteRocksDBOpen root path with
    | .error e => (.failed (some e), st)
    | .ok db => (.done, st.change db fun _ => ∅)
  | .marker family rest value =>
    let written := (st.markers family).insert rest value
    (.done, { st with markers := update st.markers family written })

/-- The replies of a sequence of calls, and the state after it. -/
def runLogical {S : Type} (call : S → LogicalCall root → LogicalReply × S) :
    S → List (LogicalCall root) → List LogicalReply × S
  | st, [] => ([], st)
  | st, c :: rest =>
    let (reply, st') := call st c
    let (replies, last) := runLogical call st' rest
    (reply :: replies, last)

/-! ## The shared database shows the private maps -/

/-- Every handle sees its map. -/
def ShowsAll (base : RecordMap) (maps : LogicalDb root → RecordMap) : Prop :=
  ∀ db, Shows (logicalSpaces root) db base (maps db)

/-- An iterator of the shared database and one of a private map that stand at the same place. -/
def SamePlace (root : Bytes) (it : LogicalIterator) (own : PrivateIterator) : Prop :=
  ∃ (db : LogicalDb root) (base m : RecordMap), it.keyPrefix = db.keyPrefix ∧
    it.decodeError = none ∧ it.view = base.toList ∧ own.view = m.toList ∧
    Shows (logicalSpaces root) db base m ∧ AtSame (logicalSpaces root) db it.rest own.rest

/-- The one database behaves like the private maps. -/
structure Simulates (st : UnifiedDb) (own : PrivateDbs root) : Prop where
  maps : ShowsAll st.base own.maps
  markers : ∀ family rest, st.base[markerKey family rest]? = (own.markers family)[rest]?
  snapshots : Forall₂ ShowsAll st.snapshots own.snapshots
  iterators : Forall₂ (SamePlace root) st.iterators own.iterators

/-! ## Writes -/

variable {base m : RecordMap} {st : UnifiedDb} {it : LogicalIterator} {p : PrivateIterator}
  {own : PrivateDbs root}

/-- A batch of a handle changes its own map alone. -/
theorem ShowsAll.write {maps : LogicalDb root → RecordMap} (h : ShowsAll base maps)
    (db : LogicalDb root) (ops : List (Op Bytes Bytes)) :
    ShowsAll (liteRocksDBWrite db base ops)
      (update maps db (apply (maps db) ops)) := by
  intro other
  by_cases hdb : other = db
  · subst hdb
    rw [update_self]
    exact (h other).own_batch ops
  · rw [update_of_ne hdb]
    apply (h other).foreign_batch
    intro o ho
    obtain ⟨p, -, rfl⟩ := mem_map.mp ho
    rw [Op.key_mapKey]
    exact Keyspace.not_owns hdb p.key

/-- A batch of a handle leaves the markers alone. -/
theorem marker_of_write (base : RecordMap) (db : LogicalDb root) (ops : List (Op Bytes Bytes))
    (family : MarkerFamily) (rest : Bytes) :
    (liteRocksDBWrite db base ops)[markerKey family rest]? = base[markerKey family rest]? := by
  apply apply_of_notMem
  intro hmem
  rw [map_map, mem_map] at hmem
  obtain ⟨o, -, ho⟩ := hmem
  rw [comp_apply, Op.key_mapKey] at ho
  exact physicalKey_ne_marker db o.key family rest ho

theorem Simulates.write (h : Simulates st own) (db : LogicalDb root) (ops : List (Op Bytes Bytes)) :
    Simulates { st with base := liteRocksDBWrite db st.base ops }
      (own.change db fun m => apply m ops) := { h with
  maps := h.maps.write db ops
  markers family rest := by rw [marker_of_write]; exact h.markers family rest }

/-- The markers of a family are told apart by what follows its text. -/
theorem markerKey_inj {family family' : MarkerFamily} {rest rest' : Bytes} :
    markerKey family rest = markerKey family' rest' ↔ family = family' ∧ rest = rest' := by
  constructor
  · intro h
    cases family <;> cases family' <;>
      simp_all [markerKey, MarkerFamily.text, textBytes]
  · rintro ⟨rfl, rfl⟩
    rfl

theorem Simulates.marker (h : Simulates st own) (family : MarkerFamily) (rest value : Bytes) :
    Simulates { st with base := st.base.insert (markerKey family rest) value }
      { own with markers :=
          Function.update own.markers family ((own.markers family).insert rest value) } := { h with
  maps db := (h.maps db).foreign_op (o := .put _ value) (marker_not_owned db family rest)
  markers family' rest' := by
    rw [getElem?_insert_eq]
    by_cases hfamily : family' = family
    · subst hfamily
      simp only [update_self, getElem?_insert_eq, markerKey_inj, true_and]
      rw [h.markers]
    · simp only [update_of_ne hfamily]
      rw [if_neg fun he => hfamily (markerKey_inj.mp he).1.symm, h.markers] }

/-! ## Destroying a database -/

/-- The walk of `LiteRocksDBDestroy` finds the records of the handle. -/
theorem destroy_finds {db : LogicalDb root} (h : Shows (logicalSpaces root) db base m) :
    scanWhile compare Prod.fst db.keyPrefix (fun k => hasPrefix k db.keyPrefix) base.toList =
      m.toList.map ((logicalSpaces root).record db) := by
  rw [scanWhile_eq_filter (sorted_toList base)]
  · rw [← h.owned]
    apply filter_congr
    intro r _
    cases hr : hasPrefix r.1 db.keyPrefix with
    | false => simp [logicalSpaces, hr]
    | true =>
      have hfirst := not_lt_of_extends (List.isPrefixOf_iff_prefix.mp hr)
      simp [logicalSpaces, hr, hfirst]
  · exact (logicalSpaces root).convex db

/-- Deleting every record of a map leaves nothing. -/
theorem apply_delete_all (m : RecordMap) :
    apply m (m.toList.map fun r => Op.delete r.1) = (∅ : RecordMap) := by
  have hkeys : (m.toList.map fun r => (Op.delete r.1 : Op Bytes Bytes)) =
      m.keys.map Op.delete := by
    rw [← Std.ExtTreeMap.map_fst_toList_eq_keys, map_map]
    rfl
  apply Std.ExtTreeMap.ext_getElem?
  intro k
  rw [hkeys, apply_deletes, eraseAll_getElem?]
  by_cases hk : k ∈ m
  · rw [if_pos (Std.ExtTreeMap.mem_keys.mpr hk)]
    simp
  · rw [if_neg fun h => hk (Std.ExtTreeMap.mem_keys.mp h), not_mem_iff_getElem?.mp hk]
    simp

/-- To destroy a handle is to delete every record of its map. -/
theorem destroy_eq_write {db : LogicalDb root} (h : Shows (logicalSpaces root) db base m) :
    liteRocksDBDestroy root base db.path =
      .ok (liteRocksDBWrite db base (m.toList.map fun r => Op.delete r.1)) := by
  unfold liteRocksDBDestroy
  rw [db.opened]
  simp only [destroy_finds h, liteRocksDBWrite, map_map]
  rfl

/-! ## Iterators -/

/-- A move of both iterators that keeps their place. -/
theorem Simulates.move (h : Simulates st own) (n : Nat) {f : LogicalIterator → LogicalIterator}
    {g : PrivateIterator → PrivateIterator}
    (hfg : ∀ it p, SamePlace root it p → SamePlace root (f it) (g p)) :
    (st.move n f).1 = (own.move n g).1 ∧ Simulates (st.move n f).2 (own.move n g).2 := by
  unfold UnifiedDb.move PrivateDbs.move
  rcases forall₂_getElem? h.iterators n with ⟨hst, hown⟩ | ⟨it, p, hst, hown, hplace⟩
  · rw [hst, hown]
    exact ⟨rfl, h⟩
  · rw [hst, hown]
    exact ⟨rfl, h.maps, h.markers, h.snapshots, forall₂_set h.iterators n (hfg it p hplace)⟩

section

variable (h : SamePlace root it p)

include h

theorem samePlace_seekToFirst :
    SamePlace root it.seekToFirst { p with rest := p.view } := by
  obtain ⟨db, base, m, hpre, herr, hview, hown, hshows, -⟩ := h
  refine ⟨db, base, m, hpre, herr, hview, hown, hshows, ?_⟩
  unfold seekToFirst seekPhysical
  rw [hview, hpre, hown]
  exact hshows.seekFirst

theorem samePlace_seek (key : Bytes) :
    SamePlace root (it.seek key)
      { p with rest := p.view.dropWhile fun r => compare r.1 key = .lt } := by
  obtain ⟨db, base, m, hpre, herr, hview, hown, hshows, -⟩ := h
  refine ⟨db, base, m, hpre, herr, hview, hown, hshows, ?_⟩
  unfold seek seekPhysical
  rw [hview, hpre, hown]
  exact hshows.seek key

theorem samePlace_next :
    SamePlace root it.next { p with rest := p.rest.tail } := by
  obtain ⟨db, base, m, hpre, herr, hview, hown, hshows, hat⟩ := h
  exact ⟨db, base, m, hpre, herr, hview, hown, hshows, hat.next⟩

/-- Iterators at the same place read the same record, and no key fails to decode. -/
theorem samePlace_current : it.current = (p.rest.head?, it) := by
  obtain ⟨db, base, m, hpre, -, -, -, -, hat⟩ := h
  have hsame := hat.same
  unfold current valid
  cases hrest : it.rest with
  | nil =>
    rw [hrest] at hsame
    have hp : p.rest = [] := map_eq_nil_iff.mp hsame.symm
    simp [hp]
  | cons r rest =>
    rw [hrest, takeWhile_cons] at hsame
    cases howns : hasPrefix r.1 db.keyPrefix with
    | false =>
      have hno : (logicalSpaces root).owns db r.1 = false := howns
      rw [if_neg (by simp [hno])] at hsame
      have hp : p.rest = [] := map_eq_nil_iff.mp hsame.symm
      simp [hp, hpre, howns]
    | true =>
      have hyes : (logicalSpaces root).owns db r.1 = true := howns
      rw [if_pos hyes] at hsame
      cases hp : p.rest with
      | nil => rw [hp] at hsame; simp at hsame
      | cons o own =>
        rw [hp] at hsame
        have hr : r = (physicalKey db o.1, o.2) := (List.cons.inj hsame).1
        subst hr
        have hdec : (physicalKey db o.1).drop db.keyPrefix.length = hexEncode o.1 := by
          unfold physicalKey
          rw [drop_left]
        have hkey : it.key = (o.1, it) := by
          unfold key
          simp [hrest, hpre, howns, hdec, hexDecode_hexEncode]
        simp [hpre, howns, hkey, value, hrest]

end

/-! ## The law -/

theorem Simulates.view (h : Simulates st own) (snapshot : Option Nat) :
    (st.view snapshot = none ∧ own.view snapshot = none) ∨
    ∃ base maps, st.view snapshot = some base ∧ own.view snapshot = some maps ∧
      ShowsAll base maps := by
  cases snapshot with
  | none => exact .inr ⟨st.base, own.maps, rfl, rfl, h.maps⟩
  | some n => exact forall₂_getElem? h.snapshots n

/-- One call has the same reply, and leaves the same maps behind. -/
theorem Simulates.call (h : Simulates st own) (c : LogicalCall root) :
    (st.call c).1 = (own.call c).1 ∧ Simulates (st.call c).2 (own.call c).2 := by
  unfold UnifiedDb.call PrivateDbs.call
  cases c with
  | get db snapshot key =>
    rcases h.view snapshot with ⟨hst, hown⟩ | ⟨base, maps, hst, hown, hshows⟩
    · simp only [hst, hown]
      exact ⟨trivial, h⟩
    · simp only [hst, hown, liteRocksDBGet]
      exact ⟨congrArg LogicalReply.value ((hshows db).read key), h⟩
  | multiGet db snapshot keys =>
    rcases h.view snapshot with ⟨hst, hown⟩ | ⟨base, maps, hst, hown, hshows⟩
    · simp only [hst, hown]
      exact ⟨trivial, h⟩
    · simp only [hst, hown, liteRocksDBMultiGet, map_map]
      exact ⟨congrArg LogicalReply.values (map_congr_left fun k _ => (hshows db).read k), h⟩
  | put db key value => exact ⟨rfl, h.write db [.put key value]⟩
  | delete db key => exact ⟨rfl, h.write db [.delete key]⟩
  | write db operations => exact ⟨rfl, h.write db operations⟩
  | createSnapshot db =>
    refine ⟨congrArg LogicalReply.number h.snapshots.length_eq, h.maps, h.markers, ?_,
      h.iterators⟩
    exact rel_append h.snapshots (.cons h.maps Forall₂.nil)
  | createIterator db snapshot =>
    rcases h.view snapshot with ⟨hst, hown⟩ | ⟨base, maps, hst, hown, hshows⟩
    · simp only [hst, hown]
      exact ⟨trivial, h⟩
    · simp only [hst, hown]
      refine ⟨congrArg LogicalReply.number h.iterators.length_eq, h.maps, h.markers,
        h.snapshots, ?_⟩
      exact rel_append h.iterators
        (.cons ⟨db, _, _, rfl, rfl, rfl, rfl, hshows db, atSame_nil⟩ Forall₂.nil)
  | seekToFirst n => exact h.move n fun it p => samePlace_seekToFirst
  | seek n key => exact h.move n fun it p hp => samePlace_seek hp key
  | next n => exact h.move n fun it p => samePlace_next
  | current n =>
    rcases forall₂_getElem? h.iterators n with ⟨hst, hown⟩ | ⟨it, p, hst, hown, hplace⟩
    · simp only [hst, hown]
      exact ⟨trivial, h⟩
    · simp only [hst, hown, samePlace_current hplace]
      refine ⟨trivial, h.maps, h.markers, h.snapshots, ?_⟩
      have hset : st.iterators.set n it = st.iterators := by
        obtain ⟨hn, hget⟩ := List.getElem?_eq_some_iff.mp hst
        rw [← hget, set_getElem_self]
      show Forall₂ _ (st.iterators.set n it) own.iterators
      rw [hset]
      exact h.iterators
  | getError n =>
    rcases forall₂_getElem? h.iterators n with ⟨hst, hown⟩ | ⟨it, p, hst, hown, hplace⟩
    · simp only [hst, hown]
      exact ⟨trivial, h⟩
    · obtain ⟨-, -, -, -, herr, -⟩ := hplace
      simp only [hst, hown, herr]
      exact ⟨trivial, h⟩
  | destroy path =>
    rcases liteRocksDBOpen_cases root path with ⟨hopen, hnone⟩ | ⟨db, hopen, rfl⟩
    · simp only [hopen, liteRocksDBDestroy, hnone]
      exact ⟨trivial, h⟩
    · simp only [hopen, destroy_eq_write (h.maps db)]
      have hwrite := h.write db ((own.maps db).toList.map fun r => Op.delete r.1)
      unfold PrivateDbs.change at hwrite ⊢
      simp only [apply_delete_all] at hwrite
      exact ⟨trivial, hwrite⟩
  | marker family rest value => exact ⟨rfl, h.marker family rest value⟩

/-- A whole run has the same replies. -/
theorem Simulates.run (h : Simulates st own) (calls : List (LogicalCall root)) :
    (runLogical UnifiedDb.call st calls).1 = (runLogical PrivateDbs.call own calls).1 ∧
    Simulates (runLogical UnifiedDb.call st calls).2
      (runLogical PrivateDbs.call own calls).2 := by
  induction calls generalizing st own with
  | nil => exact ⟨rfl, h⟩
  | cons c calls ih =>
    obtain ⟨hreply, hnext⟩ := h.call c
    obtain ⟨hreplies, hlast⟩ := ih hnext
    exact ⟨by simp only [runLogical, hreply, hreplies], hlast⟩

/-- The store that `prepareTarget` leaves: its format, its activation and its layout. -/
def preparedMarkers : MarkerFamily → RecordMap
  | .m12 => (∅ : RecordMap).insert (textBytes "format") (textBytes "LiteTxnStore/2")
  | .m13 => ((∅ : RecordMap).insert (textBytes "active") (textBytes "1")).insert
      (textBytes "layout") (textBytes "unified-hex-v1")
  | .m23 => ∅

def preparedDb : UnifiedDb where
  base := (((∅ : RecordMap).insert (markerKey .m12 (textBytes "format"))
      (textBytes "LiteTxnStore/2")).insert (markerKey .m13 (textBytes "active"))
      (textBytes "1")).insert (markerKey .m13 (textBytes "layout")) (textBytes "unified-hex-v1")

def privateStart (root : Bytes) : PrivateDbs root := { markers := preparedMarkers }

theorem simulates_empty (root : Bytes) : Simulates ⟨∅, [], []⟩ ({} : PrivateDbs root) where
  maps db := ⟨fun k => by simp, fun l hl => absurd hl Std.ExtTreeMap.not_mem_empty⟩
  markers family rest := by simp
  snapshots := Forall₂.nil
  iterators := Forall₂.nil

theorem simulates_prepared (root : Bytes) : Simulates preparedDb (privateStart root) := by
  have h := ((simulates_empty root).marker .m12 (textBytes "format")
    (textBytes "LiteTxnStore/2")).marker .m13 (textBytes "active") (textBytes "1")
  have h' := h.marker .m13 (textBytes "layout") (textBytes "unified-hex-v1")
  refine ⟨h'.maps, fun family rest => ?_, h'.snapshots, h'.iterators⟩
  rw [show preparedDb.base = _ from rfl]
  refine (h'.markers family rest).trans ?_
  cases family <;> rfl

/-- Every handle of a store answers every sequence of calls as if it had an ordered map of its
own. After the calls it holds the records of that map and no others, and the markers are the
ones that the store wrote itself. -/
theorem logical_databases_are_private_maps (root : Bytes) (calls : List (LogicalCall root)) :
    (runLogical UnifiedDb.call preparedDb calls).1 =
      (runLogical PrivateDbs.call (privateStart root) calls).1 ∧
    (∀ db : LogicalDb root,
      ((runLogical UnifiedDb.call preparedDb calls).2.base.toList.filter
        fun r => hasPrefix r.1 db.keyPrefix) =
      ((runLogical PrivateDbs.call (privateStart root) calls).2.maps db).toList.map
        fun r => (physicalKey db r.1, r.2)) ∧
    ∀ family rest,
      (runLogical UnifiedDb.call preparedDb calls).2.base[markerKey family rest]? =
      ((runLogical PrivateDbs.call (privateStart root) calls).2.markers family)[rest]? := by
  obtain ⟨hreplies, hlast⟩ := (simulates_prepared root).run calls
  exact ⟨hreplies, fun db => (hlast.maps db).owned, hlast.markers⟩

end litestore
