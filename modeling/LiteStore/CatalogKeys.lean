-- The keys of the catalog. A record of an object stands under a word for its kind
-- and the three parts of its name, with a bar between them and no escape for a bar
-- inside a name.
import LiteStore.Bytes
import LiteStore.Lib.Pieces
import LiteStore.Lib.Digits

namespace litestore

open pieces List

/-! ## Keys -/

def bar : UInt8 := 124

/-- The name of an object. A part is a `std::string`; a delimited identifier may hold any
character. -/
structure ObjectName where
  catalog : Bytes
  schema : Bytes
  name : Bytes
deriving DecidableEq

section

variable (kind catalog schema : Bytes) (o o' : ObjectName)

/-- The name of an object in an error. -/
def dotted : String :=
  String.ofList (charsOf o.catalog ++ '.' :: (charsOf o.schema ++ '.' :: charsOf o.name))

/-- The key of a record of one kind about an object. -/
def objectKey : Bytes :=
  kind ++ bar :: (o.catalog ++ bar :: (o.schema ++ bar :: o.name))

def tableKey : Bytes := objectKey (textBytes "table") o

def synonymKey : Bytes := objectKey (textBytes "synonym") o

def sequenceKey : Bytes := objectKey (textBytes "sequence") o

def triggerKey : Bytes := objectKey (textBytes "trigger") o

def indexKey : Bytes := objectKey (textBytes "index") o

def statsKey : Bytes := objectKey (textBytes "stats") o

def ownerKey : Bytes := objectKey (textBytes "owner") o

def privilegeKey (grantee : Bytes) : Bytes :=
  objectKey (textBytes "priv") o ++ bar :: grantee

/-- What `dropSchema` looks for in front of the keys of one kind. -/
def schemaPrefix : Bytes :=
  kind ++ bar :: (catalog ++ bar :: (schema ++ [bar]))

def sequencePrefix : Bytes :=
  schemaPrefix (textBytes "sequence") catalog schema

def synonymPrefix : Bytes :=
  schemaPrefix (textBytes "synonym") catalog schema

/-- `%020llu`. -/
def decimal20 (id : UInt64) : Bytes :=
  (digits.fixed 10 20 id.toNat).map fun d => UInt8.ofNat (48 + d)

theorem decimal20_inj {a b : UInt64} (h : decimal20 a = decimal20 b) : a = b := by
  have hfixed : digits.fixed 10 20 a.toNat = digits.fixed 10 20 b.toNat := by
    have hinj : ∀ m < 10, ∀ n < 10, UInt8.ofNat (48 + m) = UInt8.ofNat (48 + n) → m = n := by
      decide
    unfold decimal20 at h
    have hlen : (digits.fixed 10 20 a.toNat).length = (digits.fixed 10 20 b.toNat).length := by
      simp
    apply ext_getElem hlen
    intro i hi hi'
    have hget := congrArg (·[i]?) h
    simp only [getElem?_map, getElem?_eq_getElem hi, getElem?_eq_getElem hi',
      Option.map_some, Option.some.injEq] at hget
    exact hinj _ (digits.fixed_lt (by decide) (getElem_mem hi)) _
      (digits.fixed_lt (by decide) (getElem_mem hi')) hget
  have ha : a.toNat < 2 ^ 64 := a.toNat_lt
  have hb : b.toNat < 2 ^ 64 := b.toNat_lt
  have hnat : a.toNat = b.toNat :=
    digits.fixed_inj (by omega) (by omega) hfixed
  exact UInt64.toNat_inj.mp hnat

def uidKey (uid : UInt64) : Bytes := textBytes "uid|" ++ decimal20 uid

/-! ## Records of the catalog -/

/-- The records of the catalog. -/
abbrev Catalog := Std.ExtTreeMap Bytes Bytes compare

def isLiteMetadataTable : Bool :=
  o.catalog == textBytes "TRAFODION" && o.schema == textBytes "_MD_" &&
    (o.name == textBytes "OBJECTS" || o.name == textBytes "TABLES" ||
      o.name == textBytes "COLUMNS" || o.name == textBytes "KEYS" ||
      o.name == textBytes "INDEXES" || o.name == textBytes "SEQUENCES_VIEW" ||
      o.name == textBytes "TEXT")

def tableExists (catalog : Catalog) (o : ObjectName) : Bool :=
  isLiteMetadataTable o || catalog.contains (tableKey o)

/-! ## Names and their pieces -/

/-- The pieces between the bars of catalog and schema. -/
def ObjectName.schemaPieces : List Bytes :=
  o.catalog.splitOn bar ++ o.schema.splitOn bar

/-- The pieces between the bars of a whole name, wherever one part ends and the next begins. -/
def ObjectName.pieces : List Bytes := o.schemaPieces ++ o.name.splitOn bar

def ObjectName.sameSchema : Prop :=
  o.catalog = o'.catalog ∧ o.schema = o'.schema

/-- Two names that are not one name with its bars at other places. -/
def NamesApart : Prop := o = o' ∨ o.pieces ≠ o'.pieces

/-- The pieces of a name do not go on from those of a schema it does not belong to. -/
def SchemaApart : Prop :=
  o.sameSchema o' ∨ ¬ ∃ rest, rest ≠ [] ∧ o'.pieces = o.schemaPieces ++ rest

theorem splitOn_objectKey : (objectKey kind o).splitOn bar = kind.splitOn bar ++ o.pieces := by
  unfold objectKey ObjectName.pieces ObjectName.schemaPieces
  rw [splitOn_join, splitOn_join, splitOn_join, append_assoc]

end

variable {o o' : ObjectName}

theorem objectKey_eq_iff {kind : Bytes} :
    objectKey kind o = objectKey kind o' ↔ o.pieces = o'.pieces := by
  rw [← splitOn_inj bar, splitOn_objectKey, splitOn_objectKey, append_cancel_left_eq]

/-- A name whose pieces are those of a metadata table is that table's name. -/
theorem isLiteMetadataTable_of_pieces (h : o.pieces = o'.pieces)
    (hmeta : isLiteMetadataTable o' = true) : o = o' := by
  have hbars : bar ∉ o'.catalog ∧ bar ∉ o'.schema ∧ bar ∉ o'.name := by
    simp only [isLiteMetadataTable, Bool.and_eq_true, Bool.or_eq_true, beq_iff_eq] at hmeta
    obtain ⟨⟨hcatalog, hschema⟩, hname⟩ := hmeta
    refine ⟨by rw [hcatalog]; decide, by rw [hschema]; decide, ?_⟩
    rcases hname with (((((hname | hname) | hname) | hname) | hname) | hname) | hname <;>
      rw [hname] <;> decide
  unfold ObjectName.pieces ObjectName.schemaPieces at h
  rw [splitOn_eq_singleton hbars.1, splitOn_eq_singleton hbars.2.1,
    splitOn_eq_singleton hbars.2.2] at h
  -- three parts with a piece each
  have hpos : ∀ part : Bytes, 0 < (part.splitOn bar).length := fun part =>
    length_pos_iff.mpr (splitOn_ne_nil bar part)
  have hlen := congrArg List.length h
  simp only [length_append, length_cons, length_nil] at hlen
  have h1 := hpos o.catalog
  have h2 := hpos o.schema
  have h3 := hpos o.name
  obtain ⟨hfront, hname⟩ := append_inj' h (by simp; omega)
  obtain ⟨hcatalog, hschema⟩ := append_inj' hfront (by simp; omega)
  have hpart : ∀ part piece : Bytes, part.splitOn bar = [piece] → part = piece := by
    intro part piece hpart
    have hjoin : [bar].intercalate (part.splitOn bar) = part := intercalate_splitOn bar
    rw [hpart] at hjoin
    simpa using hjoin.symm
  cases o
  cases o'
  simp only [ObjectName.mk.injEq]
  exact ⟨hpart _ _ hcatalog, hpart _ _ hschema, hpart _ _ hname⟩

/-- The key of a privilege holds its grantee in its last piece. -/
theorem privilegeKey_eq_iff {g g' : Bytes} (hg : bar ∉ g) (hg' : bar ∉ g') :
    privilegeKey o g = privilegeKey o' g' ↔ o.pieces = o'.pieces ∧ g = g' := by
  unfold privilegeKey
  rw [← splitOn_inj bar, splitOn_join, splitOn_join, splitOn_eq_singleton hg,
    splitOn_eq_singleton hg', splitOn_objectKey, splitOn_objectKey]
  constructor
  · intro h
    obtain ⟨hfront, hlast⟩ := append_inj' h rfl
    exact ⟨append_cancel_left hfront, by simpa using hlast⟩
  · rintro ⟨hpieces, rfl⟩
    rw [hpieces]

/-- The prefix of a schema stands in front of a key exactly when the pieces of the name go on
from those of the schema. -/
theorem schemaPrefix_isPrefix {kind : Bytes} :
    schemaPrefix kind o.catalog o.schema <+: objectKey kind o' ↔
      ∃ rest, rest ≠ [] ∧ o'.pieces = o.schemaPieces ++ rest := by
  have hjoin : schemaPrefix kind o.catalog o.schema =
      (kind ++ bar :: (o.catalog ++ bar :: o.schema)) ++ [bar] := by
    simp [schemaPrefix]
  rw [hjoin, join_isPrefix, splitOn_objectKey, splitOn_join, splitOn_join]
  unfold ObjectName.schemaPieces
  simp only [append_assoc, append_cancel_left_eq]

theorem sameSchema_pieces (h : o.sameSchema o') :
    ∃ rest, rest ≠ [] ∧ o'.pieces = o.schemaPieces ++ rest := by
  refine ⟨o'.name.splitOn bar, splitOn_ne_nil _ _, ?_⟩
  unfold ObjectName.pieces ObjectName.schemaPieces
  rw [h.1, h.2]

/-! ## What the keys tell apart -/

/-- Different names have different keys, different grants have different keys, and the scans of
`dropSchema` take the objects of its schema and no others. -/
structure CatalogKeyLaws (o o' : ObjectName) (g g' : Bytes) : Prop where
  objects : o ≠ o' → tableKey o ≠ tableKey o' ∧ synonymKey o ≠ synonymKey o' ∧
    sequenceKey o ≠ sequenceKey o' ∧ triggerKey o ≠ triggerKey o' ∧ indexKey o ≠ indexKey o' ∧
    statsKey o ≠ statsKey o' ∧ ownerKey o ≠ ownerKey o'
  privileges : bar ∉ g → bar ∉ g' → (o, g) ≠ (o', g') → privilegeKey o g ≠ privilegeKey o' g'
  sequences : sequencePrefix o.catalog o.schema <+: sequenceKey o' ↔ o.sameSchema o'
  synonyms : synonymPrefix o.catalog o.schema <+: synonymKey o' ↔ o.sameSchema o'

/-- The keys of the catalog tell objects apart exactly when their names do not differ by the
places of the bars alone. -/
theorem catalog_keys_iff (o o' : ObjectName) (g g' : Bytes) :
    CatalogKeyLaws o o' g g' ↔ NamesApart o o' ∧ SchemaApart o o' := by
  constructor
  · intro h
    refine ⟨?_, ?_⟩
    · by_cases heq : o = o'
      · exact .inl heq
      · right
        intro hpieces
        exact (h.objects heq).1 (objectKey_eq_iff.mpr hpieces)
    · by_cases hgoes : ∃ rest, rest ≠ [] ∧ o'.pieces = o.schemaPieces ++ rest
      · exact .inl (h.sequences.mp (schemaPrefix_isPrefix.mpr hgoes))
      · exact .inr hgoes
  · rintro ⟨hnames, hschema⟩
    have hkeys : ∀ kind, o ≠ o' → objectKey kind o ≠ objectKey kind o' := by
      intro kind hne hkey
      rcases hnames with heq | hpieces
      · exact hne heq
      · exact hpieces (objectKey_eq_iff.mp hkey)
    have hscan : ∀ kind, schemaPrefix kind o.catalog o.schema <+: objectKey kind o' ↔
        o.sameSchema o' := by
      intro kind
      rw [schemaPrefix_isPrefix]
      constructor
      · intro hgoes
        exact hschema.resolve_right fun hno => hno hgoes
      · exact sameSchema_pieces
    refine ⟨fun hne => ⟨hkeys _ hne, hkeys _ hne, hkeys _ hne, hkeys _ hne, hkeys _ hne,
      hkeys _ hne, hkeys _ hne⟩, ?_, hscan _, hscan _⟩
    intro hg hg' hne hkey
    obtain ⟨hpieces, rfl⟩ := (privilegeKey_eq_iff hg hg').mp hkey
    rcases hnames with rfl | happart
    · exact hne rfl
    · exact happart hpieces

/-- A bar in a schema and a bar in a name: two tables with one key. -/
theorem bars_collide : ¬ CatalogKeyLaws
    ⟨textBytes "C", textBytes "S|X", textBytes "T"⟩
    ⟨textBytes "C", textBytes "S", textBytes "X|T"⟩ (textBytes "U") (textBytes "U") := by
  intro h
  exact (h.objects (by decide)).1 (by decide)

end litestore
