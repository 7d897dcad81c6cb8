-- Who may use a table. Owners, privileges and role memberships are records of
-- the catalog of their own, keyed by the names of what they are about, and each
-- DROP takes away those its routine looks for.
import LiteStore.CatalogKeys
import LiteStore.Lib.Closure

namespace litestore

/-! ## The catalog -/

def rootName : Bytes := textBytes "DB__ROOT"

def publicName : Bytes := textBytes "PUBLIC"

def rootId : UInt64 := 33333

def authKey (name : Bytes) : Bytes := textBytes "auth|" ++ name

def roleKey (role grantee : Bytes) : Bytes := textBytes "role|" ++ (role ++ bar :: grantee)

def schemaKey (catalog schema : Bytes) : Bytes :=
  textBytes "schema|" ++ (catalog ++ bar :: schema)

/-- The text of a name in an error. -/
def nameText (name : Bytes) : String := String.ofList (charsOf name)

structure LiteAuthIdentity where
  id : UInt64
  role : Bool
deriving DecidableEq

structure LitePrivilege where
  mask : UInt32
  grantOption : Bool
deriving DecidableEq

/-- What the catalog functions here read of a table definition. -/
structure LiteTableHead where
  name : ObjectName
  view : Bool
  dependencies : List ObjectName
deriving DecidableEq

/-- The records of the catalog by their kinds. The word in front of a key tells the kinds apart, so
each kind is a map of its own; the record of an identity's number is kept under the number. -/
structure AuthCatalog where
  tables : Std.ExtTreeMap Bytes LiteTableHead compare
  schemas : Std.ExtTreeSet Bytes compare
  identities : Std.ExtTreeMap Bytes LiteAuthIdentity compare
  authIds : Std.ExtTreeMap UInt64 Bytes compare
  roles : Std.ExtTreeMap Bytes Bool compare
  privileges : Std.ExtTreeMap Bytes LitePrivilege compare
  owners : Std.ExtTreeMap Bytes Bytes compare
  generation : UInt64

namespace AuthCatalog

def empty : AuthCatalog where
  tables := ∅
  schemas := ∅
  identities := ∅
  authIds := ∅
  roles := ∅
  privileges := ∅
  owners := ∅
  generation := 0

/-! ## Identities and roles -/

section

variable (c : AuthCatalog) (catalog schema : Bytes) (o : ObjectName) (privilegeMask : UInt32)

/-- `ensureRootAuthMetadata`, in front of every function that looks for an identity. A call that
fails behind it leaves the record to the next one. -/
def ensureRoot : AuthCatalog :=
  if c.identities.contains (authKey rootName) then c
  else { c with
    identities := c.identities.insert (authKey rootName) ⟨rootId, false⟩
    authIds := c.authIds.insert rootId rootName }

def loadAuthIdentity (name : Bytes) : Option LiteAuthIdentity :=
  c.ensureRoot.identities[authKey name]?

def bumpAuthorizationGeneration : AuthCatalog :=
  { c with generation := c.generation + 1 }

/-- One more than the largest number there is. -/
def nextAuthId : UInt64 :=
  c.authIds.keys.foldl (fun id candidate => if id ≤ candidate then candidate + 1 else id)
    (rootId + 1)

def createAuthIdentity (name : Bytes) (role ifNotExists : Bool) : Except String AuthCatalog :=
  if name = [] ∨ bar ∈ name then .error "invalid lite authorization name"
  else
    match c.loadAuthIdentity name with
    | some existing =>
      if ifNotExists = true ∧ existing.role = role then .ok c.ensureRoot
      else .error ("lite authorization identity already exists: " ++ nameText name)
    | none =>
      let c := c.ensureRoot
      .ok { c with
        identities := c.identities.insert (authKey name) ⟨c.nextAuthId, role⟩
        authIds := c.authIds.insert c.nextAuthId name }.bumpAuthorizationGeneration

/-- The role and the grantee in a key of a membership, at the first bar behind the word. -/
def roleParts (key : Bytes) : Option (Bytes × Bytes) := pieces.cut bar (key.drop 5)

/-- What stands behind the last bar of a key. -/
def granteePart (key : Bytes) : Bytes := (key.splitOn bar).getLastD []

def dropAuthIdentity (name : Bytes) (role ifExists : Bool) : Except String AuthCatalog :=
  match c.loadAuthIdentity name with
  | none =>
    if ifExists then .ok c.ensureRoot
    else .error ("lite authorization identity does not exist: " ++ nameText name)
  | some identity =>
    if identity.role ≠ role ∨ name = rootName then
      .error ("lite authorization identity type cannot be dropped: " ++ nameText name)
    else
      let c := c.ensureRoot
      .ok { c with
        identities := c.identities.erase (authKey name)
        authIds := c.authIds.erase identity.id
        roles := c.roles.filter fun key _ =>
          let parts := (roleParts key).getD ([], [])
          !(parts.1 == name || parts.2 == name)
        privileges := c.privileges.filter fun key _ => granteePart key != name
        }.bumpAuthorizationGeneration

def grantRole (role grantee : Bytes) (adminOption : Bool) : Except String AuthCatalog :=
  match c.loadAuthIdentity role, c.loadAuthIdentity grantee with
  | some roleIdentity, some _ =>
    if roleIdentity.role = true ∧ role ≠ grantee then
      let c := c.ensureRoot
      .ok { c with
        roles := c.roles.insert (roleKey role grantee) adminOption }.bumpAuthorizationGeneration
    else .error "invalid lite role grant"
  | _, _ => .error "invalid lite role grant"

def revokeRole (role grantee : Bytes) : Except String AuthCatalog :=
  match c.loadAuthIdentity role with
  | some roleIdentity =>
    if roleIdentity.role = true then
      let c := c.ensureRoot
      .ok { c with roles := c.roles.erase (roleKey role grantee) }.bumpAuthorizationGeneration
    else .error ("lite role does not exist: " ++ nameText role)
  | none => .error ("lite role does not exist: " ++ nameText role)

/-! ## Privileges -/

def tableExists : Bool :=
  isLiteMetadataTable o || c.tables.contains (tableKey o)

def grantPrivilege (grantee : Bytes) (grantOption : Bool) : Except String AuthCatalog :=
  if c.loadAuthIdentity grantee = none ∧ grantee ≠ publicName then
    .error ("lite grantee does not exist: " ++ nameText grantee)
  else if c.tableExists o = false then
    .error ("lite privilege object does not exist: " ++ dotted o)
  else
    let c := c.ensureRoot
    let old := (c.privileges[privilegeKey o grantee]?).getD ⟨0, false⟩
    .ok { c with
      privileges := c.privileges.insert (privilegeKey o grantee)
        ⟨old.mask ||| privilegeMask, grantOption || old.grantOption⟩ }.bumpAuthorizationGeneration

def revokePrivilege (grantee : Bytes) : AuthCatalog :=
  match c.privileges[privilegeKey o grantee]? with
  | none => c
  | some old =>
    let mask := old.mask &&& ~~~privilegeMask
    if mask = 0 then
      { c with
        privileges := c.privileges.erase (privilegeKey o grantee) }.bumpAuthorizationGeneration
    else
      { c with
        privileges := c.privileges.insert (privilegeKey o grantee)
          ⟨mask, old.grantOption⟩ }.bumpAuthorizationGeneration

/-- The roles that a membership record gives to a member, in the order of the records. -/
def rolesOf (member : Bytes) : List Bytes :=
  ((c.roles.keys.filterMap roleParts).filter fun p => p.2 == member).map (·.1)

/-- The user and the roles found by the work list of `hasPrivilege`. -/
def principals (user : Bytes) : List Bytes :=
  closure.loop c.rolesOf (c.roles.size + 2) 0 [user]

def grants (principal : Bytes) : Bool :=
  match c.privileges[privilegeKey o principal]? with
  | none => false
  | some privilege => privilege.mask &&& privilegeMask == privilegeMask

def hasPrivilege (user : Bytes) (privilegeMask : UInt32) : Bool :=
  user == rootName || c.owners[ownerKey o]? == some user ||
    (c.principals user ++ [publicName]).any (c.grants o privilegeMask)

/-! ## Tables and schemas -/

def setTableOwner (owner : Bytes) : AuthCatalog :=
  { c with owners := c.owners.insert (ownerKey o) owner }

def createTable (table : LiteTableHead) (owner : Bytes) : Except String AuthCatalog :=
  if c.tableExists table.name = true then
    .error ("lite table already exists: " ++ dotted table.name)
  else
    let c := { c with tables := c.tables.insert (tableKey table.name) table }
    .ok (if owner = [] then c else c.setTableOwner table.name owner)

/-- The record and the owner's record go. -/
def dropTable : Except String AuthCatalog :=
  if c.tableExists o = true then
    .ok { c with tables := c.tables.erase (tableKey o), owners := c.owners.erase (ownerKey o) }
  else .error ("lite table does not exist: " ++ dotted o)

def listPrefix : Bytes :=
  textBytes "table|" ++
    if catalog = [] then [] else catalog ++ bar :: if schema = [] then [] else schema ++ [bar]

def listTables : List LiteTableHead :=
  (c.tables.toList.filter fun p => (listPrefix catalog schema).isPrefixOf p.1).map (·.2)

def schemaText : String :=
  String.ofList (charsOf catalog ++ '.' :: charsOf schema)

/-- A name that is empty fails with no text. -/
def createSchema (ifNotExists : Bool) : Except String AuthCatalog :=
  if catalog = [] ∨ schema = [] then .error ""
  else if c.schemas.contains (schemaKey catalog schema) then
    if ifNotExists then .ok c
    else .error ("lite schema already exists: " ++ schemaText catalog schema)
  else .ok { c with schemas := c.schemas.insert (schemaKey catalog schema) }

/-- A view over a table that goes. -/
def overDropped (dropped : List LiteTableHead) (table : LiteTableHead) : Bool :=
  table.view && !(dropped.any fun d => tableKey d.name == tableKey table.name) &&
    table.dependencies.any fun o => dropped.any fun d => tableKey d.name == tableKey o

/-- One turn of the cascade over all tables. -/
def cascadeTurn (all dropped : List LiteTableHead) : List LiteTableHead :=
  all.foldl (fun dropped table =>
    if overDropped dropped table then dropped ++ [table] else dropped) dropped

/-- Turns until one adds nothing. -/
def cascade (all : List LiteTableHead) : Nat → List LiteTableHead → List LiteTableHead
  | 0, dropped => dropped
  | fuel + 1, dropped =>
    let next := cascadeTurn all dropped
    if next.length = dropped.length then dropped else cascade all fuel next

/-- The tables of the schema and, with CASCADE, the views over them. Only their records go. -/
def dropSchema (ifExists cascades : Bool) : Except String AuthCatalog :=
  if c.schemas.contains (schemaKey catalog schema) = false then
    if ifExists then .ok c
    else .error ("lite schema does not exist: " ++ schemaText catalog schema)
  else
    let tables := c.listTables catalog schema
    let all := c.listTables [] []
    if tables ≠ [] ∧ cascades = false then
      .error ("lite schema is not empty: " ++ schemaText catalog schema)
    else
      let dropped := if cascades then cascade all (all.length + 1) tables else tables
      .ok { c with
        tables := dropped.foldl (fun tables d => tables.erase (tableKey d.name)) c.tables
        schemas := c.schemas.erase (schemaKey catalog schema) }

end

end AuthCatalog

end litestore
