-- What the records about owners, privileges and roles are attached to. As long as
-- every record names a table and identities that exist, a new table or a new
-- identity finds no record that waits for it.
import LiteStore.Authorization

namespace litestore

open Std (ExtTreeMap)
open List

namespace AuthCatalog

variable {c c' : AuthCatalog} {o : ObjectName} {name user role member : Bytes} {mask : UInt32}

/-! ## What hasPrivilege answers -/

theorem mem_rolesOf : role ∈ c.rolesOf member ↔
    ∃ key ∈ c.roles, roleParts key = some (role, member) := by
  unfold rolesOf
  simp only [mem_map, mem_filter, mem_filterMap, beq_iff_eq, ExtTreeMap.mem_keys]
  constructor
  · rintro ⟨⟨r, g⟩, ⟨⟨key, hkey, hparts⟩, rfl⟩, rfl⟩
    exact ⟨key, hkey, hparts⟩
  · rintro ⟨key, hkey, hparts⟩
    exact ⟨(role, member), ⟨⟨key, hkey, hparts⟩, rfl⟩, rfl⟩

/-- The user and all the roles there are: no role leads out of them. -/
def everyRole (c : AuthCatalog) (user : Bytes) : List Bytes :=
  user :: (c.roles.keys.filterMap roleParts).map (·.1)

theorem everyRole_length : (c.everyRole user).length < c.roles.size + 2 := by
  have hfilter := length_filterMap_le roleParts c.roles.keys
  rw [ExtTreeMap.length_keys] at hfilter
  simp only [everyRole, length_cons, length_map]
  omega

theorem rolesOf_subset_everyRole :
    ∀ member ∈ c.everyRole user, c.rolesOf member ⊆ c.everyRole user := by
  intro member _ role hrole
  obtain ⟨key, hkey, hparts⟩ := mem_rolesOf.mp hrole
  apply mem_cons_of_mem
  rw [mem_map]
  exact ⟨(role, member), mem_filterMap.mpr ⟨key, ExtTreeMap.mem_keys.mpr hkey, hparts⟩, rfl⟩

variable {principal g owner : Bytes} {table : LiteTableHead}

/-- The user and the roles that come to the user from role to role. -/
theorem mem_principals : principal ∈ c.principals user ↔
    Relation.ReflTransGen (fun member role => role ∈ c.rolesOf member) user principal :=
  closure.mem_loop_iff rolesOf_subset_everyRole mem_cons_self everyRole_length

/-- The search is over before its turns are used up. -/
theorem principals_eq_loop {turns : Nat} (h : c.roles.size + 2 ≤ turns) :
    closure.loop c.rolesOf turns 0 [user] = c.principals user := by
  obtain ⟨more, rfl⟩ := Nat.exists_eq_add_of_le h
  have hlen : (c.everyRole user).length < c.roles.size + 2 + 0 := everyRole_length
  exact closure.loop_add_fuel rolesOf_subset_everyRole
    (cons_subset.mpr ⟨mem_cons_self, nil_subset _⟩) (nodup_singleton user)
    hlen more

theorem grants_iff : c.grants o mask principal = true ↔
    ∃ privilege, c.privileges[privilegeKey o principal]? = some privilege ∧
      privilege.mask &&& mask = mask := by
  unfold grants
  cases c.privileges[privilegeKey o principal]? with
  | none => simp
  | some privilege => simp

theorem hasPrivilege_iff : c.hasPrivilege o user mask = true ↔
    user = rootName ∨ c.owners[ownerKey o]? = some user ∨
      ∃ principal, (principal ∈ c.principals user ∨ principal = publicName) ∧
        c.grants o mask principal = true := by
  unfold hasPrivilege
  simp only [Bool.or_eq_true, beq_iff_eq, any_eq_true, mem_append, mem_singleton, or_assoc]

/-! ## Records with something to stand on -/

/-- The name of an identity that exists. The root exists before its record does. -/
def Known (c : AuthCatalog) (name : Bytes) : Prop :=
  name = rootName ∨ authKey name ∈ c.identities

/-- No privilege on an object is left. -/
def NoGrants (c : AuthCatalog) (o : ObjectName) : Prop := ∀ g, privilegeKey o g ∉ c.privileges

/-- Every record is about a table and identities that exist. -/
structure Attached (c : AuthCatalog) : Prop where
  names : ∀ name, authKey name ∈ c.identities → name ≠ [] ∧ bar ∉ name
  grants : ∀ key ∈ c.privileges, ∃ o g, key = privilegeKey o g ∧ c.tableExists o = true ∧
    (g = publicName ∨ c.Known g)
  roles : ∀ key ∈ c.roles, ∃ r g, key = roleKey r g ∧ c.Known r ∧ c.Known g
  owners : ∀ key owner : Bytes, c.owners[key]? = some owner → c.Known owner

theorem attached_empty : Attached empty where
  names := by simp [empty]
  grants := by simp [empty]
  roles := by simp [empty]
  owners := by simp [empty]

theorem authKey_inj {a b : Bytes} : authKey a = authKey b ↔ a = b := by simp [authKey]

theorem known_iff : c.Known name ↔ (c.loadAuthIdentity name).isSome := by
  unfold Known loadAuthIdentity ensureRoot
  by_cases hroot : c.identities.contains (authKey rootName) = true
  · rw [if_pos hroot]
    constructor
    · rintro (rfl | h)
      · simpa using hroot
      · simpa using h
    · intro h
      exact .inr (by simpa using h)
  · rw [if_neg hroot]
    rw [ExtTreeMap.isSome_getElem?_iff_mem, ExtTreeMap.mem_insert,
      Std.compare_eq_iff_eq, authKey_inj, eq_comm (a := name)]

theorem not_known_iff : ¬ c.Known name ↔ c.loadAuthIdentity name = none := by
  rw [known_iff, Bool.not_eq_true, Option.isSome_eq_false_iff, Option.isNone_iff_eq_none]

theorem Attached.known_name (h : Attached c) (hname : c.Known name) :
    name ≠ [] ∧ bar ∉ name := by
  rcases hname with rfl | hname
  · decide
  · exact h.names name hname

/-- A name in a grant holds no bar. -/
theorem Attached.grantee_no_bar (h : Attached c) (hg : g = publicName ∨ c.Known g) : bar ∉ g := by
  rcases hg with rfl | hg
  · decide
  · exact (h.known_name hg).2

theorem roleParts_roleKey {r : Bytes} (hr : bar ∉ r) : roleParts (roleKey r g) = some (r, g) :=
  pieces.cut_of_notMem hr

theorem Attached.roleParts (h : Attached c) {key : Bytes} (hkey : key ∈ c.roles) :
    ∃ r g, key = roleKey r g ∧ AuthCatalog.roleParts key = some (r, g) ∧ c.Known r ∧ c.Known g := by
  obtain ⟨r, g, rfl, hr, hg⟩ := h.roles key hkey
  exact ⟨r, g, rfl, roleParts_roleKey (h.known_name hr).2, hr, hg⟩

theorem Attached.of_mem_rolesOf (h : Attached c) (hrole : role ∈ c.rolesOf member) :
    c.Known role ∧ c.Known member := by
  obtain ⟨key, hkey, hparts⟩ := mem_rolesOf.mp hrole
  obtain ⟨r, g, _, hparts', hr, hg⟩ := h.roleParts hkey
  rw [hparts] at hparts'
  cases hparts'
  exact ⟨hr, hg⟩

/-- The tables of a catalog are told apart by the pieces of their names. -/
theorem tableExists_of_pieces {o' : ObjectName} (hpieces : o.pieces = o'.pieces)
    (h : c.tableExists o' = true) : c.tableExists o = true := by
  unfold tableExists at h ⊢
  rw [Bool.or_eq_true] at h
  rcases h with h | h
  · rw [isLiteMetadataTable_of_pieces hpieces h, h, Bool.true_or]
  · have hkey : tableKey o = tableKey o' := objectKey_eq_iff.mpr hpieces
    rw [hkey, h, Bool.or_true]

/-- A grant to a name with no bar is a grant on an object that exists, to a name that exists. -/
theorem Attached.of_grants (h : Attached c) (hg : bar ∉ g) (hgrants : c.grants o mask g = true) :
    c.tableExists o = true ∧ (g = publicName ∨ c.Known g) := by
  obtain ⟨privilege, hget, _⟩ := grants_iff.mp hgrants
  have hmem : privilegeKey o g ∈ c.privileges :=
    ExtTreeMap.isSome_getElem?_iff_mem.mp (by rw [hget]; rfl)
  obtain ⟨o', g', hkey, hexists, hg'⟩ := h.grants _ hmem
  obtain ⟨hpieces, rfl⟩ := (privilegeKey_eq_iff hg (h.grantee_no_bar hg')).mp hkey
  exact ⟨tableExists_of_pieces hpieces hexists, hg'⟩

/-- The principals of a user with no bar have none. -/
theorem Attached.principal_no_bar (h : Attached c) (huser : bar ∉ user)
    (hprincipal : principal ∈ c.principals user) : bar ∉ principal := by
  rw [mem_principals] at hprincipal
  cases hprincipal with
  | refl => exact huser
  | tail _ hrole => exact (h.known_name (h.of_mem_rolesOf hrole).1).2

/-- A name of no identity is its own only principal. -/
theorem Attached.principals_of_not_known (h : Attached c) (hname : ¬ c.Known name)
    (hprincipal : principal ∈ c.principals name) : principal = name := by
  rw [mem_principals] at hprincipal
  rcases Relation.ReflTransGen.cases_head hprincipal with rfl | ⟨role, hrole, _⟩
  · rfl
  · exact absurd (h.of_mem_rolesOf hrole).2 hname

/-! ## One change of a record -/

section

variable (h : Attached c)

include h

theorem Attached.putIdentity (hname : name ≠ [] ∧ bar ∉ name) (identity : LiteAuthIdentity)
    (ids : ExtTreeMap UInt64 Bytes compare) :
    Attached { c with
      identities := c.identities.insert (authKey name) identity
      authIds := ids } := by
  have hknown : ∀ n, c.Known n → Known { c with
      identities := c.identities.insert (authKey name) identity
      authIds := ids } n := by
    rintro n (hn | hn)
    · exact .inl hn
    · exact .inr (ExtTreeMap.mem_insert.mpr (.inr hn))
  constructor
  · intro n hn
    rw [ExtTreeMap.mem_insert, Std.compare_eq_iff_eq, authKey_inj] at hn
    rcases hn with rfl | hn
    · exact hname
    · exact h.names n hn
  · intro key hkey
    obtain ⟨o, g, hgrant, hexists, hg⟩ := h.grants key hkey
    exact ⟨o, g, hgrant, hexists, hg.imp_right (hknown g)⟩
  · intro key hkey
    obtain ⟨r, g, hrole, hr, hg⟩ := h.roles key hkey
    exact ⟨r, g, hrole, hknown r hr, hknown g hg⟩
  · intro key owner howner
    exact hknown owner (h.owners key owner howner)

theorem Attached.ensureRoot : Attached c.ensureRoot := by
  unfold AuthCatalog.ensureRoot
  split
  · exact h
  · exact h.putIdentity (by decide) _ _

theorem Attached.putRole {r : Bytes} (hr : c.Known r) (hg : c.Known g) (adminOption : Bool) :
    Attached { c with roles := c.roles.insert (roleKey r g) adminOption } := { h with
  roles key hkey := by
    rw [ExtTreeMap.mem_insert, Std.compare_eq_iff_eq] at hkey
    rcases hkey with rfl | hkey
    · exact ⟨r, g, rfl, hr, hg⟩
    · exact h.roles key hkey }

theorem Attached.eraseRole (key : Bytes) :
    Attached { c with roles := c.roles.erase key } := { h with
  roles k hk := h.roles k (ExtTreeMap.mem_erase.mp hk).2 }

theorem Attached.putPrivilege (hexists : c.tableExists o = true) (hg : g = publicName ∨ c.Known g)
    (privilege : LitePrivilege) :
    Attached { c with privileges := c.privileges.insert (privilegeKey o g) privilege } := { h with
  grants key hkey := by
    rw [ExtTreeMap.mem_insert, Std.compare_eq_iff_eq] at hkey
    rcases hkey with rfl | hkey
    · exact ⟨o, g, rfl, hexists, hg⟩
    · exact h.grants key hkey }

theorem Attached.erasePrivilege (key : Bytes) :
    Attached { c with privileges := c.privileges.erase key } := { h with
  grants k hk := h.grants k (ExtTreeMap.mem_erase.mp hk).2 }

theorem Attached.putTable (table : LiteTableHead) :
    Attached { c with tables := c.tables.insert (tableKey table.name) table } := { h with
  grants key hkey := by
    obtain ⟨o, g, hgrant, hexists, hg⟩ := h.grants key hkey
    refine ⟨o, g, hgrant, ?_, hg⟩
    unfold tableExists at hexists ⊢
    rw [Bool.or_eq_true] at hexists ⊢
    refine hexists.imp_right fun hcontains => ?_
    rw [ExtTreeMap.contains_insert, hcontains, Bool.or_true] }

theorem Attached.putOwner (howner : c.Known owner) :
    Attached (c.setTableOwner o owner) := { h with
  owners key n hn := by
    unfold setTableOwner at hn
    rw [ExtTreeMap.getElem?_insert] at hn
    split at hn
    · cases hn
      exact howner
    · exact h.owners key n hn }

theorem Attached.eraseOwner (key : Bytes) :
    Attached { c with owners := c.owners.erase key } := { h with
  owners k n hn := by
    rw [ExtTreeMap.getElem?_erase] at hn
    split at hn
    · exact absurd hn (by simp)
    · exact h.owners k n hn }

/-- The record of a table goes when no privilege on the table is left. -/
theorem Attached.eraseTable (hgone : isLiteMetadataTable o = true ∨ c.NoGrants o) :
    Attached { c with tables := c.tables.erase (tableKey o) } := { h with
  grants key hkey := by
    obtain ⟨o', g, rfl, hexists, hg⟩ := h.grants key hkey
    refine ⟨o', g, rfl, ?_, hg⟩
    unfold tableExists at hexists ⊢
    rw [Bool.or_eq_true] at hexists ⊢
    by_cases hpieces : o'.pieces = o.pieces
    · rcases hgone with hmeta | hgone
      · rw [isLiteMetadataTable_of_pieces hpieces hmeta]
        exact .inl hmeta
      · -- the key of the privilege would be the key of one on the table
        have hkeys : privilegeKey o' g = privilegeKey o g := by
          unfold privilegeKey
          rw [objectKey_eq_iff.mpr hpieces]
        exact absurd (hkeys ▸ hkey) (hgone g)
    · refine hexists.imp_right fun hcontains => ?_
      have hne : tableKey o ≠ tableKey o' := fun heq => hpieces (objectKey_eq_iff.mp heq).symm
      simpa [ExtTreeMap.contains_erase, hne] using hcontains }

theorem Attached.bump : Attached c.bumpAuthorizationGeneration := { h with }

theorem Attached.setSchemas (schemas : Std.ExtTreeSet Bytes compare) :
    Attached { c with schemas := schemas } := { h with }

end

theorem granteePart_privilegeKey (hg : bar ∉ g) : granteePart (privilegeKey o g) = g := by
  unfold granteePart privilegeKey
  rw [pieces.splitOn_join, splitOn_eq_singleton hg, getLastD_concat]

theorem Known.erase {identity : Bytes} (h : c.Known name) (hne : name ≠ identity)
    {ids : ExtTreeMap UInt64 Bytes compare} {roles : ExtTreeMap Bytes Bool compare}
    {privileges : ExtTreeMap Bytes LitePrivilege compare} :
    Known { c with
      identities := c.identities.erase (authKey identity)
      authIds := ids
      roles := roles
      privileges := privileges } name := by
  refine h.imp_right fun hmem => ?_
  rw [ExtTreeMap.mem_erase]
  refine ⟨?_, hmem⟩
  rw [ne_eq, Std.compare_eq_iff_eq, authKey_inj]
  exact Ne.symm hne

/-- An identity that owns nothing goes with the records that name it. -/
theorem Attached.eraseIdentity (h : Attached c)
    (howns : ∀ key : Bytes, c.owners[key]? ≠ some name)
    (ids : ExtTreeMap UInt64 Bytes compare) :
    Attached { c with
      identities := c.identities.erase (authKey name)
      authIds := ids
      roles := c.roles.filter fun key _ =>
        let parts := (AuthCatalog.roleParts key).getD ([], [])
        !(parts.1 == name || parts.2 == name)
      privileges := c.privileges.filter fun key _ => granteePart key != name } where
  names n hn := h.names n (ExtTreeMap.mem_erase.mp hn).2
  grants key hkey := by
    obtain ⟨hmem, hleft⟩ := ExtTreeMap.mem_filter.mp hkey
    rw [ExtTreeMap.getKey_eq] at hleft
    obtain ⟨o, g, rfl, hexists, hg⟩ := h.grants key hmem
    rw [granteePart_privilegeKey (h.grantee_no_bar hg), bne_iff_ne] at hleft
    exact ⟨o, g, rfl, hexists, hg.imp_right fun hg => hg.erase hleft⟩
  roles key hkey := by
    obtain ⟨hmem, hleft⟩ := ExtTreeMap.mem_filter.mp hkey
    rw [ExtTreeMap.getKey_eq] at hleft
    obtain ⟨r, g, rfl, hparts, hr, hg⟩ := h.roleParts hmem
    have hne : r ≠ name ∧ g ≠ name := by simpa [hparts] using hleft
    exact ⟨r, g, rfl, hr.erase hne.1, hg.erase hne.2⟩
  owners key owner howner := by
    apply (h.owners key owner howner).erase
    rintro rfl
    exact howns key howner

/-! ## The views over a schema -/

/-- One table is a view over the other. -/
def ViewOver (c : AuthCatalog) (below above : LiteTableHead) : Prop :=
  above ∈ c.listTables [] [] ∧ above.view = true ∧
    ∃ d ∈ above.dependencies, tableKey d = tableKey below.name

/-- A table of the schema, or a view that rests on one. -/
def FallsWith (c : AuthCatalog) (catalog schema : Bytes) (table : LiteTableHead) : Prop :=
  ∃ below ∈ c.listTables catalog schema, Relation.ReflTransGen c.ViewOver below table

section Cascade

variable {catalog schema : Bytes} {all dropped : List LiteTableHead}

theorem fallsWith_of_overDropped (hdropped : ∀ d ∈ dropped, c.FallsWith catalog schema d)
    (htable : table ∈ c.listTables [] []) (hover : overDropped dropped table = true) :
    c.FallsWith catalog schema table := by
  unfold overDropped at hover
  simp only [Bool.and_eq_true, any_eq_true, beq_iff_eq] at hover
  obtain ⟨⟨hview, _⟩, o, ho, d, hd, hkey⟩ := hover
  obtain ⟨below, hbelow, hrests⟩ := hdropped d hd
  exact ⟨below, hbelow, hrests.tail ⟨htable, hview, o, ho, hkey.symm⟩⟩

theorem fallsWith_of_mem_cascadeTurn (hall : all ⊆ c.listTables [] [])
    (hdropped : ∀ d ∈ dropped, c.FallsWith catalog schema d) :
    ∀ d ∈ cascadeTurn all dropped, c.FallsWith catalog schema d := by
  unfold cascadeTurn
  induction all generalizing dropped with
  | nil => exact hdropped
  | cons table all ih =>
    rw [cons_subset] at hall
    apply ih hall.2
    dsimp only
    split
    · rename_i hover
      intro d hd
      rcases mem_append.mp hd with hd | hd
      · exact hdropped d hd
      · rw [mem_singleton] at hd
        exact hd ▸ fallsWith_of_overDropped hdropped hall.1 hover
    · exact hdropped

/-- CASCADE takes no table but those of the schema and the views that rest on them. -/
theorem fallsWith_of_mem_cascade {fuel : Nat} (hall : all ⊆ c.listTables [] [])
    (hdropped : ∀ d ∈ dropped, c.FallsWith catalog schema d) :
    ∀ d ∈ cascade all fuel dropped, c.FallsWith catalog schema d := by
  induction fuel generalizing dropped with
  | zero => exact hdropped
  | succ fuel ih =>
    unfold cascade
    dsimp only
    split
    · exact hdropped
    · exact ih (fallsWith_of_mem_cascadeTurn hall hdropped)

end Cascade

theorem Attached.eraseTables (h : Attached c) {dropped : List LiteTableHead}
    (hgone : ∀ d ∈ dropped, c.NoGrants d.name) :
    Attached { c with
      tables := dropped.foldl (fun tables d => tables.erase (tableKey d.name)) c.tables } := by
  induction dropped generalizing c with
  | nil => exact h
  | cons d dropped ih =>
    rw [forall_mem_cons] at hgone
    exact ih (h.eraseTable (.inr hgone.1)) hgone.2

end AuthCatalog

/-! ## Histories -/

inductive AuthCommand where
  | createTable (table : LiteTableHead) (owner : Bytes)
  | dropTable (o : ObjectName)
  | createSchema (catalog schema : Bytes) (ifNotExists : Bool)
  | dropSchema (catalog schema : Bytes) (ifExists cascades : Bool)
  | createAuthIdentity (name : Bytes) (role ifNotExists : Bool)
  | dropAuthIdentity (name : Bytes) (role ifExists : Bool)
  | grantRole (role grantee : Bytes) (adminOption : Bool)
  | revokeRole (role grantee : Bytes)
  | grantPrivilege (o : ObjectName) (privilegeMask : UInt32) (grantee : Bytes) (grantOption : Bool)
  | revokePrivilege (o : ObjectName) (privilegeMask : UInt32) (grantee : Bytes)

namespace AuthCommand

open AuthCatalog

def run (c : AuthCatalog) : AuthCommand → Except String AuthCatalog
  | createTable table owner => c.createTable table owner
  | dropTable o => c.dropTable o
  | createSchema catalog schema ifNotExists => c.createSchema catalog schema ifNotExists
  | dropSchema catalog schema ifExists cascades => c.dropSchema catalog schema ifExists cascades
  | createAuthIdentity name role ifNotExists => c.createAuthIdentity name role ifNotExists
  | dropAuthIdentity name role ifExists => c.dropAuthIdentity name role ifExists
  | grantRole role grantee adminOption => c.grantRole role grantee adminOption
  | revokeRole role grantee => c.revokeRole role grantee
  | grantPrivilege o mask grantee grantOption => c.grantPrivilege o mask grantee grantOption
  | revokePrivilege o mask grantee => .ok (c.revokePrivilege o mask grantee)

/-- A command that fails leaves the catalog. -/
def after (c : AuthCatalog) (command : AuthCommand) : AuthCatalog :=
  match command.run c with
  | .ok c' => c'
  | .error _ => c

/-- A DROP in front of which the records that it leaves behind were taken back, and a CREATE TABLE
for an identity that exists. -/
def LeavesNothing (c : AuthCatalog) : AuthCommand → Prop
  | createTable _ owner => c.Known owner
  | dropTable o => isLiteMetadataTable o = true ∨ c.NoGrants o
  | dropSchema catalog schema _ cascades =>
    cascades = true → ∀ table, c.FallsWith catalog schema table → c.NoGrants table.name
  | dropAuthIdentity name _ _ => ∀ key : Bytes, c.owners[key]? ≠ some name
  | _ => True

end AuthCommand

open AuthCommand

/-! ## One command -/

namespace AuthCatalog

variable {c c' : AuthCatalog} {o : ObjectName} {name role grantee catalog schema : Bytes}
  {mask : UInt32} {flag flag' : Bool}

theorem Known.ensureRoot (h : c.Known name) : c.ensureRoot.Known name := by
  rw [known_iff] at h
  exact .inr (ExtTreeMap.isSome_getElem?_iff_mem.mp h)

@[simp] theorem ensureRoot_tables : c.ensureRoot.tables = c.tables := by
  unfold ensureRoot
  split <;> rfl

@[simp] theorem ensureRoot_owners : c.ensureRoot.owners = c.owners := by
  unfold ensureRoot
  split <;> rfl

@[simp] theorem ensureRoot_roles : c.ensureRoot.roles = c.roles := by
  unfold ensureRoot
  split <;> rfl

@[simp] theorem ensureRoot_privileges : c.ensureRoot.privileges = c.privileges := by
  unfold ensureRoot
  split <;> rfl

theorem Attached.createAuthIdentity (h : Attached c)
    (hrun : c.createAuthIdentity name flag flag' = .ok c') : Attached c' := by
  unfold AuthCatalog.createAuthIdentity at hrun
  split at hrun
  · cases hrun
  · rename_i hname
    split at hrun
    · split at hrun
      · cases hrun
        exact h.ensureRoot
      · cases hrun
    · cases hrun
      exact (h.ensureRoot.putIdentity (not_or.mp hname) _ _).bump

theorem Attached.dropAuthIdentity (h : Attached c)
    (howns : ∀ key : Bytes, c.owners[key]? ≠ some name)
    (hrun : c.dropAuthIdentity name flag flag' = .ok c') : Attached c' := by
  unfold AuthCatalog.dropAuthIdentity at hrun
  split at hrun
  · split at hrun
    · cases hrun
      exact h.ensureRoot
    · cases hrun
  · split at hrun
    · cases hrun
    · cases hrun
      exact (h.ensureRoot.eraseIdentity (by simpa using howns) _).bump

theorem Attached.grantRole (h : Attached c) (hrun : c.grantRole role grantee flag = .ok c') :
    Attached c' := by
  unfold AuthCatalog.grantRole at hrun
  split at hrun
  · rename_i hrole hgrantee
    split at hrun
    · cases hrun
      have hr : c.Known role := known_iff.mpr (by rw [hrole]; rfl)
      have hg : c.Known grantee := known_iff.mpr (by rw [hgrantee]; rfl)
      exact (h.ensureRoot.putRole hr.ensureRoot hg.ensureRoot flag).bump
    · cases hrun
  · cases hrun

theorem Attached.revokeRole (h : Attached c) (hrun : c.revokeRole role grantee = .ok c') :
    Attached c' := by
  unfold AuthCatalog.revokeRole at hrun
  split at hrun
  · split at hrun
    · cases hrun
      exact (h.ensureRoot.eraseRole _).bump
    · cases hrun
  · cases hrun

theorem Attached.grantPrivilege (h : Attached c)
    (hrun : c.grantPrivilege o mask grantee flag = .ok c') : Attached c' := by
  unfold AuthCatalog.grantPrivilege at hrun
  split at hrun
  · cases hrun
  · rename_i hgrantee
    split at hrun
    · cases hrun
    · rename_i hexists
      cases hrun
      refine (h.ensureRoot.putPrivilege ?_ ?_ _).bump
      · rw [Bool.not_eq_false] at hexists
        simpa [tableExists] using hexists
      · by_cases hpublic : grantee = publicName
        · exact .inl hpublic
        · refine .inr (Known.ensureRoot ?_)
          by_contra hknown
          exact hgrantee ⟨not_known_iff.mp hknown, hpublic⟩

theorem Attached.revokePrivilege (h : Attached c) : Attached (c.revokePrivilege o mask grantee) := by
  unfold AuthCatalog.revokePrivilege
  split
  · exact h
  · rename_i old hold
    dsimp only
    split
    · exact (h.erasePrivilege _).bump
    · have hmem : privilegeKey o grantee ∈ c.privileges :=
        ExtTreeMap.isSome_getElem?_iff_mem.mp (by rw [hold]; rfl)
      -- the key was there before
      obtain ⟨o', g, hkey, hexists, hg⟩ := h.grants _ hmem
      rw [hkey]
      exact (h.putPrivilege hexists hg _).bump

theorem createTable_eq_ok (howner : owner ≠ []) (hrun : c.createTable table owner = .ok c') :
    c.tableExists table.name = false ∧
      c' = setTableOwner { c with tables := c.tables.insert (tableKey table.name) table }
        table.name owner := by
  unfold createTable at hrun
  split at hrun
  · cases hrun
  · rename_i hexists
    cases hrun
    exact ⟨by simpa using hexists, rfl⟩

theorem Attached.createTable (h : Attached c) (howner : c.Known owner)
    (hrun : c.createTable table owner = .ok c') : Attached c' := by
  obtain ⟨_, rfl⟩ := createTable_eq_ok (h.known_name howner).1 hrun
  exact (h.putTable table).putOwner howner

theorem Attached.dropTable (h : Attached c) (hgone : isLiteMetadataTable o = true ∨ c.NoGrants o)
    (hrun : c.dropTable o = .ok c') : Attached c' := by
  unfold AuthCatalog.dropTable at hrun
  split at hrun
  · cases hrun
    exact (h.eraseTable hgone).eraseOwner _
  · cases hrun

theorem Attached.createSchema (h : Attached c)
    (hrun : c.createSchema catalog schema flag = .ok c') : Attached c' := by
  unfold AuthCatalog.createSchema at hrun
  split at hrun
  · cases hrun
  · split at hrun
    · split at hrun
      · cases hrun
        exact h
      · cases hrun
    · cases hrun
      exact h.setSchemas _

theorem Attached.dropSchema (h : Attached c)
    (hgone : flag' = true → ∀ table, c.FallsWith catalog schema table → c.NoGrants table.name)
    (hrun : c.dropSchema catalog schema flag flag' = .ok c') : Attached c' := by
  unfold AuthCatalog.dropSchema at hrun
  split at hrun
  · split at hrun
    · cases hrun
      exact h
    · cases hrun
  · dsimp only at hrun
    split at hrun
    · cases hrun
    · rename_i hempty
      cases hrun
      refine (h.eraseTables ?_).setSchemas _
      intro d hd
      cases flag' with
      | false =>
        -- without CASCADE the schema has no table
        have hnone : c.listTables catalog schema = [] := by
          by_contra hsome
          exact hempty ⟨hsome, rfl⟩
        rw [if_neg Bool.false_ne_true, hnone] at hd
        simp at hd
      | true =>
        apply hgone rfl d
        rw [if_pos rfl] at hd
        apply fallsWith_of_mem_cascade (List.Subset.refl _) _ d hd
        intro table htable
        exact ⟨table, htable, .refl⟩

/-- A new table has the privileges of its owner and of the root. -/
theorem Attached.privileges_of_new_table (h : Attached c) (howner : c.Known owner)
    (hrun : c.createTable table owner = .ok c') {user : Bytes} (huser : bar ∉ user)
    (hhas : c'.hasPrivilege table.name user mask = true) : user = rootName ∨ user = owner := by
  obtain ⟨hfresh, hc'⟩ := createTable_eq_ok (h.known_name howner).1 hrun
  rw [hasPrivilege_iff] at hhas
  rcases hhas with hroot | howns | ⟨principal, hprincipal, hgrants⟩
  · exact .inl hroot
  · right
    rw [hc', setTableOwner, ExtTreeMap.getElem?_insert_self] at howns
    exact (Option.some.inj howns).symm
  · -- the roles and the privileges are those in front of the creation
    have hroles : c'.principals user = c.principals user := by rw [hc']; rfl
    have hgrants' : c.grants table.name mask principal = true := by rw [hc'] at hgrants; exact hgrants
    have hbar : bar ∉ principal := by
      rcases hprincipal with hprincipal | rfl
      · exact h.principal_no_bar huser (hroles ▸ hprincipal)
      · decide
    have hexists := (h.of_grants hbar hgrants').1
    rw [hfresh] at hexists
    exact absurd hexists Bool.false_ne_true

theorem createAuthIdentity_eq_ok (hnone : c.loadAuthIdentity name = none)
    (hrun : c.createAuthIdentity name flag flag' = .ok c') :
    bar ∉ name ∧ c'.owners = c.owners ∧ c'.roles = c.roles ∧ c'.privileges = c.privileges := by
  unfold createAuthIdentity at hrun
  split at hrun
  · cases hrun
  · rename_i hname
    rw [hnone] at hrun
    cases hrun
    exact ⟨(not_or.mp hname).2, by simp [bumpAuthorizationGeneration]⟩

/-- A new identity owns nothing, is member of no role, and has the privileges of the public. -/
theorem Attached.privileges_of_new_identity (h : Attached c)
    (hnone : c.loadAuthIdentity name = none)
    (hrun : c.createAuthIdentity name flag flag' = .ok c') :
    (∀ o mask, c'.hasPrivilege o name mask = true → c'.grants o mask publicName = true) ∧
      (∀ key : Bytes, c'.owners[key]? ≠ some name) ∧ c'.rolesOf name = [] := by
  obtain ⟨hbar, howners, hroles, hprivileges⟩ := createAuthIdentity_eq_ok hnone hrun
  have hnew : ¬ c.Known name := not_known_iff.mpr hnone
  have howns : ∀ key : Bytes, c'.owners[key]? ≠ some name := by
    intro key howns
    rw [howners] at howns
    exact hnew (h.owners key name howns)
  refine ⟨?_, howns, ?_⟩
  · intro o mask hhas
    rw [hasPrivilege_iff] at hhas
    rcases hhas with hroot | hown | ⟨principal, hprincipal, hgrants⟩
    · exact absurd (.inl hroot) hnew
    · exact absurd hown (howns (ownerKey o))
    · rcases hprincipal with hprincipal | rfl
      · have hsame : c'.principals name = c.principals name := by
          unfold principals rolesOf
          rw [hroles]
        have hself := h.principals_of_not_known hnew (hsame ▸ hprincipal)
        subst hself
        have hgrants' : c.grants o mask principal = true := by
          unfold AuthCatalog.grants at hgrants ⊢
          rw [hprivileges] at hgrants
          exact hgrants
        rcases (h.of_grants hbar hgrants').2 with rfl | hknown
        · exact hgrants
        · exact absurd hknown hnew
      · exact hgrants
  · rw [eq_nil_iff_forall_not_mem]
    intro role hrole
    have hrole' : role ∈ c.rolesOf name := by
      unfold rolesOf at hrole ⊢
      rw [hroles] at hrole
      exact hrole
    exact hnew (h.of_mem_rolesOf hrole').2

end AuthCatalog

/-! ## Whole histories -/

open AuthCatalog

theorem AuthCommand.attached_after {c : AuthCatalog} {command : AuthCommand} (h : Attached c)
    (hleaves : command.LeavesNothing c) : Attached (command.after c) := by
  unfold after
  cases hrun : command.run c with
  | error e => exact h
  | ok c' =>
    cases command with
    | createTable table owner => exact h.createTable hleaves hrun
    | dropTable o => exact h.dropTable hleaves hrun
    | createSchema catalog schema ifNotExists => exact h.createSchema hrun
    | dropSchema catalog schema ifExists cascades => exact h.dropSchema hleaves hrun
    | createAuthIdentity name role ifNotExists => exact h.createAuthIdentity hrun
    | dropAuthIdentity name role ifExists => exact h.dropAuthIdentity hleaves hrun
    | grantRole role grantee adminOption => exact h.grantRole hrun
    | revokeRole role grantee => exact h.revokeRole hrun
    | grantPrivilege o mask grantee grantOption => exact h.grantPrivilege hrun
    | revokePrivilege o mask grantee =>
      cases hrun
      exact h.revokePrivilege

/-- The catalog behind a history. -/
def catalogAfter (history : List AuthCommand) : AuthCatalog :=
  history.foldl after AuthCatalog.empty

/-- Every command of a history meets the condition where it runs. -/
def LeavesNothingFrom (c : AuthCatalog) : List AuthCommand → Prop
  | [] => True
  | command :: rest => command.LeavesNothing c ∧ LeavesNothingFrom (command.after c) rest

theorem attached_foldl {c : AuthCatalog} {history : List AuthCommand} (h : Attached c)
    (hleaves : LeavesNothingFrom c history) : Attached (history.foldl after c) := by
  induction history generalizing c with
  | nil => exact h
  | cons command rest ih => exact ih (attached_after h hleaves.1) hleaves.2

/-- What a CREATE that took a catalog to the next one promises. The name of a user holds no bar:
`createAuthIdentity` refuses it. -/
def FreshLaw (c : AuthCatalog) (command : AuthCommand) (c' : AuthCatalog) : Prop :=
  match command with
  | .createTable table owner => ∀ user mask, bar ∉ user →
    c'.hasPrivilege table.name user mask = true → user = rootName ∨ user = owner
  | .createAuthIdentity name _ _ => c.loadAuthIdentity name = none →
    (∀ o mask, c'.hasPrivilege o name mask = true → c'.grants o mask publicName = true) ∧
      (∀ key : Bytes, c'.owners[key]? ≠ some name) ∧ c'.rolesOf name = []
  | _ => True

/-- Behind a history whose DROPs leave no record behind, a new table has the privileges of its
owner and of the root, and a new identity those of the public. -/
theorem privileges_end_with_their_object (history : List AuthCommand) (command : AuthCommand)
    (c' : AuthCatalog) (hhistory : LeavesNothingFrom AuthCatalog.empty history)
    (hcommand : command.LeavesNothing (catalogAfter history))
    (hrun : command.run (catalogAfter history) = .ok c') :
    FreshLaw (catalogAfter history) command c' := by
  have h : Attached (catalogAfter history) := attached_foldl attached_empty hhistory
  cases command with
  | createTable table owner =>
    intro user mask huser hhas
    exact h.privileges_of_new_table hcommand hrun huser hhas
  | createAuthIdentity name role ifNotExists =>
    intro hnone
    exact h.privileges_of_new_identity hnone hrun
  | _ => trivial

/-- A table of the schema `S`. -/
def grantedTable : LiteTableHead :=
  ⟨⟨textBytes "C", textBytes "S", textBytes "T"⟩, false, []⟩

/-- `U` makes the table and lets `V` use it. -/
def grantHistory : List AuthCommand :=
  [.createAuthIdentity (textBytes "U") false false, .createAuthIdentity (textBytes "V") false false,
    .createTable grantedTable (textBytes "U"), .grantPrivilege grantedTable.name 1 (textBytes "V") false]

/-- The grant is taken back in front of the DROP. -/
def revokeHistory : List AuthCommand :=
  grantHistory ++
    [.revokePrivilege grantedTable.name 1 (textBytes "V"), .dropTable grantedTable.name]

/-- The new table of the root is the root's. -/
theorem revoked_grant_ends :
    FreshLaw (catalogAfter revokeHistory) (.createTable grantedTable rootName)
      ((createTable grantedTable rootName).after (catalogAfter revokeHistory)) := by
  refine privileges_end_with_their_object revokeHistory _ _ ?_ (.inl rfl) rfl
  refine ⟨trivial, trivial, .inr (by decide +kernel), trivial, trivial, .inr ?_, trivial⟩
  intro g
  have hempty : (catalogAfter (grantHistory ++
      [.revokePrivilege grantedTable.name 1 (textBytes "V")])).privileges.isEmpty = true := by
    decide +kernel
  have hnone := ExtTreeMap.isEmpty_iff.mp hempty
  exact hnone ▸ ExtTreeMap.not_mem_empty

/-- A grant outlives a dropped table, and an owner's record a dropped user: `V` may use the new
table of the root, and the new `U` owns what the old `U` made. -/
theorem records_outlive_a_drop :
    (∃ c', (createTable grantedTable rootName).run
        (catalogAfter (grantHistory ++ [.dropTable grantedTable.name])) = .ok c' ∧
      ¬ FreshLaw (catalogAfter (grantHistory ++ [.dropTable grantedTable.name]))
        (.createTable grantedTable rootName) c') ∧
    ∃ c', (createAuthIdentity (textBytes "U") false false).run
        (catalogAfter (grantHistory ++ [.dropAuthIdentity (textBytes "U") false false])) = .ok c' ∧
      ¬ FreshLaw (catalogAfter (grantHistory ++ [.dropAuthIdentity (textBytes "U") false false]))
        (.createAuthIdentity (textBytes "U") false false) c' := by
  refine ⟨⟨_, rfl, ?_⟩, ⟨_, rfl, ?_⟩⟩
  · intro h
    have hlaw := h (textBytes "V") 1 (by decide) (by decide +kernel)
    exact absurd hlaw (by decide)
  · intro h
    have hlaw := (h (by decide +kernel)).2.1 (ownerKey grantedTable.name)
    exact hlaw (by decide +kernel)

end litestore
