-- What hasPrivilege answers against the meaning of roles: a user may do what the
-- user, PUBLIC and the roles that come to the user may do together. The search
-- finds all of them, and then asks each one alone for the whole mask.
import LiteStore.AuthorizationLaws

namespace litestore

namespace AuthCatalog

variable {c : AuthCatalog} {o : ObjectName} {user principal : Bytes} {mask m₁ m₂ : UInt32}

/-! ## The meaning of roles -/

section

variable (c : AuthCatalog) (o : ObjectName) (user principal : Bytes) (mask : UInt32)

/-- A membership record gives the role to the member. -/
def RoleEdge (member role : Bytes) : Prop :=
  ∃ key ∈ c.roles, roleParts key = some (role, member)

/-- A user acts as PUBLIC, as itself, and as every role that comes to it from role to role. -/
def ActsAs : Prop :=
  principal = publicName ∨ Relation.ReflTransGen c.RoleEdge user principal

/-- The bits of a mask. -/
def HasBit (i : Nat) : Prop := mask.toBitVec.getLsbD i = true

/-- A principal holds one bit on an object. -/
def HoldsBit (i : Nat) : Prop :=
  ∃ privilege, c.privileges[privilegeKey o principal]? = some privilege ∧ HasBit privilege.mask i

/-- A principal alone holds a whole mask. -/
def HoldsMask : Prop :=
  ∃ privilege, c.privileges[privilegeKey o principal]? = some privilege ∧
    ∀ i, HasBit mask i → HasBit privilege.mask i

/-- The root and the owner of an object need no grant. -/
def NeedsNoGrant : Prop :=
  user = rootName ∨ c.owners[ownerKey o]? = some user

/-- Every bit is held by someone the user acts as. -/
def HeldTogether : Prop :=
  ∀ i, HasBit mask i → ∃ principal, c.ActsAs user principal ∧ c.HoldsBit o principal i

/-- The privileges of a user over all its roles. -/
def RoleClosure : Prop :=
  c.NeedsNoGrant o user ∨ c.HeldTogether o user mask

/-- A mask that those the user acts as hold together, and none of them alone. -/
def Scattered : Prop :=
  ¬ c.NeedsNoGrant o user ∧ c.HeldTogether o user mask ∧
    ¬ ∃ principal, c.ActsAs user principal ∧ c.HoldsMask o principal mask

end

/-- `hasPrivilege` is the role closure for two masks and their union, the union is allowed when
both are, and the search for the roles ends. -/
structure RoleClosureLaw (c : AuthCatalog) (o : ObjectName) (user : Bytes) (m₁ m₂ : UInt32) :
    Prop where
  answers : ∀ m ∈ [m₁, m₂, m₁ ||| m₂], c.hasPrivilege o user m = true ↔ c.RoleClosure o user m
  union : c.hasPrivilege o user (m₁ ||| m₂) =
    (c.hasPrivilege o user m₁ && c.hasPrivilege o user m₂)
  ends : ∀ turns, c.roles.size + 2 ≤ turns →
    closure.loop c.rolesOf turns 0 [user] = c.principals user

/-! ## What the search and the test find -/

theorem hasBit_or {i : Nat} : HasBit (m₁ ||| m₂) i ↔ HasBit m₁ i ∨ HasBit m₂ i := by
  simp [HasBit]

theorem and_eq_iff_bits {held : UInt32} :
    held &&& mask = mask ↔ ∀ i, HasBit mask i → HasBit held i := by
  constructor
  · intro h i hi
    rw [← h] at hi
    simp only [HasBit, UInt32.toBitVec_and, BitVec.getLsbD_and, Bool.and_eq_true] at hi
    exact hi.1
  · intro h
    rw [← UInt32.toBitVec_inj, UInt32.toBitVec_and]
    apply BitVec.eq_of_getLsbD_eq
    intro i _
    rw [BitVec.getLsbD_and]
    cases hi : mask.toBitVec.getLsbD i with
    | false => exact Bool.and_false _
    | true => exact (Bool.and_true _).trans (h i hi)

theorem grants_iff_holdsMask : c.grants o mask principal = true ↔ c.HoldsMask o principal mask := by
  rw [grants_iff]
  unfold HoldsMask
  simp only [and_eq_iff_bits]

theorem mem_principals_or_public :
    (principal ∈ c.principals user ∨ principal = publicName) ↔ c.ActsAs user principal := by
  have hedge : (fun member role => role ∈ c.rolesOf member) = c.RoleEdge := by
    funext member role
    exact propext mem_rolesOf
  rw [mem_principals, hedge, ActsAs, or_comm]

/-- The test asks for one principal that holds the whole mask. -/
theorem hasPrivilege_iff_alone : c.hasPrivilege o user mask = true ↔
    c.NeedsNoGrant o user ∨ ∃ principal, c.ActsAs user principal ∧
      c.HoldsMask o principal mask := by
  rw [hasPrivilege_iff, NeedsNoGrant, or_assoc]
  simp only [mem_principals_or_public, grants_iff_holdsMask]

theorem HoldsMask.together (hacts : c.ActsAs user principal)
    (h : c.HoldsMask o principal mask) : c.HeldTogether o user mask := by
  obtain ⟨privilege, hrecord, hbits⟩ := h
  intro i hi
  exact ⟨principal, hacts, privilege, hrecord, hbits i hi⟩

theorem roleClosure_of_hasPrivilege (h : c.hasPrivilege o user mask = true) :
    c.RoleClosure o user mask := by
  rcases hasPrivilege_iff_alone.mp h with h | ⟨principal, hacts, hholds⟩
  · exact .inl h
  · exact .inr (hholds.together hacts)

theorem answers_iff : (c.hasPrivilege o user mask = true ↔ c.RoleClosure o user mask) ↔
    ¬ c.Scattered o user mask := by
  constructor
  · rintro h ⟨hneeds, htogether, halone⟩
    rcases hasPrivilege_iff_alone.mp (h.mpr (.inr htogether)) with hno | hone
    · exact hneeds hno
    · exact halone hone
  · intro h
    refine ⟨roleClosure_of_hasPrivilege, fun hclosure => ?_⟩
    rw [hasPrivilege_iff_alone]
    by_contra hno
    rw [not_or] at hno
    rcases hclosure with hneeds | htogether
    · exact hno.1 hneeds
    · exact h ⟨hno.1, htogether, hno.2⟩

/-- The role closure takes a union apart. -/
theorem roleClosure_or : c.RoleClosure o user (m₁ ||| m₂) ↔
    c.RoleClosure o user m₁ ∧ c.RoleClosure o user m₂ := by
  unfold RoleClosure HeldTogether
  rw [← or_and_left]
  simp only [hasBit_or, or_imp, forall_and]

/-! ## When the answer is the role closure -/

/-- `hasPrivilege` answers by the role closure exactly when no mask is scattered over several
principals. -/
theorem has_privilege_is_role_closure_iff (c : AuthCatalog) (o : ObjectName) (user : Bytes)
    (m₁ m₂ : UInt32) :
    c.RoleClosureLaw o user m₁ m₂ ↔
      ∀ m ∈ [m₁, m₂, m₁ ||| m₂], ¬ c.Scattered o user m := by
  constructor
  · intro h m hm
    exact answers_iff.mp (h.answers m hm)
  · intro h
    have hanswers : ∀ m ∈ [m₁, m₂, m₁ ||| m₂],
        (c.hasPrivilege o user m = true ↔ c.RoleClosure o user m) :=
      fun m hm => answers_iff.mpr (h m hm)
    refine ⟨hanswers, ?_, fun turns => principals_eq_loop⟩
    rw [Bool.eq_iff_iff, Bool.and_eq_true, hanswers m₁ (by simp), hanswers m₂ (by simp),
      hanswers (m₁ ||| m₂) (by simp), roleClosure_or]

end AuthCatalog

/-- The table of `U` of which `V` may read the rows itself and change them by its role. -/
def scatteredHistory : List AuthCommand :=
  grantHistory ++ [.createAuthIdentity (textBytes "R") true false,
    .grantRole (textBytes "R") (textBytes "V") false,
    .grantPrivilege grantedTable.name 2 (textBytes "R") false]

/-- `V` may do each of the two things and, asked for both at once, is turned away. -/
theorem two_grants_do_not_add_up :
    (catalogAfter scatteredHistory).RoleClosure grantedTable.name (textBytes "V") (1 ||| 2) ∧
      (catalogAfter scatteredHistory).hasPrivilege grantedTable.name (textBytes "V") (1 ||| 2) =
        false ∧
      ¬ (catalogAfter scatteredHistory).RoleClosureLaw grantedTable.name (textBytes "V") 1 2 := by
  have hone : (catalogAfter scatteredHistory).hasPrivilege grantedTable.name (textBytes "V") 1 =
      true := by
    decide +kernel
  have htwo : (catalogAfter scatteredHistory).hasPrivilege grantedTable.name (textBytes "V") 2 =
      true := by
    decide +kernel
  have hboth : (catalogAfter scatteredHistory).hasPrivilege grantedTable.name (textBytes "V")
      (1 ||| 2) = false := by
    decide +kernel
  refine ⟨?_, hboth, fun h => ?_⟩
  · rw [AuthCatalog.roleClosure_or]
    exact ⟨AuthCatalog.roleClosure_of_hasPrivilege hone,
      AuthCatalog.roleClosure_of_hasPrivilege htwo⟩
  · have hunion := h.union
    rw [hone, htwo, hboth] at hunion
    cases hunion

end litestore
