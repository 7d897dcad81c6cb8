-- The user of a session. SET SESSION AUTHORIZATION puts the name into the session
-- and asks for the identity behind it.
import LiteStore.AuthorizationLaws
import LiteStore.T4Parameters
import LiteStore.T4Statements

namespace litestore

/-! ## Reading a statement -/

def upperBytes (s : Bytes) : Bytes := s.map toupper

def sqlStartsWithWord (sql : Bytes) (word : String) : Bool :=
  upperBytes (sql.take word.length) == textBytes word &&
    (sql.drop word.length).head?.all sqltext.isSpace

def unquoteIdentifier (name : Bytes) : Bytes :=
  if 2 ≤ name.length ∧ name.head? = some 34 ∧ name.getLast? = some 34 then name.tail.dropLast
  else upperBytes name

/-- `liteNextToken` at the beginning of a text. -/
def liteNextToken (text : Bytes) : Bytes :=
  (text.dropWhile sqltext.isSpace).takeWhile fun c =>
    !(sqltext.isSpace c || c == 44 || c == 59 || c == 41)

def liteStripIdentifier (token : Bytes) : Bytes :=
  unquoteIdentifier ((trimT4 token).rdropWhile fun c => c == 59 || c == 44)

/-- The optional words behind `CREATE USER` and its kin, and the name. -/
def identityName (optional : String) (rest : Bytes) : Bool × Bytes :=
  if upperBytes ((trimT4 rest).take optional.length) = textBytes optional then
    (true, liteStripIdentifier (liteNextToken (trimT4 ((trimT4 rest).drop optional.length))))
  else (false, liteStripIdentifier (liteNextToken (trimT4 rest)))

/-- The statement without the blanks at its ends and the semicolons behind it. -/
def statementText (sqlText : Bytes) : Bytes :=
  (trimT4 sqlText).rdropWhile fun c => c == 59 || sqltext.isSpace c

/-! ## The session -/

/-- What is read of a `SqlciEnv`, with the catalog of the store. -/
structure Session where
  catalog : AuthCatalog
  userName : Bytes

/-- A statement, and whether `SQL_EXEC_SetSessionAttr_Internal` takes the user if it is asked. -/
structure SessionStatement where
  sqlText : Bytes
  attributeSet : Bool

/-- The statements that are not about identities. They leave the identities as they are, up to the
record of the root. -/
structure OtherStatements where
  process : Session → Bytes → AuthCatalog × Option String
  keeps : ∀ s sql, (process s sql).1.ensureRoot.identities = s.catalog.ensureRoot.identities

namespace Session

def liteCurrentUser (s : Session) : Bytes :=
  if s.userName = [] then rootName else upperBytes s.userName

/-- The identity of the user is there and is not a role. -/
def ValidUser (s : Session) : Prop :=
  ((s.catalog.loadAuthIdentity s.liteCurrentUser).any fun identity => !identity.role) = true

instance (s : Session) : Decidable s.ValidUser := inferInstanceAs (Decidable (_ = true))

def setCurrentUser (s : Session) (attributeSet : Bool) : Bool :=
  decide s.ValidUser && attributeSet

/-- A change of the catalog that may be refused. -/
def update (s : Session) : Except String AuthCatalog → Session × Option String
  | .ok catalog => ({ s with catalog }, none)
  | .error text => (s, some text)

/-- `LiteSqlTable_process` with `liteAuthorizeSql`: the session and the error. -/
def process (s : Session) (others : OtherStatements) (x : SessionStatement) :
    Session × Option String :=
  let sql := statementText x.sqlText
  let root := s.liteCurrentUser = rootName
  if sql = [] then (s, none)
  else if sqlStartsWithWord sql "CREATE USER" || sqlStartsWithWord sql "CREATE ROLE" then
    let name := identityName "IF NOT EXISTS" (sql.drop 11)
    if ¬ root then (s, some "only DB__ROOT may create authorization identities")
    else if name.2 = [] then (s, some "invalid lite authorization identity")
    else s.update (s.catalog.createAuthIdentity name.2 (sqlStartsWithWord sql "CREATE ROLE") name.1)
  else if sqlStartsWithWord sql "DROP USER" || sqlStartsWithWord sql "DROP ROLE" then
    let name := identityName "IF EXISTS" (sql.drop 9)
    if ¬ root then (s, some "only DB__ROOT may drop authorization identities")
    else if name.2 = [] then (s, some "invalid lite authorization identity")
    else s.update (s.catalog.dropAuthIdentity name.2 (sqlStartsWithWord sql "DROP ROLE") name.1)
  else if sqlStartsWithWord sql "SET SESSION AUTHORIZATION" then
    let name := liteStripIdentifier (trimT4 (sql.drop 25))
    if name = [] then (s, some "invalid lite session authorization")
    else
      let s := { s with userName := name }
      if s.setCurrentUser x.attributeSet then (s, none)
      else (s, some ("unknown lite authorization identity: " ++ nameText name))
  else ({ s with catalog := (others.process s sql).1 }, (others.process s sql).2)

end Session

/-- The name in a SET SESSION AUTHORIZATION. -/
def sessionName (x : SessionStatement) : Option Bytes :=
  if sqlStartsWithWord (statementText x.sqlText) "SET SESSION AUTHORIZATION" then
    some (liteStripIdentifier (trimT4 ((statementText x.sqlText).drop 25)))
  else none

/-- After each statement the user is valid, and a SET SESSION AUTHORIZATION that reports an error
has left the user. -/
def KeepsIdentity (others : OtherStatements) : Session → List SessionStatement → Prop
  | _, [] => True
  | s, x :: rest =>
    (s.process others x).1.ValidUser ∧
    (sessionName x ≠ none → (s.process others x).2 ≠ none →
      (s.process others x).1.liteCurrentUser = s.liteCurrentUser) ∧
    KeepsIdentity others (s.process others x).1 rest

/-- The name that is put in, in capital letters, is one of a user, and the executor takes the user
or has it already. -/
def NamesUser (s : Session) (x : SessionStatement) : Prop :=
  ∀ name ∈ sessionName x, name ≠ [] →
    Session.ValidUser { s with userName := name } ∧
      (x.attributeSet = true ∨ upperBytes name = s.liteCurrentUser)

/-- Each statement names a user where it names one. -/
def AllNameUsers (others : OtherStatements) : Session → List SessionStatement → Prop
  | _, [] => True
  | s, x :: rest => NamesUser s x ∧ AllNameUsers others (s.process others x).1 rest

/-! ## One statement -/

namespace AuthCatalog

variable {c c' : AuthCatalog} {name : Bytes} {role flag : Bool}

theorem root_mem_ensureRoot (c : AuthCatalog) : authKey rootName ∈ c.ensureRoot.identities := by
  unfold ensureRoot
  split
  · assumption
  · simp

theorem loadAuthIdentity_of_root (h : authKey rootName ∈ c.identities) (name : Bytes) :
    c.loadAuthIdentity name = c.identities[authKey name]? := by
  rw [loadAuthIdentity, ensureRoot, if_pos (Std.ExtTreeMap.mem_iff_contains.mp h)]

theorem createAuthIdentity_root (h : c.createAuthIdentity name role flag = .ok c') :
    c'.loadAuthIdentity rootName = c.loadAuthIdentity rootName := by
  have hroot := root_mem_ensureRoot c
  unfold createAuthIdentity at h
  split at h
  · cases h
  · split at h
    · split at h
      · cases h
        exact loadAuthIdentity_of_root hroot rootName
      · cases h
    · rename_i hnone
      cases h
      have hne : authKey name ≠ authKey rootName := by
        intro heq
        rw [loadAuthIdentity, heq] at hnone
        simp [hroot] at hnone
      rw [loadAuthIdentity_of_root (by simp [bumpAuthorizationGeneration, hroot])]
      simp [bumpAuthorizationGeneration, Std.ExtTreeMap.getElem?_insert, hne, loadAuthIdentity]

theorem dropAuthIdentity_root (h : c.dropAuthIdentity name role flag = .ok c') :
    c'.loadAuthIdentity rootName = c.loadAuthIdentity rootName := by
  have hroot := root_mem_ensureRoot c
  unfold dropAuthIdentity at h
  split at h
  · split at h
    · cases h
      exact loadAuthIdentity_of_root hroot rootName
    · cases h
  · split at h
    · cases h
    · rename_i hname
      cases h
      have hne : authKey name ≠ authKey rootName := fun heq =>
        hname (.inr (authKey_inj.mp heq))
      rw [loadAuthIdentity_of_root (by simp [bumpAuthorizationGeneration, hroot, hne])]
      simp [bumpAuthorizationGeneration, Std.ExtTreeMap.getElem?_erase, hne, loadAuthIdentity]

end AuthCatalog

namespace Session

variable {s t : Session} {others : OtherStatements} {x : SessionStatement}

theorem ValidUser.of_identity (h : s.ValidUser) (huser : t.userName = s.userName)
    (hload : t.catalog.loadAuthIdentity s.liteCurrentUser =
      s.catalog.loadAuthIdentity s.liteCurrentUser) : t.ValidUser := by
  have hcurrent : t.liteCurrentUser = s.liteCurrentUser := by simp [liteCurrentUser, huser]
  unfold ValidUser
  rw [hcurrent, hload]
  exact h

/-- The root changes the identities, and the identity of the root stays. -/
theorem ValidUser.update (h : s.ValidUser) (hroot : s.liteCurrentUser = rootName)
    {change : Except String AuthCatalog}
    (hchange : ∀ c, change = .ok c → c.loadAuthIdentity rootName =
      s.catalog.loadAuthIdentity rootName) : (s.update change).1.ValidUser := by
  cases hc : change with
  | error text => exact h
  | ok c =>
    refine h.of_identity rfl ?_
    rw [hroot]
    exact hchange c hc

theorem liteCurrentUser_of_ne {name : Bytes} (h : name ≠ []) :
    liteCurrentUser { s with userName := name } = upperBytes name := if_neg h

/-- What a statement that begins with a word begins with. -/
theorem sqlStartsWithWord_head {sql : Bytes} {word : String} (h : sqlStartsWithWord sql word = true)
    (hword : word.length ≠ 0) : (upperBytes sql).head? = (textBytes word).head? := by
  simp only [sqlStartsWithWord, Bool.and_eq_true, beq_iff_eq] at h
  rw [← h.1]
  simp [upperBytes, List.head?_take, hword]

theorem process_set {name : Bytes} (h : sessionName x = some name) :
    s.process others x = if name = [] then (s, some "invalid lite session authorization")
      else if setCurrentUser { s with userName := name } x.attributeSet then
        ({ s with userName := name }, none)
      else ({ s with userName := name },
        some ("unknown lite authorization identity: " ++ nameText name)) := by
  obtain ⟨hset, rfl⟩ :
      sqlStartsWithWord (statementText x.sqlText) "SET SESSION AUTHORIZATION" = true ∧
      liteStripIdentifier (trimT4 ((statementText x.sqlText).drop 25)) = name := by
    simpa only [sessionName, Option.ite_none_right_eq_some, Option.some.injEq] using h
  have hhead := sqlStartsWithWord_head hset (by decide)
  -- the first letter tells the kinds of statements apart
  have hapart : ∀ word : String, word.length ≠ 0 → (textBytes word).head? ≠ some 83 →
      sqlStartsWithWord (statementText x.sqlText) word = false := by
    intro word hword hne
    by_contra hstart
    rw [sqlStartsWithWord_head (Bool.eq_true_of_not_eq_false hstart) hword] at hhead
    exact hne hhead
  have hsome : statementText x.sqlText ≠ [] := by
    intro hnil
    rw [hnil] at hhead
    exact absurd hhead (by decide)
  simp [process, hsome, hset, hapart "CREATE USER" (by decide) (by decide),
    hapart "CREATE ROLE" (by decide) (by decide), hapart "DROP USER" (by decide) (by decide),
    hapart "DROP ROLE" (by decide) (by decide)]

theorem process_other (h : sessionName x = none) (hs : s.ValidUser) :
    (s.process others x).1.ValidUser := by
  have hset : sqlStartsWithWord (statementText x.sqlText) "SET SESSION AUTHORIZATION" = false := by
    simpa [sessionName] using h
  simp only [process, hset, Bool.false_eq_true, if_false]
  split
  · exact hs
  · split
    · split
      · exact hs
      · rename_i hroot
        split
        · exact hs
        · exact hs.update (not_not.mp hroot) fun c hc => AuthCatalog.createAuthIdentity_root hc
    · split
      · split
        · exact hs
        · rename_i hroot
          split
          · exact hs
          · exact hs.update (not_not.mp hroot) fun c hc => AuthCatalog.dropAuthIdentity_root hc
      · refine hs.of_identity rfl ?_
        simp only [AuthCatalog.loadAuthIdentity, others.keeps]

/-- One statement keeps the two laws exactly if it names a user where it names one. -/
theorem process_keeps_iff (hs : s.ValidUser) :
    ((s.process others x).1.ValidUser ∧
      (sessionName x ≠ none → (s.process others x).2 ≠ none →
        (s.process others x).1.liteCurrentUser = s.liteCurrentUser)) ↔ NamesUser s x := by
  cases hname : sessionName x with
  | none => simp [NamesUser, hname, process_other hname hs]
  | some name =>
    rw [process_set hname, NamesUser, hname]
    by_cases hempty : name = []
    · simp [hempty, hs]
    · have hcurrent := @liteCurrentUser_of_ne s name hempty
      by_cases hvalid : ValidUser { s with userName := name } <;> cases hset : x.attributeSet <;>
        simp [hempty, hvalid, hcurrent, setCurrentUser]

end Session

/-! ## Whole sessions -/

/-- A session that begins with a valid user keeps to valid users, and keeps the user when a change
is refused, exactly if each SET SESSION AUTHORIZATION on its way names a user. -/
theorem session_keeps_identity_iff (others : OtherStatements) (s : Session)
    (statements : List SessionStatement) (h : s.ValidUser) :
    KeepsIdentity others s statements ↔ AllNameUsers others s statements := by
  induction statements generalizing s with
  | nil => exact Iff.rfl
  | cons x rest ih =>
    rw [KeepsIdentity, AllNameUsers, ← and_assoc, Session.process_keeps_iff h]
    refine and_congr_right fun hnames => ih _ ?_
    exact ((Session.process_keeps_iff h).mpr hnames).1

/-- A session of the root in a new catalog, with no statements of other kinds. -/
def rootSession : Session := ⟨.empty, []⟩

def noOthers : OtherStatements := ⟨fun s _ => (s.catalog, none), fun _ _ => rfl⟩

def createAndSwitch : List SessionStatement :=
  [⟨textBytes "CREATE USER bob;", true⟩, ⟨textBytes "set session authorization Bob", true⟩]

instance (s : Session) (x : SessionStatement) : Decidable (NamesUser s x) :=
  inferInstanceAs (Decidable (∀ name ∈ sessionName x, _))

theorem created_user_is_kept : rootSession.ValidUser ∧
    KeepsIdentity noOthers rootSession createAndSwitch := by
  have hvalid : rootSession.ValidUser := by decide +kernel
  refine ⟨hvalid, (session_keeps_identity_iff noOthers rootSession _ hvalid).mpr ?_⟩
  exact ⟨by decide +kernel, by decide +kernel, trivial⟩

/-- The name of nobody is put in, the statement reports the error, and the session goes on as a user
who does not exist. -/
theorem refused_user_stays_in : rootSession.ValidUser ∧
    (rootSession.process noOthers ⟨textBytes "SET SESSION AUTHORIZATION NOBODY", true⟩).2 =
      some "unknown lite authorization identity: NOBODY" ∧
    (rootSession.process noOthers ⟨textBytes "SET SESSION AUTHORIZATION NOBODY", true⟩).1.userName =
      textBytes "NOBODY" ∧
    ¬ KeepsIdentity noOthers rootSession
      [⟨textBytes "SET SESSION AUTHORIZATION NOBODY", true⟩] := by
  refine ⟨by decide +kernel, by decide +kernel, by decide +kernel, ?_⟩
  rintro ⟨hvalid, -⟩
  exact absurd hvalid (by decide +kernel)

end litestore
