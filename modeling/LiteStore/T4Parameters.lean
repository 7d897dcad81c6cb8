-- The parameters of a statement that is not kept as a plan. The server puts each
-- value into the text of the statement as a quoted literal. The scanner that looks
-- for the markers knows quotes and does not know comments.
import LiteStore.Bytes
import LiteStore.Lib.SqlText

namespace litestore

open sqltext List

/-! ## The functions of the server -/

def quoteLiteral (value : Bytes) : Bytes :=
  39 :: (value.flatMap (fun c => if c = 39 then [39, 39] else [c]) ++ [39])

/-- What stands in the text for a parameter. -/
def parameterText (value : Bytes) (null : Bool) : Bytes :=
  if null then textBytes "NULL" else quoteLiteral value

/-- One more byte in front of what a scanner has seen; a marker is `none`. -/
def seen (mark : Option UInt8) (r : List (Option UInt8) × Bool) : List (Option UInt8) × Bool :=
  (mark :: r.1, r.2)

/-- The walk that all functions here make over a statement: the bytes, and whether the quotes
are closed at the end. The flags are `singleQuoted` and `doubleQuoted`; the third one says that
the byte is the second of two quotes and is passed over. -/
def scanT4 : Bool → Bool → Bool → Bytes → List (Option UInt8) × Bool
  | single, double, _, [] => ([], !single && !double)
  | single, double, true, c :: sql => seen (some c) (scanT4 single double false sql)
  | single, double, false, c :: sql =>
    if c = 39 ∧ double = false then
      if single = true ∧ sql.head? = some 39 then seen (some c) (scanT4 single double true sql)
      else seen (some c) (scanT4 (!single) double false sql)
    else if c = 34 ∧ single = false then seen (some c) (scanT4 single (!double) false sql)
    else if c = 63 ∧ single = false ∧ double = false then
      seen none (scanT4 single double false sql)
    else seen (some c) (scanT4 single double false sql)

def markedBytes (sql : Bytes) : List (Option UInt8) := (scanT4 false false false sql).1

/-- The values put in at the markers, in order. It fails when there are too few, and at the end
when there are too many. -/
def putParameters : List (Option UInt8) → List Bytes → List Bool → Option Bytes
  | [], values, _ => if values = [] then some [] else none
  | some c :: marks, values, nulls => (putParameters marks values nulls).map (c :: ·)
  | none :: marks, value :: values, null :: nulls =>
    (putParameters marks values nulls).map (parameterText value null ++ ·)
  | none :: _, _, _ => none

section

variable (sql : Bytes)

def substituteT4Parameters (values : List Bytes) (nulls : List Bool) : Option Bytes :=
  putParameters (markedBytes sql) values nulls

/-- The part in front of the first marker and the parts behind the markers. -/
def cutAtMarks : List (Option UInt8) → Bytes × List Bytes
  | [] => ([], [])
  | some c :: marks => (c :: (cutAtMarks marks).1, (cutAtMarks marks).2)
  | none :: marks => ([], (cutAtMarks marks).1 :: (cutAtMarks marks).2)

/-- The parts, and whether the quotes are closed. -/
def compileT4ParameterTemplate : List Bytes × Bool :=
  ((cutAtMarks (markedBytes sql)).1 :: (cutAtMarks (markedBytes sql)).2,
    (scanT4 false false false sql).2)

/-- The loop over the values, and the last part behind it. -/
def joinT4Parts : List Bytes → List Bytes → List Bool → Bytes
  | part :: parts, value :: values, null :: nulls =>
    part ++ (parameterText value null ++ joinT4Parts parts values nulls)
  | parts, _, _ => (parts.getLast?).getD []

def substituteT4ParameterTemplate (parts : List Bytes) (values : List Bytes) (nulls : List Bool) :
    Option Bytes :=
  if parts = [] ∨ parts.length ≠ values.length + 1 ∨ values.length ≠ nulls.length then none
  else some (joinT4Parts parts values nulls)

def toupper (c : UInt8) : UInt8 := if 97 ≤ c ∧ c ≤ 122 then c - 32 else c

def isalnum (c : UInt8) : Bool :=
  (48 ≤ c && c ≤ 57) || (65 ≤ c && c ≤ 90) || (97 ≤ c && c ≤ 122)

/-- The first word, in upper case. The blanks behind the text do not reach it. -/
def firstWord : Bytes :=
  ((sql.dropWhile sqltext.isSpace).takeWhile fun c => isalnum c || c == 95).map toupper

/-- `find`: the place of the first occurrence. -/
def findBytes (sought : Bytes) : Bytes → Option Nat
  | [] => if sought = [] then some 0 else none
  | c :: text => if sought.isPrefixOf (c :: text) then some 0
      else (findBytes sought text).map (· + 1)

/-- The text up to `VALUES` and the template of a tuple behind it, for an `INSERT`. -/
def batchSplit : Option (Bytes × Bytes) :=
  if firstWord sql = textBytes "INSERT" then
    (findBytes (textBytes "VALUES") (sql.map toupper)).map fun values =>
      (sql.take (values + 6), sql.drop (values + 6))
  else none

/-- The tuples of the rows, with a comma in front of all but the first. -/
def batchTuples (substitute : List Bytes → List Bool → Option Bytes) :
    Bool → List (List Bytes) → List (List Bool) → Option Bytes
  | first, row :: rows, nulls :: nullRows => do
    let tuple ← substitute row nulls
    let others ← batchTuples substitute false rows nullRows
    return (if first then [] else [44]) ++ (tuple ++ others)
  | _, _, _ => some []

/-- The text for the values of a row. -/
def substituteRow (parts : Option (List Bytes)) (values : List Bytes) (nulls : List Bool) :
    Option Bytes :=
  match parts with
  | some parts => substituteT4ParameterTemplate parts values nulls
  | none => substituteT4Parameters sql values nulls

def buildT4BatchSql (rows : List (List Bytes)) (nullRows : List (List Bool))
    (parameterParts : Option (List Bytes)) (batchPrefix : Option Bytes)
    (batchParameterParts : Option (List Bytes)) : Option Bytes :=
  match rows, nullRows with
  | [row], [nulls] => substituteRow sql parameterParts row nulls
  | _, _ =>
    if rows = [] ∨ rows.length ≠ nullRows.length then none
    else do
      let split ← batchSplit sql
      let tuples ← batchTuples (substituteRow split.2 batchParameterParts) true rows nullRows
      return batchPrefix.getD split.1 ++ tuples

/-- What `handleT4Prepare` keeps of a statement for its parameters. -/
structure T4Parts where
  parameterParts : List Bytes
  batchPrefix : Bytes
  batchParameterParts : List Bytes

/-- Text with open quotes is refused. -/
def prepareT4 : Option T4Parts :=
  if (compileT4ParameterTemplate sql).2 = false then none
  else
    match batchSplit sql with
    | none => some ⟨(compileT4ParameterTemplate sql).1, [], []⟩
    | some (batchPrefix, tuple) =>
      if (compileT4ParameterTemplate tuple).2 = false then none
      else some ⟨(compileT4ParameterTemplate sql).1, batchPrefix,
        (compileT4ParameterTemplate tuple).1⟩

/-- The call of `handleT4Execute`. -/
def executeT4Text (parts : T4Parts) (rows : List (List Bytes)) (nullRows : List (List Bool)) :
    Option Bytes :=
  buildT4BatchSql sql rows nullRows (some parts.parameterParts)
    (if parts.batchPrefix = [] then none else some parts.batchPrefix)
    (if parts.batchParameterParts = [] then none else some parts.batchParameterParts)

/-! ## What the texts mean -/

/-- The values of a row; a NULL has none. -/
def boundValues (values : List Bytes) (nulls : List Bool) : List (Option Bytes) :=
  zipWith (fun value null => if null then none else some value) values nulls

/-- A statement for some rows, with its markers: the tuple of a batch stands once for each. -/
def batchTemplate (rows : Nat) : Bytes :=
  match rows, batchSplit sql with
  | n + 2, some (batchPrefix, tuple) =>
    batchPrefix ++ (tuple ++ (replicate (n + 1) (44 :: tuple)).flatten)
  | _, _ => sql

end

/-- The texts that the server makes of a statement and the values of some rows. -/
inductive Produces (sql : Bytes) : List (List Bytes) → List (List Bool) → Bytes → Prop
  | substituted {values : List Bytes} {nulls : List Bool} {out : Bytes} :
    substituteT4Parameters sql values nulls = some out → Produces sql [values] [nulls] out
  | compiled {values : List Bytes} {nulls : List Bool} {out : Bytes} :
    (compileT4ParameterTemplate sql).2 = true →
    substituteT4ParameterTemplate (compileT4ParameterTemplate sql).1 values nulls = some out →
    Produces sql [values] [nulls] out
  | batch {rows : List (List Bytes)} {nullRows : List (List Bool)} {out : Bytes} :
    buildT4BatchSql sql rows nullRows none none none = some out → Produces sql rows nullRows out
  | prepared {parts : T4Parts} {rows : List (List Bytes)} {nullRows : List (List Bool)}
    {out : Bytes} :
    prepareT4 sql = some parts → executeT4Text sql parts rows nullRows = some out →
    Produces sql rows nullRows out

/-- The text has the tokens of the statement with its markers replaced by the values, one token
for each. -/
def Binds (sql : Bytes) (rows : List (List Bytes)) (nullRows : List (List Bool))
    (out : Bytes) : Prop :=
  fill (tokens (batchTemplate sql rows.length)) (zipWith boundValues rows nullRows).flatten =
    some (tokens out)

/-- Values do not change a statement: the texts for any two of them with the same NULLs have the
tokens of the statement, and the values stand in the places of the markers. -/
def ValuesStayValues (sql : Bytes) : Prop :=
  ∀ rows rows' nullRows out out', Produces sql rows nullRows out →
    Produces sql rows' nullRows out' → Binds sql rows nullRows out ∧ Binds sql rows' nullRows out'

/-! ## Statements with clear markers -/

/-- The bytes of a statement, where a question mark outside quotes is a marker. Nothing but the
quotes counts. -/
def openMarks : Bool → Bool → Bytes → List (Option UInt8)
  | _, _, [] => []
  | single, double, c :: sql =>
    if c = 39 ∧ double = false then some c :: openMarks (!single) double sql
    else if c = 34 ∧ single = false then some c :: openMarks single (!double) sql
    else if c = 63 ∧ single = false ∧ double = false then none :: openMarks single double sql
    else some c :: openMarks single double sql

/-- The pieces of a statement between the question marks outside quotes. -/
def openPieces (sql : Bytes) : Bytes × List Bytes := cutAtMarks (openMarks false false sql)

/-- The pieces of the tuples behind the first one. -/
def tuplePieces (tuple : Bytes × List Bytes) : Nat → Bytes × List Bytes
  | 0 => ([], [])
  | n + 1 => glue (44 :: tuple.1) tuple.2 (tuplePieces tuple n).1 (tuplePieces tuple n).2

/-- The pieces of a batch. -/
def batchPieces (batchPrefix : Bytes) (tuple : Bytes × List Bytes) (n : Nat) :
    Bytes × List Bytes :=
  glue (batchPrefix ++ tuple.1) tuple.2 (tuplePieces tuple n).1 (tuplePieces tuple n).2

/-- The question marks outside quotes are those outside literals, names and comments, and none of
them touches a word, a literal or another one. The same holds when the tuple of a batch is
written once for each row. -/
def ClearMarkers (sql : Bytes) : Prop :=
  Clear .plain (openPieces sql).1 (openPieces sql).2 ∧
    ∀ batchPrefix tuple, batchSplit sql = some (batchPrefix, tuple) → ∀ n,
      Clear .plain (batchPieces batchPrefix (openPieces tuple) (n + 1)).1
        (batchPieces batchPrefix (openPieces tuple) (n + 1)).2

/-! ## Scanners and pieces -/

/-- Passing over the second of two quotes is the same as closing and opening. -/
theorem scanT4_marks (single double : Bool) (sql : Bytes) :
    (scanT4 single double false sql).1 = openMarks single double sql ∧
      (single = true → double = false → sql.head? = some 39 →
        (scanT4 true false true sql).1 = openMarks false false sql) := by
  induction sql generalizing single double with
  | nil => simp [scanT4, openMarks]
  | cons c sql ih =>
    constructor
    · unfold scanT4 openMarks
      split
      · rename_i hc
        split
        · rename_i hpair
          obtain ⟨rfl, hhead⟩ := hpair
          obtain ⟨rfl, rfl⟩ := hc
          exact congrArg _ ((ih true false).2 rfl rfl hhead)
        · exact congrArg _ (ih _ _).1
      · split
        · exact congrArg _ (ih _ _).1
        · split
          all_goals exact congrArg _ (ih _ _).1
    · rintro - - hhead
      obtain rfl : c = 39 := by simpa using hhead
      unfold scanT4 openMarks
      rw [if_pos ⟨rfl, rfl⟩]
      exact congrArg _ (ih true false).1

theorem markedBytes_eq (sql : Bytes) : markedBytes sql = openMarks false false sql :=
  (scanT4_marks false false sql).1

theorem cutAtMarks_markedText (single double : Bool) (sql : Bytes) :
    markedText (cutAtMarks (openMarks single double sql)).1
      (cutAtMarks (openMarks single double sql)).2 = sql := by
  have hsome : ∀ (c : UInt8) (marks : List (Option UInt8)),
      markedText (cutAtMarks (some c :: marks)).1 (cutAtMarks (some c :: marks)).2 =
        c :: markedText (cutAtMarks marks).1 (cutAtMarks marks).2 := by
    intro c marks
    exact markedText_cons _ [c] _
  induction sql generalizing single double with
  | nil => rfl
  | cons c sql ih =>
    unfold openMarks
    split
    · rw [hsome, ih]
    · split
      · rw [hsome, ih]
      · split
        · rename_i hc
          show [] ++ 63 :: markedText _ _ = _
          rw [ih, hc.1, nil_append]
        · rw [hsome, ih]

theorem markedText_openPieces (sql : Bytes) :
    markedText (openPieces sql).1 (openPieces sql).2 = sql :=
  cutAtMarks_markedText false false sql

theorem parameterText_eq (value : Bytes) (null : Bool) :
    parameterText value null = valueText (if null then none else some value) := by
  cases null <;> rfl

variable {values : List Bytes} {nulls : List Bool} {out sql tuple : Bytes}
  {parts : Option (List Bytes)} {rows : List (List Bytes)} {nullRows : List (List Bool)}
  {vs : List (Option Bytes)}

theorem putParameters_eq_some {marks : List (Option UInt8)} :
    putParameters marks values nulls = some out ↔
      values.length = (cutAtMarks marks).2.length ∧ values.length ≤ nulls.length ∧
        out = textOf (cutAtMarks marks).1 (cutAtMarks marks).2 (boundValues values nulls) := by
  induction marks generalizing values nulls out with
  | nil =>
    unfold putParameters
    cases values with
    | nil => simp [cutAtMarks, textOf, eq_comm]
    | cons value values => simp [cutAtMarks]
  | cons mark marks ih =>
    cases mark with
    | some c =>
      have htext : ∀ vs, textOf (cutAtMarks (some c :: marks)).1 (cutAtMarks (some c :: marks)).2
          vs = c :: textOf (cutAtMarks marks).1 (cutAtMarks marks).2 vs := by
        intro vs
        exact textOf_cons _ [c] _ vs
      unfold putParameters
      simp only [Option.map_eq_some_iff, ih, htext]
      constructor
      · rintro ⟨out', ⟨hlen, hnulls, rfl⟩, rfl⟩
        exact ⟨hlen, hnulls, rfl⟩
      · rintro ⟨hlen, hnulls, rfl⟩
        exact ⟨_, ⟨hlen, hnulls, rfl⟩, rfl⟩
    | none =>
      cases values with
      | nil => simp [putParameters, cutAtMarks]
      | cons value values =>
        cases nulls with
        | nil => simp [putParameters]
        | cons null nulls =>
          unfold putParameters
          simp only [Option.map_eq_some_iff, ih, cutAtMarks, length_cons,
            Nat.add_right_cancel_iff, Nat.add_le_add_iff_right, boundValues, zipWith_cons_cons,
            textOf, nil_append, parameterText_eq]
          constructor
          · rintro ⟨out', ⟨hlen, hnulls, rfl⟩, rfl⟩
            exact ⟨hlen, hnulls, rfl⟩
          · rintro ⟨hlen, hnulls, rfl⟩
            exact ⟨_, ⟨hlen, hnulls, rfl⟩, rfl⟩

theorem joinT4Parts_eq {p : Bytes} {rest : List Bytes} (hlen : values.length = rest.length)
    (hnulls : values.length = nulls.length) :
    joinT4Parts (p :: rest) values nulls = textOf p rest (boundValues values nulls) := by
  induction rest generalizing p values nulls with
  | nil =>
    obtain rfl := eq_nil_of_length_eq_zero hlen
    rfl
  | cons q rest ih =>
    obtain ⟨value, values, rfl⟩ := exists_cons_of_length_eq_add_one hlen
    obtain ⟨null, nulls, rfl⟩ := exists_cons_of_length_eq_add_one hnulls.symm
    have hrest := ih (p := q) (Nat.succ.inj hlen) (Nat.succ.inj hnulls)
    simp only [joinT4Parts, hrest, boundValues, zipWith_cons_cons, textOf, parameterText_eq]

/-- The text for a row is the pieces with its values in the holes, with or without the parts that
were cut beforehand. -/
theorem substituteRow_eq_some
    (hparts : parts = none ∨ parts = some (compileT4ParameterTemplate sql).1)
    (h : substituteRow sql parts values nulls = some out) :
    values.length = (openPieces sql).2.length ∧ values.length ≤ nulls.length ∧
      out = textOf (openPieces sql).1 (openPieces sql).2 (boundValues values nulls) := by
  unfold openPieces
  rw [← markedBytes_eq]
  rcases hparts with rfl | rfl
  · exact putParameters_eq_some.mp h
  · have h' : substituteT4ParameterTemplate (compileT4ParameterTemplate sql).1 values nulls =
        some out := h
    unfold substituteT4ParameterTemplate at h'
    split at h'
    · cases h'
    · rename_i hlen
      simp only [compileT4ParameterTemplate, cons_ne_nil, length_cons, false_or, not_or,
        not_not, Nat.add_right_cancel_iff] at hlen h'
      rw [joinT4Parts_eq hlen.1.symm hlen.2] at h'
      exact ⟨hlen.1.symm, hlen.2.le, (Option.some.inj h').symm⟩

theorem boundValues_length (h : values.length ≤ nulls.length) :
    (boundValues values nulls).length = values.length := by
  simp [boundValues, h]

/-! ## Batches -/

theorem markedText_tuplePieces (tuple : Bytes) (n : Nat) :
    markedText (tuplePieces (openPieces tuple) n).1 (tuplePieces (openPieces tuple) n).2 =
      (replicate n (44 :: tuple)).flatten := by
  induction n with
  | zero => rfl
  | succ n ih =>
    have hcomma : markedText (44 :: (openPieces tuple).1) (openPieces tuple).2 = 44 :: tuple := by
      have h := markedText_cons (openPieces tuple).1 [44] (openPieces tuple).2
      rw [markedText_openPieces] at h
      exact h
    rw [tuplePieces, markedText_glue, ih, hcomma, replicate_succ, flatten_cons]

theorem markedText_batchPieces {batchPrefix : Bytes}
    (h : batchSplit sql = some (batchPrefix, tuple)) (n : Nat) :
    markedText (batchPieces batchPrefix (openPieces tuple) (n + 1)).1
      (batchPieces batchPrefix (openPieces tuple) (n + 1)).2 = batchTemplate sql (n + 2) := by
  unfold batchPieces batchTemplate
  rw [h, markedText_glue, markedText_cons, markedText_openPieces, markedText_tuplePieces,
    append_assoc]

/-- The tuples behind the first are their pieces with the values of the rows in the holes. -/
theorem batchTuples_eq_some
    (hparts : parts = none ∨ parts = some (compileT4ParameterTemplate tuple).1)
    (hrows : rows.length = nullRows.length)
    (h : batchTuples (substituteRow tuple parts) false rows nullRows = some out) :
    (zipWith boundValues rows nullRows).flatten.length =
        (tuplePieces (openPieces tuple) rows.length).2.length ∧
      out = textOf (tuplePieces (openPieces tuple) rows.length).1
        (tuplePieces (openPieces tuple) rows.length).2
        (zipWith boundValues rows nullRows).flatten := by
  induction rows generalizing nullRows out with
  | nil =>
    obtain rfl := eq_nil_of_length_eq_zero hrows.symm
    obtain rfl := Option.some.inj h
    exact ⟨rfl, rfl⟩
  | cons row rows ih =>
    obtain ⟨nulls, nullRows, rfl⟩ := exists_cons_of_length_eq_add_one hrows.symm
    unfold batchTuples at h
    obtain ⟨text, htext, h⟩ := Option.bind_eq_some_iff.mp h
    obtain ⟨others, hothers, h⟩ := Option.bind_eq_some_iff.mp h
    obtain rfl := Option.some.inj h
    obtain ⟨hlen, hnulls, rfl⟩ := substituteRow_eq_some hparts htext
    obtain ⟨hrest, rfl⟩ := ih (Nat.succ.inj hrows) hothers
    have hbound := (boundValues_length hnulls).trans hlen
    rw [length_cons, tuplePieces, zipWith_cons_cons, flatten_cons, glue_length,
      textOf_glue hbound, length_append, hbound, hrest]
    refine ⟨rfl, ?_⟩
    have hcomma := textOf_cons (openPieces tuple).1 [44] (openPieces tuple).2
      (boundValues row nulls)
    show [44] ++ (textOf _ _ _ ++ _) = textOf ([44] ++ _) _ _ ++ _
    rw [hcomma, append_assoc]

/-- The pieces that a text was made of, and the values in them. -/
structure MadeOf (sql : Bytes) (rows : List (List Bytes)) (nullRows : List (List Bool))
    (out : Bytes) (p : Bytes) (rest : List Bytes) : Prop where
  holes : (zipWith boundValues rows nullRows).flatten.length = rest.length
  text : out = textOf p rest (zipWith boundValues rows nullRows).flatten
  template : markedText p rest = batchTemplate sql rows.length
  clear : ClearMarkers sql → Clear .plain p rest

theorem substituteRow_madeOf
    (hparts : parts = none ∨ parts = some (compileT4ParameterTemplate sql).1)
    (h : substituteRow sql parts values nulls = some out) :
    MadeOf sql [values] [nulls] out (openPieces sql).1 (openPieces sql).2 := by
  obtain ⟨hlen, hnulls, rfl⟩ := substituteRow_eq_some hparts h
  have hflat : (zipWith boundValues [values] [nulls]).flatten = boundValues values nulls := by
    simp
  refine ⟨?_, ?_, markedText_openPieces sql, And.left⟩
  · rw [hflat, boundValues_length hnulls, hlen]
  · rw [hflat]

theorem buildT4BatchSql_madeOf {parameterParts : Option (List Bytes)} {batchPrefix : Option Bytes}
    {batchParameterParts : Option (List Bytes)}
    (hparts : parameterParts = none ∨ parameterParts = some (compileT4ParameterTemplate sql).1)
    (hbatch : ∀ start tuple, batchSplit sql = some (start, tuple) →
      (batchPrefix = none ∨ batchPrefix = some start) ∧ (batchParameterParts = none ∨
        batchParameterParts = some (compileT4ParameterTemplate tuple).1))
    (h : buildT4BatchSql sql rows nullRows parameterParts batchPrefix batchParameterParts =
      some out) : ∃ p rest, MadeOf sql rows nullRows out p rest := by
  unfold buildT4BatchSql at h
  split at h
  · exact ⟨_, _, substituteRow_madeOf hparts h⟩
  · rename_i hone
    split at h
    · cases h
    · rename_i hrows
      rw [not_or, not_not] at hrows
      obtain ⟨⟨start, tuple⟩, hsplit, h⟩ := Option.bind_eq_some_iff.mp h
      obtain ⟨tuples, htuples, h⟩ := Option.bind_eq_some_iff.mp h
      obtain rfl := Option.some.inj h
      obtain ⟨hpre, hbparts⟩ := hbatch start tuple hsplit
      -- The first row, and at least one more behind it.
      obtain ⟨row, rows, rfl⟩ := exists_cons_of_ne_nil hrows.1
      obtain ⟨nulls, nullRows, rfl⟩ := exists_cons_of_length_eq_add_one hrows.2.symm
      obtain ⟨n, hn⟩ : ∃ n, rows.length = n + 1 := by
        cases rows with
        | nil =>
          have hnil : nullRows = [] := eq_nil_of_length_eq_zero (Nat.succ.inj hrows.2.symm)
          exact (hone row nulls rfl (by rw [hnil])).elim
        | cons row' rows => exact ⟨rows.length, rfl⟩
      unfold batchTuples at htuples
      obtain ⟨text, htext, htuples⟩ := Option.bind_eq_some_iff.mp htuples
      obtain ⟨others, hothers, htuples⟩ := Option.bind_eq_some_iff.mp htuples
      obtain rfl := Option.some.inj htuples
      obtain ⟨hlen, hnulls, rfl⟩ := substituteRow_eq_some hbparts htext
      obtain ⟨hrest, rfl⟩ := batchTuples_eq_some hbparts (Nat.succ.inj hrows.2) hothers
      have hbound := (boundValues_length hnulls).trans hlen
      have hstart : batchPrefix.getD start = start := by
        rcases hpre with rfl | rfl
        · rfl
        · rfl
      rw [hn] at hrest
      refine ⟨(batchPieces start (openPieces tuple) (n + 1)).1,
        (batchPieces start (openPieces tuple) (n + 1)).2, ?_, ?_, ?_, ?_⟩
      · rw [batchPieces, glue_length, zipWith_cons_cons, flatten_cons, length_append, hbound, hrest]
      · rw [batchPieces, zipWith_cons_cons, flatten_cons, textOf_glue hbound,
          textOf_cons, hn, hstart, append_assoc]
        rfl
      · rw [markedText_batchPieces hsplit, length_cons, hn]
      · intro hclear
        exact hclear.2 start tuple hsplit n

theorem prepareT4_eq_some {parts : T4Parts} (h : prepareT4 sql = some parts) :
    parts.parameterParts = (compileT4ParameterTemplate sql).1 ∧
      ∀ start tuple, batchSplit sql = some (start, tuple) → parts.batchPrefix = start ∧
        parts.batchParameterParts = (compileT4ParameterTemplate tuple).1 := by
  unfold prepareT4 at h
  split at h
  · cases h
  · split at h
    · rename_i hsplit
      obtain rfl := Option.some.inj h
      exact ⟨rfl, by simp [hsplit]⟩
    · rename_i start tuple hsplit
      split at h
      · cases h
      · obtain rfl := Option.some.inj h
        refine ⟨rfl, fun start' tuple' hsplit' => ?_⟩
        rw [hsplit] at hsplit'
        obtain ⟨rfl, rfl⟩ := Prod.mk.inj (Option.some.inj hsplit')
        exact ⟨rfl, rfl⟩

theorem produces_madeOf (h : Produces sql rows nullRows out) :
    ∃ p rest, MadeOf sql rows nullRows out p rest := by
  cases h with
  | @substituted values nulls _ h =>
    have hrow : substituteRow sql none values nulls = some out := h
    exact ⟨_, _, substituteRow_madeOf (.inl rfl) hrow⟩
  | @compiled values nulls _ _ h =>
    have hrow : substituteRow sql (some (compileT4ParameterTemplate sql).1) values nulls =
        some out := h
    exact ⟨_, _, substituteRow_madeOf (.inr rfl) hrow⟩
  | batch h =>
    exact buildT4BatchSql_madeOf (.inl rfl) (fun _ _ _ => ⟨.inl rfl, .inl rfl⟩) h
  | prepared hprepare h =>
    obtain ⟨hparts, hbatch⟩ := prepareT4_eq_some hprepare
    refine buildT4BatchSql_madeOf (.inr (congrArg some hparts)) ?_ h
    intro start tuple hsplit
    obtain ⟨hpre, hbparts⟩ := hbatch start tuple hsplit
    constructor
    · split
      · exact .inl rfl
      · exact .inr (congrArg some hpre)
    · split
      · exact .inl rfl
      · exact .inr (congrArg some hbparts)

/-! ## Texts for every choice of values -/

/-- The values of a row and its NULLs, from what is bound. -/
theorem boundValues_surj (vs : List (Option Bytes)) :
    boundValues (vs.map fun v => v.getD []) (vs.map Option.isNone) = vs := by
  unfold boundValues
  rw [zipWith_map, zipWith_self]
  conv_rhs => rw [← map_id vs]
  apply map_congr_left
  intro v _
  cases v <;> rfl

theorem substituteT4Parameters_of_bound (sql : Bytes)
    (hlen : vs.length = (openPieces sql).2.length) :
    substituteT4Parameters sql (vs.map fun v => v.getD []) (vs.map Option.isNone) =
      some (textOf (openPieces sql).1 (openPieces sql).2 vs) := by
  unfold substituteT4Parameters
  rw [markedBytes_eq, putParameters_eq_some, boundValues_surj]
  refine ⟨?_, by simp, rfl⟩
  rw [length_map]
  exact hlen

theorem exists_first_row {a b : Nat} (hlen : vs.length = a + b) :
    ∃ first others, vs = first ++ others ∧ first.length = a ∧ others.length = b :=
  ⟨vs.take a, vs.drop a, (take_append_drop _ _).symm, by simp [hlen], by simp [hlen]⟩

theorem batchTuples_of_bound (tuple : Bytes) (n : Nat)
    (hlen : vs.length = (tuplePieces (openPieces tuple) n).2.length) :
    ∃ rows nullRows, rows.length = n ∧ nullRows.length = n ∧
      (zipWith boundValues rows nullRows).flatten = vs ∧
      batchTuples (substituteRow tuple none) false rows nullRows =
        some (textOf (tuplePieces (openPieces tuple) n).1
          (tuplePieces (openPieces tuple) n).2 vs) := by
  induction n generalizing vs with
  | zero =>
    obtain rfl := eq_nil_of_length_eq_zero hlen
    exact ⟨[], [], rfl, rfl, rfl, rfl⟩
  | succ n ih =>
    rw [tuplePieces, glue_length] at hlen
    obtain ⟨first, others, rfl, hfirst, hlen⟩ := exists_first_row hlen
    obtain ⟨rows, nullRows, hrows, hnulls, hflat, htext⟩ := ih hlen
    have hsubst := substituteT4Parameters_of_bound tuple hfirst
    refine ⟨(first.map fun v => v.getD []) :: rows, first.map Option.isNone :: nullRows,
      by simp [hrows], by simp [hnulls], ?_, ?_⟩
    · rw [zipWith_cons_cons, flatten_cons, boundValues_surj, hflat]
    · unfold batchTuples
      have hrow : substituteRow tuple none (first.map fun v => v.getD [])
          (first.map Option.isNone) = _ := hsubst
      rw [hrow, htext, tuplePieces, textOf_glue hfirst]
      have hcomma := textOf_cons (openPieces tuple).1 [44] (openPieces tuple).2 first
      show some ([44] ++ (_ ++ _)) = some (textOf ([44] ++ _) _ _ ++ _)
      rw [hcomma, append_assoc]

/-- A batch of at least two rows is made of its pieces, for every choice of values. -/
theorem produces_batch {start : Bytes} (hsplit : batchSplit sql = some (start, tuple)) (n : Nat)
    (hlen : vs.length = (batchPieces start (openPieces tuple) (n + 1)).2.length) :
    ∃ rows nullRows, rows.length = n + 2 ∧
      (zipWith boundValues rows nullRows).flatten = vs ∧
      Produces sql rows nullRows (textOf (batchPieces start (openPieces tuple) (n + 1)).1
        (batchPieces start (openPieces tuple) (n + 1)).2 vs) := by
  rw [batchPieces, glue_length] at hlen
  obtain ⟨first, others, rfl, hfirst, hlen⟩ := exists_first_row hlen
  obtain ⟨rows, nullRows, hrows, hnulls, hflat, htext⟩ := batchTuples_of_bound tuple (n + 1) hlen
  obtain ⟨row', rows', rfl⟩ := exists_cons_of_length_eq_add_one hrows
  obtain ⟨nulls', nullRows', rfl⟩ := exists_cons_of_length_eq_add_one hnulls
  have hrow : substituteRow tuple none (first.map fun v => v.getD []) (first.map Option.isNone) =
      _ := substituteT4Parameters_of_bound tuple hfirst
  refine ⟨(first.map fun v => v.getD []) :: row' :: rows',
    first.map Option.isNone :: nulls' :: nullRows', by simpa using hrows, ?_, .batch ?_⟩
  · rw [zipWith_cons_cons, flatten_cons, boundValues_surj, hflat]
  · unfold buildT4BatchSql
    rw [if_neg (by simp only [length_cons] at hrows hnulls ⊢; simp; omega), hsplit]
    simp only [Option.bind_eq_bind, Option.bind_some, Option.getD_none]
    unfold batchTuples
    rw [hrow, htext, batchPieces, textOf_glue hfirst, textOf_cons]
    simp

/-- The values of a statement stay values exactly when its markers are clear. -/
theorem values_stay_values_iff (sql : Bytes) : ValuesStayValues sql ↔ ClearMarkers sql := by
  constructor
  · intro h
    have hbinds : ∀ rows nullRows out, Produces sql rows nullRows out →
        Binds sql rows nullRows out := fun rows nullRows out hout => (h _ _ _ _ _ hout hout).1
    constructor
    · rw [← safe_iff_clear]
      intro vs hlen
      have hbind := hbinds _ _ _ (.substituted (substituteT4Parameters_of_bound sql hlen))
      have hflat : (zipWith boundValues [vs.map fun v => v.getD []]
          [vs.map Option.isNone]).flatten = vs := by
        simp [boundValues_surj]
      unfold Binds at hbind
      rw [hflat] at hbind
      rw [markedText_openPieces]
      exact hbind
    · intro start tuple hsplit n
      rw [← safe_iff_clear]
      intro vs hlen
      obtain ⟨rows, nullRows, hrows, hflat, hout⟩ := produces_batch hsplit n hlen
      have hbind := hbinds _ _ _ hout
      unfold Binds at hbind
      rw [hrows, hflat] at hbind
      rw [markedText_batchPieces hsplit]
      exact hbind
  · intro hclear
    have hbinds : ∀ rows nullRows out, Produces sql rows nullRows out →
        Binds sql rows nullRows out := by
      intro rows nullRows out hout
      obtain ⟨p, rest, hmade⟩ := produces_madeOf hout
      unfold Binds
      rw [← hmade.template, hmade.text]
      exact fill_of_clear (hmade.clear hclear) hmade.holes
    intro rows rows' nullRows out out' hout hout'
    exact ⟨hbinds _ _ _ hout, hbinds _ _ _ hout'⟩

/-- A statement with a marker in a comment. -/
def commentedDelete : Bytes := textBytes "DELETE FROM T WHERE A = 1 /* ? */"

/-- One value for the marker stays in the comment; another ends it and adds a condition. -/
theorem comment_marker_escapes :
    Token.marker ∉ tokens commentedDelete ∧
      (∃ out, Produces commentedDelete [[textBytes "x"]] [[false]] out ∧
        tokens out = tokens commentedDelete) ∧
      (∃ out, Produces commentedDelete [[textBytes "*/ OR 1 = 1 --"]] [[false]] out ∧
        tokens out = tokens (textBytes "DELETE FROM T WHERE A = 1 OR 1 = 1")) ∧
      ¬ ValuesStayValues commentedDelete := by
  have hstays : Produces commentedDelete [[textBytes "x"]] [[false]]
      (textBytes "DELETE FROM T WHERE A = 1 /* 'x' */") := .substituted (by decide +kernel)
  have hescapes : Produces commentedDelete [[textBytes "*/ OR 1 = 1 --"]] [[false]]
      (textBytes "DELETE FROM T WHERE A = 1 /* '*/ OR 1 = 1 --' */") :=
    .substituted (by decide +kernel)
  refine ⟨by decide +kernel, ⟨_, hstays, by decide +kernel⟩, ⟨_, hescapes, by decide +kernel⟩, ?_⟩
  intro h
  exact absurd (h _ _ _ _ _ hescapes hescapes).1 (by unfold Binds; decide +kernel)

end litestore
