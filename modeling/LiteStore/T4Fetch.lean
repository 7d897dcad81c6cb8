-- The fetches of a client. A statement remembers how many of its rows are sent, and
-- every request gets the next ones in one answer.
import LiteStore.T4Rows

namespace litestore

open List

/-! ## Requests and answers -/

section

variable (columns : List T4Column) (body : Bytes)

/-- `T4Reader` over the bytes that are left: a read gives its value and the rest. -/
def readU32 : Option (Nat × Bytes) :=
  if body.length < 4 then none
  else some (littleEndian (body.take 4).reverse, body.drop 4)

def skipBytes (count : Nat) (body : Bytes) : Option Bytes :=
  if body.length < count then none else some (body.drop count)

def readU64 : Option (Nat × Bytes) := do
  let (high, body) ← readU32 body
  let (low, body) ← readU32 body
  return (high * 2 ^ 32 + low, body)

/-- A string stands behind its length, and its last byte is a zero. -/
def readString : Option (Bytes × Bytes) := do
  let (length, body) ← readU32 body
  if length = 0 then return ([], body)
  if body.length < length ∨ byteOf body (length - 1) ≠ 0 then none
  else return (body.take (length - 1), body.drop length)

def readStringWithCharset : Option (Bytes × Bytes) := do
  let (value, body) ← readString body
  if value = [] then return (value, body)
  let (_, body) ← readU32 body
  return (value, body)

/-- The label and the `maxRows` of a request. -/
def readFetch : Option (Bytes × Nat) := do
  let body ← skipBytes 16 body
  let (label, body) ← readStringWithCharset body
  let (maxRows, _) ← readU64 body
  return (label, maxRows)

/-! ## The server -/

structure T4StatementState where
  oldFetchFormat : Bool
  result : QueryResult
  rowOffset : Nat

/-- The format of the catalog answers, which have no descriptors. -/
def encodeT4OldRows (result : QueryResult) (start stop : Nat) : Bytes :=
  ((result.rows.take stop).drop start).flatMap fun row =>
    (row.take result.columns.length).flatMap fun
      | none => [0xff]
      | some value =>
        0 :: (networkBytes (min value.length 0x7fff) 2 ++ value.take (min value.length 0x7fff) ++ [0])

abbrev T4Statements := Std.ExtTreeMap Bytes T4StatementState

/-- An answer starts with four numbers: a code, the rows, the format and the bytes behind. -/
def fetchReply (code count length : Nat) (rows : Bytes) : Bytes :=
  networkBytes code 4 ++ (networkBytes count 4 ++ (networkBytes 0 4 ++ (networkBytes length 4 ++ rows)))

/-- The rows that one request takes. -/
def fetchCount (state : T4StatementState) (maxRows : Nat) : Nat :=
  if maxRows = 0 then state.result.rows.length - state.rowOffset
  else min maxRows (state.result.rows.length - state.rowOffset)

/-- The answer of a statement that was found, and its state behind. -/
def fetchFrom (engine : Engine) (state : T4StatementState) (maxRows : Nat) :
    Bytes × T4StatementState :=
  if state.result.rows.length ≤ state.rowOffset then (fetchReply 100 0 0 [], state)
  else
    let stop := state.rowOffset + fetchCount state maxRows
    let rows := if state.oldFetchFormat then encodeT4OldRows state.result state.rowOffset stop
      else encodeT4Rows engine state.result state.rowOffset stop
    (fetchReply 0 (fetchCount state maxRows) rows.length rows, { state with rowOffset := stop })

/-- No answer is the response that has an error code and no body. -/
def handleT4Fetch (engine : Engine) (statements : T4Statements) (body : Bytes) :
    Option Bytes × T4Statements :=
  match readFetch body with
  | none => (none, statements)
  | some (label, maxRows) =>
    match statements[label]? with
    | none => (none, statements)
    | some state =>
      let answer := fetchFrom engine state maxRows
      (some answer.1, statements.insert label answer.2)

/-! ## The client -/

/-- The requests of a session, and the answers that belong to one statement. -/
def repliesTo (engine : Engine) (label : Bytes) (statements : T4Statements) : List Bytes → List Bytes
  | [] => []
  | body :: bodies =>
    let answer := handleT4Fetch engine statements body
    (if (readFetch body).map (·.1) = some label then answer.1.toList else []) ++
      repliesTo engine label answer.2 bodies

/-- The rows of one answer. A client needs all the bytes that the number of rows asks for. -/
def decodeT4Reply (reply : Bytes) : Option (List (List (Option T4Value))) := do
  let (_, body) ← readU32 reply
  let (count, body) ← readU32 body
  let (_, body) ← readU32 body
  let (length, body) ← readU32 body
  let rows := body.take length
  if rows.length < count * t4RowLength columns then none
  else return (range count).map fun i =>
    decodeT4Row columns (slice rows (i * t4RowLength columns) (t4RowLength columns))

def decodeT4Replies (replies : List Bytes) : Option (List (List (Option T4Value))) :=
  (replies.mapM (decodeT4Reply columns)).map flatten

/-! ## What a client should get -/

/-- The data of a query: a cell for every column. -/
structure QueryData where
  columns : List T4Column
  rows : List (List (Option Bytes))
  filled : ∀ row ∈ rows, row.length = columns.length

/-- The result of a query, as the server keeps it. -/
def QueryData.result (display : Display) (data : QueryData) : QueryResult where
  columns := data.columns
  rows := data.rows.map (formatRow display data.columns)

/-- How many rows of a statement are asked for after one more request. -/
def askedAfter (label : Bytes) (total sent : Nat) (body : Bytes) : Nat :=
  match readFetch body with
  | none => sent
  | some (other, maxRows) =>
    if other ≠ label then sent
    else if maxRows = 0 then total
    else min total (sent + maxRows)

def askedRows (label : Bytes) (total : Nat) (bodies : List Bytes) : Nat :=
  bodies.foldl (askedAfter label total) 0

/-- Every encoded row has the announced length, and whatever the client requests, it reads the
values of the rows, each once and in order. -/
def ArrivesIntact (display : Display) (engine : Engine) (data : QueryData) : Prop :=
  (∀ row ∈ (data.result display).rows,
    (encodeT4Row engine data.columns row).length = t4RowLength data.columns) ∧
  ∀ (statements : T4Statements) (label : Bytes),
    statements[label]? = some ⟨false, data.result display, 0⟩ → ∀ bodies : List Bytes,
      decodeT4Replies data.columns (repliesTo engine label statements bodies) =
        some ((data.rows.take (askedRows label data.rows.length bodies)).map
          (rowValues display engine data.columns))

/-- The values fit their fields, and the numbers of an answer have room for the whole result. -/
structure ResultFits (display : Display) (data : QueryData) : Prop where
  values : ∀ row ∈ data.rows, RowFits display data.columns row
  width : data.rows ≠ [] → rowWidth data.columns ≤ 0x7fffffff
  rows : data.rows.length < 2 ^ 32
  bytes : data.rows.length * rowWidth data.columns < 2 ^ 32

/-! ## Reading an answer -/

@[simp] theorem readU32_networkBytes (n : Nat) (rest : Bytes) :
    readU32 (networkBytes n 4 ++ rest) = some (n % 2 ^ 32, rest) := by
  have hvalue : littleEndian (networkBytes n 4).reverse = n % 2 ^ 32 := by
    have hbytes := littleEndian_intBytes n 4
    rw [networkBytes_reverse]
    omega
  have hlong : ¬ (networkBytes n 4 ++ rest).length < 4 := by
    rw [length_append, networkBytes_length]
    omega
  unfold readU32
  rw [if_neg hlong, take_left' (networkBytes_length _ _),
    drop_left' (networkBytes_length _ _), hvalue]

/-- Blocks of one size that stand one behind the other are found at the multiples of that size. -/
theorem slice_flatMap {α β : Type} {f : α → Bytes} {n : Nat} (g : Bytes → β) (l : List α)
    (h : ∀ a ∈ l, (f a).length = n) :
    (range l.length).map (fun i => g (slice (l.flatMap f) (i * n) n)) =
      l.map fun a => g (f a) := by
  induction l with
  | nil => rfl
  | cons a l ih =>
    have ha := h a mem_cons_self
    have hnext : ∀ i, slice (f a ++ l.flatMap f) ((i + 1) * n) n = slice (l.flatMap f) (i * n) n := by
      intro i
      unfold slice
      rw [Nat.succ_mul, Nat.add_comm, ← drop_drop, drop_left' ha]
    have hfirst : slice (f a ++ l.flatMap f) (0 * n) n = f a := by
      rw [Nat.zero_mul]
      exact take_left' ha
    rw [length_cons, range_succ_eq_map, map_cons, map_map, map_cons,
      flatMap_cons, hfirst, ← ih fun b hb => h b (mem_cons_of_mem a hb)]
    simp only [Function.comp_def, Nat.succ_eq_add_one, hnext]

theorem decodeT4Reply_fetchReply (code count length : Nat) (rows : Bytes) :
    decodeT4Reply columns (fetchReply code count length rows) =
      if (rows.take (length % 2 ^ 32)).length < count % 2 ^ 32 * t4RowLength columns then none
      else some ((range (count % 2 ^ 32)).map fun i => decodeT4Row columns
        (slice (rows.take (length % 2 ^ 32)) (i * t4RowLength columns) (t4RowLength columns))) := by
  have hformat : ∀ rest, readU32 (networkBytes 0 4 ++ rest) = some (0, rest) :=
    readU32_networkBytes 0
  simp only [decodeT4Reply, fetchReply, readU32_networkBytes, hformat, Option.bind_eq_bind,
    Option.bind_some, Option.pure_def]

end

section Fetch

variable {display : Display} {engine : Engine} {columns : List T4Column}

/-- The bytes of some rows of data. -/
def encodedRows (display : Display) (engine : Engine) (columns : List T4Column)
    (rows : List (List (Option Bytes))) : Bytes :=
  rows.flatMap fun row => encodeT4Row engine columns (formatRow display columns row)

theorem encodedRow_length {row : List (Option Bytes)} (hrow : row.length = columns.length)
    (hwidth : rowWidth columns ≤ 0x7fffffff) :
    (encodeT4Row engine columns (formatRow display columns row)).length = rowWidth columns := by
  rw [(encodeT4Row_length_iff engine (formatRow_length hrow)).mpr hwidth, t4RowLength]
  omega

theorem encodedRows_length {rows : List (List (Option Bytes))}
    (hrows : ∀ row ∈ rows, row.length = columns.length) (hwidth : rowWidth columns ≤ 0x7fffffff) :
    (encodedRows display engine columns rows).length = rows.length * rowWidth columns := by
  unfold encodedRows
  rw [length_flatMap, map_congr_left fun row hrow =>
    encodedRow_length (hrows row hrow) hwidth, map_const', sum_replicate, smul_eq_mul]

/-- A client finds the rows of an answer whose numbers are not cut off. -/
theorem decodeT4Reply_rows {rows : List (List (Option Bytes))}
    (hrows : ∀ row ∈ rows, row.length = columns.length) (hwidth : rowWidth columns ≤ 0x7fffffff)
    (hcount : rows.length < 2 ^ 32) (hbytes : rows.length * rowWidth columns < 2 ^ 32) :
    decodeT4Reply columns (fetchReply 0 rows.length (encodedRows display engine columns rows).length
        (encodedRows display engine columns rows)) =
      some (rows.map fun row =>
        decodeT4Row columns (encodeT4Row engine columns (formatRow display columns row))) := by
  have hlength : (encodedRows display engine columns rows).length =
      rows.length * rowWidth columns := encodedRows_length hrows hwidth
  have hrow : t4RowLength columns = rowWidth columns := by
    unfold t4RowLength
    omega
  rw [decodeT4Reply_fetchReply, hlength, Nat.mod_eq_of_lt hcount, Nat.mod_eq_of_lt hbytes,
    take_of_length_le (by omega), hrow, if_neg (by omega)]
  exact congrArg some (slice_flatMap (decodeT4Row columns) rows
    fun row hr => encodedRow_length (hrows row hr) hwidth)

/-! ## A run of requests -/

theorem decodeT4Replies_cons {reply : Bytes} {replies : List Bytes}
    {rows rest : List (List (Option T4Value))} (h : decodeT4Reply columns reply = some rows)
    (hrest : decodeT4Replies columns replies = some rest) :
    decodeT4Replies columns (reply :: replies) = some (rows ++ rest) := by
  unfold decodeT4Replies at hrest ⊢
  obtain ⟨parts, hparts, rfl⟩ := Option.map_eq_some_iff.mp hrest
  simp only [mapM_cons, h, hparts, Option.bind_eq_bind, Option.bind_some, Option.pure_def,
    Option.map_some, flatten_cons]

variable {sent : Nat} {data : QueryData}

theorem askedAfter_bounds (label : Bytes) {total : Nat} (body : Bytes) (h : sent ≤ total) :
    sent ≤ askedAfter label total sent body ∧ askedAfter label total sent body ≤ total := by
  unfold askedAfter
  split
  · omega
  · split
    · omega
    · split <;> omega

theorem foldl_askedAfter_bounds (label : Bytes) {total : Nat} (bodies : List Bytes)
    (h : sent ≤ total) : sent ≤ bodies.foldl (askedAfter label total) sent ∧
      bodies.foldl (askedAfter label total) sent ≤ total := by
  induction bodies generalizing sent with
  | nil => exact ⟨le_refl _, h⟩
  | cons body bodies ih =>
    have hstep := askedAfter_bounds label body h
    have hrest := ih hstep.2
    exact ⟨hstep.1.trans hrest.1, hrest.2⟩

/-- The rows that are asked for behind the first `sent` ones come in two parts. -/
theorem drop_take_append {α : Type} (rows : List α) {next last : Nat} (h : sent ≤ next)
    (hlast : next ≤ last) :
    (rows.take next).drop sent ++ (rows.take last).drop next = (rows.take last).drop sent := by
  have hsplit : rows.take next = (rows.take last).take next := by
    rw [take_take, Nat.min_eq_left hlast]
  have hparts := take_append_drop (next - sent) ((rows.take last).drop sent)
  rw [hsplit, drop_take]
  rwa [drop_drop, Nat.add_sub_cancel' h] at hparts

theorem encodeT4Rows_result (data : QueryData) (start stop : Nat) :
    encodeT4Rows engine (data.result display) start stop =
      encodedRows display engine data.columns ((data.rows.take stop).drop start) := by
  unfold encodeT4Rows QueryData.result encodedRows
  rw [← map_take, ← map_drop, flatMap_map]

/-- Some rows of a result that fits arrive. -/
theorem decodeT4Reply_part (hfits : ResultFits display data) {part : List (List (Option Bytes))}
    (hpart : part.Sublist data.rows) :
    decodeT4Reply data.columns (fetchReply 0 part.length
        (encodedRows display engine data.columns part).length
        (encodedRows display engine data.columns part)) =
      some (part.map (rowValues display engine data.columns)) := by
  obtain rfl | hne := eq_or_ne part []
  · rw [decodeT4Reply_fetchReply]
    simp
  · have hwidth := hfits.width (by rintro hnil; rw [hnil] at hpart; exact hne (sublist_nil.mp hpart))
    have hlen := hpart.length_le
    have hrows := hfits.rows
    have hbytes : part.length * rowWidth data.columns < 2 ^ 32 :=
      lt_of_le_of_lt (Nat.mul_le_mul_right _ hlen) hfits.bytes
    have hfilled : ∀ row ∈ part, row.length = data.columns.length :=
      fun row hrow => data.filled row (hpart.subset hrow)
    rw [decodeT4Reply_rows hfilled hwidth (by omega) hbytes]
    refine congrArg some (map_congr_left fun row hrow => ?_)
    exact (decodeT4Row_iff (hfilled row hrow) hwidth).mpr (hfits.values row (hpart.subset hrow))

/-- What one request does to a statement of a query. -/
theorem fetchFrom_spec (engine : Engine) (hfits : ResultFits display data) (maxRows : Nat)
    (hsent : sent ≤ data.rows.length) :
    let next := if maxRows = 0 then data.rows.length else min data.rows.length (sent + maxRows)
    (fetchFrom engine ⟨false, data.result display, sent⟩ maxRows).2 =
        ⟨false, data.result display, next⟩ ∧
      decodeT4Reply data.columns
          (fetchFrom engine ⟨false, data.result display, sent⟩ maxRows).1 =
        some (((data.rows.take next).drop sent).map (rowValues display engine data.columns)) := by
  intro next
  have htotal : (data.result display).rows.length = data.rows.length := length_map _
  unfold fetchFrom
  simp only [htotal]
  by_cases hend : data.rows.length ≤ sent
  · have hnext : next = sent := by
      simp only [next]
      split <;> omega
    rw [if_pos hend, hnext]
    refine ⟨rfl, ?_⟩
    rw [decodeT4Reply_fetchReply]
    simp
  · have hnext : sent + fetchCount ⟨false, data.result display, sent⟩ maxRows = next := by
      simp only [fetchCount, htotal, next]
      split <;> omega
    have hcount : ((data.rows.take next).drop sent).length =
        fetchCount ⟨false, data.result display, sent⟩ maxRows := by
      have hle : next ≤ data.rows.length := by
        simp only [next]
        split <;> omega
      rw [length_drop, length_take]
      omega
    have hpart : ((data.rows.take next).drop sent).Sublist data.rows :=
      (drop_sublist _ _).trans (take_sublist _ _)
    rw [if_neg hend, hnext, ← hcount]
    refine ⟨rfl, ?_⟩
    rw [if_neg Bool.false_ne_true, encodeT4Rows_result]
    exact decodeT4Reply_part hfits hpart

/-- A request that does not name a statement leaves it as it is. -/
theorem handleT4Fetch_other (engine : Engine) {label body : Bytes} (statements : T4Statements)
    (h : (readFetch body).map (·.1) ≠ some label) :
    (handleT4Fetch engine statements body).2[label]? = statements[label]? := by
  unfold handleT4Fetch
  split
  · rfl
  · rename_i other maxRows hread
    have hother : other ≠ label := by
      rintro rfl
      rw [hread] at h
      exact h rfl
    split
    · rfl
    · rw [Std.ExtTreeMap.getElem?_insert, if_neg (by rwa [Std.LawfulEqCmp.compare_eq_iff_eq])]

theorem askedAfter_other {label body : Bytes} (total sent : Nat)
    (h : (readFetch body).map (·.1) ≠ some label) : askedAfter label total sent body = sent := by
  unfold askedAfter
  split
  · rfl
  · rename_i other maxRows hread
    rw [hread] at h
    exact if_pos fun heq => h (congrArg some heq)

/-- The answers to a run of requests hold the rows that were asked for. -/
theorem decodeT4Replies_repliesTo (engine : Engine) (hfits : ResultFits display data)
    (label : Bytes) (bodies : List Bytes) {statements : T4Statements}
    (hsent : sent ≤ data.rows.length)
    (hstate : statements[label]? = some ⟨false, data.result display, sent⟩) :
    decodeT4Replies data.columns (repliesTo engine label statements bodies) =
      some (((data.rows.take (bodies.foldl (askedAfter label data.rows.length) sent)).drop sent).map
        (rowValues display engine data.columns)) := by
  induction bodies generalizing statements sent with
  | nil =>
    have hnil : (data.rows.take sent).drop sent = [] := by simp
    rw [foldl_nil, hnil]
    rfl
  | cons body bodies ih =>
    rw [foldl_cons, repliesTo]
    by_cases hnamed : (readFetch body).map (·.1) = some label
    · obtain ⟨⟨other, maxRows⟩, hread, hother⟩ := Option.map_eq_some_iff.mp hnamed
      obtain rfl : other = label := hother
      obtain ⟨hnext, hreply⟩ := fetchFrom_spec engine hfits maxRows hsent
      have hasked : askedAfter other data.rows.length sent body =
          if maxRows = 0 then data.rows.length else min data.rows.length (sent + maxRows) := by
        unfold askedAfter
        rw [hread]
        exact if_neg (not_not_intro rfl)
      have hanswer : handleT4Fetch engine statements body =
          (some (fetchFrom engine ⟨false, data.result display, sent⟩ maxRows).1,
            statements.insert other ⟨false, data.result display,
              askedAfter other data.rows.length sent body⟩) := by
        unfold handleT4Fetch
        rw [hread]
        dsimp only
        rw [hstate]
        dsimp only
        rw [hnext, hasked]
      have hbounds := askedAfter_bounds other body hsent
      have hlast := foldl_askedAfter_bounds other bodies hbounds.2
      have hinsert : (statements.insert other (T4StatementState.mk false (data.result display)
          (askedAfter other data.rows.length sent body)))[other]? =
            some ⟨false, data.result display, askedAfter other data.rows.length sent body⟩ := by
        simp
      have hrest := ih hbounds.2 hinsert
      rw [← hasked] at hreply
      rw [if_pos hnamed, hanswer, ← drop_take_append data.rows hbounds.1 hlast.1, map_append]
      exact decodeT4Replies_cons hreply hrest
    · have hkept := (handleT4Fetch_other engine statements hnamed).trans hstate
      rw [if_neg hnamed, askedAfter_other _ _ hnamed]
      exact ih hsent hkept

theorem arrivesIntact_of_fits (hfits : ResultFits display data) :
    ArrivesIntact display engine data := by
  refine ⟨?_, fun statements label hstate bodies => ?_⟩
  · intro cells hcells
    obtain ⟨row, hrow, rfl⟩ := mem_map.mp hcells
    have hwidth := hfits.width (ne_nil_of_mem hrow)
    exact (encodeT4Row_length_iff engine (formatRow_length (data.filled row hrow))).mpr hwidth
  · have hrun := decodeT4Replies_repliesTo engine hfits label bodies
      (Nat.zero_le _) hstate
    rwa [drop_zero] at hrun

/-- The request for all rows of the statement without a name. -/
def fetchAll : Bytes := zeros 28

theorem readFetch_fetchAll : readFetch fetchAll = some ([], 0) := by decide

/-- One request for everything is answered with all rows at once. -/
theorem decode_fetchAll (h : ArrivesIntact display engine data) (hne : data.rows ≠ []) :
    decodeT4Reply data.columns (fetchReply 0 data.rows.length
        (encodedRows display engine data.columns data.rows).length
        (encodedRows display engine data.columns data.rows)) =
      some (data.rows.map (rowValues display engine data.columns)) := by
  have htotal : (data.result display).rows.length = data.rows.length := length_map _
  have hpos : 0 < data.rows.length := length_pos_iff.mpr hne
  have hstate : (({} : T4Statements).insert []
      (T4StatementState.mk false (data.result display) 0))[([] : Bytes)]? =
        some ⟨false, data.result display, 0⟩ := by simp
  have hrun := h.2 _ [] hstate [fetchAll]
  have hasked : askedRows [] data.rows.length [fetchAll] = data.rows.length := by
    simp [askedRows, askedAfter, readFetch_fetchAll]
  have hall : fetchCount ⟨false, data.result display, 0⟩ 0 = data.rows.length := by
    simp [fetchCount, htotal]
  have hreply : (fetchFrom engine ⟨false, data.result display, 0⟩ 0).1 =
      fetchReply 0 data.rows.length (encodedRows display engine data.columns data.rows).length
        (encodedRows display engine data.columns data.rows) := by
    unfold fetchFrom
    dsimp only
    rw [if_neg (by omega), hall, if_neg Bool.false_ne_true, encodeT4Rows_result, Nat.zero_add,
      take_length, drop_zero]
  have hreplies : repliesTo engine [] (({} : T4Statements).insert []
      (T4StatementState.mk false (data.result display) 0)) [fetchAll] =
        [(fetchFrom engine ⟨false, data.result display, 0⟩ 0).1] := by
    unfold repliesTo handleT4Fetch
    rw [readFetch_fetchAll]
    dsimp only
    rw [hstate]
    rfl
  rw [hasked, take_length, hreplies, hreply] at hrun
  unfold decodeT4Replies at hrun
  obtain ⟨parts, hparts, hflat⟩ := Option.map_eq_some_iff.mp hrun
  simp only [mapM_cons, mapM_nil, Option.pure_def, Option.bind_eq_bind,
    Option.bind_some, Option.bind_eq_some_iff, Option.some.injEq] at hparts
  obtain ⟨rows, hrows, rfl⟩ := hparts
  rw [hrows, ← hflat]
  simp

theorem fits_of_arrivesIntact (h : ArrivesIntact display engine data) :
    ResultFits display data := by
  obtain hnil | hne := eq_or_ne data.rows []
  · have hzero : data.rows.length = 0 := length_eq_zero_iff.mpr hnil
    refine ⟨fun row hrow => ?_, fun hne => absurd hnil hne, by omega, by simp [hzero]⟩
    rw [hnil] at hrow
    cases hrow
  have hall := decode_fetchAll h hne
  have hwidth : rowWidth data.columns ≤ 0x7fffffff := by
    obtain ⟨row, hrow⟩ := exists_mem_of_ne_nil _ hne
    have hlength := h.1 _ (mem_map_of_mem hrow)
    exact (encodeT4Row_length_iff engine (formatRow_length (data.filled row hrow))).mp hlength
  have hbytes : (encodedRows display engine data.columns data.rows).length =
      data.rows.length * rowWidth data.columns := encodedRows_length data.filled hwidth
  have hrow : t4RowLength data.columns = rowWidth data.columns := by
    unfold t4RowLength
    omega
  -- The numbers in front of the answer are cut to 32 bits, so both have to be smaller.
  have hsent := hall
  rw [decodeT4Reply_fetchReply, hbytes, hrow] at hsent
  split at hsent
  · cases hsent
  · rename_i henough
    have hlength := congrArg List.length (Option.some.inj hsent)
    simp only [length_map, length_range] at hlength
    rw [hlength] at henough
    have htake := length_take_le
      (data.rows.length * rowWidth data.columns % 2 ^ 32)
      (encodedRows display engine data.columns data.rows)
    have hrows : data.rows.length < 2 ^ 32 := by
      rw [← hlength]
      exact Nat.mod_lt _ (by decide)
    have hsize : data.rows.length * rowWidth data.columns < 2 ^ 32 :=
      lt_of_le_of_lt (by omega) (Nat.mod_lt (data.rows.length * rowWidth data.columns) (by decide))
    refine ⟨fun row hr => ?_, fun _ => hwidth, hrows, hsize⟩
    rw [decodeT4Reply_rows data.filled hwidth hrows hsize, Option.some.injEq] at hall
    have hvalues := map_inj_left.mp hall row hr
    exact (decodeT4Row_iff (data.filled row hr) hwidth).mp hvalues

/-- The rows of a query arrive intact, whatever a client requests, exactly when every value fits
its field and no boolean is true. -/
theorem rows_arrive_iff (display : Display) (engine : Engine) (data : QueryData) :
    ArrivesIntact display engine data ↔ ResultFits display data :=
  ⟨fits_of_arrivesIntact, arrivesIntact_of_fits⟩

end Fetch

/-! ## A boolean that is true -/

def silentDisplay : Display := ⟨fun _ _ => none, fun _ => [], fun _ => []⟩

def zeroEngine : Engine := ⟨fun _ => 0, fun _ => 0⟩

/-- A query with one row, whose only cell is a boolean that is true. -/
def trueRow : QueryData := ⟨[⟨.boolean, 1, 0, 0⟩], [[some [1]]], by decide⟩

/-- The server prints the cell as `t`, and the encoder looks for `TRUE` or `1`. -/
theorem true_arrives_as_false :
    rowValues silentDisplay zeroEngine trueRow.columns [some [1]] = [some (.flag true)] ∧
    decodeT4Replies trueRow.columns (repliesTo zeroEngine []
      (({} : T4Statements).insert [] ⟨false, trueRow.result silentDisplay, 0⟩) [fetchAll]) =
        some [[some (.flag false)]] ∧
    ¬ ArrivesIntact silentDisplay zeroEngine trueRow := by
  refine ⟨by decide +kernel, by decide +kernel, fun h => ?_⟩
  have hfits := (fits_of_arrivesIntact h).values [some [1]] mem_cons_self
  have hfalse : byteOf [1] 0 = 0 := hfits (⟨.boolean, 1, 0, 0⟩, some [1]) mem_cons_self [1] rfl
  exact absurd hfalse (by decide)

end litestore
