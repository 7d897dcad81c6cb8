-- The scan operator of the executor (`LiteStorageStubs.cpp`). Its parent puts requests into the
-- down queue and takes replies from the up queue. `work` is called again and again; it goes on
-- until the up queue is full or the buffer pool has no tuple, and must then take up where it was.
import LiteStore.Defs
import LiteStore.Lib.Loop

namespace litestore

open loop List

/-! ## The queues -/

/-- The state of a reply. -/
inductive UpStatus (ρ : Type)
  | okMmore (row : ρ)
  | sqlError (message : String)
  | noData
deriving DecidableEq

/-- A reply, with the index of the request that it answers. -/
structure UpEntry (ρ : Type) where
  status : UpStatus ρ
  downIndex : Nat
  matchNo : Nat
  /-- Rows counted in the diagnostics area of the reply. -/
  rowCount : Nat := 0
deriving DecidableEq

/-- What a request asks for. Every kind that the operators do not tell apart is `getAll`. -/
inductive DownRequest
  | getAll
  | getN (requestValue : Int)
  | getNomore
deriving DecidableEq

/-- The queues to the parent and the buffer pool: every reply so far, the room that is left in the
up queue, and what the pool will say to the next calls for a tuple (`false` when it has none). -/
structure ParentQueue (ρ : Type) where
  up : List (UpEntry ρ) := []
  room : Nat := 0
  headIndex : Nat := 0
  pool : List Bool := []
deriving DecidableEq

namespace ParentQueue

variable {ρ : Type}

def isFull (q : ParentQueue ρ) : Bool := q.room = 0

def insert (q : ParentQueue ρ) (status : UpStatus ρ) (matchNo rowCount : Nat) : ParentQueue ρ :=
  { q with up := q.up ++ [⟨status, q.headIndex, matchNo, rowCount⟩], room := q.room - 1 }

/-- `get_free_tuple`, with `true` for a tuple. -/
def getFreeTuple (q : ParentQueue ρ) : Bool × ParentQueue ρ :=
  (q.pool.headD true, { q with pool := q.pool.tail })

/-- `sendError`. It says whether the caller has to return, and it also says so when the error
is sent and the queue is full now. -/
def sendError (q : ParentQueue ρ) (matched : Nat) (message : String) : Bool × ParentQueue ρ :=
  if q.isFull then (true, q)
  else
    let q := q.insert (.sqlError message) matched 0
    (q.isFull, q)

/-- What was sent: the index of the request and the reply. -/
def reported (q : ParentQueue ρ) : List (Nat × UpStatus ρ) :=
  q.up.map fun entry => (entry.downIndex, entry.status)

end ParentQueue

/-! ## The scan -/

/-- A request to the scan, with the rows that `loadRows` finds for it and what `formatAndEvaluate`
says of a row: whether it passes. The predicate also reads the input row of the request. -/
structure ScanRequest where
  request : DownRequest
  load : Except String (List LiteRow)
  evaluate : LiteRow → Except String Bool

structure LiteRocksdbScanTcb where
  qparent : ParentQueue LiteRow := {}
  down : List ScanRequest
  matched : Nat := 0
  started : Bool := false
  rowsLoaded : Bool := false
  rowIndex : Nat := 0
  rows : List LiteRow := []

namespace LiteRocksdbScanTcb

def sendError (s : LiteRocksdbScanTcb) (message : String) : Bool × LiteRocksdbScanTcb :=
  let (full, q) := s.qparent.sendError s.matched message
  (full, { s with qparent := q })

def sendDone (s : LiteRocksdbScanTcb) : Bool × LiteRocksdbScanTcb :=
  if s.qparent.isFull then (true, s)
  else
    let q := s.qparent.insert .noData s.matched 0
    (false, { s with
      qparent := { q with headIndex := q.headIndex + 1 }
      down := s.down.tail
      started := false
      rows := [] })

def moveRowToUpQueue (s : LiteRocksdbScanTcb) (row : LiteRow) : Bool × LiteRocksdbScanTcb :=
  if s.qparent.isFull then (true, s)
  else
    let (free, q) := s.qparent.getFreeTuple
    if free then
      (false, { s with
        qparent := q.insert (.okMmore row) (s.matched + 1) 0
        matched := s.matched + 1 })
    else (true, { s with qparent := q })

/-- `GET_N` has its rows. -/
def enough (request : DownRequest) (matched : Nat) : Bool :=
  match request with
  | .getN n => n = matched
  | _ => false

def advance (s : LiteRocksdbScanTcb) : LiteRocksdbScanTcb := { s with rowIndex := s.rowIndex + 1 }

/-- The loop over the rows. The row index moves on before the row is sent. -/
def rowLoop (head : ScanRequest) : List LiteRow → LiteRocksdbScanTcb → Flow LiteRocksdbScanTcb
  | [], s => .next s
  | row :: rest, s =>
    if s.qparent.isFull then .ret s
    else if enough head.request s.matched then .next s
    else
      match head.evaluate row with
      | .error message =>
        let (full, s) := s.advance.sendError message
        if full then .ret s else .ret s.sendDone.2
      | .ok false => rowLoop head rest s.advance
      | .ok true =>
        let (blocked, s) := s.advance.moveRowToUpQueue row
        if blocked then .ret s else rowLoop head rest s

section

variable (s : LiteRocksdbScanTcb)

/-- The end of a turn: the request is answered, or the up queue is full. -/
def finish : Flow LiteRocksdbScanTcb :=
  let (full, s) := s.sendDone
  if full then .ret s else .next s

def start : LiteRocksdbScanTcb :=
  if s.started then s
  else { s with matched := 0, rowIndex := 0, rows := [], rowsLoaded := false, started := true }

def sendRows (head : ScanRequest) (s : LiteRocksdbScanTcb) : Flow LiteRocksdbScanTcb :=
  match rowLoop head (s.rows.drop s.rowIndex) s with
  | .ret s => .ret s
  | .next s => s.finish

/-- One turn of the outer loop of `work`. -/
def turn : Flow LiteRocksdbScanTcb :=
  match s.down with
  | [] => .ret s
  | head :: _ =>
    if head.request = .getNomore then s.finish
    else
      let s := s.start
      if s.rowsLoaded then sendRows head s
      else
        match head.load with
        | .error message =>
          let (full, s) := s.sendError message
          if full then .ret s else s.finish
        | .ok rows => sendRows head { s with rows, rowsLoaded := true }

/-- Every turn that goes on has answered a request. -/
def work : LiteRocksdbScanTcb :=
  whileLoop (fun s => !s.down.isEmpty) (turn) (s.down.length + 1) s

end

end LiteRocksdbScanTcb

/-- One call of `work`: the room that the parent has made in the up queue, and what the pool will
say. -/
structure WorkCall where
  room : Nat
  pool : List Bool

/-- The calls that find room in the up queue and tuples in the pool. -/
def usefulCalls (calls : List WorkCall) : Nat :=
  calls.countP fun c => c.room ≠ 0 && c.pool.all id

theorem usefulCalls_cons (c : WorkCall) (rest : List WorkCall) :
    usefulCalls (c :: rest) =
      usefulCalls rest + if c.room ≠ 0 ∧ ∀ free ∈ c.pool, free = true then 1 else 0 := by
  simp [usefulCalls, countP_cons]

def ParentQueue.atCall {ρ : Type} (q : ParentQueue ρ) (call : WorkCall) : ParentQueue ρ :=
  { q with room := call.room, pool := call.pool }

def LiteRocksdbScanTcb.call (s : LiteRocksdbScanTcb) (call : WorkCall) : LiteRocksdbScanTcb :=
  work { s with qparent := s.qparent.atCall call }

def LiteRocksdbScanTcb.run (s : LiteRocksdbScanTcb) (calls : List WorkCall) : LiteRocksdbScanTcb :=
  calls.foldl LiteRocksdbScanTcb.call s

/-! ## What is to be sent -/

variable {room : Nat} {message : String} {row : LiteRow} {rest : List ScanRequest}
  {s t : LiteRocksdbScanTcb} {head : ScanRequest}

section Queue

variable {ρ : Type} {todo : List (Nat × UpStatus ρ)} {q : ParentQueue ρ}

/-- Between two states of the queues, what was to be sent was sent or is still to be sent, and
every reply took a place in the up queue. -/
structure Emits (q q' : ParentQueue ρ) (todo todo' : List (Nat × UpStatus ρ)) : Prop where
  sent : q'.reported ++ todo' = q.reported ++ todo
  room : q'.up.length + q'.room = q.up.length + q.room

/-- The up queue does not become full with an error. -/
def LeavesRoom (room : Nat) (todo : List (Nat × UpStatus ρ)) : Prop :=
  room ≠ 0 → ∀ index message, todo[room - 1]? ≠ some (index, .sqlError message)

/-- An error is never the reply that fills the queue: a test for it. -/
theorem leavesRoom_of_status {r : Nat × UpStatus ρ} (h : todo[room - 1]? = some r)
    (herror : ∀ message, r.2 ≠ .sqlError message) : LeavesRoom room todo := by
  intro _ index message heq
  rw [h] at heq
  cases heq
  exact herror message rfl

theorem Emits.refl (q : ParentQueue ρ) (todo : List (Nat × UpStatus ρ)) : Emits q q todo todo :=
  ⟨rfl, rfl⟩

theorem Emits.trans {q' q'' : ParentQueue ρ} {todo' todo'' : List (Nat × UpStatus ρ)}
    (h : Emits q q' todo todo') (h' : Emits q' q'' todo' todo'') : Emits q q'' todo todo'' :=
  ⟨h'.sent.trans h.sent, h'.room.trans h.room⟩

/-- Every reply takes one place. -/
theorem Emits.length_eq {q' : ParentQueue ρ} {todo' : List (Nat × UpStatus ρ)}
    (h : Emits q q' todo todo') : todo'.length + q.room = todo.length + q'.room := by
  have hlength := congrArg List.length h.sent
  have hroom := h.room
  simp only [ParentQueue.reported, length_append, length_map] at hlength
  omega

/-- A reply that is sent is the next of those to be sent. -/
theorem emits_insert {status : UpStatus ρ} (h : q.isFull = false)
    (matchNo rowCount headIndex : Nat) (pool : List Bool) :
    Emits q { q.insert status matchNo rowCount with headIndex, pool }
      ((q.headIndex, status) :: todo) todo := by
  have hroom : q.room ≠ 0 := by simpa [ParentQueue.isFull] using h
  refine ⟨?_, ?_⟩
  · simp [ParentQueue.reported, ParentQueue.insert]
  · simp only [ParentQueue.insert, length_append, length_cons, length_nil]
    omega

theorem LeavesRoom.tail {first : Nat × UpStatus ρ} (h : LeavesRoom room (first :: todo)) :
    LeavesRoom (room - 1) todo := by
  intro hroom index message
  have hnot := h (by omega) index message
  rwa [show room - 1 = room - 1 - 1 + 1 by omega, getElem?_cons_succ] at hnot

/-- When an error is to be sent next, there is room for another reply behind it. -/
theorem LeavesRoom.error {index : Nat} (h : LeavesRoom room ((index, .sqlError message) :: todo)) :
    room ≠ 1 := by
  rintro rfl
  exact h (by decide) index message rfl

end Queue

/-! ## The answer to a request -/

section Answer

variable (evaluate : LiteRow → Except String Bool)

def evaluates (row : LiteRow) : Bool := (evaluate row).isOk

def passes (row : LiteRow) : Bool :=
  match evaluate row with
  | .ok pass => pass
  | .error _ => false

def evaluationError (row : LiteRow) : Option String :=
  match evaluate row with
  | .ok _ => none
  | .error message => some message

/-- The rows that pass, before the first that cannot be evaluated. -/
def passing (rows : List LiteRow) : List LiteRow :=
  (rows.takeWhile (evaluates evaluate)).filter (passes evaluate)

/-- The rows that pass, up to the limit of `GET_N`; the error of the first row that cannot be
evaluated, if the limit is not reached before it; the end. -/
def rowReplies (limit : Option Nat) (rows : List LiteRow) : List (UpStatus LiteRow) :=
  if limit.all ((passing evaluate rows).length < ·) then
    (passing evaluate rows).map .okMmore ++
      ((rows.findSome? (evaluationError evaluate)).map UpStatus.sqlError).toList ++ [.noData]
  else ((passing evaluate rows).take (limit.getD 0)).map .okMmore ++ [.noData]

variable {evaluate}

theorem rowReplies_zero (rows : List LiteRow) : rowReplies evaluate (some 0) rows = [.noData] := by
  simp [rowReplies]

theorem rowReplies_nil {limit : Option Nat} : rowReplies evaluate limit [] = [.noData] := by
  unfold rowReplies
  split <;> simp [passing]

theorem rowReplies_error {limit : Option Nat} (h : limit ≠ some 0) {rest : List LiteRow}
    (he : evaluate row = .error message) :
    rowReplies evaluate limit (row :: rest) = [.sqlError message, .noData] := by
  have hnone : passing evaluate (row :: rest) = [] := by
    simp [passing, evaluates, he, Except.isOk, Except.toBool]
  have hlimit : limit.all (([] : List LiteRow).length < ·) = true := by
    cases limit with
    | none => rfl
    | some n => simpa [Nat.pos_iff_ne_zero] using h
  rw [rowReplies, hnone, if_pos hlimit]
  simp [evaluationError, he]

theorem rowReplies_skip {limit : Option Nat} {rest : List LiteRow} (he : evaluate row = .ok false) :
    rowReplies evaluate limit (row :: rest) = rowReplies evaluate limit rest := by
  have hsame : passing evaluate (row :: rest) = passing evaluate rest := by
    simp [passing, evaluates, passes, he, Except.isOk, Except.toBool]
  rw [rowReplies, rowReplies, hsame, findSome?_cons]
  simp [evaluationError, he]

theorem rowReplies_row {limit : Option Nat} (h : limit ≠ some 0) {rest : List LiteRow}
    (he : evaluate row = .ok true) :
    rowReplies evaluate limit (row :: rest) =
      .okMmore row :: rowReplies evaluate (limit.map (· - 1)) rest := by
  have hmore : passing evaluate (row :: rest) = row :: passing evaluate rest := by
    simp [passing, evaluates, passes, he, Except.isOk, Except.toBool]
  have hnext : (row :: rest).findSome? (evaluationError evaluate) =
      rest.findSome? (evaluationError evaluate) := by
    simp [evaluationError, he]
  rw [rowReplies, rowReplies, hmore, hnext]
  cases limit with
  | none => simp
  | some n =>
    obtain _ | n := n
    · exact absurd rfl h
    · simp only [Option.all_some, Option.map_some, Option.getD_some, length_cons,
        Nat.add_sub_cancel, take_succ_cons, Nat.add_lt_add_iff_right]
      split <;> simp

end Answer

/-- A `GET_N` with a negative number has no limit: the number is never reached. -/
def DownRequest.limit : DownRequest → Option Nat
  | .getN n => if 0 ≤ n then some n.toNat else none
  | _ => none

def ScanRequest.answer (r : ScanRequest) : List (UpStatus LiteRow) :=
  if r.request = .getNomore then [.noData]
  else
    match r.load with
    | .error message => [.sqlError message, .noData]
    | .ok rows => rowReplies r.evaluate r.request.limit rows

/-- The answers to requests, the first of which has this index. -/
def scanAnswers : Nat → List ScanRequest → List (Nat × UpStatus LiteRow)
  | _, [] => []
  | index, r :: rest => r.answer.map (index, ·) ++ scanAnswers (index + 1) rest

/-! ## One call -/

namespace LiteRocksdbScanTcb

/-- What is left of the answer to the first request. -/
def current (s : LiteRocksdbScanTcb) (head : ScanRequest) : List (UpStatus LiteRow) :=
  if head.request ≠ .getNomore ∧ s.started = true ∧ s.rowsLoaded = true then
    rowReplies head.evaluate (head.request.limit.map (· - s.matched)) (s.rows.drop s.rowIndex)
  else head.answer

/-- What the operator has still to send. -/
def remaining (s : LiteRocksdbScanTcb) : List (Nat × UpStatus LiteRow) :=
  match s.down with
  | [] => []
  | head :: rest => (s.current head).map (s.qparent.headIndex, ·) ++
      scanAnswers (s.qparent.headIndex + 1) rest

/-- A scan that has no rows yet is at its start, and one that has rows has not passed the limit of
`GET_N`. -/
def InLimit (s : LiteRocksdbScanTcb) : Prop :=
  s.started = true → (s.rowsLoaded = false → s.matched = 0 ∧ s.rowIndex = 0) ∧
    (s.rowsLoaded = true →
      ∀ head rest, s.down = head :: rest → ∀ n ∈ head.request.limit, s.matched ≤ n)

/-- What holds before and after every turn: no tuple is missing, the next error will not fill the
queue. -/
structure Ready (s : LiteRocksdbScanTcb) : Prop where
  pool : ∀ free ∈ s.qparent.pool, free = true
  fits : LeavesRoom s.qparent.room s.remaining
  inLimit : s.InLimit

/-- A part of a call. -/
structure Part (s t : LiteRocksdbScanTcb) : Prop where
  emits : Emits s.qparent t.qparent s.remaining t.remaining
  ready : Ready t

theorem Part.trans {u : LiteRocksdbScanTcb} (h : Part s t) (h' : Part t u) :
    Part s u := ⟨h.emits.trans h'.emits, h'.ready⟩

theorem remaining_of_not_started (h : s.started = false) :
    s.remaining = scanAnswers s.qparent.headIndex s.down := by
  unfold remaining current
  cases s.down with
  | nil => rfl
  | cons head rest =>
    dsimp only
    rw [if_neg (by simp [h]), scanAnswers]

theorem remaining_cons (h : s.down = head :: rest) :
    s.remaining = (s.current head).map (s.qparent.headIndex, ·) ++
      scanAnswers (s.qparent.headIndex + 1) rest := by
  unfold remaining
  rw [h]

/-- The request is answered. -/
theorem part_sendDone (h : Ready s) (hdown : s.down = head :: rest)
    (hfull : s.qparent.isFull = false) (hcurrent : s.current head = [.noData]) :
    s.sendDone.1 = false ∧ Part s s.sendDone.2 ∧ s.sendDone.2.down = rest ∧
      s.sendDone.2.qparent.room + 1 = s.qparent.room := by
  have hremaining : s.remaining =
      (s.qparent.headIndex, .noData) :: scanAnswers (s.qparent.headIndex + 1) rest := by
    rw [remaining_cons hdown, hcurrent]
    rfl
  have hroom : s.qparent.room ≠ 0 := by simpa [ParentQueue.isFull] using hfull
  have hdone : s.sendDone = (false, { s with
      qparent := { s.qparent.insert .noData s.matched 0 with
        headIndex := s.qparent.headIndex + 1, pool := s.qparent.pool }
      down := rest, started := false, rows := [] }) := by
    unfold sendDone
    rw [hfull, hdown]
    rfl
  rw [hdone]
  refine ⟨rfl, ⟨?_, h.pool, ?_, fun hstarted => (nomatch hstarted)⟩, rfl, ?_⟩
  · rw [hremaining, remaining_of_not_started rfl]
    exact emits_insert hfull s.matched 0 (s.qparent.headIndex + 1) s.qparent.pool
  · rw [remaining_of_not_started rfl]
    have hfits := h.fits
    rw [hremaining] at hfits
    exact hfits.tail
  · exact Nat.sub_add_cancel (Nat.one_le_iff_ne_zero.mpr hroom)

/-- An error and the end of the answer go out together. The row index may have moved on. -/
theorem part_error (h : Ready s) (hdown : s.down = head :: rest)
    (hfull : s.qparent.isFull = false)
    (hcurrent : s.current head = [.sqlError message, .noData])
    (htq : t.qparent = s.qparent) (htdown : t.down = s.down) :
    (t.sendError message).1 = false ∧ (t.sendError message).2.sendDone.1 = false ∧
      Part s (t.sendError message).2.sendDone.2 ∧
      (t.sendError message).2.sendDone.2.down = rest ∧
      (t.sendError message).2.sendDone.2.qparent.room < s.qparent.room := by
  have hremaining : s.remaining = (s.qparent.headIndex, .sqlError message) ::
      (s.qparent.headIndex, .noData) ::
        scanAnswers (s.qparent.headIndex + 1) rest := by
    rw [remaining_cons hdown, hcurrent]
    rfl
  have hfits := h.fits
  rw [hremaining] at hfits
  have hroom : s.qparent.room ≠ 0 := by simpa [ParentQueue.isFull] using hfull
  have hmore : s.qparent.room ≠ 1 := hfits.error
  generalize hq : s.qparent.insert (.sqlError message) t.matched 0 = q
  have hqroom : q.room = s.qparent.room - 1 := by
    rw [← hq]
    rfl
  have hindex : q.headIndex = s.qparent.headIndex := by
    rw [← hq]
    rfl
  have hqfull : q.isFull = false := by
    simp only [ParentQueue.isFull, decide_eq_false_iff_not]
    omega
  have herror : t.sendError message = (false, { t with qparent := q }) := by
    unfold sendError ParentQueue.sendError
    rw [htq, hfull]
    simp only [Bool.false_eq_true, if_false, hq, hqfull]
  have hdone : ({ t with qparent := q } : LiteRocksdbScanTcb).sendDone = (false, { t with
      qparent := { q.insert .noData t.matched 0 with headIndex := q.headIndex + 1, pool := q.pool }
      down := rest, started := false, rows := [] }) := by
    unfold sendDone
    dsimp only
    rw [hqfull, htdown, hdown]
    rfl
  rw [herror]
  dsimp only
  rw [hdone]
  refine ⟨rfl, rfl, ⟨?_, ?_, ?_, fun hstarted => (nomatch hstarted)⟩, rfl, ?_⟩
  · rw [hremaining, remaining_of_not_started rfl, ← hindex]
    have hfirst : Emits s.qparent q ((s.qparent.headIndex, .sqlError message) ::
        (q.headIndex, .noData) :: scanAnswers (q.headIndex + 1) rest)
        ((q.headIndex, .noData) :: scanAnswers (q.headIndex + 1) rest) := by
      rw [← hq]
      exact emits_insert hfull t.matched 0 s.qparent.headIndex s.qparent.pool
    rw [← hindex] at hfirst
    exact hfirst.trans (emits_insert hqfull t.matched 0 (q.headIndex + 1) q.pool)
  · rw [← hq]
    exact h.pool
  · rw [remaining_of_not_started rfl]
    have hrest := hfits.tail.tail
    rw [← hindex, ← hqroom] at hrest
    exact hrest
  · show q.room - 1 < s.qparent.room
    omega

/-- The scan sends rows for this request. -/
structure Sending (s : LiteRocksdbScanTcb) (head : ScanRequest) (rest : List ScanRequest) :
    Prop where
  down : s.down = head :: rest
  request : head.request ≠ .getNomore
  started : s.started = true
  rowsLoaded : s.rowsLoaded = true

theorem Sending.current (h : Sending s head rest) : s.current head = rowReplies head.evaluate
      (head.request.limit.map (· - s.matched)) (s.rows.drop s.rowIndex) := by
  unfold LiteRocksdbScanTcb.current
  rw [if_pos ⟨h.request, h.started, h.rowsLoaded⟩]

theorem enough_iff (h : Sending s head rest) (hlimit : s.InLimit) :
    enough head.request s.matched = true ↔
      head.request.limit.map (· - s.matched) = some 0 := by
  have hin := (hlimit h.started).2 h.rowsLoaded head rest h.down
  unfold enough
  generalize head.request = request at hin ⊢
  cases request with
  | getAll | getNomore => simp [DownRequest.limit]
  | getN n =>
    simp only [DownRequest.limit] at hin ⊢
    by_cases hn : 0 ≤ n
    · rw [if_pos hn] at hin ⊢
      have hle := hin n.toNat rfl
      simp only [decide_eq_true_eq, Option.map_some, Option.some.injEq]
      omega
    · rw [if_neg hn]
      simp only [decide_eq_true_eq, Option.map_none, reduceCtorEq, iff_false]
      omega

/-- A state that has not sent anything and has the same to send. -/
theorem part_of_remaining (h : Ready s) (hq : t.qparent = s.qparent)
    (hremaining : t.remaining = s.remaining) (hlimit : t.InLimit) :
    Part s t := by
  refine ⟨?_, ?_, ?_, hlimit⟩
  · rw [hq, hremaining]
    exact Emits.refl _ _
  · rw [hq]
    exact h.pool
  · rw [hq, hremaining]
    exact h.fits

/-- A row that passes is sent, and the rows behind it are left. -/
theorem part_row {more : List LiteRow} (h : Ready s) (hs : Sending s head rest)
    (hfull : s.qparent.isFull = false) (henough : enough head.request s.matched = false)
    (hrows : s.rows.drop s.rowIndex = row :: more) (hpass : head.evaluate row = .ok true) :
    (s.advance.moveRowToUpQueue row).1 = false ∧
      Part s (s.advance.moveRowToUpQueue row).2 ∧
      Sending (s.advance.moveRowToUpQueue row).2 head rest ∧
      (s.advance.moveRowToUpQueue row).2.rows.drop
        (s.advance.moveRowToUpQueue row).2.rowIndex = more ∧
      (s.advance.moveRowToUpQueue row).2.qparent.room < s.qparent.room := by
  have hroom : s.qparent.room ≠ 0 := by simpa [ParentQueue.isFull] using hfull
  have hlimit : head.request.limit.map (· - s.matched) ≠ some 0 := by
    rw [ne_eq, ← enough_iff hs h.inLimit, henough]
    decide
  have hfree : s.qparent.pool.headD true = true := by
    cases hpool : s.qparent.pool with
    | nil => rfl
    | cons free pool => exact h.pool free (by simp [hpool])
  generalize ht : ({ s with
    qparent := { s.qparent.insert (.okMmore row) (s.matched + 1) 0 with
      headIndex := s.qparent.headIndex, pool := s.qparent.pool.tail }
    matched := s.matched + 1, rowIndex := s.rowIndex + 1 } : LiteRocksdbScanTcb) = t
  have hmove : s.advance.moveRowToUpQueue row = (false, t) := by
    unfold moveRowToUpQueue advance ParentQueue.getFreeTuple
    dsimp only
    rw [hfull, hfree, ← ht]
    rfl
  have hsending : Sending t head rest := by
    rw [← ht]
    exact { hs with }
  have hmore : t.rows.drop t.rowIndex = more := by
    rw [← ht]
    show s.rows.drop (s.rowIndex + 1) = more
    rw [← tail_drop, hrows]
    rfl
  have hmatched : t.matched = s.matched + 1 := by rw [← ht]
  have hindex : t.qparent.headIndex = s.qparent.headIndex := by rw [← ht]
  have hcurrent : s.current head = .okMmore row :: t.current head := by
    rw [hs.current, hsending.current, hrows, rowReplies_row hlimit hpass, hmore, hmatched,
      Option.map_map]
    rfl
  have hremaining : s.remaining =
      (s.qparent.headIndex, .okMmore row) :: t.remaining := by
    rw [remaining_cons hs.down, remaining_cons hsending.down, hcurrent, hindex]
    rfl
  rw [hmove]
  refine ⟨rfl, ⟨?_, ?_, ?_, ?_⟩, hsending, hmore, ?_⟩
  · rw [hremaining, ← ht]
    exact emits_insert hfull (s.matched + 1) 0 s.qparent.headIndex s.qparent.pool.tail
  · rw [← ht]
    exact fun free hmem => h.pool free (mem_of_mem_tail hmem)
  · have hfits := h.fits
    rw [hremaining] at hfits
    rw [← ht]
    rw [← ht] at hfits
    exact hfits.tail
  · refine fun _ => ⟨fun hloaded => ?_, fun _ head' rest' hdown n hn => ?_⟩
    · rw [hsending.rowsLoaded] at hloaded
      cases hloaded
    rw [hsending.down] at hdown
    cases hdown
    have hle := (h.inLimit hs.started).2 hs.rowsLoaded head rest hs.down n hn
    have hne : n ≠ s.matched := by
      rintro rfl
      exact hlimit (by rw [Option.mem_def.mp hn]; simp)
    show t.matched ≤ n
    omega
  · rw [← ht]
    show s.qparent.room - 1 < s.qparent.room
    omega

/-- How the loop over the rows ends: it returns with the queue full or with something sent, or
all that is left of the answer is its end. -/
inductive RowsEnd (s : LiteRocksdbScanTcb) (head : ScanRequest) (rest : List ScanRequest) :
    Flow LiteRocksdbScanTcb → Prop
  | ret (t : LiteRocksdbScanTcb) (part : Part s t)
      (room : t.qparent.room = 0 ∨ t.qparent.room < s.qparent.room) :
      RowsEnd s head rest (.ret t)
  | next (t : LiteRocksdbScanTcb) (part : Part s t)
      (room : t.qparent.room ≤ s.qparent.room) (sending : Sending t head rest)
      (current : t.current head = [.noData]) : RowsEnd s head rest (.next t)

theorem RowsEnd.after {flow : Flow LiteRocksdbScanTcb} (hpart : Part s t)
    (hroom : t.qparent.room ≤ s.qparent.room) (h : RowsEnd t head rest flow) :
    RowsEnd s head rest flow := by
  cases h with
  | ret u hu hend => exact .ret u (hpart.trans hu) (by omega)
  | next u hu hend hsending hcurrent => exact .next u (hpart.trans hu) (by omega) hsending hcurrent

theorem rowLoop_ends {rows : List LiteRow} (h : Ready s) (hs : Sending s head rest)
    (hrows : s.rows.drop s.rowIndex = rows) :
    RowsEnd s head rest (rowLoop head rows s) := by
  induction rows generalizing s with
  | nil =>
    refine .next s ⟨Emits.refl _ _, h⟩ (le_refl _) hs ?_
    rw [hs.current, hrows, rowReplies_nil]
  | cons row more ih =>
    unfold rowLoop
    cases hfull : s.qparent.isFull with
    | true => exact .ret s ⟨Emits.refl _ _, h⟩ (.inl (by simpa [ParentQueue.isFull] using hfull))
    | false =>
      cases henough : enough head.request s.matched with
      | true =>
        refine .next s ⟨Emits.refl _ _, h⟩ (le_refl _) hs ?_
        rw [hs.current, (enough_iff hs h.inLimit).mp henough, rowReplies_zero]
      | false =>
        have hlimit : head.request.limit.map (· - s.matched) ≠ some 0 := by
          rw [ne_eq, ← enough_iff hs h.inLimit, henough]
          decide
        simp only [Bool.false_eq_true, if_false]
        cases heval : head.evaluate row with
        | error message =>
          have hcurrent : s.current head = [.sqlError message, .noData] := by
            rw [hs.current, hrows, rowReplies_error hlimit heval]
          obtain ⟨hsent, -, hpart, -, hroom⟩ :=
            part_error (t := s.advance) h hs.down hfull hcurrent rfl rfl
          simp only [hsent, Bool.false_eq_true, if_false]
          exact .ret _ hpart (.inr hroom)
        | ok pass =>
          cases pass with
          | false =>
            have hsending : Sending s.advance head rest := { hs with }
            have hmore : s.advance.rows.drop s.advance.rowIndex = more := by
              show s.rows.drop (s.rowIndex + 1) = more
              rw [← tail_drop, hrows]
              rfl
            have hsame : s.advance.remaining = s.remaining := by
              rw [remaining_cons hsending.down, remaining_cons hs.down, hsending.current,
                hs.current, hmore, hrows, rowReplies_skip heval]
              rfl
            have hpart : Part s s.advance := by
              refine part_of_remaining h rfl hsame fun _ => ⟨fun hnot => ?_, ?_⟩
              · rw [hsending.rowsLoaded] at hnot
                cases hnot
              · exact (h.inLimit hs.started).2
            exact (ih hpart.ready hsending hmore).after hpart (le_refl _)
          | true =>
            obtain ⟨hmoved, hpart, hsending, hmore, hroom⟩ :=
              part_row h hs hfull henough hrows heval
            simp only [hmoved, Bool.false_eq_true, if_false]
            exact (ih hpart.ready hsending hmore).after hpart hroom.le

/-- How a turn of `work` ends: it returns with the queue full or with something sent, or the
request is answered. -/
inductive TurnEnd (s : LiteRocksdbScanTcb) : Flow LiteRocksdbScanTcb → Prop
  | ret (t : LiteRocksdbScanTcb) (part : Part s t)
      (room : t.qparent.room = 0 ∨ t.qparent.room < s.qparent.room) : TurnEnd s (.ret t)
  | next (t : LiteRocksdbScanTcb) (part : Part s t)
      (room : t.qparent.room < s.qparent.room) (down : t.down.length < s.down.length) :
      TurnEnd s (.next t)

theorem TurnEnd.after {flow : Flow LiteRocksdbScanTcb} (hpart : Part s t)
    (hroom : t.qparent.room ≤ s.qparent.room) (hdown : t.down = s.down)
    (h : TurnEnd t flow) : TurnEnd s flow := by
  cases h with
  | ret u hu hend => exact .ret u (hpart.trans hu) (by omega)
  | next u hu hend hless => exact .next u (hpart.trans hu) (by omega) (hdown ▸ hless)

theorem finish_ends (h : Ready s) (hdown : s.down = head :: rest)
    (hcurrent : s.current head = [.noData]) : TurnEnd s s.finish := by
  unfold finish
  cases hfull : s.qparent.isFull with
  | true =>
    have hsame : s.sendDone = (true, s) := by
      unfold sendDone
      rw [hfull]
      rfl
    rw [hsame]
    exact .ret s ⟨Emits.refl _ _, h⟩ (.inl (by simpa [ParentQueue.isFull] using hfull))
  | false =>
    obtain ⟨hdone, hpart, hrest, hroom⟩ := part_sendDone h hdown hfull hcurrent
    simp only [hdone, Bool.false_eq_true, if_false]
    exact .next _ hpart (by omega) (by rw [hrest, hdown]; simp)

theorem sendRows_ends (h : Ready s) (hs : Sending s head rest) :
    TurnEnd s (sendRows head s) := by
  have hends := rowLoop_ends h hs rfl
  unfold sendRows
  generalize rowLoop head (s.rows.drop s.rowIndex) s = flow at hends ⊢
  cases hends with
  | ret t hpart hroom => exact .ret t hpart hroom
  | next t hpart hroom hsending hcurrent =>
    exact (finish_ends hpart.ready hsending.down hcurrent).after hpart hroom
      (hsending.down.trans hs.down.symm)

theorem start_part (h : Ready s) : Part s s.start := by
  unfold start
  split
  · exact ⟨Emits.refl _ _, h⟩
  · rename_i hstarted
    refine part_of_remaining h rfl ?_ fun _ =>
      ⟨fun _ => ⟨rfl, rfl⟩, fun hloaded => (nomatch hloaded)⟩
    rw [remaining_of_not_started (s := s) (by simpa using hstarted)]
    unfold remaining current
    cases s.down with
    | nil => rfl
    | cons head rest =>
      dsimp only
      rw [if_neg (by simp)]
      rfl

theorem start_eq :
    s.start.started = true ∧ s.start.down = s.down ∧ s.start.qparent = s.qparent ∧
      (s.start.rowsLoaded = false → s.start.current = fun head => head.answer) := by
  unfold start
  split
  · rename_i hstarted
    refine ⟨hstarted, rfl, rfl, fun hloaded => ?_⟩
    funext head
    rw [current, if_neg (by simp [hloaded])]
  · refine ⟨rfl, rfl, rfl, fun hloaded => ?_⟩
    funext head
    rw [current, if_neg (by simp)]

section

variable (h : Ready s)

include h

theorem turn_ends (hdown : s.down ≠ []) :
    TurnEnd s (turn s) := by
  unfold turn
  cases hd : s.down with
  | nil => exact absurd hd hdown
  | cons head rest =>
    dsimp only
    by_cases hrequest : head.request = .getNomore
    · rw [if_pos hrequest]
      refine finish_ends h hd ?_
      rw [current, if_neg (by simp [hrequest]), ScanRequest.answer, if_pos hrequest]
    · rw [if_neg hrequest]
      have hstart := start_part h
      obtain ⟨hstarted, hsame, hq, hanswer⟩ := @start_eq s
      have hroom : s.start.qparent.room ≤ s.qparent.room := by rw [hq]
      refine TurnEnd.after hstart hroom hsame ?_
      generalize s.start = t at hstart hstarted hsame hanswer
      rw [hd] at hsame
      cases hloaded : t.rowsLoaded with
      | true => exact sendRows_ends hstart.ready ⟨hsame, hrequest, hstarted, hloaded⟩
      | false =>
        have hcurrent := congrFun (hanswer hloaded) head
        rw [ScanRequest.answer, if_neg hrequest] at hcurrent
        simp only [Bool.false_eq_true, if_false]
        cases hload : head.load with
        | error message =>
          rw [hload] at hcurrent
          cases hfull : t.qparent.isFull with
          | true =>
            have hsend : t.sendError message = (true, t) := by
              unfold sendError ParentQueue.sendError
              rw [hfull]
              rfl
            simp only [hsend, if_true]
            exact .ret t ⟨Emits.refl _ _, hstart.ready⟩
              (.inl (by simpa [ParentQueue.isFull] using hfull))
          | false =>
            obtain ⟨hsent, hdone, hpart, hrest, hless⟩ :=
              part_error hstart.ready hsame hfull hcurrent rfl rfl
            simp only [hsent, Bool.false_eq_true, if_false, finish, hdone]
            exact .next _ hpart hless (by rw [hrest, hsame]; simp)
        | ok rows =>
          rw [hload] at hcurrent
          obtain ⟨hzero, hindex⟩ := (hstart.ready.inLimit hstarted).1 hloaded
          have hsending : Sending { t with rows, rowsLoaded := true } head rest :=
            ⟨hsame, hrequest, hstarted, rfl⟩
          have hsame' : ({ t with rows, rowsLoaded := true } : LiteRocksdbScanTcb).remaining =
              t.remaining := by
            rw [remaining_cons hsending.down, remaining_cons hsame, hsending.current, hcurrent]
            simp [hzero, hindex]
          have hpart : Part t { t with rows, rowsLoaded := true } := by
            refine part_of_remaining hstart.ready rfl hsame' fun _ => ⟨fun h => (nomatch h), ?_⟩
            intro _ _ _ _ n _
            show t.matched ≤ n
            omega
          exact (sendRows_ends hpart.ready hsending).after hpart (le_refl _) rfl

/-! ## Runs -/

theorem work_part : Part s (work s) := by
  refine whileLoop_keeps (I := Part s) (fun t hcond hpart => ?_) ⟨Emits.refl _ _, h⟩
  have hends := turn_ends hpart.ready (by simpa using hcond)
  generalize turn t = flow at hends ⊢
  cases hends with
  | ret u hu | next u hu => exact hpart.trans hu

/-- The turns of a call do not make room. -/
theorem loop_room {n : Nat} :
    (whileLoop (fun s => !s.down.isEmpty) (turn) n s).qparent.room ≤ s.qparent.room := by
  refine (whileLoop_keeps (I := fun t => t.qparent.room ≤ s.qparent.room ∧ Ready t)
    (fun t ht hready => ?_) ⟨le_refl _, h⟩).1
  have hless := hready.1
  have hends := turn_ends hready.2 (by simpa using ht)
  generalize turn t = flow at hends ⊢
  cases hends with
  | ret u hu hend | next u hu hend =>
    refine ⟨?_, hu.ready⟩
    show u.qparent.room ≤ s.qparent.room
    omega

/-- A call that finds room sends something. -/
theorem work_room (hdown : s.down ≠ []) (hroom : s.qparent.room ≠ 0) :
    (work s).qparent.room < s.qparent.room := by
  have hcond : (!s.down.isEmpty) = true := by simpa using hdown
  have hends := turn_ends h hdown
  unfold work whileLoop
  rw [if_pos hcond]
  generalize turn s = flow at hends ⊢
  cases hends with
  | ret t hpart hless =>
    show t.qparent.room < s.qparent.room
    omega
  | next t hpart hless hfewer => exact (loop_room hpart.ready).trans_lt hless

end

/-- No call of the run finds the pool without a tuple, or fills the up queue with an error. -/
def RunFits : LiteRocksdbScanTcb → List WorkCall → Prop
  | _, [] => True
  | s, c :: rest => (∀ free ∈ c.pool, free = true) ∧ LeavesRoom c.room s.remaining ∧
      RunFits (s.call c) rest

theorem call_part {c : WorkCall} (hlimit : s.InLimit) (hpool : ∀ free ∈ c.pool, free = true)
    (hfits : LeavesRoom c.room s.remaining) :
    (s.call c).InLimit ∧
      (s.call c).qparent.reported ++ (s.call c).remaining =
        s.qparent.reported ++ s.remaining ∧
      (s.call c).remaining.length ≤ s.remaining.length ∧
      (s.down ≠ [] → c.room ≠ 0 →
        (s.call c).remaining.length < s.remaining.length) := by
  generalize hs : ({ s with qparent := s.qparent.atCall c } : LiteRocksdbScanTcb) = t
  have hcall : s.call c = work t := by rw [← hs]; rfl
  have hsame : t.remaining = s.remaining := by rw [← hs]; rfl
  have hreported : t.qparent.reported = s.qparent.reported := by rw [← hs]; rfl
  have hroom : t.qparent.room = c.room := by rw [← hs]; rfl
  have hdown : t.down = s.down := by rw [← hs]
  have hready : Ready t := by
    refine ⟨?_, ?_, ?_⟩
    · rw [← hs]
      exact hpool
    · rw [hsame, hroom]
      exact hfits
    · rw [← hs]
      exact hlimit
  have hpart := work_part hready
  rw [hcall]
  have hle : (work t).qparent.room ≤ t.qparent.room := loop_room hready
  have hsent := hpart.emits.length_eq
  rw [hsame] at hsent
  refine ⟨hpart.ready.inLimit, ?_, by omega, fun hmore hfree => ?_⟩
  · rw [hpart.emits.sent, hreported, hsame]
  · have hlt := work_room hready (by rwa [hdown]) (by rwa [hroom])
    omega

theorem run_of_empty (h : s.down = []) (calls : List WorkCall) :
    (s.run calls).down = [] := by
  induction calls generalizing s with
  | nil => exact h
  | cons c rest ih =>
    refine ih (s := s.call c) ?_
    unfold call work whileLoop
    rw [if_neg (by simp [h])]
    exact h

theorem rowReplies_ne_nil {evaluate : LiteRow → Except String Bool} {limit : Option Nat}
    {rows : List LiteRow} : rowReplies evaluate limit rows ≠ [] := by
  unfold rowReplies
  split <;> simp

theorem remaining_ne_nil (h : s.down ≠ []) : s.remaining ≠ [] := by
  obtain ⟨head, rest, hdown⟩ := exists_cons_of_ne_nil h
  have hcurrent : s.current head ≠ [] := by
    unfold current ScanRequest.answer
    split
    · exact rowReplies_ne_nil
    · split
      · simp
      · cases head.load with
        | error message => simp
        | ok rows => exact rowReplies_ne_nil
  rw [remaining_cons hdown]
  simp [hcurrent]

/-- Over a run nothing is lost and nothing is sent twice, and every call that finds room brings
the end closer. -/
theorem run_emits {calls : List WorkCall} (hlimit : s.InLimit) (h : RunFits s calls) :
    (s.run calls).qparent.reported ++ (s.run calls).remaining =
        s.qparent.reported ++ s.remaining ∧
      ((s.run calls).down = [] ∨
        (s.run calls).remaining.length + usefulCalls calls ≤
          s.remaining.length) := by
  induction calls generalizing s with
  | nil => exact ⟨rfl, .inr (le_refl _)⟩
  | cons c rest ih =>
    obtain ⟨hpool, hfits, hrest⟩ := h
    obtain ⟨hkept, hsent, hle, hlt⟩ := call_part hlimit hpool hfits
    obtain ⟨hmore, hend⟩ := ih hkept hrest
    refine ⟨hmore.trans hsent, ?_⟩
    by_cases hempty : s.down = []
    · exact .inl (run_of_empty hempty (c :: rest))
    · refine hend.imp id fun hless => ?_
      rw [usefulCalls_cons]
      show ((s.call c).run rest |>.remaining).length + _ ≤ _
      split
      · rename_i huseful
        have hstep := hlt hempty huseful.1
        omega
      · omega

end LiteRocksdbScanTcb

/-- What the parent of a scan sees: at any time a beginning of the answers; when the down queue is
empty all of them; and it is empty after enough calls that find room. -/
structure ScanAnswered (requests : List ScanRequest) (calls : List WorkCall)
    (s : LiteRocksdbScanTcb) : Prop where
  sent : s.qparent.reported <+: scanAnswers 0 requests
  all : s.down = [] → s.qparent.reported = scanAnswers 0 requests
  ends : (scanAnswers 0 requests).length ≤ usefulCalls calls → s.down = []

theorem scan_answered {requests : List ScanRequest} {calls : List WorkCall}
    (h : LiteRocksdbScanTcb.RunFits { down := requests } calls) :
    ScanAnswered requests calls
      (LiteRocksdbScanTcb.run { down := requests } calls) := by
  have hstart : LiteRocksdbScanTcb.remaining { down := requests } =
      scanAnswers 0 requests :=
    LiteRocksdbScanTcb.remaining_of_not_started rfl
  have hlimit : LiteRocksdbScanTcb.InLimit { down := requests } :=
    fun hstarted => (nomatch hstarted)
  obtain ⟨hsent, hend⟩ := LiteRocksdbScanTcb.run_emits hlimit h
  rw [hstart] at hsent hend
  refine ⟨⟨_, hsent⟩, fun hempty => ?_, fun hcalls => ?_⟩
  · rw [LiteRocksdbScanTcb.remaining, hempty, append_nil] at hsent
    exact hsent
  · by_contra hmore
    have hpos := length_pos_of_ne_nil (LiteRocksdbScanTcb.remaining_ne_nil hmore)
    obtain hempty | hless := hend
    · exact hmore hempty
    · omega

end litestore
