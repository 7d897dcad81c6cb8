-- The insert, update and delete operators of the executor (`LiteStorageStubs.cpp`). Each serves
-- a request in up to three turns: it works on the table, returns the row if the plan asks for
-- it, and ends the answer. What is left to do after a full queue is kept in two flags.
import LiteStore.ScanOperator

namespace litestore

open loop List

/-! ## The operators -/

inductive DmlOperator
  | insert
  | delete
  | update
deriving DecidableEq

/-- What the operators read of their plan. -/
structure DmlTdb where
  returnRow : Bool := false
  computeRowsAffected : Bool := false
  /-- The operator runs in the master executor, which counts the rows of the statement. -/
  master : Bool := true
  /-- An update may return the fetched row, and the row it leaves, through expressions. -/
  returnFetchExpr : Bool := false
  returnUpdateExpr : Bool := false

/-- A request: what it does to the table and says about it (how many rows it changed, and the row
for the parent), and whether the expressions of the returned row can be evaluated. -/
structure DmlRequest (σ ρ : Type) where
  request : DownRequest
  perform : σ → Except String (Nat × ρ) × σ
  fetchEvaluates : Bool := true
  updateEvaluates : Bool := true

/-- The tuples and expressions that a returned row needs, in order. -/
inductive ReturnStep
  | tuple
  | evaluate (ok : Bool)
deriving DecidableEq

structure DmlTcb (σ ρ : Type) where
  qparent : ParentQueue (Option ρ) := {}
  down : List (DmlRequest σ ρ)
  matched : Nat := 0
  pendingReturn : Bool := false
  pendingDone : Bool := false
  /-- The row of the last request, for the parent. -/
  convertRow : Option ρ := none
  storage : σ
  rowsAffected : Nat := 0
  /-- The requests whose work on the table was done, by their index. -/
  performed : List Nat := []

variable {σ ρ : Type}

def returnSteps (op : DmlOperator) (tdb : DmlTdb) (r : DmlRequest σ ρ) : List ReturnStep :=
  match op with
  | .insert => [.tuple]
  | .delete => [.tuple]
  | .update =>
    (if tdb.returnFetchExpr then [.tuple, .evaluate r.fetchEvaluates] else []) ++
      if tdb.returnUpdateExpr then [.tuple, .evaluate r.updateEvaluates] else [.tuple]

/-- Whether all of the steps could be done. -/
def prepareReturn : List ReturnStep → ParentQueue (Option ρ) → Bool × ParentQueue (Option ρ)
  | [], q => (true, q)
  | .tuple :: rest, q =>
    let (free, q) := q.getFreeTuple
    if free then prepareReturn rest q else (false, q)
  | .evaluate ok :: rest, q => if ok then prepareReturn rest q else (false, q)

namespace DmlTcb

def sendError (s : DmlTcb σ ρ) (message : String) : Bool × DmlTcb σ ρ :=
  let (full, q) := s.qparent.sendError s.matched message
  (full, { s with qparent := q })

def sendReturnedRow (steps : List ReturnStep) (s : DmlTcb σ ρ) : Bool × DmlTcb σ ρ :=
  if s.qparent.isFull then (true, s)
  else
    let (ready, q) := prepareReturn steps s.qparent
    if ready then (false, { s with qparent := q.insert (.okMmore s.convertRow) s.matched 0 })
    else (true, { s with qparent := q })

section

variable (op : DmlOperator) (tdb : DmlTdb) (s : DmlTcb σ ρ)

/-- Outside of the master executor an insert counts its rows in the diagnostics area of the
reply, and an update or delete nowhere. -/
def sendDone : Bool × DmlTcb σ ρ :=
  if s.qparent.isFull then (true, s)
  else
    let counted := if tdb.computeRowsAffected then s.matched else 0
    let q := s.qparent.insert .noData counted
      (if op = .insert ∧ tdb.master = false then counted else 0)
    (false, { s with
      qparent := { q with headIndex := q.headIndex + 1 }
      down := s.down.tail
      rowsAffected := if tdb.master then s.rowsAffected + counted else s.rowsAffected })

/-- The end of the turn that has worked on the table. -/
def pend : DmlTcb σ ρ :=
  if tdb.returnRow = true ∧ 0 < s.matched then { s with pendingReturn := true }
  else { s with pendingDone := true }

/-- The work on the table. It says whether `work` has to return. -/
def perform (s : DmlTcb σ ρ) (r : DmlRequest σ ρ) : Bool × DmlTcb σ ρ :=
  match r.perform s.storage with
  | (.ok (count, row), storage) =>
    (false, { s with matched := count, convertRow := some row, storage,
                     performed := s.performed ++ [s.qparent.headIndex] })
  | (.error message, storage) =>
    sendError { s with storage, performed := s.performed ++ [s.qparent.headIndex] } message

/-- One turn of the loop of `work`. -/
def turn : Flow (DmlTcb σ ρ) :=
  match s.down with
  | [] => .ret s
  | head :: _ =>
    if s.qparent.isFull then .ret s
    else if s.pendingReturn then
      let (blocked, s) := s.sendReturnedRow (returnSteps op tdb head)
      if blocked then .ret s else .next { s with pendingReturn := false, pendingDone := true }
    else if s.pendingDone then
      let (blocked, s) := s.sendDone op tdb
      if blocked then .ret s else .next { s with pendingDone := false, matched := 0 }
    else
      let s := { s with matched := 0 }
      if head.request = .getNomore then .next (s.pend tdb)
      else
        let (full, s) := s.perform head
        if full then .ret s else .next (s.pend tdb)

/-- How many turns are left at most. -/
def turnsLeft : Nat :=
  3 * s.down.length + if s.pendingReturn then 1 else if s.pendingDone then 0 else 2

def work : DmlTcb σ ρ :=
  whileLoop (fun s => !s.down.isEmpty) (turn op tdb) (s.turnsLeft + 1) s

def call (op : DmlOperator) (tdb : DmlTdb) (s : DmlTcb σ ρ) (call : WorkCall) : DmlTcb σ ρ :=
  work op tdb { s with qparent := s.qparent.atCall call }

def run (calls : List WorkCall) : DmlTcb σ ρ :=
  calls.foldl (DmlTcb.call op tdb) s

end

end DmlTcb

def LiteHbaseInsertTcb.work (tdb : DmlTdb) (s : DmlTcb σ ρ) : DmlTcb σ ρ := s.work .insert tdb

def LiteHbaseDeleteTcb.work (tdb : DmlTdb) (s : DmlTcb σ ρ) : DmlTcb σ ρ := s.work .delete tdb

def LiteHbaseUpdateTcb.work (tdb : DmlTdb) (s : DmlTcb σ ρ) : DmlTcb σ ρ := s.work .update tdb

open DmlTcb

/-! ## What the requests ask for -/

/-- The answer to a request, and the table after it. -/
def DmlRequest.answer (tdb : DmlTdb) (r : DmlRequest σ ρ) (storage : σ) :
    List (UpStatus (Option ρ)) × σ :=
  if r.request = .getNomore then ([.noData], storage)
  else
    match r.perform storage with
    | (.ok (count, row), after) =>
      (if tdb.returnRow = true ∧ 0 < count then [.okMmore (some row), .noData] else [.noData], after)
    | (.error message, after) => ([.sqlError message, .noData], after)

/-- The answers to requests, the first of which has this index. -/
def dmlAnswers (tdb : DmlTdb) : Nat → σ → List (DmlRequest σ ρ) →
    List (Nat × UpStatus (Option ρ))
  | _, _, [] => []
  | index, storage, r :: rest => (r.answer tdb storage).1.map (index, ·) ++
      dmlAnswers tdb (index + 1) (r.answer tdb storage).2 rest

/-- The table after the requests, each done once and in order. -/
def storageAfter (tdb : DmlTdb) (storage : σ) (requests : List (DmlRequest σ ρ)) : σ :=
  requests.foldl (fun storage r => (r.answer tdb storage).2) storage

/-- The requests that work on the table: all that are not cancelled. -/
def operations : Nat → List (DmlRequest σ ρ) → List Nat
  | _, [] => []
  | index, r :: rest =>
    (if r.request = .getNomore then [] else [index]) ++ operations (index + 1) rest

namespace DmlTcb

/-- The requests that are still to work on the table, and the index of the first of them. -/
def waiting (s : DmlTcb σ ρ) : Nat × List (DmlRequest σ ρ) :=
  if s.pendingReturn || s.pendingDone then (s.qparent.headIndex + 1, s.down.tail)
  else (s.qparent.headIndex, s.down)

/-- The end of the answer to the request in work. -/
def ending (s : DmlTcb σ ρ) : List (UpStatus (Option ρ)) :=
  if s.down = [] then []
  else if s.pendingReturn then [.okMmore s.convertRow, .noData]
  else if s.pendingDone then [.noData]
  else []

/-- What the operator has still to send. -/
def remaining (tdb : DmlTdb) (s : DmlTcb σ ρ) : List (Nat × UpStatus (Option ρ)) :=
  s.ending.map (s.qparent.headIndex, ·) ++ dmlAnswers tdb s.waiting.1 s.storage s.waiting.2

/-- A part of a call: replies go out in their order, the next error will not fill the queue, and
every request works on the table once. -/
structure Part (tdb : DmlTdb) (s t : DmlTcb σ ρ) : Prop where
  emits : Emits s.qparent t.qparent (s.remaining tdb) (t.remaining tdb)
  fits : LeavesRoom t.qparent.room (t.remaining tdb)
  storage : storageAfter tdb t.storage t.waiting.2 = storageAfter tdb s.storage s.waiting.2
  performed : t.performed ++ operations t.waiting.1 t.waiting.2 =
    s.performed ++ operations s.waiting.1 s.waiting.2
  room : t.qparent.room ≤ s.qparent.room
  down : t.down <:+ s.down
  pool : t.qparent.pool <:+ s.qparent.pool

variable {op : DmlOperator} {tdb : DmlTdb} {s : DmlTcb σ ρ}

theorem Part.refl (h : LeavesRoom s.qparent.room (s.remaining tdb)) : Part tdb s s :=
  ⟨Emits.refl _ _, h, rfl, rfl, le_refl _, suffix_rfl, suffix_rfl⟩

theorem Part.trans {t u : DmlTcb σ ρ} (h : Part tdb s t) (h' : Part tdb t u) : Part tdb s u :=
  ⟨h.emits.trans h'.emits, h'.fits, h'.storage.trans h.storage, h'.performed.trans h.performed,
    h'.room.trans h.room, h'.down.trans h.down, h'.pool.trans h.pool⟩

section

variable {t : DmlTcb σ ρ} (h : LeavesRoom s.qparent.room (s.remaining tdb))
  (hstorage : storageAfter tdb t.storage t.waiting.2 = storageAfter tdb s.storage s.waiting.2)
  (hperformed : t.performed ++ operations t.waiting.1 t.waiting.2 =
    s.performed ++ operations s.waiting.1 s.waiting.2) (hdown : t.down <:+ s.down)

include h hstorage hperformed hdown

/-- One reply goes out, and the same requests wait. -/
theorem part_of_reply {status : UpStatus (Option ρ)} {matchNo rowCount headIndex : Nat}
    {pool : List Bool} (hfull : s.qparent.isFull = false)
    (hq : t.qparent = { s.qparent.insert status matchNo rowCount with headIndex, pool })
    (hremaining : s.remaining tdb = (s.qparent.headIndex, status) :: t.remaining tdb)
    (hpool : pool <:+ s.qparent.pool) : Part tdb s t := by
  refine ⟨?_, ?_, hstorage, hperformed, ?_, hdown, ?_⟩
  · rw [hremaining, hq]
    exact emits_insert hfull matchNo rowCount headIndex pool
  · rw [hremaining] at h
    have hrest := h.tail
    rw [hq]
    exact hrest
  · rw [hq]
    exact Nat.sub_le _ _
  · rw [hq]
    exact hpool

/-- Nothing goes out. -/
theorem part_of_same (hup : t.qparent.up = s.qparent.up) (hroom : t.qparent.room = s.qparent.room)
    (hremaining : t.remaining tdb = s.remaining tdb)
    (hpool : t.qparent.pool <:+ s.qparent.pool) : Part tdb s t := by
  refine ⟨⟨?_, ?_⟩, ?_, hstorage, hperformed, hroom.le, hdown, hpool⟩
  · rw [hremaining, ParentQueue.reported, ParentQueue.reported, hup]
  · rw [hup, hroom]
  · rw [hremaining, hroom]
    exact h

end

theorem prepareReturn_queue (steps : List ReturnStep) (q : ParentQueue (Option ρ)) :
    (prepareReturn steps q).2.up = q.up ∧ (prepareReturn steps q).2.room = q.room ∧
      (prepareReturn steps q).2.headIndex = q.headIndex ∧
      (prepareReturn steps q).2.pool <:+ q.pool := by
  induction steps generalizing q with
  | nil => exact ⟨rfl, rfl, rfl, suffix_rfl⟩
  | cons step rest ih =>
    unfold prepareReturn
    cases step with
    | tuple =>
      obtain ⟨hup, hroom, hindex, hpool⟩ := ih { q with pool := q.pool.tail }
      cases hfree : q.pool.headD true with
      | true =>
        simp only [ParentQueue.getFreeTuple, hfree, if_true]
        exact ⟨hup, hroom, hindex, hpool.trans (tail_suffix _)⟩
      | false =>
        simp only [ParentQueue.getFreeTuple, hfree, Bool.false_eq_true, if_false]
        exact ⟨trivial, trivial, trivial, tail_suffix _⟩
    | evaluate ok =>
      cases ok with
      | true => exact ih q
      | false => exact ⟨rfl, rfl, rfl, suffix_rfl⟩

/-- How a turn of `work` ends: it returns with the queue full, or because the row cannot be
returned now, or one of the turns that are left is done. -/
inductive TurnEnd (op : DmlOperator) (tdb : DmlTdb) (s : DmlTcb σ ρ) : Flow (DmlTcb σ ρ) → Prop
  | full (t : DmlTcb σ ρ) (part : Part tdb s t) (room : t.qparent.room = 0) :
      TurnEnd op tdb s (.ret t)
  | blocked (t : DmlTcb σ ρ) (part : Part tdb s t) (head : DmlRequest σ ρ) (down : head ∈ s.down)
      (blocked : (prepareReturn (returnSteps op tdb head) s.qparent).1 = false) :
      TurnEnd op tdb s (.ret t)
  | next (t : DmlTcb σ ρ) (part : Part tdb s t) (turns : t.turnsLeft < s.turnsLeft) :
      TurnEnd op tdb s (.next t)

section Turn

variable {head : DmlRequest σ ρ} {rest : List (DmlRequest σ ρ)}
  (h : LeavesRoom s.qparent.room (s.remaining tdb)) (hdown : s.down = head :: rest)
  (hfull : s.qparent.isFull = false)

include h hdown hfull

theorem return_ends (hreturn : s.pendingReturn = true) :
    TurnEnd op tdb s (turn op tdb s) := by
  obtain ⟨q₀, down, matched, pendingReturn, done, row, storage, affected, performed⟩ := s
  dsimp only at hdown hfull hreturn
  subst hdown hreturn
  obtain ⟨hup, hroom, hindex, hpool⟩ := prepareReturn_queue (returnSteps op tdb head) q₀
  unfold turn sendReturnedRow
  simp only [hfull, Bool.false_eq_true, if_false, if_true]
  generalize hprepared : prepareReturn (returnSteps op tdb head) q₀ = prepared at hup hroom hindex hpool
  obtain ⟨ready, q⟩ := prepared
  dsimp only at hup hroom hindex hpool
  obtain ⟨up, room, headIndex, pool⟩ := q
  dsimp only at hup hroom hindex hpool
  subst hup hroom hindex
  cases ready with
  | false =>
    refine .blocked _ (part_of_same h rfl rfl ?_ rfl rfl rfl hpool) head (by simp) (by rw [hprepared])
    exact suffix_rfl
  | true =>
    refine .next _ (part_of_reply h rfl rfl suffix_rfl hfull rfl rfl hpool) ?_
    simp [turnsLeft]

theorem done_ends (hreturn : s.pendingReturn = false) (hdone : s.pendingDone = true) :
    TurnEnd op tdb s (turn op tdb s) := by
  obtain ⟨q₀, down, matched, pendingReturn, done, row, storage, affected, performed⟩ := s
  dsimp only at hdown hfull hreturn hdone
  subst hdown hreturn hdone
  unfold turn sendDone
  simp only [hfull, Bool.false_eq_true, if_false, if_true]
  refine .next _ (part_of_reply h rfl rfl (suffix_cons _ _) hfull rfl ?_ suffix_rfl) ?_
  · cases rest <;> rfl
  · simp only [turnsLeft, length_cons, tail_cons, Bool.false_eq_true, if_false, if_true]
    omega

theorem perform_ends (hreturn : s.pendingReturn = false) (hdone : s.pendingDone = false) :
    TurnEnd op tdb s (turn op tdb s) := by
  obtain ⟨q₀, down, matched, pendingReturn, done, row, storage, affected, performed⟩ := s
  dsimp only at hdown hfull hreturn hdone
  subst hdown hreturn hdone
  have hremaining : remaining tdb (⟨q₀, head :: rest, matched, false, false, row, storage, affected,
      performed⟩ : DmlTcb σ ρ) = (head.answer tdb storage).1.map (q₀.headIndex, ·) ++
        dmlAnswers tdb (q₀.headIndex + 1) (head.answer tdb storage).2 rest := rfl
  have hstorage : ∀ {replies after}, head.answer tdb storage = (replies, after) →
      storageAfter tdb after rest = storageAfter tdb storage (head :: rest) := by
    intro replies after hanswer
    show _ = storageAfter tdb (head.answer tdb storage).2 rest
    rw [hanswer]
  unfold turn
  simp only [hfull, Bool.false_eq_true, if_false]
  by_cases hrequest : head.request = .getNomore
  · have hanswer : head.answer tdb storage = ([.noData], storage) := by
      rw [DmlRequest.answer, if_pos hrequest]
    rw [if_pos hrequest, pend, if_neg (by simp)]
    refine .next _ (part_of_same h (hstorage hanswer) ?_ suffix_rfl rfl rfl
      (by rw [hremaining, hanswer]; rfl) suffix_rfl) ?_
    · show performed ++ operations (q₀.headIndex + 1) rest =
        performed ++ operations q₀.headIndex (head :: rest)
      rw [operations, if_pos hrequest, nil_append]
    · simp [turnsLeft]
  · have hoperations : performed ++ [q₀.headIndex] ++ operations (q₀.headIndex + 1) rest =
        performed ++ operations q₀.headIndex (head :: rest) := by
      rw [operations, if_neg hrequest, append_assoc]
    rw [if_neg hrequest, perform]
    dsimp only
    cases hperform : head.perform storage with
    | mk outcome after =>
      cases outcome with
      | ok result =>
        obtain ⟨count, row'⟩ := result
        simp only [Bool.false_eq_true, if_false, pend]
        have hanswer : head.answer tdb storage = (if tdb.returnRow = true ∧ 0 < count then
            [.okMmore (some row'), .noData] else [.noData], after) := by
          rw [DmlRequest.answer, if_neg hrequest, hperform]
        split
        all_goals
          rename_i hreturns
          refine .next _ (part_of_same h (hstorage hanswer) hoperations suffix_rfl rfl rfl ?_
            suffix_rfl) (by simp [turnsLeft])
          rw [hremaining, hanswer]
          simp only [hreturns, if_true, if_false, true_and]
          rfl
      | error message =>
        have hanswer : head.answer tdb storage = ([.sqlError message, .noData], after) := by
          rw [DmlRequest.answer, if_neg hrequest, hperform]
        have hroom : q₀.room ≠ 0 := by simpa [ParentQueue.isFull] using hfull
        have hmore : q₀.room ≠ 1 := by
          rw [hremaining, hanswer] at h
          exact h.error
        have hsent : (q₀.insert (.sqlError message) 0 0).isFull = false := by
          rw [ParentQueue.isFull, decide_eq_false_iff_not]
          show ¬ q₀.room - 1 = 0
          omega
        simp only [sendError, ParentQueue.sendError, hfull, Bool.false_eq_true, if_false, hsent]
        rw [pend, if_neg (by simp)]
        refine .next _ (part_of_reply h (hstorage hanswer) hoperations suffix_rfl hfull rfl ?_
          suffix_rfl) (by simp [turnsLeft])
        rw [hremaining, hanswer]
        rfl

end Turn

theorem turn_ends (h : LeavesRoom s.qparent.room (s.remaining tdb)) (hdown : s.down ≠ []) :
    TurnEnd op tdb s (turn op tdb s) := by
  obtain ⟨head, rest, hcons⟩ := exists_cons_of_ne_nil hdown
  cases hfull : s.qparent.isFull with
  | true =>
    have hret : turn op tdb s = .ret s := by
      unfold turn
      rw [hcons]
      simp only [hfull, if_true]
    rw [hret]
    exact .full s (.refl h) (by simpa [ParentQueue.isFull] using hfull)
  | false =>
    cases hreturn : s.pendingReturn with
    | true => exact return_ends h hcons hfull hreturn
    | false =>
      cases hdone : s.pendingDone with
      | true => exact done_ends h hcons hfull hreturn hdone
      | false => exact perform_ends h hcons hfull hreturn hdone

/-! ## Runs -/

/-- The expressions of the returned row can be evaluated. -/
def ReturnEvaluates (op : DmlOperator) (tdb : DmlTdb) (r : DmlRequest σ ρ) : Prop :=
  ∀ ok, ReturnStep.evaluate ok ∈ returnSteps op tdb r → ok = true

theorem prepareReturn_ready {steps : List ReturnStep} {q : ParentQueue (Option ρ)}
    (hpool : ∀ free ∈ q.pool, free = true) (hsteps : ∀ ok, .evaluate ok ∈ steps → ok = true) :
    (prepareReturn steps q).1 = true := by
  induction steps generalizing q with
  | nil => rfl
  | cons step rest ih =>
    have hrest : ∀ ok, .evaluate ok ∈ rest → ok = true :=
      fun ok hok => hsteps ok (mem_cons_of_mem _ hok)
    unfold prepareReturn
    cases step with
    | tuple =>
      have hfree : q.pool.headD true = true := by
        cases hq : q.pool with
        | nil => rfl
        | cons free pool => exact hpool free (by simp [hq])
      simp only [ParentQueue.getFreeTuple, hfree, if_true]
      exact ih (fun free hmem => hpool free (mem_of_mem_tail hmem)) hrest
    | evaluate ok =>
      rw [hsteps ok mem_cons_self]
      exact ih hpool hrest

theorem turn_part {t : DmlTcb σ ρ} (h : Part tdb s t) (hdown : t.down ≠ []) :
    Part tdb s (turn op tdb t).state := by
  have hends : TurnEnd op tdb t (turn op tdb t) := turn_ends h.fits hdown
  generalize turn op tdb t = flow at hends ⊢
  cases hends with
  | full u hu | blocked u hu | next u hu => exact h.trans hu

theorem work_part (h : LeavesRoom s.qparent.room (s.remaining tdb)) : Part tdb s (work op tdb s) :=
  whileLoop_keeps (I := Part tdb s) (fun _ hcond hpart => turn_part hpart (by simpa using hcond))
    (.refl h)

/-- A call that finds tuples goes on until the up queue is full or every request is answered. -/
theorem work_end (h : LeavesRoom s.qparent.room (s.remaining tdb))
    (hpool : ∀ free ∈ s.qparent.pool, free = true)
    (hreturn : ∀ r ∈ s.down, ReturnEvaluates op tdb r) :
    (work op tdb s).down = [] ∨ (work op tdb s).qparent.room = 0 := by
  have hend : (!(work op tdb s).down.isEmpty) = false ∨
      ∃ u, Part tdb s u ∧ (!u.down.isEmpty) = true ∧ turn op tdb u = .ret (work op tdb s) := by
    have hkeeps : ∀ t : DmlTcb σ ρ, (!t.down.isEmpty) = true → Part tdb s t →
        Part tdb s (turn op tdb t).state :=
      fun _ hcond hpart => turn_part hpart (by simpa using hcond)
    have hfalls : ∀ t u : DmlTcb σ ρ, (!t.down.isEmpty) = true → Part tdb s t →
        turn op tdb t = .next u → u.turnsLeft < t.turnsLeft := by
      intro t u hcond hpart hnext
      have hends : TurnEnd op tdb t (turn op tdb t) := turn_ends hpart.fits (by simpa using hcond)
      rw [hnext] at hends
      cases hends with
      | next _ _ hturns => exact hturns
    exact whileLoop_ends turnsLeft hkeeps hfalls (.refl h) (Nat.lt_succ_self s.turnsLeft)
  obtain hcond | ⟨u, hpart, hcond, hret⟩ := hend
  · exact .inl (by simpa using hcond)
  · have hends : TurnEnd op tdb u (turn op tdb u) := turn_ends hpart.fits (by simpa using hcond)
    rw [hret] at hends
    cases hends with
    | full _ _ hroom => exact .inr hroom
    | blocked _ _ head hhead hblocked =>
      have hready := prepareReturn_ready (fun free hmem => hpool free (hpart.pool.subset hmem))
        (hreturn head (hpart.down.subset hhead))
      rw [hblocked] at hready
      cases hready

/-- No call of the run fills the up queue with an error. -/
def RunFits (op : DmlOperator) (tdb : DmlTdb) : DmlTcb σ ρ → List WorkCall → Prop
  | _, [] => True
  | s, c :: rest => LeavesRoom c.room (s.remaining tdb) ∧ RunFits op tdb (s.call op tdb c) rest

theorem remaining_ne_nil (h : s.down ≠ []) : s.remaining tdb ≠ [] := by
  obtain ⟨head, rest, hdown⟩ := exists_cons_of_ne_nil h
  have hanswer : ∀ storage, (head.answer tdb storage).1 ≠ [] := by
    intro storage
    unfold DmlRequest.answer
    split
    · simp
    · split
      · split <;> simp
      · simp
  unfold remaining
  cases hreturn : s.pendingReturn with
  | true => simp [ending, hdown, hreturn]
  | false =>
    cases hdone : s.pendingDone with
    | true => simp [ending, hdown, hreturn, hdone]
    | false => simp [waiting, hdown, hreturn, hdone, dmlAnswers, hanswer]

theorem call_part {c : WorkCall} (hfits : LeavesRoom c.room (s.remaining tdb)) :
    (s.call op tdb c).qparent.reported ++ (s.call op tdb c).remaining tdb =
        s.qparent.reported ++ s.remaining tdb ∧
      storageAfter tdb (s.call op tdb c).storage (s.call op tdb c).waiting.2 =
        storageAfter tdb s.storage s.waiting.2 ∧
      (s.call op tdb c).performed ++
          operations (s.call op tdb c).waiting.1 (s.call op tdb c).waiting.2 =
        s.performed ++ operations s.waiting.1 s.waiting.2 ∧
      (s.call op tdb c).down <:+ s.down ∧
      ((s.call op tdb c).remaining tdb).length ≤ (s.remaining tdb).length ∧
      ((∀ r ∈ s.down, ReturnEvaluates op tdb r) → (∀ free ∈ c.pool, free = true) → c.room ≠ 0 →
        (s.call op tdb c).down = [] ∨
          ((s.call op tdb c).remaining tdb).length < (s.remaining tdb).length) := by
  have hpart : Part tdb { s with qparent := s.qparent.atCall c } (s.call op tdb c) :=
    work_part hfits
  have hlength := hpart.emits.length_eq
  have hroom := hpart.room
  have hsame : remaining tdb { s with qparent := s.qparent.atCall c } = s.remaining tdb := rfl
  have hc : ({ s with qparent := s.qparent.atCall c } : DmlTcb σ ρ).qparent.room = c.room := rfl
  rw [hsame] at hlength
  refine ⟨hpart.emits.sent, hpart.storage, hpart.performed, hpart.down, by omega, ?_⟩
  intro hreturn hpool hfree
  have hend : (s.call op tdb c).down = [] ∨ (s.call op tdb c).qparent.room = 0 :=
    work_end (s := { s with qparent := s.qparent.atCall c }) hfits hpool hreturn
  exact hend.imp id fun hfull => by omega

theorem run_of_empty (h : s.down = []) (calls : List WorkCall) :
    (s.run op tdb calls).down = [] := by
  induction calls generalizing s with
  | nil => exact h
  | cons c rest ih =>
    refine ih (s := s.call op tdb c) ?_
    unfold call work whileLoop
    rw [if_neg (by simp [h])]
    exact h

theorem waiting_of_empty (h : s.down = []) : s.waiting.2 = [] := by
  unfold waiting
  split <;> simp [h]

/-- Over a run nothing is lost and nothing is done twice, and every call that finds room and
tuples brings the end closer. -/
theorem run_part {calls : List WorkCall} (h : RunFits op tdb s calls) :
    (s.run op tdb calls).qparent.reported ++ (s.run op tdb calls).remaining tdb =
        s.qparent.reported ++ s.remaining tdb ∧
      storageAfter tdb (s.run op tdb calls).storage (s.run op tdb calls).waiting.2 =
        storageAfter tdb s.storage s.waiting.2 ∧
      (s.run op tdb calls).performed ++
          operations (s.run op tdb calls).waiting.1 (s.run op tdb calls).waiting.2 =
        s.performed ++ operations s.waiting.1 s.waiting.2 ∧
      ((∀ r ∈ s.down, ReturnEvaluates op tdb r) → (s.run op tdb calls).down = [] ∨
        ((s.run op tdb calls).remaining tdb).length + usefulCalls calls ≤
          (s.remaining tdb).length) := by
  induction calls generalizing s with
  | nil => exact ⟨rfl, rfl, rfl, fun _ => .inr (le_refl _)⟩
  | cons c rest ih =>
    obtain ⟨hfits, hrest⟩ := h
    obtain ⟨hsent, hstorage, hperformed, hdown, hle, hlt⟩ := call_part hfits
    obtain ⟨hsent', hstorage', hperformed', hend⟩ := ih hrest
    refine ⟨hsent'.trans hsent, hstorage'.trans hstorage, hperformed'.trans hperformed, ?_⟩
    intro hreturn
    have hmore := hend fun r hr => hreturn r (hdown.subset hr)
    show ((s.call op tdb c).run op tdb rest).down = [] ∨
      (remaining tdb ((s.call op tdb c).run op tdb rest)).length + _ ≤ _
    rw [usefulCalls_cons]
    split
    · rename_i huseful
      obtain hempty | hless := hlt hreturn huseful.2 huseful.1
      · exact .inl (run_of_empty hempty rest)
      · exact hmore.imp id fun hlength => by omega
    · exact hmore.imp id fun hlength => by omega

end DmlTcb

/-- What the parent of an operator sees, and what happens to the table: at any time a beginning of
the answers, and each request that was worked on was worked on once, in order; when the down queue
is empty all of it; and it is empty after enough calls that find room and tuples. -/
structure DmlAnswered (op : DmlOperator) (tdb : DmlTdb) (storage : σ)
    (requests : List (DmlRequest σ ρ)) (calls : List WorkCall) (s : DmlTcb σ ρ) : Prop where
  sent : s.qparent.reported <+: dmlAnswers tdb 0 storage requests
  performed : s.performed <+: operations 0 requests
  all : s.down = [] → s.qparent.reported = dmlAnswers tdb 0 storage requests ∧
    s.performed = operations 0 requests ∧ s.storage = storageAfter tdb storage requests
  ends : (∀ r ∈ requests, DmlTcb.ReturnEvaluates op tdb r) →
    (dmlAnswers tdb 0 storage requests).length ≤ usefulCalls calls → s.down = []

theorem dml_answered {op : DmlOperator} {tdb : DmlTdb} {storage : σ}
    {requests : List (DmlRequest σ ρ)} {calls : List WorkCall}
    (h : DmlTcb.RunFits op tdb { down := requests, storage } calls) :
    DmlAnswered op tdb storage requests calls
      (run op tdb { down := requests, storage } calls) := by
  have hstart : remaining tdb { down := requests, storage } =
      dmlAnswers tdb 0 storage requests := by
    cases requests <;> rfl
  obtain ⟨hsent, hstorage, hperformed, hend⟩ := run_part h
  rw [hstart] at hsent hend
  refine ⟨⟨_, hsent⟩, ⟨_, hperformed⟩, fun hempty => ?_, fun hreturn hcalls => ?_⟩
  · have hwaiting := waiting_of_empty hempty
    rw [remaining, ending, if_pos hempty, hwaiting] at hsent
    rw [hwaiting] at hstorage hperformed
    refine ⟨?_, ?_, hstorage⟩
    · exact (append_nil _).symm.trans hsent
    · exact (append_nil _).symm.trans hperformed
  · by_contra hmore
    have hpos := length_pos_of_ne_nil (@DmlTcb.remaining_ne_nil σ ρ tdb _ hmore)
    obtain hempty | hless := hend hreturn
    · exact hmore hempty
    · omega

/-! ## All operators -/

/-- In a run in which no call of the scan finds the pool empty, and no call fills the up queue with
an error, every operator answers every request once. -/
theorem operators_answer_each_request_once (scanRequests : List ScanRequest)
    (scanCalls : List WorkCall) (op : DmlOperator) (tdb : DmlTdb) (storage : σ)
    (requests : List (DmlRequest σ ρ)) (calls : List WorkCall) :
    (LiteRocksdbScanTcb.RunFits { down := scanRequests } scanCalls →
      ScanAnswered scanRequests scanCalls
        (LiteRocksdbScanTcb.run { down := scanRequests } scanCalls)) ∧
    (DmlTcb.RunFits op tdb { down := requests, storage } calls →
      DmlAnswered op tdb storage requests calls
        (run op tdb { down := requests, storage } calls)) :=
  ⟨scan_answered, dml_answered⟩

/-- The parent takes the rows of a scan one at a time, and an insert that fails finds room for its
error and the end of the answer. -/
theorem operators_answer_two_requests :
    ScanAnswered [⟨.getAll, .ok [⟨1, default⟩, ⟨2, default⟩], fun _ => .ok true⟩]
      [⟨1, []⟩, ⟨1, []⟩, ⟨1, []⟩]
      (LiteRocksdbScanTcb.run
        { down := [⟨.getAll, .ok [⟨1, default⟩, ⟨2, default⟩], fun _ => .ok true⟩] }
        [⟨1, []⟩, ⟨1, []⟩, ⟨1, []⟩]) ∧
    DmlAnswered (ρ := Unit) .insert {} ()
      [{ request := .getAll, perform := fun _ => (.error "duplicate lite primary key", ()) }]
      [⟨2, []⟩]
      (run .insert {}
        { down := [{ request := .getAll,
                     perform := fun _ => (.error "duplicate lite primary key", ()) }],
          storage := () } [⟨2, []⟩]) := by
  have h := operators_answer_each_request_once (σ := Unit) (ρ := Unit)
    [⟨.getAll, .ok [⟨1, default⟩, ⟨2, default⟩], fun _ => .ok true⟩]
    [⟨1, []⟩, ⟨1, []⟩, ⟨1, []⟩] .insert {} ()
    [{ request := .getAll, perform := fun _ => (.error "duplicate lite primary key", ()) }]
    [⟨2, []⟩]
  refine ⟨h.1 ⟨by simp, leavesRoom_of_status (r := (0, .okMmore ⟨1, default⟩)) rfl (by simp),
    by simp, leavesRoom_of_status (r := (0, .okMmore ⟨2, default⟩)) rfl (by simp), by simp,
    leavesRoom_of_status (r := (0, .noData)) rfl (by simp), trivial⟩,
    h.2 ⟨leavesRoom_of_status (r := (0, .noData)) rfl (by simp), trivial⟩⟩

/-- A scan whose pool has no tuple for its first row goes on with the second, and an insert whose
error fills the up queue is done again. -/
theorem operators_lose_a_row_and_insert_twice :
    (LiteRocksdbScanTcb.run
        { down := [⟨.getAll, .ok [⟨1, default⟩, ⟨2, default⟩], fun _ => .ok true⟩] }
        [⟨8, [false]⟩, ⟨8, []⟩]).qparent.reported =
      [(0, .okMmore ⟨2, default⟩), (0, .noData)] ∧
    (run (ρ := Unit) .insert {}
        { down := [{ request := .getAll,
                     perform := fun _ => (.error "duplicate lite primary key", ()) }],
          storage := () } [⟨1, []⟩, ⟨2, []⟩]).performed = [0, 0] ∧
    (run (ρ := Unit) .insert {}
        { down := [{ request := .getAll,
                     perform := fun _ => (.error "duplicate lite primary key", ()) }],
          storage := () } [⟨1, []⟩, ⟨2, []⟩]).qparent.reported =
      [(0, .sqlError "duplicate lite primary key"), (0, .sqlError "duplicate lite primary key"),
        (0, .noData)] := by
  decide +kernel

end litestore
