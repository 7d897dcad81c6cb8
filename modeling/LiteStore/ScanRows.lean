-- Rows on their way from a scan to an update or a delete of the same table
-- (`LiteStorageStubs.cpp`). The scan leaves a handle of every row it returns in
-- a queue of the process, and the target takes the first handle for each
-- request. Between them stand the operators of the plan and a tuple flow.
import LiteStore.Defs
import LiteStore.Lib.Checked
import LiteStore.Lib.Transitions

namespace litestore

open checked transitions

/-! ## The queues of handles -/

/-- What the key of a queue is made of, apart from the table: the address of the context and
the number of the execution. -/
structure StmtGlobals where
  context : UInt64
  executionCount : UInt64

/-- `%p`. -/
def pointerText (p : UInt64) : String :=
  if p = 0 then "(nil)" else "0x" ++ String.ofList (Nat.toDigits 16 p.toNat)

def liteScanRowKey (tableName : Bytes) (globals : StmtGlobals) : Bytes :=
  tableName ++ textBytes
    ("#" ++ pointerText globals.context ++ "#" ++ toString globals.executionCount.toNat)

/-- `liteScanRows`: the queues of the process. A queue that has become empty is erased. -/
abbrev ScanRows := Std.ExtTreeMap Bytes (List LiteRow) compare

section

variable (rows : ScanRows) (key k : Bytes)

def liteRememberScanRow (row : LiteRow) : ScanRows :=
  rows.insert key ((rows[key]?).getD [] ++ [row])

def liteTakeScanRow : Option LiteRow × ScanRows :=
  match rows[key]? with
  | none => (none, rows)
  | some [] => (none, rows)
  | some (row :: rest) =>
    (some row, if rest.isEmpty then rows.erase key else rows.insert key rest)

def liteForgetScanRows : ScanRows := rows.erase key

/-- The handles that wait under a key. -/
def ScanRows.waiting : List LiteRow := (rows[key]?).getD []

theorem waiting_remember (row : LiteRow) : (liteRememberScanRow rows k row).waiting key =
      if k = key then rows.waiting key ++ [row] else rows.waiting key := by
  unfold liteRememberScanRow ScanRows.waiting
  rw [getElem?_insert_eq]
  by_cases h : k = key
  · subst h
    simp
  · simp [h]

theorem waiting_forget :
    (liteForgetScanRows rows k).waiting key = if k = key then [] else rows.waiting key := by
  unfold liteForgetScanRows ScanRows.waiting
  rw [getElem?_erase_eq]
  by_cases h : k = key
  · simp [h]
  · simp [h]

/-- The first handle is taken, and the others stay. -/
theorem take_eq : (liteTakeScanRow rows k).1 = (rows.waiting k).head? ∧
      ∀ key, (liteTakeScanRow rows k).2.waiting key =
        if k = key then (rows.waiting key).tail else rows.waiting key := by
  unfold liteTakeScanRow ScanRows.waiting
  cases h : rows[k]? with
  | none =>
    refine ⟨rfl, fun key => ?_⟩
    by_cases hk : k = key
    · subst hk
      simp [h]
    · simp [hk]
  | some queue =>
    cases queue with
    | nil =>
      refine ⟨rfl, fun key => ?_⟩
      by_cases hk : k = key
      · subst hk
        simp [h]
      · simp [hk]
    | cons row rest =>
      refine ⟨rfl, fun key => ?_⟩
      by_cases hrest : rest.isEmpty
      · rw [List.isEmpty_iff] at hrest
        subst hrest
        simp only [List.isEmpty_nil, if_true, getElem?_erase_eq]
        by_cases hk : k = key
        · subst hk
          simp [h]
        · simp [hk]
      · simp only [hrest, Bool.false_eq_true, if_false, getElem?_insert_eq]
        by_cases hk : k = key
        · subst hk
          simp [h]
        · simp [hk]

end

/-- In one execution two tables never share a queue. -/
theorem liteScanRowKey_inj {a b : Bytes} {globals : StmtGlobals}
    (h : liteScanRowKey a globals = liteScanRowKey b globals) : a = b :=
  List.append_cancel_right h

/-! ## The flow of a plan -/

/-- A plan that scans a table and updates or deletes rows of it. An entry of a queue is shown by
the row whose columns it carries. The operators in between may return what they have read in any
order, several times or never. -/
structure ScanFlow where
  liteScanRows : ScanRows := ∅
  /-- The up queue of the scan. -/
  scanUp : List LiteRow := []
  /-- What the operators have read, and how many rows they have returned. -/
  held : List LiteRow := []
  returned : Nat := 0
  /-- The up queue of the source of the tuple flow, and the down queue of its target. -/
  srcUp : List LiteRow := []
  tgtDown : List LiteRow := []
  /-- The requests that the target is done with. -/
  finished : List LiteRow := []
  /-- The calls of `liteTakeScanRow`, each with its request and the row it took. -/
  taken : List (LiteRow × Option LiteRow) := []

/-- What the target does when it works on its first request. A request is passed if it is
cancelled (`GET_NOMORE`), or for a merge. It may fail before its handle is taken (missing buffers,
`loadTable`, `sourceIndexes`) or behind that. If the answer to a failure fills the up queue, work
returns, and the next call begins with the same request. -/
inductive TargetTurn
  | passed
  | failsEarly (upIsFull : Bool)
  | failsLate (upIsFull : Bool)
  | served

def TargetTurn.takes : TargetTurn → Bool
  | .passed | .failsEarly _ => false
  | .failsLate _ | .served => true

def TargetTurn.again : TargetTurn → Bool
  | .failsEarly upIsFull | .failsLate upIsFull => upIsFull
  | .passed | .served => false

/-- What can happen next, in the plan or beside it. -/
inductive FlowStep
  /-- `moveRowToUpQueue` of the scan. -/
  | scanRow (row : LiteRow)
  /-- An operator reads the next row of the scan. -/
  | read
  /-- The operators return the `n`th of the rows that they have read. -/
  | produce (n : Nat)
  /-- `MOVE_SRC_TO_TGT_` of the tuple flow. -/
  | moveSrcToTgt
  /-- The target works on its first request. -/
  | target (turn : TargetTurn)
  /-- Another scan returns a row, another target takes one, or the handles of a table are
  forgotten (a cancelled request, `freeResources`, a merge). -/
  | otherScan (tableName : Bytes) (globals : StmtGlobals) (row : LiteRow)
  | otherTarget (tableName : Bytes) (globals : StmtGlobals)
  | forget (tableName : Bytes) (globals : StmtGlobals)

/-- A request takes the first handle. -/
def ScanFlow.takeRow (key : Bytes) (request : LiteRow) (s : ScanFlow) : ScanFlow :=
  { s with
    liteScanRows := (liteTakeScanRow s.liteScanRows key).2
    taken := s.taken ++ [(request, (liteTakeScanRow s.liteScanRows key).1)] }

/-- One step of a plan whose scan and target are under `key`. -/
def ScanFlow.step (key : Bytes) (s : ScanFlow) : FlowStep → Option ScanFlow
  | .scanRow row => some { s with
      liteScanRows := liteRememberScanRow s.liteScanRows key row
      scanUp := s.scanUp ++ [row] }
  | .read =>
    match s.scanUp with
    | [] => none
    | row :: rest => some { s with scanUp := rest, held := s.held ++ [row] }
  | .produce n =>
    match s.held[n]? with
    | none => none
    | some row => some { s with returned := s.returned + 1, srcUp := s.srcUp ++ [row] }
  | .moveSrcToTgt =>
    match s.srcUp with
    | [] => none
    | row :: rest => some { s with srcUp := rest, tgtDown := s.tgtDown ++ [row] }
  | .target turn =>
    match s.tgtDown with
    | [] => none
    | request :: rest =>
      let next := if turn.takes then s.takeRow key request else s
      some (if turn.again then next
        else { next with tgtDown := rest, finished := next.finished ++ [request] })
  | .otherScan tableName globals row => some { s with
      liteScanRows := liteRememberScanRow s.liteScanRows (liteScanRowKey tableName globals) row }
  | .otherTarget tableName globals => some { s with
      liteScanRows := (liteTakeScanRow s.liteScanRows (liteScanRowKey tableName globals)).2 }
  | .forget tableName globals => some { s with
      liteScanRows := liteForgetScanRows s.liteScanRows (liteScanRowKey tableName globals) }

/-- Every row that was taken is the one whose columns the request carries. -/
def ScanFlow.OwnRows (s : ScanFlow) : Prop :=
  ∀ request row, (request, row) ∈ s.taken → row = some request

open ScanFlow

/-! ## Plans that keep the order -/

/-- The operators return what they have read once each and in order; a request takes a handle if
each one before it took one, and it took none itself; nobody else uses the queue of the plan, and
no handle is forgotten while it waits. -/
def ScanFlow.Orderly (key : Bytes) (s : ScanFlow) : FlowStep → Prop
  | .produce n => n = s.returned
  | .target turn => turn.takes = true → s.taken.map Prod.fst = s.finished
  | .otherScan tableName globals _ => liteScanRowKey tableName globals ≠ key
  | .otherTarget tableName globals => liteScanRowKey tableName globals ≠ key
  | .forget tableName globals =>
    liteScanRowKey tableName globals ≠ key ∨ s.liteScanRows.waiting key = []
  | _ => True

/-- The rows that the scan has returned, those nearest to the target first. -/
def ScanFlow.underWay (s : ScanFlow) : List LiteRow :=
  s.finished ++ s.tgtDown ++ s.srcUp ++ s.held.drop s.returned ++ s.scanUp

/-- The handles in the queue are those of the rows behind the ones that were taken. -/
structure ScanFlow.InStep (key : Bytes) (s : ScanFlow) : Prop where
  returned : s.returned ≤ s.held.length
  behind : s.taken.length ≤ s.underWay.length
  waiting : s.liteScanRows.waiting key = s.underWay.drop s.taken.length
  taken : s.OwnRows

section

variable {key : Bytes} {s s' : ScanFlow}

/-- A step that moves rows on without touching the handles. -/
theorem ScanFlow.InStep.moved (h : s.InStep key) (hreturned : s'.returned ≤ s'.held.length)
    (hrows : s'.underWay = s.underWay) (htaken : s'.taken = s.taken)
    (hwaiting : s'.liteScanRows.waiting key = s.liteScanRows.waiting key) : s'.InStep key := by
  refine ⟨hreturned, ?_, ?_, ?_⟩
  · rw [htaken, hrows]
    exact h.behind
  · rw [hwaiting, htaken, hrows, h.waiting]
  · rw [OwnRows, htaken]
    exact h.taken

/-- The handle that is taken in order is that of the first request. -/
theorem ScanFlow.InStep.takes (h : s.InStep key) {request : LiteRow} {rest : List LiteRow}
    (hdown : s.tgtDown = request :: rest) (hturn : s.taken.map Prod.fst = s.finished) :
    (s.takeRow key request).InStep key := by
  have hcount : s.taken.length = s.finished.length := by rw [← hturn, List.length_map]
  obtain ⟨hhead, htail⟩ := take_eq s.liteScanRows key
  have hwaiting := h.waiting
  simp only [underWay, hcount, hdown, List.append_assoc, List.drop_left] at hwaiting
  refine ⟨h.returned, ?_, ?_, ?_⟩
  · simp [takeRow, underWay, hcount, hdown]
  · rw [takeRow, htail, if_pos rfl, h.waiting, List.length_append, List.tail_drop]
    rfl
  · intro r row hmem
    simp only [takeRow, hhead, hwaiting] at hmem
    obtain hmem | hmem := List.mem_append.mp hmem
    · exact h.taken r row hmem
    · obtain ⟨rfl, rfl⟩ := Prod.mk.inj (List.mem_singleton.mp hmem)
      rfl

theorem inStep_step {c : FlowStep} (h : s.InStep key) (hc : s.Orderly key c)
    (hstep : s.step key c = some s') : s'.InStep key := by
  have hreturned := h.returned
  cases c with
  | scanRow row =>
    cases hstep
    refine ⟨hreturned, ?_, ?_, h.taken⟩
    · have hbehind := h.behind
      simp only [underWay, List.length_append] at hbehind ⊢
      simp only [List.length_singleton]
      omega
    · rw [waiting_remember, if_pos rfl, h.waiting, ← List.drop_append_of_le_length h.behind]
      simp [underWay]
  | read =>
    simp only [step] at hstep
    cases hup : s.scanUp with
    | nil => simp [hup] at hstep
    | cons row rest =>
      rw [hup] at hstep
      cases hstep
      refine h.moved (by simp; omega) ?_ rfl rfl
      simp [underWay, hup, List.drop_append_of_le_length hreturned]
  | produce n =>
    have hn : n = s.returned := hc
    simp only [step] at hstep
    cases hget : s.held[n]? with
    | none => simp [hget] at hstep
    | some row =>
      rw [hget] at hstep
      cases hstep
      obtain ⟨hlt, hrow⟩ := List.getElem?_eq_some_iff.mp hget
      refine h.moved (by simp; omega) ?_ rfl rfl
      -- the row moves from the front of what is held to the end of the next queue
      rw [underWay, underWay, ← hn, List.drop_eq_getElem_cons hlt, hrow]
      simp
  | moveSrcToTgt =>
    simp only [step] at hstep
    cases hup : s.srcUp with
    | nil => simp [hup] at hstep
    | cons row rest =>
      rw [hup] at hstep
      cases hstep
      exact h.moved hreturned (by simp [underWay, hup]) rfl rfl
  | target turn =>
    simp only [step] at hstep
    cases hdown : s.tgtDown with
    | nil => simp [hdown] at hstep
    | cons request rest =>
      rw [hdown] at hstep
      have hnext : (if turn.takes then s.takeRow key request else s).InStep key ∧
          (if turn.takes then s.takeRow key request else s).tgtDown = request :: rest := by
        split
        · rename_i htakes
          exact ⟨h.takes hdown (hc htakes), hdown⟩
        · exact ⟨h, hdown⟩
      obtain rfl := Option.some.inj hstep
      revert hnext
      generalize (if turn.takes then s.takeRow key request else s) = next
      rintro ⟨hnext, hfirst⟩
      split
      · exact hnext
      · exact hnext.moved hnext.returned (by simp [underWay, hfirst]) rfl rfl
  | otherScan tableName globals row =>
    cases hstep
    exact h.moved hreturned rfl rfl (by rw [waiting_remember, if_neg hc])
  | otherTarget tableName globals =>
    cases hstep
    exact h.moved hreturned rfl rfl (by rw [(take_eq _ _).2, if_neg hc])
  | forget tableName globals =>
    cases hstep
    refine h.moved hreturned rfl rfl ?_
    rw [waiting_forget]
    split
    · rename_i hkey
      rw [hc.resolve_left (not_not_intro hkey)]
    · rfl

end

/-- In a run of orderly steps every request gets the row whose columns it carries. -/
theorem orderly_requests_get_their_rows (tableName : Bytes) (globals : StmtGlobals)
    (steps : List FlowStep)
    (hsteps : Meets (ScanFlow.step (liteScanRowKey tableName globals))
      (ScanFlow.Orderly (liteScanRowKey tableName globals)) {} steps) :
    Along (ScanFlow.step (liteScanRowKey tableName globals)) ScanFlow.OwnRows {} steps := by
  refine along_of_meets (fun _ _ _ => inStep_step) (fun s h => h.taken) ?_ hsteps
  exact ⟨Nat.le_refl 0, Nat.le_refl 0, by simp [ScanRows.waiting, underWay], by simp [OwnRows]⟩

/-- The execution of the examples below. -/
def oneExecution : StmtGlobals := ⟨0x10, 1⟩

/-- A scan of `T` feeds a target of `T`, beside a scan of `U`. The first request fails and is
cancelled before it is tried again. -/
def orderlySteps : List FlowStep :=
  [.scanRow ⟨1, default⟩, .otherScan (textBytes "U") oneExecution ⟨9, default⟩,
   .scanRow ⟨2, default⟩, .read, .produce 0, .moveSrcToTgt, .target (.failsLate true),
   .target .passed, .read, .produce 1, .moveSrcToTgt, .target .served]

theorem scan_beside_another_table : ∃ s,
    run (ScanFlow.step (liteScanRowKey (textBytes "T") oneExecution)) {} orderlySteps = some s ∧
      s.taken.length = 2 ∧ s.OwnRows := by
  refine ⟨_, rfl, rfl, ?_⟩
  refine (orderly_requests_get_their_rows (textBytes "T") oneExecution orderlySteps ?_).last rfl
  refine .cons rfl trivial (.cons rfl ?_ (.cons rfl trivial (.cons rfl trivial (.cons rfl rfl
    (.cons rfl trivial (.cons rfl (fun _ => rfl) (.cons rfl nofun (.cons rfl trivial
    (.cons rfl rfl (.cons rfl trivial (.cons rfl (fun _ => rfl) trivial)))))))))))
  exact fun h => absurd (liteScanRowKey_inj h) (by decide)

/-- An operator drops the first row: the request of the second row is served with the first. And
where rows come in order, a request that is tried again is served with the row of the next one. -/
theorem dropped_row_shifts_the_handles :
    (∃ s, run (ScanFlow.step (liteScanRowKey (textBytes "T") oneExecution)) {}
      [.scanRow ⟨1, default⟩, .scanRow ⟨2, default⟩, .read, .read, .produce 1, .moveSrcToTgt,
        .target .served] = some s ∧ ¬ s.OwnRows) ∧
    ∃ s, run (ScanFlow.step (liteScanRowKey (textBytes "T") oneExecution)) {}
      [.scanRow ⟨1, default⟩, .scanRow ⟨2, default⟩, .read, .produce 0, .moveSrcToTgt,
        .target (.failsLate true), .target .served] = some s ∧ ¬ s.OwnRows := by
  refine ⟨⟨_, rfl, fun h => ?_⟩, _, rfl, fun h => ?_⟩
  · have hrow := h ⟨2, default⟩ (some ⟨1, default⟩) (by decide +kernel)
    revert hrow
    decide
  · have hrow := h ⟨1, default⟩ (some ⟨2, default⟩) (by decide +kernel)
    revert hrow
    decide

end litestore
