-- Cancelling a statement from another connection. The server finds a session by the dialogue id
-- that its client chose, the engine sets the flag that the statement reads, and the end of the
-- session waits for the cancels that use its context. The threads interleave at every store.
import LiteStore.Lib.Transitions
import Mathlib.Data.List.Basic
import Mathlib.Logic.Function.Basic

namespace litestore

open transitions

/-! ## One session -/

/-- Where the session's own thread is: outside of `execute`, or after one of its stores. -/
inductive StatementPhase
  | idle
  | cleared
  | pending
  | ended
  deriving DecidableEq

/-- Where a call of `cancel` is: with the session, counted under the lock, with the flag set and
the context in use, or over. -/
inductive CancelStage
  | found
  | checked
  | requested
  | done
  deriving DecidableEq

structure CancelCall where
  dialogueId : Int
  /-- The statement that was pending when the call began. -/
  during : Option Nat
  stage : CancelStage := .found

def CancelCall.usesContext (c : CancelCall) : Bool :=
  c.stage = .checked ∨ c.stage = .requested

structure ServedSession where
  backendPid : Int
  connected : Bool := true
  phase : StatementPhase := .idle
  /-- How many statements have been pending. -/
  statement : Nat := 0
  cancelRequested : Bool := false
  /-- A cancel holds `lifecycleMutex`. -/
  locked : Bool := false
  activeCancels : Nat := 0
  closing : Bool := false
  /-- `destroySession` has seen that no cancel is active. -/
  drained : Bool := false
  contextHandle : Bool := true
  /-- The calls that hold the session. -/
  cancels : List CancelCall := []

/-- The next store of one of the threads at a session: the four of `execute`, those of
`destroySession`, and those of the `k`-th call of `cancel`. -/
inductive SessionStep
  | clear
  | pend
  | unpend
  | finish
  | close
  | drain
  | deleteContext
  | check (k : Nat)
  | request (k : Nat)
  | release (k : Nat)

namespace ServedSession

variable (s : ServedSession)

def statementPending : Bool := s.phase = .pending

def pendingStatement : Option Nat := if s.statementPending then some s.statement else none

/-- A call goes on to its next stage. -/
def advance (k : Nat) (stage next : CancelStage) : Option ServedSession := do
  let c ← s.cancels[k]?
  if c.stage = stage then some { s with cancels := s.cancels.set k { c with stage := next } }
  else none

def step : SessionStep → Option ServedSession
  | .clear =>
    if s.connected ∧ s.phase = .idle then
      some { s with phase := .cleared, cancelRequested := false }
    else none
  | .pend =>
    if s.phase = .cleared then some { s with phase := .pending, statement := s.statement + 1 }
    else none
  | .unpend => if s.phase = .pending then some { s with phase := .ended } else none
  | .finish =>
    if s.phase = .ended then some { s with phase := .idle, cancelRequested := false } else none
  | .close => if s.connected ∨ s.locked then none else some { s with closing := true }
  | .drain =>
    if s.closing ∧ s.activeCancels = 0 ∧ !s.locked then some { s with drained := true } else none
  | .deleteContext => if s.drained then some { s with contextHandle := false } else none
  | .check k =>
    if s.locked then none
    else if s.closing ∨ !s.statementPending ∨ !s.contextHandle then s.advance k .found .done
    else { s with locked := true, activeCancels := s.activeCancels + 1 }.advance k .found .checked
  | .request k =>
    { s with cancelRequested := true, locked := false }.advance k .checked .requested
  | .release k =>
    if s.locked then none
    else { s with activeCancels := s.activeCancels - 1 }.advance k .requested .done

end ServedSession

/-! ## The server -/

/-- Every session under a number of its own, and the map `sessions_`. -/
structure SessionServer where
  session : Nat → Option ServedSession
  sessions : Int → Option Nat

inductive ServerStep
  | connect (i : Nat) (dialogueId : Int)
  | cancel (dialogueId : Int)
  | serve (i : Nat) (x : SessionStep)
  | finishSession (i : Nat)

namespace SessionServer

variable (st : SessionServer)

def fresh : SessionServer := ⟨fun _ => none, fun _ => none⟩

def put (i : Nat) (s : ServedSession) : SessionServer :=
  { st with session := Function.update st.session i (some s) }

def step : ServerStep → Option SessionServer
  | .connect i d =>
    if st.session i = none ∧ 0 < d then
      some { st.put i { backendPid := d } with
        sessions := Function.update st.sessions d (some i) }
    else none
  | .cancel d => do
    -- a call that finds no session is over
    let i ← st.sessions d
    let s ← st.session i
    some (st.put i { s with cancels := s.cancels ++ [⟨d, s.pendingStatement, .found⟩] })
  | .serve i x => do
    let s ← st.session i
    let t ← s.step x
    some (st.put i t)
  | .finishSession i => do
    let s ← st.session i
    -- the id is erased, whichever session is under it
    if s.connected ∧ s.phase = .idle then
      some { st.put i { s with connected := false } with
        sessions := Function.update st.sessions s.backendPid none }
    else none

/-- A context that a cancel uses is there. -/
def KeepsContexts : Prop :=
  ∀ i s, st.session i = some s → ∀ c ∈ s.cancels, c.usesContext → s.contextHandle

/-- The only session with its id is found, and a statement that sees the flag was meant by a cancel
for its session that began meanwhile. -/
structure HitsOnlyItsStatement : Prop where
  reaches : ∀ i s, st.session i = some s → s.connected →
    (∀ j t, st.session j = some t → t.connected → t.backendPid = s.backendPid → j = i) →
    st.sessions s.backendPid = some i
  meant : ∀ i s, st.session i = some s → s.statementPending → s.cancelRequested →
    ∃ c ∈ s.cancels, c.dialogueId = s.backendPid ∧ c.during = some s.statement

/-- A client takes an id that no connected session has. A statement is not begun while a cancel of
its session is between its check and its store, nor made pending while one is before its check. -/
def Apart : ServerStep → Prop
  | .connect _ d => ∀ j t, st.session j = some t → t.connected → t.backendPid ≠ d
  | .serve i .clear => ∀ s, st.session i = some s → ∀ c ∈ s.cancels, c.stage ≠ .checked
  | .serve i .pend => ∀ s, st.session i = some s → ∀ c ∈ s.cancels, c.stage ≠ .found
  | _ => True

end SessionServer

/-! ## Every step keeps the invariant -/

structure ServedSession.Counted (s : ServedSession) : Prop where
  counted : s.activeCancels = s.cancels.countP (·.usesContext)
  drained : s.drained → s.closing ∧ s.activeCancels = 0
  deleted : s.contextHandle = false → s.drained

structure ServedSession.Inv (s : ServedSession) : Prop where
  id : ∀ c ∈ s.cancels, c.dialogueId = s.backendPid
  found : ∀ c ∈ s.cancels, c.stage = .found → s.phase = .pending → c.during = some s.statement
  checked : ∀ c ∈ s.cancels, c.stage = .checked →
    s.phase ≠ .cleared ∧ c.during = some s.statement
  flag : s.cancelRequested → s.phase ≠ .cleared ∧ (s.phase = .pending →
    ∃ c ∈ s.cancels, c.dialogueId = s.backendPid ∧ c.during = some s.statement)

namespace ServedSession

variable {s t : ServedSession} {k : Nat}

theorem advance_eq_some {stage next : CancelStage} (h : s.advance k stage next = some t) :
    ∃ c l r, s.cancels = l ++ c :: r ∧ c.stage = stage ∧
      t = { s with cancels := l ++ { c with stage := next } :: r } := by
  obtain ⟨c, hc, h⟩ := Option.bind_eq_some_iff.mp h
  obtain ⟨hstage, ⟨⟩⟩ := Option.ite_none_right_eq_some.mp h
  obtain ⟨hk, rfl⟩ := List.getElem?_eq_some_iff.mp hc
  refine ⟨_, s.cancels.take k, s.cancels.drop (k + 1), by simp, hstage, ?_⟩
  rw [List.set_eq_take_append_cons_drop, if_pos hk]

theorem step_frame {x : SessionStep} (hstep : s.step x = some t) :
    t.backendPid = s.backendPid ∧ t.connected = s.connected := by
  cases x <;> grind [ServedSession.step, ServedSession.advance]

theorem Counted.step {x : SessionStep} (h : s.Counted) (hstep : s.step x = some t) :
    t.Counted := by
  obtain ⟨hcounted, hdrained, hdeleted⟩ := h
  cases x with
  | clear | pend | unpend | finish | close | drain | deleteContext =>
    obtain ⟨hguard, hstep⟩ | ⟨hguard, hstep⟩ := ite_eq_iff.mp hstep <;> cases hstep
    exact ⟨hcounted, by simp_all, by simp_all⟩
  | request k =>
    obtain ⟨c, l, r, hc, hstage, rfl⟩ := advance_eq_some hstep
    exact ⟨by simp_all [CancelCall.usesContext], hdrained, hdeleted⟩
  | check k | release k =>
    dsimp only [ServedSession.step] at hstep
    split_ifs at hstep
    all_goals
      obtain ⟨c, l, r, hc, hstage, rfl⟩ := advance_eq_some hstep
      exact ⟨by simp_all [CancelCall.usesContext, Nat.add_assoc], by grind, hdeleted⟩

theorem Inv.advance {stage next : CancelStage} (hadv : s.advance k stage next = some t) (h : s.Inv)
    (hnext : next ≠ .found) (hpending : next = .checked → stage = .found ∧ s.phase = .pending) :
    t.Inv := by
  obtain ⟨c, l, r, hc, rfl, rfl⟩ := advance_eq_some hadv
  have hmem : c ∈ s.cancels := by simp [hc]
  have hcalls : ∀ d ∈ l ++ { c with stage := next } :: r,
      d ∈ s.cancels ∨ d = { c with stage := next } := by grind
  have hkept : ∀ d ∈ s.cancels, d ∈ l ++ { c with stage := next } :: r ∨ d = c := by grind
  refine ⟨fun d hd => ?_, fun d hd hstage => ?_, fun d hd hstage => ?_, fun hflag => ?_⟩
  · obtain hd | rfl := hcalls d hd
    exacts [h.id d hd, h.id c hmem]
  · obtain hd | rfl := hcalls d hd
    exacts [h.found d hd hstage, absurd hstage hnext]
  · obtain hd | rfl := hcalls d hd
    · exact h.checked d hd hstage
    · obtain ⟨hfound, hphase⟩ := hpending hstage
      exact ⟨by simp [hphase], h.found c hmem hfound hphase⟩
  · obtain ⟨hphase, hmeant⟩ := h.flag hflag
    refine ⟨hphase, fun hp => ?_⟩
    obtain ⟨d, hd, hmeant⟩ := hmeant hp
    obtain hd | rfl := hkept d hd
    exacts [⟨d, hd, hmeant⟩, ⟨_, List.mem_append_right l (.head r), hmeant⟩]

theorem Inv.step {x : SessionStep} (h : s.Inv)
    (hclear : x = .clear → ∀ c ∈ s.cancels, c.stage ≠ .checked)
    (hpend : x = .pend → ∀ c ∈ s.cancels, c.stage ≠ .found) (hstep : s.step x = some t) :
    t.Inv := by
  cases x with
  | clear | pend | unpend | finish =>
    obtain ⟨hid, hfound, hchecked, hflag⟩ := h
    obtain ⟨hphase, ⟨⟩⟩ := Option.ite_none_right_eq_some.mp hstep
    exact ⟨hid, by simp_all, by simp_all, by simp_all⟩
  | close | drain | deleteContext =>
    obtain ⟨-, hstep⟩ | ⟨-, hstep⟩ := ite_eq_iff.mp hstep <;> cases hstep
    exact ⟨h.id, h.found, h.checked, h.flag⟩
  | check k =>
    dsimp only [ServedSession.step] at hstep
    split_ifs at hstep with hlocked hidle
    · exact .advance hstep h (by simp) (by simp)
    · have hthere : s.phase = .pending := by grind [statementPending]
      exact .advance hstep ⟨h.id, h.found, h.checked, h.flag⟩ (by simp) fun _ => ⟨rfl, hthere⟩
  | request k =>
    dsimp only [ServedSession.step] at hstep
    obtain ⟨c, l, r, hc, hstage, -⟩ := advance_eq_some hstep
    have hmem : c ∈ s.cancels := by simp_all
    obtain ⟨hphase, hduring⟩ := h.checked c hmem hstage
    exact .advance hstep ⟨h.id, h.found, h.checked, fun _ =>
      ⟨hphase, fun _ => ⟨c, hmem, h.id c hmem, hduring⟩⟩⟩ (by simp) (by simp)
  | release k =>
    obtain ⟨-, hstep⟩ := Option.ite_none_left_eq_some.mp hstep
    exact .advance hstep ⟨h.id, h.found, h.checked, h.flag⟩ (by simp) (by simp)

/-- A call finds the session. -/
theorem Inv.hold (h : s.Inv) : { s with
    cancels := s.cancels ++ [⟨s.backendPid, s.pendingStatement, .found⟩] : ServedSession }.Inv := by
  obtain ⟨hid, hfound, hchecked, hflag⟩ := h
  constructor <;> grind [pendingStatement, statementPending]

end ServedSession

structure SessionServer.Inv (st : SessionServer) : Prop where
  reaches : ∀ i s, st.session i = some s → s.connected → st.sessions s.backendPid = some i
  registered : ∀ d i, st.sessions d = some i → (st.session i).map (·.backendPid) = some d
  sessions : ∀ i s, st.session i = some s → s.Inv

namespace SessionServer

variable {st next : SessionServer} {i : Nat} {s t : ServedSession}

@[grind =]
theorem put_session {j : Nat} : (st.put i t).session j = if j = i then some t else st.session j :=
  Function.update_apply ..

@[grind =]
theorem put_sessions : (st.put i t).sessions = st.sessions := rfl

theorem Inv.put (h : st.Inv) (hs : st.session i = some s) (hid : t.backendPid = s.backendPid)
    (hconnected : t.connected → s.connected) (ht : t.Inv) : (st.put i t).Inv := by
  obtain ⟨hreaches, hregistered, hsessions⟩ := h
  constructor <;> grind

theorem Inv.connect {d : Int} (h : st.Inv) (hnew : st.session i = none)
    (hd : st.Apart (.connect i d)) : { st.put i { backendPid := d } with
      sessions := Function.update st.sessions d (some i) : SessionServer }.Inv := by
  obtain ⟨hreaches, hregistered, hsessions⟩ := h
  have hfresh : ServedSession.Inv { backendPid := d } := by constructor <;> simp
  constructor <;> grind [Function.update_apply, SessionServer.Apart]

theorem Inv.step {x : ServerStep} (h : st.Inv) (hx : st.Apart x) (hstep : st.step x = some next) :
    next.Inv := by
  cases x with
  | connect i d =>
    obtain ⟨⟨hnew, -⟩, ⟨⟩⟩ := Option.ite_none_right_eq_some.mp hstep
    exact h.connect hnew hx
  | cancel d =>
    obtain ⟨i, hi, hstep⟩ := Option.bind_eq_some_iff.mp hstep
    obtain ⟨s, hs, ⟨⟩⟩ := Option.bind_eq_some_iff.mp hstep
    obtain rfl : s.backendPid = d := by simpa [hs] using h.registered d i hi
    exact h.put hs rfl id (h.sessions i s hs).hold
  | serve i x =>
    obtain ⟨s, hs, hstep⟩ := Option.bind_eq_some_iff.mp hstep
    obtain ⟨t, ht, ⟨⟩⟩ := Option.bind_eq_some_iff.mp hstep
    obtain ⟨hid, hconnected⟩ := ServedSession.step_frame ht
    refine h.put hs hid (by simp [hconnected]) ((h.sessions i s hs).step ?_ ?_ ht)
    all_goals
      rintro rfl
      exact hx s hs
  | finishSession i =>
    obtain ⟨s, hs, hstep⟩ := Option.bind_eq_some_iff.mp hstep
    obtain ⟨⟨hconnected, -⟩, ⟨⟩⟩ := Option.ite_none_right_eq_some.mp hstep
    have hthis := h.reaches i s hs hconnected
    have hi := h.sessions i s hs
    have hmid : (st.put i { s with connected := false }).Inv :=
      h.put hs rfl (by simp) ⟨hi.id, hi.found, hi.checked, hi.flag⟩
    refine ⟨?_, fun d j hj => hmid.registered d j ?_, hmid.sessions⟩
    · have := hmid.reaches
      grind [Function.update_apply]
    · grind [Function.update_apply]

theorem Inv.hits (h : st.Inv) : st.HitsOnlyItsStatement :=
  ⟨fun i s hs hconnected _ => h.reaches i s hs hconnected, fun i s hs hpending hflag =>
    ((h.sessions i s hs).flag hflag).2 (of_decide_eq_true hpending)⟩

def Counted (st : SessionServer) : Prop := ∀ i s, st.session i = some s → s.Counted

theorem Counted.put (h : st.Counted) (ht : t.Counted) : (st.put i t).Counted := by
  intro j u hu
  rw [put_session] at hu
  split at hu
  · exact Option.some.inj hu ▸ ht
  · exact h j u hu

theorem Counted.step {x : ServerStep} (h : st.Counted) (hstep : st.step x = some next) :
    next.Counted := by
  cases x with
  | connect i d =>
    obtain ⟨-, ⟨⟩⟩ := Option.ite_none_right_eq_some.mp hstep
    exact h.put ⟨rfl, by simp, by simp⟩
  | cancel d =>
    obtain ⟨i, -, hstep⟩ := Option.bind_eq_some_iff.mp hstep
    obtain ⟨s, hs, ⟨⟩⟩ := Option.bind_eq_some_iff.mp hstep
    obtain ⟨hcounted, hdrained, hdeleted⟩ := h i s hs
    exact h.put ⟨by simpa [CancelCall.usesContext] using hcounted, hdrained, hdeleted⟩
  | serve i x =>
    obtain ⟨s, hs, hstep⟩ := Option.bind_eq_some_iff.mp hstep
    obtain ⟨t, ht, ⟨⟩⟩ := Option.bind_eq_some_iff.mp hstep
    exact h.put ((h i s hs).step ht)
  | finishSession i =>
    obtain ⟨s, hs, hstep⟩ := Option.bind_eq_some_iff.mp hstep
    obtain ⟨-, ⟨⟩⟩ := Option.ite_none_right_eq_some.mp hstep
    obtain ⟨hcounted, hdrained, hdeleted⟩ := h i s hs
    exact h.put ⟨hcounted, hdrained, hdeleted⟩

theorem Counted.keeps (h : st.Counted) : st.KeepsContexts := by
  intro i s hs c hc huses
  obtain ⟨hcounted, hdrained, hdeleted⟩ := h i s hs
  by_contra hgone
  have hzero := (hdrained (hdeleted (Bool.eq_false_iff.mpr hgone))).2
  rw [hcounted, List.countP_eq_zero] at hzero
  exact hzero c hc huses

end SessionServer

end litestore
