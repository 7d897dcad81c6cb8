-- The callers of `LiteUnifiedWriteBatchCommit` on one shard. The first caller
-- that finds nobody at work leads: it takes the queue, writes it as one group,
-- tells every caller of the group how it went, and goes on until the queue is
-- empty. The others wait for their answer.
import LiteStore.PhysicalWal
import LiteStore.Lib.Transitions

namespace litestore

open transitions List Function

/-! ## The system -/

structure GroupCommitRequest where
  done : Bool := false
  passed : Bool := false
  error : String := ""
  deriving DecidableEq, Repr

/-- Where a leader is in its loop. -/
inductive LeaderStage (Caller : Type)
  | gathering
  | writing (requests : List Caller)
  | written (requests : List Caller) (answer : Except String Unit)

/-- Where a caller is. One that has returned gave a result, and may have set `*error`. -/
inductive CallerPhase (Caller : Type)
  | outside
  | waiting
  | leading (stage : LeaderStage Caller)
  | returned (passed : Bool) (error : Option String)

/-- The state of a shard and of its callers. The calls of `writeGroup` with their answers are
kept in the order in which they were made. -/
structure GroupCommitState (Caller : Type) where
  pending : List Caller
  processing : Bool
  request : Caller → GroupCommitRequest
  phase : Caller → CallerPhase Caller
  calls : List (List Caller × Except String Unit)

inductive GroupStep (Caller : Type)
  | enqueue (c : Caller)
  | drain (c : Caller)
  | write (c : Caller) (answer : Except String Unit)
  | publish (c : Caller)
  | wake (c : Caller)

/-- `groupError` after a call of `writeGroup`. -/
def groupError : Except String Unit → String
  | .ok _ => ""
  | .error e => e

/-- What the leader leaves in the request of a member of its group. -/
def answered (answer : Except String Unit) : GroupCommitRequest :=
  ⟨true, answer.isOk, groupError answer⟩

/-- What becomes of `*error` when `passed` and `error` are reported to a caller. -/
def reported (wantsError passed : Bool) (error : String) : Option String :=
  if !passed && wantsError then some error else none

section

variable {Caller : Type} [DecidableEq Caller] (wantsError : Caller → Bool)

/-- The steps of the callers. A step is what a caller does while it holds the mutex of the group,
and the call of `writeGroup`, which it makes without it. How long a leader waits for others
before it takes the queue makes no difference here. -/
def GroupCommitState.step (s : GroupCommitState Caller) : GroupStep Caller →
    Option (GroupCommitState Caller)
  | .enqueue c =>
    match s.phase c with
    | .outside =>
      if s.processing then
        some { s with
          pending := s.pending ++ [c]
          phase := update s.phase c .waiting }
      else
        some { s with
          pending := s.pending ++ [c]
          processing := true
          phase := update s.phase c (.leading .gathering) }
    | _ => none
  | .drain c =>
    match s.phase c with
    | .leading .gathering =>
      some { s with
        pending := []
        phase := update s.phase c (.leading (.writing s.pending)) }
    | _ => none
  | .write c answer =>
    match s.phase c with
    | .leading (.writing requests) =>
      some { s with
        calls := s.calls ++ [(requests, answer)]
        phase := update s.phase c (.leading (.written requests answer)) }
    | _ => none
  | .publish c =>
    match s.phase c with
    | .leading (.written requests answer) =>
      let request := fun r => if r ∈ requests then answered answer else s.request r
      if s.pending = [] then
        some { s with
          request := request
          processing := false
          phase := update s.phase c (.returned (request c).passed
            (reported (wantsError c) answer.isOk (groupError answer))) }
      else
        some { s with
          request := request
          phase := update s.phase c (.leading .gathering) }
    | _ => none
  | .wake c =>
    match s.phase c with
    | .waiting =>
      if (s.request c).done then
        some { s with
          phase := update s.phase c (.returned (s.request c).passed
            (reported (wantsError c) (s.request c).passed (s.request c).error)) }
      else none
    | _ => none

end

/-- Before the first call. -/
def noCallers (Caller : Type) : GroupCommitState Caller where
  pending := []
  processing := false
  request := fun _ => {}
  phase := fun _ => .outside
  calls := []

/-! ## The law -/

section

variable {Caller : Type} [DecidableEq Caller] (wantsError : Caller → Bool)

/-- The batches that were passed to `writeGroup`. -/
def GroupCommitState.passedOn (s : GroupCommitState Caller) : List Caller :=
  s.calls.flatMap Prod.fst

/-- No caller inside has a step to take. -/
def GroupCommitState.Quiet (s : GroupCommitState Caller) : Prop :=
  ∀ x, (∀ c, x ≠ .enqueue c) → s.step wantsError x = none

/-- Every caller gets the outcome of its own group: no batch is passed on twice, a caller that
has returned gave the result of the call that its batch was passed to and reported the error of
that call, and nobody is left inside when there is nothing more to do. -/
structure OwnOutcomes (s : GroupCommitState Caller) : Prop where
  once : s.passedOn.Nodup
  own : ∀ c passed error, s.phase c = .returned passed error → ∃ call ∈ s.calls, c ∈ call.1 ∧
    passed = call.2.isOk ∧ error = reported (wantsError c) call.2.isOk (groupError call.2)
  nobodyLeft : s.Quiet wantsError →
    ∀ c, s.phase c = .outside ∨ ∃ passed error, s.phase c = .returned passed error

/-- A leader that returns behind a group it is not in reports the same of that group as of its
own. -/
def Unmixed (s : GroupCommitState Caller) : GroupStep Caller → Prop
  | .publish c =>
    match s.phase c with
    | .leading (.written requests answer) => s.pending = [] → c ∉ requests →
        reported (wantsError c) answer.isOk (groupError answer) =
          reported (wantsError c) (s.request c).passed (s.request c).error
    | _ => True
  | _ => True

end

/-! ## Who leads, and where every batch is -/

section

variable {Caller : Type} {requests : List Caller}

/-- The requests that the leader has taken and not yet passed on. -/
def taken : Option (Caller × LeaderStage Caller) → List Caller
  | some (_, .writing requests) => requests
  | _ => []

/-- The requests that wait for the leader to tell them. -/
def untold : Option (Caller × LeaderStage Caller) → List Caller
  | some (_, .written requests _) => requests
  | _ => []

/-- What holds in every state, with the one leader there is. A batch is at one place, from the
queue over the leader to a call. -/
structure Led (s : GroupCommitState Caller) (leader : Option (Caller × LeaderStage Caller)) :
    Prop where
  one : ∀ c stage, s.phase c = .leading stage ↔ leader = some (c, stage)
  working : s.processing = leader.isSome
  emptied : leader = none → s.pending = []
  apart : (s.passedOn ++ taken leader ++ s.pending).Nodup
  entered : ∀ c, c ∈ s.passedOn ++ taken leader ++ s.pending ↔ s.phase c ≠ .outside
  last : ∀ c requests answer, leader = some (c, .written requests answer) →
    (requests, answer) ∈ s.calls
  told : ∀ call ∈ s.calls, ∀ c ∈ call.1, c ∈ untold leader ∨ s.request c = answered call.2
  done : ∀ c, (s.request c).done = true →
    ∃ call ∈ s.calls, c ∈ call.1 ∧ s.request c = answered call.2
  result : ∀ c passed error, s.phase c = .returned passed error →
    ∃ call ∈ s.calls, c ∈ call.1 ∧ passed = call.2.isOk

theorem led_noCallers : Led (noCallers Caller) none where
  one := by simp [noCallers]
  working := rfl
  emptied := fun _ => rfl
  apart := nodup_nil
  entered := by simp [noCallers, GroupCommitState.passedOn, taken]
  last := by simp
  told := by simp [noCallers]
  done := by simp [noCallers]
  result := by simp [noCallers]

theorem mem_passedOn {s : GroupCommitState Caller} {c : Caller} :
    c ∈ s.passedOn ↔ ∃ call ∈ s.calls, c ∈ call.1 := mem_flatMap

theorem Led.passedOn_nodup {s : GroupCommitState Caller}
    {leader : Option (Caller × LeaderStage Caller)} (h : Led s leader) : s.passedOn.Nodup := by
  have happart := h.apart
  rw [append_assoc, nodup_append] at happart
  exact happart.1

variable [DecidableEq Caller] {s : GroupCommitState Caller}
  {leader : Option (Caller × LeaderStage Caller)} {c : Caller}

/-- A change between two other phases does not change who is in a phase. -/
theorem update_eq_iff {phase x : CallerPhase Caller} (hbefore : s.phase c ≠ x) (hafter : phase ≠ x)
    (d : Caller) : update s.phase c phase d = x ↔ s.phase d = x := by
  by_cases hd : d = c
  · subst hd
    rw [update_self]
    exact iff_of_false hafter hbefore
  · rw [update_of_ne hd]

section

variable (h : Led s leader)

include h

theorem Led.one_update {phase : CallerPhase Caller}
    (hbefore : ∀ stage, s.phase c ≠ .leading stage) (hafter : ∀ stage, phase ≠ .leading stage) :
    ∀ d stage, update s.phase c phase d = .leading stage ↔ leader = some (d, stage) :=
  fun d stage => (update_eq_iff (hbefore stage) (hafter stage) d).trans (h.one d stage)

/-- The leader goes on to another stage. -/
theorem Led.one_lead {stage : LeaderStage Caller}
    (hleader : leader = none ∨ ∃ before, leader = some (c, before)) :
    ∀ d next, update s.phase c (.leading stage) d = .leading next ↔
      some (c, stage) = some (d, next) := by
  intro d next
  by_cases hd : d = c
  · subst hd
    rw [update_self]
    simp
  · rw [update_of_ne hd, h.one]
    have hne : ¬ some (c, stage) = some (d, next) := by
      intro heq
      cases heq
      exact hd rfl
    refine ⟨fun hlead => ?_, fun heq => absurd heq hne⟩
    rcases hleader with hnone | ⟨before, hbefore⟩
    · rw [hnone] at hlead
      cases hlead
    · rw [hbefore] at hlead
      cases hlead
      exact absurd rfl hd

/-- The callers that are inside stay the same when one of them changes its phase. -/
theorem Led.entered_update {phase : CallerPhase Caller} {inside : List Caller}
    (hbefore : s.phase c ≠ .outside) (hafter : phase ≠ .outside)
    (hinside : inside = s.passedOn ++ taken leader ++ s.pending) (d : Caller) :
    d ∈ inside ↔ update s.phase c phase d ≠ .outside := by
  rw [hinside, h.entered]
  exact (not_congr (update_eq_iff hbefore hafter d)).symm

theorem Led.result_update (phase : CallerPhase Caller)
    (hphase : ∀ passed error, phase = .returned passed error →
      ∃ call ∈ s.calls, c ∈ call.1 ∧ passed = call.2.isOk) :
    ∀ d passed error, update s.phase c phase d = .returned passed error →
      ∃ call ∈ s.calls, d ∈ call.1 ∧ passed = call.2.isOk := by
  intro d passed error hd
  by_cases heq : d = c
  · subst heq
    rw [update_self] at hd
    exact hphase passed error hd
  · rw [update_of_ne heq] at hd
    exact h.result d passed error hd

/-- A caller comes to the end of the queue. -/
theorem Led.enqueue (hphase : s.phase c = .outside) :
    (s.passedOn ++ taken leader ++ (s.pending ++ [c])).Nodup ∧
    ∀ phase : CallerPhase Caller, phase ≠ .outside → ∀ d,
      d ∈ s.passedOn ++ taken leader ++ (s.pending ++ [c]) ↔
        update s.phase c phase d ≠ .outside := by
  have hfresh : c ∉ s.passedOn ++ taken leader ++ s.pending := by
    rw [h.entered]
    simp [hphase]
  rw [← append_assoc]
  constructor
  · rw [nodup_append]
    refine ⟨h.apart, nodup_singleton c, ?_⟩
    intro a ha b hb hab
    rw [mem_singleton] at hb
    exact hfresh (hb ▸ hab ▸ ha)
  · intro phase hne d
    rw [mem_append, h.entered, mem_singleton]
    by_cases hd : d = c
    · subst hd
      rw [update_self]
      simp [hne]
    · rw [update_of_ne hd]
      simp [hd]

end

variable (wantsError : Caller → Bool) {t : GroupCommitState Caller}

theorem Led.enqueue_step (h : Led s leader) (hstep : s.step wantsError (.enqueue c) = some t) :
    ∃ next, Led t next := by
  unfold GroupCommitState.step at hstep
  dsimp only at hstep
  split at hstep
  · rename_i hphase
    obtain ⟨happart, hentered⟩ := h.enqueue hphase
    split at hstep
    · -- somebody leads
      cases hstep
      exact ⟨leader, { h with
        one := h.one_update (by simp [hphase]) (by simp)
        emptied := by
          intro hnone
          rename_i hworking
          rw [h.working, hnone] at hworking
          cases hworking
        apart := happart
        entered := hentered _ (by simp)
        result := h.result_update _ (by simp) }⟩
    · -- nobody leads, and so nothing is taken or to be told
      rename_i hidle
      have hnone : leader = none := by
        rw [h.working] at hidle
        simpa using hidle
      subst hnone
      cases hstep
      exact ⟨some (c, .gathering), { h with
        one := h.one_lead (.inl rfl)
        working := rfl
        emptied := by simp
        apart := happart
        entered := hentered _ (by simp)
        last := by simp
        result := h.result_update _ (by simp) }⟩
  · cases hstep

theorem Led.drain_step (h : Led s leader) (hstep : s.step wantsError (.drain c) = some t) :
    ∃ next, Led t next := by
  unfold GroupCommitState.step at hstep
  dsimp only at hstep
  split at hstep
  · rename_i hphase
    obtain rfl := (h.one c _).mp hphase
    cases hstep
    refine ⟨some (c, .writing s.pending), { h with
      one := h.one_lead (.inr ⟨_, rfl⟩)
      emptied := by simp
      apart := by simpa [taken, GroupCommitState.passedOn] using h.apart
      entered := h.entered_update (by simp [hphase]) (by simp)
        (by simp [taken, GroupCommitState.passedOn])
      last := by simp
      result := h.result_update _ (by simp) }⟩
  · cases hstep

variable {answer : Except String Unit}

theorem Led.write_step (h : Led s leader) (hstep : s.step wantsError (.write c answer) = some t) :
    ∃ next, Led t next := by
  unfold GroupCommitState.step at hstep
  dsimp only at hstep
  split at hstep
  · rename_i requests hphase
    obtain rfl := (h.one c _).mp hphase
    cases hstep
    have hpassed : (s.calls ++ [(requests, answer)]).flatMap Prod.fst = s.passedOn ++ requests := by
      simp [GroupCommitState.passedOn]
    refine ⟨some (c, .written requests answer), { h with
      one := h.one_lead (.inr ⟨_, rfl⟩)
      emptied := by simp
      apart := by simpa [taken, GroupCommitState.passedOn] using h.apart
      entered := h.entered_update (by simp [hphase]) (by simp)
        (by simp [taken, GroupCommitState.passedOn])
      last := by simp
      told := ?_
      done := ?_
      result := ?_ }⟩
    · intro call hcall d hd
      rcases mem_append.mp hcall with hcall | hcall
      · rcases h.told call hcall d hd with hwait | htold
        · cases hwait
        · exact .inr htold
      · rw [mem_singleton.mp hcall] at hd
        exact .inl hd
    · intro d hd
      obtain ⟨call, hcall, hmem, heq⟩ := h.done d hd
      exact ⟨call, mem_append_left _ hcall, hmem, heq⟩
    · intro d passed error hd
      obtain ⟨call, hcall, hmem, heq⟩ := h.result_update _ (by simp) d passed error hd
      exact ⟨call, mem_append_left _ hcall, hmem, heq⟩
  · cases hstep

/-- A batch is passed on in one call. -/
theorem Led.call_eq (h : Led s leader) {call call' : List Caller × Except String Unit}
    (hcall : call ∈ s.calls) (hcall' : call' ∈ s.calls) (hmem : c ∈ call.1) (hmem' : c ∈ call'.1) :
    call = call' := by
  by_contra hne
  have hsymm : Std.Symm (onFun List.Disjoint
      (Prod.fst : List Caller × Except String Unit → List Caller)) := ⟨fun _ _ hd => hd.symm⟩
  have hdisjoint := (nodup_flatMap.mp h.passedOn_nodup).2.forall hcall hcall' hne
  exact hdisjoint hmem hmem'

section

variable (h : Led s (some (c, .written requests answer)))

include h

/-- What a leader leaves in the requests is the answer of their call. -/
theorem Led.told_publish {call : List Caller × Except String Unit} (hcall : call ∈ s.calls)
    {d : Caller} (hd : d ∈ call.1) :
    (if d ∈ requests then answered answer else s.request d) = answered call.2 := by
  split
  · rename_i hmem
    rw [h.call_eq hcall (h.last c _ _ rfl) hd hmem]
  · rename_i hnot
    rcases h.told call hcall d hd with hwait | htold
    · exact absurd hwait hnot
    · exact htold

theorem Led.done_publish {d : Caller}
    (hd : (if d ∈ requests then answered answer else s.request d).done = true) :
    ∃ call ∈ s.calls, d ∈ call.1 ∧
      (if d ∈ requests then answered answer else s.request d) = answered call.2 := by
  split at hd
  · rename_i hmem
    rw [if_pos hmem]
    exact ⟨_, h.last c _ _ rfl, hmem, rfl⟩
  · rename_i hnot
    rw [if_neg hnot]
    exact h.done d hd

/-- The call of a leader that finds the queue empty. -/
theorem Led.own_call (hempty : s.pending = []) :
    ∃ call ∈ s.calls, c ∈ call.1 ∧
      (if c ∈ requests then answered answer else s.request c) = answered call.2 := by
  have hphase := (h.one c _).mpr rfl
  have hentered := (h.entered c).mpr (by simp [hphase])
  rw [hempty, append_nil] at hentered
  obtain ⟨call, hcall, hmem⟩ := mem_passedOn.mp (by simpa [taken] using hentered)
  exact ⟨call, hcall, hmem, h.told_publish hcall hmem⟩

end

theorem Led.publish_step (h : Led s leader) (hstep : s.step wantsError (.publish c) = some t) :
    ∃ next, Led t next := by
  unfold GroupCommitState.step at hstep
  dsimp only at hstep
  split at hstep
  · rename_i requests answer hphase
    obtain rfl := (h.one c _).mp hphase
    split at hstep
    · rename_i hempty
      cases hstep
      refine ⟨none, { h with
        one := ?_
        working := rfl
        emptied := fun _ => hempty
        entered := h.entered_update (by simp [hphase]) (by simp) rfl
        last := by simp
        told := fun call hcall d hd => .inr (h.told_publish hcall hd)
        done := fun d hd => h.done_publish hd
        result := ?_ }⟩
      · -- the one leader is gone
        intro d stage
        simp only [reduceCtorEq, iff_false]
        by_cases hd : d = c
        · subst hd
          rw [update_self]
          simp
        · rw [update_of_ne hd, h.one]
          intro heq
          cases heq
          exact hd rfl
      · apply h.result_update
        intro passed error heq
        obtain ⟨call, hcall, hmem, hanswer⟩ := h.own_call hempty
        cases heq
        exact ⟨call, hcall, hmem, by rw [hanswer]; rfl⟩
    · cases hstep
      refine ⟨some (c, .gathering), { h with
        one := h.one_lead (.inr ⟨_, rfl⟩)
        emptied := by simp
        entered := h.entered_update (by simp [hphase]) (by simp) rfl
        last := by simp
        told := fun call hcall d hd => .inr (h.told_publish hcall hd)
        done := fun d hd => h.done_publish hd
        result := h.result_update _ (by simp) }⟩
  · cases hstep

theorem Led.wake_step (h : Led s leader) (hstep : s.step wantsError (.wake c) = some t) :
    ∃ next, Led t next := by
  unfold GroupCommitState.step at hstep
  dsimp only at hstep
  split at hstep
  · rename_i hphase
    split at hstep
    · rename_i hdone
      cases hstep
      refine ⟨leader, { h with
        one := h.one_update (by simp [hphase]) (by simp)
        entered := h.entered_update (by simp [hphase]) (by simp) rfl
        result := ?_ }⟩
      · apply h.result_update
        intro passed error heq
        obtain ⟨call, hcall, hmem, hanswer⟩ := h.done c hdone
        cases heq
        exact ⟨call, hcall, hmem, by rw [hanswer]; rfl⟩
    · cases hstep
  · cases hstep

theorem Led.step {x : GroupStep Caller} (h : Led s leader) (hstep : s.step wantsError x = some t) :
    ∃ next, Led t next := by
  cases x with
  | enqueue c => exact h.enqueue_step wantsError hstep
  | drain c => exact h.drain_step wantsError hstep
  | write c answer => exact h.write_step wantsError hstep
  | publish c => exact h.publish_step wantsError hstep
  | wake c => exact h.wake_step wantsError hstep

/-- Whoever leads has a step to take, and without a leader every waiting caller was told. -/
theorem Led.nobodyLeft (h : Led s leader) (hquiet : s.Quiet wantsError) (c : Caller) :
    s.phase c = .outside ∨ ∃ passed error, s.phase c = .returned passed error := by
  cases leader with
  | some lead =>
    obtain ⟨d, stage⟩ := lead
    have hphase := (h.one d stage).mpr rfl
    cases stage with
    | gathering =>
      have hnone := hquiet (.drain d) (by simp)
      simp [GroupCommitState.step, hphase] at hnone
    | writing requests =>
      have hnone := hquiet (.write d (.ok ())) (by simp)
      simp [GroupCommitState.step, hphase] at hnone
    | written requests answer =>
      have hnone := hquiet (.publish d) (by simp)
      simp only [GroupCommitState.step, hphase] at hnone
      split at hnone <;> cases hnone
  | none =>
    cases hphase : s.phase c with
    | outside => exact .inl rfl
    | returned passed error => exact .inr ⟨passed, error, rfl⟩
    | leading stage => exact absurd ((h.one c stage).mp hphase) (by simp)
    | waiting =>
      have hentered := (h.entered c).mpr (by simp [hphase])
      rw [h.emptied rfl, append_nil] at hentered
      obtain ⟨call, hcall, hmem⟩ := mem_passedOn.mp (by simpa [taken] using hentered)
      have hdone : (s.request c).done = true := by
        rcases h.told call hcall c hmem with hwait | htold
        · cases hwait
        · rw [htold]
          rfl
      have hnone := hquiet (.wake c) (by simp)
      simp [GroupCommitState.step, hphase, hdone] at hnone

end

/-! ## The errors that are reported -/

section

variable {Caller : Type} [DecidableEq Caller] (wantsError : Caller → Bool)
  {s t : GroupCommitState Caller}

/-- Every caller that has returned reported the error of its own call. -/
def OwnErrors (s : GroupCommitState Caller) : Prop :=
  ∀ c passed error, s.phase c = .returned passed error → ∃ call ∈ s.calls, c ∈ call.1 ∧
    error = reported (wantsError c) call.2.isOk (groupError call.2)

/-- All but the errors is the same in every run. -/
theorem ownOutcomes_iff {leader : Option (Caller × LeaderStage Caller)} (h : Led s leader) :
    OwnOutcomes wantsError s ↔ OwnErrors wantsError s := by
  constructor
  · intro hown c passed error hphase
    obtain ⟨call, hcall, hmem, -, herror⟩ := hown.own c passed error hphase
    exact ⟨call, hcall, hmem, herror⟩
  · intro herrors
    refine ⟨h.passedOn_nodup, ?_, h.nobodyLeft wantsError⟩
    intro c passed error hphase
    obtain ⟨call, hcall, hmem, hresult⟩ := h.result c passed error hphase
    obtain ⟨call', hcall', hmem', herror⟩ := herrors c passed error hphase
    obtain rfl := h.call_eq hcall hcall' hmem hmem'
    exact ⟨call, hcall, hmem, hresult, herror⟩

/-- A caller that does not return reports nothing. -/
theorem ownErrors_update {c : Caller} {phase : CallerPhase Caller}
    {calls : List (List Caller × Except String Unit)} (h : OwnErrors wantsError s)
    (hcalls : ∀ call ∈ s.calls, call ∈ calls) (ht : t.calls = calls)
    (hphase : t.phase = update s.phase c phase)
    (hreturned : ∀ passed error, phase = .returned passed error → ∃ call ∈ calls, c ∈ call.1 ∧
      error = reported (wantsError c) call.2.isOk (groupError call.2)) :
    OwnErrors wantsError t := by
  intro d passed error hd
  rw [hphase] at hd
  rw [ht]
  by_cases heq : d = c
  · subst heq
    rw [update_self] at hd
    exact hreturned passed error hd
  · rw [update_of_ne heq] at hd
    obtain ⟨call, hcall, hmem, herror⟩ := h d passed error hd
    exact ⟨call, hcalls call hcall, hmem, herror⟩

theorem ownErrors_publish {leader : Option (Caller × LeaderStage Caller)} {c : Caller}
    (h : Led s leader) (herrors : OwnErrors wantsError s)
    (hstep : s.step wantsError (.publish c) = some t) :
    OwnErrors wantsError t ↔ Unmixed wantsError s (.publish c) := by
  unfold GroupCommitState.step at hstep
  dsimp only at hstep
  split at hstep
  · rename_i requests answer hphase
    obtain rfl := (h.one c _).mp hphase
    unfold Unmixed
    simp only [hphase]
    split at hstep
    · rename_i hempty
      simp only [hempty, true_implies]
      obtain ⟨call, hcall, hmem, hanswer⟩ := h.own_call hempty
      cases hstep
      constructor
      · intro hown hnot
        obtain ⟨call', hcall', hmem', herror⟩ := hown c _ _ (update_self ..)
        obtain rfl := h.call_eq hcall hcall' hmem hmem'
        rw [if_neg hnot] at hanswer
        rw [herror, hanswer]
        rfl
      · intro hunmixed
        refine ownErrors_update wantsError herrors (fun _ hold => hold) rfl rfl ?_
        intro passed error heq
        cases heq
        refine ⟨call, hcall, hmem, ?_⟩
        by_cases hin : c ∈ requests
        · rw [h.call_eq hcall (h.last c _ _ rfl) hmem hin]
        · rw [if_neg hin] at hanswer
          rw [hunmixed hin, hanswer]
          rfl
    · rename_i hmore
      cases hstep
      refine ⟨fun _ hempty => absurd hempty hmore, fun _ => ?_⟩
      exact ownErrors_update wantsError herrors (fun _ hold => hold) rfl rfl (by simp)
  · cases hstep

/-- The errors are lost exactly by a leader that mixes up its group with another. -/
theorem ownErrors_step {leader : Option (Caller × LeaderStage Caller)} {x : GroupStep Caller}
    (h : Led s leader) (herrors : OwnErrors wantsError s)
    (hstep : s.step wantsError x = some t) :
    OwnErrors wantsError t ↔ Unmixed wantsError s x := by
  unfold GroupCommitState.step at hstep
  cases x with
  | publish c => exact ownErrors_publish wantsError h herrors hstep
  | enqueue c =>
    refine ⟨fun _ => trivial, fun _ => ?_⟩
    dsimp only at hstep
    split at hstep
    · split at hstep
      all_goals
        cases hstep
        exact ownErrors_update wantsError herrors (fun _ hold => hold) rfl rfl (by simp)
    · cases hstep
  | drain c =>
    refine ⟨fun _ => trivial, fun _ => ?_⟩
    dsimp only at hstep
    split at hstep
    · cases hstep
      exact ownErrors_update wantsError herrors (fun _ hold => hold) rfl rfl (by simp)
    · cases hstep
  | write c answer =>
    refine ⟨fun _ => trivial, fun _ => ?_⟩
    dsimp only at hstep
    split at hstep
    · cases hstep
      exact ownErrors_update wantsError herrors (fun _ hold => mem_append_left _ hold) rfl rfl
        (by simp)
    · cases hstep
  | wake c =>
    refine ⟨fun _ => trivial, fun _ => ?_⟩
    dsimp only at hstep
    split at hstep
    · split at hstep
      · rename_i hdone
        cases hstep
        refine ownErrors_update wantsError herrors (fun _ hold => hold) rfl rfl ?_
        intro passed error heq
        obtain ⟨call, hcall, hmem, hanswer⟩ := h.done c hdone
        cases heq
        exact ⟨call, hcall, hmem, by rw [hanswer]; rfl⟩
      · cases hstep
    · cases hstep

end

/-- In a run every caller gets the outcome of its own group exactly if no leader mixes up its
group with a later one. -/
theorem group_commit_answers_iff {Caller : Type} [DecidableEq Caller] (wantsError : Caller → Bool)
    (steps : List (GroupStep Caller)) :
    Along (GroupCommitState.step wantsError) (OwnOutcomes wantsError) (noCallers Caller) steps ↔
      Meets (GroupCommitState.step wantsError) (Unmixed wantsError) (noCallers Caller) steps := by
  apply along_iff_meets (I := fun s => ∃ leader, Led s leader)
  · rintro s x t ⟨leader, h⟩ hstep
    exact h.step wantsError hstep
  · rintro s x t ⟨leader, h⟩ hown hstep
    obtain ⟨next, hnext⟩ := h.step wantsError hstep
    rw [ownOutcomes_iff wantsError hnext]
    exact ownErrors_step wantsError h ((ownOutcomes_iff wantsError h).mp hown) hstep
  · exact ⟨none, led_noCallers⟩
  · rw [ownOutcomes_iff wantsError led_noCallers]
    intro c passed error hphase
    cases hphase

/-- The second of two groups fails in the log. -/
def failedGroup : Except String Unit :=
  (writeGroup { intent := some "no space left" } (Fin.last 7) [⟨2, []⟩] ⟨∅, fun _ => ∅⟩).1

/-- The first caller leads; the second comes while the first group is written. -/
def secondComesLate : List (GroupStep Bool) :=
  [.enqueue false, .drain false, .enqueue true, .write false (.ok ()), .publish false,
    .drain false, .write false failedGroup, .publish false]

/-- What a caller gave back and left in `*error`. -/
def GroupCommitState.outcome {Caller : Type} (s : GroupCommitState Caller) (c : Caller) :
    Option (Bool × Option String) :=
  match s.phase c with
  | .returned passed error => some (passed, error)
  | _ => none

/-- The leader returns true, and sets the error of the other caller. -/
theorem leader_reports_later_group :
    (run (GroupCommitState.step fun _ => true) (noCallers Bool) secondComesLate).bind
      (·.outcome false) = some (true, some "write Lite physical WAL: no space left") ∧
    ¬ Along (GroupCommitState.step fun _ => true) (OwnOutcomes fun _ => true) (noCallers Bool)
      secondComesLate := by
  refine ⟨by decide +kernel, fun halong => ?_⟩
  obtain ⟨call, hcall, hmem, -, herror⟩ := (halong.last rfl).own false _ _ rfl
  rcases mem_cons.mp hcall with rfl | hcall
  · cases herror
  · rw [mem_singleton.mp hcall] at hmem
    exact absurd hmem (by decide)

end litestore
