-- The activation of the unified store (LiteUnifiedRocksDB.cpp). The markers of a target are
-- checked against each other and then written in two commits; a start can end after any of them.
import LiteStore.StorageEngines
import LiteStore.Lib.Transitions

namespace litestore

open checked transitions

/-! ## A start -/

def formatKey : Bytes := textBytes "m12/format"

def unifiedFormat : Bytes := textBytes "LiteTxnStore/2"

def activeKey : Bytes := textBytes "m13/active"

def activeValue : Bytes := textBytes "1"

def layoutKey : Bytes := textBytes "m13/layout"

def layoutValue : Bytes := textBytes "unified-hex-v1"

/-- What an active target holds besides the user data. -/
def markers : List (Bytes × Bytes) :=
  [(formatKey, unifiedFormat), (activeKey, activeValue), (layoutKey, layoutValue)]

def storageIsEmpty (records : RecordMap) : Bool :=
  (RocksDBCursor.next ⟨records, [], [], (rocksDBEngine true).scan records [] []⟩).1.isNone

/-- Whether a root has the directories of the old layout, and the records of its target. A target
that is not there is created empty. -/
structure StoreRoot where
  catalog : Bool := false
  data : Bool := false
  target : RecordMap := ∅

/-- The checks of `prepareTarget` in their order, and the commits that follow them. -/
def activationCommits (root : StoreRoot) : Except Bytes (List (List (Bytes × Bytes))) := do
  let format := root.target[formatKey]?
  let active := root.target[activeKey]?
  let layout := root.target[layoutKey]?
  guardOk (¬ (root.catalog || root.data)) (textBytes ("legacy per-table RocksDB layout is " ++
    "unsupported; remove catalog/ and data/ before starting this build"))
  guardOk (∀ v ∈ format, v = unifiedFormat)
    (textBytes "unsupported Lite unified format: " ++ format.getD [])
  guardOk (∀ v ∈ active, v = activeValue) (textBytes "invalid Lite unified activation marker")
  guardOk (∀ v ∈ layout, v = layoutValue)
    (textBytes "unsupported Lite unified layout: " ++ layout.getD [])
  guardOk (active.isSome → format.isSome ∧ layout.isSome)
    (textBytes "incomplete active Lite unified format")
  guardOk (layout.isSome → active.isSome) (textBytes "Lite unified layout is not activated")
  guardOk (format.isSome ∨ storageIsEmpty root.target)
    (textBytes "unrecognized non-empty Lite unified target")
  .ok (if active = some activeValue then []
    else (if format.isSome then [] else [[(formatKey, unifiedFormat)]]) ++
      [[(activeKey, activeValue), (layoutKey, layoutValue)]])

def StoreRoot.commitAll (root : StoreRoot) (commits : List (List (Bytes × Bytes))) : StoreRoot :=
  { root with target := commits.foldl putAll root.target }

def prepareTarget (root : StoreRoot) : Except Bytes Unit × StoreRoot :=
  match activationCommits root with
  | .error message => (.error message, root)
  | .ok commits => (.ok (), root.commitAll commits)

/-! ## Starts, crashes and writes -/

structure StoreProcess where
  root : StoreRoot := {}
  opened : Bool := false

inductive StoreStep
  | start
  | crashAfter (commits : Nat)
  | write (erased : List Bytes) (puts : List (Bytes × Bytes))

/-- User data is written while the store is open, under keys that are no markers. -/
def StoreProcess.step (s : StoreProcess) : StoreStep → Option StoreProcess
  | .start => some ⟨(prepareTarget s.root).2, (prepareTarget s.root).1.isOk⟩
  | .crashAfter n => some ⟨s.root.commitAll ((activationCommits s.root).toOption.getD [] |>.take n),
      false⟩
  | .write erased puts =>
    if s.opened ∧ ∀ m ∈ markers, m.1 ∉ erased ++ puts.map (·.1) then
      some { s with root.target := putAll (eraseAll s.root.target erased) puts }
    else none

/-! ## The accepted targets -/

/-- The markers contradict each other or have other values, or records stand without a format. -/
def Inconsistent (target : RecordMap) : Prop :=
  (target[activeKey]?.isSome ∧ (target[formatKey]? = none ∨ target[layoutKey]? = none)) ∨
    (target[layoutKey]?.isSome ∧ target[activeKey]? = none) ∨
    (∃ m ∈ markers, ∃ v, target[m.1]? = some v ∧ v ≠ m.2) ∨
    (target[formatKey]? = none ∧ target ≠ ∅)

/-- How far the activation has come. -/
inductive Stage (target : RecordMap) : Prop
  | blank (h : target = ∅)
  | formatted (hformat : target[formatKey]? = some unifiedFormat)
      (hactive : target[activeKey]? = none) (hlayout : target[layoutKey]? = none)
  | active (hformat : target[formatKey]? = some unifiedFormat)
      (hactive : target[activeKey]? = some activeValue)
      (hlayout : target[layoutKey]? = some layoutValue)

theorem storageIsEmpty_iff {records : RecordMap} : storageIsEmpty records = true ↔ records = ∅ := by
  have hall : records.toList.dropWhile (fun r => compare r.1 ([] : Bytes) = .lt) =
      records.toList := by
    cases records.toList with
    | nil => rfl
    | cons r rest => cases hr : r.1 <;> simp [hr, List.dropWhile]
  rw [← Std.ExtTreeMap.toList_eq_nil_iff]
  unfold storageIsEmpty rocksDBEngine RocksDBCursor.next
  simp only [hall]
  cases records.toList <;> simp

variable {root : StoreRoot}

/-- A start that goes through had no contradiction to report. -/
theorem not_inconsistent {commits : List (List (Bytes × Bytes))}
    (h : activationCommits root = .ok commits) : ¬ Inconsistent root.target := by
  simp only [activationCommits, bind_eq_ok, guardOk_eq_ok, exists_const, storageIsEmpty_iff,
    Option.mem_def] at h
  obtain ⟨-, hformat, hactive, hlayout, hcomplete, hactivated, hempty, -⟩ := h
  simp only [Inconsistent, markers, List.mem_cons, List.not_mem_nil, or_false]
  grind

theorem Stage.activated {target : RecordMap} (h : target[formatKey]? = some unifiedFormat) :
    Stage (putAll target [(activeKey, activeValue), (layoutKey, layoutValue)]) ∧
      putAll target [(activeKey, activeValue), (layoutKey, layoutValue)] =
        putAll target markers := by
  have hkeys : formatKey ≠ activeKey ∧ formatKey ≠ layoutKey ∧ activeKey ≠ layoutKey := by decide
  refine ⟨.active ?_ ?_ ?_, Std.ExtTreeMap.ext_getElem? fun k => ?_⟩ <;>
    simp only [markers, putAll_cons, putAll_nil, getElem?_insert_eq] <;> grind

/-- The commits that are left at a stage: each of them leads to a stage, and all of them to the
markers. -/
theorem Stage.commits (hnew : (root.catalog || root.data) = false) (h : Stage root.target) :
    ∃ commits, activationCommits root = .ok commits ∧
      (∀ n, Stage ((commits.take n).foldl putAll root.target)) ∧
      commits.foldl putAll root.target = putAll root.target markers := by
  cases h with
  | blank h =>
    have hformat : (putAll root.target [(formatKey, unifiedFormat)])[formatKey]? =
      some unifiedFormat := putAll_of_mem (by simp) (by simp)
    refine ⟨[[(formatKey, unifiedFormat)], [(activeKey, activeValue), (layoutKey, layoutValue)]],
      ?_, fun n => ?_, ?_⟩
    · simp [activationCommits, guardOk, hnew, h, storageIsEmpty_iff]
    · rcases n with _ | _ | n
      · exact .blank h
      · refine .formatted hformat ?_ ?_ <;> rw [h] <;> exact putAll_empty_eq_none.mpr (by decide)
      · rw [List.take_of_length_le (by simp)]
        exact (Stage.activated hformat).1
    · simp only [List.foldl, markers, putAll_cons, putAll_nil]
  | formatted hformat hactive hlayout =>
    refine ⟨[[(activeKey, activeValue), (layoutKey, layoutValue)]], ?_, fun n => ?_,
      (Stage.activated hformat).2⟩
    · simp [activationCommits, guardOk, hnew, hformat, hactive, hlayout]
    · rcases n with _ | n
      · exact .formatted hformat hactive hlayout
      · rw [List.take_of_length_le (by simp)]
        exact (Stage.activated hformat).1
  | active hformat hactive hlayout =>
    refine ⟨[], ?_, fun n => ?_, Std.ExtTreeMap.ext_getElem? fun k => ?_⟩
    · simp [activationCommits, guardOk, hnew, hformat, hactive, hlayout]
    · rw [List.take_nil]
      exact .active hformat hactive hlayout
    · simp only [List.foldl, markers, putAll_cons, putAll_nil, getElem?_insert_eq]
      split_ifs <;> simp_all

/-- No directory of the old layout, a target at some stage, and all markers in an open store. -/
structure StoreProcess.Sound (s : StoreProcess) : Prop where
  fresh : (s.root.catalog || s.root.data) = false
  stage : Stage s.root.target
  opened : s.opened = true → s.root.target[activeKey]? = some activeValue

theorem StoreProcess.Sound.step {s t : StoreProcess} {x : StoreStep} (h : s.Sound)
    (hstep : s.step x = some t) : t.Sound := by
  obtain ⟨commits, hcommits, htake, hall⟩ := h.stage.commits h.fresh
  cases x with
  | start =>
    simp only [StoreProcess.step, prepareTarget, hcommits, Option.some.injEq] at hstep
    subst hstep
    have hstage := htake commits.length
    rw [List.take_length] at hstage
    refine ⟨h.fresh, hstage, fun _ => ?_⟩
    rw [StoreRoot.commitAll, hall]
    exact putAll_of_mem (by decide) (by simp [markers])
  | crashAfter n =>
    simp only [StoreProcess.step, hcommits, Option.some.injEq] at hstep
    subst hstep
    exact ⟨h.fresh, htake n, nofun⟩
  | write erased puts =>
    dsimp only [StoreProcess.step] at hstep
    split at hstep
    · rename_i hwrite
      cases hstep
      -- the markers are as they were, and an open store has them all
      have hkept : ∀ m ∈ markers,
          (putAll (eraseAll s.root.target erased) puts)[m.1]? = s.root.target[m.1]? := by
        intro m hm
        have hno := hwrite.2 m hm
        rw [List.mem_append, not_or] at hno
        rw [putAll_of_notMem hno.2, eraseAll_getElem?, if_neg hno.1]
      have hactive := hkept (activeKey, activeValue) (by simp [markers])
      refine ⟨h.fresh, ?_, fun hopen => hactive.trans (h.opened hopen)⟩
      have hopen := h.opened hwrite.1
      cases h.stage with
      | blank hblank => simp [hblank] at hopen
      | formatted _ hnone _ => simp [hnone] at hopen
      | active hformat _ hlayout =>
        exact .active ((hkept (formatKey, unifiedFormat) (by simp [markers])).trans hformat)
          (hactive.trans hopen)
          ((hkept (layoutKey, layoutValue) (by simp [markers])).trans hlayout)
    · cases hstep

/-- Whatever starts, crashes and writes came before it on a fresh root, a start that is not
interrupted goes through and leaves the markers and the user data. On a target with inconsistent
markers it fails and changes nothing. -/
theorem activation_converges :
    (∀ steps s, run StoreProcess.step {} steps = some s →
      prepareTarget s.root = (.ok (), { s.root with target := putAll s.root.target markers })) ∧
    ∀ root, Inconsistent root.target → ∃ message, prepareTarget root = (.error message, root) := by
  constructor
  · intro steps s hrun
    have hfresh : StoreProcess.Sound {} := ⟨rfl, .blank rfl, fun hopen => nomatch hopen⟩
    have hsound := (along_of_inv (fun _ _ _ => StoreProcess.Sound.step) hfresh).last hrun
    obtain ⟨commits, hcommits, -, hall⟩ := hsound.stage.commits hsound.fresh
    simp only [prepareTarget, hcommits, StoreRoot.commitAll, hall]
  · intro root hbad
    cases hcommits : activationCommits root with
    | error message => exact ⟨message, by rw [prepareTarget, hcommits]⟩
    | ok commits => exact absurd hbad (not_inconsistent hcommits)

/-- A start goes through behind one that crashed between its two commits, and it refuses a target
that is active and has no format. -/
theorem activation_after_a_crash :
    (∃ s, run StoreProcess.step {} [.crashAfter 1] = some s ∧
      s.root.target = putAll ∅ [(formatKey, unifiedFormat)] ∧
      prepareTarget s.root = (.ok (), { s.root with target := putAll s.root.target markers })) ∧
    ∃ message, prepareTarget { target := putAll ∅ [(activeKey, activeValue)] } =
      (.error message, { target := putAll ∅ [(activeKey, activeValue)] }) := by
  have hcrash : (StoreRoot.commitAll {}
      ((activationCommits {}).toOption.getD [] |>.take 1)).target = putAll ∅ [(formatKey, unifiedFormat)] := by
    simp [activationCommits, guardOk, storageIsEmpty_iff, StoreRoot.commitAll, Except.toOption]
  refine ⟨⟨_, rfl, hcrash, activation_converges.1 [.crashAfter 1] _ rfl⟩,
    activation_converges.2 _ (.inl ⟨?_, .inl ?_⟩)⟩
  · rw [putAll_of_mem (v := activeValue) (by simp) (by simp)]
    rfl
  · exact putAll_empty_eq_none.mpr (by decide)

end litestore
