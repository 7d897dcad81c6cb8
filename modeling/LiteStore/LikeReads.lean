-- What the clauses of a partition read from memory. A partition is a row of slots: where the text
-- is long enough, it matches when the slots take the units of the text, and where the text is too
-- short, the reading goes on behind the end of it.
import LiteStore.LikeCodes

open Stream' (append_append_stream drop_append_stream take_append_of_le_length append_take_drop
  append_left_injective drop_drop take_take take_drop)
open wildcard

namespace litestore

variable {cs : CharSet} {υ : Type} {code : υ → Bytes} {p : List (Slot υ)}

/-! ## Units where they stand -/

variable {mem : Memory}

/-- One unit's bytes are no beginning of another unit's bytes. -/
theorem UnitCode.eq_of_append (R : UnitCode cs code) {u v : υ} {mem' : Memory}
    (h : code u ++ₛ mem = code v ++ₛ mem') : u = v := by
  have hu := R.first_text u mem
  rw [h, R.first_text v mem'] at hu
  have hlen : (code u).length = (code v).length := (Option.some.inj hu).symm
  exact R.injective (append_left_injective _ _ _ _ h hlen)

theorem UnitCode.take_eq_iff (R : UnitCode cs code) (u v : υ) (mem : Memory) :
    (code u ++ₛ mem).take (code v).length = code v ↔ u = v := by
  constructor
  · intro h
    have hsplit := append_take_drop (code v).length (code u ++ₛ mem)
    rw [h] at hsplit
    exact R.eq_of_append hsplit.symm
  · rintro rfl
    rw [take_append_of_le_length _ _ _ le_rfl, List.take_length]

theorem UnitCode.length_pos (R : UnitCode cs code) (u : υ) : 0 < (code u).length :=
  List.length_pos_iff.mpr (R.ne_nil u)

theorem take_add (mem : Memory) (m n : Nat) :
    mem.take (m + n) = mem.take m ++ (mem.drop m).take n := by
  rw [take_drop, ← List.take_append_drop m (mem.take (m + n)), take_take]
  simp

/-! ## The slots of a partition -/

/-- The clauses are these slots: a clause of literals has the bytes of its units, and a clause of
underscores has one byte for each unit. -/
inductive ClausesOf (code : υ → Bytes) : List LikePatternClause → List (Slot υ) → Prop
  | nil : ClausesOf code [] []
  | literals (us : List υ) {cl : List LikePatternClause} {p : List (Slot υ)} :
      ClausesOf code cl p →
        ClausesOf code (⟨.nonWildcard, us.flatMap code⟩ :: cl) (us.map .lit ++ p)
  | underscores (us : List υ) (h : (us.flatMap code).length = us.length)
      {cl : List LikePatternClause} {p : List (Slot υ)} :
      ClausesOf code cl p →
        ClausesOf code (⟨.underscore, us.flatMap code⟩ :: cl) (List.replicate us.length .one ++ p)
  | percent {cl : List LikePatternClause} {p : List (Slot υ)} :
      ClausesOf code cl p → ClausesOf code (⟨.percent, []⟩ :: cl) p

/-- What slots read from memory: the bytes they take, if they match. -/
def readSlots (cs : CharSet) (code : υ → Bytes) :
    List (Slot υ) → Memory → Except LikeError (Option Nat)
  | [], _ => .ok (some 0)
  | .one :: p, mem =>
    match getFirstCharLength cs mem (strlen mem) with
    | none => .error .invalidCharacter
    | some n => (readSlots cs code p (mem.drop n)).map (Option.map (n + ·))
  | .lit u :: p, mem =>
    if mem.take (code u).length = code u then
      (readSlots cs code p (mem.drop (code u).length)).map (Option.map ((code u).length + ·))
    else .ok none

theorem map_add_add (m n : Nat) (r : Except LikeError (Option Nat)) :
    (r.map (Option.map (n + ·))).map (Option.map (m + ·)) = r.map (Option.map (m + n + ·)) := by
  cases r with
  | error e => rfl
  | ok o => cases o <;> simp [Except.map, Nat.add_assoc]

/-- Bytes are compared at once as well as unit by unit. -/
theorem readSlots_literals (us : List υ) (p : List (Slot υ)) (mem : Memory) :
    readSlots cs code (us.map .lit ++ p) mem =
      if mem.take (us.flatMap code).length = us.flatMap code then
        (readSlots cs code p (mem.drop (us.flatMap code).length)).map
          (Option.map ((us.flatMap code).length + ·))
      else .ok none := by
  induction us generalizing mem with
  | nil => simp
  | cons u us ih =>
    have htake : mem.take ((code u).length + (us.flatMap code).length) = code u ++ us.flatMap code ↔
        mem.take (code u).length = code u ∧
          (mem.drop (code u).length).take (us.flatMap code).length = us.flatMap code := by
      rw [take_add]
      constructor
      · intro h
        exact List.append_inj h (by simp)
      · rintro ⟨h1, h2⟩
        rw [h1, h2]
    rw [List.map_cons, List.cons_append, readSlots, ih, List.flatMap_cons, List.length_append]
    by_cases h1 : mem.take (code u).length = code u
    · by_cases h2 : (mem.drop (code u).length).take (us.flatMap code).length = us.flatMap code
      · rw [if_pos h1, if_pos h2, if_pos (htake.mpr ⟨h1, h2⟩), map_add_add, drop_drop]
      · rw [if_pos h1, if_neg h2, if_neg fun h => h2 (htake.mp h).2]
        rfl
    · rw [if_neg h1, if_neg fun h => h1 (htake.mp h).1]

theorem readSlots_underscores (k : Nat) (p : List (Slot υ)) (mem : Memory) :
    readSlots cs code (List.replicate k .one ++ p) mem =
      (underscoreBytes cs k mem).elim (.error .invalidCharacter) fun n =>
        (readSlots cs code p (mem.drop n)).map (Option.map (n + ·)) := by
  induction k generalizing mem with
  | zero => simp [underscoreBytes]
  | succ k ih =>
    rw [List.replicate_succ, List.cons_append, readSlots, underscoreBytes]
    cases getFirstCharLength cs mem (strlen mem) with
    | none => rfl
    | some n =>
      simp only [ih]
      cases underscoreBytes cs k (mem.drop n) with
      | none => rfl
      | some m => simp only [Option.elim_some, Option.map_some, map_add_add, drop_drop]

theorem clausesMatch_cons (c : LikePatternClause) (rest : List LikePatternClause) (mem : Memory) :
    clausesMatch cs (c :: rest) mem =
      if c.matchesText mem then
        (if c.charType = .underscore then underscoreBytes cs c.length mem else some c.length).elim
          (.error .invalidCharacter) fun n =>
            (clausesMatch cs rest (mem.drop n)).map (Option.map (n + ·))
      else .ok none := by
  rw [clausesMatch]
  split
  · cases if c.charType = .underscore then underscoreBytes cs c.length mem else some c.length with
    | none => rfl
    | some n =>
      simp only [Option.elim_some]
      cases clausesMatch cs rest (mem.drop n) with
      | error e => rfl
      | ok o => cases o <;> rfl
  · rfl

/-- The clauses read what their slots read. -/
theorem clausesMatch_eq_readSlots {cl : List LikePatternClause} (h : ClausesOf code cl p)
    (mem : Memory) : clausesMatch cs cl mem = readSlots cs code p mem := by
  induction h generalizing mem with
  | nil => rfl
  | literals us _ ih =>
    rw [clausesMatch_cons, readSlots_literals]
    simp [LikePatternClause.matchesText, LikePatternClause.length, ih]
  | underscores us hlen _ ih =>
    rw [clausesMatch_cons, readSlots_underscores]
    simp [LikePatternClause.matchesText, LikePatternClause.length, hlen, ih]
  | percent _ ih =>
    rw [clausesMatch_cons]
    simp [LikePatternClause.matchesText, LikePatternClause.length, ih]

/-! ## Inside the text -/

/-- Where the text is long enough and the slots take its beginning, they take those bytes. -/
theorem UnitCode.readSlots_of_starts (R : UnitCode cs code) {us : List υ} (h : Starts p us)
    (mem : Memory) :
    readSlots cs code p (us.flatMap code ++ₛ mem) =
      .ok (some ((us.take p.length).flatMap code).length) := by
  induction p generalizing us with
  | nil => rfl
  | cons s p ih =>
    cases us with
    | nil => exact absurd h (not_starts_cons_nil s p)
    | cons u us =>
      obtain ⟨htakes, hrest⟩ := (starts_cons_cons s p u us).mp h
      rw [List.flatMap_cons, append_append_stream]
      cases s with
      | one =>
        rw [readSlots, R.first_text]
        simp [drop_append_stream, ih hrest, Except.map]
      | lit v =>
        obtain rfl : v = u := htakes
        rw [readSlots, if_pos ((R.take_eq_iff _ _ _).mpr rfl)]
        simp [drop_append_stream, ih hrest, Except.map]

/-- Where the text is long enough and the slots do not take its beginning, they do not match. -/
theorem UnitCode.readSlots_of_not_starts (R : UnitCode cs code) {us : List υ} (h : ¬ Starts p us)
    (hlen : p.length ≤ us.length) (mem : Memory) :
    readSlots cs code p (us.flatMap code ++ₛ mem) = .ok none := by
  induction p generalizing us with
  | nil => exact absurd (starts_nil us) h
  | cons s p ih =>
    cases us with
    | nil => simp at hlen
    | cons u us =>
      rw [starts_cons_cons] at h
      have hlen' : p.length ≤ us.length := by simpa using hlen
      rw [List.flatMap_cons, append_append_stream]
      cases s with
      | one =>
        have hrest : ¬ Starts p us := fun hp => h ⟨trivial, hp⟩
        rw [readSlots, R.first_text]
        simp [drop_append_stream, ih hrest hlen', Except.map]
      | lit v =>
        rw [readSlots]
        by_cases hv : u = v
        · have hrest : ¬ Starts p us := fun hp => h ⟨hv.symm, hp⟩
          subst hv
          rw [if_pos ((R.take_eq_iff _ _ _).mpr rfl)]
          simp [drop_append_stream, ih hrest hlen', Except.map]
        · rw [if_neg fun ht => hv ((R.take_eq_iff _ _ _).mp ht)]

/-! ## Behind the text -/

/-- The memory begins with bytes that the slots take. -/
inductive Laid (cs : CharSet) (code : υ → Bytes) : List (Slot υ) → Memory → Prop
  | nil (mem : Memory) : Laid cs code [] mem
  | one {p : List (Slot υ)} {mem : Memory} {n : Nat} :
      getFirstCharLength cs mem (strlen mem) = some n → Laid cs code p (mem.drop n) →
        Laid cs code (.one :: p) mem
  | lit (u : υ) {p : List (Slot υ)} {mem : Memory} :
      Laid cs code p mem → Laid cs code (.lit u :: p) (code u ++ₛ mem)

/-- The slots take the beginning of the memory up to an underscore that finds no character. -/
inductive Stumbles (cs : CharSet) (code : υ → Bytes) : List (Slot υ) → Memory → Prop
  | here {p : List (Slot υ)} {mem : Memory} :
      getFirstCharLength cs mem (strlen mem) = none → Stumbles cs code (.one :: p) mem
  | one {p : List (Slot υ)} {mem : Memory} {n : Nat} :
      getFirstCharLength cs mem (strlen mem) = some n → Stumbles cs code p (mem.drop n) →
        Stumbles cs code (.one :: p) mem
  | lit (u : υ) {p : List (Slot υ)} {mem : Memory} :
      Stumbles cs code p mem → Stumbles cs code (.lit u :: p) (code u ++ₛ mem)

theorem take_eq_iff_append (b : Bytes) (mem : Memory) :
    mem.take b.length = b ↔ mem = b ++ₛ mem.drop b.length := by
  constructor
  · intro h
    have hsplit := append_take_drop b.length mem
    rw [h] at hsplit
    exact hsplit.symm
  · intro h
    rw [h, take_append_of_le_length _ _ _ le_rfl, List.take_length]

theorem laid_one_iff :
    Laid cs code (.one :: p) mem ↔
      ∃ n, getFirstCharLength cs mem (strlen mem) = some n ∧ Laid cs code p (mem.drop n) := by
  constructor
  · intro h
    cases h with
    | one hn hp => exact ⟨_, hn, hp⟩
  · rintro ⟨n, hn, hp⟩
    exact .one hn hp

theorem laid_lit_iff {u : υ} :
    Laid cs code (.lit u :: p) mem ↔
      mem.take (code u).length = code u ∧ Laid cs code p (mem.drop (code u).length) := by
  constructor
  · intro h
    cases h with
    | lit _ hp =>
      rw [drop_append_stream]
      exact ⟨(take_eq_iff_append _ _).mpr (by rw [drop_append_stream]), hp⟩
  · rintro ⟨htake, hp⟩
    rw [(take_eq_iff_append _ _).mp htake]
    exact .lit u hp

theorem stumbles_one_iff :
    Stumbles cs code (.one :: p) mem ↔
      getFirstCharLength cs mem (strlen mem) = none ∨
      ∃ n, getFirstCharLength cs mem (strlen mem) = some n ∧ Stumbles cs code p (mem.drop n) := by
  constructor
  · intro h
    cases h with
    | here hn => exact .inl hn
    | one hn hp => exact .inr ⟨_, hn, hp⟩
  · rintro (hn | ⟨n, hn, hp⟩)
    · exact .here hn
    · exact .one hn hp

theorem stumbles_lit_iff {u : υ} :
    Stumbles cs code (.lit u :: p) mem ↔
      mem.take (code u).length = code u ∧ Stumbles cs code p (mem.drop (code u).length) := by
  constructor
  · intro h
    cases h with
    | lit _ hp =>
      rw [drop_append_stream]
      exact ⟨(take_eq_iff_append _ _).mpr (by rw [drop_append_stream]), hp⟩
  · rintro ⟨htake, hp⟩
    rw [(take_eq_iff_append _ _).mp htake]
    exact .lit u hp

/-- How a reading can end. -/
inductive ReadingEnds (cs : CharSet) (code : υ → Bytes) (p : List (Slot υ)) (mem : Memory) : Prop
  | laid (h : Laid cs code p mem) (hs : ¬ Stumbles cs code p mem) (k : Nat)
      (hread : readSlots cs code p mem = .ok (some k))
  | stumbles (h : Stumbles cs code p mem) (hl : ¬ Laid cs code p mem)
      (hread : readSlots cs code p mem = .error .invalidCharacter)
  | differs (hl : ¬ Laid cs code p mem) (hs : ¬ Stumbles cs code p mem)
      (hread : readSlots cs code p mem = .ok none)

theorem readingEnds (cs : CharSet) (code : υ → Bytes) (p : List (Slot υ)) (mem : Memory) :
    ReadingEnds cs code p mem := by
  induction p generalizing mem with
  | nil => exact .laid (.nil mem) (fun h => nomatch h) 0 rfl
  | cons s p ih =>
    cases s with
    | one =>
      cases hn : getFirstCharLength cs mem (strlen mem) with
      | none =>
        refine .stumbles (.here hn) ?_ ?_
        · simp [laid_one_iff, hn]
        · rw [readSlots, hn]
      | some n =>
        cases ih (mem.drop n) with
        | laid h hs k hread =>
          refine .laid (.one hn h) ?_ (n + k) ?_
          · simp [stumbles_one_iff, hn, hs]
          · simp [readSlots, hn, hread, Except.map]
        | stumbles h hl hread =>
          refine .stumbles (.one hn h) ?_ ?_
          · simp [laid_one_iff, hn, hl]
          · simp [readSlots, hn, hread, Except.map]
        | differs hl hs hread =>
          refine .differs ?_ ?_ ?_
          · simp [laid_one_iff, hn, hl]
          · simp [stumbles_one_iff, hn, hs]
          · simp [readSlots, hn, hread, Except.map]
    | lit u =>
      by_cases ht : mem.take (code u).length = code u
      · cases ih (mem.drop (code u).length) with
        | laid h hs k hread =>
          refine .laid (laid_lit_iff.mpr ⟨ht, h⟩) ?_ ((code u).length + k) ?_
          · simp [stumbles_lit_iff, hs]
          · simp [readSlots, ht, hread, Except.map]
        | stumbles h hl hread =>
          refine .stumbles (stumbles_lit_iff.mpr ⟨ht, h⟩) ?_ ?_
          · simp [laid_lit_iff, hl]
          · simp [readSlots, ht, hread, Except.map]
        | differs hl hs hread =>
          refine .differs ?_ ?_ ?_
          · simp [laid_lit_iff, hl]
          · simp [stumbles_lit_iff, hs]
          · simp [readSlots, ht, hread, Except.map]
      · refine .differs ?_ ?_ ?_
        · simp [laid_lit_iff, ht]
        · simp [stumbles_lit_iff, ht]
        · simp [readSlots, ht]

end litestore
