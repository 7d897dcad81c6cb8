-- The search for the partitions between the first and the last one. A partition is found at its
-- leftmost place in the rest of the text. Where it has no place, the search still tries the places
-- that have bytes enough for it, and reads on behind the end of the rest.
import LiteStore.LikeSearch

open Stream' (append_append_stream drop_append_stream)
open wildcard List

namespace litestore

variable {cs : CharSet} {υ : Type} {code : υ → Bytes} {p : List (Slot υ)} {us : List υ}

/-- The memory where the units begin. -/
def memoryAt (code : υ → Bytes) (us : List υ) (after : Memory) : Memory := us.flatMap code ++ₛ after

/-- What stands behind the first units. -/
theorem drop_memoryAt_append (a b : List υ) (after : Memory) :
    (memoryAt code (a ++ b) after).drop (a.flatMap code).length = memoryAt code b after := by
  rw [memoryAt, flatMap_append, append_append_stream, drop_append_stream, memoryAt]

theorem drop_memoryAt_cons (u : υ) (us : List υ) (after : Memory) :
    (memoryAt code (u :: us) after).drop (code u).length = memoryAt code us after := by
  rw [memoryAt, flatMap_cons, append_append_stream, drop_append_stream, memoryAt]

theorem UnitCode.read_cons (R : UnitCode cs code) (u : υ) (us : List υ) (after : Memory) :
    getFirstCharLength cs (memoryAt code (u :: us) after)
      (strlen (memoryAt code (u :: us) after)) = some (code u).length := by
  rw [memoryAt, flatMap_cons, append_append_stream]
  exact R.first_text u _

theorem room_cons (u : υ) (us : List υ) :
    (((u :: us).flatMap code).length : Int) - (code u).length = (us.flatMap code).length := by
  rw [flatMap_cons, length_append]
  push_cast
  omega

/-- A place where a partition runs over the end: too few units are left for it, but bytes enough. -/
structure PlaceOver (code : υ → Bytes) (p : List (Slot υ)) (us s : List υ) : Prop where
  suffix : s <:+ us
  short : s.length < p.length
  bytes : slotBytes code p ≤ (s.flatMap code).length

/-- How the search for a partition can end. -/
inductive SearchEnds (cs : CharSet) (code : υ → Bytes) (p : List (Slot υ)) (us : List υ)
    (after : Memory) : Except LikeError (Option (Memory × Int)) → Prop
  | found (b : List υ) (hb : b <:+ us)
      (hplace : ∀ ps, InOrder (p :: ps) us ↔ InOrder ps b) :
      SearchEnds cs code p us after (.ok (some (memoryAt code b after, (b.flatMap code).length)))
  | overrun (s : List υ) (mem : Memory) (room : Int) (hno : ¬ InOrder [p] us)
      (hs : PlaceOver code p us s) (hlaid : Laid cs code p (memoryAt code s after))
      (hfirst : ∀ s', PlaceOver code p us s' → s.length < s'.length →
        ¬ Laid cs code p (memoryAt code s' after) ∧ ¬ Stumbles cs code p (memoryAt code s' after))
      (hroom : room < 0) : SearchEnds cs code p us after (.ok (some (mem, room)))
  | stumbles (s : List υ) (hno : ¬ InOrder [p] us) (hs : PlaceOver code p us s)
      (hstumbles : Stumbles cs code p (memoryAt code s after))
      (hfirst : ∀ s', PlaceOver code p us s' → s.length < s'.length →
        ¬ Laid cs code p (memoryAt code s' after) ∧ ¬ Stumbles cs code p (memoryAt code s' after)) :
      SearchEnds cs code p us after (.error .invalidCharacter)
  | nowhere (hno : ¬ InOrder [p] us)
      (hnone : ∀ s, PlaceOver code p us s →
        ¬ Laid cs code p (memoryAt code s after) ∧ ¬ Stumbles cs code p (memoryAt code s after)) :
      SearchEnds cs code p us after (.ok none)

theorem PlaceOver.of_cons {u : υ} {s : List υ} (h : PlaceOver code p (u :: us) s) :
    s = u :: us ∨ PlaceOver code p us s := by
  obtain hs | hs := suffix_cons_iff.mp h.suffix
  · exact .inl hs
  · exact .inr ⟨hs, h.short, h.bytes⟩

theorem PlaceOver.cons {s : List υ} (h : PlaceOver code p us s) (u : υ) :
    PlaceOver code p (u :: us) s :=
  ⟨h.suffix.trans (suffix_cons u us), h.short, h.bytes⟩

/-- A place where the partition does not match is passed. -/
theorem SearchEnds.cons {u : υ} {after : Memory} {r : Except LikeError (Option (Memory × Int))}
    (h : SearchEnds cs code p us after r) (hstarts : ¬ Starts p (u :: us))
    (hlaid : ¬ Laid cs code p (memoryAt code (u :: us) after))
    (hstumbles : ¬ Stumbles cs code p (memoryAt code (u :: us) after)) :
    SearchEnds cs code p (u :: us) after r := by
  have hno : ∀ ps, InOrder (p :: ps) (u :: us) ↔ InOrder (p :: ps) us :=
    inOrder_of_not_starts hstarts
  cases h with
  | found b hb hplace =>
    exact .found b (hb.trans (suffix_cons u us)) fun ps => (hno ps).trans (hplace ps)
  | overrun s mem room hin hs hl hfirst hroom =>
    refine .overrun s mem room (fun h => hin ((hno []).mp h)) (hs.cons u) hl ?_ hroom
    intro s' hs' hlt
    obtain rfl | hs' := hs'.of_cons
    · exact ⟨hlaid, hstumbles⟩
    · exact hfirst s' hs' hlt
  | stumbles s hin hs hst hfirst =>
    refine .stumbles s (fun h => hin ((hno []).mp h)) (hs.cons u) hst ?_
    intro s' hs' hlt
    obtain rfl | hs' := hs'.of_cons
    · exact ⟨hlaid, hstumbles⟩
    · exact hfirst s' hs' hlt
  | nowhere hin hnone =>
    refine .nowhere (fun h => hin ((hno []).mp h)) ?_
    intro s' hs'
    obtain rfl | hs' := hs'.of_cons
    · exact ⟨hlaid, hstumbles⟩
    · exact hnone s' hs'

/-- A place that begins with another unit than a literal slot does not match. -/
theorem UnitCode.differs_of_ne (R : UnitCode cs code) {u v : υ} (h : u ≠ v) (p : List (Slot υ))
    (us : List υ) (after : Memory) :
    ¬ Starts (.lit v :: p) (u :: us) ∧ ¬ Laid cs code (.lit v :: p) (memoryAt code (u :: us) after) ∧
      ¬ Stumbles cs code (.lit v :: p) (memoryAt code (u :: us) after) := by
  have htake : ¬ ((memoryAt code (u :: us) after).take (code v).length = code v) := by
    rw [memoryAt, flatMap_cons, append_append_stream, R.take_eq_iff]
    exact h
  refine ⟨?_, ?_, ?_⟩
  · rw [starts_cons_cons]
    rintro ⟨rfl, _⟩
    exact h rfl
  · rw [laid_lit_iff]
    exact fun hl => htake hl.1
  · rw [stumbles_lit_iff]
    exact fun hs => htake hs.1

variable {h : LikePatternHeader} {n k : Nat} {mem : Memory}

/-- Units that the partition does not begin with are skipped. -/
theorem UnitCode.skipChars_spec (R : UnitCode cs code) {v : υ} {rest : Bytes}
    (hpattern : h.pattern = code v ++ rest) (us : List υ) (after : Memory)
    (hn : (us.flatMap code).length ≤ n) :
    ∃ b, b <:+ us ∧
      skipChars cs h n (memoryAt code us after) (us.flatMap code).length =
        .ok (memoryAt code b after, (b.flatMap code).length) ∧
      ∀ r, SearchEnds cs code (.lit v :: p) b after r →
        SearchEnds cs code (.lit v :: p) us after r := by
  induction us generalizing n with
  | nil =>
    refine ⟨[], suffix_refl _, ?_, fun _ h => h⟩
    cases n with
    | zero => rfl
    | succ n => simp [skipChars, memoryAt]
  | cons u us ih =>
    have hpos := R.length_pos u
    rw [flatMap_cons, length_append] at hn
    obtain ⟨n, rfl⟩ : ∃ k, n = k + 1 := ⟨n - 1, by omega⟩
    have htake : (memoryAt code (u :: us) after).take (code u).length = code u := by
      rw [memoryAt, flatMap_cons, append_append_stream, R.take_eq_iff]
    rw [skipChars, if_pos (by rw [flatMap_cons, length_append]; omega), R.read_cons]
    simp only [htake]
    by_cases hu : u = v
    · refine ⟨u :: us, suffix_refl _, ?_, fun _ h => h⟩
      subst hu
      rw [if_pos]
      rw [hpattern, take_left]
    · obtain ⟨b, hb, hskip, hends⟩ := ih (n := n) (by omega)
      have hne : code u ≠ h.pattern.take (code u).length := by
        rw [hpattern]
        intro heq
        have hsplit := take_append_drop (code u).length (code v ++ rest)
        rw [← heq] at hsplit
        have hmem := congrArg (· ++ₛ Stream'.const (0 : UInt8)) hsplit
        simp only [append_append_stream] at hmem
        exact hu (R.eq_of_append hmem)
      rw [if_neg hne, drop_memoryAt_cons, room_cons]
      refine ⟨b, hb.trans (suffix_cons u us), hskip, ?_⟩
      intro r hr
      obtain ⟨hstarts, hlaid, hstumbles⟩ := R.differs_of_ne hu p us after
      exact (hends r hr).cons hstarts hlaid hstumbles

/-! ## One partition -/

theorem utf8CharSize_pos {word : Nat} (h : utf8CharSize word = some n) : 0 < n := by
  unfold utf8CharSize at h
  split_ifs at h <;> simp_all <;> omega

theorem getFirstCharLength_pos {len : Int} (h : getFirstCharLength cs mem len = some n) :
    0 < n := by
  cases cs with
  | iso88591 | ucs2 =>
    obtain rfl : 1 = n := Option.some.inj h
    exact Nat.one_pos
  | utf8 =>
    simp only [getFirstCharLength, localeCharToUCS4, inputUtf8] at h
    cases hsize : utf8CharSize (mem.get 0).toNat with
    | none =>
      rw [hsize] at h
      split_ifs at h with h0
      · obtain rfl : 1 = n := Option.some.inj h
        exact Nat.one_pos
    | some size =>
      have := utf8CharSize_pos hsize
      rw [hsize] at h
      simp only at h
      split_ifs at h <;> simp_all <;> omega

theorem exists_of_map_add {r : Except LikeError (Option Nat)}
    (h : r.map (Option.map (n + ·)) = .ok (some k)) : ∃ j, r = .ok (some j) ∧ k = n + j := by
  cases r with
  | error e => exact absurd h (by simp [Except.map])
  | ok o =>
    cases o with
    | none => exact absurd h (by simp [Except.map])
    | some j =>
      simp only [Except.map, Option.map_some, Except.ok.injEq, Option.some.injEq] at h
      exact ⟨j, rfl, h.symm⟩

section

variable (R : UnitCode cs code)

include R

/-- One slot takes a character, and the others read on behind it. -/
theorem UnitCode.readSlots_cons {s : Slot υ}
    (h : readSlots cs code (s :: p) mem = .ok (some k)) :
    ∃ n j, 0 < n ∧ k = n + j ∧ readSlots cs code p (mem.drop n) = .ok (some j) ∧
      ∀ u mem', mem = code u ++ₛ mem' → n = (code u).length := by
  cases s with
  | one =>
    rw [readSlots] at h
    cases hn : getFirstCharLength cs mem (strlen mem) with
    | none =>
      rw [hn] at h
      exact absurd h (by simp)
    | some n =>
      rw [hn] at h
      obtain ⟨j, hj, rfl⟩ := exists_of_map_add h
      refine ⟨n, j, getFirstCharLength_pos hn, rfl, hj, ?_⟩
      rintro u mem' rfl
      rw [R.first_text] at hn
      exact (Option.some.inj hn).symm
  | lit v =>
    rw [readSlots] at h
    split at h
    · rename_i htake
      obtain ⟨j, hj, rfl⟩ := exists_of_map_add h
      refine ⟨(code v).length, j, R.length_pos v, rfl, hj, ?_⟩
      rintro u mem' rfl
      rw [(R.take_eq_iff u v mem').mp htake]
    · exact absurd h (by simp)

/-- A reading that goes on behind the text takes more bytes than the text has. -/
theorem UnitCode.lt_of_readSlots {after : Memory}
    (hshort : us.length < p.length)
    (h : readSlots cs code p (memoryAt code us after) = .ok (some k)) :
    (us.flatMap code).length < k := by
  induction p generalizing us k with
  | nil => simp at hshort
  | cons s p ih =>
    obtain ⟨n, j, hn, rfl, hj, hlength⟩ := R.readSlots_cons h
    cases us with
    | nil =>
      rw [flatMap_nil, length_nil]
      omega
    | cons u us =>
      obtain rfl : n = (code u).length := by
        refine hlength u (memoryAt code us after) ?_
        rw [memoryAt, flatMap_cons, append_append_stream, memoryAt]
      rw [drop_memoryAt_cons] at hj
      have := ih (by simpa using hshort) hj
      rw [flatMap_cons, length_append]
      omega

/-- A partition for which there are too few bytes has no place. -/
theorem UnitCode.nowhere_of_bytes
    (hbytes : (us.flatMap code).length < slotBytes code p) (after : Memory) :
    SearchEnds cs code p us after (.ok none) := by
  refine .nowhere ?_ ?_
  · rintro ⟨a, t, b, rfl, ht, _⟩
    have := R.slotBytes_le ht
    simp only [flatMap_append, length_append] at hbytes
    omega
  · intro s hs
    obtain ⟨a, rfl⟩ := hs.suffix
    have := hs.bytes
    simp only [flatMap_append, length_append] at hbytes
    omega

/-- Behind a place that does not match, the search goes on at the next one that can. -/
theorem UnitCode.next_place (hp : HeaderOf code h p) (hne : p ≠ [])
    (us : List υ) (after : Memory) (hn : (us.flatMap code).length ≤ n) :
    ∃ b, b <:+ us ∧
      (if h.charType = .nonWildcard then
        skipChars cs h n (memoryAt code us after) (us.flatMap code).length
        else .ok (memoryAt code us after, ((us.flatMap code).length : Int))) =
        .ok (memoryAt code b after, ((b.flatMap code).length : Int)) ∧
      ∀ r, SearchEnds cs code p b after r → SearchEnds cs code p us after r := by
  by_cases htype : h.charType = .nonWildcard
  · obtain ⟨v, q, rest, rfl, hpattern⟩ := hp.literal_first hne htype
    rw [if_pos htype]
    exact R.skipChars_spec hpattern us after hn
  · rw [if_neg htype]
    exact ⟨us, suffix_refl us, rfl, fun _ h => h⟩

/-- The search for a partition with a character ends in one of these ways. -/
theorem UnitCode.searchHeader_spec (hp : HeaderOf code h p) (hne : p ≠ [])
    (us : List υ) (after : Memory) (hn : (us.flatMap code).length ≤ n)
    (hroom : p.length ≤ us.length ∨ slotBytes code p ≤ (us.flatMap code).length) :
    SearchEnds cs code p us after
      (searchHeader cs h n (memoryAt code us after) (us.flatMap code).length) := by
  have hbytes := R.slotBytes_pos hne
  have hlength := length_pos_iff.mpr hne
  induction n generalizing us with
  | zero =>
    obtain rfl := R.flatMap_length_eq_zero (Nat.le_zero.mp hn)
    simp only [length_nil, flatMap_nil] at hroom
    omega
  | succ n ih =>
    cases us with
    | nil =>
      simp only [length_nil, flatMap_nil] at hroom
      omega
    | cons u us =>
      have hpos := R.length_pos u
      have hmatch : h.matchesText cs (memoryAt code (u :: us) after) =
          readSlots cs code p (memoryAt code (u :: us) after) :=
        clausesMatch_eq_readSlots hp.clauses _
      have hsize : ((u :: us).flatMap code).length =
          (code u).length + (us.flatMap code).length := by
        rw [flatMap_cons, length_append]
      rw [searchHeader, if_pos (by omega), hmatch]
      by_cases hstarts : Starts p (u :: us)
      · have hread := R.readSlots_of_starts hstarts after
        rw [← memoryAt] at hread
        rw [hread]
        have hsplit := take_append_drop p.length (u :: us)
        have hdrop : (memoryAt code ((u :: us).take p.length ++ (u :: us).drop p.length) after).drop
            (((u :: us).take p.length).flatMap code).length =
              memoryAt code ((u :: us).drop p.length) after := drop_memoryAt_append _ _ after
        have hrest : (((u :: us).flatMap code).length : Int) -
            (((u :: us).take p.length).flatMap code).length =
              (((u :: us).drop p.length).flatMap code).length := by
          rw [← congrArg (fun l => (l.flatMap code).length) hsplit, flatMap_append,
            length_append]
          push_cast
          omega
        rw [hsplit] at hdrop
        simp only [hdrop, hrest]
        exact .found _ (drop_suffix _ _) (inOrder_of_starts hstarts)
      · -- The partition does not begin here, or there are too few units left for it.
        have hshort : readSlots cs code p (memoryAt code (u :: us) after) ≠ .ok none →
            (u :: us).length < p.length :=
          fun h => Nat.not_le.mp fun hle => h (R.readSlots_of_not_starts hstarts hle after)
        have hlonger : ∀ s', PlaceOver code p (u :: us) s' → ¬ (u :: us).length < s'.length :=
          fun s' hs' => Nat.not_lt.mpr hs'.suffix.length_le
        cases readingEnds cs code p (memoryAt code (u :: us) after) with
        | laid hlaid _ k hread =>
          have hshort := hshort (by simp [hread])
          rw [hread]
          refine .overrun (u :: us) _ _ ?_ ⟨suffix_refl _, hshort, by omega⟩ hlaid
            (fun s' hs' hlt => absurd hlt (hlonger s' hs')) ?_
          · exact fun hin => Nat.not_lt.mpr hin.length_le hshort
          · have := R.lt_of_readSlots hshort hread
            omega
        | stumbles hstumbles hlaid hread =>
          have hshort := hshort (by simp [hread])
          rw [hread]
          refine .stumbles (u :: us) ?_ ⟨suffix_refl _, hshort, by omega⟩ hstumbles
            (fun s' hs' hlt => absurd hlt (hlonger s' hs'))
          exact fun hin => Nat.not_lt.mpr hin.length_le hshort
        | differs hlaid hstumbles hread =>
          rw [hread]
          simp only [R.read_cons, drop_memoryAt_cons, room_cons]
          obtain ⟨b, hb, hskip, hends⟩ := R.next_place hp hne us after (n := n) (by omega)
          rw [hskip]
          simp only [hp.length_eq]
          have hsuffix : (b.flatMap code).length ≤ (us.flatMap code).length := by
            obtain ⟨a, rfl⟩ := hb
            simp
          split
          · exact (hends _ (R.nowhere_of_bytes (by omega) after)).cons hstarts hlaid hstumbles
          · exact (hends _ (ih b (by omega) (.inr (by omega)))).cons hstarts hlaid hstumbles

end

/-! ## All of them -/

/-- A partition runs over the end. The ones before it stand in order and leave as many units as it
has, but it has no place behind them. At a place with too few units and bytes enough it is read on
behind the end: the last partition is then found there, and any partition stumbles where an
underscore finds no character, unless it was found at a place before. -/
def RunsOver (cs : CharSet) (code : υ → Bytes) (ps : List (List (Slot υ))) (us : List υ)
    (after : Memory) : Prop :=
  ∃ pre p post s, ps = pre ++ p :: post ∧
    InOrder (pre ++ [replicate p.length .one]) us ∧ ¬ InOrder (pre ++ [p]) us ∧
    PlaceOver code p us s ∧
    ((post = [] ∧ Laid cs code p (memoryAt code s after)) ∨
      (Stumbles cs code p (memoryAt code s after) ∧
        ∀ s', PlaceOver code p us s' → s.length < s'.length →
          ¬ Laid cs code p (memoryAt code s' after)))

theorem placeOver_suffix_iff {b s : List υ} (hb : b <:+ us) (hlen : p.length ≤ b.length) :
    PlaceOver code p us s ↔ PlaceOver code p b s := by
  constructor
  · intro h
    have hshort := h.short
    exact ⟨suffix_of_suffix_length_le h.suffix hb (by omega), h.short, h.bytes⟩
  · intro h
    exact ⟨h.suffix.trans hb, h.short, h.bytes⟩

theorem not_runsOver_of_short (hshort : us.length < p.length) (ps : List (List (Slot υ)))
    (after : Memory) : ¬ RunsOver cs code (p :: ps) us after := by
  rintro ⟨pre, q, post, s, heq, hroom, _⟩
  cases pre with
  | nil =>
    obtain ⟨rfl, rfl⟩ := by simpa using heq
    have := hroom.length_le
    rw [length_replicate] at this
    omega
  | cons p' pre =>
    obtain ⟨rfl, rfl⟩ := by simpa using heq
    have := hroom.length_le
    omega

/-- Where the first partition has no place, only it can run over the end. -/
theorem runsOver_of_not_inOrder (hno : ¬ InOrder [p] us) (hlen : p.length ≤ us.length)
    (ps : List (List (Slot υ))) (after : Memory) :
    RunsOver cs code (p :: ps) us after ↔ ∃ s, PlaceOver code p us s ∧
      ((ps = [] ∧ Laid cs code p (memoryAt code s after)) ∨
        (Stumbles cs code p (memoryAt code s after) ∧
          ∀ s', PlaceOver code p us s' → s.length < s'.length →
            ¬ Laid cs code p (memoryAt code s' after))) := by
  constructor
  · rintro ⟨pre, q, post, s, heq, hroom, _, hs, hread⟩
    cases pre with
    | nil =>
      obtain ⟨rfl, rfl⟩ := by simpa using heq
      exact ⟨s, hs, hread⟩
    | cons p' pre =>
      obtain ⟨rfl, rfl⟩ := by simpa using heq
      exact absurd (hroom.of_append [p]) hno
  · rintro ⟨s, hs, hread⟩
    refine ⟨[], p, ps, s, rfl, ?_, hno, hs, hread⟩
    exact ⟨[], us.take p.length, us.drop p.length, by simp, (fits_ones _ _).mpr (by simpa), trivial⟩

/-- Where the first partition has its place, the others are looked for behind it. -/
theorem runsOver_of_place {b : List υ} (hb : b <:+ us)
    (hplace : ∀ ps, InOrder (p :: ps) us ↔ InOrder ps b) (ps : List (List (Slot υ)))
    (after : Memory) : RunsOver cs code (p :: ps) us after ↔ RunsOver cs code ps b after := by
  constructor
  · rintro ⟨pre, q, post, s, heq, hroom, hno, hs, hread⟩
    cases pre with
    | nil =>
      obtain ⟨rfl, rfl⟩ := by simpa using heq
      exact absurd ((hplace []).mpr trivial) hno
    | cons p' pre =>
      obtain ⟨rfl, rfl⟩ := by simpa using heq
      rw [cons_append, hplace] at hroom hno
      have hsame : ∀ s, PlaceOver code q us s ↔ PlaceOver code q b s :=
        fun s => placeOver_suffix_iff hb (by simpa using hroom.last_length_le)
      simp only [hsame] at hs hread
      exact ⟨pre, q, post, s, rfl, hroom, hno, hs, hread⟩
  · rintro ⟨pre, q, post, s, rfl, hroom, hno, hs, hread⟩
    have hsame : ∀ s, PlaceOver code q us s ↔ PlaceOver code q b s :=
      fun s => placeOver_suffix_iff hb (by simpa using hroom.last_length_le)
    simp only [← hsame] at hs hread
    refine ⟨p :: pre, q, post, s, rfl, ?_, ?_, hs, hread⟩
    · rw [cons_append, hplace]
      exact hroom
    · rw [cons_append, hplace]
      exact hno

theorem not_laid_of_stumbles (h : Stumbles cs code p mem) : ¬ Laid cs code p mem := by
  cases readingEnds cs code p mem with
  | laid _ hs => exact absurd h hs
  | stumbles _ hl => exact hl
  | differs hl => exact hl

/-- Of the remaining partitions, the answer is right, or one runs over the end and the answer is
a wrong match or an error. -/
theorem UnitCode.matchRemaining_spec (R : UnitCode cs code) {headers : List LikePatternHeader}
    {ps : List (List (Slot υ))} (hps : Forall₂ (HeaderOf code) headers ps)
    (hne : ∀ p ∈ ps, p ≠ []) (us : List υ) (after : Memory) :
    (¬ RunsOver cs code ps us after ∧ ∃ b,
      matchRemaining cs headers (memoryAt code us after) (us.flatMap code).length = .ok b ∧
        (b = true ↔ InOrder ps us)) ∨
    (RunsOver cs code ps us after ∧ ¬ InOrder ps us ∧
      (matchRemaining cs headers (memoryAt code us after) (us.flatMap code).length = .ok true ∨
        matchRemaining cs headers (memoryAt code us after) (us.flatMap code).length =
          .error .invalidCharacter)) := by
  induction hps generalizing us with
  | nil =>
    refine .inl ⟨?_, true, rfl, by simp⟩
    rintro ⟨pre, p, post, s, heq, _⟩
    simp at heq
  | @cons h p headers ps hp hrest ih =>
    have hcount := R.moreChars_eq hp us after
    rw [← memoryAt] at hcount
    rw [matchRemaining, hcount]
    by_cases hlen : us.length < p.length
    · rw [if_pos (by simpa using hlen)]
      refine .inl ⟨not_runsOver_of_short hlen ps after, false, rfl, ?_⟩
      simp only [Bool.false_eq_true, false_iff]
      intro hin
      have := hin.length_le
      omega
    rw [if_neg (by simpa using hlen)]
    have hle := Nat.not_lt.mp hlen
    have hends := R.searchHeader_spec hp (hne p (by simp)) us after (n := (us.flatMap code).length)
      le_rfl (.inl hle)
    rw [Int.toNat_natCast]
    generalize searchHeader cs h (us.flatMap code).length (memoryAt code us after)
      (us.flatMap code).length = r at hends ⊢
    cases hends with
    | found b hb hplace =>
      rw [runsOver_of_place hb hplace, hplace]
      exact ih (fun p hp => hne p (mem_cons_of_mem _ hp)) b
    | overrun s mem room hno hs hlaid hfirst hroom =>
      rw [runsOver_of_not_inOrder hno hle]
      have hnot : ¬ InOrder (p :: ps) us := fun hin => hno (InOrder.of_append [p] hin)
      cases hrest with
      | nil => exact .inr ⟨⟨s, hs, .inl ⟨rfl, hlaid⟩⟩, hnot, .inl rfl⟩
      | cons hq _ =>
        -- The next partition finds that it has no room at all.
        refine .inl ⟨?_, false, ?_, by simp [hnot]⟩
        · rintro ⟨s₀, hs₀, ⟨hnil, _⟩ | ⟨hstumbles, hnone⟩⟩
          · simp at hnil
          · obtain hlt | hsame | hlt := Nat.lt_trichotomy s.length s₀.length
            · exact (hfirst s₀ hs₀ hlt).2 hstumbles
            · have hsuffix := suffix_of_suffix_length_le hs.suffix hs₀.suffix hsame.le
              obtain rfl := hsuffix.eq_of_length hsame
              exact not_laid_of_stumbles hstumbles hlaid
            · exact hnone s hs hlt hlaid
        · obtain ⟨lengths, hchars, _⟩ := R.headerChars_eq hq
          simp [matchRemaining, hchars, getCharLengthInBuf, hroom, moreChars]
    | stumbles s hno hs hstumbles hfirst =>
      rw [runsOver_of_not_inOrder hno hle]
      refine .inr ⟨⟨s, hs, .inr ⟨hstumbles, ?_⟩⟩, fun hin => hno (InOrder.of_append [p] hin), .inr rfl⟩
      exact fun s' hs' hlt => (hfirst s' hs' hlt).1
    | nowhere hno hnone =>
      rw [runsOver_of_not_inOrder hno hle]
      refine .inl ⟨?_, false, rfl, by simpa using fun hin => hno (InOrder.of_append [p] hin)⟩
      rintro ⟨s, hs, ⟨_, hlaid⟩ | ⟨hstumbles, _⟩⟩
      · exact (hnone s hs).1 hlaid
      · exact (hnone s hs).2 hstumbles

end litestore
