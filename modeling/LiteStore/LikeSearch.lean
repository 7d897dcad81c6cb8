-- The three stages of a match: the first partition at the beginning, the last partition from the
-- right, and the search for the others. The search looks only at the number of bytes that are left,
-- so where an underscore takes more than one byte it can run over the end.
import LiteStore.LikeReads

open Stream' (append_append_stream drop_append_stream take_append_of_le_length drop_drop)
open wildcard List

namespace litestore

variable {cs : CharSet} {υ : Type} {code : υ → Bytes} {p : List (Slot υ)} {us : List υ}

/-! ## The header of a partition -/

/-- The bytes that the slots of a partition have in the pattern. -/
def slotBytes (code : υ → Bytes) : List (Slot υ) → Nat
  | [] => 0
  | .one :: p => slotBytes code p + 1
  | .lit u :: p => slotBytes code p + (code u).length

/-- The header has these slots, and no clause of it is empty unless the header is. -/
structure HeaderOf (code : υ → Bytes) (h : LikePatternHeader) (p : List (Slot υ)) : Prop where
  clauses : ClausesOf code h.clauses p
  front_filled : ∀ c ∈ h.front, c.pattern ≠ []
  last_filled : p ≠ [] → h.lastClause.pattern ≠ []

theorem slotBytes_append (p q : List (Slot υ)) :
    slotBytes code (p ++ q) = slotBytes code p + slotBytes code q := by
  induction p with
  | nil => simp [slotBytes]
  | cons s p ih =>
    cases s with
    | one | lit u => rw [cons_append, slotBytes, slotBytes, ih]; omega

theorem slotBytes_literals (us : List υ) :
    slotBytes code (us.map .lit) = (us.flatMap code).length := by
  induction us with
  | nil => rfl
  | cons u us ih =>
    rw [map_cons, slotBytes, ih, flatMap_cons, length_append]
    omega

theorem slotBytes_underscores (k : Nat) :
    slotBytes code (replicate k .one) = k := by
  induction k with
  | zero => rfl
  | succ k ih => rw [replicate_succ, slotBytes, ih]

theorem UnitCode.slotBytes_pos (R : UnitCode cs code) (hp : p ≠ []) : 0 < slotBytes code p := by
  cases p with
  | nil => exact absurd rfl hp
  | cons s p =>
    cases s with
    | one => rw [slotBytes]; omega
    | lit u =>
      have := R.length_pos u
      rw [slotBytes]
      omega

/-- The slots take at least as many bytes as they have. -/
theorem UnitCode.slotBytes_le (R : UnitCode cs code) (h : Fits p us) :
    slotBytes code p ≤ (us.flatMap code).length := by
  induction h with
  | nil => simp [slotBytes]
  | @cons s u p us hs _ ih =>
    rw [flatMap_cons, length_append]
    cases s with
    | one =>
      have := R.length_pos u
      rw [slotBytes]
      omega
    | lit v =>
      obtain rfl : v = u := hs
      rw [slotBytes]
      omega

variable {cl : List LikePatternClause} {h : LikePatternHeader} {c : LikePatternClause}

/-- The pattern of the clauses is a row of as many units as there are slots, in as many bytes as
the slots have. -/
theorem ClausesOf.pattern_eq (h : ClausesOf code cl p) :
    ∃ us : List υ, us.length = p.length ∧
      cl.flatMap LikePatternClause.pattern = us.flatMap code ∧
      slotBytes code p = (us.flatMap code).length := by
  induction h with
  | nil => exact ⟨[], rfl, rfl, rfl⟩
  | literals us _ ih =>
    obtain ⟨vs, hlen, hpattern, hbytes⟩ := ih
    refine ⟨us ++ vs, by simp [hlen], by simp [hpattern], ?_⟩
    rw [slotBytes_append, slotBytes_literals, hbytes, flatMap_append, length_append]
  | underscores us hus _ ih =>
    obtain ⟨vs, hlen, hpattern, hbytes⟩ := ih
    refine ⟨us ++ vs, by simp [hlen], by simp [hpattern], ?_⟩
    rw [slotBytes_append, slotBytes_underscores, hbytes, flatMap_append, length_append, hus]
  | percent _ ih =>
    obtain ⟨vs, hlen, hpattern, hbytes⟩ := ih
    exact ⟨vs, hlen, by simp [hpattern], hbytes⟩

theorem HeaderOf.length_eq (hp : HeaderOf code h p) : h.length = slotBytes code p := by
  obtain ⟨us, _, hpattern, hbytes⟩ := hp.clauses.pattern_eq
  rw [LikePatternHeader.length, LikePatternHeader.pattern, hpattern, hbytes]

theorem UnitCode.headerChars_eq (R : UnitCode cs code) (hp : HeaderOf code h p) :
    ∃ lengths, headerChars cs h = some lengths ∧ lengths.length = p.length := by
  obtain ⟨us, hlen, hpattern, _⟩ := hp.clauses.pattern_eq
  refine ⟨us.map fun u => (code u).length, ?_, by simpa using hlen⟩
  rw [headerChars, LikePatternHeader.length, LikePatternHeader.pattern, hpattern]
  exact R.lengths us _

/-- The count of characters is compared with the count of units that are left. -/
theorem UnitCode.moreChars_eq (R : UnitCode cs code) (hp : HeaderOf code h p) (us : List υ)
    (after : Memory) :
    moreChars (headerChars cs h)
        (getCharLengthInBuf cs (us.flatMap code ++ₛ after) (us.flatMap code).length) =
      decide (us.length < p.length) := by
  obtain ⟨lengths, heq, hlen⟩ := R.headerChars_eq hp
  rw [heq, R.lengths]
  simp [moreChars, hlen]

theorem ClausesOf.literal_first (h : ClausesOf code (c :: cl) p)
    (htype : c.charType = .nonWildcard) (hne : c.pattern ≠ []) :
    ∃ u q rest, p = .lit u :: q ∧ c.pattern = code u ++ rest := by
  cases h with
  | literals us _ =>
    cases us with
    | nil => exact absurd rfl hne
    | cons u us => exact ⟨u, _, us.flatMap code, rfl, rfl⟩
  | underscores us _ _ | percent _ => exact absurd htype (by simp)

/-- A header whose first clause is a literal begins with the bytes of a literal slot. -/
theorem HeaderOf.literal_first (hp : HeaderOf code h p) (hne : p ≠ [])
    (htype : h.charType = .nonWildcard) :
    ∃ u q rest, p = .lit u :: q ∧ h.pattern = code u ++ rest := by
  obtain ⟨front, lastClause⟩ := h
  have hcl := hp.clauses
  cases front with
  | nil =>
    obtain ⟨u, q, rest, rfl, hpattern⟩ := hcl.literal_first htype (hp.last_filled hne)
    refine ⟨u, q, rest, rfl, ?_⟩
    simpa [LikePatternHeader.pattern, LikePatternHeader.clauses] using hpattern
  | cons c front =>
    obtain ⟨u, q, rest, rfl, hpattern⟩ := hcl.literal_first htype (hp.front_filled c (by simp))
    refine ⟨u, q, rest ++ (front ++ [lastClause]).flatMap LikePatternClause.pattern, rfl, ?_⟩
    simp [LikePatternHeader.pattern, LikePatternHeader.clauses, hpattern]

/-- Only an empty header has the type of a percent sign. -/
theorem HeaderOf.eq_nil_of_percent (hp : HeaderOf code h p) (htype : h.charType = .percent) :
    p = [] := by
  obtain ⟨front, lastClause⟩ := h
  have hcl := hp.clauses
  cases front with
  | nil =>
    by_contra hne
    have hfilled := hp.last_filled hne
    cases hcl with
    | literals us _ | underscores us _ _ =>
      exact absurd htype (by simp [LikePatternHeader.charType])
    | percent _ => exact hfilled rfl
  | cons c front =>
    have hfilled := hp.front_filled c (by simp)
    cases hcl with
    | literals us _ | underscores us _ _ =>
      exact absurd htype (by simp [LikePatternHeader.charType])
    | percent _ => exact absurd rfl hfilled

/-! ## The first partition -/

section

variable (R : UnitCode cs code)

include R

theorem UnitCode.matchFirst_of_starts (hp : HeaderOf code h p)
    (hs : Starts p us) (after : Memory) :
    matchFirst cs h (us.flatMap code ++ₛ after) (us.flatMap code).length =
      .ok (some ((us.take p.length).flatMap code).length) := by
  rw [matchFirst]
  split
  · rename_i htype
    rw [hp.eq_nil_of_percent htype]
    rfl
  · rw [R.moreChars_eq hp, if_neg (by simpa using hs.length_le)]
    rw [LikePatternHeader.matchesText, clausesMatch_eq_readSlots hp.clauses]
    exact R.readSlots_of_starts hs after

theorem UnitCode.matchFirst_of_not_starts (hp : HeaderOf code h p)
    (hs : ¬ Starts p us) (after : Memory) :
    matchFirst cs h (us.flatMap code ++ₛ after) (us.flatMap code).length = .ok none := by
  rw [matchFirst]
  split
  · rename_i htype
    rw [hp.eq_nil_of_percent htype] at hs
    exact absurd (starts_nil us) hs
  · rw [R.moreChars_eq hp]
    split
    · rfl
    · rename_i hlen
      rw [LikePatternHeader.matchesText, clausesMatch_eq_readSlots hp.clauses]
      exact R.readSlots_of_not_starts hs (by simpa using hlen) after

/-! ## The last partition -/

theorem UnitCode.flatMap_length_eq_zero (h : (us.flatMap code).length = 0) :
    us = [] := by
  cases us with
  | nil => rfl
  | cons u us =>
    have := R.length_pos u
    rw [flatMap_cons, length_append] at h
    omega

/-- A beginning of a text is known by its number of bytes. -/
theorem UnitCode.eq_of_flatMap_length {a b m c : List υ}
    (h : a ++ b = m ++ c) (hle : a.length ≤ m.length)
    (hbytes : (m.flatMap code).length ≤ (a.flatMap code).length) : a = m := by
  obtain ⟨d, rfl⟩ : a <+: m := prefix_of_prefix_length_le ⟨b, h⟩ ⟨c, rfl⟩ hle
  rw [flatMap_append, length_append] at hbytes
  have hd : d = [] := R.flatMap_length_eq_zero (by omega)
  rw [hd, append_nil]

end

/-- The walk from one unit to the next ends at the beginning of a unit, and at `p` if a unit
begins there. -/
theorem UnitCode.walkTo_spec (R : UnitCode cs code) (after : Memory) {a b : List υ} {p : Int}
    {n : Nat} (hp : p ≤ ((a ++ b).flatMap code).length)
    (hn : p ≤ (a.flatMap code).length + n) :
    ∃ a' b', a ++ b = a' ++ b' ∧
      walkTo cs ((a ++ b).flatMap code ++ₛ after) ((a ++ b).flatMap code).length p n
        (a.flatMap code).length = some (a'.flatMap code).length ∧
      ∀ m c, a ++ b = m ++ c → a.length ≤ m.length → ((m.flatMap code).length : Int) = p →
        a' = m := by
  induction b generalizing a n with
  | nil =>
    rw [append_nil] at hp ⊢
    have hstop : ¬ (((a.flatMap code).length : Int) < p) := by omega
    refine ⟨a, [], (append_nil a).symm, ?_, ?_⟩
    · cases n with
      | zero => rfl
      | succ n => rw [walkTo, if_neg hstop]
    · intro m c heq hle hm
      exact R.eq_of_flatMap_length (b := []) ((append_nil a).trans heq) hle (by omega)
  | cons u b ih =>
    by_cases hlt : ((a.flatMap code).length : Int) < p
    · obtain ⟨n, rfl⟩ : ∃ k, n = k + 1 := ⟨n - 1, by omega⟩
      have hpos := R.length_pos u
      have hbytes : ((a ++ [u]).flatMap code).length =
          (a.flatMap code).length + (code u).length := by simp
      have hassoc : a ++ u :: b = a ++ [u] ++ b := by simp
      have hread : getFirstCharLength cs
          (((a ++ u :: b).flatMap code ++ₛ after).drop (a.flatMap code).length)
          (((a ++ u :: b).flatMap code).length - (a.flatMap code).length) =
            some (code u).length := by
        rw [flatMap_append, append_append_stream, drop_append_stream, flatMap_cons,
          append_append_stream]
        apply R.first
        simp only [length_append]
        push_cast
        omega
      rw [walkTo, if_pos hlt, hread]
      simp only
      rw [← hbytes, hassoc]
      rw [hassoc] at hp
      obtain ⟨a', b', heq, hwalk, huniq⟩ := ih (a := a ++ [u]) (n := n) hp (by omega)
      refine ⟨a', b', heq, hwalk, ?_⟩
      intro m c hmc hle hm
      refine huniq m c hmc ?_ hm
      -- As many bytes as `a` has would be too few.
      by_contra hshort
      have hsame : m.length = a.length := by
        rw [length_append, length_singleton] at hshort
        omega
      have : m = a := (append_inj (hassoc.trans hmc) hsame.symm).1.symm
      subst this
      omega
    · refine ⟨a, u :: b, rfl, ?_, ?_⟩
      · cases n with
        | zero => rfl
        | succ n => rw [walkTo, if_neg hlt]
      · intro m c heq hle hm
        exact R.eq_of_flatMap_length heq hle (by omega)

theorem UnitCode.flatMap_injective (R : UnitCode cs code) {vs : List υ}
    (h : us.flatMap code = vs.flatMap code) : us = vs := by
  induction us generalizing vs with
  | nil => exact (R.flatMap_length_eq_zero (by rw [← h]; rfl)).symm
  | cons u us ih =>
    cases vs with
    | nil => exact R.flatMap_length_eq_zero (by rw [h]; rfl)
    | cons v vs =>
      rw [flatMap_cons, flatMap_cons] at h
      have hmem := congrArg (· ++ₛ Stream'.const (0 : UInt8)) h
      simp only [append_append_stream] at hmem
      obtain rfl := R.eq_of_append hmem
      rw [ih (append_cancel_left h)]

/-- One clause is matched to the end of the text: the room then ends before the units it takes, or
no units at the end are ones it takes. -/
def MatchedR (cs : CharSet) (code : υ → Bytes) (c : LikePatternClause) (p : List (Slot υ))
    (us : List υ) (after : Memory) : Prop :=
  (∃ m b, us = m ++ b ∧ Fits p b ∧ ∀ rest,
    clausesMatchR cs (us.flatMap code ++ₛ after) (c :: rest) (us.flatMap code).length =
      clausesMatchR cs (us.flatMap code ++ₛ after) rest (m.flatMap code).length) ∨
  ((∀ m b, us = m ++ b → ¬ Fits p b) ∧ ∀ rest,
    clausesMatchR cs (us.flatMap code ++ₛ after) (c :: rest) (us.flatMap code).length = .ok none)

theorem UnitCode.matchedR_literals (R : UnitCode cs code) {vs : List υ}
    (hpattern : c.pattern = vs.flatMap code) (htype : c.charType ≠ .underscore)
    (hpercent : c.charType ≠ .nonWildcard → vs = []) (us : List υ) (after : Memory) :
    MatchedR cs code c (vs.map .lit) us after := by
  have hmatches : ∀ mem : Memory, c.matchesText mem = true ↔
      mem.take (vs.flatMap code).length = vs.flatMap code := by
    intro mem
    rw [LikePatternClause.matchesText, LikePatternClause.length, hpattern]
    by_cases h : c.charType = .nonWildcard
    · simp [h]
    · simp [h, hpercent h]
  have hlength : c.length = (vs.flatMap code).length := by
    rw [LikePatternClause.length, hpattern]
  obtain ⟨a, b, heq, hwalk, huniq⟩ := R.walkTo_spec after (a := []) (b := us)
    (p := (us.flatMap code).length - (vs.flatMap code).length)
    (n := ((us.flatMap code).length - (vs.flatMap code).length : Int).toNat)
    (by rw [nil_append]; omega) (by rw [flatMap_nil, length_nil]; omega)
  simp only [nil_append, flatMap_nil, length_nil, Nat.zero_le, true_imp_iff] at heq hwalk huniq
  by_cases hend : b = vs
  · -- The walk has come to where the literals begin.
    subst hend
    refine .inl ⟨a, b, heq, (fits_literals b b).mpr rfl, ?_⟩
    intro rest
    have hp : ((us.flatMap code).length : Int) - (b.flatMap code).length =
        (a.flatMap code).length := by
      rw [heq, flatMap_append, length_append]
      push_cast
      omega
    have hat : c.matchesText ((us.flatMap code ++ₛ after).drop (a.flatMap code).length) = true := by
      rw [hmatches, heq, flatMap_append, append_append_stream, drop_append_stream,
        take_append_of_le_length _ _ _ le_rfl, take_length]
    rw [clausesMatchR, if_neg htype]
    simp only [hlength, hwalk]
    rw [if_pos ⟨hp.symm, hat⟩, hp]
  · refine .inr ⟨?_, ?_⟩
    · intro m b' hmb hfits
      obtain rfl : vs = b' := (fits_literals vs b').mp hfits
      have hm : a = m := huniq m vs hmb (by
        rw [hmb, flatMap_append, length_append]
        push_cast
        omega)
      subst hm
      exact hend (append_cancel_left (heq.symm.trans hmb))
    · intro rest
      rw [clausesMatchR, if_neg htype]
      simp only [hlength, hwalk]
      rw [if_neg]
      rintro ⟨hp, hat⟩
      rw [hmatches, heq, flatMap_append, append_append_stream, drop_append_stream] at hat
      have hbytes : (b.flatMap code).length = (vs.flatMap code).length := by
        rw [heq, flatMap_append, length_append] at hp
        push_cast at hp
        omega
      rw [← hbytes, take_append_of_le_length _ _ _ le_rfl, take_length] at hat
      exact hend (R.flatMap_injective hat)

theorem UnitCode.matchedR_underscores (R : UnitCode cs code) (htype : c.charType = .underscore)
    (us : List υ) (after : Memory) :
    MatchedR cs code c (replicate c.length .one) us after := by
  have hlengths := R.lengths us after
  by_cases hlen : us.length < c.length
  · refine .inr ⟨?_, ?_⟩
    · intro m b hmb hfits
      have hb : b.length = c.length := (fits_ones c.length b).mp hfits
      rw [hmb, length_append] at hlen
      omega
    · intro rest
      rw [clausesMatchR, if_pos htype, hlengths]
      simp [hlen]
  · refine .inl ⟨us.take (us.length - c.length), us.drop (us.length - c.length),
      (take_append_drop _ _).symm, (fits_ones _ _).mpr (by rw [length_drop]; omega), ?_⟩
    intro rest
    have hsplit : (us.flatMap code).length =
        ((us.take (us.length - c.length)).flatMap code).length +
          ((us.drop (us.length - c.length)).flatMap code).length := by
      rw [← length_append, ← flatMap_append, take_append_drop]
    have hsum : (((us.map fun u => (code u).length).drop (us.length - c.length)).sum) =
        ((us.drop (us.length - c.length)).flatMap code).length := by
      rw [← map_drop, length_flatMap]
    rw [clausesMatchR, if_pos htype, hlengths]
    simp only [length_map, hlen, if_false, hsum]
    congr 1
    rw [hsplit]
    push_cast
    omega

theorem UnitCode.matchedR (R : UnitCode cs code) (hc : ClausesOf code [c] p) (us : List υ)
    (after : Memory) : MatchedR cs code c p us after := by
  cases hc with
  | literals vs h =>
    cases h
    rw [append_nil]
    exact R.matchedR_literals rfl (by simp) (fun h => absurd rfl h) us after
  | underscores vs hvs h =>
    cases h
    rw [append_nil, ← hvs]
    exact R.matchedR_underscores rfl us after
  | percent h =>
    cases h
    have hempty : MatchedR cs code ⟨.percent, []⟩ (([] : List υ).map .lit) us after :=
      R.matchedR_literals rfl (by simp) (fun _ => rfl) us after
    exact hempty

theorem ClausesOf.append {cl' : List LikePatternClause} {q : List (Slot υ)}
    (h : ClausesOf code cl p) (h' : ClausesOf code cl' q) :
    ClausesOf code (cl ++ cl') (p ++ q) := by
  induction h with
  | nil => exact h'
  | literals us _ ih =>
    rw [append_assoc]
    exact .literals us ih
  | underscores us hus _ ih =>
    rw [append_assoc]
    exact .underscores us hus ih
  | percent _ ih => exact .percent ih

theorem ClausesOf.split_append {cl' : List LikePatternClause} (h : ClausesOf code (cl ++ cl') p) :
    ∃ p₁ p₂, p = p₁ ++ p₂ ∧ ClausesOf code cl p₁ ∧ ClausesOf code cl' p₂ := by
  induction cl generalizing p with
  | nil => exact ⟨[], p, rfl, .nil, h⟩
  | cons c cl ih =>
    rw [cons_append] at h
    cases h with
    | literals us h =>
      obtain ⟨p₁, p₂, rfl, h₁, h₂⟩ := ih h
      exact ⟨_, p₂, (append_assoc _ _ _).symm, .literals us h₁, h₂⟩
    | underscores us hus h =>
      obtain ⟨p₁, p₂, rfl, h₁, h₂⟩ := ih h
      exact ⟨_, p₂, (append_assoc _ _ _).symm, .underscores us hus h₁, h₂⟩
    | percent h =>
      obtain ⟨p₁, p₂, rfl, h₁, h₂⟩ := ih h
      exact ⟨p₁, p₂, rfl, .percent h₁, h₂⟩

/-- The clauses of a partition, matched from the last one on to the end of the text. -/
theorem UnitCode.clausesMatchR_spec (R : UnitCode cs code) (h : ClausesOf code cl p) (us : List υ)
    (after : Memory) :
    (∃ m b, us = m ++ b ∧ Fits p b ∧
      clausesMatchR cs (us.flatMap code ++ₛ after) cl.reverse (us.flatMap code).length =
        .ok (some (m.flatMap code).length)) ∨
    ((∀ m b, us = m ++ b → ¬ Fits p b) ∧
      clausesMatchR cs (us.flatMap code ++ₛ after) cl.reverse (us.flatMap code).length =
        .ok none) := by
  induction cl using reverseRecOn generalizing p us after with
  | nil =>
    cases h
    exact .inl ⟨us, [], (append_nil us).symm, .nil, rfl⟩
  | append_singleton cl c ih =>
    obtain ⟨p₁, p₂, rfl, h₁, h₂⟩ := h.split_append
    rw [reverse_append, reverse_singleton, singleton_append]
    obtain ⟨m, b, rfl, hb, hstep⟩ | ⟨hno, hstep⟩ := R.matchedR h₂ us after
    · rw [hstep, flatMap_append, append_append_stream]
      obtain ⟨m', b', rfl, hb', hrest⟩ | ⟨hno, hrest⟩ := ih h₁ m (b.flatMap code ++ₛ after)
      · refine .inl ⟨m', b' ++ b, by simp, rel_append hb' hb, hrest⟩
      · refine .inr ⟨?_, hrest⟩
        intro m' c' heq hfits
        -- The units at the end that fit the second half are the same.
        obtain ⟨b₁, b₂, rfl, hb₁, hb₂⟩ := fits_append.mp hfits
        have hlen : b₂.length = b.length := hb₂.length_eq.symm.trans hb.length_eq
        obtain ⟨rfl, rfl⟩ := append_inj' (heq.trans (append_assoc _ _ _).symm) hlen.symm
        exact hno m' b₁ rfl hb₁
    · refine .inr ⟨?_, hstep _⟩
      intro m' c' heq hfits
      obtain ⟨b₁, b₂, rfl, hb₁, hb₂⟩ := fits_append.mp hfits
      exact hno (m' ++ b₁) b₂ (heq.trans (append_assoc _ _ _).symm) hb₂

end litestore
