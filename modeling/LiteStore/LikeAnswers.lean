-- The answer of LIKE. It is right for every pattern and text unless a partition between two
-- percent signs runs over the end of its room, or the bytes of a UCS2 text match where its
-- characters do not.
import LiteStore.LikeMiddle
import LiteStore.LikeConstruct

open Stream' (append_append_stream)
open wildcard List

namespace litestore

/-! ## A pattern and its parts -/

section

variable {cs : CharSet} {υ : Type} {code : υ → Bytes} {p q : List (Slot υ)} {es : List (Element υ)}

/-- The headers of a pattern have these parts. -/
inductive PatternOf (code : υ → Bytes) (es : List (Element υ)) : LikePattern → Prop
  | single {first : LikePatternHeader} {p : List (Slot υ)} (hsplit : split es = (p, []))
      (hp : HeaderOf code first p) : PatternOf code es ⟨first, []⟩
  | several {first lastHeader : LikePatternHeader} {middle : List LikePatternHeader}
      {p q : List (Slot υ)} {ps : List (List (Slot υ))} (hsplit : split es = (p, ps ++ [q]))
      (hp : HeaderOf code first p)
      (hps : Forall₂ (HeaderOf code) middle (ps.filter fun p => !p.isEmpty))
      (hq : HeaderOf code lastHeader q) : PatternOf code es ⟨first, lastHeader :: middle⟩

/-- A partition between the first and the last one runs over the end of the room between them. -/
def PatternRunsOver (cs : CharSet) (code : υ → Bytes) (es : List (Element υ)) (us : List υ)
    (after : Memory) : Prop :=
  ∃ ps q a m b, (split es).2 = ps ++ [q] ∧ us = a ++ (m ++ b) ∧ Fits (split es).1 a ∧ Fits q b ∧
    RunsOver cs code (ps.filter fun p => !p.isEmpty) m (memoryAt code b after)

/-- The first and the last part stand at one place only. -/
theorem ends_unique {a m b a' m' b' : List υ} (ha : Fits p a) (hb : Fits q b) (ha' : Fits p a')
    (hb' : Fits q b') (h : a ++ (m ++ b) = a' ++ (m' ++ b')) : a = a' ∧ m = m' ∧ b = b' := by
  obtain ⟨rfl, hrest⟩ := append_inj h (ha.length_eq.symm.trans ha'.length_eq)
  obtain ⟨rfl, rfl⟩ := append_inj' hrest (hb.length_eq.symm.trans hb'.length_eq)
  exact ⟨rfl, rfl, rfl⟩

/-- The last partition takes the end of the text, or no end of the text is one it takes. -/
theorem UnitCode.lastHeader_spec (R : UnitCode cs code) {h : LikePatternHeader}
    (hq : HeaderOf code h q) (us : List υ) (after : Memory) :
    (∃ m b, us = m ++ b ∧ Fits q b ∧
      (if 0 < h.length then h.matchesR cs (memoryAt code us after) (us.flatMap code).length
        else .ok (some ((us.flatMap code).length : Int))) = .ok (some ((m.flatMap code).length : Int))) ∨
    ((∀ m b, us = m ++ b → ¬ Fits q b) ∧
      (if 0 < h.length then h.matchesR cs (memoryAt code us after) (us.flatMap code).length
        else .ok (some ((us.flatMap code).length : Int))) = .ok none) := by
  by_cases hpos : 0 < h.length
  · rw [if_pos hpos]
    exact R.clausesMatchR_spec hq.clauses us after
  · rw [if_neg hpos]
    have hnil : q = [] := by
      by_contra hne
      have := R.slotBytes_pos hne
      rw [hq.length_eq] at hpos
      omega
    subst hnil
    exact .inl ⟨us, [], (append_nil us).symm, .nil, rfl⟩

/-- What `matchesText` answers: the right answer, or one that an overrun has spoilt. -/
def Answered (cs : CharSet) (code : υ → Bytes) (es : List (Element υ)) (us : List υ)
    (after : Memory) (r : Except LikeError Bool) : Prop :=
  (¬ PatternRunsOver cs code es us after ∧ ∃ b, r = .ok b ∧ (b = true ↔ Cut es us)) ∨
  (PatternRunsOver cs code es us after ∧ ¬ Cut es us ∧
    (r = .ok true ∨ r = .error .invalidCharacter))

theorem cut_iff_fits (hsplit : split es = (p, [])) (us : List υ) : Cut es us ↔ Fits p us := by
  have hes := joined_split es
  rw [hsplit] at hes
  rw [← hes, cut_joined_nil]

theorem cut_iff_inOrder {ps : List (List (Slot υ))} (hsplit : split es = (p, ps ++ [q]))
    (us : List υ) : Cut es us ↔
      ∃ a m b, us = a ++ (m ++ b) ∧ Fits p a ∧ InOrder ps m ∧ Fits q b := by
  have hes := joined_split es
  rw [hsplit] at hes
  rw [← hes, cut_joined_concat]

theorem UnitCode.answered_single (R : UnitCode cs code) {first : LikePatternHeader}
    (hsplit : split es = (p, [])) (hp : HeaderOf code first p) {us : List υ} {textLen : UInt16}
    (hlen : textLen.toNat = (us.flatMap code).length) (after : Memory) :
    Answered cs code es us after
      (LikePattern.matchesText ⟨first, []⟩ cs (memoryAt code us after) textLen) := by
  have hover : ¬ PatternRunsOver cs code es us after := by
    rintro ⟨ps, q, a, m, b, hps, _⟩
    rw [hsplit] at hps
    simp at hps
  refine .inl ⟨hover, ?_⟩
  rw [cut_iff_fits hsplit, LikePattern.matchesText, hlen, memoryAt]
  by_cases hstarts : Starts p us
  · rw [R.matchFirst_of_starts hp hstarts]
    refine ⟨_, rfl, ?_⟩
    obtain ⟨t, b, rfl, ht⟩ := hstarts
    rw [ht.length_eq, take_left, decide_eq_true_iff, flatMap_append, length_append]
    constructor
    · intro heq
      have hb : b = [] := R.flatMap_length_eq_zero (by omega)
      rw [hb, append_nil]
      exact ht
    · intro hfits
      have hlen := ht.length_eq.symm.trans hfits.length_eq
      rw [length_append] at hlen
      have hb : b = [] := length_eq_zero_iff.mp (by omega)
      rw [hb, flatMap_nil, length_nil, Nat.add_zero]
  · rw [R.matchFirst_of_not_starts hp hstarts]
    refine ⟨false, rfl, ?_⟩
    simp only [Bool.false_eq_true, false_iff]
    exact fun hfits => hstarts ⟨us, [], (append_nil us).symm, hfits⟩

theorem UnitCode.answered_several (R : UnitCode cs code) {first lastHeader : LikePatternHeader}
    {middle : List LikePatternHeader} {ps : List (List (Slot υ))}
    (hsplit : split es = (p, ps ++ [q])) (hp : HeaderOf code first p)
    (hps : Forall₂ (HeaderOf code) middle (ps.filter fun p => !p.isEmpty))
    (hq : HeaderOf code lastHeader q) {us : List υ} {textLen : UInt16}
    (hlen : textLen.toNat = (us.flatMap code).length) (after : Memory) :
    Answered cs code es us after
      (LikePattern.matchesText ⟨first, lastHeader :: middle⟩ cs (memoryAt code us after)
        textLen) := by
  have hcut := cut_iff_inOrder hsplit us
  have hover : PatternRunsOver cs code es us after ↔ ∃ a m b, us = a ++ (m ++ b) ∧ Fits p a ∧
      Fits q b ∧ RunsOver cs code (ps.filter fun p => !p.isEmpty) m (memoryAt code b after) := by
    rw [PatternRunsOver, hsplit]
    constructor
    · rintro ⟨ps', q', a, m, b, heq, h⟩
      obtain ⟨rfl, hqq⟩ := append_inj' heq rfl
      obtain rfl : q = q' := by simpa using hqq
      exact ⟨a, m, b, h⟩
    · rintro ⟨a, m, b, h⟩
      exact ⟨ps, q, a, m, b, rfl, h⟩
  rw [Answered, hcut, hover, LikePattern.matchesText, hlen]
  by_cases hstarts : Starts p us
  · have hfirst := R.matchFirst_of_starts hp hstarts after
    rw [← memoryAt] at hfirst
    rw [hfirst]
    obtain ⟨a, t, rfl, ha⟩ := hstarts
    have hroom : (((a ++ t).flatMap code).length : Int) - (a.flatMap code).length =
        (t.flatMap code).length := by
      rw [flatMap_append, length_append]
      push_cast
      omega
    simp only [ha.length_eq, take_left, drop_memoryAt_append, hroom, matchLast]
    obtain ⟨m, b, rfl, hb, hlast⟩ | ⟨hno, hlast⟩ := R.lastHeader_spec hq t after
    · rw [hlast]
      have hmem : memoryAt code (m ++ b) after = memoryAt code m (memoryAt code b after) := by
        rw [memoryAt, flatMap_append, append_append_stream, memoryAt, memoryAt]
      have hne : ∀ p ∈ ps.filter (fun p => !p.isEmpty), p ≠ [] := by simp
      have hspec := R.matchRemaining_spec hps hne m (memoryAt code b after)
      rw [← hmem] at hspec
      have hcut' : (∃ a' m' b', a ++ (m ++ b) = a' ++ (m' ++ b') ∧ Fits p a' ∧ InOrder ps m' ∧
          Fits q b') ↔ InOrder (ps.filter fun p => !p.isEmpty) m := by
        rw [inOrder_filter]
        constructor
        · rintro ⟨a', m', b', heq, ha', hm', hb'⟩
          obtain ⟨rfl, rfl, rfl⟩ := ends_unique ha hb ha' hb' heq
          exact hm'
        · exact fun hm => ⟨a, m, b, rfl, ha, hm, hb⟩
      have hover' : (∃ a' m' b', a ++ (m ++ b) = a' ++ (m' ++ b') ∧ Fits p a' ∧ Fits q b' ∧
          RunsOver cs code (ps.filter fun p => !p.isEmpty) m' (memoryAt code b' after)) ↔
            RunsOver cs code (ps.filter fun p => !p.isEmpty) m (memoryAt code b after) := by
        constructor
        · rintro ⟨a', m', b', heq, ha', hb', h⟩
          obtain ⟨rfl, rfl, rfl⟩ := ends_unique ha hb ha' hb' heq
          exact h
        · exact fun h => ⟨a, m, b, rfl, ha, hb, h⟩
      rw [hcut', hover']
      exact hspec
    · rw [hlast]
      have hnowhere : ∀ a' m' b', a ++ t = a' ++ (m' ++ b') → Fits p a' → ¬ Fits q b' := by
        intro a' m' b' heq ha' hb'
        obtain ⟨_, hrest⟩ := append_inj heq (ha.length_eq.symm.trans ha'.length_eq)
        exact hno m' b' hrest hb'
      refine .inl ⟨?_, false, rfl, ?_⟩
      · rintro ⟨a', m', b', heq, ha', hb', _⟩
        exact hnowhere a' m' b' heq ha' hb'
      · simp only [Bool.false_eq_true, false_iff]
        rintro ⟨a', m', b', heq, ha', _, hb'⟩
        exact hnowhere a' m' b' heq ha' hb'
  · have hfirst := R.matchFirst_of_not_starts hp hstarts after
    rw [← memoryAt] at hfirst
    rw [hfirst]
    have hno : ∀ a m b, us = a ++ (m ++ b) → ¬ Fits p a :=
      fun a m b heq ha => hstarts ⟨a, m ++ b, heq, ha⟩
    refine .inl ⟨?_, false, rfl, ?_⟩
    · rintro ⟨a, m, b, heq, ha, _⟩
      exact hno a m b heq ha
    · simp only [Bool.false_eq_true, false_iff]
      rintro ⟨a, m, b, heq, ha, _⟩
      exact hno a m b heq ha

theorem UnitCode.answered (R : UnitCode cs code) {pat : LikePattern}
    (hpat : PatternOf code es pat) {us : List υ} {textLen : UInt16}
    (hlen : textLen.toNat = (us.flatMap code).length) (after : Memory) :
    Answered cs code es us after (pat.matchesText cs (memoryAt code us after) textLen) := by
  cases hpat with
  | single hsplit hp => exact R.answered_single hsplit hp hlen after
  | several hsplit hp hps hq => exact R.answered_several hsplit hp hps hq hlen after

end

/-! ## The construction -/

variable {cs : CharSet}

/-- The mark of a pattern that begins with a percent sign changes nothing else. -/
theorem HeaderOf.setType_percent {h : LikePatternHeader} {p : List (Slot cs.Unit)}
    (hp : HeaderOf cs.code h p) :
    HeaderOf cs.code (if h.length = 0 then h.setType .percent else h) p := by
  split
  · rename_i hzero
    obtain rfl : p = [] := by
      by_contra hne
      have := (unitCode cs).slotBytes_pos hne
      rw [← hp.length_eq] at this
      omega
    obtain ⟨front, lastClause⟩ := h
    cases front with
    | nil =>
      have hempty : lastClause.pattern = [] := by
        simpa [LikePatternHeader.length, LikePatternHeader.pattern, LikePatternHeader.clauses]
          using hzero
      obtain ⟨charType, pattern⟩ := lastClause
      obtain rfl : pattern = [] := hempty
      exact headerOf_percent
    | cons c front =>
      have hfilled := hp.front_filled c (by simp)
      simp [LikePatternHeader.length, LikePatternHeader.pattern, LikePatternHeader.clauses] at hzero
      exact absurd hzero.1 hfilled
  · exact hp

theorem scanned_pattern (pattern : List cs.Character) (behind : Memory)
    (escape : Option cs.Character) :
    Scanned [] (parse cs.underscore cs.percent escape pattern)
      (scanPattern cs (patternString cs pattern behind escape) (pattern.flatMap cs.encode).length
        (determineCharType (patternString cs pattern behind escape) (pattern.flatMap cs.encode))
        (pattern.flatMap cs.encode).length [] ⟨[], ⟨.nonWildcard, []⟩⟩) :=
  scanPattern_spec headersOf_nil le_rfl le_rfl

/-- The constructor builds a pattern with the parts of its elements. -/
theorem create_of_parse {pattern : List cs.Character} (behind : Memory)
    {escape : Option cs.Character} {es : List (Element cs.Character)}
    (h : parse cs.underscore cs.percent escape pattern = some es) :
    ∃ pat, LikePattern.create cs (patternString cs pattern behind escape) = .ok pat ∧
      PatternOf cs.code (es.flatMap (unitElements cs)) pat := by
  obtain ⟨hnone, _⟩ | ⟨new, headers, lastHeader, hnew, hscan, hes⟩ :=
    scanned_pattern pattern behind escape
  · rw [h] at hnone
    exact absurd hnone (by simp)
  obtain rfl : es = new := Option.some.inj (h.symm.trans hnew)
  rw [LikePattern.create, show (patternString cs pattern behind escape).pattern =
    pattern.flatMap cs.encode from rfl, hscan]
  rw [nil_append] at hes
  cases hes with
  | first hsplit hp _ => exact ⟨_, rfl, .single hsplit hp⟩
  | later hsplit hp hps hq _ => exact ⟨_, rfl, .several hsplit hp.setType_percent hps hq⟩

/-! ## Characters and units -/

theorem units_length (c : cs.Character) : (cs.units c).length = (cs.units cs.underscore).length := by
  cases cs <;> rfl

theorem fits_unitSlots {s : Slot cs.Character} {c : cs.Character} (h : s.Takes c) :
    Fits (unitSlots cs s) (cs.units c) := by
  cases s with
  | one => exact (fits_ones _ _).mpr (units_length c)
  | lit d =>
    obtain rfl : d = c := h
    exact (fits_literals _ _).mpr rfl

/-- A text that can be cut into characters can be cut into units. -/
theorem cut_units {es : List (Element cs.Character)} {text : List cs.Character}
    (h : Cut es text) : Cut (es.flatMap (unitElements cs)) (text.flatMap cs.units) := by
  induction es generalizing text with
  | nil =>
    obtain rfl := (cut_nil text).mp h
    exact (cut_nil _).mpr rfl
  | cons e es ih =>
    rw [flatMap_cons, cut_append]
    cases e with
    | run =>
      obtain ⟨a, b, rfl, hb⟩ := (cut_run_cons es text).mp h
      refine ⟨a.flatMap cs.units, b.flatMap cs.units, flatMap_append, ?_, ih hb⟩
      exact (cut_run_cons [] _).mpr ⟨_, [], (append_nil _).symm, (cut_nil _).mpr rfl⟩
    | slot s =>
      obtain ⟨c, b, rfl, hc, hb⟩ := (cut_slot_cons s es text).mp h
      refine ⟨cs.units c, b.flatMap cs.units, flatMap_cons, ?_, ih hb⟩
      exact (cut_slots _ _).mpr (fits_unitSlots hc)

theorem flatMap_encode (text : List cs.Character) :
    text.flatMap cs.encode = (text.flatMap cs.units).flatMap cs.code := by
  rw [flatMap_assoc]
  exact congrArg (fun f => text.flatMap f) (funext encode_eq_flatMap)

/-! ## The answer -/

/-- The answer of LIKE for a pattern, an escape character and a text in characters. -/
def likeAnswer (cs : CharSet) (pattern : List cs.Character) (behind : Memory)
    (escape : Option cs.Character) (text : List cs.Character) (after : Memory) :
    Except LikeError Bool :=
  like cs (pattern.flatMap cs.encode) behind (escape.map cs.encode) (text.flatMap cs.encode) after

/-- The answer is TRUE exactly when the text can be cut into pieces that match the elements. -/
def LikeRight (cs : CharSet) (es : List (Element cs.Character)) (text : List cs.Character)
    (r : Except LikeError Bool) : Prop := ∃ b, r = .ok b ∧ (b = true ↔ Cut es text)

/-- The pattern and the text have fewer bytes than a `UInt16` can count. -/
def ShortTexts (cs : CharSet) (pattern text : List cs.Character) : Prop :=
  (pattern.flatMap cs.encode).length < 65536 ∧ (text.flatMap cs.encode).length < 65536

/-- The pattern matches the units of the text only where it matches its characters. -/
def MatchesWhole (cs : CharSet) (es : List (Element cs.Character)) (text : List cs.Character) :
    Prop := Cut (es.flatMap (unitElements cs)) (text.flatMap cs.units) → Cut es text

/-- LIKE answers rightly exactly when the units of the text match only as characters do, and no
partition runs over the end of its room. -/
theorem likeRight_iff {cs : CharSet} {pattern : List cs.Character} {escape : Option cs.Character}
    {es : List (Element cs.Character)} {text : List cs.Character}
    (hes : parse cs.underscore cs.percent escape pattern = some es)
    (hshort : ShortTexts cs pattern text) (behind after : Memory) :
    LikeRight cs es text (likeAnswer cs pattern behind escape text after) ↔
      MatchesWhole cs es text ∧
        ¬ PatternRunsOver cs cs.code (es.flatMap (unitElements cs)) (text.flatMap cs.units) after := by
  obtain ⟨pat, hcreate, hpat⟩ := create_of_parse behind hes
  have hanswer : likeAnswer cs pattern behind escape text after =
      pat.matchesText cs (memoryAt cs.code (text.flatMap cs.units) after)
        (UInt16.ofNat (text.flatMap cs.encode).length) := by
    rw [likeAnswer, like, UInt16.toNat_ofNat_of_lt' hshort.1, take_length, drop_length,
      Stream'.nil_append_stream, ← patternString, hcreate, memoryAt, ← flatMap_encode]
  have hlen := UInt16.toNat_ofNat_of_lt' hshort.2
  rw [flatMap_encode] at hlen
  rw [hanswer, flatMap_encode]
  obtain ⟨hover, b, hb, hiff⟩ | ⟨hover, hno, hresult⟩ :=
    (unitCode cs).answered hpat hlen after
  · rw [hb]
    constructor
    · rintro ⟨b', heq, hright⟩
      obtain rfl : b = b' := Except.ok.inj heq
      exact ⟨fun hunits => hright.mp (hiff.mpr hunits), hover⟩
    · rintro ⟨hwhole, _⟩
      exact ⟨b, rfl, fun h => hwhole (hiff.mp h), fun h => hiff.mpr (cut_units h)⟩
  · constructor
    · rintro ⟨b, heq, hright⟩
      obtain htrue | herror := hresult
      · obtain rfl : true = b := Except.ok.inj (htrue.symm.trans heq)
        exact absurd (cut_units (hright.mp rfl)) hno
      · exact absurd (herror.symm.trans heq) (by simp)
    · rintro ⟨_, hnot⟩
      exact absurd hover hnot

/-! ## Where LIKE is right -/

theorem slotBytes_byteCode (p : List (Slot UInt8)) : slotBytes byteCode p = p.length := by
  induction p with
  | nil => rfl
  | cons s p ih => cases s <;> simp [slotBytes, byteCode, ih]

/-- Where a unit is a byte, no partition runs over the end. -/
theorem not_patternRunsOver_byteCode (es : List (Element UInt8)) (us : Bytes) (after : Memory) :
    ¬ PatternRunsOver cs byteCode es us after := by
  rintro ⟨ps, q, a, m, b, _, _, _, _, pre, p, post, s, _, _, _, hs, _⟩
  have hshort := hs.short
  have hbytes := hs.bytes
  rw [slotBytes_byteCode, flatMap_byteCode] at hbytes
  omega

/-- Where a character is one unit, units match only as characters do. -/
theorem matchesWhole_of_single {f : cs.Character → cs.Unit} (hf : Function.Injective f)
    (hunits : ∀ c, cs.units c = [f c]) (es : List (Element cs.Character))
    (text : List cs.Character) : MatchesWhole cs es text := by
  have helement : unitElements cs = fun e => [e.map f] := by
    funext e
    cases e with
    | run => rfl
    | slot s =>
      cases s with
      | one | lit c => simp [unitElements, unitSlots, hunits, Element.map, Slot.map]
  intro h
  rw [helement, show cs.units = fun c => [f c] from funext hunits, ← map_eq_flatMap,
    ← map_eq_flatMap] at h
  exact cut_of_map hf h

/-- Where LIKE is right: always in ISO88591, in UTF8 when no partition runs over the end of its room,
and in UCS2 when the bytes of the text match only as its characters do. -/
def LikeSound : (cs : CharSet) → List (Element cs.Character) → List cs.Character → Memory → Prop
  | .iso88591, _, _, _ => True
  | .utf8, es, text, after =>
    ¬ PatternRunsOver .utf8 (CharSet.code .utf8) (es.flatMap (unitElements .utf8))
      (text.flatMap (CharSet.units .utf8)) after
  | .ucs2, es, text, _ => MatchesWhole .ucs2 es text

theorem matchesWhole_and_room_iff {cs : CharSet} (es : List (Element cs.Character))
    (text : List cs.Character) (after : Memory) :
    MatchesWhole cs es text ∧ ¬ PatternRunsOver cs cs.code (es.flatMap (unitElements cs))
      (text.flatMap cs.units) after ↔ LikeSound cs es text after := by
  cases cs with
  | iso88591 =>
    have hwhole : MatchesWhole .iso88591 es text :=
      matchesWhole_of_single (fun _ _ h => h) (fun _ => rfl) es text
    exact iff_of_true ⟨hwhole, not_patternRunsOver_byteCode _ _ after⟩ trivial
  | utf8 => exact and_iff_right (matchesWhole_of_single (fun _ _ h => h) (fun _ => rfl) es text)
  | ucs2 => exact and_iff_left (not_patternRunsOver_byteCode _ _ after)

/-- LIKE answers TRUE exactly for the texts that match, just where it is sound. -/
theorem like_matches_whole_characters_iff {cs : CharSet} {pattern : List cs.Character}
    {escape : Option cs.Character} {es : List (Element cs.Character)} {text : List cs.Character}
    (hes : parse cs.underscore cs.percent escape pattern = some es)
    (hshort : ShortTexts cs pattern text) (behind after : Memory) :
    LikeRight cs es text (likeAnswer cs pattern behind escape text after) ↔
      LikeSound cs es text after := by
  rw [likeRight_iff hes hshort behind after]
  exact matchesWhole_and_room_iff es text after

/-- The pattern `a%_é` matches the text `axyé`. -/
theorem like_right_at_axye :
    likeAnswer .utf8 ['a', '%', '_', 'é'] (Stream'.const 0) none ['a', 'x', 'y', 'é']
        (Stream'.const 0) = .ok true ∧
      LikeSound .utf8 [.slot (.lit 'a'), .run, .slot .one, .slot (.lit 'é')] ['a', 'x', 'y', 'é']
        (Stream'.const 0) := by
  have hanswer : likeAnswer .utf8 ['a', '%', '_', 'é'] (Stream'.const 0) none
      ['a', 'x', 'y', 'é'] (Stream'.const 0) = .ok true := by
    decide +kernel
  have hiff := @like_matches_whole_characters_iff .utf8 ['a', '%', '_', 'é'] none _
    ['a', 'x', 'y', 'é'] rfl (by unfold ShortTexts; decide +kernel) (Stream'.const 0)
    (Stream'.const 0)
  exact ⟨hanswer, hiff.mp ⟨true, hanswer, by decide +kernel⟩⟩

theorem not_likeRight {cs : CharSet} {es : List (Element cs.Character)} {b : Bool}
    {text : List cs.Character} {r : Except LikeError Bool} (h : r = .ok b)
    (hno : ¬ (b = true ↔ Cut es text)) : ¬ LikeRight cs es text r := by
  rintro ⟨b', hb, hiff⟩
  obtain rfl : b = b' := Except.ok.inj (h.symm.trans hb)
  exact hno hiff

theorem flatMap_encode_iso88591 (text : Bytes) :
    List.flatMap (CharSet.encode .iso88591) text = text := by
  induction text with
  | nil => rfl
  | cons c text ih => exact congrArg (c :: ·) ih

/-- A text of 65536 bytes is read as an empty one. -/
theorem like_of_long_text {text : Bytes} (h : text.length = 65536) (after : Memory) :
    likeAnswer .iso88591 [(97 : UInt8), (37 : UInt8)] (Stream'.const 0) none text after =
      .ok false := by
  show like .iso88591 [97, 37] _ none (List.flatMap (CharSet.encode .iso88591) text) after = _
  rw [flatMap_encode_iso88591, like, h]
  rfl

/-- In UTF8, `%a__%` is found in `xaé`, and whether `%_a%` is found in `xé` depends on the byte
behind the text. In UCS2, a character is found in the bytes of two others. A text of 65536 bytes
does not begin with its first one. -/
theorem like_runs_over_the_end :
    (parse (CharSet.underscore .utf8) (CharSet.percent .utf8) none ['%', 'a', '_', '_', '%'] =
        some [.run, .slot (.lit 'a'), .slot .one, .slot .one, .run] ∧
      ¬ LikeRight .utf8 [.run, .slot (.lit 'a'), .slot .one, .slot .one, .run] ['x', 'a', 'é']
        (likeAnswer .utf8 ['%', 'a', '_', '_', '%'] (Stream'.const 0) none ['x', 'a', 'é']
          (Stream'.const 0))) ∧
    (likeAnswer .utf8 ['%', '_', 'a', '%'] (Stream'.const 0) none ['x', 'é'] (Stream'.const 0) =
        .ok false ∧
      likeAnswer .utf8 ['%', '_', 'a', '%'] (Stream'.const 0) none ['x', 'é'] (Stream'.const 0x61) =
        .ok true) ∧
    (parse (CharSet.underscore .ucs2) (CharSet.percent .ucs2) none
        [(0x25 : UInt16), (0x6161 : UInt16), (0x25 : UInt16)] =
        some [.run, .slot (.lit (0x6161 : UInt16)), .run] ∧
      ¬ LikeRight .ucs2 [.run, .slot (.lit (0x6161 : UInt16)), .run]
        [(0x6100 : UInt16), (0x0061 : UInt16)]
        (likeAnswer .ucs2 [(0x25 : UInt16), (0x6161 : UInt16), (0x25 : UInt16)] (Stream'.const 0)
          none [(0x6100 : UInt16), (0x0061 : UInt16)] (Stream'.const 0))) ∧
    (parse (CharSet.underscore .iso88591) (CharSet.percent .iso88591) none
        [(97 : UInt8), (37 : UInt8)] = some [.slot (.lit (97 : UInt8)), .run] ∧
      ¬ LikeRight .iso88591 [.slot (.lit (97 : UInt8)), .run] (replicate 65536 (97 : UInt8))
        (likeAnswer .iso88591 [(97 : UInt8), (37 : UInt8)] (Stream'.const 0) none
          (replicate 65536 (97 : UInt8)) (Stream'.const 0))) := by
  refine ⟨⟨by decide, ?_⟩, by decide +kernel, ⟨by decide, ?_⟩, by decide, ?_⟩
  · exact not_likeRight (b := true) (by decide +kernel) (by decide +kernel)
  · exact not_likeRight (b := true) (by decide +kernel) (by decide +kernel)
  · refine not_likeRight (like_of_long_text length_replicate _) fun hiff => Bool.false_ne_true (hiff.mpr ?_)
    exact (cut_slot_cons _ _ _).mpr ⟨(97 : UInt8), _, replicate_succ, rfl, cut_run _⟩

end litestore
