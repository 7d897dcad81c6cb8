-- The construction of a pattern from its characters. The headers that are built have the slots
-- of the parts of the pattern, where a percent sign behind another one changes nothing.
import LiteStore.LikeSearch

open Stream' (append_append_stream drop_append_stream take_append_of_le_length)
open wildcard List

namespace litestore

/-! ## Reading the pattern -/

variable {cs : CharSet} {c : cs.Character} {s : Slot cs.Character} {q : List (Slot cs.Unit)}
  {es : List (Element cs.Unit)}

theorem encode_eq_flatMap (c : cs.Character) : cs.encode c = (cs.units c).flatMap cs.code := by
  cases cs with
  | iso88591 => rfl
  | utf8 => exact (append_nil _).symm
  | ucs2 => rfl

theorem encode_ne_nil (c : cs.Character) : cs.encode c ≠ [] := by
  cases cs with
  | iso88591 | ucs2 => exact cons_ne_nil _ _
  | utf8 => exact unitCode_utf8.ne_nil c

theorem underscoreChar_eq (cs : CharSet) : underscoreChar cs = cs.encode cs.underscore := by
  cases cs <;> rfl

theorem percentChar_eq (cs : CharSet) : percentChar cs = cs.encode cs.percent := by
  cases cs <;> rfl

theorem eq_of_ucs2_bytes {c d : UInt16} (hlow : c.toUInt8 = d.toUInt8)
    (hhigh : (c >>> 8).toUInt8 = (d >>> 8).toUInt8) : c = d := by
  have h1 := congrArg UInt8.toNat hlow
  have h2 := congrArg UInt8.toNat hhigh
  rw [UInt16.toNat_toUInt8, UInt16.toNat_toUInt8] at h1 h2
  have h8 : UInt16.toNat 8 % 16 = 8 := rfl
  simp only [UInt16.toNat_shiftRight, Nat.shiftRight_eq_div_pow, h8] at h2
  apply UInt16.toNat_inj.mp
  have hc := c.toNat_lt
  have hd := d.toNat_lt
  omega

variable {b : Bytes} {len : Int} {t : CharType} {h : LikePatternHeader}
  {headers : List LikePatternHeader}

/-- No character begins with another one. -/
theorem eq_of_encode_append {d : cs.Character} {a : Bytes}
    (h : cs.encode c ++ a = cs.encode d ++ b) : c = d := by
  cases cs with
  | iso88591 => exact (List.cons.inj h).1
  | utf8 =>
    have hmem := congrArg (· ++ₛ Stream'.const (0 : UInt8)) h
    simp only [append_append_stream] at hmem
    exact unitCode_utf8.eq_of_append hmem
  | ucs2 =>
    obtain ⟨hlow, htail⟩ := List.cons.inj h
    exact eq_of_ucs2_bytes hlow (List.cons.inj htail).1

theorem thisCharIsEqualTo_encode (c d : cs.Character) (rest : Bytes) :
    thisCharIsEqualTo (cs.encode c ++ rest) (cs.encode d) = decide (c = d) := by
  rw [thisCharIsEqualTo, Bool.eq_iff_iff, isPrefixOf_iff_prefix, decide_eq_true_iff]
  constructor
  · rintro ⟨b, hb⟩
    exact (eq_of_encode_append hb).symm
  · rintro rfl
    exact prefix_append _ _

/-- The current character of the pattern is read whole. -/
theorem getFirstCharLength_encode (c : cs.Character) (mem : Memory)
    (hlen : (cs.encode c).length ≤ len) :
    ∃ k, getFirstCharLength cs (cs.encode c ++ₛ mem) len = some k ∧
      k + (if cs = .ucs2 then 1 else 0) = (cs.encode c).length ∧ (k : Int) ≤ (cs.encode c).length := by
  cases cs with
  | iso88591 => exact ⟨1, rfl, rfl, le_rfl⟩
  | utf8 => exact ⟨_, unitCode_utf8.first c mem hlen, rfl, le_rfl⟩
  | ucs2 => exact ⟨1, rfl, rfl, by simp [CharSet.encode]⟩

theorem getChar_utf8 (c : Char) (mem : Memory) :
    getChar .utf8 (String.utf8EncodeChar c ++ₛ mem) = String.utf8EncodeChar c := by
  have hlen : ((String.utf8EncodeChar c).length : Int) ≤ 4 := by
    rw [String.length_utf8EncodeChar]
    exact_mod_cast Char.utf8Size_le_four c
  rw [getChar, localeCharToUCS4_encode c mem hlen, Option.getD_some,
    take_append_of_le_length _ _ _ le_rfl, take_length]

theorem getChar_encode (c : cs.Character) (mem : Memory) :
    getChar cs (cs.encode c ++ₛ mem) = cs.encode c := by
  cases cs with
  | iso88591 => rfl
  | utf8 => exact getChar_utf8 c mem
  | ucs2 => rfl

theorem percent_length (cs : CharSet) :
    (cs.encode cs.percent).length = if cs = .ucs2 then 2 else 1 := by
  cases cs <;> rfl

/-! ## The growing header -/

/-- The slots of a slot in units. -/
def unitSlots (cs : CharSet) : Slot cs.Character → List (Slot cs.Unit)
  | .one => replicate (cs.units cs.underscore).length .one
  | .lit c => (cs.units c).map .lit

def unitElements (cs : CharSet) : Element cs.Character → List (Element cs.Unit)
  | .run => [.run]
  | .slot s => (unitSlots cs s).map .slot

/-- The type and the bytes that a slot is appended with. -/
inductive AppendedAs (cs : CharSet) : Slot cs.Character → CharType → Bytes → Prop
  | one : AppendedAs cs .one .underscore (cs.encode cs.underscore)
  | lit (c : cs.Character) : AppendedAs cs (.lit c) .nonWildcard (cs.encode c)

theorem units_ne_nil (c : cs.Character) : cs.units c ≠ [] := by
  cases cs <;> exact cons_ne_nil _ _

theorem unitSlots_ne_nil (s : Slot cs.Character) : unitSlots cs s ≠ [] := by
  cases s with
  | one => simpa [unitSlots] using units_ne_nil cs.underscore
  | lit c => simpa [unitSlots] using units_ne_nil c

theorem underscore_length (cs : CharSet) :
    ((cs.units cs.underscore).flatMap cs.code).length = (cs.units cs.underscore).length := by
  cases cs <;> rfl

theorem AppendedAs.ne_nil (h : AppendedAs cs s t b) : b ≠ [] := by
  cases h with
  | one => exact encode_ne_nil _
  | lit c => exact encode_ne_nil c

theorem AppendedAs.ne_percent (h : AppendedAs cs s t b) : t ≠ .percent := by
  cases h <;> simp

theorem AppendedAs.type_cases (h : AppendedAs cs s t b) : t = .underscore ∨ t = .nonWildcard := by
  cases h with
  | one => exact .inl rfl
  | lit c => exact .inr rfl

/-- A clause of its own. -/
theorem AppendedAs.clause (h : AppendedAs cs s t b) :
    ClausesOf cs.code [⟨t, b⟩] (unitSlots cs s) := by
  cases h with
  | one =>
    rw [encode_eq_flatMap, unitSlots, ← append_nil (replicate _ _)]
    exact .underscores _ (underscore_length cs) .nil
  | lit c =>
    rw [encode_eq_flatMap, unitSlots, ← append_nil (List.map _ _)]
    exact .literals _ .nil

/-- A clause that grows. -/
theorem AppendedAs.grow (h : AppendedAs cs s t b) {c : LikePatternClause}
    (hc : ClausesOf cs.code [c] q) (htype : c.charType = t) :
    ClausesOf cs.code [⟨t, c.pattern ++ b⟩] (q ++ unitSlots cs s) := by
  cases h with
  | one =>
    cases hc with
    | underscores us hus hnil =>
      cases hnil
      have hnil : ClausesOf cs.code [] ([] : List (Slot cs.Unit)) := .nil
      have hgrown := ClausesOf.underscores (us ++ cs.units cs.underscore)
        (by rw [flatMap_append, length_append, hus, underscore_length, length_append])
        hnil
      rw [encode_eq_flatMap, unitSlots, append_nil, ← replicate_add, ← length_append,
        ← flatMap_append, ← append_nil (replicate _ _)]
      exact hgrown
    | literals us _ | percent _ => exact absurd htype (by simp)
  | lit d =>
    cases hc with
    | literals us hnil =>
      cases hnil
      rw [encode_eq_flatMap, unitSlots, append_nil, ← map_append, ← flatMap_append,
        ← append_nil (List.map _ _)]
      exact .literals _ .nil
    | underscores us _ _ | percent _ => exact absurd htype (by simp)

/-- An empty clause has no slots. -/
theorem ClausesOf.eq_nil {c : LikePatternClause} (hc : ClausesOf cs.code [c] q)
    (h : c.pattern = []) : q = [] := by
  obtain ⟨us, hlen, hpattern, _⟩ := hc.pattern_eq
  rw [flatMap_singleton, h] at hpattern
  have hus : us = [] := (unitCode cs).flatMap_length_eq_zero (by rw [← hpattern]; rfl)
  rw [hus] at hlen
  exact length_eq_zero_iff.mp hlen.symm

/-- A character adds the slots of it to the header. -/
theorem HeaderOf.append (hq : HeaderOf cs.code h q) (hs : AppendedAs cs s t b) :
    HeaderOf cs.code (h.append t b) (q ++ unitSlots cs s) ∧
      (h.append t b).lastClause.charType = t := by
  obtain ⟨front, lastClause⟩ := h
  obtain ⟨q₁, q₂, rfl, hfront, hlast⟩ := hq.clauses.split_append
  unfold LikePatternHeader.append
  split
  · rename_i htype
    refine ⟨⟨?_, hq.front_filled, ?_⟩, rfl⟩
    · rw [append_assoc]
      exact hfront.append (hs.grow hlast htype.symm)
    · intro _
      simp [hs.ne_nil]
  · split_ifs with hpos
    · refine ⟨⟨?_, ?_, fun _ => hs.ne_nil⟩, rfl⟩
      · exact (hfront.append hlast).append hs.clause
      · intro c hc
        obtain hc | hc := mem_append.mp hc
        · exact hq.front_filled c hc
        · obtain rfl := mem_singleton.mp hc
          exact length_pos_iff.mp hpos
    · have hempty : lastClause.pattern = [] := by
        simpa [LikePatternClause.length] using hpos
      obtain rfl := hlast.eq_nil hempty
      refine ⟨⟨?_, hq.front_filled, fun _ => hs.ne_nil⟩, rfl⟩
      rw [append_nil]
      exact hfront.append hs.clause

/-! ## The headers -/

/-- The headers so far have the parts of the elements so far. Of the parts between the first and the
last one, those that are empty have no header. -/
inductive HeadersOf (cs : CharSet) (es : List (Element cs.Unit)) :
    List LikePatternHeader → LikePatternHeader → Prop
  | first {h : LikePatternHeader} {p : List (Slot cs.Unit)} (hsplit : split es = (p, []))
      (hp : HeaderOf cs.code h p) (htype : h.lastClause.charType ≠ .percent) : HeadersOf cs es [] h
  | later {first lastHeader : LikePatternHeader} {middle : List LikePatternHeader}
      {p q : List (Slot cs.Unit)} {ps : List (List (Slot cs.Unit))}
      (hsplit : split es = (p, ps ++ [q])) (hp : HeaderOf cs.code first p)
      (hps : Forall₂ (HeaderOf cs.code) middle (ps.filter fun p => !p.isEmpty))
      (hq : HeaderOf cs.code lastHeader q)
      (htype : lastHeader.lastClause.charType = .percent ↔ q = []) :
      HeadersOf cs es (first :: middle) lastHeader

theorem headersOf_nil : HeadersOf cs [] [] ⟨[], ⟨.nonWildcard, []⟩⟩ := by
  refine .first rfl ⟨?_, ?_, ?_⟩ (by simp)
  · exact .literals [] .nil
  · simp
  · simp

theorem HeadersOf.slot (hes : HeadersOf cs es headers h) (hs : AppendedAs cs s t b) :
    HeadersOf cs (es ++ unitElements cs (.slot s)) headers (h.append t b) := by
  cases hes with
  | first hsplit hp htype =>
    obtain ⟨hp', htype'⟩ := hp.append hs
    exact .first (split_append_slots hsplit _) hp' (htype'.symm ▸ hs.ne_percent)
  | later hsplit hp hps hq htype =>
    obtain ⟨hq', htype'⟩ := hq.append hs
    refine .later (split_append_slots_last hsplit _) hp hps hq' ?_
    rw [htype']
    simp [hs.ne_percent, unitSlots_ne_nil]

theorem headerOf_percent : HeaderOf cs.code ⟨[], ⟨.percent, []⟩⟩ ([] : List (Slot cs.Unit)) :=
  ⟨.percent .nil, by simp, by simp⟩

/-- A percent sign behind another one. -/
theorem HeadersOf.run_again (hes : HeadersOf cs es headers h)
    (htype : h.lastClause.charType = .percent) :
    HeadersOf cs (es ++ unitElements cs .run) headers h := by
  cases hes with
  | first _ _ hne => exact absurd htype hne
  | later hsplit hp hps hq hiff =>
    obtain rfl := hiff.mp htype
    have hsplit' := split_concat_run es
    rw [hsplit] at hsplit'
    exact .later hsplit' hp (by simpa using hps) hq hiff

theorem HeadersOf.run (hes : HeadersOf cs es headers h) (htype : h.lastClause.charType ≠ .percent) :
    HeadersOf cs (es ++ unitElements cs .run) (headers ++ [h]) ⟨[], ⟨.percent, []⟩⟩ := by
  have hsplit' := split_concat_run es
  cases hes with
  | first hsplit hp _ =>
    rw [hsplit] at hsplit'
    exact .later hsplit' hp .nil headerOf_percent (by simp)
  | @later _ _ _ _ q _ hsplit hp hps hq hiff =>
    rw [hsplit] at hsplit'
    have hq0 : q ≠ [] := fun h => htype (hiff.mpr h)
    refine .later hsplit' hp ?_ headerOf_percent (by simp)
    rw [filter_append, filter_singleton]
    have hkeep : (!q.isEmpty) = true := by simpa using hq0
    rw [hkeep]
    exact rel_append hps (.cons hq .nil)

/-! ## The loop of the constructor -/

/-- The pattern string of a pattern in characters. -/
def patternString (cs : CharSet) (pattern : List cs.Character) (behind : Memory)
    (escape : Option cs.Character) : LikePatternString :=
  ⟨pattern.flatMap cs.encode, behind, escape.map cs.encode, underscoreChar cs, percentChar cs⟩

section

variable {pattern : List cs.Character} {behind : Memory} {escape : Option cs.Character}

theorem wildcardType_encode (c : cs.Character) (rest : Bytes) :
    wildcardType (patternString cs pattern behind escape) (cs.encode c ++ rest) =
      if c = cs.underscore then .underscore else if c = cs.percent then .percent
      else .nonWildcard := by
  simp only [wildcardType, patternString, underscoreChar_eq, percentChar_eq,
    thisCharIsEqualTo_encode, decide_eq_true_eq]

theorem determineCharType_plain (h : escape ≠ some c) (rest : Bytes) :
    determineCharType (patternString cs pattern behind escape) (cs.encode c ++ rest) =
      ⟨cs.encode c ++ rest, if c = cs.underscore then .underscore
        else if c = cs.percent then .percent else .nonWildcard⟩ := by
  have hne : cs.encode c ++ rest ≠ [] := by simp [encode_ne_nil]
  have htype : wildcardType (patternString cs pattern behind escape) (cs.encode c ++ rest) = _ :=
    wildcardType_encode c rest
  rw [← htype, determineCharType, if_neg hne]
  cases escape with
  | none => rfl
  | some e =>
    have hdiff : ¬ c = e := fun h' => h (h' ▸ rfl)
    simp only [patternString, Option.map_some, thisCharIsEqualTo_encode, hdiff, decide_false,
      Bool.false_eq_true, if_false]

theorem determineCharType_escape_last (c : cs.Character) :
    (determineCharType (patternString cs pattern behind (some c)) (cs.encode c)).charType =
      .error := by
  have heq := thisCharIsEqualTo_encode c c []
  rw [append_nil] at heq
  rw [determineCharType, if_neg (encode_ne_nil c)]
  simp [patternString, heq]

theorem determineCharType_escape (c d : cs.Character) (rest : Bytes) :
    determineCharType (patternString cs pattern behind (some c))
        (cs.encode c ++ (cs.encode d ++ rest)) =
      ⟨cs.encode d ++ rest, if d = c ∨ d = cs.underscore ∨ d = cs.percent then .nonWildcard
        else .error⟩ := by
  have hne : cs.encode c ++ (cs.encode d ++ rest) ≠ [] := by simp [encode_ne_nil]
  have hne' : cs.encode d ++ rest ≠ [] := by simp [encode_ne_nil]
  rw [determineCharType, if_neg hne]
  simp only [patternString, Option.map_some, underscoreChar_eq, percentChar_eq,
    thisCharIsEqualTo_encode, decide_true, if_true, drop_left, hne', if_false,
    Bool.or_eq_true, decide_eq_true_eq, or_assoc]
  split <;> rfl

/-- A step over a character that is appended to the header. -/
theorem scanPattern_slot (hs : AppendedAs cs s t (cs.encode c)) {rest : Bytes} {n : Nat}
    (hlen : ((cs.encode c).length : Int) + rest.length ≤ len) (headers : List LikePatternHeader)
    (h : LikePatternHeader) :
    ∃ len' : Int, (rest.length : Int) ≤ len' ∧
      scanPattern cs (patternString cs pattern behind escape) (n + 1) ⟨cs.encode c ++ rest, t⟩ len
          headers h =
        scanPattern cs (patternString cs pattern behind escape) n
          (determineCharType (patternString cs pattern behind escape) rest) len' headers
          (h.append t (cs.encode c)) := by
  have hroom : ((cs.encode c).length : Int) ≤ len := by omega
  obtain ⟨k, hk, hlength, hle⟩ := getFirstCharLength_encode c (rest ++ₛ behind) hroom
  rw [← append_append_stream] at hk
  have hchar : getChar cs (cs.encode c ++ rest ++ₛ behind) = cs.encode c := by
    rw [append_append_stream]
    exact getChar_encode c _
  refine ⟨len - k, by omega, ?_⟩
  obtain rfl | rfl := hs.type_cases
  all_goals
    simp only [scanPattern]
    rw [show (patternString cs pattern behind escape).behind = behind from rfl, hk]
    simp only [hlength, hchar, drop_left]

/-- A step over a percent sign. -/
theorem scanPattern_percent (hes : HeadersOf cs es headers h) (rest : Bytes) (n : Nat) (len : Int) :
    ∃ headers' h', HeadersOf cs (es ++ unitElements cs .run) headers' h' ∧
      scanPattern cs (patternString cs pattern behind escape) (n + 1)
          ⟨cs.encode cs.percent ++ rest, .percent⟩ len headers h =
        scanPattern cs (patternString cs pattern behind escape) n
          (determineCharType (patternString cs pattern behind escape) rest) (len - 1) headers' h' := by
  simp only [scanPattern, ← percent_length, drop_left]
  by_cases htype : h.lastClause.charType = .percent
  · exact ⟨headers, h, hes.run_again htype, by rw [if_pos htype]⟩
  · exact ⟨_, _, hes.run htype, by rw [if_neg htype]⟩

/-- The loop has built the headers of the elements behind `es`, or it has found an escape sequence
that is not one. -/
def Scanned (es : List (Element cs.Unit)) (parsed : Option (List (Element cs.Character)))
    (r : Except LikeError (List LikePatternHeader × LikePatternHeader)) : Prop :=
  (parsed = none ∧ r = .error .invalidEscapeSequence) ∨
  ∃ new headers h, parsed = some new ∧ r = .ok (headers, h) ∧
    HeadersOf cs (es ++ new.flatMap (unitElements cs)) headers h

theorem Scanned.cons {e : Element cs.Character} {parsed : Option (List (Element cs.Character))}
    {r : Except LikeError (List LikePatternHeader × LikePatternHeader)}
    (h : Scanned (es ++ unitElements cs e) parsed r) : Scanned es (parsed.map (e :: ·)) r := by
  obtain ⟨rfl, hr⟩ | ⟨new, headers, h, rfl, hr, hes⟩ := h
  · exact .inl ⟨rfl, hr⟩
  · refine .inr ⟨e :: new, headers, h, rfl, hr, ?_⟩
    rw [flatMap_cons, ← append_assoc]
    exact hes

theorem scanned_nil (hes : HeadersOf cs es headers h) : Scanned es (some []) (.ok (headers, h)) :=
  .inr ⟨[], headers, h, rfl, rfl, by simpa using hes⟩

theorem scanPattern_spec {text : List cs.Character} (hes : HeadersOf cs es headers h) {n : Nat}
    (hn : (text.flatMap cs.encode).length ≤ n)
    (hlen : ((text.flatMap cs.encode).length : Int) ≤ len) :
    Scanned es (parse cs.underscore cs.percent escape text)
      (scanPattern cs (patternString cs pattern behind escape) n
        (determineCharType (patternString cs pattern behind escape) (text.flatMap cs.encode)) len
        headers h) := by
  induction n generalizing text es headers h len with
  | zero =>
    cases text with
    | nil => exact scanned_nil hes
    | cons c text =>
      have := length_pos_iff.mpr (encode_ne_nil c)
      rw [flatMap_cons, length_append] at hn
      omega
  | succ n ih =>
    cases text with
    | nil => exact scanned_nil hes
    | cons c text =>
      have hpos := length_pos_iff.mpr (encode_ne_nil c)
      rw [flatMap_cons, length_append] at hn hlen
      rw [flatMap_cons]
      by_cases hescape : some c = escape
      · subst hescape
        cases text with
        | nil =>
          have htype : (determineCharType (patternString cs pattern behind (some c))
              (cs.encode c)).charType = .error := determineCharType_escape_last c
          refine .inl ⟨by rw [parse, if_pos rfl], ?_⟩
          rw [flatMap_nil, append_nil, scanPattern, htype]
        | cons d text =>
          rw [flatMap_cons, length_append] at hn hlen
          rw [flatMap_cons, determineCharType_escape, parse, if_pos rfl]
          by_cases hspecial : d = c ∨ d = cs.underscore ∨ d = cs.percent
          · have hroom : ((cs.encode d).length : Int) + (text.flatMap cs.encode).length ≤ len := by
              push_cast at hlen
              omega
            obtain ⟨len', hlen', hstep⟩ := scanPattern_slot (.lit d) hroom headers h
            rw [if_pos hspecial, if_pos hspecial, hstep]
            exact (ih (hes.slot (.lit d)) (by omega) hlen').cons
          · rw [if_neg hspecial, if_neg hspecial]
            exact .inl ⟨rfl, rfl⟩
      · rw [parse_plain hescape, determineCharType_plain (Ne.symm hescape), plain]
        have hroom : ((cs.encode c).length : Int) + (text.flatMap cs.encode).length ≤ len := by
          push_cast at hlen
          exact hlen
        by_cases hunderscore : c = cs.underscore
        · subst hunderscore
          obtain ⟨len', hlen', hstep⟩ := scanPattern_slot .one hroom headers h
          rw [if_pos rfl, if_pos rfl, hstep]
          exact (ih (hes.slot .one) (by omega) hlen').cons
        · rw [if_neg hunderscore, if_neg hunderscore]
          by_cases hpercent : c = cs.percent
          · subst hpercent
            obtain ⟨headers', h', hes', hstep⟩ := scanPattern_percent hes (text.flatMap cs.encode) n len
            rw [if_pos rfl, if_pos rfl, hstep]
            exact (ih hes' (by omega) (by omega)).cons
          · obtain ⟨len', hlen', hstep⟩ := scanPattern_slot (.lit c) hroom headers h
            rw [if_neg hpercent, if_neg hpercent, hstep]
            exact (ih (hes.slot (.lit c)) (by omega) hlen').cons

end

end litestore
