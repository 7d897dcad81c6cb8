-- The datetime parser of the SQL engine takes a text for what it says, where the
-- text says a datetime at all.
import LiteStore.TextNumbers

namespace litestore

open List

namespace ExpDatetime

/-! ## Fields -/

variable {field f g k : DatetimeField} {value : Nat} {src rest more : List Char} {x d : Char}
  {t t' : Datetime}

theorem scanField_first (h : scanField field none src = some (value, rest)) (more : List Char) :
    readGroup (maxLens field) (src ++ more) = some (value, rest ++ more) ∧
      value ≤ maxValue field := by
  simp only [scanField, Option.bind_eq_bind, Option.bind_some, Option.bind_eq_some_iff,
    Prod.exists, scanDigits, Option.ite_none_left_eq_some, Option.some.injEq, Prod.mk.injEq] at h
  obtain ⟨ds, rest', ⟨hmax, rfl, rfl⟩, hmin, h⟩ := h
  rw [Option.ite_none_right_eq_some, Option.some.injEq, Prod.mk.injEq] at h
  obtain ⟨hrange, rfl, rfl⟩ := h
  have hlen : (src.takeWhile Char.isDigit).length = maxLens field := by omega
  have hsrc : src ++ more =
      src.takeWhile Char.isDigit ++ (src.dropWhile Char.isDigit ++ more) := by
    rw [← append_assoc, takeWhile_append_dropWhile]
  refine ⟨?_, hrange.2⟩
  unfold readGroup
  rw [hsrc, take_left' hlen, drop_left' hlen, if_pos ⟨by simp [hlen], all_takeWhile⟩]

theorem scanField_next (h : scanField field (some x) src = some (value, rest)) :
    ∃ c src', c ∈ delimiters x ∧ src = c :: src' ∧
      scanField field none src' = some (value, rest) := by
  obtain ⟨src', hsrc, h⟩ := Option.bind_eq_some_iff.mp h
  cases src with
  | nil =>
    obtain rfl := Option.some.inj hsrc
    have hscan : scanField field none [] = some (value, rest) := h
    have hgroup := (scanField_first hscan []).1
    cases field <;> simp [readGroup, maxLens] at hgroup
  | cons c src =>
    obtain ⟨hc, hsrc⟩ := Option.ite_none_right_eq_some.mp hsrc
    obtain rfl := Option.some.inj hsrc
    exact ⟨c, src, hc, rfl, h⟩

/-- Three fields, the last two with the same mark in front of them. -/
theorem readThree_of_scan {u : Nat} {src' : List Char} (hd : delimiters d = [d])
    (hfirst : scanField f none src = some (u, src'))
    (h : scanFields true [(g, d), (k, d)] t src' = some (t', rest)) (more : List Char) :
    ∃ v w, readThree d (maxLens f) (maxLens g) (maxLens k) (src ++ more) =
        some ((u, v, w), rest ++ more) ∧ t' = setField (setField t v g) w k ∧
      u ≤ maxValue f ∧ v ≤ maxValue g ∧ w ≤ maxValue k := by
  obtain ⟨⟨v, src₁⟩, hg, h⟩ := Option.bind_eq_some_iff.mp h
  obtain ⟨⟨w, src₂⟩, hk, h⟩ := Option.bind_eq_some_iff.mp h
  obtain ⟨rfl, rfl⟩ := Prod.mk.inj (Option.some.inj h)
  obtain ⟨c, text, hc, rfl, hg'⟩ := scanField_next hg
  obtain ⟨c', text', hc', rfl, hk'⟩ := scanField_next hk
  rw [hd, mem_singleton] at hc hc'
  obtain ⟨hu, hu'⟩ := scanField_first hfirst more
  obtain ⟨hv, hv'⟩ := scanField_first hg' more
  obtain ⟨hw, hw'⟩ := scanField_first hk' more
  refine ⟨v, w, ?_, rfl, hu', hv', hw'⟩
  simp [readThree, readMark, hu, hv, hw, hc, hc']

/-- A text does not read in two ways. -/
theorem readThree_other {m m' : Char} {a b c a' b' c' : Nat} {text : List Char}
    {r : (Nat × Nat × Nat) × List Char} (h : readThree m a b c text = some r)
    (hother : a < a' ∧ m.isDigit = false ∨ a = a' ∧ m ≠ m') :
    readThree m' a' b' c' text = none := by
  obtain ⟨⟨x, text₁⟩, hgroup, h⟩ := Option.bind_eq_some_iff.mp h
  obtain ⟨text₂, hmark, -⟩ := Option.bind_eq_some_iff.mp h
  obtain ⟨-, hx⟩ := Option.ite_none_right_eq_some.mp hgroup
  obtain ⟨-, rfl⟩ := Prod.mk.inj (Option.some.inj hx)
  cases hdrop : text.drop a with
  | nil =>
    rw [hdrop] at hmark
    cases hmark
  | cons e rest =>
    rw [hdrop] at hmark
    obtain ⟨rfl, -⟩ := Option.ite_none_right_eq_some.mp hmark
    rcases hother with ⟨hlt, hdigit⟩ | ⟨rfl, hne⟩
    · have hget : text[a]? = some e := by
        rw [← head?_drop, hdrop]
        rfl
      have hmem : e ∈ text.take a' := mem_of_getElem? ((getElem?_take_of_lt hlt).trans hget)
      have hnone : readGroup a' text = none := if_neg fun hall => by
        rw [all_eq_true.mp hall.2 e hmem] at hdigit
        cases hdigit
      simp [readThree, hnone]
    · simp [readThree, hgroup, hdrop, readMark, hne]


/-- The date is read alike in each format. -/
theorem readDate_of_scan {format : DatetimeFormat}
    (h : scanFields false (format.fields.take 3) t src = some (t', rest)) (more : List Char) :
    readDate (src ++ more) = some (t'.toDate, rest ++ more) ∧
      t' = ⟨t'.toDate, t.hour, t.minute, t.second, t.fraction⟩ := by
  cases format
  all_goals
    obtain ⟨⟨u, src'⟩, hfirst, h⟩ := Option.bind_eq_some_iff.mp h
    obtain ⟨v, w, hread, rfl, -⟩ := readThree_of_scan rfl hfirst h more
    refine ⟨?_, rfl⟩
  · have hread : readThree '-' 4 2 2 (src ++ more) = some ((u, v, w), rest ++ more) := hread
    rw [readDate, hread]
    rfl
  · have hread : readThree '/' 2 2 4 (src ++ more) = some ((u, v, w), rest ++ more) := hread
    rw [readDate, readThree_other hread (.inl ⟨by decide, rfl⟩), hread]
    rfl
  · have hread : readThree '.' 2 2 4 (src ++ more) = some ((u, v, w), rest ++ more) := hread
    rw [readDate, readThree_other hread (.inl ⟨by decide, rfl⟩),
      readThree_other hread (.inr ⟨rfl, (by decide : '.' ≠ '/')⟩), hread]
    rfl

/-- The time of a day is read alike in each format, behind its hour. -/
theorem readTime_of_scan {date : Date} {u : Nat} {src' : List Char} (hd : d = ':' ∨ d = '.')
    (hfirst : scanField .hour none src = some (u, src'))
    (h : scanFields true [(.minute, d), (.second, d)] ⟨date, u, 0, 0, 0⟩ src' = some (t', rest))
    (more : List Char) :
    readTime (src ++ more) = some ((t'.hour, t'.minute, t'.second), rest ++ more) ∧
      t' = ⟨date, t'.hour, t'.minute, t'.second, 0⟩ ∧
      t'.hour ≤ 23 ∧ t'.minute ≤ 59 ∧ t'.second ≤ 59 := by
  rcases hd with rfl | rfl
  all_goals
    obtain ⟨v, w, hread, rfl, hu, hv, hw⟩ := readThree_of_scan rfl hfirst h more
    refine ⟨?_, rfl, hu, hv, hw⟩
  · have hread : readThree ':' 2 2 2 (src ++ more) = some ((u, v, w), rest ++ more) := hread
    rw [readTime, hread]
    rfl
  · have hread : readThree '.' 2 2 2 (src ++ more) = some ((u, v, w), rest ++ more) := hread
    rw [readTime, readThree_other hread (.inr ⟨rfl, (by decide : '.' ≠ ':')⟩), hread]
    rfl

/-- The time of a day in the order of a format. Behind a date a mark stands in front of it. -/
theorem time_of_scan {format : DatetimeFormat} {need : Bool} {date : Date}
    (h : scanFields need (format.fields.drop 3) ⟨date, 0, 0, 0, 0⟩ src = some (t', rest))
    (more : List Char) :
    ∃ text, (if need then readSeparator (src ++ more) else some (src ++ more)) = some text ∧
      readTime text = some ((t'.hour, t'.minute, t'.second), rest ++ more) ∧
      t' = ⟨date, t'.hour, t'.minute, t'.second, 0⟩ ∧
      t'.hour ≤ 23 ∧ t'.minute ≤ 59 ∧ t'.second ≤ 59 := by
  cases format
  all_goals
    obtain ⟨⟨u, src'⟩, hfirst, htime⟩ := Option.bind_eq_some_iff.mp h
    cases need with
    | false => exact ⟨src ++ more, rfl, readTime_of_scan (by decide) hfirst htime more⟩
    | true =>
      obtain ⟨c, text, hc, rfl, hfirst'⟩ := scanField_next hfirst
      refine ⟨text ++ more, ?_, readTime_of_scan (by decide) hfirst' htime more⟩
      simp only [delimiters, mem_cons, not_mem_nil, or_false] at hc
      rw [if_pos rfl]
      exact if_pos (by simp; tauto)

/-- What may stand behind the seconds and their fraction. -/
def Ends (more : List Char) : Prop := ∀ c ∈ more.head?, c ≠ '.' ∧ c.isDigit = false

theorem leadingDigits_lt {s : List Char} (h : s.all Char.isDigit = true) :
    leadingDigits s < 10 ^ s.length := by
  have hlt := digits.value_lt (digits_lt h)
  rw [length_map, digits.value, foldl_map] at hlt
  unfold leadingDigits
  rwa [takeWhile_eq_self_iff.mpr (all_eq_true.mp h)]

theorem readFraction_of_scan {fraction scale : Nat} (hends : Ends more)
    (h : scanFraction src = some ((fraction, scale), [])) :
    ∃ f, readFraction (src ++ more) = (f, more) ∧ f.length = scale ∧ scale ≤ 9 ∧
      leadingDigits f < 10 ^ scale ∧ fraction = leadingDigits f * 10 ^ (9 - scale) := by
  obtain ⟨src', hsrc, h⟩ := Option.bind_eq_some_iff.mp h
  simp only [scanDigits, Option.bind_eq_bind, Option.bind_eq_some_iff, Prod.exists,
    Option.ite_none_left_eq_some, Option.some.injEq, Prod.mk.injEq, not_lt] at h
  obtain ⟨ds, rest, ⟨hle, rfl, rfl⟩, ⟨rfl, rfl⟩, hrest⟩ := h
  refine ⟨_, ?_, rfl, hle, leadingDigits_lt all_takeWhile, rfl⟩
  have hall : src'.takeWhile Char.isDigit = src' := by
    have := takeWhile_append_dropWhile (p := Char.isDigit) (l := src')
    rwa [hrest, append_nil] at this
  cases src with
  | nil =>
    obtain rfl := Option.some.inj hsrc
    cases more with
    | nil => rfl
    | cons c more =>
      show readFraction (c :: more) = _
      unfold readFraction
      split
      · rename_i h
        exact absurd (cons.inj h).1 (hends c rfl).1
      · rfl
  | cons c src =>
    obtain ⟨hc, hsrc⟩ := Option.ite_none_right_eq_some.mp hsrc
    obtain rfl := Option.some.inj hsrc
    obtain rfl : c = '.' := mem_singleton.mp hc
    have hmore : more.takeWhile Char.isDigit = [] ∧ more.dropWhile Char.isDigit = more := by
      cases more with
      | nil => exact ⟨rfl, rfl⟩
      | cons c more => simp [(hends c rfl).2]
    have hdigits : ∀ c ∈ src, c.isDigit = true := takeWhile_eq_self_iff.mp hall
    show ((src ++ more).takeWhile _, (src ++ more).dropWhile _) = _
    rw [takeWhile_append_of_pos hdigits, dropWhile_append_of_pos hdigits, hmore.1, hmore.2,
      append_nil, hall]


/-! ## Whole texts -/

theorem valid_of_validateDate (h : validateDate t.toDate = true)
    (hclock : t.hour ≤ 23 ∧ t.minute ≤ 59 ∧ t.second ≤ 59) : t.Valid := by
  simp only [validateDate, Bool.and_eq_true, decide_eq_true_eq, Bool.not_eq_true',
    Bool.and_eq_false_iff, decide_eq_false_iff_not, Bool.or_eq_false_iff] at h
  obtain ⟨⟨⟨⟨⟨⟨hyear, hyear'⟩, hmonth⟩, hmonth'⟩, hday⟩, hdays⟩, hleap⟩ := h
  refine ⟨⟨hmonth, hmonth'⟩, ⟨hday, ?_⟩, ⟨hyear, hyear'⟩, hclock⟩
  unfold monthDays
  generalize t.month = month at hmonth hmonth' hdays hleap ⊢
  by_cases h : Leap t.year
  · simp only [h, if_true]
    interval_cases month <;> simpa [daysInMonth] using hdays
  · simp only [h, if_false]
    unfold Leap at h
    interval_cases month <;> simp [daysInMonth] at hdays hleap ⊢ <;> omega

variable {format : DatetimeFormat} {startField endField : DatetimeField} {scale : Nat}
  {half : Option Bool}

/-- The letters of the half of the day. -/
def HalfLetters (pm : Bool) (half m : Char) : Prop :=
  (half, m) ∈ if pm then [('P', 'M'), ('P', 'm'), ('p', 'M'), ('p', 'm')]
    else [('A', 'M'), ('A', 'm'), ('a', 'M'), ('a', 'm')]

/-- What stands at the end of a text, apart from an offset. -/
inductive Suffix : Option Bool → Bool → List Char → Prop
  | none : Suffix none false []
  | utc : Suffix Option.none true ['Z']
  | half {pm : Bool} {half m : Char} (h : HalfLetters pm half m) :
      Suffix (some pm) false [' ', half, m]

theorem splitHalf_cases (src : List Char) : splitHalf src = (none, src) ∨
    ∃ pm b half m, splitHalf src = (some pm, b) ∧ src = b ++ [' ', half, m] ∧
      HalfLetters pm half m := by
  unfold splitHalf
  split
  · rename_i m half rest hsrc
    have hsrc' : src = rest.reverse ++ [' ', half, m] := by
      rw [← reverse_reverse src, hsrc]
      simp
    split_ifs with ham hpm
    · refine .inr ⟨false, _, half, m, rfl, hsrc', ?_⟩
      rcases ham with ⟨rfl | rfl, rfl | rfl⟩ <;> simp [HalfLetters]
    · refine .inr ⟨true, _, half, m, rfl, hsrc', ?_⟩
      rcases hpm with ⟨rfl | rfl, rfl | rfl⟩ <;> simp [HalfLetters]
    · exact .inl rfl
  · exact .inl rfl

theorem split_suffix (text : List Char) :
    ∃ suffix, Suffix (halfOf text).1 (defZOf text).1 suffix ∧
      trimBlanks text = (defZOf text).2 ++ suffix := by
  unfold defZOf halfOf
  generalize trimBlanks text = src
  rcases splitHalf_cases src with hhalf | ⟨pm, b, half, m, hhalf, hsrc, hletters⟩
  · rw [hhalf]
    unfold splitZ
    split_ifs with hz
    · exact ⟨['Z'], .utc, (dropLast_append_getLast? _ hz.2).symm⟩
    · exact ⟨[], .none, by simp⟩
  · rw [hhalf]
    exact ⟨_, .half hletters, hsrc⟩

theorem tzd_cases (text : List Char) : (tzdOf text).1 = none ∧ (tzdOf text).2 = (defZOf text).2 ∨
    (tzdOf text).1.isSome ∧ ∃ sign rest, (defZOf text).2 = (tzdOf text).2 ++ sign :: rest ∧
      (sign = '+' ∨ sign = '-') := by
  unfold tzdOf splitTzd
  generalize (defZOf text).2 = src
  split
  · rename_i sign h h' m m' hdrop
    split_ifs with hsign
    · refine .inr ⟨rfl, sign, [h, h', ':', m, m'], ?_, hsign.2⟩
      rw [← hdrop, take_append_drop]
    · exact .inl ⟨rfl, rfl⟩
  · exact .inl ⟨rfl, rfl⟩


/-- The half of the day and `Z` are read as they are meant. -/
theorem Suffix.readEnd_eq {z : Bool} {suffix : List Char} (h : Suffix half z suffix)
    (hhour : t.hour ≤ 23) (hadjust : adjustHalf format endField half t = some t') :
    readEnd t suffix = some t' ∧ t'.hour ≤ 23 ∧
      t' = { t with hour := t'.hour } ∧ (endField = .day → z = false → suffix = [] ∧ t' = t) := by
  cases h with
  | none =>
    obtain rfl := Option.some.inj hadjust
    exact ⟨rfl, hhour, rfl, fun _ _ => ⟨rfl, rfl⟩⟩
  | utc =>
    obtain rfl := Option.some.inj hadjust
    exact ⟨rfl, hhour, rfl, fun _ h => by cases h⟩
  | @half pm half m hletters =>
    cases format with
    | default => cases hadjust
    | european => cases hadjust
    | usa =>
      simp only [adjustHalf, Option.ite_none_left_eq_some, not_or, not_lt] at hadjust
      obtain ⟨⟨hday, h12⟩, hadjust⟩ := hadjust
      have hclock : t' = { t with hour := t.hour % 12 + if pm then 12 else 0 } := by
        obtain ⟨date, hour, minute, second, fraction⟩ := t
        dsimp only at h12 hadjust ⊢
        cases pm
        all_goals
          obtain rfl := Option.some.inj hadjust
          interval_cases hour <;> rfl
      obtain rfl := hclock
      refine ⟨?_, ?_, rfl, fun h => absurd h hday⟩
      · cases pm
        all_goals
          simp only [HalfLetters, Bool.false_eq_true, if_true, if_false, mem_cons, Prod.mk.injEq,
            not_mem_nil, or_false] at hletters
          rcases hletters with ⟨rfl, rfl⟩ | ⟨rfl, rfl⟩ | ⟨rfl, rfl⟩ | ⟨rfl, rfl⟩ <;>
            exact if_pos ⟨rfl, h12⟩
      · have := Nat.mod_lt t.hour (show 12 > 0 by decide)
        dsimp only
        split_ifs <;> omega


theorem scanFields_append {l l' : List (DatetimeField × Char)} {need : Bool}
    (h : l ≠ [] ∨ need = true) : scanFields need (l ++ l') t src =
      (scanFields need l t src).bind fun r => scanFields true l' r.1 r.2 := by
  induction l generalizing need t src with
  | nil =>
    obtain rfl := h.resolve_left fun hne => hne rfl
    rfl
  | cons entry l ih =>
    obtain ⟨field, delim⟩ := entry
    simp only [cons_append, scanFields, Option.bind_eq_bind, Option.bind_assoc]
    congr 1
    funext r
    exact ih (.inr rfl)

/-- The fields that a column of a date, a time or a timestamp has. -/
def ColumnFields (startField endField : DatetimeField) : Prop :=
  (startField = .year ∧ endField = .day) ∨ (startField = .hour ∧ endField = .second) ∨
    (startField = .year ∧ endField = .second)

/-- The fraction at nine digits has no more of them than the text. -/
def FractionRead (t : Datetime) (scale : Nat) : Prop :=
  scale ≤ 9 ∧ ∃ v < 10 ^ scale, t.fraction = v * 10 ^ (9 - scale)

theorem readClock_of_scan {date : Date} {text : List Char} {fraction : Nat} (hends : Ends more)
    (htime : readTime text = some ((t.hour, t.minute, t.second), rest ++ more))
    (hdate : t = ⟨date, t.hour, t.minute, t.second, 0⟩)
    (hfraction : scanFraction rest = some ((fraction, scale), [])) :
    readClock date text = readEnd { t with fraction } more ∧
      FractionRead { t with fraction } scale := by
  obtain ⟨f, hread, hlength, hle, hlt, rfl⟩ := readFraction_of_scan hends hfraction
  refine ⟨?_, hle, _, hlt, rfl⟩
  unfold readClock
  simp only [htime, Option.bind_eq_bind, Option.bind_some, hread]
  rw [if_pos (by omega), hlength, hdate]

/-- What is scanned is what the text says, up to the marks at its end. -/
theorem datetimeText_of_scan (hfields : ColumnFields startField endField)
    (h : scanAll format startField endField src = some (t, scale)) {text : List Char}
    (hends : Ends more) (htext : trimBlanks text = src ++ more) :
    (t.hour ≤ 23 ∧ t.minute ≤ 59 ∧ t.second ≤ 59) ∧ FractionRead t scale ∧
      datetimeText startField endField text =
        (if endField = .day then if more.isEmpty then some t else none
          else readEnd t more).bind fun t => if t.Valid then some t else none := by
  obtain ⟨⟨t', rest⟩, hscan, h⟩ := Option.bind_eq_some_iff.mp h
  obtain ⟨⟨⟨fraction, scale'⟩, rest'⟩, hfraction, h⟩ := Option.bind_eq_some_iff.mp h
  simp only [Option.ite_none_right_eq_some, List.isEmpty_iff, Option.some.injEq,
    Prod.mk.injEq] at h
  obtain ⟨rfl, rfl, rfl⟩ := h
  unfold datetimeText
  rw [htext]
  rcases hfields with ⟨rfl, rfl⟩ | ⟨rfl, rfl⟩ | ⟨rfl, rfl⟩
  · have hlist : format.fields.filter (containsField .year .day ·.1) = format.fields.take 3 := by
      cases format <;> rfl
    rw [hlist] at hscan
    obtain ⟨hread, hother⟩ := readDate_of_scan hscan more
    simp only [reduceCtorEq, if_false, Option.some.injEq, Prod.mk.injEq] at hfraction
    obtain ⟨⟨rfl, rfl⟩, rfl⟩ := hfraction
    rw [hother]
    refine ⟨by simp, ⟨by simp, 0, by simp⟩, ?_⟩
    simp only [hread, reduceCtorEq, if_false, if_true, Option.bind_some, nil_append]
  · have hlist : format.fields.filter (containsField .hour .second ·.1) = format.fields.drop 3 := by
      cases format <;> rfl
    rw [hlist] at hscan
    obtain ⟨body, hbody, htime, ht, hclock⟩ := time_of_scan hscan more
    obtain rfl : src ++ more = body := Option.some.inj hbody
    obtain ⟨hread, hfraction⟩ := readClock_of_scan hends htime ht hfraction
    refine ⟨hclock, hfraction, ?_⟩
    simp only [if_true, hread, reduceCtorEq, if_false]
  · have hlist : format.fields.filter (containsField .year .second ·.1) =
        format.fields.take 3 ++ format.fields.drop 3 := by
      cases format <;> rfl
    rw [hlist, scanFields_append (.inl (by cases format <;> simp [DatetimeFormat.fields]))] at hscan
    obtain ⟨⟨d, src'⟩, hscan, htime⟩ := Option.bind_eq_some_iff.mp hscan
    obtain ⟨hread, hother⟩ := readDate_of_scan hscan more
    rw [hother] at htime
    obtain ⟨body, hbody, htime, ht, hclock⟩ := time_of_scan htime more
    rw [if_pos rfl] at hbody
    obtain ⟨hreadClock, hfraction⟩ := readClock_of_scan hends htime ht hfraction
    refine ⟨hclock, hfraction, ?_⟩
    simp only [hread, hbody, hreadClock, reduceCtorEq, if_false, Option.bind_some]

theorem Suffix.ends {z : Bool} {suffix : List Char} (h : Suffix half z suffix) : Ends suffix := by
  cases h <;> simp [Ends]

theorem adjustHalf_fraction (h : adjustHalf format endField half t = some t') :
    t'.fraction = t.fraction := by
  unfold adjustHalf at h
  split at h
  · rw [Option.some.inj h]
  · split_ifs at h <;> rw [← Option.some.inj h]
  · cases h

theorem interpretTimestamp_fraction (jts : Int) :
    (interpretTimestamp jts t).fraction = t.fraction := by
  unfold interpretTimestamp
  split_ifs <;> rfl

theorem adjustTzd_fraction {tzd : Option (Bool × Int × Int)} (h : adjustTzd tzd t = some t') :
    t'.fraction = t.fraction := by
  cases tzd with
  | none => rw [Option.some.inj h]
  | some tzd =>
    obtain ⟨jts, -, rfl⟩ := Option.map_eq_some_iff.mp h
    exact interpretTimestamp_fraction _

theorem readEnd_sign {sign : Char} {rest : List Char} (h : sign = '+' ∨ sign = '-') :
    readEnd t (sign :: rest) = none := by
  rcases h with rfl | rfl <;> simp [readEnd]

/-- The parser takes a text for what it says, and an offset from UTC for more than that: a column
without a zone has no value for it. -/
theorem convAsciiToDatetime_spec (hfields : ColumnFields startField endField) {text : List Char}
    (h : convAsciiToDatetime text startField endField = some (t, scale)) :
    FractionRead t scale ∧ datetimeText startField endField text =
      if (tzdOf text).1.isSome then none else some t := by
  obtain ⟨format, -, h⟩ := Option.bind_eq_some_iff.mp h
  obtain ⟨hday, h⟩ := Option.ite_none_left_eq_some.mp h
  obtain ⟨⟨t₁, scale₁⟩, hscan, h⟩ := Option.bind_eq_some_iff.mp h
  obtain ⟨t₂, hhalf, h⟩ := Option.bind_eq_some_iff.mp h
  obtain ⟨hvalid, h⟩ := Option.ite_none_right_eq_some.mp h
  obtain ⟨t₃, htzd, h⟩ := Option.map_eq_some_iff.mp h
  obtain ⟨rfl, rfl⟩ := Prod.mk.inj h
  obtain ⟨suffix, hsuffix, htext⟩ := split_suffix text
  simp only [Bool.and_eq_true, Bool.or_eq_true, decide_eq_true_eq, not_and] at hday
  have hfraction : t₃.fraction = t₁.fraction :=
    (adjustTzd_fraction htzd).trans (adjustHalf_fraction hhalf)
  unfold FractionRead
  rw [hfraction]
  rcases tzd_cases text with ⟨htz, hsrc⟩ | ⟨htz, sign, rest, hsrc, hsign⟩
  · rw [← hsrc] at htext
    obtain ⟨hclock, hread, htext⟩ := datetimeText_of_scan hfields hscan hsuffix.ends htext
    obtain ⟨hend, hhour, ht, hempty⟩ := hsuffix.readEnd_eq hclock.1 hhalf
    rw [htz] at htzd
    obtain rfl := Option.some.inj htzd
    have hvalid : t₂.Valid := valid_of_validateDate hvalid (by rw [ht]; exact ⟨hhour, hclock.2⟩)
    refine ⟨hread, ?_⟩
    rw [htext, htz]
    by_cases hdate : endField = .day
    · have hz : (defZOf text).1 = false := by
        simpa [hdate] using fun hz => hday (.inl hz)
      obtain ⟨rfl, rfl⟩ := hempty hdate hz
      rw [if_pos hdate]
      exact if_pos hvalid
    · rw [if_neg hdate, hend]
      exact if_pos hvalid
  · rw [hsrc, append_assoc, cons_append] at htext
    have hends : Ends (sign :: (rest ++ suffix)) := by
      rcases hsign with rfl | rfl <;> simp [Ends]
    obtain ⟨-, hread, htext⟩ := datetimeText_of_scan hfields hscan hends htext
    refine ⟨hread, ?_⟩
    rw [htext, if_neg (hday (.inr htz)), readEnd_sign hsign, if_pos htz]
    rfl

end ExpDatetime

end litestore
