-- Texts of SQL: a lexer for words, literals, delimited names and comments that
-- reads one byte at a time, and texts with holes that values are put into. The
-- main result says when the tokens around the holes do not depend on the values.
import Mathlib

namespace sqltext

open List

/-! ## The lexer -/

/-- Tokens. What the text ends in the middle of is a token of its own. -/
inductive Token
  | word (text : List UInt8)
  | literal (text : List UInt8)
  | name (text : List UInt8)
  | symbol (c : UInt8)
  | marker
  | openLiteral (text : List UInt8)
  | openName (text : List UInt8)
  | openComment
deriving DecidableEq, Repr

/-- What the lexer is in the middle of. In `literalQuote` and `nameQuote` it has read a quote
that ends the text or is the first half of a doubled quote. -/
inductive LexState
  | plain
  | word (text : List UInt8)
  | dash
  | slash
  | literal (text : List UInt8)
  | literalQuote (text : List UInt8)
  | name (text : List UInt8)
  | nameQuote (text : List UInt8)
  | lineComment
  | blockComment
  | blockStar
deriving DecidableEq

def isSpace (c : UInt8) : Bool := c == 32 || (9 ≤ c && c ≤ 13)

/-- Letters, digits, the underscore and the bytes of letters that are not ASCII. -/
def isWordByte (c : UInt8) : Bool :=
  (48 ≤ c && c ≤ 57) || (65 ≤ c && c ≤ 90) || c == 95 || (97 ≤ c && c ≤ 122) || 128 ≤ c

/-- A byte that begins something new. -/
def begins (c : UInt8) : List Token × LexState :=
  if isSpace c then ([], .plain)
  else if c = 39 then ([], .literal [])
  else if c = 34 then ([], .name [])
  else if c = 45 then ([], .dash)
  else if c = 47 then ([], .slash)
  else if c = 63 then ([.marker], .plain)
  else if isWordByte c then ([], .word [c])
  else ([.symbol c], .plain)

namespace LexState

/-- The token that ends with the state. -/
def pending : LexState → List Token
  | plain => []
  | word text => [.word text]
  | dash => [.symbol 45]
  | slash => [.symbol 47]
  | literal text => [.openLiteral text]
  | literalQuote text => [.literal text]
  | name text => [.openName text]
  | nameQuote text => [.name text]
  | lineComment => []
  | blockComment => [.openComment]
  | blockStar => [.openComment]

/-- The state behind a byte that belongs to what the lexer is in the middle of. -/
def goesOn : LexState → UInt8 → Option LexState
  | plain, _ => none
  | word text, c => if isWordByte c then some (word (text ++ [c])) else none
  | dash, c => if c = 45 then some lineComment else none
  | slash, c => if c = 42 then some blockComment else none
  | literal text, c => some (if c = 39 then literalQuote text else literal (text ++ [c]))
  | literalQuote text, c => if c = 39 then some (literal (text ++ [39])) else none
  | name text, c => some (if c = 34 then nameQuote text else name (text ++ [c]))
  | nameQuote text, c => if c = 34 then some (name (text ++ [34])) else none
  | lineComment, c => some (if c = 10 then plain else lineComment)
  | blockComment, c => some (if c = 42 then blockStar else blockComment)
  | blockStar, c => some (if c = 47 then plain else if c = 42 then blockStar else blockComment)

/-- The tokens that end at a byte, and the state behind it. -/
def step (s : LexState) (c : UInt8) : List Token × LexState :=
  match s.goesOn c with
  | some s' => ([], s')
  | none => (s.pending ++ (begins c).1, (begins c).2)

/-- The text that the lexer is in the middle of. -/
def text : LexState → Option (List UInt8)
  | word text | literal text | literalQuote text | name text | nameQuote text => some text
  | _ => none

/-- Outside literals, names and comments, and not behind a word or a literal. -/
def free : LexState → Bool
  | plain | dash | slash | nameQuote _ => true
  | _ => false

end LexState

def Token.text : Token → List UInt8
  | word text | literal text | name text | openLiteral text | openName text => text
  | _ => []

/-- The tokens of a text from a state on. -/
def lex : LexState → List UInt8 → List Token
  | s, [] => s.pending
  | s, c :: x => (s.step c).1 ++ lex (s.step c).2 x

def tokens (x : List UInt8) : List Token := lex .plain x

/-- The tokens that end inside a text, and the state at its end. -/
def scan : LexState → List UInt8 → List Token × LexState
  | s, [] => ([], s)
  | s, c :: x => ((s.step c).1 ++ (scan (s.step c).2 x).1, (scan (s.step c).2 x).2)

variable {s s' : LexState} {c : UInt8} {x y p q t : List UInt8} {rest : List (List UInt8)}

theorem lex_append (s : LexState) (x y : List UInt8) :
    lex s (x ++ y) = (scan s x).1 ++ lex (scan s x).2 y := by
  induction x generalizing s with
  | nil => rfl
  | cons c x ih =>
    simp only [cons_append, lex, scan, ih, append_assoc]

theorem step_of_none (h : s.goesOn c = none) :
    s.step c = (s.pending ++ (begins c).1, (begins c).2) := by
  simp [LexState.step, h]

theorem lex_goesOn (h : s.goesOn c = some s') (x : List UInt8) : lex s (c :: x) = lex s' x := by
  simp [lex, LexState.step, h]

/-- What cannot go on ends here, and the lexer starts anew. -/
theorem lex_leaves (h : ∀ c ∈ x.head?, s.goesOn c = none) : lex s x = s.pending ++ lex .plain x := by
  cases x with
  | nil => simp [lex, LexState.pending]
  | cons c x =>
    have hs : s.goesOn c = none := h c (by simp)
    have hplain : LexState.plain.step c = begins c := rfl
    simp [lex, hplain, step_of_none hs]

theorem marker_not_mem_pending (s : LexState) : Token.marker ∉ s.pending := by
  cases s <;> simp [LexState.pending]

theorem lex_eq_scan (s : LexState) (x : List UInt8) :
    lex s x = (scan s x).1 ++ (scan s x).2.pending := by
  have h := lex_append s x []
  rwa [append_nil] at h

theorem goesOn_text (h : s.text = some t) (hgo : s.goesOn c = some s') :
    ∃ u, s'.text = some (t ++ u) := by
  cases s <;> simp only [LexState.text, Option.some.injEq, reduceCtorEq] at h <;> subst h <;>
    simp only [LexState.goesOn, Option.ite_none_right_eq_some, Option.some.injEq] at hgo
  · obtain ⟨-, rfl⟩ := hgo
    exact ⟨[c], rfl⟩
  · subst hgo
    split
    · exact ⟨[], by simp [LexState.text]⟩
    · exact ⟨[c], rfl⟩
  · obtain ⟨-, rfl⟩ := hgo
    exact ⟨[39], rfl⟩
  · subst hgo
    split
    · exact ⟨[], by simp [LexState.text]⟩
    · exact ⟨[c], rfl⟩
  · obtain ⟨-, rfl⟩ := hgo
    exact ⟨[34], rfl⟩

theorem pending_text (h : s.text = some t) : ∃ tok, s.pending = [tok] ∧ tok.text = t := by
  cases s <;> simp only [LexState.text, Option.some.injEq, reduceCtorEq] at h <;> subst h <;>
    exact ⟨_, rfl, rfl⟩

/-- The text that was read so far stands at the front of the next token. -/
theorem lex_text (h : s.text = some t) (x : List UInt8) :
    ∃ tok r u, lex s x = tok :: r ∧ tok.text = t ++ u := by
  induction x generalizing s t with
  | nil =>
    obtain ⟨tok, hpending, htext⟩ := pending_text h
    exact ⟨tok, [], [], hpending, by simp [htext]⟩
  | cons c x ih =>
    cases hgo : s.goesOn c with
    | none =>
      obtain ⟨tok, hpending, htext⟩ := pending_text h
      refine ⟨tok, lex .plain (c :: x), [], ?_, by simp [htext]⟩
      rw [lex_leaves (by simp [hgo]), hpending]
      rfl
    | some s' =>
      obtain ⟨u, hu⟩ := goesOn_text h hgo
      obtain ⟨tok, r, u', hlex, htext⟩ := ih hu
      exact ⟨tok, r, u ++ u', by rw [lex_goesOn hgo, hlex], by rw [htext, append_assoc]⟩

open LexState

/-! ## Values -/

def doubled (v : List UInt8) : List UInt8 := v.flatMap fun c => if c = 39 then [39, 39] else [c]

/-- A value as it stands in the text: a literal with its quotes doubled, or `NULL`. -/
def valueText : Option (List UInt8) → List UInt8
  | none => [78, 85, 76, 76]
  | some v => 39 :: (doubled v ++ [39])

/-- The one token of a value. -/
def valueToken : Option (List UInt8) → Token
  | none => .word [78, 85, 76, 76]
  | some v => .literal v

/-- What the lexer is in the middle of behind a value. -/
def valueState : Option (List UInt8) → LexState
  | none => .word [78, 85, 76, 76]
  | some v => .literalQuote v

theorem lex_doubled (t v x : List UInt8) :
    lex (.literal t) (doubled v ++ 39 :: x) = lex (.literalQuote (t ++ v)) x := by
  induction v generalizing t with
  | nil =>
    rw [append_nil]
    exact lex_goesOn (by simp [goesOn]) x
  | cons c v ih =>
    have hcons : doubled (c :: v) = (if c = 39 then [39, 39] else [c]) ++ doubled v := rfl
    have happend : t ++ c :: v = t ++ [c] ++ v := by simp
    rw [hcons, happend, ← ih]
    by_cases hc : c = 39
    · subst hc
      rw [if_pos rfl]
      show lex _ (39 :: 39 :: _) = _
      have hfirst : (literal t).goesOn 39 = some (.literalQuote t) := by
        simp [goesOn]
      have hsecond : (literalQuote t).goesOn 39 = some (.literal (t ++ [39])) := by
        simp [goesOn]
      rw [lex_goesOn hfirst, lex_goesOn hsecond]
      rfl
    · rw [if_neg hc]
      exact lex_goesOn (by simp [goesOn, hc]) _

/-- From a free state a value is read whole. -/
theorem lex_value (h : s.free) (v : Option (List UInt8)) (x : List UInt8) :
    lex s (valueText v ++ x) = s.pending ++ lex (valueState v) x := by
  cases v with
  | none =>
    have hgo : s.goesOn 78 = none := by
      cases s <;> simp_all [free, goesOn]
    rw [lex_leaves (by simp [valueText, hgo])]
    rfl
  | some v =>
    have hgo : s.goesOn 39 = none := by
      cases s <;> simp_all [free, goesOn]
    rw [lex_leaves (by simp [valueText, hgo])]
    have hopen : lex .plain (39 :: (doubled v ++ 39 :: x)) =
        lex (.literal []) (doubled v ++ 39 :: x) := rfl
    simp only [valueText, cons_append, append_assoc, nil_append, hopen, lex_doubled, valueState]

/-- A byte that does not go on from a value. -/
def Ends (c : UInt8) : Prop := c ≠ 39 ∧ isWordByte c = false

/-- A value is one token when nothing behind it goes on from it. -/
theorem lex_valueState (h : ∀ c ∈ x.head?, Ends c) (v : Option (List UInt8)) :
    lex (valueState v) x = valueToken v :: lex .plain x := by
  rw [lex_leaves]
  · cases v <;> rfl
  · intro c hc
    cases v with
    | none => simp [valueState, goesOn, (h c hc).2]
    | some v => simp [valueState, goesOn, (h c hc).1]

/-- The tokens with their markers replaced by values, one for each. -/
def fill : List Token → List (Option (List UInt8)) → Option (List Token)
  | [], vs => if vs = [] then some [] else none
  | t :: ts, vs =>
    if t = .marker then
      match vs with
      | [] => none
      | v :: vs => (fill ts vs).map (valueToken v :: ·)
    else (fill ts vs).map (t :: ·)

theorem fill_marker (ts : List Token) (v : Option (List UInt8)) (vs : List (Option (List UInt8))) :
    fill (.marker :: ts) (v :: vs) = (fill ts vs).map (valueToken v :: ·) := by
  simp [fill]

theorem fill_cons {t : Token} (h : t ≠ .marker) (ts : List Token)
    (vs : List (Option (List UInt8))) : fill (t :: ts) vs = (fill ts vs).map (t :: ·) := by
  simp [fill, h]

theorem fill_append {a : List Token} (h : Token.marker ∉ a) (b : List Token)
    (vs : List (Option (List UInt8))) : fill (a ++ b) vs = (fill b vs).map (a ++ ·) := by
  induction a with
  | nil => simp
  | cons t a ih =>
    rw [mem_cons, not_or] at h
    rw [cons_append, fill_cons (Ne.symm h.1), ih h.2, Option.map_map]
    rfl

variable {ts : List Token} {vs : List (Option (List UInt8))}

theorem marker_not_mem_fill {r : List Token} (h : fill ts vs = some r) : Token.marker ∉ r := by
  induction ts generalizing vs r with
  | nil =>
    unfold fill at h
    split at h
    · simp [← Option.some.inj h]
    · cases h
  | cons t ts ih =>
    unfold fill at h
    split at h
    · cases vs with
      | nil => cases h
      | cons v vs =>
        obtain ⟨r', hr', rfl⟩ := Option.map_eq_some_iff.mp h
        have hv : valueToken v ≠ .marker := by cases v <;> simp [valueToken]
        simp [ih hr', Ne.symm hv]
    · rename_i ht
      obtain ⟨r', hr', rfl⟩ := Option.map_eq_some_iff.mp h
      simp [ih hr', Ne.symm ht]

/-- A first token that is no marker stays. -/
theorem fill_head {tok tok' : Token} {r : List Token} (h : fill (tok :: ts) vs = some (tok' :: r))
    (hne : tok ≠ .marker) : tok' = tok := by
  rw [fill_cons hne] at h
  obtain ⟨r', -, heq⟩ := Option.map_eq_some_iff.mp h
  exact (List.cons.inj heq).1.symm

/-! ## Texts with holes -/

/-- The text of the pieces with a value in each hole. -/
def textOf : List UInt8 → List (List UInt8) → List (Option (List UInt8)) → List UInt8
  | p, [], _ => p
  | p, _ :: _, [] => p
  | p, q :: rest, v :: vs => p ++ (valueText v ++ textOf q rest vs)

/-- The text of the pieces with a marker in each hole. -/
def markedText : List UInt8 → List (List UInt8) → List UInt8
  | p, [] => p
  | p, q :: rest => p ++ 63 :: markedText q rest

/-- What stands behind a hole does not go on from the value in it. -/
def EndsAt (q : List UInt8) (rest : List (List UInt8)) : Prop :=
  match q with
  | [] => rest = []
  | c :: _ => Ends c

/-- The lexer meets a marker at each hole and nowhere else, and no hole touches a word, a
literal or another hole. -/
def Clear : LexState → List UInt8 → List (List UInt8) → Prop
  | s, p, [] => Token.marker ∉ (scan s p).1
  | s, p, q :: rest => Token.marker ∉ (scan s p).1 ∧ (scan s p).2.free ∧ EndsAt q rest ∧
      Clear .plain q rest

theorem lex_marker (h : s.goesOn 63 = none) (x : List UInt8) :
    lex s (63 :: x) = s.pending ++ .marker :: lex .plain x := by
  rw [lex_leaves (by simp [h])]
  rfl

theorem goesOn_marker_of_free (h : s.free) : s.goesOn 63 = none := by
  cases s <;> simp_all [free, goesOn]

theorem textOf_head (h : EndsAt q rest) : ∀ c ∈ (textOf q rest vs).head?, Ends c := by
  intro c hc
  cases q with
  | nil =>
    have hrest : rest = [] := h
    subst hrest
    simp [textOf] at hc
  | cons d q =>
    have hd : (textOf (d :: q) rest vs).head? = some d := by
      cases rest with
      | nil => rfl
      | cons q' rest =>
        cases vs with
        | nil => rfl
        | cons v vs => rfl
    rw [hd] at hc
    obtain rfl : d = c := by simpa using hc
    exact h

theorem fill_of_clear (h : Clear s p rest) (hlen : vs.length = rest.length) :
    fill (lex s (markedText p rest)) vs = some (lex s (textOf p rest vs)) := by
  induction rest generalizing s p vs with
  | nil =>
    obtain rfl := eq_nil_of_length_eq_zero hlen
    have hfill := fill_append (a := lex s p) (by
      rw [lex_eq_scan, mem_append, not_or]
      exact ⟨h, marker_not_mem_pending _⟩) [] []
    rw [append_nil] at hfill
    simpa [markedText, textOf, fill] using hfill
  | cons q rest ih =>
    obtain ⟨hno, hfree, hends, hclear⟩ := h
    obtain ⟨v, vs, rfl⟩ := exists_cons_of_length_eq_add_one hlen
    have hrest := ih hclear (Nat.succ.inj hlen)
    rw [markedText, textOf, lex_append, lex_append, lex_marker (goesOn_marker_of_free hfree),
      lex_value hfree, lex_valueState (textOf_head hends), fill_append hno,
      fill_append (marker_not_mem_pending _), fill_marker, hrest]
    rfl

/-- The tokens of the text are those of the pieces, whatever the values are. -/
def Safe (s : LexState) (p : List UInt8) (rest : List (List UInt8)) : Prop :=
  ∀ vs : List (Option (List UInt8)), vs.length = rest.length →
    fill (lex s (markedText p rest)) vs = some (lex s (textOf p rest vs))

theorem fill_cancel {a b c : List Token} (ha : Token.marker ∉ a)
    (h : fill (a ++ b) vs = some (a ++ c)) : fill b vs = some c := by
  rw [fill_append ha] at h
  obtain ⟨r, hr, heq⟩ := Option.map_eq_some_iff.mp h
  rw [hr, append_cancel_left heq]

theorem no_marker_of_safe (h : Safe s p rest) : Token.marker ∉ (scan s p).1 := by
  obtain ⟨x, hx⟩ : ∃ x, textOf p rest (replicate rest.length none) = p ++ x := by
    cases rest with
    | nil => exact ⟨[], by simp [textOf]⟩
    | cons q rest => exact ⟨_, rfl⟩
  have hfill := h (replicate rest.length none) (by simp)
  have hno := marker_not_mem_fill hfill
  rw [hx, lex_append, mem_append, not_or] at hno
  exact hno.1

/-- What follows the first piece, when the pieces are safe. -/
theorem safe_behind (h : Safe s p (q :: rest)) (v : Option (List UInt8))
    (hlen : vs.length = rest.length) :
    fill (lex (scan s p).2 (63 :: markedText q rest)) (v :: vs) =
      some (lex (scan s p).2 (valueText v ++ textOf q rest vs)) := by
  have hfill := h (v :: vs) (by simp [hlen])
  rw [markedText, textOf, lex_append, lex_append] at hfill
  exact fill_cancel (no_marker_of_safe h) hfill

/-- In a comment there are two values that end it with different tokens behind it. -/
theorem not_safe_of_breaks {v : UInt8 → List UInt8}
    (h : ∀ c, c = 97 ∨ c = 98 → ∃ r, fill ts (some (v c) :: vs) = some (.word [c] :: r)) :
    False := by
  obtain ⟨r, hr⟩ := h 97 (.inl rfl)
  obtain ⟨r', hr'⟩ := h 98 (.inr rfl)
  cases ts with
  | nil => simp [fill] at hr
  | cons t ts =>
    by_cases ht : t = .marker
    · subst ht
      rw [fill_marker] at hr
      obtain ⟨_, -, heq⟩ := Option.map_eq_some_iff.mp hr
      simp [valueToken] at heq
    · have hfirst := fill_head hr ht
      have hsecond := fill_head hr' ht
      rw [← hfirst] at hsecond
      simp at hsecond

/-- The token in front says where the text that the lexer is in the middle of ends. -/
theorem fill_ne_of_longer {tok : Token} (htok : tok ≠ .marker) (hs : s.text = some t)
    (hne : ∀ u, tok.text ≠ t ++ u) (x : List UInt8) : fill (tok :: ts) vs ≠ some (lex s x) := by
  intro h
  obtain ⟨tok', r, u, hlex, htext⟩ := lex_text hs x
  rw [hlex] at h
  have heq := fill_head h htok
  rw [heq] at htext
  exact hne u htext

/-- Behind a safe first piece the lexer is free. -/
theorem free_of_safe (h : Safe s p (q :: rest)) : (scan s p).2.free := by
  obtain ⟨vs, hlen⟩ : ∃ vs : List (Option (List UInt8)), vs.length = rest.length :=
    ⟨replicate rest.length none, by simp⟩
  have hbehind := fun v => safe_behind h v hlen
  generalize textOf q rest vs = y at hbehind
  generalize markedText q rest = m at hbehind
  have hcomment : ∀ v : UInt8 → List UInt8, (∀ c, c = 97 ∨ c = 98 →
      lex (scan s p).2 (valueText (some (v c)) ++ y) = .word [c] :: lex .plain (39 :: y)) →
      False := by
    intro v hv
    have hbreaks : ∀ c, c = 97 ∨ c = 98 → ∃ r,
        fill (lex (scan s p).2 (63 :: m)) (some (v c) :: vs) = some (.word [c] :: r) := by
      intro c hc
      exact ⟨_, (hbehind (some (v c))).trans (congrArg some (hv c hc))⟩
    exact not_safe_of_breaks hbreaks
  cases hs : (scan s p).2 with
  | plain => rfl
  | dash => rfl
  | slash => rfl
  | nameQuote w => rfl
  | word w =>
    -- `NULL` would go on from the word.
    have hnull : fill (.word w :: .marker :: lex .plain m) (none :: vs) =
        some (lex (.word (w ++ [78] ++ [85] ++ [76] ++ [76])) y) := by
      have hnull := hbehind none
      rw [hs, lex_marker rfl] at hnull
      exact hnull
    refine absurd hnull (fill_ne_of_longer (by simp) rfl (fun u => ?_) y)
    simp [Token.text]
  | literal w =>
    -- The quote of the value would end the literal in front of the marker.
    have hvalue := hbehind (some [97])
    rw [hs] at hvalue
    obtain ⟨tok, r, u, hlex, htext⟩ := lex_text (s := .literal (w ++ [63])) rfl m
    have hmarked : lex (.literal w) (63 :: m) = tok :: r := hlex
    have hends : lex (.literal w) (valueText (some [97]) ++ y) =
        .literal w :: lex .plain (97 :: 39 :: y) := rfl
    rw [hmarked, hends] at hvalue
    have htok : tok ≠ .marker := by
      rintro rfl
      simp [Token.text] at htext
    rw [← fill_head hvalue htok] at htext
    simp [Token.text] at htext
  | literalQuote w =>
    -- The quote of the value would be the second half of a doubled quote.
    have hvalue : fill (.literal w :: .marker :: lex .plain m) (some [] :: vs) =
        some (lex (.literal (w ++ [39])) (39 :: y)) := by
      have hvalue := hbehind (some [])
      rw [hs, lex_marker rfl] at hvalue
      exact hvalue
    refine absurd hvalue (fill_ne_of_longer (by simp) rfl (fun u => ?_) _)
    simp [Token.text]
  | name w =>
    have hvalue := hbehind (some [])
    rw [hs] at hvalue
    obtain ⟨tok, r, u, hlex, htext⟩ := lex_text (s := .name (w ++ [63])) rfl m
    have hmarked : lex (.name w) (63 :: m) = tok :: r := hlex
    rw [hmarked] at hvalue
    have htok : tok ≠ .marker := by
      rintro rfl
      simp [Token.text] at htext
    refine absurd hvalue (fill_ne_of_longer (s := .name (w ++ [39])) htok rfl (fun u' => ?_)
      (39 :: y))
    rw [htext, append_assoc, append_assoc]
    intro heq
    simpa using append_cancel_left heq
  | lineComment =>
    refine (hcomment (fun c => [10, c]) fun c hc => ?_).elim
    rw [hs]
    rcases hc with rfl | rfl
    · rfl
    · rfl
  | blockComment | blockStar =>
    refine (hcomment (fun c => [42, 47, c]) fun c hc => ?_).elim
    rw [hs]
    rcases hc with rfl | rfl
    · rfl
    · rfl

/-- What follows the hole, when the pieces are safe. -/
theorem safe_behind_hole (h : Safe s p (q :: rest)) (v : Option (List UInt8))
    (hlen : vs.length = rest.length) :
    (fill (lex .plain (markedText q rest)) vs).map (valueToken v :: ·) =
      some (lex (valueState v) (textOf q rest vs)) := by
  have hfree := free_of_safe h
  have hbehind := safe_behind h v hlen
  rw [lex_marker (goesOn_marker_of_free hfree), lex_value hfree] at hbehind
  have hcancel := fill_cancel (marker_not_mem_pending _) hbehind
  rwa [fill_marker] at hcancel

theorem endsAt_of_safe (h : Safe s p (q :: rest)) : EndsAt q rest := by
  have hlen : (replicate rest.length (some ([] : List UInt8))).length = rest.length := by simp
  have hbehind := fun v => safe_behind_hole h v hlen
  -- A byte that goes on from the value makes its token longer.
  have hlonger : ∀ {v : Option (List UInt8)} {c : UInt8} {t x : List UInt8} {s' : LexState},
      textOf q rest (replicate rest.length (some [])) = c :: x →
      (valueState v).goesOn c = some s' → s'.text = some t →
      (∀ u, (valueToken v).text ≠ t ++ u) → False := by
    intro v c t x s' htext hgo hs' hne
    have hfill := hbehind v
    rw [htext, lex_goesOn hgo] at hfill
    obtain ⟨tok, r, u, hlex, htok⟩ := lex_text hs' x
    rw [hlex] at hfill
    obtain ⟨_, -, heq⟩ := Option.map_eq_some_iff.mp hfill
    rw [← (List.cons.inj heq).1] at htok
    exact hne u htok
  cases q with
  | nil =>
    cases rest with
    | nil => rfl
    | cons q' rest =>
      exact (hlonger (v := some []) (c := 39) (t := [39]) rfl rfl rfl (by simp [valueToken,
        Token.text])).elim
  | cons c q =>
    obtain ⟨x, hx⟩ : ∃ x, textOf (c :: q) rest (replicate rest.length (some [])) = c :: x := by
      cases rest with
      | nil => exact ⟨q, rfl⟩
      | cons q' rest => exact ⟨_, rfl⟩
    constructor
    · rintro rfl
      exact hlonger (v := some []) (t := [39]) hx rfl rfl (by simp [valueToken, Token.text])
    · by_contra hword
      rw [Bool.not_eq_false] at hword
      have hgo : (valueState none).goesOn c = some (.word [78, 85, 76, 76, c]) := by
        simp [valueState, goesOn, hword]
      exact hlonger hx hgo rfl (by simp [valueToken, Token.text])

/-- The tokens do not depend on the values exactly when the holes are clear. -/
theorem safe_iff_clear : Safe s p rest ↔ Clear s p rest := by
  constructor
  · intro h
    induction rest generalizing s p with
    | nil => exact no_marker_of_safe h
    | cons q rest ih =>
      have hends := endsAt_of_safe h
      refine ⟨no_marker_of_safe h, free_of_safe h, hends, ih ?_⟩
      intro vs hlen
      have hbehind := safe_behind_hole h none hlen
      rw [lex_valueState (textOf_head hends)] at hbehind
      obtain ⟨r, hr, heq⟩ := Option.map_eq_some_iff.mp hbehind
      rw [hr, (List.cons.inj heq).2]
  · intro h vs hlen
    exact fill_of_clear h hlen

/-! ## Texts one behind the other -/

/-- The pieces of two texts, one behind the other: the last piece of the first goes on with the
first piece of the second. -/
def glue : List UInt8 → List (List UInt8) → List UInt8 → List (List UInt8) →
    List UInt8 × List (List UInt8)
  | p, [], q, rest => (p ++ q, rest)
  | p, r :: rest', q, rest => (p, (glue r rest' q rest).1 :: (glue r rest' q rest).2)

variable {rest' : List (List UInt8)}

theorem glue_length : (glue p rest' q rest).2.length = rest'.length + rest.length := by
  induction rest' generalizing p with
  | nil => simp [glue]
  | cons r rest' ih =>
    simp only [glue, length_cons, ih]
    omega

theorem markedText_cons (p x : List UInt8) (rest : List (List UInt8)) :
    markedText (x ++ p) rest = x ++ markedText p rest := by
  cases rest with
  | nil => rfl
  | cons q rest => simp [markedText]

theorem textOf_cons (p x : List UInt8) (rest : List (List UInt8))
    (vs : List (Option (List UInt8))) : textOf (x ++ p) rest vs = x ++ textOf p rest vs := by
  cases rest with
  | nil => rfl
  | cons q rest =>
    cases vs with
    | nil => rfl
    | cons v vs => simp [textOf]

theorem markedText_glue : markedText (glue p rest' q rest).1 (glue p rest' q rest).2 =
    markedText p rest' ++ markedText q rest := by
  induction rest' generalizing p with
  | nil => simp [glue, markedText, markedText_cons]
  | cons r rest' ih => simp [glue, markedText, ih]

theorem textOf_glue (hlen : vs.length = rest'.length) (ws : List (Option (List UInt8))) :
    textOf (glue p rest' q rest).1 (glue p rest' q rest).2 (vs ++ ws) =
      textOf p rest' vs ++ textOf q rest ws := by
  induction rest' generalizing p vs with
  | nil =>
    obtain rfl := eq_nil_of_length_eq_zero hlen
    simp [glue, textOf, textOf_cons]
  | cons r rest' ih =>
    obtain ⟨v, vs, rfl⟩ := exists_cons_of_length_eq_add_one hlen
    have hrest := ih (p := r) (Nat.succ.inj hlen)
    simp [glue, textOf, hrest]

end sqltext
