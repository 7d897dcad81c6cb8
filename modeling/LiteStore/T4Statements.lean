-- The statements of a text that arrives for direct execution. splitT4Statements
-- cuts the text at the semicolons outside quotes. It does not know comments.
import LiteStore.Bytes
import LiteStore.Lib.SqlText
import LiteStore.Lib.Separators

namespace litestore

open sqltext separators Reader

/-! ## The function of the server -/

/-- `trim`: a text without the white space at its ends. -/
def trimT4 (value : Bytes) : Bytes := separators.trim sqltext.isSpace value

/-- A statement is kept if something is left of it. -/
def pushStatement (statement : Bytes) (statements : List Bytes) : List Bytes :=
  if trimT4 statement = [] then statements else trimT4 statement :: statements

/-- The loop, with the text since `begin`. The third flag says that the byte is the second of two
quotes and is passed over. -/
def splitLoop : Bool → Bool → Bool → Bytes → Bytes → Bool × List Bytes
  | single, double, _, piece, [] => (!single && !double, pushStatement piece [])
  | single, double, true, piece, c :: sql => splitLoop single double false (piece ++ [c]) sql
  | single, double, false, piece, c :: sql =>
    if c = 39 ∧ double = false then
      if single = true ∧ sql.head? = some 39 then
        splitLoop single double true (piece ++ [c]) sql
      else splitLoop (!single) double false (piece ++ [c]) sql
    else if c = 34 ∧ single = false then splitLoop single (!double) false (piece ++ [c]) sql
    else if c = 59 ∧ single = false ∧ double = false then
      let rest := splitLoop single double false [] sql
      (rest.1, pushStatement piece rest.2)
    else splitLoop single double false (piece ++ [c]) sql

section

variable (sql : Bytes)

/-- Whether the quotes are closed at the end, and the statements. -/
def splitT4Statements : Bool × List Bytes := splitLoop false false false [] sql

/-! ## The meaning of the text -/

/-- The lexer of SQL as a reader: a semicolon that does not belong to what the lexer is in the
middle of ends a statement. -/
def sqlReader : Reader UInt8 LexState where
  step s c := (s.step c).2
  cuts s c := c == 59 && (s.goesOn c).isNone

/-- The statements of a text. -/
def sqlStatements : List Bytes := sqlReader.statements sqltext.isSpace .plain [] sql

/-- The lexer is in the middle of a literal or of a delimited identifier. -/
def lexQuoted : LexState → Bool
  | .literal _ | .name _ => true
  | _ => false

/-- All literals and delimited identifiers are closed. -/
def ClosedText : Prop := lexQuoted (sqlReader.after .plain sql) = false

/-- The text is split at the semicolons of SQL, or refused because something is not closed. -/
structure SplitLaw (sql : Bytes) : Prop where
  closed : (splitT4Statements sql).1 = true ↔ ClosedText sql
  statements : (splitT4Statements sql).1 = true → (splitT4Statements sql).2 = sqlStatements sql

/-! ## Quotes alone -/

/-- A reader that knows the two quotes and nothing else: each one opens or closes. -/
def quoteReader : Reader UInt8 (Bool × Bool) where
  step q c :=
    if c = 39 ∧ q.2 = false then (!q.1, q.2)
    else if c = 34 ∧ q.1 = false then (q.1, !q.2)
    else q
  cuts q c := c == 59 && !q.1 && !q.2

/-- Behind this text no quote is open, where quotes in comments count like others. -/
def OutsideQuotes (x : Bytes) : Prop := quoteReader.after (false, false) x = (false, false)

theorem pushStatement_eq (piece : Bytes) (statements : List Bytes) :
    pushStatement piece statements = keep sqltext.isSpace piece ++ statements := by
  unfold pushStatement keep trimT4
  split <;> rfl

/-- What the loop returns, by the reader of quotes. -/
def splitBy (q : Bool × Bool) (piece sql : Bytes) : Bool × List Bytes :=
  let last := quoteReader.after q sql
  (!last.1 && !last.2, quoteReader.statements sqltext.isSpace q piece sql)

theorem splitBy_cons (q : Bool × Bool) (piece : Bytes) {c : UInt8} (sql : Bytes)
    (h : quoteReader.cuts q c = false) :
    splitBy q piece (c :: sql) = splitBy (quoteReader.step q c) (piece ++ [c]) sql := by
  unfold splitBy
  rw [statements, h, if_neg Bool.false_ne_true]
  rfl

/-- Passing over the second of two quotes is the same as closing and opening. -/
theorem splitLoop_eq (single double : Bool) (piece sql : Bytes) :
    splitLoop single double false piece sql = splitBy (single, double) piece sql ∧
      (sql.head? = some 39 →
        splitLoop true false true piece sql = splitBy (false, false) piece sql) := by
  induction sql generalizing single double piece with
  | nil =>
    refine ⟨?_, fun h => absurd h (by simp)⟩
    simp [splitLoop, splitBy, pushStatement_eq, statements, after]
  | cons c sql ih =>
    constructor
    · unfold splitLoop
      split
      · rename_i hc
        obtain ⟨rfl, rfl⟩ := hc
        rw [splitBy_cons _ _ _ (by rfl)]
        split
        · rename_i hpair
          obtain ⟨rfl, hhead⟩ := hpair
          exact (ih true false (piece ++ [39])).2 hhead
        · exact (ih (!single) false (piece ++ [39])).1
      · rename_i hsingle
        split
        · rename_i hc
          obtain ⟨rfl, rfl⟩ := hc
          rw [splitBy_cons _ _ _ (by rfl)]
          exact (ih false (!double) (piece ++ [34])).1
        · rename_i hdouble
          have hstep : quoteReader.step (single, double) c = (single, double) := by
            simp only [quoteReader]
            rw [if_neg hsingle, if_neg hdouble]
          split
          · rename_i hc
            obtain ⟨rfl, rfl, rfl⟩ := hc
            simp only [(ih false false []).1, splitBy, pushStatement_eq, statements]
            rfl
          · rename_i hcut
            have hcuts : quoteReader.cuts (single, double) c = false := by
              simp only [quoteReader]
              cases single <;> cases double <;> simp_all
            rw [splitBy_cons _ _ _ hcuts, hstep]
            exact (ih single double (piece ++ [c])).1
    · intro hhead
      obtain rfl : c = 39 := by simpa using hhead
      rw [splitBy_cons _ _ _ (by rfl)]
      exact (ih true false (piece ++ [39])).1

theorem splitT4Statements_eq :
    splitT4Statements sql = splitBy (false, false) [] sql := (splitLoop_eq false false [] sql).1

theorem splitT4Statements_closed_iff : (splitT4Statements sql).1 = true ↔ OutsideQuotes sql := by
  rw [splitT4Statements_eq, splitBy, OutsideQuotes]
  rcases quoteReader.after (false, false) sql with ⟨single, double⟩
  cases single <;> cases double <;> simp

/-! ## Two readers -/

theorem isSpace_semicolon : sqltext.isSpace 59 = false := by decide

theorem quote_sql_related :
    Reader.Related sqltext.isSpace quoteReader sqlReader (false, false) .plain where
  solid q s c h := by
    have hc : c = 59 := by
      rcases h with h | h
      · simp only [quoteReader, Bool.and_eq_true, beq_iff_eq] at h
        exact h.1.1
      · simp only [sqlReader, Bool.and_eq_true, beq_iff_eq] at h
        exact h.1
    rw [hc, isSpace_semicolon]
  blanks c h := by
    constructor
    · have h39 : c ≠ 39 := by
        rintro rfl
        exact absurd h (by decide)
      have h34 : c ≠ 34 := by
        rintro rfl
        exact absurd h (by decide)
      simp [quoteReader, h39, h34]
    · simp [sqlReader, LexState.step, LexState.goesOn, begins, h]
  anew q s c := by
    constructor
    · intro h
      simp only [quoteReader, Bool.and_eq_true, beq_iff_eq, Bool.not_eq_true'] at h
      obtain ⟨⟨rfl, hsingle⟩, hdouble⟩ := h
      simp [quoteReader, Prod.ext_iff, hsingle, hdouble]
    · intro h
      simp only [sqlReader, Bool.and_eq_true, beq_iff_eq, Option.isNone_iff_eq_none] at h
      obtain ⟨rfl, hnone⟩ := h
      simp only [sqlReader]
      rw [step_of_none hnone]
      rfl
  fresh c := by
    simp [quoteReader, sqlReader, LexState.goesOn]

theorem splitLaw_iff (sql : Bytes) : SplitLaw sql ↔ (OutsideQuotes sql ↔ ClosedText sql) ∧
    (ClosedText sql → quoteReader.places (false, false) sql = sqlReader.places .plain sql) := by
  have hstatements : (splitT4Statements sql).2 = sqlStatements sql ↔
      quoteReader.places (false, false) sql = sqlReader.places .plain sql := by
    rw [splitT4Statements_eq]
    exact statements_eq_iff quote_sql_related
  constructor
  · intro h
    have hclosed := h.closed
    rw [splitT4Statements_closed_iff] at hclosed
    refine ⟨hclosed, fun htext => hstatements.mp (h.statements ?_)⟩
    rw [splitT4Statements_closed_iff]
    exact hclosed.mpr htext
  · rintro ⟨hclosed, hplaces⟩
    refine ⟨by rw [splitT4Statements_closed_iff, hclosed], fun h => ?_⟩
    rw [splitT4Statements_closed_iff, hclosed] at h
    exact hstatements.mpr (hplaces h)

/-! ## The comments of a text -/

/-- The lexer is in a comment. -/
def inComment : LexState → Bool
  | .lineComment | .blockComment | .blockStar => true
  | _ => false

/-- What the comments of a text hold, the first one begun with `body` if the lexer is in one. -/
def comments : LexState → Bytes → Bytes → List Bytes
  | s, body, [] => if inComment s then [body] else []
  | s, body, c :: sql =>
    let next := (s.step c).2
    if inComment s = false then comments next [] sql
    else if inComment next then comments next (body ++ [c]) sql
    else (body ++ [c]) :: comments next [] sql

/-- A comment that, read as text, closes the quotes that it opens and has no semicolon outside
them. -/
structure BalancedComment (body : Bytes) : Prop where
  closed : OutsideQuotes body
  whole : true ∉ quoteReader.places (false, false) body

/-- No comment holds a quote or a semicolon. -/
def PlainComments : Prop :=
  ∀ x c y, sql = x ++ c :: y → inComment (sqlReader.after .plain x) = true →
    c ≠ 39 ∧ c ≠ 34 ∧ c ≠ 59

end

/-- The quotes that are open in a state of the lexer. -/
def openQuotes : LexState → Bool × Bool
  | .literal _ => (true, false)
  | .name _ => (false, true)
  | _ => (false, false)

theorem openQuotes_begins :
    ∀ c : UInt8, openQuotes (begins c).2 = quoteReader.step (false, false) c := by
  decide +kernel

variable {s : LexState} {c : UInt8} {q : Bool × Bool} {body b sql : Bytes} {l l' : List Bytes}

/-- Outside comments both readers see the same quotes. -/
theorem openQuotes_step (h : inComment s = false) :
    openQuotes (s.step c).2 = quoteReader.step (openQuotes s) c := by
  cases hgo : s.goesOn c with
  | none =>
    have hopen : openQuotes s = (false, false) := by
      cases s <;> first | rfl | cases hgo
    rw [step_of_none hgo, hopen]
    exact openQuotes_begins c
  | some s' =>
    have hstep : (s.step c).2 = s' := by simp [LexState.step, hgo]
    rw [hstep]
    cases s <;>
      simp only [LexState.goesOn, Option.ite_none_right_eq_some, Option.some.injEq,
        reduceCtorEq] at hgo
    case word text =>
      obtain ⟨hword, rfl⟩ := hgo
      have hquote : ∀ q, isWordByte q = false → c ≠ q := by
        rintro q hq rfl
        simp [hword] at hq
      simp [openQuotes, quoteReader, hquote 39 rfl, hquote 34 rfl]
    case dash | slash | literalQuote text | nameQuote text =>
      obtain ⟨rfl, rfl⟩ := hgo
      rfl
    case literal text =>
      subst hgo
      by_cases h39 : c = 39 <;> simp [openQuotes, quoteReader, h39]
    case name text =>
      subst hgo
      by_cases h34 : c = 34 <;> simp [openQuotes, quoteReader, h34]
    all_goals cases h

/-- Outside comments the reader of quotes is where the lexer is, inside it has read the comment. -/
def Tracks (s : LexState) (body : Bytes) (q : Bool × Bool) : Prop :=
  q = if inComment s then quoteReader.after (false, false) body else openQuotes s

theorem openQuotes_comment (h : inComment s = true) :
    openQuotes s = (false, false) ∧ openQuotes (s.step c).2 = (false, false) := by
  cases s <;> simp only [inComment, Bool.false_eq_true] at h <;>
    simp only [LexState.step, LexState.goesOn] <;> split_ifs <;> simp [openQuotes]

theorem Tracks.outside (h : Tracks s body q) (hs : inComment s = false) (c : UInt8) :
    Tracks (s.step c).2 [] (quoteReader.step q c) ∧ quoteReader.cuts q c = sqlReader.cuts s c := by
  have hq : q = openQuotes s := h.trans (by rw [hs]; rfl)
  subst hq
  constructor
  · rw [Tracks, ← openQuotes_step hs]
    split
    · rename_i hnext
      exact (openQuotes_comment (c := 0) hnext).1
    · rfl
  · by_cases hc : c = 59
    · subst hc
      cases s <;> first | rfl | cases hs
    · show (c == 59 && _ && _) = (c == 59 && _)
      rw [beq_false_of_ne hc]
      rfl

theorem Tracks.inside (h : Tracks s body q) (hs : inComment s = true) (c : UInt8) :
    quoteReader.step q c = quoteReader.after (false, false) (body ++ [c]) ∧
      sqlReader.cuts s c = false ∧ ∀ more, quoteReader.places (false, false) (body ++ c :: more) =
        quoteReader.places (false, false) body ++
          quoteReader.cuts q c :: quoteReader.places (quoteReader.step q c) more := by
  have hq : q = quoteReader.after (false, false) body := h.trans (by rw [hs]; rfl)
  refine ⟨by simp [hq, after], ?_, fun more => by rw [places_append, hq]; rfl⟩
  cases s <;> first | exact Bool.and_false _ | cases hs

theorem comments_outside (hs : inComment s = false) :
    comments s body (c :: sql) = comments (s.step c).2 [] sql := if_pos hs

theorem comments_inside (hs : inComment s = true) :
    comments s body (c :: sql) =
      if inComment (s.step c).2 then comments (s.step c).2 (body ++ [c]) sql
      else (body ++ [c]) :: comments (s.step c).2 [] sql := if_neg (by simp [hs])

/-- The comment that the lexer is in goes on from what was read of it. -/
theorem comments_head (hs : inComment s = true) (body sql : Bytes) :
    ∃ more rest, comments s body sql = (body ++ more) :: rest := by
  induction sql generalizing s body with
  | nil => exact ⟨[], [], by rw [comments, if_pos hs, List.append_nil]⟩
  | cons c sql ih =>
    rw [comments_inside hs]
    split
    · rename_i hnext
      obtain ⟨more, rest, hrest⟩ := ih hnext (body ++ [c])
      exact ⟨c :: more, rest, by rw [hrest, List.append_assoc]; rfl⟩
    · exact ⟨[c], _, rfl⟩

section

variable (h : Tracks s body q) (hs : inComment s = true)

include h hs

theorem Tracks.goes_on (hnext : inComment (s.step c).2 = true) :
    Tracks (s.step c).2 (body ++ [c]) (quoteReader.step q c) := by
  rw [Tracks, if_pos hnext, (h.inside hs c).1]

theorem Tracks.ends (hnext : ¬ inComment (s.step c).2 = true) (hout : OutsideQuotes (body ++ [c])) :
    Tracks (s.step c).2 [] (quoteReader.step q c) := by
  rw [Tracks, if_neg hnext, (h.inside hs c).1, (openQuotes_comment hs).2]
  exact hout

end

/-- Where the comments are balanced, both readers cut at the same places and end with the same
quotes. -/
theorem readers_agree (hq : Tracks s body q) (h : ∀ b ∈ comments s body sql, BalancedComment b) :
    quoteReader.places q sql = sqlReader.places s sql ∧
      quoteReader.after q sql = openQuotes (sqlReader.after s sql) := by
  induction sql generalizing s body q with
  | nil =>
    refine ⟨rfl, hq.trans ?_⟩
    show _ = openQuotes s
    split
    · rename_i hs
      rw [(openQuotes_comment (c := 0) hs).1]
      exact (h body (by simp [comments, hs])).closed
    · rfl
  | cons c sql ih =>
    simp only [places, after, List.foldl_cons] at ih ⊢
    cases hs : inComment s with
    | false =>
      obtain ⟨hnext, hcut⟩ := hq.outside hs c
      rw [comments_outside hs] at h
      rw [hcut]
      exact (ih hnext h).imp (congrArg _) id
    | true =>
      obtain ⟨-, hno, hplaces⟩ := hq.inside hs c
      rw [comments_inside hs] at h
      have hsame : quoteReader.cuts q c = sqlReader.cuts s c := by
        rw [hno, Bool.eq_false_iff]
        intro hcut
        split at h
        · rename_i hnext
          obtain ⟨more, rest, hmore⟩ := comments_head hnext (body ++ [c]) sql
          rw [List.append_assoc] at hmore
          exact (h _ (hmore ▸ List.mem_cons_self)).whole (by simp [hplaces, hcut])
        · exact (h _ List.mem_cons_self).whole (by simp [hplaces, hcut])
      rw [hsame]
      split at h
      · rename_i hnext
        exact (ih (hq.goes_on hs hnext) h).imp (congrArg _) id
      · rename_i hnext
        obtain ⟨hbody, hrest⟩ := List.forall_mem_cons.mp h
        exact (ih (hq.ends hs hnext hbody.closed) hrest).imp (congrArg _) id

theorem quoteStep_injective : ∀ (c : UInt8) (q q' : Bool × Bool),
    quoteReader.step q c = quoteReader.step q' c → q = q' := by
  decide +kernel

theorem quotes_injective {q' : Bool × Bool} (x : Bytes)
    (h : quoteReader.after q x = quoteReader.after q' x) : q = q' := by
  induction x generalizing q q' with
  | nil => exact h
  | cons c x ih => exact quoteStep_injective c q q' (ih h)

theorem openQuotes_of_closed (h : lexQuoted s = false) : openQuotes s = (false, false) := by
  cases s <;> first | rfl | cases h

/-- One comment that is not balanced is not made up for by balanced ones: if both readers cut at the
same places, the reader of quotes ends inside quotes. -/
theorem readers_differ (hq : Tracks s body q) (hcomments : comments s body sql = l ++ b :: l')
    (h : ∀ d ∈ l ++ l', BalancedComment d) (hb : ¬ BalancedComment b)
    (hbody : true ∉ quoteReader.places (false, false) body)
    (hclosed : lexQuoted (sqlReader.after s sql) = false)
    (hplaces : quoteReader.places q sql = sqlReader.places s sql) :
    quoteReader.after q sql ≠ (false, false) := by
  induction sql generalizing s body q l with
  | nil =>
    intro hout
    rw [comments] at hcomments
    split at hcomments
    · rename_i hs
      obtain ⟨rfl, rfl, rfl⟩ : l = [] ∧ b = body ∧ l' = [] := by
        cases l <;> simp_all
      exact hb ⟨(hq.trans (if_pos hs)).symm.trans hout, hbody⟩
    · simp at hcomments
  | cons c sql ih =>
    rw [places, places, List.cons.injEq] at hplaces
    obtain ⟨hcuts, hplaces⟩ := hplaces
    cases hs : inComment s with
    | false =>
      rw [comments_outside hs] at hcomments
      exact ih (hq.outside hs c).1 hcomments h (by simp [places]) hclosed hplaces
    | true =>
      obtain ⟨hstep, hno, hmore⟩ := hq.inside hs c
      have hbody' : true ∉ quoteReader.places (false, false) (body ++ [c]) := by
        simp [hmore, hcuts, hno, hbody, places]
      rw [comments_inside hs] at hcomments
      split at hcomments
      · rename_i hnext
        exact ih (hq.goes_on hs hnext) hcomments h hbody' hclosed hplaces
      · rename_i hnext
        cases l with
        | nil =>
          obtain ⟨rfl, hrest⟩ := List.cons.inj hcomments
          intro hout
          have hfresh : Tracks (s.step c).2 [] (false, false) := by
            rw [Tracks, if_neg hnext, (openQuotes_comment hs).2]
          have hagree := (readers_agree hfresh (by rwa [hrest])).2
          have hlast : openQuotes (sqlReader.after (s.step c).2 sql) = (false, false) :=
            openQuotes_of_closed hclosed
          refine hb ⟨?_, hbody'⟩
          rw [OutsideQuotes, ← hstep]
          exact quotes_injective sql (hout.trans (hagree.trans hlast).symm)
        | cons d l =>
          obtain ⟨rfl, hrest⟩ := List.cons.inj hcomments
          rw [List.cons_append, List.forall_mem_cons] at h
          exact ih (hq.ends hs hnext h.1.closed) hrest h.2 (by simp [places]) hclosed hplaces

/-! ## When a text is split by SQL -/

theorem tracks_start : Tracks .plain [] (false, false) := rfl

theorem split_of_balanced (h : ∀ b ∈ comments .plain [] sql, BalancedComment b) :
    SplitLaw sql := by
  obtain ⟨hplaces, hlast⟩ := readers_agree tracks_start h
  refine (splitLaw_iff sql).mpr ⟨?_, fun _ => hplaces⟩
  rw [OutsideQuotes, hlast, ClosedText]
  cases sqlReader.after .plain sql <;> simp [openQuotes, lexQuoted]

/-- A text whose comments are balanced is split as SQL splits it. In a closed text that is needed
of each comment that is not made up for by another one. -/
theorem statements_split_as_sql (sql : Bytes) :
    ((∀ b ∈ comments .plain [] sql, BalancedComment b) → SplitLaw sql) ∧
    (ClosedText sql → ∀ l b l', comments .plain [] sql = l ++ b :: l' →
      (∀ d ∈ l ++ l', BalancedComment d) → (SplitLaw sql ↔ BalancedComment b)) := by
  refine ⟨split_of_balanced, fun hclosed l b l' hcomments h => ⟨fun hlaw => ?_, fun hb => ?_⟩⟩
  · obtain ⟨hout, hplaces⟩ := (splitLaw_iff sql).mp hlaw
    by_contra hb
    exact readers_differ tracks_start hcomments h hb (by simp [places]) hclosed
      (hplaces hclosed) (hout.mpr hclosed)
  · refine split_of_balanced fun d hd => ?_
    rw [hcomments] at hd
    obtain hd | rfl | hd : d ∈ l ∨ d = b ∨ d ∈ l' := by simpa using hd
    · exact h d (by simp [hd])
    · exact hb
    · exact h d (by simp [hd])

/-- A quote in a comment opens a literal, and a semicolon in a comment ends a statement. -/
theorem comments_are_read_as_text :
    ((splitT4Statements (textBytes "SELECT 1 -- it's")).1 = false ∧
      ClosedText (textBytes "SELECT 1 -- it's")) ∧
    (splitT4Statements (textBytes "SELECT 1 /* one; two */") =
        (true, [textBytes "SELECT 1 /* one", textBytes "two */"]) ∧
      sqlStatements (textBytes "SELECT 1 /* one; two */") =
        [textBytes "SELECT 1 /* one; two */"]) := by
  unfold ClosedText
  decide +kernel


/-- The one comment of a text decides. -/
theorem quoted_comment_split : SplitLaw (textBytes "SELECT 1 -- 'a;b'\n; SELECT 2") ∧
    ¬ SplitLaw (textBytes "SELECT 1 -- it's") := by
  have hquoted : comments .plain [] (textBytes "SELECT 1 -- 'a;b'\n; SELECT 2") =
      [textBytes " 'a;b'\n"] := by
    decide +kernel
  have hopen : comments .plain [] (textBytes "SELECT 1 -- it's") =
      [] ++ textBytes " it's" :: [] := by
    decide +kernel
  constructor
  · refine (statements_split_as_sql _).1 ?_
    rw [hquoted, List.forall_mem_singleton]
    exact ⟨by unfold OutsideQuotes; decide +kernel, by decide +kernel⟩
  · rw [(statements_split_as_sql _).2 (by unfold ClosedText; decide +kernel) _ _ _ hopen (by simp)]
    exact fun h => absurd h.closed (by unfold OutsideQuotes; decide +kernel)

/-- Two comments may make up for each other: the quotes of both are read as one literal. -/
example : SplitLaw (textBytes "-- it's\n-- it's") := by
  refine ⟨?_, fun _ => ?_⟩
  · unfold ClosedText
    decide +kernel
  · decide +kernel

/-! ## Texts with plain comments -/

theorem comments_plain {p : UInt8 → Prop} (hbody : ∀ c ∈ body, p c)
    (h : ∀ x c y, sql = x ++ c :: y → inComment (sqlReader.after s x) = true → p c) :
    ∀ b ∈ comments s body sql, ∀ c ∈ b, p c := by
  induction sql generalizing s body with
  | nil =>
    intro b hb
    rw [comments] at hb
    split at hb
    · obtain rfl := List.mem_singleton.mp hb
      exact hbody
    · cases hb
  | cons c sql ih =>
    have hrest : ∀ x d y, sql = x ++ d :: y → inComment (sqlReader.after (s.step c).2 x) = true →
        p d := fun x d y hx => h (c :: x) d y (by rw [hx]; rfl)
    cases hs : inComment s with
    | false =>
      rw [comments_outside hs]
      exact ih (by simp) hrest
    | true =>
      have hbody' : ∀ d ∈ body ++ [c], p d :=
        List.forall_mem_append.mpr ⟨hbody, List.forall_mem_singleton.mpr (h [] c sql rfl hs)⟩
      rw [comments_inside hs]
      split
      · exact ih hbody' hrest
      · exact List.forall_mem_cons.mpr ⟨hbody', ih (by simp) hrest⟩

theorem balanced_of_plain (h : ∀ c ∈ body, c ≠ 39 ∧ c ≠ 34 ∧ c ≠ 59) : BalancedComment body := by
  induction body with
  | nil => exact ⟨rfl, List.not_mem_nil⟩
  | cons c body ih =>
    obtain ⟨⟨h39, h34, h59⟩, hbody⟩ := List.forall_mem_cons.mp h
    obtain ⟨hclosed, hwhole⟩ := ih hbody
    have hstep : quoteReader.step (false, false) c = (false, false) := by
      simp [quoteReader, h39, h34]
    refine ⟨?_, ?_⟩
    · rwa [OutsideQuotes, after, List.foldl_cons, hstep]
    · rw [places, hstep, List.mem_cons, not_or]
      exact ⟨by simp [quoteReader, h59], hwhole⟩

/-- A text whose comments hold no quotes and no semicolons is split as SQL splits it. -/
theorem plain_comments_split {sql : Bytes} (h : PlainComments sql) : SplitLaw sql := by
  refine split_of_balanced fun b hb => ?_
  exact balanced_of_plain (comments_plain (by simp) h b hb)

theorem commented_query_split :
    let sql := textBytes "SELECT ';' -- a\n; SELECT 2"
    SplitLaw sql ∧
      splitT4Statements sql = (true, [textBytes "SELECT ';' -- a", textBytes "SELECT 2"]) := by
  intro sql
  refine ⟨plain_comments_split (forall_split ?_), ?_⟩ <;> decide +kernel

end litestore
