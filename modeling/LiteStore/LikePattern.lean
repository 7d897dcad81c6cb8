-- LIKE (exp_like.cpp, exp_like.h). The pattern is split at the percent signs into partitions. The
-- first partition has to match the beginning of the text and the last one its end, and the others
-- are searched from left to right in what is left. The text is read where it stands in memory,
-- so the bytes behind its end are a parameter here.
import LiteStore.Bytes
import LiteStore.Lib.Wildcard

namespace litestore

/-! ## Characters in memory -/

/-- The character sets of the operands of LIKE. -/
inductive CharSet
  | iso88591
  | utf8
  | ucs2
  deriving DecidableEq, Repr

/-- The memory from an address on. -/
abbrev Memory := Stream' UInt8

/-- `char_size` in `__input_utf8`, from the first byte. -/
def utf8CharSize (word : Nat) : Option Nat :=
  if word < 0x80 then some 1
  else if word / 32 = 6 then some 2
  else if word / 16 = 14 then some 3
  else if word / 8 = 30 then some 4
  else if word / 4 = 62 then some 5
  else if word / 2 = 126 then some 6
  else none

/-- `RD_1BYTE_UTF8` to `RD_6BYTE_UTF8`. -/
def utf8Word (mem : Memory) (size : Nat) : Nat :=
  if size = 1 then (mem.get 0).toNat
  else ((mem.take size).drop 1).foldl (fun word b => word * 64 + b.toNat % 64)
    ((mem.get 0).toNat % 2 ^ (7 - size))

/-- `MIN_2BYTE_UTF8` to `MIN_6BYTE_UTF8`. -/
def utf8Min (size : Nat) : Nat :=
  if size = 2 then 0x80
  else if size = 3 then 0x800
  else if size = 4 then 0x10000
  else if size = 5 then 0x200000
  else if size = 6 then 0x4000000
  else 0

/-- `__input_utf8`: how many bytes the first character takes, if it is one. A high surrogate has to
stand before a low one, and both are read as three bytes each. -/
def inputUtf8 (mem : Memory) (len : Int) : Option Nat :=
  match utf8CharSize (mem.get 0).toNat with
  | none => none
  | some size =>
    if len < size then none
    else if !((mem.take size).drop 1).all fun b => b.toNat / 64 == 2 then none
    else if utf8Word mem size < utf8Min size then none
    else if size = 3 ∧ utf8Word mem 3 / 1024 = 54 then
      if len = 3 then none
      else if (mem.get 3).toNat / 16 ≠ 14 then none
      else if utf8Word (mem.drop 3) 3 / 1024 ≠ 55 then none
      else some 3
    else some size

/-- `LocaleCharToUCS4` for UTF8. The error codes are negative lengths in the source. -/
def localeCharToUCS4 (mem : Memory) (len : Int) : Option Nat :=
  if len ≤ 0 then none else inputUtf8 mem len

/-- `Attributes::getFirstCharLength`. -/
def getFirstCharLength (cs : CharSet) (mem : Memory) (len : Int) : Option Nat :=
  match cs with
  | .iso88591 | .ucs2 => some 1
  | .utf8 => if mem.get 0 = 0 then some 1 else localeCharToUCS4 mem len

/-- `strlen`, up to seven. Its only use is to say how many bytes a character may have, and a
character has at most six. -/
def strlen (mem : Memory) : Nat := ((mem.take 7).takeWhile (· ≠ 0)).length

def utf8CharLengths : Nat → Memory → Nat → Option (List Nat)
  | 0, _, _ => some []
  | n + 1, mem, len =>
    if len = 0 then some []
    else
      match localeCharToUCS4 mem len with
      | none => none
      | some k => (utf8CharLengths n (mem.drop k) (len - k)).map (k :: ·)

/-- `Attributes::getCharLengthInBuf`: the lengths of the characters in a buffer. No list stands for
a negative count. A buffer that ends before it begins has no characters in UTF8: its length
becomes a huge `size_t`, and a negative `int` when the first character is read. -/
def getCharLengthInBuf (cs : CharSet) (mem : Memory) (room : Int) : Option (List Nat) :=
  if room < 0 then none
  else
    match cs with
    | .iso88591 | .ucs2 => some (List.replicate room.toNat 1)
    | .utf8 => utf8CharLengths room.toNat mem room.toNat

/-- `numChrInHeader > numChrInRecord`. -/
def moreChars : Option (List Nat) → Option (List Nat) → Bool
  | some inHeader, some inRecord => decide (inRecord.length < inHeader.length)
  | some _, none => true
  | none, _ => false

/-! ## The pattern -/

inductive LikeError
  | invalidEscapeSequence
  | invalidCharacter
  /-- `matchesR` would step back by an error code. -/
  | lost
  deriving DecidableEq, Repr

/-- The pattern with the bytes behind it in memory, and the special characters. -/
structure LikePatternString where
  pattern : Bytes
  behind : Memory
  escapeChar : Option Bytes
  underscoreChar : Bytes
  percentChar : Bytes

inductive CharType
  | endOfPattern
  | nonWildcard
  | underscore
  | percent
  | error
  deriving DecidableEq, Repr

/-- The pattern from the current character on, and its classification. -/
structure LikePatternStringIterator where
  currentChar : Bytes
  charType : CharType

def thisCharIsEqualTo (currentChar ch : Bytes) : Bool := ch.isPrefixOf currentChar

def wildcardType (s : LikePatternString) (currentChar : Bytes) : CharType :=
  if thisCharIsEqualTo currentChar s.underscoreChar then .underscore
  else if thisCharIsEqualTo currentChar s.percentChar then .percent
  else .nonWildcard

/-- `determineCharType`: an escape character is passed, and the character behind it is what the
iterator points to. -/
def determineCharType (s : LikePatternString) (currentChar : Bytes) : LikePatternStringIterator :=
  if currentChar = [] then ⟨currentChar, .endOfPattern⟩
  else
    match s.escapeChar with
    | none => ⟨currentChar, wildcardType s currentChar⟩
    | some escape =>
      if thisCharIsEqualTo currentChar escape then
        let escaped := currentChar.drop escape.length
        if escaped = [] then ⟨escaped, .error⟩
        else if thisCharIsEqualTo escaped escape || thisCharIsEqualTo escaped s.underscoreChar ||
            thisCharIsEqualTo escaped s.percentChar then ⟨escaped, .nonWildcard⟩
        else ⟨escaped, .error⟩
      else ⟨currentChar, wildcardType s currentChar⟩

/-- `getChar`: the bytes of the current character. -/
def getChar (cs : CharSet) (mem : Memory) : Bytes :=
  match cs with
  | .iso88591 => mem.take 1
  | .ucs2 => mem.take 2
  | .utf8 => mem.take ((localeCharToUCS4 mem 4).getD 1)

/-- A homogeneous piece of a partition: characters that stand for themselves, or underscores. -/
structure LikePatternClause where
  charType : CharType
  pattern : Bytes
  deriving DecidableEq

def LikePatternClause.length (c : LikePatternClause) : Nat := c.pattern.length

/-- A partition: its clauses, of which the last one is still growing. -/
structure LikePatternHeader where
  front : List LikePatternClause
  lastClause : LikePatternClause
  deriving DecidableEq

namespace LikePatternHeader

def clauses (h : LikePatternHeader) : List LikePatternClause := h.front ++ [h.lastClause]

def pattern (h : LikePatternHeader) : Bytes := h.clauses.flatMap LikePatternClause.pattern

def length (h : LikePatternHeader) : Nat := h.pattern.length

/-- The type of the first clause, which is the header itself. -/
def charType (h : LikePatternHeader) : CharType := (h.front.headD h.lastClause).charType

/-- `append` of a character. -/
def append (h : LikePatternHeader) (charType : CharType) (ch : Bytes) : LikePatternHeader :=
  if charType = h.lastClause.charType then
    { h with lastClause := ⟨charType, h.lastClause.pattern ++ ch⟩ }
  else if 0 < h.lastClause.length then ⟨h.clauses, ⟨charType, ch⟩⟩
  else { h with lastClause := ⟨charType, ch⟩ }

def setType (h : LikePatternHeader) (charType : CharType) : LikePatternHeader :=
  match h.front with
  | [] => { h with lastClause := { h.lastClause with charType := charType } }
  | c :: cs => { h with front := { c with charType := charType } :: cs }

end LikePatternHeader

/-- The first partition, and behind it the last one and then the ones between. -/
structure LikePattern where
  first : LikePatternHeader
  chain : List LikePatternHeader
  deriving DecidableEq

/-- The loop of the constructor: the finished headers and the one that is growing. A percent sign
behind another one begins no header. -/
def scanPattern (cs : CharSet) (s : LikePatternString) :
    Nat → LikePatternStringIterator → Int → List LikePatternHeader → LikePatternHeader →
      Except LikeError (List LikePatternHeader × LikePatternHeader)
  | 0, _, _, headers, lastHeader => .ok (headers, lastHeader)
  | n + 1, i, len, headers, lastHeader =>
    match i.charType with
    | .endOfPattern => .ok (headers, lastHeader)
    | .nonWildcard | .underscore =>
      match getFirstCharLength cs (i.currentChar ++ₛ s.behind) len with
      | none => .error .invalidCharacter
      | some k =>
        scanPattern cs s n
          (determineCharType s (i.currentChar.drop (k + if cs = .ucs2 then 1 else 0)))
          (len - k) headers (lastHeader.append i.charType (getChar cs (i.currentChar ++ₛ s.behind)))
    | .percent =>
      let next := determineCharType s (i.currentChar.drop (if cs = .ucs2 then 2 else 1))
      if lastHeader.lastClause.charType = .percent then
        scanPattern cs s n next (len - 1) headers lastHeader
      else
        scanPattern cs s n next (len - 1) (headers ++ [lastHeader]) ⟨[], ⟨.percent, []⟩⟩
    | .error => .error .invalidEscapeSequence

/-- `LikePattern::LikePattern`. The last header moves to the second place, and a pattern that
begins with a percent sign is marked. -/
def LikePattern.create (cs : CharSet) (s : LikePatternString) : Except LikeError LikePattern :=
  match scanPattern cs s s.pattern.length (determineCharType s s.pattern) s.pattern.length []
      ⟨[], ⟨.nonWildcard, []⟩⟩ with
  | .error e => .error e
  | .ok ([], lastHeader) => .ok ⟨lastHeader, []⟩
  | .ok (first :: middle, lastHeader) =>
    .ok ⟨if first.length = 0 then first.setType .percent else first, lastHeader :: middle⟩

/-! ## Matching -/

/-- `LikePatternClause::matches`. -/
def LikePatternClause.matchesText (c : LikePatternClause) (mem : Memory) : Bool :=
  decide (c.charType ≠ .nonWildcard) || mem.take c.length == c.pattern

/-- The bytes that so many underscores take. -/
def underscoreBytes (cs : CharSet) : Nat → Memory → Option Nat
  | 0, _ => some 0
  | k + 1, mem =>
    match getFirstCharLength cs mem (strlen mem) with
    | none => none
    | some n => (underscoreBytes cs k (mem.drop n)).map (n + ·)

def clausesMatch (cs : CharSet) : List LikePatternClause → Memory → Except LikeError (Option Nat)
  | [], _ => .ok (some 0)
  | c :: rest, mem =>
    if c.matchesText mem then
      match if c.charType = .underscore then underscoreBytes cs c.length mem else some c.length with
      | none => .error .invalidCharacter
      | some n =>
        match clausesMatch cs rest (mem.drop n) with
        | .ok (some k) => .ok (some (n + k))
        | result => result
    else .ok none

/-- `LikePatternHeader::matches`, with `headerMatchLen` where it matches. -/
def LikePatternHeader.matchesText (h : LikePatternHeader) (cs : CharSet) (mem : Memory) :
    Except LikeError (Option Nat) := clausesMatch cs h.clauses mem

/-- The loop that looks for `p` among the beginnings of characters, from `p1` on. -/
def walkTo (cs : CharSet) (mem : Memory) (room p : Int) : Nat → Nat → Option Nat
  | 0, p1 => some p1
  | n + 1, p1 =>
    if (p1 : Int) < p then
      match getFirstCharLength cs (mem.drop p1) (room - p1) with
      | none => none
      | some k => walkTo cs mem room p n (p1 + k)
    else some p1

/-- The clauses from the last one on, matched to the end of the room. What is left of the room. -/
def clausesMatchR (cs : CharSet) (mem : Memory) :
    List LikePatternClause → Int → Except LikeError (Option Int)
  | [], room => .ok (some room)
  | c :: rest, room =>
    if c.charType = .underscore then
      match getCharLengthInBuf cs mem room with
      | none => .error .invalidCharacter
      | some lengths =>
        if lengths.length < c.length then .ok none
        else clausesMatchR cs mem rest (room - (lengths.drop (lengths.length - c.length)).sum)
    else
      let p := room - c.length
      match walkTo cs mem room p p.toNat 0 with
      | none => .error .lost
      | some p1 =>
        if (p1 : Int) = p ∧ c.matchesText (mem.drop p1) = true then clausesMatchR cs mem rest p
        else .ok none

/-- `LikePatternHeader::matchesR`. -/
def LikePatternHeader.matchesR (h : LikePatternHeader) (cs : CharSet) (mem : Memory) (room : Int) :
    Except LikeError (Option Int) := clausesMatchR cs mem h.clauses.reverse room

/-- The inner loop of the search: on to a character that the header begins with. -/
def skipChars (cs : CharSet) (h : LikePatternHeader) :
    Nat → Memory → Int → Except LikeError (Memory × Int)
  | 0, mem, room => .ok (mem, room)
  | n + 1, mem, room =>
    if 0 < room then
      match getFirstCharLength cs mem (strlen mem) with
      | none => .error .invalidCharacter
      | some k =>
        if mem.take k = h.pattern.take k then .ok (mem, room)
        else skipChars cs h n (mem.drop k) (room - k)
    else .ok (mem, room)

/-- The search for a header in the room that is left. Only the number of bytes is looked at before
a place behind the first one is tried. A header that is searched for has a character, so the loop
ends with a match or with `return FALSE`. -/
def searchHeader (cs : CharSet) (h : LikePatternHeader) :
    Nat → Memory → Int → Except LikeError (Option (Memory × Int))
  | 0, mem, room => .ok (some (mem, room))
  | n + 1, mem, room =>
    if 0 < room then
      match h.matchesText cs mem with
      | .error e => .error e
      | .ok (some k) => .ok (some (mem.drop k, room - k))
      | .ok none =>
        match getFirstCharLength cs mem (strlen mem) with
        | none => .error .invalidCharacter
        | some k =>
          match
            if h.charType = .nonWildcard then skipChars cs h n (mem.drop k) (room - k)
            else .ok (mem.drop k, room - k) with
          | .error e => .error e
          | .ok (mem, room) =>
            if room < h.length then .ok none else searchHeader cs h n mem room
    else .ok (some (mem, room))

def headerChars (cs : CharSet) (h : LikePatternHeader) : Option (List Nat) :=
  getCharLengthInBuf cs (h.pattern ++ₛ Stream'.const 0) h.length

/-- The remaining partitions. -/
def matchRemaining (cs : CharSet) : List LikePatternHeader → Memory → Int → Except LikeError Bool
  | [], _, _ => .ok true
  | h :: headers, mem, room =>
    if moreChars (headerChars cs h) (getCharLengthInBuf cs mem room) then .ok false
    else
      match searchHeader cs h room.toNat mem room with
      | .error e => .error e
      | .ok none => .ok false
      | .ok (some (mem, room)) => matchRemaining cs headers mem room

/-- The first partition: the bytes it takes, if it matches. -/
def matchFirst (cs : CharSet) (h : LikePatternHeader) (mem : Memory) (textLen : Nat) :
    Except LikeError (Option Nat) :=
  if h.charType = .percent then .ok (some 0)
  else if moreChars (headerChars cs h) (getCharLengthInBuf cs mem textLen) then .ok none
  else h.matchesText cs mem

/-- The last partition, and then the remaining ones. -/
def matchLast (cs : CharSet) (lastHeader : LikePatternHeader) (middle : List LikePatternHeader)
    (mem : Memory) (room : Int) : Except LikeError Bool :=
  match if 0 < lastHeader.length then lastHeader.matchesR cs mem room else .ok (some room) with
  | .error e => .error e
  | .ok none => .ok false
  | .ok (some room) => matchRemaining cs middle mem room

/-- `LikePattern::matches`. -/
def LikePattern.matchesText (p : LikePattern) (cs : CharSet) (mem : Memory) (textLen : UInt16) :
    Except LikeError Bool :=
  match matchFirst cs p.first mem textLen.toNat with
  | .error e => .error e
  | .ok none => .ok false
  | .ok (some k) =>
    match p.chain with
    | [] => .ok (decide (k = textLen.toNat))
    | lastHeader :: middle => matchLast cs lastHeader middle (mem.drop k) (textLen.toNat - k)

def underscoreChar : CharSet → Bytes
  | .iso88591 | .utf8 => [0x5f]
  | .ucs2 => [0x5f, 0]

def percentChar : CharSet → Bytes
  | .iso88591 | .utf8 => [0x25]
  | .ucs2 => [0x25, 0]

/-- The construction of a pattern and its match with a text, as `ex_like_clause_char::eval` and
`ex_like_clause_doublebyte::eval` call them. Both lengths are cast to `UInt16`. -/
def like (cs : CharSet) (pattern : Bytes) (behind : Memory) (escape : Option Bytes) (text : Bytes)
    (after : Memory) : Except LikeError Bool :=
  let len := (UInt16.ofNat pattern.length).toNat
  match LikePattern.create cs ⟨pattern.take len, pattern.drop len ++ₛ behind, escape,
      underscoreChar cs, percentChar cs⟩ with
  | .error e => .error e
  | .ok p => p.matchesText cs (text ++ₛ after) (UInt16.ofNat text.length)

end litestore
