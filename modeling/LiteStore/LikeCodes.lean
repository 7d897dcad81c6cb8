-- How the characters of a text stand in memory. The matching reads a text unit by unit: a unit is
-- a byte in ISO88591 and a character in UTF8. A character of UCS2 is two bytes, and there too the
-- unit is a byte.
import LiteStore.LikePattern

open Stream' (cons_append_stream append_append_stream drop_append_stream take_succ_cons
  take_append_of_le_length get_append_left)

namespace litestore

/-! ## UTF8 -/

theorem utf8EncodeChar_cases (c : Char) :
    (c.toNat < 0x80 ∧ String.utf8EncodeChar c = [UInt8.ofNat c.toNat]) ∨
    (0x80 ≤ c.toNat ∧ c.toNat < 0x800 ∧ String.utf8EncodeChar c =
      [UInt8.ofNat (c.toNat / 64 + 192), UInt8.ofNat (c.toNat % 64 + 128)]) ∨
    (0x800 ≤ c.toNat ∧ c.toNat < 0x10000 ∧ c.toNat / 1024 ≠ 54 ∧
      String.utf8EncodeChar c =
        [UInt8.ofNat (c.toNat / 4096 + 224), UInt8.ofNat (c.toNat / 64 % 64 + 128),
          UInt8.ofNat (c.toNat % 64 + 128)]) ∨
    (0x10000 ≤ c.toNat ∧ c.toNat < 0x110000 ∧ String.utf8EncodeChar c =
      [UInt8.ofNat (c.toNat / 262144 + 240), UInt8.ofNat (c.toNat / 4096 % 64 + 128),
        UInt8.ofNat (c.toNat / 64 % 64 + 128), UInt8.ofNat (c.toNat % 64 + 128)]) := by
  have hvalid : c.toNat < 0xD800 ∨ (0xDFFF < c.toNat ∧ c.toNat < 0x110000) := c.valid
  unfold String.utf8EncodeChar
  change c.toNat < 0xD800 ∨ (0xDFFF < c.toNat ∧ c.toNat < 0x110000) at hvalid
  simp only [show c.val.toNat = c.toNat from rfl]
  generalize c.toNat = v at *
  by_cases h1 : v ≤ 127
  · exact .inl ⟨by omega, by simp [h1]⟩
  by_cases h2 : v ≤ 2047
  · refine .inr (.inl ⟨by omega, by omega, ?_⟩)
    simp [h1, h2, Nat.mod_eq_of_lt (show v / 64 < 32 by omega)]
  by_cases h3 : v ≤ 65535
  · refine .inr (.inr (.inl ⟨by omega, by omega, by omega, ?_⟩))
    simp [h1, h2, h3, Nat.mod_eq_of_lt (show v / 4096 < 16 by omega)]
  · refine .inr (.inr (.inr ⟨by omega, by omega, ?_⟩))
    simp [h1, h2, h3, Nat.mod_eq_of_lt (show v / 262144 < 8 by omega)]

/-- The word that is read back. -/
theorem utf8Word_encode (c : Char) (mem : Memory) :
    utf8Word (String.utf8EncodeChar c ++ₛ mem) (String.utf8EncodeChar c).length = c.toNat := by
  obtain ⟨_, henc⟩ | ⟨_, _, henc⟩ | ⟨_, _, _, henc⟩ | ⟨_, _, henc⟩ := utf8EncodeChar_cases c
  all_goals
    rw [henc]
    simp [utf8Word, cons_append_stream]
    omega

variable {word : Nat} {len : Int}

theorem utf8CharSize_two (h : word / 32 = 6) : utf8CharSize word = some 2 := by
  rw [utf8CharSize, if_neg (by omega), if_pos h]

theorem utf8CharSize_three (h : word / 16 = 14) : utf8CharSize word = some 3 := by
  rw [utf8CharSize, if_neg (by omega), if_neg (by omega), if_pos h]

theorem utf8CharSize_four (h : word / 8 = 30) : utf8CharSize word = some 4 := by
  rw [utf8CharSize, if_neg (by omega), if_neg (by omega), if_neg (by omega), if_pos h]

section

variable (c : Char) (mem : Memory)

/-- The tests that the bytes of a character pass. -/
theorem utf8EncodeChar_passes : utf8CharSize ((String.utf8EncodeChar c ++ₛ mem).get 0).toNat =
        some (String.utf8EncodeChar c).length ∧
      ((String.utf8EncodeChar c).drop 1).all (fun b => b.toNat / 64 == 2) = true ∧
      utf8Min (String.utf8EncodeChar c).length ≤ c.toNat ∧
      ¬ ((String.utf8EncodeChar c).length = 3 ∧ c.toNat / 1024 = 54) := by
  obtain ⟨_, henc⟩ | ⟨_, _, henc⟩ | ⟨_, _, _, henc⟩ | ⟨_, _, henc⟩ := utf8EncodeChar_cases c
  · rw [henc]
    simp [utf8CharSize, utf8Min, cons_append_stream]
    omega
  · rw [henc]
    refine ⟨utf8CharSize_two ?_, ?_⟩
    · simp [cons_append_stream]
      omega
    · simp [utf8Min]
      omega
  · rw [henc]
    refine ⟨utf8CharSize_three ?_, ?_⟩
    · simp [cons_append_stream]
      omega
    · simp [utf8Min]
      omega
  · rw [henc]
    refine ⟨utf8CharSize_four ?_, ?_⟩
    · simp [cons_append_stream]
      omega
    · simp [utf8Min]
      omega

/-- The decoder gives the length of a character that stands there. -/
theorem inputUtf8_encode (hlen : (String.utf8EncodeChar c).length ≤ len) :
    inputUtf8 (String.utf8EncodeChar c ++ₛ mem) len = some (String.utf8EncodeChar c).length := by
  obtain ⟨hsize, hbytes, hmin, hsurrogate⟩ := utf8EncodeChar_passes c mem
  have htake : (String.utf8EncodeChar c ++ₛ mem).take (String.utf8EncodeChar c).length =
      String.utf8EncodeChar c := by
    rw [take_append_of_le_length _ _ _ le_rfl, List.take_length]
  have hword := utf8Word_encode c mem
  have hnot : ¬ ((String.utf8EncodeChar c).length = 3 ∧
      utf8Word (String.utf8EncodeChar c ++ₛ mem) 3 / 1024 = 54) := by
    rintro ⟨h3, h⟩
    rw [h3] at hword
    exact hsurrogate ⟨h3, hword ▸ h⟩
  simp only [inputUtf8, hsize, htake, hbytes, hword]
  rw [if_neg (by omega), if_neg (by simp), if_neg (by omega), if_neg hnot]

/-- Different characters have different bytes. -/
theorem utf8EncodeChar_injective : Function.Injective String.utf8EncodeChar := by
  intro c d h
  have hc := utf8Word_encode c (Stream'.const 0)
  rw [h, utf8Word_encode d] at hc
  exact (Char.toNat_inj.mp hc).symm

/-- Only the character zero has a byte zero. -/
theorem zero_mem_utf8EncodeChar {c : Char} (h : 0 ∈ String.utf8EncodeChar c) :
    String.utf8EncodeChar c = [0] := by
  obtain ⟨_, henc⟩ | ⟨_, _, henc⟩ | ⟨_, _, _, henc⟩ | ⟨_, _, henc⟩ := utf8EncodeChar_cases c
  · rw [henc] at h ⊢
    rw [List.mem_singleton.mp h]
  all_goals
    rw [henc] at h
    simp [← UInt8.toNat_inj] at h
    omega

theorem take_length_add_append (b : Bytes) (k : Nat) (mem : Memory) :
    (b ++ₛ mem).take (b.length + k) = b ++ mem.take k := by
  induction b with
  | nil => simp
  | cons x b ih =>
    rw [List.length_cons, Nat.succ_add, cons_append_stream, take_succ_cons, ih, List.cons_append]

theorem strlen_append {b : Bytes} (hb : 0 ∉ b) (hlen : b.length ≤ 7) (mem : Memory) :
    b.length ≤ strlen (b ++ₛ mem) := by
  obtain ⟨k, hk⟩ := Nat.exists_eq_add_of_le hlen
  have htake : (b ++ₛ mem).take 7 = b ++ mem.take k := by
    rw [hk, take_length_add_append]
  rw [strlen, htake, List.takeWhile_append_of_pos]
  · simp
  · intro x hx
    simpa using fun h0 : x = 0 => hb (h0 ▸ hx)

/-! ## Units -/

/-- The units of a text stand one after the other, and each can be read where it stands. -/
structure UnitCode (cs : CharSet) {υ : Type} (code : υ → Bytes) : Prop where
  ne_nil (u : υ) : code u ≠ []
  injective : Function.Injective code
  first (u : υ) (mem : Memory) {len : Int} (h : (code u).length ≤ len) :
    getFirstCharLength cs (code u ++ₛ mem) len = some (code u).length
  first_text (u : υ) (mem : Memory) :
    getFirstCharLength cs (code u ++ₛ mem) (strlen (code u ++ₛ mem)) = some (code u).length
  lengths (us : List υ) (mem : Memory) :
    getCharLengthInBuf cs (us.flatMap code ++ₛ mem) (us.flatMap code).length =
      some (us.map fun u => (code u).length)

/-- Where bytes are units. -/
def byteCode (b : UInt8) : Bytes := [b]

theorem flatMap_byteCode (bs : Bytes) : bs.flatMap byteCode = bs := List.flatMap_singleton' bs

theorem unitCode_byte {cs : CharSet} (h : cs ≠ .utf8) : UnitCode cs byteCode where
  ne_nil := by simp [byteCode]
  injective := fun a b hab => by simpa [byteCode] using hab
  first := by
    intro u mem len _
    cases cs <;> simp_all [getFirstCharLength, byteCode]
  first_text := by
    intro u mem
    cases cs <;> simp_all [getFirstCharLength, byteCode]
  lengths := by
    intro us mem
    rw [flatMap_byteCode]
    cases cs <;> simp_all [getCharLengthInBuf, byteCode]

theorem utf8EncodeChar_length_pos : 0 < (String.utf8EncodeChar c).length := by
  rw [String.length_utf8EncodeChar]
  exact Char.utf8Size_pos c

theorem localeCharToUCS4_encode (hlen : (String.utf8EncodeChar c).length ≤ len) :
    localeCharToUCS4 (String.utf8EncodeChar c ++ₛ mem) len =
      some (String.utf8EncodeChar c).length := by
  have hpos := utf8EncodeChar_length_pos c
  rw [localeCharToUCS4, if_neg (by omega), inputUtf8_encode c mem hlen]

/-- The first byte of a character is zero only for the character zero. -/
theorem utf8EncodeChar_of_get_zero {c : Char} {mem : Memory}
    (h : (String.utf8EncodeChar c ++ₛ mem).get 0 = 0) : String.utf8EncodeChar c = [0] := by
  apply zero_mem_utf8EncodeChar
  rw [get_append_left 0 _ _ (utf8EncodeChar_length_pos c)] at h
  rw [← h]
  exact List.getElem_mem _

theorem getFirstCharLength_utf8_encode
    (hlen : String.utf8EncodeChar c ≠ [0] → (String.utf8EncodeChar c).length ≤ len) :
    getFirstCharLength .utf8 (String.utf8EncodeChar c ++ₛ mem) len =
      some (String.utf8EncodeChar c).length := by
  rw [getFirstCharLength]
  split_ifs with h0
  · rw [utf8EncodeChar_of_get_zero h0]
    rfl
  · apply localeCharToUCS4_encode
    apply hlen
    intro h
    rw [h] at h0
    exact h0 rfl

end

theorem utf8CharLengths_encode (us : List Char) (mem : Memory) {n : Nat}
    (hn : (us.flatMap String.utf8EncodeChar).length ≤ n) :
    utf8CharLengths n (us.flatMap String.utf8EncodeChar ++ₛ mem)
        (us.flatMap String.utf8EncodeChar).length =
      some (us.map fun u => (String.utf8EncodeChar u).length) := by
  induction us generalizing n with
  | nil => cases n <;> simp [utf8CharLengths]
  | cons u us ih =>
    have hpos := utf8EncodeChar_length_pos u
    rw [List.flatMap_cons, List.length_append] at hn ⊢
    obtain ⟨n, rfl⟩ : ∃ m, n = m + 1 := ⟨n - 1, by omega⟩
    have hread : localeCharToUCS4
        (String.utf8EncodeChar u ++ₛ (us.flatMap String.utf8EncodeChar ++ₛ mem))
        ((String.utf8EncodeChar u).length + (us.flatMap String.utf8EncodeChar).length : Nat) =
          some (String.utf8EncodeChar u).length :=
      localeCharToUCS4_encode u _ (by push_cast; omega)
    rw [utf8CharLengths, if_neg (by omega), append_append_stream, hread]
    simp only [drop_append_stream, Nat.add_sub_cancel_left, ih (n := n) (by omega)]
    rfl

theorem unitCode_utf8 : UnitCode .utf8 String.utf8EncodeChar where
  ne_nil := fun u => List.length_pos_iff.mp (utf8EncodeChar_length_pos u)
  injective := utf8EncodeChar_injective
  first := fun u mem _ h => getFirstCharLength_utf8_encode u mem fun _ => h
  first_text := by
    intro u mem
    apply getFirstCharLength_utf8_encode
    intro hne
    have hlen : (String.utf8EncodeChar u).length ≤ 7 := by
      rw [String.length_utf8EncodeChar]
      exact (Char.utf8Size_le_four u).trans (by norm_num)
    exact_mod_cast strlen_append (fun h0 => hne (zero_mem_utf8EncodeChar h0)) hlen mem
  lengths := by
    intro us mem
    rw [getCharLengthInBuf, if_neg (by omega)]
    exact utf8CharLengths_encode us mem le_rfl

/-! ## Characters -/

namespace CharSet

/-- The characters that a valid text is made of. -/
def Character : CharSet → Type
  | .iso88591 => UInt8
  | .utf8 => Char
  | .ucs2 => UInt16

instance (cs : CharSet) : DecidableEq cs.Character :=
  match cs with
  | .iso88591 => inferInstanceAs (DecidableEq UInt8)
  | .utf8 => inferInstanceAs (DecidableEq Char)
  | .ucs2 => inferInstanceAs (DecidableEq UInt16)

/-- What the matching counts and steps over. -/
def Unit : CharSet → Type
  | .iso88591 => UInt8
  | .utf8 => Char
  | .ucs2 => UInt8

instance (cs : CharSet) : DecidableEq cs.Unit :=
  match cs with
  | .iso88591 => inferInstanceAs (DecidableEq UInt8)
  | .utf8 => inferInstanceAs (DecidableEq Char)
  | .ucs2 => inferInstanceAs (DecidableEq UInt8)

/-- The bytes of a character. A UCS2 character has its low byte first. -/
def encode : (cs : CharSet) → cs.Character → Bytes
  | .iso88591, (c : UInt8) => [c]
  | .utf8, (c : Char) => String.utf8EncodeChar c
  | .ucs2, (c : UInt16) => [c.toUInt8, (c >>> 8).toUInt8]

def units : (cs : CharSet) → cs.Character → List cs.Unit
  | .iso88591, (c : UInt8) => ([c] : List UInt8)
  | .utf8, (c : Char) => ([c] : List Char)
  | .ucs2, (c : UInt16) => ([c.toUInt8, (c >>> 8).toUInt8] : List UInt8)

def code : (cs : CharSet) → cs.Unit → Bytes
  | .iso88591 => byteCode
  | .utf8 => String.utf8EncodeChar
  | .ucs2 => byteCode

def underscore : (cs : CharSet) → cs.Character
  | .iso88591 => (0x5f : UInt8)
  | .utf8 => '_'
  | .ucs2 => (0x5f : UInt16)

def percent : (cs : CharSet) → cs.Character
  | .iso88591 => (0x25 : UInt8)
  | .utf8 => '%'
  | .ucs2 => (0x25 : UInt16)

end CharSet

theorem unitCode (cs : CharSet) : UnitCode cs cs.code := by
  cases cs with
  | iso88591 | ucs2 => exact unitCode_byte (by simp)
  | utf8 => exact unitCode_utf8

end litestore
