-- Patterns with wildcards. A pattern is a list of elements: a run matches any characters, a slot
-- takes one character. Between two runs stands a part, and a text matches the pattern when the
-- first part is its beginning, the last part is its end, and the parts in between stand in order
-- in the rest. The leftmost place of a part is always a right one.
import Mathlib

namespace wildcard

open List

variable {α : Type*} {text : List α}

/-- A slot takes any one character, or only the given one. -/
inductive Slot (α : Type*)
  | one
  | lit (c : α)
  deriving DecidableEq

inductive Element (α : Type*)
  | run
  | slot (s : Slot α)
  deriving DecidableEq

def Slot.Takes : Slot α → α → Prop
  | .one, _ => True
  | .lit c, d => c = d

instance [DecidableEq α] (s : Slot α) (c : α) : Decidable (s.Takes c) :=
  match s with
  | .one => isTrue trivial
  | .lit d => inferInstanceAs (Decidable (d = c))

def Element.Accepts : Element α → List α → Prop
  | .run, _ => True
  | .slot s, piece => ∃ c, piece = [c] ∧ s.Takes c

/-- The text can be cut into consecutive pieces that match the elements in order. -/
def Cut (es : List (Element α)) (text : List α) : Prop :=
  ∃ pieces : List (List α), pieces.flatten = text ∧ Forall₂ Element.Accepts es pieces

/-- The slots of a part take the characters of a text, one each. -/
abbrev Fits (p : List (Slot α)) (text : List α) : Prop := Forall₂ Slot.Takes p text

variable {p q : List (Slot α)} {es : List (Element α)} {ps : List (List (Slot α))}

theorem fits_append : Fits (p ++ q) text ↔ ∃ a b, text = a ++ b ∧ Fits p a ∧ Fits q b := by
  constructor
  · intro h
    induction p generalizing text with
    | nil => exact ⟨[], text, rfl, .nil, h⟩
    | cons s p ih =>
      cases h with
      | cons hs h =>
        obtain ⟨a, b, rfl, ha, hb⟩ := ih h
        exact ⟨_ :: a, b, rfl, .cons hs ha, hb⟩
  · rintro ⟨a, b, rfl, ha, hb⟩
    exact rel_append ha hb

theorem fits_literals (us text : List α) : Fits (us.map .lit) text ↔ us = text := by
  induction us generalizing text with
  | nil => cases text <;> simp [Fits]
  | cons u us ih => cases text <;> simp [Fits, Slot.Takes, ih]

theorem fits_ones (k : Nat) (text : List α) :
    Fits (replicate k .one) text ↔ text.length = k := by
  induction k generalizing text with
  | zero => cases text <;> simp [Fits]
  | succ k ih => cases text <;> simp [Fits, replicate_succ, Slot.Takes, ih]

/-! ## Cutting -/

@[simp] theorem cut_nil (text : List α) : Cut [] text ↔ text = [] := by
  constructor
  · rintro ⟨pieces, rfl, h⟩
    cases h
    rfl
  · rintro rfl
    exact ⟨[], rfl, .nil⟩

theorem cut_cons (e : Element α) (es : List (Element α)) (text : List α) :
    Cut (e :: es) text ↔ ∃ a b, text = a ++ b ∧ e.Accepts a ∧ Cut es b := by
  constructor
  · rintro ⟨pieces, rfl, h⟩
    cases h with
    | cons hhead htail => exact ⟨_, _, rfl, hhead, _, rfl, htail⟩
  · rintro ⟨a, b, rfl, ha, pieces, rfl, hpieces⟩
    exact ⟨a :: pieces, rfl, .cons ha hpieces⟩

theorem cut_run_cons (es : List (Element α)) (text : List α) :
    Cut (.run :: es) text ↔ ∃ a b, text = a ++ b ∧ Cut es b := by
  simp [cut_cons, Element.Accepts]

theorem cut_run (text : List α) : Cut [.run] text :=
  (cut_run_cons [] text).mpr ⟨text, [], (append_nil text).symm, (cut_nil []).mpr rfl⟩

/-- Two runs take what one takes. -/
theorem cut_run_run (es : List (Element α)) (text : List α) :
    Cut (.run :: .run :: es) text ↔ Cut (.run :: es) text := by
  simp only [cut_run_cons]
  constructor
  · rintro ⟨a, _, rfl, b, c, rfl, hc⟩
    exact ⟨a ++ b, c, (append_assoc a b c).symm, hc⟩
  · rintro ⟨a, b, rfl, hb⟩
    exact ⟨a, b, rfl, [], b, rfl, hb⟩

theorem cut_slot_cons (s : Slot α) (es : List (Element α)) (text : List α) :
    Cut (.slot s :: es) text ↔ ∃ c b, text = c :: b ∧ s.Takes c ∧ Cut es b := by
  rw [cut_cons]
  constructor
  · rintro ⟨a, b, rfl, ⟨c, rfl, hc⟩, hb⟩
    exact ⟨c, b, rfl, hc, hb⟩
  · rintro ⟨c, b, rfl, hc, hb⟩
    exact ⟨[c], b, rfl, ⟨c, rfl, hc⟩, hb⟩

theorem cut_append (es fs : List (Element α)) (text : List α) :
    Cut (es ++ fs) text ↔ ∃ a b, text = a ++ b ∧ Cut es a ∧ Cut fs b := by
  induction es generalizing text with
  | nil => simp
  | cons e es ih =>
    rw [cons_append, cut_cons]
    constructor
    · rintro ⟨a, b, rfl, ha, hb⟩
      obtain ⟨b₁, b₂, rfl, h₁, h₂⟩ := (ih b).mp hb
      refine ⟨a ++ b₁, b₂, (append_assoc _ _ _).symm, ?_, h₂⟩
      exact (cut_cons _ _ _).mpr ⟨a, b₁, rfl, ha, h₁⟩
    · rintro ⟨c, b, rfl, hc, hb⟩
      obtain ⟨a, c', rfl, ha, hc'⟩ := (cut_cons _ _ _).mp hc
      exact ⟨a, c' ++ b, append_assoc _ _ _, ha, (ih _).mpr ⟨c', b, rfl, hc', hb⟩⟩

theorem cut_slots (p : List (Slot α)) (text : List α) : Cut (p.map .slot) text ↔ Fits p text := by
  induction p generalizing text with
  | nil => simp [Fits]
  | cons s p ih =>
    rw [map_cons, cut_slot_cons]
    constructor
    · rintro ⟨c, b, rfl, hc, hb⟩
      exact .cons hc ((ih b).mp hb)
    · intro h
      cases h with
      | cons hc hb => exact ⟨_, _, rfl, hc, (ih _).mpr hb⟩

section

variable {β : Type*} {f : α → β}

def Slot.map (f : α → β) : Slot α → Slot β
  | .one => .one
  | .lit c => .lit (f c)

def Element.map (f : α → β) : Element α → Element β
  | .run => .run
  | .slot s => .slot (s.map f)

theorem Slot.takes_map (hf : Function.Injective f) {s : Slot α} {c : α} :
    (s.map f).Takes (f c) ↔ s.Takes c := by
  cases s with
  | one => exact Iff.rfl
  | lit d => exact hf.eq_iff

/-- Other names for the characters do not matter. -/
theorem cut_of_map (hf : Function.Injective f) (h : Cut (es.map (Element.map f)) (text.map f)) :
    Cut es text := by
  induction es generalizing text with
  | nil => simpa using h
  | cons e es ih =>
    cases e with
    | run =>
      obtain ⟨a, b, heq, hb⟩ := (cut_run_cons _ _).mp h
      obtain ⟨a', b', rfl, rfl, rfl⟩ := map_eq_append_iff.mp heq
      exact (cut_run_cons es _).mpr ⟨a', b', rfl, ih hb⟩
    | slot s =>
      obtain ⟨c, b, heq, hc, hb⟩ := (cut_slot_cons _ _ _).mp h
      obtain ⟨c', b', rfl, rfl, rfl⟩ := map_eq_cons_iff.mp heq
      exact (cut_slot_cons s es _).mpr ⟨c', b', rfl, (Slot.takes_map hf).mp hc, ih hb⟩

end

/-- Whether the text can be cut, found by trying every end of a run. -/
def cuts [DecidableEq α] : List (Element α) → List α → Bool
  | [], text => text.isEmpty
  | .run :: es, text => text.tails.any (cuts es)
  | .slot _ :: _, [] => false
  | .slot s :: es, c :: text => decide (s.Takes c) && cuts es text

theorem cuts_iff [DecidableEq α] (es : List (Element α)) (text : List α) :
    cuts es text = true ↔ Cut es text := by
  induction es generalizing text with
  | nil => simp [cuts]
  | cons e es ih =>
    cases e with
    | run =>
      simp only [cuts, any_eq_true, mem_tails, ih, cut_run_cons]
      constructor
      · rintro ⟨b, ⟨a, rfl⟩, hb⟩
        exact ⟨a, b, rfl, hb⟩
      · rintro ⟨a, b, rfl, hb⟩
        exact ⟨b, suffix_append a b, hb⟩
    | slot s =>
      cases text with
      | nil => simp [cuts, cut_slot_cons]
      | cons c text => simp [cuts, cut_slot_cons, ih]

instance [DecidableEq α] (es : List (Element α)) (text : List α) : Decidable (Cut es text) :=
  decidable_of_iff _ (cuts_iff es text)

/-- The element of a character that is not escaped. -/
def plain [DecidableEq α] (underscore percent c : α) : Element α :=
  if c = underscore then .slot .one else if c = percent then .run else .slot (.lit c)

/-- The elements of a pattern in characters. Behind the escape character stands a character that
is special, and that is then a literal. -/
def parse [DecidableEq α] (underscore percent : α) (escape : Option α) :
    List α → Option (List (Element α))
  | [] => some []
  | [c] => if some c = escape then none else some [plain underscore percent c]
  | c :: d :: text =>
    if some c = escape then
      if d = c ∨ d = underscore ∨ d = percent then
        (parse underscore percent escape text).map (.slot (.lit d) :: ·)
      else none
    else (parse underscore percent escape (d :: text)).map (plain underscore percent c :: ·)

theorem parse_plain [DecidableEq α] {underscore percent : α} {escape : Option α} {c : α}
    (h : some c ≠ escape) (text : List α) : parse underscore percent escape (c :: text) =
      (parse underscore percent escape text).map (plain underscore percent c :: ·) := by
  cases text with
  | nil => simp [parse, h]
  | cons d text => rw [parse, if_neg h]

/-- A pattern without an escape character always has elements. -/
theorem parse_none [DecidableEq α] (underscore percent : α) (text : List α) :
    parse underscore percent none text = some (text.map (plain underscore percent)) := by
  induction text with
  | nil => rfl
  | cons c text ih =>
    rw [parse_plain (by simp), ih]
    rfl

/-! ## The parts of a pattern -/

/-- The slots before the first run, and the slots behind each run. -/
def split : List (Element α) → List (Slot α) × List (List (Slot α))
  | [] => ([], [])
  | .run :: es => ([], (split es).1 :: (split es).2)
  | .slot s :: es => (s :: (split es).1, (split es).2)

/-- The pattern with these parts. -/
def joined (p : List (Slot α)) (ps : List (List (Slot α))) : List (Element α) :=
  p.map .slot ++ ps.flatMap fun q => .run :: q.map .slot

theorem joined_split (es : List (Element α)) : joined (split es).1 (split es).2 = es := by
  induction es with
  | nil => rfl
  | cons e es ih =>
    cases e with
    | run | slot s => simpa [split, joined] using ih

/-- Without a run, a slot at the end belongs to the first part. -/
theorem split_concat_slot (h : split es = (p, [])) (s : Slot α) :
    split (es ++ [.slot s]) = (p ++ [s], []) := by
  induction es generalizing p with
  | nil =>
    obtain rfl : [] = p := congrArg Prod.fst h
    rfl
  | cons e es ih =>
    cases e with
    | run => simp [split] at h
    | slot t =>
      obtain ⟨rfl, hlater⟩ := by simpa [split] using h
      simp [split, ih (Prod.ext rfl hlater)]

/-- Behind a run, a slot at the end belongs to the last part. -/
theorem split_concat_slot_last (h : split es = (p, ps ++ [q])) (s : Slot α) :
    split (es ++ [.slot s]) = (p, ps ++ [q ++ [s]]) := by
  induction es generalizing p ps with
  | nil => simp [split] at h
  | cons e es ih =>
    cases e with
    | run =>
      obtain ⟨rfl, hparts⟩ := by simpa [split] using h
      cases ps with
      | nil =>
        obtain ⟨hfirst, hlater⟩ := by simpa using hparts
        simp [split, split_concat_slot (Prod.ext hfirst hlater)]
      | cons p' ps =>
        obtain ⟨hfirst, hlater⟩ := by simpa using hparts
        simp [split, ih (Prod.ext hfirst hlater)]
    | slot t =>
      obtain ⟨rfl, hlater⟩ := by simpa [split] using h
      simp [split, ih (Prod.ext rfl hlater)]

theorem split_append_slots (h : split es = (p, [])) (sl : List (Slot α)) :
    split (es ++ sl.map .slot) = (p ++ sl, []) := by
  induction sl generalizing es p with
  | nil => simpa using h
  | cons s sl ih =>
    have hstep := ih (split_concat_slot h s)
    simpa using hstep

theorem split_append_slots_last (h : split es = (p, ps ++ [q])) (sl : List (Slot α)) :
    split (es ++ sl.map .slot) = (p, ps ++ [q ++ sl]) := by
  induction sl generalizing es q with
  | nil => simpa using h
  | cons s sl ih =>
    have hstep := ih (split_concat_slot_last h s)
    simpa using hstep

/-- A run at the end of a pattern begins an empty part. -/
theorem split_concat_run (es : List (Element α)) :
    split (es ++ [.run]) = ((split es).1, (split es).2 ++ [[]]) := by
  induction es with
  | nil => rfl
  | cons e es ih => cases e <;> simp [split, ih]

/-- The parts stand one after the other in the text, with anything between and around them. -/
def InOrder : List (List (Slot α)) → List α → Prop
  | [], _ => True
  | p :: ps, text => ∃ a t b, text = a ++ (t ++ b) ∧ Fits p t ∧ InOrder ps b

@[simp] theorem inOrder_nil (text : List α) : InOrder [] text := trivial

/-- More text in front does not hurt. -/
theorem InOrder.append_left (h : InOrder ps text) (front : List α) :
    InOrder ps (front ++ text) := by
  cases ps with
  | nil => trivial
  | cons p ps =>
    obtain ⟨a, t, b, rfl, ht, hb⟩ := h
    exact ⟨front ++ a, t, b, by simp, ht, hb⟩

theorem inOrder_nil_cons (ps : List (List (Slot α))) (text : List α) :
    InOrder ([] :: ps) text ↔ InOrder ps text := by
  constructor
  · rintro ⟨a, t, b, rfl, ht, hb⟩
    exact (hb.append_left t).append_left a
  · intro h
    exact ⟨[], [], text, rfl, .nil, h⟩

/-- Empty parts need no place. -/
theorem inOrder_filter (ps : List (List (Slot α))) (text : List α) :
    InOrder (ps.filter fun p => !p.isEmpty) text ↔ InOrder ps text := by
  induction ps generalizing text with
  | nil => rfl
  | cons p ps ih =>
    cases p with
    | nil =>
      rw [filter_cons_of_neg (by simp), inOrder_nil_cons]
      exact ih text
    | cons s p =>
      rw [filter_cons_of_pos (by simp)]
      simp only [InOrder, ih]

/-- A run with the parts behind it, and a last part at the end of the text. -/
theorem cut_later (ps : List (List (Slot α))) (q : List (Slot α)) (text : List α) :
    Cut ((ps ++ [q]).flatMap fun q => .run :: q.map .slot) text ↔
      ∃ m b, text = m ++ b ∧ InOrder ps m ∧ Fits q b := by
  induction ps generalizing text with
  | nil => simp [cut_run_cons, cut_slots]
  | cons p ps ih =>
    rw [cons_append, flatMap_cons, cons_append, cut_run_cons]
    simp only [cut_append, cut_slots, ih]
    constructor
    · rintro ⟨a, _, rfl, t, _, rfl, ht, m, b, rfl, hm, hb⟩
      exact ⟨a ++ (t ++ m), b, by simp, ⟨a, t, m, rfl, ht, hm⟩, hb⟩
    · rintro ⟨_, b, rfl, ⟨a, t, m, rfl, ht, hm⟩, hb⟩
      exact ⟨a, t ++ (m ++ b), by simp, t, m ++ b, rfl, ht, m, b, rfl, hm, hb⟩

/-- With one part, the part takes the whole text. -/
theorem cut_joined_nil (p : List (Slot α)) (text : List α) : Cut (joined p []) text ↔ Fits p text := by
  simp [joined, cut_slots]

/-- With more parts, the first is the beginning, the last is the end, and the others stand in
order between them. -/
theorem cut_joined_concat (p : List (Slot α)) (ps : List (List (Slot α))) (q : List (Slot α))
    (text : List α) : Cut (joined p (ps ++ [q])) text ↔
      ∃ a m b, text = a ++ (m ++ b) ∧ Fits p a ∧ InOrder ps m ∧ Fits q b := by
  rw [joined, cut_append]
  simp only [cut_slots, cut_later]
  constructor
  · rintro ⟨a, _, rfl, ha, m, b, rfl, hm, hb⟩
    exact ⟨a, m, b, rfl, ha, hm, hb⟩
  · rintro ⟨a, m, b, rfl, ha, hm, hb⟩
    exact ⟨a, m ++ b, rfl, ha, m, b, rfl, hm, hb⟩

/-! ## The leftmost place -/

/-- The part takes the beginning of the text. -/
def Starts (p : List (Slot α)) (text : List α) : Prop :=
  ∃ t b, text = t ++ b ∧ Fits p t

@[simp] theorem starts_nil (text : List α) : Starts [] text := ⟨[], text, rfl, .nil⟩

@[simp] theorem not_starts_cons_nil (s : Slot α) (p : List (Slot α)) : ¬ Starts (s :: p) [] := by
  rintro ⟨t, b, h, ht⟩
  cases ht
  simp at h

@[simp] theorem starts_cons_cons (s : Slot α) (p : List (Slot α)) (c : α) (text : List α) :
    Starts (s :: p) (c :: text) ↔ s.Takes c ∧ Starts p text := by
  constructor
  · rintro ⟨t, b, h, ht⟩
    cases ht with
    | cons hc ht =>
      obtain ⟨rfl, rfl⟩ := by simpa using h
      exact ⟨hc, _, b, rfl, ht⟩
  · rintro ⟨hc, t, b, rfl, ht⟩
    exact ⟨c :: t, b, rfl, .cons hc ht⟩

instance [DecidableEq α] : (p : List (Slot α)) → (text : List α) → Decidable (Starts p text)
  | [], text => isTrue (starts_nil text)
  | s :: p, [] => isFalse (not_starts_cons_nil s p)
  | s :: p, c :: text =>
    have : Decidable (Starts p text) := instDecidableStartsOfDecidableEq p text
    decidable_of_iff _ (starts_cons_cons s p c text).symm

theorem Starts.length_le (h : Starts p text) : p.length ≤ text.length := by
  obtain ⟨t, b, rfl, ht⟩ := h
  rw [length_append, ht.length_eq]
  omega

theorem InOrder.length_le (h : InOrder (p :: ps) text) : p.length ≤ text.length := by
  obtain ⟨a, t, b, rfl, ht, _⟩ := h
  rw [length_append, length_append, ht.length_eq]
  omega

theorem InOrder.of_append (qs : List (List (Slot α))) (h : InOrder (qs ++ ps) text) :
    InOrder qs text := by
  induction qs generalizing text with
  | nil => trivial
  | cons q qs ih =>
    obtain ⟨a, t, b, rfl, ht, hb⟩ := h
    exact ⟨a, t, b, rfl, ht, ih hb⟩

theorem InOrder.last_length_le (h : InOrder (ps ++ [p]) text) : p.length ≤ text.length := by
  induction ps generalizing text with
  | nil => exact h.length_le
  | cons q ps ih =>
    obtain ⟨a, t, b, rfl, ht, hb⟩ := h
    have := ih hb
    rw [length_append, length_append]
    omega

/-- Where a part can begin, beginning there is best. -/
theorem inOrder_of_starts (h : Starts p text) (ps : List (List (Slot α))) :
    InOrder (p :: ps) text ↔ InOrder ps (text.drop p.length) := by
  obtain ⟨t, b, rfl, ht⟩ := h
  rw [ht.length_eq, drop_left]
  constructor
  · rintro ⟨a, t', b', heq, ht', hb'⟩
    have hlen : t'.length = t.length := ht'.length_eq.symm.trans ht.length_eq
    -- The other place ends no earlier, so what is behind it is behind the first place too.
    obtain ⟨c, rfl⟩ : ∃ c, b = c ++ b' := by
      have hb : b'.length ≤ b.length := by
        have := congrArg List.length heq
        simp only [length_append] at this
        omega
      have hsuffix : b' <:+ t ++ b := ⟨a ++ t', by rw [heq, append_assoc]⟩
      obtain ⟨c, hc⟩ := suffix_of_suffix_length_le hsuffix (suffix_append t b) hb
      exact ⟨c, hc.symm⟩
    exact hb'.append_left c
  · intro hb
    exact ⟨[], t, b, rfl, ht, hb⟩

/-- Where a part cannot begin, it begins later. -/
theorem inOrder_of_not_starts {c : α} (h : ¬ Starts p (c :: text)) (ps : List (List (Slot α))) :
    InOrder (p :: ps) (c :: text) ↔ InOrder (p :: ps) text := by
  constructor
  · rintro ⟨a, t, b, heq, ht, hb⟩
    cases a with
    | nil => exact absurd ⟨t, b, heq, ht⟩ h
    | cons d a =>
      obtain ⟨_, rfl⟩ := by simpa using heq
      exact ⟨a, t, b, rfl, ht, hb⟩
  · intro hlater
    exact hlater.append_left [c]

end wildcard
