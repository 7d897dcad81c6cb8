-- A buffer that is written in place. A patch changes the elements of one range
-- and leaves every other element as it was; what is read from a range that no
-- patch touches is what was there before.
import Mathlib

namespace buffer

open List

variable {α : Type*} {buf buf' bs : List α} {start lo hi i : Nat}

/-- The buffer with the given elements from place `start` on. -/
def patch (buf : List α) (start : Nat) (bs : List α) : List α :=
  buf.take start ++ bs ++ buf.drop (start + bs.length)

/-- Two buffers hold the same elements from `lo` up to `hi`. -/
def AgreeOn (buf buf' : List α) (lo hi : Nat) : Prop :=
  ∀ i, lo ≤ i → i < hi → buf[i]? = buf'[i]?

theorem AgreeOn.refl (buf : List α) (lo hi : Nat) : AgreeOn buf buf lo hi := fun _ _ _ => rfl

theorem AgreeOn.trans {buf₁ buf₂ buf₃ : List α} (h : AgreeOn buf₁ buf₂ lo hi)
    (h' : AgreeOn buf₂ buf₃ lo hi) : AgreeOn buf₁ buf₃ lo hi :=
  fun i hlo hhi => (h i hlo hhi).trans (h' i hlo hhi)

theorem AgreeOn.mono {lo' hi' : Nat} (h : AgreeOn buf buf' lo hi) (hlo : lo ≤ lo')
    (hhi : hi' ≤ hi) : AgreeOn buf buf' lo' hi' :=
  fun i h₁ h₂ => h i (Nat.le_trans hlo h₁) (Nat.lt_of_lt_of_le h₂ hhi)

/-- Buffers that agree on a range give the same elements to who reads inside it. -/
theorem AgreeOn.window {off n : Nat} (h : AgreeOn buf buf' lo hi) (hlo : lo ≤ off)
    (hhi : off + n ≤ hi) : (buf.drop off).take n = (buf'.drop off).take n := by
  apply ext_getElem?
  intro i
  rw [getElem?_take, getElem?_take]
  split
  · rw [getElem?_drop, getElem?_drop]
    exact h (off + i) (by omega) (by omega)
  · rfl

@[simp] theorem patch_nil : patch buf start [] = buf := by
  simp [patch]

section

variable (h : start + bs.length ≤ buf.length)

include h

theorem patch_length : (patch buf start bs).length = buf.length := by
  simp [patch]
  omega

theorem getElem?_patch_outside (hi : i < start ∨ start + bs.length ≤ i) :
    (patch buf start bs)[i]? = buf[i]? := by
  have htake : (buf.take start).length = start := by simp; omega
  unfold patch
  rcases hi with hi | hi
  · rw [append_assoc, getElem?_append_left (by omega), getElem?_take, if_pos hi]
  · have hboth : (buf.take start ++ bs).length = start + bs.length := by simp; omega
    rw [getElem?_append_right (by omega), hboth, getElem?_drop]
    congr 1
    omega

theorem agreeOn_patch (hapart : hi ≤ start ∨ start + bs.length ≤ lo) :
    AgreeOn (patch buf start bs) buf lo hi := by
  intro i hlo hhi
  apply getElem?_patch_outside h
  omega

theorem window_patch : ((patch buf start bs).drop start).take bs.length = bs := by
  have htake : (buf.take start).length = start := by simp; omega
  unfold patch
  rw [append_assoc, drop_append_of_le_length (by omega),
    drop_of_length_le (by omega), nil_append, take_left]

end

/-! ## Changing one element -/

theorem agreeOn_modify {f : α → α} (hapart : i < lo ∨ hi ≤ i) :
    AgreeOn (buf.modify i f) buf lo hi := by
  intro j hlo hhi
  have hne : i ≠ j := by omega
  simp [hne]

theorem modify_concat {α : Type} (front : List α) (x : α) (f : α → α) :
    (front ++ [x]).modify front.length f = front ++ [f x] := by
  induction front with
  | nil => rfl
  | cons y rest ih => exact congrArg (y :: ·) ih

/-! ## Patches one after another -/

/-- Two patches side by side are one. -/
theorem patch_patch_append {bs' : List α} (h : start + bs.length ≤ buf.length) :
    patch (patch buf start bs) (start + bs.length) bs' = patch buf start (bs ++ bs') := by
  have htake : (buf.take start).length = start := by simp; omega
  have hfront : (buf.take start ++ bs).length = start + bs.length := by simp; omega
  unfold patch
  rw [take_append_of_le_length (by omega), take_of_length_le (by omega),
    drop_append, drop_of_length_le (by omega), nil_append, drop_drop, hfront,
    length_append]
  simp only [append_assoc]
  congr 4
  omega

/-- A patch over the front of another leaves the rest of that one. -/
theorem patch_patch_front {bs' : List α} (h : start + bs.length ≤ buf.length)
    (hle : bs'.length ≤ bs.length) :
    patch (patch buf start bs) start bs' = patch buf start (bs' ++ bs.drop bs'.length) := by
  have htake : (buf.take start).length = start := by simp; omega
  have hfront : (patch buf start bs).take start = buf.take start := by
    unfold patch
    rw [append_assoc, take_append_of_le_length (by omega), take_of_length_le (by omega)]
  have hback : (patch buf start bs).drop (start + bs'.length) =
      bs.drop bs'.length ++ buf.drop (start + bs.length) := by
    have hdrop : (buf.take start).drop start = [] := drop_of_length_le (by omega)
    unfold patch
    rw [← drop_drop, append_assoc, drop_append_of_le_length (by omega), hdrop,
      nil_append, drop_append_of_le_length hle]
  have hlength : (bs' ++ bs.drop bs'.length).length = bs.length := by simp; omega
  rw [patch, hfront, hback, patch, hlength]
  simp only [append_assoc]

/-- A part of a buffer that belongs to one owner, and the elements the owner puts at its front. -/
structure Slot (α : Type*) where
  start : Nat
  size : Nat
  elems : List α

/-- Two parts that have no place in common. -/
def Apart (a b : Nat × Nat) : Prop := a.1 + a.2 ≤ b.1 ∨ b.1 + b.2 ≤ a.1

instance (a b : Nat × Nat) : Decidable (Apart a b) := by
  unfold Apart
  infer_instance

def Slot.part (slot : Slot α) : Nat × Nat := (slot.start, slot.size)

variable {slots : List (Slot α)}

/-- The owners write one after another. -/
def fill (buf : List α) (slots : List (Slot α)) : List α :=
  slots.foldl (fun buf slot => patch buf slot.start slot.elems) buf

@[simp] theorem fill_nil : fill buf [] = buf := rfl

@[simp] theorem fill_cons (slot : Slot α) (slots : List (Slot α)) :
    fill buf (slot :: slots) = fill (patch buf slot.start slot.elems) slots := rfl

theorem fill_append (first second : List (Slot α)) :
    fill buf (first ++ second) = fill (fill buf first) second := foldl_append

/-- Every owner keeps to a part inside the buffer. -/
def Inside (buf : List α) (slot : Slot α) : Prop :=
  slot.elems.length ≤ slot.size ∧ slot.start + slot.size ≤ buf.length

theorem fill_length (h : ∀ slot ∈ slots, Inside buf slot) :
    (fill buf slots).length = buf.length := by
  induction slots generalizing buf with
  | nil => rfl
  | cons slot rest ih =>
    obtain ⟨hfits, hinside⟩ := h slot mem_cons_self
    have hlength : (patch buf slot.start slot.elems).length = buf.length :=
      patch_length (by omega)
    rw [fill_cons, ih, hlength]
    intro other hmem
    rw [Inside, hlength]
    exact h other (mem_cons_of_mem _ hmem)

/-- Who owns none of the parts finds the place as it was. -/
theorem agreeOn_fill (h : ∀ slot ∈ slots, Inside buf slot)
    (hapart : ∀ slot ∈ slots, Apart (lo, hi - lo) slot.part) (hle : lo ≤ hi) :
    AgreeOn (fill buf slots) buf lo hi := by
  induction slots generalizing buf with
  | nil => exact AgreeOn.refl buf lo hi
  | cons slot rest ih =>
    obtain ⟨hfits, hinside⟩ := h slot mem_cons_self
    have hfirst := hapart slot mem_cons_self
    unfold Apart Slot.part at hfirst
    dsimp only at hfirst
    have hpatch : slot.start + slot.elems.length ≤ buf.length := by omega
    have hkept : AgreeOn (patch buf slot.start slot.elems) buf lo hi :=
      agreeOn_patch hpatch (by omega)
    refine AgreeOn.trans ?_ hkept
    apply ih
    · intro other hmem
      rw [Inside, patch_length hpatch]
      exact h other (mem_cons_of_mem _ hmem)
    · exact fun other hmem => hapart other (mem_cons_of_mem _ hmem)

/-- After all have written, every part holds what its owner put there, and behind it what the
buffer was filled with. -/
theorem window_fill {z : α} {n : Nat} (h : ∀ slot ∈ slots, Inside (replicate n z) slot)
    (hapart : (slots.map Slot.part).Pairwise Apart) {slot : Slot α} (hmem : slot ∈ slots) :
    ((fill (replicate n z) slots).drop slot.start).take slot.size =
      slot.elems ++ replicate (slot.size - slot.elems.length) z := by
  obtain ⟨before, behind, rfl⟩ := append_of_mem hmem
  have hsymm : ∀ {a b : Nat × Nat}, Apart a b → Apart b a := fun hab => hab.symm
  rw [map_append, map_cons, pairwise_append, pairwise_cons] at hapart
  obtain ⟨-, ⟨hbehind, -⟩, hbefore⟩ := hapart
  obtain ⟨hfits, hinside⟩ := h slot (by simp)
  have hinside_before : ∀ other ∈ before, Inside (replicate n z) other :=
    fun other hother => h other (by simp [hother])
  have hlength := fill_length hinside_before
  have hpatch : slot.start + slot.elems.length ≤ (fill (replicate n z) before).length := by
    omega
  -- the owners before leave the part as it was, the owner writes, those behind leave that
  have hclean : AgreeOn (fill (replicate n z) before) (replicate n z) slot.start
      (slot.start + slot.size) := by
    apply agreeOn_fill hinside_before _ (by omega)
    intro other hother
    rw [Nat.add_sub_cancel_left]
    exact hsymm (hbefore _ (mem_map_of_mem hother) _ mem_cons_self)
  have hkept : AgreeOn (fill (replicate n z) (before ++ slot :: behind))
      (patch (fill (replicate n z) before) slot.start slot.elems) slot.start
      (slot.start + slot.size) := by
    rw [fill_append, fill_cons]
    apply agreeOn_fill _ _ (by omega)
    · intro other hother
      rw [Inside, patch_length hpatch, hlength]
      exact h other (by simp [hother])
    · intro other hother
      rw [Nat.add_sub_cancel_left]
      exact hbehind _ (mem_map_of_mem hother)
  have hrest : AgreeOn (patch (fill (replicate n z) before) slot.start slot.elems)
      (replicate n z) (slot.start + slot.elems.length) (slot.start + slot.size) :=
    (agreeOn_patch hpatch (.inr le_rfl)).trans (hclean.mono (by omega) le_rfl)
  rw [length_replicate] at hinside
  rw [hkept.window le_rfl le_rfl]
  have hsplit : slot.size = slot.elems.length + (slot.size - slot.elems.length) := by omega
  rw [hsplit, List.take_add, window_patch hpatch, drop_drop, ← hsplit,
    hrest.window le_rfl (by omega), drop_replicate, take_replicate]
  congr 2
  omega

end buffer
