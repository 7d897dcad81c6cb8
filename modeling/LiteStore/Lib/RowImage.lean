-- Rows that spread over several records. Each row owns some keys of a map and
-- gives each of them a value. The map is the image of the rows when it holds
-- the records of the rows and nothing else, and no key has two owners.
import Mathlib

namespace rowimage

open List

variable {ρ K V : Type*} {rec : ρ → K → Option V} {rows more : List ρ} {m m' : K → Option V}

/-! ## Owners of a key -/

/-- The number of rows that own a key. -/
def owners (rec : ρ → K → Option V) (rows : List ρ) (k : K) : Nat :=
  rows.countP fun r => (rec r k).isSome

@[simp] theorem owners_nil (rec : ρ → K → Option V) (k : K) : owners rec [] k = 0 := rfl

@[simp] theorem owners_append (rec : ρ → K → Option V) (rows more : List ρ) (k : K) :
    owners rec (rows ++ more) k = owners rec rows k + owners rec more k :=
  countP_append

theorem owners_cons (rec : ρ → K → Option V) (r : ρ) (rows : List ρ) (k : K) :
    owners rec (r :: rows) k = owners rec rows k + if (rec r k).isSome then 1 else 0 :=
  countP_cons

theorem owners_perm (h : rows.Perm more) (k : K) : owners rec rows k = owners rec more k :=
  h.countP_eq _

theorem owners_pos {k : K} : 0 < owners rec rows k ↔ ∃ r ∈ rows, ∃ v, rec r k = some v := by
  unfold owners
  rw [countP_pos_iff]
  constructor
  · rintro ⟨r, hr, hs⟩
    exact ⟨r, hr, Option.isSome_iff_exists.mp hs⟩
  · rintro ⟨r, hr, v, hv⟩
    exact ⟨r, hr, by simp [hv]⟩

theorem owners_zero {k : K} : owners rec rows k = 0 ↔ ∀ r ∈ rows, rec r k = none := by
  unfold owners
  rw [countP_eq_zero]
  simp

/-- No key has two owners. -/
def Apart (rec : ρ → K → Option V) (rows : List ρ) : Prop := ∀ k, owners rec rows k ≤ 1

theorem Apart.perm (h : Apart rec rows) (hp : rows.Perm more) :
    Apart rec more := fun k => owners_perm hp k ▸ h k

theorem Apart.left (h : Apart rec (rows ++ more)) : Apart rec rows := by
  intro k
  have hk := h k
  rw [owners_append] at hk
  omega

theorem Apart.right (h : Apart rec (rows ++ more)) : Apart rec more := by
  intro k
  have hk := h k
  rw [owners_append] at hk
  omega

/-- Two rows that give a key a value are one row. -/
theorem Apart.owner_unique (h : Apart rec rows) {r s : ρ} {k : K} {v w : V} (hr : r ∈ rows)
    (hs : s ∈ rows) (hv : rec r k = some v) (hw : rec s k = some w) : r = s := by
  by_contra hne
  obtain ⟨front, back, rfl⟩ := append_of_mem hr
  have hmem : s ∈ front ++ back := by
    simp only [mem_append, mem_cons] at hs ⊢
    rcases hs with h1 | h1 | h1
    · exact .inl h1
    · exact absurd h1.symm hne
    · exact .inr h1
  have hpos : 0 < owners rec (front ++ back) k := owners_pos.mpr ⟨s, hmem, w, hw⟩
  have hone := h k
  rw [owners_append, owners_cons] at hone
  rw [owners_append] at hpos
  simp only [hv, Option.isSome_some, if_true] at hone
  omega

/-! ## Images -/

/-- The map holds the records of the rows and nothing else. -/
structure IsImage (rec : ρ → K → Option V) (rows : List ρ) (m : K → Option V) : Prop where
  apart : Apart rec rows
  holds : ∀ k v, m k = some v ↔ ∃ r ∈ rows, rec r k = some v

theorem IsImage.perm (h : IsImage rec rows m) (hp : rows.Perm more) : IsImage rec more m := by
  refine ⟨h.apart.perm hp, fun k v => ?_⟩
  rw [h.holds]
  exact exists_congr fun r => and_congr_left fun _ => hp.mem_iff

theorem IsImage.none_iff (h : IsImage rec rows m) (k : K) : m k = none ↔ owners rec rows k = 0 := by
  rw [owners_zero, Option.eq_none_iff_forall_ne_some]
  constructor
  · intro hm r hr
    rw [Option.eq_none_iff_forall_ne_some]
    intro v hv
    exact hm v ((h.holds k v).mpr ⟨r, hr, hv⟩)
  · intro hall v hv
    obtain ⟨r, hr, hrv⟩ := (h.holds k v).mp hv
    simp [hall r hr] at hrv

/-- The image of a list of rows is one map. -/
theorem IsImage.unique (h : IsImage rec rows m) (h' : IsImage rec rows m') : m = m' := by
  funext k
  apply Option.ext
  intro v
  rw [h.holds, h'.holds]

theorem isImage_nil (rec : ρ → K → Option V) : IsImage rec [] (fun _ => none) :=
  ⟨fun k => by simp, fun k v => by simp⟩

/-! ## Changing rows -/

/-- The map after the records of the rows `out` are erased and those of `new` are put. -/
structure Changed (rec : ρ → K → Option V) (out new : List ρ) (m m' : K → Option V) : Prop where
  put : ∀ r ∈ new, ∀ k v, rec r k = some v → m' k = some v
  erased : ∀ k, owners rec new k = 0 → 0 < owners rec out k → m' k = none
  kept : ∀ k, owners rec new k = 0 → owners rec out k = 0 → m' k = m k

/-- Each key of a new row is free, or an outgoing row owns it. -/
def Fresh (rec : ρ → K → Option V) (out new : List ρ) (m : K → Option V) : Prop :=
  ∀ k, 0 < owners rec new k → m k = none ∨ 0 < owners rec out k

/-- New rows fit beside the rows that stay exactly when they fit with each other and
their keys are free or leave with an outgoing row. -/
theorem apart_iff_fresh {out stay new : List ρ} (h : IsImage rec (out ++ stay) m) :
    Apart rec (stay ++ new) ↔ Apart rec new ∧ Fresh rec out new m := by
  constructor
  · intro ha
    refine ⟨ha.right, fun k hk => ?_⟩
    have hsum := ha k
    have hbefore := h.apart k
    rw [owners_append] at hsum hbefore
    rw [h.none_iff, owners_append]
    omega
  · rintro ⟨hnew, hfresh⟩ k
    have hone := hnew k
    have hbefore := h.apart k
    have hmaybe := hfresh k
    rw [h.none_iff] at hmaybe
    rw [owners_append] at hbefore hmaybe ⊢
    omega

/-- Erasing rows and putting others that fit keeps the map an image. -/
theorem IsImage.change {out stay new : List ρ} (h : IsImage rec (out ++ stay) m)
    (hnew : Apart rec new) (hfresh : Fresh rec out new m) (hc : Changed rec out new m m') :
    IsImage rec (stay ++ new) m' := by
  have hapart : Apart rec (stay ++ new) := (apart_iff_fresh h).mpr ⟨hnew, hfresh⟩
  refine ⟨hapart, fun k v => ?_⟩
  have hbefore := h.apart k
  have hafter := hapart k
  rw [owners_append] at hbefore hafter
  by_cases hn : 0 < owners rec new k
  · -- a new row owns the key, so no row that stays does
    obtain ⟨r, hr, w, hw⟩ := owners_pos.mp hn
    rw [hc.put r hr k w hw]
    constructor
    · rintro ⟨⟩
      exact ⟨r, mem_append_right _ hr, hw⟩
    · rintro ⟨s, hs, hsv⟩
      have heq := hapart.owner_unique (mem_append_right _ hr) hs hw hsv
      subst heq
      rw [hw] at hsv
      exact hsv
  · have hn0 : owners rec new k = 0 := by omega
    have hskip : ∀ s ∈ new, rec s k ≠ some v := fun s hs => by
      simp [owners_zero.mp hn0 s hs]
    by_cases ho : 0 < owners rec out k
    · rw [hc.erased k hn0 ho]
      have hstay : owners rec stay k = 0 := by omega
      constructor
      · intro hnone
        simp at hnone
      · rintro ⟨s, hs, hsv⟩
        rcases mem_append.mp hs with h1 | h1
        · simp [owners_zero.mp hstay s h1] at hsv
        · exact absurd hsv (hskip s h1)
    · have ho0 : owners rec out k = 0 := by omega
      rw [hc.kept k hn0 ho0, h.holds]
      constructor
      · rintro ⟨s, hs, hsv⟩
        rcases mem_append.mp hs with h1 | h1
        · simp [owners_zero.mp ho0 s h1] at hsv
        · exact ⟨s, mem_append_left _ h1, hsv⟩
      · rintro ⟨s, hs, hsv⟩
        rcases mem_append.mp hs with h1 | h1
        · exact ⟨s, mem_append_right _ h1, hsv⟩
        · exact absurd hsv (hskip s h1)

theorem apart_singleton (rec : ρ → K → Option V) (r : ρ) : Apart rec [r] := by
  intro k
  rw [owners_cons]
  split <;> simp

theorem owners_singleton (rec : ρ → K → Option V) (r : ρ) (k : K) :
    0 < owners rec [r] k ↔ rec r k ≠ none := by
  rw [owners_cons, owners_nil]
  cases h : rec r k <;> simp

section

variable (h : IsImage rec rows m)

include h

/-- One more row fits exactly when its keys are free. -/
theorem IsImage.apart_snoc {r : ρ} :
    Apart rec (rows ++ [r]) ↔ ∀ k, rec r k ≠ none → m k = none := by
  have hstart : IsImage rec ([] ++ rows) m := h
  rw [apart_iff_fresh hstart]
  simp only [apart_singleton, true_and, Fresh, owners_singleton, owners_nil, lt_irrefl, or_false]

/-- The map with the records of one more row. -/
theorem IsImage.snoc {r : ρ} (hfree : ∀ k, rec r k ≠ none → m k = none)
    (hput : ∀ k v, rec r k = some v → m' k = some v) (hkept : ∀ k, rec r k = none → m' k = m k) :
    IsImage rec (rows ++ [r]) m' := by
  have hzero : ∀ k, owners rec [r] k = 0 ↔ rec r k = none := fun k => by
    rw [owners_zero]
    simp
  have hstart : IsImage rec ([] ++ rows) m := h
  refine hstart.change (apart_singleton rec r) ?_ ⟨?_, ?_, ?_⟩
  · intro k hk
    exact .inl (hfree k ((owners_singleton rec r k).mp hk))
  · intro s hs k v hv
    rw [mem_singleton] at hs
    subst hs
    exact hput k v hv
  · intro k _ hpos
    simp at hpos
  · intro k hk _
    exact hkept k ((hzero k).mp hk)

/-! ## Changing what a row owns -/

/-- Every row gains records under keys that the map did not hold. -/
theorem IsImage.extend {rec' extra : ρ → K → Option V}
    (hextra : IsImage extra rows m') (hfree : ∀ k, m k = none ∨ m' k = none)
    (hrec : ∀ r ∈ rows, ∀ k, rec' r k = (rec r k).or (extra r k)) :
    IsImage rec' rows (fun k => (m k).or (m' k)) := by
  have hsplit : ∀ k, (owners extra rows k = 0 ∨ owners rec rows k = 0) := by
    intro k
    rw [← h.none_iff, ← hextra.none_iff]
    exact (hfree k).symm
  have hside : ∀ k, (∀ r ∈ rows, rec' r k = rec r k) ∧ m' k = none ∨
      (∀ r ∈ rows, rec' r k = extra r k) ∧ m k = none := by
    intro k
    rcases hsplit k with h0 | h0
    · refine .inl ⟨fun r hr => ?_, (hextra.none_iff k).mpr h0⟩
      rw [hrec r hr k, owners_zero.mp h0 r hr, Option.or_none]
    · refine .inr ⟨fun r hr => ?_, (h.none_iff k).mpr h0⟩
      rw [hrec r hr k, owners_zero.mp h0 r hr, Option.none_or]
  have howners : ∀ (g : ρ → K → Option V) k, (∀ r ∈ rows, rec' r k = g r k) →
      owners rec' rows k = owners g rows k := fun g k hg =>
    countP_congr fun r hr => by rw [hg r hr]
  refine ⟨fun k => ?_, fun k v => ?_⟩
  · rcases hside k with ⟨hg, _⟩ | ⟨hg, _⟩
    · rw [howners rec k hg]
      exact h.apart k
    · rw [howners extra k hg]
      exact hextra.apart k
  · rcases hside k with ⟨hg, hm⟩ | ⟨hg, hm⟩
    · rw [hm, Option.or_none, h.holds]
      exact exists_congr fun r => and_congr_right fun hr => by rw [hg r hr]
    · rw [hm, Option.none_or, hextra.holds]
      exact exists_congr fun r => and_congr_right fun hr => by rw [hg r hr]

/-- Every row loses its records under some keys. -/
theorem IsImage.restrict {rec' : ρ → K → Option V} (lost : K → Bool)
    (hrec : ∀ r ∈ rows, ∀ k, rec' r k = if lost k then none else rec r k) :
    IsImage rec' rows (fun k => if lost k then none else m k) := by
  refine ⟨fun k => ?_, fun k v => ?_⟩
  · cases hl : lost k with
    | true =>
      have hzero : owners rec' rows k = 0 := owners_zero.mpr fun r hr => by simp [hrec r hr, hl]
      omega
    | false =>
      have hsame : owners rec' rows k = owners rec rows k :=
        countP_congr fun r hr => by simp [hrec r hr, hl]
      rw [hsame]
      exact h.apart k
  · cases hl : lost k with
    | true =>
      simp only [if_true, reduceCtorEq, false_iff]
      rintro ⟨r, hr, hv⟩
      simp [hrec r hr, hl] at hv
    | false =>
      simp only [Bool.false_eq_true, if_false, h.holds]
      exact exists_congr fun r => and_congr_right fun hr => by simp [hrec r hr, hl]

end

end rowimage
