-- Loops that stop at the first error, and maps and sets that refuse a key
-- they hold already. Each loop gets one lemma that says when it succeeds and
-- what it leaves.
import Mathlib

namespace checked

open Std (ExtTreeMap)
open List

universe u

variable {α β : Type u} {ε K V : Type*} {f : α → Except ε β} {l : List α} {l' : List β}
  {R : α → β → Prop} {k : K} {es : List (K × V)}

/-! ## Results -/

theorem bind_eq_ok {x : Except ε α} {b : β} : x >>= f = .ok b ↔ ∃ a, x = .ok a ∧ f a = .ok b := by
  cases x with
  | error e | ok a => simp [bind, Except.bind]

@[simp] theorem ok_bind (a : α) (f : α → Except ε β) : (Except.ok a >>= f) = f a := rfl

@[simp] theorem error_bind (e : ε) (f : α → Except ε β) :
    ((Except.error e : Except ε α) >>= f) = .error e := rfl

/-- A check: the error when the condition fails. -/
def guardOk (p : Prop) [Decidable p] (e : ε) : Except ε Unit := if p then .ok () else .error e

@[simp] theorem guardOk_eq_ok {p : Prop} [Decidable p] {e : ε} {u : Unit} :
    guardOk p e = .ok u ↔ p := by
  unfold guardOk
  split <;> simp_all

/-- The loop that turns each element into a result, or stops. -/
theorem mapM_eq_ok : l.mapM f = .ok l' ↔ Forall₂ (fun a b => f a = .ok b) l l' := by
  induction l generalizing l' with
  | nil =>
    simp only [mapM_nil, forall₂_nil_left_iff]
    constructor
    · intro h
      cases h
      rfl
    · rintro rfl
      rfl
  | cons a l ih =>
    simp only [mapM_cons, bind_eq_ok, ih, forall₂_cons_left_iff]
    constructor
    · rintro ⟨b, hb, bs, hbs, h⟩
      cases h
      exact ⟨b, bs, hb, hbs, rfl⟩
    · rintro ⟨b, bs, hb, hbs, rfl⟩
      exact ⟨b, hb, bs, hbs, rfl⟩

theorem mapM_eq_some {g : α → Option β} :
    l.mapM g = some l' ↔ Forall₂ (fun a b => g a = some b) l l' := by
  induction l generalizing l' with
  | nil => simp [forall₂_nil_left_iff, eq_comm]
  | cons a l ih =>
    simp only [mapM_cons, Option.bind_eq_bind, Option.bind_eq_some_iff, ih, forall₂_cons_left_iff]
    constructor
    · rintro ⟨b, hb, bs, hbs, ⟨⟩⟩
      exact ⟨b, bs, hb, hbs, rfl⟩
    · rintro ⟨b, bs, hb, hbs, rfl⟩
      exact ⟨b, hb, bs, hbs, rfl⟩

/-- The loop succeeds when every element does. -/
theorem mapM_ok_of_forall {g : α → β} (h : ∀ a ∈ l, f a = .ok (g a)) :
    l.mapM f = .ok (l.map g) := by
  rw [mapM_eq_ok, forall₂_map_right_iff, forall₂_same]
  exact h

theorem forall₂_exists_right (h : Forall₂ R l l') {a : α} (ha : a ∈ l) : ∃ b ∈ l', R a b := by
  induction h with
  | nil => simp at ha
  | cons hab _ ih =>
    rcases mem_cons.mp ha with rfl | ha
    · exact ⟨_, mem_cons_self, hab⟩
    · obtain ⟨b, hb, hr⟩ := ih ha
      exact ⟨b, mem_cons_of_mem _ hb, hr⟩

theorem mapM_ok_mem (h : l.mapM f = .ok l') {b : β} (hb : b ∈ l') : ∃ a ∈ l, f a = .ok b :=
  forall₂_exists_right (mapM_eq_ok.mp h).flip hb

/-! ## Lists in step -/

/-- At each place both lists have an element, or both have none. -/
theorem forall₂_getElem? (h : Forall₂ R l l') (n : Nat) :
    (l[n]? = none ∧ l'[n]? = none) ∨ ∃ a b, l[n]? = some a ∧ l'[n]? = some b ∧ R a b := by
  induction h generalizing n with
  | nil => exact .inl ⟨rfl, rfl⟩
  | @cons a b l l' hab _ ih =>
    cases n with
    | zero => exact .inr ⟨a, b, rfl, rfl, hab⟩
    | succ n => exact ih n

/-- What holds between any two elements is carried over to the list in step. -/
theorem forall₂_pairwise {P : α → α → Prop} {Q : β → β → Prop}
    (hstep : ∀ {a b a' b'}, R a b → R a' b' → P a a' → Q b b') (h : Forall₂ R l l')
    (hp : l.Pairwise P) : l'.Pairwise Q := by
  induction h with
  | nil => exact .nil
  | cons hab h ih =>
    rw [pairwise_cons] at hp
    refine .cons (fun b' hb' => ?_) (ih hp.2)
    obtain ⟨a', ha', hab'⟩ := forall₂_exists_right h.flip hb'
    exact hstep hab hab' (hp.1 a' ha')

theorem forall₂_imp_mem {Q : α → β → Prop} (himp : ∀ a ∈ l, ∀ b, R a b → Q a b)
    (h : Forall₂ R l l') : Forall₂ Q l l' := by
  induction h with
  | nil => exact .nil
  | cons hab _ ih =>
    exact .cons (himp _ mem_cons_self _ hab)
      (ih fun a ha => himp a (mem_cons_of_mem _ ha))

/-- A list beside the first one changes nothing. -/
theorem forall₂_zip_iff {γ : Type*} {R : α → γ → Prop} {n : List γ} (h : l'.length = l.length) :
    Forall₂ R l n ↔ Forall₂ (fun entry c => R entry.1 c) (l.zip l') n := by
  induction l generalizing l' n with
  | nil => simp
  | cons a l ih =>
    cases l' with
    | nil => simp at h
    | cons b l' =>
      have hlen : l'.length = l.length := by simpa using h
      simp only [zip_cons_cons, forall₂_cons_left_iff, ih hlen]

theorem pairwise_zip {P : α → α → Prop} (h : l.Pairwise P) (l' : List β) :
    (l.zip l').Pairwise fun a b => P a.1 b.1 := by
  induction l generalizing l' with
  | nil => simp
  | cons a l ih =>
    cases l' with
    | nil => simp
    | cons b l' =>
      rw [pairwise_cons] at h
      rw [zip_cons_cons, pairwise_cons]
      exact ⟨fun p hp => h.1 p.1 (of_mem_zip hp).1, ih h.2 l'⟩

theorem forall₂_set (h : Forall₂ R l l') (n : Nat) {a : α} {b : β} (hab : R a b) :
    Forall₂ R (l.set n a) (l'.set n b) := by
  induction h generalizing n with
  | nil => exact .nil
  | cons hcd h ih =>
    cases n with
    | zero => exact .cons hab h
    | succ n => exact .cons hcd (ih n)

/-! ## A set that refuses what it holds -/

section Sets

/-- No two of the names are equal, and none was seen. -/
def AllNew (seen l : List K) : Prop := l.Nodup ∧ ∀ a ∈ l, a ∉ seen

theorem allNew_nil (seen : List K) : AllNew seen [] := ⟨nodup_nil, by simp⟩

theorem allNew_cons {seen l : List K} {a : K} :
    AllNew seen (a :: l) ↔ a ∉ seen ∧ AllNew (a :: seen) l := by
  simp only [AllNew, nodup_cons, mem_cons, not_or]
  grind

theorem allNew_append {seen l l' : List K} :
    AllNew seen (l ++ l') ↔ AllNew seen l ∧ AllNew (l.reverse ++ seen) l' := by
  induction l generalizing seen with
  | nil => simp [allNew_nil]
  | cons a l ih => simp [allNew_cons, ih, and_assoc]

variable [DecidableEq K]

/-- Add the names of some elements one by one; the first name that is there already ends
the loop. -/
def addAllNew (name : α → K) (err : α → ε) : List K → List α → Except ε (List K)
  | seen, [] => .ok seen
  | seen, a :: rest =>
    if name a ∈ seen then .error (err a) else addAllNew name err (name a :: seen) rest

theorem addAllNew_eq_ok {name : α → K} {err : α → ε} {seen seen' : List K} :
    addAllNew name err seen l = .ok seen' ↔
      AllNew seen (l.map name) ∧ seen' = (l.map name).reverse ++ seen := by
  induction l generalizing seen with
  | nil =>
    simp only [addAllNew, Except.ok.injEq, map_nil, allNew_nil, reverse_nil, nil_append, true_and]
    exact eq_comm
  | cons a l ih =>
    rw [map_cons, allNew_cons]
    unfold addAllNew
    split_ifs with hmem
    · simp [hmem]
    · rw [ih]
      simp [hmem]

end Sets

/-! ## A map that refuses a key it holds -/

section Maps

variable {cmp : K → K → Ordering} [Std.TransCmp cmp]

theorem not_mem_iff_getElem? {m : ExtTreeMap K V cmp} : k ∉ m ↔ m[k]? = none := by
  rw [ExtTreeMap.mem_iff_isSome_getElem?, Bool.not_eq_true, Option.isSome_eq_false_iff,
    Option.isNone_iff_eq_none]

section

variable (m : ExtTreeMap K V cmp)

/-- The map after some puts. -/
def putAll (entries : List (K × V)) : ExtTreeMap K V cmp :=
  entries.foldl (fun acc e => acc.insert e.1 e.2) m

/-- The map after some erasures. -/
def eraseAll (keys : List K) : ExtTreeMap K V cmp :=
  keys.foldl (fun acc k => acc.erase k) m

@[simp] theorem putAll_nil : putAll m [] = m := rfl

@[simp] theorem putAll_cons (e : K × V) (es : List (K × V)) :
    putAll m (e :: es) = putAll (m.insert e.1 e.2) es := rfl

theorem putAll_append (es fs : List (K × V)) :
    putAll m (es ++ fs) = putAll (putAll m es) fs := foldl_append

end

variable [Std.LawfulEqCmp cmp]

theorem getElem?_insert_eq (m : ExtTreeMap K V cmp) (k k' : K) (v : V) [Decidable (k = k')] :
    (m.insert k v)[k']? = if k = k' then some v else m[k']? := by
  rw [ExtTreeMap.getElem?_insert]
  by_cases h : k = k'
  · subst h
    simp
  · rw [if_neg h, if_neg]
    intro hc
    exact h (Std.LawfulEqCmp.eq_of_compare hc)

theorem getElem?_erase_eq (m : ExtTreeMap K V cmp) (k k' : K) [Decidable (k = k')] :
    (m.erase k)[k']? = if k = k' then none else m[k']? := by
  rw [ExtTreeMap.getElem?_erase]
  by_cases h : k = k'
  · subst h
    simp
  · rw [if_neg h, if_neg]
    intro hc
    exact h (Std.LawfulEqCmp.eq_of_compare hc)

/-- A key that no put names keeps its value. -/
theorem putAll_of_notMem {m : ExtTreeMap K V cmp} (h : k ∉ es.map Prod.fst) :
    (putAll m es)[k]? = m[k]? := by
  classical
  induction es generalizing m with
  | nil => rfl
  | cons e es ih =>
    simp only [map_cons, mem_cons, not_or] at h
    rw [putAll_cons, ih h.2, getElem?_insert_eq, if_neg (Ne.symm h.1)]

/-- Puts under different keys are all found. -/
theorem putAll_of_mem {m : ExtTreeMap K V cmp} {v : V} (hnd : (es.map Prod.fst).Nodup)
    (h : (k, v) ∈ es) : (putAll m es)[k]? = some v := by
  classical
  induction es generalizing m with
  | nil => simp at h
  | cons e es ih =>
    simp only [map_cons, nodup_cons] at hnd
    rw [putAll_cons]
    rcases mem_cons.mp h with rfl | hmem
    · rw [putAll_of_notMem hnd.1, getElem?_insert_eq, if_pos rfl]
    · exact ih hnd.2 hmem

/-- A map built from different keys holds exactly their entries. -/
theorem putAll_empty_eq_some {v : V} (hnd : (es.map Prod.fst).Nodup) :
    (putAll (∅ : ExtTreeMap K V cmp) es)[k]? = some v ↔ (k, v) ∈ es := by
  constructor
  · intro h
    by_cases hk : k ∈ es.map Prod.fst
    · obtain ⟨⟨k', w⟩, hmem, rfl⟩ := mem_map.mp hk
      rw [putAll_of_mem hnd hmem] at h
      cases h
      exact hmem
    · rw [putAll_of_notMem hk] at h
      simp at h
  · exact putAll_of_mem hnd

/-- The last put stands in front of the others. -/
theorem putAll_concat (m : ExtTreeMap K V cmp) (e : K × V) [Decidable (e.1 = k)] :
    (putAll m (es ++ [e]))[k]? = if e.1 = k then some e.2 else (putAll m es)[k]? := by
  rw [putAll_append, putAll_cons, putAll_nil, getElem?_insert_eq]

/-- When equal keys come with equal values, the puts hold what the list holds. -/
theorem putAll_empty_of_functional {v : V} (hfun : ∀ a b, (k, a) ∈ es → (k, b) ∈ es → a = b) :
    (putAll (∅ : ExtTreeMap K V cmp) es)[k]? = some v ↔ (k, v) ∈ es := by
  induction es using reverseRecOn with
  | nil => simp
  | append_singleton es e ih =>
    classical
    rw [putAll_concat]
    by_cases hk : e.1 = k
    · subst hk
      rw [if_pos rfl, Option.some.injEq]
      constructor
      · rintro rfl
        simp
      · exact fun hv => hfun _ _ (by simp) hv
    · rw [if_neg hk, ih fun a b ha hb => hfun a b (mem_append_left _ ha)
        (mem_append_left _ hb)]
      simp only [mem_append, mem_singleton, iff_self_or]
      rintro rfl
      exact absurd rfl hk

/-- Puts stand in front of what was there. -/
theorem putAll_getElem? {m : ExtTreeMap K V cmp} (k : K) :
    (putAll m es)[k]? = ((putAll (∅ : ExtTreeMap K V cmp) es)[k]?).or m[k]? := by
  classical
  induction es using reverseRecOn with
  | nil => simp
  | append_singleton es e ih =>
    rw [putAll_concat, putAll_concat]
    split
    · rfl
    · exact ih

/-- The keys that some puts name. -/
theorem putAll_empty_eq_none :
    (putAll (∅ : ExtTreeMap K V cmp) es)[k]? = none ↔ k ∉ es.map Prod.fst := by
  classical
  induction es using reverseRecOn with
  | nil => simp
  | append_singleton es e ih =>
    rw [putAll_concat]
    by_cases hk : e.1 = k
    · simp [hk]
    · simp only [if_neg hk, ih, map_append, mem_append, map_singleton,
        mem_singleton, Ne.symm hk, or_false]

/-- A map put over another one. -/
theorem putAll_toList_getElem? (m e : ExtTreeMap K V cmp) (k : K) :
    (putAll m e.toList)[k]? = e[k]?.or m[k]? := by
  have hnd : (e.toList.map Prod.fst).Nodup := by
    rw [ExtTreeMap.map_fst_toList_eq_keys]
    exact ExtTreeMap.nodup_keys
  cases hk : e[k]? with
  | some v =>
    rw [putAll_of_mem hnd (ExtTreeMap.mem_toList_iff_getElem?_eq_some.mpr hk), Option.some_or]
  | none =>
    rw [putAll_of_notMem, Option.none_or]
    rw [ExtTreeMap.map_fst_toList_eq_keys, ExtTreeMap.mem_keys]
    exact not_mem_iff_getElem?.mpr hk

theorem eraseAll_getElem? [DecidableEq K] {m : ExtTreeMap K V cmp} {ks : List K} :
    (eraseAll m ks)[k]? = if k ∈ ks then none else m[k]? := by
  induction ks generalizing m with
  | nil => simp [eraseAll]
  | cons k0 ks ih =>
    have hstep : eraseAll m (k0 :: ks) = eraseAll (m.erase k0) ks := rfl
    rw [hstep, ih, getElem?_erase_eq]
    by_cases hk : k0 = k
    · subst hk
      simp
    · have hk' : k ≠ k0 := Ne.symm hk
      simp [hk, hk']

/-- Insert entries one by one; the first key that is there already ends the loop. -/
def putAllNew (entry : α → K × V) (err : α → ε) :
    ExtTreeMap K V cmp → List α → Except ε (ExtTreeMap K V cmp)
  | m, [] => .ok m
  | m, a :: rest =>
    if (entry a).1 ∈ m then .error (err a)
    else putAllNew entry err (m.insert (entry a).1 (entry a).2) rest

theorem putAllNew_eq_ok {entry : α → K × V} {err : α → ε} {m m' : ExtTreeMap K V cmp} :
    putAllNew entry err m l = .ok m' ↔
      (l.map fun a => (entry a).1).Nodup ∧ (∀ a ∈ l, m[(entry a).1]? = none) ∧
        m' = putAll m (l.map entry) := by
  classical
  induction l generalizing m with
  | nil =>
    simp only [putAllNew, Except.ok.injEq, map_nil, nodup_nil, not_mem_nil,
      false_implies, implies_true, putAll_nil, true_and]
    exact eq_comm
  | cons a l ih =>
    unfold putAllNew
    split
    · rename_i hmem
      simp only [reduceCtorEq, false_iff]
      rintro ⟨-, hno, -⟩
      exact not_mem_iff_getElem?.mpr (hno a mem_cons_self) hmem
    · rename_i hmem
      have hnone : m[(entry a).1]? = none := not_mem_iff_getElem?.mp hmem
      rw [ih]
      simp only [map_cons, nodup_cons, putAll_cons, mem_cons, forall_eq_or_imp,
        hnone, true_and, getElem?_insert_eq]
      constructor
      · rintro ⟨hnd, hno, hm⟩
        refine ⟨⟨fun hin => ?_, hnd⟩, fun b hb => ?_, hm⟩
        · obtain ⟨b, hb, hbk⟩ := mem_map.mp hin
          have hb' := hno b hb
          rw [if_pos hbk.symm] at hb'
          simp at hb'
        · have hb' := hno b hb
          split at hb'
          · simp at hb'
          · exact hb'
      · rintro ⟨⟨hnot, hnd⟩, hno, hm⟩
        refine ⟨hnd, fun b hb => ?_, hm⟩
        rw [if_neg]
        · exact hno b hb
        · intro hk
          exact hnot (mem_map.mpr ⟨b, hb, hk.symm⟩)

end Maps

end checked
