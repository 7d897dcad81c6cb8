-- Many ordered maps in one. Each space writes its keys into one shared ordered
-- map, so that the keys of a space stand side by side and in their own order.
-- A space then reads and walks the shared map as if it had it alone.
import LiteStore.Lib.Batch
import LiteStore.Lib.OrderedScan

namespace keyspace

open Std (ExtTreeMap)
open checked batch orderedscan List

/-- How spaces write their keys into one ordered set of keys. A space owns the keys that
pass its test; they form a run that begins at `first` or behind it. -/
structure Keyspace (ι K L : Type*) (cmpK : K → K → Ordering) (cmpL : L → L → Ordering) where
  first : ι → L
  key : ι → K → L
  owns : ι → L → Bool
  order : ∀ i a b, cmpL (key i a) (key i b) = cmpK a b
  owns_own : ∀ i a, owns i (key i a) = true
  owns_other : ∀ i j a, owns i (key j a) = true → i = j
  not_before : ∀ i a, cmpL (key i a) (first i) ≠ .lt
  convex : ∀ i a b, cmpL a (first i) ≠ .lt → cmpL a b = .lt → owns i b = true → owns i a = true

variable {ι K L V : Type*} {cmpK : K → K → Ordering} {cmpL : L → L → Ordering}
variable {S : Keyspace ι K L cmpK cmpL} {i j : ι}

theorem Keyspace.key_inj [Std.LawfulEqCmp cmpK] [Std.ReflCmp cmpL] {a b : K}
    (h : S.key i a = S.key i b) : a = b := by
  have heq : cmpL (S.key i a) (S.key i b) = .eq := by rw [h]; exact Std.ReflCmp.compare_self
  rw [S.order] at heq
  exact Std.LawfulEqCmp.eq_of_compare heq

theorem Keyspace.not_owns (h : i ≠ j) (k : K) : S.owns i (S.key j k) = false := by
  cases howns : S.owns i (S.key j k) with
  | false => rfl
  | true => exact absurd (S.owns_other i j k howns) h

variable [Std.TransCmp cmpK] [Std.LawfulEqCmp cmpK] [Std.TransCmp cmpL] [Std.LawfulEqCmp cmpL]

/-! ## What a space sees -/

/-- The map that a space sees in the shared map: it reads its own keys, and everything that
it owns was written by it. -/
structure Shows (S : Keyspace ι K L cmpK cmpL) (i : ι) (db : ExtTreeMap L V cmpL)
    (m : ExtTreeMap K V cmpK) : Prop where
  read : ∀ k, db[S.key i k]? = m[k]?
  written : ∀ l, l ∈ db → S.owns i l = true → ∃ k, l = S.key i k

section Operations

variable {db : ExtTreeMap L V cmpL} {m : ExtTreeMap K V cmpK}

/-- An operation of the space itself. -/
theorem Shows.own_op (h : Shows S i db m) (o : Op K V) :
    Shows S i (applyOp db (o.mapKey (S.key i))) (applyOp m o) := by
  classical
  constructor
  · intro k
    rw [applyOp_getElem?, applyOp_getElem?, h.read, Op.key_mapKey, Op.result_mapKey]
    by_cases hk : o.key = k
    · rw [if_pos hk, if_pos (by rw [hk])]
    · rw [if_neg hk, if_neg fun he => hk (Keyspace.key_inj he)]
  · intro l hl howns
    by_cases hk : S.key i o.key = l
    · exact ⟨o.key, hk.symm⟩
    · apply h.written l _ howns
      rw [← ExtTreeMap.isSome_getElem?_iff_mem] at hl ⊢
      rwa [applyOp_getElem?, Op.key_mapKey, if_neg hk] at hl

omit [Std.LawfulEqCmp cmpK] in
/-- An operation on a key that the space does not own. -/
theorem Shows.foreign_op (h : Shows S i db m) {o : Op L V} (ho : S.owns i o.key = false) :
    Shows S i (applyOp db o) m := by
  classical
  have hother : ∀ {l}, S.owns i l = true → (applyOp db o)[l]? = db[l]? := by
    intro l hl
    rw [applyOp_getElem?, if_neg]
    rintro rfl
    rw [ho] at hl
    cases hl
  constructor
  · intro k
    rw [hother (S.owns_own i k), h.read]
  · intro l hl howns
    apply h.written l _ howns
    rw [← ExtTreeMap.isSome_getElem?_iff_mem] at hl ⊢
    rwa [hother howns] at hl

theorem Shows.own_batch (h : Shows S i db m) (ops : List (Op K V)) :
    Shows S i (apply db (ops.map (Op.mapKey (S.key i)))) (apply m ops) := by
  induction ops generalizing db m with
  | nil => exact h
  | cons o ops ih => exact ih (h.own_op o)

omit [Std.LawfulEqCmp cmpK] in
theorem Shows.foreign_batch (h : Shows S i db m) {ops : List (Op L V)}
    (hops : ∀ o ∈ ops, S.owns i o.key = false) : Shows S i (apply db ops) m := by
  induction ops generalizing db with
  | nil => exact h
  | cons o ops ih =>
    apply ih (h.foreign_op (hops o mem_cons_self))
    exact fun p hp => hops p (mem_cons_of_mem _ hp)

end Operations

/-! ## The records of a space -/

/-- A record of the space in the shared map. -/
def Keyspace.record (S : Keyspace ι K L cmpK cmpL) (i : ι) (r : K × V) : L × V :=
  (S.key i r.1, r.2)

section Walks

variable {db : ExtTreeMap L V cmpL} {m : ExtTreeMap K V cmpK}

omit [Std.LawfulEqCmp cmpL] in
theorem sorted_toList (db : ExtTreeMap L V cmpL) :
    db.toList.Pairwise fun a b => cmpL a.1 b.1 = .lt := ExtTreeMap.ordered_keys_toList

omit [Std.LawfulEqCmp cmpL] in
theorem nodup_of_sorted {l : List (L × V)} (hl : l.Pairwise fun a b => cmpL a.1 b.1 = .lt) :
    l.Nodup := by
  refine hl.imp ?_
  rintro a b hab rfl
  have hself : cmpL a.1 a.1 = .eq := Std.ReflCmp.compare_self
  rw [hself] at hab
  cases hab

/-- The records that the space owns, in their order, are the records of its map. -/
theorem Shows.owned (h : Shows S i db m) :
    (db.toList.filter fun r => S.owns i r.1) = m.toList.map (S.record i) := by
  have hleft : (db.toList.filter fun r => S.owns i r.1).Pairwise
      fun a b => cmpL a.1 b.1 = .lt := (sorted_toList db).filter _
  have hright : (m.toList.map (S.record i)).Pairwise fun a b => cmpL a.1 b.1 = .lt := by
    rw [pairwise_map]
    refine (sorted_toList m).imp ?_
    intro a b hab
    show cmpL (S.key i a.1) (S.key i b.1) = .lt
    rw [S.order]
    exact hab
  -- two sorted lists with the same elements are one list
  refine Perm.eq_of_pairwise ?_ hleft hright
    ((perm_ext_iff_of_nodup (nodup_of_sorted hleft) (nodup_of_sorted hright)).mpr ?_)
  · intro a b _ _ hab hba
    have hgt := Std.OrientedCmp.gt_of_lt hab
    rw [hba] at hgt
    cases hgt
  · rintro ⟨l, v⟩
    rw [mem_filter, mem_map, ExtTreeMap.mem_toList_iff_getElem?_eq_some]
    constructor
    · rintro ⟨hl, howns⟩
      have hmem : l ∈ db := by
        rw [← ExtTreeMap.isSome_getElem?_iff_mem, hl]
        rfl
      obtain ⟨k, rfl⟩ := h.written l hmem howns
      rw [h.read] at hl
      exact ⟨(k, v), ExtTreeMap.mem_toList_iff_getElem?_eq_some.mpr hl, rfl⟩
    · rintro ⟨⟨k, w⟩, hk, hrec⟩
      cases hrec
      rw [ExtTreeMap.mem_toList_iff_getElem?_eq_some] at hk
      exact ⟨by rw [h.read]; exact hk, S.owns_own i k⟩

/-! ## Walks -/

/-- A position in the shared map and the same position in the map of the space. The walk
of the space ends where it meets the first key that it does not own. -/
structure AtSame (S : Keyspace ι K L cmpK cmpL) (i : ι) (rest : List (L × V))
    (own : List (K × V)) : Prop where
  sorted : rest.Pairwise fun a b => cmpL a.1 b.1 = .lt
  behind : ∀ r ∈ rest, cmpL r.1 (S.first i) ≠ .lt
  same : (rest.takeWhile fun r => S.owns i r.1) = own.map (S.record i)

omit [Std.TransCmp cmpK] [Std.LawfulEqCmp cmpK] [Std.TransCmp cmpL] [Std.LawfulEqCmp cmpL] in
theorem atSame_nil : AtSame S i ([] : List (L × V)) [] := ⟨.nil, by simp, rfl⟩

omit [Std.TransCmp cmpK] [Std.LawfulEqCmp cmpK] [Std.TransCmp cmpL] [Std.LawfulEqCmp cmpL] in
/-- One step forward in both maps. -/
theorem AtSame.next {rest : List (L × V)} {own : List (K × V)} (h : AtSame S i rest own) :
    AtSame S i rest.tail own.tail := by
  cases rest with
  | nil =>
    have hown : own = [] := map_eq_nil_iff.mp h.same.symm
    rw [hown]
    exact atSame_nil
  | cons r rest =>
    obtain ⟨hr, hsorted⟩ := pairwise_cons.mp h.sorted
    have hbehind : ∀ s ∈ rest, cmpL s.1 (S.first i) ≠ .lt :=
      fun s hs => h.behind s (mem_cons_of_mem _ hs)
    refine ⟨hsorted, hbehind, ?_⟩
    have hsame := h.same
    cases hrow : S.owns i r.1 with
    | true =>
      rw [takeWhile_cons, if_pos hrow] at hsame
      cases own with
      | nil => simp at hsame
      | cons o own => exact (List.cons.inj hsame).2
    | false =>
      -- the run of the space is over, so nothing behind this record belongs to it
      rw [takeWhile_cons, if_neg (by simp [hrow])] at hsame
      have hown : own = [] := map_eq_nil_iff.mp hsame.symm
      subst hown
      show rest.takeWhile (fun s => S.owns i s.1) = []
      rw [takeWhile_eq_nil_iff]
      intro hlen howns
      have hmem := getElem_mem hlen
      have := S.convex i r.1 _ (h.behind r mem_cons_self) (hr _ hmem) howns
      rw [hrow] at this
      cases this

/-- A seek in the shared map, at or behind the first key of the space. -/
theorem Shows.seekAt (h : Shows S i db m) (start : L) (p : K → Bool)
    (hstart : cmpL start (S.first i) ≠ .lt)
    (hp : ∀ k, cmpL (S.key i k) start ≠ .lt ↔ p k = true) :
    AtSame S i (db.toList.dropWhile fun r => cmpL r.1 start = .lt)
      (m.toList.filter fun r => p r.1) := by
  rw [seek_eq_filter (sorted_toList db)]
  have hbehind : ∀ r ∈ db.toList.filter (fun r => cmpL r.1 start ≠ .lt),
      cmpL r.1 (S.first i) ≠ .lt := by
    intro r hr hlt
    have hkey := (mem_filter.mp hr).2
    simp only [ne_eq, decide_not, Bool.not_eq_true', decide_eq_false_iff_not] at hkey
    have hle : (cmpL (S.first i) start).isLE := by
      rw [Ordering.isLE_iff_ne_gt]
      exact fun hgt => hstart (Std.OrientedCmp.lt_of_gt hgt)
    exact hkey (Std.TransCmp.lt_of_lt_of_isLE hlt hle)
  refine ⟨(sorted_toList db).filter _, hbehind, ?_⟩
  rw [takeWhile_eq_filter ((sorted_toList db).filter _)]
  · have hswap : ((db.toList.filter fun r => decide (cmpL r.1 start ≠ .lt)).filter
          fun r => S.owns i r.1) =
        (db.toList.filter fun r => S.owns i r.1).filter
          fun r => decide (cmpL r.1 start ≠ .lt) := by
      rw [filter_filter, filter_filter]
      congr 1
      funext r
      rw [Bool.and_comm]
    rw [hswap, h.owned, filter_map]
    congr 1
    apply filter_congr
    intro r _
    show decide (cmpL (S.key i r.1) start ≠ .lt) = p r.1
    rw [Bool.eq_iff_iff, decide_eq_true_iff]
    exact hp r.1
  · intro a ha b _ hab hb
    exact S.convex i a.1 b.1 (hbehind a ha) hab hb

/-- A seek to a key of the space finds what the space would find in its own map. -/
theorem Shows.seek (h : Shows S i db m) (k : K) :
    AtSame S i (db.toList.dropWhile fun r => cmpL r.1 (S.key i k) = .lt)
      (m.toList.dropWhile fun r => cmpK r.1 k = .lt) := by
  rw [seek_eq_filter (sorted_toList m)]
  apply h.seekAt (S.key i k) (fun a => decide (cmpK a k ≠ .lt)) (S.not_before i k)
  intro k'
  rw [S.order, decide_eq_true_iff]

/-- A seek to the first key of the space finds its whole map. -/
theorem Shows.seekFirst (h : Shows S i db m) :
    AtSame S i (db.toList.dropWhile fun r => cmpL r.1 (S.first i) = .lt) m.toList := by
  have hself : cmpL (S.first i) (S.first i) = .eq := Std.ReflCmp.compare_self
  have hall := h.seekAt (S.first i) (fun _ => true) (by simp [hself])
    fun k => by simp [S.not_before i k]
  simpa using hall

end Walks

end keyspace
