-- Changes staged over a list of rows: rows that are replaced, rows that leave and
-- rows that arrive. One reader rewrites the list, one looks up a single key and one
-- keeps a map by key. This file says when the three see the same rows.
import LiteStore.Lib.Checked

namespace overlay

open Std (ExtTreeMap)
open checked List

variable {ρ K : Type*} {l : List ρ} {us : List (ρ × ρ)}

structure Changes (ρ : Type*) where
  updates : List (ρ × ρ)
  deletes : List ρ
  inserts : List ρ

def Changes.outgoing (c : Changes ρ) : List ρ := c.updates.map Prod.fst ++ c.deletes

def Changes.incoming (c : Changes ρ) : List ρ := c.updates.map Prod.snd ++ c.inserts

/-! ## The rewritten list -/

variable {c : Changes ρ} {rows : List ρ}

section Rewrite

variable [DecidableEq ρ]

/-- Each update replaces the first row equal to its left side, each delete takes out the
first row equal to it, and the inserts follow. -/
def rewrite (c : Changes ρ) (rows : List ρ) : List ρ :=
  c.deletes.foldl List.erase (c.updates.foldl (fun l u => l.replace u.1 u.2) rows) ++ c.inserts

theorem replace_perm {a b : ρ} (h : a ∈ l) : (l.replace a b).Perm (b :: l.erase a) := by
  induction l with
  | nil => simp at h
  | cons x l ih =>
    by_cases hx : x = a
    · subst hx
      simp
    · have hrest := ih ((mem_cons.mp h).resolve_left (Ne.symm hx))
      have hreplace : (x :: l).replace a b = x :: l.replace a b := by
        have hne : (a == x) = false := beq_eq_false_iff_ne.mpr (Ne.symm hx)
        rw [replace_cons, hne]
      rw [hreplace, erase_cons_tail (by simpa using hx)]
      exact (hrest.cons x).trans (Perm.swap b x _)

theorem replaceAll_perm {rest : List ρ} (h : l.Perm (us.map Prod.fst ++ rest)) :
    (us.foldl (fun l u => l.replace u.1 u.2) l).Perm (us.map Prod.snd ++ rest) := by
  induction us generalizing l rest with
  | nil => exact h
  | cons u us ih =>
    have hmem : u.1 ∈ l := h.mem_iff.mpr (by simp)
    have herase : (l.erase u.1).Perm (us.map Prod.fst ++ rest) := by
      have hsame := h.erase u.1
      simpa using hsame
    have hstep : (l.replace u.1 u.2).Perm (us.map Prod.fst ++ u.2 :: rest) :=
      (replace_perm hmem).trans ((herase.cons u.2).trans perm_middle.symm)
    exact (ih hstep).trans perm_middle

theorem eraseAll_perm {ds rest : List ρ} (h : l.Perm (ds ++ rest)) :
    (ds.foldl List.erase l).Perm rest := by
  induction ds generalizing l with
  | nil => exact h
  | cons d ds ih =>
    have hsame := h.erase d
    exact ih (by simpa using hsame)

omit [DecidableEq ρ] in
theorem eraseP_perm {p : ρ → Bool} {a : ρ} (h : l.find? p = some a) : l.Perm (a :: l.eraseP p) := by
  induction l with
  | nil => simp at h
  | cons x l ih =>
    by_cases hx : p x = true
    · simp only [find?_cons_of_pos hx, Option.some.injEq] at h
      rw [eraseP_cons_of_pos hx, h]
    · rw [find?_cons_of_neg hx] at h
      rw [eraseP_cons_of_neg hx]
      exact ((ih h).cons x).trans (Perm.swap a x _)

/-- When the rows that leave are there, the rewritten list holds the rows that stay and
the rows that arrive. -/
theorem rewrite_perm {stay : List ρ} (h : rows.Perm (c.outgoing ++ stay)) :
    (rewrite c rows).Perm (stay ++ c.incoming) := by
  have hmid : rows.Perm (c.updates.map Prod.fst ++ (c.deletes ++ stay)) := by
    simpa [Changes.outgoing] using h
  have hout : (c.updates.foldl (fun l u => l.replace u.1 u.2) rows).Perm
      (c.deletes ++ (c.updates.map Prod.snd ++ stay)) := by
    refine (replaceAll_perm hmid).trans ?_
    rw [← append_assoc, ← append_assoc]
    exact perm_append_comm.append_right stay
  have hleft := (eraseAll_perm hout).trans perm_append_comm
  have hfinal := hleft.append_right c.inserts
  rwa [append_assoc] at hfinal

end Rewrite

/-- The rows have different keys, and the changes take some of them out. -/
structure Fits (key : ρ → K) (rows : List ρ) (c : Changes ρ) (stay : List ρ) : Prop where
  perm : rows.Perm (c.outgoing ++ stay)
  distinct : (rows.map key).Nodup

section

variable {key : ρ → K} {stay : List ρ} (h : Fits key rows c stay)

include h

/-- A row that stays has a key that no leaving row has. -/
theorem Fits.key_ne {r s : ρ} (hr : r ∈ stay) (hs : s ∈ c.outgoing) : key s ≠ key r := by
  have hnd : ((c.outgoing ++ stay).map key).Nodup := (h.perm.map key).nodup_iff.mp h.distinct
  rw [map_append, nodup_append] at hnd
  exact hnd.2.2 _ (mem_map_of_mem hs) _ (mem_map_of_mem hr)

/-- A row of the list leaves or stays. -/
theorem Fits.mem_stay {r : ρ} (hr : r ∈ rows) (hout : r ∉ c.outgoing) : r ∈ stay :=
  (mem_append.mp (h.perm.mem_iff.mp hr)).resolve_left hout

theorem Fits.stay_mem {r : ρ} (hr : r ∈ stay) : r ∈ rows :=
  h.perm.mem_iff.mpr (mem_append_right _ hr)

end

/-! ## The lookup of one key -/

section Lookup

variable [DecidableEq K] (key : ρ → K)

/-- The last update that moves a row to the key or away from it. -/
def lastTouch (updates : List (ρ × ρ)) (k : K) : Option (ρ × ρ) :=
  updates.reverse.find? fun u => key u.2 = k || key u.1 = k

/-- The lookup stops at the first answer: a delete, then the last update, then an insert,
then the list. -/
def lookup (c : Changes ρ) (base : Option ρ) (k : K) : Option ρ :=
  if c.deletes.any (key · = k) then none
  else match lastTouch key c.updates k with
    | some u => if key u.2 = k then some u.2 else none
    | none => (c.inserts.find? (key · = k)).or base

/-- A row under the key leaves: a delete names it, or the last update moves it away. -/
def Vacated (c : Changes ρ) (k : K) : Prop :=
  (∃ d ∈ c.deletes, key d = k) ∨ ∃ u, lastTouch key c.updates k = some u ∧ key u.2 ≠ k

/-- A row arrives under the key. -/
def Reoccupied (c : Changes ρ) (k : K) : Prop := ∃ r ∈ c.incoming, key r = k

variable {key}

theorem lastTouch_eq_some {updates : List (ρ × ρ)} {k : K} {u : ρ × ρ}
    (h : lastTouch key updates k = some u) : u ∈ updates ∧ (key u.2 = k ∨ key u.1 = k) := by
  unfold lastTouch at h
  have hmem := mem_of_find?_eq_some h
  have hkey := find?_some h
  exact ⟨mem_reverse.mp hmem, by simpa using hkey⟩

theorem lastTouch_eq_none {updates : List (ρ × ρ)} {k : K} :
    lastTouch key updates k = none ↔ ∀ u ∈ updates, key u.2 ≠ k ∧ key u.1 ≠ k := by
  unfold lastTouch
  simp [find?_eq_none]

theorem lookup_of_vacated {base : Option ρ} {k : K} (h : Vacated key c k) :
    lookup key c base k = none := by
  unfold lookup
  by_cases hd : c.deletes.any (key · = k) = true
  · rw [if_pos hd]
  · rw [if_neg hd]
    rcases h with ⟨d, hdel, hkey⟩ | ⟨u, hu, hne⟩
    · exact absurd (any_eq_true.mpr ⟨d, hdel, by simpa using hkey⟩) hd
    · rw [hu]
      simp [hne]

variable {stay : List ρ} {base : Option ρ} {k : K}

/-- A vacated key belongs to no row that stays. -/
theorem Fits.not_vacated_of_stay (h : Fits key rows c stay) {r : ρ} (hr : r ∈ stay)
    (hkey : key r = k) : ¬ Vacated key c k := by
  rintro (⟨d, hd, hdk⟩ | ⟨u, hu, hne⟩)
  · exact h.key_ne hr (mem_append_right _ hd) (hdk.trans hkey.symm)
  · obtain ⟨humem, htouch⟩ := lastTouch_eq_some hu
    have hbefore : u.1 ∈ c.outgoing := mem_append_left _ (mem_map_of_mem humem)
    exact h.key_ne hr hbefore ((htouch.resolve_left hne).trans hkey.symm)

/-- What the lookup finds is a row that stays or arrives, under the key. -/
theorem Fits.lookup_mem (h : Fits key rows c stay)
    (hbase : ∀ r, base = some r ↔ r ∈ rows ∧ key r = k) {r : ρ}
    (hr : lookup key c base k = some r) : r ∈ stay ++ c.incoming ∧ key r = k := by
  unfold lookup at hr
  split at hr
  · simp at hr
  rename_i hdel
  cases ht : lastTouch key c.updates k with
  | some u =>
    rw [ht] at hr
    by_cases hu : key u.2 = k
    · simp only [hu, if_true, Option.some.injEq] at hr
      subst hr
      have humem := (lastTouch_eq_some ht).1
      refine ⟨mem_append_right _ (mem_append_left _ (mem_map_of_mem humem)), hu⟩
    · simp [hu] at hr
  | none =>
    rw [ht] at hr
    cases hf : c.inserts.find? (key · = k) with
    | some s =>
      simp only [hf, Option.some_or, Option.some.injEq] at hr
      subst hr
      refine ⟨mem_append_right _ (mem_append_right _ (mem_of_find?_eq_some hf)), ?_⟩
      simpa using find?_some hf
    | none =>
      simp only [hf, Option.none_or] at hr
      obtain ⟨hmem, hkey⟩ := (hbase r).mp hr
      refine ⟨mem_append_left _ (h.mem_stay hmem fun hout => ?_), hkey⟩
      -- no update and no delete touches the key, so the row of the list stays
      rcases mem_append.mp hout with hu | hd
      · obtain ⟨u, humem, rfl⟩ := mem_map.mp hu
        exact (lastTouch_eq_none.mp ht u humem).2 hkey
      · exact hdel (any_eq_true.mpr ⟨r, hd, by simpa using hkey⟩)

/-- A key that is not vacated is found when a row has it. -/
theorem Fits.lookup_isSome (h : Fits key rows c stay)
    (hbase : ∀ r, base = some r ↔ r ∈ rows ∧ key r = k) (hv : ¬ Vacated key c k) {r : ρ}
    (hr : r ∈ stay ++ c.incoming) (hkey : key r = k) : (lookup key c base k).isSome = true := by
  have hdel : ¬ c.deletes.any (key · = k) = true := by
    intro hany
    obtain ⟨d, hd, hdk⟩ := any_eq_true.mp hany
    exact hv (.inl ⟨d, hd, by simpa using hdk⟩)
  unfold lookup
  rw [if_neg hdel]
  cases ht : lastTouch key c.updates k with
  | some u =>
    have hu : key u.2 = k := by
      by_contra hne
      exact hv (.inr ⟨u, ht, hne⟩)
    simp [hu]
  | none =>
    rcases mem_append.mp hr with hs | hin
    · have hfound : base = some r := (hbase r).mpr ⟨h.stay_mem hs, hkey⟩
      simp [hfound]
    · rcases mem_append.mp hin with hu | hi
      · obtain ⟨u, humem, rfl⟩ := mem_map.mp hu
        exact absurd hkey (lastTouch_eq_none.mp ht u humem).1
      · have hfound : (c.inserts.find? (key · = k)).isSome = true :=
          find?_isSome.mpr ⟨r, hi, by simpa using hkey⟩
        simp [Option.isSome_or, hfound]

/-- The lookup agrees with the rewritten list on a key, except when a row left the key and
another row arrived there. -/
theorem Fits.lookup_agrees_iff (h : Fits key rows c stay)
    (hbase : ∀ r, base = some r ↔ r ∈ rows ∧ key r = k) :
    ((lookup key c base k).isSome = true ↔ ∃ r ∈ stay ++ c.incoming, key r = k) ↔
      ¬ (Vacated key c k ∧ Reoccupied key c k) := by
  constructor
  · rintro hagree ⟨hv, r, hr, hkey⟩
    have hsome := hagree.mpr ⟨r, mem_append_right _ hr, hkey⟩
    rw [lookup_of_vacated hv] at hsome
    simp at hsome
  · intro hnot
    constructor
    · intro hsome
      obtain ⟨r, hr⟩ := Option.isSome_iff_exists.mp hsome
      exact ⟨r, h.lookup_mem hbase hr⟩
    · rintro ⟨r, hr, hkey⟩
      refine h.lookup_isSome hbase (fun hv => ?_) hr hkey
      rcases mem_append.mp hr with hs | hin
      · exact h.not_vacated_of_stay hs hkey hv
      · exact hnot ⟨hv, r, hin, hkey⟩

end Lookup

/-! ## The map by key -/

section Ranged

variable {cmp : K → K → Ordering} [Std.TransCmp cmp] [Std.LawfulEqCmp cmp]
variable (key : ρ → K) (inRange : ρ → Bool)

/-- A row of the range is put under its key. -/
def putRow (m : ExtTreeMap K ρ cmp) (r : ρ) : ExtTreeMap K ρ cmp :=
  if inRange r then m.insert (key r) r else m

/-- An update erases the key it leaves and puts the row it brings. -/
def moveRow (m : ExtTreeMap K ρ cmp) (u : ρ × ρ) : ExtTreeMap K ρ cmp :=
  putRow key inRange (m.erase (key u.1)) u.2

/-- The deletes, the updates and the inserts, one by one, on a map of rows by key. -/
def ranged (c : Changes ρ) (m : ExtTreeMap K ρ cmp) : ExtTreeMap K ρ cmp :=
  c.inserts.foldl (putRow key inRange)
    (c.updates.foldl (moveRow key inRange) (eraseAll m (c.deletes.map key)))

/-- A row that is put in the range under a key. -/
def Puts (k : K) (r : ρ) : Prop := inRange r = true ∧ key r = k

/-- An update brings a row into the range under a key that a later update leaves. -/
def NoChain (updates : List (ρ × ρ)) : Prop :=
  updates.Pairwise fun u v => inRange u.2 = true → key u.2 ≠ key v.1

variable {key inRange} {m : ExtTreeMap K ρ cmp} {k : K} {r : ρ}

theorem putRow_of_puts {s : ρ} (h : Puts key inRange k s) :
    (putRow key inRange m s)[k]? = some s := by
  obtain ⟨hin, rfl⟩ := h
  simp [putRow, hin]

theorem putRow_of_not {s : ρ} (h : ¬ Puts key inRange k s) :
    (putRow key inRange m s)[k]? = m[k]? := by
  classical
  unfold putRow
  by_cases hin : inRange s = true
  · rw [if_pos hin, getElem?_insert_eq, if_neg fun hk => h ⟨hin, hk⟩]
  · rw [if_neg hin]

theorem puts_some (h : (rows.foldl (putRow key inRange) m)[k]? = some r) :
    (r ∈ rows ∧ Puts key inRange k r) ∨ m[k]? = some r := by
  induction rows generalizing m with
  | nil => exact .inr h
  | cons s rows ih =>
    rcases ih h with ⟨hmem, hput⟩ | hmid
    · exact .inl ⟨mem_cons_of_mem _ hmem, hput⟩
    · by_cases hs : Puts key inRange k s
      · rw [putRow_of_puts hs, Option.some.injEq] at hmid
        subst hmid
        exact .inl ⟨mem_cons_self, hs⟩
      · rw [putRow_of_not hs] at hmid
        exact .inr hmid

theorem puts_isSome (h : (∃ s ∈ rows, Puts key inRange k s) ∨ m[k]?.isSome = true) :
    (rows.foldl (putRow key inRange) m)[k]?.isSome = true := by
  induction rows generalizing m with
  | nil => simpa using h
  | cons s rows ih =>
    apply ih
    by_cases hs : Puts key inRange k s
    · exact .inr (by rw [putRow_of_puts hs]; rfl)
    · rw [putRow_of_not hs]
      rcases h with ⟨t, ht, hput⟩ | hsome
      · rcases mem_cons.mp ht with rfl | ht
        · exact absurd hput hs
        · exact .inl ⟨t, ht, hput⟩
      · exact .inr hsome

theorem moveRow_of_not {u : ρ × ρ} (h : ¬ Puts key inRange k u.2) [Decidable (key u.1 = k)] :
    (moveRow key inRange m u)[k]? = if key u.1 = k then none else m[k]? := by
  unfold moveRow
  rw [putRow_of_not h, getElem?_erase_eq]

/-- What the updates leave under a key is a row that one of them brought, or a row that was
there and that no update took away. -/
theorem moves_some (h : (us.foldl (moveRow key inRange) m)[k]? = some r) :
    (r ∈ us.map Prod.snd ∧ Puts key inRange k r) ∨
      (m[k]? = some r ∧ ∀ u ∈ us, key u.1 ≠ k) := by
  classical
  induction us generalizing m with
  | nil => exact .inr ⟨h, by simp⟩
  | cons u us ih =>
    rcases ih h with ⟨hmem, hput⟩ | ⟨hmid, hkeep⟩
    · exact .inl ⟨mem_cons_of_mem _ hmem, hput⟩
    · by_cases hu : Puts key inRange k u.2
      · have hthere : (moveRow key inRange m u)[k]? = some u.2 := putRow_of_puts hu
        rw [hthere, Option.some.injEq] at hmid
        subst hmid
        exact .inl ⟨mem_cons_self, hu⟩
      · rw [moveRow_of_not hu] at hmid
        by_cases hk : key u.1 = k
        · simp [hk] at hmid
        · rw [if_neg hk] at hmid
          exact .inr ⟨hmid, forall_mem_cons.mpr ⟨hk, hkeep⟩⟩

/-- A row stays under its key when no later update takes it away. -/
theorem moves_isSome (hkeep : ∀ u ∈ us, key u.1 ≠ k) (h : m[k]?.isSome = true) :
    (us.foldl (moveRow key inRange) m)[k]?.isSome = true := by
  classical
  induction us generalizing m with
  | nil => exact h
  | cons u us ih =>
    refine ih (fun v hv => hkeep v (mem_cons_of_mem _ hv)) ?_
    by_cases hu : Puts key inRange k u.2
    · have hthere : (moveRow key inRange m u)[k]? = some u.2 := putRow_of_puts hu
      rw [hthere]
      rfl
    · rw [moveRow_of_not hu, if_neg (hkeep u mem_cons_self)]
      exact h

variable {stay : List ρ}

/-- The map holds rows that stay or arrive, in the range and under their keys. -/
theorem Fits.ranged_mem (h : Fits key rows c stay)
    (hm : ∀ k r, m[k]? = some r ↔ r ∈ rows ∧ Puts key inRange k r)
    (hr : (ranged key inRange c m)[k]? = some r) :
    r ∈ stay ++ c.incoming ∧ Puts key inRange k r := by
  classical
  rcases puts_some hr with ⟨hi, hput⟩ | hmid
  · exact ⟨mem_append_right _ (mem_append_right _ hi), hput⟩
  · rcases moves_some hmid with ⟨hu, hput⟩ | ⟨hbase, hkeep⟩
    · exact ⟨mem_append_right _ (mem_append_left _ hu), hput⟩
    · rw [eraseAll_getElem?] at hbase
      by_cases hd : k ∈ c.deletes.map key
      · simp [hd] at hbase
      · rw [if_neg hd] at hbase
        obtain ⟨hmem, hput⟩ := (hm k r).mp hbase
        refine ⟨mem_append_left _ (h.mem_stay hmem fun hout => ?_), hput⟩
        rcases mem_append.mp hout with hu | hdel
        · obtain ⟨u, humem, rfl⟩ := mem_map.mp hu
          exact hkeep u humem hput.2
        · exact hd (mem_map.mpr ⟨r, hdel, hput.2⟩)

/-- With no chain of updates, the map has a row wherever a row stays or arrives. -/
theorem Fits.ranged_isSome (h : Fits key rows c stay)
    (hm : ∀ k r, m[k]? = some r ↔ r ∈ rows ∧ Puts key inRange k r)
    (hchain : NoChain key inRange c.updates) (hr : r ∈ stay ++ c.incoming)
    (hput : Puts key inRange k r) : (ranged key inRange c m)[k]?.isSome = true := by
  classical
  apply puts_isSome
  rcases mem_append.mp hr with hs | hin
  · right
    apply moves_isSome
    · intro u hu hk
      have hout : u.1 ∈ c.outgoing := mem_append_left _ (mem_map_of_mem hu)
      exact h.key_ne hs hout (hk.trans hput.2.symm)
    · have hd : k ∉ c.deletes.map key := by
        intro hd
        obtain ⟨d, hd, hk⟩ := mem_map.mp hd
        exact h.key_ne hs (mem_append_right _ hd) (hk.trans hput.2.symm)
      rw [eraseAll_getElem?, if_neg hd, (hm k r).mpr ⟨h.stay_mem hs, hput⟩]
      rfl
  · rcases mem_append.mp hin with hu | hi
    · right
      obtain ⟨u, humem, rfl⟩ := mem_map.mp hu
      obtain ⟨pre, post, hsplit⟩ := append_of_mem humem
      unfold NoChain at hchain
      rw [hsplit, pairwise_append, pairwise_cons] at hchain
      rw [hsplit, foldl_append, foldl_cons]
      apply moves_isSome
      · intro v hv hk
        exact hchain.2.1.1 v hv hput.1 (hput.2.trans hk.symm)
      · have hthere : (moveRow key inRange
            (pre.foldl (moveRow key inRange) (eraseAll m (c.deletes.map key))) u)[k]? =
            some u.2 := putRow_of_puts hput
        rw [hthere]
        rfl
    · exact .inl ⟨r, hi, hput⟩

/-- The rows of the map, in the order of their keys. -/
def rangedRows (m : ExtTreeMap K ρ cmp) : List ρ := m.toList.map Prod.snd

theorem mem_rangedRows {m : ExtTreeMap K ρ cmp} {r : ρ} :
    r ∈ rangedRows m ↔ ∃ k : K, m[k]? = some r := by
  unfold rangedRows
  constructor
  · intro h
    obtain ⟨⟨k, s⟩, hmem, rfl⟩ := mem_map.mp h
    exact ⟨k, ExtTreeMap.mem_toList_iff_getElem?_eq_some.mp hmem⟩
  · rintro ⟨k, hk⟩
    exact mem_map.mpr ⟨(k, r), ExtTreeMap.mem_toList_iff_getElem?_eq_some.mpr hk, rfl⟩

theorem rangedRows_keys_nodup {m : ExtTreeMap K ρ cmp}
    (h : ∀ (k : K) (r : ρ), m[k]? = some r → key r = k) : ((rangedRows m).map key).Nodup := by
  have hkeys : (rangedRows m).map key = m.keys := by
    unfold rangedRows
    rw [← ExtTreeMap.map_fst_toList_eq_keys, map_map]
    apply map_congr_left
    rintro ⟨k, r⟩ hmem
    exact h k r (ExtTreeMap.mem_toList_iff_getElem?_eq_some.mp hmem)
  rw [hkeys]
  exact ExtTreeMap.nodup_keys

/-- A chain hides the row that the earlier update brought. -/
theorem Fits.noChain_of_mem (h : Fits key rows c stay)
    (hm : ∀ k r, m[k]? = some r ↔ r ∈ rows ∧ Puts key inRange k r)
    (hall : ∀ r ∈ (stay ++ c.incoming).filter inRange, r ∈ rangedRows (ranged key inRange c m))
    (hnd : (((stay ++ c.incoming).filter inRange).map key).Nodup) :
    NoChain key inRange c.updates := by
  classical
  unfold NoChain
  rw [pairwise_iff_forall_sublist]
  intro u v hsub hin hk
  obtain ⟨pre, mid, post, hsplit⟩ : ∃ pre mid post, c.updates = pre ++ u :: mid ++ v :: post := by
    obtain ⟨a, b, hab, ha, hb⟩ := append_sublist_iff.mp
      (show ([u] ++ [v]).Sublist c.updates from hsub)
    obtain ⟨pre, mid, rfl⟩ := append_of_mem (singleton_sublist.mp ha)
    obtain ⟨mid', post, rfl⟩ := append_of_mem (singleton_sublist.mp hb)
    exact ⟨pre, mid ++ mid', post, by rw [hab]; simp⟩
  have hu : u ∈ c.updates := by rw [hsplit]; simp
  have hmem : u.2 ∈ (stay ++ c.incoming).filter inRange := mem_filter.mpr
    ⟨mem_append_right _ (mem_append_left _ (mem_map_of_mem hu)), hin⟩
  obtain ⟨k', hk'⟩ := mem_rangedRows.mp (hall _ hmem)
  obtain ⟨-, -, hkey⟩ := h.ranged_mem hm hk'
  -- the later update erased the key, so the row there arrived after it
  have hlate : u.2 ∈ ((v :: post).map Prod.snd ++ c.inserts) := by
    rcases puts_some hk' with ⟨hi, -⟩ | hmid
    · exact mem_append_right _ hi
    · rw [hsplit, foldl_append] at hmid
      rcases moves_some hmid with ⟨hv, -⟩ | ⟨-, hkeep⟩
      · exact mem_append_left _ hv
      · exact absurd (hk.symm.trans hkey) (hkeep v mem_cons_self)
  have hrows : stay ++ c.incoming =
      (stay ++ (pre ++ u :: mid).map Prod.snd) ++ ((v :: post).map Prod.snd ++ c.inserts) := by
    unfold Changes.incoming
    rw [hsplit]
    simp
  rw [hrows, filter_append, map_append, nodup_append] at hnd
  refine hnd.2.2 (key u.2) (mem_map_of_mem ?_) (key u.2) (mem_map_of_mem ?_) rfl
  · exact mem_filter.mpr ⟨by simp, hin⟩
  · exact mem_filter.mpr ⟨hlate, hin⟩

/-- The map sees the rows of the rewritten list that lie in the range, each once, exactly
when they have different keys and no update brings a row to a key that a later one leaves. -/
theorem Fits.ranged_perm_iff (h : Fits key rows c stay)
    (hm : ∀ k r, m[k]? = some r ↔ r ∈ rows ∧ Puts key inRange k r) :
    (rangedRows (ranged key inRange c m)).Perm ((stay ++ c.incoming).filter inRange) ↔
      (((stay ++ c.incoming).filter inRange).map key).Nodup ∧
        NoChain key inRange c.updates := by
  have hkeys : ((rangedRows (ranged key inRange c m)).map key).Nodup :=
    rangedRows_keys_nodup fun k r hr => (h.ranged_mem hm hr).2.2
  constructor
  · intro hperm
    have hnd := (hperm.map key).nodup_iff.mp hkeys
    exact ⟨hnd, h.noChain_of_mem hm (fun r hr => hperm.mem_iff.mpr hr) hnd⟩
  · rintro ⟨hnd, hchain⟩
    refine (perm_ext_iff_of_nodup hkeys.of_map hnd.of_map).mpr fun r => ?_
    rw [mem_rangedRows, mem_filter]
    constructor
    · rintro ⟨k, hk⟩
      obtain ⟨hmem, hin, -⟩ := h.ranged_mem hm hk
      exact ⟨hmem, hin⟩
    · rintro ⟨hmem, hin⟩
      obtain ⟨s, hs⟩ := Option.isSome_iff_exists.mp
        (h.ranged_isSome hm hchain hmem ⟨hin, rfl⟩)
      obtain ⟨hsmem, hsin, hskey⟩ := h.ranged_mem hm hs
      -- the keys differ, so the row under the key is this row
      have hsame : s = r := inj_on_of_nodup_map hnd (mem_filter.mpr ⟨hsmem, hsin⟩)
        (mem_filter.mpr ⟨hmem, hin⟩) hskey
      exact ⟨key r, by rw [hs, hsame]⟩

end Ranged

end overlay
