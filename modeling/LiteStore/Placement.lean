-- The places that `computeLayout` gives to the columns of a row: every column
-- has bytes of its own behind the header, and every nullable column a bit of its
-- own in the bitmap.
import LiteStore.Values

namespace litestore

open checked List

/-! ## Places -/

/-- The first byte of a column: of a variable one, that of its length. -/
def LiteStoredColumn.start (col : LiteStoredColumn) : Nat :=
  if isVariableType col.type then col.vcLenIndOffset else col.offset

def LiteStoredColumn.stop (col : LiteStoredColumn) : Nat := col.offset + col.length

/-- What a layout promises. The header and the bitmap end where the columns begin. -/
structure Placed (columns : List LiteStoredColumn) (rowLen first : Nat) : Prop where
  header : 8 ≤ first
  room : first ≤ rowLen
  lengthFirst : ∀ c ∈ columns, isVariableType c.type = true → c.offset = c.vcLenIndOffset + 4
  voa : ∀ c ∈ columns, isVariableType c.type = true → 8 ≤ c.voaOffset ∧ c.voaOffset + 4 ≤ first ∧
    ∀ d ∈ columns, d.nullable = true → c.voaOffset + 4 ≤ d.nullIndOffset
  behind : ∀ c ∈ columns, first ≤ c.start
  inside : ∀ c ∈ columns, c.stop ≤ rowLen
  apart : columns.Pairwise fun c d => c.stop ≤ d.start ∨ d.stop ≤ c.start
  bitmap : ∀ c ∈ columns, c.nullable = true → 8 ≤ c.nullIndOffset ∧
    ∃ k : Nat, c.nullBitIndex = k ∧ k < (columns.filter (·.nullable)).length ∧
      c.nullIndOffset + k / 8 < first
  bits : columns.Pairwise fun c d => c.nullable = true → d.nullable = true →
    c.nullIndOffset = d.nullIndOffset ∧ c.nullBitIndex ≠ d.nullBitIndex

theorem LiteStoredColumn.start_le_stop {columns : List LiteStoredColumn} {rowLen first : Nat}
    (h : Placed columns rowLen first) {c : LiteStoredColumn} (hc : c ∈ columns) :
    c.start ≤ c.offset ∧ c.offset ≤ c.stop := by
  unfold LiteStoredColumn.start LiteStoredColumn.stop
  refine ⟨?_, Nat.le_add_right _ _⟩
  split
  · rename_i hv
    have := h.lengthFirst c hc hv
    omega
  · exact le_rfl

/-- A table that the source's number types can address: no sum of the layout comes near the
end of a `size_t`, and the index of a null bit fits in an `Int16`. Past that the source
writes outside the row. -/
def LiteTableDef.Addressable (table : LiteTableDef) : Prop :=
  match computeLayout table with
  | .error _ => True
  | .ok (columns, _) => 32 + (columns.map fun c => c.length + 16).sum < 2 ^ 63 ∧
      (columns.filter (·.nullable)).length ≤ 2 ^ 15

instance (table : LiteTableDef) : Decidable table.Addressable := by
  unfold LiteTableDef.Addressable
  split <;> infer_instance

/-! ## The passes of `computeLayout` -/

theorem typeAlignment_pos (t : LiteCodecType) : 1 ≤ typeAlignment t ∧ typeAlignment t ≤ 8 := by
  cases t <;> decide

theorem alignTo_bounds {offset alignment : Nat} (ha : alignment ≤ 8) (ho : offset + 8 < 2 ^ 64) :
    offset ≤ alignTo offset alignment ∧ alignTo offset alignment ≤ offset + 8 := by
  unfold alignTo
  split
  · omega
  split
  · omega
  · have hmod : offset % alignment < alignment := Nat.mod_lt _ (by omega)
    have hsize : sizeT (offset + alignment - offset % alignment) =
        offset + alignment - offset % alignment := Nat.mod_eq_of_lt (by omega)
    omega

/-! Each pass sets some fields of a column and keeps the others. -/

section

variable (c d : LiteStoredColumn)

def setsVoa : Prop := d = { c with voaOffset := d.voaOffset }

def setsFixed : Prop :=
  d = { c with nullIndOffset := d.nullIndOffset, nullBitIndex := d.nullBitIndex,
               offset := d.offset }

def setsVariable : Prop :=
  (isVariableType c.type = true ∧
    d = { c with vcLenIndOffset := d.vcLenIndOffset, offset := d.offset }) ∨
  (isVariableType c.type = false ∧ d = c)

theorem setsVariable.same {c d : LiteStoredColumn} (h : setsVariable c d) : c.type = d.type ∧
    c.voaOffset = d.voaOffset ∧ c.nullable = d.nullable ∧ c.nullIndOffset = d.nullIndOffset ∧
    c.nullBitIndex = d.nullBitIndex := by
  rcases h with ⟨-, heq⟩ | ⟨-, rfl⟩
  · rw [heq]
    simp
  · simp

theorem setsVariable.eq_of_fixed {c d : LiteStoredColumn} (h : setsVariable c d)
    (hfixed : isVariableType d.type = false) : c = d := by
  rcases h with ⟨hvar, heq⟩ | ⟨-, rfl⟩
  · rw [heq] at hfixed
    exact absurd hvar (by simp [hfixed])
  · rfl

theorem placeVoa_spec (v : Nat) (cs : List LiteStoredColumn) :
    Forall₂ setsVoa cs (placeVoa v cs).1 ∧ v ≤ (placeVoa v cs).2 ∧
    (placeVoa v cs).2 ≤ v + 4 * cs.length ∧
    ∀ c ∈ (placeVoa v cs).1, isVariableType c.type = true →
      v ≤ c.voaOffset ∧ c.voaOffset + 4 ≤ (placeVoa v cs).2 := by
  induction cs generalizing v with
  | nil => simp [placeVoa]
  | cons c rest ih =>
    unfold placeVoa
    split
    · obtain ⟨hsteps, hle, hup, hvoa⟩ := ih (v + offsetSize)
      have hsize : offsetSize = 4 := rfl
      rw [hsize] at hle hup hvoa hsteps
      simp only [hsize]
      refine ⟨.cons rfl hsteps, by omega, by simp; omega,
        forall_mem_cons.mpr ⟨fun _ => ⟨le_rfl, hle⟩, fun d hd hvar => ?_⟩⟩
      have := hvoa d hd hvar
      omega
    · rename_i hfixed
      obtain ⟨hsteps, hle, hup, hvoa⟩ := ih v
      exact ⟨.cons rfl hsteps, hle, by simp; omega,
        forall_mem_cons.mpr ⟨fun hvar => absurd hvar hfixed, hvoa⟩⟩

/-- The room that a column of fixed length takes, with the gap in front of it. -/
def fixedRoom : Nat := if isVariableType c.type then 0 else c.length + 8

/-- The room that a variable column takes, with its length. -/
def variableRoom : Nat := if isVariableType c.type then c.length + 4 else 0

end

theorem placeFixed_places (bitmap : Nat) (cs : List LiteStoredColumn) (bit off : Nat)
    (hfits : off + (cs.map fixedRoom).sum + 8 < 2 ^ 64) :
    Forall₂ setsFixed cs (placeFixed bitmap bit off cs).1 ∧
    off ≤ (placeFixed bitmap bit off cs).2 ∧
    (placeFixed bitmap bit off cs).2 ≤ off + (cs.map fixedRoom).sum ∧
    (∀ c ∈ (placeFixed bitmap bit off cs).1, isVariableType c.type = false →
      off ≤ c.offset ∧ c.stop ≤ (placeFixed bitmap bit off cs).2) ∧
    (placeFixed bitmap bit off cs).1.Pairwise fun c d =>
      isVariableType c.type = false → isVariableType d.type = false → c.stop ≤ d.offset := by
  induction cs generalizing bit off with
  | nil => simp [placeFixed]
  | cons c rest ih =>
    simp only [map_cons, sum_cons] at hfits ⊢
    unfold placeFixed
    dsimp only
    have htype : ∀ b : Bool, (if b then
        { c with nullIndOffset := bitmap, nullBitIndex := (bit : Int) } else c).toMappedType =
        c.toMappedType := by
      intro b
      cases b <;> rfl
    generalize hnull : (if c.nullable then
      { c with nullIndOffset := bitmap, nullBitIndex := (bit : Int) } else c) = withNull
    have hkept : setsFixed c withNull ∧ withNull.toMappedType = c.toMappedType := by
      rw [← hnull]
      exact ⟨by split <;> rfl, htype _⟩
    by_cases hvar : isVariableType c.type = true
    · have hroom : fixedRoom c = 0 := by simp [fixedRoom, hvar]
      rw [hroom] at hfits ⊢
      rw [if_pos hvar]
      obtain ⟨hsteps, hle, hup, hin, hpair⟩ :=
        ih (if c.nullable then bit + 1 else bit) off (by omega)
      have hnot : isVariableType withNull.type ≠ false := by simp [hkept.2, hvar]
      exact ⟨.cons hkept.1 hsteps, hle, by omega,
        forall_mem_cons.mpr ⟨fun hfixed => absurd hfixed hnot, hin⟩,
        .cons (fun d _ hfixed => absurd hfixed hnot) hpair⟩
    · have hroom : fixedRoom c = c.length + 8 := by simp [fixedRoom, hvar]
      rw [hroom] at hfits ⊢
      rw [if_neg hvar]
      have halign := alignTo_bounds (typeAlignment_pos c.type).2 (show off + 8 < 2 ^ 64 by omega)
      have hsize : sizeT (alignTo off (typeAlignment c.type) + c.length) =
          alignTo off (typeAlignment c.type) + c.length := Nat.mod_eq_of_lt (by omega)
      rw [hsize]
      obtain ⟨hsteps, hle, hup, hin, hpair⟩ := ih (if c.nullable then bit + 1 else bit)
        (alignTo off (typeAlignment c.type) + c.length) (by omega)
      have hstop : ({ withNull with offset := alignTo off (typeAlignment c.type) } :
          LiteStoredColumn).stop = alignTo off (typeAlignment c.type) + c.length := by
        simp [LiteStoredColumn.stop, hkept.2]
      refine ⟨.cons ?_ hsteps, by omega, by omega, ?_, ?_⟩
      · have := hkept.1
        unfold setsFixed at this ⊢
        rw [this]
      · refine forall_mem_cons.mpr ⟨fun _ => ⟨halign.1, hstop.trans_le hle⟩, fun d hd hfixed => ?_⟩
        have := hin d hd hfixed
        omega
      · refine .cons (fun d hd _ hfixed => ?_) hpair
        rw [hstop]
        exact (hin d hd hfixed).1

theorem placeFixed_bits (bitmap : Nat) (cs : List LiteStoredColumn) (bit off : Nat) :
    (∀ c ∈ (placeFixed bitmap bit off cs).1, c.nullable = true → c.nullIndOffset = bitmap ∧
      ∃ k : Nat, c.nullBitIndex = k ∧ bit ≤ k ∧ k < bit + (cs.filter (·.nullable)).length) ∧
    (placeFixed bitmap bit off cs).1.Pairwise fun c d => c.nullable = true → d.nullable = true →
      c.nullBitIndex < d.nullBitIndex := by
  induction cs generalizing bit off with
  | nil => simp [placeFixed]
  | cons c rest ih =>
    -- the head as either branch leaves it
    have hcons : ∀ (head : LiteStoredColumn) (next : Nat), head.nullable = c.nullable →
        (c.nullable = true → head.nullIndOffset = bitmap ∧ head.nullBitIndex = bit) →
        (∀ d ∈ head :: (placeFixed bitmap (if c.nullable then bit + 1 else bit) next rest).1,
          d.nullable = true → d.nullIndOffset = bitmap ∧ ∃ k : Nat, d.nullBitIndex = k ∧ bit ≤ k ∧
            k < bit + ((c :: rest).filter (·.nullable)).length) ∧
        (head :: (placeFixed bitmap (if c.nullable then bit + 1 else bit) next rest).1).Pairwise
          fun c d => c.nullable = true → d.nullable = true → c.nullBitIndex < d.nullBitIndex := by
      intro head next hsame hbit
      obtain ⟨hin, hpair⟩ := ih (if c.nullable then bit + 1 else bit) next
      cases hn : c.nullable with
      | true =>
        simp only [hn, if_true, filter_cons_of_pos, length_cons] at hin hpair ⊢
        refine ⟨forall_mem_cons.mpr ⟨fun _ => ?_, fun d hd hnull => ?_⟩, .cons ?_ hpair⟩
        · exact ⟨(hbit hn).1, bit, (hbit hn).2, le_rfl, by omega⟩
        · obtain ⟨hmap, k, hk, hlo, hhi⟩ := hin d hd hnull
          exact ⟨hmap, k, hk, by omega, by omega⟩
        · intro d hd _ hnull
          obtain ⟨-, k, hk, hlo, -⟩ := hin d hd hnull
          rw [(hbit hn).2, hk]
          omega
      | false =>
        simp only [hn, Bool.false_eq_true, if_false, not_false_eq_true,
          filter_cons_of_neg] at hin hpair ⊢
        have hnot : head.nullable ≠ true := by simp [hsame, hn]
        exact ⟨forall_mem_cons.mpr ⟨fun hnull => absurd hnull hnot, hin⟩,
          .cons (fun d _ hnull => absurd hnull hnot) hpair⟩
    unfold placeFixed
    dsimp only
    by_cases hvar : isVariableType c.type = true
    · rw [if_pos hvar]
      refine hcons _ _ ?_ ?_
      · split <;> rfl
      · intro hn
        simp [hn]
    · rw [if_neg hvar]
      refine hcons _ _ ?_ ?_
      · dsimp only
        split <;> rfl
      · intro hn
        simp [hn]

/-! ## The layout -/

theorem placeVariable_places (cs : List LiteStoredColumn) (v : Nat)
    (hfits : v + (cs.map variableRoom).sum < 2 ^ 64) :
    Forall₂ setsVariable cs (placeVariable v cs).1 ∧ v ≤ (placeVariable v cs).2 ∧
    (placeVariable v cs).2 ≤ v + (cs.map variableRoom).sum ∧
    (∀ c ∈ (placeVariable v cs).1, isVariableType c.type = true →
      c.offset = c.vcLenIndOffset + 4 ∧ v ≤ c.vcLenIndOffset ∧ c.stop ≤ (placeVariable v cs).2) ∧
    (placeVariable v cs).1.Pairwise fun c d => isVariableType c.type = true →
      isVariableType d.type = true → c.stop ≤ d.vcLenIndOffset := by
  induction cs generalizing v with
  | nil => simp [placeVariable]
  | cons c rest ih =>
    simp only [map_cons, sum_cons] at hfits ⊢
    unfold placeVariable
    dsimp only
    by_cases hvar : isVariableType c.type = true
    · have hroom : variableRoom c = c.length + 4 := by simp [variableRoom, hvar]
      rw [hroom] at hfits ⊢
      rw [if_pos hvar]
      have hstart : sizeT (v + variableLenSize) = v + 4 := Nat.mod_eq_of_lt (by
        show v + 4 < 2 ^ 64
        omega)
      have hsize : sizeT (v + 4 + c.length) = v + 4 + c.length := Nat.mod_eq_of_lt (by omega)
      rw [hstart, hsize]
      obtain ⟨hsteps, hle, hup, hin, hpair⟩ := ih (v + 4 + c.length) (by omega)
      refine ⟨.cons (.inl ⟨hvar, rfl⟩) hsteps, by omega, by omega,
        forall_mem_cons.mpr ⟨fun _ => ⟨rfl, le_rfl, hle⟩, fun d hd hd' => ?_⟩,
        .cons (fun d hd _ hd' => (hin d hd hd').2.1) hpair⟩
      have := hin d hd hd'
      omega
    · have hroom : variableRoom c = 0 := by simp [variableRoom, hvar]
      rw [hroom] at hfits ⊢
      rw [if_neg hvar]
      obtain ⟨hsteps, hle, hup, hin, hpair⟩ := ih v (by omega)
      have hfixed : isVariableType c.type = false := by simpa using hvar
      exact ⟨.cons (.inr ⟨hfixed, rfl⟩) hsteps, hle, by omega,
        forall_mem_cons.mpr ⟨fun hd' => absurd hd' hvar, hin⟩,
        .cons (fun d _ hc => absurd hc hvar) hpair⟩

theorem rooms_le (cs : List LiteStoredColumn) :
    (cs.map fixedRoom).sum + (cs.map variableRoom).sum + 8 * cs.length ≤
      (cs.map fun c => c.length + 16).sum := by
  induction cs with
  | nil => simp
  | cons c rest ih =>
    have hc : fixedRoom c + variableRoom c ≤ c.length + 8 := by
      unfold fixedRoom variableRoom
      split <;> omega
    simp only [map_cons, sum_cons, length_cons]
    omega

theorem neededBitmapSize_bounds {n k : Nat} (hk : k < n) :
    k / 8 < neededBitmapSize n ∧ neededBitmapSize n ≤ n + 4 := by
  have hpos : n > 0 := by omega
  simp only [neededBitmapSize, if_pos hpos]
  omega

variable {cs ds : List LiteStoredColumn}

/-- The rooms depend on the types alone, which no pass changes. -/
theorem rooms_eq (h : cs.map (·.toMappedType) = ds.map (·.toMappedType)) :
    cs.map fixedRoom = ds.map fixedRoom ∧ cs.map variableRoom = ds.map variableRoom ∧
      (cs.map fun c => c.length + 16) = ds.map fun c => c.length + 16 := by
  have hfun : ∀ f : MappedType → Nat, (cs.map fun c => f c.toMappedType) =
      ds.map fun c => f c.toMappedType := by
    intro f
    have := congrArg (List.map f) h
    simpa [Function.comp_def] using this
  exact ⟨hfun fun m => if isVariableType m.type then 0 else m.length + 8,
    hfun fun m => if isVariableType m.type then m.length + 4 else 0, hfun fun m => m.length + 16⟩

/-- The fields that the later passes read survive the earlier ones. -/
theorem forall₂_map_eq {β : Type} {R : LiteStoredColumn → LiteStoredColumn → Prop}
    {f : LiteStoredColumn → β} (hf : ∀ {c d}, R c d → f c = f d) (h : Forall₂ R cs ds) :
    cs.map f = ds.map f := by
  induction h with
  | nil => rfl
  | cons hab _ ih => rw [map_cons, map_cons, hf hab, ih]

theorem nullable_length_eq (h : cs.map (·.nullable) = ds.map (·.nullable)) :
    (cs.filter (·.nullable)).length = (ds.filter (·.nullable)).length := by
  have hcount : ∀ l : List LiteStoredColumn,
      (l.filter (·.nullable)).length = (l.map (·.nullable)).countP id := by
    intro l
    rw [countP_map, countP_eq_length_filter]
    rfl
  rw [hcount, hcount, h]

theorem placed_of_passes {mapped : List LiteStoredColumn} {bitmap firstFixed : Nat}
    (hbitmap : 0 < (mapped.filter (·.nullable)).length → bitmap = (placeVoa 8 mapped).2)
    (hfirst : (placeVoa 8 mapped).2 + neededBitmapSize (mapped.filter (·.nullable)).length ≤
      firstFixed)
    (hroom : firstFixed + (mapped.map fixedRoom).sum + (mapped.map variableRoom).sum + 8 <
      2 ^ 64) :
    Placed (placeVariable (placeFixed bitmap 0 firstFixed (placeVoa 8 mapped).1).2
      (placeFixed bitmap 0 firstFixed (placeVoa 8 mapped).1).1).1
      (alignTo (placeVariable (placeFixed bitmap 0 firstFixed (placeVoa 8 mapped).1).2
        (placeFixed bitmap 0 firstFixed (placeVoa 8 mapped).1).1).2 rowAlignment) firstFixed := by
  obtain ⟨hvoaSteps, hvoaLe, -, hvoa⟩ := placeVoa_spec 8 mapped
  generalize placeVoa 8 mapped = voaPass at *
  obtain ⟨withVoa, voaEnd⟩ := voaPass
  have htypes : mapped.map (·.toMappedType) = withVoa.map (·.toMappedType) :=
    forall₂_map_eq (fun h => by rw [h]) hvoaSteps
  have hnullable : mapped.map (·.nullable) = withVoa.map (·.nullable) :=
    forall₂_map_eq (fun h => by rw [h]) hvoaSteps
  rw [(rooms_eq htypes).1, (rooms_eq htypes).2.1] at hroom
  rw [nullable_length_eq hnullable] at hbitmap hfirst
  dsimp only at *
  obtain ⟨hfixSteps, hfixLe, hfixUp, hfixIn, hfixPair⟩ :=
    placeFixed_places bitmap withVoa 0 firstFixed (by omega)
  obtain ⟨hbits, hbitPair⟩ := placeFixed_bits bitmap withVoa 0 firstFixed
  generalize placeFixed bitmap 0 firstFixed withVoa = fixPass at *
  obtain ⟨withFixed, fixedEnd⟩ := fixPass
  have htypes' : withVoa.map (·.toMappedType) = withFixed.map (·.toMappedType) :=
    forall₂_map_eq (fun h => by rw [h]) hfixSteps
  have hnullable' : withVoa.map (·.nullable) = withFixed.map (·.nullable) :=
    forall₂_map_eq (fun h => by rw [h]) hfixSteps
  rw [(rooms_eq htypes').2.1] at hroom
  rw [nullable_length_eq hnullable'] at hbitmap hfirst hbits
  dsimp only at *
  obtain ⟨hvarSteps, hvarLe, hvarUp, hvarIn, hvarPair⟩ :=
    placeVariable_places withFixed fixedEnd (by omega)
  generalize placeVariable fixedEnd withFixed = varPass at *
  obtain ⟨columns, varEnd⟩ := varPass
  have hnullable'' : withFixed.map (·.nullable) = columns.map (·.nullable) :=
    forall₂_map_eq (fun h => h.same.2.2.1) hvarSteps
  rw [nullable_length_eq hnullable''] at hbitmap hfirst hbits
  dsimp only at *
  have hrow : varEnd ≤ alignTo varEnd rowAlignment := (alignTo_bounds (by decide) (by omega)).1
  -- a column keeps its type, its slot and its bit, and a fixed one its place
  have hback : ∀ c ∈ columns, ∃ d ∈ withFixed, setsVariable d c :=
    fun c hc => forall₂_exists_right hvarSteps.flip hc
  have hplace : ∀ c ∈ columns, isVariableType c.type = false →
      firstFixed ≤ c.offset ∧ c.stop ≤ fixedEnd := by
    intro c hc hfixed
    obtain ⟨d, hd, hset⟩ := hback c hc
    obtain rfl := hset.eq_of_fixed hfixed
    exact hfixIn _ hd hfixed
  have hbit : ∀ c ∈ columns, c.nullable = true → c.nullIndOffset = voaEnd ∧
      ∃ k : Nat, c.nullBitIndex = k ∧ k < (columns.filter (·.nullable)).length := by
    intro c hc hnull
    obtain ⟨d, hd, hset⟩ := hback c hc
    obtain ⟨-, -, hsame, hoffset, hindex⟩ := hset.same
    obtain ⟨hmap, k, hk, -, hlt⟩ := hbits d hd (hsame.trans hnull)
    rw [hoffset] at hmap
    rw [hindex] at hk
    have hpos : 0 < (columns.filter (·.nullable)).length := by omega
    exact ⟨hmap.trans (hbitmap hpos), k, hk, by omega⟩
  refine ⟨by omega, by omega, ?_, ?_, ?_, ?_, ?_, ?_, ?_⟩
  · exact fun c hc hvar => (hvarIn c hc hvar).1
  · intro c hc hvar
    obtain ⟨d, hd, hset⟩ := hback c hc
    obtain ⟨e, he, hset'⟩ := forall₂_exists_right hfixSteps.flip hd
    have hsame : e.type = c.type ∧ e.voaOffset = c.voaOffset := by
      rw [← hset.same.1, ← hset.same.2.1, hset']
      exact ⟨rfl, rfl⟩
    have hslot := hvoa e he (by rw [hsame.1]; exact hvar)
    rw [hsame.2] at hslot
    refine ⟨hslot.1, by omega, fun f hf hnull => ?_⟩
    rw [(hbit f hf hnull).1]
    exact hslot.2
  · intro c hc
    unfold LiteStoredColumn.start
    split_ifs with hvar
    · have := hvarIn c hc hvar
      omega
    · exact (hplace c hc (by simpa using hvar)).1
  · intro c hc
    cases hvar : isVariableType c.type with
    | true =>
      have := hvarIn c hc hvar
      omega
    | false =>
      have := hplace c hc hvar
      omega
  · have hfixPair' : columns.Pairwise fun c d => isVariableType c.type = false →
        isVariableType d.type = false → c.stop ≤ d.offset := by
      refine forall₂_pairwise ?_ hvarSteps hfixPair
      intro a b a' b' hab hab' hp hb hb'
      obtain rfl := hab.eq_of_fixed hb
      obtain rfl := hab'.eq_of_fixed hb'
      exact hp hb hb'
    refine (hfixPair'.and hvarPair).imp_of_mem ?_
    intro c d hc hd hpair
    unfold LiteStoredColumn.start
    cases hcv : isVariableType c.type with
    | true =>
      cases hdv : isVariableType d.type with
      | true => exact .inl (hpair.2 hcv hdv)
      | false =>
        refine .inr ((hplace d hd hdv).2.trans ?_)
        exact (hvarIn c hc hcv).2.1
    | false =>
      cases hdv : isVariableType d.type with
      | true => exact .inl ((hplace c hc hcv).2.trans (hvarIn d hd hdv).2.1)
      | false => exact .inl (hpair.1 hcv hdv)
  · intro c hc hnull
    obtain ⟨hmap, k, hk, hlt⟩ := hbit c hc hnull
    have := (neededBitmapSize_bounds hlt).1
    exact ⟨by omega, k, hk, hlt, by omega⟩
  · have hbitPair' : columns.Pairwise fun c d => c.nullable = true → d.nullable = true →
        c.nullBitIndex < d.nullBitIndex := by
      refine forall₂_pairwise ?_ hvarSteps hbitPair
      intro a b a' b' hab hab' hp
      obtain ⟨-, -, hnull, -, hindex⟩ := hab.same
      obtain ⟨-, -, hnull', -, hindex'⟩ := hab'.same
      rwa [hnull, hnull', hindex, hindex'] at hp
    refine hbitPair'.imp_of_mem ?_
    intro c d hc hd hlt hcn hdn
    exact ⟨(hbit c hc hcn).1.trans (hbit d hd hdn).1.symm, (hlt hcn hdn).ne⟩

theorem computeLayout_placed {table : LiteTableDef} {columns : List LiteStoredColumn}
    {rowLen : Nat} (h : computeLayout table = .ok (columns, rowLen)) (ha : table.Addressable) :
    ∃ first, Placed columns rowLen first := by
  unfold LiteTableDef.Addressable at ha
  simp only [h] at ha
  obtain ⟨hsum, -⟩ := ha
  simp only [computeLayout, bind_eq_ok, Except.ok.injEq, Prod.mk.injEq] at h
  obtain ⟨mapped, hmapped, hcolumns, hlen⟩ := h
  have htypes : columns.map (·.toMappedType) = mapped.map (·.toMappedType) := by
    rw [← hcolumns, placeVariable_types, placeFixed_types, placeVoa_types]
  rw [(rooms_eq htypes).2.2] at hsum
  have hrooms := rooms_le mapped
  obtain ⟨-, hvoaLe, hvoaUp, -⟩ := placeVoa_spec 8 mapped
  have hbitmapUp : neededBitmapSize (mapped.filter (·.nullable)).length ≤ mapped.length + 4 := by
    have hle := length_filter_le (fun c : LiteStoredColumn => c.nullable) mapped
    unfold neededBitmapSize
    split <;> omega
  have hheader : hdrSize = 8 := rfl
  rw [← hcolumns, ← hlen, hheader]
  refine ⟨_, placed_of_passes ?_ ?_ ?_⟩
  · intro hpos
    exact if_pos hpos
  · refine (alignTo_bounds ?_ (by omega)).1
    split
    · exact (typeAlignment_pos _).2
    · omega
  · have hup : ∀ a ≤ 8, alignTo ((placeVoa 8 mapped).2 +
        neededBitmapSize (mapped.filter (·.nullable)).length) a +
        (mapped.map fixedRoom).sum + (mapped.map variableRoom).sum + 8 < 2 ^ 64 := by
      intro a ha
      have := (alignTo_bounds ha (show (placeVoa 8 mapped).2 +
        neededBitmapSize (mapped.filter (·.nullable)).length + 8 < 2 ^ 64 by omega)).2
      omega
    apply hup
    split
    · exact (typeAlignment_pos _).2
    · omega

end litestore
