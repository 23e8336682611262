import EnvManifest.Proofs.Script.Renaming.Heaps
import Mathlib.Data.List.Perm.Subperm

/-!
# Values in heaps with other numbers

A value becomes the same datum, and a datum the same value. A datum is read with as many steps as
there are tables, and one more. That is always enough: a table that comes again is refused, so with
each step another table goes around.
-/

namespace EnvManifest.Script

variable {r : Renaming}

/-! ## From values -/

namespace HeapRenamed

mutual

theorem ofValue {h h' : Heap} (hh : HeapRenamed r h h') (v : Value) :
    HeapRenamed r (h.ofValue v).1 (h'.ofValue v).1 ∧
      (h'.ofValue v).2 = (h.ofValue v).2.rename r := by
  match v with
  | .null | .bool _ | .int _ | .float _ | .str _ => exact ⟨hh, rfl⟩
  | .list values =>
    have hv := hh.ofValues values
    have ht := hv.1.newTable { Table.ofItems (h.ofValues values).2 with isList := true }
    have same : Table.rename r { Table.ofItems (h.ofValues values).2 with isList := true } =
        { Table.ofItems (h'.ofValues values).2 with isList := true } := by
      rw [hv.2, ← Table.rename_ofItems]
      rfl
    rw [same] at ht
    exact ⟨ht.1, congrArg Datum.table ht.2⟩
  | .object fields =>
    have ht := hh.newTable (Table.reserve 0 fields.length)
    rw [Table.rename_reserve] at ht
    simp only [Heap.ofValue, ht.2]
    exact ⟨ht.1.setFields _ fields, rfl⟩

theorem ofValues {h h' : Heap} (hh : HeapRenamed r h h') (vs : List Value) :
    HeapRenamed r (h.ofValues vs).1 (h'.ofValues vs).1 ∧
      (h'.ofValues vs).2 = (h.ofValues vs).2.map (·.rename r) := by
  match vs with
  | [] => exact ⟨hh, rfl⟩
  | v :: vs =>
    have hv := hh.ofValue v
    have hvs := hv.1.ofValues vs
    exact ⟨hvs.1, congrArg₂ List.cons hv.2 hvs.2⟩

theorem setFields {h h' : Heap} (hh : HeapRenamed r h h') (id : Nat)
    (fields : List (String × Value)) :
    HeapRenamed r (h.setFields id fields) (h'.setFields (r.table id) fields) := by
  match fields with
  | [] => exact hh
  | (key, v) :: more =>
    have hv := hh.ofValue v
    simp only [Heap.setFields, hv.2]
    exact (hv.1.setTable id (.ofString key) (h.ofValue v).2).setFields id more

end

/-! ## To values -/

variable {h h' : Heap}

theorem isList (hh : HeapRenamed r h h') (id : Nat) : h'.isList (r.table id) = h.isList id := by
  simp only [Heap.isList, hh.table, Table.isList_rename, Table.length_rename]

theorem fieldKey (hh : HeapRenamed r h h') (d : Datum) :
    h'.fieldKey (d.rename r) = h.fieldKey d := by
  cases d with
  | number n => cases n <;> rfl
  | table id => simp only [Datum.rename_table, Heap.fieldKey, hh.isList]
  | _ => rfl

end HeapRenamed

theorem isLeftOut_rename (around : List Nat) (d : Datum) :
    Heap.isLeftOut (around.map r.table) (d.rename r) = Heap.isLeftOut around d := by
  cases d with
  | table id =>
    have again : (around.map r.table).contains (r.table id) = around.contains id := by
      simp [List.contains_eq_mem, r.table_injective.eq_iff]
    simp only [Datum.rename_table, Heap.isLeftOut, again]
  | _ => rfl

theorem filterMapM_map {α β γ ε : Type} {φ : α → γ} {f : α → Except ε (Option β)}
    {g : γ → Except ε (Option β)} (hg : ∀ a, g (φ a) = f a) (as : List α) :
    (as.map φ).filterMapM g = as.filterMapM f := by
  induction as with
  | nil => rfl
  | cons a as ih => rw [List.map_cons, List.filterMapM_cons, List.filterMapM_cons, hg, ih]

namespace Heap

/-- The value of an item, none if the item has no value of its own. -/
def itemWithin (around : List Nat) (value : Datum → Except ExchangeError Value) (d : Datum) :
    Except ExchangeError (Option Value) := do
  if ← isLeftOut around d then return none
  else return some (← value d)

/-- The field of an entry, none if its key or its value has no value of its own. -/
def fieldWithin (h : Heap) (around : List Nat) (value : Datum → Except ExchangeError Value)
    (e : Datum × Datum) : Except ExchangeError (Option (String × Value)) := do
  let keyOut ← isLeftOut around e.1
  let out ← isLeftOut around e.2
  if keyOut || out then return none
  else
    let key ← h.fieldKey e.1
    return some (key, ← value e.2)

theorem valueWithin_table (h : Heap) (around : List Nat) (fuel id : Nat) :
    h.valueWithin around (fuel + 1) (.table id) =
      let value := h.valueWithin (id :: around) fuel
      if h.isList id then
        let items := (List.range (h.table id).length).map fun i => (h.table id).getItem (i + 1)
        .list <$> items.filterMapM (itemWithin (id :: around) value)
      else .ofFields <$> (h.table id).pairs.filterMapM (h.fieldWithin (id :: around) value) := by
  rw [valueWithin]
  dsimp only
  split <;> rfl

theorem not_around {around : List Nat} {d : Datum} {out : Bool}
    (h : isLeftOut around d = .ok out) (id : Nat) (hd : d = .table id) : id ∉ around := by
  subst hd
  unfold isLeftOut at h
  dsimp only at h
  split at h
  · cases h
  · next fresh => exact fun again => fresh (List.contains_iff_mem.2 again)

variable {around : List Nat} {value value' : Datum → Except ExchangeError Value}

/-- Only data that are not around are asked for their value. -/
theorem itemWithin_congr (same : ∀ d, (∀ id, d = .table id → id ∉ around) → value d = value' d) :
    itemWithin around value = itemWithin around value' := by
  funext d
  unfold itemWithin
  cases hout : isLeftOut around d with
  | error e => rfl
  | ok out => rw [same d (not_around hout)]

theorem fieldWithin_congr (h : Heap)
    (same : ∀ d, (∀ id, d = .table id → id ∉ around) → value d = value' d) :
    h.fieldWithin around value = h.fieldWithin around value' := by
  funext e
  unfold fieldWithin
  cases hout : isLeftOut around e.2 with
  | error error => rfl
  | ok out => rw [same e.2 (not_around hout)]

/-- More steps change nothing where every table that is not around has its step. -/
theorem valueWithin_enough (h : Heap) (around : List Nat) (fuel more : Nat) (d : Datum)
    (distinct : around.Nodup) (inside : ∀ id ∈ around, id < h.tables.size)
    (fresh : ∀ id, d = .table id → id ∉ around) (enough : h.tables.size < fuel + around.length) :
    h.valueWithin around (fuel + more) d = h.valueWithin around fuel d := by
  induction fuel generalizing around d with
  | zero =>
    have most : around.length ≤ (List.range h.tables.size).length :=
      (distinct.subperm fun id hid => List.mem_range.2 (inside id hid)).length_le
    rw [List.length_range] at most
    omega
  | succ fuel ih =>
    rw [Nat.add_right_comm]
    cases d with
    | number n => cases n <;> simp [valueWithin]
    | table id =>
      rw [valueWithin_table, valueWithin_table]
      by_cases hid : id < h.tables.size
      · have within (d : Datum) (hd : ∀ id', d = .table id' → id' ∉ id :: around) :
            h.valueWithin (id :: around) (fuel + more) d = h.valueWithin (id :: around) fuel d := by
          refine ih (id :: around) d (List.nodup_cons.2 ⟨fresh id rfl, distinct⟩) ?_ hd ?_
          · exact List.forall_mem_cons.2 ⟨hid, inside⟩
          · rw [List.length_cons]
            omega
        dsimp only
        rw [itemWithin_congr within, fieldWithin_congr h within]
      · have empty : h.table id = .empty := by
          rw [Heap.table, Array.getD_eq_getD_getElem?,
            Array.getElem?_eq_none (Nat.le_of_not_lt hid)]
          rfl
        rw [empty]
        rfl
    | _ => simp [valueWithin]

end Heap

/-! ## To values -/

namespace HeapRenamed

variable {h h' : Heap}

theorem itemWithin (around : List Nat) {value value' : Datum → Except ExchangeError Value}
    (same : ∀ d, value' (d.rename r) = value d) (d : Datum) :
    Heap.itemWithin (around.map r.table) value' (d.rename r) = Heap.itemWithin around value d := by
  unfold Heap.itemWithin
  rw [isLeftOut_rename, same]

theorem fieldWithin (hh : HeapRenamed r h h') (around : List Nat)
    {value value' : Datum → Except ExchangeError Value} (same : ∀ d, value' (d.rename r) = value d)
    (e : Datum × Datum) :
    h'.fieldWithin (around.map r.table) value' (Datum.renamePair r e) =
      h.fieldWithin around value e := by
  unfold Heap.fieldWithin
  dsimp only [Datum.renamePair]
  rw [isLeftOut_rename, isLeftOut_rename, hh.fieldKey, same]

theorem valueWithin (hh : HeapRenamed r h h') (around : List Nat) (fuel : Nat) (d : Datum) :
    h'.valueWithin (around.map r.table) fuel (d.rename r) = h.valueWithin around fuel d := by
  induction fuel generalizing around d with
  | zero => cases d with
    | number n => cases n <;> simp [Heap.valueWithin]
    | _ => simp [Heap.valueWithin]
  | succ fuel ih => cases d with
    | number n => cases n <;> simp [Heap.valueWithin]
    | table id =>
      have items : ((List.range (h.table id).length).map fun i =>
            ((h.table id).rename r).getItem (i + 1)) =
          ((List.range (h.table id).length).map fun i => (h.table id).getItem (i + 1)).map
            (·.rename r) := by
        simp [Table.getItem_rename]
      rw [Datum.rename_table, Heap.valueWithin_table, Heap.valueWithin_table, hh.isList, hh.table,
        Table.length_rename, Table.pairs_rename, items, ← List.map_cons]
      dsimp only
      rw [filterMapM_map (itemWithin _ (ih _)), filterMapM_map (hh.fieldWithin _ (ih _))]
    | _ => simp [Heap.valueWithin]

theorem toValue (hh : HeapRenamed r h h') (d : Datum) : h'.toValue (d.rename r) = h.toValue d := by
  have enough (h : Heap) (more : Nat) (d : Datum) :
      h.valueWithin [] (h.tables.size + 1 + more) d = h.valueWithin [] (h.tables.size + 1) d :=
    h.valueWithin_enough [] _ more d .nil nofun (fun _ _ => List.not_mem_nil) (Nat.lt_succ_self _)
  unfold Heap.toValue
  rw [← enough h' (h.tables.size + 1), ← enough h (h'.tables.size + 1),
    Nat.add_comm (h.tables.size + 1)]
  exact hh.valueWithin [] _ d

end HeapRenamed

end EnvManifest.Script
