import EnvManifest.Proofs.Script.Renaming.Library

/-!
# The heap that expressions start with

The tables that all programs share name each other and functions of the language, but nothing that a
program makes. So they are the same under any numbers for the rest.
-/

namespace EnvManifest.Script

/-! ## Shared tables -/

/-- Other numbers for what comes after the first tables. -/
def Renaming.Keeps (r : Renaming) (n : Nat) : Prop := ∀ id < n, r.table id = id

/-- A datum that names the first tables at most. -/
def Datum.Within (n : Nat) (d : Datum) : Prop := ∀ r : Renaming, r.Keeps n → d.rename r = d

/-- Fields that name the first tables at most. -/
def FieldsWithin (n : Nat) (fields : List (Datum × Datum)) : Prop :=
  ∀ e ∈ fields, e.1.Within n ∧ e.2.Within n

/-- A table that names the first tables at most. -/
def Table.Within (n : Nat) (t : Table) : Prop := ∀ r : Renaming, r.Keeps n → t.rename r = t

variable {m n : Nat}

theorem Renaming.Keeps.mono {r : Renaming} (h : r.Keeps n) (hm : m ≤ n) : r.Keeps m :=
  fun id hid => h id (Nat.lt_of_lt_of_le hid hm)

theorem Datum.Within.mono {d : Datum} (h : d.Within m) (hm : m ≤ n) : d.Within n :=
  fun r hr => h r (hr.mono hm)

theorem Datum.within_table {id : Nat} (h : id < n) : (Datum.table id).Within n :=
  fun _ hr => congrArg Datum.table (hr id h)

theorem Datum.within_ofString (s : String) : (Datum.ofString s).Within n := fun _ _ => rfl

namespace Table

variable {t : Table} {key d : Datum}

theorem Within.mono (h : t.Within m) (hm : m ≤ n) : t.Within n := fun r hr => h r (hr.mono hm)

theorem Within.set (ht : t.Within n) (hk : key.Within n) (hd : d.Within n) :
    (t.set key d).Within n := by
  intro r hr
  rw [← set_rename, ht r hr, hk r hr, hd r hr]

theorem within_empty : empty.Within n := fun _ _ => rename_empty

theorem within_reserve (items entries : Nat) : (reserve items entries).Within n :=
  fun _ _ => rename_reserve items entries

theorem within_ofItems {items : List Datum} (h : ∀ d ∈ items, d.Within n) (isList : Bool) :
    Within n { ofItems items with isList } := by
  intro r hr
  have same : items.map (·.rename r) = items :=
    (List.map_congr_left fun d hd => h d hd r hr).trans (List.map_id' items)
  simp [rename, ofItems, empty, same]

theorem within_metatable {rules : Nat} (h : rules < n) :
    Within n { empty with metatable := some rules } := by
  intro r hr
  rw [rename_metatable, hr rules h]

theorem Within.setAll {fields : List (Datum × Datum)} (ht : t.Within n)
    (h : FieldsWithin n fields) : (fields.foldl (fun t (k, v) => t.set k v) t).Within n := by
  induction fields generalizing t with
  | nil => exact ht
  | cons e fields ih =>
    obtain ⟨hk, hv⟩ := h e List.mem_cons_self
    exact ih (ht.set hk hv) fun e he => h e (List.mem_cons_of_mem _ he)

theorem within_tableOf {fields : List (Datum × Datum)} (h : FieldsWithin n fields) :
    (tableOf fields).Within n := within_empty.setAll h

end Table

theorem within_fieldsOf (table : String) (fs : List Native) :
    FieldsWithin n (fieldsOf table fs) := by
  intro e he
  obtain ⟨f, -, hf⟩ := List.mem_filterMap.1 he
  split at hf
  · split at hf
    · cases hf
      exact ⟨fun _ _ => rfl, fun _ _ => rfl⟩
    · cases hf
  · cases hf

theorem within_looseOf (fs : List Native) : FieldsWithin n (looseOf fs) := by
  intro e he
  obtain ⟨f, -, hf⟩ := List.mem_filterMap.1 he
  split at hf
  · cases hf
    exact ⟨fun _ _ => rfl, fun _ _ => rfl⟩
  · cases hf

theorem within_numberConstants : FieldsWithin n numberConstants := by
  unfold FieldsWithin numberConstants
  simp only [List.forall_mem_cons]
  exact ⟨⟨fun _ _ => rfl, fun _ _ => rfl⟩, ⟨fun _ _ => rfl, fun _ _ => rfl⟩,
    ⟨fun _ _ => rfl, fun _ _ => rfl⟩, ⟨fun _ _ => rfl, fun _ _ => rfl⟩, List.forall_mem_nil _⟩

/-! ## Heaps -/

/-- A heap without variables and functions whose tables name each other at most. -/
structure Heap.Closed (h : Heap) : Prop where
  tables : ∀ t ∈ h.tables, t.Within h.tables.size
  cells : h.cells = #[]
  closures : h.closures = #[]

/-- A heap that has become a closed one by more of its own. -/
structure Heap.Grows (h h' : Heap) : Prop where
  size : h.tables.size ≤ h'.tables.size
  closed : h'.Closed

namespace Heap

variable {h h₁ h₂ : Heap}

theorem Closed.grows (hh : h.Closed) : h.Grows h := ⟨Nat.le_refl _, hh⟩

theorem Grows.trans (grown : h.Grows h₁) (more : h₁.Grows h₂) : h.Grows h₂ :=
  ⟨Nat.le_trans grown.size more.size, more.closed⟩

theorem Grows.foldl {α : Type} {f : Heap → α → Heap} {as : List α} (hh : h.Closed)
    (hf : ∀ h₁, h.Grows h₁ → ∀ a ∈ as, h₁.Grows (f h₁ a)) : h.Grows (as.foldl f h) := by
  have all (h₁ : Heap) (grown : h.Grows h₁) : h.Grows (as.foldl f h₁) := by
    induction as generalizing h₁ with
    | nil => exact grown
    | cons a as ih =>
      refine ih (fun h₂ h₂' b hb => hf h₂ h₂' b (List.mem_cons_of_mem _ hb)) (f h₁ a) ?_
      exact grown.trans (hf h₁ grown a List.mem_cons_self)
  exact all h hh.grows

theorem Closed.newTable (hh : h.Closed) {t : Table} (ht : t.Within (h.tables.size + 1)) :
    h.Grows (h.newTable t).1 ∧ h.tables.size < (h.newTable t).1.tables.size := by
  have size : (h.newTable t).1.tables.size = h.tables.size + 1 := Array.size_push _
  refine ⟨⟨size ▸ Nat.le_succ _, fun u hu => ?_, hh.cells, hh.closures⟩, size ▸ Nat.lt_succ_self _⟩
  rw [size]
  obtain hu | rfl := Array.mem_push.1 hu
  · exact (hh.tables u hu).mono (Nat.le_succ _)
  · exact ht

theorem Closed.setTable (hh : h.Closed) (id : Nat) {key d : Datum}
    (hk : key.Within h.tables.size) (hd : d.Within h.tables.size) :
    h.Grows (h.setTable id key d) := by
  have size : (h.setTable id key d).tables.size = h.tables.size := Array.size_modify
  refine ⟨Nat.le_of_eq size.symm, fun u hu => ?_, hh.cells, hh.closures⟩
  rw [size]
  obtain ⟨i, hi⟩ := Array.mem_iff_getElem?.1 hu
  simp only [Heap.setTable, Array.getElem?_modify] at hi
  split at hi
  · obtain ⟨t, ht, rfl⟩ := Option.map_eq_some_iff.1 hi
    exact (hh.tables t (Array.mem_of_getElem? ht)).set hk hd
  · exact hh.tables u (Array.mem_of_getElem? hi)

mutual

theorem Closed.ofValue {h : Heap} (hh : h.Closed) (v : Value) :
    h.Grows (h.ofValue v).1 ∧ (h.ofValue v).2.Within (h.ofValue v).1.tables.size := by
  match v with
  | .null | .bool _ | .int _ | .float _ | .str _ => exact ⟨hh.grows, fun _ _ => rfl⟩
  | .list values =>
    obtain ⟨grown, within⟩ := hh.ofValues values
    obtain ⟨listed, last⟩ := grown.closed.newTable (Table.within_ofItems
      (fun d hd => (within d hd).mono (Nat.le_succ _)) true)
    exact ⟨grown.trans listed, Datum.within_table last⟩
  | .object fields =>
    obtain ⟨opened, last⟩ := hh.newTable (Table.within_reserve 0 fields.length)
    have grown := opened.closed.setFields h.tables.size fields
    exact ⟨opened.trans grown, Datum.within_table (Nat.lt_of_lt_of_le last grown.size)⟩

theorem Closed.ofValues {h : Heap} (hh : h.Closed) (vs : List Value) :
    h.Grows (h.ofValues vs).1 ∧
      ∀ d ∈ (h.ofValues vs).2, d.Within (h.ofValues vs).1.tables.size := by
  match vs with
  | [] => exact ⟨hh.grows, nofun⟩
  | v :: vs =>
    obtain ⟨grown, within⟩ := hh.ofValue v
    obtain ⟨grown', within'⟩ := grown.closed.ofValues vs
    exact ⟨grown.trans grown', List.forall_mem_cons.2 ⟨within.mono grown'.size, within'⟩⟩

theorem Closed.setFields {h : Heap} (hh : h.Closed) (id : Nat) (fields : List (String × Value)) :
    h.Grows (h.setFields id fields) := by
  match fields with
  | [] => exact hh.grows
  | (key, v) :: more =>
    obtain ⟨grown, within⟩ := hh.ofValue v
    have set := grown.closed.setTable id (Datum.within_ofString key) within
    exact (grown.trans set).trans (set.closed.setFields id more)

end

/-- The first tables name others among them at most. -/
theorem Closed.named (hh : h.Closed) (hn : n ≤ h.tables.size) {entries : List (String × Datum)}
    (he : ∀ e ∈ entries, e.2.Within n) :
    h.Grows (entries.foldl (fun h (name, d) => h.setTable globals (.ofString name) d) h) :=
  Grows.foldl hh fun _ grown e hmem => grown.closed.setTable globals (Datum.within_ofString e.1)
    ((he e hmem).mono (Nat.le_trans hn grown.size))

/-- The six tables of the language, whatever functions it has. -/
theorem closed_tables {functions strings tables numbers : List (Datum × Datum)}
    (hf : FieldsWithin 6 functions) (hs : FieldsWithin 6 strings) (ht : FieldsWithin 6 tables)
    (hn : FieldsWithin 6 numbers) {entries : List (String × Datum)}
    (he : ∀ e ∈ entries, e.2.Within 6) :
    let h := entries.foldl (fun h (name, d) => h.setTable globals (.ofString name) d)
      (setTable ⟨#[tableOf functions, .empty, tableOf strings, tableOf tables, tableOf numbers,
        .empty], #[], #[]⟩ stringBehaviour indexKey (.table 2))
    h.Closed ∧ 6 ≤ h.tables.size := by
  have first : Closed ⟨#[tableOf functions, .empty, tableOf strings, tableOf tables,
      tableOf numbers, .empty], #[], #[]⟩ := by
    refine ⟨fun t hmem => ?_, rfl, rfl⟩
    simp only [List.mem_toArray, List.mem_cons, List.not_mem_nil, or_false] at hmem
    obtain rfl | rfl | rfl | rfl | rfl | rfl := hmem
    · exact Table.within_tableOf hf
    · exact Table.within_empty
    · exact Table.within_tableOf hs
    · exact Table.within_tableOf ht
    · exact Table.within_tableOf hn
    · exact Table.within_empty
  have indexed := first.setTable stringBehaviour (fun _ _ => rfl : indexKey.Within 6)
    (Datum.within_table (by decide : 2 < 6))
  have named := indexed.closed.named indexed.size he
  exact ⟨named.closed, (indexed.trans named).size⟩

theorem closed_standard : standard.Closed ∧ 6 ≤ standard.tables.size := by
  have entries : ∀ e ∈ [("_G", Datum.table globals), ("_VERSION", .ofString "Lua 5.4"),
      ("string", .table 2), ("table", .table 3), ("math", .table 4), ("utf8", .table 5)],
      e.2.Within 6 := by
    simp only [List.forall_mem_cons]
    exact ⟨Datum.within_table (by decide), Datum.within_ofString _, Datum.within_table (by decide),
      Datum.within_table (by decide), Datum.within_table (by decide),
      Datum.within_table (by decide), List.forall_mem_nil _⟩
  exact closed_tables (within_looseOf _) (within_fieldsOf _ _) (within_fieldsOf _ _)
    (List.forall_mem_append.2 ⟨within_fieldsOf _ _, within_numberConstants⟩) entries

theorem Closed.newReadOnly (hh : h.Closed) {source : Nat} (hs : source < h.tables.size) :
    h.Grows (h.newReadOnly source).1 ∧
      (h.newReadOnly source).2 < (h.newReadOnly source).1.tables.size := by
  have entries : FieldsWithin (h.tables.size + 1) [(indexKey, .table source),
      (newIndexKey, .native .refuseChange), (protectedKey, .bool false)] := by
    simp only [FieldsWithin, List.forall_mem_cons]
    exact ⟨⟨fun _ _ => rfl, Datum.within_table (Nat.lt_succ_of_lt hs)⟩,
      ⟨fun _ _ => rfl, fun _ _ => rfl⟩, ⟨fun _ _ => rfl, fun _ _ => rfl⟩, List.forall_mem_nil _⟩
  obtain ⟨ruled, rules⟩ := hh.newTable (Table.within_tableOf entries)
  obtain ⟨behaving, last⟩ := ruled.closed.newTable (Table.within_metatable
    (Nat.lt_succ_of_lt rules))
  exact ⟨ruled.trans behaving, last⟩

theorem Closed.addBuiltins (hh : h.Closed) (name : String) : h.Grows (h.addBuiltins name) := by
  obtain ⟨grown, source⟩ := hh.newTable (Table.within_tableOf
    (within_fieldsOf name (Builtin.all.map .builtin)))
  obtain ⟨behaving, last⟩ := grown.closed.newReadOnly source
  have named := behaving.closed.setTable globals (Datum.within_ofString name)
    (Datum.within_table last)
  exact (grown.trans behaving).trans named

theorem closed_start (facts : Fields Value) :
    (start facts).Closed ∧ 6 ≤ (start facts).tables.size := by
  obtain ⟨closed, six⟩ := closed_standard
  have known := closed.setFields globals facts
  have loose := Grows.foldl known.closed fun _ grown e he =>
    have within := within_looseOf (Builtin.all.map .builtin) e he
    grown.closed.setTable globals within.1 within.2
  have builtins := Grows.foldl loose.closed
    fun _ grown name (_ : name ∈ ["file", "mung", "path"]) => grown.closed.addBuiltins name
  exact ⟨builtins.closed, Nat.le_trans six ((known.trans loose).trans builtins).size⟩

end Heap

/-! ## Behind another heap -/

/-- The numbers after the first tables, moved behind a heap. -/
def Renaming.behind {n : Nat} {h : Heap} (two : 2 ≤ n) (hn : n ≤ h.tables.size) : Renaming where
  table id := if id < n then id else id - n + h.tables.size
  cell id := id + h.cells.size
  closure id := id + h.closures.size
  table_injective a b same := by
    dsimp only at same
    split at same <;> split at same <;> omega
  cell_injective _ _ same := Nat.add_right_cancel same
  closure_injective _ _ same := Nat.add_right_cancel same
  globals := if_pos (Nat.lt_of_lt_of_le (by decide) two)
  strings := if_pos (Nat.lt_of_lt_of_le (by decide) two)

/-- Nothing of an array without items. -/
theorem Placed.behind {α β : Type} (f : α → β) (ys : Array β) :
    Placed (· + ys.size) f #[] ys where
  get i := by simp
  next n := by simp [Nat.add_comm]

/-- A closed heap is in every heap with the same first tables. -/
theorem HeapRenamed.behind {h h' : Heap} (closed : h.Closed) (two : 2 ≤ h.tables.size)
    (hn : h.tables.size ≤ h'.tables.size)
    (same : ∀ id < h.tables.size, h'.tables[id]? = h.tables[id]?) :
    HeapRenamed (.behind two hn) h h' where
  tables := by
    refine ⟨fun i => ?_, fun k => ?_⟩
    · by_cases hi : i < h.tables.size
      · have place : (Renaming.behind two hn).table i = i := if_pos hi
        have kept : h.tables[i].rename (.behind two hn) = h.tables[i] :=
          closed.tables _ (Array.getElem_mem hi) _ fun id hid => if_pos hid
        rw [place, same i hi, Array.getElem?_eq_getElem hi, Option.map_some, kept]
      · have place : (Renaming.behind two hn).table i = i - h.tables.size + h'.tables.size :=
          if_neg hi
        rw [place, Array.getElem?_eq_none (Nat.le_add_left _ _),
          Array.getElem?_eq_none (Nat.le_of_not_lt hi), Option.map_none]
    · have place : (Renaming.behind two hn).table (h.tables.size + k) =
          h.tables.size + k - h.tables.size + h'.tables.size := if_neg (by omega)
      omega
  cells := closed.cells ▸ Placed.behind _ _
  closures := closed.closures ▸ Placed.behind _ _

end EnvManifest.Script
