import EnvManifest.Proofs.Script.Reading
import EnvManifest.Proofs.Script.Tables
import EnvManifest.Proofs.Text.Utf8

/-!
# Values in heaps and back

A value that the engine gives can be put in any heap, and is read from it again. Its tables have the
numbers from the first free one on, so that nothing that happens to other tables changes it.
-/

namespace EnvManifest

open Text Script

/-! ## Values -/

/-- A value without a `null` that a table cannot hold: as a field, or at the end of a list. -/
inductive Value.Whole : Value → Prop
  | null : Whole .null
  | bool (b : Bool) : Whole (.bool b)
  | int (n : Int) : Whole (.int n)
  | float (x : Float) : Whole (.float x)
  | str (s : String) : Whole (.str s)
  | list {items : List Value} (hlast : items.getLast? ≠ some .null)
    (hlen : items.length < Word.half) (h : ∀ v ∈ items, Whole v) : Whole (.list items)
  | object {fields : List (String × Value)} (hnull : ∀ e ∈ fields, e.2 ≠ .null)
    (h : ∀ e ∈ fields, Whole e.2) : Whole (.object fields)

theorem Word.int64?_toInt_eq {n : Int} {i : Int64} (h : Word.int64? n = some i) : i.toInt = n := by
  unfold Word.int64? Word.half at h
  split at h
  · obtain rfl := Option.some.inj h
    rw [Int64.toInt_ofInt_of_le] <;> omega
  · cases h

theorem Fields.ofList_of_sorted {α : Type} {fields : Fields α} (h : Fields.Sorted fields) :
    Fields.ofList fields = fields := by
  apply Fields.ext_of_sorted (Fields.sorted_ofList fields) h
  intro k
  rw [Fields.get?_ofList, Fields.last?_of_sorted h]

namespace Script.Heap

variable {h : Heap}

/-! ## Tables by number -/

theorem size_newTable (h : Heap) (t : Table) : (h.newTable t).1.tables.size = h.tables.size + 1 :=
  Array.size_push _

theorem size_setTable (h : Heap) (id : Nat) (key d : Datum) :
    (h.setTable id key d).tables.size = h.tables.size := Array.size_modify

theorem table_newTable_self (h : Heap) (t : Table) :
    (h.newTable t).1.table h.tables.size = t := by
  unfold newTable table
  simp

theorem table_newTable_of_lt {id : Nat} (hid : id < h.tables.size) (t : Table) :
    (h.newTable t).1.table id = h.table id := by
  unfold newTable table
  simp only [Array.getD_eq_getD_getElem?]
  rw [Array.getElem?_push_lt hid, Array.getElem?_eq_getElem hid]

theorem table_setTable_self {id : Nat} (hid : id < h.tables.size) (key d : Datum) :
    (h.setTable id key d).table id = (h.table id).set key d := by
  unfold setTable table
  simp only [Array.getD_eq_getD_getElem?, Array.getElem?_modify, if_true]
  rw [Array.getElem?_eq_getElem hid]
  rfl

theorem table_setTable_of_ne {id other : Nat} (hne : other ≠ id) (key d : Datum) :
    (h.setTable id key d).table other = h.table other := by
  unfold setTable table
  simp only [Array.getD_eq_getD_getElem?, Array.getElem?_modify]
  rw [if_neg (fun he => hne he.symm)]

/-- A heap with more tables, but for one that may have changed. -/
structure Extends (changed : Nat → Prop) (h h' : Heap) : Prop where
  size : h.tables.size ≤ h'.tables.size
  same : ∀ id, id < h.tables.size → ¬ changed id → h'.table id = h.table id

namespace Extends

variable {changed : Nat → Prop} {h₁ h₂ : Heap}

theorem refl (h : Heap) : Extends changed h h := ⟨Nat.le_refl _, fun _ _ _ => rfl⟩

theorem trans (e : Extends changed h h₁) (e' : Extends changed h₁ h₂) : Extends changed h h₂ := by
  refine ⟨Nat.le_trans e.size e'.size, ?_⟩
  intro id hid hc
  rw [e'.same id (Nat.lt_of_lt_of_le hid e.size) hc, e.same id hid hc]

theorem mono {changed' : Nat → Prop} (e : Extends changed h h₁)
    (hc : ∀ id, id < h.tables.size → changed id → changed' id) : Extends changed' h h₁ :=
  ⟨e.size, fun id hid hno => e.same id hid fun hyes => hno (hc id hid hyes)⟩

end Extends

theorem extends_newTable (h : Heap) (t : Table) : Extends (fun _ => False) h (h.newTable t).1 := by
  refine ⟨?_, fun id hid _ => table_newTable_of_lt hid t⟩
  rw [size_newTable]
  omega

theorem extends_setTable (h : Heap) (id : Nat) (key d : Datum) :
    Extends (· = id) h (h.setTable id key d) :=
  ⟨Nat.le_of_eq (size_setTable h id key d).symm, fun _ _ hne => table_setTable_of_ne hne key d⟩

theorem ofValue_list (h : Heap) (values : List Value) :
    h.ofValue (.list values) =
      (((h.ofValues values).1.newTable (Table.listed (h.ofValues values).2)).1,
        .table (h.ofValues values).1.tables.size) := by
  rw [ofValue]
  rfl

theorem ofValue_object (h : Heap) (fields : List (String × Value)) :
    h.ofValue (.object fields) =
      ((h.newTable (Table.reserve 0 fields.length)).1.setFields h.tables.size fields,
        .table h.tables.size) := by
  rw [ofValue]
  rfl

theorem ofValues_cons (h : Heap) (v : Value) (vs : List Value) :
    h.ofValues (v :: vs) = (((h.ofValue v).1.ofValues vs).1,
      (h.ofValue v).2 :: ((h.ofValue v).1.ofValues vs).2) := by
  rw [ofValues]

theorem setFields_cons (h : Heap) (id : Nat) (key : String) (v : Value)
    (more : List (String × Value)) :
    h.setFields id ((key, v) :: more) =
      ((h.ofValue v).1.setTable id (.ofString key) (h.ofValue v).2).setFields id more := by
  rw [setFields]

mutual

/-- A value that is put in a heap changes no table. -/
theorem extends_ofValue (h : Heap) (v : Value) : Extends (fun _ => False) h (h.ofValue v).1 := by
  match v with
  | .null | .bool _ | .int _ | .float _ | .str _ => exact .refl h
  | .list values =>
    rw [ofValue_list]
    exact (extends_ofValues h values).trans (extends_newTable _ _)
  | .object fields =>
    have hnew : Extends (· = h.tables.size) h (h.newTable (Table.reserve 0 fields.length)).1 :=
      (extends_newTable h _).mono nofun
    have hset := hnew.trans (extends_setFields _ h.tables.size fields)
    rw [ofValue_object]
    exact ⟨hset.size, fun id hid _ => hset.same id hid (Nat.ne_of_lt hid)⟩

theorem extends_ofValues (h : Heap) (vs : List Value) :
    Extends (fun _ => False) h (h.ofValues vs).1 := by
  match vs with
  | [] => exact .refl h
  | v :: vs =>
    rw [ofValues_cons]
    exact (extends_ofValue h v).trans (extends_ofValues _ vs)

theorem extends_setFields (h : Heap) (id : Nat) (fields : List (String × Value)) :
    Extends (· = id) h (h.setFields id fields) := by
  match fields with
  | [] => exact .refl h
  | (key, v) :: more =>
    rw [setFields_cons]
    have hvalue : Extends (· = id) h (h.ofValue v).1 := (extends_ofValue h v).mono nofun
    exact (hvalue.trans (extends_setTable _ id _ _)).trans (extends_setFields _ id more)

end

/-! ## What goes in -/

/-- Whatever tables are around, a datum has a value. Its own tables have numbers from one to below
another. -/
def Holds (h : Heap) (low high : Nat) (d : Datum) (v : Value) : Prop :=
  ∀ around fuel, (∀ id ∈ around, id < low ∨ high ≤ id) → high - low ≤ fuel →
    isLeftOut around d = .ok false ∧ h.valueWithin around fuel d = .ok v

/-- Two heaps with the same tables from one number to below another. -/
def SameTables (low high : Nat) (h h' : Heap) : Prop :=
  ∀ id, low ≤ id → id < high → h'.table id = h.table id

theorem SameTables.mono {low high low' high' : Nat} {h h' : Heap} (s : SameTables low high h h')
    (hlow : low ≤ low') (hhigh : high' ≤ high) : SameTables low' high' h h' :=
  fun id hid hid' => s id (Nat.le_trans hlow hid) (Nat.lt_of_lt_of_le hid' hhigh)

/-- What has been added later leaves the earlier tables as they were. -/
theorem SameTables.before {low : Nat} {h h₁ h' : Heap} (e : Extends (fun _ => False) h h₁)
    (s : SameTables low h₁.tables.size h₁ h') : SameTables low h.tables.size h h' := by
  intro id hid hid'
  rw [s id hid (Nat.lt_of_lt_of_le hid' e.size), e.same id hid' (fun hc => hc)]

theorem eq_null_of_ofValue {v : Value} (hd : (h.ofValue v).2 = .nil) : v = .null := by
  cases v with
  | null => rfl
  | list values =>
    rw [ofValue_list] at hd
    cases hd
  | object fields =>
    rw [ofValue_object] at hd
    cases hd
  | _ =>
    rw [ofValue] at hd
    cases hd

theorem length_ofValues (h : Heap) (vs : List Value) : (h.ofValues vs).2.length = vs.length := by
  induction vs generalizing h with
  | nil => rfl
  | cons v vs ih => rw [ofValues_cons, List.length_cons, List.length_cons, ih]

theorem getLast?_ofValues {vs : List Value} (hd : (h.ofValues vs).2.getLast? = some .nil) :
    vs.getLast? = some .null := by
  induction vs generalizing h with
  | nil => cases hd
  | cons v vs ih =>
    rw [ofValues_cons] at hd
    cases vs with
    | nil =>
      rw [eq_null_of_ofValue (Option.some.inj hd)]
      rfl
    | cons w vs =>
      rw [List.getLast?_cons_cons]
      apply ih (h := (h.ofValue v).1)
      rw [ofValues_cons] at hd ⊢
      rwa [List.getLast?_cons_cons] at hd

theorem ofString_injective {s t : String} (h : Datum.ofString s = .ofString t) : s = t :=
  String.toList_inj.1 (encode_injective (Datum.str.inj h))

theorem fieldKey_ofString (h : Heap) (key : String) : h.fieldKey (.ofString key) = .ok key := by
  unfold fieldKey Datum.ofString
  simp

/-! ### Items and fields -/

/-- As `Holds`, for the items of a list. -/
def HoldsItems (h : Heap) (low high : Nat) (ds : List Datum) (vs : List Value) : Prop :=
  ∀ around fuel, (∀ id ∈ around, id < low ∨ high ≤ id) → high - low ≤ fuel →
    ds.filterMapM (itemWithin around (h.valueWithin around fuel)) = .ok vs

/-- As `Holds`, for the fields of an object. -/
def HoldsFields (h : Heap) (low high : Nat) (es : List (Datum × Datum))
    (fields : List (String × Value)) : Prop :=
  ∀ around fuel, (∀ id ∈ around, id < low ∨ high ≤ id) → high - low ≤ fuel →
    es.filterMapM (h.fieldWithin around (h.valueWithin around fuel)) = .ok fields

section

variable {low mid high id : Nat} {d : Datum} {v : Value} {ds : List Datum} {vs : List Value}
  {es : List (Datum × Datum)} {fields : List (String × Value)}

theorem outside_mono {around : List Nat} (hout : ∀ id ∈ around, id < low ∨ high ≤ id)
    {low' high' : Nat} (hlow : low ≤ low') (hhigh : high' ≤ high) :
    ∀ id ∈ around, id < low' ∨ high' ≤ id := by
  intro id hid
  have := hout id hid
  omega

theorem Holds.item (hd : h.Holds low mid d v) (hds : h.HoldsItems mid high ds vs)
    (hlow : low ≤ mid) (hhigh : mid ≤ high) : h.HoldsItems low high (d :: ds) (v :: vs) := by
  intro around fuel hout hfuel
  have hfirst := hd around fuel (outside_mono hout (Nat.le_refl _) hhigh) (by omega)
  have hrest := hds around fuel (outside_mono hout hlow (Nat.le_refl _)) (by omega)
  rw [List.filterMapM_cons, itemWithin_ok.2 hfirst]
  dsimp only [bind, Except.bind]
  rw [hrest]
  rfl

theorem Holds.field (hd : h.Holds low mid d v) (hes : h.HoldsFields mid high es fields)
    (hlow : low ≤ mid) (hhigh : mid ≤ high) (key : String) :
    h.HoldsFields low high ((.ofString key, d) :: es) ((key, v) :: fields) := by
  intro around fuel hout hfuel
  obtain ⟨hin, hvalue⟩ := hd around fuel (outside_mono hout (Nat.le_refl _) hhigh) (by omega)
  have hrest := hes around fuel (outside_mono hout hlow (Nat.le_refl _)) (by omega)
  have hfield : h.fieldWithin around (h.valueWithin around fuel) (.ofString key, d) =
      .ok (some (key, v)) :=
    fieldWithin_ok.2 ⟨rfl, hin, fieldKey_ofString h key, hvalue⟩
  rw [List.filterMapM_cons, hfield]
  dsimp only [bind, Except.bind]
  rw [hrest]
  rfl

/-- A table is read at the cost of one step, and nothing of its own is around it. -/
theorem holds_table (hlow : low ≤ id) (hhigh : id < high)
    (hread : ∀ around fuel, (∀ other ∈ around, other < low ∨ high ≤ other) →
      high - low ≤ fuel + 1 → h.valueWithin around (fuel + 1) (.table id) = .ok v) :
    h.Holds low high (.table id) v := by
  intro around fuel hout hfuel
  obtain ⟨fuel, rfl⟩ := Nat.exists_eq_succ_of_ne_zero (n := fuel) (by omega)
  have hfresh : id ∉ around := by
    intro hmem
    have := hout id hmem
    omega
  refine ⟨?_, hread around fuel hout hfuel⟩
  unfold isLeftOut
  simp [hfresh]

/-- A list stands right after the tables of its items. -/
theorem HoldsItems.table (hitems : h.HoldsItems low id ds vs) (hlow : low ≤ id)
    (hlist : h.isList id = true)
    (hds : (List.range (h.table id).length).map (fun i => (h.table id).getItem (i + 1)) = ds) :
    h.Holds low (id + 1) (.table id) (.list vs) := by
  apply holds_table hlow (Nat.lt_succ_self id)
  intro around fuel hout hfuel
  have hread := hitems (id :: around) fuel ?_ (by omega)
  · rw [valueWithin_table]
    dsimp only
    rw [if_pos hlist, hds, hread]
    rfl
  · exact List.forall_mem_cons.2
      ⟨.inr (Nat.le_refl _), outside_mono hout (Nat.le_refl _) (Nat.le_succ id)⟩

/-- An object stands right before the tables of its fields. -/
theorem HoldsFields.table (hfields : h.HoldsFields (id + 1) high es fields) (hhigh : id < high)
    (hlist : h.isList id = false) (hes : (h.table id).pairs = es)
    (hsorted : Fields.Sorted fields) : h.Holds id high (.table id) (.object fields) := by
  apply holds_table (Nat.le_refl id) hhigh
  intro around fuel hout hfuel
  have hread := hfields (id :: around) fuel ?_ (by omega)
  · rw [valueWithin_table]
    dsimp only
    rw [hlist, if_neg (by decide), hes, hread]
    show Except.ok (Value.ofFields fields) = .ok (.object fields)
    rw [Value.ofFields, Fields.ofList_of_sorted hsorted]
  · exact List.forall_mem_cons.2
      ⟨.inl (Nat.lt_succ_self id), outside_mono hout (Nat.le_succ id) (Nat.le_refl _)⟩

end

/-! ### Tables of fields -/

/-- The fields that are put in a table are its new entries, and are read from them. -/
structure Filled (h : Heap) (id : Nat) (t : Table) (fields : List (String × Value))
    (es : List (Datum × Datum)) : Prop where
  table : (h.setFields id fields).table id = { t with entries := es.reverse ++ t.entries }
  names : ((h.setFields id fields).table id).OfNames
  filled : ∀ e ∈ es, e.2 ≠ .nil
  holds : ∀ h', SameTables h.tables.size (h.setFields id fields).tables.size
    (h.setFields id fields) h' →
      h'.HoldsFields h.tables.size (h.setFields id fields).tables.size es fields

/-- A table can take the fields: it has the room, and none of their names. -/
structure Admits (t : Table) (fields : List (String × Value)) : Prop where
  names : t.OfNames
  room : t.entries.length + fields.length ≤ t.room
  fresh : ∀ e ∈ t.entries, ∀ field ∈ fields, e.1 ≠ .ofString field.1

theorem admits_reserve (fields : List (String × Value)) :
    Admits (Table.reserve 0 fields.length) fields := by
  refine ⟨Table.ofNames_empty _ _ _, ?_, ?_⟩
  · rw [Table.room_reserve, Table.entries_reserve, List.length_nil, Nat.zero_add]
    exact Table.le_roomFor fields.length
  · rw [Table.entries_reserve]
    intro e he
    cases he

section

variable {t : Table} {key : String} {v : Value} {d : Datum} {fields : List (String × Value)}

/-- The first field is a new entry. -/
theorem Admits.set (ht : Admits t ((key, v) :: fields)) (hd : d ≠ .nil) :
    t.set (.ofString key) d = { t with entries := (.ofString key, d) :: t.entries } := by
  have hroom := ht.room
  rw [List.length_cons] at hroom
  have hkey : ∀ e ∈ t.entries, e.1 ≠ .ofString key :=
    fun e he => ht.fresh e he (key, v) (List.mem_cons_self ..)
  exact Table.set_fresh hkey hd (by omega)

/-- With the first field in it, the table can take the others. -/
theorem Admits.rest (ht : Admits t ((key, v) :: fields))
    (hfirst : ∀ field ∈ fields, key < field.1) (hd : d ≠ .nil) :
    Admits { t with entries := (.ofString key, d) :: t.entries } fields := by
  have hroom := ht.room
  rw [List.length_cons] at hroom
  refine ⟨?_, ?_, ?_⟩
  · rw [← ht.set hd]
    exact ht.names.set _ _
  · dsimp only
    rw [List.length_cons]
    omega
  · intro e he field hfield
    obtain rfl | he := List.mem_cons.1 he
    · intro hsame
      have hlt := hfirst field hfield
      rw [ofString_injective hsame] at hlt
      exact lt_irrefl _ hlt
    · exact ht.fresh e he field (List.mem_cons_of_mem _ hfield)

/-- The entries of a table that was empty are the pairs that are read. -/
theorem Filled.pairs {id : Nat} {es : List (Datum × Datum)} (hf : Filled h id t fields es)
    (ht : t.entries = []) : ((h.setFields id fields).table id).pairs = es := by
  rw [hf.names.pairs, hf.table]
  dsimp only
  rw [ht, List.append_nil, List.reverse_reverse, List.filter_eq_self]
  intro e he
  cases hd : e.2 with
  | nil => exact absurd hd (hf.filled e he)
  | _ => rfl

end

/-! ### All values -/

-- The recursion is that of the functions. Each value has the tables between the size of the heap
-- before it and the size after it, so that the parts of a value never share one.
mutual

theorem ofValue_holds (h : Heap) {v : Value} (hp : v.Proper) (hw : v.Whole) {h' : Heap}
    (same : SameTables h.tables.size (h.ofValue v).1.tables.size (h.ofValue v).1 h') :
    h'.Holds h.tables.size (h.ofValue v).1.tables.size (h.ofValue v).2 v := by
  match v, hp, hw with
  | .null, _, _ =>
    intro around fuel _ _
    exact ⟨rfl, by simp [ofValue, valueWithin]⟩
  | .bool b, _, _ =>
    intro around fuel _ _
    exact ⟨rfl, by simp [ofValue, valueWithin]⟩
  | .int n, .int hn, _ =>
    intro around fuel _ _
    refine ⟨rfl, ?_⟩
    simp [ofValue, hn, valueWithin, Word.int64?_toInt_eq hn]
  | .float x, .float hx, _ =>
    intro around fuel _ _
    refine ⟨rfl, ?_⟩
    simp [ofValue, valueWithin, Value.ofFloat, hx]
  | .str s, _, _ =>
    intro around fuel _ _
    refine ⟨rfl, ?_⟩
    simp [ofValue, valueWithin, Datum.ofString]
  | .list values, .list hp, .list hlast hlen hw =>
    rw [ofValue_list] at same ⊢
    dsimp only at same ⊢
    rw [size_newTable] at same ⊢
    have hvalues := extends_ofValues h values
    have hbefore : SameTables h.tables.size (h.ofValues values).1.tables.size
        (h.ofValues values).1 h' := by
      apply SameTables.before (extends_newTable _ (Table.listed (h.ofValues values).2))
      rw [size_newTable]
      exact same
    have htable : h'.table (h.ofValues values).1.tables.size =
        Table.listed (h.ofValues values).2 := by
      rw [same _ hvalues.size (Nat.lt_succ_self _), table_newTable_self]
    have hlist : h'.isList (h.ofValues values).1.tables.size = true := by
      unfold isList
      rw [htable]
      rfl
    apply (ofValues_holds h hp hw hbefore).table hvalues.size hlist
    rw [htable]
    exact Table.items_listed (fun hnil => hlast (getLast?_ofValues hnil))
      (by rw [length_ofValues]; exact hlen)
  | .object fields, .object hsorted hp, .object hnull hw =>
    have hsize := size_newTable h (Table.reserve 0 fields.length)
    have hset := (extends_setFields (h.newTable (Table.reserve 0 fields.length)).1 h.tables.size
      fields).size
    rw [hsize] at hset
    obtain ⟨es, hfilled⟩ := setFields_holds (h.newTable (Table.reserve 0 fields.length)).1
      (by rw [hsize]; exact Nat.lt_succ_self _) (table_newTable_self h _) (admits_reserve fields)
      hsorted hp hnull hw
    rw [ofValue_object] at same ⊢
    dsimp only at same ⊢
    have hhere := same h.tables.size (Nat.le_refl _) hset
    have hfields := hfilled.holds h' (same.mono (by omega) (Nat.le_refl _))
    rw [hsize] at hfields
    apply hfields.table hset ?_ ?_ hsorted
    · unfold isList
      rw [hhere]
      dsimp only
      rw [hfilled.names.length, hfilled.table]
      rfl
    · rw [hhere, hfilled.pairs (Table.entries_reserve _ _)]

theorem ofValues_holds (h : Heap) {vs : List Value} (hp : ∀ v ∈ vs, v.Proper)
    (hw : ∀ v ∈ vs, v.Whole) {h' : Heap}
    (same : SameTables h.tables.size (h.ofValues vs).1.tables.size (h.ofValues vs).1 h') :
    h'.HoldsItems h.tables.size (h.ofValues vs).1.tables.size (h.ofValues vs).2 vs := by
  match vs with
  | [] => exact fun _ _ _ _ => rfl
  | v :: vs =>
    have hv := extends_ofValue h v
    have hvs := extends_ofValues (h.ofValue v).1 vs
    rw [ofValues_cons] at same ⊢
    dsimp only at same ⊢
    have hfirst := ofValue_holds h (hp v (List.mem_cons_self ..)) (hw v (List.mem_cons_self ..))
      (same.before hvs)
    have hrest := ofValues_holds (h.ofValue v).1 (fun w hmem => hp w (List.mem_cons_of_mem _ hmem))
      (fun w hmem => hw w (List.mem_cons_of_mem _ hmem)) (same.mono hv.size (Nat.le_refl _))
    exact hfirst.item hrest hv.size hvs.size

theorem setFields_holds (h : Heap) {id : Nat} (hid : id < h.tables.size) {t : Table}
    (ht : h.table id = t) {fields : List (String × Value)} (hadmits : Admits t fields)
    (hsorted : Fields.Sorted fields) (hp : ∀ e ∈ fields, e.2.Proper)
    (hnull : ∀ e ∈ fields, e.2 ≠ .null) (hw : ∀ e ∈ fields, e.2.Whole) :
    ∃ es, Filled h id t fields es := by
  match fields with
  | [] =>
    refine ⟨[], ?_⟩
    constructor
    · exact ht
    · rw [setFields, ht]
      exact hadmits.names
    · intro e he
      cases he
    · exact fun _ _ _ _ _ _ => rfl
  | (key, v) :: more =>
    obtain ⟨hfirst, hsorted⟩ := List.pairwise_cons.1 hsorted
    obtain ⟨hpv, hp⟩ := List.forall_mem_cons.1 hp
    obtain ⟨hnullv, hnull⟩ := List.forall_mem_cons.1 hnull
    obtain ⟨hwv, hw⟩ := List.forall_mem_cons.1 hw
    have hv := extends_ofValue h v
    have hset := extends_setTable (h.ofValue v).1 id (.ofString key) (h.ofValue v).2
    have hsize := size_setTable (h.ofValue v).1 id (.ofString key) (h.ofValue v).2
    have hd : (h.ofValue v).2 ≠ .nil := fun hd => hnullv (eq_null_of_ofValue hd)
    have htable : ((h.ofValue v).1.setTable id (.ofString key) (h.ofValue v).2).table id =
        { t with entries := (.ofString key, (h.ofValue v).2) :: t.entries } := by
      rw [table_setTable_self (Nat.lt_of_lt_of_le hid hv.size), hv.same id hid (fun hc => hc), ht,
        hadmits.set hd]
    obtain ⟨es, hfilled⟩ := setFields_holds
      ((h.ofValue v).1.setTable id (.ofString key) (h.ofValue v).2)
      (by rw [hsize]; exact Nat.lt_of_lt_of_le hid hv.size) htable (hadmits.rest hfirst hd) hsorted
      hp hnull hw
    have hmore := extends_setFields ((h.ofValue v).1.setTable id (.ofString key) (h.ofValue v).2)
      id more
    refine ⟨(.ofString key, (h.ofValue v).2) :: es, ?_⟩
    constructor
    · rw [setFields_cons, hfilled.table, List.reverse_cons, List.append_assoc]
      rfl
    · rw [setFields_cons]
      exact hfilled.names
    · exact List.forall_mem_cons.2 ⟨hd, hfilled.filled⟩
    · rw [setFields_cons]
      intro h' same
      have hlow := hv.size
      have hhigh := hmore.size
      rw [hsize] at hhigh
      have hrest := hfilled.holds h' (same.mono (by omega) (Nat.le_refl _))
      rw [hsize] at hrest
      apply (ofValue_holds h (v := v) hpv hwv ?_).field hrest hlow (by omega) key
      -- The table that takes the fields is older than the tables of the value.
      intro j hj hj'
      rw [same j hj (by omega), hmore.same j (by omega) (by omega), hset.same j hj' (by omega)]

end

end Script.Heap

end EnvManifest
