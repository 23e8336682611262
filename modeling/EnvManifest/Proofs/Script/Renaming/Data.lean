import EnvManifest.Script.Heap
import Mathlib.Logic.Function.Basic

/-!
# Heaps with other numbers

Tables, variables and functions are known by their numbers, but no access and no operator looks at
a number: two numbers are the same or they are not. So heaps that differ only in their numbers
behave alike.
-/

namespace EnvManifest.Script

/-- Other numbers for tables, variables and functions. The tables that the language itself knows
keep theirs. -/
structure Renaming where
  table : Nat → Nat
  cell : Nat → Nat
  closure : Nat → Nat
  table_injective : Function.Injective table
  cell_injective : Function.Injective cell
  closure_injective : Function.Injective closure
  globals : table Heap.globals = Heap.globals
  strings : table Heap.stringBehaviour = Heap.stringBehaviour

variable {r : Renaming}

/-! ## Data -/

def Datum.rename (r : Renaming) : Datum → Datum
  | .nil => .nil
  | .bool b => .bool b
  | .number n => .number n
  | .str bs => .str bs
  | .table id => .table (r.table id)
  | .closure id => .closure (r.closure id)
  | .native f => .native f
  | .failure message => .failure message

namespace Datum

variable (d a b : Datum)

@[simp] theorem rename_nil : nil.rename r = nil := rfl

@[simp] theorem rename_bool (b : Bool) : (bool b).rename r = bool b := rfl

@[simp] theorem rename_number (n : Number) : (number n).rename r = number n := rfl

@[simp] theorem rename_str (bs : Text.Bytes) : (str bs).rename r = str bs := rfl

@[simp] theorem rename_table (id : Nat) : (table id).rename r = table (r.table id) := rfl

@[simp] theorem rename_closure (id : Nat) : (closure id).rename r = closure (r.closure id) := rfl

@[simp] theorem rename_native (f : Native) : (native f).rename r = native f := rfl

@[simp] theorem rename_failure (message : String) : (failure message).rename r = failure message :=
  rfl

@[simp] theorem rename_ofInt (n : Int) : (ofInt n).rename r = ofInt n := rfl

@[simp] theorem rename_ofString (s : String) : (ofString s).rename r = ofString s := rfl

@[simp] theorem typeName_rename : (d.rename r).typeName = d.typeName := by cases d <;> rfl

@[simp] theorem holds_rename : (d.rename r).holds = d.holds := by
  cases d with
  | bool b => cases b <;> rfl
  | _ => rfl

@[simp] theorem isNil_rename : (d.rename r).isNil = d.isNil := by cases d <;> rfl

@[simp] theorem isFunction_rename : (d.rename r).isFunction = d.isFunction := by cases d <;> rfl

@[simp] theorem number?_rename : (d.rename r).number? = d.number? := by cases d <;> rfl

@[simp] theorem text?_rename : (d.rename r).text? = d.text? := by cases d <;> rfl

@[simp] theorem same_rename : (a.rename r).same (b.rename r) = a.same b := by
  cases a <;> cases b <;>
    simp [same, r.table_injective.beq_eq, r.closure_injective.beq_eq]

theorem rename_eq_number {d : Datum} {n : Number} : d.rename r = number n ↔ d = number n := by
  cases d <;> simp

end Datum

theorem first_rename (values : List Datum) :
    first (values.map (·.rename r)) = (first values).rename r := by
  cases values <;> rfl

theorem getD_rename (values : List Datum) (i : Nat) (d : Datum) (hd : d.rename r = d) :
    (values.map (·.rename r)).getD i d = (values.getD i d).rename r := by
  rw [List.getD_eq_getElem?_getD, List.getD_eq_getElem?_getD, List.getElem?_map]
  cases values[i]? with
  | none => exact hd.symm
  | some d => rfl

/-! ## Tables -/

/-- The key and the value of an entry. -/
abbrev Datum.renamePair (r : Renaming) (e : Datum × Datum) : Datum × Datum :=
  (e.1.rename r, e.2.rename r)

def Table.rename (r : Renaming) (t : Table) : Table where
  items := t.items.map (·.rename r)
  entries := t.entries.map (Datum.renamePair r)
  room := t.room
  metatable := t.metatable.map r.table
  isList := t.isList

namespace Table

variable (t : Table) (key value : Datum)

@[simp] theorem rename_empty : empty.rename r = empty := by
  simp [rename, empty]

@[simp] theorem rename_reserve (items entries : Nat) :
    (reserve items entries).rename r = reserve items entries := by
  simp [reserve, rename, empty]

theorem rename_metatable (rules : Nat) :
    Table.rename r { empty with metatable := some rules } =
      { empty with metatable := some (r.table rules) } := by
  simp [rename, empty]

theorem rename_ofItems (items : List Datum) :
    (ofItems items).rename r = ofItems (items.map (·.rename r)) := by
  simp [ofItems, rename, empty]

@[simp] theorem isList_rename : (t.rename r).isList = t.isList := rfl

@[simp] theorem metatable_rename : (t.rename r).metatable = t.metatable.map r.table := rfl

theorem keyOf_rename : keyOf (key.rename r) = (keyOf key).rename r := by
  cases key with
  | number n =>
    cases n with
    | int n => rfl
    | float x =>
      simp only [Datum.rename_number, keyOf]
      split <;> rfl
  | _ => rfl

theorem place?_rename :
    ((t.rename r).place? (key.rename r)).map Fin.val = (t.place? key).map Fin.val := by
  cases key with
  | number n =>
    cases n with
    | int n =>
      simp only [Datum.rename_number, place?]
      have hsize : (t.rename r).items.size = t.items.size := by simp [rename]
      by_cases h : 1 ≤ n.toInt ∧ (n.toInt - 1).toNat < t.items.size
      · rw [dif_pos h, dif_pos (by rwa [hsize])]
        rfl
      · rw [dif_neg h, dif_neg (by rwa [hsize])]
        rfl
    | float x => rfl
  | _ => rfl

theorem entry_rename :
    Table.entry? (t.rename r) (key.rename r) = (t.entry? key).map (·.rename r) := by
  unfold entry?
  simp only [rename, List.find?_map, Option.map_map]
  have same : (fun e : Datum × Datum => e.1.same (key.rename r)) ∘ Datum.renamePair r =
      fun e => e.1.same key := by
    funext e
    simp
  rw [same]
  rfl

theorem get_rename : (t.rename r).get (key.rename r) = (t.get key).rename r := by
  unfold get
  rw [keyOf_rename]
  have hplace := place?_rename (r := r) t (keyOf key)
  dsimp only
  cases hp : t.place? (keyOf key) with
  | none =>
    rw [hp, Option.map_none, Option.map_eq_none_iff] at hplace
    rw [hplace]
    dsimp only
    rw [entry_rename]
    cases t.entry? (keyOf key) <;> rfl
  | some i =>
    rw [hp, Option.map_some, Option.map_eq_some_iff] at hplace
    obtain ⟨j, hj, hij⟩ := hplace
    rw [hj]
    obtain ⟨i, hi⟩ := i
    obtain ⟨j, hlt⟩ := j
    obtain rfl : j = i := hij
    exact Array.getElem_map ..

theorem getItem_rename (n : Nat) : (t.rename r).getItem n = (t.getItem n).rename r :=
  get_rename t (.ofInt n)

theorem length_rename : (t.rename r).length = t.length := by
  have size : (t.rename r).items.size = t.items.size := by simp [rename]
  simp only [length, getItem_rename, Datum.isNil_rename, size]

theorem items_rename (items : List Datum) :
    ((items.map (·.rename r)).zipIdx.map fun (v, i) => (Datum.ofInt (i + 1), v)) =
      (items.zipIdx.map fun (v, i) => (Datum.ofInt (i + 1), v)).map (Datum.renamePair r) := by
  simp [List.zipIdx_map]

theorem pairs_rename : (t.rename r).pairs = t.pairs.map (Datum.renamePair r) := by
  have items : (t.rename r).items.toList = t.items.toList.map (·.rename r) := Array.toList_map
  have entries : (t.rename r).entries.reverse = t.entries.reverse.map (Datum.renamePair r) := by
    simp [rename]
  have kept : (fun e : Datum × Datum => !e.2.isNil) ∘ Datum.renamePair r = fun e => !e.2.isNil := by
    funext e
    simp
  unfold pairs
  dsimp only
  rw [items, entries, items_rename, ← List.map_append, List.filter_map, kept]

theorem listKey?_rename : listKey? (key.rename r) = listKey? key := by
  cases key <;> rfl

theorem arrange_rename : (t.rename r).arrange (key.rename r) = (t.arrange key).rename r := by
  have keys : ((t.pairs.map (Datum.renamePair r)).map (·.1)).filterMap listKey? =
      (t.pairs.map (·.1)).filterMap listKey? := by
    rw [List.map_map, List.filterMap_map, List.filterMap_map]
    exact congrArg (List.filterMap · t.pairs) (funext fun e => listKey?_rename e.1)
  have size : (key.rename r :: (t.pairs.map (Datum.renamePair r)).map (·.1)).filterMap listKey? =
      (key :: t.pairs.map (·.1)).filterMap listKey? := by
    rw [List.filterMap_cons, List.filterMap_cons, listKey?_rename, keys]
  unfold arrange
  rw [pairs_rename]
  dsimp only
  rw [size]
  generalize listSize ((key :: t.pairs.map (·.1)).filterMap listKey?) = n
  have others : (fun e : Datum × Datum => !(listKey? e.1).any (· ≤ n)) ∘ Datum.renamePair r =
      fun e => !(listKey? e.1).any (· ≤ n) := by
    funext e
    simp [listKey?_rename]
  rw [List.filter_map, others]
  simp [rename, listKey?_rename, ← getItem_rename]

theorem setEntry_rename (entries : List (Datum × Datum)) :
    setEntry (key.rename r) (value.rename r) (entries.map (Datum.renamePair r)) =
      (setEntry key value entries).map (Datum.renamePair r) := by
  induction entries with
  | nil => rfl
  | cons e entries ih =>
    simp only [List.map_cons, setEntry, Datum.same_rename, ih]
    split <;> rfl

theorem put?_rename :
    (t.rename r).put? (key.rename r) (value.rename r) = (t.put? key value).map (rename r) := by
  have hplace := place?_rename (r := r) t key
  unfold put?
  cases hp : t.place? key with
  | none =>
    rw [hp, Option.map_none, Option.map_eq_none_iff] at hplace
    rw [hplace]
    dsimp only
    rw [entry_rename, Datum.isNil_rename, Option.isSome_map]
    have entries : (t.rename r).entries = t.entries.map (Datum.renamePair r) := rfl
    rw [entries, setEntry_rename, List.length_map]
    split
    · rfl
    split
    · rfl
    have room : (t.rename r).room = t.room := rfl
    rw [room]
    split <;> rfl
  | some i =>
    rw [hp, Option.map_some, Option.map_eq_some_iff] at hplace
    obtain ⟨j, hj, hij⟩ := hplace
    rw [hj]
    obtain ⟨i, hi⟩ := i
    obtain ⟨j, hlt⟩ := j
    obtain rfl : j = i := hij
    simp [rename]

theorem set_rename :
    (t.rename r).set (key.rename r) (value.rename r) = (t.set key value).rename r := by
  unfold set
  rw [keyOf_rename]
  dsimp only
  rw [put?_rename]
  cases t.put? (keyOf key) value with
  | some t => rfl
  | none =>
    dsimp only [Option.map_none]
    rw [arrange_rename, put?_rename]
    cases (t.arrange (keyOf key)).put? (keyOf key) value <;> rfl

end Table

end EnvManifest.Script
