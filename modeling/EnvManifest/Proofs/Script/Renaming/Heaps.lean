import EnvManifest.Proofs.Script.Heap
import EnvManifest.Proofs.Script.Renaming.Data
import Mathlib.Tactic.SplitIfs

/-!
# Heaps with other numbers

Every table, variable and function of one heap is in the other one under its other number. The other
heap may hold more than that: no access finds it.
-/

namespace EnvManifest.Script

/-! ## Arrays within arrays -/

/-- One array is within another one: each of its items has a place there, and items that are added
to both stand in step. -/
structure Placed {α β : Type} (place : Nat → Nat) (f : α → β) (xs : Array α) (ys : Array β) :
    Prop where
  get : ∀ i, ys[place i]? = xs[i]?.map f
  next : ∀ n, place (xs.size + n) = ys.size + n

namespace Placed

variable {α β : Type} {place : Nat → Nat} {f : α → β} {xs : Array α} {ys : Array β}

theorem lt_iff (h : Placed place f xs ys) (i : Nat) : place i < ys.size ↔ i < xs.size := by
  rw [← not_iff_not, Nat.not_lt, Nat.not_lt, ← Array.getElem?_eq_none_iff,
    ← Array.getElem?_eq_none_iff, h.get, Option.map_eq_none_iff]

theorem size (h : Placed place f xs ys) : place xs.size = ys.size := h.next 0

theorem push (h : Placed place f xs ys) (injective : Function.Injective place) (a : α) :
    Placed place f (xs.push a) (ys.push (f a)) where
  get i := by
    have last : place i = ys.size ↔ i = xs.size := by rw [← h.size, injective.eq_iff]
    rw [Array.getElem?_push, Array.getElem?_push]
    by_cases hi : i = xs.size
    · rw [if_pos hi, if_pos (last.2 hi)]
      rfl
    · rw [if_neg hi, if_neg (mt last.1 hi), h.get]
  next n := by
    rw [Array.size_push, Array.size_push, Nat.add_assoc, Nat.add_assoc, h.next]

theorem modify (h : Placed place f xs ys) (injective : Function.Injective place) (i : Nat)
    {g : α → α} {g' : β → β} (hg : ∀ a, g' (f a) = f (g a)) :
    Placed place f (xs.modify i g) (ys.modify (place i) g') where
  get j := by
    rw [Array.getElem?_modify, Array.getElem?_modify, h.get]
    by_cases hi : i = j
    · rw [if_pos hi, if_pos (congrArg place hi)]
      cases xs[j]? with
      | none => rfl
      | some a => exact congrArg some (hg a)
    · rw [if_neg hi, if_neg fun same => hi (injective same)]
  next n := by rw [Array.size_modify, Array.size_modify, h.next]

theorem setIfInBounds (h : Placed place f xs ys) (injective : Function.Injective place) (i : Nat)
    (a : α) : Placed place f (xs.setIfInBounds i a) (ys.setIfInBounds (place i) (f a)) where
  get j := by
    rw [Array.getElem?_setIfInBounds, Array.getElem?_setIfInBounds, h.get]
    by_cases hi : i = j
    · rw [if_pos hi, if_pos (congrArg place hi)]
      by_cases hlt : i < xs.size
      · rw [if_pos hlt, if_pos ((h.lt_iff i).2 hlt)]
        rfl
      · rw [if_neg hlt, if_neg (mt (h.lt_iff i).1 hlt)]
        rfl
    · rw [if_neg hi, if_neg fun same => hi (injective same)]
  next n := by rw [Array.size_setIfInBounds, Array.size_setIfInBounds, h.next]

end Placed

/-! ## Heaps -/

variable {r : Renaming}

def Scope.rename (r : Renaming) (s : Scope) : Scope where
  cells := s.cells.map r.cell
  varargs := s.varargs.map (·.rename r)
  chunk := s.chunk

def Closure.rename (r : Renaming) (c : Closure) : Closure := ⟨c.body, c.scope.rename r⟩

structure HeapRenamed (r : Renaming) (h h' : Heap) : Prop where
  tables : Placed r.table (Table.rename r) h.tables h'.tables
  cells : Placed r.cell (Datum.rename r) h.cells h'.cells
  closures : Placed r.closure (Closure.rename r) h.closures h'.closures

namespace HeapRenamed

variable {h h' : Heap}

theorem table (hh : HeapRenamed r h h') (id : Nat) :
    h'.table (r.table id) = (h.table id).rename r := by
  rw [Heap.table, Heap.table, Array.getD_eq_getD_getElem?, Array.getD_eq_getD_getElem?,
    hh.tables.get]
  cases h.tables[id]? with
  | none => exact Table.rename_empty.symm
  | some t => rfl

theorem cell (hh : HeapRenamed r h h') (id : Nat) :
    h'.cell (r.cell id) = (h.cell id).rename r := by
  rw [Heap.cell, Heap.cell, Array.getD_eq_getD_getElem?, Array.getD_eq_getD_getElem?, hh.cells.get]
  cases h.cells[id]? <;> rfl

theorem valueOf (hh : HeapRenamed r h h') (s : Scope) (index : Nat) :
    h'.valueOf (s.rename r) index = (h.valueOf s index).rename r := by
  simp only [Heap.valueOf, Scope.rename, List.getElem?_map, Option.map_map]
  cases s.cells[index]? with
  | none => rfl
  | some id => exact hh.cell id

theorem newTable (hh : HeapRenamed r h h') (t : Table) :
    HeapRenamed r (h.newTable t).1 (h'.newTable (t.rename r)).1 ∧
      (h'.newTable (t.rename r)).2 = r.table (h.newTable t).2 :=
  ⟨⟨hh.tables.push r.table_injective t, hh.cells, hh.closures⟩, hh.tables.size.symm⟩

theorem newCell (hh : HeapRenamed r h h') (d : Datum) :
    HeapRenamed r (h.newCell d).1 (h'.newCell (d.rename r)).1 ∧
      (h'.newCell (d.rename r)).2 = r.cell (h.newCell d).2 :=
  ⟨⟨hh.tables, hh.cells.push r.cell_injective d, hh.closures⟩, hh.cells.size.symm⟩

theorem newCells (hh : HeapRenamed r h h') (values : List Datum) (cells : List Nat) :
    HeapRenamed r (h.newCells values cells).1
        (h'.newCells (values.map (·.rename r)) (cells.map r.cell)).1 ∧
      (h'.newCells (values.map (·.rename r)) (cells.map r.cell)).2 =
        (h.newCells values cells).2.map r.cell := by
  induction values generalizing h h' cells with
  | nil => exact ⟨hh, rfl⟩
  | cons v more ih =>
    obtain ⟨hn, hc⟩ := hh.newCell v
    simp only [List.map_cons, Heap.newCells]
    rw [hc]
    exact ih hn (_ :: cells)

theorem newClosure (hh : HeapRenamed r h h') (c : Closure) :
    HeapRenamed r (h.newClosure c).1 (h'.newClosure (c.rename r)).1 ∧
      (h'.newClosure (c.rename r)).2 = r.closure (h.newClosure c).2 :=
  ⟨⟨hh.tables, hh.cells, hh.closures.push r.closure_injective c⟩, hh.closures.size.symm⟩

theorem newProgram (hh : HeapRenamed r h h') (chunk : String) (body : FunctionBody)
    (environment : Datum) :
    HeapRenamed r (h.newProgram chunk body environment).1
        (h'.newProgram chunk body (environment.rename r)).1 ∧
      (h'.newProgram chunk body (environment.rename r)).2 =
        (h.newProgram chunk body environment).2.rename r := by
  obtain ⟨hn, hc⟩ := hh.newCell environment
  unfold Heap.newProgram
  dsimp only
  rw [hc]
  obtain ⟨hl, hi⟩ := hn.newClosure ⟨body, ⟨[(h.newCell environment).2], [], chunk⟩⟩
  exact ⟨hl, congrArg Datum.closure hi⟩

theorem setCell (hh : HeapRenamed r h h') (id : Nat) (d : Datum) :
    HeapRenamed r (h.setCell id d) (h'.setCell (r.cell id) (d.rename r)) :=
  ⟨hh.tables, hh.cells.setIfInBounds r.cell_injective id d, hh.closures⟩

theorem setTable (hh : HeapRenamed r h h') (id : Nat) (key d : Datum) :
    HeapRenamed r (h.setTable id key d) (h'.setTable (r.table id) (key.rename r) (d.rename r)) where
  tables := by
    simp only [Heap.setTable]
    refine hh.tables.modify r.table_injective id ?_
    exact fun t => t.set_rename key d
  cells := hh.cells
  closures := hh.closures

theorem setMetatable (hh : HeapRenamed r h h') (id : Nat) (metatable : Option Nat) :
    HeapRenamed r (h.setMetatable id metatable)
      (h'.setMetatable (r.table id) (metatable.map r.table)) where
  tables := by
    simp only [Heap.setMetatable]
    refine hh.tables.modify r.table_injective id ?_
    exact fun _ => rfl
  cells := hh.cells
  closures := hh.closures

/-! ## Access -/

theorem behaviour? (hh : HeapRenamed r h h') (d : Datum) :
    h'.behaviour? (d.rename r) = (h.behaviour? d).map r.table := by
  cases d with
  | table id =>
    simp only [Datum.rename_table, Heap.behaviour?, hh.table]
    rfl
  | str bs => exact congrArg some r.strings.symm
  | _ => rfl

/-- A key that is no table and no function is the same in both heaps. -/
theorem behaviour (hh : HeapRenamed r h h') (d key : Datum) (hk : key.rename r = key) :
    h'.behaviour (d.rename r) key = (h.behaviour d key).rename r := by
  unfold Heap.behaviour
  rw [hh.behaviour?]
  cases h.behaviour? d with
  | none => rfl
  | some id =>
    dsimp only [Option.map_some]
    rw [hh.table, ← Table.get_rename, hk]

end HeapRenamed

namespace Heap

def Access.rename {α : Type} (r : Renaming) (f : α → α) : Access α → Access α
  | .done a => .done (f a)
  | .call g args => .call (g.rename r) (args.map (·.rename r))
  | .noFields d asked => .noFields (d.rename r) asked
  | .endless => .endless

theorem read_plain (h : Heap) (key : Datum) (asked : Bool) (fuel : Nat) {d : Datum}
    (hd : ∀ id, d ≠ .table id) :
    h.read key asked (fuel + 1) d =
      if (h.behaviour d indexKey).isNil then .noFields d asked
      else if (h.behaviour d indexKey).isFunction then .call (h.behaviour d indexKey) [d, key]
      else h.read key false fuel (h.behaviour d indexKey) := by
  cases d with
  | table id => exact absurd rfl (hd id)
  | _ => rfl

theorem write_plain (h : Heap) (key value : Datum) (asked : Bool) (fuel : Nat) {d : Datum}
    (hd : ∀ id, d ≠ .table id) :
    h.write key value asked (fuel + 1) d =
      if (h.behaviour d newIndexKey).isNil then .noFields d asked
      else if (h.behaviour d newIndexKey).isFunction then
        .call (h.behaviour d newIndexKey) [d, key, value]
      else h.write key value false fuel (h.behaviour d newIndexKey) := by
  cases d with
  | table id => exact absurd rfl (hd id)
  | _ => rfl

end Heap

theorem Datum.rename_ne_table {d : Datum} (hd : ∀ id, d ≠ .table id) (id : Nat) :
    d.rename r ≠ .table id := by
  cases d with
  | table id => exact absurd rfl (hd id)
  | _ => simp

namespace HeapRenamed

variable {h h' : Heap}

theorem ruleOf (hh : HeapRenamed r h h') (id : Nat) (key : Datum) (hk : key.rename r = key) :
    (h'.table (r.table id)).get key = ((h.table id).get key).rename r := by
  rw [hh.table, ← Table.get_rename, hk]

theorem read (hh : HeapRenamed r h h') (key : Datum) (asked : Bool) (fuel : Nat) (d : Datum) :
    h'.read (key.rename r) asked fuel (d.rename r) =
      (h.read key asked fuel d).rename r (·.rename r) := by
  induction fuel generalizing asked d with
  | zero => rfl
  | succ fuel ih =>
    by_cases hd : ∀ id, d ≠ .table id
    · rw [Heap.read_plain h key asked fuel hd,
        Heap.read_plain h' _ asked fuel fun id => Datum.rename_ne_table hd id,
        hh.behaviour d Heap.indexKey rfl, Datum.isNil_rename, Datum.isFunction_rename, ih]
      split_ifs <;> rfl
    · simp only [ne_eq, not_forall, not_not] at hd
      obtain ⟨id, rfl⟩ := hd
      simp only [Datum.rename_table, Heap.read]
      rw [hh.table, Table.get_rename, Datum.isNil_rename, Table.metatable_rename]
      cases (h.table id).metatable with
      | none => split_ifs <;> rfl
      | some rules =>
        dsimp only [Option.map_some]
        rw [hh.ruleOf rules Heap.indexKey rfl, Datum.isNil_rename, Datum.isFunction_rename, ih]
        split_ifs <;> rfl

theorem index (hh : HeapRenamed r h h') (d key : Datum) :
    h'.index (d.rename r) (key.rename r) = (h.index d key).rename r (·.rename r) :=
  hh.read key true Heap.maxChain d

theorem write (hh : HeapRenamed r h h') (key value : Datum) (asked : Bool) (fuel : Nat)
    (d : Datum) :
    h'.write (key.rename r) (value.rename r) asked fuel (d.rename r) =
      (h.write key value asked fuel d).rename r r.table := by
  induction fuel generalizing asked d with
  | zero => rfl
  | succ fuel ih =>
    by_cases hd : ∀ id, d ≠ .table id
    · rw [Heap.write_plain h key value asked fuel hd,
        Heap.write_plain h' _ _ asked fuel fun id => Datum.rename_ne_table hd id,
        hh.behaviour d Heap.newIndexKey rfl, Datum.isNil_rename, Datum.isFunction_rename, ih]
      split_ifs <;> rfl
    · simp only [ne_eq, not_forall, not_not] at hd
      obtain ⟨id, rfl⟩ := hd
      simp only [Datum.rename_table, Heap.write]
      rw [hh.table, Table.get_rename, Datum.isNil_rename, Table.metatable_rename]
      cases (h.table id).metatable with
      | none => rfl
      | some rules =>
        dsimp only [Option.map_some]
        rw [hh.ruleOf rules Heap.newIndexKey rfl, Datum.isNil_rename, Datum.isFunction_rename, ih]
        split_ifs <;> rfl

theorem target (hh : HeapRenamed r h h') (d key value : Datum) :
    h'.target (d.rename r) (key.rename r) (value.rename r) =
      (h.target d key value).rename r r.table :=
  hh.write key value true Heap.maxChain d

end HeapRenamed

end EnvManifest.Script
