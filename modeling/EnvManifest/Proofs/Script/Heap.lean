import EnvManifest.Proofs.Script.Folds
import EnvManifest.Script.Exchange
import EnvManifest.Script.Operation

/-!
# Heaps of programs that fold

Two heaps fold if they hold the same tables and the same variables, and their functions fold. Tables
say everything that an access, an operator or a builtin function asks a heap for, so that each of
these does the same in both.
-/

namespace EnvManifest.Script

open List (Forall₂)

variable {swaps : Expr → Expr → Prop}

/-! ## Heaps -/

/-- Two functions with the same variables around them, whose bodies fold. -/
def ClosureFolds (swaps : Expr → Expr → Prop) (c c' : Closure) : Prop :=
  FunctionFolds swaps c.body c'.body ∧ c.scope = c'.scope

structure HeapFolds (swaps : Expr → Expr → Prop) (h h' : Heap) : Prop where
  tables : h.tables = h'.tables
  cells : h.cells = h'.cells
  size : h.closures.size = h'.closures.size
  closures : ∀ id : Nat, Option.Rel (ClosureFolds swaps) h.closures[id]? h'.closures[id]?

namespace HeapFolds

theorem refl (h : Heap) : HeapFolds swaps h h := by
  refine ⟨rfl, rfl, rfl, fun id => ?_⟩
  cases h.closures[id]? with
  | none => exact .none
  | some c => exact .some ⟨.refl c.body, rfl⟩

variable {h h' : Heap}

/-- Other tables in the place of the same tables. -/
theorem withTables (hh : HeapFolds swaps h h') {ts : Array Table} :
    HeapFolds swaps { h with tables := ts } { h' with tables := ts } :=
  ⟨rfl, hh.cells, hh.size, hh.closures⟩

theorem withCells (hh : HeapFolds swaps h h') {cs : Array Datum} :
    HeapFolds swaps { h with cells := cs } { h' with cells := cs } :=
  ⟨hh.tables, rfl, hh.size, hh.closures⟩

theorem newClosure (hh : HeapFolds swaps h h') {c c' : Closure} (hc : ClosureFolds swaps c c') :
    HeapFolds swaps (h.newClosure c).1 (h'.newClosure c').1 ∧
      (h.newClosure c).2 = (h'.newClosure c').2 := by
  refine ⟨⟨hh.tables, hh.cells, ?_, fun id => ?_⟩, hh.size⟩
  · simp [Heap.newClosure, hh.size]
  · simp only [Heap.newClosure, Array.getElem?_push, hh.size]
    split
    · exact .some hc
    · exact hh.closures id

theorem newCell (hh : HeapFolds swaps h h') (d : Datum) :
    HeapFolds swaps (h.newCell d).1 (h'.newCell d).1 ∧ (h.newCell d).2 = (h'.newCell d).2 := by
  unfold Heap.newCell
  rw [hh.cells]
  exact ⟨hh.withCells, rfl⟩

theorem newProgram (hh : HeapFolds swaps h h') (chunk : String) {body body' : FunctionBody}
    (hb : FunctionFolds swaps body body') (environment : Datum) :
    HeapFolds swaps (h.newProgram chunk body environment).1
        (h'.newProgram chunk body' environment).1 ∧
      (h.newProgram chunk body environment).2 = (h'.newProgram chunk body' environment).2 := by
  obtain ⟨hn, hc⟩ := hh.newCell environment
  unfold Heap.newProgram
  dsimp only
  rw [← hc]
  obtain ⟨hl, hi⟩ := hn.newClosure (show ClosureFolds swaps
    ⟨body, ⟨[(h.newCell environment).2], [], chunk⟩⟩
    ⟨body', ⟨[(h.newCell environment).2], [], chunk⟩⟩ from ⟨hb, rfl⟩)
  exact ⟨hl, congrArg Datum.closure hi⟩

theorem newCells (hh : HeapFolds swaps h h') (values : List Datum) (cells : List Nat) :
    HeapFolds swaps (h.newCells values cells).1 (h'.newCells values cells).1 ∧
      (h.newCells values cells).2 = (h'.newCells values cells).2 := by
  induction values generalizing h h' cells with
  | nil => exact ⟨hh, rfl⟩
  | cons v more ih =>
    obtain ⟨hn, hc⟩ := hh.newCell v
    unfold Heap.newCells
    dsimp only
    rw [← hc]
    exact ih hn _

/-! ## Access -/

theorem table (hh : HeapFolds swaps h h') (id : Nat) : h.table id = h'.table id := by
  rw [Heap.table, hh.tables, Heap.table]

theorem cell (hh : HeapFolds swaps h h') (id : Nat) : h.cell id = h'.cell id := by
  rw [Heap.cell, hh.cells, Heap.cell]

theorem valueOf (hh : HeapFolds swaps h h') (s : Scope) (index : Nat) :
    h.valueOf s index = h'.valueOf s index := by
  rw [Heap.valueOf, funext hh.cell, Heap.valueOf]

theorem setTable (hh : HeapFolds swaps h h') (id : Nat) (key value : Datum) :
    HeapFolds swaps (h.setTable id key value) (h'.setTable id key value) := by
  unfold Heap.setTable
  rw [hh.tables]
  exact hh.withTables

theorem setMetatable (hh : HeapFolds swaps h h') (id : Nat) (metatable : Option Nat) :
    HeapFolds swaps (h.setMetatable id metatable) (h'.setMetatable id metatable) := by
  unfold Heap.setMetatable
  rw [hh.tables]
  exact hh.withTables

theorem newTable (hh : HeapFolds swaps h h') (t : Table) :
    HeapFolds swaps (h.newTable t).1 (h'.newTable t).1 ∧ (h.newTable t).2 = (h'.newTable t).2 := by
  unfold Heap.newTable
  rw [hh.tables]
  exact ⟨hh.withTables, rfl⟩

theorem setCell (hh : HeapFolds swaps h h') (id : Nat) (v : Datum) :
    HeapFolds swaps (h.setCell id v) (h'.setCell id v) := by
  unfold Heap.setCell
  rw [hh.cells]
  exact hh.withCells

theorem behaviour? (hh : HeapFolds swaps h h') (d : Datum) :
    h.behaviour? d = h'.behaviour? d := by
  cases d <;> simp [Heap.behaviour?, hh.table]

theorem behaviour (hh : HeapFolds swaps h h') (d key : Datum) :
    h.behaviour d key = h'.behaviour d key := by
  unfold Heap.behaviour
  simp [hh.behaviour?, hh.table]

theorem read (hh : HeapFolds swaps h h') (key : Datum) (asked : Bool) (fuel : Nat) (d : Datum) :
    h.read key asked fuel d = h'.read key asked fuel d := by
  induction fuel generalizing asked d with
  | zero => rfl
  | succ fuel ih => cases d <;> simp [Heap.read, hh.table, hh.behaviour, ih]

theorem index (hh : HeapFolds swaps h h') (d key : Datum) : h.index d key = h'.index d key :=
  hh.read key true Heap.maxChain d

theorem write (hh : HeapFolds swaps h h') (key value : Datum) (asked : Bool) (fuel : Nat)
    (d : Datum) : h.write key value asked fuel d = h'.write key value asked fuel d := by
  induction fuel generalizing asked d with
  | zero => rfl
  | succ fuel ih => cases d <;> simp [Heap.write, hh.table, hh.behaviour, ih]

theorem target (hh : HeapFolds swaps h h') (d key value : Datum) :
    h.target d key value = h'.target d key value :=
  hh.write key value true Heap.maxChain d

/-! ## Values in and out -/

theorem isList (hh : HeapFolds swaps h h') (id : Nat) : h.isList id = h'.isList id := by
  unfold Heap.isList
  rw [hh.table]

theorem fieldKey (hh : HeapFolds swaps h h') (d : Datum) : h.fieldKey d = h'.fieldKey d := by
  unfold Heap.fieldKey
  simp only [hh.isList]

theorem valueWithin (hh : HeapFolds swaps h h') (around : List Nat) (fuel : Nat) (d : Datum) :
    h.valueWithin around fuel d = h'.valueWithin around fuel d := by
  induction fuel generalizing around d with
  | zero => cases d with
    | number n => cases n <;> simp [Heap.valueWithin]
    | _ => simp [Heap.valueWithin]
  | succ fuel ih => cases d with
    | number n => cases n <;> simp [Heap.valueWithin]
    | table id => simp only [Heap.valueWithin, hh.isList, hh.table, hh.fieldKey, ih]
    | _ => simp [Heap.valueWithin]

theorem toValue (hh : HeapFolds swaps h h') (d : Datum) : h.toValue d = h'.toValue d := by
  unfold Heap.toValue
  rw [hh.tables, hh.valueWithin]

mutual

theorem ofValue {h h' : Heap} (hh : HeapFolds swaps h h') (v : Value) :
    HeapFolds swaps (h.ofValue v).1 (h'.ofValue v).1 ∧ (h.ofValue v).2 = (h'.ofValue v).2 := by
  match v with
  | .null | .bool _ | .int _ | .float _ | .str _ => exact ⟨hh, rfl⟩
  | .list values =>
    have hv := hh.ofValues values
    have ht := hv.1.newTable { Table.ofItems (h.ofValues values).2 with isList := true }
    simp only [Heap.ofValue, ← hv.2]
    exact ⟨ht.1, by rw [ht.2]⟩
  | .object fields =>
    have ht := hh.newTable (Table.reserve 0 fields.length)
    simp only [Heap.ofValue, ← ht.2]
    exact ⟨ht.1.setFields _ fields, trivial⟩

theorem ofValues {h h' : Heap} (hh : HeapFolds swaps h h') (vs : List Value) :
    HeapFolds swaps (h.ofValues vs).1 (h'.ofValues vs).1 ∧
      (h.ofValues vs).2 = (h'.ofValues vs).2 := by
  match vs with
  | [] => exact ⟨hh, rfl⟩
  | v :: vs =>
    have hv := hh.ofValue v
    have hvs := hv.1.ofValues vs
    exact ⟨hvs.1, congrArg₂ List.cons hv.2 hvs.2⟩

theorem setFields {h h' : Heap} (hh : HeapFolds swaps h h') (id : Nat)
    (fields : List (String × Value)) :
    HeapFolds swaps (h.setFields id fields) (h'.setFields id fields) := by
  match fields with
  | [] => exact hh
  | (key, v) :: more =>
    have hv := hh.ofValue v
    unfold Heap.setFields
    simp only [← hv.2]
    exact (hv.1.setTable id (.ofString key) (h.ofValue v).2).setFields id more

end

end HeapFolds

/-! ## Operators -/

/-- The same outcome of an operator, but for what a fault says. -/
inductive Operated.Alike : Operated → Operated → Prop
  | same (o : Operated) : Alike o o
  | fault (m m' : String) : Alike (.fault m) (.fault m')

/-- The same operand, but for where it comes from. -/
def OperandFolds (a a' : Operand) : Prop := a.datum = a'.datum

namespace Heap

variable (h : Heap)

theorem brought_alike (key d e : Datum) (o o' p p' : Option Origin) {r r' : Operated}
    (hr : r.Alike r') :
    (h.brought key ⟨d, o⟩ ⟨e, p⟩ r).Alike (h.brought key ⟨d, o'⟩ ⟨e, p'⟩ r') := by
  simp only [Heap.brought]
  split
  · exact .same _
  · split
    · exact .same _
    · exact hr

theorem arithmetic_alike (op : Number.Op) (d e : Datum) (o o' p p' : Option Origin) :
    (h.arithmetic op ⟨d, o⟩ ⟨e, p⟩).Alike (h.arithmetic op ⟨d, o'⟩ ⟨e, p'⟩) := by
  have hd : Operand.isString ⟨d, o'⟩ = Operand.isString ⟨d, o⟩ := rfl
  have he : Operand.isString ⟨e, p'⟩ = Operand.isString ⟨e, p⟩ := rfl
  simp only [Heap.arithmetic, hd, he]
  generalize Operand.isString ⟨d, o⟩ = sd, Operand.isString ⟨e, p⟩ = se
  generalize (if sd = true then Datum.nil else h.behaviour d _) = f
  split
  · exact .same _
  · split
    · exact .same _
    · split
      · exact .same _
      · exact h.brought_alike _ _ _ _ _ _ _ (.fault _ _)

theorem bitwise_alike (op : Number.BitOp) (d e : Datum) (o o' p p' : Option Origin) :
    (h.bitwise op ⟨d, o⟩ ⟨e, p⟩).Alike (h.bitwise op ⟨d, o'⟩ ⟨e, p'⟩) := by
  simp only [Heap.bitwise]
  split
  · split
    · exact .same _
    · exact .fault _ _
  · exact h.brought_alike _ _ _ _ _ _ _ (.fault _ _)

theorem binary_alike (op : Binary) (d e : Datum) (o o' p p' : Option Origin) :
    (h.binary op ⟨d, o⟩ ⟨e, p⟩).Alike (h.binary op ⟨d, o'⟩ ⟨e, p'⟩) := by
  cases op with
  | arith op => exact h.arithmetic_alike op d e o o' p p'
  | bits op => exact h.bitwise_alike op d e o o' p p'
  | _ => exact .same _

theorem unary_alike (op : Unary) (d : Datum) (o o' : Option Origin) :
    (h.unary op ⟨d, o⟩).Alike (h.unary op ⟨d, o'⟩) := by
  cases op with
  | neg =>
    simp only [Heap.unary, Heap.negated]
    split
    · exact .same _
    · exact .same _
    · split
      · exact .fault _ _
      · exact .same _
  | not => exact .same _
  | length =>
    simp only [Heap.unary, Heap.lengthOf]
    split
    · exact .same _
    · exact .same _
    · exact .fault _ _
  | bitNot =>
    simp only [Heap.unary, Heap.complement]
    split
    · split
      · exact .same _
      · exact .fault _ _
    · split
      · exact .fault _ _
      · exact .same _

theorem joined_alike (d e : Datum) (o o' p p' : Option Origin) :
    (h.joined ⟨d, o⟩ ⟨e, p⟩).Alike (h.joined ⟨d, o'⟩ ⟨e, p'⟩) := by
  simp only [Heap.joined]
  split
  · exact .same _
  · exact h.brought_alike _ _ _ _ _ _ _ (.fault _ _)

end Heap

namespace HeapFolds

variable {h h' : Heap}

theorem brought (hh : HeapFolds swaps h h') : h.brought = h'.brought := by
  funext key a b r
  simp only [Heap.brought, hh.behaviour]

theorem compared (hh : HeapFolds swaps h h') : h.compared = h'.compared := by
  funext key a b result r
  simp only [Heap.compared, hh.brought]

theorem binary_alike (hh : HeapFolds swaps h h') (op : Binary) {a a' b b' : Operand}
    (ha : OperandFolds a a') (hb : OperandFolds b b') :
    (h.binary op a b).Alike (h'.binary op a' b') := by
  obtain ⟨d, o⟩ := a
  obtain ⟨e, p⟩ := b
  obtain rfl : d = a'.datum := ha
  obtain rfl : e = b'.datum := hb
  have he : h.binary op = h'.binary op := by
    funext a b
    cases op <;>
      simp only [Heap.binary, Heap.arithmetic, Heap.bitwise, Heap.equal, Heap.below, Heap.notAbove,
        hh.behaviour, hh.brought, hh.compared]
  rw [he]
  exact h'.binary_alike op _ _ _ _ _ _

theorem unary_alike (hh : HeapFolds swaps h h') (op : Unary) {a a' : Operand}
    (ha : OperandFolds a a') : (h.unary op a).Alike (h'.unary op a') := by
  obtain ⟨d, o⟩ := a
  obtain rfl : d = a'.datum := ha
  have he : h.unary op = h'.unary op := by
    funext a
    cases op <;>
      simp only [Heap.unary, Heap.negated, Heap.lengthOf, Heap.complement, hh.behaviour, hh.table]
  rw [he]
  exact h'.unary_alike op _ _ _

theorem joined_alike (hh : HeapFolds swaps h h') {a a' b b' : Operand} (ha : OperandFolds a a')
    (hb : OperandFolds b b') : (h.joined a b).Alike (h'.joined a' b') := by
  obtain ⟨d, o⟩ := a
  obtain ⟨e, p⟩ := b
  obtain rfl : d = a'.datum := ha
  obtain rfl : e = b'.datum := hb
  have hj : h.joined = h'.joined := by
    funext a b
    simp only [Heap.joined, hh.brought]
  rw [hj]
  exact h'.joined_alike _ _ _ _ _ _

end HeapFolds

end EnvManifest.Script
