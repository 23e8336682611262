import EnvManifest.Script.Heap

/-!
# Operators

What an operator makes of its operands. Strings that are numbers count as numbers in arithmetic.
Tables may bring functions for what no operator can do on its own.
-/

namespace EnvManifest.Script

open Text

/-- What an operation comes to. -/
inductive Operated where
  | done (d : Datum)
  /-- A function decides, and its first value is the result. -/
  | call (f a b : Datum)
  /-- A function decides whether the result is this one or the other. -/
  | test (f a b : Datum) (result : Bool)
  | fault (message : String)

/-- An operand and where it comes from. -/
structure Operand where
  datum : Datum
  origin : Option Origin

namespace Operand

def isNumber (a : Operand) : Bool :=
  match a.datum with
  | .number _ => true
  | _ => false

def isString (a : Operand) : Bool :=
  match a.datum with
  | .str _ => true
  | _ => false

/-- The origin after the name of what it holds. -/
def note (origin : Option Origin) : String :=
  match origin with
  | some (kind, name) => " (" ++ kind ++ " '" ++ name ++ "')"
  | none => ""

/-- The fault of an operand that an action cannot take. -/
def refuse (action : String) (a : Operand) : Operated :=
  .fault ("attempt to " ++ action ++ " a " ++ a.datum.typeName ++ " value" ++ note a.origin)

end Operand

/-- The operand that a fault of two numbers is about. -/
def blamed (isFine : Operand → Bool) (a b : Operand) : Operand := if isFine a then b else a

/-- A function that one of two operands brings, or what happens otherwise. -/
def Heap.brought (h : Heap) (key : Datum) (a b : Operand) (otherwise : Operated) : Operated :=
  let f := h.behaviour a.datum key
  if !f.isNil then .call f a.datum b.datum
  else
    let f := h.behaviour b.datum key
    if !f.isNil then .call f a.datum b.datum else otherwise

/-! ## Arithmetic -/

/-- The short name of an operation. -/
def arithName : Number.Op → String
  | .add => "add"
  | .sub => "sub"
  | .mul => "mul"
  | .mod => "mod"
  | .pow => "pow"
  | .div => "div"
  | .idiv => "idiv"

def bitName : Number.BitOp → String
  | .and => "band"
  | .or => "bor"
  | .xor => "bxor"
  | .shl => "shl"
  | .shr => "shr"

/-- The key of a function for an operation. -/
def operationKey (name : String) : Datum := .ofString ("__" ++ name)

def compute (op : Number.Op) (x y : Number) : Operated :=
  match Number.arith? op x y with
  | some n => .done (.number n)
  | none =>
    .fault (if op = .mod then "attempt to perform 'n%%0'" else "attempt to divide by zero")

/-- The fault of an operation with a string that is no number. -/
def refuseString (name : String) (a b : Datum) : Operated :=
  .fault ("attempt to " ++ name ++ " a '" ++ a.typeName ++ "' with a '" ++ b.typeName ++ "'")

def Heap.arithmetic (h : Heap) (op : Number.Op) (a b : Operand) : Operated :=
  match a.datum, b.datum with
  | .number x, .number y => compute op x y
  | _, _ =>
    let key := operationKey (arithName op)
    let ofFirst := if a.isString then .nil else h.behaviour a.datum key
    if !ofFirst.isNil then .call ofFirst a.datum b.datum
    else if a.isString || b.isString then
      match a.datum.number?, b.datum.number? with
      | some x, some y => compute op x y
      | _, _ =>
        let ofSecond := if b.isString then .nil else h.behaviour b.datum key
        if ofSecond.isNil then refuseString (arithName op) a.datum b.datum
        else .call ofSecond a.datum b.datum
    else
      h.brought key a b (Operand.refuse "perform arithmetic on" (blamed Operand.isNumber a b))

def Heap.negated (h : Heap) (a : Operand) : Operated :=
  match a.datum with
  | .number x => .done (.number x.neg)
  | .str _ =>
    match a.datum.number? with
    | some x => .done (.number x.neg)
    | none => refuseString "unm" a.datum a.datum
  | d =>
    let f := h.behaviour d Heap.negateKey
    if f.isNil then Operand.refuse "perform arithmetic on" a else .call f d d

/-! ## Bits -/

/-- The fault of a number that is no integer. -/
def noInteger (a : Operand) : Operated :=
  .fault ("number" ++ Operand.note a.origin ++ " has no integer representation")

def isInteger (a : Operand) : Bool :=
  match a.datum with
  | .number n => n.toInt?.isSome
  | _ => false

def Heap.bitwise (h : Heap) (op : Number.BitOp) (a b : Operand) : Operated :=
  match a.datum, b.datum with
  | .number x, .number y =>
    match x.toInt?, y.toInt? with
    | some m, some n => .done (.number (.int (op.apply m n)))
    | _, _ => noInteger (blamed isInteger a b)
  | _, _ =>
    h.brought (operationKey (bitName op)) a b
      (Operand.refuse "perform bitwise operation on" (blamed Operand.isNumber a b))

def Heap.complement (h : Heap) (a : Operand) : Operated :=
  match a.datum with
  | .number x =>
    match x.toInt? with
    | some n => .done (.number (.int (~~~n)))
    | none => noInteger a
  | d =>
    let f := h.behaviour d Heap.complementKey
    if f.isNil then Operand.refuse "perform bitwise operation on" a else .call f d d

/-! ## Comparison -/

/-- A function that one of two data brings for a comparison. -/
def Heap.compared (h : Heap) (key a b : Datum) (result : Bool) (otherwise : Operated) : Operated :=
  match h.brought key ⟨a, none⟩ ⟨b, none⟩ otherwise with
  | .call f a b => .test f a b result
  | o => o

/-- Are two data equal? -/
def Heap.equal (h : Heap) (result : Bool) (a b : Datum) : Operated :=
  let plain := Operated.done (.bool (a.same b == result))
  match a, b with
  | .table m, .table n => if m = n then plain else h.compared Heap.equalKey a b result plain
  | _, _ => plain

/-- The fault of two data without an order. -/
def noOrder (a b : Datum) : Operated :=
  .fault (if a.typeName = b.typeName then "attempt to compare two " ++ a.typeName ++ " values"
    else "attempt to compare " ++ a.typeName ++ " with " ++ b.typeName)

def Heap.below (h : Heap) (a b : Datum) : Operated :=
  match a, b with
  | .number x, .number y => .done (.bool (Number.lt x y))
  | .str x, .str y => .done (.bool (x < y))
  | _, _ => h.compared Heap.lessKey a b true (noOrder a b)

def Heap.notAbove (h : Heap) (a b : Datum) : Operated :=
  match a, b with
  | .number x, .number y => .done (.bool (Number.le x y))
  | .str x, .str y => .done (.bool (x ≤ y))
  | _, _ => h.compared Heap.lessEqualKey a b true (noOrder a b)

/-! ## All operators -/

def Heap.binary (h : Heap) (op : Binary) (a b : Operand) : Operated :=
  match op with
  | .arith op => h.arithmetic op a b
  | .bits op => h.bitwise op a b
  | .eq => h.equal true a.datum b.datum
  | .ne => h.equal false a.datum b.datum
  | .lt => h.below a.datum b.datum
  | .le => h.notAbove a.datum b.datum
  | .gt => h.below b.datum a.datum
  | .ge => h.notAbove b.datum a.datum

def Heap.lengthOf (h : Heap) (a : Operand) : Operated :=
  match a.datum with
  | .str bs => .done (.ofInt bs.length)
  | .table id =>
    let f := h.behaviour (.table id) Heap.lengthKey
    if f.isNil then .done (.ofInt (h.table id).length) else .call f a.datum a.datum
  | _ => Operand.refuse "get length of" a

def Heap.unary (h : Heap) (op : Unary) (a : Operand) : Operated :=
  match op with
  | .neg => h.negated a
  | .not => .done (.bool !a.datum.holds)
  | .length => h.lengthOf a
  | .bitNot => h.complement a

/-- Two data after one another. -/
def Heap.joined (h : Heap) (a b : Operand) : Operated :=
  match a.datum.text?, b.datum.text? with
  | some x, some y => .done (.str (x ++ y))
  | _, _ =>
    h.brought Heap.concatKey a b
      (Operand.refuse "concatenate" (blamed (·.datum.text?.isSome) a b))

end EnvManifest.Script
