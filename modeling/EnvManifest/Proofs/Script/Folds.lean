import EnvManifest.Script.Ast
import Mathlib.Data.List.Forall2

/-!
# Programs with expressions in the place of others

One program folds into another one if some of its expressions have others in their place, and
nothing else is different but lines. Which expressions may stand in the place of which is a
parameter.
-/

namespace EnvManifest.Script

open List (Forall₂)

section

variable (swaps : Expr → Expr → Prop)

mutual

inductive Folds : Expr → Expr → Prop
  | swap {e e' : Expr} (h : swaps e e') : Folds e e'
  | node {e e' : Expr} (h : NodeFolds e e') : Folds e e'

/-- Two expressions of one form, whose parts fold. -/
inductive NodeFolds : Expr → Expr → Prop
  | nil : NodeFolds .nil .nil
  | bool (b : Bool) : NodeFolds (.bool b) (.bool b)
  | int (n : Int64) : NodeFolds (.int n) (.int n)
  | float (x : Float) : NodeFolds (.float x) (.float x)
  | str (bs : Text.Bytes) : NodeFolds (.str bs) (.str bs)
  | varargs : NodeFolds .varargs .varargs
  | lambda {f f' : FunctionBody} (h : FunctionFolds f f') : NodeFolds (.lambda f) (.lambda f')
  | var (v : Variable) : NodeFolds (.var v) (.var v)
  | index {l l' : Nat} {o o' k k' : Expr} (ho : Folds o o') (hk : Folds k k') :
    NodeFolds (.index l o k) (.index l' o' k')
  | call {l l' : Nat} {f f' : Expr} {args args' : List Expr} (hf : Folds f f')
    (ha : Forall₂ Folds args args') : NodeFolds (.call l f args) (.call l' f' args')
  | method {l l' n n' : Nat} {o o' : Expr} (name : Text.Bytes) {args args' : List Expr}
    (ho : Folds o o') (ha : Forall₂ Folds args args') :
    NodeFolds (.method l n o name args) (.method l' n' o' name args')
  | single {e e' : Expr} (h : Folds e e') : NodeFolds (.single e) (.single e')
  | unary {l l' : Nat} (op : Unary) {e e' : Expr} (h : Folds e e') :
    NodeFolds (.unary l op e) (.unary l' op e')
  | binary {l l' : Nat} (op : Binary) {a a' b b' : Expr} (ha : Folds a a') (hb : Folds b b') :
    NodeFolds (.binary l op a b) (.binary l' op a' b')
  | concat {l l' : Nat} {es es' : List Expr} (h : Forall₂ Folds es es') :
    NodeFolds (.concat l es) (.concat l' es')
  | both {a a' b b' : Expr} (ha : Folds a a') (hb : Folds b b') :
    NodeFolds (.both a b) (.both a' b')
  | either {a a' b b' : Expr} (ha : Folds a a') (hb : Folds b b') :
    NodeFolds (.either a b) (.either a' b')
  | table {fs fs' : List Field} (h : Forall₂ FieldFolds fs fs') :
    NodeFolds (.table fs) (.table fs')

inductive FieldFolds : Field → Field → Prop
  | item {e e' : Expr} (h : Folds e e') : FieldFolds (.item e) (.item e')
  | keyed {l l' : Nat} {k k' v v' : Expr} (hk : Folds k k') (hv : Folds v v') :
    FieldFolds (.keyed l k v) (.keyed l' k' v')

/-- The targets of an assignment stay of one form. -/
inductive StatementFolds : Statement → Statement → Prop
  | call {e e' : Expr} (h : Folds e e') : StatementFolds (.call e) (.call e')
  | declare (count : Nat) {vs vs' : List Expr} (h : Forall₂ Folds vs vs') :
    StatementFolds (.declare count vs) (.declare count vs')
  | declareFunction {f f' : FunctionBody} (h : FunctionFolds f f') :
    StatementFolds (.declareFunction f) (.declareFunction f')
  | assign {l l' : Nat} {ts ts' vs vs' : List Expr} (ht : Forall₂ NodeFolds ts ts')
    (hv : Forall₂ Folds vs vs') : StatementFolds (.assign l ts vs) (.assign l' ts' vs')
  | block {b b' : List Statement} (h : Forall₂ StatementFolds b b') :
    StatementFolds (.block b) (.block b')
  | whileLoop {e e' : Expr} {b b' : List Statement} (he : Folds e e')
    (hb : Forall₂ StatementFolds b b') : StatementFolds (.whileLoop e b) (.whileLoop e' b')
  | repeatLoop {b b' : List Statement} (h : Forall₂ StatementFolds b b') :
    StatementFolds (.repeatLoop b) (.repeatLoop b')
  | untilTest {e e' : Expr} (h : Folds e e') : StatementFolds (.untilTest e) (.untilTest e')
  | branch {e e' : Expr} {yes yes' no no' : List Statement} (he : Folds e e')
    (hy : Forall₂ StatementFolds yes yes') (hn : Forall₂ StatementFolds no no') :
    StatementFolds (.branch e yes no) (.branch e' yes' no')
  | countLoop {l l' : Nat} {a a' b b' c c' : Expr} {body body' : List Statement} (ha : Folds a a')
    (hb : Folds b b') (hc : Folds c c') (h : Forall₂ StatementFolds body body') :
    StatementFolds (.countLoop l a b c body) (.countLoop l' a' b' c' body')
  | eachLoop {l l' : Nat} (count : Nat) {vs vs' : List Expr} {b b' : List Statement}
    (hv : Forall₂ Folds vs vs') (hb : Forall₂ StatementFolds b b') :
    StatementFolds (.eachLoop l count vs b) (.eachLoop l' count vs' b')
  | leave : StatementFolds .leave .leave
  | give {vs vs' : List Expr} (h : Forall₂ Folds vs vs') : StatementFolds (.give vs) (.give vs')

inductive FunctionFolds : FunctionBody → FunctionBody → Prop
  | mk (params : Nat) (varargs : Bool) {b b' : List Statement} (h : Forall₂ StatementFolds b b') :
    FunctionFolds ⟨params, varargs, b⟩ ⟨params, varargs, b'⟩

end

end

variable {swaps : Expr → Expr → Prop}

/-! ## A program folds into itself -/

mutual

theorem NodeFolds.refl : (e : Expr) → NodeFolds swaps e e
  | .nil => .nil
  | .bool b => .bool b
  | .int n => .int n
  | .float x => .float x
  | .str bs => .str bs
  | .varargs => .varargs
  | .lambda f => .lambda (FunctionFolds.refl f)
  | .var v => .var v
  | .index _ o k => .index (.node (.refl o)) (.node (.refl k))
  | .call _ f args => .call (.node (.refl f)) (Folds.refls args)
  | .method _ _ o name args => .method name (.node (.refl o)) (Folds.refls args)
  | .single e => .single (.node (.refl e))
  | .unary _ op e => .unary op (.node (.refl e))
  | .binary _ op a b => .binary op (.node (.refl a)) (.node (.refl b))
  | .concat _ es => .concat (Folds.refls es)
  | .both a b => .both (.node (.refl a)) (.node (.refl b))
  | .either a b => .either (.node (.refl a)) (.node (.refl b))
  | .table fs => .table (FieldFolds.refls fs)

theorem Folds.refls : (es : List Expr) → Forall₂ (Folds swaps) es es
  | [] => .nil
  | e :: es => .cons (.node (.refl e)) (Folds.refls es)

theorem NodeFolds.refls : (es : List Expr) → Forall₂ (NodeFolds swaps) es es
  | [] => .nil
  | e :: es => .cons (.refl e) (NodeFolds.refls es)

theorem FieldFolds.refl : (f : Field) → FieldFolds swaps f f
  | .item e => .item (.node (.refl e))
  | .keyed _ k v => .keyed (.node (.refl k)) (.node (.refl v))

theorem FieldFolds.refls : (fs : List Field) → Forall₂ (FieldFolds swaps) fs fs
  | [] => .nil
  | f :: fs => .cons (.refl f) (FieldFolds.refls fs)

theorem StatementFolds.refl : (s : Statement) → StatementFolds swaps s s
  | .call e => .call (.node (.refl e))
  | .declare count vs => .declare count (Folds.refls vs)
  | .declareFunction f => .declareFunction (FunctionFolds.refl f)
  | .assign _ ts vs => .assign (NodeFolds.refls ts) (Folds.refls vs)
  | .block b => .block (StatementFolds.refls b)
  | .whileLoop e b => .whileLoop (.node (.refl e)) (StatementFolds.refls b)
  | .repeatLoop b => .repeatLoop (StatementFolds.refls b)
  | .untilTest e => .untilTest (.node (.refl e))
  | .branch e yes no =>
    .branch (.node (.refl e)) (StatementFolds.refls yes) (StatementFolds.refls no)
  | .countLoop _ a b c body =>
    .countLoop (.node (.refl a)) (.node (.refl b)) (.node (.refl c)) (StatementFolds.refls body)
  | .eachLoop _ count vs b => .eachLoop count (Folds.refls vs) (StatementFolds.refls b)
  | .leave => .leave
  | .give vs => .give (Folds.refls vs)

theorem StatementFolds.refls : (b : List Statement) → Forall₂ (StatementFolds swaps) b b
  | [] => .nil
  | s :: b => .cons (.refl s) (StatementFolds.refls b)

theorem FunctionFolds.refl : (f : FunctionBody) → FunctionFolds swaps f f
  | ⟨params, varargs, b⟩ => .mk params varargs (StatementFolds.refls b)

end

theorem Folds.refl (e : Expr) : Folds swaps e e := .node (.refl e)

end EnvManifest.Script
