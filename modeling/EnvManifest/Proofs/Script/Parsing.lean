import EnvManifest.Proofs.Script.Operands

/-!
# Parsing spliced tokens

If tokens are spliced into others and both are accepted, then the two programs fold: each expression
that reads a path has the operand in its place, and nothing else is different.
-/

namespace EnvManifest.Script

open Text
open List (Forall₂)

variable {known : List String → List Token → Prop}

/-! ## Expressions -/

theorem NodeFolds.isTarget {e e' : Expr} (h : NodeFolds (Swaps known) e e') :
    e.isTarget = e'.isTarget := by
  cases h <;> rfl

theorem Folds.isCall {e e' : Expr} (h : Folds (Swaps known) e e') : e.isCall = e'.isCall := by
  cases h with
  | swap h => rw [h.isCall.1, h.isCall.2]
  | node h => cases h <;> rfl

theorem Folds.settle {e e' : Expr} (h : Folds (Swaps known) e e') (l l' : Nat) :
    Folds (Swaps known) (e.settle l) (e'.settle l') := by
  cases h with
  | swap h =>
    obtain ⟨names, ts, hr, hk, hs⟩ := h
    rw [hs.settle]
    exact .swap ⟨names, ts, hr.settle l, hk, hs⟩
  | node hn =>
    have hm := hn
    cases hn with
    | both ha hb => exact .node (.both ha (hb.settle l l'))
    | either ha hb => exact .node (.either ha (hb.settle l l'))
    | @index k k' o o' i i' ho hi => cases k <;> cases k' <;> exact .node (.index ho hi)
    | _ => exact .node hm
termination_by e

theorem FieldFolds.settle {f f' : Field} (h : FieldFolds (Swaps known) f f') (l l' : Nat) :
    FieldFolds (Swaps known) (f.settle l) (f'.settle l') := by
  cases h with
  | item h => exact .item (h.settle l l')
  | keyed hk hv => exact .keyed hk hv

theorem settleLast_folds {es es' : List Expr} (h : Forall₂ (Folds (Swaps known)) es es')
    (l l' : Nat) : Forall₂ (Folds (Swaps known)) (settleLast l es) (settleLast l' es') := by
  induction h with
  | nil => exact .nil
  | cons h hm ih =>
    cases hm with
    | nil => exact .cons (h.settle l l') .nil
    | cons => exact .cons h ih

theorem combine_folds (op : Infix) (l l' last last' : Nat) {a a' b b' : Expr}
    (ha : Folds (Swaps known) a a') (hb : Folds (Swaps known) b b') :
    Folds (Swaps known) (combine op l last a b) (combine op l' last' a' b') := by
  cases op with
  | plain op => exact .node (.binary op ha (hb.settle last last'))
  | both => exact .node (.both ha hb)
  | either => exact .node (.either ha hb)
  | concat =>
    have joined : Folds (Swaps known) (.concat l [a, b.settle last])
        (.concat l' [a', b'.settle last']) :=
      .node (.concat (.cons ha (.cons (hb.settle last last') .nil)))
    cases hb with
    | swap h =>
      obtain ⟨names, ts, hr, -, hs⟩ := h
      cases hs with
      | bare hs => cases hr <;> cases hs <;> exact joined
      | enclosed => cases hr <;> exact joined
    | node hn =>
      cases hn with
      | concat h => exact .node (.concat (.cons ha h))
      | _ => exact joined

/-! ## Contexts -/

/-- The same surroundings, but for how deep the place is. The table of globals is in scope. -/
structure Context.Same (ctx ctx' : Context) : Prop where
  scope : ctx.scope = ctx'.scope
  depth : ctx.depth = ctx'.depth
  varargs : ctx.varargs = ctx'.varargs
  inLoop : ctx.inLoop = ctx'.inLoop
  globals : (findBinding environmentName ctx.scope).isSome

theorem findBinding_append {n : String} (xs : List Binding) {scope : List Binding}
    (h : (findBinding n scope).isSome) : (findBinding n (xs ++ scope)).isSome := by
  induction xs with
  | nil => exact h
  | cons x xs ih =>
    rw [List.cons_append, findBinding]
    split
    · rfl
    · simpa using ih

namespace Context.Same

variable {ctx ctx' : Context} (h : Context.Same ctx ctx')
include h

theorem resolve (n : String) : ctx.resolve n = ctx'.resolve n := by
  simp only [Context.resolve, h.scope, h.depth]

theorem declare (names : List String) : Same (ctx.declare names) (ctx'.declare names) :=
  ⟨by simp only [Context.declare, h.scope, h.depth], h.depth, h.varargs, h.inLoop,
    findBinding_append _ h.globals⟩

theorem loop : Same { ctx with inLoop := true } { ctx' with inLoop := true } :=
  ⟨h.scope, h.depth, h.varargs, rfl, h.globals⟩

theorem function (varargs : Bool) :
    Same { ctx with depth := ctx.depth + 1, varargs, inLoop := false }
      { ctx' with depth := ctx'.depth + 1, varargs, inLoop := false } :=
  ⟨h.scope, by rw [h.depth], rfl, rfl, h.globals⟩

theorem withScope {scope : List Binding} (hs : (findBinding environmentName scope).isSome) :
    Same { ctx with scope } { ctx' with scope } :=
  ⟨rfl, h.depth, h.varargs, h.inLoop, hs⟩

theorem constant? {e e' : Expr} (he : NodeFolds (Swaps known) e e') :
    ctx.constant? e = ctx'.constant? e' := by
  cases he with
  | var v => simp only [Context.constant?, h.scope]
  | _ => rfl

theorem enter {b : Bool} : Sim known b b ctx.enter ctx'.enter Same := by
  intro r r' hr a s a' s' e e'
  unfold Context.enter at e e'
  split at e
  · split at e'
    · cases e
      cases e'
      exact ⟨⟨h.scope, h.depth, h.varargs, h.inLoop, h.globals⟩, hr⟩
    · cases e'
  · cases e

end Context.Same

/-! ## The grammar -/

/-- The statements of a block, and the same variables in scope after them. -/
def StatementsAgree (known : List String → List Token → Prop)
    (x x' : List Statement × List Binding) : Prop :=
  Forall₂ (StatementFolds (Swaps known)) x.1 x'.1 ∧ x.2 = x'.2 ∧
    (findBinding environmentName x.2).isSome

/-- What is true of every part of the grammar, with so much fuel on one side. -/
structure Parses (known : List String → List Token → Prop) (n : Nat) : Prop where
  expression : ∀ n' {ctx ctx'}, Context.Same ctx ctx' → ∀ limit,
    Sim known false false (expression n ctx limit) (expression n' ctx' limit) (Folds (Swaps known))
  operators : ∀ n' {ctx ctx'}, Context.Same ctx ctx' → ∀ limit {e e'}, Folds (Swaps known) e e' →
    Sim known false false (operators n ctx limit e) (operators n' ctx' limit e')
      (Folds (Swaps known))
  operand : ∀ n' {ctx ctx'}, Context.Same ctx ctx' →
    Sim known false false (operand n ctx) (operand n' ctx') (Folds (Swaps known))
  suffixed : ∀ n' {ctx ctx'}, Context.Same ctx ctx' →
    Sim known false false (suffixed n ctx) (suffixed n' ctx') (Folds (Swaps known))
  suffixes : ∀ n' {ctx ctx'}, Context.Same ctx ctx' → ∀ {e e'}, Folds (Swaps known) e e' →
    Sim known true false (suffixes n ctx e) (suffixes n' ctx' e') (Folds (Swaps known))
  bracketed : ∀ n' {ctx ctx'}, Context.Same ctx ctx' →
    Sim known true true (bracketed n ctx) (bracketed n' ctx') (Folds (Swaps known))
  arguments : ∀ n' {ctx ctx'}, Context.Same ctx ctx' →
    Sim known true true (arguments n ctx) (arguments n' ctx') (Forall₂ (Folds (Swaps known)))
  expressions : ∀ n' {ctx ctx'}, Context.Same ctx ctx' →
    Sim known false false (expressions n ctx) (expressions n' ctx')
      (Forall₂ (Folds (Swaps known)))
  tableConstructor : ∀ n' {ctx ctx'}, Context.Same ctx ctx' →
    Sim known true true (tableConstructor n ctx) (tableConstructor n' ctx') (Folds (Swaps known))
  fields : ∀ n' {ctx ctx'}, Context.Same ctx ctx' → ∀ line line',
    Sim known false true (fields n ctx line) (fields n' ctx' line')
      (Forall₂ (FieldFolds (Swaps known)))
  field : ∀ n' {ctx ctx'}, Context.Same ctx ctx' →
    Sim known false false (field n ctx) (field n' ctx') (FieldFolds (Swaps known))
  keyedField : ∀ n' {ctx ctx'}, Context.Same ctx ctx' → ∀ {e e'}, Folds (Swaps known) e e' →
    Sim known true false (keyedField n ctx e) (keyedField n' ctx' e') (FieldFolds (Swaps known))
  functionBody : ∀ n' {ctx ctx'}, Context.Same ctx ctx' → ∀ isMethod line line',
    Sim known false false (functionBody n ctx isMethod line) (functionBody n' ctx' isMethod line')
      (FunctionFolds (Swaps known))
  block : ∀ n' {ctx ctx'}, Context.Same ctx ctx' →
    Sim known false false (block n ctx) (block n' ctx') (Forall₂ (StatementFolds (Swaps known)))
  giveStatement : ∀ n' {ctx ctx'}, Context.Same ctx ctx' →
    Sim known true false (giveStatement n ctx) (giveStatement n' ctx')
      (StatementFolds (Swaps known))
  statement : ∀ n' {ctx ctx'}, Context.Same ctx ctx' →
    Sim known false false (statement n ctx) (statement n' ctx') (StatementsAgree known)
  untilBlock : ∀ n' {ctx ctx'}, Context.Same ctx ctx' → ∀ line line',
    Sim known false false (untilBlock n ctx line) (untilBlock n' ctx' line')
      (Forall₂ (StatementFolds (Swaps known)))
  ifStatement : ∀ n' {ctx ctx'}, Context.Same ctx ctx' → ∀ line line',
    Sim known true false (ifStatement n ctx line) (ifStatement n' ctx' line')
      (StatementFolds (Swaps known))
  forStatement : ∀ n' {ctx ctx'}, Context.Same ctx ctx' → ∀ line line',
    Sim known true false (forStatement n ctx line) (forStatement n' ctx' line')
      (StatementFolds (Swaps known))
  bound : ∀ n' {ctx ctx'}, Context.Same ctx ctx' →
    Sim known false false (bound n ctx) (bound n' ctx') (Folds (Swaps known))
  functionStatement : ∀ n' {ctx ctx'}, Context.Same ctx ctx' → ∀ line line',
    Sim known true false (functionStatement n ctx line) (functionStatement n' ctx' line')
      (StatementFolds (Swaps known))
  functionName : ∀ n' {e e'}, NodeFolds (Swaps known) e e' →
    Sim known true true (functionName n e) (functionName n' e')
      fun x x' => NodeFolds (Swaps known) x.1 x'.1 ∧ x.2 = x'.2
  localStatement : ∀ n' {ctx ctx'}, Context.Same ctx ctx' →
    Sim known false false (localStatement n ctx) (localStatement n' ctx') (StatementsAgree known)
  expressionStatement : ∀ n' {ctx ctx'}, Context.Same ctx ctx' →
    Sim known false false (expressionStatement n ctx) (expressionStatement n' ctx')
      (StatementFolds (Swaps known))
  assignment : ∀ n' {ctx ctx'}, Context.Same ctx ctx' → ∀ {e e'}, Folds (Swaps known) e e' →
    Sim known false false (assignment n ctx e) (assignment n' ctx' e')
      fun x x' => Forall₂ (NodeFolds (Swaps known)) x.1 x'.1 ∧
        Forall₂ (Folds (Swaps known)) x.2 x'.2

variable {n n' : Nat} {ctx ctx' : Context}

/-! ## Names -/

theorem constantMark_same : Sim known true false constantMark constantMark Eq := by
  unfold constantMark
  refine .accept "<" (by decide) ?_ (Sim.pure rfl |>.weaken _)
  refine .bind .name ?_
  rintro a _ rfl
  refine .bind (.expect ">") fun _ _ _ => ?_
  split
  · exact .pure rfl
  · exact .left (misuse_ne _)

theorem attributedNames_same (n n' : Nat) :
    Sim known false false (attributedNames n) (attributedNames n') Eq := by
  induction n generalizing n' with
  | zero => exact .left exhausted_ne
  | succ n ih =>
    cases n' with
    | zero => exact .right exhausted_ne
    | succ n' =>
      unfold attributedNames
      refine .bind .name ?_
      rintro a _ rfl
      refine .bind constantMark_same ?_
      rintro constant _ rfl
      refine .accept "," (by decide) (.bind (ih n') ?_) (.pure rfl)
      rintro more _ rfl
      exact .pure rfl

theorem moreNames_same (n n' : Nat) :
    Sim known true true (moreNames n) (moreNames n') Eq := by
  induction n generalizing n' with
  | zero => exact .left exhausted_ne
  | succ n ih =>
    cases n' with
    | zero => exact .right exhausted_ne
    | succ n' =>
      unfold moreNames
      refine .accept "," (by decide) (.bind .name ?_) (.pure rfl)
      rintro a _ rfl
      refine .bind (ih n') ?_
      rintro more _ rfl
      exact .pure rfl

theorem parameters_same (n n' : Nat) :
    Sim known false false (parameters n) (parameters n') Eq := by
  induction n generalizing n' with
  | zero => exact .left exhausted_ne
  | succ n ih =>
    cases n' with
    | zero => exact .right exhausted_ne
    | succ n' =>
      unfold parameters
      refine .current (fun t l l' => ?_) fun _ k l t l' ht => ?_
      · dsimp only
        split
        · refine Sim.simAt <| .advance <| .accept "," (by decide) (.bind (ih n') ?_) (.pure rfl)
          rintro more _ rfl
          exact .pure rfl
        · exact Sim.simAt <| .accept "..." (by decide) (.pure rfl) (.left (fault_ne _))
      · -- No parameter starts like an operand.
        intro r r' _ hr' _ _ _ a' s' _ e'
        have h : r'.first.isMark "..." = false := by rw [hr']; exact isMark_operand ht (by decide)
        have e' : (Parser.accept "..." >>= fun yes => if yes = true then pure ([], true) else
            Parser.fault "<name> or '...' expected") r' = .ok (a', s') := by
          obtain rfl | ⟨e, he⟩ := ht
          · exact e'
          · cases he <;> exact e'
        obtain ⟨yes, r₁, hy, e'⟩ := bind_ok.1 e'
        rw [accept_no _ h] at hy
        cases hy
        exact (fault_ne _ _ _ e').elim

namespace Parses

variable (hn : Parses known n) (hc : Context.Same ctx ctx')
include hn hc

theorem expression_succ (limit : Nat) :
    Sim known false false (Script.expression (n + 1) ctx limit)
      (Script.expression n' ctx' limit) (Folds (Swaps known)) := by
  unfold Script.expression
  cases n' with
  | zero => exact .right exhausted_ne
  | succ n' =>
    refine .bind hc.enter fun inner inner' hi => ?_
    have operand_next : Sim known false false
        (Script.operand n inner >>= fun e => Script.operators n inner limit e)
        (Script.operand n' inner' >>= fun e => Script.operators n' inner' limit e)
        (Folds (Swaps known)) :=
      .bind (hn.operand n' hi) fun _ _ he => hn.operators n' hi limit he
    refine .current (fun t l l' => Sim.simAt ?_) fun _ k l t l' ht => Sim.simAt ?_
    · dsimp only
      cases unary? t with
      | none => exact operand_next.weaken_in
      | some op =>
        refine .advance (.bind (hn.expression n' hi unaryPower) fun e e' he =>
          .bind .lastLine fun last last' _ => ?_)
        exact hn.operators n' hi limit (.node (.unary op (he.settle last last')))
    · dsimp only
      rw [unary?_of_operand ht]
      exact operand_next

theorem operators_succ (limit : Nat) {e e' : Expr} (he : Folds (Swaps known) e e') :
    Sim known false false (Script.operators (n + 1) ctx limit e)
      (Script.operators n' ctx' limit e') (Folds (Swaps known)) := by
  unfold Script.operators
  cases n' with
  | zero => exact .right exhausted_ne
  | succ n' =>
    refine .current (fun t l l' => Sim.simAt ?_) fun _ k l t l' ht => Sim.simAt ?_
    · dsimp only
      split
      · exact (Sim.pure he).weaken _
      · split
        · exact (Sim.pure he).weaken _
        · refine .advance (.bind (hn.expression n' hc _) fun b b' hb =>
            .bind .lastLine fun last last' _ => ?_)
          exact hn.operators n' hc limit
            (combine_folds _ _ _ _ _ (he.settle l l') hb)
    · dsimp only
      rw [infix?_of_operand ht]
      exact .pure he

theorem suffixes_succ {e e' : Expr} (he : Folds (Swaps known) e e') :
    Sim known true false (Script.suffixes (n + 1) ctx e) (Script.suffixes n' ctx' e')
      (Folds (Swaps known)) := by
  unfold Script.suffixes
  cases n' with
  | zero => exact .right exhausted_ne
  | succ n' =>
    have key : ∀ f : String, Folds (Swaps known) (.str (encode f.toList))
      (.str (encode f.toList)) := fun _ => .refl _
    refine .current (fun t l l' => Sim.simAt ?_) nofun
    dsimp only
    split
    · refine .bind .lastLine fun last last' _ => .advance <| .bind .name ?_
      rintro f _ rfl
      exact hn.suffixes n' hc (.node (.index (he.settle last last') (key f)))
    · exact .bind .lastLine fun last last' _ => .bind (hn.bracketed n' hc) fun k k' hk =>
        hn.suffixes n' hc (.node (.index (he.settle last last') hk))
    · refine .advance <| .bind .name ?_
      rintro f _ rfl
      exact .bind .lastLine fun last last' _ => .bind .currentLine fun _ _ _ =>
        .bind (hn.arguments n' hc) fun _ _ ha =>
          hn.suffixes n' hc (.node (.method _ (he.settle last last') ha))
    · exact .bind .lastLine fun last last' _ => .bind (hn.arguments n' hc) fun _ _ ha =>
        hn.suffixes n' hc (.node (.call (he.settle last last') ha))
    · exact .bind .lastLine fun last last' _ => .bind (hn.arguments n' hc) fun _ _ ha =>
        hn.suffixes n' hc (.node (.call (he.settle last last') ha))
    · exact .bind .lastLine fun last last' _ => .bind (hn.arguments n' hc) fun _ _ ha =>
        hn.suffixes n' hc (.node (.call (he.settle last last') ha))
    · exact (Sim.pure he).weaken _

theorem bracketed_succ : Sim known true true (Script.bracketed (n + 1) ctx)
    (Script.bracketed n' ctx') (Folds (Swaps known)) := by
  unfold Script.bracketed
  cases n' with
  | zero => exact .right exhausted_ne
  | succ n' =>
    refine .advance <| .bind (hn.expression n' hc 0) fun e e' he =>
      .bind .lastLine fun last last' _ => .bind (.expect "]") fun _ _ _ => ?_
    exact .pure (he.settle last last')

theorem arguments_succ : Sim known true true (Script.arguments (n + 1) ctx)
    (Script.arguments n' ctx') (Forall₂ (Folds (Swaps known))) := by
  unfold Script.arguments
  cases n' with
  | zero => exact .right exhausted_ne
  | succ n' =>
    refine .current (fun t l l' => ?_) nofun
    dsimp only
    split
    · exact .advance (Sim.pure (.cons (.refl _) .nil))
    · exact Sim.simAt <| .bind (hn.tableConstructor n' hc) fun e e' he =>
        .pure (.cons he .nil)
    · refine .advance (.accept ")" (by decide) ?_ ?_)
      · exact .pure .nil
      · exact .bind (hn.expressions n' hc) fun es es' hs => .bind (.close _ _ _ _) fun _ _ _ =>
          .bind .lastLine fun last last' _ => .pure (settleLast_folds hs last last')
    · exact Sim.simAt <| .left (fault_ne _)

theorem expressions_succ : Sim known false false (Script.expressions (n + 1) ctx)
    (Script.expressions n' ctx') (Forall₂ (Folds (Swaps known))) := by
  unfold Script.expressions
  cases n' with
  | zero => exact .right exhausted_ne
  | succ n' =>
    refine .bind (hn.expression n' hc 0) fun e e' he => .accept "," (by decide) ?_ ?_
    · exact .bind .lastLine fun last last' _ => .bind (hn.expressions n' hc) fun es es' hs =>
        .pure (.cons (he.settle last last') hs)
    · exact .pure (.cons he .nil)

theorem tableConstructor_succ : Sim known true true (Script.tableConstructor (n + 1) ctx)
    (Script.tableConstructor n' ctx') (Folds (Swaps known)) := by
  unfold Script.tableConstructor
  cases n' with
  | zero => exact .right exhausted_ne
  | succ n' =>
    exact .bind .currentLine fun line line' _ => .advance <|
      .bind (hn.fields n' hc line line') fun fs fs' hf => .pure (.node (.table hf))

theorem fields_succ (line line' : Nat) : Sim known false true (Script.fields (n + 1) ctx line)
    (Script.fields n' ctx' line') (Forall₂ (FieldFolds (Swaps known))) := by
  unfold Script.fields
  cases n' with
  | zero => exact .right exhausted_ne
  | succ n' =>
    refine .accept "\x7d" (by decide) (.pure .nil) ?_
    refine .bind (hn.field n' hc) fun f f' hf => ?_
    refine .bind (.accepts "," (by decide) rfl) ?_
    rintro comma _ rfl
    refine .ite (fun _ => .bind (.pure rfl) ?_) fun _ => .bind (.accepts ";" (by decide) rfl) ?_
    all_goals
      rintro more _ rfl
      refine .ite (fun _ => ?_) fun _ => ?_
      · exact .bind .lastLine fun last last' _ => .bind (hn.fields n' hc line line') fun _ _ hs =>
          .pure (.cons (hf.settle last last') hs)
      · exact .bind (.close _ _ _ _) fun _ _ _ => .bind .lastLine fun last last' _ =>
          .pure (.cons (hf.settle last last') .nil)

theorem field_succ : Sim known false false (Script.field (n + 1) ctx) (Script.field n' ctx')
    (FieldFolds (Swaps known)) := by
  cases n' with
  | zero => exact .right (by unfold Script.field; exact exhausted_ne)
  | succ n' =>
    rintro ⟨ts, last⟩ ⟨ts', last'⟩ (hs : Spliced known false ts ts') a s a' s' e e'
    obtain ⟨f, l, l', k, k', us, us', rfl, rfl, hu⟩ | ⟨hkey, hkey'⟩ := hs.key
    · unfold Script.field at e e'
      exact hn.keyedField n' hc (.refl _) ⟨_, l⟩ ⟨_, l'⟩
        (.keep _ (.mark "=") k k' hu) _ _ _ _ e e'
    · obtain ⟨l, us, l', us', rfl, rfl, hu⟩ | ⟨hbracket, hbracket'⟩ := hs.mark "[" (by decide)
      · have bracket : Sim known true false
            (Script.bracketed n ctx >>= Script.keyedField n ctx)
            (Script.bracketed n' ctx' >>= Script.keyedField n' ctx')
            (FieldFolds (Swaps known)) :=
          .bind (hn.bracketed n' hc) fun _ _ hk => hn.keyedField n' hc hk
        unfold Script.field at e e'
        exact bracket _ _ hu _ _ _ _ e e'
      · have item : Sim known false false
            (Script.expression n ctx 0 >>= fun e => pure (Field.item e))
            (Script.expression n' ctx' 0 >>= fun e => pure (.item e))
            (FieldFolds (Swaps known)) :=
          .bind (hn.expression n' hc 0) fun _ _ he => .pure (.item he)
        exact item _ _ hs _ _ _ _ (field_item hkey hbracket e) (field_item hkey' hbracket' e')

theorem keyedField_succ {e e' : Expr} (he : Folds (Swaps known) e e') :
    Sim known true false (Script.keyedField (n + 1) ctx e) (Script.keyedField n' ctx' e')
      (FieldFolds (Swaps known)) := by
  unfold Script.keyedField
  cases n' with
  | zero => exact .right exhausted_ne
  | succ n' =>
    exact .bind (.expect "=") fun _ _ _ => .bind (hn.expression n' hc 0) fun v v' hv =>
      .bind .lastLine fun last last' _ => .pure (.keyed he (hv.settle last last'))

theorem functionBody_succ (isMethod : Bool) (line line' : Nat) :
    Sim known false false (Script.functionBody (n + 1) ctx isMethod line)
      (Script.functionBody n' ctx' isMethod line') (FunctionFolds (Swaps known)) := by
  unfold Script.functionBody
  cases n' with
  | zero => exact .right exhausted_ne
  | succ n' =>
    refine .bind (.expect "(") fun _ _ _ => .bind (.isMarks ")" (by decide)) ?_
    rintro closed _ rfl
    refine .ite (fun _ => .bind (.pure rfl) ?_) fun _ => .bind (parameters_same n n') ?_
    all_goals
      rintro ⟨names, varargs⟩ _ rfl
      refine .bind (.expect ")") fun _ _ _ => .bind (Sim.weaken_in (hn.block n' ?_))
        fun body body' hb => .bind (.close _ _ _ _) fun _ _ _ => .pure (.mk _ _ hb)
      exact (hc.function varargs).declare _

theorem block_succ : Sim known false false (Script.block (n + 1) ctx) (Script.block n' ctx')
    (Forall₂ (StatementFolds (Swaps known))) := by
  unfold Script.block
  cases n' with
  | zero => exact .right exhausted_ne
  | succ n' =>
    refine .bind .atBlockEnd ?_
    rintro atEnd _ rfl
    refine .ite (fun _ => .pure .nil) fun _ => .isMark "return" (by decide) ?_ ?_
    · exact .bind hc.enter fun _ _ hi => .bind (hn.giveStatement n' hi) fun _ _ hs =>
        .pure (.cons hs .nil)
    · refine .bind hc.enter fun _ _ hi => .bind (hn.statement n' hi) ?_
      rintro ⟨ss, scope⟩ ⟨ss', _⟩ ⟨hs, rfl, hg⟩
      exact .bind (hn.block n' (hc.withScope hg)) fun _ _ hb => .pure (List.rel_append hs hb)

theorem giveStatement_succ : Sim known true false (Script.giveStatement (n + 1) ctx)
    (Script.giveStatement n' ctx') (StatementFolds (Swaps known)) := by
  unfold Script.giveStatement
  cases n' with
  | zero => exact .right exhausted_ne
  | succ n' =>
    refine .advance <| .bind .atBlockEnd ?_
    rintro atEnd _ rfl
    refine .bind (.isMarks ";" (by decide)) ?_
    rintro semicolon _ rfl
    have given : ∀ vs vs', Forall₂ (Folds (Swaps known)) vs vs' → Sim known false false
        (Parser.accept ";" >>= fun _ => pure (Statement.give vs))
        (Parser.accept ";" >>= fun _ => pure (.give vs')) (StatementFolds (Swaps known)) :=
      fun vs vs' h => .bind (.accepts ";" (by decide) rfl) fun _ _ _ => .pure (.give h)
    refine .ite (fun _ => .bind (.pure .nil) given) fun _ => ?_
    exact .bind (hn.expressions n' hc) fun es es' hs => .bind .lastLine fun last last' _ =>
      .bind (.pure (settleLast_folds hs last last')) given

theorem statement_succ : Sim known false false (Script.statement (n + 1) ctx)
    (Script.statement n' ctx') (StatementsAgree known) := by
  unfold Script.statement
  cases n' with
  | zero => exact .right exhausted_ne
  | succ n' =>
    have one : ∀ {s s'}, StatementFolds (Swaps known) s s' →
        StatementsAgree known ([s], ctx.scope) ([s'], ctx'.scope) :=
      fun h => ⟨.cons h .nil, hc.scope, hc.globals⟩
    have expression_next : Sim known false false
        (Script.expressionStatement n ctx >>= fun s => pure ([s], ctx.scope))
        (Script.expressionStatement n' ctx' >>= fun s => pure ([s], ctx'.scope))
        (StatementsAgree known) :=
      .bind (hn.expressionStatement n' hc) fun _ _ hs => .pure (one hs)
    refine .current (fun t l l' => Sim.simAt ?_) fun _ k l t l' ht => Sim.simAt ?_
    · dsimp only
      split
      · exact .advance (.pure ⟨.nil, hc.scope, hc.globals⟩)
      · exact .bind (hn.ifStatement n' hc l l') fun _ _ hs => .pure (one hs)
      · refine .advance <| .bind (hn.expression n' hc 0) fun e e' he =>
          .bind .lastLine fun last last' _ => .bind (.expect "do") fun _ _ _ => ?_
        exact .bind (hn.block n' hc.loop) fun _ _ hb => .bind (.close _ _ _ _) fun _ _ _ =>
          .pure (one (.whileLoop (he.settle last last') hb))
      · exact .advance <| .bind (hn.block n' hc) fun _ _ hb => .bind (.close _ _ _ _)
          fun _ _ _ => .pure (one (.block hb))
      · exact .bind (hn.forStatement n' hc l l') fun _ _ hs => .pure (one hs)
      · exact .advance <| .bind (hn.untilBlock n' hc.loop l l') fun _ _ hb =>
          .pure (one (.repeatLoop hb))
      · exact .bind (hn.functionStatement n' hc l l') fun _ _ hs => .pure (one hs)
      · refine .advance <| .accept "function" (by decide) ?_ (hn.localStatement n' hc)
        refine .bind .name ?_
        rintro name _ rfl
        have hi := hc.declare [name]
        exact .bind .lastLine fun last last' _ => .bind
          (Sim.weaken_in (hn.functionBody n' hi false last last')) fun f f' hf =>
            .pure ⟨.cons (.declareFunction hf) .nil, hi.scope, hi.globals⟩
      · refine .advance ?_
        rw [← hc.inLoop]
        refine .ite (fun _ => .pure (one .leave)) fun _ => .left (misuse_ne _)
      · exact expression_next.weaken_in
    · obtain rfl | ⟨e, he⟩ := ht
      · exact expression_next
      · cases he <;> exact expression_next

theorem untilBlock_succ (line line' : Nat) :
    Sim known false false (Script.untilBlock (n + 1) ctx line) (Script.untilBlock n' ctx' line')
      (Forall₂ (StatementFolds (Swaps known))) := by
  unfold Script.untilBlock
  cases n' with
  | zero => exact .right exhausted_ne
  | succ n' =>
    refine .bind .atBlockEnd ?_
    rintro atEnd _ rfl
    refine .ite (fun _ => ?_) fun _ => .isMark "return" (by decide) ?_ ?_
    · exact .bind (.close _ _ _ _) fun _ _ _ => .bind (hn.expression n' hc 0) fun e e' he =>
        .bind .lastLine fun last last' _ => .pure (.cons (.untilTest (he.settle last last')) .nil)
    · exact .bind hc.enter fun _ _ hi => .bind (hn.giveStatement n' hi) fun _ _ hs =>
        .bind (.close _ _ _ _) fun _ _ _ => .bind (hn.expression n' hc 0) fun _ _ _ =>
          .pure (.cons hs .nil)
    · refine .bind hc.enter fun _ _ hi => .bind (hn.statement n' hi) ?_
      rintro ⟨ss, scope⟩ ⟨ss', _⟩ ⟨hs, rfl, hg⟩
      exact .bind (hn.untilBlock n' (hc.withScope hg) line line') fun _ _ hb =>
        .pure (List.rel_append hs hb)

theorem ifStatement_succ (line line' : Nat) :
    Sim known true false (Script.ifStatement (n + 1) ctx line)
      (Script.ifStatement n' ctx' line') (StatementFolds (Swaps known)) := by
  unfold Script.ifStatement
  cases n' with
  | zero => exact .right exhausted_ne
  | succ n' =>
    refine .advance <| .bind (hn.expression n' hc 0) fun e e' he => .bind (.expect "then")
      fun _ _ _ => .bind .lastLine fun last last' _ => .bind (hn.block n' hc) fun _ _ hy => ?_
    have ht := he.settle last last'
    refine .isMark "elseif" (by decide) ?_ (.accept "else" (by decide) ?_ ?_)
    · exact .bind (hn.ifStatement n' hc line line') fun _ _ hs =>
        .pure (.branch ht hy (.cons hs .nil))
    · exact .bind (hn.block n' hc) fun _ _ hb => .bind (.close _ _ _ _) fun _ _ _ =>
        .pure (.branch ht hy hb)
    · exact .bind (.close _ _ _ _) fun _ _ _ => .pure (.branch ht hy .nil)

theorem bound_succ : Sim known false false (Script.bound (n + 1) ctx) (Script.bound n' ctx')
    (Folds (Swaps known)) := by
  unfold Script.bound
  cases n' with
  | zero => exact .right exhausted_ne
  | succ n' =>
    exact .bind (hn.expression n' hc 0) fun e e' he => .bind .lastLine fun last last' _ =>
      .pure (he.settle last last')

theorem forStatement_succ (line line' : Nat) :
    Sim known true false (Script.forStatement (n + 1) ctx line)
      (Script.forStatement n' ctx' line') (StatementFolds (Swaps known)) := by
  unfold Script.forStatement
  cases n' with
  | zero => exact .right exhausted_ne
  | succ n' =>
    refine .advance <| .bind .name ?_
    rintro first _ rfl
    refine .current (fun t l l' => Sim.simAt ?_) nofun
    dsimp only
    have each : Sim known true false
        (do
          let more ← moreNames n
          let names := first :: more
          Parser.expect "in"
          let called ← Parser.currentLine
          let values ← Script.expressions n ctx
          let values := settleLast (← Parser.lastLine) values
          Parser.expect "do"
          let body ← Script.block n { ctx.declare names with inLoop := true }
          Parser.close "end" "for" line
          return .eachLoop called names.length values body)
        (do
          let more ← moreNames n'
          let names := first :: more
          Parser.expect "in"
          let called ← Parser.currentLine
          let values ← Script.expressions n' ctx'
          let values := settleLast (← Parser.lastLine) values
          Parser.expect "do"
          let body ← Script.block n' { ctx'.declare names with inLoop := true }
          Parser.close "end" "for" line'
          return .eachLoop called names.length values body) (StatementFolds (Swaps known)) := by
      refine .bind (moreNames_same n n') ?_
      rintro more _ rfl
      refine .bind (.expect "in") fun _ _ _ => .bind .currentLine fun _ _ _ =>
        .bind (hn.expressions n' hc) fun _ _ hs => .bind .lastLine fun last last' _ =>
          .bind (.expect "do") fun _ _ _ => .bind (hn.block n' (hc.declare _).loop) fun _ _ hb =>
            .bind (.close _ _ _ _) fun _ _ _ => ?_
      exact .pure (.eachLoop _ (settleLast_folds hs last last') hb)
    split
    · refine .advance <| .bind (hn.bound n' hc) fun a a' ha => .bind (.expect ",") fun _ _ _ =>
        .bind (hn.bound n' hc) fun b b' hb => .bind (.accepts "," (by decide) rfl) ?_
      rintro step _ rfl
      have one : Folds (Swaps known) (.int 1) (.int 1) := .refl _
      refine .ite (fun _ => .bind (hn.bound n' hc) ?_) fun _ => .bind (.pure one) ?_
      all_goals
        refine fun c c' hs => .bind (.expect "do") fun _ _ _ => .bind .lastLine fun _ _ _ =>
          .bind (hn.block n' (hc.declare _).loop) fun _ _ h => .bind (.close _ _ _ _)
            fun _ _ _ => ?_
        exact .pure (.countLoop ha hb hs h)
    · exact each
    · exact each
    · exact .left (fault_ne _)

theorem functionStatement_succ (line line' : Nat) :
    Sim known true false (Script.functionStatement (n + 1) ctx line)
      (Script.functionStatement n' ctx' line') (StatementFolds (Swaps known)) := by
  unfold Script.functionStatement
  cases n' with
  | zero => exact .right exhausted_ne
  | succ n' =>
    refine .advance <| .bind .name ?_
    rintro name _ rfl
    rw [← hc.resolve]
    refine .bind (hn.functionName n' (.refl _)) ?_
    rintro ⟨target, isMethod⟩ ⟨target', _⟩ ⟨ht, rfl⟩
    refine .bind (Sim.weaken_in (hn.functionBody n' hc isMethod line line')) fun f f' hf => ?_
    rw [hc.constant? ht]
    cases ctx'.constant? target' with
    | some constant => exact .left (misuse_ne _)
    | none => exact .pure (.assign (.cons ht .nil) (.cons (.node (.lambda hf)) .nil))

omit hc in
theorem functionName_succ {e e' : Expr} (he : NodeFolds (Swaps known) e e') :
    Sim known true true (Script.functionName (n + 1) e) (Script.functionName n' e')
      fun x x' => NodeFolds (Swaps known) x.1 x'.1 ∧ x.2 = x'.2 := by
  unfold Script.functionName
  cases n' with
  | zero => exact .right exhausted_ne
  | succ n' =>
    refine .isMark "." (by decide) ?_ (.isMark ":" (by decide) ?_ (.pure ⟨he, rfl⟩))
    · refine .bind .lastLine fun last last' _ => .advance <| .bind .name ?_
      rintro name _ rfl
      exact hn.functionName n' (.index ((Folds.node he).settle last last') (.refl _))
    · refine .bind .lastLine fun last last' _ => .advance <| .bind .name ?_
      rintro name _ rfl
      exact .pure ⟨.index ((Folds.node he).settle last last') (.refl _), rfl⟩

theorem localStatement_succ : Sim known false false (Script.localStatement (n + 1) ctx)
    (Script.localStatement n' ctx') (StatementsAgree known) := by
  unfold Script.localStatement
  cases n' with
  | zero => exact .right exhausted_ne
  | succ n' =>
    refine .bind (attributedNames_same n n') ?_
    rintro names _ rfl
    have declared : ∀ vs vs', Forall₂ (Folds (Swaps known)) vs vs' → StatementsAgree known
        ([.declare names.length vs],
          (names.map fun e => (⟨e.1, ctx.depth, e.2⟩ : Binding)).reverse ++ ctx.scope)
        ([.declare names.length vs'],
          (names.map fun e => (⟨e.1, ctx'.depth, e.2⟩ : Binding)).reverse ++ ctx'.scope) :=
      fun vs vs' h => ⟨.cons (.declare _ h) .nil, by rw [hc.scope, hc.depth],
        findBinding_append _ hc.globals⟩
    refine .accept "=" (by decide) ?_ ?_
    · exact .bind (hn.expressions n' hc) fun _ _ hs => .bind .lastLine fun last last' _ =>
        .bind (.pure (settleLast_folds hs last last')) fun vs vs' h => .pure (declared vs vs' h)
    · exact .bind (.pure .nil) fun vs vs' h => .pure (declared vs vs' h)

theorem expressionStatement_succ : Sim known false false
    (Script.expressionStatement (n + 1) ctx) (Script.expressionStatement n' ctx')
    (StatementFolds (Swaps known)) := by
  unfold Script.expressionStatement
  cases n' with
  | zero => exact .right exhausted_ne
  | succ n' =>
    refine .bind (hn.suffixed n' hc) fun e e' he => .bind (.isMarks "=" (by decide)) ?_
    rintro assigns _ rfl
    refine .bind (.isMarks "," (by decide)) ?_
    rintro more _ rfl
    refine .ite (fun _ => ?_) fun _ => ?_
    · refine .bind (hn.assignment n' hc he) ?_
      rintro ⟨ts, vs⟩ ⟨ts', vs'⟩ ⟨ht, hv⟩
      exact .bind .lastLine fun _ _ _ => .pure (.assign ht hv)
    · rw [he.isCall]
      exact .ite (fun _ => .pure (.call he)) fun _ => .left (fault_ne _)

theorem assignment_succ {e e' : Expr} (he : Folds (Swaps known) e e') :
    Sim known false false (Script.assignment (n + 1) ctx e) (Script.assignment n' ctx' e')
      fun x x' => Forall₂ (NodeFolds (Swaps known)) x.1 x'.1 ∧
        Forall₂ (Folds (Swaps known)) x.2 x'.2 := by
  unfold Script.assignment
  cases n' with
  | zero => exact .right exhausted_ne
  | succ n' =>
    cases he with
    | swap h =>
      obtain ⟨names, ts, -, -, hs⟩ := h
      rw [hs.isTarget]
      exact .right (fault_bind_ne _ _)
    | node he =>
      rw [he.isTarget, hc.constant? he]
      refine .ite (fun _ => .left (fault_bind_ne _ _)) fun _ => ?_
      cases ctx'.constant? e' with
      | some constant => exact .left (misuse_ne _)
      | none =>
        refine .accept "," (by decide) ?_ ?_
        · refine .bind (hn.suffixed n' hc) fun f f' hf => .bind hc.enter fun _ _ hi =>
            .bind (hn.assignment n' hi hf) ?_
          rintro ⟨ts, vs⟩ ⟨ts', vs'⟩ ⟨ht, hv⟩
          exact .pure ⟨.cons he ht, hv⟩
        · exact .bind (.expect "=") fun _ _ _ => .bind (hn.expressions n' hc) fun _ _ hs =>
            .bind .lastLine fun last last' _ =>
              .pure ⟨.cons he .nil, settleLast_folds hs last last'⟩

end Parses

/-! ## Operands in the place of paths -/

namespace Parses

variable (h : ∀ m ≤ n, Parses known m) (hc : Context.Same ctx ctx')
include h hc

/-- What follows a path follows the operand in its place. -/
theorem suffixed_agrees {k last last' l l' : Nat} {path inner ts ts' : List Lexeme} {root : String}
    {fields : List String} {e : Expr} (hk : k ≤ n + 1)
    (hp : path.map (·.token) = pathTokens root fields)
    (he : Enclosed (inner.map (·.token)) e)
    (hknown : known (root :: fields) (.mark "(" :: inner.map (·.token) ++ [.mark ")"]))
    (hs : Spliced known true ts ts') :
    Agree known false (Folds (Swaps known)) (Script.suffixed k ctx ⟨path ++ ts, last⟩)
      (Script.suffixed n' ctx' ⟨⟨.mark "(", l⟩ :: (inner ++ ⟨.mark ")", l'⟩ :: ts'), last'⟩) := by
  intro a s a' s' ha ha'
  obtain ⟨m, hm, e₀, last₀, hr, ha⟩ := suffixed_path hc.globals hp ha
  obtain ⟨m', e₁, he₁, ha'⟩ := suffixed_enclosed (hc.scope ▸ hc.globals) he ha'
  exact (h m (by omega)).suffixes m' hc (.swap ⟨_, _, hr, hknown, .enclosed he₁⟩) _ _ hs
    _ _ _ _ ha ha'

theorem suffixed_succ : Sim known false false (Script.suffixed (n + 1) ctx)
    (Script.suffixed n' ctx') (Folds (Swaps known)) := by
  have hn := h n (Nat.le_refl n)
  have same : Sim known true false (Script.suffixed (n + 1) ctx) (Script.suffixed n' ctx')
      (Folds (Swaps known)) := by
    unfold Script.suffixed
    cases n' with
    | zero => exact .right exhausted_ne
    | succ n' =>
      refine .current (fun t l l' => ?_) nofun
      dsimp only
      split
      · rename_i name
        rw [← hc.resolve]
        exact .advance (hn.suffixes n' hc (.refl _))
      · exact Sim.simAt <| .advance <| .bind (hn.expression n' hc 0) fun e e' he =>
          .bind (.close _ _ _ _) fun _ _ _ => .bind .lastLine fun last last' _ =>
            hn.suffixes n' hc (.node (.single (he.settle last last')))
      · exact Sim.simAt <| .left (fault_ne _)
  rintro ⟨ts, last⟩ ⟨ts', last'⟩ (hs : Spliced known false ts ts')
  cases hs with
  | nil => exact same _ _ (.nil _)
  | keep _ t l l' hs => exact same _ _ (.keep _ t l l' hs)
  | bare hp ha hk hnext hs =>
    -- A statement does not start with a number, and no target is one.
    intro a s a' s' _ e'
    exact (ha.suffixed_ne _ _ _ e').elim
  | enclosed hp he hk hnext hs => exact suffixed_agrees h hc (Nat.le_refl _) hp he hk hs

theorem operand_succ : Sim known false false (Script.operand (n + 1) ctx)
    (Script.operand n' ctx') (Folds (Swaps known)) := by
  have hn := h n (Nat.le_refl n)
  have same : Sim known true false (Script.operand (n + 1) ctx) (Script.operand n' ctx')
      (Folds (Swaps known)) := by
    unfold Script.operand
    cases n' with
    | zero => exact .right exhausted_ne
    | succ n' =>
      refine .current (fun t l l' => Sim.simAt ?_) nofun
      dsimp only
      split
      · exact .advance (.pure (.refl _))
      · exact .advance (.pure (.refl _))
      · exact .advance (.pure (.refl _))
      · exact .advance (.pure (.refl _))
      · exact .advance (.pure (.refl _))
      · exact .advance (.pure (.refl _))
      · rw [← hc.varargs]
        exact .ite (fun _ => .advance (.pure (.refl _))) fun _ => .left (fault_ne _)
      · exact (hn.tableConstructor n' hc).weaken _
      · exact .bind .currentLine fun line line' _ => .advance <|
          .bind (hn.functionBody n' hc false line line') fun f f' hf => .pure (.node (.lambda hf))
      · exact (hn.suffixed n' hc).weaken_in
  rintro ⟨ts, last⟩ ⟨ts', last'⟩ (hs : Spliced known false ts ts')
  cases hs with
  | nil => exact same _ _ (.nil _)
  | keep _ t l l' hs => exact same _ _ (.keep _ t l l' hs)
  | bare hp ha hk hnext hs =>
    intro a s a' s' e e'
    obtain ⟨l, us, rfl, -⟩ := tokens_cons hp
    obtain ⟨m, hm, e₀, last₀, hr, e⟩ :=
      suffixed_path hc.globals hp (operand_suffixed (.inl ⟨_, rfl⟩) e)
    cases suffixes_stop (first_extends hnext) e
    cases ha.operand e'
    exact ⟨.swap ⟨_, _, hr, hk, .bare ha⟩, hs.loosen⟩
  | enclosed hp he hk hnext hs =>
    intro a s a' s' e e'
    cases n' with
    | zero => exact (exhausted_ne _ _ (by unfold Script.operand at e'; exact e')).elim
    | succ n' =>
      obtain ⟨l, us, rfl, -⟩ := tokens_cons hp
      exact suffixed_agrees h hc (Nat.le_succ n) hp he hk hs _ _ _ _
        (operand_suffixed (.inl ⟨_, rfl⟩) e) (operand_suffixed (.inr rfl) e')

end Parses

/-- Every part of the grammar agrees on spliced tokens, however much fuel there is. -/
theorem parses (n : Nat) : Parses known n := by
  induction n using Nat.strongRecOn with
  | _ n ih =>
    cases n with
    | zero =>
      constructor
      all_goals
        intros
        refine .left fun r x => ?_
        simp only [expression, operators, operand, suffixed, suffixes, bracketed, arguments,
          expressions, tableConstructor, fields, field, keyedField, functionBody, block,
          giveStatement, statement, untilBlock, ifStatement, forStatement, bound,
          functionStatement, functionName, localStatement, expressionStatement, assignment]
        exact exhausted_ne r x
    | succ n =>
      have h : ∀ m ≤ n, Parses known m := fun m hm => ih m (Nat.lt_succ_of_le hm)
      have hn := h n (Nat.le_refl n)
      exact
        { expression := fun _ _ _ hc => hn.expression_succ hc
          operators := fun _ _ _ hc limit _ _ => hn.operators_succ hc limit
          operand := fun _ _ _ => Parses.operand_succ h
          suffixed := fun _ _ _ => Parses.suffixed_succ h
          suffixes := fun _ _ _ hc _ _ => hn.suffixes_succ hc
          bracketed := fun _ _ _ => hn.bracketed_succ
          arguments := fun _ _ _ => hn.arguments_succ
          expressions := fun _ _ _ => hn.expressions_succ
          tableConstructor := fun _ _ _ => hn.tableConstructor_succ
          fields := fun _ _ _ hc => hn.fields_succ hc
          field := fun _ _ _ => hn.field_succ
          keyedField := fun _ _ _ hc _ _ => hn.keyedField_succ hc
          functionBody := fun _ _ _ hc => hn.functionBody_succ hc
          block := fun _ _ _ => hn.block_succ
          giveStatement := fun _ _ _ => hn.giveStatement_succ
          statement := fun _ _ _ => hn.statement_succ
          untilBlock := fun _ _ _ hc => hn.untilBlock_succ hc
          ifStatement := fun _ _ _ hc => hn.ifStatement_succ hc
          forStatement := fun _ _ _ hc => hn.forStatement_succ hc
          bound := fun _ _ _ => hn.bound_succ
          functionStatement := fun _ _ _ hc => hn.functionStatement_succ hc
          functionName := fun _ _ _ => hn.functionName_succ
          localStatement := fun _ _ _ => hn.localStatement_succ
          expressionStatement := fun _ _ _ => hn.expressionStatement_succ
          assignment := fun _ _ _ hc _ _ => hn.assignment_succ hc }

/-! ## Programs -/

theorem Context.Same.start : Context.Same .start .start :=
  ⟨rfl, rfl, rfl, rfl, rfl⟩

theorem parseProgram_ok {cs : List Char} {body : FunctionBody} (h : parseProgram cs = .ok body) :
    ∃ b s, block (fuelFor (lex 1 cs)) Context.start ⟨lex 1 cs, 1⟩ = .ok (b, s) ∧
      body = ⟨0, true, b⟩ := by
  unfold parseProgram at h
  dsimp only at h
  split at h
  · rename_i x b s hx
    cases h
    obtain ⟨b', r, hb, hx⟩ := bind_ok.1 hx
    obtain ⟨⟨t, l⟩, r', -, hx⟩ := bind_ok.1 hx
    dsimp only at hx
    split at hx
    · cases hx
      exact ⟨_, _, hb, rfl⟩
    · exact (fault_ne _ _ _ hx).elim
  · cases h

/-- A program whose tokens are spliced into those of another one folds into it. -/
theorem parseProgram_folds {cs cs' : List Char} {body body' : FunctionBody}
    (hs : Spliced known false (lex 1 cs) (lex 1 cs')) (h : parseProgram cs = .ok body)
    (h' : parseProgram cs' = .ok body') : FunctionFolds (Swaps known) body body' := by
  obtain ⟨b, s, hb, rfl⟩ := parseProgram_ok h
  obtain ⟨b', s', hb', rfl⟩ := parseProgram_ok h'
  exact .mk 0 true ((parses _).block _ .start ⟨_, 1⟩ ⟨_, 1⟩ hs _ _ _ _ hb hb').1

end EnvManifest.Script
