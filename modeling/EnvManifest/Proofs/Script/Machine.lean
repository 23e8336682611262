import EnvManifest.Proofs.Script.Library
import EnvManifest.Script.Machine

/-!
# Runs of programs that fold

Two machines fold if they are about to do the same with programs that fold. Sites and origins do not
matter, as they show up in the text of errors only, and that text does not matter either. Each step
keeps this, but for an expression that is about to be evaluated while another one stands in its
place, and for an error that is about to be caught.
-/

namespace EnvManifest.Script

open List (Forall₂)

variable {swaps : Expr → Expr → Prop}

/-! ## States -/

inductive StoreFolds : Store → Store → Prop
  | cell (id : Nat) (d : Datum) : StoreFolds (.cell id d) (.cell id d)
  | field {a a' : Operand} (h : OperandFolds a a') (key d : Datum) :
    StoreFolds (.field a key d) (.field a' key d)

inductive AimFolds (swaps : Expr → Expr → Prop) : Aim → Aim → Prop
  | expr {e e' : Expr} (h : NodeFolds swaps e e') : AimFolds swaps (.expr e) (.expr e')
  | call {l l' : Nat} {o o' : Option Origin} (isLast : Bool) :
    AimFolds swaps (.call l o isLast) (.call l' o' isLast)
  | statement {t t' : Statement} {rest rest' : List Statement} (ht : StatementFolds swaps t t')
    (hr : Forall₂ (StatementFolds swaps) rest rest') :
    AimFolds swaps (.statement t rest) (.statement t' rest')
  | loop {b b' : List Statement} (h : Forall₂ (StatementFolds swaps) b b') :
    AimFolds swaps (.loop b) (.loop b')

inductive FrameFolds (swaps : Expr → Expr → Prop) : Frame → Frame → Prop
  | operands (s : Scope) (done : List Datum) {todo todo' : List Expr} (spread : Bool)
    {aim aim' : Aim} (ht : Forall₂ (Folds swaps) todo todo') (ha : AimFolds swaps aim aim') :
    FrameFolds swaps (.operands s done todo spread aim) (.operands s done todo' spread aim')
  | method (s : Scope) (object : Datum) {e e' : Expr} (isLast : Bool) (h : NodeFolds swaps e e') :
    FrameFolds swaps (.method s object e isLast) (.method s object e' isLast)
  | one : FrameFolds swaps .one .one
  | truth (expected : Bool) : FrameFolds swaps (.truth expected) (.truth expected)
  | drop : FrameFolds swaps .drop .drop
  | join (site site' : Site) {before before' : List Operand}
    (h : Forall₂ OperandFolds before before') :
    FrameFolds swaps (.join site before) (.join site' before')
  | stores {site site' : Site} {more more' : List Store} (h : Forall₂ StoreFolds more more') :
    FrameFolds swaps (.stores site more) (.stores site' more')
  | rest (s : Scope) {b b' : List Statement} (h : Forall₂ (StatementFolds swaps) b b') :
    FrameFolds swaps (.rest s b) (.rest s b')
  | whileLoop (s : Scope) {e e' : Expr} {b b' : List Statement} (he : Folds swaps e e')
    (hb : Forall₂ (StatementFolds swaps) b b') :
    FrameFolds swaps (.whileLoop s e b) (.whileLoop s e' b')
  | repeatLoop (s : Scope) {b b' : List Statement} (h : Forall₂ (StatementFolds swaps) b b') :
    FrameFolds swaps (.repeatLoop s b) (.repeatLoop s b')
  | countLoop (s : Scope) (next step : Int64) (left : Nat) {b b' : List Statement}
    (h : Forall₂ (StatementFolds swaps) b b') :
    FrameFolds swaps (.countLoop s next step left b) (.countLoop s next step left b')
  | floatLoop (s : Scope) (next stop step : Float) {b b' : List Statement}
    (h : Forall₂ (StatementFolds swaps) b b') :
    FrameFolds swaps (.floatLoop s next stop step b) (.floatLoop s next stop step b')
  | eachLoop (s : Scope) {l l' : Nat} (count : Nat) (f state control : Datum)
    {b b' : List Statement} (h : Forall₂ (StatementFolds swaps) b b') :
    FrameFolds swaps (.eachLoop s l count f state control b)
      (.eachLoop s l' count f state control b')
  | call (site site' : Option Site) : FrameFolds swaps (.call site) (.call site')
  | giveBack : FrameFolds swaps .giveBack .giveBack
  | after (site site' : Option Site) (a : After) :
    FrameFolds swaps (.after site a) (.after site' a)

inductive ControlFolds (swaps : Expr → Expr → Prop) : Control → Control → Prop
  | eval (s : Scope) {e e' : Expr} (h : Folds swaps e e') :
    ControlFolds swaps (.eval s e) (.eval s e')
  | exec (s : Scope) {b b' : List Statement} (h : Forall₂ (StatementFolds swaps) b b') :
    ControlFolds swaps (.exec s b) (.exec s b')
  | give (values : List Datum) : ControlFolds swaps (.give values) (.give values)
  | next : ControlFolds swaps .next .next
  | leave : ControlFolds swaps .leave .leave
  | back (values : List Datum) : ControlFolds swaps (.back values) (.back values)
  | raise (d d' : Datum) : ControlFolds swaps (.raise d) (.raise d')
  | call {site site' : Option Site} {o o' : Option Origin} (f : Datum) (args : List Datum) :
    ControlFolds swaps (.call site o f args) (.call site' o' f args)
  | store {site site' : Site} {stores stores' : List Store} (h : Forall₂ StoreFolds stores stores') :
    ControlFolds swaps (.store site stores) (.store site' stores')

structure MachineFolds (swaps : Expr → Expr → Prop) (m m' : Machine) : Prop where
  heap : HeapFolds swaps m.heap m'.heap
  control : ControlFolds swaps m.control m'.control
  frames : Forall₂ (FrameFolds swaps) m.frames m'.frames
  depth : m.depth = m'.depth

namespace Machine

variable {h h' : Heap} {fs fs' : List Frame} {depth : Nat}
  (hh : HeapFolds swaps h h') (hf : Forall₂ (FrameFolds swaps) fs fs')

/-! ## Values -/

theorem sameOperand (d : Datum) (o o' : Option Origin) : OperandFolds ⟨d, o⟩ ⟨d, o'⟩ := rfl

theorem fieldOperands_folds {fields fields' : List Field}
    (h : Forall₂ (FieldFolds swaps) fields fields') :
    Forall₂ (Folds swaps) (fieldOperands fields).1 (fieldOperands fields').1 ∧
      (fieldOperands fields).2 = (fieldOperands fields').2 := by
  induction h with
  | nil => exact ⟨.nil, rfl⟩
  | @cons f f' more more' hf hm ih =>
    cases hf with
    | item he =>
      cases hm with
      | nil => exact ⟨.cons he .nil, rfl⟩
      | cons => exact ⟨.cons he ih.1, ih.2⟩
    | keyed hk hv => exact ⟨.cons hk (.cons hv ih.1), ih.2⟩

include hh hf in
theorem collect_folds (s : Scope) {todo todo' : List Expr} (ht : Forall₂ (Folds swaps) todo todo')
    (spread : Bool) {aim aim' : Aim} (ha : AimFolds swaps aim aim')
    {finish finish' : List Datum → Machine}
    (hd : ∀ values, MachineFolds swaps (finish values) (finish' values)) :
    MachineFolds swaps (collect h fs depth s todo spread aim finish)
      (collect h' fs' depth s todo' spread aim' finish') := by
  cases ht with
  | nil => exact hd []
  | cons he hm => exact ⟨hh, .eval s he, .cons (.operands s [] spread hm ha) hf, rfl⟩

include hh hf in
theorem operated_folds (site site' : Site) {o o' : Operated} (ho : o.Alike o') :
    MachineFolds swaps (operated h fs depth site o) (operated h' fs' depth site' o') := by
  cases ho with
  | fault m m' => exact ⟨hh, .raise _ _, hf, rfl⟩
  | same o =>
    cases o with
    | done d => exact ⟨hh, .give _, hf, rfl⟩
    | call f a b => exact ⟨hh, .call f _, .cons .one hf, rfl⟩
    | test f a b result => exact ⟨hh, .call f _, .cons (.truth result) hf, rfl⟩
    | fault message => exact ⟨hh, .raise _ _, hf, rfl⟩

include hh hf in
theorem index_folds (site site' : Site) {a a' : Operand} (ha : OperandFolds a a') (key : Datum) :
    MachineFolds swaps (index h fs depth site a key) (index h' fs' depth site' a' key) := by
  unfold index
  rw [hh.index, ha]
  split
  · exact ⟨hh, .give _, hf, rfl⟩
  · exact ⟨hh, .call _ _, .cons .one hf, rfl⟩
  · exact operated_folds hh hf _ _ (.fault _ _)
  · exact ⟨hh, .raise _ _, hf, rfl⟩

include hh hf in
theorem join_folds (site site' : Site) {operands operands' : List Operand}
    (ho : Forall₂ OperandFolds operands operands') :
    MachineFolds swaps (join h fs depth site operands) (join h' fs' depth site' operands') := by
  match operands, operands', ho with
  | [], [], .nil =>
    rw [join, join]
    exact ⟨hh, .give _, hf, rfl⟩
  | [a], [a'], .cons ha .nil =>
    rw [join, join, ha]
    exact ⟨hh, .give _, hf, rfl⟩
  | b :: a :: before, b' :: a' :: before', .cons hb (.cons ha hm) =>
    have hj := hh.joined_alike ha hb
    rw [join, join]
    generalize h.joined a b = o at hj
    generalize h'.joined a' b' = o' at hj
    have stopped := @operated_folds _ _ _ _ _ depth hh
      (.cons (.join site site' hm) hf) site site' _ _ hj
    cases hj with
    | fault => exact stopped
    | same o =>
      cases o with
      | done d => exact join_folds site site' (.cons (sameOperand d _ _) hm)
      | _ => exact stopped
termination_by operands.length

/-! ## Calls -/

omit hh in
include hf in
theorem callers_folds : Forall₂ (FrameFolds swaps) (callers fs) (callers fs') := by
  induction hf with
  | nil => exact .nil
  | cons h hs ih =>
    cases h with
    | call site site' => exact .cons (.call site site') hs
    | _ => exact ih

include hh hf in
theorem invoke_folds (site site' : Site) (o o' : Option Origin) (isLast : Bool) (f : Datum)
    (args : List Datum) :
    MachineFolds swaps (invoke h fs depth site o isLast f args)
      (invoke h' fs' depth site' o' isLast f args) := by
  have hc := callers_folds hf
  unfold invoke
  split
  · generalize callers fs = cs at hc
    generalize callers fs' = cs' at hc
    cases hc with
    | nil => exact ⟨hh, .call _ _, .nil, rfl⟩
    | cons hc hs =>
      cases hc with
      | call => exact ⟨hh, .call _ _, hs, rfl⟩
      | _ => exact ⟨hh, .call _ _, .cons (by constructor <;> assumption) hs, rfl⟩
  · exact ⟨hh, .call _ _, .cons .giveBack hf, rfl⟩
  · exact ⟨hh, .call _ _, hf, rfl⟩

include hh hf in
theorem enter_folds (site site' : Option Site) {c c' : Closure} (hc : ClosureFolds swaps c c')
    (args : List Datum) :
    MachineFolds swaps (enter h fs depth site c args) (enter h' fs' depth site' c' args) := by
  obtain ⟨⟨params, varargs, body⟩, scope⟩ := c
  obtain ⟨⟨params', varargs', body'⟩, scope'⟩ := c'
  obtain ⟨hb, rfl : scope = scope'⟩ := hc
  cases hb with | mk params varargs hb =>
  unfold enter
  split
  · exact ⟨hh, .raise _ _, hf, rfl⟩
  · have hn := hh.newCells (adjust params args) scope.cells
    dsimp only
    rw [← hn.2]
    exact ⟨hn.1, .exec _ hb, .cons (.call site site') hf, rfl⟩

include hf in
theorem answer_folds (site site' : Option Site) (o o' : Option Origin) (f : Native)
    (r : Except Interruption (List Datum)) {g g' : Heap} (hg : HeapFolds swaps g g') :
    MachineFolds swaps (answer fs depth site o f (r, g)) (answer fs' depth site' o' f (r, g')) := by
  rcases r with ((d | ⟨level, message⟩ | ⟨i, e⟩ | ⟨k, args, a⟩) | values)
  · exact ⟨hg, .raise _ _, hf, rfl⟩
  · exact ⟨hg, .raise _ _, hf, rfl⟩
  · exact ⟨hg, .raise _ _, hf, rfl⟩
  · exact ⟨hg, .call _ _, .cons (.after _ _ a) hf, rfl⟩
  · exact ⟨hg, .give _, hf, rfl⟩

include hh hf in
theorem call_folds (host : Host) (site site' : Option Site) (o o' : Option Origin) (f : Datum)
    (args : List Datum) :
    MachineFolds swaps (call host h fs depth site o f args)
      (call host h' fs' depth site' o' f args) := by
  cases f with
  | closure id =>
    have hc := hh.closures id
    unfold call
    dsimp only
    generalize h.closures[id]? = c at hc
    generalize h'.closures[id]? = c' at hc
    cases hc with
    | none => exact ⟨hh, .give _, hf, rfl⟩
    | some hc => exact enter_folds hh hf site site' hc args
  | native n =>
    have hn := n.work_steady host args h h' hh
    unfold call
    dsimp only
    generalize ((n.work host args).run).run h = x at hn
    generalize ((n.work host args).run).run h' = x' at hn
    obtain ⟨r, g⟩ := x
    obtain ⟨r', g'⟩ := x'
    obtain ⟨rfl, hg⟩ := hn
    exact answer_folds hf site site' o o' n r hg
  | _ =>
    simp only [call, hh.behaviour]
    split
    · exact ⟨hh, .raise _ _, hf, rfl⟩
    · exact ⟨hh, .call _ _, hf, rfl⟩

/-! ## Loops -/

theorem countFrame_folds (s : Scope) (start stop step : Datum) {b b' : List Statement}
    (hb : Forall₂ (StatementFolds swaps) b b') :
    (∃ e, countFrame s start stop step b = .error e ∧ countFrame s start stop step b' = .error e) ∨
      (countFrame s start stop step b = .ok none ∧ countFrame s start stop step b' = .ok none) ∨
      ∃ f f', FrameFolds swaps f f' ∧ countFrame s start stop step b = .ok (some f) ∧
        countFrame s start stop step b' = .ok (some f') := by
  unfold countFrame
  split
  · split
    · exact .inl ⟨_, rfl, rfl⟩
    · split
      · exact .inl ⟨_, rfl, rfl⟩
      · split
        · exact .inr (.inl ⟨rfl, rfl⟩)
        · dsimp only
          generalize (if (_ : Int64) < _ then _ else _ : Int) = distance
          split
          · exact .inr (.inl ⟨rfl, rfl⟩)
          · exact .inr (.inr ⟨_, _, .countLoop s _ _ _ hb, rfl, rfl⟩)
  · split
    · exact .inl ⟨_, rfl, rfl⟩
    · exact .inl ⟨_, rfl, rfl⟩
    · exact .inl ⟨_, rfl, rfl⟩
    · split
      · exact .inl ⟨_, rfl, rfl⟩
      · exact .inr (.inr ⟨_, _, .floatLoop s _ _ _ hb, rfl, rfl⟩)

include hh hf in
theorem round_folds (s : Scope) (values : List Datum) {b b' : List Statement}
    (hb : Forall₂ (StatementFolds swaps) b b') :
    MachineFolds swaps (round h fs depth s values b) (round h' fs' depth s values b') := by
  have hn := hh.newCells values s.cells
  unfold round
  dsimp only
  rw [← hn.2]
  exact ⟨hn.1, .exec _ hb, hf, rfl⟩

/-! ## Expressions -/

include hh hf in
/-- The start of two expressions of one form. -/
theorem eval_folds (s : Scope) {e e' : Expr} (he : NodeFolds swaps e e') :
    MachineFolds swaps (eval h fs depth s e) (eval h' fs' depth s e') := by
  have hn := he
  cases he with
  | nil | bool | int | float | str | varargs => exact ⟨hh, .give _, hf, rfl⟩
  | var v =>
    unfold eval
    dsimp only
    rw [hh.valueOf]
    exact ⟨hh, .give _, hf, rfl⟩
  | @lambda f f' hl =>
    obtain ⟨hl, hi⟩ := hh.newClosure (show ClosureFolds swaps ⟨f, s⟩ ⟨f', s⟩ from ⟨hl, rfl⟩)
    simp only [eval]
    rw [← hi]
    exact ⟨hl, .give _, hf, rfl⟩
  | index ho hk =>
    exact ⟨hh, .eval s ho, .cons (.operands s [] false (.cons hk .nil) (.expr hn)) hf, rfl⟩
  | call hc ha =>
    exact ⟨hh, .eval s hc, .cons (.operands s [] true ha (.call false)) hf, rfl⟩
  | method name ho ha =>
    exact ⟨hh, .eval s ho, .cons (.operands s [] false .nil (.expr hn)) hf, rfl⟩
  | single h1 => exact ⟨hh, .eval s h1, .cons .one hf, rfl⟩
  | unary op h1 => exact ⟨hh, .eval s h1, .cons (.operands s [] false .nil (.expr hn)) hf, rfl⟩
  | binary op ha hb =>
    exact ⟨hh, .eval s ha, .cons (.operands s [] false (.cons hb .nil) (.expr hn)) hf, rfl⟩
  | concat hes =>
    simp only [eval, collectFor]
    exact collect_folds hh hf s hes false (.expr hn) fun _ => ⟨hh, .give [], hf, rfl⟩
  | both ha hb => exact ⟨hh, .eval s ha, .cons (.operands s [] false .nil (.expr hn)) hf, rfl⟩
  | either ha hb => exact ⟨hh, .eval s ha, .cons (.operands s [] false .nil (.expr hn)) hf, rfl⟩
  | table hfs =>
    obtain ⟨ht, hs⟩ := fieldOperands_folds hfs
    simp only [eval, collectFor, hs]
    refine collect_folds hh hf s ht _ (.expr hn) fun _ => ?_
    obtain ⟨hn, hi⟩ := hh.newTable .empty
    rw [← hi]
    exact ⟨hn, .give _, hf, rfl⟩

theorem fieldValues_folds {fields fields' : List Field}
    (hfs : Forall₂ (FieldFolds swaps) fields fields') (values : List Datum) :
    (fieldValues fields values).1 = (fieldValues fields' values).1 ∧
      Forall₂ (fun x y => x.2 = y.2) (fieldValues fields values).2
        (fieldValues fields' values).2 := by
  induction hfs generalizing values with
  | nil => exact ⟨rfl, .nil⟩
  | @cons f f' more more' hf1 hm ih =>
    cases hf1 with
    | item he =>
      cases hm with
      | nil => exact ⟨rfl, .nil⟩
      | cons =>
        cases values with
        | nil => exact ⟨rfl, .nil⟩
        | cons v values => exact ⟨congrArg (v :: ·) (ih values).1, (ih values).2⟩
    | keyed hk hv =>
      match values with
      | [] | [_] => exact ⟨rfl, .nil⟩
      | k :: v :: values => exact ⟨(ih values).1, .cons rfl (ih values).2⟩

/-- Entries that differ in their lines have a key that is refused, or none of them has. -/
theorem findFault_folds {xs ys : List (Nat × Datum × Datum)}
    (h : Forall₂ (fun x y => x.2 = y.2) xs ys) :
    (xs.findSome? fun (line, k, _) => (Library.keyFault? k).map fun f => (line, f)).isSome =
      (ys.findSome? fun (line, k, _) => (Library.keyFault? k).map fun f => (line, f)).isSome := by
  induction h with
  | nil => rfl
  | @cons x y _ _ hxy _ ih =>
    simp only [List.findSome?_cons, hxy]
    cases Library.keyFault? y.2.1 with
    | none => exact ih
    | some => rfl

theorem foldl_set_folds {xs ys : List (Nat × Datum × Datum)}
    (h : Forall₂ (fun x y => x.2 = y.2) xs ys) (t : Table) :
    xs.foldl (fun t (_, k, v) => t.set k v) t = ys.foldl (fun t (_, k, v) => t.set k v) t := by
  induction h generalizing t with
  | nil => rfl
  | cons hxy _ ih => simp only [List.foldl_cons, hxy, ih]

/-- The same table, or a key that is refused in both. -/
theorem tableOf_folds {fields fields' : List Field}
    (hfs : Forall₂ (FieldFolds swaps) fields fields') (values : List Datum) :
    (∃ e e', tableOf fields values = .error e ∧ tableOf fields' values = .error e') ∨
      ∃ t, tableOf fields values = .ok t ∧ tableOf fields' values = .ok t := by
  obtain ⟨hi, he⟩ := fieldValues_folds hfs values
  have hf := findFault_folds he
  unfold tableOf
  dsimp only
  rw [hi, foldl_set_folds he, he.length_eq]
  generalize (fieldValues fields values).2.findSome? _ = f at hf
  generalize (fieldValues fields' values).2.findSome? _ = f' at hf
  cases f with
  | none =>
    cases f' with
    | none => exact .inr ⟨_, rfl, rfl⟩
    | some e' => simp at hf
  | some e =>
    cases f' with
    | none => simp at hf
    | some e' => exact .inl ⟨e, e', rfl, rfl⟩

theorem operandsOf_folds {es es' : List Expr} (he : Forall₂ (Folds swaps) es es')
    (values : List Datum) :
    Forall₂ OperandFolds ((values.zip es).map fun (d, e) => ⟨d, e.origin?⟩)
      ((values.zip es').map fun (d, e) => ⟨d, e.origin?⟩) := by
  induction he generalizing values with
  | nil => simp
  | cons _ _ ih =>
    cases values with
    | nil => exact .nil
    | cons d values => exact .cons rfl (ih values)

include hh hf in
/-- The end of two expressions of one form. -/
theorem finishExpr_folds (s : Scope) {e e' : Expr} (he : NodeFolds swaps e e')
    (values : List Datum) :
    MachineFolds swaps (finishExpr h fs depth s e values)
      (finishExpr h' fs' depth s e' values) := by
  have hn := he
  have given : MachineFolds swaps ⟨h, .give values, fs, depth⟩ ⟨h', .give values, fs', depth⟩ :=
    ⟨hh, .give _, hf, rfl⟩
  cases he with
  | index =>
    match values with
    | [a, key] => exact index_folds hh hf _ _ (sameOperand a _ _) key
    | [] | [_] | _ :: _ :: _ :: _ => exact given
  | method name =>
    match values with
    | [a] =>
      exact index_folds hh (.cons (.method s a false hn) hf) _ _ (sameOperand a _ _) _
    | [] | _ :: _ :: _ => exact given
  | unary op =>
    match values with
    | [a] => exact operated_folds hh hf _ _ (hh.unary_alike op (sameOperand a _ _))
    | [] | _ :: _ :: _ => exact given
  | binary op =>
    match values with
    | [a, b] => exact operated_folds hh hf _ _ (hh.binary_alike op (sameOperand a _ _) (sameOperand b _ _))
    | [] | [_] | _ :: _ :: _ :: _ => exact given
  | concat hes =>
    exact join_folds hh hf _ _ (List.forall₂_reverse_iff.2 (operandsOf_folds hes values))
  | both ha hb =>
    match values with
    | [a] =>
      simp only [finishExpr]
      split
      · exact ⟨hh, .eval s hb, .cons .one hf, rfl⟩
      · exact ⟨hh, .give _, hf, rfl⟩
    | [] | _ :: _ :: _ => exact given
  | either ha hb =>
    match values with
    | [a] =>
      simp only [finishExpr]
      split
      · exact ⟨hh, .give _, hf, rfl⟩
      · exact ⟨hh, .eval s hb, .cons .one hf, rfl⟩
    | [] | _ :: _ :: _ => exact given
  | table hfs =>
    simp only [finishExpr]
    obtain ⟨e, e', he, he'⟩ | ⟨t, ht, ht'⟩ := tableOf_folds hfs values
    · rw [he, he']
      exact ⟨hh, .raise _ _, hf, rfl⟩
    · rw [ht, ht']
      obtain ⟨hn, hi⟩ := hh.newTable t
      dsimp only
      rw [← hi]
      exact ⟨hn, .give _, hf, rfl⟩
  | _ => exact given

/-! ## Statements -/

theorem targetOperands_folds {ts ts' : List Expr} (ht : Forall₂ (NodeFolds swaps) ts ts') :
    Forall₂ (Folds swaps) (targetOperands ts) (targetOperands ts') := by
  induction ht with
  | nil => exact .nil
  | cons h _ ih =>
    cases h with
    | index ho hk => exact .cons ho (.cons hk ih)
    | _ => exact ih

theorem storesOf_folds (s : Scope) {ts ts' : List Expr} (ht : Forall₂ (NodeFolds swaps) ts ts')
    (places values : List Datum) {done done' : List Store} (hd : Forall₂ StoreFolds done done') :
    Forall₂ StoreFolds (storesOf s ts places values done) (storesOf s ts' places values done') := by
  induction ht generalizing places values done done' with
  | nil => exact hd
  | cons h _ ih =>
    cases h with
    | index ho hk =>
      match places with
      | [] | [_] => exact hd
      | a :: key :: places =>
        exact ih places values.tail (.cons (.field (sameOperand a _ _) key (first values)) hd)
    | var v =>
      refine ih places values.tail ?_
      cases s.cells[v.index]? with
      | none => exact hd
      | some id => exact .cons (.cell id (first values)) hd
    | _ => exact hd

omit hh in
include hf in
theorem follow_folds (s : Scope) {rest rest' : List Statement}
    (hr : Forall₂ (StatementFolds swaps) rest rest') :
    Forall₂ (FrameFolds swaps) (follow s rest fs) (follow s rest' fs') := by
  cases hr with
  | nil => exact hf
  | cons h hm => exact .cons (.rest s (.cons h hm)) hf

/-- A single value that is no call is given back like several of them. -/
theorem execOne_give (h : Heap) (fs : List Frame) (depth : Nat) (s : Scope) {e : Expr}
    (he : e.isCall = false) (rest : List Statement) :
    execOne h fs depth s (.give [e]) rest =
      collect h fs depth s [e] true (.statement (.give [e]) rest) fun _ =>
        ⟨h, .back [], fs, depth⟩ := by
  cases e with
  | call => simp [Expr.isCall] at he
  | method => simp [Expr.isCall] at he
  | _ => rfl

variable (hs : ∀ e e', swaps e e' → e.isCall = false ∧ e'.isCall = false)

include hh hf hs in
theorem execOne_give_folds (s : Scope) {vs vs' : List Expr} (hv : Forall₂ (Folds swaps) vs vs')
    {rest rest' : List Statement} (hr : Forall₂ (StatementFolds swaps) rest rest') :
    MachineFolds swaps (execOne h fs depth s (.give vs) rest)
      (execOne h' fs' depth s (.give vs') rest') := by
  have ha : AimFolds swaps (.statement (.give vs) rest) (.statement (.give vs') rest') :=
    .statement (.give hv) hr
  have hd : MachineFolds swaps ⟨h, .back [], fs, depth⟩ ⟨h', .back [], fs', depth⟩ :=
    ⟨hh, .back _, hf, rfl⟩
  match vs, vs', hv with
  | [], [], .nil => exact hd
  | e :: e₂ :: es, e' :: e₂' :: es', hv =>
    simp only [execOne]
    exact collect_folds hh hf s hv true ha fun _ => hd
  | [e], [e'], .cons he .nil =>
    have plain : e.isCall = false → e'.isCall = false →
        MachineFolds swaps (execOne h fs depth s (.give [e]) rest)
          (execOne h' fs' depth s (.give [e']) rest') := by
      intro h1 h2
      rw [execOne_give _ _ _ _ h1, execOne_give _ _ _ _ h2]
      exact collect_folds hh hf s (.cons he .nil) true ha fun _ => hd
    cases he with
    | swap hsw => exact plain (hs _ _ hsw).1 (hs _ _ hsw).2
    | node hn =>
      cases hn with
      | call hc hargs => exact ⟨hh, .eval s hc, .cons (.operands s [] true hargs (.call true)) hf, rfl⟩
      | method name ho hargs =>
        exact ⟨hh, .eval s ho, .cons (.operands s [] false .nil
          (.statement (.give (.cons (.node (.method name ho hargs)) .nil)) .nil)) hf, rfl⟩
      | _ => exact plain rfl rfl

include hh hf hs in
theorem execOne_folds (s : Scope) {t t' : Statement} (ht : StatementFolds swaps t t')
    {rest rest' : List Statement} (hr : Forall₂ (StatementFolds swaps) rest rest') :
    MachineFolds swaps (execOne h fs depth s t rest) (execOne h' fs' depth s t' rest') := by
  have ha : AimFolds swaps (.statement t rest) (.statement t' rest') := .statement ht hr
  have hfol := follow_folds hf s hr
  have hnext : MachineFolds swaps ⟨h, .next, follow s rest fs, depth⟩
      ⟨h', .next, follow s rest' fs', depth⟩ := ⟨hh, .next, hfol, rfl⟩
  cases ht with
  | call he => exact ⟨hh, .eval s he, .cons .drop hfol, rfl⟩
  | declare count hv =>
    obtain ⟨hn, hc⟩ := hh.newCells (List.replicate count .nil) s.cells
    simp only [execOne]
    refine collect_folds hh hf s hv true ha fun _ => ?_
    rw [← hc]
    exact ⟨hn, .exec _ hr, hf, rfl⟩
  | @declareFunction f f' hl =>
    obtain ⟨hn, hc⟩ := hh.newCell .nil
    simp only [execOne]
    rw [← hc]
    obtain ⟨hl, hi⟩ := hn.newClosure (show ClosureFolds swaps
      ⟨f, { s with cells := (h.newCell .nil).2 :: s.cells }⟩
      ⟨f', { s with cells := (h.newCell .nil).2 :: s.cells }⟩ from ⟨hl, rfl⟩)
    rw [← hi]
    exact ⟨hl.setCell _ _, .exec _ hr, hf, rfl⟩
  | assign htg hv =>
    exact collect_folds hh hfol s (List.rel_append (targetOperands_folds htg) hv) true ha fun _ => hnext
  | block hb => exact ⟨hh, .exec s hb, hfol, rfl⟩
  | whileLoop he hb => exact ⟨hh, .next, .cons (.whileLoop s he hb) hfol, rfl⟩
  | repeatLoop hb => exact ⟨hh, .next, .cons (.repeatLoop s hb) hfol, rfl⟩
  | untilTest he => exact ⟨hh, .eval s he, .cons (.operands s [] false .nil ha) hfol, rfl⟩
  | branch he hy hn => exact ⟨hh, .eval s he, .cons (.operands s [] false .nil ha) hfol, rfl⟩
  | countLoop h1 h2 h3 hb =>
    exact ⟨hh, .eval s h1, .cons (.operands s [] false (.cons h2 (.cons h3 .nil)) ha) hfol, rfl⟩
  | eachLoop count hv hb => exact collect_folds hh hfol s hv true ha fun _ => hnext
  | leave => exact ⟨hh, .leave, hf, rfl⟩
  | give hv => exact execOne_give_folds hh hf hs s hv hr

theorem finishStatement_give (h : Heap) (fs : List Frame) (depth : Nat) (s : Scope) {e : Expr}
    (he : e.isCall = false) (rest : List Statement) (values : List Datum) :
    finishStatement h fs depth s (.give [e]) rest values = ⟨h, .back values, fs, depth⟩ := by
  cases e with
  | call => simp [Expr.isCall] at he
  | method => simp [Expr.isCall] at he
  | _ => rfl

include hh hf hs in
theorem finishStatement_give_folds (s : Scope) {vs vs' : List Expr}
    (hv : Forall₂ (Folds swaps) vs vs') (rest rest' : List Statement) (values : List Datum) :
    MachineFolds swaps (finishStatement h fs depth s (.give vs) rest values)
      (finishStatement h' fs' depth s (.give vs') rest' values) := by
  have hd : MachineFolds swaps ⟨h, .back values, fs, depth⟩ ⟨h', .back values, fs', depth⟩ :=
    ⟨hh, .back _, hf, rfl⟩
  match vs, vs', hv with
  | [], [], .nil => exact hd
  | e :: e₂ :: es, e' :: e₂' :: es', hv =>
    simp only [finishStatement]
    exact hd
  | [e], [e'], .cons he .nil =>
    have plain : e.isCall = false → e'.isCall = false →
        MachineFolds swaps (finishStatement h fs depth s (.give [e]) rest values)
          (finishStatement h' fs' depth s (.give [e']) rest' values) := by
      intro h1 h2
      rw [finishStatement_give _ _ _ _ h1, finishStatement_give _ _ _ _ h2]
      exact hd
    cases he with
    | swap hsw => exact plain (hs _ _ hsw).1 (hs _ _ hsw).2
    | node hn =>
      have hm := hn
      cases hn with
      | call => exact hd
      | method name ho hargs =>
        match values with
        | [a] => exact index_folds hh (.cons (.method s a true hm) hf) _ _ (sameOperand a _ _) _
        | [] | _ :: _ :: _ => exact hd
      | _ => exact plain rfl rfl

include hh hf hs in
theorem finishStatement_folds (s : Scope) {t t' : Statement} (ht : StatementFolds swaps t t')
    {rest rest' : List Statement} (hr : Forall₂ (StatementFolds swaps) rest rest')
    (values : List Datum) :
    MachineFolds swaps (finishStatement h fs depth s t rest values)
      (finishStatement h' fs' depth s t' rest' values) := by
  have hnext : MachineFolds swaps ⟨h, .next, fs, depth⟩ ⟨h', .next, fs', depth⟩ :=
    ⟨hh, .next, hf, rfl⟩
  cases ht with
  | declare count hv =>
    obtain ⟨hn, hc⟩ := hh.newCells (adjust count values) s.cells
    simp only [finishStatement]
    rw [← hc]
    exact ⟨hn, .exec _ hr, hf, rfl⟩
  | assign htg hv =>
    have hp := (targetOperands_folds htg).length_eq
    simp only [finishStatement, hp]
    exact ⟨hh, .store (storesOf_folds s htg _ _ .nil), hf, rfl⟩
  | untilTest he =>
    simp only [finishStatement]
    split
    · exact ⟨hh, .leave, hf, rfl⟩
    · exact hnext
  | branch he hy hn =>
    simp only [finishStatement]
    split
    · exact ⟨hh, .exec s hy, hf, rfl⟩
    · exact ⟨hh, .exec s hn, hf, rfl⟩
  | countLoop h1 h2 h3 hb =>
    match values with
    | [start, stop, step] =>
      simp only [finishStatement]
      obtain ⟨e, he, he'⟩ | ⟨hn, hn'⟩ | ⟨f, f', hff, hk, hk'⟩ :=
        countFrame_folds s start stop step hb
      · rw [he, he']
        exact ⟨hh, .raise _ _, hf, rfl⟩
      · rw [hn, hn']
        exact hnext
      · rw [hk, hk']
        exact ⟨hh, .next, .cons hff hf, rfl⟩
    | [] | [_] | [_, _] | _ :: _ :: _ :: _ :: _ => exact hnext
  | eachLoop count hv hb => exact ⟨hh, .next, .cons (.eachLoop s count _ _ _ hb) hf, rfl⟩
  | give hv => exact finishStatement_give_folds hh hf hs s hv rest rest' values
  | _ => exact hnext

include hh hf in
theorem store_folds (site site' : Site) {stores stores' : List Store}
    (hst : Forall₂ StoreFolds stores stores') :
    MachineFolds swaps (store h fs depth site stores) (store h' fs' depth site' stores') := by
  cases hst with
  | nil => exact ⟨hh, .next, hf, rfl⟩
  | cons h1 hm =>
    cases h1 with
    | cell id d => exact ⟨hh.setCell id d, .store hm, hf, rfl⟩
    | field ha key d =>
      simp only [store, show Operand.datum _ = _ from ha, hh.target]
      split
      · split
        · exact ⟨hh, .raise _ _, hf, rfl⟩
        · exact ⟨hh.setTable _ key d, .store hm, hf, rfl⟩
      · exact ⟨hh, .call _ _, .cons (.stores hm) hf, rfl⟩
      · exact operated_folds hh hf _ _ (.fault _ _)
      · exact ⟨hh, .raise _ _, hf, rfl⟩

/-! ## Frames -/

include hh hf hs in
theorem finish_folds (s : Scope) (values : List Datum) {aim aim' : Aim}
    (ha : AimFolds swaps aim aim') :
    MachineFolds swaps (finish h fs depth s values aim) (finish h' fs' depth s values aim') := by
  cases ha with
  | expr he => exact finishExpr_folds hh hf s he values
  | call isLast => exact invoke_folds hh hf _ _ _ _ isLast _ _
  | statement ht hr => exact finishStatement_folds hh hf hs s ht hr values
  | loop hb =>
    simp only [finish]
    split
    · exact ⟨hh, .exec s hb, hf, rfl⟩
    · exact ⟨hh, .leave, hf, rfl⟩

include hh hf in
theorem giveAfter_folds (values : List Datum) (a : After) :
    MachineFolds swaps (giveAfter h fs depth values a) (giveAfter h' fs' depth values a) := by
  cases a with
  | text =>
    simp only [giveAfter]
    split
    · exact ⟨hh, .give _, hf, rfl⟩
    · exact ⟨hh, .raise _ _, hf, rfl⟩
  | _ => exact ⟨hh, .give _, hf, rfl⟩

include hh hf hs in
theorem give_folds (values : List Datum) {f f' : Frame} (hff : FrameFolds swaps f f') :
    MachineFolds swaps (give h fs depth values f) (give h' fs' depth values f') := by
  cases hff with
  | operands s done spread ht ha =>
    cases ht with
    | nil => exact finish_folds hh hf hs s _ ha
    | cons he hm => exact ⟨hh, .eval s he, .cons (.operands s _ spread hm ha) hf, rfl⟩
  | method s object isLast hn =>
    cases hn with
    | method name ho hargs =>
      cases hargs with
      | nil => exact finish_folds hh hf hs s _ (.call isLast)
      | cons he hm =>
        exact ⟨hh, .eval s he, .cons (.operands s _ true hm (.call isLast)) hf, rfl⟩
    | _ => exact ⟨hh, .give _, hf, rfl⟩
  | one | truth => exact ⟨hh, .give _, hf, rfl⟩
  | drop => exact ⟨hh, .next, hf, rfl⟩
  | join site site' hb => exact join_folds hh hf _ _ (.cons (sameOperand _ _ _) hb)
  | stores hm => exact ⟨hh, .store hm, hf, rfl⟩
  | rest s hb => exact ⟨hh, .exec s hb, hf, rfl⟩
  | eachLoop s count k state control hb =>
    simp only [give]
    split
    · exact ⟨hh, .next, hf, rfl⟩
    · exact round_folds hh (.cons (.eachLoop s count k state _ hb) hf) s _ hb
  | giveBack => exact ⟨hh, .back _, hf, rfl⟩
  | after site site' a => exact giveAfter_folds hh hf values a
  | _ => exact ⟨hh, .give _, hf, rfl⟩

include hh hf in
theorem goOn_folds {f f' : Frame} (hff : FrameFolds swaps f f') :
    MachineFolds swaps (goOn h fs depth f) (goOn h' fs' depth f') := by
  cases hff with
  | rest s hb => exact ⟨hh, .exec s hb, hf, rfl⟩
  | whileLoop s he hb =>
    exact ⟨hh, .eval s he, .cons (.operands s [] false .nil (.loop hb))
      (.cons (.whileLoop s he hb) hf), rfl⟩
  | repeatLoop s hb => exact ⟨hh, .exec s hb, .cons (.repeatLoop s hb) hf, rfl⟩
  | countLoop s i step left hb =>
    cases left with
    | zero => exact ⟨hh, .next, hf, rfl⟩
    | succ left =>
      simp only [goOn]
      exact round_folds hh (.cons (.countLoop s _ step left hb) hf) s _ hb
  | floatLoop s x stop step hb =>
    by_cases hc : if 0 < step then x ≤ stop else stop ≤ x
    · simp only [goOn, if_pos hc]
      exact round_folds hh (.cons (.floatLoop s _ stop step hb) hf) s _ hb
    · simp only [goOn, if_neg hc]
      exact ⟨hh, .next, hf, rfl⟩
  | eachLoop s count k state control hb =>
    exact ⟨hh, .call _ _, .cons (.eachLoop s count k state control hb) hf, rfl⟩
  | call => exact ⟨hh, .give _, hf, rfl⟩
  | _ => exact ⟨hh, .next, hf, rfl⟩

include hh hf in
theorem leaveLoop_folds {f f' : Frame} (hff : FrameFolds swaps f f') :
    MachineFolds swaps (leaveLoop h fs depth f) (leaveLoop h' fs' depth f') := by
  cases hff with
  | whileLoop | repeatLoop | countLoop | floatLoop | eachLoop => exact ⟨hh, .next, hf, rfl⟩
  | _ => exact ⟨hh, .leave, hf, rfl⟩

include hh hf in
theorem goBack_folds (values : List Datum) {f f' : Frame} (hff : FrameFolds swaps f f') :
    MachineFolds swaps (goBack h fs depth values f) (goBack h' fs' depth values f') := by
  cases hff with
  | call => exact ⟨hh, .give _, hf, rfl⟩
  | _ => exact ⟨hh, .back _, hf, rfl⟩

/-- Does a frame catch errors? -/
def Catches : Frame → Prop
  | .after _ .protect | .after _ (.protectWith _) => True
  | _ => False

include hh hf in
theorem handle_folds (d d' : Datum) {f f' : Frame} (hff : FrameFolds swaps f f')
    (hc : ¬ Catches f) :
    MachineFolds swaps (handle h fs depth d f) (handle h' fs' depth d' f') := by
  cases hff with
  | call => exact ⟨hh, .raise _ _, hf, rfl⟩
  | after site site' a =>
    cases a with
    | protect | protectWith => exact absurd trivial hc
    | _ => exact ⟨hh, .raise _ _, hf, rfl⟩
  | _ => exact ⟨hh, .raise _ _, hf, rfl⟩

/-! ## Steps -/

include hs in
theorem step_folds (host : Host) {m m' : Machine} (hm : MachineFolds swaps m m')
    (hn : ∀ s e e', m.control = .eval s e → m'.control = .eval s e' → NodeFolds swaps e e')
    (hc : ∀ d f fs, m.control = .raise d → m.frames = f :: fs → ¬ Catches f) :
    MachineFolds swaps (m.step host) (m'.step host) := by
  obtain ⟨h, control, fs, depth⟩ := m
  obtain ⟨h', control', fs', depth'⟩ := m'
  obtain ⟨hh, hctl, hf, rfl : depth = depth'⟩ := hm
  cases hctl with
  | eval s he => exact eval_folds hh hf s (hn s _ _ rfl rfl)
  | exec s hb =>
    cases hb with
    | nil => exact ⟨hh, .next, hf, rfl⟩
    | cons ht hr => exact execOne_folds hh hf hs s ht hr
  | call f args => exact call_folds hh hf host _ _ _ _ f args
  | store hst => exact store_folds hh hf _ _ hst
  | give values =>
    cases hf with
    | nil => exact ⟨hh, .give _, .nil, rfl⟩
    | cons h1 hm => exact give_folds hh hm hs values h1
  | next =>
    cases hf with
    | nil => exact ⟨hh, .give _, .nil, rfl⟩
    | cons h1 hm => exact goOn_folds hh hm h1
  | leave =>
    cases hf with
    | nil => exact ⟨hh, .give _, .nil, rfl⟩
    | cons h1 hm => exact leaveLoop_folds hh hm h1
  | back values =>
    cases hf with
    | nil => exact ⟨hh, .give _, .nil, rfl⟩
    | cons h1 hm => exact goBack_folds hh hm values h1
  | raise d d' =>
    cases hf with
    | nil => exact ⟨hh, .raise _ _, .nil, rfl⟩
    | cons h1 hm => exact handle_folds hh hm d d' h1 (hc d _ _ rfl rfl)

end Machine

end EnvManifest.Script
