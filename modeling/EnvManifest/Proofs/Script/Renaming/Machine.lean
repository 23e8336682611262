import EnvManifest.Proofs.Script.Renaming.Library
import EnvManifest.Proofs.Script.Renaming.Operators
import EnvManifest.Proofs.Script.Run

/-!
# Runs in heaps with other numbers

Two machines that differ in the numbers of their heaps take the same steps, as long as no function
writes such a number into a text.
-/

namespace EnvManifest.Script

variable {r : Renaming}

/-! ## States -/

def Store.rename (r : Renaming) : Store → Store
  | .cell id d => .cell (r.cell id) (d.rename r)
  | .field object key d => .field (object.rename r) (key.rename r) (d.rename r)

def Frame.rename (r : Renaming) : Frame → Frame
  | .operands s done todo spread aim =>
    .operands (s.rename r) (done.map (·.rename r)) todo spread aim
  | .method s object e isLast => .method (s.rename r) (object.rename r) e isLast
  | .join site before => .join site (before.map (·.rename r))
  | .stores site more => .stores site (more.map (·.rename r))
  | .rest s body => .rest (s.rename r) body
  | .whileLoop s test body => .whileLoop (s.rename r) test body
  | .repeatLoop s body => .repeatLoop (s.rename r) body
  | .countLoop s next step left body => .countLoop (s.rename r) next step left body
  | .floatLoop s next stop step body => .floatLoop (s.rename r) next stop step body
  | .eachLoop s line count f state control body =>
    .eachLoop (s.rename r) line count (f.rename r) (state.rename r) (control.rename r) body
  | .after site a => .after site (a.rename r)
  | .one => .one
  | .truth expected => .truth expected
  | .drop => .drop
  | .call site => .call site
  | .giveBack => .giveBack

def Control.rename (r : Renaming) : Control → Control
  | .eval s e => .eval (s.rename r) e
  | .exec s body => .exec (s.rename r) body
  | .give values => .give (values.map (·.rename r))
  | .next => .next
  | .leave => .leave
  | .back values => .back (values.map (·.rename r))
  | .raise error => .raise (error.rename r)
  | .call site origin f args => .call site origin (f.rename r) (args.map (·.rename r))
  | .store site stores => .store site (stores.map (·.rename r))

structure MachineRenamed (r : Renaming) (m m' : Machine) : Prop where
  heap : HeapRenamed r m.heap m'.heap
  control : m'.control = m.control.rename r
  frames : m'.frames = m.frames.map (·.rename r)
  depth : m'.depth = m.depth

namespace Machine

variable {h h' : Heap} (hh : HeapRenamed r h h') (fs : List Frame) (depth : Nat)

/-! ## Values -/

include hh in
theorem collect_renamed (s : Scope) (todo : List Expr) (spread : Bool) (aim : Aim)
    {finish finish' : List Datum → Machine} (hd : MachineRenamed r (finish []) (finish' [])) :
    MachineRenamed r (collect h fs depth s todo spread aim finish)
      (collect h' (fs.map (·.rename r)) depth (s.rename r) todo spread aim finish') := by
  cases todo with
  | nil => exact hd
  | cons e more => exact ⟨hh, rfl, rfl, rfl⟩

include hh in
theorem operated_renamed (site : Site) {o o' : Operated} (ho : o' = o.rename r) :
    MachineRenamed r (operated h fs depth site o)
      (operated h' (fs.map (·.rename r)) depth site o') := by
  subst ho
  cases o <;> exact ⟨hh, rfl, rfl, rfl⟩

include hh in
theorem index_renamed (site : Site) (a : Operand) (key : Datum) :
    MachineRenamed r (index h fs depth site a key)
      (index h' (fs.map (·.rename r)) depth site (a.rename r) (key.rename r)) := by
  unfold index
  rw [Operand.datum_rename, hh.index]
  generalize h.index a.datum key = found
  cases found with
  | noFields d asked =>
    exact operated_renamed hh fs depth site
      (Operand.refuse_rename ⟨d, if asked then a.origin else none⟩ "index")
  | _ => exact ⟨hh, rfl, rfl, rfl⟩

include hh in
theorem join_renamed (site : Site) (operands : List Operand) :
    MachineRenamed r (join h fs depth site operands)
      (join h' (fs.map (·.rename r)) depth site (operands.map (·.rename r))) := by
  match operands with
  | [] =>
    rw [List.map_nil, join, join]
    exact ⟨hh, rfl, rfl, rfl⟩
  | [a] =>
    rw [List.map_singleton, join, join]
    exact ⟨hh, rfl, rfl, rfl⟩
  | b :: a :: before =>
    rw [List.map_cons, List.map_cons, join, join, hh.joined]
    cases h.joined a b with
    | done d => exact join_renamed site (⟨d, none⟩ :: before)
    | _ => exact operated_renamed hh (.join site before :: fs) depth site rfl
termination_by operands.length

theorem adjust_rename (count : Nat) (values : List Datum) :
    adjust count (values.map (·.rename r)) = (adjust count values).map (·.rename r) := by
  simp [adjust]

/-! ## Calls -/

theorem callers_rename : callers (fs.map (·.rename r)) = (callers fs).map (·.rename r) := by
  induction fs with
  | nil => rfl
  | cons f fs ih =>
    cases f with
    | call site => rfl
    | _ => exact ih

theorem siteAt_rename (n : Nat) : siteAt n (fs.map (·.rename r)) = siteAt n fs := by
  induction fs generalizing n with
  | nil => rfl
  | cons f fs ih =>
    cases f with
    | call site =>
      cases n with
      | zero => rfl
      | succ n => exact ih n
    | after site a =>
      cases n with
      | zero => rfl
      | succ n => exact ih n
    | _ => exact ih n

include hh in
theorem invoke_renamed (site : Site) (origin : Option Origin) (isLast : Bool) (f : Datum)
    (args : List Datum) :
    MachineRenamed r (invoke h fs depth site origin isLast f args)
      (invoke h' (fs.map (·.rename r)) depth site origin isLast (f.rename r)
        (args.map (·.rename r))) := by
  cases isLast with
  | false => cases f <;> exact ⟨hh, rfl, rfl, rfl⟩
  | true =>
    cases f with
    | closure id =>
      unfold invoke
      dsimp only [Datum.rename_closure]
      rw [callers_rename]
      match callers fs with
      | [] => exact ⟨hh, rfl, rfl, rfl⟩
      | f :: fs => cases f <;> exact ⟨hh, rfl, rfl, rfl⟩
    | _ => exact ⟨hh, rfl, rfl, rfl⟩

include hh in
theorem enter_renamed (site : Option Site) (c : Closure) (args : List Datum) :
    MachineRenamed r (enter h fs depth site c args)
      (enter h' (fs.map (·.rename r)) depth site (c.rename r) (args.map (·.rename r))) := by
  obtain ⟨body, scope⟩ := c
  change MachineRenamed r _ (enter h' (fs.map (·.rename r)) depth site ⟨body, scope.rename r⟩ _)
  unfold enter
  split
  · exact ⟨hh, rfl, rfl, rfl⟩
  · obtain ⟨hn, hc⟩ := hh.newCells (adjust body.params args) scope.cells
    have varargs : (if body.varargs then (args.map (·.rename r)).drop body.params else []) =
        (if body.varargs then args.drop body.params else []).map (·.rename r) := by
      split
      · exact List.map_drop.symm
      · rfl
    dsimp only [Scope.rename]
    rw [adjust_rename, hc, varargs]
    exact ⟨hn, rfl, rfl, rfl⟩

theorem answer_renamed (site : Option Site) (origin : Option Origin) (f : Native)
    {x x' : Except Interruption (List Datum) × Heap}
    (hx : x'.1 = renameAnswer r (List.map (·.rename r)) x.1) (hh : HeapRenamed r x.2 x'.2) :
    MachineRenamed r (answer fs depth site origin f x)
      (answer (fs.map (·.rename r)) depth site origin f x') := by
  obtain ⟨answered, h⟩ := x
  obtain ⟨answered', h'⟩ := x'
  obtain rfl : answered' = _ := hx
  cases answered with
  | ok values => exact ⟨hh, rfl, rfl, rfl⟩
  | error i =>
    cases i with
    | complain level message =>
      match level with
      | 0 | 1 => exact ⟨hh, rfl, rfl, rfl⟩
      | n + 2 =>
        refine ⟨hh, ?_, rfl, rfl⟩
        simp only [renameAnswer, Interruption.rename, answer, siteAt_rename]
        rfl
    | _ => exact ⟨hh, rfl, rfl, rfl⟩

include hh in
theorem call_renamed (host : Host) (site : Option Site) (origin : Option Origin) (f : Datum)
    (args : List Datum)
    (hidden : ∀ n, f = .native n → n.showsNumber h args = false) :
    MachineRenamed r (call host h fs depth site origin f args)
      (call host h' (fs.map (·.rename r)) depth site origin (f.rename r)
        (args.map (·.rename r))) := by
  have last : MachineRenamed r
      (if (h.behaviour f Heap.callKey).isNil then
        ⟨h, fault site ("attempt to call a " ++ f.typeName ++ " value" ++ Operand.note origin), fs,
          depth⟩
      else ⟨h, .call site origin (h.behaviour f Heap.callKey) (f :: args), fs, depth⟩)
      (if (h'.behaviour (f.rename r) Heap.callKey).isNil then
        ⟨h', fault site ("attempt to call a " ++ (f.rename r).typeName ++ " value" ++
          Operand.note origin), fs.map (·.rename r), depth⟩
      else ⟨h', .call site origin (h'.behaviour (f.rename r) Heap.callKey)
        (f.rename r :: args.map (·.rename r)), fs.map (·.rename r), depth⟩) := by
    rw [hh.behaviour f Heap.callKey rfl, Datum.isNil_rename, Datum.typeName_rename]
    split <;> exact ⟨hh, rfl, rfl, rfl⟩
  cases f with
  | closure id =>
    unfold call
    dsimp only [Datum.rename_closure]
    rw [hh.closures.get]
    cases h.closures[id]? with
    | none => exact ⟨hh, rfl, rfl, rfl⟩
    | some c => exact enter_renamed hh fs depth site c args
  | native n =>
    obtain ⟨answered, left⟩ := n.work_renamed host hh args (hidden n rfl)
    exact answer_renamed fs depth site origin n answered left
  | _ => exact last

/-! ## Loops -/

/-- A loop whose bounds are not all integers. -/
theorem countFrame_else (s : Scope) {start stop step : Datum} (body : List Statement)
    (h : ∀ a c, ¬ (start = .number (.int a) ∧ step = .number (.int c))) :
    countFrame s start stop step body =
      match stop.number?, step.number?, start.number? with
      | none, _, _ => .error (badBound "limit" stop)
      | _, none, _ => .error (badBound "step" step)
      | _, _, none => .error (badBound "initial value" start)
      | some b, some c, some a =>
        if c.toFloat == 0 then .error "'for' step is zero"
        else .ok (some (.floatLoop s a.toFloat b.toFloat c.toFloat body)) := by
  unfold countFrame
  split
  · exact absurd ⟨rfl, rfl⟩ (h _ _)
  · rfl

theorem badBound_rename (what : String) (d : Datum) :
    badBound what (d.rename r) = badBound what d := by
  unfold badBound
  rw [Datum.typeName_rename]

theorem countFrame_rename (s : Scope) (start stop step : Datum) (body : List Statement) :
    countFrame (s.rename r) (start.rename r) (stop.rename r) (step.rename r) body =
      (countFrame s start stop step body).map (Option.map (·.rename r)) := by
  by_cases whole : ∃ a c, start = .number (.int a) ∧ step = .number (.int c)
  · obtain ⟨a, c, rfl, rfl⟩ := whole
    simp only [countFrame, Datum.rename_number, Datum.number?_rename, badBound_rename]
    split
    · rfl
    cases stop.number? with
    | none => rfl
    | some b =>
      dsimp only
      cases bound? (0 < c) b with
      | none => rfl
      | some b =>
        dsimp only
        generalize (if (_ : Int64) < _ then _ else _ : Int) = distance
        split <;> rfl
  · rw [countFrame_else s body fun a c h => whole ⟨a, c, h⟩,
      countFrame_else (s.rename r) body fun a c h => whole
        ⟨a, c, Datum.rename_eq_number.1 h.1, Datum.rename_eq_number.1 h.2⟩]
    simp only [Datum.number?_rename, badBound_rename]
    cases stop.number? with
    | none => rfl
    | some b =>
      cases step.number? with
      | none => rfl
      | some c =>
        cases start.number? with
        | none => rfl
        | some a =>
          dsimp only
          split <;> rfl

include hh in
theorem round_renamed (s : Scope) (values : List Datum) (body : List Statement) :
    MachineRenamed r (round h fs depth s values body)
      (round h' (fs.map (·.rename r)) depth (s.rename r) (values.map (·.rename r)) body) := by
  obtain ⟨hn, hc⟩ := hh.newCells values s.cells
  unfold round
  dsimp only [Scope.rename]
  rw [hc]
  exact ⟨hn, rfl, rfl, rfl⟩

/-! ## Expressions -/

include hh in
theorem eval_renamed (s : Scope) (e : Expr) :
    MachineRenamed r (eval h fs depth s e)
      (eval h' (fs.map (·.rename r)) depth (s.rename r) e) := by
  cases e with
  | var v =>
    simp only [eval]
    rw [hh.valueOf]
    exact ⟨hh, rfl, rfl, rfl⟩
  | lambda f =>
    obtain ⟨hl, hi⟩ := hh.newClosure ⟨f, s⟩
    exact ⟨hl, congrArg (fun id => Control.give [.closure id]) hi, rfl, rfl⟩
  | concat line items =>
    simp only [eval, collectFor]
    refine collect_renamed hh fs depth s items false _ ?_
    exact ⟨hh, rfl, rfl, rfl⟩
  | table fields =>
    obtain ⟨ht, hi⟩ := hh.newTable .empty
    rw [Table.rename_empty] at ht hi
    simp only [eval, collectFor]
    refine collect_renamed hh fs depth s _ _ _ ?_
    exact ⟨ht, congrArg (fun id => Control.give [.table id]) hi, rfl, rfl⟩
  | _ => exact ⟨hh, rfl, rfl, rfl⟩

/-- The line, the key and the value of an entry. -/
abbrev renameEntry (r : Renaming) (e : Nat × Datum × Datum) : Nat × Datum × Datum :=
  (e.1, Datum.renamePair r e.2)

theorem fieldValues_rename (fields : List Field) (values : List Datum) :
    fieldValues fields (values.map (·.rename r)) =
      ((fieldValues fields values).1.map (·.rename r),
        (fieldValues fields values).2.map (renameEntry r)) := by
  induction fields generalizing values with
  | nil => rfl
  | cons f more ih =>
    cases f with
    | item e =>
      cases more with
      | nil => rfl
      | cons f' more =>
        cases values with
        | nil => rfl
        | cons v values =>
          simp only [List.map_cons, fieldValues]
          rw [ih]
    | keyed line k v =>
      match values with
      | [] | [_] => rfl
      | k :: v :: values =>
        simp only [List.map_cons, fieldValues]
        rw [ih]

theorem foldl_rename {α : Type} {φ : α → α} {f : Table → α → Table}
    (hf : ∀ t a, f (t.rename r) (φ a) = (f t a).rename r) (as : List α) (t : Table) :
    (as.map φ).foldl f (t.rename r) = (as.foldl f t).rename r := by
  induction as generalizing t with
  | nil => rfl
  | cons a as ih => rw [List.map_cons, List.foldl_cons, List.foldl_cons, hf, ih]

theorem findFault_rename (entries : List (Nat × Datum × Datum)) :
    ((entries.map (renameEntry r)).findSome? fun (line, k, _) =>
        (Library.keyFault? k).map fun f => (line, f)) =
      entries.findSome? fun (line, k, _) => (Library.keyFault? k).map fun f => (line, f) := by
  rw [List.findSome?_map]
  refine congrArg (List.findSome? · entries) (funext fun e => ?_)
  exact congrArg (Option.map _) (Library.keyFault?_rename e.2.1)

theorem setEntries_rename (entries : List (Nat × Datum × Datum)) (t : Table) :
    (entries.map (renameEntry r)).foldl (fun t (_, k, v) => t.set k v) (t.rename r) =
      (entries.foldl (fun t (_, k, v) => t.set k v) t).rename r :=
  foldl_rename (fun t e => t.set_rename e.2.1 e.2.2) entries t

theorem setItems_rename (items : List Datum) (t : Table) :
    (items.map (·.rename r)).zipIdx.foldl (fun t (v, i) => t.set (.ofInt (i + 1)) v)
        (t.rename r) =
      (items.zipIdx.foldl (fun t (v, i) => t.set (.ofInt (i + 1)) v) t).rename r := by
  rw [List.zipIdx_map]
  exact foldl_rename (fun t e => t.set_rename (.ofInt (e.2 + 1)) e.1) items.zipIdx t

/-- The same table, or the same key is refused. -/
theorem tableOf_rename (fields : List Field) (values : List Datum) :
    tableOf fields (values.map (·.rename r)) = (tableOf fields values).map (·.rename r) := by
  unfold tableOf
  rw [fieldValues_rename]
  obtain ⟨items, entries⟩ := fieldValues fields values
  have faults := findFault_rename (r := r) entries
  dsimp only at faults ⊢
  rw [faults, List.length_map, List.length_map]
  generalize entries.findSome? _ = fault
  cases fault with
  | some fault => rfl
  | none =>
    dsimp only [Except.map]
    rw [← Table.rename_reserve (r := r), setEntries_rename, setItems_rename, Table.rename_reserve]

theorem operandsOf_rename (values : List Datum) (items : List Expr) :
    (((values.map (·.rename r)).zip items).map fun (d, e) => (⟨d, e.origin?⟩ : Operand)).reverse =
      ((values.zip items).map fun (d, e) => (⟨d, e.origin?⟩ : Operand)).reverse.map
        (·.rename r) := by
  rw [List.zip_map_left, List.map_map, List.map_reverse, List.map_map]
  rfl

include hh in
theorem finishExpr_renamed (s : Scope) (e : Expr) (values : List Datum) :
    MachineRenamed r (finishExpr h fs depth s e values)
      (finishExpr h' (fs.map (·.rename r)) depth (s.rename r) e (values.map (·.rename r))) := by
  have given : MachineRenamed r ⟨h, .give values, fs, depth⟩
      ⟨h', .give (values.map (·.rename r)), fs.map (·.rename r), depth⟩ := ⟨hh, rfl, rfl, rfl⟩
  cases e with
  | index line object key =>
    match values with
    | [a, key] => exact index_renamed hh fs depth _ ⟨a, object.origin?⟩ key
    | [] | [_] | _ :: _ :: _ :: _ => exact given
  | method line nameLine object name args =>
    match values with
    | [a] =>
      exact index_renamed hh (.method s a (.method line nameLine object name args) false :: fs)
        depth _ ⟨a, object.origin?⟩ (.str name)
    | [] | _ :: _ :: _ => exact given
  | unary line op e =>
    match values with
    | [a] =>
      exact operated_renamed hh fs depth _ (hh.unary op ⟨a, e.origin?⟩)
    | [] | _ :: _ :: _ => exact given
  | binary line op d e =>
    match values with
    | [a, b] =>
      exact operated_renamed hh fs depth _ (hh.binary op ⟨a, d.origin?⟩ ⟨b, e.origin?⟩)
    | [] | [_] | _ :: _ :: _ :: _ => exact given
  | concat line items =>
    simp only [finishExpr]
    rw [operandsOf_rename]
    exact join_renamed hh fs depth _ _
  | both a b =>
    match values with
    | [a] =>
      simp only [finishExpr, List.map_cons, List.map_nil, Datum.holds_rename]
      split <;> exact ⟨hh, rfl, rfl, rfl⟩
    | [] | _ :: _ :: _ => exact given
  | either a b =>
    match values with
    | [a] =>
      simp only [finishExpr, List.map_cons, List.map_nil, Datum.holds_rename]
      split <;> exact ⟨hh, rfl, rfl, rfl⟩
    | [] | _ :: _ :: _ => exact given
  | table fields =>
    simp only [finishExpr]
    rw [tableOf_rename]
    cases tableOf fields values with
    | error e => exact ⟨hh, rfl, rfl, rfl⟩
    | ok t =>
      obtain ⟨hn, hi⟩ := hh.newTable t
      exact ⟨hn, congrArg (fun id => Control.give [.table id]) hi, rfl, rfl⟩
  | _ => exact given

/-! ## Statements -/

theorem storesOf_rename (s : Scope) (targets : List Expr) (places values : List Datum)
    (done : List Store) :
    storesOf (s.rename r) targets (places.map (·.rename r)) (values.map (·.rename r))
        (done.map (·.rename r)) =
      (storesOf s targets places values done).map (·.rename r) := by
  induction targets generalizing places values done with
  | nil => rfl
  | cons e more ih =>
    cases e with
    | index line object key =>
      match places with
      | [] | [_] => rfl
      | a :: b :: places =>
        simp only [List.map_cons, storesOf]
        rw [← List.map_tail, first_rename, ← ih]
        rfl
    | var v =>
      simp only [storesOf]
      rw [← List.map_tail, first_rename, ← ih, List.map_append]
      have cell : (s.rename r).cells[v.index]? = s.cells[v.index]?.map r.cell := List.getElem?_map
      rw [cell]
      cases s.cells[v.index]? <;> rfl
    | _ => rfl

theorem follow_rename (s : Scope) (rest : List Statement) :
    follow (s.rename r) rest (fs.map (·.rename r)) = (follow s rest fs).map (·.rename r) := by
  unfold follow
  split <;> rfl

include hh in
theorem execOne_renamed (s : Scope) (t : Statement) (rest : List Statement) :
    MachineRenamed r (execOne h fs depth s t rest)
      (execOne h' (fs.map (·.rename r)) depth (s.rename r) t rest) := by
  cases t with
  | declare count values =>
    obtain ⟨hn, hc⟩ := hh.newCells (List.replicate count .nil) s.cells
    simp only [List.map_replicate, Datum.rename_nil] at hn hc
    simp only [execOne]
    refine collect_renamed hh fs depth s values true _ ⟨hn, ?_, rfl, rfl⟩
    dsimp only [Scope.rename]
    rw [hc]
    rfl
  | declareFunction f =>
    obtain ⟨hn, hc⟩ := hh.newCell .nil
    rw [Datum.rename_nil] at hn hc
    obtain ⟨hl, hi⟩ := hn.newClosure ⟨f, { s with cells := (h.newCell .nil).2 :: s.cells }⟩
    have changed := hl.setCell (h.newCell .nil).2 (.closure ((h.newCell .nil).1.newClosure
      ⟨f, { s with cells := (h.newCell .nil).2 :: s.cells }⟩).2)
    rw [Datum.rename_closure, ← hi] at changed
    simp only [execOne]
    rw [hc]
    exact ⟨changed, rfl, rfl, rfl⟩
  | assign line targets values =>
    simp only [execOne, follow_rename]
    refine collect_renamed hh _ depth s _ true _ ?_
    exact ⟨hh, rfl, rfl, rfl⟩
  | eachLoop line count values body =>
    simp only [execOne, follow_rename]
    refine collect_renamed hh _ depth s values true _ ?_
    exact ⟨hh, rfl, rfl, rfl⟩
  | leave => exact ⟨hh, rfl, rfl, rfl⟩
  | give values =>
    have collected : MachineRenamed r
        (collect h fs depth s values true (.statement (.give values) rest) fun _ =>
          ⟨h, .back [], fs, depth⟩)
        (collect h' (fs.map (·.rename r)) depth (s.rename r) values true
          (.statement (.give values) rest) fun _ =>
            ⟨h', .back [], fs.map (·.rename r), depth⟩) :=
      collect_renamed hh fs depth s values true _ ⟨hh, rfl, rfl, rfl⟩
    cases values with
    | nil => exact collected
    | cons e more =>
      cases more with
      | cons _ _ => cases e <;> exact collected
      | nil =>
        cases e with
        | call line f args => exact ⟨hh, rfl, rfl, rfl⟩
        | method line nameLine object name args => exact ⟨hh, rfl, rfl, rfl⟩
        | _ => exact collected
  | _ =>
    simp only [execOne, follow_rename]
    exact ⟨hh, rfl, rfl, rfl⟩

include hh in
theorem finishStatement_renamed (s : Scope) (t : Statement) (rest : List Statement)
    (values : List Datum) :
    MachineRenamed r (finishStatement h fs depth s t rest values)
      (finishStatement h' (fs.map (·.rename r)) depth (s.rename r) t rest
        (values.map (·.rename r))) := by
  cases t with
  | declare count exprs =>
    obtain ⟨hn, hc⟩ := hh.newCells (adjust count values) s.cells
    rw [← adjust_rename] at hn hc
    refine ⟨hn, ?_, rfl, rfl⟩
    simp only [finishStatement, Scope.rename]
    rw [hc]
    rfl
  | assign line targets exprs =>
    refine ⟨hh, ?_, rfl, rfl⟩
    simp only [finishStatement]
    rw [← List.map_take, ← List.map_drop]
    exact congrArg (Control.store _) (storesOf_rename s targets _ _ [])
  | untilTest test =>
    simp only [finishStatement]
    rw [first_rename, Datum.holds_rename]
    refine ⟨hh, ?_, rfl, rfl⟩
    dsimp only
    split <;> rfl
  | branch test yes no =>
    simp only [finishStatement]
    rw [first_rename, Datum.holds_rename]
    exact ⟨hh, rfl, rfl, rfl⟩
  | countLoop line start stop step body =>
    rcases values with _ | ⟨start, _ | ⟨stop, _ | ⟨step, _ | ⟨d, more⟩⟩⟩⟩
    case cons.cons.cons.nil =>
      simp only [finishStatement, List.map_cons, List.map_nil]
      rw [countFrame_rename]
      cases countFrame s start stop step body with
      | error e => exact ⟨hh, rfl, rfl, rfl⟩
      | ok f => cases f <;> exact ⟨hh, rfl, rfl, rfl⟩
    all_goals exact ⟨hh, rfl, rfl, rfl⟩
  | eachLoop line count exprs body =>
    simp only [finishStatement]
    rw [first_rename, getD_rename values 1 _ rfl, getD_rename values 2 _ rfl]
    exact ⟨hh, rfl, rfl, rfl⟩
  | give exprs =>
    have given : MachineRenamed r ⟨h, .back values, fs, depth⟩
        ⟨h', .back (values.map (·.rename r)), fs.map (·.rename r), depth⟩ := ⟨hh, rfl, rfl, rfl⟩
    cases exprs with
    | nil => exact given
    | cons e more =>
      cases more with
      | cons _ _ => cases e <;> exact given
      | nil =>
        cases e with
        | method line nameLine object name args =>
          rcases values with _ | ⟨a, _ | ⟨_, _⟩⟩
          case cons.nil =>
            exact index_renamed hh
              (.method s a (.method line nameLine object name args) true :: fs) depth _
              ⟨a, object.origin?⟩ (.str name)
          all_goals exact given
        | _ => exact given
  | _ => exact ⟨hh, rfl, rfl, rfl⟩

include hh in
theorem store_renamed (site : Site) (stores : List Store) :
    MachineRenamed r (store h fs depth site stores)
      (store h' (fs.map (·.rename r)) depth site (stores.map (·.rename r))) := by
  match stores with
  | [] => exact ⟨hh, rfl, rfl, rfl⟩
  | .cell id d :: more => exact ⟨hh.setCell id d, rfl, rfl, rfl⟩
  | .field object key d :: more =>
    simp only [List.map_cons, Store.rename, store]
    rw [Operand.datum_rename, hh.target, Library.keyFault?_rename]
    generalize h.target object.datum key d = found
    cases found with
    | done id =>
      dsimp only [Heap.Access.rename]
      split
      · exact ⟨hh, rfl, rfl, rfl⟩
      · exact ⟨hh.setTable id key d, rfl, rfl, rfl⟩
    | noFields d asked =>
      exact operated_renamed hh fs depth site
        (Operand.refuse_rename ⟨d, if asked then object.origin else none⟩ "index")
    | _ => exact ⟨hh, rfl, rfl, rfl⟩

/-! ## Frames -/

include hh in
theorem finish_renamed (s : Scope) (values : List Datum) (aim : Aim) :
    MachineRenamed r (finish h fs depth s values aim)
      (finish h' (fs.map (·.rename r)) depth (s.rename r) (values.map (·.rename r)) aim) := by
  cases aim with
  | expr e => exact finishExpr_renamed hh fs depth s e values
  | call line origin isLast =>
    simp only [finish]
    rw [first_rename, ← List.map_tail]
    exact invoke_renamed hh fs depth _ origin isLast _ _
  | statement t rest => exact finishStatement_renamed hh fs depth s t rest values
  | loop body =>
    refine ⟨hh, ?_, rfl, rfl⟩
    simp only [finish]
    rw [first_rename, Datum.holds_rename]
    split <;> rfl

include hh in
theorem giveAfter_renamed (values : List Datum) (a : After) :
    MachineRenamed r (giveAfter h fs depth values a)
      (giveAfter h' (fs.map (·.rename r)) depth (values.map (·.rename r)) (a.rename r)) := by
  cases a with
  | protect | protectWith => exact ⟨hh, rfl, rfl, rfl⟩
  | take count =>
    exact ⟨hh, congrArg Control.give (adjust_rename count values), rfl, rfl⟩
  | text =>
    simp only [After.rename, giveAfter]
    rw [first_rename]
    cases first values <;> exact ⟨hh, rfl, rfl, rfl⟩
  | item i =>
    refine ⟨hh, ?_, rfl, rfl⟩
    simp only [After.rename, giveAfter]
    rw [first_rename, Library.indexed_rename]
    rfl
  | failed =>
    refine ⟨hh, ?_, rfl, rfl⟩
    simp only [After.rename, giveAfter]
    rw [first_rename]
    rfl

include hh in
theorem give_renamed (values : List Datum) (f : Frame) :
    MachineRenamed r (give h fs depth values f)
      (give h' (fs.map (·.rename r)) depth (values.map (·.rename r)) (f.rename r)) := by
  have head := first_rename (r := r) values
  cases f with
  | operands s done todo spread aim =>
    rw [Frame.rename]
    cases todo with
    | nil =>
      have all : (done.map (·.rename r)).reverse ++
            (if spread then values.map (·.rename r) else [(first values).rename r]) =
          (done.reverse ++ if spread then values else [first values]).map (·.rename r) := by
        rw [List.map_append, List.map_reverse]
        cases spread <;> rfl
      simp only [give]
      rw [head, all]
      exact finish_renamed hh fs depth s _ aim
    | cons e more =>
      simp only [give]
      rw [head]
      exact ⟨hh, rfl, rfl, rfl⟩
  | method s object e isLast =>
    rw [Frame.rename]
    cases e with
    | method line nameLine target name args =>
      simp only [give]
      rw [head]
      cases args with
      | nil => exact finish_renamed hh fs depth s [first values, object] _
      | cons e more => exact ⟨hh, rfl, rfl, rfl⟩
    | _ => exact ⟨hh, rfl, rfl, rfl⟩
  | one =>
    rw [Frame.rename]
    simp only [give]
    rw [head]
    exact ⟨hh, rfl, rfl, rfl⟩
  | truth expected =>
    rw [Frame.rename]
    simp only [give]
    rw [head, Datum.holds_rename]
    exact ⟨hh, rfl, rfl, rfl⟩
  | join site before =>
    rw [Frame.rename]
    simp only [give]
    rw [head]
    exact join_renamed hh fs depth site (⟨first values, none⟩ :: before)
  | eachLoop s line count k state control body =>
    have turned := round_renamed hh (.eachLoop s line count k state (first values) body :: fs) depth
      s (adjust count values) body
    rw [Frame.rename]
    simp only [give]
    rw [head, Datum.isNil_rename, adjust_rename]
    split
    · exact ⟨hh, rfl, rfl, rfl⟩
    · exact turned
  | after site a => exact giveAfter_renamed hh fs depth values a
  | _ => exact ⟨hh, rfl, rfl, rfl⟩

include hh in
theorem goOn_renamed (f : Frame) :
    MachineRenamed r (goOn h fs depth f) (goOn h' (fs.map (·.rename r)) depth (f.rename r)) := by
  cases f with
  | countLoop s i step left body =>
    cases left with
    | zero => exact ⟨hh, rfl, rfl, rfl⟩
    | succ left =>
      exact round_renamed hh (.countLoop s (i + step) step left body :: fs) depth s
        [.number (.int i)] body
  | floatLoop s x stop step body =>
    have turned := round_renamed hh (.floatLoop s (x + step) stop step body :: fs) depth s
      [.number (.float x)] body
    rw [Frame.rename]
    by_cases hc : if 0 < step then x ≤ stop else stop ≤ x
    · simp only [goOn, if_pos hc]
      exact turned
    · simp only [goOn, if_neg hc]
      exact ⟨hh, rfl, rfl, rfl⟩
  | _ => exact ⟨hh, rfl, rfl, rfl⟩

include hh in
theorem leaveLoop_renamed (f : Frame) :
    MachineRenamed r (leaveLoop h fs depth f)
      (leaveLoop h' (fs.map (·.rename r)) depth (f.rename r)) := by
  cases f <;> exact ⟨hh, rfl, rfl, rfl⟩

include hh in
theorem goBack_renamed (values : List Datum) (f : Frame) :
    MachineRenamed r (goBack h fs depth values f)
      (goBack h' (fs.map (·.rename r)) depth (values.map (·.rename r)) (f.rename r)) := by
  cases f <;> exact ⟨hh, rfl, rfl, rfl⟩

include hh in
theorem handle_renamed (d : Datum) (f : Frame) :
    MachineRenamed r (handle h fs depth d f)
      (handle h' (fs.map (·.rename r)) depth (d.rename r) (f.rename r)) := by
  cases f with
  | after site a => cases a <;> exact ⟨hh, rfl, rfl, rfl⟩
  | _ => exact ⟨hh, rfl, rfl, rfl⟩

/-! ## Steps -/

/-- Is a function about to write the number of a table or a function into a text? -/
def showsNumber (m : Machine) : Bool :=
  match m.control with
  | .call _ _ (.native f) args => f.showsNumber m.heap args
  | _ => false

theorem step_renamed (host : Host) {m m' : Machine} (hm : MachineRenamed r m m')
    (hidden : m.showsNumber = false) : MachineRenamed r (m.step host) (m'.step host) := by
  obtain ⟨h, control, fs, depth⟩ := m
  obtain ⟨h', control', fs', depth'⟩ := m'
  obtain ⟨hh, hc, hf, hd⟩ := hm
  obtain rfl : control' = control.rename r := hc
  obtain rfl : fs' = fs.map (·.rename r) := hf
  obtain rfl : depth = depth' := hd.symm
  cases control with
  | eval s e => exact eval_renamed hh fs depth s e
  | exec s body =>
    cases body with
    | nil => exact ⟨hh, rfl, rfl, rfl⟩
    | cons t rest => exact execOne_renamed hh fs depth s t rest
  | call site origin f args =>
    exact call_renamed hh fs depth host site origin f args fun n hf => hf ▸ hidden
  | store site stores => exact store_renamed hh fs depth site stores
  | give values =>
    cases fs with
    | nil => exact ⟨hh, rfl, rfl, rfl⟩
    | cons f fs => exact give_renamed hh fs depth values f
  | next =>
    cases fs with
    | nil => exact ⟨hh, rfl, rfl, rfl⟩
    | cons f fs => exact goOn_renamed hh fs depth f
  | leave =>
    cases fs with
    | nil => exact ⟨hh, rfl, rfl, rfl⟩
    | cons f fs => exact leaveLoop_renamed hh fs depth f
  | back values =>
    cases fs with
    | nil => exact ⟨hh, rfl, rfl, rfl⟩
    | cons f fs => exact goBack_renamed hh fs depth values f
  | raise d =>
    cases fs with
    | nil => exact ⟨hh, rfl, rfl, rfl⟩
    | cons f fs => exact handle_renamed hh fs depth d f

theorem iterate_renamed (host : Host) {m m' : Machine} (hm : MachineRenamed r m m') {n : Nat}
    (hidden : ∀ k < n, ((step host)^[k] m).showsNumber = false) :
    MachineRenamed r ((step host)^[n] m) ((step host)^[n] m') := by
  induction n with
  | zero => exact hm
  | succ n ih =>
    rw [Function.iterate_succ_apply', Function.iterate_succ_apply']
    have before := ih fun k hk => hidden k (Nat.lt_succ_of_lt hk)
    exact step_renamed host before (hidden n n.lt_succ_self)

/-! ## Outcomes -/

def renameOutcome (r : Renaming) : Except Datum (List Datum) → Except Datum (List Datum)
  | .ok values => .ok (values.map (·.rename r))
  | .error d => .error (d.rename r)

theorem outcome?_renamed {m m' : Machine} (hm : MachineRenamed r m m') :
    m'.outcome? = m.outcome?.map (renameOutcome r) := by
  unfold outcome?
  rw [hm.control, hm.frames]
  cases m.frames with
  | nil => cases m.control <;> rfl
  | cons f fs => cases m.control <;> rfl

end Machine

end EnvManifest.Script
