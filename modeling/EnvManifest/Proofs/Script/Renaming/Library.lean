import EnvManifest.Proofs.Script.Library
import EnvManifest.Proofs.Script.Renaming.Exchange

/-!
# Functions of the language in heaps with other numbers

Every function gives the same answer under other numbers, unless it writes a number into a text.
-/

namespace EnvManifest.Script

variable {r : Renaming} {α β : Type}

/-! ## Answers -/

def After.rename (r : Renaming) : After → After
  | .protectWith handler => .protectWith (handler.rename r)
  | a => a

def Interruption.rename (r : Renaming) : Interruption → Interruption
  | .raise error => .raise (error.rename r)
  | .complain level message => .complain level message
  | .argument index fault => .argument index fault
  | .call f args a => .call (f.rename r) (args.map (·.rename r)) (a.rename r)

def renameAnswer (r : Renaming) (f : α → α) : Except Interruption α → Except Interruption α
  | .ok a => .ok (f a)
  | .error i => .error (i.rename r)

/-- Two pieces of work with the same answer under other numbers in two heaps, which leave heaps that
differ in their numbers only. -/
def Work.RenamedIn (r : Renaming) (f : α → α) (h h' : Heap) (w w' : Work α) : Prop :=
  (w'.run.run h').1 = renameAnswer r f (w.run.run h).1 ∧
    HeapRenamed r (w.run.run h).2 (w'.run.run h').2

def Work.Renamed (r : Renaming) (f : α → α) (w w' : Work α) : Prop :=
  ∀ h h', HeapRenamed r h h' → RenamedIn r f h h' w w'

namespace Work

variable {f : α → α} {g : β → β}

theorem Renamed.pure (a : α) : Renamed r f (Pure.pure a) (Pure.pure (f a)) :=
  fun _ _ hh => ⟨rfl, hh⟩

theorem Renamed.throw (i : Interruption) :
    Renamed r f (throw i : Work α) (throw (i.rename r) : Work α) :=
  fun _ _ hh => ⟨rfl, hh⟩

theorem Renamed.bind {w w' : Work α} {k k' : α → Work β} (hw : Renamed r f w w')
    (hk : ∀ a, Renamed r g (k a) (k' (f a))) : Renamed r g (w >>= k) (w' >>= k') := by
  intro h h' hh
  obtain ⟨hr, hs⟩ := hw h h' hh
  unfold RenamedIn
  simp only [ExceptT.run_bind, StateT.run_bind]
  generalize w.run.run h = x at hr hs
  generalize w'.run.run h' = x' at hr hs
  obtain ⟨a, h₁⟩ := x
  obtain ⟨a', h₁'⟩ := x'
  subst hr
  cases a with
  | ok a => exact hk a h₁ h₁' hs
  | error i => exact ⟨rfl, hs⟩

theorem Renamed.get {k k' : Heap → Work α}
    (hk : ∀ h h', HeapRenamed r h h' → Renamed r f (k h) (k' h')) :
    Renamed r f (get >>= k) (get >>= k') :=
  fun h h' hh => hk h h' hh h h' hh

theorem Renamed.set {h h' : Heap} (hh : HeapRenamed r h h') :
    Renamed r id (set h : Work PUnit) (set h') :=
  fun _ _ _ => ⟨rfl, hh⟩

theorem Renamed.modify {c c' : Heap → Heap}
    (hc : ∀ h h', HeapRenamed r h h' → HeapRenamed r (c h) (c' h')) :
    Renamed r id (modify c : Work PUnit) (modify c') :=
  fun h h' hh => ⟨rfl, hc h h' hh⟩

theorem Renamed.mapM {k k' : α → Work β} (hk : ∀ a, Renamed r g (k a) (k' a)) (as : List α) :
    Renamed r (List.map g) (as.mapM k) (as.mapM k') := by
  induction as with
  | nil => exact .pure []
  | cons a as ih =>
    rw [List.mapM_cons, List.mapM_cons]
    exact .bind (hk a) fun b => .bind ih fun bs => .pure (b :: bs)

theorem Renamed.forIn {k k' : α → PUnit → Work (ForInStep PUnit)}
    (hk : ∀ a u, Renamed r id (k a u) (k' a u)) (as : List α) (u : PUnit) :
    Renamed r id (forIn as u k) (forIn as u k') := by
  induction as generalizing u with
  | nil => exact .pure u
  | cons a as ih =>
    rw [List.forIn_cons, List.forIn_cons]
    refine .bind (hk a u) fun s => ?_
    cases s with
    | done u => exact .pure u
    | yield u => exact ih u

/-! ## Arguments -/

/-- The same number or text in both heaps. -/
abbrev Same (r : Renaming) (w w' : Work α) : Prop := Renamed r id w w'

variable (args : List Datum) (index : Nat)

theorem complain_renamed (message : String) :
    Renamed r f (complain message : Work α) (complain message) := .throw _

theorem raise_renamed (message : String) :
    Renamed r f (raise message : Work α) (raise message) := .throw _

theorem wrong_renamed (fault : String) :
    Renamed r f (wrong index fault : Work α) (wrong index fault) := .throw _

theorem found_rename : found (args.map (·.rename r)) index = found args index := by
  unfold found
  rw [List.getElem?_map]
  cases args[index - 1]? with
  | none => rfl
  | some d => exact d.typeName_rename

theorem wrongType_renamed (wanted : String) :
    Renamed r f (wrongType args index wanted : Work α)
      (wrongType (args.map (·.rename r)) index wanted) := by
  unfold wrongType
  rw [found_rename]
  exact wrong_renamed index _

theorem any_renamed : Renamed r (·.rename r) (any args index)
    (any (args.map (·.rename r)) index) := by
  unfold any
  rw [List.getElem?_map]
  cases args[index - 1]? with
  | none => exact wrong_renamed index _
  | some d => exact .pure d

theorem bind_rename {γ : Type} {q : Datum → Option γ} (hq : ∀ d : Datum, q (d.rename r) = q d) :
    (args.map (·.rename r))[index]?.bind q = args[index]?.bind q := by
  rw [List.getElem?_map]
  cases args[index]? with
  | none => rfl
  | some d => exact hq d

theorem text_renamed : Same r (text args index) (text (args.map (·.rename r)) index) := by
  unfold text
  rw [bind_rename args _ fun d => d.text?_rename]
  cases args[index - 1]?.bind Datum.text? with
  | none => exact wrongType_renamed args index _
  | some _ => exact .pure _

theorem number_renamed : Same r (number args index) (number (args.map (·.rename r)) index) := by
  unfold number
  rw [bind_rename args _ fun d => d.number?_rename]
  cases args[index - 1]?.bind Datum.number? with
  | none => exact wrongType_renamed args index _
  | some _ => exact .pure _

theorem integer_renamed : Same r (integer args index) (integer (args.map (·.rename r)) index) := by
  refine .bind (number_renamed args index) fun n => ?_
  dsimp only [id]
  split
  · exact .pure _
  · exact wrong_renamed index _

theorem table_renamed : Renamed r r.table (table args index)
    (table (args.map (·.rename r)) index) := by
  have refused := wrongType_renamed (r := r) (f := r.table) args index "table"
  unfold table
  rw [List.getElem?_map]
  cases args[index - 1]? with
  | none => exact refused
  | some d =>
    cases d with
    | table id => exact .pure id
    | _ => exact refused

theorem optional_renamed {read : List Datum → Nat → Work α}
    (hr : ∀ args index, Same r (read args index) (read (args.map (·.rename r)) index))
    (default : α) :
    Same r (optional read args index default)
      (optional read (args.map (·.rename r)) index default) := by
  have given := hr args index
  unfold optional
  rw [List.getElem?_map]
  cases args[index - 1]? with
  | none => exact .pure _
  | some d =>
    cases d with
    | nil => exact .pure _
    | _ => exact given

end Work

namespace Library

open Work

/-- The same answer under other numbers. -/
abbrev Answers (r : Renaming) (w w' : Work (List Datum)) : Prop :=
  Work.Renamed r (List.map (·.rename r)) w w'

variable (args : List Datum)

/-! ## Strings -/

theorem substring_renamed : Answers r (substring args) (substring (args.map (·.rename r))) :=
  .bind (text_renamed args 1) fun _ => .bind (integer_renamed args 2) fun _ =>
    .bind (optional_renamed args 3 integer_renamed _) fun _ => .pure _

theorem bytesOf_renamed : Answers r (bytesOf args) (bytesOf (args.map (·.rename r))) := by
  refine .bind (text_renamed args 1) fun bs =>
    .bind (optional_renamed args 2 integer_renamed _) fun start =>
    .bind (optional_renamed args 3 integer_renamed _) fun stop => ?_
  have bytes : ((slice bs start stop).map fun b => Datum.ofInt b.toNat).map (·.rename r) =
      (slice bs start stop).map fun b => Datum.ofInt b.toNat := List.map_map
  have given : Answers r (pure ((slice bs start stop).map fun b => Datum.ofInt b.toNat)) _ :=
    .pure _
  rwa [bytes] at given

theorem ofBytes_renamed : Answers r (ofBytes args) (ofBytes (args.map (·.rename r))) := by
  unfold ofBytes
  rw [List.length_map]
  refine .bind (.mapM (g := id) (fun i => ?_) _) fun bs => ?_
  · refine .bind (integer_renamed args _) fun n => ?_
    dsimp only [id]
    split
    · exact .pure _
    · exact wrong_renamed _ _
  · rw [List.map_id]
    exact .pure _

theorem lengthOf_renamed : Answers r (lengthOf args) (lengthOf (args.map (·.rename r))) :=
  .bind (text_renamed args 1) fun _ => .pure _

theorem each_renamed (change : UInt8 → UInt8) :
    Answers r (each change args) (each change (args.map (·.rename r))) :=
  .bind (text_renamed args 1) fun _ => .pure _

theorem reversed_renamed : Answers r (reversed args) (reversed (args.map (·.rename r))) :=
  .bind (text_renamed args 1) fun _ => .pure _

theorem repeated_renamed : Answers r (repeated args) (repeated (args.map (·.rename r))) := by
  refine .bind (text_renamed args 1) fun _ => .bind (integer_renamed args 2) fun _ =>
    .bind (optional_renamed args 3 text_renamed _) fun _ => ?_
  dsimp only [id]
  split
  · exact complain_renamed _
  · split
    · exact raise_renamed _
    · exact .pure _

end Library

/-- Is it known by its number? -/
def Datum.isNumbered : Datum → Bool
  | .table _ | .closure _ => true
  | _ => false

theorem plainText_rename {d : Datum} (hd : d.isNumbered = false) :
    Library.plainText (d.rename r) = Library.plainText d := by
  cases d with
  | table id => cases hd
  | closure id => cases hd
  | _ => rfl

theorem isNumbered_getD {args : List Datum} (h : args.any Datum.isNumbered = false) (i : Nat) :
    (args.getD i .nil).isNumbered = false := by
  rw [List.getD_eq_getElem?_getD]
  cases hd : args[i]? with
  | none => rfl
  | some d => exact Bool.eq_false_iff.2 (List.any_eq_false.1 h d (List.mem_of_getElem? hd))

namespace Library

open Work

section

variable {args : List Datum} (plain : args.any Datum.isNumbered = false)

include plain

theorem formatted_renamed (f : Format) (letter : Char) (index : Nat) :
    Same r (formatted f letter args index) (formatted f letter (args.map (·.rename r)) index) := by
  have text : plainText ((args.map (·.rename r)).getD (index - 1) .nil) =
      plainText (args.getD (index - 1) .nil) := by
    rw [getD_rename args _ .nil rfl, plainText_rename (isNumbered_getD plain _)]
  unfold formatted
  rw [List.length_map, text]
  split_ifs
  · exact wrong_renamed index _
  · exact .bind (integer_renamed args index) fun _ => .pure _
  · exact .bind (integer_renamed args index) fun _ => .pure _
  · exact .bind (integer_renamed args index) fun _ => .pure _
  · exact .bind (integer_renamed args index) fun _ => .pure _
  · exact .bind (integer_renamed args index) fun _ => .pure _
  · exact .bind (number_renamed args index) fun _ => .pure _
  · exact .pure _
  · exact complain_renamed _

theorem filled_renamed (fuel index : Nat) (cs : List Char) :
    Same r (filled args fuel index cs) (filled (args.map (·.rename r)) fuel index cs) := by
  fun_induction filled args fuel index cs with
  | case1 => exact .pure _
  | case2 fuel index running =>
    rw [filled]
    · exact .pure _
    · exact running
  | case3 index fuel more ih =>
    rw [filled]
    exact .bind ih fun _ => .pure _
  | case4 fuel index more single f read =>
    rw [filled, read]
    · exact complain_renamed _
    · exact single
  | case5 fuel index more single f letter rest read ih =>
    rw [filled, read]
    · exact .bind (formatted_renamed plain f letter index) fun _ => .bind ih fun _ => .pure _
    · exact single
  | case6 index fuel c more single other ih =>
    rw [filled]
    · exact .bind ih fun _ => .pure _
    · exact single
    · exact other

theorem format_renamed : Answers r (Library.format args) (Library.format (args.map (·.rename r))) :=
  .bind (text_renamed args 1) fun _ => .bind (filled_renamed plain _ _ _) fun _ => .pure _

end

/-! ## Numbers -/

variable (args : List Datum)

theorem round_renamed (direction : Float → Int) (directionOfFloat : Float → Float) :
    Answers r (round direction directionOfFloat args)
      (round direction directionOfFloat (args.map (·.rename r))) := by
  refine .bind (number_renamed args 1) fun n => ?_
  cases n with
  | int n => exact .pure _
  | float x =>
    dsimp only [id, whole]
    split
    · cases Word.int64? (direction x) <;> exact .pure [_]
    · exact .pure _

theorem absolute_renamed : Answers r (absolute args) (absolute (args.map (·.rename r))) := by
  refine .bind (number_renamed args 1) fun n => ?_
  cases n <;> exact .pure _

theorem extreme_renamed (before : Number → Number → Bool) :
    Answers r (extreme before args) (extreme before (args.map (·.rename r))) := by
  unfold extreme
  rw [List.length_map]
  refine .bind (number_renamed args 1) fun start =>
    .bind (.mapM (fun i => number_renamed args (i + 2)) _) fun rest => ?_
  rw [List.map_id]
  exact .pure _

theorem remainder_renamed : Answers r (remainder args) (remainder (args.map (·.rename r))) := by
  refine .bind (number_renamed args 1) fun a => .bind (number_renamed args 2) fun b => ?_
  dsimp only [id]
  split
  · split
    · exact wrong_renamed _ _
    · exact .pure _
  · exact .pure _

theorem split_renamed :
    Answers r (Library.split args) (Library.split (args.map (·.rename r))) := by
  have first := number_renamed (r := r) args 1
  unfold Library.split
  match args with
  | .number (.int n) :: _ => exact .pure _
  | [] | .number (.float _) :: _ | .nil :: _ | .bool _ :: _ | .str _ :: _ | .table _ :: _
  | .closure _ :: _ | .native _ :: _ | .failure _ :: _ => exact .bind first fun _ => .pure _

theorem squareRoot_renamed : Answers r (squareRoot args) (squareRoot (args.map (·.rename r))) :=
  .bind (number_renamed args 1) fun _ => .pure _

theorem toInteger_renamed : Answers r (toInteger args) (toInteger (args.map (·.rename r))) := by
  refine .bind (any_renamed args 1) fun d => ?_
  rw [Datum.number?_rename]
  split <;> exact .pure _

theorem kindOfNumber_renamed :
    Answers r (kindOfNumber args) (kindOfNumber (args.map (·.rename r))) := by
  refine .bind (any_renamed args 1) fun d => ?_
  cases d with
  | number n => cases n <;> exact .pure _
  | _ => exact .pure _

theorem belowUnsigned_renamed :
    Answers r (belowUnsigned args) (belowUnsigned (args.map (·.rename r))) :=
  .bind (integer_renamed args 1) fun _ => .bind (integer_renamed args 2) fun _ => .pure _

theorem toNumber_renamed : Answers r (toNumber args) (toNumber (args.map (·.rename r))) := by
  unfold toNumber
  rw [List.getElem?_map, List.head?_map]
  match args[1]? with
  | none | some .nil =>
    refine .bind (any_renamed args 1) fun d => ?_
    rw [Datum.number?_rename]
    cases d.number? <;> exact .pure [_]
  | some (.bool _) | some (.number _) | some (.str _) | some (.table _) | some (.closure _)
  | some (.native _) | some (.failure _) =>
    refine .bind (integer_renamed args 2) fun base => ?_
    have refused : Answers r (wrongType args 1 "string") _ := wrongType_renamed args 1 _
    cases args.head? with
    | none => exact refused
    | some d =>
      cases d with
      | str bs =>
        dsimp only [id, Option.map_some, Datum.rename_str]
        split
        · exact wrong_renamed 2 _
        · cases (Text.decode? bs).bind (ofBase? base.toNat) <;> exact .pure [_]
      | _ => exact refused

/-! ## Tables -/

theorem listAt_renamed (index : Nat) :
    Work.Renamed r (fun l => (r.table l.1, l.2)) (listAt args index)
      (listAt (args.map (·.rename r)) index) := by
  refine .bind (table_renamed args index) fun id => .get fun h h' hh => ?_
  rw [hh.table, Table.length_rename]
  exact .pure (id, _)

theorem itemOf_rename {h h' : Heap} (hh : HeapRenamed r h h') (id : Nat) (n : Int) :
    itemOf h' (r.table id) n = (itemOf h id n).rename r := by
  rw [itemOf, hh.table]
  exact Table.get_rename (h.table id) (.ofInt n)

theorem setItem_renamed (id : Nat) (n : Int) (d : Datum) :
    Same r (setItem id n d) (setItem (r.table id) n (d.rename r)) :=
  .modify fun _ _ hh => hh.setTable id (.ofInt n) d

theorem concatenated_renamed :
    Answers r (concatenated args) (concatenated (args.map (·.rename r))) := by
  refine .bind (listAt_renamed args 1) fun (t, length) =>
    .bind (optional_renamed args 2 text_renamed _) fun separator =>
    .bind (optional_renamed args 3 integer_renamed _) fun start =>
    .bind (optional_renamed args 4 integer_renamed _) fun stop => .get fun h h' hh => ?_
  refine .bind (.mapM (g := id) (fun n => ?_) _) fun items => ?_
  · dsimp only
    rw [itemOf_rename hh, Datum.text?_rename]
    cases (itemOf h t n).text? with
    | none => exact complain_renamed _
    | some bs => exact .pure bs
  · rw [List.map_id]
    exact .pure _

theorem inserted_renamed : Answers r (inserted args) (inserted (args.map (·.rename r))) := by
  refine .bind (listAt_renamed args 1) fun (t, length) => ?_
  match args with
  | [_, d] => exact .bind (setItem_renamed t _ d) fun _ => .pure []
  | [a, b, d] =>
    refine .bind (integer_renamed [a, b, d] 2) fun place => ?_
    dsimp only [id]
    split
    · exact wrong_renamed _ _
    · refine .bind (.forIn (fun n _ => .get fun h h' hh => ?_) _ _) fun _ =>
        .bind (setItem_renamed t _ d) fun _ => .pure []
      rw [itemOf_rename hh]
      exact .bind (setItem_renamed t _ _) fun _ => .pure _
  | [] | [_] | _ :: _ :: _ :: _ :: _ => exact complain_renamed _

theorem removed_renamed : Answers r (removed args) (removed (args.map (·.rename r))) := by
  refine .bind (listAt_renamed args 1) fun (t, length) =>
    .bind (optional_renamed args 2 integer_renamed _) fun place => ?_
  dsimp only [id]
  split
  · exact wrong_renamed _ _
  · refine .get fun h h' hh => ?_
    rw [itemOf_rename hh]
    refine .bind (.forIn (fun n _ => .get fun h h' hh => ?_) _ _) fun _ =>
      .bind (setItem_renamed t _ .nil) fun _ => .pure [_]
    rw [itemOf_rename hh]
    exact .bind (setItem_renamed t _ _) fun _ => .pure _

theorem unpacked_renamed : Answers r (unpacked args) (unpacked (args.map (·.rename r))) := by
  refine .bind (listAt_renamed args 1) fun (t, length) =>
    .bind (optional_renamed args 2 integer_renamed _) fun start =>
    .bind (optional_renamed args 3 integer_renamed _) fun stop => ?_
  dsimp only [id]
  split
  · exact complain_renamed _
  · refine .get fun h h' hh => ?_
    have items : (span start stop).map (itemOf h' (r.table t)) =
        ((span start stop).map (itemOf h t)).map (·.rename r) := by
      rw [List.map_map]
      exact List.map_congr_left fun n _ => itemOf_rename hh t n
    rw [items]
    exact .pure _

theorem packed_renamed : Answers r (packed args) (packed (args.map (·.rename r))) := by
  refine .get fun h h' hh => ?_
  have ht := hh.newTable (Table.ofItems args)
  rw [Table.rename_ofItems] at ht
  dsimp only
  rw [ht.2, List.length_map]
  exact .bind (.set (ht.1.setTable _ _ _)) fun _ => .pure [Datum.table _]

/-! ## The language itself -/

theorem raised_renamed : Answers r (raised args) (raised (args.map (·.rename r))) := by
  refine .bind (optional_renamed args 2 integer_renamed _) fun level => ?_
  rw [first_rename]
  cases first args <;> exact .throw _

theorem asserted_renamed : Answers r (asserted args) (asserted (args.map (·.rename r))) := by
  refine .bind (any_renamed args 1) fun d => ?_
  rw [Datum.holds_rename, getD_rename args 1 _ rfl]
  split
  · exact .pure _
  · cases args.getD 1 (.ofString "assertion failed!") <;> exact .throw _

theorem protectedCall_renamed :
    Answers r (protectedCall args) (protectedCall (args.map (·.rename r))) := by
  cases args with
  | nil => exact raise_renamed _
  | cons f more => exact .throw (.call f more .protect)

theorem protectedCallWith_renamed :
    Answers r (protectedCallWith args) (protectedCallWith (args.map (·.rename r))) := by
  match args with
  | [] | [_] => exact raise_renamed _
  | f :: handler :: more => exact .throw (.call f more (.protectWith handler))

theorem kindOf_renamed : Answers r (kindOf args) (kindOf (args.map (·.rename r))) := by
  refine .bind (any_renamed args 1) fun d => ?_
  rw [Datum.typeName_rename]
  exact .pure _

theorem shown_renamed {h h' : Heap} (hh : HeapRenamed r h h') (d : Datum) :
    Answers r (match h.behaviour? d with
      | none => pure [.nil]
      | some rules =>
        have shown := (h.table rules).get Heap.protectedKey
        pure [if shown.isNil then .table rules else shown] : Work (List Datum))
      (match h'.behaviour? (d.rename r) with
      | none => pure [.nil]
      | some rules =>
        have shown := (h'.table rules).get Heap.protectedKey
        pure [if shown.isNil then .table rules else shown]) := by
  rw [hh.behaviour?]
  cases h.behaviour? d with
  | none => exact .pure _
  | some rules =>
    dsimp only [Option.map_some]
    rw [hh.ruleOf rules Heap.protectedKey rfl, Datum.isNil_rename]
    split <;> exact .pure [_]

theorem metatableOf_renamed :
    Answers r (metatableOf args) (metatableOf (args.map (·.rename r))) := by
  refine .bind (any_renamed args 1) fun d => .get fun h h' hh => ?_
  have last := shown_renamed hh d
  cases d with
  | failure message => exact .pure _
  | table id =>
    dsimp only [Datum.rename_table] at last ⊢
    rw [hh.table, Table.isList_rename]
    split
    · exact .pure _
    · exact last
  | _ => exact last

theorem metatableSet_renamed :
    Answers r (metatableSet args) (metatableSet (args.map (·.rename r))) := by
  refine .bind (table_renamed args 1) fun id => ?_
  have last (rules : Option Nat) : Answers r (do
      let h ← get
      if (h.table id).isList || !(h.behaviour (.table id) Heap.protectedKey).isNil then
        complain "cannot change a protected metatable"
      else
        set (h.setMetatable id rules)
        return [.table id] : Work (List Datum)) (do
      let h ← get
      if (h.table (r.table id)).isList ||
          !(h.behaviour (.table (r.table id)) Heap.protectedKey).isNil then
        complain "cannot change a protected metatable"
      else
        set (h.setMetatable (r.table id) (rules.map r.table))
        return [.table (r.table id)]) := by
    refine .get fun h h' hh => ?_
    have shown := hh.behaviour (.table id) Heap.protectedKey rfl
    rw [Datum.rename_table] at shown
    rw [hh.table, shown, Table.isList_rename, Datum.isNil_rename]
    split
    · exact complain_renamed _
    · exact .bind (.set (hh.setMetatable id rules)) fun _ => .pure [Datum.table id]
  have refused := wrongType_renamed (r := r) (f := Option.map r.table) args 2 "nil or table"
  rw [getD_rename args 1 _ rfl]
  cases args.getD 1 (.bool false) with
  | nil => exact last none
  | table rules => exact last (some rules)
  | _ => exact .bind refused last

theorem rawGet_renamed : Answers r (rawGet args) (rawGet (args.map (·.rename r))) := by
  refine .bind (table_renamed args 1) fun id => .bind (any_renamed args 2) fun key =>
    .get fun h h' hh => ?_
  rw [hh.table, Table.get_rename]
  exact .pure [_]

theorem keyFault?_rename (key : Datum) : keyFault? (key.rename r) = keyFault? key := by
  cases key <;> rfl

theorem rawSet_renamed : Answers r (rawSet args) (rawSet (args.map (·.rename r))) := by
  refine .bind (table_renamed args 1) fun id => .bind (any_renamed args 2) fun key =>
    .bind (any_renamed args 3) fun d => ?_
  rw [keyFault?_rename]
  split
  · exact raise_renamed _
  · exact .bind (.modify fun _ _ hh => hh.setTable id key d) fun _ => .pure [Datum.table id]

theorem rawEqual_renamed : Answers r (rawEqual args) (rawEqual (args.map (·.rename r))) := by
  refine .bind (any_renamed args 1) fun a => .bind (any_renamed args 2) fun b => ?_
  rw [Datum.same_rename]
  exact .pure _

theorem rawLength_renamed : Answers r (rawLength args) (rawLength (args.map (·.rename r))) := by
  unfold rawLength
  rw [first_rename]
  cases first args with
  | table id =>
    refine .get fun h h' hh => ?_
    rw [hh.table, Table.length_rename]
    exact .pure _
  | str bs => exact .pure _
  | _ => exact wrong_renamed 1 _

theorem entryAfter_rename (key : Datum) (entries : List (Datum × Datum)) :
    entryAfter (key.rename r) (entries.map (Datum.renamePair r)) =
      (entryAfter key entries).map (List.map (Datum.renamePair r)) := by
  induction entries with
  | nil => rfl
  | cons e more ih =>
    simp only [List.map_cons, entryAfter, Datum.same_rename, ih]
    split <;> rfl

/-- The entries after a key, all of them for `nil`. -/
def entriesFrom (key : Datum) (entries : List (Datum × Datum)) : Option (List (Datum × Datum)) :=
  match key with
  | .nil => some entries
  | key => entryAfter (Table.keyOf key) entries

theorem entriesFrom_rename (key : Datum) (entries : List (Datum × Datum)) :
    entriesFrom (key.rename r) (entries.map (Datum.renamePair r)) =
      (entriesFrom key entries).map (List.map (Datum.renamePair r)) := by
  have after : entryAfter (Table.keyOf (key.rename r)) (entries.map (Datum.renamePair r)) =
      (entryAfter (Table.keyOf key) entries).map (List.map (Datum.renamePair r)) := by
    rw [Table.keyOf_rename, entryAfter_rename]
  cases key with
  | nil => rfl
  | _ => exact after

/-- The first of the entries that are left. -/
def nextOf : Option (List (Datum × Datum)) → Work (List Datum)
  | none => raise "invalid key to 'next'"
  | some [] => return [.nil]
  | some ((k, v) :: _) => return [k, v]

theorem following_eq :
    following args = get >>= fun h => table args 1 >>= fun id =>
      nextOf (entriesFrom (args.getD 1 .nil) (h.table id).pairs) := by
  unfold following
  refine congrArg (get >>= ·) (funext fun h => congrArg (table args 1 >>= ·) (funext fun id => ?_))
  unfold nextOf entriesFrom
  rfl

theorem following_renamed : Answers r (following args) (following (args.map (·.rename r))) := by
  rw [following_eq, following_eq]
  refine .get fun h h' hh => .bind (table_renamed args 1) fun id => ?_
  rw [hh.table, Table.pairs_rename, getD_rename args 1 _ rfl, entriesFrom_rename]
  match entriesFrom (args.getD 1 .nil) (h.table id).pairs with
  | none => exact raise_renamed _
  | some [] => exact .pure _
  | some ((k, v) :: _) => exact .pure [k, v]

theorem pairsOf_renamed : Answers r (pairsOf args) (pairsOf (args.map (·.rename r))) := by
  refine .bind (any_renamed args 1) fun d => .get fun h h' hh => ?_
  dsimp only
  rw [hh.behaviour d Heap.pairsKey rfl, Datum.isNil_rename]
  split
  · exact .pure [.native .next, d, .nil]
  · exact .throw (.call _ [d] (.take 3))

theorem itemsOf_renamed : Answers r (itemsOf args) (itemsOf (args.map (·.rename r))) :=
  .bind (any_renamed args 1) fun d => .pure [.native .nextItem, d, .ofInt 0]

theorem indexed_rename (index : Int64) (d : Datum) :
    indexed index (d.rename r) = (indexed index d).map (·.rename r) := by
  unfold indexed
  rw [Datum.isNil_rename]
  split <;> rfl

theorem followingItem_renamed :
    Answers r (followingItem args) (followingItem (args.map (·.rename r))) := by
  refine .bind (integer_renamed args 2) fun n => .get fun h h' hh => ?_
  have found := hh.index (first args) (.number (.int (Int64.ofInt (n + 1))))
  rw [← first_rename, Datum.rename_number] at found
  dsimp only [id]
  rw [found]
  cases h.index (first args) (.number (.int (Int64.ofInt (n + 1)))) with
  | done d =>
    dsimp only [Heap.Access.rename]
    rw [indexed_rename]
    exact .pure _
  | call f more => exact .throw (.call f more (.item _))
  | noFields d asked =>
    dsimp only [Heap.Access.rename]
    rw [Datum.typeName_rename]
    exact raise_renamed _
  | endless => exact raise_renamed _

theorem selected_else {args : List Datum} (h : ∀ more, args ≠ .str [35] :: more) :
    selected args = do
      let n ← integer args 1
      let n := if n < 0 then args.length + n else min n args.length
      if n < 1 then wrong 1 "index out of range" else return args.drop n.toNat := by
  unfold selected
  dsimp only
  split
  · exact absurd rfl (h _)
  · rfl

theorem selected_renamed : Answers r (selected args) (selected (args.map (·.rename r))) := by
  by_cases counted : ∃ more, args = .str [35] :: more
  · obtain ⟨more, rfl⟩ := counted
    simp only [selected, List.map_cons, Datum.rename_str, List.length_map]
    exact .pure _
  · simp only [not_exists] at counted
    have others (more : List Datum) : args.map (·.rename r) ≠ .str [35] :: more := by
      intro same
      cases args with
      | nil => cases same
      | cons d args =>
        cases d with
        | str bs =>
          obtain rfl : bs = [35] := Datum.str.inj (List.cons.inj same).1
          exact counted args rfl
        | _ => cases (List.cons.inj same).1
    rw [selected_else counted, selected_else others, List.length_map]
    refine .bind (integer_renamed args 1) fun n => ?_
    dsimp only [id]
    generalize (if n < 0 then _ else min n _) = n
    split
    · exact wrong_renamed 1 _
    · rw [← List.map_drop]
      exact .pure _

theorem loaded_renamed : Answers r (loaded args) (loaded (args.map (·.rename r))) := by
  unfold loaded
  rw [bind_rename args _ fun d => d.text?_rename]
  cases args[0]?.bind Datum.text? with
  | none => exact wrongType_renamed args 1 _
  | some bs =>
    refine .bind (optional_renamed args 2 text_renamed _) fun name =>
      .bind (optional_renamed args 3 text_renamed _) fun mode => ?_
    dsimp only [id]
    split
    · exact .pure _
    · split
      · exact .pure _
      · refine .get fun h h' hh => ?_
        have globals : (Datum.table Heap.globals).rename r = .table Heap.globals :=
          congrArg Datum.table r.globals
        rw [getD_rename args 3 _ globals]
        obtain ⟨hp, hf⟩ := hh.newProgram (chunkName (Text.decodeLossy name)) _
          (args.getD 3 (.table Heap.globals))
        rw [hf]
        exact .bind (.set hp) fun _ => .pure [_]

end Library

/-! ## All functions -/

/-- Does a function write the number of a table or a function into a text? -/
def Native.showsNumber (h : Heap) (args : List Datum) : Native → Bool
  | .tostring => (first args).isNumbered && (h.behaviour (first args) Heap.textKey).isNil
  | .format => args.any Datum.isNumbered
  | _ => false

theorem Library.textOf_renamed {h h' : Heap} (hh : HeapRenamed r h h') {args : List Datum}
    (hidden : Native.tostring.showsNumber h args = false) :
    Work.RenamedIn r (List.map (·.rename r)) h h' (textOf args)
      (textOf (args.map (·.rename r))) := by
  cases args with
  | nil => exact ⟨rfl, hh⟩
  | cons d more =>
    have rules := hh.behaviour d Heap.textKey rfl
    have answered : Answers r
        (if (h.behaviour d Heap.textKey).isNil then return [.str (plainText d)]
          else throw (.call (h.behaviour d Heap.textKey) [d] .text))
        (if (h'.behaviour (d.rename r) Heap.textKey).isNil then
            return [.str (plainText (d.rename r))]
          else throw (.call (h'.behaviour (d.rename r) Heap.textKey) [d.rename r] .text)) := by
      rw [rules, Datum.isNil_rename]
      by_cases silent : (h.behaviour d Heap.textKey).isNil
      · have plain : d.isNumbered = false := by
          cases hd : d.isNumbered with
          | false => rfl
          | true => simp [Native.showsNumber, first, hd, silent] at hidden
        rw [if_pos silent, if_pos silent, plainText_rename plain]
        exact .pure [Datum.str _]
      · rw [if_neg silent, if_neg silent]
        exact .throw (.call _ [d] .text)
    exact answered h h' hh

theorem Builtin.work_renamed (host : Host) (b : Builtin) (args : List Datum) :
    Library.Answers r (Builtin.work host b args) (Builtin.work host b (args.map (·.rename r))) := by
  refine .get fun h h' hh => ?_
  have values : (args.map (·.rename r)).mapM h'.toValue = args.mapM h.toValue := by
    rw [List.mapM_map]
    exact congrArg (args.mapM ·) (funext hh.toValue)
  rw [values]
  cases args.mapM h.toValue with
  | error e => exact .throw (.raise (.failure _))
  | ok values =>
    dsimp only
    cases b.call host values with
    | error e => exact .throw (.raise (.failure _))
    | ok v =>
      obtain ⟨hv, hd⟩ := hh.ofValue v
      dsimp only
      rw [hd]
      exact .bind (.set hv) fun _ => .pure [_]

theorem Native.work_renamed (host : Host) {h h' : Heap} (hh : HeapRenamed r h h')
    (args : List Datum) (f : Native) (hidden : f.showsNumber h args = false) :
    Work.RenamedIn r (List.map (·.rename r)) h h' (f.work host args)
      (f.work host (args.map (·.rename r))) := by
  cases f with
  | assert => exact Library.asserted_renamed args h h' hh
  | error => exact Library.raised_renamed args h h' hh
  | getmetatable => exact Library.metatableOf_renamed args h h' hh
  | ipairs => exact Library.itemsOf_renamed args h h' hh
  | load => exact Library.loaded_renamed args h h' hh
  | next => exact Library.following_renamed args h h' hh
  | pairs => exact Library.pairsOf_renamed args h h' hh
  | pcall => exact Library.protectedCall_renamed args h h' hh
  | print => exact ⟨rfl, hh⟩
  | rawequal => exact Library.rawEqual_renamed args h h' hh
  | rawget => exact Library.rawGet_renamed args h h' hh
  | rawlen => exact Library.rawLength_renamed args h h' hh
  | rawset => exact Library.rawSet_renamed args h h' hh
  | select => exact Library.selected_renamed args h h' hh
  | setmetatable => exact Library.metatableSet_renamed args h h' hh
  | tonumber => exact Library.toNumber_renamed args h h' hh
  | tostring => exact Library.textOf_renamed hh hidden
  | type => exact Library.kindOf_renamed args h h' hh
  | xpcall => exact Library.protectedCallWith_renamed args h h' hh
  | byte => exact Library.bytesOf_renamed args h h' hh
  | char => exact Library.ofBytes_renamed args h h' hh
  | format => exact Library.format_renamed hidden h h' hh
  | len => exact Library.lengthOf_renamed args h h' hh
  | lower => exact Library.each_renamed args _ h h' hh
  | rep => exact Library.repeated_renamed args h h' hh
  | reverse => exact Library.reversed_renamed args h h' hh
  | sub => exact Library.substring_renamed args h h' hh
  | upper => exact Library.each_renamed args _ h h' hh
  | concat => exact Library.concatenated_renamed args h h' hh
  | insert => exact Library.inserted_renamed args h h' hh
  | pack => exact Library.packed_renamed args h h' hh
  | remove => exact Library.removed_renamed args h h' hh
  | unpack => exact Library.unpacked_renamed args h h' hh
  | abs => exact Library.absolute_renamed args h h' hh
  | ceil => exact Library.round_renamed args _ _ h h' hh
  | floor => exact Library.round_renamed args _ _ h h' hh
  | fmod => exact Library.remainder_renamed args h h' hh
  | max => exact Library.extreme_renamed args _ h h' hh
  | min => exact Library.extreme_renamed args _ h h' hh
  | modf => exact Library.split_renamed args h h' hh
  | sqrt => exact Library.squareRoot_renamed args h h' hh
  | tointeger => exact Library.toInteger_renamed args h h' hh
  | kind => exact Library.kindOfNumber_renamed args h h' hh
  | ult => exact Library.belowUnsigned_renamed args h h' hh
  | nextItem => exact Library.followingItem_renamed args h h' hh
  | refuseChange => exact ⟨rfl, hh⟩
  | builtin b => exact Builtin.work_renamed host b args h h' hh

end EnvManifest.Script
