import EnvManifest.Proofs.Script.Heap
import EnvManifest.Script.Library

/-!
# Functions of the language in heaps that fold

Every function gives the same answer in two heaps that fold, and leaves heaps that fold: it asks
a heap for tables only, and of functions it makes none but those of programs it has read itself.
-/

namespace EnvManifest.Script

variable {swaps : Expr → Expr → Prop} {α β : Type}

/-! ## Work -/

/-- Two pieces of work with the same answer in heaps that fold, which leave heaps that fold. -/
def Work.Alike (swaps : Expr → Expr → Prop) (w w' : Work α) : Prop :=
  ∀ h h', HeapFolds swaps h h' →
    (w.run.run h).1 = (w'.run.run h').1 ∧ HeapFolds swaps (w.run.run h).2 (w'.run.run h').2

/-- Work that does the same in heaps that fold. -/
abbrev Work.Steady (swaps : Expr → Expr → Prop) (w : Work α) : Prop := Work.Alike swaps w w

namespace Work

theorem Alike.pure (a : α) : Steady swaps (Pure.pure a) := fun _ _ hh => ⟨rfl, hh⟩

theorem Alike.throw (i : Interruption) : Steady swaps (throw i : Work α) :=
  fun _ _ hh => ⟨rfl, hh⟩

theorem Alike.bind {w w' : Work α} {k k' : α → Work β} (hw : Alike swaps w w')
    (hk : ∀ a, Alike swaps (k a) (k' a)) : Alike swaps (w >>= k) (w' >>= k') := by
  intro h h' hh
  obtain ⟨hr, hs⟩ := hw h h' hh
  simp only [ExceptT.run_bind, StateT.run_bind]
  generalize hx : w.run.run h = x at hr hs
  generalize hx' : w'.run.run h' = x' at hr hs
  obtain ⟨r, g⟩ := x
  obtain ⟨r', g'⟩ := x'
  subst hr
  cases r with
  | ok a => exact hk a g g' hs
  | error i => exact ⟨rfl, hs⟩

theorem Alike.get {k k' : Heap → Work α}
    (hk : ∀ h h', HeapFolds swaps h h' → Alike swaps (k h) (k' h')) :
    Alike swaps (get >>= k) (get >>= k') :=
  fun h h' hh => hk h h' hh h h' hh

theorem Alike.set {h h' : Heap} (hh : HeapFolds swaps h h') :
    Alike swaps (set h : Work PUnit) (set h') :=
  fun _ _ _ => ⟨rfl, hh⟩

theorem Alike.modify {f : Heap → Heap} (hf : ∀ h h', HeapFolds swaps h h' →
    HeapFolds swaps (f h) (f h')) : Steady swaps (modify f : Work PUnit) :=
  fun h h' hh => ⟨rfl, hf h h' hh⟩

theorem Alike.mapM {f : α → Work β} (hf : ∀ a, Steady swaps (f a)) (as : List α) :
    Steady swaps (as.mapM f) := by
  induction as with
  | nil => exact .pure []
  | cons a as ih =>
    rw [List.mapM_cons]
    exact .bind (hf a) fun _ => .bind ih fun _ => .pure _

theorem Alike.forIn {f : α → β → Work (ForInStep β)} (hf : ∀ a b, Steady swaps (f a b))
    (as : List α) (b : β) : Steady swaps (forIn as b f) := by
  induction as generalizing b with
  | nil => exact .pure _
  | cons a as ih =>
    rw [List.forIn_cons]
    refine .bind (hf a b) fun r => ?_
    cases r with
    | done b => exact .pure b
    | yield b => exact ih b

/-! ## Arguments -/

variable (args : List Datum) (index : Nat)

theorem complain_steady (message : String) : Steady swaps (complain message : Work α) := .throw _

theorem raise_steady (message : String) : Steady swaps (raise message : Work α) := .throw _

theorem wrong_steady (fault : String) : Steady swaps (wrong index fault : Work α) := .throw _

theorem wrongType_steady (wanted : String) : Steady swaps (wrongType args index wanted : Work α) :=
  .throw _

theorem any_steady : Steady swaps (any args index) := by
  unfold any
  split
  · exact .pure _
  · exact wrong_steady index _

theorem text_steady : Steady swaps (text args index) := by
  unfold text
  split
  · exact .pure _
  · exact wrongType_steady args index _

theorem number_steady : Steady swaps (number args index) := by
  unfold number
  split
  · exact .pure _
  · exact wrongType_steady args index _

theorem integer_steady : Steady swaps (integer args index) := by
  refine .bind (number_steady args index) fun n => ?_
  split
  · exact .pure _
  · exact wrong_steady index _

theorem table_steady : Steady swaps (table args index) := by
  unfold table
  split
  · exact .pure _
  · exact wrongType_steady args index _

theorem optional_steady {read : List Datum → Nat → Work α}
    (hr : ∀ args index, Steady swaps (read args index)) (default : α) :
    Steady swaps (optional read args index default) := by
  unfold optional
  split
  · exact .pure _
  · exact .pure _
  · exact hr args index

end Work

namespace Library

open Work

variable (args : List Datum)

/-! ## Strings -/

theorem substring_steady : Steady swaps (substring args) :=
  .bind (text_steady args 1) fun _ => .bind (integer_steady args 2) fun _ =>
    .bind (optional_steady args 3 integer_steady _) fun _ => .pure _

theorem bytesOf_steady : Steady swaps (bytesOf args) :=
  .bind (text_steady args 1) fun _ => .bind (optional_steady args 2 integer_steady _) fun _ =>
    .bind (optional_steady args 3 integer_steady _) fun _ => .pure _

theorem ofBytes_steady : Steady swaps (ofBytes args) := by
  refine .bind (.mapM (fun i => ?_) _) fun _ => .pure _
  refine .bind (integer_steady args _) fun n => ?_
  split
  · exact .pure _
  · exact wrong_steady _ _

theorem lengthOf_steady : Steady swaps (lengthOf args) :=
  .bind (text_steady args 1) fun _ => .pure _

theorem each_steady (change : UInt8 → UInt8) : Steady swaps (each change args) :=
  .bind (text_steady args 1) fun _ => .pure _

theorem reversed_steady : Steady swaps (reversed args) :=
  .bind (text_steady args 1) fun _ => .pure _

theorem repeated_steady : Steady swaps (repeated args) := by
  refine .bind (text_steady args 1) fun _ => .bind (integer_steady args 2) fun _ =>
    .bind (optional_steady args 3 text_steady _) fun _ => ?_
  split
  · exact complain_steady _
  · split
    · exact raise_steady _
    · exact .pure _

theorem formatted_steady (f : Format) (letter : Char) (index : Nat) :
    Steady swaps (formatted f letter args index) := by
  unfold formatted
  split_ifs
  · exact wrong_steady index _
  · exact .bind (integer_steady args index) fun _ => .pure _
  · exact .bind (integer_steady args index) fun _ => .pure _
  · exact .bind (integer_steady args index) fun _ => .pure _
  · exact .bind (integer_steady args index) fun _ => .pure _
  · exact .bind (integer_steady args index) fun _ => .pure _
  · exact .bind (number_steady args index) fun _ => .pure _
  · exact .pure _
  · exact complain_steady _

theorem filled_steady (fuel index : Nat) (cs : List Char) :
    Steady swaps (filled args fuel index cs) := by
  fun_induction filled args fuel index cs with
  | case1 | case2 => exact .pure _
  | case3 index fuel more ih => exact .bind ih fun _ => .pure _
  | case4 => exact complain_steady _
  | case5 fuel index more _ f letter rest _ ih =>
    exact .bind (formatted_steady args f letter index) fun _ => .bind ih fun _ => .pure _
  | case6 index fuel c more _ _ ih => exact .bind ih fun _ => .pure _

theorem format_steady : Steady swaps (Library.format args) :=
  .bind (text_steady args 1) fun _ => .bind (filled_steady args _ _ _) fun _ => .pure _

/-! ## Numbers -/

theorem round_steady (direction : Float → Int) (directionOfFloat : Float → Float) :
    Steady swaps (round direction directionOfFloat args) := by
  refine .bind (number_steady args 1) fun n => ?_
  cases n with
  | int n => exact .pure _
  | float x =>
    dsimp only
    split
    · exact .pure _
    · exact .pure _

theorem absolute_steady : Steady swaps (absolute args) := by
  refine .bind (number_steady args 1) fun n => ?_
  cases n <;> exact .pure _

theorem extreme_steady (before : Number → Number → Bool) : Steady swaps (extreme before args) :=
  .bind (number_steady args 1) fun _ => .bind (.mapM (fun _ => number_steady args _) _) fun _ =>
    .pure _

theorem remainder_steady : Steady swaps (remainder args) := by
  refine .bind (number_steady args 1) fun a => .bind (number_steady args 2) fun b => ?_
  split
  · split
    · exact wrong_steady _ _
    · exact .pure _
  · exact .pure _

theorem split_steady : Steady swaps (Library.split args) := by
  unfold Library.split
  split
  · exact .pure _
  · exact .bind (number_steady args 1) fun _ => .pure _

theorem squareRoot_steady : Steady swaps (squareRoot args) :=
  .bind (number_steady args 1) fun _ => .pure _

theorem toInteger_steady : Steady swaps (toInteger args) := by
  refine .bind (any_steady args 1) fun d => ?_
  split <;> exact .pure _

theorem kindOfNumber_steady : Steady swaps (kindOfNumber args) := by
  refine .bind (any_steady args 1) fun d => ?_
  split <;> exact .pure _

theorem belowUnsigned_steady : Steady swaps (belowUnsigned args) :=
  .bind (integer_steady args 1) fun _ => .bind (integer_steady args 2) fun _ => .pure _

theorem toNumber_steady : Steady swaps (toNumber args) := by
  unfold toNumber
  split
  · exact .bind (any_steady args 1) fun _ => .pure _
  · exact .bind (any_steady args 1) fun _ => .pure _
  · refine .bind (integer_steady args 2) fun base => ?_
    split
    · split
      · exact wrong_steady _ _
      · exact .pure _
    · exact wrongType_steady args 1 _

/-! ## Tables -/

theorem listAt_steady (index : Nat) : Steady swaps (listAt args index) := by
  refine .bind (table_steady args index) fun id => .get fun h h' hh => ?_
  rw [hh.table]
  exact .pure _

theorem itemOf_eq {h h' : Heap} (hh : HeapFolds swaps h h') : itemOf h = itemOf h' := by
  funext id n
  rw [itemOf, hh.table, itemOf]

theorem setItem_steady (id : Nat) (n : Int) (d : Datum) : Steady swaps (setItem id n d) :=
  .modify fun _ _ hh => hh.setTable id (.ofInt n) d

theorem concatenated_steady : Steady swaps (concatenated args) := by
  refine .bind (listAt_steady args 1) fun (id, length) =>
    .bind (optional_steady args 2 text_steady _) fun _ =>
    .bind (optional_steady args 3 integer_steady _) fun _ =>
    .bind (optional_steady args 4 integer_steady _) fun _ => .get fun h h' hh => ?_
  rw [itemOf_eq hh]
  refine .bind (.mapM (fun n => ?_) _) fun _ => .pure _
  split
  · exact .pure _
  · exact complain_steady _

theorem inserted_steady : Steady swaps (inserted args) := by
  refine .bind (listAt_steady args 1) fun (id, length) => ?_
  dsimp only
  split
  · exact .bind (setItem_steady id _ _) fun _ => .pure _
  · refine .bind (integer_steady _ 2) fun place => ?_
    split
    · exact wrong_steady _ _
    · refine .bind (.forIn (fun n _ => .get fun h h' hh => ?_) _ _) fun _ =>
        .bind (setItem_steady id _ _) fun _ => .pure _
      rw [itemOf_eq hh]
      exact .bind (setItem_steady id _ _) fun _ => .pure _
  · exact complain_steady _

theorem removed_steady : Steady swaps (removed args) := by
  refine .bind (listAt_steady args 1) fun (id, length) =>
    .bind (optional_steady args 2 integer_steady _) fun place => ?_
  dsimp only
  split
  · exact wrong_steady _ _
  · refine .get fun h h' hh => ?_
    rw [itemOf_eq hh]
    refine .bind (.forIn (fun n _ => .get fun h h' hh => ?_) _ _) fun _ =>
      .bind (setItem_steady id _ _) fun _ => .pure _
    rw [itemOf_eq hh]
    exact .bind (setItem_steady id _ _) fun _ => .pure _

theorem unpacked_steady : Steady swaps (unpacked args) := by
  refine .bind (listAt_steady args 1) fun (id, length) =>
    .bind (optional_steady args 2 integer_steady _) fun _ =>
    .bind (optional_steady args 3 integer_steady _) fun _ => ?_
  split
  · exact complain_steady _
  · refine .get fun h h' hh => ?_
    rw [itemOf_eq hh]
    exact .pure _

theorem packed_steady : Steady swaps (packed args) := by
  refine .get fun h h' hh => ?_
  have ht := hh.newTable (Table.ofItems args)
  dsimp only
  rw [← ht.2]
  exact .bind (.set (ht.1.setTable _ _ _)) fun _ => .pure _

/-! ## The language itself -/

theorem raised_steady : Steady swaps (raised args) := by
  refine .bind (optional_steady args 2 integer_steady _) fun level => ?_
  split <;> exact .throw _

theorem asserted_steady : Steady swaps (asserted args) := by
  refine .bind (any_steady args 1) fun d => ?_
  split
  · exact .pure _
  · split <;> exact .throw _

theorem protectedCall_steady : Steady swaps (protectedCall args) := by
  unfold protectedCall
  split
  · exact raise_steady _
  · exact .throw _

theorem protectedCallWith_steady : Steady swaps (protectedCallWith args) := by
  unfold protectedCallWith
  split
  · exact .throw _
  · exact raise_steady _

theorem kindOf_steady : Steady swaps (kindOf args) := .bind (any_steady args 1) fun _ => .pure _

theorem textOf_steady : Steady swaps (textOf args) := by
  refine .bind (any_steady args 1) fun d => .get fun h h' hh => ?_
  rw [hh.behaviour]
  dsimp only
  split
  · exact .pure _
  · exact .throw _

theorem shown_steady (h : Heap) (behaviour : Option Nat) :
    Steady swaps (match behaviour with
      | none => pure [.nil]
      | some rules =>
        have shown := (h.table rules).get Heap.protectedKey
        pure [if shown.isNil then .table rules else shown] : Work (List Datum)) := by
  split <;> exact .pure _

theorem metatableOf_steady : Steady swaps (metatableOf args) := by
  refine .bind (any_steady args 1) fun d => .get fun h h' hh => ?_
  simp only [hh.behaviour?, hh.table]
  have last : Steady swaps _ := shown_steady h' (h'.behaviour? d)
  cases d with
  | failure message => exact .pure _
  | table id =>
    dsimp only
    split
    · exact .pure _
    · exact last
  | _ => exact last

theorem metatableSet_steady : Steady swaps (metatableSet args) := by
  refine .bind (table_steady args 1) fun id => ?_
  have last : ∀ rules, Steady swaps (do
      let h ← get
      if (h.table id).isList || !(h.behaviour (.table id) Heap.protectedKey).isNil then
        complain "cannot change a protected metatable"
      else
        set (h.setMetatable id rules)
        return [.table id] : Work (List Datum)) := by
    intro rules
    refine .get fun h h' hh => ?_
    rw [hh.table, hh.behaviour]
    split
    · exact complain_steady _
    · exact .bind (.set (hh.setMetatable id rules)) fun _ => .pure _
  dsimp only
  split
  · exact last _
  · exact last _
  · exact .bind (wrongType_steady args 2 _) fun _ => last _

theorem rawGet_steady : Steady swaps (rawGet args) := by
  refine .bind (table_steady args 1) fun id => .bind (any_steady args 2) fun key =>
    .get fun h h' hh => ?_
  rw [hh.table]
  exact .pure _

theorem rawSet_steady : Steady swaps (rawSet args) := by
  refine .bind (table_steady args 1) fun id => .bind (any_steady args 2) fun key =>
    .bind (any_steady args 3) fun d => ?_
  split
  · exact raise_steady _
  · exact .bind (.modify fun _ _ hh => hh.setTable id key d) fun _ => .pure _

theorem rawEqual_steady : Steady swaps (rawEqual args) :=
  .bind (any_steady args 1) fun _ => .bind (any_steady args 2) fun _ => .pure _

theorem rawLength_steady : Steady swaps (rawLength args) := by
  unfold rawLength
  split
  · refine .get fun h h' hh => ?_
    rw [hh.table]
    exact .pure _
  · exact .pure _
  · exact wrong_steady _ _

theorem following_steady : Steady swaps (following args) := by
  refine .get fun h h' hh => .bind (table_steady args 1) fun id => ?_
  rw [hh.table]
  dsimp only
  split
  · exact raise_steady _
  · exact .pure _
  · exact .pure _

theorem pairsOf_steady : Steady swaps (pairsOf args) := by
  refine .bind (any_steady args 1) fun d => .get fun h h' hh => ?_
  rw [hh.behaviour]
  dsimp only
  split
  · exact .pure _
  · exact .throw _

theorem itemsOf_steady : Steady swaps (itemsOf args) :=
  .bind (any_steady args 1) fun _ => .pure _

theorem followingItem_steady : Steady swaps (followingItem args) := by
  refine .bind (integer_steady args 2) fun n => .get fun h h' hh => ?_
  rw [hh.index]
  split
  · exact .pure _
  · exact .throw _
  · exact raise_steady _
  · exact raise_steady _

theorem selected_steady : Steady swaps (selected args) := by
  unfold selected
  split
  · exact .pure _
  · refine .bind (integer_steady _ 1) fun n => ?_
    dsimp only
    generalize (if n < 0 then _ else min n _) = n
    split
    · exact wrong_steady _ _
    · exact .pure _

theorem loaded_steady : Steady swaps (loaded args) := by
  unfold loaded
  split
  · exact wrongType_steady args 1 _
  · refine .bind (optional_steady args 2 text_steady _) fun name =>
      .bind (optional_steady args 3 text_steady _) fun mode => ?_
    dsimp only
    split
    · exact .pure _
    · split
      · exact .pure _
      · refine .get fun h h' hh => ?_
        obtain ⟨hp, hf⟩ := hh.newProgram (chunkName (Text.decodeLossy name)) (.refl _)
          (args.getD 3 (.table Heap.globals))
        rw [← hf]
        exact .bind (.set hp) fun _ => .pure _

end Library

/-! ## All functions -/

theorem Builtin.work_steady (host : Host) (b : Builtin) (args : List Datum) :
    Work.Steady swaps (Builtin.work host b args) := by
  refine .get fun h h' hh => ?_
  rw [show h.toValue = h'.toValue from funext hh.toValue]
  split
  · exact .throw _
  · split
    · exact .throw _
    · next v _ =>
      obtain ⟨hv, hd⟩ := hh.ofValue v
      dsimp only
      rw [← hd]
      exact .bind (.set hv) fun _ => .pure _

theorem Native.work_steady (host : Host) (args : List Datum) (f : Native) :
    Work.Steady swaps (f.work host args) := by
  cases f with
  | assert => exact Library.asserted_steady args
  | error => exact Library.raised_steady args
  | getmetatable => exact Library.metatableOf_steady args
  | ipairs => exact Library.itemsOf_steady args
  | load => exact Library.loaded_steady args
  | next => exact Library.following_steady args
  | pairs => exact Library.pairsOf_steady args
  | pcall => exact Library.protectedCall_steady args
  | print => exact .pure _
  | rawequal => exact Library.rawEqual_steady args
  | rawget => exact Library.rawGet_steady args
  | rawlen => exact Library.rawLength_steady args
  | rawset => exact Library.rawSet_steady args
  | select => exact Library.selected_steady args
  | setmetatable => exact Library.metatableSet_steady args
  | tonumber => exact Library.toNumber_steady args
  | tostring => exact Library.textOf_steady args
  | type => exact Library.kindOf_steady args
  | xpcall => exact Library.protectedCallWith_steady args
  | byte => exact Library.bytesOf_steady args
  | char => exact Library.ofBytes_steady args
  | format => exact Library.format_steady args
  | len => exact Library.lengthOf_steady args
  | lower => exact Library.each_steady args _
  | rep => exact Library.repeated_steady args
  | reverse => exact Library.reversed_steady args
  | sub => exact Library.substring_steady args
  | upper => exact Library.each_steady args _
  | concat => exact Library.concatenated_steady args
  | insert => exact Library.inserted_steady args
  | pack => exact Library.packed_steady args
  | remove => exact Library.removed_steady args
  | unpack => exact Library.unpacked_steady args
  | abs => exact Library.absolute_steady args
  | ceil => exact Library.round_steady args _ _
  | floor => exact Library.round_steady args _ _
  | fmod => exact Library.remainder_steady args
  | max => exact Library.extreme_steady args _
  | min => exact Library.extreme_steady args _
  | modf => exact Library.split_steady args
  | sqrt => exact Library.squareRoot_steady args
  | tointeger => exact Library.toInteger_steady args
  | kind => exact Library.kindOfNumber_steady args
  | ult => exact Library.belowUnsigned_steady args
  | nextItem => exact Library.followingItem_steady args
  | refuseChange => exact .throw _
  | builtin b => exact Builtin.work_steady host b args

end EnvManifest.Script
