import EnvManifest.Proofs.Script.Renaming.Heaps

/-!
# Operators in heaps with other numbers

An operator makes the same of the same operands, and faults name kinds and origins only.
-/

namespace EnvManifest.Script

variable {r : Renaming}

def Operand.rename (r : Renaming) (a : Operand) : Operand := ⟨a.datum.rename r, a.origin⟩

def Operated.rename (r : Renaming) : Operated → Operated
  | .done d => .done (d.rename r)
  | .call f a b => .call (f.rename r) (a.rename r) (b.rename r)
  | .test f a b result => .test (f.rename r) (a.rename r) (b.rename r) result
  | .fault message => .fault message

/-! ## Operands -/

section

variable (a b : Operand)

@[simp] theorem Operand.datum_rename : (a.rename r).datum = a.datum.rename r := rfl

@[simp] theorem Operand.origin_rename : (a.rename r).origin = a.origin := rfl

@[simp] theorem Operand.isNumber_rename : (a.rename r).isNumber = a.isNumber := by
  obtain ⟨d, o⟩ := a
  cases d <;> rfl

@[simp] theorem Operand.isString_rename : (a.rename r).isString = a.isString := by
  obtain ⟨d, o⟩ := a
  cases d <;> rfl

@[simp] theorem Operand.refuse_rename (action : String) :
    Operand.refuse action (a.rename r) = (Operand.refuse action a).rename r := by
  simp [Operand.refuse, Operated.rename]

theorem refuseString_rename (name : String) (x y : Datum) :
    refuseString name (x.rename r) (y.rename r) = (refuseString name x y).rename r := by
  simp [refuseString, Operated.rename]

theorem noOrder_rename (x y : Datum) :
    noOrder (x.rename r) (y.rename r) = (noOrder x y).rename r := by
  simp [noOrder, Operated.rename]

theorem compute_rename (op : Number.Op) (x y : Number) :
    (compute op x y).rename r = compute op x y := by
  unfold compute
  split <;> rfl

theorem blamed_rename {isFine : Operand → Bool} (same : isFine (a.rename r) = isFine a) :
    blamed isFine (a.rename r) (b.rename r) = (blamed isFine a b).rename r := by
  unfold blamed
  rw [same]
  split <;> rfl

end

/-! ## Functions that operands bring -/

namespace HeapRenamed

variable {h h' : Heap}

theorem behaviourOf (hh : HeapRenamed r h h') (a : Operand) (key : Datum)
    (hk : key.rename r = key) :
    h'.behaviour (a.rename r).datum key = (h.behaviour a.datum key).rename r :=
  hh.behaviour a.datum key hk

theorem brought (hh : HeapRenamed r h h') (key : Datum) (hk : key.rename r = key) (a b : Operand)
    {o o' : Operated} (ho : o' = o.rename r) :
    h'.brought key (a.rename r) (b.rename r) o' = (h.brought key a b o).rename r := by
  simp only [Heap.brought, hh.behaviourOf a key hk, hh.behaviourOf b key hk, Datum.isNil_rename, ho]
  split_ifs <;> rfl

end HeapRenamed

/-! ## Arithmetic -/

/-- Arithmetic with an operand that is no number. -/
theorem Heap.arithmetic_else (h : Heap) (op : Number.Op) {a b : Operand}
    (hab : ¬ (a.isNumber ∧ b.isNumber)) :
    h.arithmetic op a b =
      let key := operationKey (arithName op)
      let ofFirst := if a.isString then .nil else h.behaviour a.datum key
      if !ofFirst.isNil then .call ofFirst a.datum b.datum
      else if a.isString || b.isString then
        match a.datum.number?, b.datum.number? with
        | some x, some y => compute op x y
        | _, _ =>
          let ofSecond := if b.isString then .nil else h.behaviour b.datum key
          if ofSecond.isNil then refuseString (arithName op) a.datum b.datum
          else .call ofSecond a.datum b.datum
      else
        h.brought key a b
          (Operand.refuse "perform arithmetic on" (blamed Operand.isNumber a b)) := by
  obtain ⟨x, o⟩ := a
  obtain ⟨y, p⟩ := b
  cases x <;> cases y <;> first | rfl | exact absurd ⟨rfl, rfl⟩ hab

namespace HeapRenamed

variable {h h' : Heap}

theorem arithmetic (hh : HeapRenamed r h h') (op : Number.Op) (a b : Operand) :
    h'.arithmetic op (a.rename r) (b.rename r) = (h.arithmetic op a b).rename r := by
  by_cases hab : a.isNumber ∧ b.isNumber
  · obtain ⟨x, o⟩ := a
    obtain ⟨y, p⟩ := b
    cases x with
    | number x =>
      cases y with
      | number y => exact (compute_rename op x y).symm
      | _ => cases hab.2
    | _ => cases hab.1
  have key : (operationKey (arithName op)).rename r = operationKey (arithName op) := rfl
  have own (a : Operand) :
      (if (a.rename r).isString then Datum.nil
        else h'.behaviour (a.rename r).datum (operationKey (arithName op))) =
      (if a.isString then Datum.nil
        else h.behaviour a.datum (operationKey (arithName op))).rename r := by
    rw [hh.behaviourOf a _ key, Operand.isString_rename]
    split <;> rfl
  have last := hh.brought _ key a b (Operand.refuse_rename (r := r)
    (blamed Operand.isNumber a b) "perform arithmetic on")
  rw [← blamed_rename a b a.isNumber_rename] at last
  rw [Heap.arithmetic_else h op hab, Heap.arithmetic_else h' op (by simpa using hab)]
  dsimp only
  rw [last, own a, own b]
  generalize (if a.isString then Datum.nil else h.behaviour a.datum _) = f
  generalize (if b.isString then Datum.nil else h.behaviour b.datum _) = g
  simp only [Operand.isString_rename, Datum.isNil_rename, Operand.datum_rename,
    Datum.number?_rename, refuseString_rename]
  split
  · rfl
  split
  · split
    · exact (compute_rename op _ _).symm
    · split <;> rfl
  · rfl

/-- A function that the only operand brings. -/
theorem alone (hh : HeapRenamed r h h') (action : String) (key : Datum) (hk : key.rename r = key)
    (a : Operand) :
    (if (h'.behaviour (a.rename r).datum key).isNil then Operand.refuse action (a.rename r)
      else .call (h'.behaviour (a.rename r).datum key) (a.rename r).datum (a.rename r).datum) =
    (if (h.behaviour a.datum key).isNil then Operand.refuse action a
      else .call (h.behaviour a.datum key) a.datum a.datum).rename r := by
  rw [hh.behaviourOf a key hk, Datum.isNil_rename, Operand.refuse_rename]
  split <;> rfl

theorem negated (hh : HeapRenamed r h h') (a : Operand) :
    h'.negated (a.rename r) = (h.negated a).rename r := by
  have last := hh.alone "perform arithmetic on" Heap.negateKey rfl a
  obtain ⟨d, o⟩ := a
  cases d with
  | number x => rfl
  | str bs =>
    have refused := refuseString_rename (r := r) "unm" (.str bs) (.str bs)
    unfold Heap.negated
    dsimp only [Operand.rename, Datum.rename_str]
    cases (Datum.str bs).number? with
    | none => exact refused
    | some x => rfl
  | _ => exact last

/-! ## Bits -/

theorem bitwise (hh : HeapRenamed r h h') (op : Number.BitOp) (a b : Operand) :
    h'.bitwise op (a.rename r) (b.rename r) = (h.bitwise op a b).rename r := by
  have last := hh.brought (operationKey (bitName op)) rfl a b (Operand.refuse_rename (r := r)
    (blamed Operand.isNumber a b) "perform bitwise operation on")
  rw [← blamed_rename a b a.isNumber_rename] at last
  obtain ⟨x, o⟩ := a
  obtain ⟨y, p⟩ := b
  cases x with
  | number x =>
    cases y with
    | number y =>
      unfold Heap.bitwise
      dsimp only [Operand.rename, Datum.rename_number]
      split <;> rfl
    | _ => exact last
  | _ => exact last

theorem complement (hh : HeapRenamed r h h') (a : Operand) :
    h'.complement (a.rename r) = (h.complement a).rename r := by
  have last := hh.alone "perform bitwise operation on" Heap.complementKey rfl a
  obtain ⟨d, o⟩ := a
  cases d with
  | number x =>
    unfold Heap.complement
    dsimp only [Operand.rename, Datum.rename_number]
    split <;> rfl
  | _ => exact last

/-! ## Comparison -/

theorem compared (hh : HeapRenamed r h h') (key : Datum) (hk : key.rename r = key) (a b : Datum)
    (result : Bool) {o o' : Operated} (ho : o' = o.rename r) :
    h'.compared key (a.rename r) (b.rename r) result o' =
      (h.compared key a b result o).rename r := by
  have found : h'.brought key ⟨a.rename r, none⟩ ⟨b.rename r, none⟩ o' =
      (h.brought key ⟨a, none⟩ ⟨b, none⟩ o).rename r := 
    hh.brought key hk ⟨a, none⟩ ⟨b, none⟩ ho
  unfold Heap.compared
  rw [found]
  cases h.brought key ⟨a, none⟩ ⟨b, none⟩ o <;> rfl

theorem equal (hh : HeapRenamed r h h') (result : Bool) (a b : Datum) :
    h'.equal result (a.rename r) (b.rename r) = (h.equal result a b).rename r := by
  have plain : Operated.done (.bool ((a.rename r).same (b.rename r) == result)) =
      (Operated.done (.bool (a.same b == result))).rename r := by
    rw [Datum.same_rename]
    rfl
  have tables := hh.compared Heap.equalKey rfl a b result plain
  cases a with
  | table m =>
    cases b with
    | table n =>
      unfold Heap.equal
      dsimp only [Datum.rename_table]
      by_cases hmn : m = n
      · rw [if_pos hmn, if_pos (congrArg r.table hmn)]
        exact plain
      · rw [if_neg hmn, if_neg fun same => hmn (r.table_injective same)]
        exact tables
    | _ => exact plain
  | _ => exact plain

theorem below (hh : HeapRenamed r h h') (a b : Datum) :
    h'.below (a.rename r) (b.rename r) = (h.below a b).rename r := by
  have last := hh.compared Heap.lessKey rfl a b true (noOrder_rename a b)
  cases a with
  | number x =>
    cases b with
    | number y => rfl
    | _ => exact last
  | str x =>
    cases b with
    | str y => rfl
    | _ => exact last
  | _ => exact last

theorem notAbove (hh : HeapRenamed r h h') (a b : Datum) :
    h'.notAbove (a.rename r) (b.rename r) = (h.notAbove a b).rename r := by
  have last := hh.compared Heap.lessEqualKey rfl a b true (noOrder_rename a b)
  cases a with
  | number x =>
    cases b with
    | number y => rfl
    | _ => exact last
  | str x =>
    cases b with
    | str y => rfl
    | _ => exact last
  | _ => exact last

/-! ## All operators -/

theorem binary (hh : HeapRenamed r h h') (op : Binary) (a b : Operand) :
    h'.binary op (a.rename r) (b.rename r) = (h.binary op a b).rename r := by
  cases op with
  | arith op => exact hh.arithmetic op a b
  | bits op => exact hh.bitwise op a b
  | eq => exact hh.equal true a.datum b.datum
  | ne => exact hh.equal false a.datum b.datum
  | lt => exact hh.below a.datum b.datum
  | le => exact hh.notAbove a.datum b.datum
  | gt => exact hh.below b.datum a.datum
  | ge => exact hh.notAbove b.datum a.datum

theorem lengthOf (hh : HeapRenamed r h h') (a : Operand) :
    h'.lengthOf (a.rename r) = (h.lengthOf a).rename r := by
  have refused := a.refuse_rename (r := r) "get length of"
  have rules := hh.behaviourOf a Heap.lengthKey rfl
  obtain ⟨d, o⟩ := a
  cases d with
  | str bs => rfl
  | table id =>
    unfold Heap.lengthOf
    dsimp only [Operand.rename, Datum.rename_table] at rules ⊢
    rw [rules, Datum.isNil_rename, hh.table, Table.length_rename]
    split <;> rfl
  | _ => exact refused

theorem unary (hh : HeapRenamed r h h') (op : Unary) (a : Operand) :
    h'.unary op (a.rename r) = (h.unary op a).rename r := by
  cases op with
  | neg => exact hh.negated a
  | not =>
    simp only [Heap.unary, Operand.datum_rename, Datum.holds_rename]
    rfl
  | length => exact hh.lengthOf a
  | bitNot => exact hh.complement a

theorem joined (hh : HeapRenamed r h h') (a b : Operand) :
    h'.joined (a.rename r) (b.rename r) = (h.joined a b).rename r := by
  have isText : (a.rename r).datum.text?.isSome = a.datum.text?.isSome := by
    rw [Operand.datum_rename, Datum.text?_rename]
  have last := hh.brought Heap.concatKey rfl a b (Operand.refuse_rename (r := r)
    (blamed (·.datum.text?.isSome) a b) "concatenate")
  rw [← @blamed_rename r a b (·.datum.text?.isSome) isText] at last
  simp only [Heap.joined, last, Operand.datum_rename, Datum.text?_rename]
  split <;> rfl

end HeapRenamed

end EnvManifest.Script
