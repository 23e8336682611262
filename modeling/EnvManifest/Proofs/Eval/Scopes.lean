import EnvManifest.Proofs.Eval.Looking
import EnvManifest.Proofs.Script.Stored

/-!
# Names in scopes

A scope is a table of names that falls back to the globals. The names that a pass binds before its
first statement stand for their values as long as nobody binds them again.
-/

namespace EnvManifest

open Text Script Heap

/-! ## Reading names -/

/-- Does nothing beyond a scope know a name? -/
structure Engine.Unknown (engine : Engine) (scope : ScopeId) (name : String) : Prop where
  rules : ∃ rules, (engine.heap.table scope).metatable = some rules ∧
    (engine.heap.table rules).get indexKey = .table globals
  absent : (engine.heap.table globals).get (.ofString name) = .nil
  plain : (engine.heap.table globals).metatable = none

theorem index_found {h : Heap} {scope : Nat} {key : Datum}
    (hd : ((h.table scope).get key).isNil = false) :
    h.index (.table scope) key = .done ((h.table scope).get key) := by
  unfold index Heap.maxChain
  rw [Heap.read]
  dsimp only
  rw [hd]
  rfl

/-- What a scope has under a name is what the name stands for. If it has nothing, nothing beyond it
must know the name. -/
theorem index_name {engine : Engine} {scope : ScopeId} {name : String} {d : Datum}
    (hd : (engine.heap.table scope).get (.ofString name) = d)
    (hnil : d = .nil → engine.Unknown scope name) :
    engine.heap.index (.table scope) (.ofString name) = .done d := by
  by_cases hn : d = .nil
  · obtain ⟨⟨rules, hrules, hindex⟩, habsent, hplain⟩ := hnil hn
    subst hn
    unfold index Heap.maxChain
    simp only [Heap.read, hd, hrules, hindex, habsent, hplain, Datum.isNil, Datum.isFunction, Bool.not_true,
      Bool.false_eq_true, if_false]
  · rw [← hd]
    apply index_found
    rw [hd]
    cases d with
    | nil => exact absurd rfl hn
    | _ => rfl

/-- What is read depends on the tables only. -/
theorem read_of_tables {h h' : Heap} (ht : h.tables = h'.tables) (key : Datum) (asked : Bool)
    (fuel : Nat) (d : Datum) : h.read key asked fuel d = h'.read key asked fuel d := by
  have htable (id : Nat) : h.table id = h'.table id := by
    unfold Heap.table
    rw [ht]
  induction fuel generalizing asked d with
  | zero => rfl
  | succ fuel ih =>
    have hbehaviour : h.behaviour d indexKey = h'.behaviour d indexKey := by
      unfold Heap.behaviour
      cases d <;> simp [Heap.behaviour?, htable]
    unfold Heap.read
    cases d <;> simp [htable, hbehaviour, ih]

theorem index_loaded (engine : Engine) (scope : ScopeId) (e : Expr) (d key : Datum) :
    (engine.loaded scope e).heap.index d key = engine.heap.index d key := by
  unfold Heap.index
  apply read_of_tables
  rfl

/-- A program looks a name up in its scope. -/
theorem look_name {engine : Engine} {scope : ScopeId} {name : String} {d : Datum}
    (hd : (engine.heap.table scope).get (.ofString name) = d)
    (hnil : d = .nil → engine.Unknown scope name) (e : Expr) (l : Nat) :
    (engine.loaded scope e).heap.look engine.programScope (.global l name) = some d := by
  rw [look_global, valueOf_loaded, index_loaded, index_name hd hnil]
  rfl

/-! ## Names that stand for values -/

/-- A name of a scope stands for a value. The tables of the value are newer than the scope. -/
def Engine.Stores (engine : Engine) (scope : ScopeId) (name : String) (v : Value) : Prop :=
  ∃ low high, scope < low ∧ high ≤ engine.heap.tables.size ∧
    ∀ h', SameTables low high engine.heap h' →
      h'.Holds low high ((engine.heap.table scope).get (.ofString name)) v

/-- A scope that can be read and written like a list of names. -/
structure Engine.HasScope (engine : Engine) (scope : ScopeId) : Prop where
  known : scope < engine.heap.tables.size
  names : (engine.heap.table scope).OfNames

variable {engine : Engine} {scope : ScopeId} {name other : String} {v : Value}

theorem bind_heap (engine : Engine) (scope : ScopeId) (name : String) (v : Value) :
    (engine.bind scope name v).heap =
      (engine.heap.ofValue v).1.setTable scope (.ofString name) (engine.heap.ofValue v).2 := rfl

/-- Binding a name changes no table but the scope. -/
theorem extends_bind (engine : Engine) (scope : ScopeId) (name : String) (v : Value) :
    Extends (· = scope) engine.heap (engine.bind scope name v).heap := by
  have hvalue : Extends (· = scope) engine.heap (engine.heap.ofValue v).1 :=
    (extends_ofValue engine.heap v).mono nofun
  rw [bind_heap]
  exact hvalue.trans (extends_setTable _ scope _ _)

/-- The scope after a name has been bound. -/
theorem Engine.HasScope.table_bind (hs : engine.HasScope scope) (name : String) (v : Value) :
    (engine.bind scope name v).heap.table scope =
      (engine.heap.table scope).set (.ofString name) (engine.heap.ofValue v).2 := by
  have hvalue := extends_ofValue engine.heap v
  rw [bind_heap, table_setTable_self (Nat.lt_of_lt_of_le hs.known hvalue.size),
    hvalue.same scope hs.known (fun hc => hc)]

theorem Engine.HasScope.bind (hs : engine.HasScope scope) (name : String) (v : Value) :
    (engine.bind scope name v).HasScope scope := by
  refine ⟨Nat.lt_of_lt_of_le hs.known (extends_bind engine scope name v).size, ?_⟩
  rw [hs.table_bind]
  exact hs.names.set _ _

/-- A name that is bound stands for its value. -/
theorem Engine.HasScope.stores (hs : engine.HasScope scope) (hp : v.Proper) (hw : v.Whole)
    (name : String) : (engine.bind scope name v).Stores scope name v := by
  have hset := extends_setTable (engine.heap.ofValue v).1 scope (.ofString name)
    (engine.heap.ofValue v).2
  refine ⟨engine.heap.tables.size, (engine.heap.ofValue v).1.tables.size, hs.known, ?_, ?_⟩
  · rw [bind_heap]
    exact hset.size
  · intro h' same
    rw [hs.table_bind, Datum.ofString, Table.get_set_str]
    apply ofValue_holds engine.heap hp hw
    intro id hlow hhigh
    have hne : id ≠ scope := Nat.ne_of_gt (Nat.lt_of_lt_of_le hs.known hlow)
    rw [same id hlow hhigh, bind_heap, hset.same id hhigh hne]

/-- A name keeps its value where another one is bound. -/
theorem Engine.Stores.bind (h : engine.Stores scope name v) (hs : engine.HasScope scope)
    (hne : other ≠ name) (w : Value) : (engine.bind scope other w).Stores scope name v := by
  have hbind := extends_bind engine scope other w
  obtain ⟨low, high, hlow, hhigh, hold⟩ := h
  refine ⟨low, high, hlow, Nat.le_trans hhigh hbind.size, ?_⟩
  intro h' same
  have hkey : encode other.toList ≠ encode name.toList := by
    intro he
    exact hne (String.toList_inj.1 (encode_injective he))
  rw [hs.table_bind, Datum.ofString, Datum.ofString, hs.names.get_set, if_neg hkey]
  apply hold
  intro id hid hid'
  have hne : id ≠ scope := Nat.ne_of_gt (Nat.lt_of_lt_of_le hlow hid)
  rw [same id hid hid', hbind.same id (by omega) hne]

/-- A name that is not bound keeps what the scope has under it. -/
theorem Engine.HasScope.get_bind (hs : engine.HasScope scope) (hne : other ≠ name) (w : Value) :
    ((engine.bind scope other w).heap.table scope).get (.ofString name) =
      (engine.heap.table scope).get (.ofString name) := by
  have hkey : encode other.toList ≠ encode name.toList := by
    intro he
    exact hne (String.toList_inj.1 (encode_injective he))
  rw [hs.table_bind, Datum.ofString, Datum.ofString, hs.names.get_set, if_neg hkey]

/-! ## Many names -/

theorem bindAll_append (engine : Engine) (scope : ScopeId) (bindings : List (String × Value))
    (b : String × Value) :
    engine.bindAll scope (bindings ++ [b]) = (engine.bindAll scope bindings).bind scope b.1 b.2 := by
  unfold Engine.bindAll
  rw [List.foldl_append]
  rfl

theorem Engine.HasScope.bindAll (hs : engine.HasScope scope) (bindings : List (String × Value)) :
    (engine.bindAll scope bindings).HasScope scope := by
  induction bindings using List.reverseRecOn with
  | nil => exact hs
  | append_singleton bindings b ih =>
    rw [bindAll_append]
    exact ih.bind b.1 b.2

theorem extends_bindAll (engine : Engine) (scope : ScopeId) (bindings : List (String × Value)) :
    Extends (· = scope) engine.heap (engine.bindAll scope bindings).heap := by
  induction bindings using List.reverseRecOn with
  | nil => exact .refl _
  | append_singleton bindings b ih =>
    rw [bindAll_append]
    exact ih.trans (extends_bind _ scope b.1 b.2)

/-- **A scope remembers the last value that each name is bound to.** -/
theorem Engine.HasScope.bindAll_stores (hs : engine.HasScope scope)
    {bindings : List (String × Value)} (hlast : Fields.last? name bindings = some v)
    (hp : v.Proper) (hw : v.Whole) : (engine.bindAll scope bindings).Stores scope name v := by
  induction bindings using List.reverseRecOn with
  | nil => cases hlast
  | append_singleton bindings b ih =>
    rw [Fields.last?_append, Fields.last?_singleton] at hlast
    rw [bindAll_append]
    split at hlast
    · rename_i hb
      obtain rfl := Option.some.inj hlast
      rw [← hb]
      exact (hs.bindAll bindings).stores hp hw b.1
    · rename_i hb
      exact (ih hlast).bind (hs.bindAll bindings) hb b.2

/-- A text stays a text. -/
theorem Engine.HasScope.get_bindAll_str (hs : engine.HasScope scope)
    {bindings : List (String × Value)} {text : String}
    (hlast : Fields.last? name bindings = some (.str text)) :
    ((engine.bindAll scope bindings).heap.table scope).get (.ofString name) = .ofString text := by
  induction bindings using List.reverseRecOn with
  | nil => cases hlast
  | append_singleton bindings b ih =>
    rw [Fields.last?_append, Fields.last?_singleton] at hlast
    rw [bindAll_append]
    split at hlast
    · rename_i hb
      have hvalue : b.2 = .str text := Option.some.inj hlast
      rw [(hs.bindAll bindings).table_bind, hb, hvalue, Datum.ofString, Table.get_set_str]
      rfl
    · rename_i hb
      rw [(hs.bindAll bindings).get_bind hb, ih hlast]

/-! ## New scopes -/

/-- The rules of a scope: what it does not have is looked up among the globals. -/
def scopeRules : Table := tableOf [(indexKey, .table globals)]

theorem get_scopeRules : scopeRules.get indexKey = .table globals := by
  simp only [scopeRules, tableOf, List.foldl_cons, List.foldl_nil, indexKey, Datum.ofString]
  exact Table.get_set_str _ _ _

/-- The table of a new scope. -/
def scopeTable (rules : Nat) : Table := { Table.empty with metatable := some rules }

theorem scope_eq (engine : Engine) :
    engine.scope = ({ engine with
      heap := ((engine.heap.newTable scopeRules).1.newTable (scopeTable engine.heap.tables.size)).1 },
      (engine.heap.newTable scopeRules).1.tables.size) := rfl

theorem extends_scope (engine : Engine) :
    Extends (fun _ => False) engine.heap engine.scope.1.heap :=
  (extends_newTable _ scopeRules).trans (extends_newTable _ _)

theorem table_scope (engine : Engine) :
    engine.scope.1.heap.table engine.scope.2 = scopeTable engine.heap.tables.size := by
  rw [scope_eq]
  exact table_newTable_self _ _

theorem scope_new (engine : Engine) : engine.scope.2 = engine.heap.tables.size + 1 :=
  size_newTable engine.heap scopeRules

theorem table_rules (engine : Engine) :
    engine.scope.1.heap.table engine.heap.tables.size = scopeRules := by
  have hsize := size_newTable engine.heap scopeRules
  rw [scope_eq]
  dsimp only
  rw [table_newTable_of_lt (by omega), table_newTable_self]

theorem hasScope_scope (engine : Engine) : engine.scope.1.HasScope engine.scope.2 := by
  refine ⟨?_, ?_⟩
  · rw [scope_eq]
    dsimp only
    rw [size_newTable ((engine.heap.newTable scopeRules).1)]
    exact Nat.lt_succ_self _
  · rw [table_scope]
    exact Table.ofNames_empty 0 _ _

theorem Engine.HasScope.metatable_bindAll (hs : engine.HasScope scope)
    (bindings : List (String × Value)) :
    ((engine.bindAll scope bindings).heap.table scope).metatable =
      (engine.heap.table scope).metatable := by
  induction bindings using List.reverseRecOn with
  | nil => rfl
  | append_singleton bindings b ih =>
    rw [bindAll_append, (hs.bindAll bindings).table_bind, Datum.ofString, Table.metatable_set_str, ih]

/-- Do the globals lack a name? -/
structure Engine.Lacks (engine : Engine) (name : String) : Prop where
  known : globals < engine.heap.tables.size
  absent : (engine.heap.table globals).get (.ofString name) = .nil
  plain : (engine.heap.table globals).metatable = none

/-- Names that the globals lack are unknown beyond a new scope, whatever is bound in it. -/
theorem Engine.Lacks.unknown (h : engine.Lacks name) (bindings : List (String × Value)) :
    (engine.scope.1.bindAll engine.scope.2 bindings).Unknown engine.scope.2 name := by
  have hscope := extends_scope engine
  have hbind := extends_bindAll engine.scope.1 engine.scope.2 bindings
  have hnew := scope_new engine
  have hknown : engine.heap.tables.size + 1 < engine.scope.1.heap.tables.size := by
    rw [← hnew]
    exact (hasScope_scope engine).known
  have hsame (id : Nat) (hid : id ≤ engine.heap.tables.size) :
      (engine.scope.1.bindAll engine.scope.2 bindings).heap.table id =
        engine.scope.1.heap.table id := by
    refine hbind.same id ?_ ?_
    · exact Nat.lt_of_le_of_lt hid (by omega)
    · exact Nat.ne_of_lt (by rw [hnew]; omega)
  have hglobals : (engine.scope.1.bindAll engine.scope.2 bindings).heap.table globals =
      engine.heap.table globals := by
    rw [hsame globals (Nat.le_of_lt h.known), hscope.same globals h.known (fun hc => hc)]
  refine ⟨⟨engine.heap.tables.size, ?_, ?_⟩, ?_, ?_⟩
  · rw [(hasScope_scope engine).metatable_bindAll, table_scope]
    rfl
  · rw [hsame _ (Nat.le_refl _), table_rules]
    exact get_scopeRules
  · rw [hglobals]
    exact h.absent
  · rw [hglobals]
    exact h.plain

/-! ## Values of names -/

/-- What a scope has under a name is a datum of the value that the name stands for, also when the
scope and other tables have changed since. -/
theorem Engine.Stores.read (h : engine.Stores scope name v) :
    ∃ d, (engine.heap.table scope).get (.ofString name) = d ∧ (d = .nil → v = .null) ∧
      ∀ h', Extends (· = scope) engine.heap h' → h'.toValue d = .ok v := by
  obtain ⟨low, high, hlow, hhigh, hold⟩ := h
  refine ⟨_, rfl, ?_, ?_⟩
  · intro hnil
    have hvalue := (hold engine.heap (fun _ _ _ => rfl) [] (high - low) nofun (Nat.le_refl _)).2
    rw [hnil] at hvalue
    simpa [valueWithin] using hvalue.symm
  · intro h' he
    have hsize := he.size
    unfold Heap.toValue
    refine (hold h' ?_ [] _ nofun (by omega)).2
    intro id hid hid'
    exact he.same id (by omega) (Nat.ne_of_gt (Nat.lt_of_lt_of_le hlow hid))

end EnvManifest
