import EnvManifest.Proofs.Eval.Denoted
import EnvManifest.Proofs.Script.Renaming.Start

/-!
# Facts in fresh scopes

The facts of an engine are fields of its globals, and their objects are tables of fields. A fresh
scope reads all of them, next to what the language has under other names.
-/

namespace EnvManifest

open Text Script

namespace Script.Heap

variable {h h₁ h' : Heap} {id : Nat} {names : List String}

/-! ## Tables of fields -/

/-- A table that can be read and written like a list of names, and that falls back to nothing. -/
structure Named (h : Heap) (id : Nat) : Prop where
  known : id < h.tables.size
  names : (h.table id).OfNames
  plain : (h.table id).metatable = none

theorem read_named (hplain : (h.table id).metatable = none) (key : Datum) (asked : Bool)
    (fuel : Nat) : h.read key asked (fuel + 1) (.table id) = .done ((h.table id).get key) := by
  rw [Heap.read]
  dsimp only
  rw [hplain]
  split
  · rfl
  · rename_i hnil
    cases hget : (h.table id).get key with
    | nil => rfl
    | _ => simp [hget, Datum.isNil] at hnil

theorem Named.of_extends {changed : Nat → Prop} (hn : h.Named id) (e : Extends changed h h')
    (hid : ¬changed id) : h'.Named id := by
  have hsame := e.same id hn.known hid
  exact ⟨Nat.lt_of_lt_of_le hn.known e.size, hsame ▸ hn.names, hsame ▸ hn.plain⟩

/-- The later heap has more tables. One of its older tables may have changed, under some names. -/
structure Puts (id : Nat) (names : List String) (h h' : Heap) : Prop where
  named : h'.Named id
  extends_ : Extends (· = id) h h'
  same : ∀ name ∉ names, (h'.table id).get (.ofString name) = (h.table id).get (.ofString name)

theorem Puts.trans {more : List String} (p : Puts id names h h₁) (p' : Puts id more h₁ h') :
    Puts id (names ++ more) h h' := by
  refine ⟨p'.named, p.extends_.trans p'.extends_, ?_⟩
  intro name hname
  rw [List.mem_append, not_or] at hname
  rw [p'.same name hname.2, p.same name hname.1]

theorem Named.puts_nothing (hn : h.Named id) (e : Extends (fun _ => False) h h') :
    Puts id [] h h' := by
  refine ⟨hn.of_extends e (fun hc => hc), e.mono fun _ _ hc => hc.elim, ?_⟩
  intro name _
  rw [e.same id hn.known (fun hc => hc)]

theorem Named.setTable (hn : h.Named id) (name : String) (d : Datum) :
    Puts id [name] h (h.setTable id (.ofString name) d) := by
  have htable := table_setTable_self hn.known (.ofString name) d
  refine ⟨⟨?_, ?_, ?_⟩, extends_setTable h id _ d, ?_⟩
  · rw [size_setTable]
    exact hn.known
  · rw [htable]
    exact hn.names.set _ _
  · rw [htable, Datum.ofString, Table.metatable_set_str]
    exact hn.plain
  · intro other hother
    have hkey : encode name.toList ≠ encode other.toList := by
      intro he
      exact hother (List.mem_singleton.2 (String.toList_inj.1 (encode_injective he)).symm)
    rw [htable, Datum.ofString, Datum.ofString, hn.names.get_set, if_neg hkey]

theorem Named.setFields (hn : h.Named id) (fields : List (String × Value)) :
    Puts id (fields.map (·.1)) h (h.setFields id fields) := by
  induction fields generalizing h with
  | nil => exact hn.puts_nothing (.refl h)
  | cons field more ih =>
    obtain ⟨key, v⟩ := field
    have hvalue := hn.puts_nothing (extends_ofValue h v)
    have hset := hvalue.named.setTable key (h.ofValue v).2
    rw [setFields_cons]
    exact (hvalue.trans hset).trans (ih hset.named)

/-- The datum of a field is made before the fields after it are put in the table. -/
theorem Named.get_setFields (hn : h.Named id) {fields : List (String × Value)}
    (hkeys : (fields.map (·.1)).Nodup) {key : String} {v : Value} (hmem : (key, v) ∈ fields) :
    ∃ h₁, Extends (· = id) h h₁ ∧ Extends (· = id) (h₁.ofValue v).1 (h.setFields id fields) ∧
      ((h.setFields id fields).table id).get (.ofString key) = (h₁.ofValue v).2 := by
  induction fields generalizing h with
  | nil => cases hmem
  | cons field more ih =>
    obtain ⟨key', v'⟩ := field
    obtain ⟨hfresh, hkeys⟩ := List.nodup_cons.1 hkeys
    have hvalue := hn.puts_nothing (extends_ofValue h v')
    have hset := hvalue.named.setTable key' (h.ofValue v').2
    have hmore := hset.named.setFields more
    rw [setFields_cons]
    obtain hhead | hmem := List.mem_cons.1 hmem
    · obtain ⟨rfl, rfl⟩ := Prod.mk.inj hhead
      refine ⟨h, .refl h, hset.extends_.trans hmore.extends_, ?_⟩
      rw [hmore.same _ hfresh, table_setTable_self hvalue.named.known, Datum.ofString,
        Table.get_set_str]
    · obtain ⟨h₁, hbefore, hafter, hget⟩ := ih hset.named hkeys hmem
      exact ⟨h₁, (hvalue.trans hset).extends_.trans hbefore, hafter, hget⟩

/-! ## The globals -/

theorem ofNames_tableOf {fields : List (Datum × Datum)} (h : ∀ f ∈ fields, ∃ k, f.1 = .str k) :
    (tableOf fields).OfNames ∧ (tableOf fields).metatable = none ∧
      ∀ k, (∀ f ∈ fields, f.1 ≠ .str k) → (tableOf fields).get (.str k) = .nil := by
  unfold tableOf
  induction fields using List.reverseRecOn with
  | nil => exact ⟨Table.ofNames_empty 0 none false, rfl, fun _ _ => rfl⟩
  | append_singleton fields f ih =>
    obtain ⟨hnames, hplain, hnil⟩ := ih fun f hf => h f (List.mem_append_left _ hf)
    obtain ⟨key, d⟩ := f
    obtain ⟨k, rfl⟩ : ∃ k, key = .str k := h (key, d) (by simp)
    rw [List.foldl_append, List.foldl_cons, List.foldl_nil]
    refine ⟨hnames.set k d, (Table.metatable_set_str ..).trans hplain, ?_⟩
    intro k' hk'
    have hne : k ≠ k' := by
      rintro rfl
      exact hk' (.str k, d) (by simp) rfl
    rw [hnames.get_set, if_neg hne]
    exact hnil k' fun f hf => hk' f (List.mem_append_left _ hf)

/-- The names of the functions that are in no table. -/
def looseNames (fs : List Native) : List String :=
  fs.filterMap fun f =>
    match splitName f.name with
    | (name, none) => some name
    | _ => none

theorem looseOf_keys {fs : List Native} {f : Datum × Datum} (hf : f ∈ looseOf fs) :
    ∃ name ∈ looseNames fs, f.1 = .ofString name := by
  obtain ⟨g, hg, hsome⟩ := List.mem_filterMap.1 hf
  split at hsome
  · rename_i name hsplit
    obtain rfl := Option.some.inj hsome
    refine ⟨name, List.mem_filterMap.2 ⟨g, hg, ?_⟩, rfl⟩
    rw [hsplit]
  · cases hsome

/-- The names under which the library has its tables. -/
def tableNames : List String := ["_G", "_VERSION", "string", "table", "math", "utf8"]

/-- The globals of the library are functions that are in no table, and then its tables. -/
theorem puts_standard : ∃ h : Heap, h.table globals = tableOf (looseOf Native.standard) ∧
    Puts globals tableNames h standard := by
  have hloose : ∀ f ∈ looseOf Native.standard, ∃ k, f.1 = .str k := fun f hf =>
    let ⟨name, _, hkey⟩ := looseOf_keys hf
    ⟨encode name.toList, hkey⟩
  obtain ⟨hnames, hplain, -⟩ := ofNames_tableOf hloose
  have hbase : Named ⟨#[tableOf (looseOf Native.standard)], #[], #[]⟩ globals :=
    ⟨by decide, hnames, hplain⟩
  have hnew {h h₁ : Heap} (e : Extends (fun _ => False) h h₁) (t : Table) :
      Extends (fun _ => False) h (h₁.newTable t).1 := e.trans (extends_newTable h₁ t)
  have hmade := hnew (hnew (hnew (hnew (hnew (.refl ⟨#[tableOf (looseOf Native.standard)], #[], #[]⟩)
    .empty) (tableOf (fieldsOf "string" Native.standard)))
    (tableOf (fieldsOf "table" Native.standard)))
    (tableOf (fieldsOf "math" Native.standard ++ numberConstants))) .empty
  have htables := hbase.of_extends hmade (fun hc => hc)
  have hbehaving (h : Heap) := extends_setTable h stringBehaviour indexKey (.table 2)
  have hnamed := htables.of_extends (hbehaving _) (by decide)
  refine ⟨_, ((hbehaving _).same globals htables.known (by decide)).trans
    (hmade.same globals hbase.known (fun hc => hc)), ?_⟩
  have hglobals := hnamed.setTable "_G" (.table globals)
  have hversion := hglobals.named.setTable "_VERSION" (.ofString "Lua 5.4")
  have hstring := hversion.named.setTable "string" (.table 2)
  have htable := hstring.named.setTable "table" (.table 3)
  have hmath := htable.named.setTable "math" (.table 4)
  have hutf8 := hmath.named.setTable "utf8" (.table 5)
  exact ((((hglobals.trans hversion).trans hstring).trans htable).trans hmath).trans hutf8

theorem named_standard : standard.Named globals := by
  obtain ⟨h, -, hputs⟩ := puts_standard
  exact hputs.named

/-- The names of the functions of the library. -/
def functionNames : List String :=
  ["assert", "error", "getmetatable", "ipairs", "load", "next", "pairs", "pcall", "print",
    "rawequal", "rawget", "rawlen", "rawset", "select", "setmetatable", "tonumber", "tostring",
    "type", "xpcall"]

theorem looseNames_standard : looseNames Native.standard = functionNames := by decide +kernel

/-- The library has nothing under any other name. -/
theorem standard_other {name : String} (hfunction : name ∉ functionNames)
    (htable : name ∉ tableNames) : (standard.table globals).get (.ofString name) = .nil := by
  obtain ⟨h, hbase, hputs⟩ := puts_standard
  rw [hputs.same name htable, hbase]
  refine (ofNames_tableOf fun f hf => ?_).2.2 _ fun f hf he => ?_
  · obtain ⟨name, -, hkey⟩ := looseOf_keys hf
    exact ⟨_, hkey⟩
  · obtain ⟨other, hother, hkey⟩ := looseOf_keys hf
    have hsame : encode other.toList = encode name.toList := Datum.str.inj (hkey.symm.trans he)
    rw [looseNames_standard, String.toList_inj.1 (encode_injective hsame)] at hother
    exact hfunction hother

/-- The names of the builtin functions and of their tables. -/
def taken : List String := ["cwd", "getenv", "file", "mung", "path"]

theorem mem_taken (b : Builtin) : (splitName b.name).1 ∈ taken := by
  cases b <;> decide +kernel

theorem extends_newReadOnly (h : Heap) (source : Nat) :
    Extends (fun _ => False) h (h.newReadOnly source).1 :=
  (extends_newTable h (tableOf [(indexKey, .table source), (newIndexKey, .native .refuseChange),
    (protectedKey, .bool false)])).trans (extends_newTable _ _)

theorem Named.addBuiltins (hn : h.Named globals) (name : String) :
    Puts globals [name] h (h.addBuiltins name) := by
  have hsource := extends_newTable h (tableOf (fieldsOf name (Builtin.all.map .builtin)))
  have hproxy := hn.puts_nothing (hsource.trans (extends_newReadOnly _ h.tables.size))
  exact hproxy.trans (hproxy.named.setTable name _)

/-- Facts change the globals under their own names only, and so do builtin functions. -/
theorem puts_start (facts : Fields Value) :
    Puts globals taken (standard.setFields globals facts) (start facts) := by
  have hfacts := (named_standard.setFields facts).named
  have hcwd := hfacts.setTable "cwd" (.native (.builtin .cwd))
  have hgetenv := hcwd.named.setTable "getenv" (.native (.builtin .getenv))
  have hfile := hgetenv.named.addBuiltins "file"
  have hmung := hfile.named.addBuiltins "mung"
  have hpath := hmung.named.addBuiltins "path"
  exact (((hcwd.trans hgetenv).trans hfile).trans hmung).trans hpath

/-- What the names of some fields, one in another, lead to. -/
def follow (h : Heap) : Datum → List String → Option Datum
  | d, [] => some d
  | d, name :: names => (h.index d (.ofString name)).done?.bind fun d => h.follow d names

theorem follow_table (hplain : (h.table id).metatable = none) (name : String)
    (names : List String) :
    h.follow (.table id) (name :: names) = h.follow ((h.table id).get (.ofString name)) names := by
  rw [follow, index, maxChain, read_named hplain]
  rfl

end Script.Heap

/-! ## Leaves -/

namespace Value

/-- The fields that lead to a value which is no object. -/
inductive Leaf : Value → List String → Value → Prop
  | here {v : Value} (h : ∀ fields, v ≠ .object fields) : Leaf v [] v
  | field {fields : List (String × Value)} {key : String} {v leaf : Value} {names : List String}
    (h : (key, v) ∈ fields) (hl : Leaf v names leaf) : Leaf (.object fields) (key :: names) leaf

/-- At every level of its objects the keys are names of variables and no reserved words, each of them
there once. -/
inductive Addressable : Value → Prop
  | plain {v : Value} (h : ∀ fields, v ≠ .object fields) : Addressable v
  | object {fields : List (String × Value)}
    (names : ∀ f ∈ fields, isVariableName f.1.toList ∧ f.1 ∉ keywords)
    (distinct : (fields.map (·.1)).Nodup) (h : ∀ f ∈ fields, Addressable f.2) :
    Addressable (.object fields)

/-- What a value is in every heap, if it is neither a list nor an object nor a float. -/
inductive Simple : Value → Datum → Prop
  | null : Simple .null .nil
  | bool (b : Bool) : Simple (.bool b) (.bool b)
  | int {n : Int} {i : Int64} (h : Word.int64? n = some i) : Simple (.int n) (.number (.int i))
  | str (s : String) : Simple (.str s) (.ofString s)

variable {v leaf : Value} {d : Datum} {names : List String} {fields : List (String × Value)}

theorem Simple.ofValue (hd : v.Simple d) (h : Heap) : (h.ofValue v).2 = d := by
  cases hd with
  | int hn =>
    rw [Heap.ofValue, hn]
    rfl
  | _ => rw [Heap.ofValue]

theorem Simple.toValue (hd : v.Simple d) (h : Heap) : h.toValue d = .ok v := by
  cases hd with
  | null => rfl
  | bool => rfl
  | int hn =>
    rw [← Word.int64?_toInt_eq hn]
    rfl
  | str s =>
    unfold Heap.toValue Datum.ofString
    simp [Heap.valueWithin]

theorem Addressable.object_of (h : (Value.object fields).Addressable) :
    (∀ f ∈ fields, isVariableName f.1.toList ∧ f.1 ∉ keywords) ∧ (fields.map (·.1)).Nodup ∧
      ∀ f ∈ fields, f.2.Addressable := by
  cases h with
  | plain h => exact absurd rfl (h fields)
  | object hnames hdistinct h => exact ⟨hnames, hdistinct, h⟩

theorem Leaf.names_of (hl : v.Leaf names leaf) (hv : v.Addressable) :
    ∀ name ∈ names, isVariableName name.toList ∧ name ∉ keywords := by
  induction hl with
  | here => nofun
  | field hmem hl ih =>
    obtain ⟨hnames, -, hfields⟩ := hv.object_of
    exact List.forall_mem_cons.2 ⟨hnames _ hmem, ih (hfields _ hmem)⟩

end Value

namespace Script.Heap

variable {h h' : Heap} {v leaf : Value} {d : Datum} {names : List String} {key : String}

/-- **A value that is put in a heap is read field by field.** -/
theorem follow_ofValue (hl : v.Leaf names leaf) (hv : v.Addressable) (hd : leaf.Simple d)
    (h : Heap) (same : SameTables h.tables.size (h.ofValue v).1.tables.size (h.ofValue v).1 h') :
    h'.follow (h.ofValue v).2 names = some d := by
  induction hl generalizing h with
  | here => rw [follow, hd.ofValue]
  | @field fields key v leaf names hmem hl ih =>
    obtain ⟨-, hkeys, hfields⟩ := hv.object_of
    rw [ofValue_object] at same ⊢
    have hsize := size_newTable h (Table.reserve 0 fields.length)
    have hnamed : (h.newTable (Table.reserve 0 fields.length)).1.Named h.tables.size := by
      have htable := table_newTable_self h (Table.reserve 0 fields.length)
      refine ⟨by omega, ?_, ?_⟩
      · rw [htable]
        exact Table.ofNames_empty ..
      · rw [htable]
        rfl
    have hputs := hnamed.setFields fields
    obtain ⟨h₁, hbefore, hafter, hget⟩ := hnamed.get_setFields hkeys hmem
    have htable := same h.tables.size (Nat.le_refl _) hputs.named.known
    have hplain : (h'.table h.tables.size).metatable = none := htable ▸ hputs.named.plain
    rw [follow_table hplain, htable, hget]
    refine ih (hfields _ hmem) hd h₁ fun id hlow hhigh => ?_
    have hle := hbefore.size
    rw [same id (by omega) (Nat.lt_of_lt_of_le hhigh hafter.size),
      hafter.same id hhigh (by omega)]

/-- A fact among the globals is read field by field. -/
theorem follow_start {facts : Fields Value} (hfacts : (Value.object facts).Addressable)
    (hmem : (key, v) ∈ facts) (hkey : key ∉ taken) (hl : v.Leaf names leaf) (hd : leaf.Simple d)
    (e : Extends (fun _ => False) (start facts) h') :
    h'.follow (((start facts).table globals).get (.ofString key)) names = some d := by
  obtain ⟨-, hkeys, hfields⟩ := hfacts.object_of
  have hputs := puts_start facts
  obtain ⟨h₁, hbefore, hafter, hget⟩ := named_standard.get_setFields hkeys hmem
  rw [hputs.same key hkey, hget]
  refine follow_ofValue hl (hfields _ hmem) hd h₁ fun id hlow hhigh => ?_
  have hknown : globals < h₁.tables.size := Nat.lt_of_lt_of_le named_standard.known hbefore.size
  have hall := hafter.trans hputs.extends_
  have hid : id ≠ globals := Nat.ne_of_gt (Nat.lt_of_lt_of_le hknown hlow)
  rw [e.same id (Nat.lt_of_lt_of_le hhigh hall.size) (fun hc => hc), hall.same id hhigh hid]

end Script.Heap

/-! ## Fresh scopes -/

open Heap

variable {engine : Engine} {facts : Facts}

/-- A fresh scope has all names from the globals. -/
theorem index_fresh (hn : engine.heap.Named globals) (name : String) :
    engine.scope.1.heap.index (.table engine.scope.2) (.ofString name) =
      .done ((engine.heap.table globals).get (.ofString name)) := by
  have hglobals := hn.of_extends (extends_scope engine) (fun hc => hc)
  have hsame := (extends_scope engine).same globals hn.known (fun hc => hc)
  have hnil : (scopeTable engine.heap.tables.size).get (.ofString name) = .nil := rfl
  unfold Heap.index Heap.maxChain
  rw [Heap.read, table_scope]
  dsimp only
  rw [hnil, scopeTable]
  dsimp only
  rw [table_rules, get_scopeRules]
  simp only [Datum.isNil, Datum.isFunction, Bool.not_true, Bool.false_eq_true, if_false]
  rw [read_named hglobals.plain, hsame]

set_option maxRecDepth 4000 in
theorem standard_math : (standard.table globals).get (.ofString "math") = .table 4 := by rfl

set_option maxRecDepth 4000 in
theorem standard_least : (standard.table 4).get (.ofString "mininteger") =
    (Literal.int Int64.minValue).datum := by rfl

/-- Facts that are not called `math` leave the least whole number to be found. -/
theorem hasLeast_fresh (hstart : engine.heap = start facts) (hmath : "math" ∉ Fields.keys facts) :
    engine.scope.1.HasLeast engine.scope.2 := by
  have hputs := puts_start facts
  have hfields := named_standard.setFields facts
  have hall := hfields.extends_.trans hputs.extends_
  have hsix := closed_standard.2
  have htable : engine.scope.1.heap.table 4 = standard.table 4 := by
    have hknown : 4 < engine.heap.tables.size := by
      rw [hstart]
      exact Nat.lt_of_lt_of_le (by omega) hall.size
    rw [(extends_scope engine).same 4 hknown (fun hc => hc), hstart]
    exact hall.same 4 (by omega) (by decide)
  have hmathematics : (engine.heap.table globals).get (.ofString "math") = .table 4 := by
    rw [hstart, hputs.same "math" (by decide), hfields.same "math" hmath, standard_math]
  have hfound : ((engine.scope.1.heap.table 4).get (.ofString "mininteger")).isNil = false := by
    rw [htable, standard_least]
    rfl
  refine ⟨.table 4, ?_, ?_⟩
  · rw [index_fresh (hstart ▸ hputs.named), hmathematics]
  · rw [index_found hfound, htable, standard_least]

end EnvManifest
