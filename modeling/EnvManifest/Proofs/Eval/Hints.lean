import EnvManifest.Proofs.Eval.Facts
import EnvManifest.Proofs.Patch.Edits
import EnvManifest.Proofs.Text.Split

/-!
# Hints tell what facts are

The values of facts reach an expression on two ways. Its scope has them as fields of tables, and a
rewriter knows them by their paths. Both ways a path comes to the same value.
-/

namespace EnvManifest

open Text Script Patch

/-! ## Paths -/

theorem not_mem_point {name : String} (h : isVariableName name.toList) : '.' ∉ name.toList := by
  obtain ⟨c, v, hcv, hc, hv⟩ := word_of_isVariableName h
  rw [hcv, List.mem_cons, not_or]
  refine ⟨(ne_of_startsWord hc rfl).symm, fun hmem => ?_⟩
  exact absurd (hv _ hmem) (by decide)

/-- The names of a path are the parts of its text. -/
theorem splitChar_fields (first : List Char) {names : List String} (hfirst : '.' ∉ first)
    (h : ∀ name ∈ names, '.' ∉ name.toList) :
    splitChar '.' (first ++ fieldsText names) = first :: names.map String.toList := by
  induction names generalizing first with
  | nil => rw [fieldsText, List.flatMap_nil, List.append_nil, splitChar_of_not_mem hfirst]; rfl
  | cons name names ih =>
    obtain ⟨hname, hnames⟩ := List.forall_mem_cons.1 h
    rw [fieldsText_cons, splitChar_append, splitChar_of_not_mem hfirst, ih _ hname hnames]
    rfl

theorem map_toList_injective {names names' : List String}
    (h : names.map String.toList = names'.map String.toList) : names = names' :=
  List.map_injective_iff.2 (fun _ _ => String.toList_inj.1) h

/-- The fields behind a path are known by its text. -/
theorem dotted_injective (path : String) {names names' : List String}
    (h : ∀ name ∈ names, '.' ∉ name.toList) (h' : ∀ name ∈ names', '.' ∉ name.toList)
    (he : dotted path names = dotted path names') : names = names' := by
  have htext := congrArg String.toList he
  rw [toList_dotted, toList_dotted, List.append_cancel_left_eq] at htext
  have hsplit := splitChar_fields [] List.not_mem_nil h
  rw [List.nil_append, htext] at hsplit
  have hsplit' := splitChar_fields [] List.not_mem_nil h'
  rw [List.nil_append, hsplit] at hsplit'
  exact map_toList_injective (List.cons.inj hsplit').2

/-- So is the whole path. -/
theorem dotted_injective_root {root root' : String} {names names' : List String}
    (h : ∀ name ∈ root :: names, '.' ∉ name.toList)
    (h' : ∀ name ∈ root' :: names', '.' ∉ name.toList)
    (he : dotted root names = dotted root' names') : root :: names = root' :: names' := by
  obtain ⟨hroot, hnames⟩ := List.forall_mem_cons.1 h
  obtain ⟨hroot', hnames'⟩ := List.forall_mem_cons.1 h'
  have htext := congrArg String.toList he
  rw [toList_dotted, toList_dotted] at htext
  have hsplit := splitChar_fields _ hroot hnames
  rw [htext, splitChar_fields _ hroot' hnames'] at hsplit
  exact map_toList_injective hsplit.symm

/-! ## Hints -/

/-- What a hint knows of a value. -/
def Hint.valued? : Hint → Option (String × Value)
  | ⟨path, .value v⟩ => some (path, v)
  | ⟨_, .function⟩ => none

namespace Facts

theorem leaves_plain {v : Value} (h : ∀ fields, v ≠ .object fields) (path : String) :
    leaves path v = [(path, v)] := by
  cases v with
  | object fields => exact absurd rfl (h fields)
  | _ => rw [leaves]

theorem leaves_object (path : String) (fields : List (String × Value)) :
    leaves path (.object fields) = fields.flatMap fun f => leaves (path ++ "." ++ f.1) f.2 := by
  rw [leaves]
  induction fields with
  | nil => rw [leavesOf]; rfl
  | cons f fields ih =>
    obtain ⟨key, v⟩ := f
    rw [leavesOf, ih]
    rfl

/-- The values below a path are the leaves of the value there. -/
theorem mem_leaves {v : Value} (hv : v.Addressable) {path q : String} {leaf : Value} :
    (q, leaf) ∈ leaves path v ↔ ∃ names, v.Leaf names leaf ∧ q = dotted path names := by
  induction hv generalizing path with
  | @plain v h =>
    rw [leaves_plain h, List.mem_singleton]
    constructor
    · intro he
      obtain ⟨rfl, rfl⟩ := Prod.mk.inj he
      exact ⟨[], .here h, rfl⟩
    · rintro ⟨names, hl, rfl⟩
      cases hl with
      | here => rfl
      | field => exact absurd rfl (h _)
  | @object fields hnames hdistinct h ih =>
    rw [leaves_object, List.mem_flatMap]
    constructor
    · rintro ⟨⟨key, v⟩, hmem, hleaf⟩
      obtain ⟨names, hl, rfl⟩ := (ih _ hmem).1 hleaf
      exact ⟨key :: names, .field hmem hl, rfl⟩
    · rintro ⟨names, hl, rfl⟩
      cases hl with
      | here hplain => exact absurd rfl (hplain fields)
      | @field _ key v _ names hmem hl =>
        exact ⟨(key, v), hmem, (ih _ hmem).2 ⟨names, hl, rfl⟩⟩

/-- The paths of different fields are different, if a path tells the field. -/
theorem nodup_fields {fields : List (String × Value)} (base : String → String)
    (hfields : (Value.object fields).Addressable)
    (hbase : ∀ {key key' : String} {names names' : List String},
      (∀ name ∈ key :: names, '.' ∉ name.toList) → (∀ name ∈ key' :: names', '.' ∉ name.toList) →
        dotted (base key) names = dotted (base key') names' → key = key')
    (h : ∀ f ∈ fields, ((leaves (base f.1) f.2).map Prod.fst).Nodup) :
    ((fields.flatMap fun f => leaves (base f.1) f.2).map Prod.fst).Nodup := by
  obtain ⟨hnames, hdistinct, hvalues⟩ := hfields.object_of
  have hplain {f : String × Value} (hf : f ∈ fields) {names : List String} {leaf : Value}
      (hl : f.2.Leaf names leaf) : ∀ name ∈ f.1 :: names, '.' ∉ name.toList := by
    refine List.forall_mem_cons.2 ⟨not_mem_point (hnames f hf).1, fun name hname => ?_⟩
    exact not_mem_point (hl.names_of (hvalues f hf) name hname).1
  rw [List.map_flatMap, List.nodup_flatMap]
  refine ⟨h, ?_⟩
  rw [List.Nodup, List.pairwise_map] at hdistinct
  refine hdistinct.imp_of_mem ?_
  intro f g hf hg hne q hq hq'
  obtain ⟨⟨_, leaf⟩, hmem, rfl⟩ := List.mem_map.1 hq
  obtain ⟨⟨_, leaf'⟩, hmem', he⟩ := List.mem_map.1 hq'
  obtain ⟨names, hl, rfl⟩ := (mem_leaves (hvalues f hf)).1 hmem
  obtain ⟨names', hl', rfl⟩ := (mem_leaves (hvalues g hg)).1 hmem'
  exact hne (hbase (hplain hf hl) (hplain hg hl') he.symm)

theorem nodup_leaves {v : Value} (hv : v.Addressable) (path : String) :
    ((leaves path v).map Prod.fst).Nodup := by
  induction hv generalizing path with
  | plain h => simp [leaves_plain h]
  | @object fields hnames hdistinct h ih =>
    rw [leaves_object]
    refine nodup_fields (fun key => path ++ "." ++ key) (.object hnames hdistinct h) ?_
      fun f hf => ih f hf _
    intro key key' names names' hkey hkey' he
    exact (List.cons.inj (dotted_injective path hkey hkey' he)).1

/-- The values of facts, each with its path. -/
def values (facts : Facts) : List (String × Value) := facts.flatMap fun f => leaves f.1 f.2

theorem hints_eq (facts : Facts) : hints facts =
    (values facts).map (fun x => ⟨x.1, .value x.2⟩) ++
      Builtin.all.map fun b => ⟨b.name, .function⟩ := by
  rw [hints, values, List.map_flatMap]

theorem valued?_hints (facts : Facts) :
    (hints facts).filterMap Hint.valued? = values facts := by
  have hvalues : Hint.valued? ∘ (fun x : String × Value => ⟨x.1, .value x.2⟩) = some := rfl
  have hfunctions : Hint.valued? ∘ (fun b : Builtin => ⟨b.name, .function⟩) = fun _ => none := rfl
  rw [hints_eq, List.filterMap_append, List.filterMap_map, List.filterMap_map, hvalues, hfunctions]
  simp

variable {facts : Facts} (hfacts : (Value.object facts).Addressable)
include hfacts

theorem mem_values {q : String} {leaf : Value} : (q, leaf) ∈ values facts ↔
    ∃ names, (Value.object facts).Leaf names leaf ∧ q = ".".intercalate names := by
  obtain ⟨-, -, hvalues⟩ := hfacts.object_of
  rw [values, List.mem_flatMap]
  constructor
  · rintro ⟨⟨key, v⟩, hmem, hleaf⟩
    obtain ⟨names, hl, rfl⟩ := (mem_leaves (hvalues _ hmem)).1 hleaf
    exact ⟨key :: names, .field hmem hl, dotted_eq_intercalate key names⟩
  · rintro ⟨names, hl, rfl⟩
    cases hl with
    | here hplain => exact absurd rfl (hplain facts)
    | @field _ key v _ names hmem hl =>
      refine ⟨(key, v), hmem, (mem_leaves (hvalues _ hmem)).2 ⟨names, hl, ?_⟩⟩
      exact (dotted_eq_intercalate key names).symm

theorem nodup_values : ((values facts).map Prod.fst).Nodup := by
  obtain ⟨-, -, hvalues⟩ := hfacts.object_of
  refine nodup_fields id hfacts ?_ fun f hf => nodup_leaves (hvalues f hf) f.1
  intro key key' names names' hkey hkey' he
  exact (List.cons.inj (dotted_injective_root hkey hkey' he)).1

/-- A path tells its leaf. -/
theorem leaf_unique {names names' : List String} {leaf leaf' : Value}
    (hl : (Value.object facts).Leaf names leaf) (hl' : (Value.object facts).Leaf names' leaf')
    (hpath : ".".intercalate names = ".".intercalate names') : names = names' ∧ leaf = leaf' := by
  constructor
  · have hpoint {names : List String} {leaf : Value} (hl : (Value.object facts).Leaf names leaf) :
        ∀ name ∈ names, '.' ∉ name.toList :=
      fun name hname => not_mem_point (hl.names_of hfacts name hname).1
    have hplain := hpoint hl
    have hplain' := hpoint hl'
    cases hl with
    | here hobject => exact absurd rfl (hobject facts)
    | field =>
      cases hl' with
      | here hobject => exact absurd rfl (hobject facts)
      | field =>
        rw [← dotted_eq_intercalate, ← dotted_eq_intercalate] at hpath
        exact dotted_injective_root hplain hplain' hpath
  · have hmem := (mem_values hfacts).2 ⟨names, hl, rfl⟩
    have hmem' := (mem_values hfacts).2 ⟨names', hl', rfl⟩
    exact (Prod.mk.inj (List.inj_on_of_nodup_map (nodup_values hfacts) hmem hmem' hpath)).2

/-- A rewriter knows the value at a path. -/
theorem value?_hints {q : String} {leaf : Value} (h : (q, leaf) ∈ values facts) :
    Hint.value? (hints facts) q = some leaf := by
  have hfind : (values facts).find? (·.1 == q) = some (q, leaf) := by
    cases hfound : (values facts).find? (·.1 == q) with
    | none => exact absurd (List.find?_eq_none.1 hfound _ h) (by simp)
    | some x =>
      have hx := List.find?_some hfound
      have hmem := List.mem_of_find?_eq_some hfound
      rw [List.inj_on_of_nodup_map (nodup_values hfacts) hmem h (by simpa using hx)]
  unfold Hint.value?
  rw [hints_eq, List.find?_append, List.find?_map]
  have hsame : ((fun hint : Hint => hint.path == q) ∘
      fun x : String × Value => ⟨x.1, .value x.2⟩) = fun x => x.1 == q := rfl
  rw [hsame, hfind]
  rfl

end Facts

/-! ## Values of paths -/

section

variable {root : String} {fields : List String} {e : Expr}

theorem Script.Heap.follow_append (h : Heap) (d : Datum) (names : List String) (name : String) :
    h.follow d (names ++ [name]) =
      (h.follow d names).bind fun d => (h.index d (.ofString name)).done? := by
  induction names generalizing d with
  | nil => simp [Heap.follow]
  | cons first names ih =>
    rw [List.cons_append, Heap.follow, Heap.follow, Option.bind_assoc]
    simp only [ih]

/-- A path is looked up field by field. -/
theorem Script.FromGlobal.look (he : FromGlobal root fields e) (h : Heap) (s : Script.Scope) :
    h.look s e = h.follow (h.valueOf s 0) (root :: fields) := by
  induction he with
  | global l =>
    rw [look_global, Heap.follow]
    simp [Heap.follow]
  | @field l names e he name ih =>
    have hkey : Datum.str (encode name.toList) = .ofString name := rfl
    rw [← List.cons_append, Heap.follow_append, ← ih, Heap.look]
    simp [Heap.look, hkey]

theorem Script.FromGlobal.cost (he : FromGlobal root fields e) :
    e.cost = 4 * fields.length + 5 := by
  induction he with
  | global => rfl
  | field l he name ih =>
    simp only [Expr.cost, ih, List.length_append, List.length_cons, List.length_nil]
    omega

theorem Script.FromGlobal.not_isCall (he : FromGlobal root fields e) : e.isCall = false := by
  cases he <;> rfl

end

theorem extends_loaded (engine : Engine) (scope : ScopeId) (e : Expr) :
    Heap.Extends (fun _ => False) engine.heap (engine.loaded scope e).heap :=
  ⟨Nat.le_refl _, fun _ _ _ => rfl⟩

/-- A name that neither the builtin functions nor the library of the language have. -/
def FreeName (name : String) : Prop :=
  (∀ b : Builtin, name ≠ (splitName b.name).1) ∧
    (Heap.standard.table Heap.globals).get (.ofString name) = .nil

/-- That can be told from the names alone. -/
theorem freeName_of_names {name : String} (htaken : name ∉ Heap.taken)
    (hfunction : name ∉ Heap.functionNames) (htable : name ∉ Heap.tableNames) : FreeName name := by
  refine ⟨?_, Heap.standard_other hfunction htable⟩
  rintro b rfl
  exact htaken (Heap.mem_taken b)

theorem FreeName.not_mem_taken {name : String} (h : FreeName name) : name ∉ Heap.taken := by
  intro hmem
  have hb : ∃ b : Builtin, name = (splitName b.name).1 := by
    simp only [Heap.taken, List.mem_cons, List.not_mem_nil, or_false] at hmem
    obtain rfl | rfl | rfl | rfl | rfl := hmem
    · exact ⟨.cwd, by decide +kernel⟩
    · exact ⟨.getenv, by decide +kernel⟩
    · exact ⟨.fileExists, by decide +kernel⟩
    · exact ⟨.mungAppend, by decide +kernel⟩
    · exact ⟨.pathBasename, by decide +kernel⟩
  obtain ⟨b, hb⟩ := hb
  exact h.1 b hb

theorem not_freeName_math : ¬FreeName "math" := by
  rintro ⟨-, hnil⟩
  rw [standard_math] at hnil
  cases hnil

section

variable {engine : Engine} {facts : Facts} {names : List String} {leaf : Value} {d : Datum}

/-- A path to a leaf of the facts has the leaf's value in a fresh scope. -/
theorem looks_path (hstart : engine.heap = Heap.start facts)
    (hfacts : (Value.object facts).Addressable) (hfree : ∀ key ∈ Fields.keys facts, FreeName key)
    (hl : (Value.object facts).Leaf names leaf) (hd : leaf.Simple d)
    (henv : names.head? ≠ some environmentName) :
    engine.scope.1.Looks engine.scope.2 (".".intercalate names) d (4 * names.length + 1) := by
  have hnames := hl.names_of hfacts
  cases hl with
  | here hplain => exact absurd rfl (hplain facts)
  | @field _ key v _ names hmem hl =>
    have hfreeKey := hfree key (List.mem_map_of_mem hmem)
    obtain ⟨e, he, hparse⟩ := parse_fields (lexes_dotted hnames) (fun hkey => henv (hkey ▸ rfl))
    rw [← dotted_eq_intercalate]
    refine ⟨e, hparse, he.not_isCall, by rw [he.cost, List.length_cons]; omega, ?_⟩
    have hnamed : engine.heap.Named Heap.globals := hstart ▸ (Heap.puts_start facts).named
    have hextends := (extends_scope engine).trans (extends_loaded engine.scope.1 engine.scope.2 e)
    rw [he.look, valueOf_loaded, Heap.follow, index_loaded, index_fresh hnamed, hstart]
    exact Heap.follow_start hfacts hmem hfreeKey.not_mem_taken hl hd (hstart ▸ hextends)

/-- A simple value is written as `nil` or as a literal. -/
theorem Value.Simple.source? (hd : leaf.Simple d) :
    (leaf.source? = some "nil".toList ∧ d = .nil) ∨
      ∃ l : Literal, leaf.source? = some l.source ∧ d = l.datum := by
  cases hd with
  | null => exact .inl ⟨rfl, rfl⟩
  | bool b => exact .inr ⟨.bool b, rfl, rfl⟩
  | str s => exact .inr ⟨.str s, rfl, rfl⟩
  | @int n i hn =>
    refine .inr ⟨.int i, ?_, rfl⟩
    have hhalf : i.toInt < Word.half := i.toInt_lt
    rw [← Word.int64?_toInt_eq hn, Value.source?, if_pos hhalf, Int64.ofInt_toInt]
    rfl

/-- The text of a simple value has the value. -/
theorem looks_simple {scope : ScopeId} {text : List Char} (hd : leaf.Simple d)
    (htext : leaf.source? = some text) (hleast : engine.HasLeast scope) :
    engine.Looks scope (String.ofList text) d mostCost := by
  obtain ⟨hnil, rfl⟩ | ⟨l, hl, rfl⟩ := hd.source?
  · obtain rfl := Option.some.inj (htext.symm.trans hnil)
    exact looks_of_denotes denotes_nil
  · obtain rfl := Option.some.inj (htext.symm.trans hl)
    exact looks_literal l fun _ => hleast

/-- A rewriter leaves a path to a leaf as it is, or writes the leaf in its place. -/
theorem apply_leaf (hfacts : (Value.object facts).Addressable)
    (hl : (Value.object facts).Leaf names leaf) {p : Patch} {s : Surroundings}
    (hhints : s.hints = Facts.hints facts) (hp : names.head? = some p.ident → p.literal = none) :
    p.apply s (".".intercalate names) = ".".intercalate names ∨
      ∃ text, leaf.source? = some text ∧ p.apply s (".".intercalate names) = String.ofList text := by
  have hnames := hl.names_of hfacts
  have hmem := (Facts.mem_values hfacts).2 ⟨names, hl, rfl⟩
  have hvalue := Facts.value?_hints hfacts hmem
  cases hl with
  | here hplain => exact absurd rfl (hplain facts)
  | @field _ key v _ names _ _ =>
    rw [← dotted_eq_intercalate] at hvalue ⊢
    rw [apply_path hnames fun hkey => .inr (hp (congrArg some hkey))]
    cases ho : operand? p s [] (key :: names) with
    | none => exact .inl rfl
    | some text =>
      right
      refine ⟨text, ?_, rfl⟩
      obtain ⟨hident, -, l, hliteral, -⟩ | ⟨-, -, v, hv, hsource⟩ := operand?_some ho
      · rw [hp (congrArg some hident)] at hliteral
        cases hliteral
      · rw [hhints, hvalue] at hv
        obtain rfl := Option.some.inj hv
        exact hsource

end

/-- **Hints agree with the facts.** For each leaf of the facts there is one hint with a value, which
is under the leaf's path and no other. A path to a leaf that is neither a list nor a float has the
leaf's value in a fresh scope, both as it is and as a rewriter leaves it, whatever it hides. Only a
path that starts with the name of the table of globals is read differently by the engine. -/
theorem hints_agree_with_facts (host : Host) {facts : Facts}
    (hfacts : (Value.object facts).Addressable)
    (hfree : ∀ key ∈ Fields.keys facts, FreeName key) :
    let opened := (Engine.new host facts .endless).scope
    let known := opened.1.hints.filterMap Hint.valued?
    ((known.map Prod.fst).Nodup ∧
      (∀ path leaf, (path, leaf) ∈ known ↔
        ∃ names, (Value.object facts).Leaf names leaf ∧ path = ".".intercalate names) ∧
      ∀ names leaf names' leaf', (Value.object facts).Leaf names leaf →
        (Value.object facts).Leaf names' leaf' →
          ".".intercalate names = ".".intercalate names' → names = names' ∧ leaf = leaf') ∧
    ∀ names leaf d, (Value.object facts).Leaf names leaf → leaf.Simple d →
      names.head? ≠ some environmentName → opened.1.toValue d = .ok leaf ∧
        opened.1.EvaluatesWithin opened.2 (".".intercalate names) d (4 * names.length + 16) ∧
        ∀ (p : Patch) (shadowed : List String), (names.head? = some p.ident → p.literal = none) →
          opened.1.EvaluatesWithin opened.2
            (p.apply ⟨opened.1.hints, shadowed⟩ (".".intercalate names)) d
            (4 * names.length + 16) := by
  intro opened known
  have hknown : known = Facts.values facts := Facts.valued?_hints facts
  rw [hknown]
  refine ⟨⟨Facts.nodup_values hfacts, fun _ _ => Facts.mem_values hfacts, ?_⟩, ?_⟩
  · intro names leaf names' leaf' hl hl' hpath
    exact Facts.leaf_unique hfacts hl hl' hpath
  intro names leaf d hl hd henv
  have hendless : opened.1.clock.patience = .endless := rfl
  have hlooks : opened.1.Looks opened.2 (".".intercalate names) d (4 * names.length + 1) :=
    looks_path rfl hfacts hfree hl hd henv
  have hpath := hlooks.evaluatesWithin hendless
  refine ⟨?_, hpath.mono (by omega), ?_⟩
  · rw [Engine.toValue, hd.toValue]
    rfl
  intro p shadowed hp
  obtain hsame | ⟨text, htext, hnew⟩ :=
    apply_leaf (s := ⟨opened.1.hints, shadowed⟩) hfacts hl rfl hp
  · rw [hsame]
    exact hpath.mono (by omega)
  · have hmath : "math" ∉ Fields.keys facts := fun hmem => not_freeName_math (hfree _ hmem)
    have hleast : opened.1.HasLeast opened.2 := hasLeast_fresh rfl hmath
    rw [hnew]
    have hvalue := (looks_simple hd htext hleast).evaluatesWithin hendless
    exact hvalue.mono (by unfold mostCost; omega)

/-- Facts with fields in a field, among them the least whole number. -/
def nestedFacts : Facts :=
  [("app", .object [("least", .int (-9223372036854775808)), ("name", .str "web")]), ("debug", .null)]

theorem addressable_nestedFacts : (Value.object nestedFacts).Addressable := by
  refine .object (by decide) (by decide) ?_
  simp only [nestedFacts, List.forall_mem_cons]
  refine ⟨.object (by decide) (by decide) ?_, .plain nofun, nofun⟩
  simp only [List.forall_mem_cons]
  exact ⟨.plain nofun, .plain nofun, nofun⟩

theorem freeName_nestedFacts : ∀ key ∈ Fields.keys nestedFacts, FreeName key := by
  have happ : FreeName "app" := freeName_of_names (by decide) (by decide) (by decide)
  have hdebug : FreeName "debug" := freeName_of_names (by decide) (by decide) (by decide)
  intro key hkey
  have hkey : key = "app" ∨ key = "debug" := by simpa [nestedFacts, Fields.keys] using hkey
  obtain rfl | rfl := hkey
  · exact happ
  · exact hdebug

/-- The least whole number is read alike in a field. -/
theorem nested_facts_agree :
    (Value.object nestedFacts).Addressable ∧ (∀ key ∈ Fields.keys nestedFacts, FreeName key) ∧
      (Value.object nestedFacts).Leaf ["app", "least"] (.int (-9223372036854775808)) ∧
      let opened := (Engine.new .bare nestedFacts .endless).scope
      opened.1.Evaluates opened.2 "app.least" (.number (.int Int64.minValue)) ∧
        opened.1.Evaluates opened.2 ((ofParameter "_" none).apply ⟨opened.1.hints, []⟩ "app.least")
          (.number (.int Int64.minValue)) := by
  have hleaf : (Value.object nestedFacts).Leaf ["app", "least"] (.int (-9223372036854775808)) := by
    refine .field (List.mem_cons_self ..) ?_
    exact .field (List.mem_cons_self ..) (.here nofun)
  obtain ⟨-, hvalues⟩ := hints_agree_with_facts .bare addressable_nestedFacts freeName_nestedFacts
  obtain ⟨-, hpath, hpatched⟩ := hvalues _ _ _ hleaf (.int (i := Int64.minValue) rfl) (by decide)
  refine ⟨addressable_nestedFacts, freeName_nestedFacts, hleaf, ?_, ?_⟩
  · exact hpath.evaluates (by decide)
  · exact (hpatched (ofParameter "_" none) [] nofun).evaluates (by decide)

/-! ## The table of globals -/

/-- A program knows the table of its globals by name. -/
theorem looks_environment (engine : Engine) (scope : ScopeId) :
    engine.Looks scope environmentName (.table scope) 1 := by
  have hlexes : Lexes [] environmentName.toList [.name environmentName] :=
    lexes_variable (by decide) (by decide)
  obtain ⟨l, hparse⟩ := parse_resolved hlexes
  exact ⟨_, hparse, rfl, Nat.le_refl _, congrArg some (valueOf_loaded engine scope _)⟩

/-- A scope in which nothing is bound has no fields. -/
theorem toValue_scope (engine : Engine) :
    engine.scope.1.toValue (.table engine.scope.2) = .ok (.object []) := by
  have hlist : engine.scope.1.heap.isList engine.scope.2 = false := by
    unfold Heap.isList
    rw [table_scope]
    rfl
  have hpairs : (engine.scope.1.heap.table engine.scope.2).pairs = [] := by
    rw [table_scope]
    rfl
  unfold Engine.toValue Heap.toValue
  rw [Heap.valueWithin]
  dsimp only
  rw [hlist, hpairs]
  rfl

/-- The value of a fact. -/
def environmentFacts : Facts := [(environmentName, .int 5)]

/-- A fact that is called as the table of globals is not read in its place, but written there. -/
theorem environment_fact_differs : ¬ ∀ (host : Host) (facts : Facts) (names : List String)
    (leaf v : Value) (d d' d'' : Datum), (Value.object facts).Addressable →
      (∀ key ∈ Fields.keys facts, FreeName key) → (Value.object facts).Leaf names leaf →
      leaf.Simple d'' →
      let opened := (Engine.new host facts .endless).scope
      opened.1.Evaluates opened.2 (".".intercalate names) d →
      opened.1.Evaluates opened.2
        ((ofParameter "_" none).apply ⟨opened.1.hints, []⟩ (".".intercalate names)) d' →
      opened.1.toValue d = .ok v → opened.1.toValue d' = .ok v := by
  intro h
  have hplain : (Value.object environmentFacts).Addressable := by
    refine .object (by decide) (by decide) ?_
    simp only [environmentFacts, List.forall_mem_cons]
    exact ⟨.plain nofun, nofun⟩
  have hfree : ∀ key ∈ Fields.keys environmentFacts, FreeName key := by
    have henvironment : FreeName environmentName :=
      freeName_of_names (by decide) (by decide) (by decide)
    exact List.forall_mem_singleton.2 henvironment
  have hleaf : (Value.object environmentFacts).Leaf [environmentName] (.int 5) :=
    .field (List.mem_cons_self ..) (.here nofun)
  have hnew : (ofParameter "_" none).apply ⟨Facts.hints environmentFacts, []⟩ environmentName =
      String.ofList (Literal.int 5).source := by decide +kernel
  have hgoes : (Engine.new .bare environmentFacts .endless).scope.1.GoesOn := rfl
  have hfive := h .bare environmentFacts [environmentName] (.int 5) (.object [])
    (.table (Engine.new .bare environmentFacts .endless).scope.2) (.number (.int 5)) _ hplain hfree
    hleaf (.int (i := 5) rfl) ((looks_environment _ _).evaluates hgoes (by decide)) ?_
    (toValue_scope _)
  · cases hfive
  · have hliteral : (Engine.new .bare environmentFacts .endless).scope.1.Evaluates
        (Engine.new .bare environmentFacts .endless).scope.2
        (String.ofList (Literal.int 5).source) (Literal.int 5).datum :=
      (looks_literal (.int 5) nofun).evaluates hgoes (by decide)
    rw [← hnew] at hliteral
    exact hliteral

end EnvManifest
