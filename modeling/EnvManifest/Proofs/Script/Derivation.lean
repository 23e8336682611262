import EnvManifest.Proofs.Script.Grammar
import EnvManifest.Proofs.Script.Yields

/-!
# What is read is derived

The tokens that each part of the parser goes past are derived in the grammar, in the scope of the
parser.
-/

namespace EnvManifest.Script

open Text

/-! ## Tokens of phrases -/

/-- The tokens are those of a derivation. -/
def Spells (segments : List Segment) (ts : List Token) : Prop :=
  ∃ xs, Expands segments xs ∧ xs.map (·.token) = ts

namespace Spells

variable {segments more body : List Segment} {ts us : List Token} {p : Phrase} {s : List String}

theorem nil : Spells [] [] := ⟨[], .nil, rfl⟩

theorem items (xs : List Item) (h : Spells segments ts) :
    Spells (.items xs :: segments) (xs.map (·.token) ++ ts) := by
  obtain ⟨ys, hy, rfl⟩ := h
  exact ⟨xs ++ ys, .items xs hy, List.map_append⟩

theorem append (h : Spells segments ts) (h' : Spells more us) :
    Spells (segments ++ more) (ts ++ us) := by
  obtain ⟨xs, hx, rfl⟩ := h
  obtain ⟨ys, hy, rfl⟩ := h'
  exact ⟨xs ++ ys, hx.append hy, List.map_append⟩

theorem one (h : Spells body ts) (hr : Rule p s body) : Spells [.phrase p s] ts := by
  obtain ⟨xs, hx, rfl⟩ := h
  exact ⟨xs, hx.one hr, rfl⟩

/-- Tokens after a phrase. -/
theorem before (h : Spells segments ts) (xs : List Item) :
    Spells (segments ++ [.items xs]) (ts ++ xs.map (·.token)) := by
  have hall := h.append (.items xs .nil)
  rwa [List.append_nil] at hall

/-- A statement that declares nothing, and the rest of its block. -/
theorem next {b : Bool} (h : Spells [.phrase .statement s] ts)
    (h' : Spells [.phrase (.block b) s] us) : Spells [.phrase (.block b) s] (ts ++ us) :=
  (h.append h').one (.next s b)

end Spells

/-- What a phrase of the parser is: an access can be assigned to, and a call is a statement. -/
structure Suffixed (s : List String) (e : Expr) (ts : List Token) : Prop where
  spelled : Spells [.phrase .suffixed s] ts
  call : e.isCall → Spells [.phrase .call s] ts
  target : e.isTarget → ∀ {m : String} {next : Phrase} {us : List Token},
    (m, next) ∈ afterTarget → Spells [.phrase next s] us →
      Spells [.phrase .assignment s] (ts ++ .mark m :: us)

/-! ## Lists of names -/

theorem tokens_listed (xs : List Item) (more : List (List Item)) :
    (listed (xs :: more)).map (·.token) =
      xs.map (·.token) ++ more.flatMap fun ys => .mark "," :: ys.map (·.token) := by
  induction more generalizing xs with
  | nil => simp [listed]
  | cons ys more ih =>
    rw [listed, List.map_append, List.map_cons, ih, List.flatMap_cons]
    rfl

/-- The attribute of a new name. -/
def attributeTokens (a : Option String) : List Token :=
  a.elim [] fun a => [.mark "<", .name a, .mark ">"]

theorem tokens_localName (n : String) (a : Option String) :
    (localName (n, a)).map (·.token) = .name n :: attributeTokens a := by
  cases a <;> rfl

theorem constantMark_yields :
    Yields constantMark fun _ ts => ∃ a, ts = attributeTokens a := by
  unfold constantMark
  refine .accept ?_ (.pure ⟨none, rfl⟩)
  refine .name fun a => .expect ?_
  exact .ite (fun _ => .pure ⟨some a, rfl⟩) fun _ => .never (misuse_ne _)

theorem attributedNames_yields (n : Nat) : Yields (attributedNames n) fun x ts =>
    ∃ names : List (String × Option String), names ≠ [] ∧
      names.map Prod.fst = x.map Prod.fst ∧ ts = (localNames names).map (·.token) := by
  induction n with
  | zero => exact .never exhausted_ne
  | succ n ih =>
    unfold attributedNames
    refine .name fun m => .bind constantMark_yields ?_
    rintro constant _ ⟨a, rfl⟩
    have hfirst := tokens_localName m a
    refine .accept (.bind ih ?_) (.pure ?_)
    · rintro more _ ⟨names, hne, hnames, rfl⟩
      refine .pure ⟨(m, a) :: names, List.cons_ne_nil _ _, ?_, ?_⟩
      · rw [List.map_cons, List.map_cons, hnames]
      · obtain ⟨x, names, rfl⟩ := List.exists_cons_of_ne_nil hne
        simp [localNames, tokens_listed, hfirst]
    · exact ⟨[(m, a)], List.cons_ne_nil _ _, rfl, by simp [localNames, listed, hfirst]⟩

theorem moreNames_yields (n : Nat) : Yields (moreNames n) fun names ts =>
    ts = names.flatMap fun n => [.mark ",", .name n] := by
  induction n with
  | zero => exact .never exhausted_ne
  | succ n ih =>
    unfold moreNames
    refine .accept (.name fun m => .bind ih ?_) (.pure rfl)
    rintro names _ rfl
    exact .pure (by simp)

theorem tokens_loopNames (n : String) (names : List String) :
    (loopNames (n :: names)).map (·.token) =
      .name n :: names.flatMap fun n => [.mark ",", .name n] := by
  rw [loopNames, List.map_cons, tokens_listed, List.flatMap_map]
  rfl

theorem parameters_yields (n : Nat) : Yields (parameters n) fun x ts =>
    parameterEntries x.1 x.2 ≠ [] ∧ ts = (listed (parameterEntries x.1 x.2)).map (·.token) := by
  induction n with
  | zero => exact .never exhausted_ne
  | succ n ih =>
    unfold parameters
    refine .current fun t l => ?_
    dsimp only
    split
    · rename_i m
      refine .advance rfl (.accept (.bind ih ?_) (.pure ⟨List.cons_ne_nil _ _, rfl⟩))
      rintro ⟨names, varargs⟩ _ ⟨hne, rfl⟩
      refine .pure ⟨List.cons_ne_nil _ _, ?_⟩
      obtain ⟨xs, more, hmore⟩ := List.exists_cons_of_ne_nil hne
      have hall : parameterEntries (m :: names) varargs = [.declared m] :: xs :: more := by
        rw [← hmore]
        rfl
      dsimp only
      rw [hall, hmore, tokens_listed, tokens_listed]
      simp [Item.declared]
    · exact Yields.atFirst (.accept (.pure ⟨List.cons_ne_nil _ _, rfl⟩) (.never (fault_ne _)))

/-! ## The grammar -/

/-- The names in scope, the last declared first. -/
def Context.names (ctx : Context) : List String := ctx.scope.map (·.name)

theorem Context.names_declare (ctx : Context) (names : List String) :
    (ctx.declare names).names = names.reverse ++ ctx.names := by
  simp [Context.names, Context.declare, Function.comp_def]

theorem Yields.enter {ctx : Context} {α : Type} {k : Context → Parser α}
    {Q : α → List Token → Prop} (hk : ∀ inner : Context, inner.names = ctx.names → Yields (k inner) Q) :
    Yields (ctx.enter >>= k) Q := by
  intro r b s e
  unfold Context.enter at e
  split at e
  · exact hk { ctx with level := ctx.level + 1 } rfl r b s e
  · cases e

theorem YieldsAt.enter {ctx : Context} {α : Type} {t : Token} {k : Context → Parser α}
    {Q : α → List Token → Prop}
    (hk : ∀ inner : Context, inner.names = ctx.names → YieldsAt t (k inner) Q) :
    YieldsAt t (ctx.enter >>= k) Q := by
  intro r b s hr e
  unfold Context.enter at e
  split at e
  · exact hk { ctx with level := ctx.level + 1 } rfl r b s hr e
  · cases e

/-- What the body of a function is spelled as. -/
def BodySpelled (s : List String) (isMethod : Bool) (ts : List Token) : Prop :=
  ∃ names varargs us, Spells [.phrase (.block false)
      ((if isMethod then "self" :: names else names).reverse ++ s)] us ∧
    ts = (parameterList names varargs).map (·.token) ++ (us ++ [.mark "end"])

/-- The tokens of fields, and of a method, after the first name of a function. -/
def pathTail (fields : List String) (method : Option String) : List Token :=
  (fields.flatMap fun f => [.mark ".", .name f]) ++ method.elim [] fun m => [.mark ":", .name m]

/-- What is true of every part of the grammar, with so much fuel. A part that goes on with something
is told by what it makes of the tokens before it, and one that declares names by what it makes of the
rest of its block. -/
structure Derives (n : Nat) : Prop where
  expression : ∀ ctx limit, Yields (expression n ctx limit) fun _ ts =>
    Spells [.phrase .expression ctx.names] ts
  operators : ∀ ctx limit e, Yields (operators n ctx limit e) fun _ ts => ∀ {us},
    Spells [.phrase .expression ctx.names] us → Spells [.phrase .expression ctx.names] (us ++ ts)
  operand : ∀ ctx, Yields (operand n ctx) fun _ ts => Spells [.phrase .expression ctx.names] ts
  suffixed : ∀ ctx, Yields (suffixed n ctx) (Suffixed ctx.names)
  suffixes : ∀ ctx e, Yields (suffixes n ctx e) fun e' ts => ∀ {us},
    Suffixed ctx.names e us → Suffixed ctx.names e' (us ++ ts)
  bracketed : ∀ ctx, YieldsAt (.mark "[") (bracketed n ctx) fun _ ts => ∃ us,
    Spells [.phrase .expression ctx.names] us ∧ ts = .mark "[" :: (us ++ [.mark "]"])
  arguments : ∀ ctx, Yields (arguments n ctx) fun _ ts => Spells [.phrase .arguments ctx.names] ts
  expressions : ∀ ctx, Yields (expressions n ctx) fun _ ts =>
    Spells [.phrase .expressions ctx.names] ts
  tableConstructor : ∀ ctx, YieldsAt (.mark "\x7b") (tableConstructor n ctx) fun _ ts =>
    Spells [.phrase .table ctx.names] ts
  fields : ∀ ctx line, Yields (fields n ctx line) fun _ ts => Spells [.phrase .fields ctx.names] ts
  field : ∀ ctx, Yields (field n ctx) fun _ ts => Spells [.phrase .field ctx.names] ts
  keyedField : ∀ ctx e, Yields (keyedField n ctx e) fun _ ts => ∃ us,
    Spells [.phrase .expression ctx.names] us ∧ ts = .mark "=" :: us
  functionBody : ∀ ctx isMethod line, Yields (functionBody n ctx isMethod line) fun _ ts =>
    BodySpelled ctx.names isMethod ts
  block : ∀ ctx, Yields (block n ctx) fun _ ts => Spells [.phrase (.block false) ctx.names] ts
  giveStatement : ∀ ctx, YieldsAt (.mark "return") (giveStatement n ctx) fun _ ts => ∃ us,
    Spells [.phrase .given ctx.names] us ∧ ts = .mark "return" :: us
  statement : ∀ ctx, Yields (statement n ctx) fun x ts => ∀ {b us},
    Spells [.phrase (.block b) (x.2.map (·.name))] us →
      Spells [.phrase (.block b) ctx.names] (ts ++ us)
  untilBlock : ∀ ctx line, Yields (untilBlock n ctx line) fun _ ts =>
    Spells [.phrase (.block true) ctx.names] ts
  ifStatement : ∀ ctx line (t : Token), t.isRead → YieldsAt t (ifStatement n ctx line) fun _ ts => ∃ us,
    Spells [.phrase .expression ctx.names, .items [.mark "then"],
      .phrase (.block false) ctx.names, .phrase .branch ctx.names] us ∧ ts = t :: us
  forStatement : ∀ ctx line, YieldsAt (.mark "for") (forStatement n ctx line) fun _ ts =>
    Spells [.phrase .statement ctx.names] ts
  bound : ∀ ctx, Yields (bound n ctx) fun _ ts => Spells [.phrase .expression ctx.names] ts
  functionStatement : ∀ ctx line, YieldsAt (.mark "function") (functionStatement n ctx line)
    fun _ ts => Spells [.phrase .statement ctx.names] ts
  functionName : ∀ e, Yields (functionName n e) fun x ts => ∃ fields method,
    x.2 = method.isSome ∧ ts = pathTail fields method
  localStatement : ∀ ctx, Yields (localStatement n ctx) fun x ts => ∀ {b us},
    Spells [.phrase (.block b) (x.2.map (·.name))] us →
      Spells [.phrase (.block b) ctx.names] (.mark "local" :: (ts ++ us))
  expressionStatement : ∀ ctx, Yields (expressionStatement n ctx) fun _ ts =>
    Spells [.phrase .statement ctx.names] ts
  assignment : ∀ ctx e, Yields (assignment n ctx e) fun _ ts => ∀ {us},
    Suffixed ctx.names e us → Spells [.phrase .assignment ctx.names] (us ++ ts)

namespace Derives

variable {n : Nat} (hn : Derives n) (ctx : Context)
include hn

/-! ## Expressions -/

theorem expression_succ (limit : Nat) : Yields (Script.expression (n + 1) ctx limit) fun _ ts =>
    Spells [.phrase .expression ctx.names] ts := by
  unfold Script.expression
  refine .enter fun inner hi => .current fun t l => ?_
  rw [← hi]
  dsimp only
  split
  · rename_i op hop
    have ht : t.isRead := isRead_of (f := fun t => (unary? t).isSome) rfl (fun _ => rfl) (by simp [hop])
    refine .advance ht (.bind (hn.expression inner unaryPower) fun e ts hts => ?_)
    refine .peek peeks_lastLine fun last => (hn.operators inner limit _).imp fun e us hus => ?_
    have hunary := (Spells.items [⟨t, .plain⟩] hts).one
      (.unary inner.names (by rw [hop]; rfl))
    exact hus hunary
  · refine Yields.atFirst (.bind (hn.operand inner) fun e ts hts => ?_)
    exact (hn.operators inner limit _).imp fun _ us hus => hus hts

theorem operators_succ (limit : Nat) (e : Expr) :
    Yields (Script.operators (n + 1) ctx limit e) fun _ ts => ∀ {us},
      Spells [.phrase .expression ctx.names] us →
        Spells [.phrase .expression ctx.names] (us ++ ts) := by
  unfold Script.operators
  refine .current fun t l => ?_
  have hstop : Yields (pure e : Parser Expr) fun _ ts => ∀ {us},
      Spells [.phrase .expression ctx.names] us →
        Spells [.phrase .expression ctx.names] (us ++ ts) :=
    .pure fun h => by rwa [List.append_nil]
  dsimp only
  split
  · exact hstop.atFirst
  · rename_i op left right hop
    have ht : t.isRead := isRead_of (f := fun t => (infix? t).isSome) rfl (fun _ => rfl) (by simp [hop])
    split
    · exact hstop.atFirst
    · refine .advance ht (.bind (hn.expression ctx right) fun e ts hts => ?_)
      refine .peek peeks_lastLine fun last => (hn.operators ctx limit _).imp fun e us hus vs hv => ?_
      have hbinary := (hv.append (.items [⟨t, .plain⟩] hts)).one
        (.binary ctx.names (by rw [hop]; rfl))
      simpa using hus hbinary

theorem operand_succ : Yields (Script.operand (n + 1) ctx) fun _ ts =>
    Spells [.phrase .expression ctx.names] ts := by
  unfold Script.operand
  have hliteral {t : Token} (ht : t.isLiteral) (e : Expr) :
      YieldsAt t (Parser.advance >>= fun _ => pure e) fun _ ts =>
        Spells [.phrase .expression ctx.names] ts := by
    have hread : t.isRead := isRead_of rfl (fun _ => rfl) ht
    exact .advance hread (.pure ((Spells.items [⟨t, .plain⟩] .nil).one (.literal _ ht)))
  refine .current fun t l => ?_
  dsimp only
  split
  · exact hliteral rfl _
  · exact hliteral rfl _
  · exact hliteral rfl _
  · exact hliteral rfl _
  · exact hliteral rfl _
  · exact hliteral rfl _
  · split
    · exact hliteral rfl _
    · exact Yields.atFirst (.never (fault_ne _))
  · exact (hn.tableConstructor ctx).imp fun _ ts hts => hts.one (.construct _)
  · refine .peek peeks_currentLine fun line => .advance rfl ?_
    refine .bind (hn.functionBody ctx false line) ?_
    rintro f _ ⟨names, varargs, us, hus, rfl⟩
    have hbody := hus.before [.mark "end"]
    have hlambda := (Spells.items _ hbody).one (.lambda ctx.names names varargs)
    exact .pure (by simpa [Item.mark] using hlambda)
  · exact ((hn.suffixed ctx).imp fun _ ts hts => hts.spelled.one (.operand _)).atFirst

omit hn in
theorem suffixed_name (s : List String) (n : String) (e : Expr) (he : e.isCall = false) :
    Suffixed s e [.name n] := by
  refine ⟨(Spells.items [.use s n] .nil).one (.name s n), ?_, ?_⟩
  · rw [he]
    nofun
  · exact fun _ m next us hm hus => (Spells.items [.target n, .mark m] hus).one (.nameTarget s n hm)

omit hn in
theorem resolve_isCall (n : String) : (ctx.resolve n).isCall = false := by
  unfold Context.resolve
  dsimp only
  split
  · rfl
  · split
    · rfl
    · rfl

theorem suffixed_succ : Yields (Script.suffixed (n + 1) ctx) (Suffixed ctx.names) := by
  unfold Script.suffixed
  refine .current fun t l => ?_
  dsimp only
  split
  · rename_i m
    refine .advance rfl ((hn.suffixes ctx _).imp fun e ts hts => ?_)
    exact hts (suffixed_name ctx.names m _ (resolve_isCall ctx m))
  · refine .advance rfl (.bind (hn.expression ctx 0) fun e ts hts => .close ?_)
    refine .peek peeks_lastLine fun last => (hn.suffixes ctx _).imp fun e' us hus => ?_
    have hgroup := (Spells.items [.mark "("] (hts.before [.mark ")"])).one (.group ctx.names)
    have hsingle : Suffixed ctx.names (.single (e.settle last))
        (.mark "(" :: (ts ++ [.mark ")"])) := by
      refine ⟨hgroup, ?_, ?_⟩
      · intro hcall
        cases hcall
      · intro htarget
        cases htarget
    simpa using hus hsingle
  · exact Yields.atFirst (.never (fault_ne _))

omit hn in
/-- A field of what a phrase stands for. -/
theorem suffixed_member {s : List String} {ts : List Token} (h : Spells [.phrase .suffixed s] ts)
    (n : String) (l : Nat) (e k : Expr) : Suffixed s (.index l e k) (ts ++ [.mark ".", .name n]) := by
  refine ⟨(h.before [.mark ".", .field n]).one (.member s n), nofun, fun _ m next us hm hus => ?_⟩
  have htarget := (h.append (.items [.mark ".", .field n, .mark m] hus)).one (.memberTarget s n hm)
  simpa [Item.mark, Item.field] using htarget

omit hn in
/-- What a phrase stands for at a key. -/
theorem suffixed_index {s : List String} {ts us : List Token} (h : Spells [.phrase .suffixed s] ts)
    (hk : Spells [.phrase .expression s] us) (l : Nat) (e k : Expr) :
    Suffixed s (.index l e k) (ts ++ .mark "[" :: (us ++ [.mark "]"])) := by
  have hindex := h.append (.items [.mark "["] (hk.before [.mark "]"]))
  refine ⟨hindex.one (.index s), nofun, fun _ m next vs hm hvs => ?_⟩
  have htarget := (h.append (.items [.mark "["] (hk.append (.items [.mark "]", .mark m] hvs)))).one
    (.indexTarget s hm)
  simpa [Item.mark] using htarget

omit hn in
theorem suffixed_called {s : List String} {e : Expr} {ts : List Token}
    (h : Spells [.phrase .call s] ts) (he : e.isTarget = false) : Suffixed s e ts := by
  refine ⟨h.one (.called s), fun _ => h, ?_⟩
  rw [he]
  nofun

theorem suffixes_succ (e : Expr) : Yields (Script.suffixes (n + 1) ctx e) fun e' ts => ∀ {us},
    Suffixed ctx.names e us → Suffixed ctx.names e' (us ++ ts) := by
  have hcalled {t : Token} (l : Nat) (h : YieldsAt t (Script.arguments n ctx) fun _ ts =>
      Spells [.phrase .arguments ctx.names] ts) :
      YieldsAt t (do
        let e := e.settle (← Parser.lastLine)
        Script.suffixes n ctx (.call l e (← Script.arguments n ctx))) fun e' ts => ∀ {us},
          Suffixed ctx.names e us → Suffixed ctx.names e' (us ++ ts) := by
    refine .peek peeks_lastLine fun last => .bind h fun args ts hts => ?_
    refine (hn.suffixes ctx _).imp fun e' us hus vs hvs => ?_
    have hcall := (hvs.spelled.append hts).one (.call ctx.names)
    simpa using hus (suffixed_called hcall rfl)
  unfold Script.suffixes
  refine .current fun t l => ?_
  dsimp only
  split
  · refine .peek peeks_lastLine fun last => .advance rfl (.name fun m => ?_)
    refine (hn.suffixes ctx _).imp fun e' us hus vs hvs => ?_
    simpa using hus (suffixed_member hvs.spelled m _ _ _)
  · refine .peek peeks_lastLine fun last => .bind (hn.bracketed ctx) ?_
    rintro key _ ⟨ts, hts, rfl⟩
    refine (hn.suffixes ctx _).imp fun e' us hus vs hvs => ?_
    simpa using hus (suffixed_index hvs.spelled hts _ _ _)
  · refine .advance rfl (.name fun m => .peek peeks_lastLine fun nameLine => ?_)
    refine .peek peeks_currentLine fun line => .bind (hn.arguments ctx) fun args ts hts => ?_
    refine (hn.suffixes ctx _).imp fun e' us hus vs hvs => ?_
    have hcall := (hvs.spelled.append (.items [.mark ":", .field m] hts)).one (.method ctx.names m)
    simpa [Item.mark, Item.field] using hus (suffixed_called hcall rfl)
  · exact hcalled l (hn.arguments ctx).atFirst
  · exact hcalled l (hn.arguments ctx).atFirst
  · exact hcalled l (hn.arguments ctx).atFirst
  · exact Yields.atFirst (.pure fun h => by rwa [List.append_nil])

theorem bracketed_succ : YieldsAt (.mark "[") (Script.bracketed (n + 1) ctx) fun _ ts => ∃ us,
    Spells [.phrase .expression ctx.names] us ∧ ts = .mark "[" :: (us ++ [.mark "]"]) := by
  unfold Script.bracketed
  refine .advance rfl (.bind (hn.expression ctx 0) fun e ts hts => ?_)
  exact .peek peeks_lastLine fun last => .expect (.pure ⟨ts, hts, rfl⟩)

theorem arguments_succ : Yields (Script.arguments (n + 1) ctx) fun _ ts =>
    Spells [.phrase .arguments ctx.names] ts := by
  unfold Script.arguments
  refine .current fun t l => ?_
  dsimp only
  split
  · rename_i value shown
    exact .advance rfl (.pure ((Spells.items _ .nil).one (.argumentString ctx.names value shown)))
  · refine .bind (hn.tableConstructor ctx) fun e ts hts => .pure ?_
    simpa using hts.one (.argumentTable ctx.names)
  · refine .advance rfl (.accept (.pure ?_) ?_)
    · have hvalues := Spells.nil.one (.noValues ctx.names)
      exact (Spells.items [.mark "("] (hvalues.before [.mark ")"])).one (.argumentList ctx.names)
    · refine .bind (hn.expressions ctx) fun es ts hts => .close ?_
      refine .peek peeks_lastLine fun last => .pure ?_
      have hvalues := hts.one (.someValues ctx.names)
      exact (Spells.items [.mark "("] (hvalues.before [.mark ")"])).one (.argumentList ctx.names)
  · exact Yields.atFirst (.never (fault_ne _))

theorem expressions_succ : Yields (Script.expressions (n + 1) ctx) fun _ ts =>
    Spells [.phrase .expressions ctx.names] ts := by
  unfold Script.expressions
  refine .bind (hn.expression ctx 0) fun e ts hts => .accept ?_ (.pure ?_)
  · refine .peek peeks_lastLine fun last => .bind (hn.expressions ctx) fun es us hus => .pure ?_
    simpa [Item.mark] using (hts.append (.items [.mark ","] hus)).one (.more ctx.names)
  · simpa using hts.one (.one ctx.names)

theorem tableConstructor_succ : YieldsAt (.mark "\x7b") (Script.tableConstructor (n + 1) ctx)
    fun _ ts => Spells [.phrase .table ctx.names] ts := by
  unfold Script.tableConstructor
  refine .peek peeks_currentLine fun line => .advance rfl ?_
  refine .bind (hn.fields ctx line) fun fs ts hts => .pure ?_
  simpa [Item.mark] using (Spells.items [.mark "\x7b"] hts).one (.table ctx.names)

theorem fields_succ (line : Nat) : Yields (Script.fields (n + 1) ctx line) fun _ ts =>
    Spells [.phrase .fields ctx.names] ts := by
  have hmore {m : String} (hm : m = "," ∨ m = ";") (f : Field) {ts : List Token}
      (hts : Spells [.phrase .field ctx.names] ts) :
      Yields (do
        let f := f.settle (← Parser.lastLine)
        return f :: (← Script.fields n ctx line)) fun _ us =>
          Spells [.phrase .fields ctx.names] (ts ++ .mark m :: us) := by
    refine .peek peeks_lastLine fun last => .bind (hn.fields ctx line) fun fs us hus => .pure ?_
    simpa [Item.mark] using (hts.append (.items [.mark m] hus)).one (.moreFields ctx.names hm)
  unfold Script.fields
  refine .accept (.pure ((Spells.items [.mark "\x7d"] .nil).one (.noFields _))) ?_
  refine .bind (hn.field ctx) fun f ts hts => .accept ?_ (.accept ?_ ?_)
  · exact hmore (.inl rfl) f hts
  · exact hmore (.inr rfl) f hts
  · refine .close (.peek peeks_lastLine fun last => .pure ?_)
    exact (hts.before [.mark "\x7d"]).one (.lastField ctx.names)

theorem keyedField_succ (e : Expr) : Yields (Script.keyedField (n + 1) ctx e) fun _ ts => ∃ us,
    Spells [.phrase .expression ctx.names] us ∧ ts = .mark "=" :: us := by
  unfold Script.keyedField
  refine .expect (.bind (hn.expression ctx 0) fun e ts hts => ?_)
  exact .peek peeks_lastLine fun last => .pure ⟨ts, hts, by simp⟩

theorem field_succ : Yields (Script.field (n + 1) ctx) fun _ ts =>
    Spells [.phrase .field ctx.names] ts := by
  rintro ⟨tokens, last⟩ f s e
  unfold Script.field at e
  obtain ⟨r, r', hr, e⟩ := bind_ok.1 e
  cases hr
  dsimp only at e
  split at e
  · rename_i m _ _ _ _
    have hfield : YieldsAt (.name m)
        (Parser.advance >>= fun _ => Script.keyedField n ctx (.str (encode m.toList))) fun _ ts =>
          Spells [.phrase .field ctx.names] ts := by
      refine .advance rfl ((hn.keyedField ctx _).imp ?_)
      rintro f _ ⟨us, hus, rfl⟩
      exact (Spells.items [.field m, .mark "="] hus).one (.nameField ctx.names m)
    exact hfield _ f s rfl e
  · have hfield : YieldsAt (.mark "[")
        (Script.bracketed n ctx >>= fun key => Script.keyedField n ctx key) fun _ ts =>
          Spells [.phrase .field ctx.names] ts := by
      refine .bind (hn.bracketed ctx) ?_
      rintro key _ ⟨ts, hts, rfl⟩
      refine (hn.keyedField ctx key).imp ?_
      rintro f _ ⟨us, hus, rfl⟩
      have hkey := (Spells.items [.mark "["] (hts.append (.items [.mark "]", .mark "="] hus))).one
        (.keyField ctx.names)
      simpa [Item.mark] using hkey
    exact hfield _ f s rfl e
  · cases e
  · have hfield : Yields (Script.expression n ctx 0 >>= fun e => pure (Field.item e)) fun _ ts =>
        Spells [.phrase .field ctx.names] ts := by
      refine .bind (hn.expression ctx 0) fun e ts hts => .pure ?_
      simpa using hts.one (.itemField ctx.names)
    exact hfield _ f s e

/-! ## Functions -/

theorem functionBody_succ (isMethod : Bool) (line : Nat) :
    Yields (Script.functionBody (n + 1) ctx isMethod line) fun _ ts =>
      BodySpelled ctx.names isMethod ts := by
  have hbody (names : List String) (varargs : Bool) : Yields (do
        Parser.expect ")"
        let names := if isMethod then "self" :: names else names
        let inner := { ctx with depth := ctx.depth + 1, varargs, inLoop := false }
        let body ← Script.block n (inner.declare names)
        Parser.close "end" "function" line
        return (⟨names.length, varargs, body⟩ : FunctionBody)) fun _ ts =>
      BodySpelled ctx.names isMethod
        (.mark "(" :: ((listed (parameterEntries names varargs)).map (·.token) ++ ts)) := by
    refine .expect (.bind (hn.block _) fun body us hus => .close (.pure ?_))
    rw [Context.names_declare] at hus
    exact ⟨names, varargs, us, hus, by simp [parameterList, parameterEntries, Item.mark]⟩
  unfold Script.functionBody
  refine .expect (.peek (peeks_isMark ")") fun closed => .ite (fun _ => ?_) fun _ => ?_)
  · rw [pure_bind]
    exact hbody [] false
  · refine .bind (parameters_yields n) ?_
    rintro ⟨names, varargs⟩ _ ⟨-, rfl⟩
    exact hbody names varargs

omit ctx in
theorem functionName_succ (e : Expr) : Yields (Script.functionName (n + 1) e) fun x ts =>
    ∃ fields method, x.2 = method.isSome ∧ ts = pathTail fields method := by
  unfold Script.functionName
  refine .isMark ?_ (.isMark ?_ (.pure ⟨[], none, rfl, rfl⟩))
  · refine .peek peeks_lastLine fun last => .advance rfl (.name fun m => ?_)
    refine (hn.functionName _).imp ?_
    rintro x _ ⟨fields, method, hmethod, rfl⟩
    exact ⟨m :: fields, method, hmethod, rfl⟩
  · refine .peek peeks_lastLine fun last => .advance rfl (.name fun m => ?_)
    exact .pure ⟨[], some m, rfl, rfl⟩

omit hn ctx in
theorem tokens_functionPath (s : List String) (n : String) (fields : List String)
    (method : Option String) :
    (functionPath s n fields method).map (·.token) = .name n :: pathTail fields method := by
  unfold functionPath
  split
  · rename_i h
    obtain ⟨rfl, rfl⟩ := h
    rfl
  · unfold pathTail
    rw [List.cons_append, List.map_cons, List.map_append, List.map_flatMap]
    cases method <;> rfl

theorem functionStatement_succ (line : Nat) :
    YieldsAt (.mark "function") (Script.functionStatement (n + 1) ctx line) fun _ ts =>
      Spells [.phrase .statement ctx.names] ts := by
  unfold Script.functionStatement
  refine .advance rfl (.name fun m => .bind (hn.functionName _) ?_)
  rintro ⟨target, isMethod⟩ _ ⟨fields, method, rfl, rfl⟩
  refine .bind (hn.functionBody ctx _ line) ?_
  rintro f _ ⟨names, varargs, us, hus, rfl⟩
  have hscope : (if method.isSome then "self" :: names else names) =
      method.elim names fun _ => "self" :: names := by
    cases method <;> rfl
  rw [hscope] at hus
  have hfunction := (Spells.items _ (hus.before [.mark "end"])).one
    (.function ctx.names m fields method names varargs)
  have htokens := tokens_functionPath ctx.names m fields method
  split
  · exact .never (misuse_ne _)
  · exact .pure (by simpa [Item.mark, htokens] using hfunction)

/-! ## Statements -/

theorem block_succ : Yields (Script.block (n + 1) ctx) fun _ ts =>
    Spells [.phrase (.block false) ctx.names] ts := by
  have hend : Spells [.phrase (.ending false) ctx.names] [] := Spells.nil.one (.ended _)
  unfold Script.block
  refine .peek peeks_atBlockEnd fun closed => .ite (fun _ => ?_) fun _ => ?_
  · exact .pure (hend.one (.blockEnd _ false))
  · refine .isMark (YieldsAt.enter fun inner hi => ?_) (.enter fun inner hi => ?_)
    · refine .bind (hn.giveStatement inner) ?_
      rintro give _ ⟨us, hus, rfl⟩
      rw [hi] at hus
      have hgive := (Spells.items [.mark "return"] (hus.append hend)).one (.give ctx.names false)
      exact .pure (by simpa [Item.mark] using hgive)
    · refine .bind (hn.statement inner) ?_
      rintro ⟨ss, scope⟩ ts hts
      refine .bind (hn.block _) fun body us hus => .pure ?_
      rw [hi] at hts
      simpa using hts hus

theorem giveStatement_succ : YieldsAt (.mark "return") (Script.giveStatement (n + 1) ctx)
    fun _ ts => ∃ us, Spells [.phrase .given ctx.names] us ∧ ts = .mark "return" :: us := by
  have hgiven (values : List Expr) {us : List Token}
      (hus : Spells [.phrase .values ctx.names] us) :
      Yields (Parser.accept ";" >>= fun _ => pure (Statement.give values)) fun _ ts =>
        ∃ vs, Spells [.phrase .given ctx.names] vs ∧
          .mark "return" :: (us ++ ts) = .mark "return" :: vs := by
    refine .accept (.pure ⟨_, (hus.before [.mark ";"]).one (.closed _), rfl⟩) (.pure ⟨us, ?_, ?_⟩)
    · exact hus.one (.given _)
    · rw [List.append_nil]
  unfold Script.giveStatement
  refine .advance rfl (.peek peeks_atBlockEnd fun closed => ?_)
  refine .peek (peeks_isMark ";") fun semicolon => .ite (fun _ => ?_) fun _ => ?_
  · exact hgiven [] (Spells.nil.one (.noValues _))
  · refine .bind (hn.expressions ctx) fun es us hus => .peek peeks_lastLine fun last => ?_
    exact hgiven _ (hus.one (.someValues _))

theorem untilBlock_succ (line : Nat) : Yields (Script.untilBlock (n + 1) ctx line) fun _ ts =>
    Spells [.phrase (.block true) ctx.names] ts := by
  have htested {ts : List Token} (hts : Spells [.phrase .expression ctx.names] ts) :
      Spells [.phrase (.ending true) ctx.names] (.mark "until" :: ts) :=
    (Spells.items [.mark "until"] hts).one (.tested _)
  unfold Script.untilBlock
  refine .peek peeks_atBlockEnd fun closed => .ite (fun _ => .close ?_) fun _ => ?_
  · refine .bind (hn.expression ctx 0) fun test ts hts => .peek peeks_lastLine fun last => .pure ?_
    simpa using (htested hts).one (.blockEnd _ true)
  · refine .isMark (YieldsAt.enter fun inner hi => ?_) (.enter fun inner hi => ?_)
    · refine .bind (hn.giveStatement inner) ?_
      rintro give _ ⟨us, hus, rfl⟩
      rw [hi] at hus
      refine .close (.bind (hn.expression ctx 0) fun test ts hts => .pure ?_)
      have hgive := (Spells.items [.mark "return"] (hus.append (htested hts))).one
        (.give ctx.names true)
      simpa [Item.mark] using hgive
    · refine .bind (hn.statement inner) ?_
      rintro ⟨ss, scope⟩ ts hts
      refine .bind (hn.untilBlock _ line) fun body us hus => .pure ?_
      rw [hi] at hts
      simpa using hts hus

theorem ifStatement_succ (line : Nat) {t : Token} (ht : t.isRead) :
    YieldsAt t (Script.ifStatement (n + 1) ctx line) fun _ ts => ∃ us,
      Spells [.phrase .expression ctx.names, .items [.mark "then"],
        .phrase (.block false) ctx.names, .phrase .branch ctx.names] us ∧ ts = t :: us := by
  unfold Script.ifStatement
  refine .advance ht (.bind (hn.expression ctx 0) fun test ts hts => .expect ?_)
  refine .peek peeks_lastLine fun last => .bind (hn.block ctx) fun yes us hus => ?_
  have hbranch {vs : List Token} (hvs : Spells [.phrase .branch ctx.names] vs) :
      ∃ ws, Spells [.phrase .expression ctx.names, .items [.mark "then"],
        .phrase (.block false) ctx.names, .phrase .branch ctx.names] ws ∧
          t :: (ts ++ .mark "then" :: (us ++ vs)) = t :: ws :=
    ⟨_, hts.append (.items [.mark "then"] (hus.append hvs)), rfl⟩
  refine .isMark ?_ (.accept ?_ ?_)
  · refine .bind (hn.ifStatement ctx line _ rfl) ?_
    rintro s _ ⟨vs, hvs, rfl⟩
    refine .pure (hbranch ?_)
    simpa [Item.mark] using (Spells.items [.mark "elseif"] hvs).one (.nextBranch _)
  · refine .bind (hn.block ctx) fun no vs hvs => .close (.pure (hbranch ?_))
    exact (Spells.items [.mark "else"] (hvs.before [.mark "end"])).one (.lastBranch _)
  · exact .close (.pure (hbranch ((Spells.items [.mark "end"] .nil).one (.noBranch _))))

theorem bound_succ : Yields (Script.bound (n + 1) ctx) fun _ ts =>
    Spells [.phrase .expression ctx.names] ts := by
  unfold Script.bound
  refine .bind (hn.expression ctx 0) fun e ts hts => .peek peeks_lastLine fun last => .pure ?_
  rwa [List.append_nil]

theorem forStatement_succ (line : Nat) :
    YieldsAt (.mark "for") (Script.forStatement (n + 1) ctx line) fun _ ts =>
      Spells [.phrase .statement ctx.names] ts := by
  have heach (m : String) : Yields (do
        let names := m :: (← moreNames n)
        Parser.expect "in"
        let called ← Parser.currentLine
        let values ← Script.expressions n ctx
        let values := settleLast (← Parser.lastLine) values
        Parser.expect "do"
        let body ← Script.block n { ctx.declare names with inLoop := true }
        Parser.close "end" "for" line
        return (.eachLoop called names.length values body : Statement)) fun _ ts =>
      Spells [.phrase .statement ctx.names] (.mark "for" :: .name m :: ts) := by
    refine .bind (moreNames_yields n) ?_
    rintro more _ rfl
    refine .expect (.peek peeks_currentLine fun called => ?_)
    refine .bind (hn.expressions ctx) fun values ts hts => .peek peeks_lastLine fun last => ?_
    refine .expect (.bind (hn.block _) fun body us hus => .close (.pure ?_))
    have hscope : Context.names { ctx.declare (m :: more) with inLoop := true } =
        (m :: more).reverse ++ ctx.names := ctx.names_declare _
    rw [hscope] at hus
    have hloop := (Spells.items _ (hts.append (.items [.mark "do"] (hus.before [.mark "end"])))).one
      (.eachLoop ctx.names (List.cons_ne_nil m more))
    have hnames := tokens_loopNames m more
    simpa [Item.mark, hnames] using hloop
  have hcount (m : String) (start stop step : Expr) {ts us vs : List Token}
      (hts : Spells [.phrase .expression ctx.names] ts)
      (hus : Spells [.phrase .expression ctx.names] us)
      (hvs : Spells [.phrase .step ctx.names] vs) : Yields (do
        Parser.expect "do"
        let prepared ← Parser.lastLine
        let body ← Script.block n { ctx.declare [m] with inLoop := true }
        Parser.close "end" "for" line
        return (.countLoop prepared start stop step body : Statement)) fun _ ws =>
      Spells [.phrase .statement ctx.names] (.mark "for" :: .name m :: .mark "=" ::
        (ts ++ .mark "," :: (us ++ (vs ++ ws)))) := by
    refine .expect (.peek peeks_lastLine fun prepared => ?_)
    refine .bind (hn.block _) fun body ws hws => .close (.pure ?_)
    have hscope : Context.names { ctx.declare [m] with inLoop := true } = m :: ctx.names :=
      ctx.names_declare _
    rw [hscope] at hws
    have hbody := hvs.append (.items [.mark "do"] (hws.before [.mark "end"]))
    exact (Spells.items _ (hts.append (.items [.mark ","] (hus.append hbody)))).one
      (.countLoop ctx.names m)
  unfold Script.forStatement
  refine .advance rfl (.name fun m => .current fun t l => ?_)
  dsimp only
  split
  · refine .advance rfl (.bind (hn.bound ctx) fun start ts hts => .expect ?_)
    refine .bind (hn.bound ctx) fun stop us hus => .accept ?_ ?_
    · refine .bind (hn.bound ctx) fun step vs hvs => ?_
      exact hcount m start stop step hts hus ((Spells.items [.mark ","] hvs).one (.step _))
    · exact hcount m start stop _ hts hus (Spells.nil.one (.noStep _))
  · exact (heach m).atFirst
  · exact (heach m).atFirst
  · exact Yields.atFirst (.never (fault_ne _))

theorem localStatement_succ : Yields (Script.localStatement (n + 1) ctx) fun x ts => ∀ {b us},
    Spells [.phrase (.block b) (x.2.map (·.name))] us →
      Spells [.phrase (.block b) ctx.names] (.mark "local" :: (ts ++ us)) := by
  unfold Script.localStatement
  refine .bind (attributedNames_yields n) ?_
  rintro xs _ ⟨names, hne, hnames, rfl⟩
  have hscope : ((xs.map fun x => (⟨x.1, ctx.depth, x.2⟩ : Binding)).reverse ++ ctx.scope).map
      (·.name) = (names.map Prod.fst).reverse ++ ctx.names := by
    rw [hnames]
    simp [Context.names, Function.comp_def]
  refine .accept ?_ (.pure fun {b us} hus => ?_)
  · refine .bind (hn.expressions ctx) fun es ts hts => .peek peeks_lastLine fun last => ?_
    refine .pure fun {b us} hus => ?_
    rw [hscope] at hus
    simpa [Item.mark] using (Spells.items _ (hts.append hus)).one (.locals ctx.names b hne)
  · rw [hscope] at hus
    simpa [Item.mark] using (Spells.items _ hus).one (.bareLocals ctx.names b hne)

theorem expressionStatement_succ : Yields (Script.expressionStatement (n + 1) ctx) fun _ ts =>
    Spells [.phrase .statement ctx.names] ts := by
  unfold Script.expressionStatement
  refine .bind (hn.suffixed ctx) fun e ts hts => .peek (peeks_isMark "=") fun equals => ?_
  refine .peek (peeks_isMark ",") fun comma => .ite (fun _ => ?_) fun _ => .ite (fun he => ?_) fun _ => ?_
  · refine .bind (hn.assignment ctx e) ?_
    rintro ⟨targets, values⟩ us hus
    refine .peek peeks_lastLine fun last => .pure ?_
    simpa using (hus hts).one (.assign ctx.names)
  · refine .pure ?_
    simpa using (hts.call he).one (.run ctx.names)
  · exact .never (fault_ne _)

theorem assignment_succ (e : Expr) : Yields (Script.assignment (n + 1) ctx e) fun _ ts => ∀ {us},
    Suffixed ctx.names e us → Spells [.phrase .assignment ctx.names] (us ++ ts) := by
  unfold Script.assignment
  refine .ite (fun _ => .never (fault_bind_ne _ _)) fun he => ?_
  have htarget : e.isTarget := by simpa using he
  split
  · exact .never (misuse_ne _)
  · refine .accept ?_ ?_
    · refine .bind (hn.suffixed ctx) fun next ts hts => .enter fun inner hi => ?_
      refine .bind (hn.assignment inner next) ?_
      rintro ⟨targets, values⟩ us hus
      refine .pure fun {vs} hvs => ?_
      rw [hi] at hus
      simpa using hvs.target htarget (List.mem_cons_of_mem _ (List.mem_cons_self ..)) (hus hts)
    · refine .expect (.bind (hn.expressions ctx) fun es ts hts => ?_)
      refine .peek peeks_lastLine fun last => .pure fun {vs} hvs => ?_
      simpa using hvs.target htarget (List.mem_cons_self ..) hts

theorem statement_succ : Yields (Script.statement (n + 1) ctx) fun x ts => ∀ {b us},
    Spells [.phrase (.block b) (x.2.map (·.name))] us →
      Spells [.phrase (.block b) ctx.names] (ts ++ us) := by
  unfold Script.statement
  refine .current fun t l => ?_
  dsimp only
  split
  · refine .advance rfl (.pure fun hus => ?_)
    exact ((Spells.items [.mark ";"] .nil).one (.empty _)).next hus
  · refine .bind (hn.ifStatement ctx l _ rfl) ?_
    rintro s _ ⟨ts, hts, rfl⟩
    refine .pure fun hus => ?_
    simpa [Item.mark] using ((Spells.items [.mark "if"] hts).one (.condition _)).next hus
  · refine .advance rfl (.bind (hn.expression ctx 0) fun test ts hts => ?_)
    refine .peek peeks_lastLine fun last => .expect (.bind (hn.block _) fun body us hus => ?_)
    refine .close (.pure fun hvs => ?_)
    have hloop := hts.append (.items [.mark "do"] (hus.before [.mark "end"]))
    simpa [Item.mark] using ((Spells.items [.mark "while"] hloop).one (.whileLoop _)).next hvs
  · refine .advance rfl (.bind (hn.block ctx) fun body ts hts => .close (.pure fun hus => ?_))
    have hinner := (Spells.items [.mark "do"] (hts.before [.mark "end"])).one (.inner ctx.names)
    simpa [Item.mark] using hinner.next hus
  · refine .bind (hn.forStatement ctx l) fun s ts hts => .pure fun hus => ?_
    simpa using hts.next hus
  · refine .advance rfl (.bind (hn.untilBlock _ l) fun body ts hts => .pure fun hus => ?_)
    have hloop := (Spells.items [.mark "repeat"] hts).one (.repeatLoop ctx.names)
    simpa [Item.mark] using hloop.next hus
  · refine .bind (hn.functionStatement ctx l) fun s ts hts => .pure fun hus => ?_
    simpa using hts.next hus
  · refine .advance rfl (.accept (.name fun m => ?_) ?_)
    · refine .peek peeks_lastLine fun last => .bind (hn.functionBody _ false last) ?_
      rintro f _ ⟨names, varargs, us, hus, rfl⟩
      refine .pure fun {b vs} hvs => ?_
      rw [Context.names_declare] at hus
      have hscope : (ctx.declare [m]).scope.map (·.name) = m :: ctx.names := ctx.names_declare [m]
      rw [hscope] at hvs
      have hfunction := (Spells.items _ (hus.append (.items [.mark "end"] hvs))).one
        (.localFunction ctx.names b m names varargs)
      simpa [Item.mark, Item.declared] using hfunction
    · exact (hn.localStatement ctx).imp fun x ts hts => hts
  · refine .advance rfl (.ite (fun _ => .pure fun hus => ?_) fun _ => .never (misuse_ne _))
    exact ((Spells.items [.mark "break"] .nil).one (.leave _)).next hus
  · refine Yields.atFirst (.bind (hn.expressionStatement ctx) fun s ts hts => .pure fun hus => ?_)
    simpa using hts.next hus

end Derives

/-- Every part of the grammar, however much fuel there is. -/
theorem derives (n : Nat) : Derives n := by
  induction n with
  | zero =>
    constructor
    all_goals
      intros
      first | refine .never fun r x => ?_ | refine Yields.atFirst (.never fun r x => ?_)
      simp only [expression, operators, operand, suffixed, suffixes, bracketed, arguments,
        expressions, tableConstructor, fields, field, keyedField, functionBody, block,
        giveStatement, statement, untilBlock, ifStatement, forStatement, bound,
        functionStatement, functionName, localStatement, expressionStatement, assignment]
      exact exhausted_ne r x
  | succ n hn =>
    exact
      { expression := hn.expression_succ
        operators := hn.operators_succ
        operand := hn.operand_succ
        suffixed := hn.suffixed_succ
        suffixes := hn.suffixes_succ
        bracketed := hn.bracketed_succ
        arguments := hn.arguments_succ
        expressions := hn.expressions_succ
        tableConstructor := hn.tableConstructor_succ
        fields := hn.fields_succ
        field := hn.field_succ
        keyedField := hn.keyedField_succ
        functionBody := hn.functionBody_succ
        block := hn.block_succ
        giveStatement := hn.giveStatement_succ
        statement := hn.statement_succ
        untilBlock := hn.untilBlock_succ
        ifStatement := fun ctx line _ => hn.ifStatement_succ ctx line
        forStatement := hn.forStatement_succ
        bound := hn.bound_succ
        functionStatement := hn.functionStatement_succ
        functionName := hn.functionName_succ
        localStatement := hn.localStatement_succ
        expressionStatement := hn.expressionStatement_succ
        assignment := hn.assignment_succ }

end EnvManifest.Script
