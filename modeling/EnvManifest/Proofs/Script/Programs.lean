import EnvManifest.Proofs.Script.Accepted
import EnvManifest.Proofs.Script.Operands

/-!
# Programs that give back one operand

What the parser makes of a program that gives back a name, or an operand that may stand in the place
of a name. It reads all of these: the fuel and the depth that it starts with are enough.
-/

namespace EnvManifest.Script

open Text

variable {n : Nat} {ctx : Context} {ts : List Lexeme}

/-! ## Steps of the parser -/

theorem bind_run {α β : Type} {p : Parser α} {k : α → Parser β} {r s : Reader} {a : α}
    (h : p r = .ok (a, s)) : (p >>= k) r = k a s := by
  simp only [Bind.bind, StateT.bind, Except.bind, h]

theorem advance_run (t : Token) (l last : Nat) :
    Parser.advance ⟨⟨t, l⟩ :: ts, last⟩ = .ok ((), ⟨ts, l⟩) := rfl

theorem lastLine_run (r : Reader) : Parser.lastLine r = .ok (r.lastLine, r) := rfl

/-- The context one level deeper, where that is allowed. -/
def Context.inner (ctx : Context) : Context := { ctx with level := ctx.level + 1 }

theorem enter_run (h : ctx.level + 1 < maxLevel) (r : Reader) :
    ctx.enter r = .ok (ctx.inner, r) := by
  unfold Context.enter
  rw [if_pos h]
  rfl

theorem operators_run {limit : Nat} {e : Expr} {r : Reader}
    (hr : ∀ y, infix? r.first = some y → y.2.1 ≤ limit) :
    operators (n + 1) ctx limit e r = .ok (e, r) := by
  unfold operators
  rw [bind_run (current_run r)]
  unfold Reader.first at hr
  generalize r.tokens.headD ⟨.eof, 0⟩ = first at hr ⊢
  obtain ⟨t, l⟩ := first
  dsimp only at hr ⊢
  cases hi : infix? t with
  | none => rfl
  | some y =>
    dsimp only
    rw [if_pos (hr y hi)]
    rfl

theorem suffixes_run {e : Expr} {r : Reader} (hr : r.first.extends = false) :
    suffixes (n + 1) ctx e r = .ok (e, r) := by
  unfold suffixes
  rw [bind_run (current_run r)]
  unfold Reader.first at hr
  generalize r.tokens.headD ⟨.eof, 0⟩ = first at hr ⊢
  obtain ⟨t, l⟩ := first
  dsimp only at hr ⊢
  split
  case h_7 => rfl
  all_goals exact absurd hr (by simp [Token.extends])

/-- An expression that starts with an operand goes on with the operators after it. -/
theorem expression_run (hc : ctx.level + 1 < maxLevel) {t : Token} {l last limit : Nat} {r : Reader}
    {e : Expr} (hu : unary? t = none)
    (ho : operand n ctx.inner ⟨⟨t, l⟩ :: ts, last⟩ = .ok (e, r)) :
    expression (n + 1) ctx limit ⟨⟨t, l⟩ :: ts, last⟩ = operators n ctx.inner limit e r := by
  unfold expression
  rw [bind_run (enter_run hc _), bind_run (current_run _), List.headD_cons]
  dsimp only
  rw [hu]
  exact bind_run ho

/-! ## Operands -/

theorem Atom.operand_run {t : Token} {e : Expr} (he : Atom t e) (l last : Nat) :
    Script.operand (n + 1) ctx ⟨⟨t, l⟩ :: ts, last⟩ = .ok (e, ⟨ts, l⟩) := by
  unfold Script.operand
  cases he <;> rfl

theorem Atom.begin_run {t : Token} {e : Expr} (he : Atom t e) (hc : ctx.level + 1 < maxLevel)
    (l last limit : Nat) :
    Script.expression (n + 2) ctx limit ⟨⟨t, l⟩ :: ts, last⟩ =
      operators (n + 1) ctx.inner limit e ⟨ts, l⟩ :=
  expression_run hc (unary?_of_operand (.inr ⟨e, he⟩)) (he.operand_run l last)

/-- A number with a sign before it. -/
theorem minus_run {t : Token} {e : Expr} (he : Atom t e) (hc : ctx.level + 2 < maxLevel)
    {l' last limit : Nat} (l : Nat)
    (hs : ∀ y, infix? (Reader.first ⟨ts, l'⟩) = some y → y.2.1 ≤ unaryPower) :
    expression (n + 3) ctx limit ⟨⟨.mark "-", l⟩ :: ⟨t, l'⟩ :: ts, last⟩ =
      operators (n + 2) ctx.inner limit (.unary l .neg e) ⟨ts, l'⟩ := by
  have hi : ctx.inner.level + 1 < maxLevel := hc
  have hoperand : expression (n + 2) ctx.inner unaryPower ⟨⟨t, l'⟩ :: ts, l⟩ = .ok (e, ⟨ts, l'⟩) := by
    rw [he.begin_run hi]
    exact operators_run hs
  unfold expression
  rw [bind_run (enter_run (Nat.lt_of_succ_lt hc) _), bind_run (current_run _), List.headD_cons]
  have hneg : unary? (.mark "-") = some .neg := rfl
  dsimp only
  rw [hneg]
  dsimp only
  rw [bind_run (advance_run _ _ _), bind_run hoperand, bind_run (lastLine_run _), he.settle]

/-- An operator with an operand on its right. -/
theorem binary_run {e f : Expr} {t : Token} {op : Binary} {left right : Nat}
    (ht : infix? t = some (.plain op, left, right)) (horder : op.isOrder = false)
    {us : List Lexeme} {l l' last limit : Nat} (hlimit : limit < left)
    (hright : expression n ctx right ⟨us, l⟩ = .ok (f, ⟨ts, l'⟩)) :
    operators (n + 1) ctx limit e ⟨⟨t, l⟩ :: us, last⟩ =
      operators n ctx limit (.binary l op (e.settle l) (f.settle l')) ⟨ts, l'⟩ := by
  rw [operators, bind_run (current_run _), List.headD_cons]
  dsimp only
  rw [ht]
  dsimp only
  rw [if_neg (by omega), bind_run (advance_run _ _ _), bind_run hright, bind_run (lastLine_run _),
    combine, horder]
  rfl

/-- A quotient with a number on its right. -/
theorem quotient_run {e f : Expr} {u : Token} (hu : Atom u f) (hc : ctx.level + 1 < maxLevel)
    {l' last limit : Nat} (l : Nat) (hlimit : limit < 11)
    (hs : ∀ y, infix? (Reader.first ⟨ts, l'⟩) = some y → y.2.1 ≤ 11) :
    operators (n + 3) ctx limit e ⟨⟨.mark "/", l⟩ :: ⟨u, l'⟩ :: ts, last⟩ =
      operators (n + 2) ctx limit (.binary l (.arith .div) (e.settle l) f) ⟨ts, l'⟩ := by
  have hright : expression (n + 2) ctx 11 ⟨⟨u, l'⟩ :: ts, l⟩ = .ok (f, ⟨ts, l'⟩) := by
    rw [hu.begin_run hc]
    exact operators_run hs
  rw [binary_run rfl rfl hlimit hright, hu.settle]

/-- An operand that starts with a name is what stands behind the name's meaning. -/
theorem operand_name (root : String) (l last : Nat) :
    operand (n + 2) ctx ⟨⟨.name root, l⟩ :: ts, last⟩ =
      suffixes n ctx (ctx.resolve root) ⟨ts, l⟩ := by
  unfold operand
  rw [bind_run (current_run _), List.headD_cons]
  dsimp only
  unfold suffixed
  rw [bind_run (current_run _), List.headD_cons]
  dsimp only
  rw [bind_run (advance_run _ _ _)]

theorem operand_paren (us : List Lexeme) (l last : Nat) :
    operand (n + 1) ctx ⟨⟨.mark "(", l⟩ :: us, last⟩ =
      suffixed n ctx ⟨⟨.mark "(", l⟩ :: us, last⟩ := by
  unfold operand
  rfl

theorem suffixed_paren (us : List Lexeme) (l last : Nat) :
    suffixed (n + 1) ctx ⟨⟨.mark "(", l⟩ :: us, last⟩ = (do
      let e ← expression n ctx 0
      Parser.close ")" "(" l
      suffixes n ctx (.single (e.settle (← Parser.lastLine))) : Parser Expr) ⟨us, l⟩ := by
  unfold suffixed
  rfl

theorem suffixes_point (e : Expr) (us : List Lexeme) (l last : Nat) :
    suffixes (n + 1) ctx e ⟨⟨.mark ".", l⟩ :: us, last⟩ = (do
      let field ← Parser.name
      suffixes n ctx (.index 0 (e.settle last) (.str (encode field.toList))) : Parser Expr)
        ⟨us, l⟩ := by
  rw [suffixes]
  rfl

/-- A field of a name. -/
theorem field_run (hc : ctx.level + 1 < maxLevel) (root field : String) {l l' l'' last limit : Nat}
    (hs : (Reader.first ⟨ts, l''⟩).extends = false ∧ infix? (Reader.first ⟨ts, l''⟩) = none) :
    expression (n + 5) ctx limit ⟨⟨.name root, l⟩ :: ⟨.mark ".", l'⟩ :: ⟨.name field, l''⟩ :: ts,
        last⟩ =
      .ok (.index 0 ((ctx.resolve root).settle l) (.str (encode field.toList)), ⟨ts, l''⟩) := by
  have hname : Parser.name ⟨⟨.name field, l''⟩ :: ts, l'⟩ = .ok (field, ⟨ts, l''⟩) := rfl
  have hoperand : operand (n + 4) ctx.inner
      ⟨⟨.name root, l⟩ :: ⟨.mark ".", l'⟩ :: ⟨.name field, l''⟩ :: ts, last⟩ =
      .ok (.index 0 ((ctx.inner.resolve root).settle l) (.str (encode field.toList)),
        ⟨ts, l''⟩) := by
    rw [operand_name, suffixes_point, bind_run hname]
    exact suffixes_run hs.1
  rw [expression_run hc rfl hoperand]
  refine operators_run fun y hy => ?_
  rw [hs.2] at hy
  cases hy

/-- An expression in parentheses is an operand. -/
theorem single_run (hc : ctx.level + 1 < maxLevel) {us : List Lexeme} {e : Expr}
    {l l' k last limit : Nat} (hk : (Reader.first ⟨ts, k⟩).extends = false)
    (he : expression (n + 1) ctx.inner 0 ⟨us, l⟩ = .ok (e, ⟨⟨.mark ")", k⟩ :: ts, l'⟩)) :
    expression (n + 4) ctx limit ⟨⟨.mark "(", l⟩ :: us, last⟩ =
      operators (n + 3) ctx.inner limit (.single (e.settle k)) ⟨ts, k⟩ := by
  have hclose : Parser.close ")" "(" l ⟨⟨.mark ")", k⟩ :: ts, l'⟩ = .ok ((), ⟨ts, k⟩) := rfl
  refine expression_run hc rfl ?_
  rw [operand_paren, suffixed_paren, bind_run he, bind_run hclose, bind_run (lastLine_run _)]
  exact suffixes_run hk

/-! ## Programs -/

/-- A program is read if its expression is, and nothing is left. The expression may use fuel for each
of its tokens. -/
theorem parseProgram_run_within {source : String} {t : Token} {l k last : Nat} {us : List Lexeme}
    {e : Expr} (hlex : lex 1 source.toList = ⟨t, l⟩ :: us) (ht : t.closesBlock = false)
    (hsemi : t.isMark ";" = false) {used : Nat} (hused : used ≤ us.length + 20)
    (he : ∀ n, expression (n + used) Context.start.inner 0 ⟨⟨t, l⟩ :: us, 1⟩ =
      .ok (e, ⟨[⟨.eof, k⟩], last⟩)) :
    parseProgram (Engine.programText source) = .ok ⟨0, true, [.give [e.settle last]]⟩ := by
  have hstart : Context.start.level + 1 < maxLevel := by decide
  have hexpressions : ∀ n, expressions (n + used + 1) Context.start.inner ⟨⟨t, l⟩ :: us, 1⟩ =
      .ok ([e], ⟨[⟨.eof, k⟩], last⟩) := by
    intro n
    unfold expressions
    have hcomma : Parser.accept "," ⟨[⟨.eof, k⟩], last⟩ = .ok (false, ⟨[⟨.eof, k⟩], last⟩) := rfl
    rw [bind_run (he n), bind_run hcomma]
    rfl
  have hgive : ∀ n, giveStatement (n + used + 2) Context.start.inner
      ⟨⟨.mark "return", 1⟩ :: ⟨t, l⟩ :: us, 1⟩ =
      .ok (.give [e.settle last], ⟨[⟨.eof, k⟩], last⟩) := by
    intro n
    unfold giveStatement
    have hend : Parser.atBlockEnd ⟨⟨t, l⟩ :: us, 1⟩ = .ok (false, ⟨⟨t, l⟩ :: us, 1⟩) := by
      rw [atBlockEnd_run]
      exact congrArg (fun b => Except.ok (b, _)) ht
    have hmark : Parser.isMark ";" ⟨⟨t, l⟩ :: us, 1⟩ = .ok (false, ⟨⟨t, l⟩ :: us, 1⟩) := by
      rw [isMark_run]
      exact congrArg (fun b => Except.ok (b, _)) hsemi
    have hlast : Parser.accept ";" ⟨[⟨.eof, k⟩], last⟩ = .ok (false, ⟨[⟨.eof, k⟩], last⟩) := rfl
    rw [bind_run (advance_run _ _ _), bind_run hend, bind_run hmark, Bool.or_false,
      if_neg (by decide), bind_run (hexpressions n), bind_run (lastLine_run _)]
    exact (bind_run rfl).trans (bind_run hlast)
  have hblock : ∀ n, block (n + used + 3) Context.start ⟨⟨.mark "return", 1⟩ :: ⟨t, l⟩ :: us, 1⟩ =
      .ok ([.give [e.settle last]], ⟨[⟨.eof, k⟩], last⟩) := by
    intro n
    have hend : Parser.atBlockEnd ⟨⟨.mark "return", 1⟩ :: ⟨t, l⟩ :: us, 1⟩ =
        .ok (false, ⟨⟨.mark "return", 1⟩ :: ⟨t, l⟩ :: us, 1⟩) := rfl
    have hreturn : Parser.isMark "return" ⟨⟨.mark "return", 1⟩ :: ⟨t, l⟩ :: us, 1⟩ =
        .ok (true, ⟨⟨.mark "return", 1⟩ :: ⟨t, l⟩ :: us, 1⟩) := rfl
    unfold block
    rw [bind_run hend, if_neg (by decide), bind_run hreturn, if_pos rfl,
      bind_run (enter_run hstart _), bind_run (hgive n)]
    rfl
  have hfuel : used + 3 ≤ fuelFor (lex 1 (Engine.programText source)) := by
    rw [lex_programText, hlex]
    simp only [fuelFor, maxLevel, List.length_cons]
    omega
  obtain ⟨n, hn⟩ := Nat.exists_eq_add_of_le' hfuel
  rw [← Nat.add_assoc] at hn
  unfold parseProgram
  dsimp only
  rw [hn, lex_programText, hlex]
  rw [StateT.run, bind_run (hblock n)]
  rfl

/-- Most expressions need no more fuel than this, however long they are. -/
theorem parseProgram_run {source : String} {t : Token} {l k last : Nat} {us : List Lexeme} {e : Expr}
    (hlex : lex 1 source.toList = ⟨t, l⟩ :: us) (ht : t.closesBlock = false)
    (hsemi : t.isMark ";" = false)
    (he : ∀ n, expression (n + 20) Context.start.inner 0 ⟨⟨t, l⟩ :: us, 1⟩ =
      .ok (e, ⟨[⟨.eof, k⟩], last⟩)) :
    parseProgram (Engine.programText source) = .ok ⟨0, true, [.give [e.settle last]]⟩ :=
  parseProgram_run_within hlex ht hsemi (Nat.le_add_left ..) he

/-! ## Texts of operands -/

variable {source : String} {t u : Token} {e f : Expr}

theorem Atom.starts (h : Atom t e) : t.closesBlock = Bool.false ∧ t.isMark ";" = Bool.false := by
  cases h <;> exact ⟨rfl, rfl⟩

theorem end_stops (k l limit : Nat) (y : Infix × Nat × Nat)
    (h : infix? (Reader.first ⟨[⟨.eof, k⟩], l⟩) = some y) : y.2.1 ≤ limit := by
  cases h

/-- The text of a number or the like is a program. -/
theorem parse_atom (h : Lexes [] source.toList [t]) (he : Atom t e) :
    parseProgram (Engine.programText source) = .ok ⟨0, true, [.give [e]]⟩ := by
  obtain ⟨l, us, hlex, hus⟩ := tokens_cons (h.lex 1)
  obtain ⟨k, vs, rfl, hvs⟩ := tokens_cons hus
  obtain rfl := List.map_eq_nil_iff.1 hvs
  have hexpression : ∀ n, expression (n + 20) Context.start.inner 0 ⟨[⟨t, l⟩, ⟨.eof, k⟩], 1⟩ =
      .ok (e, ⟨[⟨.eof, k⟩], l⟩) := by
    intro n
    rw [he.begin_run (by decide)]
    exact operators_run (end_stops k l 0)
  have hrun := parseProgram_run hlex he.starts.1 he.starts.2 hexpression
  rwa [he.settle] at hrun

/-- So is that of a number with a sign. -/
theorem parse_minus (h : Lexes [] source.toList [.mark "-", t]) (he : Atom t e) :
    ∃ l, parseProgram (Engine.programText source) =
      .ok ⟨0, true, [.give [.unary l .neg e]]⟩ := by
  obtain ⟨l, us, hlex, hus⟩ := tokens_cons (h.lex 1)
  obtain ⟨l', vs, rfl, hvs⟩ := tokens_cons hus
  obtain ⟨k, ws, rfl, hws⟩ := tokens_cons hvs
  obtain rfl := List.map_eq_nil_iff.1 hws
  have hexpression : ∀ n, expression (n + 20) Context.start.inner 0
      ⟨[⟨.mark "-", l⟩, ⟨t, l'⟩, ⟨.eof, k⟩], 1⟩ = .ok (.unary l .neg e, ⟨[⟨.eof, k⟩], l'⟩) := by
    intro n
    rw [minus_run he (by decide) l (end_stops k l' unaryPower)]
    exact operators_run (end_stops k l' 0)
  exact ⟨l, parseProgram_run hlex rfl rfl hexpression⟩

/-- The variable that holds the table of globals of a program. -/
def environmentVariable : Variable := ⟨environmentName, 0, false⟩

/-- A global by its name. -/
def Expr.global (l : Nat) (name : String) : Expr :=
  .index l (.var environmentVariable) (.str (encode name.toList))

theorem resolve_start {name : String} (h : name ≠ environmentName) :
    Context.start.inner.resolve name = .global 0 name := by
  have hn : findBinding name [⟨environmentName, 0, false⟩] = none := by
    rw [findBinding, if_neg (Ne.symm h)]
    rfl
  unfold Context.resolve
  dsimp only [Context.start, Context.inner]
  rw [hn]
  rfl

/-- Fields behind a global. -/
inductive FromGlobal (root : String) : List String → Expr → Prop
  | global (l : Nat) : FromGlobal root [] (.global l root)
  | field (l : Nat) {names : List String} {e : Expr} (h : FromGlobal root names e) (name : String) :
    FromGlobal root (names ++ [name]) (.index l e (.str (encode name.toList)))

theorem FromGlobal.settle {root : String} {names : List String} (h : FromGlobal root names e)
    (l : Nat) : FromGlobal root names (e.settle l) := by
  cases h with
  | global l' =>
    cases l' with
    | zero => exact .global l
    | succ l' => exact .global (l' + 1)
  | field l' h name =>
    cases l' with
    | zero => exact .field l h name
    | succ l' => exact .field (l' + 1) h name

/-- The fields behind a path are read one by one, each for a unit of fuel. -/
theorem suffixes_fields (ctx : Context) {root : String} {fields names : List String}
    (h : FromGlobal root names e) {us ts : List Lexeme}
    (hus : us.map (·.token) = fields.flatMap fun name => [.mark ".", .name name])
    (hts : ∀ l, (Reader.first ⟨ts, l⟩).extends = false) (last : Nat) :
    ∃ f l, FromGlobal root (names ++ fields) f ∧
      ∀ n, suffixes (n + fields.length + 1) ctx e ⟨us ++ ts, last⟩ = .ok (f, ⟨ts, l⟩) := by
  induction fields generalizing names e us last with
  | nil =>
    obtain rfl := List.map_eq_nil_iff.1 hus
    refine ⟨e, last, by simpa using h, fun n => ?_⟩
    exact suffixes_run (hts last)
  | cons field fields ih =>
    obtain ⟨l₁, vs, rfl, hvs⟩ := tokens_cons hus
    obtain ⟨l₂, ws, rfl, hws⟩ := tokens_cons hvs
    obtain ⟨f, l, hf, hrun⟩ := ih (.field 0 (h.settle last) field) hws l₂
    refine ⟨f, l, by simpa using hf, fun n => ?_⟩
    have hname : Parser.name ⟨⟨.name field, l₂⟩ :: (ws ++ ts), l₁⟩ =
        .ok (field, ⟨ws ++ ts, l₂⟩) := rfl
    rw [List.cons_append, List.cons_append, suffixes_point, bind_run hname]
    exact hrun n

/-- The text of a path is the program that gives back what the path leads to. -/
theorem parse_fields {root : String} {fields : List String}
    (h : Lexes [] source.toList (pathTokens root fields)) (hroot : root ≠ environmentName) :
    ∃ e, FromGlobal root fields e ∧
      parseProgram (Engine.programText source) = .ok ⟨0, true, [.give [e]]⟩ := by
  obtain ⟨l, us, hlex, hus⟩ := tokens_cons (h.lex 1)
  obtain ⟨vs, ends, rfl, hvs, hends⟩ := List.map_eq_append_iff.1 hus
  obtain ⟨k, ws, rfl, hws⟩ := tokens_cons hends
  obtain rfl := List.map_eq_nil_iff.1 hws
  have hend (l : Nat) : (Reader.first ⟨[⟨.eof, k⟩], l⟩).extends = false := rfl
  obtain ⟨e, last, he, hrun⟩ :=
    suffixes_fields Context.start.inner.inner (.global 0) hvs hend l
  have hoperand (n : Nat) : operand (n + fields.length + 3) Context.start.inner.inner
      ⟨⟨.name root, l⟩ :: (vs ++ [⟨.eof, k⟩]), 1⟩ = .ok (e, ⟨[⟨.eof, k⟩], last⟩) := by
    have hresolve : Context.start.inner.inner.resolve root = .global 0 root := resolve_start hroot
    rw [operand_name, hresolve]
    exact hrun n
  have hexpression (n : Nat) : expression (n + (fields.length + 4)) Context.start.inner 0
      ⟨⟨.name root, l⟩ :: (vs ++ [⟨.eof, k⟩]), 1⟩ = .ok (e, ⟨[⟨.eof, k⟩], last⟩) := by
    rw [← Nat.add_assoc, expression_run (by decide) rfl (hoperand n)]
    exact operators_run (end_stops k last 0)
  have hlength : fields.length ≤ vs.length := by
    have hcount := congrArg List.length hvs
    simp only [List.length_map, List.length_flatMap, List.length_cons, List.length_nil,
      List.map_const', List.sum_replicate_nat] at hcount
    omega
  refine ⟨e.settle last, he.settle last, parseProgram_run_within hlex rfl rfl ?_ hexpression⟩
  simp only [List.length_append]
  omega

/-- A name is the program that gives back what the name resolves to. -/
theorem parse_resolved {name : String} (h : Lexes [] source.toList [.name name]) :
    ∃ l, parseProgram (Engine.programText source) =
      .ok ⟨0, true, [.give [(Context.start.inner.resolve name).settle l]]⟩ := by
  obtain ⟨l, us, hlex, hus⟩ := tokens_cons (h.lex 1)
  obtain ⟨k, vs, rfl, hvs⟩ := tokens_cons hus
  obtain rfl := List.map_eq_nil_iff.1 hvs
  have hoperand (n : Nat) : operand (n + 3) Context.start.inner.inner
      ⟨[⟨.name name, l⟩, ⟨.eof, k⟩], 1⟩ =
        .ok (Context.start.inner.resolve name, ⟨[⟨.eof, k⟩], l⟩) := by
    rw [operand_name]
    exact suffixes_run rfl
  have hexpression (n : Nat) : expression (n + 20) Context.start.inner 0
      ⟨[⟨.name name, l⟩, ⟨.eof, k⟩], 1⟩ =
        .ok (Context.start.inner.resolve name, ⟨[⟨.eof, k⟩], l⟩) := by
    rw [expression_run (by decide) rfl (hoperand (n + 16))]
    exact operators_run (end_stops k l 0)
  exact ⟨l, parseProgram_run hlex rfl rfl hexpression⟩

/-- That is the global of that name, for any name but one. -/
theorem parse_name {name : String} (h : Lexes [] source.toList [.name name])
    (hname : name ≠ environmentName) :
    ∃ l, parseProgram (Engine.programText source) =
      .ok ⟨0, true, [.give [.global l name]]⟩ := by
  obtain ⟨l, hparse⟩ := parse_resolved h
  rw [resolve_start hname] at hparse
  exact ⟨l, hparse⟩

/-- The text of an expression in parentheses is a program if the expression is read. -/
theorem parse_single {us : List Lexeme} {l k l' last : Nat}
    (h : lex 1 source.toList = ⟨.mark "(", l⟩ :: us)
    (he : ∀ n, expression (n + 17) Context.start.inner.inner 0 ⟨us, l⟩ =
      .ok (e, ⟨[⟨.mark ")", k⟩, ⟨.eof, l'⟩], last⟩)) :
    parseProgram (Engine.programText source) = .ok ⟨0, true, [.give [.single (e.settle k)]]⟩ := by
  have hexpression : ∀ n, expression (n + 20) Context.start.inner 0 ⟨⟨.mark "(", l⟩ :: us, 1⟩ =
      .ok (.single (e.settle k), ⟨[⟨.eof, l'⟩], k⟩) := by
    intro n
    rw [single_run (by decide) rfl (he n)]
    exact operators_run (end_stops l' k 0)
  exact parseProgram_run h rfl rfl hexpression

/-- A field of a name in parentheses. -/
theorem parse_path {root field : String}
    (h : Lexes [] source.toList (.mark "(" :: pathTokens root [field] ++ [.mark ")"])) :
    ∃ l l', parseProgram (Engine.programText source) =
      .ok ⟨0, true, [.give [.single (.index l ((Context.start.inner.resolve root).settle l')
        (.str (encode field.toList)))]]⟩ := by
  obtain ⟨l, us, hlex, hus⟩ := tokens_cons (h.lex 1)
  obtain ⟨l₁, vs, rfl, hvs⟩ := tokens_cons hus
  obtain ⟨l₂, ws, rfl, hws⟩ := tokens_cons hvs
  obtain ⟨l₃, xs, rfl, hxs⟩ := tokens_cons hws
  obtain ⟨k, ys, rfl, hys⟩ := tokens_cons hxs
  obtain ⟨l', zs, rfl, hzs⟩ := tokens_cons hys
  obtain rfl := List.map_eq_nil_iff.1 hzs
  have hfield : ∀ n, expression (n + 17) Context.start.inner.inner 0
      ⟨[⟨.name root, l₁⟩, ⟨.mark ".", l₂⟩, ⟨.name field, l₃⟩, ⟨.mark ")", k⟩, ⟨.eof, l'⟩], l⟩ =
        .ok (.index 0 ((Context.start.inner.resolve root).settle l₁) (.str (encode field.toList)),
          ⟨[⟨.mark ")", k⟩, ⟨.eof, l'⟩], l₃⟩) := by
    intro n
    exact field_run (by decide) root field ⟨rfl, rfl⟩
  exact ⟨k, l₁, parse_single hlex hfield⟩

/-- What may stand in parentheses is read up to the closing one. -/
theorem Enclosed.run {us : List Token} (he : Enclosed us e) (ctx : Context) (ts : List Lexeme)
    (hc : ctx.level + 2 < maxLevel)
    (henv : (findBinding environmentName ctx.scope).isSome) {vs : List Lexeme}
    (hvs : vs.map (·.token) = us) (k last : Nat) : ∃ e' l, Enclosed us e' ∧
      ∀ n, Script.expression (n + 6) ctx 0 ⟨vs ++ ⟨.mark ")", k⟩ :: ts, last⟩ =
        .ok (e', ⟨⟨.mark ")", k⟩ :: ts, l⟩) := by
  have hone : ctx.level + 1 < maxLevel := Nat.lt_of_succ_lt hc
  cases he with
  | @minus t e ht _ =>
    obtain ⟨l₁, ws, rfl, hws⟩ := tokens_cons hvs
    obtain ⟨l₂, xs, rfl, hxs⟩ := tokens_cons hws
    obtain rfl := List.map_eq_nil_iff.1 hxs
    refine ⟨.unary l₁ .neg e, l₂, .minus ht l₁, ?_⟩
    intro n
    rw [List.cons_append, List.cons_append, List.nil_append,
      minus_run ht hc l₁ (closing_stops k l₂ _ unaryPower)]
    exact operators_run (closing_stops k l₂ _ 0)
  | @quotient t u a b ht hu _ =>
    obtain ⟨l₁, ws, rfl, hws⟩ := tokens_cons hvs
    obtain ⟨l₂, xs, rfl, hxs⟩ := tokens_cons hws
    obtain ⟨l₃, ys, rfl, hys⟩ := tokens_cons hxs
    obtain rfl := List.map_eq_nil_iff.1 hys
    refine ⟨.binary l₂ (.arith .div) a b, l₃, .quotient ht hu l₂, ?_⟩
    intro n
    rw [List.cons_append, List.cons_append, List.cons_append, List.nil_append, ht.begin_run hone,
      quotient_run hu hc l₂ (by decide) (closing_stops k l₃ _ 11), ht.settle]
    exact operators_run (closing_stops k l₃ _ 0)
  | @minusQuotient t u a b ht hu _ _ =>
    obtain ⟨l₁, ws, rfl, hws⟩ := tokens_cons hvs
    obtain ⟨l₂, xs, rfl, hxs⟩ := tokens_cons hws
    obtain ⟨l₃, ys, rfl, hys⟩ := tokens_cons hxs
    obtain ⟨l₄, zs, rfl, hzs⟩ := tokens_cons hys
    obtain rfl := List.map_eq_nil_iff.1 hzs
    -- A division binds less than a minus does, and so takes the whole number with its sign.
    have hstops : ∀ y, infix? (Reader.first ⟨⟨.mark "/", l₃⟩ :: ⟨u, l₄⟩ ::
        ⟨.mark ")", k⟩ :: ts, l₂⟩) = some y → y.2.1 ≤ unaryPower := by
      intro y hy
      obtain rfl := Option.some.inj hy
      decide
    refine ⟨.binary l₃ (.arith .div) (.unary l₁ .neg a) b, l₄, .minusQuotient ht hu l₃ l₁, ?_⟩
    intro n
    rw [List.cons_append, List.cons_append, List.cons_append, List.cons_append, List.nil_append,
      minus_run ht hc l₁ hstops, quotient_run hu hc l₃ (by decide) (closing_stops k l₄ _ 11)]
    exact operators_run (closing_stops k l₄ _ 0)
  | @path root field e hr =>
    obtain ⟨l₁, ws, rfl, hws⟩ := tokens_cons hvs
    obtain ⟨l₂, xs, rfl, hxs⟩ := tokens_cons hws
    obtain ⟨l₃, ys, rfl, hys⟩ := tokens_cons hxs
    obtain rfl := List.map_eq_nil_iff.1 hys
    have hreads : Reads [root] (ctx.resolve root) := Context.reads henv root
    refine ⟨_, l₃, .path (.field 0 (hreads.settle l₁) field), ?_⟩
    intro n
    exact field_run hone root field ⟨rfl, rfl⟩

/-- What may stand in parentheses is a program there. -/
theorem Enclosed.parse {us : List Token} (he : Enclosed us e)
    (h : Lexes [] source.toList (.mark "(" :: us ++ [.mark ")"])) : ∃ e', Enclosed us e' ∧
      parseProgram (Engine.programText source) = .ok ⟨0, true, [.give [.single e']]⟩ := by
  obtain ⟨l, vs, hlex, hvs⟩ := tokens_cons (h.lex 1)
  obtain ⟨inner, ends, rfl, hinner, hends⟩ :=
    List.map_eq_append_iff.1 (hvs.trans (List.append_assoc ..))
  obtain ⟨k, ws, rfl, hws⟩ := tokens_cons hends
  obtain ⟨l', xs, rfl, hxs⟩ := tokens_cons hws
  obtain rfl := List.map_eq_nil_iff.1 hxs
  obtain ⟨e', last, he', hrun⟩ :=
    he.run Context.start.inner.inner [⟨.eof, l'⟩] (by decide) rfl hinner k l
  exact ⟨_, he'.settle k, parse_single hlex fun n => hrun (n + 11)⟩

end EnvManifest.Script
