import EnvManifest.Proofs.Patch.Declared
import EnvManifest.Proofs.Patch.Fates
import EnvManifest.Proofs.Script.Accepted
import Mathlib

/-!
# Names of a parameter and names of an expression

A rewriter has no grammar: it looks for the lists in which names are declared. Here is what it makes
of the variables of an expression, whose scopes the grammar knows.
-/

namespace EnvManifest.Patch

open Script (Item IsExpression Expands Expresses introduced Lexes lexes_of_tokens)

theorem show_of_expresses {source : String} {xs : List Item} (h : Expresses source xs)
    (hp : Plain source.toList) : Show (tokenize source.toList).1 xs :=
  List.forall₂_map_right_iff.1 (shows_tokenize h.lexes hp)

/-- A variable that is given back. -/
theorem expands_given {s : List String} {xs : List Item} (h : Expands [.phrase .suffixed s] xs) :
    Expands [.phrase .given s] xs :=
  (((h.one (.operand s)).one (.one s)).one (.someValues s)).one (.given s)

theorem expands_name (s : List String) (n : String) : Expands [.phrase .suffixed s] [.use s n] :=
  (Expands.items [.use s n] .nil).one (.name s n)

/-- A function that is called where it is written. -/
theorem expands_called {s : List String} (names : List String) {xs ys : List Item}
    (hx : Expands [.phrase (.block false) (names.reverse ++ s)] xs)
    (hy : Expands [.phrase .values s] ys) :
    Expands [.phrase .suffixed s]
      (.mark "(" :: .mark "function" :: (Script.parameterList names false ++ xs ++
        .mark "end" :: .mark ")" :: .mark "(" :: ys ++ [.mark ")"])) := by
  have hbody := hx.append (.items [.mark "end"] .nil)
  have hlambda := (Expands.items _ hbody).one (.lambda s names false)
  have hgroup := (Expands.items [.mark "("] (hlambda.append (.items [.mark ")"] .nil))).one (.group s)
  have harguments :=
    (Expands.items [.mark "("] (hy.append (.items [.mark ")"] .nil))).one (.argumentList s)
  have hcall := ((hgroup.append harguments).one (.call s)).one (.called s)
  simpa using hcall

/-- A block that gives back a value. -/
theorem expands_give {s : List String} {xs : List Item} (h : Expands [.phrase .given s] xs) :
    Expands [.phrase (.block false) s] (.mark "return" :: xs) := by
  have hend : Expands [.phrase (.ending false) s] [] := Expands.nil.one (.ended s)
  have hgive := (Expands.items [.mark "return"] (h.append hend)).one (.give s false)
  simpa using hgive

/-- A new variable without a value, and the rest of its block. -/
theorem expands_bareLocal {s : List String} (n : String) {xs : List Item}
    (h : Expands [.phrase (.block false) (n :: s)] xs) :
    Expands [.phrase (.block false) s] (.mark "local" :: .declared n :: xs) := by
  have hnames : [(n, (none : Option String))] ≠ [] := List.cons_ne_nil _ _
  exact (Expands.items _ h).one (.bareLocals s false hnames)

/-- A new variable with its value, and the rest of its block. -/
theorem expands_locals {s : List String} (n : String) {xs ys : List Item}
    (hx : Expands [.phrase .expressions s] xs)
    (hy : Expands [.phrase (.block false) (n :: s)] ys) :
    Expands [.phrase (.block false) s]
      (.mark "local" :: .declared n :: .mark "=" :: (xs ++ ys)) := by
  have hnames : [(n, (none : Option String))] ≠ [] := List.cons_ne_nil _ _
  exact (Expands.items _ (hx.append hy)).one (.locals s false hnames)

/-! ## What stands around a token -/

theorem split_at {xs : List Item} {k : Nat} {x : Item} (h : xs[k]? = some x) :
    ∃ front back, xs = front ++ x :: back ∧ front.length = k := by
  obtain ⟨hk, rfl⟩ := List.getElem?_eq_some_iff.1 h
  refine ⟨xs.take k, xs.drop (k + 1), ?_, List.length_take_of_le (Nat.le_of_lt hk)⟩
  rw [← List.drop_eq_getElem_cons, List.take_append_drop]

theorem show_split {ts : List Token} {front back : List Item} {x : Item}
    (h : Show ts (front ++ x :: back)) :
    ∃ before t after, ts = before ++ t :: after ∧ before.length = front.length ∧
      Show before front ∧ Shows t x.token ∧ Show after back := by
  induction front generalizing ts with
  | nil =>
    obtain ⟨t, after, ht, hafter, rfl⟩ := List.forall₂_cons_right_iff.1 h
    exact ⟨[], t, after, rfl, rfl, .nil, ht, hafter⟩
  | cons y front ih =>
    obtain ⟨u, more, hu, hmore, rfl⟩ := List.forall₂_cons_right_iff.1 h
    obtain ⟨before, t, after, rfl, hlength, hbefore, ht, hafter⟩ := ih hmore
    exact ⟨u :: before, t, after, rfl, congrArg _ hlength, .cons hu hbefore, ht, hafter⟩

/-- The mark before a token is the same on both sides. -/
theorem lastText_show {before : List Token} {front : List Item} (h : Show before front)
    {previous : List Char} {m : String} (hm : m ∈ watched)
    (ht : lastText previous before = m.toList) :
    front = [] ∧ previous = m.toList ∨ ∃ y ∈ front.getLast?, y.token = .mark m := by
  induction h generalizing previous with
  | nil => exact .inl ⟨rfl, ht⟩
  | @cons t x before front htx h ih =>
    rw [lastText_cons] at ht
    right
    obtain ⟨rfl, htext⟩ | ⟨y, hy, hmark⟩ := ih ht
    · exact ⟨x, rfl, (htx.mark m hm).1 htext⟩
    · rw [List.getLast?_cons, hy]
      exact ⟨y, rfl, hmark⟩

/-- A token before which a mark stands. -/
theorem mark_before {before : List Token} {front : List Item} (h : Show before front) {m : String}
    (hm : m ∈ watched) (ht : lastText [] before = m.toList) :
    ∃ y ∈ front.getLast?, y.token = .mark m := by
  obtain ⟨-, hnil⟩ | hmark := lastText_show h hm ht
  · have hne : ∀ m ∈ watched, m.toList ≠ [] := by decide
    exact absurd hnil.symm (hne m hm)
  · exact hmark

theorem Adjacent.of_split {front back : List Item} {x : Item}
    (hc : (front ++ x :: back).IsChain Script.Adjacent) :
    (∀ y ∈ front.getLast?, Script.Adjacent y x) ∧ ∀ y ∈ back.head?, Script.Adjacent x y := by
  obtain ⟨-, hback, hfront⟩ := List.isChain_append.1 hc
  refine ⟨fun y hy => hfront y hy x rfl, fun y hy => ?_⟩
  obtain ⟨more, rfl⟩ := List.head?_eq_some_iff.1 hy
  exact (List.isChain_cons_cons.1 hback).1

/-- What becomes of a token that is not in the middle of a path. -/
theorem fate?_split {source : String} {front back : List Item} {x : Item}
    (h : Show (tokenize source.toList).1 (front ++ x :: back)) (hx : x.token ≠ .mark ".")
    (hpoint : ∀ y ∈ front.getLast?, y.token ≠ .mark ".") (p : Patch) (s : Surroundings) :
    ∃ before t after, Show before front ∧ Shows t x.token ∧ Show after back ∧
      p.fate? s source front.length = some (.of (replacement? p s
        (declared (tokenize source.toList).1) (lastText [] before) t after)) := by
  obtain ⟨before, t, after, hts, hlength, hbefore, ht, hafter⟩ := show_split h
  refine ⟨before, t, after, hbefore, ht, hafter, ?_⟩
  have hfate : (p.fates s source)[before.length]? = some (t, .of (replacement? p s
      (declared (tokenize source.toList).1) (lastText [] before) t after)) := by
    unfold fates
    dsimp only
    rw [hts]
    refine fates_at (mt (ht.mark "." (by decide)).1 hx) fun hlast => ?_
    obtain ⟨y, hy, hmark⟩ := mark_before hbefore (by decide) (m := ".") hlast
    exact hpoint y hy hmark
  rw [fate?, ← hlength, hfate, Option.map_some]

/-! ## Declared names -/

theorem replacement?_declared {p : Patch} {s : Surroundings} {locals : List (List Char)} {t : Token}
    (h : t.text ∈ locals) (previous : List Char) (after : List Token) :
    replacement? p s locals previous t after = none := by
  unfold replacement?
  rw [if_pos (.inr (.inr (List.contains_iff_mem.2 h)))]

theorem not_replaced {p : Patch} {s : Surroundings} {source : String} {k : Nat} {t : Token}
    (ht : (tokenize source.toList).1[k]? = some t)
    (hdeclared : t.text ∈ declared (tokenize source.toList).1) (new : List Char) :
    p.fate? s source k ≠ some (.replaced new) := by
  intro h
  obtain ⟨⟨u, f⟩, hu, rfl⟩ := Option.map_eq_some_iff.1 h
  have htokens : (p.fates s source).map Prod.fst = (tokenize source.toList).1 := fates_tokens _
  have hut : (tokenize source.toList).1[k]? = some u := by
    rw [← htokens, List.getElem?_map]
    exact congrArg (Option.map Prod.fst) hu
  obtain rfl := Option.some.inj (hut.symm.trans ht)
  have hnot := not_declared_of_replaced (List.mem_of_getElem? hu)
  rw [List.contains_iff_mem.2 hdeclared] at hnot
  cases hnot

/-- **A rewriter captures no local.** No occurrence of a name that the expression declares is
replaced, and the name stays where it is declared, unless a `function` stands right behind a list of
local names. -/
theorem declared_names_kept {source : String} {xs : List Item} (h : Expresses source xs)
    (hp : Plain source.toList) (hswept : "function" ∉ swept xs) (ident : String)
    (text : Option String) (s : Surroundings) {n : String} (hn : n ∈ introduced xs) :
    (∀ k x new, xs[k]? = some x → x.token = .name n →
      (ofParameter ident text).fate? s source k ≠ some (.replaced new)) ∧
    ∀ k, xs[k]? = some (.declared n) →
      (ofParameter ident text).fate? s source k = some .kept := by
  have hshow := show_of_expresses h hp
  have horderly := h.derived.orderly
  have hmem := mem_declared hshow horderly.headed horderly.flows.chain hswept hn
  refine ⟨fun k x new hx hname => ?_, fun k hx => ?_⟩
  · obtain ⟨front, back, rfl, rfl⟩ := split_at hx
    obtain ⟨before, t, after, hts, hlength, -, ht, -⟩ := show_split hshow
    have htext := ((ht.word n).2 (by rw [hname, word?])).2
    refine not_replaced (t := t) ?_ (htext ▸ hmem) new
    rw [hts, ← hlength, List.getElem?_append_right (Nat.le_refl _), Nat.sub_self]
    rfl
  · obtain ⟨front, back, rfl, rfl⟩ := split_at hx
    have hbefore := (Adjacent.of_split horderly.flows.chain).1
    have hpoint : (Item.declared n).token ≠ .mark "." := by
      intro hmark
      cases hmark
    obtain ⟨before, t, after, -, ht, -, hfate⟩ := fate?_split hshow hpoint
      (fun y hy => ((hbefore y hy).declared rfl).1) (ofParameter ident text) s
    have htext := ((ht.word n).2 rfl).2
    rw [hfate, replacement?_declared (htext ▸ hmem)]
    rfl

/-- `(function(n) local a = n return a + _ end)(_)` -/
def parameterItems : List Item :=
  [.mark "(", .mark "function", .mark "(", .declared "n", .mark ")", .mark "local", .declared "a",
    .mark "=", .use ["n", "_ENV"] "n", .mark "return", .use ["a", "n", "_ENV"] "a", .mark "+",
    .use ["a", "n", "_ENV"] "_", .mark "end", .mark ")", .mark "(", .use ["_ENV"] "_", .mark ")"]

theorem expresses_parameterItems :
    Expresses "(function(n) local a = n return a + _ end)(_)" parameterItems := by
  have hsum : Expands [.phrase .expression ["a", "n", "_ENV"]]
      ([.use ["a", "n", "_ENV"] "a"] ++ .mark "+" :: [.use ["a", "n", "_ENV"] "_"]) :=
    (((expands_name _ "a").one (.operand _)).append
      (.items [.mark "+"] ((expands_name _ "_").one (.operand _)))).one (.binary _ rfl)
  have hblock : Expands [.phrase (.block false) ["n", "_ENV"]]
      (.mark "local" :: .declared "a" :: .mark "=" :: .use ["n", "_ENV"] "n" :: .mark "return" ::
        ([.use ["a", "n", "_ENV"] "a"] ++ .mark "+" :: [.use ["a", "n", "_ENV"] "_"])) := by
    have hvalue := ((expands_name ["n", "_ENV"] "n").one (.operand _)).one (.one _)
    have hgive := expands_give (((hsum.one (.one _)).one (.someValues _)).one (.given _))
    exact expands_locals "a" hvalue hgive
  have hargument := (((expands_name ["_ENV"] "_").one (.operand _)).one (.one _)).one (.someValues _)
  refine ⟨lexes_of_tokens ?_ ?_, expands_given (expands_called ["n"] hblock hargument)⟩
  · cbv
  · simp [parameterItems, Item.mark, Item.declared, Item.use, Script.Token.isBad]

theorem known_root_kept :
    Plain "(function(n) local a = n return a + _ end)(_)".toList ∧
      "function" ∉ swept parameterItems ∧ "n" ∈ introduced parameterItems ∧
      (ofParameter "_" (some "42")).fate? ⟨[⟨"n", .value (.bool true)⟩], []⟩
        "(function(n) local a = n return a + _ end)(_)" 8 ≠ some (.replaced "true".toList) ∧
      (ofParameter "_" (some "42")).fate? ⟨[⟨"n", .value (.bool true)⟩], []⟩
        "(function(n) local a = n return a + _ end)(_)" 3 = some .kept := by
  have hplain : Plain "(function(n) local a = n return a + _ end)(_)".toList := by simp [Plain]
  have hswept : "function" ∉ swept parameterItems := by decide
  have hn : "n" ∈ introduced parameterItems := by decide
  obtain ⟨huses, hdeclared⟩ := declared_names_kept expresses_parameterItems hplain hswept "_"
    (some "42") ⟨[⟨"n", .value (.bool true)⟩], []⟩ hn
  exact ⟨hplain, hswept, hn, huses 8 _ _ rfl rfl, hdeclared 3 rfl⟩

/-- `(function() local f return function(_) return _ end end)()` -/
def capturedItems : List Item :=
  [.mark "(", .mark "function", .mark "(", .mark ")", .mark "local", .declared "f", .mark "return",
    .mark "function", .mark "(", .declared "_", .mark ")", .mark "return",
    .use ["_", "f", "_ENV"] "_", .mark "end", .mark "end", .mark ")", .mark "(", .mark ")"]

def capturedTokens : List Token :=
  [⟨[], .punct, ['(']⟩, ⟨[], .name, "function".toList⟩, ⟨[], .punct, ['(']⟩, ⟨[], .punct, [')']⟩,
    ⟨[' '], .name, "local".toList⟩, ⟨[' '], .name, ['f']⟩, ⟨[' '], .name, "return".toList⟩,
    ⟨[' '], .name, "function".toList⟩, ⟨[], .punct, ['(']⟩, ⟨[], .name, ['_']⟩, ⟨[], .punct, [')']⟩,
    ⟨[' '], .name, "return".toList⟩, ⟨[' '], .name, ['_']⟩, ⟨[' '], .name, "end".toList⟩,
    ⟨[' '], .name, "end".toList⟩, ⟨[], .punct, [')']⟩, ⟨[], .punct, ['(']⟩, ⟨[], .punct, [')']⟩]

/-- A `function` right behind a list of local names is taken for one of them. Its parameters are not
found then. -/
theorem function_behind_list_captured :
    Expresses "(function() local f return function(_) return _ end end)()" capturedItems ∧
      "_" ∈ introduced capturedItems ∧ capturedItems[9]? = some (.declared "_") ∧
      (ofParameter "_" (some "42")).fate? ⟨[], []⟩
        "(function() local f return function(_) return _ end end)()" 9 =
          some (.replaced ['4', '2']) ∧
      (ofParameter "_" (some "42")).apply ⟨[], []⟩
        "(function() local f return function(_) return _ end end)()" =
          "(function() local f return function(42) return 42 end end)()" := by
  have hlexes : Lexes [] "(function() local f return function(_) return _ end end)()".toList
      (capturedItems.map (·.token)) := by
    refine lexes_of_tokens ?_ ?_
    · cbv
    · simp [capturedItems, Item.mark, Item.declared, Item.use, Script.Token.isBad]
  have hinner : Expands [.phrase .expression ["f", "_ENV"]]
      (.mark "function" :: (Script.parameterList ["_"] false ++
        [.mark "return", .use ["_", "f", "_ENV"] "_", .mark "end"])) := by
    have hgive := expands_give (expands_given (expands_name ["_", "f", "_ENV"] "_"))
    exact (Expands.items _ (hgive.append (.items [.mark "end"] .nil))).one
      (.lambda ["f", "_ENV"] ["_"] false)
  have hblock : Expands [.phrase (.block false) ["_ENV"]]
      (.mark "local" :: .declared "f" :: .mark "return" :: .mark "function" ::
        (Script.parameterList ["_"] false ++
          [.mark "return", .use ["_", "f", "_ENV"] "_", .mark "end"])) := by
    refine expands_bareLocal "f" ?_
    exact expands_give (((hinner.one (.one _)).one (.someValues _)).one (.given _))
  have hderived : IsExpression capturedItems :=
    expands_given (expands_called [] hblock (Expands.nil.one (.noValues _)))
  have htokens : tokenize "(function() local f return function(_) return _ end end)()".toList =
      (capturedTokens, []) := by
    cbv
  have hdeclared : declared capturedTokens =
      ["f".toList, "return".toList, "function".toList] := by
    rw [capturedTokens, declared_other (by decide), declared_function rfl rfl]
    simp [declared, functionName?, nameRun, namesOf]
  have hparts : parts (ofParameter "_" (some "42")) ⟨[], []⟩ (declared capturedTokens) []
      capturedTokens =
        (capturedTokens.take 9).map .kept ++
          .replaced ⟨[], .name, ['_']⟩ [] ['4', '2'] ::
            (((capturedTokens.drop 10).take 2).map .kept ++
              .replaced ⟨[' '], .name, ['_']⟩ [] ['4', '2'] ::
                (capturedTokens.drop 13).map .kept) := by
    rw [hdeclared]
    cbv
  refine ⟨⟨hlexes, hderived⟩, by decide, rfl, ?_, ?_⟩
  · rw [fate?, fates_of_parts htokens hparts]
    rfl
  · rw [apply_of_parts htokens hparts]
    rfl

/-! ## References -/

/-- The marks after which a rewriter takes a name for no reference. -/
theorem allowsReference_eq_false {previous : List Char} (h : allowsReference previous = false) :
    ∃ m ∈ [".", ":", "::", "local", "function", "goto"], previous = m.toList := by
  unfold allowsReference at h
  rw [Bool.not_eq_false', List.contains_iff_mem] at h
  exact ⟨_, h, String.toList_ofList.symm⟩

/-- A use of a variable allows a reference, except behind a label and as the start of the path of a
function. -/
theorem allowsReference_use {before : List Token} {front : List Item} {x : Item}
    (h : Show before front) (hx : x.role.isUse) (hc : ∀ y ∈ front.getLast?, Script.Adjacent y x)
    (hfront : ∀ y ∈ front.getLast?, y.token ≠ .mark "::" ∧ y.token ≠ .mark "function") :
    allowsReference (lastText [] before) := by
  by_contra hno
  obtain ⟨m, hm, htext⟩ := allowsReference_eq_false (Bool.eq_false_iff.2 hno)
  have hwatched : ∀ m ∈ [".", ":", "::", "local", "function", "goto"], m ∈ watched := by decide
  obtain ⟨y, hy, hmark⟩ := mark_before h (hwatched m hm) htext
  have hbefore := (hc y hy).use hx
  simp only [Script.beforeNames, List.mem_cons, List.not_mem_nil, or_false, forall_eq_or_imp,
    forall_eq] at hbefore
  simp only [List.mem_cons, List.not_mem_nil, or_false] at hm
  obtain rfl | rfl | rfl | rfl | rfl | rfl := hm <;> simp_all

theorem not_assigned {after : List Token} {back : List Item} {x : Item} (h : Show after back)
    (hx : x.role.isUse) (hc : ∀ y ∈ back.head?, Script.Adjacent x y) :
    after.head?.any (·.text == ['=']) = false := by
  cases h with
  | nil => rfl
  | @cons u y after back hu h =>
    refine Bool.eq_false_iff.2 fun hequals => ?_
    have hmark := (hu.mark "=" (by decide)).1 (beq_iff_eq.1 hequals)
    rw [(hc y rfl).assigned hmark] at hx
    cases hx

/-- **Every free reference to the parameter becomes its literal,** if no part of the expression
declares the name and no list of local names runs on over it. -/
theorem free_reference_replaced {source : String} {xs : List Item} (h : Expresses source xs)
    (hp : Plain source.toList) {ident text : String} {l : Literal}
    (hl : Literal.ofText? text = some l) (s : Surroundings) {k : Nat}
    (hk : xs[k]? = some ⟨.name ident, .use true⟩)
    (hbefore : ∀ y ∈ (xs.take k).getLast?, y.token ≠ .mark "::" ∧ y.token ≠ .mark "function")
    (hdeclared : ident ∉ introduced xs) (hswept : ident ∉ swept xs) :
    (ofParameter ident (some text)).fate? s source k = some (.replaced l.source) := by
  obtain ⟨front, back, rfl, rfl⟩ := split_at hk
  rw [List.take_left] at hbefore
  have hshow := show_of_expresses h hp
  have horderly := h.derived.orderly
  obtain ⟨hfront, hback⟩ := Adjacent.of_split horderly.flows.chain
  obtain ⟨before, t, after, hb, ht, ha, hfate⟩ := fate?_split hshow nofun
    (fun y hy => (hfront y hy).use rfl "." (by decide)) (ofParameter ident (some text)) s
  obtain ⟨hkind, htext⟩ := (ht.word ident).2 rfl
  have hlocals : t.text ∉ declared (tokenize source.toList).1 := by
    intro hmem
    obtain ⟨n, hn, hfound⟩ := of_mem_declared hshow List.suffix_rfl horderly.headed
      horderly.flows.chain hmem
    obtain rfl : n = ident := String.toList_inj.1 (hn.symm.trans htext)
    exact hfound.elim hdeclared hswept
  have hname : String.ofList t.text = (ofParameter ident (some text)).ident := by
    rw [htext, String.ofList_toList]
    rfl
  have hliteral : (ofParameter ident (some text)).literal = some l := hl
  have hreplaced : replacement? (ofParameter ident (some text)) s
      (declared (tokenize source.toList).1) (lastText [] before) t after = some (0, l.source) := by
    unfold replacement?
    dsimp only
    rw [if_neg, if_pos hname, not_assigned ha rfl hback, if_neg (by decide), hliteral]
    · rfl
    · simp [hkind, allowsReference_use hb rfl hfront hbefore, hlocals]
  rw [hfate, hreplaced]
  rfl

theorem parameter_beside_locals_replaced :
    Plain "(function(n) local a = n return a + _ end)(_)".toList ∧
      Literal.ofText? "42" = some (.int 42) ∧ parameterItems[12]? = some ⟨.name "_", .use true⟩ ∧
      "_" ∉ introduced parameterItems ∧ "_" ∉ swept parameterItems ∧
      (ofParameter "_" (some "42")).fate? ⟨[], []⟩
        "(function(n) local a = n return a + _ end)(_)" 12 =
          some (.replaced (Literal.int 42).source) := by
  have hplain : Plain "(function(n) local a = n return a + _ end)(_)".toList := by simp [Plain]
  have hl : Literal.ofText? "42" = some (.int 42) := by cbv
  have hdeclared : "_" ∉ introduced parameterItems := by decide
  have hswept : "_" ∉ swept parameterItems := by decide
  refine ⟨hplain, hl, rfl, hdeclared, hswept, ?_⟩
  refine free_reference_replaced expresses_parameterItems hplain hl ⟨[], []⟩ rfl ?_ hdeclared hswept
  simp [parameterItems, Item.mark]

/-- `(function() local a return _ end)()` -/
def sweptItems : List Item :=
  [.mark "(", .mark "function", .mark "(", .mark ")", .mark "local", .declared "a", .mark "return",
    .use ["a", "_ENV"] "_", .mark "end", .mark ")", .mark "(", .mark ")"]

def sweptTokens : List Token :=
  [⟨[], .punct, ['(']⟩, ⟨[], .name, "function".toList⟩, ⟨[], .punct, ['(']⟩, ⟨[], .punct, [')']⟩,
    ⟨[' '], .name, "local".toList⟩, ⟨[' '], .name, ['a']⟩, ⟨[' '], .name, "return".toList⟩,
    ⟨[' '], .name, ['_']⟩, ⟨[' '], .name, "end".toList⟩, ⟨[], .punct, [')']⟩, ⟨[], .punct, ['(']⟩,
    ⟨[], .punct, [')']⟩]

/-- What stands right behind a list of local names is taken for names of it. -/
theorem reference_behind_list_kept :
    Expresses "(function() local a return _ end)()" sweptItems ∧
      Literal.ofText? "42" = some (.int 42) ∧ sweptItems[7]? = some ⟨.name "_", .use true⟩ ∧
      (ofParameter "_" (some "42")).fate? ⟨[], []⟩ "(function() local a return _ end)()" 7 =
        some .kept ∧
      (ofParameter "_" (some "42")).apply ⟨[], []⟩ "(function() local a return _ end)()" =
        "(function() local a return _ end)()" := by
  have hlexes : Lexes [] "(function() local a return _ end)()".toList
      (sweptItems.map (·.token)) := by
    refine lexes_of_tokens ?_ ?_
    · cbv
    · simp [sweptItems, Item.mark, Item.declared, Item.use, Script.Token.isBad]
  have hblock : Expands [.phrase (.block false) ["_ENV"]]
      (.mark "local" :: .declared "a" :: .mark "return" :: [.use ["a", "_ENV"] "_"]) := by
    refine expands_bareLocal "a" ?_
    exact expands_give (expands_given (expands_name ["a", "_ENV"] "_"))
  have hderived : IsExpression sweptItems :=
    expands_given (expands_called [] hblock (Expands.nil.one (.noValues _)))
  have htokens : tokenize "(function() local a return _ end)()".toList = (sweptTokens, []) := by
    cbv
  have hdeclared : declared sweptTokens =
      ["a".toList, "return".toList, "_".toList, "end".toList] := by
    rw [sweptTokens, declared_other (by decide), declared_function rfl rfl]
    simp [declared, functionName?, nameRun, namesOf]
  have hparts : parts (ofParameter "_" (some "42")) ⟨[], []⟩ (declared sweptTokens) []
      sweptTokens = sweptTokens.map .kept := by
    rw [hdeclared]
    cbv
  refine ⟨⟨hlexes, hderived⟩, by cbv, rfl, ?_, ?_⟩
  · rw [fate?, fates_of_parts htokens hparts]
    rfl
  · rw [apply_of_parts htokens hparts]
    rfl

end EnvManifest.Patch
