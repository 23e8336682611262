import EnvManifest.Manifest.Parser
import EnvManifest.Patch.Rewrite
import EnvManifest.Proofs.Patch.Rewriting
import EnvManifest.Proofs.Script.Written

/-!
# Expressions that are one path

A path alone becomes the value that it is known to have, or stays as it is. A name alone is a path
too: it becomes the literal of the parameter if it is the parameter's name.
-/

namespace EnvManifest

open Text

/-- The characters of a variable's name are those of a word. -/
theorem word_of_isVariableName {name : List Char} (h : isVariableName name) :
    ∃ c v, name = c :: v ∧ Script.startsWord c ∧ ∀ d ∈ v, Script.isWordPart d := by
  cases name with
  | nil => exact absurd h (by decide)
  | cons c v =>
    unfold isVariableName at h
    rw [Bool.and_eq_true, List.all_eq_true] at h
    exact ⟨c, v, rfl, h.1, fun d hd => h.2 d (List.mem_cons_of_mem c hd)⟩

/-- A variable's name that is no reserved word is a name for the engine. -/
theorem lexes_name {name : String} (h : isVariableName name.toList) (hword : name ∉ Script.keywords)
    {rest : List Char} (hrest : stops Script.isWordPart rest) :
    Script.Lexes rest name.toList [.name name] := by
  obtain ⟨c, v, hcv, hc, hv⟩ := word_of_isVariableName h
  have hone := Patch.lexes_one (Script.takes_word hc hv hrest)
  have htoken : Script.wordToken (c :: v) = .name name := by
    unfold Script.wordToken
    rw [← hcv, String.ofList_toList, if_neg]
    simpa using hword
  rwa [htoken, ← hcv] at hone

theorem lexes_variable {name : String} (h : isVariableName name.toList)
    (hword : name ∉ Script.keywords) : Script.Lexes [] name.toList [.name name] :=
  lexes_name h hword (stops_nil _)

namespace Patch

/-! ## Texts of paths -/

/-- The text of fields, each behind a point. -/
def fieldsText (fields : List String) : List Char := fields.flatMap fun name => '.' :: name.toList

theorem fieldsText_cons (name : String) (fields : List String) :
    fieldsText (name :: fields) = '.' :: (name.toList ++ fieldsText fields) := rfl

theorem dotted_cons (root name : String) (fields : List String) :
    dotted root (name :: fields) = dotted (root ++ "." ++ name) fields := rfl

theorem toList_dotted (root : String) (fields : List String) :
    (dotted root fields).toList = root.toList ++ fieldsText fields := by
  induction fields generalizing root with
  | nil => simp [dotted, fieldsText]
  | cons name fields ih =>
    rw [dotted_cons, ih, fieldsText_cons]
    simp

theorem dotted_eq_intercalate (root : String) (fields : List String) :
    dotted root fields = ".".intercalate (root :: fields) := by
  induction fields generalizing root with
  | nil => simp [dotted]
  | cons name fields ih =>
    rw [dotted_cons, ih, String.intercalate_cons_cons, String.intercalate_cons_append]

theorem stops_fieldsText (fields : List String) : stops Script.isWordPart (fieldsText fields) := by
  cases fields with
  | nil => exact stops_nil _
  | cons name fields =>
    intro c hc
    obtain rfl := Option.some.inj hc
    rfl

variable {root : String} {fields : List String}

/-- A point before a word is a token of its own. -/
theorem lexes_point {c : Char} (hc : Script.startsWord c) (rest : List Char) :
    Script.Lexes (c :: rest) ['.'] [.mark "."] := by
  have htakes : Script.Takes '.' (c :: rest) (some (.mark ".")) 0 := by
    apply Script.takes_symbol (by decide)
    intro d hd
    obtain rfl := Option.some.inj hd
    refine ⟨nofun, fun _ => Script.not_isDigit_of_startsWord hc, ?_⟩
    simp [doubled, Script.ne_of_startsWord hc (d := '.') rfl]
  exact lexes_one (v := []) htakes

theorem lexes_fields (h : ∀ name ∈ fields, isVariableName name.toList ∧ name ∉ Script.keywords) :
    Script.Lexes [] (fieldsText fields)
      (fields.flatMap fun name => [Script.Token.mark ".", .name name]) := by
  induction fields with
  | nil => exact .nil
  | cons name fields ih =>
    obtain ⟨⟨hname, hword⟩, hfields⟩ := List.forall_mem_cons.1 h
    obtain ⟨c, v, hcv, hc, -⟩ := word_of_isVariableName hname
    have hrest := Lexes.then (lexes_name hname hword (stops_fieldsText fields)) (ih hfields)
    have hpoint : Script.Lexes (name.toList ++ fieldsText fields) ['.'] [.mark "."] := by
      rw [hcv]
      exact lexes_point hc _
    have hall := Lexes.then hpoint hrest
    exact hall

/-- The text of a path has the tokens of the path for the engine. -/
theorem lexes_dotted (h : ∀ name ∈ root :: fields, isVariableName name.toList ∧
    name ∉ Script.keywords) :
    Script.Lexes [] (dotted root fields).toList (Script.pathTokens root fields) := by
  obtain ⟨⟨hname, hword⟩, hfields⟩ := List.forall_mem_cons.1 h
  rw [toList_dotted]
  exact Lexes.then (lexes_name hname hword (stops_fieldsText fields)) (lexes_fields hfields)

/-! ## Tokens of paths -/

/-- The tokens of fields, each behind a point. -/
def fieldTokens (fields : List String) : List Token :=
  fields.flatMap fun name => [⟨[], .punct, ['.']⟩, ⟨[], .name, name.toList⟩]

theorem fieldTokens_cons (name : String) (fields : List String) :
    fieldTokens (name :: fields) =
      ⟨[], .punct, ['.']⟩ :: ⟨[], .name, name.toList⟩ :: fieldTokens fields := rfl

theorem pieces_name {name : List Char} (h : isVariableName name) {rest : List Char}
    (hrest : stops Script.isWordPart rest) :
    pieces (name ++ rest) = ⟨some .name, name⟩ :: pieces rest := by
  obtain ⟨c, v, rfl, hc, hv⟩ := word_of_isVariableName h
  rw [List.cons_append, pieces, pieceAt_name hc, takeWhile_run hv hrest]
  dsimp only
  rw [List.take_left, List.drop_left]

theorem pieces_point {c : Char} (hc : Script.startsWord c) (rest : List Char) :
    pieces ('.' :: c :: rest) = ⟨some .punct, ['.']⟩ :: pieces (c :: rest) := by
  have hpiece : pieceAt '.' (c :: rest) = (some .punct, 0) := by
    have hdigit : isDigit c = false := Script.not_isDigit_of_startsWord hc
    have hne : c ≠ '.' := Script.ne_of_startsWord hc rfl
    unfold pieceAt
    rw [if_neg (by decide), if_neg (by simp), if_neg (by decide), if_neg (by simp [hdigit]; decide),
      if_neg (by decide)]
    simp [symbolRun, doubled, hne]
  rw [pieces, hpiece]
  rfl

theorem attach_fields (h : ∀ name ∈ fields, isVariableName name.toList) :
    attach [] (pieces (fieldsText fields)) = (fieldTokens fields, []) := by
  induction fields with
  | nil =>
    rw [fieldsText, List.flatMap_nil, pieces]
    rfl
  | cons name fields ih =>
    obtain ⟨hname, hfields⟩ := List.forall_mem_cons.1 h
    obtain ⟨c, v, hcv, hc, -⟩ := word_of_isVariableName hname
    have hpoint : pieces ('.' :: (name.toList ++ fieldsText fields)) =
        ⟨some .punct, ['.']⟩ :: pieces (name.toList ++ fieldsText fields) := by
      rw [hcv]
      exact pieces_point hc _
    rw [fieldsText_cons, hpoint, pieces_name hname (stops_fieldsText fields), attach]
    dsimp only
    rw [attach]
    dsimp only
    rw [ih hfields]
    rfl

theorem tokenize_dotted (h : ∀ name ∈ root :: fields, isVariableName name.toList) :
    tokenize (dotted root fields).toList =
      (⟨[], .name, root.toList⟩ :: fieldTokens fields, []) := by
  obtain ⟨hname, hfields⟩ := List.forall_mem_cons.1 h
  unfold tokenize
  rw [toList_dotted, pieces_name hname (stops_fieldsText fields), attach]
  dsimp only
  rw [attach_fields hfields]

/-- Tokens without the words that declare names declare nothing. -/
theorem declared_nothing {ts : List Token} (h : ∀ t ∈ ts, t.text ≠ "local".toList ∧
    t.text ≠ "for".toList ∧ t.text ≠ "function".toList) : declared ts = [] := by
  induction ts with
  | nil => rw [declared]
  | cons t ts ih =>
    obtain ⟨⟨hlocal, hfor, hfunction⟩, hts⟩ := List.forall_mem_cons.1 h
    rw [declared, if_neg hlocal, if_neg hfor, if_neg hfunction]
    exact ih hts

/-! ## What becomes of a path -/

variable {p : Patch} {s : Surroundings}

/-- Where the whole path has a value, that is found. -/
theorem longestPath_whole {hints : List Hint} {path : String} {v : Value}
    (h : Hint.value? hints (dotted path fields) = some v) (used : Nat)
    (found : Option (Nat × Value)) :
    longestPath hints path used found (fieldTokens fields) =
      some (used + 2 * fields.length, v) := by
  induction fields generalizing path used found with
  | nil =>
    have h : Hint.value? hints path = some v := h
    simp [fieldTokens, longestPath, h]
  | cons name fields ih =>
    rw [fieldTokens_cons, longestPath, if_pos ⟨rfl, rfl⟩, String.ofList_toList, ih h]
    simp only [List.length_cons]
    congr 2
    omega

/-- Where it has none, what is found ends before a point. -/
theorem longestPath_part {hints : List Hint} {path : String} {used n : Nat}
    {found : Option (Nat × Value)} {v : Value}
    (hnone : Hint.value? hints (dotted path fields) = none)
    (h : longestPath hints path used found (fieldTokens fields) = some (n, v)) :
    found = some (n, v) ∨ ∃ k < fields.length, n = used + 2 * k := by
  induction fields generalizing path used found with
  | nil =>
    have hnone : Hint.value? hints path = none := hnone
    left
    simpa [fieldTokens, longestPath, hnone] using h
  | cons name fields ih =>
    rw [fieldTokens_cons, longestPath, if_pos ⟨rfl, rfl⟩, String.ofList_toList] at h
    obtain hfound | ⟨k, hk, rfl⟩ := ih hnone h
    · refine (found_some hfound).imp_right fun ⟨hn, _⟩ => ⟨0, ?_, hn⟩
      simp
    · refine .inr ⟨k + 1, ?_, ?_⟩
      · simpa using hk
      · omega

theorem drop_fieldTokens (fields : List String) (k : Nat) :
    (fieldTokens fields).drop (2 * k) = fieldTokens (fields.drop k) := by
  induction k generalizing fields with
  | zero => rfl
  | succ k ih =>
    cases fields with
    | nil => simp [fieldTokens]
    | cons name fields =>
      rw [Nat.mul_succ, fieldTokens_cons]
      exact ih fields

/-- A path alone becomes the value of the whole path. -/
theorem fold?_path (hints : List Hint) (root : String) (fields : List String) :
    fold? hints ⟨[], .name, root.toList⟩ (fieldTokens fields) =
      ((Hint.value? hints (dotted root fields)).bind Value.source?).map
        fun text => (2 * fields.length, text) := by
  unfold fold?
  dsimp only
  rw [String.ofList_toList]
  cases hv : Hint.value? hints (dotted root fields) with
  | some v =>
    have hend : (fieldTokens fields).drop (0 + 2 * fields.length) = [] := by
      rw [Nat.zero_add, drop_fieldTokens, List.drop_length]
      rfl
    rw [longestPath_whole hv]
    simp only [Option.bind_eq_bind, Option.bind_some]
    rw [hend]
    cases v.source? <;> simp
  | none =>
    cases hpath : longestPath hints root 0 none (fieldTokens fields) with
    | none => rfl
    | some found =>
      obtain ⟨n, v⟩ := found
      obtain hnone | ⟨k, hk, rfl⟩ := longestPath_part hv hpath
      · cases hnone
      · -- A point goes on with the path.
        have hpoint : ((fieldTokens fields).drop (0 + 2 * k)).head?.any usesPath := by
          rw [Nat.zero_add, drop_fieldTokens, List.drop_eq_getElem_cons hk, fieldTokens_cons]
          rfl
        simp only [Option.bind_eq_bind, Option.bind_some]
        rw [if_pos hpoint]
        rfl

/-- What becomes of the root of a path that stands alone. -/
theorem replacement?_path (hp : root = p.ident → fields = [] ∨ p.literal = none) :
    replacement? p s [] [] ⟨[], .name, root.toList⟩ (fieldTokens fields) =
      (operand? p s [] (root :: fields)).map fun text => (2 * fields.length, text) := by
  have hassign : (fieldTokens fields).head?.any (·.text == ['=']) = false := by
    cases fields <;> rfl
  rw [operand?_cons p s rfl]
  unfold replacement?
  dsimp only
  rw [String.ofList_toList, if_neg (by simp [allowsReference])]
  by_cases hident : root = p.ident
  · rw [if_pos hident, if_pos hident, hassign, if_neg (by decide)]
    obtain rfl | hnone := hp hident
    · rw [if_pos rfl]
      cases p.literal <;> rfl
    · rw [hnone]
      split <;> rfl
  · rw [if_neg hident, if_neg hident]
    by_cases hshadowed : s.shadowed.contains root
    · rw [if_pos hshadowed, if_pos hshadowed]
      rfl
    · rw [if_neg hshadowed, if_neg hshadowed, fold?_path]

/-- Fields are kept where they stand. -/
theorem parts_fields (previous : List Char) :
    parts p s [] previous (fieldTokens fields) = (fieldTokens fields).map .kept := by
  induction fields generalizing previous with
  | nil =>
    rw [fieldTokens, List.flatMap_nil, parts]
    rfl
  | cons name fields ih =>
    have hpoint (ts : List Token) :
        replacement? p s [] previous ⟨[], .punct, ['.']⟩ ts = none := by simp [replacement?]
    have hname (ts : List Token) :
        replacement? p s [] ['.'] ⟨[], .name, name.toList⟩ ts = none := by
      simp [replacement?, allowsReference]
    rw [fieldTokens_cons, parts_kept (hpoint _), parts_kept (hname _), ih]
    rfl

/-- **A path alone becomes the operand that stands for it**, or stays as it is. -/
theorem apply_path (hnames : ∀ name ∈ root :: fields, isVariableName name.toList ∧
    name ∉ Script.keywords) (hp : root = p.ident → fields = [] ∨ p.literal = none) :
    p.apply s (dotted root fields) =
      ((operand? p s [] (root :: fields)).map String.ofList).getD (dotted root fields) := by
  have htokens := tokenize_dotted fun name hname => (hnames name hname).1
  have hdeclared : declared (⟨[], .name, root.toList⟩ :: fieldTokens fields) = [] := by
    have hne {name word : String} (hname : name ∉ Script.keywords) (hmem : word ∈ Script.keywords) :
        name.toList ≠ word.toList := by
      intro he
      exact hname (String.toList_inj.1 he ▸ hmem)
    have hwords {name : String} (hname : name ∈ root :: fields) : name.toList ≠ "local".toList ∧
        name.toList ≠ "for".toList ∧ name.toList ≠ "function".toList := by
      obtain ⟨-, hname⟩ := hnames name hname
      exact ⟨hne hname (by decide), hne hname (by decide), hne hname (by decide)⟩
    apply declared_nothing
    refine List.forall_mem_cons.2 ⟨hwords (List.mem_cons_self ..), fun t ht => ?_⟩
    obtain ⟨name, hname, ht⟩ := List.mem_flatMap.1 ht
    obtain rfl | ht := List.mem_cons.1 ht
    · decide
    · obtain rfl := List.mem_singleton.1 ht
      exact hwords (List.mem_cons_of_mem _ hname)
  have hr := replacement?_path (s := s) hp
  have hsource := tokenize_source (dotted root fields).toList
  unfold apply
  rw [htokens] at hsource ⊢
  dsimp only at hsource ⊢
  rw [hdeclared]
  cases ho : operand? p s [] (root :: fields) with
  | none =>
    rw [ho] at hr
    have hkept : (Part.kept ⟨[], .name, root.toList⟩ :: (fieldTokens fields).map .kept).flatMap
        Part.after = (⟨[], .name, root.toList⟩ :: fieldTokens fields).flatMap Token.source := by
      simp [List.flatMap_map, Part.after]
    rw [parts_kept hr, parts_fields, hkept, hsource, String.ofList_toList]
    rfl
  | some text =>
    rw [ho] at hr
    have hlength : 2 * fields.length = (fieldTokens fields).length := by
      simp [fieldTokens, List.length_flatMap, Nat.mul_comm]
    have hwhole : replacement? p s [] [] ⟨[], .name, root.toList⟩ (fieldTokens fields ++ []) =
        some ((fieldTokens fields).length, text) := by
      rw [List.append_nil, hr, Option.map_some, hlength]
    have hparts := parts_replaced hwhole
    rw [List.append_nil, parts] at hparts
    rw [hparts]
    simp [Part.after]

/-- A hidden name that is not the parameter's stays as it is. -/
theorem apply_hidden {name : String} (hname : isVariableName name.toList)
    (hword : name ∉ Script.keywords) (hident : name ≠ p.ident) (hhidden : name ∈ s.shadowed) :
    p.apply s name = name := by
  have hpath : p.apply s (dotted name []) = _ :=
    apply_path (List.forall_mem_singleton.2 ⟨hname, hword⟩) fun _ => .inl rfl
  rw [operand?_cons p s rfl, if_neg hident, if_pos (by simpa using hhidden)] at hpath
  exact hpath

/-- The parameter's name becomes the parameter's literal. -/
theorem apply_ident (hname : isVariableName p.ident.toList) (hword : p.ident ∉ Script.keywords) :
    p.apply s p.ident = (p.literal.map fun l => String.ofList l.source).getD p.ident := by
  have hpath : p.apply s (dotted p.ident []) = _ :=
    apply_path (List.forall_mem_singleton.2 ⟨hname, hword⟩) fun _ => .inl rfl
  rw [operand?_cons p s rfl, if_pos rfl, if_pos rfl, Option.map_map] at hpath
  exact hpath

end Patch

end EnvManifest
