import EnvManifest.Proofs.Script.Neighbours

/-!
# Headers

The lists in which names are declared, after `local`, `for` and `function`, as a reader without a
grammar meets them. Every expression is made of such lists and of tokens that declare nothing.
-/

namespace EnvManifest.Script

/-! ## Declared names -/

def Item.introduces? : Item → Option String
  | ⟨.name n, .declared⟩ => some n
  | _ => none

/-- The names that are declared. -/
def introduced (xs : List Item) : List String := xs.filterMap Item.introduces?

theorem mem_introduced {xs : List Item} {n : String} :
    n ∈ introduced xs ↔ ∃ x ∈ xs, x.introduces? = some n := List.mem_filterMap

theorem introduced_subset {xs ys : List Item} (h : xs ⊆ ys) : introduced xs ⊆ introduced ys := by
  intro n hn
  obtain ⟨x, hx, hxn⟩ := mem_introduced.1 hn
  exact mem_introduced.2 ⟨x, h hx, hxn⟩

theorem introduced_append (xs ys : List Item) :
    introduced (xs ++ ys) = introduced xs ++ introduced ys := List.filterMap_append

theorem introduced_mark (m : String) (xs : List Item) :
    introduced (.mark m :: xs) = introduced xs := rfl

theorem introduced_declared (n : String) (xs : List Item) :
    introduced (.declared n :: xs) = n :: introduced xs := rfl

theorem introduced_listed (xss : List (List Item)) :
    introduced (listed xss) = xss.flatMap introduced := by
  induction xss with
  | nil => rfl
  | cons xs more ih =>
    cases more with
    | nil => simp [listed]
    | cons ys more => rw [List.flatMap_cons, ← ih, listed, introduced_append, introduced_mark]

theorem introduced_localNames (names : List (String × Option String)) :
    introduced (localNames names) = names.map Prod.fst := by
  rw [localNames, introduced_listed, List.flatMap_map, ← List.flatMap_pure_eq_map]
  refine List.flatMap_congr fun ⟨n, a⟩ _ => ?_
  cases a <;> rfl

theorem introduced_loopNames (names : List String) : introduced (loopNames names) = names := by
  rw [loopNames, introduced_listed, List.flatMap_map]
  exact List.flatMap_singleton' names

theorem introduced_parameterList (names : List String) (varargs : Bool) :
    introduced (parameterList names varargs) = names := by
  have hclose : introduced [.mark ")"] = [] := rfl
  have hdots : (if varargs then [[Item.mark "..."]] else []).flatMap introduced = [] := by
    cases varargs <;> rfl
  rw [parameterList, parameterEntries, List.cons_append, introduced_mark, introduced_append, introduced_listed,
    List.flatMap_append, hdots, hclose, List.append_nil, List.append_nil, List.flatMap_map]
  exact List.flatMap_singleton' names

theorem listed_concat {xss : List (List Item)} (h : xss ≠ []) (x : Item) :
    listed (xss ++ [[x]]) = listed xss ++ [.mark ",", x] := by
  fun_induction listed xss with
  | case1 => exact absurd rfl h
  | case2 xs => rfl
  | case3 xs ys more ih =>
    have hmore := ih (List.cons_ne_nil _ _)
    rw [List.cons_append, List.cons_append, listed, ← List.cons_append, hmore]
    simp

theorem localNames_cons {names : List (String × Option String)} (h : names ≠ []) :
    ∃ n more, localNames names = .declared n :: more := by
  obtain ⟨⟨n, a⟩, names, rfl⟩ := List.exists_cons_of_ne_nil h
  cases names <;> cases a <;> exact ⟨n, _, rfl⟩

/-! ## Lists after a head -/

/-- The marks after which names are declared. -/
def headMarks : List String := ["local", "for", "function"]

/-- No list of names starts with the token. -/
def Item.isOther (x : Item) : Prop := ∀ m ∈ headMarks, x.token ≠ .mark m

theorem isOther_name {n : String} {x : Item} (h : x.token = .name n) : x.isOther := by
  intro m _
  rw [h]
  nofun

theorem isOther_mark {m : String} (h : m ∉ headMarks) : (Item.mark m).isOther := by
  rintro n hn ⟨⟩
  exact h hn

theorem isOther_localNames {names : List (String × Option String)} {x : Item}
    (h : x ∈ localNames names) : x.isOther := by
  have hmarks : ∀ m ∈ [",", "<", ">"], m ∉ headMarks := by decide
  obtain ⟨m, hm, rfl⟩ | ⟨n, rfl⟩ | ⟨a, rfl⟩ := mem_localNames h
  · exact isOther_mark (hmarks m hm)
  · exact isOther_name rfl
  · exact isOther_name rfl

theorem isOther_loopNames {names : List String} {x : Item} (h : x ∈ loopNames names) :
    x.isOther := by
  obtain rfl | ⟨n, rfl⟩ := mem_loopNames h
  · exact isOther_mark (by decide)
  · exact isOther_name rfl

theorem isOther_parameterList {names : List String} {varargs : Bool} {x : Item}
    (h : x ∈ parameterList names varargs) : x.isOther := by
  have hmarks : ∀ m ∈ ["(", ",", "...", ")"], m ∉ headMarks := by decide
  obtain ⟨m, hm, rfl⟩ | ⟨n, rfl⟩ := mem_parameterList h
  · exact isOther_mark (hmarks m hm)
  · exact isOther_name rfl

theorem functionPath_plain {s : List String} {n : String} {fields : List String}
    {method : Option String} {x : Item} (h : x ∈ functionPath s n fields method) :
    (x.isOther ∧ x.token ≠ .mark "(") ∧ x.introduces? = none := by
  have hpoint : (Item.mark ".").isOther ∧ (Item.mark ".").token ≠ .mark "(" := by
    simp [Item.isOther, headMarks, Item.mark]
  have hcolon : (Item.mark ":").isOther ∧ (Item.mark ":").token ≠ .mark "(" := by
    simp [Item.isOther, headMarks, Item.mark]
  have hname {x : Item} {m : String} (hx : x.token = .name m) :
      x.isOther ∧ x.token ≠ .mark "(" := by
    refine ⟨isOther_name hx, ?_⟩
    rw [hx]
    intro hmark
    cases hmark
  unfold functionPath at h
  split at h
  · rw [List.mem_singleton.1 h]
    exact ⟨hname rfl, rfl⟩
  · simp only [List.mem_append, List.mem_cons, List.mem_flatMap, List.not_mem_nil, or_false] at h
    obtain (rfl | ⟨f, -, rfl | rfl⟩) | h := h
    · exact ⟨hname rfl, rfl⟩
    · exact ⟨hpoint, rfl⟩
    · exact ⟨hname rfl, rfl⟩
    · cases method with
      | none => cases h
      | some m =>
        simp only [Option.elim_some, List.mem_cons, List.not_mem_nil, or_false] at h
        obtain rfl | rfl := h
        · exact ⟨hcolon, rfl⟩
        · exact ⟨hname rfl, rfl⟩

/-- Tokens with the names that the lists after `local`, `for` and `function` declare. -/
inductive Headed : List Item → List String → Prop
  | nil : Headed [] []
  | other {x : Item} (hx : x.isOther) (hd : x.introduces? = none) {xs : List Item}
    {names : List String} (h : Headed xs names) : Headed (x :: xs) names
  | locals {new : List (String × Option String)} (hnew : new ≠ []) {xs : List Item}
    {names : List String} (h : Headed xs names) :
    Headed (.mark "local" :: (localNames new ++ xs)) (new.map Prod.fst ++ names)
  | localFunction {n : String} {new : List String} {varargs : Bool} {xs : List Item}
    {names : List String} (h : Headed xs names) :
    Headed (.mark "local" :: .mark "function" :: .declared n :: (parameterList new varargs ++ xs))
      (n :: (new ++ names))
  | loop {new : List String} {m : String} (hm : m = "=" ∨ m = "in") {xs : List Item}
    {names : List String} (h : Headed xs names) :
    Headed (.mark "for" :: (loopNames new ++ .mark m :: xs)) (new ++ names)
  | function {path : List Item} (hpath : ∀ x ∈ path, x.isOther ∧ x.token ≠ .mark "(")
    {new : List String} {varargs : Bool} {xs : List Item} {names : List String} (h : Headed xs names) :
    Headed (.mark "function" :: (path ++ (parameterList new varargs ++ xs))) (new ++ names)

theorem Headed.append {xs ys : List Item} {ns ms : List String} (hx : Headed xs ns)
    (hy : Headed ys ms) : Headed (xs ++ ys) (ns ++ ms) := by
  induction hx with
  | nil => exact hy
  | other hx hd _ ih => exact .other hx hd ih
  | locals hnew _ ih => simpa using Headed.locals hnew ih
  | localFunction _ ih => simpa using Headed.localFunction ih
  | loop hm _ ih => simpa using Headed.loop hm ih
  | function hpath _ ih => simpa using Headed.function hpath ih

/-- No header starts in the tokens. -/
theorem headed_other {xs : List Item}
    (h : ∀ x ∈ xs, x.isOther ∧ x.introduces? = none) :
    Headed xs (introduced xs) := by
  induction xs with
  | nil => exact .nil
  | cons x xs ih =>
    have hx := h x (List.mem_cons_self ..)
    unfold introduced
    rw [List.filterMap_cons_none hx.2]
    exact .other hx.1 hx.2 (ih fun y hy => h y (List.mem_cons_of_mem _ hy))

/-! ## Where a header starts -/

/-- What stands behind a header. -/
inductive Header (names : List String) : Item → List Item → Prop
  | locals {new : List (String × Option String)} (hnew : new ≠ []) (xs : List Item) :
    Header names (.mark "local") (localNames new ++ xs)
  | localFunction {n : String} (hn : n ∈ names) (xs : List Item) :
    Header names (.mark "local") (.mark "function" :: .declared n :: xs)
  | loop {new : List String} (hnew : new ⊆ names) {m : String} (hm : m = "=" ∨ m = "in")
    (xs : List Item) : Header names (.mark "for") (loopNames new ++ .mark m :: xs)
  | function {path : List Item} (hpath : ∀ x ∈ path, x.isOther ∧ x.token ≠ .mark "(")
    {new : List String} (hnew : new ⊆ names) (varargs : Bool) (xs : List Item) :
    Header names (.mark "function") (path ++ (parameterList new varargs ++ xs))

theorem Header.mono {names names' : List String} (h : names ⊆ names') {x : Item} {xs : List Item}
    (hx : Header names x xs) : Header names' x xs := by
  cases hx with
  | locals hnew xs => exact .locals hnew xs
  | localFunction hn xs => exact .localFunction (h hn) xs
  | loop hnew hm xs => exact .loop (List.Subset.trans hnew h) hm xs
  | function hpath hnew varargs xs => exact .function hpath (List.Subset.trans hnew h) varargs xs

/-- Where a header starts: at a token, or behind others with which none starts. -/
theorem header_split {y x : Item} {us xs front back : List Item} (hus : ∀ u ∈ us, u.isOther)
    (hx : ¬x.isOther) (h : y :: (us ++ xs) = front ++ x :: back) :
    y = x ∧ us ++ xs = back ∨ ∃ front', xs = front' ++ x :: back := by
  cases front with
  | nil => exact .inl (List.cons.inj h)
  | cons a front =>
    right
    replace h := (List.cons.inj h).2
    induction us generalizing front with
    | nil => exact ⟨front, h⟩
    | cons u us ih =>
      cases front with
      | nil =>
        obtain ⟨rfl, -⟩ := List.cons.inj h
        exact absurd (hus u (List.mem_cons_self ..)) hx
      | cons a front =>
        exact ih (fun v hv => hus v (List.mem_cons_of_mem _ hv)) front (List.cons.inj h).2

theorem Headed.header {xs : List Item} {names : List String} (h : Headed xs names)
    {front back : List Item} {x : Item} (hxs : xs = front ++ x :: back) (hx : ¬x.isOther) :
    Header names x back := by
  induction h generalizing front with
  | nil => cases front <;> cases hxs
  | @other y hother hd xs names h ih =>
    obtain ⟨rfl, -⟩ | ⟨front', hxs'⟩ := header_split (List.forall_mem_nil _) hx hxs
    · exact absurd hother hx
    · exact ih hxs'
  | @locals new hnew xs names h ih =>
    obtain ⟨rfl, rfl⟩ | ⟨front', hxs'⟩ := header_split (fun u => isOther_localNames) hx hxs
    · exact .locals hnew xs
    · exact (ih hxs').mono (List.subset_append_right _ _)
  | @localFunction n new varargs xs names h ih =>
    obtain ⟨rfl, rfl⟩ | ⟨front', hxs'⟩ := header_split (List.forall_mem_nil _) hx hxs
    · exact .localFunction (List.mem_cons_self ..) _
    have hlist : ∀ u ∈ .declared n :: parameterList new varargs, u.isOther := by
      rintro u hu
      obtain rfl | hu := List.mem_cons.1 hu
      · exact isOther_name rfl
      · exact isOther_parameterList hu
    obtain ⟨rfl, rfl⟩ | ⟨front', hxs'⟩ := header_split hlist hx hxs'
    · have hsub : new ⊆ n :: (new ++ names) := fun k hk =>
        List.mem_cons_of_mem _ (List.mem_append_left _ hk)
      have hpath : ∀ x ∈ [Item.declared n], x.isOther ∧ x.token ≠ .mark "(" := by
        intro x hx
        rw [List.mem_singleton.1 hx]
        exact ⟨isOther_name rfl, nofun⟩
      exact .function hpath hsub varargs xs
    · refine (ih hxs').mono fun k hk => ?_
      exact List.mem_cons_of_mem _ (List.mem_append_right _ hk)
  | @loop new m hm xs names h ih =>
    have hlist : ∀ u ∈ loopNames new ++ [.mark m], u.isOther := by
      intro u hu
      obtain hu | hu := List.mem_append.1 hu
      · exact isOther_loopNames hu
      · rw [List.mem_singleton.1 hu]
        obtain rfl | rfl := hm
        · exact isOther_mark (by decide)
        · exact isOther_mark (by decide)
    rw [List.append_cons] at hxs
    obtain ⟨rfl, rfl⟩ | ⟨front', hxs'⟩ := header_split hlist hx hxs
    · rw [List.append_assoc]
      exact .loop (List.subset_append_left _ _) hm xs
    · exact (ih hxs').mono (List.subset_append_right _ _)
  | @function path hpath new varargs xs names h ih =>
    have hlist : ∀ u ∈ path ++ parameterList new varargs, u.isOther := by
      intro u hu
      obtain hu | hu := List.mem_append.1 hu
      · exact (hpath u hu).1
      · exact isOther_parameterList hu
    rw [← List.append_assoc] at hxs
    obtain ⟨rfl, rfl⟩ | ⟨front', hxs'⟩ := header_split hlist hx hxs
    · rw [List.append_assoc]
      exact .function hpath (List.subset_append_left _ _) varargs xs
    · exact (ih hxs').mono (List.subset_append_right _ _)

section

variable {xs back : List Item} {names : List String} {x : Item} (h : Headed xs names)
  (hs : x :: back <:+ xs)
include h hs

theorem Headed.at_head {m : String} (hx : x.token = .mark m) (hm : m ∈ headMarks) :
    Header names x back := by
  obtain ⟨front, hfront⟩ := hs
  exact h.header hfront.symm fun hother => hother m hm hx

theorem Headed.at_local (hx : x.token = .mark "local") :
    (∃ new ys, new ≠ [] ∧ back = localNames new ++ ys) ∨
      ∃ n ∈ names, ∃ ys, back = .mark "function" :: .declared n :: ys := by
  cases h.at_head hs hx (by decide) with
  | locals hnew ys => exact .inl ⟨_, ys, hnew, rfl⟩
  | localFunction hn ys => exact .inr ⟨_, hn, ys, rfl⟩
  | loop => simp [Item.mark] at hx
  | function => simp [Item.mark] at hx

theorem Headed.at_for (hx : x.token = .mark "for") :
    ∃ new ⊆ names, ∃ m ys, (m = "=" ∨ m = "in") ∧ back = loopNames new ++ .mark m :: ys := by
  cases h.at_head hs hx (by decide) with
  | loop hnew hm ys => exact ⟨_, hnew, _, ys, hm, rfl⟩
  | locals => simp [Item.mark] at hx
  | localFunction => simp [Item.mark] at hx
  | function => simp [Item.mark] at hx

theorem Headed.at_function (hx : x.token = .mark "function") :
    ∃ path, (∀ y ∈ path, y.isOther ∧ y.token ≠ .mark "(") ∧ ∃ new ⊆ names, ∃ varargs ys,
      back = path ++ (parameterList new varargs ++ ys) := by
  cases h.at_head hs hx (by decide) with
  | function hpath hnew varargs ys => exact ⟨_, hpath, _, hnew, varargs, ys, rfl⟩
  | locals => simp [Item.mark] at hx
  | localFunction => simp [Item.mark] at hx
  | loop => simp [Item.mark] at hx

end

/-! ## Productions -/

/-- Tokens that flow, with headers as they are in programs. -/
structure Orderly (xs : List Item) : Prop where
  flows : Flows xs
  headed : Headed xs (introduced xs)

theorem Orderly.nil : Orderly [] := ⟨.nil, .nil⟩

theorem Orderly.append {xs ys : List Item} (hx : Orderly xs) (hy : Orderly ys) :
    Orderly (xs ++ ys) := by
  refine ⟨hx.flows.append hy.flows, ?_⟩
  unfold introduced
  rw [List.filterMap_append]
  exact hx.headed.append hy.headed

theorem orderly_plain {xs : List Item} (h : Flows xs)
    (ho : ∀ x ∈ xs, x.isOther ∧ x.introduces? = none) : Orderly xs :=
  ⟨h, headed_other ho⟩

/-- The marks that cannot stand just anywhere. -/
def boundMarks : List String := "=" :: beforeNames ++ headMarks

theorem orderly_single {t : Token} (h : ∀ m ∈ boundMarks, t ≠ .mark m) : Orderly [⟨t, .plain⟩] := by
  simp only [boundMarks, beforeNames, headMarks, List.cons_append, List.nil_append, List.mem_cons,
    List.not_mem_nil, or_false, forall_eq_or_imp, forall_eq] at h
  refine orderly_plain ?_ ?_
  · simp [flows_iff, beforeNames, h]
  · simp [Item.isOther, headMarks, Item.introduces?, h]

theorem orderly_mark {m : String} (hm : m ∉ boundMarks) : Orderly [.mark m] := by
  refine orderly_single ?_
  rintro n hn ⟨⟩
  exact hm hn

theorem orderly_token {f : Token → Bool} (hf : ∀ m ∈ boundMarks, f (.mark m) = false) {t : Token}
    (ht : f t) : Orderly [⟨t, .plain⟩] := by
  refine orderly_single ?_
  rintro m hm rfl
  rw [hf m hm] at ht
  cases ht

/-- A mark can stand after anything but a variable. -/
theorem Orderly.mark {xs : List Item} (h : Orderly xs) (hne : xs ≠ [])
    (hlast : ∀ a ∈ xs.getLast?, a.role.isUse = false) {m : String} (hm : m ∉ beforeNames)
    (hh : m ∉ headMarks) : Orderly (xs ++ [.mark m]) := by
  refine ⟨⟨?_, fun a ha => ?_, fun a ha => ?_⟩, ?_⟩
  · refine List.isChain_append.2 ⟨h.flows.chain, .singleton _, fun a ha b hb => ?_⟩
    obtain rfl := Option.some.inj hb
    exact ⟨nofun, nofun, nofun, fun _ => hlast a ha⟩
  · rw [List.head?_append_of_ne_nil xs hne] at ha
    exact h.flows.first a ha
  · rw [List.getLast?_concat] at ha
    obtain rfl := Option.some.inj ha
    rintro n hn ⟨⟩
    exact hm hn
  · rw [introduced_append]
    refine h.headed.append (headed_other fun x hx => ?_)
    rw [List.mem_singleton.1 hx]
    refine ⟨?_, rfl⟩
    rintro n hn ⟨⟩
    exact hh hn

theorem localNames_ne_nil {names : List (String × Option String)} (h : names ≠ []) :
    localNames names ≠ [] := by
  intro hnil
  have hnames := introduced_localNames names
  rw [hnil] at hnames
  exact h (List.map_eq_nil_iff.1 hnames.symm)

theorem orderly_localNames {names : List (String × Option String)} (h : names ≠ []) :
    Orderly (.mark "local" :: localNames names) := by
  have hentry := entry_localNames names
  refine ⟨⟨hentry.follows "local" (by decide) (by decide), ?_, fun a ha => ?_⟩, ?_⟩
  · simp [Item.mark]
  · rw [List.getLast?_cons_of_ne_nil (localNames_ne_nil h)] at ha
    exact (hentry.last a ha).2
  · rw [introduced_mark, introduced_localNames]
    simpa using Headed.locals h .nil

theorem orderly_loopNames (names : List String) {m : String} (hm : m = "=" ∨ m = "in") :
    Orderly (.mark "for" :: loopNames names ++ [.mark m]) := by
  refine ⟨(entry_loopNames names).flows (by decide) ?_, ?_⟩
  · obtain rfl | rfl := hm <;> decide
  · have hlast : introduced [.mark m] = [] := rfl
    rw [List.cons_append, introduced_mark, introduced_append, introduced_loopNames, hlast]
    exact .loop hm .nil

/-- The header of a function with what stands before its parameters. -/
theorem orderly_function {path : List Item}
    (hpath : ∀ x ∈ path, x.isOther ∧ x.token ≠ .mark "(")
    (hd : introduced path = []) (h : Flows (.mark "function" :: path)) (names : List String)
    (varargs : Bool) : Orderly (.mark "function" :: path ++ parameterList names varargs) := by
  refine ⟨h.append (flows_parameterList names varargs), ?_⟩
  rw [List.cons_append, introduced_mark, introduced_append, hd, introduced_parameterList]
  have hhead : Headed (.mark "function" :: (path ++ (parameterList names varargs ++ [])))
      (names ++ []) := .function hpath .nil
  simpa using hhead

theorem orderly_localFunction (n : String) (names : List String) (varargs : Bool) :
    Orderly (.mark "local" :: .mark "function" :: .declared n :: parameterList names varargs) := by
  refine ⟨?_, ?_⟩
  · have hname : Flows [.mark "local", .mark "function", .declared n] := by
      simp [flows_iff, adjacent_iff, Item.mark, Item.declared, Role.isUse, beforeNames]
    exact hname.append (flows_parameterList names varargs)
  · rw [introduced_mark, introduced_mark, introduced_declared, introduced_parameterList]
    have hhead : Headed
        (.mark "local" :: .mark "function" :: .declared n :: (parameterList names varargs ++ []))
        (n :: (names ++ [])) := .localFunction .nil
    simpa using hhead

theorem afterTarget_mark {m : String} {next : Phrase} (h : (m, next) ∈ afterTarget) :
    m ∉ beforeNames ∧ m ∉ headMarks := by
  have : ∀ x ∈ afterTarget, x.1 ∉ beforeNames ∧ x.1 ∉ headMarks := by decide
  exact this _ h

/-- The tokens of every production are orderly. -/
theorem Rule.orderly {p : Phrase} {s : List String} {body : List Segment} (h : Rule p s body) :
    ∀ xs, .items xs ∈ body → Orderly xs := by
  cases h
  all_goals
    simp only [List.mem_cons, List.not_mem_nil, or_false, false_or, Segment.items.injEq,
      reduceCtorEq, forall_eq, forall_eq_or_imp, false_imp_iff, implies_true]
  case lambda names varargs =>
    have hflows : Flows [.mark "function"] := by simp [flows_iff, Item.mark, beforeNames]
    have hhead : Orderly (.mark "function" :: [] ++ parameterList names varargs) :=
      orderly_function (List.forall_mem_nil _) rfl hflows names varargs
    exact ⟨hhead, orderly_mark (by decide)⟩
  case literal h => exact orderly_token (by decide) h
  case unary h => exact orderly_token (f := fun t => (unary? t).isSome) (by decide) h
  case binary h => exact orderly_token (f := fun t => (infix? t).isSome) (by decide) h
  case moreFields h =>
    obtain rfl | rfl := h
    · exact orderly_mark (by decide)
    · exact orderly_mark (by decide)
  case nameTarget n m next h =>
    have hn : Orderly [.target n] := by
      refine orderly_plain ?_ ?_
      · simp [flows_iff, Item.target, beforeNames]
      · simp [Item.target, Item.isOther, Item.introduces?]
    exact hn.mark (by simp) (by simp [Item.target, Role.isUse]) (afterTarget_mark h).1
      (afterTarget_mark h).2
  case memberTarget n m next h =>
    have hn : Orderly [.mark ".", .field n] := by
      refine orderly_plain ?_ ?_
      · simp [flows_iff, adjacent_iff, Item.mark, Item.field, Role.isUse, beforeNames]
      · simp [Item.mark, Item.field, Item.isOther, headMarks, Item.introduces?]
    exact hn.mark (by simp) (by simp [Item.field, Role.isUse]) (afterTarget_mark h).1
      (afterTarget_mark h).2
  case indexTarget m next h =>
    refine ⟨orderly_mark (by decide), ?_⟩
    have hn : Orderly [.mark "]"] := orderly_mark (by decide)
    exact hn.mark (by simp) (by simp [Item.mark, Role.isUse]) (afterTarget_mark h).1
      (afterTarget_mark h).2
  case countLoop n =>
    exact ⟨orderly_loopNames [n] (.inl rfl), orderly_mark (by decide), orderly_mark (by decide),
      orderly_mark (by decide)⟩
  case eachLoop names h =>
    exact ⟨orderly_loopNames names (.inr rfl), orderly_mark (by decide), orderly_mark (by decide)⟩
  case function n fields method names varargs =>
    refine ⟨orderly_function (fun x hx => (functionPath_plain hx).1) ?_
      (flows_functionPath s n fields method) names varargs, orderly_mark (by decide)⟩
    exact List.filterMap_eq_nil_iff.2 fun x hx => (functionPath_plain hx).2
  case bareLocals names h => exact orderly_localNames h
  case locals names h =>
    refine (orderly_localNames h).mark (by simp) (fun a ha => ?_) (by decide) (by decide)
    rw [List.getLast?_cons_of_ne_nil (localNames_ne_nil h)] at ha
    exact ((entry_localNames names).last a ha).1
  case localFunction n names varargs =>
    exact ⟨orderly_localFunction n names varargs, orderly_mark (by decide)⟩
  all_goals
    and_intros
    all_goals
      refine orderly_plain ?_ ?_
      · simp [flows_iff, adjacent_iff, Item.mark, Item.field, Item.use, Item.label, Role.isUse,
          beforeNames]
      · simp [Item.mark, Item.field, Item.use, Item.label, Item.isOther, headMarks, Item.introduces?]

/-- **Every expression is orderly.** -/
theorem Expands.orderly {segments : List Segment} {xs : List Item} (h : Expands segments xs)
    (hs : ∀ ys, .items ys ∈ segments → Orderly ys) : Orderly xs :=
  h.closed .nil Orderly.append Rule.orderly hs

theorem IsExpression.orderly {xs : List Item} (h : IsExpression xs) : Orderly xs :=
  Expands.orderly h (by simp)

end EnvManifest.Script
