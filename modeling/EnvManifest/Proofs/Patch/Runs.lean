import EnvManifest.Proofs.Patch.Showing
import EnvManifest.Proofs.Script.Headers

/-!
# Runs of names

A rewriter takes the names up to a token that is no name, no comma and no angle bracket for one list.
That is all of the list, and what stands behind a list of local names without values.
-/

namespace EnvManifest.Patch

open Script (Item Headed Adjacent introduced introduced_append introduced_localNames
  introduced_loopNames isOther_mark listed_concat localNames loopNames mem_introduced mem_localNames
  mem_loopNames parameterEntries parameterList)

/-- Does a list of names go on with the token, for a rewriter? -/
def goesOn (endsAtIn : Bool) (x : Item) : Bool :=
  !(endsAtIn && x.token.isMark "in") &&
    ((word? x.token).isSome || x.token.isMark "," || x.token.isMark "<" || x.token.isMark ">")

/-- The word of a token that is no declared name and no attribute. -/
def otherWord? (x : Item) : Option String :=
  match x.role, x.token with
  | .declared, .name _ => none
  | .attrib, .name _ => none
  | _, u => word? u

def otherWords (run : List Item) : List String := run.filterMap otherWord?

theorem mem_otherWords {xs : List Item} {n : String} :
    n ∈ otherWords xs ↔ ∃ x ∈ xs, otherWord? x = some n := List.mem_filterMap

theorem otherWord?_function {x : Item} (h : x.token = .mark "function") :
    otherWord? x = some "function" := by
  obtain ⟨u, role⟩ := x
  cases h
  cases role <;> rfl

/-- The words that stand behind a list of local names without values. A rewriter takes them for
names of the list. -/
def swept : List Item → List String
  | [] => []
  | x :: xs =>
    if x.token.isMark "local" && !xs.head?.any (·.token.isMark "function") then
      otherWords (xs.takeWhile (goesOn true)) ++ swept xs
    else swept xs

theorem swept_local {x : Item} (hx : x.token = .mark "local") {xs : List Item}
    (hf : ∀ y ∈ xs.head?, y.token ≠ .mark "function") :
    swept (x :: xs) = otherWords (xs.takeWhile (goesOn true)) ++ swept xs := by
  have hhead : xs.head?.any (·.token.isMark "function") = false := by
    cases xs with
    | nil => rfl
    | cons y xs => exact Bool.eq_false_iff.2 fun h => hf y rfl (Script.isMark_eq h)
  rw [swept, hx, hhead]
  rfl

theorem swept_suffix {xs ys : List Item} (h : xs <:+ ys) {n : String} (hn : n ∈ swept xs) :
    n ∈ swept ys := by
  obtain ⟨front, rfl⟩ := h
  induction front with
  | nil => exact hn
  | cons x front ih =>
    rw [List.cons_append, swept]
    split
    · exact List.mem_append_right _ ih
    · exact ih

theorem show_nameRun {ts : List Token} {xs : List Item} (h : Show ts xs) (b : Bool) :
    Show (nameRun b ts) (xs.takeWhile (goesOn b)) ∧
      Show (ts.drop (nameRun b ts).length) (xs.dropWhile (goesOn b)) := by
  unfold nameRun
  rw [Text.drop_takeWhile]
  refine forall₂_run (fun t x htx => ?_) h
  have hmark {m : String} (hm : m ∈ watched) := htx.isMark hm
  have hin := hmark (m := "in") (by decide)
  have hcomma := hmark (m := ",") (by decide)
  have hless := hmark (m := "<") (by decide)
  have hmore := hmark (m := ">") (by decide)
  unfold goesOn
  rw [← hin, ← hcomma, ← hless, ← hmore, ← htx.isWord]
  rfl

/-! ## Names in runs -/

/-- The names of a list after a token. -/
def namesAfter (previous : List Char) (run : List Token) : List (List Char) :=
  ((run.zip (previous :: run.map (·.text))).filter fun (t, previous) =>
    t.kind == .name && previous != ['<']).map (·.1.text)

theorem namesOf_eq (run : List Token) : namesOf run = namesAfter [] run := rfl

theorem namesAfter_cons (previous : List Char) (t : Token) (run : List Token) :
    namesAfter previous (t :: run) =
      (if t.kind == .name && previous != ['<'] then [t.text] else []) ++ namesAfter t.text run := by
  unfold namesAfter
  rw [List.map_cons, List.zip_cons_cons, List.filter_cons]
  dsimp only
  split
  · rfl
  · rfl

theorem introduces?_some {x : Item} {n : String} (h : x.introduces? = some n) :
    x.role = .declared ∧ word? x.token = some n := by
  unfold Item.introduces? at h
  split at h
  · cases h
    exact ⟨rfl, rfl⟩
  · cases h

theorem mem_namesAfter {previous : List Char} {ts : List Token} {xs : List Item} (h : Show ts xs)
    (hc : xs.IsChain Adjacent)
    (hf : ∀ a ∈ xs.head?, a.role = .declared → previous ≠ ['<']) {n : String}
    (hn : n ∈ introduced xs) : n.toList ∈ namesAfter previous ts := by
  induction h generalizing previous with
  | nil => cases hn
  | @cons t x ts xs htx h ih =>
    rw [namesAfter_cons, List.mem_append]
    obtain ⟨y, hy, hyn⟩ := List.mem_filterMap.1 hn
    obtain rfl | hy := List.mem_cons.1 hy
    · obtain ⟨hrole, hword⟩ := introduces?_some hyn
      obtain ⟨hkind, htext⟩ := (htx.word n).2 hword
      have hprevious := hf _ rfl hrole
      left
      simp [hkind, htext, hprevious]
    · right
      refine ih hc.tail (fun a ha hrole => ?_) (List.mem_filterMap.2 ⟨y, hy, hyn⟩)
      obtain ⟨more, rfl⟩ := List.head?_eq_some_iff.1 ha
      have hless := ((List.isChain_cons_cons.1 hc).1.declared hrole).2
      exact mt (htx.mark "<" (by decide)).1 hless

theorem mem_run {ts : List Token} {xs : List Item} (h : Show ts xs) (hc : xs.IsChain Adjacent)
    (b : Bool) {n : String} (hn : n ∈ introduced (xs.takeWhile (goesOn b))) :
    n.toList ∈ namesOf (nameRun b ts) := by
  rw [namesOf_eq]
  refine mem_namesAfter (show_nameRun h b).1 ?_ ?_ hn
  · exact hc.prefix (List.takeWhile_prefix _)
  · exact fun _ _ _ => by decide

theorem word?_some {x : Item} {n : String} (h : word? x.token = some n) :
    x.introduces? = some n ∨ x.role = .attrib ∨ otherWord? x = some n := by
  obtain ⟨u, role⟩ := x
  unfold otherWord?
  dsimp only at h ⊢
  split
  · exact .inl h
  · exact .inr (.inl rfl)
  · exact .inr (.inr h)

theorem of_mem_namesAfter {previous : List Char} {ts : List Token} {xs : List Item}
    (h : Show ts xs) (hc : xs.IsChain Adjacent)
    (hf : ∀ a ∈ xs.head?, a.role = .attrib → previous = ['<']) {text : List Char}
    (ht : text ∈ namesAfter previous ts) :
    ∃ n, text = n.toList ∧ (n ∈ introduced xs ∨ n ∈ otherWords xs) := by
  induction h generalizing previous with
  | nil => cases ht
  | @cons t x ts xs htx h ih =>
    rw [namesAfter_cons, List.mem_append] at ht
    simp only [mem_introduced, mem_otherWords, List.exists_mem_cons_iff]
    obtain ht | ht := ht
    · split at ht
      · rename_i hname
        simp only [Bool.and_eq_true, beq_iff_eq, bne_iff_ne] at hname
        obtain rfl := List.mem_singleton.1 ht
        have hword := (htx.word (String.ofList t.text)).1 ⟨hname.1, String.toList_ofList.symm⟩
        refine ⟨String.ofList t.text, String.toList_ofList.symm, ?_⟩
        obtain hi | hrole | ho := word?_some hword
        · exact .inl (.inl hi)
        · exact absurd (hf x rfl hrole) hname.2
        · exact .inr (.inl ho)
      · cases ht
    · have hnext : ∀ a ∈ xs.head?, a.role = .attrib → t.text = ['<'] := by
        intro a ha hrole
        obtain ⟨more, rfl⟩ := List.head?_eq_some_iff.1 ha
        exact (htx.mark "<" (by decide)).2 ((List.isChain_cons_cons.1 hc).1.attrib hrole)
      obtain ⟨n, rfl, hn⟩ := ih hc.tail hnext ht
      rw [mem_introduced, mem_otherWords] at hn
      exact ⟨n, rfl, hn.imp .inr .inr⟩

theorem of_mem_run {ts : List Token} {x : Item} {xs : List Item} (h : Show ts xs)
    (hc : (x :: xs).IsChain Adjacent) (hx : x.token ≠ .mark "<") {b : Bool} {text : List Char}
    (ht : text ∈ namesOf (nameRun b ts)) :
    ∃ n, text = n.toList ∧ (n ∈ introduced (xs.takeWhile (goesOn b)) ∨
      n ∈ otherWords (xs.takeWhile (goesOn b))) := by
  rw [namesOf_eq] at ht
  have hrun : (xs.takeWhile (goesOn b)).IsChain Adjacent :=
    hc.tail.prefix (List.takeWhile_prefix _)
  refine of_mem_namesAfter (show_nameRun h b).1 hrun ?_ ht
  intro a ha hattrib
  obtain ⟨more, hrun⟩ := List.head?_eq_some_iff.1 ha
  obtain ⟨rest, rfl⟩ : a :: more <+: xs := hrun ▸ List.takeWhile_prefix _
  exact absurd ((List.isChain_cons_cons.1 hc).1.attrib hattrib) hx

/-- A run of names ends where it cannot go on. -/
theorem run_stop {b : Bool} {front : List Item} (hfront : ∀ x ∈ front, goesOn b x) {x : Item}
    (hx : goesOn b x = false) (xs : List Item) :
    (front ++ x :: xs).takeWhile (goesOn b) = front ∧
      (front ++ x :: xs).dropWhile (goesOn b) = x :: xs := by
  rw [List.takeWhile_append_of_pos hfront, List.dropWhile_append_of_pos hfront,
    List.takeWhile_cons_of_neg (by rw [hx]; decide), List.dropWhile_cons_of_neg (by rw [hx]; decide),
    List.append_nil]
  exact ⟨rfl, rfl⟩

/-- A list in which names are declared holds no others. -/
theorem of_mem_list {ts : List Token} {x y : Item} {front back : List Item}
    (h : Show ts (front ++ y :: back)) (hc : (x :: (front ++ y :: back)).IsChain Adjacent)
    (hx : x.token ≠ .mark "<") {b : Bool} (hfront : ∀ z ∈ front, goesOn b z)
    (hy : goesOn b y = false) (ho : otherWords front = []) {text : List Char}
    (ht : text ∈ namesOf (nameRun b ts)) : ∃ n ∈ introduced front, text = n.toList := by
  obtain ⟨n, rfl, hn⟩ := of_mem_run h hc hx ht
  rw [(run_stop hfront hy back).1, ho] at hn
  obtain hn | hn := hn
  · exact ⟨n, hn, rfl⟩
  · cases hn

/-! ## Behind a list -/

theorem goesOn_comma (b : Bool) : goesOn b (.mark ",") := by cases b <;> rfl

theorem goesOn_localNames {names : List (String × Option String)} {x : Item} (b : Bool)
    (h : x ∈ localNames names) : goesOn b x := by
  have hmarks : ∀ m ∈ [",", "<", ">"], goesOn b (.mark m) := by cases b <;> decide
  obtain ⟨m, hm, rfl⟩ | ⟨n, rfl⟩ | ⟨a, rfl⟩ := mem_localNames h
  · exact hmarks m hm
  · cases b <;> rfl
  · cases b <;> rfl

theorem goesOn_loopNames {names : List String} {x : Item} (b : Bool) (h : x ∈ loopNames names) :
    goesOn b x := by
  obtain rfl | ⟨n, rfl⟩ := mem_loopNames h
  · exact goesOn_comma b
  · cases b <;> rfl

theorem otherWords_loopNames (names : List String) : otherWords (loopNames names) = [] := by
  refine List.filterMap_eq_nil_iff.2 fun x hx => ?_
  obtain rfl | ⟨n, rfl⟩ := mem_loopNames hx <;> rfl

/-- What stands behind a run of names has headers again, and all names are there or in the run. -/
def Behind (xs : List Item) (names : List String) : Prop :=
  ∃ names', Headed (xs.dropWhile (goesOn true)) names' ∧
    ∀ n ∈ names, n ∈ introduced (xs.takeWhile (goesOn true)) ∨ n ∈ names'

theorem Behind.cons {xs : List Item} {names : List String} (h : Behind xs names) {x : Item}
    (hx : goesOn true x) (hd : x.introduces? = none) : Behind (x :: xs) names := by
  unfold Behind introduced
  rwa [List.dropWhile_cons_of_pos hx, List.takeWhile_cons_of_pos hx, List.filterMap_cons_none hd]

theorem Behind.localNames {xs : List Item} {names : List String} (h : Behind xs names)
    (new : List (String × Option String)) :
    Behind (localNames new ++ xs) (new.map Prod.fst ++ names) := by
  obtain ⟨names', hnames', hall⟩ := h
  unfold Behind
  rw [List.dropWhile_append_of_pos fun x hx => goesOn_localNames true hx,
    List.takeWhile_append_of_pos fun x hx => goesOn_localNames true hx, introduced_append,
    introduced_localNames]
  refine ⟨names', hnames', fun n hn => ?_⟩
  rw [List.mem_append] at hn ⊢
  obtain hn | hn := hn
  · exact .inl (.inl hn)
  · exact (hall n hn).imp_left .inr

theorem Behind.stop {x : Item} {xs : List Item} {names : List String} (h : Headed (x :: xs) names)
    (hx : goesOn true x = false) : Behind (x :: xs) names := by
  unfold Behind
  rw [List.dropWhile_cons_of_neg (by rw [hx]; decide)]
  exact ⟨names, h, fun n hn => .inr hn⟩

theorem loopStop {m : String} (hm : m = "=" ∨ m = "in") {xs : List Item} {names : List String}
    (h : Headed xs names) : goesOn true (.mark m) = false ∧ Headed (.mark m :: xs) names := by
  obtain rfl | rfl := hm
  · exact ⟨rfl, .other (isOther_mark (by decide)) rfl h⟩
  · exact ⟨rfl, .other (isOther_mark (by decide)) rfl h⟩

theorem Behind.loop {m : String} (hm : m = "=" ∨ m = "in") {xs : List Item} {names : List String}
    (h : Headed xs names) (new : List String) :
    Behind (loopNames new ++ .mark m :: xs) (new ++ names) := by
  obtain ⟨hstop, hhead⟩ := loopStop hm h
  obtain ⟨htake, hdrop⟩ := run_stop (fun x hx => goesOn_loopNames true hx) hstop xs
  unfold Behind
  rw [htake, hdrop, introduced_loopNames]
  exact ⟨names, hhead, fun n hn => List.mem_append.1 hn⟩

/-- No function starts in a run of names. -/
theorem Headed.behind {xs : List Item} {names : List String} (h : Headed xs names)
    (hrun : ∀ x ∈ xs.takeWhile (goesOn true), x.token ≠ .mark "function") : Behind xs names := by
  induction h with
  | nil => exact ⟨[], .nil, nofun⟩
  | @other x hx hd xs names h ih =>
    cases hgo : goesOn true x with
    | false => exact .stop (.other hx hd h) hgo
    | true =>
      rw [List.takeWhile_cons_of_pos hgo] at hrun
      exact (ih fun y hy => hrun y (List.mem_cons_of_mem _ hy)).cons hgo hd
  | @locals new hnew xs names h ih =>
    rw [List.takeWhile_cons_of_pos rfl,
      List.takeWhile_append_of_pos fun x hx => goesOn_localNames true hx] at hrun
    refine Behind.cons (Behind.localNames (ih fun y hy => ?_) new) rfl rfl
    exact hrun y (List.mem_cons_of_mem _ (List.mem_append_right _ hy))
  | localFunction h ih =>
    exact absurd rfl (hrun _ (List.mem_cons_of_mem _ (List.mem_cons_self ..)))
  | @loop new m hm xs names h ih => exact (Behind.loop hm h new).cons rfl rfl
  | function hpath h ih => exact absurd rfl (hrun _ (List.mem_cons_self ..))

/-! ## Parameters -/

/-- The names of parameters are a run, and the end of the list is behind it. -/
theorem parameterList_run (new : List String) (varargs : Bool) (xs : List Item) :
    ∃ front y back, parameterList new varargs ++ xs = .mark "(" :: (front ++ y :: back) ∧
      (∀ x ∈ front, goesOn false x) ∧ goesOn false y = false ∧ introduced front = new ∧
      otherWords front = [] ∧ ∀ names, Headed xs names → Headed (y :: back) names := by
  have hclose {names : List String} (h : Headed xs names) : Headed (.mark ")" :: xs) names :=
    .other (isOther_mark (by decide)) rfl h
  have hdots {names : List String} (h : Headed xs names) :
      Headed (.mark "..." :: .mark ")" :: xs) names :=
    .other (isOther_mark (by decide)) rfl (hclose h)
  unfold parameterList parameterEntries
  cases varargs with
  | false =>
    refine ⟨loopNames new, .mark ")", xs, ?_, fun x hx => goesOn_loopNames false hx, rfl,
      introduced_loopNames new, otherWords_loopNames new, fun _ => hclose⟩
    simp [loopNames]
  | true =>
    by_cases hnew : new = []
    · subst hnew
      exact ⟨[], .mark "...", .mark ")" :: xs, rfl, fun x hx => absurd hx List.not_mem_nil, rfl,
        rfl, rfl, fun _ => hdots⟩
    · refine ⟨loopNames new ++ [.mark ","], .mark "...", .mark ")" :: xs, ?_, fun x hx => ?_, rfl,
        ?_, ?_, fun _ => hdots⟩
      · rw [if_pos rfl, listed_concat (by simpa using hnew)]
        simp [loopNames]
      · obtain hx | hx := List.mem_append.1 hx
        · exact goesOn_loopNames false hx
        · rw [List.mem_singleton.1 hx]
          exact goesOn_comma false
      · rw [introduced_append, introduced_loopNames]
        exact List.append_nil _
      · unfold otherWords
        rw [List.filterMap_append]
        exact List.append_eq_nil_iff.2 ⟨otherWords_loopNames new, rfl⟩

/-- A rewriter finds the parameters behind the next parenthesis. -/
theorem afterParen_show {ts : List Token} {path xs : List Item}
    (hpath : ∀ x ∈ path, x.isOther ∧ x.token ≠ .mark "(") (h : Show ts (path ++ .mark "(" :: xs)) :
    ∃ more, afterParen ts = some more ∧ Show more xs := by
  have hparen (t : Token) (x : Item) (htx : Shows t x.token) :
      (t.text != ['(']) = !x.token.isMark "(" := by
    rw [← htx.isMark (m := "(") (by decide)]
    rfl
  have hdrop := (forall₂_run hparen h).2
  rw [List.dropWhile_append_of_pos, List.dropWhile_cons_of_neg] at hdrop
  · obtain ⟨t, more, -, hmore, ht⟩ := List.forall₂_cons_right_iff.1 hdrop
    refine ⟨more, ?_, hmore⟩
    rw [afterParen, ht]
  · decide
  · intro x hx
    rw [Bool.not_eq_true']
    exact Bool.eq_false_iff.2 fun h => (hpath x hx).2 (Script.isMark_eq h)

end EnvManifest.Patch
