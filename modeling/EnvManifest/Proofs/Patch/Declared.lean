import EnvManifest.Proofs.Patch.Runs

/-!
# Declared names

What a scan for declared names finds. It misses a declaration only if a `function` stands right behind
a list of local names, and what it finds is declared somewhere or stands right behind such a list.
-/

namespace EnvManifest.Patch

open Script (Item Headed Adjacent introduced introduced_loopNames introduced_subset
  headMarks localNames localNames_cons loopNames parameterList)

/-! ## The scan, header by header -/

theorem declared_other {t : Token} (h : ∀ m ∈ headMarks, t.text ≠ m.toList)
    (ts : List Token) : declared (t :: ts) = declared ts := by
  rw [declared, if_neg (h "local" (by decide)), if_neg (h "for" (by decide)),
    if_neg (h "function" (by decide))]

theorem declared_localFunction {t : Token} (ht : t.text = "local".toList) {ts : List Token}
    {names : List (List Char)} (h : functionName? ts = some names) :
    declared (t :: ts) = names ++ declared ts := by
  rw [declared, if_pos ht, h]

theorem declared_local {t : Token} (ht : t.text = "local".toList) {ts : List Token}
    (h : functionName? ts = none) :
    declared (t :: ts) =
      namesOf (nameRun true ts) ++ declared (ts.drop (nameRun true ts).length) := by
  rw [declared, if_pos ht, h]

theorem declared_for {t : Token} (ht : t.text = "for".toList) (ts : List Token) :
    declared (t :: ts) =
      namesOf (nameRun true ts) ++ declared (ts.drop (nameRun true ts).length) := by
  rw [declared, if_neg (by rw [ht]; decide), if_pos ht]

theorem declared_function {t : Token} (ht : t.text = "function".toList) {ts more : List Token}
    (h : afterParen ts = some more) :
    declared (t :: ts) =
      namesOf (nameRun false more) ++ declared (more.drop (nameRun false more).length) := by
  rw [declared, if_neg (by rw [ht]; decide), if_neg (by rw [ht]; decide), if_pos ht]
  split
  · rename_i hnone
    rw [h] at hnone
    cases hnone
  · rename_i more' hsome
    rw [h] at hsome
    rw [Option.some.inj hsome]

theorem localNames_head {names : List (String × Option String)} (h : names ≠ []) {xs : List Item} :
    ∀ y ∈ (localNames names ++ xs).head?, y.token ≠ .mark "function" := by
  obtain ⟨n, more, hnames⟩ := localNames_cons h
  rw [hnames]
  rintro y hy
  obtain rfl := Option.some.inj hy
  nofun

theorem functionName?_localNames {names : List (String × Option String)} (h : names ≠ [])
    {xs : List Item} {ts : List Token} (hts : Show ts (localNames names ++ xs)) :
    functionName? ts = none := by
  obtain ⟨n, more, hnames⟩ := localNames_cons h
  rw [hnames] at hts
  obtain ⟨f, ts, hf, -, rfl⟩ := List.forall₂_cons_right_iff.1 hts
  have hfunction : f.text ≠ "function".toList := by
    rw [Ne, hf.mark "function" (by decide)]
    nofun
  cases ts with
  | nil => exact if_neg hfunction
  | cons => exact if_neg hfunction

/-! ## Declarations that are found -/

/-- One step of the scan over `ts`, which shows `xs`: some names are found, and the scan goes on at a
later place, where the others are still declared. -/
def Advances (ts : List Token) (xs : List Item) (names : List String) : Prop :=
  ∃ found ts' ys names', declared ts = found ++ declared ts' ∧ ts'.length < ts.length ∧
    Show ts' ys ∧ ys <:+ xs ∧ Headed ys names' ∧ ∀ n ∈ names, n.toList ∈ found ∨ n ∈ names'

/-- A step that reads a run, which starts at `ts'` behind the words of the header. -/
theorem advances_run {b : Bool} {ts ts' : List Token} {xs ys : List Item} {names names' : List String}
    (hscan : declared ts = namesOf (nameRun b ts') ++ declared (ts'.drop (nameRun b ts').length))
    (hlength : ts'.length < ts.length) (h : Show ts' ys) (hs : ys <:+ xs) (hc : xs.IsChain Adjacent)
    (hy : Headed (ys.dropWhile (goesOn b)) names')
    (hnames : ∀ n ∈ names, n ∈ introduced (ys.takeWhile (goesOn b)) ∨ n ∈ names') :
    Advances ts xs names := by
  refine ⟨_, _, _, names', hscan, ?_, (show_nameRun h b).2,
    (List.dropWhile_suffix (goesOn b)).trans hs, hy,
    fun n hn => (hnames n hn).imp_left (mem_run h (hc.suffix hs) b)⟩
  rw [List.length_drop]
  omega

section

variable {ts : List Token} {xs : List Item} {names : List String}

theorem advances_other {x : Item} (hother : x.isOther) (h : Show ts (x :: xs))
    (hx : Headed xs names) : Advances ts (x :: xs) names := by
  obtain ⟨t, ts, ht, hts, rfl⟩ := List.forall₂_cons_right_iff.1 h
  have htext : ∀ m ∈ headMarks, t.text ≠ m.toList := by
    have hwatched : ∀ m ∈ headMarks, m ∈ watched := by decide
    exact fun m hm => mt (ht.mark m (hwatched m hm)).1 (hother m hm)
  exact ⟨[], ts, xs, names, declared_other htext ts, Nat.lt_succ_self _, hts,
    List.suffix_cons _ _, hx, fun n hn => .inr hn⟩

/-- The run behind `local` holds no `function`, which would be swept. -/
theorem advances_locals {new : List (String × Option String)} (hnew : new ≠ [])
    (h : Show ts (.mark "local" :: (localNames new ++ xs)))
    (hc : (Item.mark "local" :: (localNames new ++ xs)).IsChain Adjacent)
    (hswept : "function" ∉ swept (.mark "local" :: (localNames new ++ xs))) (hx : Headed xs names) :
    Advances ts (.mark "local" :: (localNames new ++ xs)) (new.map Prod.fst ++ names) := by
  obtain ⟨t, ts, ht, hts, rfl⟩ := List.forall₂_cons_right_iff.1 h
  have hlocal := (ht.mark "local" (by decide)).2 rfl
  have hrun : ∀ x ∈ xs.takeWhile (goesOn true), x.token ≠ .mark "function" := by
    intro x hx hfunction
    refine hswept ?_
    rw [swept_local rfl (localNames_head hnew)]
    refine List.mem_append_left _ (mem_otherWords.2 ⟨x, ?_, otherWord?_function hfunction⟩)
    rw [List.takeWhile_append_of_pos fun x hx => goesOn_localNames true hx]
    exact List.mem_append_right _ hx
  obtain ⟨names', hx', hnames⟩ := (Headed.behind hx hrun).localNames new
  exact advances_run (declared_local hlocal (functionName?_localNames hnew hts))
    (Nat.lt_succ_self _) hts (List.suffix_cons _ _) hc hx' hnames

/-- The name of a local function is found first. Its parameters are left to the step at `function`. -/
theorem advances_localFunction {n : String} {new : List String} {varargs : Bool}
    (h : Show ts (.mark "local" :: .mark "function" :: .declared n ::
      (parameterList new varargs ++ xs))) (hx : Headed xs names) :
    Advances ts (.mark "local" :: .mark "function" :: .declared n :: (parameterList new varargs ++ xs))
      (n :: (new ++ names)) := by
  obtain ⟨t, ts, ht, hts, rfl⟩ := List.forall₂_cons_right_iff.1 h
  obtain ⟨f, ts', hf, hts', rfl⟩ := List.forall₂_cons_right_iff.1 hts
  obtain ⟨name, more, hname, -, rfl⟩ := List.forall₂_cons_right_iff.1 hts'
  have hlocal := (ht.mark "local" (by decide)).2 rfl
  have hfunction := (hf.mark "function" (by decide)).2 rfl
  obtain ⟨hkind, htext⟩ := (hname.word n).2 rfl
  have hfound : functionName? (f :: name :: more) = some [n.toList] := by
    rw [functionName?, if_pos hfunction, if_pos hkind, htext]
  have hrest : Headed (.mark "function" :: ([.declared n] ++ (parameterList new varargs ++ xs)))
      (new ++ names) := .function (by simp [Item.declared, Item.isOther]) hx
  refine ⟨_, _, _, _, declared_localFunction hlocal hfound, Nat.lt_succ_self _, hts,
    List.suffix_cons _ _, hrest, fun m hm => (List.mem_cons.1 hm).imp_left ?_⟩
  rintro rfl
  exact List.mem_singleton_self _

theorem advances_loop {new : List String} {m : String} (hm : m = "=" ∨ m = "in")
    (h : Show ts (.mark "for" :: (loopNames new ++ .mark m :: xs)))
    (hc : (Item.mark "for" :: (loopNames new ++ .mark m :: xs)).IsChain Adjacent)
    (hx : Headed xs names) :
    Advances ts (.mark "for" :: (loopNames new ++ .mark m :: xs)) (new ++ names) := by
  obtain ⟨t, ts, ht, hts, rfl⟩ := List.forall₂_cons_right_iff.1 h
  obtain ⟨names', hx', hnames⟩ := Behind.loop hm hx new
  exact advances_run (declared_for ((ht.mark "for" (by decide)).2 rfl) ts) (Nat.lt_succ_self _) hts
    (List.suffix_cons _ _) hc hx' hnames

theorem advances_function {path : List Item} (hpath : ∀ x ∈ path, x.isOther ∧ x.token ≠ .mark "(")
    {new : List String} {varargs : Bool}
    (h : Show ts (.mark "function" :: (path ++ (parameterList new varargs ++ xs))))
    (hc : (Item.mark "function" :: (path ++ (parameterList new varargs ++ xs))).IsChain Adjacent)
    (hx : Headed xs names) :
    Advances ts (.mark "function" :: (path ++ (parameterList new varargs ++ xs))) (new ++ names) := by
  obtain ⟨t, ts, ht, hts, rfl⟩ := List.forall₂_cons_right_iff.1 h
  obtain ⟨front, y, back, hlist, hfront, hy, hnew, -, hback⟩ := parameterList_run new varargs xs
  rw [hlist] at hts
  obtain ⟨more, hmore, hshow⟩ := afterParen_show hpath hts
  obtain ⟨htake, hdrop⟩ := run_stop hfront hy back
  refine advances_run (declared_function ((ht.mark "function" (by decide)).2 rfl) hmore)
    (Nat.lt_succ_of_lt (length_afterParen hmore)) hshow ?_ hc (by rw [hdrop]; exact hback _ hx) ?_
  · rw [hlist]
    exact ⟨.mark "function" :: (path ++ [.mark "("]), by simp⟩
  · intro n hn
    rw [htake, hnew]
    exact List.mem_append.1 hn

/-- The scan advances at each header. -/
theorem advances (h : Show ts xs) (hx : Headed xs names) (hc : xs.IsChain Adjacent)
    (hswept : "function" ∉ swept xs) : names = [] ∨ Advances ts xs names := by
  cases hx with
  | nil => exact .inl rfl
  | other hother hd hx => exact .inr (advances_other hother h hx)
  | locals hnew hx => exact .inr (advances_locals hnew h hc hswept hx)
  | localFunction hx => exact .inr (advances_localFunction h hx)
  | loop hm hx => exact .inr (advances_loop hm h hc hx)
  | function hpath hx => exact .inr (advances_function hpath h hc hx)

/-- Every declared name is found, unless a `function` stands behind a list of local names. -/
theorem mem_declared (h : Show ts xs) (hx : Headed xs names) (hc : xs.IsChain Adjacent)
    (hswept : "function" ∉ swept xs) {n : String} (hn : n ∈ names) : n.toList ∈ declared ts := by
  induction hlength : ts.length using Nat.strongRecOn generalizing ts xs names with
  | _ k ih =>
    subst hlength
    obtain rfl | ⟨found, ts', ys, names', hscan, hlt, hshow, hs, hy, hnames⟩ :=
      advances h hx hc hswept
    · cases hn
    rw [hscan]
    refine List.mem_append.2 ((hnames n hn).imp_right fun hn => ?_)
    exact ih _ hlt hshow hy (hc.suffix hs) (mt (swept_suffix hs) hswept) hn rfl

end

/-! ## What is found -/

section

variable {ts : List Token} {x : Item} {ys all : List Item} {text : List Char} (h : Show ts ys)
  (hs : x :: ys <:+ all) (hall : Headed all (introduced all)) (hc : all.IsChain Adjacent)
include h hs hall hc

omit hall in
/-- A run behind `local` holds declared names and what is swept. -/
theorem of_mem_locals (hx : x.token = .mark "local")
    (hf : ∀ y ∈ ys.head?, y.token ≠ .mark "function") (ht : text ∈ namesOf (nameRun true ts)) :
    ∃ n, text = n.toList ∧ (n ∈ introduced all ∨ n ∈ swept all) := by
  obtain ⟨n, rfl, hn⟩ := of_mem_run h (hc.suffix hs) (by simp [hx]) ht
  refine ⟨n, rfl, hn.imp (fun hn => ?_) fun hn => ?_⟩
  · have hrun : ys.takeWhile (goesOn true) ⊆ all := List.Subset.trans
      (List.takeWhile_prefix (goesOn true)).subset ((List.suffix_cons x ys).trans hs).subset
    exact introduced_subset hrun hn
  · refine swept_suffix hs ?_
    rw [swept_local hx hf]
    exact List.mem_append_left _ hn

/-- A run behind `for` holds declared names. -/
theorem of_mem_for (hx : x.token = .mark "for") (ht : text ∈ namesOf (nameRun true ts)) :
    ∃ n, text = n.toList ∧ n ∈ introduced all := by
  obtain ⟨new, hnew, m, zs, hm, rfl⟩ := hall.at_for hs hx
  obtain ⟨n, hn, rfl⟩ := of_mem_list h (hc.suffix hs) (by simp [hx])
    (fun x hx => goesOn_loopNames true hx) (loopStop hm .nil).1 (otherWords_loopNames new) ht
  rw [introduced_loopNames] at hn
  exact ⟨n, rfl, hnew hn⟩

omit hc in
theorem of_mem_localFunction (hx : x.token = .mark "local") {names : List (List Char)}
    (hfound : functionName? ts = some names) (ht : text ∈ names) :
    ∃ n, text = n.toList ∧ n ∈ introduced all := by
  obtain ⟨new, zs, hnew, rfl⟩ | ⟨n, hn, zs, rfl⟩ := hall.at_local hs hx
  · rw [functionName?_localNames hnew h] at hfound
    cases hfound
  · obtain ⟨f, ts', hf, hts', rfl⟩ := List.forall₂_cons_right_iff.1 h
    obtain ⟨name, more, hname, -, rfl⟩ := List.forall₂_cons_right_iff.1 hts'
    obtain ⟨hkind, htext⟩ := (hname.word n).2 rfl
    rw [functionName?, if_pos ((hf.mark "function" (by decide)).2 rfl), if_pos hkind] at hfound
    cases hfound
    rw [List.mem_singleton.1 ht, htext]
    exact ⟨n, rfl, hn⟩

/-- A run behind the parenthesis of a function holds declared names. -/
theorem of_mem_parameters (hx : x.token = .mark "function") {more : List Token}
    (hmore : afterParen ts = some more) :
    ∃ zs, Show more zs ∧ zs <:+ all ∧ ∀ text ∈ namesOf (nameRun false more),
      ∃ n, text = n.toList ∧ n ∈ introduced all := by
  obtain ⟨path, hpath, new, hnew, varargs, ws, rfl⟩ := hall.at_function hs hx
  obtain ⟨front, y, back, hlist, hfront, hy, hnames, ho, -⟩ := parameterList_run new varargs ws
  rw [hlist] at h hs
  obtain ⟨more', hmore', hshow⟩ := afterParen_show hpath h
  obtain rfl := Option.some.inj (hmore.symm.trans hmore')
  have hparen : .mark "(" :: (front ++ y :: back) <:+ all := List.IsSuffix.trans ⟨x :: path, rfl⟩ hs
  refine ⟨_, hshow, (List.suffix_cons _ _).trans hparen, fun text ht => ?_⟩
  obtain ⟨n, hn, rfl⟩ :=
    of_mem_list hshow (hc.suffix hparen) (by simp [Item.mark]) hfront hy ho ht
  rw [hnames] at hn
  exact ⟨n, rfl, hnew hn⟩

end

/-- No function is declared here, so the names go on to the end of a run. -/
theorem not_function_of_none {ts : List Token} {ys : List Item} (h : Show ts ys)
    (hnone : functionName? ts = none) : ∀ y ∈ ys.head?, y.token ≠ .mark "function" := by
  intro y hy hfunction
  obtain ⟨zs, rfl⟩ := List.head?_eq_some_iff.1 hy
  obtain ⟨f, ts', hf, -, rfl⟩ := List.forall₂_cons_right_iff.1 h
  have htext := (hf.mark "function" (by decide)).2 hfunction
  cases ts' <;> simp [functionName?, htext] at hnone

/-- What a rewriter finds is declared somewhere, or stands behind a list of local names. -/
theorem of_mem_declared {ts : List Token} {xs all : List Item} (h : Show ts xs) (hs : xs <:+ all)
    (hall : Headed all (introduced all)) (hc : all.IsChain Adjacent) {text : List Char}
    (ht : text ∈ declared ts) :
    ∃ n, text = n.toList ∧ (n ∈ introduced all ∨ n ∈ swept all) := by
  -- A run is followed by a suffix, where the scan goes on.
  have hbehind {b : Bool} {ts : List Token} {ys : List Item} (h : Show ts ys) (hs : ys <:+ all) :
      Show (ts.drop (nameRun b ts).length) (ys.dropWhile (goesOn b)) ∧
        ys.dropWhile (goesOn b) <:+ all :=
    ⟨(show_nameRun h b).2, (List.dropWhile_suffix _).trans hs⟩
  have hfound {text : List Char} (h : ∃ n, text = n.toList ∧ n ∈ introduced all) :
      ∃ n, text = n.toList ∧ (n ∈ introduced all ∨ n ∈ swept all) :=
    h.imp fun n hn => ⟨hn.1, .inl hn.2⟩
  fun_induction declared ts generalizing xs with
  | case1 => cases ht
  | case2 t ts hlocal found hname ih =>
    obtain ⟨x, ys, hx, hys, rfl⟩ := List.forall₂_cons_left_iff.1 h
    have hmark := (hx.mark "local" (by decide)).1 hlocal
    obtain hrun | hrest := List.mem_append.1 ht
    · exact hfound (of_mem_localFunction hys hs hall hmark hname hrun)
    · exact ih hys ((List.suffix_cons x ys).trans hs) hrest
  | case3 t ts hlocal hnone run =>
    rename_i ih
    obtain ⟨x, ys, hx, hys, rfl⟩ := List.forall₂_cons_left_iff.1 h
    have hmark := (hx.mark "local" (by decide)).1 hlocal
    obtain ⟨hrest, hsuffix⟩ := hbehind hys ((List.suffix_cons x ys).trans hs)
    obtain hrun | hmem := List.mem_append.1 ht
    · exact of_mem_locals hys hs hc hmark (not_function_of_none hys hnone) hrun
    · exact ih hrest hsuffix hmem
  | case4 t ts hlocal hfor run =>
    rename_i ih
    obtain ⟨x, ys, hx, hys, rfl⟩ := List.forall₂_cons_left_iff.1 h
    have hmark := (hx.mark "for" (by decide)).1 hfor
    obtain ⟨hrest, hsuffix⟩ := hbehind hys ((List.suffix_cons x ys).trans hs)
    obtain hrun | hmem := List.mem_append.1 ht
    · exact hfound (of_mem_for hys hs hall hc hmark hrun)
    · exact ih hrest hsuffix hmem
  | case5 => cases ht
  | case6 t ts hlocal hfor hfunction more hmore run =>
    rename_i ih
    obtain ⟨x, ys, hx, hys, rfl⟩ := List.forall₂_cons_left_iff.1 h
    have hmark := (hx.mark "function" (by decide)).1 hfunction
    obtain ⟨zs, hshow, hzs, hnames⟩ := of_mem_parameters hys hs hall hc hmark hmore
    obtain ⟨hrest, hsuffix⟩ := hbehind hshow hzs
    obtain hrun | hmem := List.mem_append.1 ht
    · exact hfound (hnames text hrun)
    · exact ih hrest hsuffix hmem
  | case7 t ts hlocal hfor hfunction ih =>
    obtain ⟨x, ys, hx, hys, rfl⟩ := List.forall₂_cons_left_iff.1 h
    exact ih hys ((List.suffix_cons x ys).trans hs) ht

end EnvManifest.Patch
