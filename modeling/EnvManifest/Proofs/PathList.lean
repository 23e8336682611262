import EnvManifest.Proofs.Builtin.Calls
import EnvManifest.Proofs.Text.Split

/-!
# Operations on entries

With a separator of one character, a list in a text is as good as its entries: entries that are
joined are found again, so that each operation on the text is one on the entries.

With any other separator, entries of one list are found again when they are joined, so that it changes
nothing to drop repeated entries a second time. An item that is put beside the entries need not be found
again: it can be a list itself, and an end of it can make a separator with the start of the next one.
Then the list grows each time.
-/

namespace EnvManifest.PathList

open Text Builtin

section

variable {separator : Char}

/-! ## Entries -/

/-- Can a text be an entry? It is not empty and holds no separator. -/
structure IsEntry (separator : Char) (text : List Char) : Prop where
  nonempty : text ≠ []
  plain : separator ∉ text

theorem entries_singleton (list : List Char) :
    entries [separator] list = (list.splitOn separator).filter (!·.isEmpty) := by
  rw [entries, splitOn_singleton]

theorem isEntry_of_mem {list e : List Char} (h : e ∈ entries [separator] list) :
    IsEntry separator e := by
  rw [entries_singleton, ← splitChar_eq_splitOn, List.mem_filter] at h
  exact ⟨by simpa using h.2, not_mem_splitChar list e h.1⟩

/-- Entries that are joined are found again. -/
theorem entries_join {items : List (List Char)} (h : ∀ i ∈ items, IsEntry separator i) :
    entries [separator] (join [separator] items) = items := by
  by_cases empty : items = []
  · subst empty
    rfl
  · rw [entries_singleton, join, List.splitOn_intercalate _ (fun i hi => (h i hi).plain) empty,
      List.filter_eq_self]
    exact fun i hi => by simpa using (h i hi).nonempty

/-! ## First occurrences -/

theorem distinct_eq (items : List (List Char)) : distinct items = items.eraseDups := by
  have loop : ∀ seen, List.eraseDupsBy.loop (· == ·) items seen = (items.foldl
      (fun seen e => if seen.contains e then seen else e :: seen) seen).reverse := by
    induction items with
    | nil => exact fun seen => rfl
    | cons item items ih =>
      intro seen
      rw [List.eraseDupsBy.loop, List.foldl_cons, List.contains_eq_any_beq]
      cases seen.any (item == ·) <;> exact ih _
  exact (loop []).symm

theorem nodup_eraseDups (items : List (List Char)) : items.eraseDups.Nodup := by
  induction h : items.length using Nat.strongRecOn generalizing items with
  | ind n ih =>
    subst h
    cases items with
    | nil => exact List.nodup_nil
    | cons item items =>
      have shorter := Nat.lt_succ_of_le (List.length_filter_le (fun e => !e == item) items)
      rw [List.eraseDups_cons, List.nodup_cons]
      exact ⟨by simp, ih _ shorter _ rfl⟩

theorem eraseDups_of_nodup {items : List (List Char)} (h : items.Nodup) : items.eraseDups = items := by
  induction items with
  | nil => rfl
  | cons item items ih =>
    obtain ⟨first, rest⟩ := List.nodup_cons.mp h
    have others : items.filter (fun e => !e == item) = items := by
      rw [List.filter_eq_self]
      intro e he
      simpa using ne_of_mem_of_not_mem he first
    rw [List.eraseDups_cons, others, ih rest]

/-! ## Operations -/

theorem without_without (item : List Char) (es : List (List Char)) :
    without item (without item es) = without item es := by
  rw [without, without, List.filter_filter]
  simp

theorem without_cons_self (item : List Char) (es : List (List Char)) :
    without item (item :: es) = without item es := by simp [without]

theorem without_append (item : List Char) (es ds : List (List Char)) :
    without item (es ++ ds) = without item es ++ without item ds := List.filter_append ..

theorem isEntry_without {item : List Char} {es : List (List Char)}
    (h : ∀ e ∈ es, IsEntry separator e) : ∀ e ∈ without item es, IsEntry separator e :=
  fun e he => h e (List.mem_filter.mp he).1

/-- In front of the others an item replaces itself. -/
theorem front_twice (item : List Char) (es : List (List Char)) :
    item :: without item (item :: without item es) = item :: without item es := by
  rw [without_cons_self, without_without]

/-- So does an item behind the others. -/
theorem back_twice (item : List Char) (es : List (List Char)) :
    without item (without item es ++ [item]) ++ [item] = without item es ++ [item] := by
  have self : without item [item] = [] := without_cons_self item []
  rw [without_append, self, List.append_nil, without_without]

/-- A list splits into these entries. -/
def Splits (h : Host) (separator : Char) (list : Option (List Char)) (es : List (List Char)) : Prop :=
  call h .mungSplit [listArgument list, ofChars [separator]] = .ok (.list (es.map ofChars))

theorem splits_entries (h : Host) (separator : Char) (list : Option (List Char)) :
    Splits h separator list (entries [separator] (list.getD [])) :=
  call_split h list [separator]

/-- A function makes a list of these entries from a list, and keeps it if it is called again. -/
def Makes (h : Host) (b : Builtin) (separator : Char) (list : Option (List Char)) (more : List Value)
    (es : List (List Char)) : Prop :=
  ∃ text, call h b (listArgument list :: more) = .ok (ofChars text) ∧ Splits h separator (some text) es ∧
    call h b (listArgument (some text) :: more) = .ok (ofChars text)

/-- A function that joins the entries after a change makes a list of the changed entries. -/
theorem makes_of_change {h : Host} {b : Builtin} {more : List Value}
    {change : List (List Char) → List (List Char)}
    (hcall : ∀ list, call h b (listArgument list :: more) =
      .ok (ofChars (join [separator] (change (entries [separator] (list.getD []))))))
    (hentries : ∀ es, (∀ e ∈ es, IsEntry separator e) → ∀ e ∈ change es, IsEntry separator e)
    (twice : ∀ es, change (change es) = change es) (list : Option (List Char)) :
    Makes h b separator list more (change (entries [separator] (list.getD []))) := by
  have proper := hentries (entries [separator] (list.getD [])) fun e he => isEntry_of_mem he
  refine ⟨_, hcall list, ?_, ?_⟩
  · have found := splits_entries h separator
      (some (join [separator] (change (entries [separator] (list.getD [])))))
    rw [Option.getD_some, entries_join proper] at found
    exact found
  · rw [hcall, Option.getD_some, entries_join proper, twice]

/-- **Lists are edited by their entries.** A list splits into its parts that are not empty. With an
item that can be an entry, it is put in front of the others, behind them or taken away; repeated
entries are dropped but for the first one; each of these changes nothing the second time. Items that
can be entries are found again after they have been joined. -/
theorem lists_edited_by_entries (h : Host) (separator : Char) (list : Option (List Char))
    {item : List Char} (hitem : IsEntry separator item) {items : List (List Char)}
    (hitems : ∀ i ∈ items, IsEntry separator i) :
    ∃ es, Splits h separator list es ∧
      es = ((list.getD []).splitOn separator).filter (!·.isEmpty) ∧
      (∀ e ∈ es, IsEntry separator e) ∧
      Makes h .mungPrepend separator list [ofChars item, ofChars [separator]]
        (item :: es.filter (· != item)) ∧
      Makes h .mungAppend separator list [ofChars item, ofChars [separator]]
        (es.filter (· != item) ++ [item]) ∧
      Makes h .mungRemove separator list [ofChars item, ofChars [separator]]
        (es.filter (· != item)) ∧
      Makes h .mungDedup separator list [ofChars [separator]] es.eraseDups ∧
      es.eraseDups.Nodup ∧
      ∃ text, call h .mungJoin [.list (items.map ofChars), ofChars [separator]] = .ok (ofChars text) ∧
        Splits h separator (some text) items := by
  refine ⟨entries [separator] (list.getD []), splits_entries h separator list, entries_singleton _,
    fun e he => isEntry_of_mem he, ?_, ?_, ?_, ?_, nodup_eraseDups _, _, call_joinItems h _ items, ?_⟩
  · exact makes_of_change (fun list => call_withItem h list item [separator] prepend fun _ => rfl)
      (fun es hes => List.forall_mem_cons.mpr ⟨hitem, isEntry_without hes⟩) (front_twice item) list
  · exact makes_of_change (fun list => call_withItem h list item [separator] append fun _ => rfl)
      (fun es hes => List.forall_mem_append.mpr
        ⟨isEntry_without hes, List.forall_mem_singleton.mpr hitem⟩) (back_twice item) list
  · exact makes_of_change (fun list => call_withItem h list item [separator] remove fun _ => rfl)
      (fun es hes => isEntry_without hes) (without_without item) list
  · have joined : ∀ list, call h .mungDedup [listArgument list, ofChars [separator]] =
        .ok (ofChars (join [separator] (entries [separator] (list.getD [])).eraseDups)) := by
      intro list
      rw [call_dedup, dedup, distinct_eq]
    exact makes_of_change joined (fun es hes e he => hes e (List.mem_eraseDups.mp he))
      (fun es => eraseDups_of_nodup (nodup_eraseDups es)) list
  · have found := splits_entries h separator (some (join [separator] items))
    rw [Option.getD_some, entries_join hitems] at found
    exact found

/-- A separator at an end or beside another one makes no entry. -/
theorem search_path_edited :
    IsEntry ':' "/bin".toList ∧ (∀ i ∈ ["/a".toList, "/b".toList], IsEntry ':' i) ∧
      let host := Host.inDirectory "/"
      let list := some "/bin::/opt:/bin:".toList
      let arguments := [ofChars "/bin".toList, ofChars [':']]
      Makes host .mungPrepend ':' list arguments ["/bin".toList, "/opt".toList] ∧
      Makes host .mungAppend ':' list arguments ["/opt".toList, "/bin".toList] ∧
      Makes host .mungRemove ':' list arguments ["/opt".toList] ∧
      Makes host .mungDedup ':' list [ofChars [':']] ["/bin".toList, "/opt".toList] := by
  have entry : IsEntry ':' "/bin".toList := ⟨by decide, by decide⟩
  have others : ∀ i ∈ ["/a".toList, "/b".toList], IsEntry ':' i := by
    intro i hi
    simp only [List.mem_cons, List.not_mem_nil, or_false] at hi
    obtain rfl | rfl := hi <;> exact ⟨by decide, by decide⟩
  obtain ⟨es, -, rfl, -, front, back, rest, once, -⟩ := lists_edited_by_entries
    (Host.inDirectory "/") ':' (some "/bin::/opt:/bin:".toList) entry others
  exact ⟨entry, others, front, back, rest, once⟩

end

section

variable {separator item list : List Char}

/-! ## Joined texts -/

theorem join_cons (separator item : List Char) (es : List (List Char)) :
    join separator (item :: es) = item ++ es.flatMap (separator ++ ·) := by
  induction es generalizing item with
  | nil => simp [join]
  | cons e es ih =>
    rw [join, List.intercalate_cons_cons, List.flatMap_cons]
    change item ++ separator ++ join separator (e :: es) = _
    rw [ih, List.append_assoc, List.append_assoc]

theorem join_concat (separator item : List Char) (es : List (List Char)) :
    join separator (es ++ [item]) = es.flatMap (· ++ separator) ++ item := by
  induction es with
  | nil => simp [join]
  | cons e es ih =>
    rw [List.cons_append, join, List.intercalate_cons_of_ne_nil (by simp), List.flatMap_cons]
    change e ++ separator ++ join separator (es ++ [item]) = _
    rw [ih, List.append_assoc, List.append_assoc, List.append_assoc]

theorem flatMap_behind {es : List (List Char)} (h : es ≠ []) :
    es.flatMap (separator ++ ·) = separator ++ join separator es := by
  cases es with
  | nil => exact absurd rfl h
  | cons e es => rw [join_cons, List.flatMap_cons, List.append_assoc]

theorem flatMap_before {es : List (List Char)} (h : es ≠ []) :
    es.flatMap (· ++ separator) = join separator es ++ separator := by
  rw [← List.dropLast_concat_getLast h, join_concat, List.flatMap_append, List.flatMap_singleton,
    List.append_assoc]

/-! ## Entries of one list -/

theorem entries_nil (separator : List Char) : entries separator [] = [] := by
  rw [entries, splitOn]
  split <;> rfl

theorem entries_of_empty (list : List Char) : entries [] list = list.map ([·]) := by
  rw [entries, splitOn_nil_eq rfl, List.filter_eq_self]
  simp

/-- Entries that stand in one list are found again, in whatever order they were dropped. -/
theorem entries_join_of_sublist {es : List (List Char)} (h : es.Sublist (entries separator list)) :
    entries separator (join separator es) = es := by
  by_cases empty : separator = []
  · subst empty
    rw [entries_of_empty] at h
    obtain ⟨cs, -, rfl⟩ := List.sublist_map_iff.mp h
    have joined : join [] (cs.map ([·])) = cs := by
      cases cs with
      | nil => rfl
      | cons c cs => simp [join_cons, ← List.flatMap_def]
    rw [joined, entries_of_empty]
  · by_cases none : es = []
    · subst none
      exact entries_nil separator
    · have parts : Separable separator es :=
        (separable_splitOn empty list).sublist (h.trans List.filter_sublist)
      rw [entries, join, splitOn_intercalate_of_separable empty none parts, List.filter_eq_self]
      exact fun e he => (List.mem_filter.mp (h.subset he)).2

theorem eraseDups_sublist (items : List (List Char)) : items.eraseDups.Sublist items := by
  induction length : items.length using Nat.strongRecOn generalizing items with
  | ind n ih =>
    subst length
    cases items with
    | nil => exact .slnil
    | cons item items =>
      have shorter := Nat.lt_succ_of_le (List.length_filter_le (fun e => !e == item) items)
      rw [List.eraseDups_cons]
      exact .cons_cons item ((ih _ shorter _ rfl).trans List.filter_sublist)

/-- **Dropping repeated entries twice.** -/
theorem dedup_dedup (separator list : List Char) :
    dedup separator (dedup separator list) = dedup separator list := by
  have found : entries separator (dedup separator list) = (entries separator list).eraseDups := by
    rw [dedup, distinct_eq, entries_join_of_sublist (eraseDups_sublist _)]
  rw [dedup, found, distinct_eq, eraseDups_of_nodup (nodup_eraseDups _), dedup, distinct_eq]

/-! ## Items beside the entries -/

/-- The entries of a list but for an item. -/
def others (separator item list : List Char) : List (List Char) :=
  without item (entries separator list)

theorem prepend_eq (separator item list : List Char) :
    prepend separator item list = join separator (item :: others separator item list) := rfl

theorem append_eq (separator item list : List Char) :
    append separator item list = join separator (others separator item list ++ [item]) := rfl

theorem entries_others (separator item list : List Char) :
    entries separator (join separator (others separator item list)) = others separator item list :=
  entries_join_of_sublist List.filter_sublist

theorem others_inj {item' list' : List Char} (h : join separator (others separator item list) =
    join separator (others separator item' list')) :
    others separator item list = others separator item' list' := by
  rw [← entries_others, h, entries_others]

/-- In front of other entries, an item makes the same list only with the same entries. -/
theorem prepend_inj {list' : List Char} :
    prepend separator item list = prepend separator item list' ↔
      others separator item list = others separator item list' := by
  refine ⟨fun same => others_inj ?_, fun same => by rw [prepend_eq, same, prepend_eq]⟩
  rw [prepend_eq, prepend_eq, join_cons, join_cons, List.append_cancel_left_eq] at same
  by_cases none : others separator item list = [] <;>
    by_cases none' : others separator item list' = []
  · rw [none, none']
  · rw [none, flatMap_behind none'] at same
    rw [none]
    exact (List.append_eq_nil_iff.mp same.symm).2.symm
  · rw [none', flatMap_behind none] at same
    rw [none']
    exact (List.append_eq_nil_iff.mp same).2
  · rwa [flatMap_behind none, flatMap_behind none', List.append_cancel_left_eq] at same

/-- So does an item behind other entries. -/
theorem append_inj {list' : List Char} :
    append separator item list = append separator item list' ↔
      others separator item list = others separator item list' := by
  refine ⟨fun same => others_inj ?_, fun same => by rw [append_eq, same, append_eq]⟩
  rw [append_eq, append_eq, join_concat, join_concat, List.append_cancel_right_eq] at same
  by_cases none : others separator item list = [] <;>
    by_cases none' : others separator item list' = []
  · rw [none, none']
  · rw [none, flatMap_before none'] at same
    rw [none]
    exact (List.append_eq_nil_iff.mp same.symm).1.symm
  · rw [none', flatMap_before none] at same
    rw [none']
    exact (List.append_eq_nil_iff.mp same).1
  · rwa [flatMap_before none, flatMap_before none', List.append_cancel_right_eq] at same

/-! ## Items that are found again -/

/-- Is a text no list of other entries? It is an entry, or has none. -/
def IsSingle (separator text : List Char) : Prop := ∀ e ∈ entries separator text, e = text

instance (separator text : List Char) : Decidable (IsSingle separator text) :=
  inferInstanceAs (Decidable (∀ e ∈ entries separator text, e = text))

theorem others_self (h : IsSingle separator item) : others separator item item = [] := by
  rw [others, without, List.filter_eq_nil_iff]
  intro e he
  simp [h e he]

theorem entries_ends {text : List Char} (h : Ends separator text) (more : List Char) :
    entries separator (text ++ (separator ++ more)) =
      entries separator text ++ entries separator more := by
  rw [entries, h more, List.filter_append]
  rfl

/-- What the entries in front of a text are, if the separators between them are found. -/
theorem entries_flatMap {es : List (List Char)} (h : ∀ e ∈ es, Ends separator e) (text : List Char) :
    entries separator (es.flatMap (· ++ separator) ++ text) =
      es.flatMap (entries separator) ++ entries separator text := by
  induction es with
  | nil => rfl
  | cons e es ih =>
    obtain ⟨first, later⟩ := List.forall_mem_cons.mp h
    rw [List.flatMap_cons, List.append_assoc, List.append_assoc, entries_ends first, ih later,
      List.flatMap_cons, List.append_assoc]

theorem entries_entry {e : List Char} (h : e ∈ others separator item list) :
    entries separator e = [e] := by
  have alone := entries_join_of_sublist
    ((List.singleton_sublist.mpr h).trans (List.filter_sublist (l := entries separator list)))
  rwa [join, List.intercalate_singleton] at alone

/-- In front of other entries, an item stands apart from them if a separator behind it is found. -/
theorem others_prepend (h : IsSingle separator item)
    (apart : Ends separator item ∨ others separator item list = []) :
    others separator item (prepend separator item list) = others separator item list := by
  rw [prepend_eq, join_cons]
  by_cases none : others separator item list = []
  · rw [none, List.flatMap_nil, List.append_nil, others_self h]
  · have self : without item (entries separator item) = [] := others_self h
    rw [flatMap_behind none, others, entries_ends (apart.resolve_right none), entries_others,
      without_append, self, List.nil_append]
    exact without_without item _

/-- Separators between the entries of a list are found, and so are all of them if one behind the last
entry is. -/
theorem ends_others (last : ∀ e ∈ (others separator item list).getLast?, Ends separator e) :
    ∀ e ∈ others separator item list, Ends separator e := by
  by_cases empty : separator = []
  · subst empty
    exact fun e _ => ends_of_not_overlaps (by decide) e
  have sub : (others separator item list).Sublist (splitOn separator list) :=
    List.filter_sublist.trans List.filter_sublist
  have clear := ((separable_splitOn empty list).sublist sub).clear
  generalize others separator item list = es at last clear
  induction es with
  | nil => exact nofun
  | cons e es ih =>
    cases es with
    | nil => exact List.forall_mem_singleton.mpr (last e rfl)
    | cons e' es =>
      obtain ⟨first, later⟩ := List.pairwise_cons.mp clear
      exact List.forall_mem_cons.mpr
        ⟨(first e' (List.mem_cons_self ..)).ends empty, ih last later⟩

/-- Behind other entries, an item stands apart from them if a separator behind the last is found. -/
theorem others_append (h : IsSingle separator item)
    (last : ∀ e ∈ (others separator item list).getLast?, Ends separator e) :
    others separator item (append separator item list) = others separator item list := by
  have self : without item (entries separator item) = [] := others_self h
  have each : (others separator item list).flatMap (entries separator) =
      others separator item list := by
    rw [List.flatMap_congr fun e he => entries_entry he]
    exact List.flatMap_singleton' _
  rw [append_eq, join_concat, others, entries_flatMap (ends_others last), each, without_append,
    self, List.append_nil]
  exact without_without item _

/-! ## Calls -/

/-- A function makes a text of a list and an item. It answers the same to that text exactly if the
text still has the other entries of the list, and it has them if the item stands apart. -/
def KeepsOthers (h : Host) (b : Builtin) (separator item : List Char) (list : Option (List Char))
    (apart : Prop) : Prop :=
  ∃ text, call h b [listArgument list, ofChars item, ofChars separator] = .ok (ofChars text) ∧
    (call h b [ofChars text, ofChars item, ofChars separator] = .ok (ofChars text) ↔
      others separator item text = others separator item (list.getD [])) ∧
    (apart → others separator item text = others separator item (list.getD []))

/-- **When an operation on a list changes nothing the second time.** Dropping repeated entries
never does. Adding an item does not, at either end, exactly if the entries around it are those of
the list still. They are if the item is no list of other entries, and the separator between it and
the entry beside it is found where it was put; separators that do not overlap themselves are. -/
theorem additions_settle_iff (h : Host) (separator item : List Char) (list : Option (List Char)) :
    (∃ text, call h .mungDedup [listArgument list, ofChars separator] = .ok (ofChars text) ∧
      call h .mungDedup [ofChars text, ofChars separator] = .ok (ofChars text)) ∧
    KeepsOthers h .mungPrepend separator item list (IsSingle separator item ∧
      (Ends separator item ∨ others separator item (list.getD []) = [])) ∧
    KeepsOthers h .mungAppend separator item list (IsSingle separator item ∧
      ∀ e ∈ (others separator item (list.getD [])).getLast?, Ends separator e) ∧
    (¬ Overlaps separator → ∀ text, Ends separator text) := by
  have front := fun list => call_withItem h list item separator (b := .mungPrepend) prepend fun _ => rfl
  have back := fun list => call_withItem h list item separator (b := .mungAppend) append fun _ => rfl
  refine ⟨⟨_, call_dedup h list separator, ?_⟩, ⟨_, front list, ?_, fun apart => ?_⟩,
    ⟨_, back list, ?_, fun apart => ?_⟩, ends_of_not_overlaps⟩
  · have again := call_dedup h (some (dedup separator (list.getD []))) separator
    rwa [Option.getD_some, dedup_dedup] at again
  · have again := front (some (prepend separator item (list.getD [])))
    rw [listArgument, Option.elim_some] at again
    rw [again, Except.ok.injEq, ofChars_inj]
    exact prepend_inj
  · exact others_prepend apart.1 apart.2
  · have again := back (some (append separator item (list.getD [])))
    rw [listArgument, Option.elim_some] at again
    rw [again, Except.ok.injEq, ofChars_inj]
    exact append_inj
  · exact others_append apart.1 apart.2

theorem comma_list_settles :
    IsSingle ", ".toList "b".toList ∧ ¬ Overlaps ", ".toList ∧
      let host := Host.inDirectory "/"
      let more := [ofChars "b".toList, ofChars ", ".toList]
      call host .mungPrepend (ofChars "a, , b,c".toList :: more) = .ok (ofChars "b, a, b,c".toList) ∧
      call host .mungPrepend (ofChars "b, a, b,c".toList :: more) = .ok (ofChars "b, a, b,c".toList) := by
  have single : IsSingle ", ".toList "b".toList := by decide
  have plain : ¬ Overlaps ", ".toList := by decide
  obtain ⟨-, ⟨text, made, again, kept⟩, -, ends⟩ := additions_settle_iff (Host.inDirectory "/")
    ", ".toList "b".toList (some "a, , b,c".toList)
  obtain rfl : "b, a, b,c".toList = text := by
    rw [call_withItem _ _ _ _ prepend fun _ => rfl, Except.ok.injEq, ofChars_inj] at made
    exact made
  exact ⟨single, plain, made, again.mpr (kept ⟨single, .inl (ends plain _)⟩)⟩

/-- An item that is a list is put in front again, since none of the entries is that item. -/
theorem prepended_list_grows : ¬ ∀ (h : Host) (separator item list text : List Char),
    call h .mungPrepend [ofChars list, ofChars item, ofChars separator] = .ok (ofChars text) →
    call h .mungPrepend [ofChars text, ofChars item, ofChars separator] = .ok (ofChars text) := by
  intro settles
  have same := settles (Host.inDirectory "/") ":".toList "a:b".toList "x".toList "a:b:x".toList rfl
  have grown := call_withItem (Host.inDirectory "/") (some "a:b:x".toList) "a:b".toList ":".toList
    (b := .mungPrepend) prepend fun _ => rfl
  rw [listArgument, Option.elim_some, same, Except.ok.injEq, ofChars_inj] at grown
  exact absurd grown (by decide)

end

end EnvManifest.PathList
