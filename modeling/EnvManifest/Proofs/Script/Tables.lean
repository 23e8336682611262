import EnvManifest.Script.Table
import Mathlib.Data.List.Pairwise

/-!
# Names and items in tables

What is written under a name is read under it. In a table that has names for keys and nothing else,
all other names keep their values. A list that does not end with `nil` has all its items.
-/

namespace EnvManifest.Script

open Text

theorem Datum.same_str {d : Datum} {k : Bytes} : d.same (.str k) = true ↔ d = .str k := by
  cases d <;> simp [Datum.same]

namespace Table

variable {t t' : Table} {k k' : Bytes} {v : Datum}

/-! ## Entries -/

/-- The value of a name among some entries, `nil` if there is none. -/
def valueIn (k : Bytes) (entries : List (Datum × Datum)) : Datum :=
  ((entries.find? (·.1.same (.str k))).map (·.2)).getD .nil

@[simp] theorem valueIn_nil (k : Bytes) : valueIn k [] = .nil := rfl

theorem same_ne {d : Datum} (h : d ≠ .str k) : d.same (.str k) = false := by
  rw [Bool.eq_false_iff]
  exact fun hs => h (Datum.same_str.1 hs)

theorem valueIn_here (k : Bytes) (d : Datum) (entries : List (Datum × Datum)) :
    valueIn k ((.str k, d) :: entries) = d := by
  unfold valueIn
  rw [List.find?_cons]
  dsimp only
  rw [Datum.same_str.2 rfl]
  rfl

theorem valueIn_past {e : Datum × Datum} (h : e.1 ≠ .str k) (entries : List (Datum × Datum)) :
    valueIn k (e :: entries) = valueIn k entries := by
  unfold valueIn
  rw [List.find?_cons_of_neg (by simp [same_ne h])]

theorem valueIn_of_absent {entries : List (Datum × Datum)} (h : ∀ e ∈ entries, e.1 ≠ .str k) :
    valueIn k entries = .nil := by
  induction entries with
  | nil => rfl
  | cons e entries ih =>
    rw [valueIn_past (h e (List.mem_cons_self ..))]
    exact ih fun e he => h e (List.mem_cons_of_mem _ he)

theorem mem_of_valueIn {entries : List (Datum × Datum)} (h : valueIn k entries ≠ .nil) :
    (.str k, valueIn k entries) ∈ entries := by
  induction entries with
  | nil => exact absurd rfl h
  | cons e entries ih =>
    obtain ⟨key, d⟩ := e
    by_cases hk : key = .str k
    · subst hk
      rw [valueIn_here]
      exact List.mem_cons_self ..
    · rw [valueIn_past (by exact hk)] at h ⊢
      exact List.mem_cons_of_mem _ (ih h)

theorem isSome_find_str (entries : List (Datum × Datum)) :
    (entries.find? (·.1.same (.str k))).isSome ↔ ∃ e ∈ entries, e.1 = .str k := by
  simp [Datum.same_str]

theorem valueIn_setEntry (k' : Bytes) {entries : List (Datum × Datum)}
    (h : ∃ e ∈ entries, e.1 = .str k) :
    valueIn k' (setEntry (.str k) v entries) = if k = k' then v else valueIn k' entries := by
  induction entries with
  | nil => simp at h
  | cons e entries ih =>
    obtain ⟨key, old⟩ := e
    rw [setEntry]
    by_cases hk : key = .str k
    · subst hk
      rw [if_pos (Datum.same_str.2 rfl)]
      by_cases hkk : k = k'
      · subst hkk
        rw [if_pos rfl, valueIn_here]
      · have hpast : Datum.str k ≠ .str k' := by simpa using hkk
        rw [if_neg hkk, valueIn_past hpast, valueIn_past hpast]
    · have hmore : ∃ e ∈ entries, e.1 = .str k := by simpa [hk] using h
      rw [same_ne hk, if_neg Bool.false_ne_true]
      by_cases hkk : key = .str k'
      · subst hkk
        have hne : k ≠ k' := by
          intro he
          exact hk (he ▸ rfl)
        rw [if_neg hne, valueIn_here, valueIn_here]
      · rw [valueIn_past hkk, valueIn_past hkk, ih hmore]

theorem setEntry_keys (entries : List (Datum × Datum)) :
    (setEntry (.str k) v entries).map (·.1) = entries.map (·.1) := by
  induction entries with
  | nil => rfl
  | cons e entries ih =>
    obtain ⟨key, old⟩ := e
    rw [setEntry]
    split
    · rfl
    · rw [List.map_cons, List.map_cons, ih]

/-! ## Reading what was written -/

theorem get_str (t : Table) (k : Bytes) : t.get (.str k) = valueIn k t.entries := rfl

/-- A name with a value is among the pairs. -/
theorem mem_pairs {d : Datum} (h : t.get (.str k) = d) (hd : d.isNil = false) :
    (.str k, d) ∈ t.pairs := by
  have hmem : (.str k, d) ∈ t.entries := by
    rw [get_str] at h
    rw [← h]
    apply mem_of_valueIn
    intro hnil
    rw [← h, hnil] at hd
    cases hd
  unfold pairs
  simp [hmem, hd]

theorem put?_str (t : Table) (k : Bytes) (v : Datum) :
    t.put? (.str k) v =
      if (t.entry? (.str k)).isSome then some { t with entries := setEntry (.str k) v t.entries }
      else if v.isNil then some t
      else if t.entries.length < t.room then some { t with entries := (.str k, v) :: t.entries }
      else none := rfl

theorem exists_entry_iff : (t.entry? (.str k)).isSome ↔ ∃ e ∈ t.entries, e.1 = .str k := by
  rw [← isSome_find_str, entry?, Option.isSome_map]

/-- What a table with a name put in holds. -/
theorem get_put? (h : t.put? (.str k) v = some t') (k' : Bytes) :
    t'.get (.str k') = if k = k' then v else t.get (.str k') := by
  rw [put?_str] at h
  rw [get_str, get_str]
  split at h
  · rename_i hsome
    obtain rfl := Option.some.inj h
    exact valueIn_setEntry k' (exists_entry_iff.1 hsome)
  · rename_i hnone
    split at h
    · rename_i hnil
      obtain rfl := Option.some.inj h
      obtain rfl : v = .nil := by
        cases v with
        | nil => rfl
        | _ => cases hnil
      have hkeys : ∀ e ∈ t.entries, e.1 ≠ .str k := by
        intro e he hk
        exact hnone (exists_entry_iff.2 ⟨e, he, hk⟩)
      by_cases hkk : k = k'
      · subst hkk
        rw [if_pos rfl, valueIn_of_absent hkeys]
      · rw [if_neg hkk]
    · split at h
      · obtain rfl := Option.some.inj h
        by_cases hkk : k = k'
        · subst hkk
          rw [if_pos rfl, valueIn_here]
        · have hpast : Datum.str k ≠ .str k' := by simpa using hkk
          rw [if_neg hkk, valueIn_past hpast]
      · cases h

theorem le_roomFor (n : Nat) : n ≤ roomFor n := by
  unfold roomFor
  split
  · omega
  · cases h : ((List.range 64).map (Nat.pow 2)).find? (n ≤ ·) with
    | none => exact Nat.le_refl n
    | some m => simpa using List.find?_some h

theorem room_reserve (items entries : Nat) : (reserve items entries).room = roomFor entries := rfl

theorem entries_reserve (items entries : Nat) : (reserve items entries).entries = [] := rfl

theorem room_arrange (t : Table) (k : Bytes) :
    (t.arrange (.str k)).entries.length < (t.arrange (.str k)).room := by
  unfold arrange
  dsimp only [listKey?, Option.any_none]
  exact le_roomFor _

/-- After an arrangement there is room for the name that it is for. -/
theorem put?_arrange (t : Table) (k : Bytes) (v : Datum) :
    ∃ t', (t.arrange (.str k)).put? (.str k) v = some t' := by
  rw [put?_str, if_pos (room_arrange t k)]
  split
  · exact ⟨_, rfl⟩
  · split <;> exact ⟨_, rfl⟩

/-- A name is put in the table as it is, or after an arrangement. -/
theorem set_str_cases (t : Table) (k : Bytes) (v : Datum) :
    t.put? (.str k) v = some (t.set (.str k) v) ∨
      (t.arrange (.str k)).put? (.str k) v = some (t.set (.str k) v) := by
  unfold set
  dsimp only [keyOf]
  cases h : t.put? (.str k) v with
  | some t' => exact .inl rfl
  | none =>
    obtain ⟨t', ht'⟩ := put?_arrange t k v
    refine .inr ?_
    dsimp only
    rw [ht']
    rfl

/-- **What is written under a name is read under it.** -/
theorem get_set_str (t : Table) (k : Bytes) (v : Datum) : (t.set (.str k) v).get (.str k) = v := by
  obtain h | h := set_str_cases t k v
  · rw [get_put? h, if_pos rfl]
  · rw [get_put? h, if_pos rfl]

/-- A new name in a table with room. -/
theorem set_fresh (hfresh : ∀ e ∈ t.entries, e.1 ≠ .str k) (hv : v ≠ .nil)
    (hroom : t.entries.length < t.room) :
    t.set (.str k) v = { t with entries := (.str k, v) :: t.entries } := by
  have hentry : (t.entry? (.str k)).isSome = false := by
    rw [Bool.eq_false_iff]
    intro hsome
    obtain ⟨e, he, hk⟩ := exists_entry_iff.1 hsome
    exact hfresh e he hk
  have hnil : v.isNil = false := by
    cases v with
    | nil => exact absurd rfl hv
    | _ => rfl
  unfold set
  dsimp only [keyOf]
  rw [put?_str, hentry, hnil, if_neg Bool.false_ne_true, if_neg Bool.false_ne_true, if_pos hroom]

theorem put?_setting (h : t.put? (.str k) v = some t') :
    t'.metatable = t.metatable ∧ t'.isList = t.isList ∧ t'.items = t.items := by
  rw [put?_str] at h
  split at h
  · obtain rfl := Option.some.inj h
    exact ⟨rfl, rfl, rfl⟩
  · split at h
    · obtain rfl := Option.some.inj h
      exact ⟨rfl, rfl, rfl⟩
    · split at h
      · obtain rfl := Option.some.inj h
        exact ⟨rfl, rfl, rfl⟩
      · cases h

@[simp] theorem metatable_set_str (t : Table) (k : Bytes) (v : Datum) :
    (t.set (.str k) v).metatable = t.metatable := by
  obtain h | h := set_str_cases t k v
  · exact (put?_setting h).1
  · exact (put?_setting h).1

@[simp] theorem isList_set_str (t : Table) (k : Bytes) (v : Datum) :
    (t.set (.str k) v).isList = t.isList := by
  obtain h | h := set_str_cases t k v
  · exact (put?_setting h).2.1
  · exact (put?_setting h).2.1

/-! ## Tables of names -/

/-- A table whose keys are names, each of which stands in it once. -/
structure OfNames (t : Table) : Prop where
  items : t.items = #[]
  names : ∀ e ∈ t.entries, ∃ k, e.1 = .str k
  distinct : (t.entries.map (·.1)).Nodup

theorem ofNames_empty (room : Nat) (metatable : Option Nat) (isList : Bool) :
    OfNames ⟨#[], [], room, metatable, isList⟩ := by
  refine ⟨rfl, ?_, List.nodup_nil⟩
  intro e he
  cases he

theorem listSize_nil : listSize [] = 0 := rfl

namespace OfNames

theorem pairs (ht : t.OfNames) : t.pairs = t.entries.reverse.filter fun e => !e.2.isNil := by
  unfold Table.pairs
  rw [ht.items]
  rfl

theorem listKeys (ht : t.OfNames) (k : Bytes) :
    ((.str k :: t.pairs.map (·.1)).filterMap listKey?) = [] := by
  rw [ht.pairs, List.filterMap_eq_nil_iff]
  intro key hkey
  obtain rfl | hkey := List.mem_cons.1 hkey
  · rfl
  · obtain ⟨e, he, rfl⟩ := List.mem_map.1 hkey
    obtain ⟨k, hk⟩ := ht.names e (List.mem_reverse.1 (List.mem_filter.1 he).1)
    rw [hk]
    rfl

theorem arrange_items (ht : t.OfNames) (k : Bytes) : (t.arrange (.str k)).items = #[] := by
  unfold Table.arrange
  dsimp only
  rw [ht.listKeys, listSize_nil]
  rfl

/-- An arrangement leaves out the names that have lost their values. -/
theorem arrange_entries (ht : t.OfNames) (k : Bytes) :
    (t.arrange (.str k)).entries = t.entries.filter fun e => !e.2.isNil := by
  unfold Table.arrange
  dsimp only
  rw [ht.pairs, List.filter_eq_self.2, ← List.filter_reverse, List.reverse_reverse]
  intro e he
  obtain ⟨k, hk⟩ := ht.names e (List.mem_reverse.1 (List.mem_filter.1 he).1)
  rw [hk]
  rfl

theorem arrange (ht : t.OfNames) (k : Bytes) : (t.arrange (.str k)).OfNames := by
  refine ⟨ht.arrange_items k, ?_, ?_⟩
  · intro e he
    rw [ht.arrange_entries] at he
    exact ht.names e (List.mem_filter.1 he).1
  · rw [ht.arrange_entries]
    exact ht.distinct.sublist ((List.filter_sublist ..).map _)

theorem get_arrange (ht : t.OfNames) (k k' : Bytes) :
    (t.arrange (.str k)).get (.str k') = t.get (.str k') := by
  rw [get_str, get_str, ht.arrange_entries]
  have hdistinct := ht.distinct
  generalize t.entries = entries at hdistinct
  induction entries with
  | nil => rfl
  | cons e entries ih =>
    obtain ⟨key, d⟩ := e
    obtain ⟨hfresh, hdistinct⟩ := List.nodup_cons.1 hdistinct
    have hrest := ih hdistinct
    by_cases hk : key = .str k'
    · subst hk
      rw [valueIn_here]
      cases d with
      | nil =>
        rw [List.filter_cons_of_neg (by simp [Datum.isNil]), hrest]
        apply valueIn_of_absent
        intro e he hk
        exact hfresh (List.mem_map.2 ⟨e, he, hk⟩)
      | _ =>
        rw [List.filter_cons_of_pos (by simp [Datum.isNil])]
        exact valueIn_here k' _ _
    · rw [valueIn_past (by exact hk), List.filter_cons]
      split
      · rw [valueIn_past (by exact hk), hrest]
      · exact hrest

theorem put? (ht : t.OfNames) (h : t.put? (.str k) v = some t') : t'.OfNames := by
  rw [put?_str] at h
  split at h
  · obtain rfl := Option.some.inj h
    refine ⟨ht.items, ?_, ?_⟩
    · intro e he
      have hkey : e.1 ∈ t.entries.map (·.1) := by
        rw [← setEntry_keys (k := k) (v := v)]
        exact List.mem_map_of_mem he
      obtain ⟨e', he', hsame⟩ := List.mem_map.1 hkey
      rw [← hsame]
      exact ht.names e' he'
    · dsimp only
      rw [setEntry_keys]
      exact ht.distinct
  · rename_i hnone
    split at h
    · obtain rfl := Option.some.inj h
      exact ht
    · split at h
      · obtain rfl := Option.some.inj h
        refine ⟨ht.items, ?_, ?_⟩
        · intro e he
          obtain rfl | he := List.mem_cons.1 he
          · exact ⟨k, rfl⟩
          · exact ht.names e he
        · rw [List.map_cons, List.nodup_cons]
          refine ⟨?_, ht.distinct⟩
          intro hmem
          obtain ⟨e, he, hk⟩ := List.mem_map.1 hmem
          exact hnone (exists_entry_iff.2 ⟨e, he, hk⟩)
      · cases h

theorem set (ht : t.OfNames) (k : Bytes) (v : Datum) : (t.set (.str k) v).OfNames := by
  obtain h | h := set_str_cases t k v
  · exact ht.put? h
  · exact (ht.arrange k).put? h

/-- Writing under a name changes exactly that name. -/
theorem get_set (ht : t.OfNames) (k k' : Bytes) (v : Datum) :
    (t.set (.str k) v).get (.str k') = if k = k' then v else t.get (.str k') := by
  obtain h | h := set_str_cases t k v
  · exact get_put? h k'
  · rw [get_put? h k', ht.get_arrange]

theorem getItem (ht : t.OfNames) (n : Nat) : t.getItem n = .nil := by
  have hplace : t.place? (.ofInt n) = none := by
    unfold Datum.ofInt place?
    dsimp only
    rw [dif_neg]
    simp [ht.items]
  have hentry : t.entry? (.ofInt n) = none := by
    unfold entry?
    rw [List.find?_eq_none.2]
    · rfl
    · intro e he
      obtain ⟨k, hk⟩ := ht.names e he
      rw [hk]
      exact Bool.false_ne_true
  unfold Table.getItem Table.get
  dsimp only
  have hkey : keyOf (.ofInt n) = .ofInt n := rfl
  rw [hkey, hplace, hentry]
  rfl

theorem length (ht : t.OfNames) : t.length = 0 := by
  unfold Table.length
  simp [ht.items, ht.getItem, Datum.isNil]

end OfNames

/-! ## Tables of items -/

/-- The table of a list of data. -/
def listed (items : List Datum) : Table := { ofItems items with isList := true }

theorem getItem_listed {items : List Datum} {i : Nat} (hi : i < items.length)
    (hlen : items.length < Word.half) : (listed items).getItem (i + 1) = items[i] := by
  unfold Word.half at hlen
  have hint : (Int64.ofInt ((i + 1 : Nat) : Int)).toInt = (i : Int) + 1 := by
    rw [Int64.toInt_ofInt_of_le] <;> omega
  have hplace : (listed items).place? (.ofInt (i + 1 : Nat)) = some ⟨i, hi⟩ := by
    unfold Datum.ofInt place?
    dsimp only
    have hindex : ((i : Int) + 1 - 1).toNat = i := by omega
    rw [dif_pos]
    · simp only [hint, hindex]
    · rw [hint, hindex]
      exact ⟨by omega, hi⟩
  unfold getItem get
  dsimp only
  have hkey : keyOf (.ofInt (i + 1 : Nat)) = .ofInt (i + 1 : Nat) := rfl
  rw [hkey, hplace]
  rfl

/-- Behind the last item comes nothing. -/
theorem getItem_past (items : List Datum) (hlen : items.length < Word.half) :
    (listed items).getItem (items.length + 1) = .nil := by
  unfold Word.half at hlen
  have hint := @Int64.toInt_ofInt ((items.length + 1 : Nat) : Int)
  have hplace : (listed items).place? (.ofInt (items.length + 1 : Nat)) = none := by
    unfold Datum.ofInt place?
    dsimp only
    rw [dif_neg]
    intro h
    have hsize : (listed items).items.size = items.length := rfl
    rw [hint, hsize, Int.bmod_def, Int64.size] at h
    split at h <;> omega
  unfold getItem get
  dsimp only
  have hkey : keyOf (.ofInt (items.length + 1 : Nat)) = .ofInt (items.length + 1 : Nat) := rfl
  rw [hkey, hplace]
  rfl

/-- A list whose last item is not `nil` has all its items. -/
theorem length_listed {items : List Datum} (hlast : items.getLast? ≠ some .nil)
    (hlen : items.length < Word.half) : (listed items).length = items.length := by
  have hsize : (listed items).items.size = items.length := rfl
  have hpast : ((listed items).getItem (items.length + 1)).isNil = true := by
    rw [getItem_past items hlen]
    rfl
  have hpresent : ¬ (0 < items.length ∧ ((listed items).getItem items.length).isNil = true) := by
    rintro ⟨hpos, hnil⟩
    obtain ⟨n, hn⟩ := Nat.exists_eq_succ_of_ne_zero (Nat.pos_iff_ne_zero.1 hpos)
    have hin : n < items.length := by omega
    rw [hn, Nat.succ_eq_add_one, getItem_listed hin hlen] at hnil
    apply hlast
    rw [List.getLast?_eq_getElem?, List.getElem?_eq_getElem (by omega)]
    have hget : items[items.length - 1] = items[n] := by
      congr 1
      omega
    rw [hget]
    cases hd : items[n] with
    | nil => rfl
    | _ =>
      rw [hd] at hnil
      cases hnil
  unfold length
  simp only [hsize, Bool.not_not]
  rw [if_neg hpresent, hpast]
  rfl

theorem items_listed {items : List Datum} (hlast : items.getLast? ≠ some .nil)
    (hlen : items.length < Word.half) :
    (List.range (listed items).length).map (fun i => (listed items).getItem (i + 1)) = items := by
  rw [length_listed hlast hlen]
  apply List.ext_getElem
  · simp
  · intro i _ hi
    rw [List.getElem_map, List.getElem_range, getItem_listed hi hlen]

end Table

end EnvManifest.Script
