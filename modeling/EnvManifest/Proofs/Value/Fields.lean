import Mathlib.Data.String.Basic
import EnvManifest.Value.Basic

/-!
# Entries in order

Entries that stand in the order of their keys are given by what each key finds. So it does not
matter how entries are put together, only which entry of a key comes last.
-/

namespace EnvManifest.Fields

variable {α : Type}

/-- Entries in the order of their keys, each key once. -/
def Sorted (fields : Fields α) : Prop := fields.Pairwise (·.1 < ·.1)

/-! ## What a key finds -/

@[simp] theorem get?_nil (k : String) : get? k ([] : Fields α) = none := rfl

theorem get?_cons (k : String) (e : String × α) (fields : Fields α) :
    get? k (e :: fields) = if e.1 = k then some e.2 else get? k fields := by
  by_cases h : e.1 = k <;> simp [get?, h]

theorem get?_insert (k key : String) (value : α) (fields : Fields α) :
    get? k (insert key value fields) = if key = k then some value else get? k fields := by
  induction fields with
  | nil => rw [insert, get?_cons]
  | cons e rest ih =>
    obtain ⟨other, old⟩ := e
    rw [insert]
    split
    · rw [get?_cons]
    · split
      · rw [get?_cons, get?_cons, ih]
        grind
      · have same : key = other := by grind
        rw [get?_cons, get?_cons]
        grind

/-- The last of some entries with a key. -/
def last? (k : String) (entries : List (String × α)) : Option α :=
  (entries.reverse.find? (·.1 == k)).map (·.2)

theorem last?_append (k : String) (a b : List (String × α)) :
    last? k (a ++ b) = (last? k b).or (last? k a) := by
  rw [last?, List.reverse_append, List.find?_append]
  cases hb : b.reverse.find? (·.1 == k) <;> simp [last?, hb]

theorem last?_singleton (k : String) (e : String × α) :
    last? k [e] = if e.1 = k then some e.2 else none := by
  by_cases h : e.1 = k <;> simp [last?, h]

theorem last?_eq_none {k : String} {entries : List (String × α)} (h : k ∉ entries.map (·.1)) :
    last? k entries = none := by
  have hnone : entries.reverse.find? (·.1 == k) = none := by
    rw [List.find?_eq_none]
    intro e he hk
    exact h (List.mem_map.2 ⟨e, List.mem_reverse.1 he, beq_iff_eq.1 hk⟩)
  rw [last?, hnone]
  rfl

theorem get?_union (k : String) (a b : Fields α) :
    get? k (union a b) = (last? k b).or (get? k a) := by
  induction b generalizing a with
  | nil => rfl
  | cons e b ih =>
    rw [union, List.foldl_cons]
    change get? k (union (insert e.1 e.2 a) b) = _
    rw [ih, get?_insert, ← List.singleton_append, last?_append, last?_singleton]
    split <;> simp

theorem get?_ofList (k : String) (entries : List (String × α)) :
    get? k (ofList entries) = last? k entries := by
  rw [ofList, get?_union, get?_nil, Option.or_none]

theorem mem_keys_iff {k : String} {fields : Fields α} :
    k ∈ fields.keys ↔ ∃ v, get? k fields = some v := by
  induction fields with
  | nil => simp [keys]
  | cons e fields ih =>
    rw [get?_cons]
    simp only [keys, List.map_cons, List.mem_cons] at ih ⊢
    by_cases h : e.1 = k
    · simp [h]
    · simpa [h, Ne.symm h] using ih

/-! ## Order -/

theorem forall_insert {P : String → Prop} {key : String} {value : α} {fields : Fields α}
    (hk : P key) (hf : ∀ e ∈ fields, P e.1) : ∀ e ∈ insert key value fields, P e.1 := by
  fun_induction insert key value fields with
  | case1 => simpa using hk
  | case2 k v rest => exact List.forall_mem_cons.mpr ⟨hk, hf⟩
  | case3 k v rest _ _ ih =>
    obtain ⟨head, tail⟩ := List.forall_mem_cons.mp hf
    exact List.forall_mem_cons.mpr ⟨head, ih tail⟩
  | case4 k v rest => exact List.forall_mem_cons.mpr ⟨hk, (List.forall_mem_cons.mp hf).2⟩

theorem sorted_insert {fields : Fields α} (key : String) (value : α) (sorted : Sorted fields) :
    Sorted (insert key value fields) := by
  induction fields with
  | nil => exact List.pairwise_singleton ..
  | cons e rest ih =>
    obtain ⟨other, old⟩ := e
    obtain ⟨above, sorted'⟩ := List.pairwise_cons.mp sorted
    rw [insert]
    split
    next less =>
      refine List.pairwise_cons.mpr ⟨fun e he => ?_, sorted⟩
      rcases List.mem_cons.mp he with rfl | he
      · exact less
      · exact lt_trans less (above e he)
    next notLess =>
    split
    next greater =>
      exact List.pairwise_cons.mpr ⟨forall_insert greater above, ih sorted'⟩
    next notGreater =>
      have same : key = other := le_antisymm (not_lt.mp notGreater) (not_lt.mp notLess)
      exact List.pairwise_cons.mpr ⟨same ▸ above, sorted'⟩

theorem sorted_union {a : Fields α} (b : Fields α) (sorted : Sorted a) : Sorted (union a b) := by
  unfold union
  induction b generalizing a with
  | nil => exact sorted
  | cons e b ih => exact ih (sorted_insert e.1 e.2 sorted)

theorem sorted_ofList (entries : List (String × α)) : Sorted (ofList entries) :=
  sorted_union entries .nil

theorem get?_eq_none {k : String} {fields : Fields α} (h : ∀ e ∈ fields, k < e.1) :
    get? k fields = none := by
  induction fields with
  | nil => rfl
  | cons e fields ih =>
    obtain ⟨he, h⟩ := List.forall_mem_cons.mp h
    rw [get?_cons, if_neg he.ne', ih h]

/-- In order, entries are the same if every key finds the same. -/
theorem ext_of_sorted {a b : Fields α} (ha : Sorted a) (hb : Sorted b)
    (same : ∀ k, get? k a = get? k b) : a = b := by
  induction a generalizing b with
  | nil =>
    cases b with
    | nil => rfl
    | cons e b => simpa [get?_cons] using same e.1
  | cons d a ih =>
    cases b with
    | nil => simpa [get?_cons] using same d.1
    | cons e b =>
      obtain ⟨aboveD, sortedA⟩ := List.pairwise_cons.mp ha
      obtain ⟨aboveE, sortedB⟩ := List.pairwise_cons.mp hb
      have keys : d.1 = e.1 := by
        rcases lt_trichotomy d.1 e.1 with less | eq | greater
        · have found := same d.1
          rw [get?_cons, if_pos rfl, get?_cons, if_neg less.ne',
            get?_eq_none fun x hx => less.trans (aboveE x hx)] at found
          cases found
        · exact eq
        · have found := same e.1
          rw [get?_cons, if_neg greater.ne', get?_cons, if_pos rfl,
            get?_eq_none fun x hx => greater.trans (aboveD x hx)] at found
          cases found
      have head := same d.1
      rw [get?_cons, if_pos rfl, get?_cons, if_pos keys.symm] at head
      have entry : d = e := Prod.ext keys (Option.some.inj head)
      subst entry
      refine congrArg (d :: ·) (ih sortedA sortedB fun k => ?_)
      by_cases hk : d.1 = k
      · rw [← hk, get?_eq_none aboveD, get?_eq_none aboveE]
      · simpa [get?_cons, hk] using same k

/-! ## Putting entries together -/

theorem last?_of_sorted {k : String} {fields : Fields α} (sorted : Sorted fields) :
    last? k fields = get? k fields := by
  induction fields with
  | nil => rfl
  | cons e fields ih =>
    obtain ⟨above, sorted⟩ := List.pairwise_cons.mp sorted
    rw [← List.singleton_append, last?_append, ih sorted, List.singleton_append, get?_cons,
      last?_singleton]
    split
    next h => rw [get?_eq_none (h ▸ above), Option.none_or]
    next => rw [Option.or_none]

theorem union_ofList (a b : List (String × α)) :
    union (ofList a) (ofList b) = ofList (a ++ b) := by
  refine ext_of_sorted (sorted_union _ (sorted_ofList a)) (sorted_ofList _) fun k => ?_
  rw [get?_union, last?_of_sorted (sorted_ofList b), get?_ofList, get?_ofList, get?_ofList,
    last?_append]

theorem insert_ofList (entries : List (String × α)) (key : String) (value : α) :
    insert key value (ofList entries) = ofList (entries ++ [(key, value)]) := by
  rw [ofList, ofList, union, union, List.foldl_append]
  rfl

end EnvManifest.Fields
