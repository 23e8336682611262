import EnvManifest.Proofs.Script.Renaming.Exchange
import EnvManifest.Proofs.Value.Fields
import Mathlib.Data.List.Induction

/-!
# Values read from heaps

What the engine gives has whole numbers of 64 bits, finite floats, and fields in order. A value that
is read while a scope names it does not contain the scope.
-/

namespace EnvManifest

open Text Script

/-- What the engine gives: whole numbers of 64 bits with a sign, finite floats, and fields in their
order. -/
inductive Value.Proper : Value → Prop
  | null : Proper .null
  | bool (b : Bool) : Proper (.bool b)
  | int {n : Int} {i : Int64} (h : Word.int64? n = some i) : Proper (.int n)
  | float {x : Float} (h : x.isFinite) : Proper (.float x)
  | str (s : String) : Proper (.str s)
  | list {items : List Value} (h : ∀ v ∈ items, Proper v) : Proper (.list items)
  | object {fields : List (String × Value)} (hs : Fields.Sorted fields)
    (h : ∀ e ∈ fields, Proper e.2) : Proper (.object fields)

theorem Word.int64?_toInt (n : Int64) : Word.int64? n.toInt = some n := by
  have hlow := n.le_toInt
  have hhigh := n.toInt_lt
  unfold Word.int64? Word.half
  rw [if_pos, Int64.ofInt_toInt]
  omega

theorem Fields.mem_insert {α : Type} {key : String} {value : α} {fields : Fields α}
    {e : String × α} (h : e ∈ Fields.insert key value fields) : e = (key, value) ∨ e ∈ fields := by
  fun_induction Fields.insert key value fields with
  | case1 => simpa using h
  | case2 => simpa using h
  | case3 k v rest hk hk' ih =>
    obtain rfl | h := List.mem_cons.1 h
    · exact .inr (List.mem_cons_self ..)
    · exact (ih h).imp_right (List.mem_cons_of_mem _)
  | case4 k v rest hk hk' =>
    obtain rfl | h := List.mem_cons.1 h
    · exact .inl rfl
    · exact .inr (List.mem_cons_of_mem _ h)

theorem Fields.mem_of_mem_ofList {α : Type} {entries : List (String × α)} {e : String × α}
    (h : e ∈ Fields.ofList entries) : e ∈ entries := by
  induction entries using List.reverseRecOn with
  | nil => cases h
  | append_singleton entries last ih =>
    rw [← Fields.insert_ofList] at h
    obtain rfl | h := Fields.mem_insert h
    · simp
    · exact List.mem_append_left _ (ih h)

namespace Script.Heap

/-! ## What comes out -/

theorem bind_eq_ok {α β ε : Type} {x : Except ε α} {f : α → Except ε β} {b : β} :
    x >>= f = .ok b ↔ ∃ a, x = .ok a ∧ f a = .ok b := by
  cases x with
  | ok a => simp [bind, Except.bind]
  | error e => simp [bind, Except.bind]

theorem map_eq_ok {α β ε : Type} {x : Except ε α} {f : α → β} {b : β} :
    f <$> x = .ok b ↔ ∃ a, x = .ok a ∧ f a = b := by
  cases x with
  | ok a => simp [Functor.map, Except.map]
  | error e => simp [Functor.map, Except.map]

theorem mem_of_filterMapM {α β ε : Type} {f : α → Except ε (Option β)} {as : List α} {bs : List β}
    (h : as.filterMapM f = .ok bs) : ∀ b ∈ bs, ∃ a ∈ as, f a = .ok (some b) := by
  induction as generalizing bs with
  | nil =>
    obtain rfl := Except.ok.inj h
    simp
  | cons a as ih =>
    rw [List.filterMapM_cons, bind_eq_ok] at h
    obtain ⟨found, ha, h⟩ := h
    intro b hb
    cases found with
    | none =>
      obtain ⟨a', ha', hf⟩ := ih h b hb
      exact ⟨a', List.mem_cons_of_mem _ ha', hf⟩
    | some first =>
      obtain ⟨rest, hrest, h⟩ := bind_eq_ok.1 h
      obtain rfl := Except.ok.inj h
      obtain rfl | hb := List.mem_cons.1 hb
      · exact ⟨a, List.mem_cons_self .., ha⟩
      · obtain ⟨a', ha', hf⟩ := ih hrest b hb
        exact ⟨a', List.mem_cons_of_mem _ ha', hf⟩

theorem ok_of_filterMapM {α β ε : Type} {f : α → Except ε (Option β)} {as : List α} {bs : List β}
    (h : as.filterMapM f = .ok bs) : ∀ a ∈ as, ∃ found, f a = .ok found := by
  induction as generalizing bs with
  | nil => simp
  | cons a as ih =>
    rw [List.filterMapM_cons, bind_eq_ok] at h
    obtain ⟨found, ha, h⟩ := h
    have hrest : ∃ rest, as.filterMapM f = .ok rest := by
      cases found with
      | none => exact ⟨bs, h⟩
      | some b =>
        obtain ⟨rest, hrest, -⟩ := bind_eq_ok.1 h
        exact ⟨rest, hrest⟩
    obtain ⟨rest, hrest⟩ := hrest
    intro a' ha'
    obtain rfl | ha' := List.mem_cons.1 ha'
    · exact ⟨found, ha⟩
    · exact ih hrest a' ha'

theorem filterMapM_mono {α β ε : Type} {f g : α → Except ε (Option β)} {as : List α} {bs : List β}
    (hfg : ∀ a found, f a = .ok found → g a = .ok found) (h : as.filterMapM f = .ok bs) :
    as.filterMapM g = .ok bs := by
  induction as generalizing bs with
  | nil => exact h
  | cons a as ih =>
    rw [List.filterMapM_cons, bind_eq_ok] at h ⊢
    obtain ⟨found, ha, h⟩ := h
    refine ⟨found, hfg a found ha, ?_⟩
    cases found with
    | none => exact ih h
    | some b =>
      obtain ⟨rest, hrest, h⟩ := bind_eq_ok.1 h
      exact bind_eq_ok.2 ⟨rest, ih hrest, h⟩

variable {h h' : Heap} {around : List Nat} {value value' : Datum → Except ExchangeError Value}

theorem itemWithin_ok {d : Datum} {v : Value} :
    itemWithin around value d = .ok (some v) ↔ isLeftOut around d = .ok false ∧ value d = .ok v := by
  unfold itemWithin
  rw [bind_eq_ok]
  constructor
  · rintro ⟨out, hout, hv⟩
    cases out with
    | true => cases hv
    | false =>
      obtain ⟨w, hw, hv⟩ := bind_eq_ok.1 hv
      cases hv
      exact ⟨hout, hw⟩
  · rintro ⟨hout, hv⟩
    refine ⟨false, hout, ?_⟩
    rw [hv]
    rfl

theorem fieldWithin_ok {e : Datum × Datum} {field : String × Value} :
    h.fieldWithin around value e = .ok (some field) ↔ isLeftOut around e.1 = .ok false ∧
      isLeftOut around e.2 = .ok false ∧ h.fieldKey e.1 = .ok field.1 ∧ value e.2 = .ok field.2 := by
  unfold fieldWithin
  rw [bind_eq_ok]
  constructor
  · rintro ⟨keyOut, hkeyOut, hf⟩
    obtain ⟨out, hout, hf⟩ := bind_eq_ok.1 hf
    cases hleft : keyOut || out with
    | true =>
      rw [hleft] at hf
      cases hf
    | false =>
      rw [hleft] at hf
      obtain ⟨key, hkey, hf⟩ := bind_eq_ok.1 hf
      obtain ⟨w, hw, hf⟩ := bind_eq_ok.1 hf
      rw [Bool.or_eq_false_iff] at hleft
      rw [hleft.1] at hkeyOut
      rw [hleft.2] at hout
      cases hf
      exact ⟨hkeyOut, hout, hkey, hw⟩
  · rintro ⟨hkeyOut, hout, hkey, hv⟩
    refine ⟨false, hkeyOut, ?_⟩
    rw [hout, hkey, hv]
    rfl

theorem proper_ofFloat (x : Float) : (Value.ofFloat x).Proper := by
  unfold Value.ofFloat
  split
  · exact .float ‹_›
  · exact .null

/-- What is no table is read alike in all heaps. -/
theorem valueWithin_plain {d : Datum} (hd : ∀ id, d ≠ .table id) (h h' : Heap)
    (around around' : List Nat) (fuel fuel' : Nat) :
    h.valueWithin around fuel d = h'.valueWithin around' fuel' d := by
  cases d with
  | table id => exact absurd rfl (hd id)
  | number n => cases n <;> simp [valueWithin]
  | _ => simp [valueWithin]

theorem proper_of_plain {fuel : Nat} {d : Datum} {v : Value} (hd : ∀ id, d ≠ .table id)
    (hv : h.valueWithin around fuel d = .ok v) : v.Proper := by
  cases d with
  | table id => exact absurd rfl (hd id)
  | bool b =>
    simp only [valueWithin, Except.ok.injEq] at hv
    rw [← hv]
    exact .bool b
  | number n =>
    cases n with
    | int n =>
      simp only [valueWithin, Except.ok.injEq] at hv
      rw [← hv]
      exact .int (Word.int64?_toInt n)
    | float x =>
      simp only [valueWithin, Except.ok.injEq] at hv
      rw [← hv]
      exact proper_ofFloat x
  | str bs =>
    simp only [valueWithin] at hv
    split at hv
    · obtain rfl := Except.ok.inj hv
      exact .str _
    · cases hv
  | _ =>
    simp only [valueWithin, Except.ok.injEq] at hv
    rw [← hv]
    exact .null

/-- Whatever is read from a heap is what the engine gives. -/
theorem proper_of_valueWithin {fuel : Nat} {d : Datum} {v : Value}
    (hv : h.valueWithin around fuel d = .ok v) : v.Proper := by
  induction fuel generalizing around d v with
  | zero =>
    cases d with
    | table id => simp [valueWithin] at hv
    | _ => exact proper_of_plain (by simp) hv
  | succ fuel ih =>
    cases d with
    | table id =>
      rw [valueWithin_table] at hv
      dsimp only at hv
      split at hv
      · obtain ⟨items, hitems, rfl⟩ := map_eq_ok.1 hv
        refine .list ?_
        intro v hmem
        obtain ⟨d, -, hd⟩ := mem_of_filterMapM hitems v hmem
        exact ih (itemWithin_ok.1 hd).2
      · obtain ⟨fields, hfields, rfl⟩ := map_eq_ok.1 hv
        refine .object (Fields.sorted_ofList fields) ?_
        intro field hmem
        obtain ⟨e, -, he⟩ := mem_of_filterMapM hfields field (Fields.mem_of_mem_ofList hmem)
        exact ih (fieldWithin_ok.1 he).2.2.2
    | _ => exact proper_of_plain (by simp) hv

/-! ## Values beside a scope

A value that was read while the scope named it does not contain the scope, or it would contain
itself. So it stays what it is when the scope changes. -/

theorem itemWithin_mono (hv : ∀ d v, value d = .ok v → value' d = .ok v) {d : Datum}
    {found : Option Value} (h : itemWithin around value d = .ok found) :
    itemWithin around value' d = .ok found := by
  unfold itemWithin at h ⊢
  obtain ⟨out, hout, h⟩ := bind_eq_ok.1 h
  refine bind_eq_ok.2 ⟨out, hout, ?_⟩
  cases out with
  | true => exact h
  | false =>
    obtain ⟨v, hd, h⟩ := bind_eq_ok.1 h
    exact bind_eq_ok.2 ⟨v, hv d v hd, h⟩

/-- Only strings are keys of fields, whatever the heap. -/
theorem fieldKey_mono {d : Datum} {key : String} (hk : h.fieldKey d = .ok key) :
    h'.fieldKey d = .ok key := by
  cases d with
  | table id => cases hk
  | number n =>
    cases n with
    | int n => cases hk
    | float x => cases hk
  | _ => exact hk

theorem fieldWithin_mono (hv : ∀ d v, value d = .ok v → value' d = .ok v) {e : Datum × Datum}
    {found : Option (String × Value)} (hf : h.fieldWithin around value e = .ok found) :
    h'.fieldWithin around value' e = .ok found := by
  unfold fieldWithin at hf ⊢
  obtain ⟨keyOut, hkeyOut, hf⟩ := bind_eq_ok.1 hf
  obtain ⟨out, hout, hf⟩ := bind_eq_ok.1 hf
  refine bind_eq_ok.2 ⟨keyOut, hkeyOut, bind_eq_ok.2 ⟨out, hout, ?_⟩⟩
  cases hleft : keyOut || out with
  | true =>
    rw [hleft] at hf
    exact hf
  | false =>
    rw [hleft] at hf
    obtain ⟨key, hkey, hf⟩ := bind_eq_ok.1 hf
    obtain ⟨v, hd, hf⟩ := bind_eq_ok.1 hf
    exact bind_eq_ok.2 ⟨key, fieldKey_mono hkey, bind_eq_ok.2 ⟨v, hv e.2 v hd, hf⟩⟩

/-- Reading a table that the scope names never comes to the scope. -/
theorem valueWithin_beside {scope own : Nat} (hsame : ∀ id, id ≠ scope → h'.table id = h.table id)
    (hlist : h.isList scope = false) {key : Datum}
    (hown : (key, .table own) ∈ (h.table scope).pairs) {fuel : Nat} {d : Datum} {v : Value}
    (hd : own ∈ around ∨ d = .table own) (hv : h.valueWithin around fuel d = .ok v) :
    h'.valueWithin around fuel d = .ok v := by
  induction fuel generalizing around d v with
  | zero =>
    cases d with
    | number n => cases n <;> simpa [valueWithin] using hv
    | table id => simp [valueWithin] at hv
    | _ => simpa [valueWithin] using hv
  | succ fuel ih =>
    cases d with
    | number n => cases n <;> simpa [valueWithin] using hv
    | table id =>
      have hin : own ∈ id :: around := by
        obtain hd | hd := hd
        · exact List.mem_cons_of_mem _ hd
        · rw [Datum.table.inj hd]
          exact List.mem_cons_self ..
      rw [valueWithin_table] at hv ⊢
      dsimp only at hv ⊢
      have hne : id ≠ scope := by
        rintro rfl
        -- Then the table `own` would be read again inside itself, and the reading has failed.
        rw [if_neg (by rw [hlist]; decide)] at hv
        obtain ⟨fields, hfields, -⟩ := map_eq_ok.1 hv
        obtain ⟨found, hfound⟩ := ok_of_filterMapM hfields _ hown
        unfold fieldWithin at hfound
        obtain ⟨keyOut, -, hfound⟩ := bind_eq_ok.1 hfound
        obtain ⟨out, hout, -⟩ := bind_eq_ok.1 hfound
        unfold isLeftOut at hout
        simp [hin] at hout
      have hmore : ∀ d v, h.valueWithin (id :: around) fuel d = .ok v →
          h'.valueWithin (id :: around) fuel d = .ok v := fun d v => ih (.inl hin)
      have hislist : h'.isList id = h.isList id := by
        unfold isList
        rw [hsame id hne]
      rw [hislist, hsame id hne]
      split at hv
      · rename_i hlist
        obtain ⟨items, hitems, rfl⟩ := map_eq_ok.1 hv
        rw [if_pos hlist]
        exact map_eq_ok.2 ⟨items, filterMapM_mono (fun _ _ => itemWithin_mono hmore) hitems, rfl⟩
      · rename_i hlist
        obtain ⟨fields, hfields, rfl⟩ := map_eq_ok.1 hv
        rw [if_neg hlist]
        exact map_eq_ok.2 ⟨fields, filterMapM_mono (fun _ _ => fieldWithin_mono hmore) hfields, rfl⟩
    | _ => simpa [valueWithin] using hv

/-- The value of a datum that a scope names is the same when the scope has changed. -/
theorem toValue_beside {scope : Nat} (hsize : h'.tables.size = h.tables.size)
    (hsame : ∀ id, id ≠ scope → h'.table id = h.table id) (hlist : h.isList scope = false)
    {key d : Datum} {v : Value} (hown : ∀ own, d = .table own → (key, d) ∈ (h.table scope).pairs)
    (hv : h.toValue d = .ok v) : h'.toValue d = .ok v := by
  unfold toValue at hv ⊢
  rw [hsize]
  by_cases hd : ∃ own, d = .table own
  · obtain ⟨own, rfl⟩ := hd
    exact valueWithin_beside hsame hlist (hown own rfl) (.inr rfl) hv
  · rw [← hv]
    exact valueWithin_plain (fun id hid => hd ⟨id, hid⟩) _ _ _ _ _ _

end Script.Heap

end EnvManifest
