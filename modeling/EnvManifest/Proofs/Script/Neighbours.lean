import EnvManifest.Proofs.Script.Grammar
import Mathlib.Data.List.Chain
import Mathlib.Tactic.MkIffOfInductiveProp

/-!
# Neighbours

Which tokens of an expression stand next to each other. A variable that is used never stands behind
a point, a colon, `local` or `goto`, and `=` never behind it.
-/

namespace EnvManifest.Script

def Role.isUse : Role → Bool
  | .use _ => true
  | _ => false

/-- The marks that end before no variable. -/
def beforeNames : List String := [".", ":", "local", "goto"]

/-- Can two tokens stand one after the other? -/
@[mk_iff] structure Adjacent (a b : Item) : Prop where
  use : b.role.isUse → ∀ m ∈ beforeNames, a.token ≠ .mark m
  declared : b.role = .declared → a.token ≠ .mark "." ∧ a.token ≠ .mark "<"
  attrib : b.role = .attrib → a.token = .mark "<"
  assigned : b.token = .mark "=" → a.role.isUse = false

/-- Tokens that can stand one after the other, also after others and before others. -/
@[mk_iff] structure Flows (xs : List Item) : Prop where
  chain : xs.IsChain Adjacent
  first : ∀ a ∈ xs.head?, a.token ≠ .mark "=" ∧ a.role ≠ .declared ∧ a.role ≠ .attrib
  last : ∀ a ∈ xs.getLast?, ∀ m ∈ beforeNames, a.token ≠ .mark m

theorem Flows.nil : Flows [] := ⟨.nil, nofun, nofun⟩

theorem Flows.append {xs ys : List Item} (hx : Flows xs) (hy : Flows ys) : Flows (xs ++ ys) := by
  refine ⟨List.isChain_append.2 ⟨hx.chain, hy.chain, fun a ha b hb => ?_⟩, fun a ha => ?_,
    fun a ha => ?_⟩
  · obtain ⟨hequals, hdeclared, hattrib⟩ := hy.first b hb
    exact ⟨fun _ => hx.last a ha, fun h => absurd h hdeclared, fun h => absurd h hattrib,
      fun h => absurd h hequals⟩
  · rw [List.head?_append] at ha
    cases hn : xs.head? with
    | none => exact hy.first a (by simpa [hn] using ha)
    | some b => exact hx.first a (by simpa [hn] using ha)
  · rw [List.getLast?_append] at ha
    cases hn : ys.getLast? with
    | none => exact hx.last a (by simpa [hn] using ha)
    | some b => exact hy.last a (by simpa [hn] using ha)

/-! ## Lists of names -/

theorem adjacent_mark (a : Item) {m : String} (hm : m ≠ "=") : Adjacent a (.mark m) :=
  ⟨nofun, nofun, nofun, fun h => absurd (Token.mark.inj h) hm⟩

/-- What can stand between commas in a list of names. -/
structure Entry (xs : List Item) : Prop where
  follows : ∀ m, m ≠ "." → m ≠ "<" → (.mark m :: xs).IsChain Adjacent
  last : ∀ a ∈ xs.getLast?, a.role.isUse = false ∧ ∀ m ∈ beforeNames, a.token ≠ .mark m

theorem entry_declared (n : String) : Entry [.declared n] := by
  refine ⟨fun m hpoint hless => ?_, ?_⟩
  · rw [List.isChain_pair]
    refine ⟨nofun, fun _ => ⟨?_, ?_⟩, nofun, nofun⟩ <;> simpa [Item.mark]
  · simp [Item.declared, Role.isUse]

theorem entry_localName (x : String × Option String) : Entry (localName x) := by
  obtain ⟨n, attrib | a⟩ := x
  · exact entry_declared n
  · refine ⟨fun m hpoint hless => ?_, ?_⟩
    · have hn := (entry_declared n).follows m hpoint hless
      refine List.isChain_cons_cons.2 ⟨List.isChain_pair.1 hn, ?_⟩
      simp only [List.isChain_cons_cons, List.isChain_singleton, and_true]
      exact ⟨adjacent_mark _ (by decide), ⟨nofun, nofun, fun _ => rfl, nofun⟩,
        adjacent_mark _ (by decide)⟩
    · simp [localName, Item.mark, Role.isUse, beforeNames]

theorem entry_dots : Entry [.mark "..."] := by
  refine ⟨fun m _ _ => ?_, ?_⟩
  · rw [List.isChain_pair]
    exact adjacent_mark _ (by decide)
  · simp [Item.mark, Role.isUse, beforeNames]

theorem entry_listed {xss : List (List Item)} (h : ∀ xs ∈ xss, Entry xs) : Entry (listed xss) := by
  induction xss with
  | nil => exact ⟨fun m _ _ => .singleton _, nofun⟩
  | cons xs more ih =>
    have hxs := h xs (List.mem_cons_self ..)
    have hmore := ih fun ys hy => h ys (List.mem_cons_of_mem _ hy)
    cases more with
    | nil => exact hxs
    | cons ys more =>
      refine ⟨fun m hpoint hless => ?_, fun a ha => ?_⟩
      · refine List.isChain_append.2 ⟨hxs.follows m hpoint hless,
          hmore.follows "," (by decide) (by decide), fun a _ b hb => ?_⟩
        obtain rfl := Option.some.inj hb
        exact adjacent_mark a (by decide)
      · rw [listed, List.getLast?_append, List.getLast?_cons] at ha
        cases hl : (listed (ys :: more)).getLast? with
        | none =>
          obtain rfl : Item.mark "," = a := by simpa [hl] using ha
          exact ⟨rfl, by simp [Item.mark, beforeNames]⟩
        | some b => exact hmore.last a (by simpa [hl] using ha)

theorem entry_localNames (names : List (String × Option String)) : Entry (localNames names) := by
  refine entry_listed fun xs hxs => ?_
  obtain ⟨x, -, rfl⟩ := List.mem_map.1 hxs
  exact entry_localName x

theorem entry_loopNames (names : List String) : Entry (loopNames names) := by
  refine entry_listed fun xs hxs => ?_
  obtain ⟨n, -, rfl⟩ := List.mem_map.1 hxs
  exact entry_declared n

/-- A header of names that ends in a mark. -/
theorem Entry.flows {xs : List Item} (h : Entry xs) {m k : String} (hm : m ∉ [".", "<", "="])
    (hk : k ∉ beforeNames) : Flows (.mark m :: xs ++ [.mark k]) := by
  simp only [List.mem_cons, List.not_mem_nil, or_false, not_or] at hm
  refine ⟨?_, ?_, ?_⟩
  · refine List.isChain_append.2 ⟨h.follows m hm.1 hm.2.1, .singleton _, fun a ha b hb => ?_⟩
    obtain rfl := Option.some.inj hb
    refine ⟨nofun, nofun, nofun, fun _ => ?_⟩
    rw [List.getLast?_cons] at ha
    cases hl : xs.getLast? with
    | none =>
      obtain rfl : Item.mark m = a := by simpa [hl] using ha
      rfl
    | some c => exact (h.last a (by simpa [hl] using ha)).1
  · simp [Item.mark, hm]
  · rintro a ha n hn
    rw [List.getLast?_concat] at ha
    obtain rfl := Option.some.inj ha
    rintro ⟨⟩
    exact hk hn

theorem flows_parameterList (names : List String) (varargs : Bool) :
    Flows (parameterList names varargs) := by
  refine Entry.flows (entry_listed fun xs hxs => ?_) (by decide) (by decide)
  obtain ⟨n, rfl⟩ | rfl := mem_parameterEntries hxs
  · exact entry_declared n
  · exact entry_dots

/-! ## The path of a function -/

theorem flows_fields (fields : List String) :
    Flows (fields.flatMap fun f => [.mark ".", .field f]) := by
  induction fields with
  | nil => exact .nil
  | cons f fields ih =>
    refine Flows.append ?_ ih
    simp [flows_iff, adjacent_iff, Item.mark, Item.field, Role.isUse, beforeNames]

theorem flows_functionPath (s : List String) (n : String) (fields : List String)
    (method : Option String) : Flows (.mark "function" :: functionPath s n fields method) := by
  unfold functionPath
  split
  · simp [flows_iff, adjacent_iff, Item.mark, Item.target, Role.isUse, beforeNames]
  · have hroot : Flows [.mark "function", .use s n] := by
      simp [flows_iff, adjacent_iff, Item.mark, Item.use, Role.isUse, beforeNames]
    have hmethod : Flows (method.elim [] fun m => [.mark ":", .field m]) := by
      cases method with
      | none => exact .nil
      | some m => simp [flows_iff, adjacent_iff, Item.mark, Item.field, Role.isUse, beforeNames]
    exact (hroot.append (flows_fields fields)).append hmethod

end EnvManifest.Script
