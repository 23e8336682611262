import EnvManifest.Builtin.Call

/-!
# Calls with texts

What functions on paths and on lists in a text answer to arguments that are texts.
-/

namespace EnvManifest

/-- A host without variables and files. -/
def Host.inDirectory (directory : String) : Host :=
  ⟨[], "", directory, .directory [], "", "", "", "", "", 1⟩

theorem strings_map (texts : List String) : strings (texts.map .str) = texts.map String.toList := by
  rw [strings, List.filterMap_map]
  exact congrFun (List.filterMap_eq_map (f := String.toList)) texts

namespace Builtin

/-! ## Paths -/

theorem ofChars_inj {cs ds : List Char} : ofChars cs = ofChars ds ↔ cs = ds := by
  rw [ofChars, ofChars, Value.str.injEq, String.ofList_inj]

theorem call_join (h : Host) (base path : String) :
    call h .pathJoin [.str base, .str path] = .ok (ofChars (Path.join base.toList path.toList)) := by
  have first : Path.join [] base.toList = base.toList := by simp [Path.join]
  rw [← first]
  rfl

theorem call_normalize (h : Host) (path : String) :
    call h .pathNormalize [.str path] = .ok (ofChars (Path.normalize path.toList)) := rfl

theorem call_resolve (h : Host) (paths : List String) :
    call h .pathResolve (paths.map .str) = .ok (ofChars
      (Path.normalize ((paths.map String.toList).foldl Path.join h.workingDirectory.toList))) := by
  rw [← strings_map]
  rfl

/-! ## Lists in a text -/

/-- A list in a text, or null for none. -/
def listArgument (list : Option (List Char)) : Value := list.elim .null ofChars

theorem listOf_listArgument (list : Option (List Char)) (more : List Value) :
    listOf (listArgument list :: more) = .ok (list.getD []) := by
  cases list with
  | none => rfl
  | some cs => exact congrArg Except.ok String.toList_ofList

theorem separatorAt_ofChars {args : List Value} {index : Nat} {separator : List Char}
    (h : args[index]? = some (ofChars separator)) : separatorAt args index = .ok separator := by
  have text : stringAt? args index = .ok (some (String.ofList separator)) := by
    simp [stringAt?, stringAt, h, ofChars, Except.map]
  rw [separatorAt, text]
  exact congrArg Except.ok String.toList_ofList

variable (h : Host) (list : Option (List Char)) (item separator : List Char)

/-- What an operation on a list with an item answers. -/
theorem call_withItem {b : Builtin} (operation : List Char → List Char → List Char → List Char)
    (hb : ∀ args, run h args b = withItem operation args) :
    call h b [listArgument list, ofChars item, ofChars separator] =
      .ok (ofChars (operation separator item (list.getD []))) := by
  have text : stringAt [listArgument list, ofChars item, ofChars separator] 1 =
    .ok (String.ofList item) := rfl
  rw [call, hb, withItem, separatorAt_ofChars rfl, text, listOf_listArgument]
  exact congrArg (fun cs => Except.ok (ofChars (operation separator cs _))) String.toList_ofList

theorem call_dedup : call h .mungDedup [listArgument list, ofChars separator] =
    .ok (ofChars (PathList.dedup separator (list.getD []))) := by
  rw [call, run, separatorAt_ofChars rfl, listOf_listArgument]
  rfl

theorem call_split : call h .mungSplit [listArgument list, ofChars separator] =
    .ok (.list ((PathList.entries separator (list.getD [])).map ofChars)) := by
  rw [call, run, separatorAt_ofChars rfl, listOf_listArgument]
  rfl

theorem call_joinItems (items : List (List Char)) :
    call h .mungJoin [.list (items.map ofChars), ofChars separator] =
      .ok (ofChars (PathList.join separator items)) := by
  have texts : (items.map ofChars).map itemText = items := by
    rw [List.map_map]
    exact (List.map_congr_left fun cs _ => String.toList_ofList).trans (List.map_id items)
  rw [call, run, joinItems, separatorAt_ofChars rfl]
  exact congrArg (fun items => Except.ok (ofChars (PathList.join separator items))) texts

end Builtin

end EnvManifest
