import EnvManifest.Text.Split

/-!
# Lists in a text

Variables such as `PATH` hold a list as one text with a separator between the entries. Empty
entries do not count.
-/

namespace EnvManifest.PathList

open Text

/-- The entries of a text. -/
def entries (separator list : List Char) : List (List Char) :=
  (splitOn separator list).filter (!·.isEmpty)

/-- The text of entries. -/
def join (separator : List Char) (items : List (List Char)) : List Char :=
  separator.intercalate items

def without (item : List Char) (items : List (List Char)) : List (List Char) :=
  items.filter (· != item)

/-- Without the entries that occurred before. -/
def distinct (items : List (List Char)) : List (List Char) :=
  (items.foldl (fun seen e => if seen.contains e then seen else e :: seen) []).reverse

/-- The list with an entry at its start and nowhere else. -/
def prepend (separator item list : List Char) : List Char :=
  join separator (item :: without item (entries separator list))

/-- The list with an entry at its end and nowhere else. -/
def append (separator item list : List Char) : List Char :=
  join separator (without item (entries separator list) ++ [item])

def remove (separator item list : List Char) : List Char :=
  join separator (without item (entries separator list))

/-- The list with each entry once, where it occurred first. -/
def dedup (separator list : List Char) : List Char :=
  join separator (distinct (entries separator list))

end EnvManifest.PathList
