import SourceTree.Value

/-!
Tables under construction. A table is opened by a header at most once, and dotted keys neither
reopen a table that has a header nor add to one that exists only because a header names something
inside it.
-/

namespace SourceTree.Toml

inductive Origin where
  | header
  /-- A header names something inside the table. -/
  | outer
  | dotted
  deriving DecidableEq, Repr

/-- What a key stands for. -/
inductive Item where
  | value (v : Value)
  | table (origin : Origin) (entries : List (String × Item))
  /-- Tables under one key, latest first. -/
  | tables (last : List (String × Item)) (earlier : List (List (String × Item)))

abbrev Entries := List (String × Item)

namespace Item

mutual

def toValue : Item → Value
  | value v => v
  | table _ entries => .object (entriesValue entries)
  | tables last earlier => .list (tablesValue earlier ++ [.object (entriesValue last)])

def entriesValue : List (String × Item) → List (String × Value)
  | [] => []
  | (key, item) :: rest => (key, toValue item) :: entriesValue rest

/-- The values of tables that are given latest first. -/
def tablesValue : List (List (String × Item)) → List Value
  | [] => []
  | entries :: earlier => tablesValue earlier ++ [.object (entriesValue entries)]

end

end Item

namespace Entries

def get? (entries : Entries) (key : String) : Option Item := List.lookup key entries

/-- Puts an item under a key, in place of the one that was there. -/
def put (key : String) (item : Item) : Entries → Entries
  | [] => [(key, item)]
  | (k, old) :: rest => if k = key then (key, item) :: rest else (k, old) :: put key item rest

def add? (key : String) (v : Value) (entries : Entries) : Option Entries :=
  match entries.get? key with
  | none => some (entries.put key (.value v))
  | some _ => none

/-- Changes the table at the end of a path. Tables on the way that are missing are made. -/
def changeAt? (dotted : Bool) (change : Origin → Entries → Option Entries) :
    List String → Origin → Entries → Option Entries
  | [], origin, entries => change origin entries
  | key :: path, _, entries => do
    let item ← match entries.get? key with
      | none =>
        let origin := if dotted then Origin.dotted else .outer
        pure (.table origin (← changeAt? dotted change path origin []))
      | some (.value _) => none
      | some (.table origin inner) =>
        if dotted && origin == .header then none
        else pure (.table origin (← changeAt? dotted change path origin inner))
      | some (.tables last earlier) =>
        pure (.tables (← changeAt? dotted change path .header last) earlier)
    return entries.put key item

/-- Adds a value under a dotted key of the table at a path. -/
def addAt? (path : List String) (keys : List String) (key : String) (v : Value)
    (root : Entries) : Option Entries :=
  let insert := fun (origin : Origin) (entries : Entries) =>
    if keys.isEmpty || origin == .dotted then entries.add? key v else none
  changeAt? false (fun origin entries => changeAt? true insert keys origin entries) path .header root

def openTable? (path : List String) (key : String) (root : Entries) : Option Entries :=
  let enter := fun (_ : Origin) (entries : Entries) => match entries.get? key with
    | none => some (entries.put key (.table .header []))
    | some (.table .outer inner) => some (entries.put key (.table .header inner))
    | some _ => none
  changeAt? false enter path .header root

/-- Opens a further table under a key that stands for several. -/
def openNext? (path : List String) (key : String) (root : Entries) : Option Entries :=
  let enter := fun (_ : Origin) (entries : Entries) => match entries.get? key with
    | none => some (entries.put key (.tables [] []))
    | some (.tables last earlier) => some (entries.put key (.tables [] (last :: earlier)))
    | some _ => none
  changeAt? false enter path .header root

end Entries

end SourceTree.Toml
