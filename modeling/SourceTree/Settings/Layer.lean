import SourceTree.Settings.Basic

/-!
Layers of settings. A later layer wins key by key; whatever is not an object on both sides is
replaced as a whole.
-/

namespace SourceTree.Value

/-- Puts a value under a key, in place of the one that was there. -/
def putField (key : String) (v : Value) : List (String × Value) → List (String × Value)
  | [] => [(key, v)]
  | (k, w) :: rest => if k = key then (key, v) :: rest else (k, w) :: putField key v rest

mutual

/-- Puts one value over another. -/
def overlay (lower : Value) : Value → Value
  | .object upper => match lower with
    | .object fields => .object (overlayFields fields upper)
    | _ => .object upper
  | upper => upper

/-- Puts the fields of one object over those of another. -/
def overlayFields (lower : List (String × Value)) : List (String × Value) → List (String × Value)
  | [] => lower
  | (key, v) :: rest =>
    let v := match lower.lookup key with
      | some w => overlay w v
      | none => v
    overlayFields (putField key v lower) rest

end

/-- An object with one value at the end of a path of keys. -/
def nested (v : Value) : List String → Value
  | [] => v
  | key :: path => .object [(key, nested v path)]

end SourceTree.Value
