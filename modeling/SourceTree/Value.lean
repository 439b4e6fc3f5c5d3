/-!
Values of a data format with numbers, text, lists and objects. They carry the free-form metadata
of nodes and the written form of every record of the library.
-/

namespace SourceTree

/-- A number as it is written: whole, or a decimal fraction digit for digit. -/
inductive Number where
  | whole (n : Int)
  /-- The digits of `mantissa` with the last `places` of them after the point. -/
  | decimal (mantissa : Int) (places : Nat)
  deriving DecidableEq, Repr

inductive Value where
  | null
  | bool (b : Bool)
  | number (n : Number)
  | string (s : String)
  | list (items : List Value)
  | object (fields : List (String × Value))
  deriving Repr, Inhabited

namespace Value

def nat (n : Nat) : Value := .number (.whole n)

def strings (items : List String) : Value := .list (items.map .string)

def asBool? : Value → Option Bool
  | bool b => some b
  | _ => none

def asString? : Value → Option String
  | string s => some s
  | _ => none

def asList? : Value → Option (List Value)
  | list items => some items
  | _ => none

/-- The whole numbers below `bound`. -/
def asNatBelow? (bound : Nat) : Value → Option Nat
  | number (.whole (.ofNat n)) => if n < bound then some n else none
  | _ => none

/-- The whole numbers that fit 32 bits. -/
def asNat32? : Value → Option Nat := asNatBelow? (Nat.pow 2 32)

/-- The numbers of 32 bits. -/
def asUInt32? (v : Value) : Option UInt32 := v.asNat32?.map Nat.toUInt32

/-- The whole numbers that fit 64 bits. -/
def asNat64? : Value → Option Nat := asNatBelow? (Nat.pow 2 64)

/-- The fields of a record: those of an object, or the items of a list under the names of the
record's fields in their declared order. -/
def record? (names : List String) : Value → Option (List (String × Value))
  | object fields => some fields
  | list items => if items.length ≤ names.length then some (names.zip items) else none
  | _ => none

def required? (fields : List (String × Value)) (key : String) (read : Value → Option α) :
    Option α :=
  (fields.lookup key).bind read

/-- A field that may be missing, but not `null` unless `read` accepts it. -/
def defaulted? (fields : List (String × Value)) (key : String) (read : Value → Option α)
    (missing : α) : Option α :=
  match fields.lookup key with
  | none => some missing
  | some v => read v

/-- A field that may be missing or `null`. -/
def optional? (fields : List (String × Value)) (key : String) (read : Value → Option α) :
    Option (Option α) :=
  match fields.lookup key with
  | none => some none
  | some .null => some none
  | some v => (read v).map some

/-- A field, left out if there is nothing to write. -/
def field? (key : String) (write : α → Value) : Option α → List (String × Value)
  | none => []
  | some a => [(key, write a)]

mutual

/-- Equality of values; objects are compared field by field in order. -/
def beq : Value → Value → Bool
  | null, null => true
  | bool a, bool b => a == b
  | number a, number b => decide (a = b)
  | string a, string b => a == b
  | list a, list b => beqList a b
  | object a, object b => beqFields a b
  | _, _ => false

def beqList : List Value → List Value → Bool
  | [], [] => true
  | a :: as, b :: bs => beq a b && beqList as bs
  | _, _ => false

def beqFields : List (String × Value) → List (String × Value) → Bool
  | [], [] => true
  | (k, a) :: as, (l, b) :: bs => k == l && beq a b && beqFields as bs
  | _, _ => false

end

instance : BEq Value := ⟨beq⟩

end Value

/-- Named values in ascending order of their keys, each key once. -/
abbrev Metadata := List (String × Value)

namespace Metadata

/-- Puts a value under a key, in place of the one that was there. -/
def insert (key : String) (v : Value) : Metadata → Metadata
  | [] => [(key, v)]
  | (k, w) :: rest =>
    if key = k then (key, v) :: rest
    else if key < k then (key, v) :: (k, w) :: rest
    else (k, w) :: insert key v rest

def ofList (fields : List (String × Value)) : Metadata :=
  fields.foldl (fun m (k, v) => insert k v m) []

def get? (m : Metadata) (key : String) : Option Value := m.lookup key

end Metadata

end SourceTree
