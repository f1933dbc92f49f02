import Specimen.Table
/-!
# JSON values

A value is a tree. Numbers keep the kind they were written with: an integer of 64 bits and a
float are different values even where they are equal as numbers. The fields of an object are kept
in ascending order of their names, so two objects with the same fields are the same value.
-/

namespace Specimen

/-- The least integer above the signed 64-bit range. -/
def int64Limit : Int := 0x8000000000000000

/-- A JSON value. -/
inductive Json where
  | null
  | bool (b : Bool)
  | int (n : Int)
  | float (x : Float)
  | str (s : String)
  | arr (items : List Json)
  | obj (fields : List (String × Json))
  deriving Inhabited, Repr

namespace Json

/-- The object with the given fields; of two fields with one name the later counts. -/
def ofFields (fields : List (String × Json)) : Json := .obj (Table.ofList fields)

/-- The value of a field of an object; other values have no fields. -/
def get? (j : Json) (name : String) : Option Json :=
  match j with
  | .obj fields => Table.get? fields name
  | _ => none

def isNull : Json → Bool
  | .null => true
  | _ => false

def str? : Json → Option String
  | .str s => some s
  | _ => none

def arr? : Json → Option (List Json)
  | .arr items => some items
  | _ => none

def obj? : Json → Option (List (String × Json))
  | .obj fields => some fields
  | _ => none

/-- An integer of the signed 64-bit range; floats are not integers. -/
def int64? : Json → Option Int
  | .int n => if -int64Limit ≤ n ∧ n < int64Limit then some n else none
  | _ => none

/-- An integer of the unsigned 64-bit range; floats are not integers. -/
def nat64? : Json → Option Nat
  | .int n => if 0 ≤ n ∧ n < UInt64.size then some n.toNat else none
  | _ => none

/-- The nearest binary64 number to an integer of 64 bits. -/
def floatOfInt (n : Int) : Float :=
  if n < 0 then -(UInt64.ofNat n.natAbs).toFloat else (UInt64.ofNat n.natAbs).toFloat

/-- Any number, as a float. -/
def float? : Json → Option Float
  | .int n => some (floatOfInt n)
  | .float x => some x
  | _ => none

/-- A float as a JSON value: what is not finite is written as null. -/
def ofFloat (x : Float) : Json :=
  if x.isFinite then .float x else .null

def ofNat (n : Nat) : Json := .int n

/-- An absent value is null. -/
def ofOption (v : Option Json) : Json := v.getD .null

def ofStr? (s : Option String) : Json := (s.map .str).getD .null

end Json

end Specimen
