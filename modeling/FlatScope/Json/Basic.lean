/-!
# JSON values

A number is exact when it was written as an integer that fits in 64 bits, with or without a sign;
any other number is a sign and a `Binary64` magnitude.  The fields of an object have different keys,
and their order carries no meaning.
-/

namespace FlatScope

inductive Number where
  /-- An integer from `-2^63` to `2^64 - 1`. -/
  | exact (value : Int)
  /-- A sign and a magnitude in units of `2^-1074`. -/
  | real (negative : Bool) (magnitude : Nat)
deriving DecidableEq

inductive Json where
  | null
  | bool (value : Bool)
  | number (value : Number)
  | string (text : String)
  | array (items : List Json)
  | object (fields : List (String × Json))

namespace Json

/-- Gives a key a value, in the place of the value that the key had. -/
def setField (key : String) (value : Json) : List (String × Json) → List (String × Json)
  | [] => [(key, value)]
  | (k, v) :: rest => if k = key then (key, value) :: rest else (k, v) :: setField key value rest

end Json

end FlatScope
