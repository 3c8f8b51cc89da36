import Oreneta.Lib.Decimal
import Oreneta.Lib.Quoted

/-!
# JSON values

`serde_json::Value`: `get` and `[]` of an object, and the readings of a value.  A number is a whole number
of 64 bits or a floating-point one, of which only the text is kept.

* `render` — the compact text of a value, of texts without control characters.
-/

namespace Oreneta

inductive Json where
  | null
  | bool (value : Bool)
  | int (value : Int)
  | float (text : Str)
  | str (text : Str)
  | arr (items : List Json)
  | obj (entries : List (Str × Json))

namespace Json

/-- `Value::get`. -/
def get (value : Json) (field : String) : Option Json :=
  match value with
  | .obj entries => entries.lookup field.toList
  | _ => none

/-- `value[field]`, null where there is none. -/
def index (value : Json) (field : String) : Json := (value.get field).getD .null

def asStr : Json → Option Str
  | .str text => some text
  | _ => none

def asBool : Json → Option Bool
  | .bool value => some value
  | _ => none

def asU64 : Json → Option Nat
  | .int value => if 0 ≤ value ∧ value < 2 ^ 64 then some value.toNat else none
  | _ => none

def asI64 : Json → Option Int
  | .int value => if I64.min ≤ value ∧ value ≤ I64.max then some value else none
  | _ => none

def asArray : Json → Option (List Json)
  | .arr items => some items
  | _ => none

mutual

/-- `serde_json::to_string`. -/
def render : Json → Str
  | .null => "null"
  | .bool value => if value then "true" else "false"
  | .int value => Decimal.ofInt value
  | .float text => text
  | .str text => Quoted.quote text
  | .arr items => '[' :: (Text.join [','] (renderItems items) ++ [']'])
  | .obj entries => '\x7b' :: (Text.join [','] (renderEntries entries) ++ ['\x7d'])

def renderItems : List Json → List Str
  | [] => []
  | item :: items => render item :: renderItems items

def renderEntries : List (Str × Json) → List Str
  | [] => []
  | (field, value) :: entries => (Quoted.quote field ++ ':' :: render value) :: renderEntries entries

end

end Json

end Oreneta
