import SettingsOverlay.Json.Number
import SettingsOverlay.Keyed

/-!
# JSON values

A value, and the object: a list of members in the order they are written in. The functions on
objects keep every key once, in the place where it first came in.

* `Object.get?` and `Object.keys`: the two views of an object;
* `Object.insert`: gives a key a value;
* `Object.overlay`: gives a target every member of a supplement. Values are replaced whole: only
  the first level of the two objects is merged.
-/

namespace SettingsOverlay.Json

/-- A JSON value. -/
inductive Value where
  | null
  | bool (b : Bool)
  | number (n : Number)
  | string (s : String)
  | array (elements : List Value)
  | object (members : List (String × Value))

/-- The members of an object, in order. -/
abbrev Object := List (String × Value)

/-- What a value is, without what it holds. -/
inductive Kind where
  | null
  | boolean
  | number
  | string
  | array
  | object
  deriving DecidableEq, Repr

/-- The kind of a value. -/
def Value.kind : Value → Kind
  | null => .null
  | bool _ => .boolean
  | number _ => .number
  | string _ => .string
  | array _ => .array
  | object _ => .object

/-- A kind in words. -/
def Kind.describe : Kind → String
  | null => "null"
  | boolean => "a boolean"
  | number => "a number"
  | string => "a string"
  | array => "an array"
  | object => "an object"

namespace Object

/-- The keys of an object, in order. -/
def keys (o : Object) : List String := o.map Prod.fst

/-- The value of a key. -/
def get? (o : Object) (key : String) : Option Value := o.lookup key

/-- The object with a value given to a key. -/
def insert (key : String) (value : Value) (o : Object) : Object := Keyed.insert key value o

/-- The target with every member of the supplement inserted, in the supplement's order. -/
def overlay (target supplement : Object) : Object :=
  supplement.foldl (fun o m => insert m.1 m.2 o) target

end Object

end SettingsOverlay.Json
