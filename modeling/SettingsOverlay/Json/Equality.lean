import SettingsOverlay.Json.Value

/-!
# Equality without member order

Two objects are the same when they have the same keys with the same values, in whatever order:
`Value.same` counts the members and looks up each of the left object's keys in the right one.
Elements of arrays keep their places, and numbers are the same when their literals are.
-/

namespace SettingsOverlay.Json

mutual

/-- Whether two values are the same up to the order of members, at every depth. -/
def Value.same : Value → Value → Bool
  | .null, .null => true
  | .bool a, .bool b => a == b
  | .number m, .number n => m == n
  | .string s, .string t => s == t
  | .array vs, .array ws => sameElements vs ws
  | .object o, .object p => o.length == p.length && sameMembers o p
  | _, _ => false

/-- Whether two lists of values are the same place by place. -/
def sameElements : List Value → List Value → Bool
  | [], [] => true
  | v :: vs, w :: ws => v.same w && sameElements vs ws
  | _, _ => false

/-- Whether an object has every one of the given members. -/
def sameMembers : List (String × Value) → Object → Bool
  | [], _ => true
  | (k, v) :: o, p =>
    (match p.get? k with
      | some w => v.same w
      | none => false) && sameMembers o p

end

/-- Whether two objects are the same up to the order of members, at every depth. -/
def Object.same (o p : Object) : Bool := (Value.object o).same (.object p)

end SettingsOverlay.Json
