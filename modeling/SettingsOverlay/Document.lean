import SettingsOverlay.Json.Equality
import SettingsOverlay.Json.Reader.Value

/-!
# Documents

What the content of a file is to the program: a JSON object, or something that does not count and
the reason why. Nothing that a file can hold is an error.

* `Loaded.ofBytes`: takes the content of a file apart;
* `Loaded.object`: the object, or an empty one in place of everything else;
* `Loaded.same`: equality that ignores the order of members.
-/

namespace SettingsOverlay

open Json

/-- Why the content of a file is no object. -/
inductive Reason where
  /-- It is JSON, but of another kind. -/
  | notObject (found : Kind)
  /-- It is not JSON. -/
  | invalid (cause : Cause) (position : Position)
  deriving DecidableEq, Repr

/-- A reason in words. -/
def Reason.message : Reason → String
  | notObject found => "expected a json object, found " ++ found.describe
  | invalid cause position =>
    cause.message ++ " at line " ++ toString position.line ++ " column " ++
      toString position.column

/-- What was found in the place of a document. -/
inductive Loaded where
  | found (o : Object)
  | missing
  | malformed (reason : Reason)

namespace Loaded

/-- What the content of a file is. -/
def ofBytes (bs : Bytes) : Loaded :=
  match Value.ofText bs with
  | .ok (.object o) => .found o
  | .ok v => .malformed (.notObject v.kind)
  | .error fault => .malformed (.invalid fault.cause (fault.place.position bs))

/-- Whether an object was found. -/
def isObject : Loaded → Bool
  | found _ => true
  | missing | malformed _ => false

/-- The object that was found, or an empty one. -/
def object : Loaded → Object
  | found o => o
  | missing | malformed _ => []

/-- Whether two documents are the same up to the order of members. -/
def same : Loaded → Loaded → Bool
  | found o, found p => o.same p
  | missing, missing => true
  | malformed r, malformed s => r == s
  | _, _ => false

end Loaded

end SettingsOverlay
