import SettingsOverlay.Json.Value
import SettingsOverlay.Text.Utf8

/-!
# Writing values

The layout of a document: each element and each member stands on a line of its own, four spaces
further in than the brackets around it, and an empty container is written in two characters.

* `Quoted.chars`: a string in quotes. Only quotes, backslashes and control characters are
  escaped;
* `Value.chars`: a value whose first line begins at the given depth;
* `Object.render`: a document, which is an object and a line feed;
* `Object.toBytes`: the document as the content of a file.
-/

namespace SettingsOverlay.Json

namespace Quoted

/-- A digit from `0` to `f`. -/
def hexDigit (n : Nat) : Char := Char.ofNat (if n < 10 then 48 + n else 87 + n)

/-- How a character is written in a string. -/
def escape (c : Char) : List Char :=
  if c = '"' then ['\\', '"']
  else if c = '\\' then ['\\', '\\']
  else if c = '\x08' then ['\\', 'b']
  else if c = '\x0c' then ['\\', 'f']
  else if c = '\n' then ['\\', 'n']
  else if c = '\r' then ['\\', 'r']
  else if c = '\t' then ['\\', 't']
  else if c.toNat < 0x20 then
    ['\\', 'u', '0', '0', hexDigit (c.toNat / 16), hexDigit (c.toNat % 16)]
  else [c]

/-- A string in quotes. -/
def chars (s : String) : List Char := '"' :: (s.toList.flatMap escape ++ ['"'])

end Quoted

/-- The blanks at the front of a line. -/
def indent (depth : Nat) : List Char := List.replicate (4 * depth) ' '

/-- Items between brackets, each on a line of its own one level further in. -/
def bracketed (opening closing : Char) (depth : Nat) : List (List Char) → List Char
  | [] => [opening, closing]
  | items =>
    opening :: '\n' ::
      (List.intercalate [',', '\n'] (items.map (indent (depth + 1) ++ ·)) ++
        '\n' :: (indent depth ++ [closing]))

mutual

/-- A value whose first line begins at the given depth. -/
def Value.chars (depth : Nat) : Value → List Char
  | .null => ['n', 'u', 'l', 'l']
  | .bool true => ['t', 'r', 'u', 'e']
  | .bool false => ['f', 'a', 'l', 's', 'e']
  | .number n => n.chars
  | .string s => Quoted.chars s
  | .array vs => bracketed '[' ']' depth (elementChars (depth + 1) vs)
  | .object o => bracketed '{' '}' depth (memberChars (depth + 1) o)

/-- Each of some values. -/
def elementChars (depth : Nat) : List Value → List (List Char)
  | [] => []
  | v :: vs => v.chars depth :: elementChars depth vs

/-- Each of some members: the key, a colon, a space and the value. -/
def memberChars (depth : Nat) : List (String × Value) → List (List Char)
  | [] => []
  | (k, v) :: o => (Quoted.chars k ++ ':' :: ' ' :: v.chars depth) :: memberChars depth o

end

/-- The text of a document. -/
def Object.render (o : Object) : List Char := (Value.object o).chars 0 ++ ['\n']

/-- The bytes of a document. -/
def Object.toBytes (o : Object) : Bytes := Utf8.encode o.render

end SettingsOverlay.Json
