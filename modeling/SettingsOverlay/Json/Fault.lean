import SettingsOverlay.Fallible
import SettingsOverlay.Text.Utf8

/-!
# What can be wrong with a text

A fault is a cause and a place. The place is kept as the number of bytes that were still to be
read, so that it does not depend on what was read before; `Place.position` turns it into a line
and a column once the whole text is at hand.

* `Position.after`: the position behind some bytes;
* `Cause.message`: the cause in words;
* `stop` and `stopAtNext`: how a reader gives up, behind what it has read or behind the byte it
  was looking at.
-/

namespace SettingsOverlay.Json

/-- A line, counted from one, and the number of bytes since the line began. -/
structure Position where
  line : Nat
  column : Nat
  deriving DecidableEq, Repr

/-- The position behind some bytes. -/
def Position.after (front : Bytes) : Position where
  line := 1 + front.count '\n'.toUInt8
  column := (front.reverse.takeWhile (· != '\n'.toUInt8)).length

/-- What a text ended in the middle of. -/
inductive Part where
  | value
  | list
  | object
  | string
  deriving DecidableEq, Repr

/-- A part in words. -/
def Part.describe : Part → String
  | value => "a value"
  | list => "a list"
  | object => "an object"
  | string => "a string"

/-- What stood where the text of a number was expected. -/
inductive Found where
  | null
  | bool (b : Bool)
  | integer (i : Int)
  | number
  | sequence
  | map
  deriving DecidableEq, Repr

/-- A found thing in words. -/
def Found.describe : Found → String
  | null => "null"
  | bool true => "boolean `true`"
  | bool false => "boolean `false`"
  | integer i => "integer `" ++ toString i ++ "`"
  | number => "number"
  | sequence => "sequence"
  | map => "map"

/-- What is wrong with a text. -/
inductive Cause where
  | unfinished (part : Part)
  | expectedWord
  | expectedValue
  | expectedColon
  | expectedCommaOrBracket
  | expectedCommaOrBrace
  | trailingComma
  | trailingCharacters
  | keyNotString
  | invalidNumber
  | controlCharacter
  | invalidEscape
  | loneSurrogate
  | unfinishedPair
  | invalidCodePoint
  | tooDeep
  | expectedNumberText (found : Found)
  deriving DecidableEq, Repr

/-- A cause in words. -/
def Cause.message : Cause → String
  | unfinished part => "EOF while parsing " ++ part.describe
  | expectedWord => "expected ident"
  | expectedValue => "expected value"
  | expectedColon => "expected `:`"
  | expectedCommaOrBracket => "expected `,` or `]`"
  | expectedCommaOrBrace => "expected `,` or `\x7d`"
  | trailingComma => "trailing comma"
  | trailingCharacters => "trailing characters"
  | keyNotString => "key must be a string"
  | invalidNumber => "invalid number"
  | controlCharacter => "control character (\\u0000-\\u001F) found while parsing a string"
  | invalidEscape => "invalid escape"
  | loneSurrogate => "lone leading surrogate in hex escape"
  | unfinishedPair => "unexpected end of hex escape"
  | invalidCodePoint => "invalid unicode code point"
  | tooDeep => "recursion limit exceeded"
  | expectedNumberText found =>
    "invalid type: " ++ found.describe ++ ", expected string containing a number"

/-- Where something is wrong. -/
inductive Place where
  /-- Before the bytes that are left, of which there are so many. -/
  | here (left : Nat)
  /-- Behind the first of the bytes that are left, or at the end of the text if none is. -/
  | next (left : Nat)
  /-- So many columns before the bytes that are left, but in the same line. -/
  | back (left columns : Nat)
  /-- A position inside a string that spells a number. -/
  | inner (position : Position)
  deriving DecidableEq, Repr

/-- The position of a place in a text. -/
def Place.position (text : Bytes) : Place → Position
  | here left => .after (text.take (text.length - left))
  | next left => .after (text.take (text.length - (left - 1)))
  | back left columns =>
    let p := Position.after (text.take (text.length - left))
    ⟨p.line, p.column - columns⟩
  | inner position => position

/-- How many bytes were left where the reader stopped; inside a string none count. -/
def Place.left : Place → Nat
  | here left | next left | back left _ => left
  | inner _ => 0

/-- What is wrong, and where. -/
structure Fault where
  cause : Cause
  place : Place
  deriving DecidableEq, Repr

/-- A fault before the bytes that are left. -/
def stop {α : Type} (cause : Cause) (bs : Bytes) : Except Fault α :=
  .error ⟨cause, .here bs.length⟩

/-- A fault behind the first of the bytes that are left. -/
def stopAtNext {α : Type} (cause : Cause) (bs : Bytes) : Except Fault α :=
  .error ⟨cause, .next bs.length⟩

end SettingsOverlay.Json
