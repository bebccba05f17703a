/-!
# Number literals

A number is kept as the literal it was written with, not as a value: `1.0` and `1.00` differ.
The parts follow the grammar of the literal, so every `Number` has a text and every text of the
grammar has a `Number`. One thing is not kept: how the exponent was introduced. It is always
written `e` and a sign.

* `Digit.ofByte?`, `Digit.char`: the ten digits;
* `Number.chars`: the text of a number;
* `Number.integer?`: the value of a number that a machine word of 64 bits can hold.
-/

namespace SettingsOverlay.Json

/-- A decimal digit. -/
abbrev Digit := Fin 10

namespace Digit

/-- The digit that a byte spells. -/
def ofByte? (b : UInt8) : Option Digit :=
  if h : 48 ≤ b.toNat ∧ b.toNat < 58 then some ⟨b.toNat - 48, by omega⟩ else none

/-- The character of a digit. -/
def char (d : Digit) : Char := Char.ofNat (48 + d.val)

end Digit

/-- One digit or more. -/
structure Digits where
  first : Digit
  rest : List Digit
  deriving DecidableEq, Repr

namespace Digits

/-- The digits from left to right. -/
def toList (ds : Digits) : List Digit := ds.first :: ds.rest

/-- The digits as characters. -/
def chars (ds : Digits) : List Char := ds.toList.map Digit.char

/-- The value of the digits in base ten. -/
def toNat (ds : Digits) : Nat := ds.toList.foldl (fun n d => 10 * n + d.val) 0

end Digits

/-- The part of a number before its point: a single zero, or digits that do not start with one. -/
inductive Whole where
  | zero
  | positive (lead : Fin 9) (rest : List Digit)
  deriving DecidableEq, Repr

namespace Whole

/-- The digits of the whole part; `lead` counts from one. -/
def digits : Whole → Digits
  | zero => ⟨0, []⟩
  | positive lead rest => ⟨lead.succ, rest⟩

end Whole

/-- The power of ten of a number. -/
structure Exponent where
  negative : Bool
  digits : Digits
  deriving DecidableEq, Repr

namespace Exponent

/-- An exponent is written `e`, a sign, and its digits. -/
def chars (e : Exponent) : List Char :=
  'e' :: (if e.negative then '-' else '+') :: e.digits.chars

end Exponent

/-- A number, as the parts of its literal. -/
structure Number where
  negative : Bool
  whole : Whole
  fraction : Option Digits
  exponent : Option Exponent
  deriving DecidableEq, Repr

namespace Number

/-- The text of a number. -/
def chars (n : Number) : List Char :=
  (if n.negative then ['-'] else []) ++ n.whole.digits.chars ++
    (match n.fraction with
      | none => []
      | some ds => '.' :: ds.chars) ++
    (match n.exponent with
      | none => []
      | some e => e.chars)

/-- The value of a number without fraction and exponent that fits a word of 64 bits: unsigned if
the number has no sign, two's complement if it has. Minus zero is no integer. -/
def integer? (n : Number) : Option Int :=
  match n.fraction, n.exponent with
  | none, none =>
    let m := n.whole.digits.toNat
    if n.negative then
      if 0 < m ∧ m ≤ UInt64.size / 2 then some (-(m : Int)) else none
    else if m < UInt64.size then some m else none
  | _, _ => none

end Number

end SettingsOverlay.Json
