import SettingsOverlay.Json.Reader.WrappedNumber

/-!
# The grammar of JSON

Which bytes spell which value, after RFC 8259 and without a reader. A `Value` is a syntax tree
here: its objects list the members of the text from left to right, repeated keys included. What a
tree stands for comes after that.

* `Number.Spelling`, `Quoted.Spelling`, `Value.Spelling`: the productions, leaves first;
* `Value.Text`: a whole text, which is a value with white space around it;
* `Value.depth`: how deep the brackets of a tree nest;
* `Value.denoted`: the value of a tree, with the members of its objects inserted one by one;
* `Value.reading?`: the same where `numberKey` makes an object stand for a number;
* `Value.Unmarked`: no object of a tree begins with that key.
-/

namespace SettingsOverlay.Json

/-- White space: spaces, tabs, line feeds and carriage returns. -/
def Space (bs : Bytes) : Prop := ∀ b ∈ bs, b = 0x20 ∨ b = 0x09 ∨ b = 0x0a ∨ b = 0x0d

theorem space_nil : Space [] := nofun

theorem Space.append {bs bs' : Bytes} (h : Space bs) (h' : Space bs') : Space (bs ++ bs') :=
  List.forall_mem_append.2 ⟨h, h'⟩

/-! ## Numbers -/

/-- The byte of a digit. -/
def Digit.byte (d : Digit) : UInt8 := UInt8.ofNat (0x30 + d.val)

/-- The bytes of some digits. -/
def Digits.bytes (ds : Digits) : Bytes := ds.toList.map Digit.byte

/-- A point and the digits after it. -/
def Number.fractionBytes : Option Digits → Bytes
  | none => []
  | some ds => '.'.toUInt8 :: ds.bytes

/-- An exponent: its letter in either case, its sign, of which a plus may be left out, and its
digits. -/
inductive Exponent.Spelling (e : Exponent) : Bytes → Prop where
  | minus {mark : UInt8} : mark = 'e'.toUInt8 ∨ mark = 'E'.toUInt8 → e.negative = true →
      Spelling e (mark :: '-'.toUInt8 :: e.digits.bytes)
  | plus {mark : UInt8} : mark = 'e'.toUInt8 ∨ mark = 'E'.toUInt8 → e.negative = false →
      Spelling e (mark :: '+'.toUInt8 :: e.digits.bytes)
  | unsigned {mark : UInt8} : mark = 'e'.toUInt8 ∨ mark = 'E'.toUInt8 → e.negative = false →
      Spelling e (mark :: e.digits.bytes)

/-- An exponent that may be missing. -/
def Number.ExponentSpelling : Option Exponent → Bytes → Prop
  | none, bs => bs = []
  | some e, bs => e.Spelling bs

/-- A number: a minus sign or none, the whole part, and then a fraction and an exponent or not. -/
inductive Number.Spelling (n : Number) : Bytes → Prop where
  | mk {bs : Bytes} : ExponentSpelling n.exponent bs →
      Spelling n ((if n.negative then ['-'.toUInt8] else []) ++ n.whole.digits.bytes ++
        fractionBytes n.fraction ++ bs)

/-! ## Strings -/

/-- A hexadecimal digit of either case. -/
inductive HexDigit : Nat → UInt8 → Prop where
  | decimal {n : Nat} : n < 10 → HexDigit n (UInt8.ofNat (0x30 + n))
  | lower {n : Nat} : n < 6 → HexDigit (10 + n) (UInt8.ofNat (0x61 + n))
  | upper {n : Nat} : n < 6 → HexDigit (10 + n) (UInt8.ofNat (0x41 + n))

/-- A code unit in four hexadecimal digits. -/
inductive CodeUnit : Nat → Bytes → Prop where
  | mk {a b c d : Nat} {w x y z : UInt8} : HexDigit a w → HexDigit b x → HexDigit c y →
      HexDigit d z → CodeUnit (((a * 16 + b) * 16 + c) * 16 + d) [w, x, y, z]

namespace Escape

/-- The escapes of one letter, each beside what it stands for. -/
def shortForms : List (UInt8 × Char) :=
  [(0x22, '"'), (0x5c, '\\'), (0x2f, '/'), (0x62, Char.ofNat 0x08), (0x66, Char.ofNat 0x0c),
    (0x6e, Char.ofNat 0x0a), (0x72, Char.ofNat 0x0d), (0x74, Char.ofNat 0x09)]

/-- What follows a backslash: a letter, a code unit that is no surrogate, or two code units that
are a pair of surrogates. -/
inductive Spelling : Char → Bytes → Prop where
  | letter {b : UInt8} {c : Char} : (b, c) ∈ shortForms → Spelling c [b]
  | unit {u : Nat} {bs : Bytes} : CodeUnit u bs → u < 0xd800 ∨ 0xe000 ≤ u →
      Spelling (Char.ofNat u) ('u'.toUInt8 :: bs)
  | pair {u v : Nat} {bs cs : Bytes} : CodeUnit u bs → CodeUnit v cs →
      0xd800 ≤ u → u < 0xdc00 → 0xdc00 ≤ v → v < 0xe000 →
      Spelling (Char.ofNat (0x10000 + (u - 0xd800) * 0x400 + (v - 0xdc00)))
        ('u'.toUInt8 :: (bs ++ '\\'.toUInt8 :: 'u'.toUInt8 :: cs))

end Escape

namespace Quoted

/-- One character between quotes: itself in UTF-8, if it is no quote, no backslash and no control
character below U+0020, or an escape. -/
inductive Item : Char → Bytes → Prop where
  | plain {c : Char} : 0x20 ≤ c.toNat → c ≠ '"' → c ≠ '\\' → Item c (Utf8.encodeChar c)
  | escape {c : Char} {bs : Bytes} : Escape.Spelling c bs → Item c ('\\'.toUInt8 :: bs)

/-- Characters one after the other. -/
inductive Items : List Char → Bytes → Prop where
  | nil : Items [] []
  | cons {c : Char} {cs : List Char} {bs bs' : Bytes} :
      Item c bs → Items cs bs' → Items (c :: cs) (bs ++ bs')

/-- A string: characters between quotes. -/
inductive Spelling (s : String) : Bytes → Prop where
  | mk {bs : Bytes} : Items s.toList bs → Spelling s ('"'.toUInt8 :: (bs ++ ['"'.toUInt8]))

end Quoted

/-! ## Values -/

/-- The bytes of a word. -/
def wordBytes (cs : List Char) : Bytes := cs.map Char.toUInt8

mutual

/-- A value, without white space around it. -/
inductive Value.Spelling : Value → Bytes → Prop where
  | nullWord : Value.Spelling .null (wordBytes ['n', 'u', 'l', 'l'])
  | trueWord : Value.Spelling (.bool true) (wordBytes ['t', 'r', 'u', 'e'])
  | falseWord : Value.Spelling (.bool false) (wordBytes ['f', 'a', 'l', 's', 'e'])
  | number {n : Number} {bs : Bytes} : n.Spelling bs → Value.Spelling (.number n) bs
  | string {s : String} {bs : Bytes} : Quoted.Spelling s bs → Value.Spelling (.string s) bs
  | emptyArray {gap : Bytes} : Space gap →
      Value.Spelling (.array []) ('['.toUInt8 :: (gap ++ [']'.toUInt8]))
  | array {v : Value} {vs : List Value} {bs bs' : Bytes} : v.Text bs → ElementsTail vs bs' →
      Value.Spelling (.array (v :: vs)) ('['.toUInt8 :: (bs ++ bs' ++ [']'.toUInt8]))
  | emptyObject {gap : Bytes} : Space gap →
      Value.Spelling (.object []) ('{'.toUInt8 :: (gap ++ ['}'.toUInt8]))
  | object {k : String} {v : Value} {ms : List (String × Value)} {bs bs' : Bytes} :
      MemberText k v bs → MembersTail ms bs' →
      Value.Spelling (.object ((k, v) :: ms)) ('{'.toUInt8 :: (bs ++ bs' ++ ['}'.toUInt8]))

/-- A value with white space around it. A whole text is one. -/
inductive Value.Text : Value → Bytes → Prop where
  | mk {v : Value} {before bs after : Bytes} : Space before → v.Spelling bs → Space after →
      Value.Text v (before ++ bs ++ after)

/-- The elements of an array behind the first, each behind a comma. -/
inductive ElementsTail : List Value → Bytes → Prop where
  | nil : ElementsTail [] []
  | cons {v : Value} {vs : List Value} {bs bs' : Bytes} : v.Text bs → ElementsTail vs bs' →
      ElementsTail (v :: vs) (','.toUInt8 :: (bs ++ bs'))

/-- A member: a key, a colon and a value, with white space around the key and the value. -/
inductive MemberText : String → Value → Bytes → Prop where
  | mk {k : String} {v : Value} {before ks after bs : Bytes} :
      Space before → Quoted.Spelling k ks → Space after → v.Text bs →
      MemberText k v (before ++ ks ++ after ++ ':'.toUInt8 :: bs)

/-- The members of an object behind the first, each behind a comma. -/
inductive MembersTail : List (String × Value) → Bytes → Prop where
  | nil : MembersTail [] []
  | cons {k : String} {v : Value} {ms : List (String × Value)} {bs bs' : Bytes} :
      MemberText k v bs → MembersTail ms bs' →
      MembersTail ((k, v) :: ms) (','.toUInt8 :: (bs ++ bs'))

end

/-! ## What a tree stands for -/

mutual

/-- How many brackets stand inside each other. -/
def Value.depth : Value → Nat
  | .null | .bool _ | .number _ | .string _ => 0
  | .array vs => elementsDepth vs + 1
  | .object ms => membersDepth ms + 1

/-- The greatest depth of some values. -/
def elementsDepth : List Value → Nat
  | [] => 0
  | v :: vs => max v.depth (elementsDepth vs)

/-- The greatest depth of the values of some members. -/
def membersDepth : List (String × Value) → Nat
  | [] => 0
  | (_, v) :: ms => max v.depth (membersDepth ms)

end

/-- The object of some members, inserted from left to right: a repeated key keeps its first place
and takes its last value. -/
def Object.ofMembers (ms : List (String × Value)) : Object := Object.overlay [] ms

mutual

/-- The value that a tree denotes. -/
def Value.denoted : Value → Value
  | .null => .null
  | .bool b => .bool b
  | .number n => .number n
  | .string s => .string s
  | .array vs => .array (denotedElements vs)
  | .object ms => .object (Object.ofMembers (denotedMembers ms))

/-- The values that some trees denote. -/
def denotedElements : List Value → List Value
  | [] => []
  | v :: vs => v.denoted :: denotedElements vs

/-- The members that some members denote. -/
def denotedMembers : List (String × Value) → List (String × Value)
  | [] => []
  | (k, v) :: ms => (k, v.denoted) :: denotedMembers ms

end

/-- Whether the first of some members has the key that stands for a number. -/
def StartsWithNumberKey (ms : List (String × Value)) : Prop :=
  (Object.keys ms).head? = some numberKey

instance (ms : List (String × Value)) : Decidable (StartsWithNumberKey ms) :=
  inferInstanceAs (Decidable (_ = _))

/-- The number that members stand for when the first has `numberKey`: there must be no other, and
its value must be a string that spells a number. -/
def wrappedNumber? : List (String × Value) → Option Number
  | [(_, .string s)] => (Number.ofString s).toOption
  | _ => none

mutual

/-- The value that a reader takes a tree for, where objects may stand for numbers. -/
def Value.reading? : Value → Option Value
  | .null => some .null
  | .bool b => some (.bool b)
  | .number n => some (.number n)
  | .string s => some (.string s)
  | .array vs => (readingElements? vs).map .array
  | .object ms =>
    if StartsWithNumberKey ms then (wrappedNumber? ms).map .number
    else (readingMembers? ms).map fun ms => .object (Object.ofMembers ms)

/-- The values that a reader takes some trees for. -/
def readingElements? : List Value → Option (List Value)
  | [] => some []
  | v :: vs => do
    let w ← v.reading?
    let ws ← readingElements? vs
    return w :: ws

/-- The members that a reader takes some members for. -/
def readingMembers? : List (String × Value) → Option (List (String × Value))
  | [] => some []
  | (k, v) :: ms => do
    let w ← v.reading?
    let ns ← readingMembers? ms
    return (k, w) :: ns

end

/-- A property of all the objects in a value. -/
inductive Value.Everywhere (P : Object → Prop) : Value → Prop where
  | null : Everywhere P .null
  | bool {b : Bool} : Everywhere P (.bool b)
  | number {n : Number} : Everywhere P (.number n)
  | string {s : String} : Everywhere P (.string s)
  | array {vs : List Value} : (∀ v ∈ vs, Everywhere P v) → Everywhere P (.array vs)
  | object {ms : List (String × Value)} : P ms → (∀ m ∈ ms, Everywhere P m.2) →
      Everywhere P (.object ms)

/-- No object begins with the key that stands for a number. -/
def Value.Unmarked (v : Value) : Prop := v.Everywhere fun o => ¬ StartsWithNumberKey o

end SettingsOverlay.Json
