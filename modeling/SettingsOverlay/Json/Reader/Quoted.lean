import SettingsOverlay.Json.Fault

/-!
# Reading strings

The readers here start behind the opening quote. A string is first read as bytes, with its escapes
replaced by what they stand for, and then has to be UTF-8 as a whole.

* `Escape.read`: what follows a backslash, as a character;
* `Quoted.read`: a string up to its closing quote;
* `Quoted.length_lt_of_read`: a string takes at least its closing quote.
-/

namespace SettingsOverlay.Json

namespace Escape

/-- The escapes of one letter, each beside the character that it stands for. -/
def letters : List (Char × Char) :=
  [('"', '"'), ('\\', '\\'), ('/', '/'), ('b', '\x08'), ('f', '\x0c'), ('n', '\n'), ('r', '\r'),
    ('t', '\t')]

/-- The character that the escape of one letter stands for. -/
def ofLetter? (b : UInt8) : Option Char := letters.lookup (Char.ofNat b.toNat)

/-- The value of a hexadecimal digit of either case. -/
def hexDigit? (b : UInt8) : Option Nat :=
  let n := b.toNat
  if 48 ≤ n ∧ n < 58 then some (n - 48)
  else if 97 ≤ n ∧ n < 103 then some (n - 87)
  else if 65 ≤ n ∧ n < 71 then some (n - 55)
  else none

/-- Whether a code unit is the first half of a surrogate pair. -/
abbrev IsLeading (u : Nat) : Prop := 0xD800 ≤ u ∧ u < 0xDC00

/-- Whether a code unit is the second half of a surrogate pair. -/
abbrev IsTrailing (u : Nat) : Prop := 0xDC00 ≤ u ∧ u < 0xE000

/-- Reads four hexadecimal digits. -/
def readHex : Bytes → Except Fault (Nat × Bytes)
  | a :: b :: c :: d :: bs =>
    match hexDigit? a, hexDigit? b, hexDigit? c, hexDigit? d with
    | some a, some b, some c, some d => .ok (((a * 16 + b) * 16 + c) * 16 + d, bs)
    | _, _, _, _ => stop .invalidEscape bs
  | _ => stop (.unfinished .string) []

/-- Reads the given character, which has to join the two halves of a surrogate pair. -/
def readJoint (c : Char) : Bytes → Except Fault Bytes
  | [] => stop (.unfinished .string) []
  | b :: bs => if b = c.toUInt8 then .ok bs else stop .unfinishedPair bs

/-- Reads the digits of an escape by code unit, and the second half of a surrogate pair. -/
def readUnit (bs : Bytes) : Except Fault (Char × Bytes) := do
  let (u, bs) ← readHex bs
  if IsTrailing u then stop .loneSurrogate bs
  else if IsLeading u then do
    let bs ← readJoint '\\' bs
    let bs ← readJoint 'u' bs
    let (v, bs) ← readHex bs
    if IsTrailing v then
      return (Char.ofNat (0x10000 + (u - 0xD800) * 0x400 + (v - 0xDC00)), bs)
    else stop .loneSurrogate bs
  else return (Char.ofNat u, bs)

/-- Reads what follows a backslash. -/
def read : Bytes → Except Fault (Char × Bytes)
  | [] => stop (.unfinished .string) []
  | b :: bs =>
    if b = 'u'.toUInt8 then readUnit bs
    else
      match ofLetter? b with
      | some c => .ok (c, bs)
      | none => stop .invalidEscape bs

theorem length_le_of_readHex {bs rest : Bytes} {u : Nat} (h : readHex bs = .ok (u, rest)) :
    rest.length ≤ bs.length := by
  unfold readHex at h
  split at h
  · split at h
    · simp only [Except.ok.injEq, Prod.mk.injEq] at h
      simp only [← h.2, List.length_cons]
      omega
    · simp [stop] at h
  · simp [stop] at h

theorem length_le_of_readJoint {c : Char} {bs rest : Bytes} (h : readJoint c bs = .ok rest) :
    rest.length ≤ bs.length := by
  match bs with
  | [] => simp [readJoint, stop] at h
  | b :: bs =>
    simp only [readJoint] at h
    split at h
    · simp only [Except.ok.injEq] at h
      simp [h]
    · simp [stop] at h

theorem length_le_of_readUnit {bs rest : Bytes} {c : Char} (h : readUnit bs = .ok (c, rest)) :
    rest.length ≤ bs.length := by
  simp only [readUnit] at h
  obtain ⟨⟨u, r₁⟩, h₁, h⟩ := bind_eq_ok_iff.1 h
  have := length_le_of_readHex h₁
  dsimp only at h
  split at h
  · simp [stop] at h
  split at h
  · obtain ⟨r₂, h₂, h⟩ := bind_eq_ok_iff.1 h
    obtain ⟨r₃, h₃, h⟩ := bind_eq_ok_iff.1 h
    obtain ⟨⟨v, r₄⟩, h₄, h⟩ := bind_eq_ok_iff.1 h
    have := length_le_of_readJoint h₂
    have := length_le_of_readJoint h₃
    have := length_le_of_readHex h₄
    dsimp only at h
    split at h
    · obtain ⟨-, rfl⟩ := Prod.mk.inj (pure_eq_ok_iff.1 h)
      omega
    · simp [stop] at h
  · obtain ⟨-, rfl⟩ := Prod.mk.inj (pure_eq_ok_iff.1 h)
    omega

theorem length_lt_of_read {bs rest : Bytes} {c : Char} (h : read bs = .ok (c, rest)) :
    rest.length < bs.length := by
  match bs with
  | [] => simp [read, stop] at h
  | b :: bs =>
    simp only [read] at h
    split at h
    · have := length_le_of_readUnit h
      simp only [List.length_cons]
      omega
    · split at h
      · simp only [Except.ok.injEq, Prod.mk.injEq] at h
        simp [h.2]
      · simp [stop] at h

end Escape

namespace Quoted

/-- Reads bytes and escapes up to the closing quote; `before` holds the bytes that they stand for
so far, last first. -/
def readBytes (before : Bytes) : Bytes → Except Fault (Bytes × Bytes)
  | [] => stop (.unfinished .string) []
  | b :: bs =>
    if b = '"'.toUInt8 then .ok (before.reverse, bs)
    else if b < 0x20 then stop .controlCharacter bs
    else if b = '\\'.toUInt8 then
      match _h : Escape.read bs with
      | .error fault => .error fault
      | .ok (c, rest) => readBytes ((Utf8.encodeChar c).reverse ++ before) rest
    else readBytes (b :: before) bs
termination_by bs => bs.length
decreasing_by
  · have := Escape.length_lt_of_read _h
    simp only [List.length_cons]
    omega
  · simp

/-- Reads a string. A fault in its encoding is reported where the bytes that are no characters
would begin if they all stood in the last line. -/
def read (bs : Bytes) : Except Fault (String × Bytes) := do
  let (data, rest) ← readBytes [] bs
  match Utf8.decode data with
  | (cs, []) => return (String.ofList cs, rest)
  | (_, bad) => .error ⟨.invalidCodePoint, .back rest.length bad.length⟩

theorem length_lt_of_readBytes {before bs data rest : Bytes}
    (h : readBytes before bs = .ok (data, rest)) : rest.length < bs.length := by
  fun_induction readBytes before bs with
  | case1 => simp [stop] at h
  | case2 before bs =>
    simp only [Except.ok.injEq, Prod.mk.injEq] at h
    simp [h.2]
  | case3 => simp [stop] at h
  | case4 => simp at h
  | case5 before bs c r hr _ _ ih =>
    have := Escape.length_lt_of_read hr
    have := ih h
    simp only [List.length_cons]
    omega
  | case6 before b bs _ _ _ ih =>
    have := ih h
    simp only [List.length_cons]
    omega

theorem length_lt_of_read {bs rest : Bytes} {s : String} (h : read bs = .ok (s, rest)) :
    rest.length < bs.length := by
  simp only [read] at h
  obtain ⟨⟨data, r⟩, h₁, h⟩ := bind_eq_ok_iff.1 h
  have := length_lt_of_readBytes h₁
  dsimp only at h
  split at h
  · obtain ⟨-, rfl⟩ := Prod.mk.inj (pure_eq_ok_iff.1 h)
    exact this
  · simp at h

end Quoted

end SettingsOverlay.Json
