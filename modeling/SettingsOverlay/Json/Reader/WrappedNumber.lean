import SettingsOverlay.Json.Reader.Basic
import SettingsOverlay.Json.Reader.Number
import SettingsOverlay.Json.Reader.Quoted

/-!
# Numbers in objects

An object whose first key is `numberKey` stands for a number, which its only member spells as a
string. What is wrong with that number has its position in the string.

* `readWrappedNumber`: such an object behind its first colon;
* `Found.read`: what stands there in place of a string.
-/

namespace SettingsOverlay.Json

/-- The key that makes an object stand for a number, if it comes first. -/
def numberKey : String := "$serde_json::private::Number"

/-- Reads what stands where the text of a number was expected. Containers are only looked at. -/
def Found.read : Bytes → Except Fault (Found × Bytes)
  | [] => stopAtNext (.unfinished .value) []
  | b :: bs =>
    if b = 'n'.toUInt8 then do
      let rest ← readLetters ['u', 'l', 'l'] bs
      return (.null, rest)
    else if b = 't'.toUInt8 then do
      let rest ← readLetters ['r', 'u', 'e'] bs
      return (.bool true, rest)
    else if b = 'f'.toUInt8 then do
      let rest ← readLetters ['a', 'l', 's', 'e'] bs
      return (.bool false, rest)
    else if b = '-'.toUInt8 ∨ isDigit b then do
      let (n, rest) ← Number.read (b :: bs)
      return (n.integer?.elim .number .integer, rest)
    else if b = '['.toUInt8 then return (.sequence, b :: bs)
    else if b = '{'.toUInt8 then return (.map, b :: bs)
    else stopAtNext .expectedValue (b :: bs)

/-- Reads the brace that closes an object which stands for a number. -/
def readNumberEnd (bs : Bytes) : Except Fault Bytes :=
  match skipBlanks bs with
  | [] => stopAtNext (.unfinished .object) []
  | b :: rest =>
    if b = '}'.toUInt8 then .ok rest
    else if b = ','.toUInt8 then stopAtNext .trailingComma (b :: rest)
    else stopAtNext .trailingCharacters (b :: rest)

/-- The number that a string spells; a fault is given its position in the string. -/
def Number.ofString (s : String) : Except Fault Number :=
  let text := Utf8.encode s.toList
  match Number.ofText text with
  | .ok n => .ok n
  | .error fault => .error ⟨fault.cause, .inner (fault.place.position text)⟩

/-- Reads an object behind its first key and colon when that key is `numberKey`: a string that
spells a number, and nothing else. -/
def readWrappedNumber (bs : Bytes) : Except Fault (Number × Bytes) :=
  match skipBlanks bs with
  | [] => stopAtNext (.unfinished .value) []
  | b :: rest =>
    if b = '"'.toUInt8 then do
      let (s, rest) ← Quoted.read rest
      let n ← Number.ofString s
      let rest ← readNumberEnd rest
      return (n, rest)
    else do
      let (found, rest) ← Found.read (b :: rest)
      stop (.expectedNumberText found) rest

theorem length_le_of_readNumberEnd {bs rest : Bytes} (h : readNumberEnd bs = .ok rest) :
    rest.length ≤ bs.length := by
  have h₀ := length_skipBlanks_le bs
  simp only [readNumberEnd] at h
  split at h
  · simp [stopAtNext] at h
  · rename_i hs
    rw [hs, List.length_cons] at h₀
    split at h
    · simp only [Except.ok.injEq] at h
      rw [← h]
      omega
    · split at h <;> simp [stopAtNext] at h

theorem length_lt_of_readWrappedNumber {bs rest : Bytes} {n : Number}
    (h : readWrappedNumber bs = .ok (n, rest)) : rest.length < bs.length := by
  have h₀ := length_skipBlanks_le bs
  simp only [readWrappedNumber] at h
  split at h
  · simp [stopAtNext] at h
  rename_i hs
  rw [hs, List.length_cons] at h₀
  split at h
  · obtain ⟨⟨s, r₁⟩, h₁, h⟩ := bind_eq_ok_iff.1 h
    obtain ⟨n, -, h⟩ := bind_eq_ok_iff.1 h
    obtain ⟨r₂, h₂, h⟩ := bind_eq_ok_iff.1 h
    obtain ⟨-, rfl⟩ := Prod.mk.inj (pure_eq_ok_iff.1 h)
    have := Quoted.length_lt_of_read h₁
    have := length_le_of_readNumberEnd h₂
    dsimp only at *
    omega
  · obtain ⟨⟨found, r₁⟩, -, h⟩ := bind_eq_ok_iff.1 h
    simp [stop] at h

end SettingsOverlay.Json
