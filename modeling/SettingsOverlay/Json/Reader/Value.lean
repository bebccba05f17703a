import SettingsOverlay.Json.Reader.Array
import SettingsOverlay.Json.Reader.Object

/-!
# Reading values

A value is read by recursion on how many containers may still be opened around what it holds: the
reader of what a container holds is the reader of values with one container fewer.

* `readValue`: a value, given how to read a container;
* `Value.reader`: a value with at most the given number of containers inside each other;
* `Value.ofText`: a text that is one value and nothing else but blanks.
-/

namespace SettingsOverlay.Json

/-- Reads the container whose opening bracket comes next, with the reader of what it holds. -/
def readContainer (inner : Reader) : Bytes → Except Fault (Value × Bytes)
  | [] => stopAtNext (.unfinished .value) []
  | b :: bs => if b = '['.toUInt8 then readArray inner bs else readObject inner bs

/-- Reads a value, given how to read the container whose opening bracket comes next. -/
def readValue (container : Bytes → Except Fault (Value × Bytes)) (bs : Bytes) :
    Except Fault (Value × Bytes) :=
  match skipBlanks bs with
  | [] => stopAtNext (.unfinished .value) []
  | b :: rest =>
    if b = 'n'.toUInt8 then do
      let rest ← readLetters ['u', 'l', 'l'] rest
      return (.null, rest)
    else if b = 't'.toUInt8 then do
      let rest ← readLetters ['r', 'u', 'e'] rest
      return (.bool true, rest)
    else if b = 'f'.toUInt8 then do
      let rest ← readLetters ['a', 'l', 's', 'e'] rest
      return (.bool false, rest)
    else if b = '-'.toUInt8 ∨ isDigit b then do
      let (n, rest) ← Number.read (b :: rest)
      return (.number n, rest)
    else if b = '"'.toUInt8 then do
      let (s, rest) ← Quoted.read rest
      return (.string s, rest)
    else if b = '['.toUInt8 ∨ b = '{'.toUInt8 then container (b :: rest)
    else stopAtNext .expectedValue (b :: rest)

theorem length_lt_of_readContainer {inner : Reader} {bs rest : Bytes} {v : Value}
    (h : readContainer inner bs = .ok (v, rest)) : rest.length < bs.length := by
  match bs with
  | [] => simp [readContainer, stopAtNext] at h
  | b :: bs =>
    simp only [readContainer] at h
    simp only [List.length_cons]
    split at h
    · have := length_lt_of_readArray h
      omega
    · have := length_lt_of_readObject h
      omega

theorem length_lt_of_readValue {container : Bytes → Except Fault (Value × Bytes)}
    (hc : ∀ {bs v rest}, container bs = .ok (v, rest) → rest.length < bs.length)
    {bs rest : Bytes} {v : Value} (h : readValue container bs = .ok (v, rest)) :
    rest.length < bs.length := by
  have h₀ := length_skipBlanks_le bs
  simp only [readValue] at h
  split at h
  · simp [stopAtNext] at h
  rename_i b r hs
  rw [hs, List.length_cons] at h₀
  have word {cs : List Char} {w : Value}
      (h : (do let rest ← readLetters cs r; return (w, rest)) = .ok (v, rest)) :
      rest.length < bs.length := by
    obtain ⟨r₁, h₁, h⟩ := bind_eq_ok_iff.1 h
    obtain ⟨-, rfl⟩ := Prod.mk.inj (pure_eq_ok_iff.1 h)
    have := length_le_of_readLetters h₁
    omega
  split at h
  · exact word h
  split at h
  · exact word h
  split at h
  · exact word h
  split at h
  · obtain ⟨⟨n, r₁⟩, h₁, h⟩ := bind_eq_ok_iff.1 h
    obtain ⟨-, rfl⟩ := Prod.mk.inj (pure_eq_ok_iff.1 h)
    have := Number.length_lt_of_read h₁
    simp only [List.length_cons] at *
    omega
  split at h
  · obtain ⟨⟨s, r₁⟩, h₁, h⟩ := bind_eq_ok_iff.1 h
    obtain ⟨-, rfl⟩ := Prod.mk.inj (pure_eq_ok_iff.1 h)
    have := Quoted.length_lt_of_read h₁
    dsimp only at *
    omega
  split at h
  · have := hc h
    simp only [List.length_cons] at this
    omega
  · simp [stopAtNext] at h

/-- The reader of values in which at most the given number of containers stand inside each
other. The bracket that opens one more is refused. -/
def Value.reader : Nat → Reader
  | 0 =>
    ⟨readValue fun bs => stopAtNext .tooDeep bs,
      length_lt_of_readValue fun h => by simp [stopAtNext] at h⟩
  | depth + 1 =>
    ⟨readValue (readContainer (Value.reader depth)),
      length_lt_of_readValue length_lt_of_readContainer⟩

/-- How many containers may stand inside each other. -/
def maxDepth : Nat := 127

/-- The value that some bytes spell, with blanks around it. -/
def Value.ofText (bs : Bytes) : Except Fault Value := do
  let (v, rest) ← (Value.reader maxDepth).run bs
  match skipBlanks rest with
  | [] => return v
  | b :: rest => stopAtNext .trailingCharacters (b :: rest)

end SettingsOverlay.Json
