import SettingsOverlay.Json.Fault
import SettingsOverlay.Json.Value

/-!
# Readers

A reader takes a value off the front of some bytes and gives back what follows. The loops over
elements and members end because each element takes at least one byte, which a `Reader` carries as
a proof; the lemmas here say that what stands between values takes no bytes back.

* `Reader`: a reader of values;
* `skipBlanks`, `readLetters`, `skipComma`: what stands between values, and the words.
-/

namespace SettingsOverlay.Json

/-- A reader of values, which takes at least one byte where it succeeds. -/
structure Reader where
  run : Bytes → Except Fault (Value × Bytes)
  length_lt : ∀ {bs v rest}, run bs = .ok (v, rest) → rest.length < bs.length

/-- Whether a byte is blank: a space, a line feed, a tabulator or a carriage return. -/
def isBlank (b : UInt8) : Bool :=
  b == ' '.toUInt8 || b == '\n'.toUInt8 || b == '\t'.toUInt8 || b == '\r'.toUInt8

/-- The bytes behind the blanks at the front. -/
def skipBlanks (bs : Bytes) : Bytes := bs.dropWhile isBlank

/-- Reads the letters of a word. -/
def readLetters : List Char → Bytes → Except Fault Bytes
  | [], bs => .ok bs
  | _ :: _, [] => stop (.unfinished .value) []
  | c :: cs, b :: bs => if b = c.toUInt8 then readLetters cs bs else stop .expectedWord bs

/-- Goes from behind a comma to what comes next, which must not be the end of the container. -/
def skipComma (close : Char) (bs : Bytes) : Except Fault Bytes :=
  let bs := skipBlanks bs
  if bs.head? = some close.toUInt8 then stopAtNext .trailingComma bs else .ok bs

theorem length_skipBlanks_le (bs : Bytes) : (skipBlanks bs).length ≤ bs.length :=
  (List.dropWhile_suffix _).length_le

theorem length_le_of_readLetters {cs : List Char} {bs rest : Bytes}
    (h : readLetters cs bs = .ok rest) : rest.length ≤ bs.length := by
  fun_induction readLetters cs bs with
  | case1 bs => simp_all
  | case2 => simp [stop] at h
  | case3 cs bs c ih =>
    have := ih h
    simp only [List.length_cons]
    omega
  | case4 => simp [stop] at h

theorem length_le_of_skipComma {close : Char} {bs rest : Bytes}
    (h : skipComma close bs = .ok rest) : rest.length ≤ bs.length := by
  simp only [skipComma] at h
  split at h
  · simp [stopAtNext] at h
  · simp only [Except.ok.injEq] at h
    exact h ▸ length_skipBlanks_le bs

end SettingsOverlay.Json
