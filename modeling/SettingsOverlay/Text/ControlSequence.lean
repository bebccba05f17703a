import SettingsOverlay.Text.Utf8

/-!
# Control sequences of a terminal

A text that no terminal reads is shown without what would steer one: the sequences that an escape
character opens, in the forms of ECMA-48, and every control character that is not white space.

* `Scan.shows` and `Scan.next`: whether a character is shown, and where it leaves the text;
* `visible`: the part of a text that is shown;
* `isVisible_of_mem_visible`: no control character stays except white space;
* `visible_eq_self`: a text without control characters stays as it is.

White space inside a sequence is shown, and so is what directly follows it; the sequence goes on at
the next control character.
-/

namespace SettingsOverlay.ControlSequence

/-- A sequence that has begun and not ended. -/
inductive Sequence where
  /-- Only its escape character was seen. -/
  | escape
  /-- An escape character and intermediate characters were seen. -/
  | escapeIntermediate
  /-- Within `ESC [`. -/
  | control
  /-- Directly after `ESC P`. -/
  | device
  /-- Within the parameters of a device control. -/
  | deviceParameter
  /-- Within the intermediate characters of a device control. -/
  | deviceIntermediate
  /-- Within the string that `ESC X`, `ESC ^`, `ESC _` or a device control opens. -/
  | string
  /-- Within `ESC ]`. -/
  | command
  deriving DecidableEq, Repr

/-- Where in a text a character stands. -/
inductive Scan where
  /-- Outside of all sequences, or behind white space that interrupted one. -/
  | text (interrupted : Option Sequence)
  | inside (s : Sequence)
  deriving DecidableEq, Repr

/-- A tab, a line feed, a form feed or a carriage return. -/
def isBlankControl (c : Char) : Bool := c ∈ ['\t', '\n', '\x0c', '\r']

/-- A character that is not a control character, or is white space. The control characters above
U+007F are shown as well. -/
def isVisible (c : Char) : Bool := isBlankControl c || (' ' ≤ c && c ≠ '\x7f')

/-- A character between the introducer of a sequence and its final character. -/
def isIntermediate (c : Char) : Bool := ' ' ≤ c && c ≤ '/'

/-- A character that may stand in a parameter, or a mark of a private one. -/
def isParameter (c : Char) : Bool := '0' ≤ c && c ≤ '?'

/-- A character that ends a control sequence. -/
def isFinal (c : Char) : Bool := '@' ≤ c && c ≤ '~'

/-- A character above U+007F with the string terminator, 9C, among its bytes. -/
def isTerminator (c : Char) : Bool := (Utf8.encodeChar c).contains 0x9c

/-- White space is shown within these sequences, and not within strings. -/
def Sequence.showsBlanks : Sequence → Bool
  | escape | escapeIntermediate | control => true
  | device | deviceParameter | deviceIntermediate | string | command => false

/-- What the character directly after an escape character opens. -/
def Sequence.opened (c : Char) : Scan :=
  if isIntermediate c then .inside escapeIntermediate
  else if c = '[' then .inside control
  else if c = ']' then .inside command
  else if c = 'P' then .inside device
  else if c ∈ ['X', '^', '_'] then .inside string
  else if isParameter c || isFinal c then .text none
  else .inside escape

/-- What a character of a sequence leaves open. One that has no meaning there changes nothing. -/
def Sequence.next (s : Sequence) (c : Char) : Scan :=
  match s with
  | escape => opened c
  | escapeIntermediate => if isParameter c || isFinal c then .text none else .inside s
  | control => if isFinal c then .text none else .inside s
  | device =>
    if isIntermediate c then .inside deviceIntermediate
    else if isParameter c then .inside deviceParameter
    else if isFinal c then .inside string
    else .inside s
  | deviceParameter =>
    if isIntermediate c then .inside deviceIntermediate
    else if '<' ≤ c && c ≤ '~' then .inside string
    else .inside s
  | deviceIntermediate => if isParameter c || isFinal c then .inside string else .inside s
  | string => if isTerminator c then .text none else .inside s
  | command => if c = '\x07' then .text none else .inside s

namespace Scan

/-- Whether a character is shown. -/
def shows : Scan → Char → Bool
  | text _, c => isVisible c
  | inside s, c => s.showsBlanks && isBlankControl c

/-- Where a character leaves the text. An escape character opens a sequence wherever it stands, and
a cancel or substitute character ends one. -/
def next (scan : Scan) (c : Char) : Scan :=
  if c = '\x1b' then inside .escape
  else if c = '\x18' || c = '\x1a' then text none
  else
    match scan with
    | text interrupted =>
      if '\x7f' < c then text none
      else if isVisible c then text interrupted
      else interrupted.elim (text none) inside
    | inside s => if s.showsBlanks && isBlankControl c then text (some s) else s.next c

/-- What is shown of a text; `before` holds what is shown of the text before it, last first. -/
def visibleAfter (before : List Char) (scan : Scan) : List Char → List Char
  | [] => before.reverse
  | c :: cs => visibleAfter (if scan.shows c then c :: before else before) (scan.next c) cs

theorem isVisible_of_shows {scan : Scan} {c : Char} (h : scan.shows c) : isVisible c := by
  cases scan with
  | text => exact h
  | inside s => simp_all [shows, isVisible]

theorem mem_visibleAfter {before cs : List Char} {scan : Scan} {c : Char}
    (h : c ∈ visibleAfter before scan cs) : c ∈ before ∨ isVisible c := by
  induction cs generalizing before scan with
  | nil => exact .inl (List.mem_reverse.1 h)
  | cons d cs ih =>
    rcases ih h with h | h
    · split at h
      · rcases List.mem_cons.1 h with rfl | h
        · exact .inr (isVisible_of_shows ‹_›)
        · exact .inl h
      · exact .inl h
    · exact .inr h

/-- Visible characters leave a text outside of all sequences. -/
theorem next_text {c : Char} (h : isVisible c) : (text none).next c = text none := by
  have h1 : c ≠ '\x1b' := fun e => by subst e; exact absurd h (by decide)
  unfold next
  rw [if_neg h1]
  simp [h]

theorem visibleAfter_eq {cs : List Char} (h : ∀ c ∈ cs, isVisible c) (before : List Char) :
    visibleAfter before (text none) cs = before.reverse ++ cs := by
  induction cs generalizing before with
  | nil => simp [visibleAfter]
  | cons c cs ih =>
    have hc : isVisible c := h c List.mem_cons_self
    rw [visibleAfter, next_text hc, ih fun d hd => h d (List.mem_cons_of_mem c hd)]
    simp [shows, hc]

end Scan

/-- The part of a text that is shown. -/
def visible (text : String) : String :=
  String.ofList (Scan.visibleAfter [] (.text none) text.toList)

/-- No control character is shown except white space. -/
theorem isVisible_of_mem_visible {text : String} {c : Char} (h : c ∈ (visible text).toList) :
    isVisible c := by
  rw [visible, String.toList_ofList] at h
  exact (Scan.mem_visibleAfter h).resolve_left List.not_mem_nil

/-- All of a text is shown that has no control character except white space. -/
theorem visible_eq_self {text : String} (h : ∀ c ∈ text.toList, isVisible c) :
    visible text = text := by
  rw [visible, Scan.visibleAfter_eq h]
  simp

end SettingsOverlay.ControlSequence
