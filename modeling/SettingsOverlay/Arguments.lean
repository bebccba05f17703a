import SettingsOverlay.Text.ControlSequence
import SettingsOverlay.Overlay

/-!
# The command line

Arguments are read from left to right into what was given so far. An option whose value comes in
the next argument stays open until that value is known to stand, which is decided when the next
option is recognised or the arguments end: only then can a repeated option or an empty value be
refused. An argument that is recognised as nothing is therefore refused first.

* `Given.ofArguments`: everything that was given, or why the command stops;
* `Given.overlay`, `Given.logger`: what a run needs of it;
* `Misuse.message`: what is wrong with the arguments.
-/

namespace SettingsOverlay

/-- An option that takes a value. -/
inductive Slot where
  | supplement
  | target
  deriving DecidableEq, Repr

/-- An option that stands alone. -/
inductive Switch where
  | quiet
  | verbose
  | timestamps
  | help
  | version
  deriving DecidableEq, Repr

/-- An option. -/
inductive Item where
  | slot (s : Slot)
  | switch (s : Switch)
  deriving DecidableEq, Repr

namespace Item

/-- The option with a long name. -/
def ofName? (name : String) : Option Item :=
  [("supplement", slot .supplement), ("target", slot .target), ("quiet", switch .quiet),
    ("verbose", switch .verbose), ("timestamps", switch .timestamps), ("help", switch .help),
    ("version", switch .version)].lookup name

/-- The option of a letter. -/
def ofLetter? (letter : Char) : Option Item :=
  [('s', slot .supplement), ('t', slot .target), ('q', switch .quiet), ('v', switch .verbose),
    ('h', switch .help), ('V', switch .version)].lookup letter

end Item

/-- How an option with a value is shown. -/
def Slot.usage : Slot → String
  | supplement => "--supplement <FILE>"
  | target => "--target <FILE>"

/-- How an option that stands alone is shown. -/
def Switch.usage : Switch → String
  | quiet => "--quiet"
  | verbose => "--verbose..."
  | timestamps => "--timestamps"
  | help => "--help"
  | version => "--version"

/-- How an option is shown. -/
def Item.usage : Item → String
  | slot s => s.usage
  | switch s => s.usage

/-- What is wrong with the arguments. -/
inductive Misuse where
  | unexpectedArgument (argument : String)
  | unexpectedValue (value : String) (option : Switch)
  | missingValue (option : Slot)
  | repeated (option : Item)
  deriving DecidableEq, Repr

/-- A misuse in words, in which what was given cannot steer a terminal. -/
def Misuse.message : Misuse → String
  | unexpectedArgument argument =>
    "unexpected argument '" ++ ControlSequence.visible argument ++ "' found"
  | unexpectedValue value option =>
    "unexpected value '" ++ ControlSequence.visible value ++ "' for '" ++ option.usage ++
      "' found; no more were expected"
  | missingValue option =>
    "a value is required for '" ++ option.usage ++ "' but none was supplied"
  | repeated option => "the argument '" ++ option.usage ++ "' cannot be used multiple times"

/-- Why a command stops at its arguments. -/
inductive Stop where
  | help
  | version
  | misuse (m : Misuse)
  deriving DecidableEq, Repr

/-- What the arguments gave. -/
structure Given where
  supplement : Option String := none
  target : Option String := none
  quiet : Bool := false
  verbose : Nat := 0
  timestamps : Bool := false
  deriving DecidableEq, Repr

/-- `verbose` is not counted beyond this. -/
def maxVerbose : Nat := 255

namespace Given

/-- The value of an option. -/
def value? (g : Given) : Slot → Option String
  | .supplement => g.supplement
  | .target => g.target

/-- Takes the value of an option, which must be new and not empty. -/
def fill (g : Given) (s : Slot) (value : String) : Except Stop Given :=
  if (g.value? s).isSome then .error (.misuse (.repeated (.slot s)))
  else if value = "" then .error (.misuse (.missingValue s))
  else
    match s with
    | .supplement => .ok { g with supplement := some value }
    | .target => .ok { g with target := some value }

/-- Takes an option that stands alone; only `verbose` may be given again. -/
def turn (g : Given) : Switch → Except Stop Given
  | .quiet =>
    if g.quiet then .error (.misuse (.repeated (.switch .quiet)))
    else .ok { g with quiet := true }
  | .verbose => .ok { g with verbose := min (g.verbose + 1) maxVerbose }
  | .timestamps =>
    if g.timestamps then .error (.misuse (.repeated (.switch .timestamps)))
    else .ok { g with timestamps := true }
  | .help => .error .help
  | .version => .error .version

/-- The files of the run. -/
def overlay (g : Given) : Overlay where
  supplement := g.supplement.elim ({} : Overlay).supplement Path.ofText
  target := g.target.elim ({} : Overlay).target Path.ofText

/-- The filter of the log. -/
def filter (g : Given) : Level := .chosen g.quiet g.verbose

/-- How the log is to be shown. -/
def logger (g : Given) : Logger := ⟨g.filter, g.timestamps⟩

end Given

/-- What was given, and the option that is still open, with its value if that was seen. -/
structure Reading where
  given : Given
  pending : Option (Slot × Option String)
  deriving DecidableEq, Repr

namespace Reading

/-- Closes the open option. -/
def close (r : Reading) : Except Stop Given :=
  match r.pending with
  | none => .ok r.given
  | some (s, none) => .error (.misuse (.missingValue s))
  | some (s, some value) => r.given.fill s value

/-- Takes an option and its value from one argument. -/
def attach (r : Reading) (s : Slot) (value : String) : Except Stop Reading := do
  let g ← r.close
  let g ← g.fill s value
  return ⟨g, none⟩

/-- Takes an option whose value is to come. -/
def await (r : Reading) (s : Slot) : Except Stop Reading := do
  let g ← r.close
  return ⟨g, some (s, none)⟩

/-- Takes an option that stands alone. -/
def turn (r : Reading) (s : Switch) : Except Stop Reading := do
  let g ← r.close
  let g ← g.turn s
  return ⟨g, none⟩

/-- Takes what follows two dashes: a name, and a value behind the first equals sign. -/
def long (r : Reading) (body : List Char) : Except Stop Reading :=
  let name := String.ofList (body.takeWhile (· != '='))
  match Item.ofName? name, body.dropWhile (· != '=') with
  | none, _ => .error (.misuse (.unexpectedArgument ("--" ++ name)))
  | some (.slot s), [] => r.await s
  | some (.slot s), _ :: value => r.attach s (String.ofList value)
  | some (.switch s), [] => r.turn s
  | some (.switch s), _ :: value => .error (.misuse (.unexpectedValue (String.ofList value) s))

/-- Takes the letters that follow a single dash. What follows the letter of an option with a
value is that value, with or without an equals sign before it. -/
def short (r : Reading) : List Char → Except Stop Reading
  | [] => .ok r
  | letter :: letters =>
    match Item.ofLetter? letter, letters with
    | none, _ => .error (.misuse (.unexpectedArgument (String.ofList ['-', letter])))
    | some (.switch s), letters => do
      let r ← r.turn s
      short r letters
    | some (.slot s), [] => r.await s
    | some (.slot s), '=' :: value => r.attach s (String.ofList value)
    | some (.slot s), value => r.attach s (String.ofList value)

/-- Takes an argument that is no option: the value that is waited for. -/
def plain (r : Reading) (argument : String) : Except Stop Reading :=
  match r.pending with
  | some (s, none) => .ok { r with pending := some (s, some argument) }
  | _ => .error (.misuse (.unexpectedArgument argument))

/-- Takes all the arguments. Two dashes alone end the options, and nothing may follow them. -/
def all (r : Reading) : List String → Except Stop Given
  | [] => r.close
  | argument :: arguments =>
    match argument.toList, arguments with
    | ['-', '-'], [] => r.close
    | ['-', '-'], next :: _ => .error (.misuse (.unexpectedArgument next))
    | '-' :: '-' :: body, arguments => do
      let r ← r.long body
      all r arguments
    | '-' :: letter :: letters, arguments => do
      let r ← r.short (letter :: letters)
      all r arguments
    | _, arguments => do
      let r ← r.plain argument
      all r arguments

end Reading

/-- What some arguments give. -/
def Given.ofArguments (arguments : List String) : Except Stop Given :=
  (Reading.mk {} none).all arguments

end SettingsOverlay
