/-!
# Log lines

Records have a level, and a filter lets those through that are at least as severe as itself.

* `Level.passes`: which levels a filter lets through;
* `Level.chosen`: the filter that the user asks for;
* `Record.line`: a record as it is written, with a time stamp or without;
* `Logger.setUp`: the logger of a process, which is set up once.
-/

namespace SettingsOverlay

/-- How severe a record is, the most severe first. -/
inductive Level where
  | error
  | warn
  | info
  | debug
  | trace
  deriving DecidableEq, Repr

namespace Level

/-- The place of a level, counted from the most severe. -/
def rank : Level → Nat
  | error => 0
  | warn => 1
  | info => 2
  | debug => 3
  | trace => 4

/-- Whether a level is at least as severe as the filter. -/
def passes (filter level : Level) : Bool := level.rank ≤ filter.rank

/-- The name of a level. -/
def name : Level → String
  | error => "ERROR"
  | warn => "WARN"
  | info => "INFO"
  | debug => "DEBUG"
  | trace => "TRACE"

/-- The filter that is asked for: `quiet` wins, and each `verbose` lets one more level through. -/
def chosen (quiet : Bool) (verbose : Nat) : Level :=
  match quiet, verbose with
  | true, _ => warn
  | false, 0 => info
  | false, 1 => debug
  | false, _ => trace

end Level

/-- A message and how severe it is. -/
structure Record where
  level : Level
  message : String
  deriving DecidableEq, Repr

/-- A text moved to the right end of a field that is filled up with a character. -/
def alignRight (fill : Char) (width : Nat) (s : String) : String :=
  String.ofList (List.replicate (width - s.length) fill) ++ s

/-- A time within the year. -/
structure Stamp where
  month : Nat
  day : Nat
  hour : Nat
  minute : Nat
  second : Nat
  millisecond : Nat
  deriving DecidableEq, Repr

/-- A time as it is written, such as `03/31 08:05:00.017`. -/
def Stamp.text (s : Stamp) : String :=
  let two (n : Nat) : String := alignRight '0' 2 (toString n)
  two s.month ++ "/" ++ two s.day ++ " " ++ two s.hour ++ ":" ++ two s.minute ++ ":" ++
    two s.second ++ "." ++ alignRight '0' 3 (toString s.millisecond)

/-- A record as it is written: the time if there is one, the level in five columns, and the
message, with its own line feeds kept. -/
def Record.line (stamp? : Option Stamp) (r : Record) : String :=
  (match stamp? with
    | some stamp => stamp.text ++ " "
    | none => "") ++ alignRight ' ' 5 r.level.name ++ " " ++ r.message ++ "\n"

/-- How the log is shown: which records, and whether with the time. -/
structure Logger where
  filter : Level
  timestamps : Bool
  deriving DecidableEq, Repr

namespace Logger

/-- Why a logger is not set up. -/
inductive Fault where
  /-- There is one already. -/
  | alreadySet
  deriving DecidableEq, Repr

/-- The reason in words. -/
def Fault.message : Fault → String
  | alreadySet =>
    "attempted to set a logger after the logging system was already initialized"

/-- Makes a logger that of a process, unless the process has one. The result is the logger that
the process has from then on. -/
def setUp (current? : Option Logger) (logger : Logger) : Except Fault Logger :=
  match current? with
  | none => .ok logger
  | some _ => .error .alreadySet

end Logger

end SettingsOverlay
