import SettingsOverlay.Files

/-!
# Errors on their way to the report

Between an operation that fails and the report on it, parts of the program pass the error on, and
each of them may wrap it in an error of its own. Such an error has the words and the causes of what
it wraps, so the layers show in the error and not in the report.

* `Passed`: an error with the layers around it, `Passed.chain` with its causes;
* `Passed.explain`: the report on an error;
* `Logger.setUpError`: what it is passed on as that a logger is not set up.
-/

namespace SettingsOverlay

open Disk

/-- What an error is wrapped as: the part of the program that it comes from. -/
inductive Layer where
  | files
  | document
  | logger
  deriving DecidableEq, Repr

/-- An error on its way to the report. -/
inductive Passed where
  /-- What the system says. -/
  | system (fault : Fault)
  /-- What was tried when the system said so. -/
  | files (failure : Failure)
  /-- Why there is no log. -/
  | logger (fault : Logger.Fault)
  /-- What a part of the program passes on of another one. -/
  | wrapped (layer : Layer) (error : Passed)
  deriving DecidableEq, Repr

namespace Passed

/-- The words of an error. A wrapper speaks with those of what it wraps. -/
def message : Passed → String
  | system fault => fault.message
  | files failure => failure.message
  | logger fault => fault.message
  | wrapped _ error => error.message

/-- What an error is due to, one cause behind the other. A wrapper is due to what causes that
which it wraps. -/
def causes : Passed → List Passed
  | system _ => []
  | files failure => [system failure.fault]
  | logger _ => []
  | wrapped _ error => error.causes

/-- An error and its causes. -/
def chain (e : Passed) : List Passed := e :: e.causes

/-- The failure that is passed on. -/
def failure? : Passed → Option Failure
  | system _ => none
  | files failure => some failure
  | logger _ => none
  | wrapped _ error => error.failure?

end Passed

/-- A text that begins in its own column, its further lines moved under its first. -/
def hanging (lead s : String) : String :=
  lead ++ String.ofList (s.toList.flatMap fun c =>
    if c = '\n' then '\n' :: List.replicate lead.length ' ' else [c])

/-- A text in a numbered list. -/
def listed (number : Nat) (s : String) : String :=
  hanging (alignRight ' ' 5 (toString number) ++ ": ") s

namespace Passed

/-- The report on an error: what was to be done, and then the error and its causes. They have
numbers if there are several. -/
def explain (e : Passed) (aim : String) : String :=
  "Error: " ++ aim ++ "\n\nCaused by:\n" ++
    match e.chain with
    | [only] => hanging "    " only.message ++ "\n"
    | several => String.join (several.zipIdx.map fun c => listed c.2 c.1.message ++ "\n")

/-- The report on the error of a run. -/
def report (e : Passed) (target : Path) : String := e.explain ("Failed to update " ++ target.text)

end Passed

/-- The error that a logger which cannot be set up is passed on as. -/
def Logger.setUpError (fault : Logger.Fault) : Passed := .wrapped .logger (.logger fault)

end SettingsOverlay
