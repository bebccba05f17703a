import SettingsOverlay.Host

/-!
# Files and their directories

Reading, writing and making directories, with errors that say what was tried and on which path.

* `Files.load`: the content of a file, or nothing if it is not there;
* `Files.dump`: writes a file;
* `Files.makeParent`: creates the directory of a file and the ones above it.
-/

namespace SettingsOverlay

open Disk

/-- What was tried on a path. -/
inductive Attempt where
  | read
  | write
  | makeDir
  deriving DecidableEq, Repr

/-- What was tried, where, and why it failed. -/
structure Failure where
  attempt : Attempt
  path : Path
  fault : Fault
  deriving DecidableEq, Repr

/-- An attempt in words. -/
def Attempt.describe : Attempt → String
  | read => "read"
  | write => "write"
  | makeDir => "create directory"

/-- A failure in words. -/
def Failure.message (f : Failure) : String :=
  "Failed to " ++ f.attempt.describe ++ " `" ++ f.path.text ++ "`: " ++ f.fault.message

namespace Files

variable {m : Type → Type} [Monad m] [Host m]

/-- The content of a file, or `none` if there is no file. -/
def load (p : Path) : ExceptT Failure m (Option Bytes) := ExceptT.mk do
  match ← Host.readFile p with
  | .ok data => return .ok (some data)
  | .error .notFound =>
    Host.report (.notFound p)
    return .ok none
  | .error fault => return .error ⟨.read, p, fault⟩

/-- Writes a file. -/
def dump (p : Path) (data : Bytes) : ExceptT Failure m Unit := ExceptT.mk do
  match ← Host.writeFile p data with
  | .ok () => return .ok ()
  | .error fault => return .error ⟨.write, p, fault⟩

/-- What a refused directory means: nothing is wrong if it is there all the same. -/
def settle (p : Path) (fault : Fault) : m (Except Fault Unit) := do
  if ← Host.namesDir p then return .ok () else return .error fault

/-- Creates the first of some directories, each of which stands in the next one. Those above are
created only if the first cannot be without them. -/
def makeAll : List Path → m (Except Fault Unit)
  | [] => return .ok ()
  | p :: above => do
    match ← Host.makeDir p with
    | .ok () => return .ok ()
    | .error .notFound =>
      match ← makeAll above with
      | .error fault => return .error fault
      | .ok () =>
        match ← Host.makeDir p with
        | .ok () => return .ok ()
        | .error fault => settle p fault
    | .error fault => settle p fault

/-- Creates the directory that a path stands in, and the ones above it. -/
def makeParent (p : Path) : ExceptT Failure m Unit := ExceptT.mk do
  match p.ancestors with
  | [] => return .ok ()
  | parent :: above =>
    match ← makeAll (parent :: above) with
    | .ok () => return .ok ()
    | .error fault => return .error ⟨.makeDir, parent, fault⟩

end Files

end SettingsOverlay
