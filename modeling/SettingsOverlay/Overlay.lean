import SettingsOverlay.Json.Layout
import SettingsOverlay.Passed

/-!
# Overlaying settings

A run lays a supplement over a target, one level deep, and writes the target. A document that is
missing or malformed counts as empty; that is reported for the supplement and kept quiet for the
target.

* `Document.load` and `Document.save`: documents in files;
* `Overlay.run`: the whole run, with the object that was written;
* `Document.saveError`, `Overlay.runError`: what their failures are passed on as.
-/

namespace SettingsOverlay

open Json

variable {m : Type → Type} [Monad m] [Host m]

namespace Document

/-- The document in a file. -/
def load (p : Path) : ExceptT Failure m Loaded := do
  match ← Files.load p with
  | some data => return .ofBytes data
  | none => return .missing

/-- Writes an object to a file, whose directories are created if need be. -/
def save (p : Path) (o : Object) : ExceptT Failure m Unit := do
  Files.makeParent p
  Files.dump p o.toBytes

/-- The error that a failure to save is passed on as. An object can always be written as text, so
the failure is one of the files. -/
def saveError (failure : Failure) : Passed := .wrapped .files (.files failure)

end Document

/-- The files of a run. -/
structure Overlay where
  supplement : Path := .ofText "./tools/vscode_debug_settings.json"
  target : Path := .ofText ".vscode/settings.json"
  deriving DecidableEq, Repr

namespace Overlay

/-- The object of the supplement; its absence is reported. -/
def loadSupplement (o : Overlay) : ExceptT Failure m Object := do
  match ← Document.load o.supplement with
  | .found s => return s
  | .missing =>
    ExceptT.lift (Host.report (.noSupplement o.supplement))
    return []
  | .malformed reason =>
    ExceptT.lift (Host.report (.badSupplement o.supplement reason))
    return []

/-- The object of the target. -/
def loadTarget (o : Overlay) : ExceptT Failure m Object := do
  match ← Document.load o.target with
  | .found t => return t
  | .missing => return []
  | .malformed reason =>
    ExceptT.lift (Host.report (.badTarget o.target reason))
    return []

/-- Lays the supplement over the target and writes the target. -/
def run (o : Overlay) : ExceptT Failure m Object := do
  let supplement ← o.loadSupplement
  ExceptT.lift (Host.report (.target o.target))
  let target ← o.loadTarget
  let settings := target.overlay supplement
  Document.save o.target settings
  ExceptT.lift (Host.report (.updated o.target))
  return settings

/-- The error that the failure of a run is passed on as. Loading a document does no more than to
read, and passes on the failure as it is; everything else is tried to save one. -/
def runError (failure : Failure) : Passed :=
  match failure.attempt with
  | .read => .wrapped .files (.files failure)
  | .write | .makeDir => .wrapped .document (Document.saveError failure)

end Overlay

end SettingsOverlay
