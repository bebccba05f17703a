import SettingsOverlay.Disk.Path
import SettingsOverlay.Document
import SettingsOverlay.Log

/-!
# What a run reports

Everything that a run can put into the log, as a type. A problem with the supplement is a warning;
of the target only the debugging records tell anything.
-/

namespace SettingsOverlay

/-- Something a run reports. -/
inductive Notice where
  /-- A file to be read is not there. -/
  | notFound (path : Path)
  /-- The supplement is not there. -/
  | noSupplement (path : Path)
  /-- The supplement is no object. -/
  | badSupplement (path : Path) (reason : Reason)
  /-- The target comes next. -/
  | target (path : Path)
  /-- The target is no object. -/
  | badTarget (path : Path) (reason : Reason)
  /-- The target was written. -/
  | updated (path : Path)
  deriving DecidableEq, Repr

namespace Notice

/-- How severe a notice is. -/
def level : Notice → Level
  | notFound _ | badTarget _ _ => .debug
  | noSupplement _ | badSupplement _ _ => .warn
  | target _ | updated _ => .info

/-- A notice in words. -/
def message : Notice → String
  | notFound path => "Not found: " ++ path.text
  | noSupplement path => path.text ++ " not found, no debug settings to add"
  | badSupplement path reason =>
    "Failed to parse " ++ path.text ++ ", skipping it: " ++ reason.message
  | target path => path.text
  | badTarget path reason => "Replacing unparseable " ++ path.text ++ ": " ++ reason.message
  | updated path => "Updated " ++ path.text ++ " successfully"

/-- The log record of a notice. -/
def record (n : Notice) : Record := ⟨n.level, n.message⟩

end Notice

end SettingsOverlay
