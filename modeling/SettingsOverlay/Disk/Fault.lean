/-!
# Why the system refuses

The reasons for which reading, writing or creating can fail, with the texts that the system has
for them.
-/

namespace SettingsOverlay.Disk

/-- Why the system refuses an operation. -/
inductive Fault where
  | notFound
  | alreadyExists
  | notDirectory
  | isDirectory
  | nameTooLong
  | nulInName
  /-- Any other reason, in the system's words. -/
  | other (text : String)
  deriving DecidableEq, Repr

/-- The system's words. -/
def Fault.message : Fault → String
  | notFound => "No such file or directory (os error 2)"
  | alreadyExists => "File exists (os error 17)"
  | notDirectory => "Not a directory (os error 20)"
  | isDirectory => "Is a directory (os error 21)"
  | nameTooLong => "File name too long (os error 36)"
  | nulInName => "file name contained an unexpected NUL byte"
  | other text => text

/-- The reason that the system gives by its number, with the number's text. -/
def Fault.ofCode (code : Nat) (text : String) : Fault :=
  match code with
  | 2 => notFound
  | 17 => alreadyExists
  | 20 => notDirectory
  | 21 => isDirectory
  | 36 => nameTooLong
  | _ => other (text ++ " (os error " ++ toString code ++ ")")

end SettingsOverlay.Disk
