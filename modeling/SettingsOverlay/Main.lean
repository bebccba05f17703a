import Std.Time
import SettingsOverlay.Command

/-!
# The program

The command on the machine's own disk, standard output and clock. Everything it does is decided in
`Command`; here the operations of a `Host` are carried out.
-/

namespace SettingsOverlay

open Disk

/-- Actions on the machine, whose log is shown as the logger has it. -/
abbrev Machine := ReaderT Logger IO

namespace Machine

/-- Why the system refused. -/
def faultOf : IO.Error → Fault
  | .alreadyExists _ code text | .invalidArgument _ code text | .permissionDenied _ code text
  | .resourceExhausted _ code text | .inappropriateType _ code text | .noSuchThing _ code text
  | .interrupted _ code text | .noFileOrDirectory _ code text
  | .otherError code text | .resourceBusy code text | .resourceVanished code text
  | .unsupportedOperation code text | .hardwareFault code text
  | .unsatisfiedConstraints code text | .illegalOperation code text | .protocolError code text
  | .timeExpired code text => .ofCode code.toNat text
  | .unexpectedEof => .other "unexpected end of file"
  | .userError text => .other text

/-- Carries out an operation on a path. -/
def attempt {α : Type} (p : Path) (operation : String → IO α) : Machine (Except Fault α) := do
  if p.text.toList.contains '\x00' then return .error .nulInName
  match ← (operation p.text).toBaseIO with
  | .ok a => return .ok a
  | .error e => return .error (faultOf e)

/-- The content of a file. -/
def readFile (p : Path) : Machine (Except Fault Bytes) :=
  attempt p fun text => do
    let handle ← IO.FS.Handle.mk text .read
    return (← handle.readBinToEnd).toList

/-- The time of day here. -/
def now : IO Stamp := do
  let t ← Std.Time.PlainDateTime.now
  return {
    month := t.month.val.toNat
    day := t.day.val.toNat
    hour := t.hour.val.toNat
    minute := t.minute.val.toNat
    second := t.second.val.toNat
    millisecond := t.nanosecond.val.toNat / 1000000 }

/-- Prints a notice, if it passes the filter. -/
def report (n : Notice) : Machine Unit := do
  let logger ← read
  if logger.filter.passes n.level then
    let stamp? ← if logger.timestamps then some <$> now else pure none
    IO.print (n.record.line stamp?)

end Machine

/-- A directory is what cannot be read because it is one. -/
instance : Host Machine where
  readFile := Machine.readFile
  writeFile p data := Machine.attempt p fun text => IO.FS.writeBinFile text ⟨data.toArray⟩
  makeDir p := Machine.attempt p fun text => IO.FS.createDir text
  namesDir p := return (← Machine.readFile p) matches .error .isDirectory
  report := Machine.report

end SettingsOverlay

open SettingsOverlay in
/-- The command line program. -/
def main (arguments : List String) : IO UInt32 := do
  let exit ← match Command.prepare none arguments with
    | .error exit => pure exit
    | .ok (given, logger) => (Command.execute given : Machine Exit).run logger
  IO.print exit.output
  IO.eprint exit.errors
  return exit.code.toUInt32
