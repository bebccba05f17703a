import SettingsOverlay.Arguments

/-!
# The command

What the command prints and how it ends. The notices of a run go to the standard output as they
come, each through the filter; whatever else is printed makes up an `Exit`.

* `Stop.exit`: the end of a command that stops at its arguments;
* `Command.prepare`: what comes before the run;
* `Command.execute`: the run that the arguments ask for;
* `Command.run`: the whole command on a tree.
-/

namespace SettingsOverlay

/-- How a command ends: its exit code, and what it prints beside the log. -/
structure Exit where
  code : Nat
  output : String
  errors : String
  deriving DecidableEq, Repr

/-- The name and the number of the command. -/
def versionText : String := "add-debug-settings 0.1.0\n"

/-- What the command can do. -/
def helpText : String :=
  "Merge editor debug settings into a VS Code settings file\n" ++
  "\n" ++
  "Usage: add-debug-settings [OPTIONS]\n" ++
  "\n" ++
  "Options:\n" ++
  "  -s, --supplement <FILE>  JSON object whose keys are added to the settings " ++
    "[default: ./tools/vscode_debug_settings.json]\n" ++
  "  -t, --target <FILE>      Settings file to create or update " ++
    "[default: .vscode/settings.json]\n" ++
  "  -q, --quiet              Only report problems\n" ++
  "  -v, --verbose...         More output, repeat for more\n" ++
  "      --timestamps         Prefix log lines with a timestamp\n" ++
  "  -h, --help               Print help\n" ++
  "  -V, --version            Print version\n"

/-- The end of a command that stops at its arguments. -/
def Stop.exit : Stop → Exit
  | help => ⟨0, helpText, ""⟩
  | version => ⟨0, versionText, ""⟩
  | misuse m => ⟨2, "", "error: " ++ m.message ++ "\n"⟩

namespace Command

/-- What comes before the run: the arguments are read, and the logger is set up that they ask for.
The process may have a logger already. A command that cannot go on ends here. -/
def prepare (current? : Option Logger) (arguments : List String) : Except Exit (Given × Logger) :=
  match Given.ofArguments arguments with
  | .error stop => .error stop.exit
  | .ok g =>
    match Logger.setUp current? g.logger with
    | .error fault =>
      .error ⟨1, "", (Logger.setUpError fault).explain "Failed to set up logging"⟩
    | .ok logger => .ok (g, logger)

/-- Runs what the arguments ask for. -/
def execute {m : Type → Type} [Monad m] [Host m] (g : Given) : m Exit := do
  match ← g.overlay.run.run with
  | .ok _ => return ⟨0, "", ""⟩
  | .error failure => return ⟨1, "", (Overlay.runError failure).report g.overlay.target⟩

/-- What a command left behind: the tree, its end, and the lines it logged. -/
structure Outcome where
  tree : Tree
  exit : Exit
  lines : List String

/-- The lines of some notices that pass a filter. The clock gives the time of each notice by
its number. -/
def lines (filter : Level) (clock? : Option (Nat → Stamp)) (notices : List Notice) :
    List String :=
  (notices.zipIdx.filter fun n => filter.passes n.1.level).map fun n =>
    n.1.record.line (clock?.map (· n.2))

/-- The whole command on a tree, in a process of its own. -/
def run (clock : Nat → Stamp) (arguments : List String) (t : Tree) : Outcome :=
  match prepare none arguments with
  | .error exit => ⟨t, exit, []⟩
  | .ok (g, logger) =>
    let (exit, w) := (execute g : StateM Workspace Exit).run ⟨t, []⟩
    ⟨w.tree, exit, lines logger.filter (if logger.timestamps then some clock else none) w.notices⟩

/-- All that a command printed on the standard output. -/
def Outcome.output (o : Outcome) : String := String.join o.lines ++ o.exit.output

end Command

end SettingsOverlay
