import SettingsOverlay.Disk.Resolution
import SettingsOverlay.Notice

/-!
# What a run works on

A run needs four operations on files and a log. `Host` names them, so that the same definitions
run on the machine's disk and on a `Workspace`, which is a tree and a journal of what was reported.

* `Report`: a notice beside the tree as it stood when the notice was given;
* `Workspace.refuseOr`: a workspace after an operation that may be refused.
-/

namespace SettingsOverlay

open Disk

/-- What a run asks of the system. -/
class Host (m : Type → Type) where
  /-- The content of a file. -/
  readFile : Path → m (Except Fault Bytes)
  /-- Creates a file or replaces its content. -/
  writeFile : Path → Bytes → m (Except Fault Unit)
  /-- Creates a directory, whose parent must be there. -/
  makeDir : Path → m (Except Fault Unit)
  /-- Whether a path names a directory. -/
  namesDir : Path → m Bool
  /-- Puts a notice into the log. -/
  report : Notice → m Unit

/-- A notice, and the tree as it stood when the notice was given. -/
structure Report where
  notice : Notice
  tree : Tree

/-- A tree, and what was reported, in order. -/
structure Workspace where
  tree : Tree
  journal : List Report

namespace Workspace

/-- The workspace with the new tree, unless the operation was refused. -/
def refuseOr (w : Workspace) : Except Fault Tree → Except Fault Unit × Workspace
  | .ok tree => (.ok (), { w with tree })
  | .error fault => (.error fault, w)

/-- The notices of the journal. -/
def notices (w : Workspace) : List Notice := w.journal.map (·.notice)

end Workspace

instance : Host (StateM Workspace) where
  readFile p w := (w.tree.read p, w)
  writeFile p data w := w.refuseOr (w.tree.write p data)
  makeDir p w := w.refuseOr (w.tree.makeDir p)
  namesDir p w := (w.tree.namesDir p, w)
  report n w := ((), { w with journal := w.journal ++ [⟨n, w.tree⟩] })

end SettingsOverlay
