import SettingsOverlay.Disk.Fault
import SettingsOverlay.Disk.Path
import SettingsOverlay.Disk.Tree

/-!
# Paths in a tree

What a path names in a tree, and the operations of the system on it. The working directory is the
top of the tree, and the directory above the top is the top itself. A path is walked piece by
piece: a piece other than the last must be a directory when it is walked over, also before `..`.

* `Tree.resolve`: the location that a path names;
* `Tree.vacancy`: the place in a directory where a path would create something;
* `Tree.read`, `Tree.write`, `Tree.makeDir`, `Tree.namesDir`: the operations.
-/

namespace SettingsOverlay

open Disk

/-- How many bytes a name may have. -/
def maxName : Nat := 255

/-- A path must have fewer bytes than this. -/
def pathLimit : Nat := 4096

/-- What is wrong with a path by its text alone. -/
def Path.textFault? (p : Path) : Option Fault :=
  if p.text.toList.contains '\x00' then some .nulInName
  else if p.isEmpty then some .notFound
  else if pathLimit ≤ p.text.utf8ByteSize then some .nameTooLong
  else none

/-- Refuses paths whose text is wrong. -/
def Path.check (p : Path) : Except Fault Unit :=
  match p.textFault? with
  | some fault => .error fault
  | none => .ok ()

/-- Whether a name is too long. -/
def isLong (name : String) : Bool := maxName < name.utf8ByteSize

namespace Tree

/-- Walks over the pieces of a path from a location. -/
def walk (t : Tree) (l : Location) : List String → Except Fault Location
  | [] => .ok l
  | piece :: pieces =>
    if !t.isDir l then .error .notDirectory
    else if Path.isSilent piece then walk t l pieces
    else if piece = ".." then walk t l.dropLast pieces
    else if isLong piece then .error .nameTooLong
    else if (t.at? (l ++ [piece])).isNone then .error .notFound
    else walk t (l ++ [piece]) pieces

/-- The location that a path names. -/
def resolve (t : Tree) (p : Path) : Except Fault Location := do
  p.check
  t.walk [] p.pieces

/-- Where a path ends: a directory, and the name of the entry in it. There is no name if the path
ends in dots or names the root. -/
structure Vacancy where
  dir : Location
  name? : Option String
  slash : Bool
  deriving DecidableEq, Repr

/-- The place where a path would create something. The slashes at its end are set aside. -/
def vacancy (t : Tree) (p : Path) : Except Fault Vacancy := do
  p.check
  let pieces := Path.dropBack (· == "") p.pieces
  let l ← t.walk [] pieces.dropLast
  if !t.isDir l then .error .notDirectory
  else
    match pieces.getLast? with
    | none => return ⟨l, none, true⟩
    | some name =>
      return ⟨l, if name = "." ∨ name = ".." then none else some name,
        pieces.length < p.pieces.length⟩

/-- The content of the file that a path names. -/
def read (t : Tree) (p : Path) : Except Fault Bytes := do
  let l ← t.resolve p
  match t.at? l with
  | some (.file data) => .ok data
  | some .dir => .error .isDirectory
  | none => .error .notFound

/-- The tree after some bytes were written to the file that a path names, or to a new one. -/
def write (t : Tree) (p : Path) (data : Bytes) : Except Fault Tree := do
  let v ← t.vacancy p
  match v.name? with
  | none => .error .isDirectory
  | some name =>
    if v.slash then .error .isDirectory
    else if isLong name then .error .nameTooLong
    else if t.isDir (v.dir ++ [name]) then .error .isDirectory
    else .ok (t.put (.file data) (v.dir ++ [name]))

/-- The tree with a new directory. -/
def makeDir (t : Tree) (p : Path) : Except Fault Tree := do
  let v ← t.vacancy p
  match v.name? with
  | none => .error .alreadyExists
  | some name =>
    if isLong name then .error .nameTooLong
    else if (t.at? (v.dir ++ [name])).isSome then .error .alreadyExists
    else .ok (t.put (.dir []) (v.dir ++ [name]))

/-- Whether a path names a directory. -/
def namesDir (t : Tree) (p : Path) : Bool :=
  match t.resolve p with
  | .ok l => t.isDir l
  | .error _ => false

end Tree

end SettingsOverlay
