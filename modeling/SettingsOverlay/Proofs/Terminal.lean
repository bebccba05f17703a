import SettingsOverlay.Proofs.Command

/-!
# A terminal

On a workspace every notice is kept, and a command shows afterwards what passes its filter. A
machine keeps nothing: it prints a notice as soon as it is given, or drops it. `Terminal` is a tree
with such a log. The same programs run there, and they come to the same.

* `Terminal`: a tree, and the lines that were printed;
* `Agrees`: a program on a workspace and one on a terminal that cannot be told apart;
* `agrees_execute`: whatever the arguments ask for is such a program;
* `Command.run_eq_terminal`: so a command prints what its run prints on a terminal.
-/

namespace SettingsOverlay

/-- A tree and what was printed of the log so far: the notices that pass the filter, with the time
if there is a clock. -/
structure Terminal where
  filter : Level
  clock? : Option (Nat → Stamp)
  tree : Tree
  reported : Nat
  printed : List String

namespace Terminal

/-- The terminal with the new tree, unless the operation was refused. -/
def refuseOr (s : Terminal) : Except Disk.Fault Tree → Except Disk.Fault Unit × Terminal
  | .ok tree => (.ok (), { s with tree })
  | .error fault => (.error fault, s)

/-- The terminal after a notice. -/
def print (s : Terminal) (n : Notice) : Terminal where
  filter := s.filter
  clock? := s.clock?
  tree := s.tree
  reported := s.reported + 1
  printed :=
    if s.filter.passes n.level then s.printed ++ [n.record.line (s.clock?.map (· s.reported))]
    else s.printed

/-- The terminal that shows a workspace. -/
def showing (filter : Level) (clock? : Option (Nat → Stamp)) (w : Workspace) : Terminal :=
  ⟨filter, clock?, w.tree, w.notices.length, Command.lines filter clock? w.notices⟩

end Terminal

instance : Host (StateM Terminal) where
  readFile p s := (s.tree.read p, s)
  writeFile p data s := s.refuseOr (s.tree.write p data)
  makeDir p s := s.refuseOr (s.tree.makeDir p)
  namesDir p s := (s.tree.namesDir p, s)
  report n s := ((), s.print n)

/-- One more notice is one more line, if it passes the filter. -/
theorem Command.lines_append (filter : Level) (clock? : Option (Nat → Stamp)) (ns : List Notice)
    (n : Notice) :
    lines filter clock? (ns ++ [n]) =
      if filter.passes n.level then
        lines filter clock? ns ++ [n.record.line (clock?.map (· ns.length))]
      else lines filter clock? ns := by
  unfold lines
  rw [List.zipIdx_append, List.filter_append, List.map_append, Nat.zero_add]
  cases h : filter.passes n.level <;> simp [h]

namespace Terminal

variable (filter : Level) (clock? : Option (Nat → Stamp)) (w : Workspace)

theorem showing_refuseOr (r : Except Disk.Fault Tree) :
    (showing filter clock? w).refuseOr r =
      ((w.refuseOr r).1, showing filter clock? (w.refuseOr r).2) := by
  cases r <;> rfl

theorem showing_report (n : Notice) :
    (showing filter clock? w).print n =
      showing filter clock? { w with journal := w.journal ++ [⟨n, w.tree⟩] } := by
  have hnotices : ({ w with journal := w.journal ++ [⟨n, w.tree⟩] } : Workspace).notices =
      w.notices ++ [n] := List.map_append
  rw [showing, showing, hnotices, Command.lines_append, List.length_append]
  rfl

end Terminal

/-! ## Programs that cannot tell where they run -/

/-- A program on a workspace and one on a terminal that come to the same, and leave behind a
workspace and the terminal that shows it, if they began on such. -/
def Agrees {α : Type} (x : StateM Workspace α) (y : StateM Terminal α) : Prop :=
  ∀ filter clock? w, y.run (.showing filter clock? w) =
    ((x.run w).1, .showing filter clock? (x.run w).2)

namespace Agrees

variable {α β : Type}

theorem pure (a : α) : Agrees (Pure.pure a) (Pure.pure a) := fun _ _ _ => rfl

theorem bind {x : StateM Workspace α} {y : StateM Terminal α} {f : α → StateM Workspace β}
    {g : α → StateM Terminal β} (h : Agrees x y) (hf : ∀ a, Agrees (f a) (g a)) :
    Agrees (x >>= f) (y >>= g) := by
  intro filter clock? w
  show (g (y.run _).1).run (y.run _).2 = _
  rw [h filter clock? w]
  exact hf _ filter clock? _

/-- Two programs that can fail agree if they agree until then. -/
theorem bindExcept {ε : Type} {x : ExceptT ε (StateM Workspace) α}
    {y : ExceptT ε (StateM Terminal) α} {f : α → ExceptT ε (StateM Workspace) β}
    {g : α → ExceptT ε (StateM Terminal) β} (h : Agrees x.run y.run)
    (hf : ∀ a, Agrees (f a).run (g a).run) : Agrees (x >>= f).run (y >>= g).run := by
  show Agrees (x.run >>= ExceptT.bindCont f) (y.run >>= ExceptT.bindCont g)
  refine bind h fun r => ?_
  cases r with
  | ok a => exact hf a
  | error e => exact pure (Except.error e)

theorem readFile (p : Path) : Agrees (Host.readFile p) (Host.readFile p) := fun _ _ _ => rfl

theorem namesDir (p : Path) : Agrees (Host.namesDir p) (Host.namesDir p) := fun _ _ _ => rfl

theorem writeFile (p : Path) (data : Bytes) :
    Agrees (Host.writeFile p data) (Host.writeFile p data) :=
  fun filter clock? w => Terminal.showing_refuseOr filter clock? w _

theorem makeDir (p : Path) : Agrees (Host.makeDir p) (Host.makeDir p) :=
  fun filter clock? w => Terminal.showing_refuseOr filter clock? w _

theorem report (n : Notice) : Agrees (Host.report n) (Host.report n) :=
  fun filter clock? w => congrArg (Prod.mk ()) (Terminal.showing_report filter clock? w n)

/-- A report in a program that can fail. -/
theorem reportLift (n : Notice) :
    Agrees (ExceptT.lift (Host.report n) : ExceptT Failure (StateM Workspace) Unit).run
      (ExceptT.lift (Host.report n) : ExceptT Failure (StateM Terminal) Unit).run :=
  bind (report n) fun _ => pure _

theorem settle (p : Path) (fault : Disk.Fault) :
    Agrees (Files.settle p fault) (Files.settle p fault) := by
  refine bind (namesDir p) fun r => ?_
  cases r with
  | true => exact pure _
  | false => exact pure _

theorem makeAll (ps : List Path) : Agrees (Files.makeAll ps) (Files.makeAll ps) := by
  induction ps with
  | nil => exact pure _
  | cons p above ih =>
    refine bind (makeDir p) fun r => ?_
    rcases r with fault | ⟨⟩
    · cases fault with
      | notFound =>
        refine bind ih fun r => ?_
        rcases r with fault | ⟨⟩
        · exact pure _
        · refine bind (makeDir p) fun r => ?_
          rcases r with fault | ⟨⟩
          · exact settle p fault
          · exact pure _
      | _ => exact settle p _
    · exact pure _

theorem makeParent (p : Path) :
    Agrees (Files.makeParent p : ExceptT Failure (StateM Workspace) Unit).run
      (Files.makeParent p : ExceptT Failure (StateM Terminal) Unit).run := by
  unfold Files.makeParent
  cases p.ancestors with
  | nil => exact pure _
  | cons parent above =>
    refine bind (makeAll (parent :: above)) fun r => ?_
    cases r with
    | ok => exact pure _
    | error => exact pure _

theorem loadBytes (p : Path) :
    Agrees (Files.load p : ExceptT Failure (StateM Workspace) _).run
      (Files.load p : ExceptT Failure (StateM Terminal) _).run := by
  refine bind (readFile p) fun r => ?_
  rcases r with fault | data
  · cases fault with
    | notFound => exact bind (report (.notFound p)) fun _ => pure _
    | _ => exact pure _
  · exact pure _

theorem dump (p : Path) (data : Bytes) :
    Agrees (Files.dump p data : ExceptT Failure (StateM Workspace) _).run
      (Files.dump p data : ExceptT Failure (StateM Terminal) _).run := by
  refine bind (writeFile p data) fun r => ?_
  cases r with
  | ok => exact pure _
  | error => exact pure _

theorem load (p : Path) :
    Agrees (Document.load p : ExceptT Failure (StateM Workspace) _).run
      (Document.load p : ExceptT Failure (StateM Terminal) _).run := by
  refine bindExcept (loadBytes p) fun data? => ?_
  cases data? with
  | some data => exact pure _
  | none => exact pure _

theorem save (p : Path) (o : Json.Object) :
    Agrees (Document.save p o : ExceptT Failure (StateM Workspace) _).run
      (Document.save p o : ExceptT Failure (StateM Terminal) _).run :=
  bindExcept (makeParent p) fun _ => dump p o.toBytes

theorem loadSupplement (o : Overlay) :
    Agrees (o.loadSupplement : ExceptT Failure (StateM Workspace) _).run
      (o.loadSupplement : ExceptT Failure (StateM Terminal) _).run := by
  refine bindExcept (load o.supplement) fun loaded => ?_
  cases loaded with
  | found s => exact pure _
  | missing => exact bindExcept (reportLift _) fun _ => pure _
  | malformed reason => exact bindExcept (reportLift _) fun _ => pure _

theorem loadTarget (o : Overlay) :
    Agrees (o.loadTarget : ExceptT Failure (StateM Workspace) _).run
      (o.loadTarget : ExceptT Failure (StateM Terminal) _).run := by
  refine bindExcept (load o.target) fun loaded => ?_
  cases loaded with
  | found s => exact pure _
  | missing => exact pure _
  | malformed reason => exact bindExcept (reportLift _) fun _ => pure _

theorem run (o : Overlay) :
    Agrees (o.run : ExceptT Failure (StateM Workspace) _).run
      (o.run : ExceptT Failure (StateM Terminal) _).run :=
  bindExcept (loadSupplement o) fun _ => bindExcept (reportLift _) fun _ =>
    bindExcept (loadTarget o) fun _ => bindExcept (save o.target _) fun _ =>
      bindExcept (reportLift _) fun _ => pure _

theorem execute (g : Given) : Agrees (Command.execute g) (Command.execute g) := by
  refine bind (run g.overlay) fun r => ?_
  cases r with
  | ok => exact pure _
  | error => exact pure _

end Agrees

/-- The terminal on which a command begins. -/
def Terminal.start (g : Given) (clock : Nat → Stamp) (t : Tree) : Terminal :=
  ⟨g.filter, if g.timestamps then some clock else none, t, 0, []⟩

/-- A command prints on a terminal what its run shows afterwards, and does the same. -/
theorem Command.run_on_terminal {arguments : List String} {g : Given}
    (h : Given.ofArguments arguments = .ok g) (clock : Nat → Stamp) (t : Tree) :
    ∃ s, (execute g : StateM Terminal Exit).run (.start g clock t) =
        ((run clock arguments t).exit, s) ∧
      s.tree = (run clock arguments t).tree ∧ s.printed = (run clock arguments t).lines := by
  have hrun : (execute g : StateM Terminal Exit).run (.start g clock t) = _ :=
    Agrees.execute g g.filter (if g.timestamps then some clock else none) ⟨t, []⟩
  rw [hrun, run_of_given h]
  generalize (execute g : StateM Workspace Exit).run ⟨t, []⟩ = r
  exact ⟨_, rfl, rfl, rfl⟩

end SettingsOverlay
