import SettingsOverlay.Proofs.Overlay.Failure
import SettingsOverlay.Proofs.Report

/-!
# How a command ends

A command stops at its arguments, or its run fails, or it succeeds. The exit code tells which of
these it was, and by that what became of the files.

* `Command.prepare_of_logger`: a command needs a process without a logger;
* `Command.end_run`: a command comes to what its run comes to on the tree;
* `Command.Ends`: what the exit code stands for;
* `Command.run_ends`: it does so for all arguments and all trees.
-/

namespace SettingsOverlay.Command

variable {arguments : List String} {t u : Tree} {g : Given} {failure : Failure}

/-! ## What comes before the run -/

theorem prepare_of_stop {stop : Stop} (h : Given.ofArguments arguments = .error stop)
    (current? : Option Logger) : prepare current? arguments = .error stop.exit := by
  rw [prepare, h]

theorem prepare_of_given (h : Given.ofArguments arguments = .ok g) :
    prepare none arguments = .ok (g, g.logger) := by
  rw [prepare, h]
  rfl

/-- A process that has a logger keeps it, and the command ends with a report on that. -/
theorem prepare_of_logger (h : Given.ofArguments arguments = .ok g) (first : Logger) :
    prepare (some first) arguments = .error ⟨1, "", unlines
      ["Error: Failed to set up logging", "", "Caused by:",
        "    attempted to set a logger after the logging system was already initialized"]⟩ := by
  rw [prepare, h]
  rfl

/-! ## The end of the command -/

theorem run_of_stop {stop : Stop} (h : Given.ofArguments arguments = .error stop)
    (clock : Nat → Stamp) (t : Tree) : run clock arguments t = ⟨t, stop.exit, []⟩ := by
  rw [run, prepare_of_stop h]

theorem run_of_given (h : Given.ofArguments arguments = .ok g) (clock : Nat → Stamp) (t : Tree) :
    run clock arguments t =
      let (exit, w) := (execute g : StateM Workspace Exit).run ⟨t, []⟩
      ⟨w.tree, exit, lines g.filter (if g.timestamps then some clock else none) w.notices⟩ := by
  rw [run, prepare_of_given h]
  rfl

theorem run_execute (g : Given) (w : Workspace) :
    (execute g : StateM Workspace Exit).run w =
      match w.perform g.overlay.run with
      | (.ok _, v) => (⟨0, "", ""⟩, v)
      | (.error failure, v) =>
        (⟨1, "", (Overlay.runError failure).report g.overlay.target⟩, v) := by
  show StateT.run (ExceptT.run g.overlay.run >>= _) w = _
  rw [Workspace.run_bind, Workspace.perform]
  generalize (ExceptT.run g.overlay.run : StateM Workspace _).run w = r
  rcases r with ⟨failure | m, v⟩
  · rfl
  · rfl

/-- The end of a command, and the tree that it leaves behind. -/
theorem end_run (clock : Nat → Stamp) (arguments : List String) (t : Tree) :
    ((run clock arguments t).exit, (run clock arguments t).tree) =
      match Given.ofArguments arguments with
      | .error stop => (stop.exit, t)
      | .ok g =>
        match t.overlay g.overlay with
        | (.ok _, u) => (⟨0, "", ""⟩, u)
        | (.error failure, u) =>
          (⟨1, "", (Overlay.runError failure).report g.overlay.target⟩, u) := by
  cases h : Given.ofArguments arguments with
  | error stop =>
    rw [run_of_stop h]
  | ok g =>
    rw [run_of_given h, run_execute, Workspace.perform_run_eq]
    dsimp only
    rcases t.overlay g.overlay with ⟨failure | m, u⟩
    · rfl
    · rfl

/-- A command that is stopped at its arguments leaves the tree alone, and any other does to it what
its run does. -/
theorem tree_run (clock : Nat → Stamp) (arguments : List String) (t : Tree) :
    (run clock arguments t).tree =
      match Given.ofArguments arguments with
      | .error _ => t
      | .ok g => (t.overlay g.overlay).2 := by
  have h := congrArg Prod.snd (end_run clock arguments t)
  cases ha : Given.ofArguments arguments with
  | error stop =>
    rw [ha] at h
    exact h
  | ok g =>
    rw [ha] at h
    dsimp only at h ⊢
    rw [h]
    rcases t.overlay g.overlay with ⟨failure | m, u⟩
    · rfl
    · rfl

/-! ## What the exit code stands for -/

/-- Some arguments are accepted, and the run that they ask for fails. -/
def Fails (arguments : List String) (t : Tree) (g : Given) (failure : Failure) : Prop :=
  Given.ofArguments arguments = .ok g ∧
    ((Workspace.mk t []).perform g.overlay.run).1 = .error failure

theorem fails_iff : Fails arguments t g failure ↔
    Given.ofArguments arguments = .ok g ∧ (t.overlay g.overlay).1 = .error failure := by
  rw [Fails, Workspace.perform_run_eq]

/-- What the end of a command tells. The command began on the tree `t` and left the tree `u`. -/
structure Ends (arguments : List String) (t : Tree) (exit : Exit) (u : Tree) : Prop where
  /-- Unless the code is 0, every file is as it was, and none is new. -/
  kept : exit.code ≠ 0 → ∀ l data, u.at? l = some (.file data) ↔ t.at? l = some (.file data)
  /-- The code is 2 exactly if something is wrong with the arguments. -/
  misused : exit.code = 2 ↔ ∃ m, Given.ofArguments arguments = .error (.misuse m)
  /-- Then nothing is done. -/
  unchanged : exit.code = 2 → u = t
  /-- The code is 1 exactly if the arguments are accepted and the run fails. -/
  failed : exit.code = 1 ↔ ∃ g failure, Fails arguments t g failure
  /-- Then the failure and its reason are reported in a line each, if the path that failed has no
  line break. -/
  reported {g : Given} {failure : Failure} : Fails arguments t g failure →
    OneLine failure.path.text → OneLine failure.message ∧ OneLine failure.fault.message ∧
      exit.errors = unlines ["Error: Failed to update " ++ g.overlay.target.text, "", "Caused by:",
        "    0: " ++ failure.message, "    1: " ++ failure.fault.message]
  /-- It has none if the paths of the run have none. -/
  oneLine {g : Given} {failure : Failure} : Fails arguments t g failure →
    OneLine g.overlay.supplement.text → OneLine g.overlay.target.text → OneLine failure.path.text
  /-- Nor does it show how the failure was passed on. -/
  passed {g : Given} {failure : Failure} {e : Passed} : Fails arguments t g failure →
    e.failure? = some failure → exit.errors = e.report g.overlay.target
  /-- The code is 0 if the command was asked about itself, or if it wrote the target. In that are
  all the members of the supplement. -/
  done : exit.code = 0 →
    (Given.ofArguments arguments = .error .help ∨ Given.ofArguments arguments = .error .version) ∧
        u = t ∨
      exit.errors = "" ∧ ∃ g s m, Given.ofArguments arguments = .ok g ∧
        ((Workspace.mk t []).perform (Document.load g.overlay.supplement)).1 = .ok s ∧
        ((Workspace.mk u []).perform (Document.load g.overlay.target)).1 = .ok (.found m) ∧
        ∀ key ∈ s.object.keys, m.get? key = s.object.get? key

/-- A command that stops at its arguments. -/
theorem ends_of_stop {stop : Stop} (h : Given.ofArguments arguments = .error stop) (t : Tree) :
    Ends arguments t stop.exit t := by
  have hfails {g : Given} {failure : Failure} : ¬ Fails arguments t g failure := fun hf => by
    rw [hf.1] at h
    contradiction
  refine
    { kept := fun _ l data => Iff.rfl
      misused := ?_
      unchanged := fun _ => rfl
      failed := ?_
      reported := fun hf => absurd hf hfails
      oneLine := fun hf => absurd hf hfails
      passed := fun hf => absurd hf hfails
      done := ?_ }
  · rw [h]
    cases stop <;> simp [Stop.exit]
  · constructor
    · intro hcode
      cases stop <;> simp [Stop.exit] at hcode
    · rintro ⟨g, failure, hf⟩
      exact absurd hf hfails
  · intro hcode
    cases stop with
    | help => exact .inl ⟨.inl h, rfl⟩
    | version => exact .inl ⟨.inr h, rfl⟩
    | misuse m => contradiction

/-- A command whose run fails. -/
theorem ends_of_error (h : Given.ofArguments arguments = .ok g)
    (hu : t.overlay g.overlay = (.error failure, u)) :
    Ends arguments t ⟨1, "", (Overlay.runError failure).report g.overlay.target⟩ u := by
  have hf : Fails arguments t g failure := fails_iff.2 ⟨h, by rw [hu]⟩
  have heq {g' : Given} {failure' : Failure} (hf' : Fails arguments t g' failure') :
      g' = g ∧ failure' = failure := by
    obtain rfl := Except.ok.inj (hf'.1.symm.trans h)
    exact ⟨rfl, Except.error.inj (hf'.2.symm.trans hf.2)⟩
  obtain ⟨hknown, hpath⟩ := Tree.named_of_overlay hu
  refine
    { kept := fun _ l data => (Tree.extends_of_overlay hu).file_iff
      misused := ?_
      unchanged := nofun
      failed := ⟨fun _ => ⟨g, failure, hf⟩, fun _ => rfl⟩
      reported := fun hf' hline => ?_
      oneLine := fun hf' hs ht => ?_
      passed := fun hf' he => ?_
      done := nofun }
  · rw [h]
    simp
  · obtain ⟨rfl, rfl⟩ := heq hf'
    exact ⟨Failure.oneLine_message hline hknown, Disk.Fault.oneLine_message hknown,
      Passed.report_eq_unlines (Overlay.failure?_runError _) hline hknown _⟩
  · obtain ⟨rfl, rfl⟩ := heq hf'
    rcases hpath with hp | hp | hp
    · rwa [hp]
    · rwa [hp]
    · exact Path.oneLine_of_mem_ancestors ht hp
  · obtain ⟨rfl, rfl⟩ := heq hf'
    rw [Passed.report_of_failure? he]
    exact Passed.report_of_failure? (Overlay.failure?_runError _) _

/-- A command whose run succeeds. -/
theorem ends_of_ok {m : Json.Object} (h : Given.ofArguments arguments = .ok g)
    (hu : t.overlay g.overlay = (.ok m, u)) : Ends arguments t ⟨0, "", ""⟩ u := by
  have hfails {g' : Given} {failure : Failure} : ¬ Fails arguments t g' failure := fun hf => by
    rw [fails_iff] at hf
    obtain rfl := Except.ok.inj (hf.1.symm.trans h)
    rw [hu] at hf
    exact absurd hf.2 nofun
  refine
    { kept := fun hcode => absurd rfl hcode
      misused := ?_
      unchanged := nofun
      failed := ⟨nofun, fun ⟨_, _, hf⟩ => absurd hf hfails⟩
      reported := fun hf => absurd hf hfails
      oneLine := fun hf => absurd hf hfails
      passed := fun hf => absurd hf hfails
      done := fun _ => ?_ }
  · rw [h]
    simp
  · obtain ⟨l, hstore⟩ := Tree.exists_stores hu
    obtain ⟨s, d, -, hs, -, rfl, -⟩ := Tree.parts_of_overlay hu
    refine .inr ⟨rfl, g, s, d.object.overlay s.object, h, ?_, ?_, fun key hk => ?_⟩
    · rw [Workspace.perform_load, hs]
    · rw [Workspace.perform_load, hstore.document]
    · exact Json.Object.get?_overlay_of_mem_keys (Tree.storable_document hs).nodup_keys hk _

/-- The exit code of a command tells what it did, and the errors that it prints tell why. -/
theorem run_ends (clock : Nat → Stamp) (arguments : List String) (t : Tree) :
    Ends arguments t (run clock arguments t).exit (run clock arguments t).tree := by
  show Ends arguments t ((run clock arguments t).exit, (run clock arguments t).tree).1
    ((run clock arguments t).exit, (run clock arguments t).tree).2
  rw [end_run]
  cases h : Given.ofArguments arguments with
  | error stop => exact ends_of_stop h t
  | ok g =>
    dsimp only
    rcases hu : t.overlay g.overlay with ⟨failure | m, u⟩
    · exact ends_of_error h hu
    · exact ends_of_ok h hu

/-- The command is sent through a file as if it were a directory. -/
theorem run_ends_blocked :
    (run (fun _ => ⟨1, 1, 0, 0, 0, 0⟩) ["-s", "s.json", "-t", "blocker/settings.json"]
        Overlay.blocked).exit.code = 1 ∧
      (run (fun _ => ⟨1, 1, 0, 0, 0, 0⟩) ["-s", "s.json", "-t", "blocker/settings.json"]
        Overlay.blocked).exit.errors = unlines
          ["Error: Failed to update blocker/settings.json", "", "Caused by:",
            "    0: Failed to read `blocker/settings.json`: Not a directory (os error 20)",
            "    1: Not a directory (os error 20)"] := by
  have hs : Overlay.blocked.document (.ofText "s.json") = .ok .missing := rfl
  have hd : Overlay.blocked.document (.ofText "blocker/settings.json") =
      .error ⟨.read, .ofText "blocker/settings.json", .notDirectory⟩ := rfl
  have hf : Fails ["-s", "s.json", "-t", "blocker/settings.json"] Overlay.blocked
      { supplement := some "s.json", target := some "blocker/settings.json" }
      ⟨.read, .ofText "blocker/settings.json", .notDirectory⟩ := by
    refine fails_iff.2 ⟨rfl, ?_⟩
    show (Overlay.blocked.overlay ⟨.ofText "s.json", .ofText "blocker/settings.json"⟩).1 = _
    rw [Tree.overlay, hs, hd]
  have h := run_ends (fun _ => ⟨1, 1, 0, 0, 0, 0⟩) ["-s", "s.json", "-t", "blocker/settings.json"]
    Overlay.blocked
  exact ⟨h.failed.2 ⟨_, _, hf⟩, (h.reported hf (by decide)).2.2⟩

end SettingsOverlay.Command
