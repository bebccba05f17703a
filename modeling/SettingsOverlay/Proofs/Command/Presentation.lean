import Mathlib.Data.List.Forall2
import SettingsOverlay.Proofs.Arguments
import SettingsOverlay.Proofs.Log
import SettingsOverlay.Proofs.Overlay.Journal
import SettingsOverlay.Proofs.Terminal

/-!
# What a run does and what it shows

The options for the log decide what is shown of a run, and nothing else. The run reports the same
whatever is shown of it, and what is shown are those of its records that pass the filter.

* `Overlay.records`: all the records of a run;
* `Command.passing`: those that pass a filter, `Command.Shows`: the lines that show them;
* `Command.Presents`: how a command shows the records of its run;
* `Command.run_of_overlay_eq`: two commands on the same files differ in what they show only;
* `Command.run_of_spelledBy`: two commands that spell the same options do not differ at all.
-/

namespace SettingsOverlay

/-- All the records of a run, in their order. -/
def Overlay.records (o : Overlay) (t : Tree) : List Record :=
  ((Workspace.mk t []).perform o.run).2.notices.map Notice.record

namespace Command

variable {a b : List String} {g h : Given} {t : Tree}

/-- The records that are as severe as a filter or more, each with its number among all of them. -/
def passing (filter : Level) (rs : List Record) : List (Record × Nat) :=
  rs.zipIdx.filter fun r => r.1.level.rank ≤ filter.rank

/-- Lines that show some records, one each, in their order. If there is a clock, a line begins with
the time that the clock gives for the number of its record. -/
def Shows (clock? : Option (Nat → Stamp)) (rs : List (Record × Nat)) (ls : List String) : Prop :=
  List.Forall₂ (fun r => r.1.Shown (clock?.map (· r.2))) rs ls

theorem shows_iff {clock? : Option (Nat → Stamp)} {rs : List (Record × Nat)} {ls : List String} :
    Shows clock? rs ls ↔ ls = rs.map fun r => r.1.line (clock?.map (· r.2)) := by
  constructor
  · intro h
    induction h with
    | nil => rfl
    | cons hr _ ih => rw [List.map_cons, ← ih, Record.shown_iff.1 hr]
  · rintro rfl
    exact List.forall₂_map_right_iff.2 (List.forall₂_same.2 fun r _ => Record.shown_iff.2 rfl)

/-- The lines of a log show the records that pass the filter. -/
theorem shows_lines (filter : Level) (clock? : Option (Nat → Stamp)) (ns : List Notice) :
    Shows clock? (passing filter (ns.map Notice.record)) (lines filter clock? ns) := by
  rw [shows_iff, passing, List.zipIdx_map, List.filter_map, List.map_map]
  rfl

/-- What a command that begins with some options shows of some records. The lines are those that
are printed as the run goes on. -/
structure Presents (g : Given) (clock : Nat → Stamp) (t : Tree) (rs : List Record) (o : Outcome) :
    Prop where
  /-- They show the records that pass the filter, and the time if that was asked for. -/
  shows : Shows (if g.timestamps then some clock else none) (passing g.filter rs) o.lines
  /-- Nothing else is on the standard output. -/
  output : o.output = String.join o.lines
  /-- The run comes to the same on a terminal, where it has printed exactly these lines. -/
  printed : ∃ s, (execute g : StateM Terminal Exit).run (.start g clock t) = (o.exit, s) ∧
    s.tree = o.tree ∧ s.printed = o.lines

theorem presents_run (ha : Given.ofArguments a = .ok g) (clock : Nat → Stamp) (t : Tree) :
    Presents g clock t (g.overlay.records t) (run clock a t) := by
  have hrun := run_execute g ⟨t, []⟩
  refine ⟨?_, ?_, run_on_terminal ha clock t⟩
  · rw [run_of_given ha, Overlay.records, hrun]
    rcases (Workspace.mk t []).perform g.overlay.run with ⟨failure | m, w⟩
    · exact shows_lines g.filter _ w.notices
    · exact shows_lines g.filter _ w.notices
  · rw [run_of_given ha, Outcome.output, hrun]
    rcases (Workspace.mk t []).perform g.overlay.run with ⟨failure | m, w⟩
    · exact String.append_empty
    · exact String.append_empty

/-- Whatever of a run is shown, it comes to the same. -/
theorem end_run_of_overlay_eq (ha : Given.ofArguments a = .ok g) (hb : Given.ofArguments b = .ok h)
    (hfiles : g.overlay = h.overlay) (clock clock' : Nat → Stamp) (t : Tree) :
    (run clock a t).tree = (run clock' b t).tree ∧
      (run clock a t).exit = (run clock' b t).exit := by
  have hend : ((run clock a t).exit, (run clock a t).tree) =
      ((run clock' b t).exit, (run clock' b t).tree) := by
    rw [end_run, end_run, ha, hb]
    dsimp only
    rw [hfiles]
  exact ⟨congrArg Prod.snd hend, congrArg Prod.fst hend⟩

/-- A stricter filter lets fewer records through. -/
theorem sublist_of_rank_le {f f' : Level} (hle : f'.rank ≤ f.rank) (rs : List Record) :
    (passing f' rs).Sublist (passing f rs) := by
  refine List.monotone_filter_right rs.zipIdx fun r hr => ?_
  have hr : r.1.level.rank ≤ f'.rank := of_decide_eq_true hr
  exact decide_eq_true (Nat.le_trans hr hle)

/-- Two commands on the same files may differ in their filters and in their time stamps. They do
the same and end in the same way, and each of them shows the records of that one run that pass its
own filter. -/
theorem run_of_overlay_eq (ha : Given.ofArguments a = .ok g) (hb : Given.ofArguments b = .ok h)
    (hfiles : g.overlay = h.overlay) (clock clock' : Nat → Stamp) (t : Tree) :
    (run clock a t).tree = (run clock' b t).tree ∧
      (run clock a t).exit = (run clock' b t).exit ∧
      Presents g clock t (g.overlay.records t) (run clock a t) ∧
      Presents h clock' t (g.overlay.records t) (run clock' b t) ∧
      (h.filter.rank ≤ g.filter.rank →
        (passing h.filter (g.overlay.records t)).Sublist
          (passing g.filter (g.overlay.records t))) := by
  obtain ⟨htree, hexit⟩ := end_run_of_overlay_eq ha hb hfiles clock clock' t
  have hg := presents_run ha clock t
  have hh := presents_run hb clock' t
  rw [← hfiles] at hh
  exact ⟨htree, hexit, hg, hh, fun hle => sublist_of_rank_le hle _⟩

theorem records_twoFiles {g : Given} (hs : g.supplement = some "s.json")
    (ht : g.target = some "settings.json") : g.overlay.records Overlay.twoFiles =
      [⟨.info, "settings.json"⟩, ⟨.info, "Updated settings.json successfully"⟩] := by
  obtain ⟨w', hrun, -⟩ := Overlay.twoFiles_run
  have htarget : Overlay.twoFiles.document (.ofText "settings.json") =
      .ok (.found [("a", .bool true)]) := by
    have hr : Overlay.twoFiles.resolve (.ofText "settings.json") = .ok ["settings.json"] := rfl
    rw [Tree.document_of_resolve hr rfl, Overlay.twoFiles_read.2]
  have hreports := Tree.records_reports Overlay.twoFiles
    ⟨.ofText "s.json", .ofText "settings.json"⟩
  rw [Overlay.overlay_of_run hrun, Tree.notices, Overlay.twoFiles_supplement, htarget]
    at hreports
  rw [Given.overlay, hs, ht, Overlay.records, Workspace.perform_run_eq]
  exact List.map_map.trans hreports

/-- One run succeeds without a line. The same run tells of the target twice if it is not quiet, and
when that was if it is asked for the times. -/
theorem run_of_overlay_eq_twoFiles :
    (run (fun _ => ⟨1, 1, 0, 0, 0, 0⟩) ["-q", "-s", "s.json", "-t", "settings.json"]
        Overlay.twoFiles).lines = [] ∧
      (run (fun _ => ⟨1, 1, 0, 0, 0, 0⟩) ["-s", "s.json", "-t", "settings.json"]
        Overlay.twoFiles).lines =
          [" INFO settings.json\n", " INFO Updated settings.json successfully\n"] ∧
      (run (fun n => ⟨3, 31, 8, 5, n, 17⟩)
        ["-vv", "-s", "s.json", "--timestamps", "-t", "settings.json"]
        Overlay.twoFiles).output =
          "03/31 08:05:00.017  INFO settings.json\n" ++
            "03/31 08:05:01.017  INFO Updated settings.json successfully\n" ∧
      (run (fun _ => ⟨1, 1, 0, 0, 0, 0⟩) ["-q", "-s", "s.json", "-t", "settings.json"]
          Overlay.twoFiles).tree =
        (run (fun n => ⟨3, 31, 8, 5, n, 17⟩)
          ["-vv", "-s", "s.json", "--timestamps", "-t", "settings.json"]
          Overlay.twoFiles).tree := by
  obtain ⟨-, -, hquiet, hplain, -⟩ := run_of_overlay_eq
    (a := ["-q", "-s", "s.json", "-t", "settings.json"])
    (b := ["-s", "s.json", "-t", "settings.json"])
    rfl rfl rfl (fun _ => ⟨1, 1, 0, 0, 0, 0⟩) (fun _ => ⟨1, 1, 0, 0, 0, 0⟩) Overlay.twoFiles
  obtain ⟨htree, -, -, htimes, -⟩ := run_of_overlay_eq
    (a := ["-q", "-s", "s.json", "-t", "settings.json"])
    (b := ["-vv", "-s", "s.json", "--timestamps", "-t", "settings.json"])
    rfl rfl rfl (fun _ => ⟨1, 1, 0, 0, 0, 0⟩) (fun n => ⟨3, 31, 8, 5, n, 17⟩) Overlay.twoFiles
  rw [records_twoFiles rfl rfl] at hquiet hplain htimes
  refine ⟨shows_iff.1 hquiet.shows, shows_iff.1 hplain.shows, ?_, htree⟩
  rw [htimes.output, shows_iff.1 htimes.shows]
  rfl

/-- What is done does not depend on how the options are spelled. Arguments that ask for the same
are accepted, and lead to the same paths, the same filter and the same run. -/
theorem run_of_spelledBy (hs : g.supplement ≠ some "") (ht : g.target ≠ some "")
    (ha : g.SpelledBy a) (hb : g.SpelledBy b) (clock clock' : Nat → Stamp) (t : Tree) :
    ∃ h : Given, Given.ofArguments a = .ok h ∧ Given.ofArguments b = .ok h ∧
      h.overlay.supplement =
        .ofText (g.supplement.getD "./tools/vscode_debug_settings.json") ∧
      h.overlay.target = .ofText (g.target.getD ".vscode/settings.json") ∧
      h.filter = .chosen g.quiet (min g.verbose 255) ∧ h.timestamps = g.timestamps ∧
      run clock a t = run clock b t ∧
      (run clock a t).tree = (run clock' b t).tree ∧
      (run clock a t).exit = (run clock' b t).exit ∧
      Presents h clock t (h.overlay.records t) (run clock a t) ∧
      Presents h clock' t (h.overlay.records t) (run clock' b t) := by
  have ha := Given.ofArguments_of_spelledBy hs ht ha
  have hb := Given.ofArguments_of_spelledBy hs ht hb
  have hsupplement : g.saturated.overlay.supplement =
      .ofText (g.supplement.getD "./tools/vscode_debug_settings.json") := by
    show g.supplement.elim _ _ = _
    cases g.supplement <;> rfl
  have htarget : g.saturated.overlay.target =
      .ofText (g.target.getD ".vscode/settings.json") := by
    show g.target.elim _ _ = _
    cases g.target <;> rfl
  have hrun : run clock a t = run clock b t := by rw [run_of_given ha, run_of_given hb]
  obtain ⟨htree, hexit⟩ := end_run_of_overlay_eq ha hb rfl clock clock' t
  exact ⟨g.saturated, ha, hb, hsupplement, htarget, rfl, rfl, hrun, htree, hexit,
    presents_run ha clock t, presents_run hb clock' t⟩

/-- Letters that share an argument with each other or with a value, and names. -/
theorem run_of_spelledBy_letters :
    ∃ h : Given,
      Given.ofArguments ["-qvs", "x y", "--timestamps", "-v", "-t==ä=b"] = .ok h ∧
      Given.ofArguments ["--target==ä=b", "-vv", "--quiet", "--timestamps", "-sx y"] = .ok h ∧
      h.overlay.supplement = .ofText "x y" ∧ h.overlay.target = .ofText "=ä=b" ∧
      h.filter = .warn ∧
      (run (fun _ => ⟨1, 1, 0, 0, 0, 0⟩) ["-qvs", "x y", "--timestamps", "-v", "-t==ä=b"]
          Overlay.blocked).exit =
        (run (fun n => ⟨3, 31, 8, 5, n, 17⟩)
          ["--target==ä=b", "-vv", "--quiet", "--timestamps", "-sx y"] Overlay.blocked).exit := by
  have hv : Letters [.verbose] ['v'] := .cons rfl .nil
  have hvv : Letters [.verbose, .verbose] ['v', 'v'] := .cons rfl hv
  have hqv : Letters [.quiet, .verbose] ['q', 'v'] := .cons rfl hv
  have hx : StandsAlone "x y" := .inr (by decide)
  have ha : Given.SpelledBy ⟨some "x y", some "=ä=b", true, 2, true⟩
      ["-qvs", "x y", "--timestamps", "-v", "-t==ä=b"] :=
    ⟨[.switch .quiet, .switch .verbose, .value .supplement "x y", .switch .timestamps,
        .switch .verbose, .value .target "=ä=b"], by decide,
      .lettersNext .supplement hqv hx (.name .timestamps (.letters hv
        (.lettersEquals .target "=ä=b" .nil .nil)))⟩
  have hb : Given.SpelledBy ⟨some "x y", some "=ä=b", true, 2, true⟩
      ["--target==ä=b", "-vv", "--quiet", "--timestamps", "-sx y"] :=
    ⟨[.value .target "=ä=b", .switch .verbose, .switch .verbose, .switch .quiet,
        .switch .timestamps, .value .supplement "x y"], by decide,
      .nameEquals .target "=ä=b" (.letters hvv (.name .quiet (.name .timestamps
        (.lettersJoined .supplement .nil (by decide) (by decide) .nil))))⟩
  obtain ⟨h, hga, hgb, hs, ht, hf, -, -, -, hexit, -⟩ := run_of_spelledBy (by decide) (by decide)
    ha hb (fun _ => ⟨1, 1, 0, 0, 0, 0⟩) (fun n => ⟨3, 31, 8, 5, n, 17⟩) Overlay.blocked
  exact ⟨h, hga, hgb, hs, ht, hf, hexit⟩

end Command

end SettingsOverlay
