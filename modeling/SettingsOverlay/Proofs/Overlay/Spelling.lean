import SettingsOverlay.Proofs.Overlay.Failure

/-!
# Spellings of a target

Paths that differ only in pieces that stay where they are lead to the same place, and a run with one
does the same as a run with the other. The parent is found in the text of a path, while reading and
writing walk over its pieces in the tree; both come to its location.

* `Tree.resolve_of_plain`: a plain path is walked as its names are;
* `Tree.overlay_of_location_eq`: what a run does depends on the location of a plain target only;
* `Overlay.run_of_location_eq`: the same of the run itself.
-/

namespace SettingsOverlay

open Disk

/-- What was tried, and why it failed, wherever it was. -/
def Failure.reason (f : Failure) : Attempt × Fault := (f.attempt, f.fault)

namespace Tree

variable {t : Tree} {p q : Path} {o o' : Overlay}

theorem walk_of_not_dir {l : Location} (hd : t.isDir l = false) {pieces : List String}
    (hne : pieces ≠ []) : t.walk l pieces = .error .notDirectory := by
  cases pieces with
  | nil => contradiction
  | cons piece pieces =>
    rw [walk, hd]
    rfl

/-- In front of a name, silent pieces change nothing. Behind it they would ask for a directory. -/
theorem walk_filter (t : Tree) (l : Location) (front : List String) (name : String) :
    t.walk l (front ++ [name]) = t.walk l (front.filter (!Path.isSilent ·) ++ [name]) := by
  induction front generalizing l with
  | nil => rfl
  | cons piece front ih =>
    cases hd : t.isDir l with
    | false => rw [walk_of_not_dir hd (by simp), walk_of_not_dir hd (by simp)]
    | true =>
      cases hs : Path.isSilent piece with
      | true =>
        rw [List.filter_cons_of_neg (by simp [hs]), List.cons_append, walk_silent hd hs, ih]
      | false =>
        rw [List.filter_cons_of_pos (by simp [hs]), List.cons_append, List.cons_append, walk, walk]
        simp only [ih]

theorem resolve_of_plain (h : p.Plain) : t.resolve p = t.walk [] p.location := by
  obtain ⟨front, name, hp⟩ := exists_leadsTo h.toDownward h.ends
  rw [resolve, hp.check, ok_bind, hp.pieces, hp.location, walk_filter]

/-- What a plain path is loaded as depends on its location only, and so does what keeps it from
being loaded. -/
theorem document_of_location_eq (hp : p.Plain) (hq : q.Plain) (h : p.location = q.location) :
    (t.document p).mapError Failure.reason = (t.document q).mapError Failure.reason := by
  have hread : t.read p = t.read q := by
    rw [read, read, resolve_of_plain hp, resolve_of_plain hq, h]
  rw [document, document, hread]
  split <;> rfl

/-- What a run does depends on the location of a plain target only. -/
theorem overlay_of_location_eq (hs : o.supplement = o'.supplement) (hp : o.target.Plain)
    (hq : o'.target.Plain) (h : o.target.location = o'.target.location) :
    (t.overlay o).1.mapError Failure.reason = (t.overlay o').1.mapError Failure.reason ∧
      (t.overlay o).2 = (t.overlay o').2 := by
  have hdoc := t.document_of_location_eq hp hq h
  cases hd : t.document o.supplement with
  | error failure =>
    rw [overlay, overlay, ← hs, hd]
    exact ⟨rfl, rfl⟩
  | ok s =>
    have hd' : t.document o'.supplement = .ok s := hs ▸ hd
    cases ht : t.document o.target <;> cases ht' : t.document o'.target <;> rw [ht, ht'] at hdoc
    case error.error =>
      have hreason := Except.error.inj hdoc
      rw [overlay, overlay, hd, hd', ht, ht']
      exact ⟨congrArg Except.error hreason, rfl⟩
    case ok.ok d d' =>
      obtain rfl : d = d' := Except.ok.inj hdoc
      rw [overlay_of_plain hp hd ht, overlay_of_plain hq hd' ht', h]
      exact ⟨rfl, rfl⟩
    all_goals cases hdoc

end Tree

namespace Overlay

/-- Runs with two spellings of a target come to the same object or fail at the same thing for the
same reason, and they leave the same tree. -/
theorem run_of_location_eq {s p q : Path} (hp : p.Plain) (hq : q.Plain)
    (h : p.location = q.location) (w : Workspace) :
    (w.perform (run ⟨s, p⟩)).1.mapError Failure.reason =
        (w.perform (run ⟨s, q⟩)).1.mapError Failure.reason ∧
      (w.perform (run ⟨s, p⟩)).2.tree = (w.perform (run ⟨s, q⟩)).2.tree := by
  simp only [Workspace.perform_run]
  exact Tree.overlay_of_location_eq rfl hp hq h

/-- A target in a directory that is missing, and the same with dots and slashes in it. -/
theorem run_of_location_eq_decorated :
    (Path.ofText ".vscode/settings.json").Plain ∧
      (Path.ofText "./.vscode//./settings.json").Plain ∧
      (Path.ofText ".vscode/settings.json").location =
        (Path.ofText "./.vscode//./settings.json").location ∧
      ∃ w', (Workspace.mk twoFiles []).perform
          (run ⟨.ofText "s.json", .ofText "./.vscode//./settings.json"⟩) =
            (.ok [("b", .null)], w') ∧
        w'.tree.at? [".vscode", "settings.json"] =
          some (.file (Json.Object.toBytes [("b", .null)])) := by
  have hp : (Path.ofText ".vscode/settings.json").Plain :=
    { down := by decide, nul := by decide, size := by decide, short := by decide,
      ends := ⟨[".vscode"], "settings.json", rfl, rfl⟩ }
  have hq : (Path.ofText "./.vscode//./settings.json").Plain :=
    { down := by decide, nul := by decide, size := by decide, short := by decide,
      ends := ⟨[".", ".vscode", "", "."], "settings.json", rfl, rfl⟩ }
  have hloc : (Path.ofText ".vscode/settings.json").location = [".vscode", "settings.json"] := rfl
  have hsame : (Path.ofText ".vscode/settings.json").location =
      (Path.ofText "./.vscode//./settings.json").location := by decide
  have hdir : (twoFiles.fill [".vscode"]).isDir [".vscode"] = true := Tree.isDir_fill _ _
  have hrun : twoFiles.overlay ⟨.ofText "s.json", .ofText ".vscode/settings.json"⟩ =
      (.ok [("b", .null)], (twoFiles.fill [".vscode"]).put
        (.file (Json.Object.toBytes [("b", .null)])) [".vscode", "settings.json"]) := by
    have hd : twoFiles.document (.ofText ".vscode/settings.json") = .ok .missing := rfl
    rw [Tree.overlay_of_plain hp twoFiles_supplement hd, hloc]
    rfl
  obtain ⟨w', hr, ht⟩ := run_of_overlay (w := ⟨twoFiles, []⟩) hrun
  obtain ⟨hreason, htree⟩ :=
    run_of_location_eq (s := .ofText "s.json") hp hq hsame ⟨twoFiles, []⟩
  rw [hr] at hreason htree
  refine ⟨hp, hq, hsame, _, Prod.ext ?_ rfl, ?_⟩
  · match hres : ((Workspace.mk twoFiles []).perform
        (run ⟨.ofText "s.json", .ofText "./.vscode//./settings.json"⟩)).1 with
    | .ok m =>
      rw [hres] at hreason
      rw [← Except.ok.inj hreason]
    | .error failure =>
      rw [hres] at hreason
      cases hreason
  · rw [← htree, ht]
    exact Tree.at?_put_self _ hdir

end Overlay

end SettingsOverlay
