import SettingsOverlay.Proofs.Disk.Descent
import SettingsOverlay.Proofs.Overlay

/-!
# Runs that fail

A run can fail at either document, in the middle of creating directories, and at the write. It
leaves everything that was there, and adds no more than directories above its target. A plain
target can only fail to be loaded, before anything was changed.

* `Tree.extends_of_overlay`: what a run that fails leaves behind;
* `Path.Plain`, `Tree.overlay_of_plain`: a plain target is written once both documents are loaded;
* `Overlay.run_fails`: both, for the run itself;
* `Overlay.runError_of_perform`: a run passes a failure on as the part of it does that failed.
-/

namespace SettingsOverlay

open Disk

/-- Wherever a run fails, no more than directories above the target are new. -/
theorem Tree.extends_of_overlay {t v : Tree} {o : Overlay} {failure : Failure}
    (h : t.overlay o = (.error failure, v)) : t.Extends o.target.ancestors v := by
  have hu := t.extends_makeParent o.target
  rcases error_of_overlay h with ⟨-, rfl⟩ | hm | ⟨hm, -⟩
  · exact .refl _ _
  · rwa [hm] at hu
  · rwa [hm] at hu

/-! ## Plain targets -/

/-- A path that only goes down, has nothing wrong in its text, and ends in a name. -/
structure Path.Plain (p : Path) : Prop extends p.Downward where
  ends : p.EndsInName

/-- A run with a plain target succeeds once both documents are loaded. It creates the directories
that are missing above the location of the target, and puts the file there. -/
theorem Tree.overlay_of_plain {t : Tree} {o : Overlay} {s d : Loaded} (h : o.target.Plain)
    (hs : t.document o.supplement = .ok s) (hd : t.document o.target = .ok d) :
    t.overlay o = (.ok (d.object.overlay s.object),
      (t.fill o.target.location.dropLast).put (.file (d.object.overlay s.object).toBytes)
        o.target.location) := by
  obtain ⟨hopen, hdir⟩ := open_of_document h.toDownward h.ends hd
  exact overlay_of_parts hs hd (makeParent_of_open h.toDownward hopen)
    (write_of_isDir h.toDownward h.ends (isDir_fill t _) (isDir_fill_dropLast hdir) _)

/-- Loading a path fails, and not because nothing is there. -/
def Workspace.Refuses (w : Workspace) (p : Path) : Prop :=
  ∃ fault, fault ≠ Fault.notFound ∧
    (w.perform (Document.load p)).1 = .error ⟨.read, p, fault⟩

theorem Workspace.refuses_iff {w : Workspace} {p : Path} :
    w.Refuses p ↔ ∃ failure, w.tree.document p = .error failure := by
  rw [Refuses, perform_load]
  constructor
  · rintro ⟨fault, -, h⟩
    exact ⟨_, h⟩
  · rintro ⟨failure, h⟩
    obtain ⟨fault, hne, -, rfl⟩ := Tree.document_eq_error h
    exact ⟨fault, hne, h⟩

/-- A run that cannot load its documents changes nothing. -/
theorem Tree.overlay_of_unloaded {t : Tree} {o : Overlay}
    (h : (∃ failure, t.document o.supplement = .error failure) ∨
      ∃ failure, t.document o.target = .error failure) :
    ∃ failure, t.overlay o = (.error failure, t) := by
  cases hs : t.document o.supplement with
  | error failure => exact ⟨failure, by rw [overlay, hs]⟩
  | ok s =>
    rcases h with ⟨failure, h⟩ | ⟨failure, hd⟩
    · rw [hs] at h
      cases h
    · exact ⟨failure, by rw [overlay, hs, hd]⟩

/-- A run with a plain target fails only if one of its documents is not loaded. -/
theorem Tree.unloaded_of_overlay {t v : Tree} {o : Overlay} {failure : Failure}
    (h : o.target.Plain) (hv : t.overlay o = (.error failure, v)) :
    (∃ failure, t.document o.supplement = .error failure) ∨
      ∃ failure, t.document o.target = .error failure := by
  cases hs : t.document o.supplement with
  | error failure => exact .inl ⟨failure, rfl⟩
  | ok s =>
    cases hd : t.document o.target with
    | error failure => exact .inr ⟨failure, rfl⟩
    | ok d =>
      rw [overlay_of_plain h hs hd] at hv
      cases hv

namespace Overlay

/-- A run that fails destroys nothing: every file and every directory is there as it was, and what
is new are directories that the paths above the target name. With a plain target it fails exactly
when one of its documents cannot be loaded, and nothing is new. -/
theorem run_fails (o : Overlay) (w : Workspace) :
    (∀ failure w', w.perform o.run = (.error failure, w') →
      ∀ l, w'.tree.at? l = w.tree.at? l ∨
        w.tree.at? l = none ∧ w'.tree.at? l = some .dir ∧
          ∃ q ∈ o.target.ancestors, w'.tree.resolve q = .ok l) ∧
    (o.target.Plain →
      ((∃ failure w', w.perform o.run = (.error failure, w')) ↔
        w.Refuses o.supplement ∨ w.Refuses o.target) ∧
      ∀ failure w', w.perform o.run = (.error failure, w') → w'.tree = w.tree) := by
  refine ⟨fun failure w' h => Tree.extends_of_overlay (overlay_of_run h), fun hp => ⟨?_, ?_⟩⟩
  · rw [Workspace.refuses_iff, Workspace.refuses_iff]
    constructor
    · rintro ⟨failure, w', h⟩
      exact Tree.unloaded_of_overlay hp (overlay_of_run h)
    · intro h
      obtain ⟨failure, hv⟩ := Tree.overlay_of_unloaded h
      obtain ⟨w', hr, -⟩ := run_of_overlay hv
      exact ⟨failure, w', hr⟩
  · intro failure w' h
    have hv := overlay_of_run h
    obtain ⟨failure', ht⟩ := Tree.overlay_of_unloaded (Tree.unloaded_of_overlay hp hv)
    rw [hv] at ht
    exact (Prod.mk.inj ht).2

/-- A tree with an empty file. -/
def blocked : Tree := [("blocker", .file [])]

/-- The file stands in the way of one target. Another target ends in dots behind a directory that
is missing, which is created before the write is refused. -/
theorem run_fails_blocked :
    (∃ w', (Workspace.mk blocked []).perform
        (run ⟨.ofText "s.json", .ofText "blocker/settings.json"⟩) =
          (.error ⟨.read, .ofText "blocker/settings.json", .notDirectory⟩, w') ∧
      (Workspace.mk blocked []).Refuses (.ofText "blocker/settings.json") ∧
      w'.tree = blocked) ∧
    ∃ w', (Workspace.mk blocked []).perform (run ⟨.ofText "s.json", .ofText "missing/.."⟩) =
        (.error ⟨.write, .ofText "missing/..", .isDirectory⟩, w') ∧
      w'.tree.at? ["missing"] = some .dir ∧ w'.tree.at? ["blocker"] = some (.file []) := by
  have hs : blocked.document (.ofText "s.json") = .ok .missing := rfl
  constructor
  · have hplain : (Path.ofText "blocker/settings.json").Plain :=
      { down := by decide, nul := by decide, size := by decide, short := by decide,
        ends := ⟨["blocker"], "settings.json", rfl, rfl⟩ }
    have hd : blocked.document (.ofText "blocker/settings.json") =
        .error ⟨.read, .ofText "blocker/settings.json", .notDirectory⟩ := rfl
    have hv : blocked.overlay ⟨.ofText "s.json", .ofText "blocker/settings.json"⟩ =
        (.error ⟨.read, .ofText "blocker/settings.json", .notDirectory⟩, blocked) := by
      rw [Tree.overlay, hs, hd]
    obtain ⟨w', hr, -⟩ := run_of_overlay (w := ⟨blocked, []⟩) hv
    obtain ⟨hiff, hsame⟩ :=
      (run_fails ⟨.ofText "s.json", .ofText "blocker/settings.json"⟩ ⟨blocked, []⟩).2 hplain
    refine ⟨w', hr, (hiff.1 ⟨_, w', hr⟩).resolve_left ?_, hsame _ w' hr⟩
    rw [Workspace.refuses_iff, hs]
    rintro ⟨failure, h⟩
    cases h
  · have ha : (Path.ofText "missing/..").ancestors = [.ofText "missing"] := by cbv
    have hd : blocked.document (.ofText "missing/..") = .ok .missing := rfl
    have hu : blocked.makeParent (.ofText "missing/..") =
        (.ok (), blocked ++ [("missing", .dir [])]) := by
      rw [Tree.makeParent, ha]
      rfl
    have hv : blocked.overlay ⟨.ofText "s.json", .ofText "missing/.."⟩ =
        (.error ⟨.write, .ofText "missing/..", .isDirectory⟩,
          blocked ++ [("missing", .dir [])]) := by
      rw [Tree.overlay, hs, hd, hu]
      rfl
    obtain ⟨w', hr, ht⟩ := run_of_overlay (w := ⟨blocked, []⟩) hv
    refine ⟨w', hr, ht ▸ rfl, ?_⟩
    rcases (run_fails _ _).1 _ w' hr ["blocker"] with he | ⟨hn, -⟩
    · exact he
    · cases hn

end Overlay

/-! ## What a failure is passed on as -/

namespace Workspace

variable {w : Workspace} {o : Overlay} {f : Failure}

/-- Once both documents are loaded, a run comes to what it comes to that the result is saved. -/
theorem perform_run_of_loaded {s d : Loaded} (hs : w.tree.document o.supplement = .ok s)
    (hd : w.tree.document o.target = .ok d) :
    (w.perform o.run).1 =
      (w.perform (Document.save o.target (d.object.overlay s.object))).1.map
        fun _ => d.object.overlay s.object := by
  rw [perform_run_eq, Tree.overlay, hs, hd, perform_save]
  dsimp only
  rcases w.tree.makeParent o.target with ⟨failure | ⟨⟩, u⟩
  · rfl
  · dsimp only
    rcases u.dump o.target (d.object.overlay s.object).toBytes with ⟨failure | ⟨⟩, v⟩
    · rfl
    · rfl

/-- Nothing is read to save a document. -/
theorem attempt_of_perform_save {p : Path} {m : Json.Object}
    (h : (w.perform (Document.save p m)).1 = .error f) :
    f.attempt = .makeDir ∨ f.attempt = .write := by
  rw [perform_save] at h
  rcases hm : w.tree.makeParent p with ⟨failure | ⟨⟩, u⟩
  · rw [hm] at h
    obtain rfl : failure = f := Except.error.inj h
    obtain ⟨parent, above, fault, -, -, rfl⟩ := Tree.makeParent_eq_error hm
    exact .inl rfl
  · rw [hm] at h
    obtain ⟨-, fault, -, rfl⟩ := Tree.dump_eq_error (Prod.ext h rfl)
    exact .inr rfl

end Workspace

namespace Overlay

/-- A run passes its failure on, with one or two layers around it. -/
@[simp] theorem failure?_runError (f : Failure) : (runError f).failure? = some f := by
  obtain ⟨_ | _ | _, p, fault⟩ := f <;> rfl

/-- A run passes a failure on as the part of it does that failed. What loads a document passes on
an error of the files, and what saves one wraps such an error in its own. -/
theorem runError_of_perform {o : Overlay} {w w' : Workspace} {f : Failure}
    (h : w.perform o.run = (.error f, w')) :
    ((w.perform (Document.load o.supplement)).1 = .error f ∨
          (w.perform (Document.load o.target)).1 = .error f) ∧
        runError f = .wrapped .files (.files f) ∨
      ∃ s d, (w.perform (Document.load o.supplement)).1 = .ok s ∧
        (w.perform (Document.load o.target)).1 = .ok d ∧
        (w.perform (Document.save o.target (d.object.overlay s.object))).1 = .error f ∧
        runError f = .wrapped .document (Document.saveError f) := by
  have hread {p : Path} (hp : w.tree.document p = .error f) :
      runError f = .wrapped .files (.files f) := by
    obtain ⟨fault, -, -, rfl⟩ := Tree.document_eq_error hp
    rfl
  rw [Workspace.perform_load, Workspace.perform_load]
  cases hs : w.tree.document o.supplement with
  | error failure =>
    rw [Workspace.perform_run_eq, Tree.overlay, hs] at h
    obtain rfl : failure = f := Except.error.inj (Prod.mk.inj h).1
    exact .inl ⟨.inl rfl, hread hs⟩
  | ok s =>
    cases hd : w.tree.document o.target with
    | error failure =>
      rw [Workspace.perform_run_eq, Tree.overlay, hs, hd] at h
      obtain rfl : failure = f := Except.error.inj (Prod.mk.inj h).1
      exact .inl ⟨.inr rfl, hread hd⟩
    | ok d =>
      have hsave := Workspace.perform_run_of_loaded hs hd
      rw [h] at hsave
      cases hr : (w.perform (Document.save o.target (d.object.overlay s.object))).1 with
      | ok =>
        rw [hr] at hsave
        cases hsave
      | error failure =>
        rw [hr] at hsave
        obtain rfl : f = failure := Except.error.inj hsave
        refine .inr ⟨s, d, rfl, rfl, hr, ?_⟩
        rcases Workspace.attempt_of_perform_save hr with ha | ha
        · rw [runError, ha]
        · rw [runError, ha]

end Overlay

end SettingsOverlay
