import SettingsOverlay.Overlay
import SettingsOverlay.Proofs.Disk.Operations

/-!
# Reading, writing and creating on a workspace

The programs of `Files` and `Document` on a workspace, as functions of its tree. They report beside
that, which is left open here.

* `Workspace.perform`: runs a program on a workspace;
* `Tree.document`, `perform_load`: what a path is loaded as, and `Tree.document_eq_error` why not;
* `Tree.makeAll`, `run_makeAll`: directories are created from the top down, `extends_makeAll`;
* `Tree.makeParent`, `Tree.dump`: the parent of a path is created, a file is written;
* `Tree.makeParent_again`: creating a parent again changes nothing.
-/

namespace SettingsOverlay

open Disk

/-! ## Running a program -/

namespace Workspace

variable {α β : Type}

/-- What a program comes to on a workspace, and the workspace that it leaves behind. -/
def perform (w : Workspace) (x : ExceptT Failure (StateM Workspace) α) :
    Except Failure α × Workspace := x.run.run w

theorem perform_bind (w : Workspace) (x : ExceptT Failure (StateM Workspace) α)
    (f : α → ExceptT Failure (StateM Workspace) β) :
    w.perform (x >>= f) =
      match w.perform x with
      | (.ok a, w) => w.perform (f a)
      | (.error failure, w) => (.error failure, w) := by
  show (ExceptT.bindCont f (x.run.run w).1).run (x.run.run w).2 = _
  rw [perform]
  match x.run.run w with
  | (.ok a, w) => rfl
  | (.error failure, w) => rfl

@[simp] theorem perform_pure (w : Workspace) (a : α) : w.perform (pure a) = (.ok a, w) := rfl

theorem run_bind (x : StateM Workspace α) (f : α → StateM Workspace β) (w : Workspace) :
    (x >>= f).run w = (f (x.run w).1).run (x.run w).2 := rfl

theorem run_readFile (p : Path) (w : Workspace) :
    (Host.readFile p : StateM Workspace _).run w = (w.tree.read p, w) := rfl

theorem run_writeFile (p : Path) (data : Bytes) (w : Workspace) :
    (Host.writeFile p data : StateM Workspace _).run w = w.refuseOr (w.tree.write p data) := rfl

theorem run_makeDir (p : Path) (w : Workspace) :
    (Host.makeDir p : StateM Workspace _).run w = w.refuseOr (w.tree.makeDir p) := rfl

theorem run_namesDir (p : Path) (w : Workspace) :
    (Host.namesDir p : StateM Workspace _).run w = (w.tree.namesDir p, w) := rfl

/-- The workspace after some notices. -/
def told (w : Workspace) (ns : List Notice) : Workspace :=
  { w with journal := w.journal ++ ns.map (⟨·, w.tree⟩) }

@[simp] theorem tree_told (w : Workspace) (ns : List Notice) : (w.told ns).tree = w.tree := rfl

@[simp] theorem told_nil (w : Workspace) : w.told [] = w := by simp [told]

@[simp] theorem told_told (w : Workspace) (ns ns' : List Notice) :
    (w.told ns).told ns' = w.told (ns ++ ns') := by
  simp [told]

theorem perform_report (w : Workspace) (n : Notice) :
    w.perform (ExceptT.lift (Host.report n)) = (.ok (), w.told [n]) := rfl

end Workspace

/-! ## Loading -/

/-- The document that a path gives. -/
def Tree.document (t : Tree) (p : Path) : Except Failure Loaded :=
  match t.read p with
  | .ok data => .ok (.ofBytes data)
  | .error .notFound => .ok .missing
  | .error fault => .error ⟨.read, p, fault⟩

namespace Tree

theorem document_of_resolve {t : Tree} {p : Path} {l : Location} {data : Bytes}
    (hr : t.resolve p = .ok l) (hf : t.at? l = some (.file data)) :
    t.document p = .ok (.ofBytes data) := by
  rw [document, read_of_resolve hr hf]

/-- A path is loaded if it names a file, and as missing if it misses something. -/
theorem document_eq_ok_iff {t : Tree} {p : Path} {d : Loaded} :
    t.document p = .ok d ↔
      (∃ l data, t.resolve p = .ok l ∧ t.at? l = some (.file data) ∧ d = .ofBytes data) ∨
        t.resolve p = .error .notFound ∧ d = .missing := by
  rw [document, read]
  cases hr : t.resolve p with
  | error fault => cases fault <;> simp [bind, Except.bind, eq_comm]
  | ok l =>
    rw [ok_bind]
    -- What a path leads to is there, so a file is read, or a directory refused.
    cases ha : t.at? l with
    | none =>
      have hs := isSome_of_resolve hr
      rw [ha] at hs
      contradiction
    | some e => cases e <;> simp [eq_comm, ha]

/-- What keeps a path from being loaded is not its absence. -/
theorem document_eq_error {t : Tree} {p : Path} {failure : Failure}
    (h : t.document p = .error failure) :
    ∃ fault, fault ≠ .notFound ∧ t.read p = .error fault ∧ failure = ⟨.read, p, fault⟩ := by
  rw [document] at h
  split at h
  · cases h
  · cases h
  · rename_i fault hne hr
    exact ⟨fault, hne, hr, (Except.error.inj h).symm⟩

/-- What is reported of a file that is loaded: only its absence. -/
def absence (t : Tree) (p : Path) : List Notice :=
  match t.document p with
  | .ok .missing => [.notFound p]
  | _ => []

theorem absence_of_read {t : Tree} {p : Path} {data : Bytes} (h : t.read p = .ok data) :
    t.absence p = [] := by
  have hd : t.document p = .ok (.ofBytes data) := by rw [document, h]
  rw [absence, hd]
  cases hl : Loaded.ofBytes data with
  | missing =>
    rw [Loaded.ofBytes] at hl
    split at hl <;> cases hl
  | _ => rfl

/-- A path that is loaded names something, or counts as missing. -/
theorem document_eq_ok {t : Tree} {p : Path} {d : Loaded} (h : t.document p = .ok d) :
    (∃ l, t.resolve p = .ok l) ∨ d = .missing :=
  (document_eq_ok_iff.1 h).imp (fun ⟨l, _, hr, _⟩ => ⟨l, hr⟩) And.right

end Tree

namespace Workspace

theorem perform_loadBytes (w : Workspace) (p : Path) :
    w.perform (Files.load p) =
      (match w.tree.read p with
        | .ok data => .ok (some data)
        | .error .notFound => .ok none
        | .error fault => .error ⟨.read, p, fault⟩, w.told (w.tree.absence p)) := by
  show StateT.run (Host.readFile p >>= _) w = _
  rw [run_bind, run_readFile]
  cases h : w.tree.read p with
  | ok data =>
    rw [Tree.absence_of_read h, told_nil]
    rfl
  | error fault =>
    rw [Tree.absence, Tree.document, h]
    cases fault with
    | notFound => rfl
    | _ =>
      rw [told_nil]
      rfl

theorem perform_load (w : Workspace) (p : Path) :
    w.perform (Document.load p) = (w.tree.document p, w.told (w.tree.absence p)) := by
  rw [Document.load, perform_bind, perform_loadBytes, Tree.document]
  cases w.tree.read p with
  | ok data => rfl
  | error fault => cases fault <;> rfl

end Workspace

/-! ## Creating directories -/

namespace Tree

/-- An attempt to create a directory, which may be there, and the tree after it. -/
def tryDir (t : Tree) (p : Path) : Except Fault Unit × Tree :=
  match t.makeDir p with
  | .ok u => (.ok (), u)
  | .error fault => (if t.namesDir p then .ok () else .error fault, t)

/-- The first of some directories is created, and those above it if it cannot be without them. -/
def makeAll (t : Tree) : List Path → Except Fault Unit × Tree
  | [] => (.ok (), t)
  | p :: above =>
    match t.makeDir p with
    | .error .notFound =>
      match makeAll t above with
      | (.ok (), u) => u.tryDir p
      | (.error fault, u) => (.error fault, u)
    | _ => t.tryDir p

/-- The directory that a path stands in is created, and the ones above it. -/
def makeParent (t : Tree) (p : Path) : Except Failure Unit × Tree :=
  match p.ancestors with
  | [] => (.ok (), t)
  | parent :: above =>
    match t.makeAll (parent :: above) with
    | (.ok (), u) => (.ok (), u)
    | (.error fault, u) => (.error ⟨.makeDir, parent, fault⟩, u)

/-- A directory that is there counts as created. -/
theorem tryDir_of_namesDir {t : Tree} {p : Path} (h : t.namesDir p = true) :
    t.tryDir p = (.ok (), t) := by
  rw [tryDir, makeDir_of_namesDir h]
  dsimp only
  rw [if_pos h]

theorem makeAll_cons {t : Tree} {p : Path} {above : List Path}
    (h : t.makeDir p ≠ .error .notFound) : t.makeAll (p :: above) = t.tryDir p := by
  rw [makeAll]
  split
  · contradiction
  · rfl

/-- None of some directories need be created if the first is there. -/
theorem makeAll_of_namesDir {t : Tree} {p : Path} (h : t.namesDir p = true) (above : List Path) :
    t.makeAll (p :: above) = (.ok (), t) := by
  have hm : t.makeDir p ≠ .error .notFound := by
    rw [makeDir_of_namesDir h]
    nofun
  rw [makeAll_cons hm, tryDir_of_namesDir h]

theorem makeAll_cons_of_missing {t u : Tree} {p : Path} {above : List Path}
    (h : t.makeDir p = .error .notFound) (ha : t.makeAll above = (.ok (), u)) :
    t.makeAll (p :: above) = u.tryDir p := by
  rw [makeAll, h]
  dsimp only
  rw [ha]

theorem makeParent_eq_ok_iff {t u : Tree} {p : Path} :
    t.makeParent p = (.ok (), u) ↔ t.makeAll p.ancestors = (.ok (), u) := by
  rw [makeParent]
  cases p.ancestors with
  | nil => simp [makeAll]
  | cons parent above =>
    dsimp only
    rcases t.makeAll (parent :: above) with ⟨_ | _, v⟩ <;> simp

theorem makeParent_eq_error {t u : Tree} {p : Path} {failure : Failure}
    (h : t.makeParent p = (.error failure, u)) :
    ∃ parent above fault, p.ancestors = parent :: above ∧
      t.makeAll (parent :: above) = (.error fault, u) ∧ failure = ⟨.makeDir, parent, fault⟩ := by
  rw [makeParent] at h
  split at h
  · cases h
  · rename_i parent above ha
    split at h
    · cases h
    · rename_i fault v hm
      obtain ⟨hf, rfl⟩ := Prod.mk.inj h
      exact ⟨parent, above, fault, ha, hm, (Except.error.inj hf).symm⟩

theorem extends_of_makeDir {t u : Tree} {p : Path} (h : t.makeDir p = .ok u) :
    t.Extends [p] u ∧ u.namesDir p = true := by
  obtain ⟨l, hp, hn, hr⟩ := places_of_makeDir h
  refine ⟨hp.extends hn hr, ?_⟩
  rw [namesDir, hr]
  exact isDir_iff.2 hp.self

theorem extends_tryDir (t : Tree) (p : Path) :
    t.Extends [p] (t.tryDir p).2 ∧
      ((t.tryDir p).1 = .ok () → (t.tryDir p).2.namesDir p = true) := by
  rw [tryDir]
  split
  · rename_i u h
    exact ⟨(extends_of_makeDir h).1, fun _ => (extends_of_makeDir h).2⟩
  · refine ⟨.refl _ _, fun h => ?_⟩
    split at h
    · assumption
    · contradiction

/-- Whether or not all directories can be created, no more than those are new. If they can, the
first is there. -/
theorem extends_makeAll (t : Tree) (ps : List Path) :
    t.Extends ps (t.makeAll ps).2 ∧
      ((t.makeAll ps).1 = .ok () → ∀ p ∈ ps.head?, (t.makeAll ps).2.namesDir p = true) := by
  induction ps with
  | nil => exact ⟨.refl _ _, fun _ => nofun⟩
  | cons p above ih =>
    have hp : [p] ⊆ p :: above := List.cons_subset_cons p (List.nil_subset above)
    simp only [List.head?_cons, Option.mem_some_iff, forall_eq']
    rw [makeAll]
    split
    · split
      · rename_i u h
        rw [h] at ih
        obtain ⟨hu, hd⟩ := u.extends_tryDir p
        exact ⟨(ih.1.mono (List.subset_cons_self p above)).trans (hu.mono hp), hd⟩
      · rename_i fault u h
        rw [h] at ih
        exact ⟨ih.1.mono (List.subset_cons_self p above), nofun⟩
    · obtain ⟨hu, hd⟩ := t.extends_tryDir p
      exact ⟨hu.mono hp, hd⟩

/-- The parent that was created need not be created again, as long as the tree only grows. -/
theorem makeParent_again {t u v : Tree} {p : Path} (h : t.makeParent p = (.ok (), u))
    (hg : u.Grows v) : v.makeParent p = (.ok (), v) := by
  rw [makeParent_eq_ok_iff] at h ⊢
  match ha : p.ancestors with
  | [] => rfl
  | parent :: above =>
    obtain ⟨-, hdir⟩ := t.extends_makeAll (parent :: above)
    rw [ha] at h
    rw [h] at hdir
    exact makeAll_of_namesDir (hg.namesDir (hdir rfl parent rfl)) above

theorem extends_makeParent (t : Tree) (p : Path) : t.Extends p.ancestors (t.makeParent p).2 := by
  rw [makeParent]
  split
  · exact .refl _ _
  · rename_i parent above ha
    have h := (t.extends_makeAll (parent :: above)).1
    rw [ha]
    split <;> rename_i hm <;> rw [hm] at h <;> exact h

end Tree

namespace Workspace

theorem run_settle (p : Path) (fault : Fault) (w : Workspace) :
    (Files.settle p fault : StateM Workspace _).run w =
      (if w.tree.namesDir p then .ok () else .error fault, w) := by
  rw [Files.settle, run_bind, run_namesDir]
  dsimp only
  cases w.tree.namesDir p <;> rfl

theorem run_tryDir (p : Path) (w : Workspace) :
    (do
      match ← Host.makeDir p with
      | .ok () => return .ok ()
      | .error fault => Files.settle p fault : StateM Workspace _).run w =
      ((w.tree.tryDir p).1, { w with tree := (w.tree.tryDir p).2 }) := by
  rw [run_bind, run_makeDir, Tree.tryDir]
  cases h : w.tree.makeDir p with
  | ok u => rfl
  | error fault => exact run_settle p fault w

theorem run_makeAll (ps : List Path) (w : Workspace) :
    (Files.makeAll ps : StateM Workspace _).run w =
      ((w.tree.makeAll ps).1, { w with tree := (w.tree.makeAll ps).2 }) := by
  induction ps with
  | nil => rfl
  | cons p above ih =>
    have settled (fault : Fault) (h : w.tree.makeDir p = .error fault) :
        (Files.settle p fault : StateM Workspace _).run w =
          ((w.tree.tryDir p).1, { w with tree := (w.tree.tryDir p).2 }) := by
      rw [run_settle, Tree.tryDir, h]
    rw [Files.makeAll, run_bind, run_makeDir, Tree.makeAll]
    cases h : w.tree.makeDir p with
    | ok u =>
      rw [Tree.tryDir, h]
      rfl
    | error fault =>
      cases fault with
      | notFound =>
        show StateT.run (Files.makeAll above >>= _) w = _
        rw [run_bind, ih]
        match w.tree.makeAll above with
        | (.ok (), u) => exact run_tryDir p { w with tree := u }
        | (.error fault, u) => rfl
      | _ => exact settled _ h

theorem perform_makeParent (p : Path) (w : Workspace) :
    w.perform (Files.makeParent p) =
      ((w.tree.makeParent p).1, { w with tree := (w.tree.makeParent p).2 }) := by
  rw [perform, Files.makeParent, Tree.makeParent]
  cases p.ancestors with
  | nil => rfl
  | cons parent above =>
    show StateT.run (Files.makeAll (parent :: above) >>= _) w = _
    rw [run_bind, run_makeAll]
    dsimp only
    match w.tree.makeAll (parent :: above) with
    | (.ok (), u) => rfl
    | (.error fault, u) => rfl

end Workspace

/-! ## Writing -/

/-- A file is written, or the tree stays as it is. -/
def Tree.dump (t : Tree) (p : Path) (data : Bytes) : Except Failure Unit × Tree :=
  match t.write p data with
  | .ok u => (.ok (), u)
  | .error fault => (.error ⟨.write, p, fault⟩, t)

theorem Tree.dump_eq_ok {t u : Tree} {p : Path} {data : Bytes}
    (h : t.dump p data = (.ok (), u)) : t.write p data = .ok u := by
  rw [dump] at h
  split at h
  · rename_i v hw
    rw [hw, (Prod.mk.inj h).2]
  · exact absurd (Prod.mk.inj h).1 nofun

theorem Tree.dump_eq_error {t u : Tree} {p : Path} {data : Bytes} {failure : Failure}
    (h : t.dump p data = (.error failure, u)) :
    u = t ∧ ∃ fault, t.write p data = .error fault ∧ failure = ⟨.write, p, fault⟩ := by
  rw [dump] at h
  split at h
  · exact absurd (Prod.mk.inj h).1 nofun
  · rename_i fault hw
    obtain ⟨hf, rfl⟩ := Prod.mk.inj h
    exact ⟨rfl, fault, hw, (Except.error.inj hf).symm⟩

theorem Workspace.perform_dump (p : Path) (data : Bytes) (w : Workspace) :
    w.perform (Files.dump p data) =
      ((w.tree.dump p data).1, { w with tree := (w.tree.dump p data).2 }) := by
  show StateT.run (Host.writeFile p data >>= _) w = _
  rw [run_bind, run_writeFile, Tree.dump]
  cases w.tree.write p data <;> rfl

end SettingsOverlay
