import SettingsOverlay.Proofs.Command

/-!
# Sessions

Runs, documents that are saved, and whole commands, one after the other on one tree. Each step may
fail, and what it wrote until then is there for the next one. One relation between trees holds
across every step, and it is an order, so it holds across any number of them.

* `Tree.Evolves`: nothing is gone, and whatever was written can be read;
* `Workspace.Task`: one step of a session, `Task.evolves`: what it does to the tree;
* `Workspace.states`: the workspaces after the steps of a session;
* `Workspace.evolves_of_mem_states`: what holds after each of them.
-/

namespace SettingsOverlay

open Json (Object)

/-! ## What every step keeps -/

/-- A tree has grown, and each file that is new or has other content is the text of an object, as
which it is read. -/
structure Tree.Evolves (t u : Tree) : Prop extends t.Grows u where
  written {l : Location} {data : Bytes} : u.at? l = some (.file data) →
    t.at? l = some (.file data) ∨ ∃ o : Object, data = o.toBytes ∧ Loaded.ofBytes data = .found o

namespace Tree

variable {t u v : Tree}

theorem Evolves.refl (t : Tree) : t.Evolves t := ⟨.refl t, .inl⟩

theorem Evolves.trans (h : t.Evolves u) (h' : u.Evolves v) : t.Evolves v := by
  refine ⟨h.toGrows.trans h'.toGrows, fun hf => ?_⟩
  rcases h'.written hf with hu | ho
  · exact h.written hu
  · exact .inr ho

/-- New directories are no files. -/
theorem Extends.evolves {ps : List Path} (h : t.Extends ps u) : t.Evolves u :=
  ⟨h.grows, fun hf => .inl (h.file_iff.1 hf)⟩

theorem Places.evolves {l : Location} {o : Object} (h : t.Places l (.file o.toBytes) u)
    (hd : t.isDir l = false) (ho : o.Storable) : t.Evolves u := by
  refine ⟨h.grows hd, fun {l' data} hf => ?_⟩
  by_cases hl : l' = l
  · rw [hl, h.self] at hf
    obtain rfl := Entry.file.inj (Option.some.inj hf)
    exact .inr ⟨o, rfl, Loaded.ofBytes_toBytes ho⟩
  · exact .inl (h.other hl ▸ hf)

theorem evolves_dump (t : Tree) (p : Path) {o : Object} (ho : o.Storable) :
    t.Evolves (t.dump p o.toBytes).2 := by
  rw [dump]
  cases hw : t.write p o.toBytes with
  | error fault => exact .refl t
  | ok u =>
    obtain ⟨l, hp, hl, -⟩ := places_of_write hw
    exact hp.evolves hl ho

theorem evolves_overlay (t : Tree) (o : Overlay) : t.Evolves (t.overlay o).2 := by
  match h : t.overlay o with
  | (.error failure, v) => exact (extends_of_overlay h).evolves
  | (.ok m, v) =>
    obtain ⟨s, d, u, l, hs, hd, rfl, hu, hp, hl, -⟩ := overlay_eq_ok h
    have hm := (storable_document hd).overlay (storable_document hs)
    exact hu.evolves.trans (hp.evolves hl hm)

end Tree

/-! ## The steps of a session -/

namespace Workspace

theorem evolves_save (w : Workspace) (p : Path) {o : Object} (ho : o.Storable) :
    w.tree.Evolves (w.perform (Document.save p o)).2.tree := by
  have hext := w.tree.extends_makeParent p
  rw [perform_save]
  match hm : w.tree.makeParent p with
  | (.error failure, u) =>
    rw [hm] at hext
    exact hext.evolves
  | (.ok (), u) =>
    rw [hm] at hext
    exact hext.evolves.trans (u.evolves_dump p ho)

/-- A step of a session: a run, the object of some bytes that is saved, or a command with its
arguments and its clock. -/
inductive Task where
  | overlay (o : Overlay)
  | save (p : Path) (data : Bytes)
  | command (clock : Nat → Stamp) (arguments : List String)

/-- The workspace after a step, whatever the step comes to. -/
def Task.perform (w : Workspace) : Task → Workspace
  | overlay o => (w.perform o.run).2
  | save p data => (w.perform (Document.save p (Loaded.ofBytes data).object)).2
  | command clock arguments => { w with tree := (Command.run clock arguments w.tree).tree }

theorem Task.evolves (w : Workspace) (task : Task) : w.tree.Evolves (task.perform w).tree := by
  cases task with
  | overlay o =>
    rw [perform, (w.perform_run o).2]
    exact w.tree.evolves_overlay o
  | save p data => exact w.evolves_save p (Loaded.storable_object data)
  | command clock arguments =>
    show w.tree.Evolves (Command.run clock arguments w.tree).tree
    rw [Command.tree_run]
    cases Given.ofArguments arguments with
    | error stop => exact .refl w.tree
    | ok g => exact w.tree.evolves_overlay g.overlay

/-- The workspaces after the steps of a session, one for each step. -/
def states (w : Workspace) : List Task → List Workspace
  | [] => []
  | task :: tasks => task.perform w :: states (task.perform w) tasks

/-- After each step of a session, every directory and every file that was there at its start is
still there, and each file that is new or has other content is read as the object it was written
from. -/
theorem evolves_of_mem_states {w u : Workspace} {tasks : List Task} (h : u ∈ w.states tasks) :
    w.tree.Evolves u.tree := by
  induction tasks generalizing w with
  | nil => contradiction
  | cons task tasks ih =>
    rcases List.mem_cons.1 h with rfl | h
    · exact task.evolves w
    · exact (task.evolves w).trans (ih h)

/-- A run, and a command that copies what the run wrote. -/
def copying : List Task :=
  [.overlay ⟨.ofText "s.json", .ofText "settings.json"⟩,
    .command (fun _ => ⟨1, 1, 0, 0, 0, 0⟩) ["-s", "settings.json", "-t", "new/copy.json"]]

theorem tree_copying :
    ∃ u, ((Workspace.mk Overlay.twoFiles []).states copying).getLast? = some u ∧
      u.tree = Tree.put (.file (Object.toBytes [("a", .bool true), ("b", .null)]))
        (Overlay.twoFiles.put (.file (Object.toBytes [("a", .bool true), ("b", .null)]))
          ["settings.json"] ++ [("new", .dir [])]) ["new", "copy.json"] := by
  obtain ⟨v, hv⟩ : ∃ v, v = Overlay.twoFiles.put
    (.file (Object.toBytes [("a", .bool true), ("b", .null)])) ["settings.json"] := ⟨_, rfl⟩
  obtain ⟨w, hrun, htree⟩ := Overlay.run_of_overlay (w := ⟨Overlay.twoFiles, []⟩)
    Overlay.twoFiles_overlay
  -- the target of the run is the supplement of the command
  have hs : v.document (.ofText "settings.json") =
      .ok (.found [("a", .bool true), ("b", .null)]) := by
    obtain ⟨l, hl⟩ := Tree.exists_stores Overlay.twoFiles_overlay
    exact hv ▸ hl.document
  have hd : v.document (.ofText "new/copy.json") = .ok .missing := hv ▸ rfl
  have ha : (Path.ofText "new/copy.json").ancestors = [.ofText "new"] := by cbv
  have hm : v.makeParent (.ofText "new/copy.json") = (.ok (), v ++ [("new", .dir [])]) := by
    rw [Tree.makeParent, ha, hv]
    rfl
  have hw : Tree.write (v ++ [("new", .dir [])]) (.ofText "new/copy.json")
      (Object.toBytes [("a", .bool true), ("b", .null)]) =
        .ok (Tree.put (.file (Object.toBytes [("a", .bool true), ("b", .null)]))
          (v ++ [("new", .dir [])]) ["new", "copy.json"]) := hv ▸ rfl
  have hcopy := Tree.overlay_of_parts
    (o := ⟨.ofText "settings.json", .ofText "new/copy.json"⟩) hs hd hm hw
  refine ⟨_, rfl, ?_⟩
  show (Command.run _ _ (Task.perform _ (.overlay _)).tree).tree = _
  rw [Task.perform, hrun, htree, ← hv, Command.tree_run]
  exact congrArg Prod.snd hcopy

theorem evolves_of_mem_states_twoFiles :
    ∃ u, ((Workspace.mk Overlay.twoFiles []).states copying).getLast? = some u ∧
      u.tree.at? ["settings.json"] =
        some (.file (Object.toBytes [("a", .bool true), ("b", .null)])) ∧
      u.tree.at? ["new", "copy.json"] =
        some (.file (Object.toBytes [("a", .bool true), ("b", .null)])) ∧
      Overlay.twoFiles.Evolves u.tree := by
  obtain ⟨u, hu, htree⟩ := tree_copying
  have hevolves := evolves_of_mem_states (List.mem_of_getLast? hu)
  exact ⟨u, hu, htree ▸ rfl, htree ▸ rfl, hevolves⟩

end Workspace

end SettingsOverlay
