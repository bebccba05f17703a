import SettingsOverlay.Proofs.Overlay.Journal

/-!
# What of a target makes a difference

Two trees that differ in the file of the target and nowhere else: the second has other content in
its place, or no file. A run that finds the same object there, an empty one if there is none to be
found, does the same on both. It has the same directories to go through, so it writes its file in
the same place, be it there or not.

* `Tree.Varies`: the second tree, `Tree.varies_put` and `Tree.varies_remove` how to come by one;
* `Tree.overlay_eq_of_endsIn`: a run whose target is loaded, whatever the supplement is;
* `Overlay.run_of_varies`: runs on both trees, compared.
-/

namespace SettingsOverlay

open Json (Object)

namespace Tree

variable {t u : Tree} {o : Overlay} {l : Location}

/-- A tree with another file, or none, in the place of a file, and all else as it was. -/
structure Varies (t : Tree) (l : Location) (u : Tree) : Prop where
  file : t.IsFile l
  here : u.IsFile l ∨ u.at? l = none
  other {l' : Location} : l' ≠ l → u.at? l' = t.at? l'

theorem IsFile.exists_append (h : t.IsFile l) :
    ∃ dir name, l = dir ++ [name] ∧ t.isDir dir = true := by
  rcases List.eq_nil_or_concat l with rfl | ⟨dir, name, rfl⟩
  · exact absurd h.isDir_eq_false nofun
  · rw [List.concat_eq_append] at h ⊢
    exact ⟨dir, name, rfl,
      isDir_of_isSome_append (List.cons_ne_nil name []) (isSome_at?_iff.2 (.inr h))⟩

/-- Other bytes are put into the file. -/
theorem varies_put (h : t.IsFile l) (data : Bytes) : t.Varies l (t.put (.file data) l) := by
  obtain ⟨dir, name, rfl, hd⟩ := h.exists_append
  have hp := places_put (.file data) trivial hd h.isDir_eq_false
  exact ⟨h, .inl ⟨data, hp.self⟩, hp.other⟩

/-- The file is taken away. -/
theorem varies_remove (h : t.IsFile l) : t.Varies l (t.remove l) := by
  have hne : l ≠ [] := by
    obtain ⟨dir, name, rfl, -⟩ := h.exists_append
    exact List.append_ne_nil_of_right_ne_nil dir (List.cons_ne_nil name [])
  exact ⟨h, .inr (at?_remove_self t hne), at?_remove_of_ne h.isDir_eq_false⟩

namespace Varies

theorem isDir_eq_false (h : t.Varies l u) : u.isDir l = false := by
  rcases h.here with hf | hn
  · exact hf.isDir_eq_false
  · rw [isDir, hn]
    rfl

/-- No directory is another one. -/
theorem isDir (h : t.Varies l u) {l' : Location} (hd : t.isDir l' = true) :
    u.isDir l' = true := by
  have hne : l' ≠ l := by
    rintro rfl
    rw [h.file.isDir_eq_false] at hd
    contradiction
  rwa [Tree.isDir, h.other hne]

/-- One file in the place of both makes the trees the same. -/
theorem at?_eq (h : t.Varies l u) {t' u' : Tree} {e : Entry} (ht : t.Places l e t')
    (hu : u.Places l e u') (l' : Location) : t'.at? l' = u'.at? l' := by
  by_cases hl : l' = l
  · rw [hl, ht.self, hu.self]
  · rw [ht.other hl, hu.other hl, h.other hl]

end Varies

/-- A run whose target ends in a directory and is loaded, be there a file or not: all that can fail
is the supplement. -/
theorem overlay_eq_of_endsIn {d : Loaded} {dir : Location} {name : String}
    (h : t.EndsIn o.target dir name 0) (hl : isLong name = false)
    (hf : t.isDir (dir ++ [name]) = false) (hd : t.document o.target = .ok d) :
    t.overlay o =
      match t.document o.supplement with
      | .error failure => (.error failure, t)
      | .ok s => (.ok (d.object.overlay s.object),
          t.put (.file (d.object.overlay s.object).toBytes) (dir ++ [name])) := by
  cases hs : t.document o.supplement with
  | error failure => rw [overlay, hs]
  | ok s => exact overlay_of_endsIn h hl hf hs hd

/-- On both trees a run comes to the same, and puts the same file in the same place. -/
theorem Varies.overlay (h : t.Varies l u) (hl : t.resolve o.target = .ok l)
    (hs : t.document o.supplement = u.document o.supplement)
    (hd : (t.document o.target).map Loaded.object = (u.document o.target).map Loaded.object) :
    (∃ failure, t.overlay o = (.error failure, t) ∧ u.overlay o = (.error failure, u)) ∨
      ∃ m t' u', t.overlay o = (.ok m, t') ∧ u.overlay o = (.ok m, u') ∧
        t.Places l (.file m.toBytes) t' ∧ u.Places l (.file m.toBytes) u' := by
  obtain ⟨data, hfile⟩ := h.file
  have ht := document_of_resolve hl hfile
  obtain ⟨d, hu, hobject⟩ : ∃ d, u.document o.target = .ok d ∧
      d.object = (Loaded.ofBytes data).object := by
    rw [ht] at hd
    cases hu : u.document o.target with
    | error failure =>
      rw [hu] at hd
      contradiction
    | ok d =>
      rw [hu] at hd
      exact ⟨d, rfl, (Except.ok.inj hd).symm⟩
  obtain ⟨dir, name, rfl, hends, hshort⟩ := endsIn_of_resolve hl h.file
  have hends' := hends.mono fun _ => h.isDir
  rw [overlay_eq_of_endsIn hends hshort h.file.isDir_eq_false ht,
    overlay_eq_of_endsIn hends' hshort h.isDir_eq_false hu, hobject, ← hs]
  cases t.document o.supplement with
  | error failure => exact .inl ⟨failure, rfl, rfl⟩
  | ok s =>
    exact .inr ⟨_, _, _, rfl, rfl,
      places_put (.file _) trivial hends.dir h.file.isDir_eq_false,
      places_put (.file _) trivial hends'.dir h.isDir_eq_false⟩

end Tree

namespace Overlay

/-- Where the target names a file, another file or none in its place makes no difference to a run,
as long as the target gives the same object and the supplement is loaded as the same. The run comes
to the same, with the same records above `debug`. If it succeeds it writes the same bytes and leaves
the same tree; if it fails it leaves each tree as it was. -/
theorem run_of_varies {o : Overlay} {w v : Workspace} {l : Location}
    (hl : w.tree.resolve o.target = .ok l) (h : w.tree.Varies l v.tree)
    (ht : (w.perform (Document.load o.target)).1.map Loaded.object =
      (v.perform (Document.load o.target)).1.map Loaded.object)
    (hs : (w.perform (Document.load o.supplement)).1 =
      (v.perform (Document.load o.supplement)).1) :
    (w.perform o.run).1 = (v.perform o.run).1 ∧
      (∀ m, (w.perform o.run).1 = .ok m →
        (w.perform o.run).2.tree.at? l = some (.file m.toBytes) ∧
          ∀ l', (w.perform o.run).2.tree.at? l' = (v.perform o.run).2.tree.at? l') ∧
      (∀ failure, (w.perform o.run).1 = .error failure →
        (w.perform o.run).2.tree = w.tree ∧ (v.perform o.run).2.tree = v.tree) ∧
      ∃ reports reports', (w.perform o.run).2.journal = w.journal ++ reports ∧
        (v.perform o.run).2.journal = v.journal ++ reports' ∧
        (reports.map Report.record).filter (Level.info.passes ·.level) =
          (reports'.map Report.record).filter (Level.info.passes ·.level) := by
  rw [Workspace.perform_load, Workspace.perform_load] at ht hs
  have hrun := h.overlay hl hs ht
  have hsame : (w.tree.overlay o).1 = (v.tree.overlay o).1 := by
    rcases hrun with ⟨failure, hw, hv⟩ | ⟨m, t, u, hw, hv, -⟩ <;> rw [hw, hv]
  have hrecords : ((w.tree.reports o).map Report.record).filter (Level.info.passes ·.level) =
      ((v.tree.reports o).map Report.record).filter (Level.info.passes ·.level) := by
    rw [Tree.shown_reports, Tree.shown_reports, hsame]
    exact congrArg (o.shown · _) hs
  rw [Workspace.perform_run_eq, Workspace.perform_run_eq]
  dsimp only
  refine ⟨hsame, ?_, ?_, _, _, rfl, rfl, hrecords⟩
  · intro m hm
    rcases hrun with ⟨failure, hw, -⟩ | ⟨m', t, u, hw, hv, hplace, hplace'⟩
    · rw [hw] at hm
      cases hm
    · rw [hw] at hm ⊢
      rw [hv]
      obtain rfl := Except.ok.inj hm
      exact ⟨hplace.self, h.at?_eq hplace hplace'⟩
  · intro failure hf
    rcases hrun with ⟨failure', hw, hv⟩ | ⟨m, t, u, hw, -⟩
    · rw [hw, hv]
      exact ⟨rfl, rfl⟩
    · rw [hw] at hf
      cases hf

/-- Two files, one of them with nothing in it. -/
def emptyFile : Tree := twoFiles.put (.file []) ["settings.json"]

/-- An empty file is as good as none. -/
theorem run_of_varies_emptyFile :
    ∃ w v, (Workspace.mk emptyFile []).perform
        (run ⟨.ofText "s.json", .ofText "settings.json"⟩) = (.ok [("b", .null)], w) ∧
      (Workspace.mk (emptyFile.remove ["settings.json"]) []).perform
        (run ⟨.ofText "s.json", .ofText "settings.json"⟩) = (.ok [("b", .null)], v) ∧
      ∀ l, w.tree.at? l = v.tree.at? l := by
  have hl : emptyFile.resolve (.ofText "settings.json") = .ok ["settings.json"] := rfl
  have hd : emptyFile.document (.ofText "settings.json") = .ok (.ofBytes []) :=
    Tree.document_of_resolve hl rfl
  have hd' : (emptyFile.remove ["settings.json"]).document (.ofText "settings.json") =
      .ok .missing := rfl
  have supplement {t : Tree} (hr : t.resolve (.ofText "s.json") = .ok ["s.json"])
      (hf : t.at? ["s.json"] = some (.file (Object.toBytes [("b", .null)]))) :
      t.document (.ofText "s.json") = .ok (.found [("b", .null)]) := by
    rw [Tree.document_of_resolve hr hf, twoFiles_read.1]
  have hs := supplement (t := emptyFile) rfl rfl
  have hs' := supplement (t := emptyFile.remove ["settings.json"]) rfl rfl
  have hu : emptyFile.makeParent (.ofText "settings.json") = (.ok (), emptyFile) := by
    have ha : (Path.ofText "settings.json").ancestors = [] := by cbv
    rw [Tree.makeParent, ha]
  obtain ⟨w, hw, -⟩ := run_of_overlay (w := ⟨emptyFile, []⟩)
    (o := ⟨.ofText "s.json", .ofText "settings.json"⟩) (Tree.overlay_of_parts hs hd hu rfl)
  obtain ⟨hsame, htree, -⟩ := run_of_varies (w := ⟨emptyFile, []⟩)
    (v := ⟨emptyFile.remove ["settings.json"], []⟩)
    (o := ⟨.ofText "s.json", .ofText "settings.json"⟩) hl (Tree.varies_remove ⟨[], rfl⟩)
    (by rw [Workspace.perform_load, Workspace.perform_load, hd, hd']; rfl)
    (by rw [Workspace.perform_load, Workspace.perform_load, hs, hs'])
  rcases hv : (Workspace.mk (emptyFile.remove ["settings.json"]) []).perform
    (run ⟨.ofText "s.json", .ofText "settings.json"⟩) with ⟨r, v⟩
  rw [hw, hv] at hsame htree
  obtain rfl : _ = r := hsame
  exact ⟨w, v, hw, rfl, (htree _ rfl).2⟩

end Overlay

end SettingsOverlay
