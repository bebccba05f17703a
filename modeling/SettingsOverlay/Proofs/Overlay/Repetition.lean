import SettingsOverlay.Proofs.Overlay

/-!
# Runs that are repeated

A run that follows another with the same files finds what that one left: the target is read back as
it was written, the supplement's members are there already, no directory is missing, and the same
bytes are written again.

* `Tree.overlay_again`: as a function of the tree, the run stays where it is;
* `Overlay.run_again`: the run itself.
-/

namespace SettingsOverlay

open Json (Object)

/-- A second run changes nothing, if it still finds the supplement. -/
theorem Tree.overlay_again {t v : Tree} {o : Overlay} {m : Object} {s s' : Loaded}
    (h : t.overlay o = (.ok m, v)) (hs : t.document o.supplement = .ok s)
    (hs' : v.document o.supplement = .ok s') (he : s'.object = s.object) :
    v.overlay o = (.ok m, v) := by
  obtain ⟨s₁, d, u, hs₁, hd, hm, hu, hv⟩ := parts_of_overlay h
  obtain rfl : s = s₁ := Except.ok.inj (hs.symm.trans hs₁)
  obtain ⟨l, hp, hl, hr⟩ := places_of_write hv
  have hstored : m.Storable := hm ▸ (storable_document hd).overlay (storable_document hs)
  have hread : v.document o.target = .ok (.found m) := by
    rw [document_of_resolve hr hp.self, Loaded.ofBytes_toBytes hstored]
  have hmerged : (Loaded.found m).object.overlay s'.object = m := by
    rw [he, hm]
    exact Object.overlay_overlay_self _ (storable_document hs).nodup_keys
  have hwrite := write_again hv
  rw [← hmerged] at hwrite
  have hagain := overlay_of_parts hs' hread (makeParent_again hu (hp.grows hl)) hwrite
  rwa [hmerged] at hagain

namespace Overlay

/-- A run that succeeds can be repeated as long as it loads the same supplement. It comes to the
same object and leaves the tree as the first run left it. -/
theorem run_again {o : Overlay} {w w' : Workspace} {m : Object} {s s' : Loaded}
    (h : w.perform o.run = (.ok m, w')) (hs : (w.perform (Document.load o.supplement)).1 = .ok s)
    (hs' : (w'.perform (Document.load o.supplement)).1 = .ok s') (he : s'.object = s.object) :
    ∃ w'', w'.perform o.run = (.ok m, w'') ∧ w''.tree = w'.tree := by
  rw [Workspace.perform_load] at hs hs'
  exact run_of_overlay (Tree.overlay_again (overlay_of_run h) hs hs' he)

/-- The first run creates the directory of its target and the target, the second finds both. -/
theorem run_again_twoFiles :
    ∃ w' w'', (Workspace.mk twoFiles []).perform
        (run ⟨.ofText "s.json", .ofText ".vscode/settings.json"⟩) = (.ok [("b", .null)], w') ∧
      w'.tree.at? [".vscode"] = some .dir ∧
      (w'.perform (Document.load (.ofText "s.json"))).1 = .ok (.found [("b", .null)]) ∧
      w'.perform (run ⟨.ofText "s.json", .ofText ".vscode/settings.json"⟩) =
        (.ok [("b", .null)], w'') ∧
      w''.tree = w'.tree := by
  have ha : (Path.ofText ".vscode/settings.json").ancestors = [.ofText ".vscode"] := by cbv
  have hd : twoFiles.document (.ofText ".vscode/settings.json") = .ok .missing := rfl
  have hu : twoFiles.makeParent (.ofText ".vscode/settings.json") =
      (.ok (), twoFiles ++ [(".vscode", .dir [])]) := by
    rw [Tree.makeParent, ha]
    rfl
  have hw : Tree.write (twoFiles ++ [(".vscode", .dir [])]) (.ofText ".vscode/settings.json")
      (Object.toBytes [("b", .null)]) =
        .ok (Tree.put (.file (Object.toBytes [("b", .null)]))
          (twoFiles ++ [(".vscode", .dir [])]) [".vscode", "settings.json"]) := rfl
  obtain ⟨w', hr, ht⟩ := run_of_overlay (w := ⟨twoFiles, []⟩)
    (o := ⟨.ofText "s.json", .ofText ".vscode/settings.json"⟩)
    (Tree.overlay_of_parts twoFiles_supplement hd hu hw)
  have hs : ((Workspace.mk twoFiles []).perform (Document.load (.ofText "s.json"))).1 =
      .ok (.found [("b", .null)]) := by
    rw [Workspace.perform_load]
    exact twoFiles_supplement
  have hs' : (w'.perform (Document.load (.ofText "s.json"))).1 =
      .ok (.found [("b", .null)]) := by
    have hresolve : w'.tree.resolve (.ofText "s.json") = .ok ["s.json"] := ht ▸ rfl
    have hfile : w'.tree.at? ["s.json"] = some (.file (Object.toBytes [("b", .null)])) := ht ▸ rfl
    rw [Workspace.perform_load, Tree.document_of_resolve hresolve hfile, twoFiles_read.1]
  obtain ⟨w'', hr', ht'⟩ := run_again hr hs hs' rfl
  exact ⟨w', w'', hr, ht ▸ rfl, hs', hr', ht'⟩

end Overlay

end SettingsOverlay
