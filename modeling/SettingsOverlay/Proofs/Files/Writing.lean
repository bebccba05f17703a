import SettingsOverlay.Proofs.Files

/-!
# Reading after writing

A file is written at one location, but paths alias each other, and a file that is new lets paths
lead to it which led nowhere. What a path names apart from that file does not depend on it: a walk
goes on through directories only, and they are the same before and after.

* `Tree.Places.resolve_iff`: the paths to every other location are the same ones;
* `Workspace.perform_loadBytes_of_resolve`: a file is read through any path that names it;
* `Files.dump_frames`: what writing a file does on any tree, for any path.
-/

namespace SettingsOverlay

namespace Tree

variable {t u : Tree} {l l' : Location} {data : Bytes}

/-- The directories are the same ones if a file stands where none of them stood. -/
theorem Places.isDir_eq (h : t.Places l (.file data) u) (hd : t.isDir l = false) (l' : Location) :
    u.isDir l' = t.isDir l' := by
  by_cases hl : l' = l
  · rw [hl, hd, isDir, h.self]
    rfl
  · rw [isDir, isDir, h.other hl]

/-- A walk past the file could be taken without it. -/
theorem Places.walk_of_ne (h : t.Places l (.file data) u) (hd : t.isDir l = false) (hl : l' ≠ l)
    {start : Location} {pieces : List String} (hw : u.walk start pieces = .ok l') :
    t.walk start pieces = .ok l' := by
  induction pieces generalizing start with
  | nil => exact hw
  | cons piece pieces ih =>
    obtain ⟨hstart, hw⟩ := walk_cons_eq_ok_iff.1 hw
    rw [h.isDir_eq hd] at hstart
    refine walk_cons_eq_ok_iff.2 ⟨hstart, ?_⟩
    rcases hw with ⟨hs, hw⟩ | ⟨hup, hw⟩ | ⟨hs, hdots, hlong, ha, hw⟩
    · exact .inl ⟨hs, ih hw⟩
    · exact .inr (.inl ⟨hup, ih hw⟩)
    · have hne : start ++ [piece] ≠ l := by
        rintro rfl
        -- A walk that comes to the file ends there, or it would have to go on through a directory.
        cases pieces with
        | nil => exact hl (Except.ok.inj hw).symm
        | cons next rest =>
          have hfile := (walk_cons_eq_ok_iff.1 hw).1
          rw [h.isDir_eq hd, hd] at hfile
          contradiction
      rw [h.other hne] at ha
      exact .inr (.inr ⟨hs, hdots, hlong, ha, ih hw⟩)

/-- The file makes no difference to the paths that name something else. -/
theorem Places.resolve_iff (h : t.Places l (.file data) u) (hd : t.isDir l = false) (hl : l' ≠ l)
    (p : Path) : u.resolve p = .ok l' ↔ t.resolve p = .ok l' := by
  refine ⟨fun hr => ?_, (h.grows hd).resolve⟩
  rw [resolve_eq_ok_iff] at hr ⊢
  exact hr.imp_right (h.walk_of_ne hd hl)

end Tree

/-- A file is read through any path that names it. -/
theorem Workspace.perform_loadBytes_of_resolve {w : Workspace} {p : Path} {l : Location}
    {data : Bytes} (hr : w.tree.resolve p = .ok l) (hf : w.tree.at? l = some (.file data)) :
    w.perform (Files.load p) = (.ok (some data), w) := by
  have hread := Tree.read_of_resolve hr hf
  rw [perform_loadBytes, Tree.absence_of_read hread, hread, told_nil]

/-- Whether a file can be written: the path ends in a name in a directory, without slashes behind
it, and this is not the name of a directory. -/
theorem Tree.dump_fst_eq_ok_iff {t : Tree} {p : Path} {data : Bytes} :
    (t.dump p data).1 = .ok () ↔ ∃ dir name, t.EndsIn p dir name 0 ∧ isLong name = false ∧
      t.isDir (dir ++ [name]) = false := by
  constructor
  · intro h
    obtain ⟨dir, name, he, hl, hd, -⟩ := write_eq_ok_iff.1 (dump_eq_ok (Prod.ext h rfl))
    exact ⟨dir, name, he, hl, hd⟩
  · rintro ⟨dir, name, he, hl, hd⟩
    rw [dump, write_eq_ok_iff.2 ⟨dir, name, he, hl, hd, rfl⟩]

namespace Files

/-- Writing replaces or creates one file. It succeeds exactly if the path ends in a directory, with
a name that is not too long and no directory's own. Then the path names that file, and what was
written is read through any path that names it. At every other location stands what stood there;
the paths to it are the same as before, so every other file that a path named is read through it as
before, and a path that named a directory still does. If writing fails, nothing has changed. -/
theorem dump_frames (p : Path) (data : Bytes) (w : Workspace) :
    ∃ r u, w.perform (dump p data) = (r, { w with tree := u }) ∧
      (r = .ok () ↔ ∃ dir name, w.tree.EndsIn p dir name 0 ∧ isLong name = false ∧
        w.tree.isDir (dir ++ [name]) = false) ∧
      (r = .ok () → ∃ l, u.resolve p = .ok l ∧
        (∀ q, u.resolve q = .ok l →
          { w with tree := u }.perform (load q) = (.ok (some data), { w with tree := u })) ∧
        (∀ q l', l' ≠ l → w.tree.resolve q = .ok l' → w.tree.IsFile l' →
          ∃ old, w.perform (load q) = (.ok (some old), w) ∧
            { w with tree := u }.perform (load q) = (.ok (some old), { w with tree := u })) ∧
        (∀ q, w.tree.namesDir q = true → u.namesDir q = true) ∧
        (∀ l', l' ≠ l → u.at? l' = w.tree.at? l') ∧
        ∀ q l', l' ≠ l → (u.resolve q = .ok l' ↔ w.tree.resolve q = .ok l')) ∧
      ∀ failure, r = .error failure → u = w.tree := by
  refine ⟨_, _, w.perform_dump p data, Tree.dump_fst_eq_ok_iff, fun hr => ?_,
    fun failure hr => ?_⟩
  · obtain ⟨l, hp, hd, hl⟩ := Tree.places_of_write (Tree.dump_eq_ok (Prod.ext hr rfl))
    refine ⟨l, hl, fun q hq => ?_, fun q l' hne hq ⟨old, hf⟩ => ?_, fun q => ?_,
      fun l' => hp.other, fun q l' hne => hp.resolve_iff hd hne q⟩
    · exact Workspace.perform_loadBytes_of_resolve hq hp.self
    · refine ⟨old, Workspace.perform_loadBytes_of_resolve hq hf, ?_⟩
      exact Workspace.perform_loadBytes_of_resolve ((hp.resolve_iff hd hne q).2 hq)
        ((hp.other hne).trans hf)
    · exact (hp.grows hd).namesDir
  · exact (Tree.dump_eq_error (Prod.ext hr rfl)).1

/-- A file is created through one path and read through another one, beside a file that stays. -/
theorem dump_frames_created :
    ∃ u, (Workspace.mk [("a", .file [1]), ("d", .dir [])] []).perform
        (dump (.ofText "d/../b") [2]) = (.ok (), ⟨u, []⟩) ∧
      (Workspace.mk u []).perform (load (.ofText ".//b")) = (.ok (some [2]), ⟨u, []⟩) ∧
      (Workspace.mk u []).perform (load (.ofText "d/./../a")) = (.ok (some [1]), ⟨u, []⟩) := by
  obtain ⟨r, u, hr, -, hok, -⟩ :=
    dump_frames (.ofText "d/../b") [2] ⟨[("a", .file [1]), ("d", .dir [])], []⟩
  have hw : (Workspace.mk [("a", .file [1]), ("d", .dir [])] []).perform
      (dump (.ofText "d/../b") [2]) =
      (.ok (), ⟨[("a", .file [1]), ("d", .dir []), ("b", .file [2])], []⟩) := rfl
  obtain ⟨rfl, hu⟩ := Prod.mk.inj (hw.symm.trans hr)
  obtain rfl : _ = u := congrArg Workspace.tree hu
  obtain ⟨l, hl, hnew, hold, -⟩ := hok rfl
  obtain rfl : ["b"] = l := Except.ok.inj hl
  refine ⟨_, hw, hnew _ rfl, ?_⟩
  obtain ⟨old, hbefore, hafter⟩ := hold (.ofText "d/./../a") ["a"] (by decide) rfl ⟨[1], rfl⟩
  obtain rfl : [1] = old := Option.some.inj (Except.ok.inj (congrArg Prod.fst hbefore))
  exact hafter

end Files

end SettingsOverlay
