import SettingsOverlay.Proofs.Disk.Presence
import SettingsOverlay.Proofs.Document

/-!
# What a run does

A run as a function of the tree, `Tree.overlay`, and what that says about the files.

* `Workspace.perform_run`: a run comes to what `Tree.overlay` says;
* `Tree.Stores`: a path leads to an object that was written;
* `Overlay.run_eq_ok`: what a run that succeeds leaves behind;
* `Overlay.run_keeps_iff`: when it keeps the members of the file that it writes.
-/

namespace SettingsOverlay

open Json (Object)

/-! ## A run as a function of the tree -/

/-- What a run comes to on a tree, and the tree that it leaves behind. -/
def Tree.overlay (t : Tree) (o : Overlay) : Except Failure Object × Tree :=
  match t.document o.supplement with
  | .error failure => (.error failure, t)
  | .ok supplement =>
    match t.document o.target with
    | .error failure => (.error failure, t)
    | .ok target =>
      match t.makeParent o.target with
      | (.error failure, u) => (.error failure, u)
      | (.ok (), u) =>
        match u.dump o.target (target.object.overlay supplement.object).toBytes with
        | (.error failure, v) => (.error failure, v)
        | (.ok (), v) => (.ok (target.object.overlay supplement.object), v)

/-- What is reported of a supplement: whatever keeps it from being an object. -/
def Overlay.supplementNotices (o : Overlay) : Loaded → List Notice
  | .found _ => []
  | .missing => [.notFound o.supplement, .noSupplement o.supplement]
  | .malformed reason => [.badSupplement o.supplement reason]

/-- What is reported of a target. -/
def Overlay.targetNotices (o : Overlay) : Loaded → List Notice
  | .found _ => []
  | .missing => [.notFound o.target]
  | .malformed reason => [.badTarget o.target reason]

/-- What a run reports before it changes anything: it stops at a document that is not loaded. -/
def Tree.notices (t : Tree) (o : Overlay) : List Notice :=
  match t.document o.supplement with
  | .error _ => []
  | .ok s => o.supplementNotices s ++ .target o.target ::
    match t.document o.target with
    | .error _ => []
    | .ok d => o.targetNotices d

/-- All that a run reports, with the trees of these moments. -/
def Tree.reports (t : Tree) (o : Overlay) : List Report :=
  (t.notices o).map (⟨·, t⟩) ++
    match t.overlay o with
    | (.ok _, u) => [⟨.updated o.target, u⟩]
    | (.error _, _) => []

namespace Workspace

variable {w : Workspace} {o : Overlay} {d : Loaded} {failure : Failure}

theorem perform_loadSupplement (h : w.tree.document o.supplement = .ok d) :
    w.perform o.loadSupplement = (.ok d.object, w.told (o.supplementNotices d)) := by
  rw [Overlay.loadSupplement, perform_bind, perform_load, h, Tree.absence, h]
  cases d with
  | found s => rfl
  | missing =>
    dsimp only
    rw [perform_bind, perform_report, told_told]
    rfl
  | malformed reason =>
    dsimp only
    rw [perform_bind, perform_report, told_told]
    rfl

theorem perform_loadTarget (h : w.tree.document o.target = .ok d) :
    w.perform o.loadTarget = (.ok d.object, w.told (o.targetNotices d)) := by
  rw [Overlay.loadTarget, perform_bind, perform_load, h, Tree.absence, h]
  cases d with
  | found s => rfl
  | missing => rfl
  | malformed reason =>
    dsimp only
    rw [perform_bind, perform_report, told_told]
    rfl

theorem perform_loadSupplement_error (h : w.tree.document o.supplement = .error failure) :
    w.perform o.loadSupplement = (.error failure, w) := by
  rw [Overlay.loadSupplement, perform_bind, perform_load, h, Tree.absence, h]
  exact congrArg _ w.told_nil

theorem perform_loadTarget_error (h : w.tree.document o.target = .error failure) :
    w.perform o.loadTarget = (.error failure, w) := by
  rw [Overlay.loadTarget, perform_bind, perform_load, h, Tree.absence, h]
  exact congrArg _ w.told_nil

theorem perform_save (w : Workspace) (p : Path) (m : Object) :
    w.perform (Document.save p m) =
      match w.tree.makeParent p with
      | (.error failure, u) => (.error failure, { w with tree := u })
      | (.ok (), u) => ((u.dump p m.toBytes).1, { w with tree := (u.dump p m.toBytes).2 }) := by
  rw [Document.save, perform_bind, perform_makeParent]
  match w.tree.makeParent p with
  | (.error failure, u) => rfl
  | (.ok (), u) => exact perform_dump p m.toBytes { w with tree := u }

/-- A run comes to what it comes to on the tree, and adds what it reports to the journal. -/
theorem perform_run_eq (w : Workspace) (o : Overlay) :
    w.perform o.run =
      ((w.tree.overlay o).1, ⟨(w.tree.overlay o).2, w.journal ++ w.tree.reports o⟩) := by
  rw [Overlay.run, perform_bind, Tree.reports, Tree.notices, Tree.overlay]
  cases hs : w.tree.document o.supplement with
  | error failure =>
    rw [perform_loadSupplement_error hs]
    simp
  | ok s =>
    rw [perform_loadSupplement hs]
    dsimp only
    rw [perform_bind, perform_report, told_told]
    dsimp only
    rw [perform_bind]
    cases hd : w.tree.document o.target with
    | error failure =>
      rw [perform_loadTarget_error (w := w.told _) hd]
      simp [told]
    | ok d =>
      rw [perform_loadTarget (w := w.told _) hd, told_told]
      dsimp only
      rw [perform_bind, perform_save, tree_told]
      rcases w.tree.makeParent o.target with ⟨_ | _, u⟩
      · simp [told]
      · dsimp only
        rcases u.dump o.target (d.object.overlay s.object).toBytes with ⟨_ | _, v⟩
        · simp [told]
        · dsimp only
          rw [perform_bind, perform_report]
          simp [told]

theorem perform_run (w : Workspace) (o : Overlay) :
    (w.perform o.run).1 = (w.tree.overlay o).1 ∧
      (w.perform o.run).2.tree = (w.tree.overlay o).2 := by
  rw [perform_run_eq]
  exact ⟨rfl, rfl⟩

end Workspace

/-! ## Runs that succeed -/

/-- What a program holds of a document can be stored. -/
theorem Tree.storable_document {t : Tree} {p : Path} {d : Loaded} (h : t.document p = .ok d) :
    d.object.Storable := by
  rw [document] at h
  split at h
  · rw [← Except.ok.inj h]
    exact Loaded.storable_object _
  · rw [← Except.ok.inj h]
    exact Object.storable_nil
  · contradiction

/-- A run succeeds if its parts do: two documents are loaded, the directories that are missing are
created, and the file is written. -/
theorem Tree.overlay_of_parts {t u v : Tree} {o : Overlay} {s d : Loaded}
    (hs : t.document o.supplement = .ok s) (hd : t.document o.target = .ok d)
    (hu : t.makeParent o.target = (.ok (), u))
    (hv : u.write o.target (d.object.overlay s.object).toBytes = .ok v) :
    t.overlay o = (.ok (d.object.overlay s.object), v) := by
  simp only [overlay, hs, hd, hu, dump, hv]

/-- A run whose target ends in a directory, where no directory stands in its place, does no more
than to write it. -/
theorem Tree.overlay_of_endsIn {t : Tree} {o : Overlay} {s d : Loaded} {dir : Location}
    {name : String} (h : t.EndsIn o.target dir name 0) (hl : isLong name = false)
    (hf : t.isDir (dir ++ [name]) = false) (hs : t.document o.supplement = .ok s)
    (hd : t.document o.target = .ok d) :
    t.overlay o = (.ok (d.object.overlay s.object),
      t.put (.file (d.object.overlay s.object).toBytes) (dir ++ [name])) :=
  overlay_of_parts hs hd (makeParent_of_endsIn h) (write_eq_ok_iff.2 ⟨dir, name, h, hl, hf, rfl⟩)

/-- Conversely, the parts of a run that succeeds. -/
theorem Tree.parts_of_overlay {t v : Tree} {o : Overlay} {m : Object}
    (h : t.overlay o = (.ok m, v)) :
    ∃ s d u, t.document o.supplement = .ok s ∧ t.document o.target = .ok d ∧
      m = d.object.overlay s.object ∧ t.makeParent o.target = (.ok (), u) ∧
      u.write o.target m.toBytes = .ok v := by
  rw [overlay] at h
  split at h
  · exact absurd (Prod.mk.inj h).1 nofun
  rename_i s hs
  split at h
  · exact absurd (Prod.mk.inj h).1 nofun
  rename_i d hd
  split at h
  · exact absurd (Prod.mk.inj h).1 nofun
  rename_i u hm
  split at h
  · exact absurd (Prod.mk.inj h).1 nofun
  rename_i v' hv
  obtain ⟨h₁, rfl⟩ := Prod.mk.inj h
  obtain rfl := Except.ok.inj h₁
  exact ⟨s, d, u, hs, hd, rfl, hm, dump_eq_ok hv⟩

/-- The part at which a run fails: a document, the directories of the target, or its file. -/
theorem Tree.error_of_overlay {t v : Tree} {o : Overlay} {failure : Failure}
    (h : t.overlay o = (.error failure, v)) :
    (t.document o.supplement = .error failure ∨ t.document o.target = .error failure) ∧ v = t ∨
      t.makeParent o.target = (.error failure, v) ∨
      t.makeParent o.target = (.ok (), v) ∧
        ∃ data fault, v.write o.target data = .error fault ∧
          failure = ⟨.write, o.target, fault⟩ := by
  rw [overlay] at h
  split at h
  · rename_i hs
    obtain ⟨hf, rfl⟩ := Prod.mk.inj h
    exact .inl ⟨.inl (Except.error.inj hf ▸ hs), rfl⟩
  split at h
  · rename_i hd
    obtain ⟨hf, rfl⟩ := Prod.mk.inj h
    exact .inl ⟨.inr (Except.error.inj hf ▸ hd), rfl⟩
  split at h
  · rename_i hm
    obtain ⟨hf, rfl⟩ := Prod.mk.inj h
    exact .inr (.inl (Except.error.inj hf ▸ hm))
  rename_i hm
  split at h
  · rename_i hv
    obtain ⟨hf, rfl⟩ := Prod.mk.inj h
    obtain ⟨rfl, fault, hw, rfl⟩ := dump_eq_error hv
    exact .inr (.inr ⟨hm, _, fault, hw, (Except.error.inj hf).symm⟩)
  · exact absurd (Prod.mk.inj h).1 nofun

/-- What the parts of a run do to the tree: in `u` the directories that were missing are there, and
then a file is put in it. -/
theorem Tree.overlay_eq_ok {t v : Tree} {o : Overlay} {m : Object}
    (h : t.overlay o = (.ok m, v)) :
    ∃ s d u l, t.document o.supplement = .ok s ∧ t.document o.target = .ok d ∧
      m = d.object.overlay s.object ∧ t.Extends o.target.ancestors u ∧
      u.Places l (.file m.toBytes) v ∧ u.isDir l = false ∧ v.resolve o.target = .ok l := by
  obtain ⟨s, d, u, hs, hd, hm, hu, hv⟩ := parts_of_overlay h
  have hext := t.extends_makeParent o.target
  rw [hu] at hext
  obtain ⟨l, hp, hl, hr⟩ := places_of_write hv
  exact ⟨s, d, u, l, hs, hd, hm, hext, hp, hl, hr⟩

/-- A path names a file that holds an object as it was written. -/
structure Tree.Stores (t : Tree) (p : Path) (l : Location) (m : Object) : Prop where
  names : t.resolve p = .ok l
  file : t.at? l = some (.file m.toBytes)
  storable : m.Storable

theorem Tree.Stores.document {t : Tree} {p : Path} {l : Location} {m : Object}
    (h : t.Stores p l m) : t.document p = .ok (.found m) := by
  rw [document_of_resolve h.names h.file, Loaded.ofBytes_toBytes h.storable]

/-- A run that succeeds stores what it comes to. -/
theorem Tree.exists_stores {t v : Tree} {o : Overlay} {m : Object}
    (h : t.overlay o = (.ok m, v)) : ∃ l, v.Stores o.target l m := by
  obtain ⟨s, d, u, l, hs, hd, rfl, -, hplace, -, hr⟩ := overlay_eq_ok h
  exact ⟨l, hr, hplace.self, (storable_document hd).overlay (storable_document hs)⟩

namespace Overlay

theorem run_of_overlay {o : Overlay} {w : Workspace} {r : Except Failure Object} {v : Tree}
    (h : w.tree.overlay o = (r, v)) : ∃ w', w.perform o.run = (r, w') ∧ w'.tree = v := by
  obtain ⟨hr, ht⟩ := w.perform_run o
  rw [h] at hr ht
  exact ⟨(w.perform o.run).2, Prod.ext hr rfl, ht⟩

theorem overlay_of_run {o : Overlay} {w w' : Workspace} {r : Except Failure Object}
    (h : w.perform o.run = (r, w')) : w.tree.overlay o = (r, w'.tree) := by
  obtain ⟨hr, ht⟩ := w.perform_run o
  rw [h] at hr ht
  exact Prod.ext hr.symm ht.symm

/-- Two files with a member each. -/
def twoFiles : Tree :=
  [("s.json", .file (Object.toBytes [("b", .null)])),
    ("settings.json", .file (Object.toBytes [("a", .bool true)]))]

theorem twoFiles_read :
    Loaded.ofBytes (Object.toBytes [("b", .null)]) = .found [("b", .null)] ∧
      Loaded.ofBytes (Object.toBytes [("a", .bool true)]) = .found [("a", .bool true)] :=
  ⟨Loaded.ofBytes_toBytes ⟨.object (by decide) (List.forall_mem_singleton.2 .null), by decide⟩,
    Loaded.ofBytes_toBytes ⟨.object (by decide) (List.forall_mem_singleton.2 .bool), by decide⟩⟩

theorem twoFiles_supplement :
    twoFiles.document (.ofText "s.json") = .ok (.found [("b", .null)]) := by
  have hr : twoFiles.resolve (.ofText "s.json") = .ok ["s.json"] := rfl
  rw [Tree.document_of_resolve hr rfl, twoFiles_read.1]

/-- One of the files is laid over the other. -/
theorem twoFiles_overlay :
    twoFiles.overlay ⟨.ofText "s.json", .ofText "settings.json"⟩ =
      (.ok [("a", .bool true), ("b", .null)],
        twoFiles.put (.file (Object.toBytes [("a", .bool true), ("b", .null)]))
          ["settings.json"]) := by
  have ha : (Path.ofText "settings.json").ancestors = [] := by cbv
  have hd : twoFiles.document (.ofText "settings.json") = .ok (.found [("a", .bool true)]) := by
    have hr : twoFiles.resolve (.ofText "settings.json") = .ok ["settings.json"] := rfl
    rw [Tree.document_of_resolve hr rfl, twoFiles_read.2]
  have hu : twoFiles.makeParent (.ofText "settings.json") = (.ok (), twoFiles) := by
    rw [Tree.makeParent, ha]
  have hw : twoFiles.write (.ofText "settings.json")
      (Object.toBytes [("a", .bool true), ("b", .null)]) =
        .ok (twoFiles.put (.file (Object.toBytes [("a", .bool true), ("b", .null)]))
          ["settings.json"]) := rfl
  exact Tree.overlay_of_parts (o := ⟨.ofText "s.json", .ofText "settings.json"⟩)
    twoFiles_supplement hd hu hw

theorem twoFiles_run :
    ∃ w', (Workspace.mk twoFiles []).perform
        (run ⟨.ofText "s.json", .ofText "settings.json"⟩) =
          (.ok [("a", .bool true), ("b", .null)], w') ∧
      w'.tree.resolve (.ofText "settings.json") = .ok ["settings.json"] := by
  obtain ⟨w', hr, ht⟩ := run_of_overlay (w := ⟨twoFiles, []⟩) twoFiles_overlay
  exact ⟨w', hr, ht ▸ rfl⟩

/-- A run that succeeds comes to the supplement laid over the target, as both were loaded before
it. It leaves that in the file that the target then names, where it is loaded again as it is; and
beside that file it leaves the tree as it was, but for directories above the target that were
missing. -/
theorem run_eq_ok {o : Overlay} {w w' : Workspace} {m : Object}
    (h : w.perform o.run = (.ok m, w')) :
    ∃ s t l, (w.perform (Document.load o.supplement)).1 = .ok s ∧
      (w.perform (Document.load o.target)).1 = .ok t ∧ m = t.object.overlay s.object ∧
      (w'.perform (Document.load o.target)).1 = .ok (.found m) ∧
      w'.tree.resolve o.target = .ok l ∧ w'.tree.at? l = some (.file m.toBytes) ∧
      w.tree.isDir l = false ∧
      ∀ l' ≠ l, w'.tree.at? l' = w.tree.at? l' ∨
        w.tree.at? l' = none ∧ w'.tree.at? l' = some .dir ∧
          ∃ q ∈ o.target.ancestors, w'.tree.resolve q = .ok l' := by
  obtain ⟨s, t, u, l, hs, ht, rfl, hu, hp, hl, hr⟩ := Tree.overlay_eq_ok (overlay_of_run h)
  have hm := (Tree.storable_document ht).overlay (Tree.storable_document hs)
  refine ⟨s, t, l, ?_, ?_, rfl, ?_, hr, hp.self, hu.grows.isDir_eq_false hl, fun l' hl' => ?_⟩
  · rw [Workspace.perform_load, hs]
  · rw [Workspace.perform_load, ht]
  · rw [Workspace.perform_load, Tree.document_of_resolve hr hp.self, Loaded.ofBytes_toBytes hm]
  · rw [hp.other hl']
    exact (hu l').imp_right fun ⟨hn, hd, q, hq, hr⟩ =>
      ⟨hn, hd, q, hq, (hp.grows hl).resolve hr⟩

theorem run_eq_ok_twoFiles :
    ∃ w', (Workspace.mk twoFiles []).perform
        (run ⟨.ofText "s.json", .ofText "settings.json"⟩) =
          (.ok [("a", .bool true), ("b", .null)], w') ∧
      (w'.perform (Document.load (.ofText "settings.json"))).1 =
        .ok (.found [("a", .bool true), ("b", .null)]) := by
  obtain ⟨w', h, -⟩ := twoFiles_run
  obtain ⟨s, t, l, -, -, -, hl, -⟩ := run_eq_ok h
  exact ⟨w', h, hl⟩

/-- When the target names a JSON object after a run that was there before it, the run keeps all its
members that the supplement does not have if the target named it before already, and otherwise only
if there are none. A target without `..` named it before. -/
theorem run_keeps_iff {o : Overlay} {w w' : Workspace} {m t : Object} {l : Location} {data : Bytes}
    (h : w.perform o.run = (.ok m, w')) (hl : w'.tree.resolve o.target = .ok l)
    (hf : w.tree.at? l = some (.file data)) (ht : Loaded.ofBytes data = .found t) :
    ∃ s, (w.perform (Document.load o.supplement)).1 = .ok s ∧
      ((∃ data' t', w'.tree.at? l = some (.file data') ∧ Loaded.ofBytes data' = .found t' ∧
          ∀ key ∈ t.keys, key ∉ s.object.keys → t'.get? key = t.get? key) ↔
        w.tree.resolve o.target = .ok l ∨ ∀ key ∈ t.keys, key ∈ s.object.keys) ∧
      (".." ∉ o.target.pieces → w.tree.resolve o.target = .ok l) := by
  obtain ⟨s, d, u, l', hs, hd, rfl, hu, hp, hl', hr⟩ := Tree.overlay_eq_ok (overlay_of_run h)
  obtain rfl : l = l' := Except.ok.inj (hl.symm.trans hr)
  have hg : w.tree.Grows w'.tree := hu.grows.trans (hp.grows hl')
  have hm := (Tree.storable_document hd).overlay (Tree.storable_document hs)
  have hfile : w'.tree.isDir l = false := by
    rw [Tree.isDir, hp.self]
    rfl
  refine ⟨s, by rw [Workspace.perform_load, hs], ⟨?_, fun hk => ?_⟩, fun hdots => ?_⟩
  · rintro ⟨data', t', hf', ht', hk⟩
    obtain rfl : (d.object.overlay s.object).toBytes = data' := by
      rw [hp.self] at hf'
      exact Entry.file.inj (Option.some.inj hf')
    obtain rfl : d.object.overlay s.object = t' := by
      rw [Loaded.ofBytes_toBytes hm] at ht'
      exact Loaded.found.inj ht'
    rcases Tree.document_eq_ok hd with ⟨l'', hl''⟩ | rfl
    · have hll := (hg.resolve hl'').symm.trans hr
      exact .inl (by rw [hl'', hll])
    · refine .inr fun key hkey => Decidable.byContradiction fun hn => ?_
      have hget := hk key hkey hn
      rw [Object.get?_overlay_of_not_mem hn] at hget
      exact Object.get?_eq_none_iff.1 hget.symm hkey
  · refine ⟨_, _, hp.self, Loaded.ofBytes_toBytes hm, fun key hkey hn => ?_⟩
    rcases hk with hk | hk
    · rw [Tree.document_of_resolve hk hf, ht] at hd
      rw [Object.get?_overlay_of_not_mem hn, ← Except.ok.inj hd]
      rfl
    · exact absurd (hk key hkey) hn
  · refine Tree.resolve_of_isSome hdots (by rw [hf]; rfl) (fun hd => ?_) hr
    rw [hfile] at hd
    contradiction

theorem run_keeps_iff_twoFiles :
    ∃ w' s data t, (Workspace.mk twoFiles []).perform
        (run ⟨.ofText "s.json", .ofText "settings.json"⟩) =
          (.ok [("a", .bool true), ("b", .null)], w') ∧
      ((Workspace.mk twoFiles []).perform (Document.load (.ofText "s.json"))).1 = .ok s ∧
      w'.tree.at? ["settings.json"] = some (.file data) ∧ Loaded.ofBytes data = .found t ∧
      ∀ key ∈ Object.keys [("a", .bool true)], key ∉ s.object.keys →
        t.get? key = Object.get? [("a", .bool true)] key := by
  obtain ⟨w', h, hl⟩ := twoFiles_run
  obtain ⟨s, hs, hk, -⟩ := run_keeps_iff h hl rfl twoFiles_read.2
  obtain ⟨data, t, hf, ht, hkeep⟩ := hk.2 (.inl rfl)
  exact ⟨w', s, data, t, h, hs, hf, ht, hkeep⟩

/-- A directory of the target is missing, so that the target names nothing when it is loaded. The
run creates it, and the target then leads back over it to a file that is there. That file loses its
member. -/
theorem run_loses_member :
    ∃ w', (Workspace.mk twoFiles []).perform
        (run ⟨.ofText "s.json", .ofText "missing/../settings.json"⟩) =
          (.ok [("b", .null)], w') ∧
      w'.tree.resolve (.ofText "missing/../settings.json") = .ok ["settings.json"] ∧
      twoFiles.at? ["settings.json"] = some (.file (Object.toBytes [("a", .bool true)])) ∧
      Loaded.ofBytes (Object.toBytes [("a", .bool true)]) = .found [("a", .bool true)] ∧
      ((Workspace.mk twoFiles []).perform (Document.load (.ofText "s.json"))).1 =
        .ok (.found [("b", .null)]) ∧
      w'.tree.at? ["settings.json"] = some (.file (Object.toBytes [("b", .null)])) ∧
      Loaded.ofBytes (Object.toBytes [("b", .null)]) = .found [("b", .null)] ∧
      "a" ∉ Object.keys [("b", .null)] := by
  have ha : (Path.ofText "missing/../settings.json").ancestors =
      [.ofText "missing/..", .ofText "missing"] := by cbv
  have hd : twoFiles.document (.ofText "missing/../settings.json") = .ok .missing := rfl
  have hu : twoFiles.makeParent (.ofText "missing/../settings.json") =
      (.ok (), twoFiles ++ [("missing", .dir [])]) := by
    rw [Tree.makeParent, ha]
    rfl
  have hw : Tree.write (twoFiles ++ [("missing", .dir [])]) (.ofText "missing/../settings.json")
      (Object.toBytes [("b", .null)]) =
        .ok (Tree.put (.file (Object.toBytes [("b", .null)]))
          (twoFiles ++ [("missing", .dir [])]) ["settings.json"]) := rfl
  obtain ⟨w', hr, ht⟩ := run_of_overlay (w := ⟨twoFiles, []⟩)
    (o := ⟨.ofText "s.json", .ofText "missing/../settings.json"⟩)
    (Tree.overlay_of_parts twoFiles_supplement hd hu hw)
  refine ⟨w', hr, ht ▸ rfl, rfl, twoFiles_read.2, ?_, ht ▸ rfl, twoFiles_read.1, by decide⟩
  rw [Workspace.perform_load, twoFiles_supplement]

end Overlay

end SettingsOverlay
