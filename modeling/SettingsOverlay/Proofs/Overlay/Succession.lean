import Mathlib.Data.List.Forall2
import SettingsOverlay.Proofs.Overlay

/-!
# Runs that follow one another

Several supplements are laid over one target, a run for each. After the first run the target names
a file that holds an object as it was written, and every further run finds that object and replaces
it. So nothing can fail any more, and as the supplements are not touched, the file ends up as it
would after a single run with all of them.

* `Object.Grouping`: the ways to lay objects over each other before they reach a target;
* `Tree.overlay_of_stores`: what one run keeps of the target;
* `Workspace.Supplies`: what it keeps of the supplements;
* `Workspace.runs`, `Workspace.runs_of_stores`: any number of runs;
* `Workspace.runs_collapse`: they come to a single one.
-/

namespace SettingsOverlay

open Json (Object)

/-! ## Supplements that are laid over each other -/

namespace Json.Object

/-- Some objects, laid over each other in their order, two at a time and in any grouping. -/
inductive Grouping : List Object → Object → Prop where
  | single (o : Object) : Grouping [o] o
  | overlay {os os' : List Object} {t s : Object} :
    Grouping os t → Grouping os' s → Grouping (os ++ os') (t.overlay s)

namespace Grouping

variable {os : List Object} {s : Object}

theorem nodup_keys (h : Grouping os s) (hk : ∀ o ∈ os, o.keys.Nodup) : s.keys.Nodup := by
  induction h with
  | single o => exact hk o (List.mem_singleton_self o)
  | overlay _ _ iht _ =>
    exact nodup_keys_overlay (iht fun o ho => hk o (List.mem_append_left _ ho)) _

/-- However they are grouped, over a target they are as good as one after the other. -/
theorem overlay_eq_foldl (h : Grouping os s) (hk : ∀ o ∈ os, o.keys.Nodup) (t : Object) :
    t.overlay s = os.foldl Object.overlay t := by
  induction h generalizing t with
  | single o => rfl
  | overlay ha hb iha ihb =>
    have hka := fun o ho => hk o (List.mem_append_left _ ho)
    have hkb := fun o ho => hk o (List.mem_append_right _ ho)
    rw [overlay_assoc t (ha.nodup_keys hka), iha hka, ihb hkb, List.foldl_append]

end Grouping

end Json.Object

/-! ## One run -/

namespace Tree

variable {t u : Tree} {target p : Path} {l : Location} {m : Object} {s : Loaded}

/-- A run over a target that holds an object replaces it, and nothing else. -/
theorem overlay_of_stores (h : t.Stores target l m) (hs : t.document p = .ok s) :
    ∃ u, t.overlay ⟨p, target⟩ = (.ok (m.overlay s.object), u) ∧
      u.Stores target l (m.overlay s.object) ∧
      t.Places l (.file (m.overlay s.object).toBytes) u ∧ t.isDir l = false := by
  have hfile : t.IsFile l := ⟨_, h.file⟩
  have hf := hfile.isDir_eq_false
  obtain ⟨dir, name, rfl, hends, hshort⟩ := endsIn_of_resolve h.names hfile
  have hp := places_put (.file (m.overlay s.object).toBytes) trivial hends.dir hf
  have hr := (hp.grows hf).resolve h.names
  exact ⟨_, overlay_of_endsIn (o := ⟨p, target⟩) hends hshort hf hs h.document,
    ⟨hr, hp.self, h.storable.overlay (storable_document hs)⟩, hp, hf⟩

end Tree

namespace Workspace

/-- A path names a file beside the one at `l`, which is loaded as an object. -/
structure Supplies (w : Workspace) (l : Location) (p : Path) (s : Object) : Prop where
  names : ∃ l', w.tree.resolve p = .ok l' ∧ l' ≠ l ∧ w.tree.IsFile l'
  loads : (w.perform (Document.load p)).1 = .ok (.found s)

variable {w v : Workspace} {l : Location}

theorem Supplies.document {p : Path} {s : Object} (h : w.Supplies l p s) :
    w.tree.document p = .ok (.found s) := by
  rw [← h.loads, perform_load]

/-- A supplement is the same as long as the files beside `l` are. -/
theorem Supplies.mono {p : Path} {s : Object} (h : w.Supplies l p s)
    (hg : w.tree.Grows v.tree)
    (ho : ∀ l' ≠ l, w.tree.IsFile l' → v.tree.at? l' = w.tree.at? l') : v.Supplies l p s := by
  obtain ⟨l', hr, hne, data, hf⟩ := h.names
  have hfile : v.tree.at? l' = some (.file data) := (ho l' hne ⟨data, hf⟩).trans hf
  have hd := h.document
  rw [Tree.document_of_resolve hr hf] at hd
  refine ⟨⟨l', hg.resolve hr, hne, data, hfile⟩, ?_⟩
  rw [perform_load, Tree.document_of_resolve (hg.resolve hr) hfile, hd]

theorem nodup_keys_of_supplies {ps : List Path} {ss : List Object}
    (h : List.Forall₂ (w.Supplies l) ps ss) : ∀ o ∈ ss, o.keys.Nodup := by
  induction h with
  | nil => exact List.forall_mem_nil _
  | cons hp _ ih =>
    exact List.forall_mem_cons.2 ⟨(Tree.storable_document hp.document).nodup_keys, ih⟩

/-! ## Any number of runs -/

/-- Runs over one target, each with a supplement of its own and on what the run before left behind:
what they come to, and the workspaces after them. -/
def runs (w : Workspace) (target : Path) : List Path → List (Except Failure Object × Workspace)
  | [] => []
  | p :: ps =>
    w.perform (Overlay.run ⟨p, target⟩) ::
      runs (w.perform (Overlay.run ⟨p, target⟩)).2 target ps

variable {target : Path} {ps : List Path} {ss : List Object} {m : Object}

/-- Once the target holds an object no run fails, and it ends up with every supplement laid over
that object in turn. -/
theorem runs_of_stores (h : w.tree.Stores target l m)
    (hs : List.Forall₂ (w.Supplies l) ps ss) :
    (∀ r ∈ w.runs target ps, ∃ o, r.1 = .ok o) ∧
      ∃ v, (w.runs target ps).getLast?.getD (.ok m, w) = (.ok (ss.foldl Object.overlay m), v) ∧
        v.tree.Stores target l (ss.foldl Object.overlay m) := by
  induction ps generalizing w m ss with
  | nil =>
    cases hs
    exact ⟨List.forall_mem_nil _, w, rfl, h⟩
  | cons p ps ih =>
    obtain ⟨s, ss, hp, hps, rfl⟩ := List.forall₂_cons_left_iff.1 hs
    obtain ⟨u, hu, hstore, hplace, hfile⟩ := Tree.overlay_of_stores h hp.document
    obtain ⟨v, hv, rfl⟩ := Overlay.run_of_overlay hu
    have hkeep : List.Forall₂ (v.Supplies l) ps ss := hps.imp fun _ _ hq =>
      hq.mono (hplace.grows hfile) fun _ hne _ => hplace.other hne
    obtain ⟨hall, last, hlast, hfinal⟩ := ih hstore hkeep
    rw [runs, hv, List.forall_mem_cons, List.getLast?_cons, Option.getD_some]
    exact ⟨⟨⟨_, rfl⟩, hall⟩, last, hlast, hfinal⟩

/-- If the first of some runs over one target succeeds, so do the others. The target then holds
what a single run would have written, with all the supplements laid over each other before. -/
theorem runs_collapse {p : Path}
    (h : w.perform (Overlay.run ⟨p, target⟩) = (.ok m, v)) (hl : v.tree.resolve target = .ok l)
    (hs : List.Forall₂ (w.Supplies l) (p :: ps) ss) :
    ∃ t last, (w.perform (Document.load target)).1 = .ok t ∧
      (∀ r ∈ w.runs target (p :: ps), ∃ o, r.1 = .ok o) ∧
      (w.runs target (p :: ps)).getLast? = some last ∧
      ∀ s, Object.Grouping ss s →
        last.1 = .ok (t.object.overlay s) ∧ last.2.tree.resolve target = .ok l ∧
          last.2.tree.at? l = some (.file (t.object.overlay s).toBytes) := by
  have hv := Overlay.overlay_of_run h
  obtain ⟨d, t, u, l', hd, ht, hm, hext, hplace, hfile, hr⟩ := Tree.overlay_eq_ok hv
  obtain rfl : l = l' := Except.ok.inj (hl.symm.trans hr)
  have hkeys := nodup_keys_of_supplies hs
  obtain ⟨s, ss, hp, hps, rfl⟩ := List.forall₂_cons_left_iff.1 hs
  obtain rfl : d = .found s := Except.ok.inj (hd.symm.trans hp.document)
  have hkeep : List.Forall₂ (v.Supplies l) ps ss := hps.imp fun _ _ hq =>
    hq.mono (hext.grows.trans (hplace.grows hfile)) fun _ hne ⟨_, hf⟩ =>
      (hplace.other hne).trans (hext.at?_eq (by rw [hf]; rfl))
  obtain ⟨l₁, hstore⟩ := Tree.exists_stores hv
  obtain rfl : l = l₁ := Except.ok.inj (hl.symm.trans hstore.names)
  obtain ⟨hall, last, hlast, hfinal⟩ := runs_of_stores hstore hkeep
  refine ⟨t, (.ok (ss.foldl Object.overlay m), last), by rw [perform_load, ht], ?_, ?_,
    fun g hg => ?_⟩
  · rw [runs, h, List.forall_mem_cons]
    exact ⟨⟨m, rfl⟩, hall⟩
  · rw [runs, h, List.getLast?_cons, hlast]
  · have hfirst : m = t.object.overlay s := hm
    rw [hg.overlay_eq_foldl hkeys, List.foldl_cons, ← hfirst]
    exact ⟨rfl, hfinal.names, hfinal.file⟩

/-- A third file beside the other two. -/
def threeFiles : Tree :=
  Overlay.twoFiles ++ [("extra.json", .file (Object.toBytes [("a", .null)]))]

/-- The second run replaces the value that the first one kept. -/
theorem runs_collapse_threeFiles :
    ∃ last, ((Workspace.mk threeFiles []).runs (.ofText "settings.json")
        [.ofText "s.json", .ofText "extra.json"]).getLast? = some last ∧
      last.1 = .ok [("a", .null), ("b", .null)] ∧
      last.2.tree.at? ["settings.json"] =
        some (.file (Object.toBytes [("a", .null), ("b", .null)])) := by
  have hstore : threeFiles.Stores (.ofText "settings.json") ["settings.json"]
      [("a", .bool true)] :=
    ⟨rfl, rfl, .object (by decide) (List.forall_mem_singleton.2 .bool), by decide⟩
  have hextra : threeFiles.Stores (.ofText "extra.json") ["extra.json"] [("a", .null)] :=
    ⟨rfl, rfl, .object (by decide) (List.forall_mem_singleton.2 .null), by decide⟩
  have hs : threeFiles.Stores (.ofText "s.json") ["s.json"] [("b", .null)] :=
    ⟨rfl, rfl, .object (by decide) (List.forall_mem_singleton.2 .null), by decide⟩
  have supplies {p : Path} {l : Location} {o : Object} (h : threeFiles.Stores p l o)
      (hl : l ≠ ["settings.json"]) : (mk threeFiles []).Supplies ["settings.json"] p o :=
    ⟨⟨l, h.names, hl, _, h.file⟩, by rw [perform_load, h.document]⟩
  obtain ⟨u, hu, hfirst, -⟩ := Tree.overlay_of_stores hstore hs.document
  obtain ⟨v, hv, rfl⟩ := Overlay.run_of_overlay (w := ⟨threeFiles, []⟩) hu
  obtain ⟨t, last, ht, -, hlast, hend⟩ := runs_collapse hv hfirst.names
    (.cons (supplies hs (by decide)) (.cons (supplies hextra (by decide)) .nil))
  rw [perform_load, hstore.document] at ht
  obtain rfl := Except.ok.inj ht
  obtain ⟨hresult, -, hfile⟩ := hend _ (.overlay (.single _) (.single _))
  exact ⟨last, hlast, hresult, hfile⟩

end Workspace

end SettingsOverlay
