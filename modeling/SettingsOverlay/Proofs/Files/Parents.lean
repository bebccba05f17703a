import SettingsOverlay.Proofs.Disk.Descent

/-!
# Creating the parent of a path

Whether the parent of a path can be created, and what is then there. For a path that only goes down
a single thing can be wrong, a file that stands in the way; it is met before anything was changed.

* `Tree.open_iff`: a way without files, in terms of the fronts of a path;
* `Tree.makeAll_of_not_open`: nothing is created where a file stands in the way;
* `Files.makeParent_creates`: what creating a parent does on any tree, for any path.
-/

namespace SettingsOverlay

open Disk

namespace Tree

variable {t u : Tree} {p q : Path}

/-! ## Files in the way -/

/-- Whether a path names a file. -/
def NamesFile (t : Tree) (p : Path) : Prop := ∃ l, t.resolve p = .ok l ∧ t.IsFile l

theorem resolve_of_isFile (h : p.Downward) (he : p.EndsInName) (hf : t.IsFile p.location) :
    t.resolve p = .ok p.location := by
  obtain ⟨front, name, hp, hs⟩ := id he
  have hd : t.isDir p.location.dropLast = true := by
    rw [location_of_endsInName hp hs] at hf ⊢
    rw [List.dropLast_concat]
    exact isDir_of_isSome_append (List.cons_ne_nil name []) (isSome_at?_iff.2 (.inr hf))
  obtain ⟨name, hends, hshort, hname⟩ := endsIn_of_isDir h he hd
  rw [hname] at hf ⊢
  exact hends.resolve (.refl t) hshort (isSome_at?_iff.2 (.inr hf))
    fun hn => absurd hn (Nat.lt_irrefl 0)

theorem location_of_resolve (h : p.Downward) {l : Location} (hr : t.resolve p = .ok l) :
    l = p.location :=
  eq_append_of_walk h.down (resolve_eq_ok_iff.1 hr).2

/-- No file stands on the way of a path that only goes down exactly if no front of it names one. -/
theorem open_iff (h : p.Downward) :
    t.Open p.location ↔ ∀ front : Path, front.pieces <+: p.pieces → ¬ t.NamesFile front := by
  constructor
  · rintro ho front hfront ⟨l, hr, hf⟩
    obtain rfl := location_of_resolve (h.of_isPrefix hfront) hr
    exact ho _ (hfront.filter _) hf
  · intro hnone l hl hf
    have hne : l ≠ [] := by
      rintro rfl
      exact absurd hf.isDir_eq_false nofun
    obtain ⟨front, hfront, rfl, he⟩ := Path.exists_front hl hne
    exact hnone front hfront ⟨_, resolve_of_isFile (h.of_isPrefix hfront) he hf, hf⟩

theorem open_of_namesDir (h : p.Downward) (hd : t.namesDir p = true) : t.Open p.location := by
  obtain ⟨l, hr, hd⟩ := namesDir_iff.1 hd
  obtain rfl := location_of_resolve h hr
  exact open_of_isDir hd

/-- If a directory cannot be created since something is missing, no file stands in the way. -/
theorem open_of_makeDir (h : p.Downward) (he : p.EndsInName)
    (hm : t.makeDir p = .error .notFound) : t.Open p.location := by
  obtain ⟨front, name, hp⟩ := exists_leadsTo h he
  obtain ⟨ho, hn⟩ := open_of_walk hp.down.1 hp.short.1 ((makeDir_eq_notFound_iff hp).1 hm)
  rw [List.nil_append] at ho hn
  rw [hp.location]
  rintro l hl ⟨data, hf⟩
  rcases List.prefix_concat_iff.1 hl with rfl | hl
  · rw [at?_append_of_none hn] at hf
    contradiction
  · exact ho l hl ⟨data, hf⟩

/-- A file in the way keeps a directory from being created, and those above it too. -/
theorem makeAll_of_not_open (h : p.Downward) (he : p.EndsInName) (ho : ¬ t.Open p.location)
    (above : List Path) : ∃ fault, t.makeAll (p :: above) = (.error fault, t) := by
  rw [makeAll_cons fun hm => ho (open_of_makeDir h he hm), tryDir]
  cases hm : t.makeDir p with
  | ok u =>
    obtain ⟨hext, hd⟩ := extends_of_makeDir hm
    exact absurd (fun l hl hf => open_of_namesDir h hd l hl (hext.grows.file hf)) ho
  | error fault =>
    refine ⟨fault, ?_⟩
    dsimp only
    rw [if_neg fun hd => ho (open_of_namesDir h hd)]

/-- The empty path names nothing. -/
theorem not_namesFile_of_isEmpty (h : q.isEmpty = true) (hp : p.pieces <+: q.pieces) :
    ¬ t.NamesFile p := by
  rintro ⟨l, hr, -⟩
  have hne := (Path.check_eq_ok_iff.1 (resolve_eq_ok_iff.1 hr).1).2.1
  simp only [Path.isEmpty, Bool.and_eq_true, beq_iff_eq, List.isEmpty_iff] at h
  rw [Path.pieces, Path.pieces, h.1, h.2, List.cons_prefix_cons, List.prefix_nil] at hp
  simp [Path.isEmpty, hp.1, hp.2] at hne

/-- The directory above a path is out of reach if a file stands in the way, and only then. -/
theorem open_dropLast_iff (h : p.Downward) :
    t.Open p.location.dropLast ↔ ∀ q, p.parent? = some q →
      ∀ front : Path, front.pieces <+: q.pieces → ¬ t.NamesFile front := by
  refine ⟨fun ho q hq front hfront => ?_, fun hnone => ?_⟩
  · cases hne : q.isEmpty with
    | true => exact not_namesFile_of_isEmpty hne hfront
    | false =>
      obtain ⟨name, hname⟩ := Path.location_of_parent? hq hne
      rw [hname, List.dropLast_concat] at ho
      exact (open_iff (h.parent? hq hne)).1 ho front hfront
  · by_cases hdrop : p.location.dropLast = []
    · rw [hdrop]
      exact open_of_isDir rfl
    · obtain ⟨q, hq, hne⟩ := Path.exists_parent? hdrop
      obtain ⟨name, hname⟩ := Path.location_of_parent? hq hne
      rw [hname, List.dropLast_concat]
      exact (open_iff (h.parent? hq hne)).2 (hnone q hq)

theorem makeParent_of_not_open (h : p.Downward) (ho : ¬ t.Open p.location.dropLast) :
    ∃ failure, t.makeParent p = (.error failure, t) := by
  have hdrop : p.location.dropLast ≠ [] := fun hnil => ho (hnil ▸ open_of_isDir rfl)
  obtain ⟨q, hq, hne⟩ := Path.exists_parent? hdrop
  obtain ⟨name, hname⟩ := Path.location_of_parent? hq hne
  rw [hname, List.dropLast_concat] at ho hdrop
  have he := (Path.endsInName_of_parent? hq hne).resolve_left hdrop
  obtain ⟨fault, hall⟩ := makeAll_of_not_open (h.parent? hq hne) he ho q.ancestors
  refine ⟨⟨.makeDir, q, fault⟩, ?_⟩
  rw [makeParent, Path.ancestors_of_parent? hq hne]
  dsimp only
  rw [hall]

end Tree

namespace Files

/-- Creating the parent of a path adds directories to a tree, and nothing else. If it succeeds, the
parent is there, and creating it again changes nothing; if it fails, it names the parent. For a path
that only goes down it succeeds unless a front of the parent names a file, and changes nothing if
it fails. -/
theorem makeParent_creates (p : Path) (w : Workspace) :
    ∃ r u, w.perform (makeParent p) = (r, { w with tree := u }) ∧
      (∀ l, u.at? l = w.tree.at? l ∨ w.tree.at? l = none ∧ u.at? l = some .dir) ∧
      (r = .ok () →
        (∀ q, p.parent? = some q → q.isEmpty = false → u.namesDir q = true) ∧
        { w with tree := u }.perform (makeParent p) = (.ok (), { w with tree := u })) ∧
      (∀ failure, r = .error failure → failure.attempt = .makeDir ∧
        p.parent? = some failure.path ∧ failure.path.isEmpty = false) ∧
      (p.Downward →
        (r = .ok () ↔ ∀ q, p.parent? = some q →
          ∀ front : Path, front.pieces <+: q.pieces → ¬ w.tree.NamesFile front) ∧
        ∀ failure, r = .error failure → u = w.tree) := by
  refine ⟨_, _, w.perform_makeParent p, fun l => ?_, fun hr => ?_, fun failure hr => ?_,
    fun h => ?_⟩
  · exact (w.tree.extends_makeParent p l).imp_right fun ⟨hn, hd, _⟩ => ⟨hn, hd⟩
  · have hm : w.tree.makeParent p = (.ok (), (w.tree.makeParent p).2) := Prod.ext hr rfl
    refine ⟨fun q hq hne => ?_, ?_⟩
    · have hall := Tree.makeParent_eq_ok_iff.1 hm
      have hdir := (w.tree.extends_makeAll p.ancestors).2
      rw [hall, Path.ancestors_of_parent? hq hne] at hdir
      exact hdir rfl q rfl
    · rw [Workspace.perform_makeParent, Tree.makeParent_again hm (.refl _)]
  · have hm : w.tree.makeParent p = (.error failure, (w.tree.makeParent p).2) := Prod.ext hr rfl
    obtain ⟨parent, above, fault, ha, -, rfl⟩ := Tree.makeParent_eq_error hm
    obtain ⟨hq, hne, -⟩ := Path.ancestors_eq_cons ha
    exact ⟨rfl, hq, hne⟩
  · rw [← Tree.open_dropLast_iff h]
    by_cases ho : w.tree.Open p.location.dropLast
    · rw [Tree.makeParent_of_open h ho]
      exact ⟨iff_of_true rfl ho, nofun⟩
    · obtain ⟨failure, hm⟩ := Tree.makeParent_of_not_open h ho
      rw [hm]
      exact ⟨iff_of_false nofun ho, fun _ _ => rfl⟩

/-- A file stands in the way of a directory, so the tree stays as it is. -/
theorem makeParent_creates_blocked :
    ∃ fault, (Workspace.mk [("blocker", .file [])] []).perform
        (makeParent (.ofText "blocker/sub/settings.json")) =
      (.error ⟨.makeDir, .ofText "blocker/sub", fault⟩, ⟨[("blocker", .file [])], []⟩) := by
  obtain ⟨r, u, hr, -, -, hpath, hdown⟩ :=
    makeParent_creates (.ofText "blocker/sub/settings.json") ⟨[("blocker", .file [])], []⟩
  have hp : (Path.ofText "blocker/sub/settings.json").parent? = some (.ofText "blocker/sub") := rfl
  have hdownward : (Path.ofText "blocker/sub/settings.json").Downward :=
    { down := by decide, nul := by decide, size := by decide, short := by decide }
  obtain ⟨hiff, hsame⟩ := hdown hdownward
  match r with
  | .ok () =>
    refine absurd ⟨["blocker"], rfl, [], rfl⟩ (hiff.1 rfl _ hp (.ofText "blocker") ?_)
    exact List.prefix_append ["blocker"] ["sub"]
  | .error ⟨attempt, path, fault⟩ =>
    obtain ⟨rfl, hq, -⟩ := hpath _ rfl
    obtain rfl := Option.some.inj (hp.symm.trans hq)
    obtain rfl := hsame _ rfl
    exact ⟨fault, hr⟩

end Files

end SettingsOverlay
