import SettingsOverlay.Proofs.Disk.Parents
import SettingsOverlay.Proofs.Files

/-!
# Paths that name a file

A path that names a file can be written at once: the directory that it ends in is there, and so are
those above it. What it needs for that is directories only, so it can be written just as well in a
tree that has the same directories and another file, or none, in that place.

* `Tree.endsIn_of_resolve`: a path that names a file ends in its name;
* `Tree.namesDir_of_parent?`: the parent of a path that ends in a directory names one;
* `Tree.makeParent_of_endsIn`: so nothing is created when its parent is to be.
-/

namespace SettingsOverlay

open Disk

namespace Tree

variable {t : Tree} {p : Path} {l : Location} {name : String} {n : Nat}

/-- A path that names a file ends in the name of the file. -/
theorem endsIn_of_resolve (h : t.resolve p = .ok l) (hf : t.IsFile l) :
    ∃ dir name, l = dir ++ [name] ∧ t.EndsIn p dir name 0 ∧ isLong name = false := by
  obtain ⟨hc, hw⟩ := resolve_eq_ok_iff.1 h
  have hl : t.isDir l ≠ true := ne_true_of_eq_false hf.isDir_eq_false
  rcases List.eq_nil_or_concat p.pieces with hnil | ⟨front, last, hp⟩
  · contradiction
  rw [List.concat_eq_append] at hp
  rw [hp, walk_append] at hw
  obtain ⟨dir, hfront, hlast⟩ := hw
  obtain ⟨hd, hcases⟩ := walk_cons_eq_ok_iff.1 hlast
  -- A step that stays or goes up ends in a directory, so the last one goes down.
  rcases hcases with ⟨-, hstay⟩ | ⟨-, hup⟩ | ⟨hs, hdown, hlong, -, hgo⟩
  · exact absurd (Except.ok.inj hstay ▸ hd) hl
  · exact absurd (Except.ok.inj hup ▸ isDir_dropLast hd) hl
  · exact ⟨dir, last, (Except.ok.inj hgo).symm, ⟨hc, hd, hs, hdown, front, hp, hfront⟩, hlong⟩

/-- The parent of a path that ends in a directory names a directory. -/
theorem namesDir_of_parent? (h : t.EndsIn p l name n) {q : Path} (hq : p.parent? = some q)
    (hne : q.isEmpty = false) : t.namesDir q = true := by
  obtain ⟨pieces, hp, hw⟩ := h.pieces
  rcases Path.pieces_of_parent? hq hne with rfl | ⟨back, hback, hloud⟩
  · rfl
  have hpre : q.pieces <+: pieces := by
    have hq' : q.pieces <+: p.pieces := ⟨back, hback.symm⟩
    rcases List.prefix_or_prefix_of_prefix hq' ⟨_, hp.symm⟩ with hpre | ⟨rest, hrest⟩
    · exact hpre
    -- Otherwise the parent ends behind the name, where there are only slashes to leave out.
    · cases rest with
      | nil =>
        have heq : q.pieces = pieces := by rw [← hrest, List.append_nil]
        exact heq ▸ List.prefix_refl _
      | cons piece rest =>
        rw [hback, ← hrest, List.append_assoc, List.append_cancel_left_eq, List.cons_append] at hp
        obtain ⟨piece, hm, hs⟩ := hloud
        have hslash : piece ∈ List.replicate n "" := by
          rw [← (List.cons.inj hp).2]
          exact List.mem_append_right rest hm
        rw [List.eq_of_mem_replicate hslash] at hs
        contradiction
  obtain ⟨rest, hrest⟩ := hpre
  rw [← hrest, walk_append] at hw
  obtain ⟨l', hl', hw⟩ := hw
  refine namesDir_iff.2 ⟨l', resolve_eq_ok_iff.2 ⟨?_, hl'⟩, isDir_of_walk hw h.dir⟩
  exact Path.check_of_isPrefix h.check hne ⟨back, hback.symm⟩

/-- Where a path ends in a directory, no directory is created for it. -/
theorem makeParent_of_endsIn (h : t.EndsIn p l name n) : t.makeParent p = (.ok (), t) := by
  rw [makeParent_eq_ok_iff]
  match ha : p.ancestors with
  | [] => rfl
  | q :: above =>
    obtain ⟨hq, hne, rfl⟩ := Path.ancestors_eq_cons ha
    have hn := namesDir_of_parent? h hq hne
    exact makeAll_of_namesDir hn _

end Tree

end SettingsOverlay
