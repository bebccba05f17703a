import SettingsOverlay.Proofs.Disk.Parents
import SettingsOverlay.Proofs.Files

/-!
# Paths that only go down

A path without `..` names one location, whatever the tree. Only two things can then be wrong on the
way there: a file stands in it, or something is missing. What is missing can be created.

* `Tree.Open`: no file stands on the way to a location, nor at it;
* `Tree.walk_of_open`, `Tree.open_of_walk`: where walks over such a path end;
* `Tree.fill`: the tree with the directories down to a location that were missing;
* `Tree.makeParent_of_open`: creating the parent of a path comes to that if no file stands in the
  way, whatever silent pieces the path has;
* `Tree.write_of_isDir`: once the parent is there, the path can be written;
* `Tree.open_of_document`: what loading a path says about the way there.
-/

namespace SettingsOverlay

open Disk

namespace Tree

variable {t u : Tree} {l l' : Location} {pieces : List String} {p : Path}

/-! ## Ways without files -/

/-- No file stands on the way to a location, nor at it. -/
def Open (t : Tree) (l : Location) : Prop := ∀ l', l' <+: l → ¬ t.IsFile l'

theorem Open.above (h : t.Open l) (hp : l' <+: l) : t.Open l' :=
  fun l'' h'' => h l'' (h''.trans hp)

theorem not_isFile_of_isDir (h : t.isDir l = true) : ¬ t.IsFile l := by
  rintro ⟨data, hf⟩
  rw [isDir_iff, hf] at h
  cases h

theorem open_of_isDir (h : t.isDir l = true) : t.Open l := by
  rintro l' ⟨back, rfl⟩
  apply not_isFile_of_isDir
  by_cases hb : back = []
  · rwa [hb, List.append_nil] at h
  · exact isDir_of_isSome_append hb (by rw [isDir_iff.1 h]; rfl)

theorem Open.isDir (h : t.Open l) (hl : (t.at? l).isSome) : t.isDir l = true :=
  (isSome_at?_iff.1 hl).resolve_right (h l (List.prefix_refl l))

/-- Where nothing stands there is nothing below. -/
theorem at?_append_of_none (h : t.at? l = none) (back : Location) : t.at? (l ++ back) = none := by
  refine Option.not_isSome_iff_eq_none.1 fun hs => ?_
  have hl := isSome_of_isSome_append hs
  rw [h] at hl
  contradiction

theorem open_of_none (hd : t.isDir l = true) {name : String} (hn : t.at? (l ++ [name]) = none)
    (back : Location) : t.Open (l ++ name :: back) := by
  rintro l' hp ⟨data, hf⟩
  have hl : l ++ [name] <+: l ++ name :: back := (List.prefix_append_right_inj l).2 ⟨back, rfl⟩
  rcases List.prefix_or_prefix_of_prefix hp hl with h | ⟨rest, rfl⟩
  · rcases List.prefix_concat_iff.1 h with rfl | h
    · rw [hn] at hf
      contradiction
    · exact open_of_isDir hd l' h ⟨data, hf⟩
  · rw [at?_append_of_none hn] at hf
    contradiction

theorem Extends.open {ps : List Path} (h : t.Extends ps u) (ho : t.Open l) : u.Open l := by
  rintro l' hp ⟨data, hf⟩
  refine ho l' hp ⟨data, ?_⟩
  rcases h l' with he | ⟨-, he, -⟩
  · rw [← he, hf]
  · rw [hf] at he
    cases he

/-! ## Walking down -/

theorem walk_silent (hd : t.isDir l = true) {piece : String} (hs : Path.isSilent piece = true) :
    t.walk l (piece :: pieces) = t.walk l pieces := by
  rw [walk, hd, hs]
  rfl

theorem walk_name (hd : t.isDir l = true) {name : String} (hs : Path.isSilent name = false)
    (hdown : name ≠ "..") (hshort : isLong name = false) :
    t.walk l (name :: pieces) =
      if (t.at? (l ++ [name])).isNone then .error .notFound else t.walk (l ++ [name]) pieces := by
  rw [walk, hd, hs, hshort, if_neg hdown]
  rfl

/-- Where no file stands in the way, a walk ends at its names or misses some of them. -/
theorem walk_of_open (hdown : ".." ∉ pieces) (hshort : ∀ name ∈ pieces, isLong name = false)
    (hd : t.isDir l = true) (ho : t.Open (l ++ pieces.filter (!Path.isSilent ·))) :
    t.walk l pieces =
      if t.isDir (l ++ pieces.filter (!Path.isSilent ·)) then
        .ok (l ++ pieces.filter (!Path.isSilent ·))
      else .error .notFound := by
  induction pieces generalizing l with
  | nil => simp [walk, hd]
  | cons piece pieces ih =>
    rw [List.mem_cons, not_or] at hdown
    rw [List.forall_mem_cons] at hshort
    cases hs : Path.isSilent piece with
    | true =>
      rw [List.filter_cons_of_neg (by simp [hs])] at ho ⊢
      rw [walk_silent hd hs, ih hdown.2 hshort.2 hd ho]
    | false =>
      rw [List.filter_cons_of_pos (by simp [hs]), List.append_cons] at ho ⊢
      rw [walk_name hd hs (Ne.symm hdown.1) hshort.1]
      cases hn : t.at? (l ++ [piece]) with
      | none =>
        rw [isDir, at?_append_of_none hn]
        rfl
      | some e =>
        have hdir := (ho.above (List.prefix_append ..)).isDir (by rw [hn]; rfl)
        rw [← ih hdown.2 hshort.2 hdir ho]
        rfl

theorem isDir_of_walk_eq_error (h : t.walk l pieces = .error .notFound) : t.isDir l = true := by
  match pieces with
  | [] => cases h
  | piece :: pieces =>
    rw [walk] at h
    split at h
    · cases h
    · rename_i hd
      simpa using hd

/-- A walk that misses something has met no file. -/
theorem open_of_walk (hdown : ".." ∉ pieces) (hshort : ∀ name ∈ pieces, isLong name = false)
    (h : t.walk l pieces = .error .notFound) :
    t.Open (l ++ pieces.filter (!Path.isSilent ·)) ∧
      t.at? (l ++ pieces.filter (!Path.isSilent ·)) = none := by
  induction pieces generalizing l with
  | nil => cases h
  | cons piece pieces ih =>
    have hd := isDir_of_walk_eq_error h
    rw [List.mem_cons, not_or] at hdown
    rw [List.forall_mem_cons] at hshort
    cases hs : Path.isSilent piece with
    | true =>
      rw [walk_silent hd hs] at h
      rw [List.filter_cons_of_neg (by simp [hs])]
      exact ih hdown.2 hshort.2 h
    | false =>
      rw [walk_name hd hs (Ne.symm hdown.1) hshort.1] at h
      rw [List.filter_cons_of_pos (by simp [hs])]
      split at h
      · rename_i hn
        rw [Option.isNone_iff_eq_none] at hn
        refine ⟨open_of_none hd hn _, ?_⟩
        rw [List.append_cons, at?_append_of_none hn]
      · rw [List.append_cons]
        exact ih hdown.2 hshort.2 h

/-! ## Creating what is missing -/

/-- The tree with directories down to a location, of which those that were missing are new. -/
def fill (t : Tree) (l : Location) : Tree :=
  if _h : t.isDir l = true then t else (t.fill l.dropLast).put (.dir []) l
termination_by l.length
decreasing_by
  match l with
  | [] => exact absurd rfl _h
  | _ :: _ => simp

theorem fill_of_isDir (h : t.isDir l = true) : t.fill l = t := by
  rw [fill, dif_pos h]

theorem fill_of_missing (h : t.isDir l = false) :
    t.fill l = (t.fill l.dropLast).put (.dir []) l := by
  rw [fill, dif_neg (by simp [h])]

theorem isDir_fill (t : Tree) (l : Location) : (t.fill l).isDir l = true := by
  fun_induction fill t l with
  | case1 l hd => exact hd
  | case2 l hd ih =>
    rcases List.eq_nil_or_concat l with rfl | ⟨dir, name, rfl⟩
    · rfl
    · rw [List.concat_eq_append] at ih ⊢
      rw [List.dropLast_concat] at ih ⊢
      rw [isDir_iff]
      exact at?_put_self _ ih

theorem not_prefix_dropLast (h : t.isDir l = false) : ¬ l <+: l.dropLast := by
  intro hp
  have hlen := hp.length_le
  match l with
  | [] => cases h
  | _ :: _ =>
    rw [List.length_dropLast, List.length_cons] at hlen
    omega

/-- Beside the way to the location everything is as it was. -/
theorem at?_fill (h : ¬ l' <+: l) : (t.fill l).at? l' = t.at? l' := by
  fun_induction fill t l generalizing l' with
  | case1 => rfl
  | case2 l hd ih =>
    rw [Bool.not_eq_true] at hd
    have hself : (t.fill l.dropLast).isDir l = false := by
      rw [isDir, ih (not_prefix_dropLast hd)]
      exact hd
    have hne : l' ≠ l := fun he => h (he ▸ List.prefix_refl l)
    rw [at?_put_of_ne (show Node.IsLeaf (.dir []) from rfl) hself hne]
    exact ih fun hp => h (hp.trans (List.dropLast_prefix l))

theorem isDir_fill_dropLast (h : t.isDir l = false) : (t.fill l.dropLast).isDir l = false := by
  rw [isDir, at?_fill (not_prefix_dropLast h)]
  exact h

/-- The directories above can be created first. -/
theorem fill_fill_dropLast (t : Tree) (l : Location) : (t.fill l.dropLast).fill l = t.fill l := by
  by_cases hd : t.isDir l = true
  · rw [fill_of_isDir (isDir_dropLast hd)]
  · rw [Bool.not_eq_true] at hd
    rw [fill_of_missing (isDir_fill_dropLast hd), fill_of_isDir (isDir_fill t l.dropLast),
      fill_of_missing hd]

theorem resolve_of_open (h : p.Downward) (hp : p.isEmpty = false) (ho : t.Open p.location) :
    t.resolve p = if t.isDir p.location then .ok p.location else .error .notFound := by
  rw [resolve, h.check hp, ok_bind]
  exact walk_of_open h.down h.short (l := []) rfl ho

theorem namesDir_of_isDir (h : p.Downward) (hp : p.isEmpty = false)
    (hd : t.isDir p.location = true) : t.namesDir p = true := by
  refine namesDir_iff.2 ⟨p.location, ?_, hd⟩
  rw [resolve_of_open h hp (open_of_isDir hd), if_pos hd]

theorem location_of_endsInName {front : List String} {name : String}
    (hp : p.pieces = front ++ [name]) (hs : Path.isSilent name = false) :
    p.location = front.filter (!Path.isSilent ·) ++ [name] := by
  rw [Path.location, hp, List.filter_append]
  simp [hs]

theorem isEmpty_of_endsInName (h : p.EndsInName) : p.isEmpty = false := by
  obtain ⟨front, name, hp, hs⟩ := h
  refine Bool.not_eq_true _ ▸ fun he => ?_
  simp only [Path.isEmpty, Bool.and_eq_true, beq_iff_eq, List.isEmpty_iff] at he
  rw [Path.pieces, he.1, he.2] at hp
  cases front with
  | nil =>
    obtain rfl := (List.cons.inj hp).1
    contradiction
  | cons _ front => simp at hp

/-- The front of a path that goes down to a name, and the name. -/
structure LeadsTo (p : Path) (front : List String) (name : String) : Prop where
  pieces : p.pieces = front ++ [name]
  location : p.location = front.filter (!Path.isSilent ·) ++ [name]
  check : p.check = .ok ()
  loud : Path.isSilent name = false
  down : ".." ∉ front ∧ name ≠ ".."
  short : (∀ piece ∈ front, isLong piece = false) ∧ isLong name = false

theorem exists_leadsTo (h : p.Downward) (he : p.EndsInName) :
    ∃ front name, LeadsTo p front name := by
  have hc := h.check (isEmpty_of_endsInName he)
  obtain ⟨front, name, hp, hs⟩ := he
  have hmem : ∀ piece ∈ front, piece ∈ p.pieces := fun piece hm => by simp [hp, hm]
  have hname : name ∈ p.pieces := by simp [hp]
  exact ⟨front, name, hp, location_of_endsInName hp hs, hc, hs,
    ⟨fun hm => h.down (hmem _ hm), fun hn => h.down (hn ▸ hname)⟩,
    ⟨fun piece hm => h.short piece (hmem piece hm), h.short name hname⟩⟩

/-- A path that ends in a name ends there in the tree, once the directory above is there. -/
theorem endsIn_of_isDir (h : p.Downward) (he : p.EndsInName)
    (hd : t.isDir p.location.dropLast = true) :
    ∃ name, t.EndsIn p p.location.dropLast name 0 ∧ isLong name = false ∧
      p.location = p.location.dropLast ++ [name] := by
  obtain ⟨front, name, hp⟩ := exists_leadsTo h he
  rw [hp.location, List.dropLast_concat] at hd ⊢
  refine ⟨name, ⟨hp.check, hd, hp.loud, hp.down.2, front, hp.pieces, ?_⟩, hp.short.2, rfl⟩
  rw [walk_of_open hp.down.1 hp.short.1 (l := []) rfl (open_of_isDir hd), List.nil_append,
    if_pos hd]

/-- A directory cannot be created if the way to the one above it misses something, and this is the
only way to miss something. -/
theorem makeDir_eq_notFound_iff {front : List String} {name : String} (h : LeadsTo p front name) :
    t.makeDir p = .error .notFound ↔ t.walk [] front = .error .notFound := by
  have hb : Path.dropBack (· == "") p.pieces = front ++ [name] := by
    have hne : name ≠ "" := by
      rintro rfl
      exact absurd h.loud (by decide)
    rw [h.pieces]
    exact Path.dropBack_append hne front 0
  have hdots : ¬ (name = "." ∨ name = "..") := by
    rintro (rfl | rfl)
    · exact absurd h.loud (by decide)
    · exact h.down.2 rfl
  rw [makeDir, vacancy_eq h.check hb]
  cases hw : t.walk [] front with
  | error fault =>
    show (.error fault : Except Fault Tree) = _ ↔ (.error fault : Except Fault Location) = _
    rw [Except.error.injEq, Except.error.injEq]
  | ok l =>
    rw [ok_bind]
    refine iff_of_false ?_ (by simp)
    rw [if_neg hdots]
    split
    · intro hm
      cases hm
    · rw [pure_bind]
      dsimp only
      rw [if_neg (by simp [h.short.2])]
      split <;> simp

/-- The directory above must be there for a directory to be created. -/
theorem makeDir_of_missing (h : p.Downward) (he : p.EndsInName) (ho : t.Open p.location)
    (hd : t.isDir p.location.dropLast = false) : t.makeDir p = .error .notFound := by
  obtain ⟨front, name, hp⟩ := exists_leadsTo h he
  rw [hp.location, List.dropLast_concat] at hd
  rw [hp.location] at ho
  have hfront := ho.above (List.prefix_append ..)
  rw [makeDir_eq_notFound_iff hp, walk_of_open hp.down.1 hp.short.1 (l := []) rfl hfront,
    List.nil_append, hd]
  rfl

/-- A directory can be created, or is there, if no file stands in the way and the directory above
is there. -/
theorem tryDir_of_open (h : p.Downward) (hp : p.isEmpty = false)
    (he : p.location = [] ∨ p.EndsInName) (ho : t.Open p.location)
    (hd : t.isDir p.location.dropLast = true) :
    t.makeDir p ≠ .error .notFound ∧ t.tryDir p = (.ok (), t.fill p.location) := by
  by_cases hl : t.isDir p.location = true
  · have hn := namesDir_of_isDir h hp hl
    rw [makeDir_of_namesDir hn, tryDir_of_namesDir hn, fill_of_isDir hl]
    exact ⟨by simp, rfl⟩
  · have he : p.EndsInName := by
      refine he.resolve_left fun hnil => hl ?_
      rw [hnil]
      rfl
    obtain ⟨name, hends, hshort, hname⟩ := endsIn_of_isDir h he hd
    have hs : (t.at? (p.location.dropLast ++ [name])).isSome = false := by
      rw [← hname, ← Bool.not_eq_true]
      exact fun hs => hl (ho.isDir hs)
    have hm := makeDir_of_endsIn hends hshort
    rw [hs, ← hname] at hm
    rw [tryDir, hm, fill_of_missing (by simpa using hl), fill_of_isDir hd]
    exact ⟨by simp, rfl⟩

/-- A directory and those above it can be created, or are there, if no file stands in the way. -/
theorem makeAll_of_open {p : Path} (h : p.Downward) (hp : p.isEmpty = false)
    (he : p.location = [] ∨ p.EndsInName) (ho : t.Open p.location) :
    t.makeAll (p :: p.ancestors) = (.ok (), t.fill p.location) := by
  by_cases hd : t.isDir p.location.dropLast = true
  · obtain ⟨hm, htry⟩ := tryDir_of_open h hp he ho hd
    rwa [makeAll_cons hm]
  -- The directory above is missing, so it is not the top, and creating it comes first.
  · have hdrop : p.location.dropLast ≠ [] := fun hnil => hd (by rw [hnil]; rfl)
    have he' : p.EndsInName := he.resolve_left fun hnil => hdrop (by rw [hnil]; rfl)
    obtain ⟨q, hq, hne⟩ := Path.exists_parent? hdrop
    obtain ⟨name, hname⟩ := Path.location_of_parent? hq hne
    have hloc : p.location.dropLast = q.location := by rw [hname, List.dropLast_concat]
    have hdepth := Path.depth_lt_of_parent? hq
    have hu := makeAll_of_open (h.parent? hq hne) hne (Path.endsInName_of_parent? hq hne)
      (ho.above (hname ▸ List.prefix_append ..))
    have hext : t.Extends (q :: q.ancestors) (t.fill q.location) := by
      have := (t.extends_makeAll (q :: q.ancestors)).1
      rwa [hu] at this
    have hm := makeDir_of_missing h he' ho (by simpa using hd)
    rw [Path.ancestors_of_parent? hq hne, makeAll_cons_of_missing hm hu]
    rw [← t.fill_fill_dropLast p.location, hloc]
    exact (tryDir_of_open h hp he (hext.open ho) (hloc ▸ isDir_fill t q.location)).2
termination_by p.depth

/-- The parent of a path can be created, or is there, if no file stands in the way. -/
theorem makeParent_of_open (h : p.Downward) (ho : t.Open p.location.dropLast) :
    t.makeParent p = (.ok (), t.fill p.location.dropLast) := by
  rw [makeParent_eq_ok_iff]
  match ha : p.ancestors with
  | [] =>
    have hdrop : p.location.dropLast = [] := Decidable.byContradiction fun hdrop => by
      obtain ⟨q, hq, hne⟩ := Path.exists_parent? hdrop
      rw [Path.ancestors_of_parent? hq hne] at ha
      contradiction
    rw [hdrop, fill_of_isDir rfl]
    rfl
  | q :: above =>
    obtain ⟨hq, hne, rfl⟩ := Path.ancestors_eq_cons ha
    obtain ⟨name, hname⟩ := Path.location_of_parent? hq hne
    rw [hname, List.dropLast_concat] at ho ⊢
    exact makeAll_of_open (h.parent? hq hne) hne (Path.endsInName_of_parent? hq hne) ho

/-- A path can be written once the directory above is there, unless it names a directory. -/
theorem write_of_isDir (h : p.Downward) (he : p.EndsInName)
    (hd : t.isDir p.location.dropLast = true) (hf : t.isDir p.location = false) (data : Bytes) :
    t.write p data = .ok (t.put (.file data) p.location) := by
  obtain ⟨name, hends, hshort, hname⟩ := endsIn_of_isDir h he hd
  exact write_eq_ok_iff.2 ⟨_, name, hends, hshort, hname ▸ hf, hname ▸ rfl⟩

/-- If a path is loaded, no file stands on the way to it, and it names no directory. -/
theorem open_of_document (h : p.Downward) (he : p.EndsInName) {d : Loaded}
    (hd : t.document p = .ok d) : t.Open p.location.dropLast ∧ t.isDir p.location = false := by
  have hc := h.check (isEmpty_of_endsInName he)
  obtain ⟨front, name, hp, hs⟩ := he
  have hloc := location_of_endsInName hp hs
  rcases document_eq_ok_iff.1 hd with ⟨l, data, hr, hf, -⟩ | ⟨hm, -⟩
  · obtain rfl : l = p.location := eq_append_of_walk h.down (resolve_eq_ok_iff.1 hr).2
    refine ⟨open_of_isDir ?_, by simp [isDir, hf]⟩
    rw [hloc] at hf
    rw [hloc, List.dropLast_concat]
    exact isDir_of_isSome_append (List.cons_ne_nil name []) (by rw [hf]; rfl)
  · rw [resolve, hc, ok_bind] at hm
    obtain ⟨ho, hn⟩ := open_of_walk h.down h.short hm
    refine ⟨ho.above ?_, ?_⟩
    · exact List.dropLast_prefix _
    rw [isDir, Path.location, ← List.nil_append (List.filter ..), hn]
    rfl

end Tree

end SettingsOverlay
