import SettingsOverlay.Disk.Resolution
import SettingsOverlay.Fallible

/-!
# Trees that grow

A tree grows when nothing in it goes away and nothing turns from a file into a directory or back.
Every operation of a run lets the tree grow, and a path keeps naming what it names.

* `Tree.Grows`: the order, with `refl` and `trans`;
* `Tree.Grows.walk`, `Tree.Grows.resolve`: what a path names in a tree, it names in a grown one;
* `Tree.walk_of_dirs`: a walk to a directory needs nothing but directories;
* `Tree.resolve_of_isSome`: without `..` that holds the other way round;
* `Tree.Places`: one entry is put somewhere, and all else stays;
* `Tree.Extends`: there may be new directories, which certain paths name, and all else stays.
-/

namespace SettingsOverlay

open Disk

namespace Tree

/-! ## What stands in a tree -/

/-- Whether a file stands at a location. -/
def IsFile (t : Tree) (l : Location) : Prop := ∃ data, t.at? l = some (.file data)

theorem isDir_iff {t : Tree} {l : Location} : t.isDir l = true ↔ t.at? l = some .dir := by
  rw [isDir, beq_iff_eq]

theorem IsFile.isDir_eq_false {t : Tree} {l : Location} (h : t.IsFile l) : t.isDir l = false := by
  obtain ⟨data, h⟩ := h
  rw [isDir, h]
  rfl

theorem isSome_at?_iff {t : Tree} {l : Location} :
    (t.at? l).isSome ↔ t.isDir l = true ∨ t.IsFile l := by
  rw [isDir_iff, IsFile]
  cases t.at? l with
  | none => simp
  | some e => cases e <;> simp

/-- What stands below a location stands in a directory. -/
theorem isDir_of_isSome_append {t : Tree} {l l' : Location} (hl : l' ≠ [])
    (h : (t.at? (l ++ l')).isSome) : t.isDir l = true := by
  induction l generalizing t with
  | nil => rfl
  | cons name l ih =>
    match ht : t.lookup name with
    | some (.dir entries) =>
      rw [List.cons_append, at?_cons_of_dir ht] at h
      exact isDir_cons_iff.2 ⟨entries, ht, ih h⟩
    | some (.file data) =>
      match hn : l ++ l' with
      | [] => exact absurd (List.append_eq_nil_iff.1 hn).2 hl
      | next :: below => simp [hn, at?, ht] at h
    | none =>
      match hn : l ++ l' with
      | [] => exact absurd (List.append_eq_nil_iff.1 hn).2 hl
      | next :: below => simp [hn, at?, ht] at h

theorem isSome_of_isSome_append {t : Tree} {l l' : Location} (h : (t.at? (l ++ l')).isSome) :
    (t.at? l).isSome := by
  by_cases hl : l' = []
  · rwa [hl, List.append_nil] at h
  · exact isSome_at?_iff.2 (.inl (isDir_of_isSome_append hl h))

theorem isDir_dropLast {t : Tree} {l : Location} (h : t.isDir l = true) :
    t.isDir l.dropLast = true := by
  rcases List.eq_nil_or_concat l with rfl | ⟨l, name, rfl⟩
  · exact h
  · rw [List.concat_eq_append] at h ⊢
    rw [List.dropLast_concat]
    exact isDir_of_isSome_append (List.cons_ne_nil name []) (by rw [isDir_iff.1 h]; rfl)

/-! ## Growing -/

/-- Directories are still directories, and files are still files. -/
structure Grows (t u : Tree) : Prop where
  dir {l : Location} : t.isDir l = true → u.isDir l = true
  file {l : Location} : t.IsFile l → u.IsFile l

namespace Grows

variable {t u v : Tree}

theorem refl (t : Tree) : t.Grows t := ⟨id, id⟩

theorem trans (h : t.Grows u) (h' : u.Grows v) : t.Grows v := ⟨h'.dir ∘ h.dir, h'.file ∘ h.file⟩

theorem isSome (h : t.Grows u) {l : Location} (hl : (t.at? l).isSome) : (u.at? l).isSome := by
  rw [isSome_at?_iff] at hl ⊢
  exact hl.imp h.dir h.file

theorem isDir_eq_false (h : t.Grows u) {l : Location} (hl : u.isDir l = false) :
    t.isDir l = false := by
  rw [← Bool.not_eq_true] at hl ⊢
  exact fun ht => hl (h.dir ht)

end Grows

/-! ## Walking -/

/-- A step that a walk can take: over a silent piece, up, or down to an entry that is there. -/
theorem walk_cons_eq_ok_iff {t : Tree} {l l' : Location} {piece : String} {pieces : List String} :
    t.walk l (piece :: pieces) = .ok l' ↔ t.isDir l = true ∧
      (Path.isSilent piece = true ∧ t.walk l pieces = .ok l' ∨
        piece = ".." ∧ t.walk l.dropLast pieces = .ok l' ∨
        Path.isSilent piece = false ∧ piece ≠ ".." ∧ isLong piece = false ∧
          (t.at? (l ++ [piece])).isSome ∧ t.walk (l ++ [piece]) pieces = .ok l') := by
  have hdots : Path.isSilent ".." = false := by decide
  rw [walk]
  cases hd : t.isDir l with
  | false => simp
  | true =>
    cases hs : Path.isSilent piece with
    | true =>
      have hne : piece ≠ ".." := by
        rintro rfl
        rw [hdots] at hs
        contradiction
      simp [hne]
    | false =>
      by_cases hp : piece = ".."
      · simp [hp]
      · cases isLong piece <;> cases t.at? (l ++ [piece]) <;> simp [hp]

theorem walk_append {t : Tree} {l l' : Location} {pieces pieces' : List String} :
    t.walk l (pieces ++ pieces') = .ok l' ↔
      ∃ l₁, t.walk l pieces = .ok l₁ ∧ t.walk l₁ pieces' = .ok l' := by
  induction pieces generalizing l with
  | nil => simp [walk]
  | cons piece pieces ih =>
    rw [List.cons_append, walk_cons_eq_ok_iff]
    simp only [walk_cons_eq_ok_iff, ih]
    grind

/-- A walk ends where something stands if it begins there. -/
theorem isSome_of_walk {t : Tree} {l l' : Location} {pieces : List String}
    (hl : (t.at? l).isSome) (h : t.walk l pieces = .ok l') : (t.at? l').isSome := by
  induction pieces generalizing l with
  | nil => exact Except.ok.inj h ▸ hl
  | cons piece pieces ih =>
    obtain ⟨hd, ⟨-, h⟩ | ⟨-, h⟩ | ⟨-, -, -, ha, h⟩⟩ := walk_cons_eq_ok_iff.1 h
    · exact ih hl h
    · exact ih (isSome_at?_iff.2 (.inl (isDir_dropLast hd))) h
    · exact ih ha h

/-- A walk that ends in a directory begins in one. -/
theorem isDir_of_walk {t : Tree} {l l' : Location} {pieces : List String}
    (h : t.walk l pieces = .ok l') (hd : t.isDir l' = true) : t.isDir l = true := by
  match pieces with
  | [] => rwa [Except.ok.inj h]
  | _ :: _ => exact (walk_cons_eq_ok_iff.1 h).1

/-- A walk to a directory leads over directories only, so it can be taken in any tree that has
them all. -/
theorem walk_of_dirs {t u : Tree} (hg : ∀ l, t.isDir l = true → u.isDir l = true)
    {l l' : Location} {pieces : List String} (h : t.walk l pieces = .ok l')
    (hd : t.isDir l' = true) : u.walk l pieces = .ok l' := by
  induction pieces generalizing l with
  | nil => exact h
  | cons piece pieces ih =>
    obtain ⟨hl, h⟩ := walk_cons_eq_ok_iff.1 h
    refine walk_cons_eq_ok_iff.2 ⟨hg l hl, ?_⟩
    rcases h with ⟨hs, h⟩ | ⟨hp, h⟩ | ⟨hs, hp, hlong, -, h⟩
    · exact .inl ⟨hs, ih h⟩
    · exact .inr (.inl ⟨hp, ih h⟩)
    · have hnext := isDir_iff.1 (hg _ (isDir_of_walk h hd))
      exact .inr (.inr ⟨hs, hp, hlong, by rw [hnext]; rfl, ih h⟩)

theorem Grows.walk {t u : Tree} (hg : t.Grows u) {l l' : Location} {pieces : List String}
    (h : t.walk l pieces = .ok l') : u.walk l pieces = .ok l' := by
  induction pieces generalizing l with
  | nil => exact h
  | cons piece pieces ih =>
    obtain ⟨hd, h⟩ := walk_cons_eq_ok_iff.1 h
    refine walk_cons_eq_ok_iff.2 ⟨hg.dir hd, ?_⟩
    rcases h with ⟨hs, h⟩ | ⟨hp, h⟩ | ⟨hs, hp, hl, ha, h⟩
    · exact .inl ⟨hs, ih h⟩
    · exact .inr (.inl ⟨hp, ih h⟩)
    · exact .inr (.inr ⟨hs, hp, hl, hg.isSome ha, ih h⟩)

theorem resolve_eq_ok_iff {t : Tree} {p : Path} {l : Location} :
    t.resolve p = .ok l ↔ p.check = .ok () ∧ t.walk [] p.pieces = .ok l := by
  rw [resolve, bind_eq_ok_iff]
  exact ⟨fun ⟨_, hc, h⟩ => ⟨hc, h⟩, fun ⟨hc, h⟩ => ⟨(), hc, h⟩⟩

/-- Something stands where a path leads. -/
theorem isSome_of_resolve {t : Tree} {p : Path} {l : Location} (h : t.resolve p = .ok l) :
    (t.at? l).isSome :=
  isSome_of_walk (l := []) rfl (resolve_eq_ok_iff.1 h).2

theorem Grows.resolve {t u : Tree} (hg : t.Grows u) {p : Path} {l : Location}
    (h : t.resolve p = .ok l) : u.resolve p = .ok l := by
  rw [resolve_eq_ok_iff] at h ⊢
  exact h.imp_right hg.walk

/-- A walk that never goes up adds its names, one below the other. -/
theorem eq_append_of_walk {t : Tree} {l l' : Location} {pieces : List String}
    (hp : ".." ∉ pieces) (h : t.walk l pieces = .ok l') :
    l' = l ++ pieces.filter (!Path.isSilent ·) := by
  induction pieces generalizing l with
  | nil => rw [← Except.ok.inj h, List.filter_nil, List.append_nil]
  | cons piece pieces ih =>
    rw [List.mem_cons, not_or] at hp
    obtain ⟨-, ⟨hs, h⟩ | ⟨hd, -⟩ | ⟨hs, -, -, -, h⟩⟩ := walk_cons_eq_ok_iff.1 h
    · rw [List.filter_cons_of_neg (by simp [hs])]
      exact ih hp.2 h
    · exact absurd hd.symm hp.1
    · rw [List.filter_cons_of_pos (by simp [hs]), List.append_cons]
      exact ih hp.2 h

/-- A walk that never goes up leads through what stands above its end. So it can be taken in any
tree in which something of the same kind stands at the end. -/
theorem walk_of_isSome {t u : Tree} {l l' : Location} {pieces : List String}
    (hp : ".." ∉ pieces) (hs : (t.at? l').isSome)
    (hd : u.isDir l' = true → t.isDir l' = true) (h : u.walk l pieces = .ok l') :
    t.walk l pieces = .ok l' := by
  induction pieces generalizing l with
  | nil => exact h
  | cons piece pieces ih =>
    obtain ⟨below, rfl⟩ : ∃ below, l' = l ++ below := ⟨_, eq_append_of_walk hp h⟩
    obtain ⟨hl, h⟩ := walk_cons_eq_ok_iff.1 h
    have hl' : t.isDir l = true := by
      by_cases hb : below = []
      · rw [hb, List.append_nil] at hd
        exact hd hl
      · exact isDir_of_isSome_append hb hs
    rw [List.mem_cons, not_or] at hp
    refine walk_cons_eq_ok_iff.2 ⟨hl', ?_⟩
    rcases h with ⟨hsilent, h⟩ | ⟨hdots, -⟩ | ⟨hsilent, hdots, hlong, -, h⟩
    · exact .inl ⟨hsilent, ih hp.2 h⟩
    · exact absurd hdots.symm hp.1
    · have hnext := eq_append_of_walk hp.2 h
      exact .inr (.inr ⟨hsilent, hdots, hlong, isSome_of_isSome_append (hnext ▸ hs), ih hp.2 h⟩)

/-- A path without `..` names a location in one tree as in another, if it does in the other and
something of the same kind stands there in both. -/
theorem resolve_of_isSome {t u : Tree} {p : Path} {l : Location} (hp : ".." ∉ p.pieces)
    (hs : (t.at? l).isSome) (hd : u.isDir l = true → t.isDir l = true)
    (h : u.resolve p = .ok l) : t.resolve p = .ok l := by
  rw [resolve_eq_ok_iff] at h ⊢
  exact h.imp_right (walk_of_isSome hp hs hd)

theorem namesDir_iff {t : Tree} {p : Path} :
    t.namesDir p = true ↔ ∃ l, t.resolve p = .ok l ∧ t.isDir l = true := by
  rw [namesDir]
  cases t.resolve p with
  | ok l => simp
  | error fault => simp

theorem Grows.namesDir {t u : Tree} (hg : t.Grows u) {p : Path} (h : t.namesDir p = true) :
    u.namesDir p = true := by
  obtain ⟨l, hr, hd⟩ := namesDir_iff.1 h
  exact namesDir_iff.2 ⟨l, hg.resolve hr, hg.dir hd⟩

/-! ## One entry is put somewhere -/

/-- An entry stands at a location, and everything else stands where it stood. -/
structure Places (t : Tree) (l : Location) (e : Entry) (u : Tree) : Prop where
  self : u.at? l = some e
  other {l' : Location} : l' ≠ l → u.at? l' = t.at? l'

theorem places_put {t : Tree} {dir : Location} {name : String} (node : Node) (hn : node.IsLeaf)
    (hd : t.isDir dir = true) (hl : t.isDir (dir ++ [name]) = false) :
    t.Places (dir ++ [name]) node.entry (t.put node (dir ++ [name])) :=
  ⟨at?_put_self node hd, at?_put_of_ne hn hl⟩

/-- A file that stands where no directory stood lets a tree grow. -/
theorem Places.grows {t u : Tree} {l : Location} {data : Bytes} (h : t.Places l (.file data) u)
    (hd : t.isDir l = false) : t.Grows u := by
  constructor
  · intro l' hl'
    have hl : l' ≠ l := by
      rintro rfl
      rw [hd] at hl'
      contradiction
    rwa [isDir, h.other hl]
  · rintro l' ⟨data', hf⟩
    by_cases hl : l' = l
    · exact ⟨data, hl ▸ h.self⟩
    · exact ⟨data', (h.other hl).trans hf⟩

/-- So does anything that stands where nothing stood. -/
theorem Places.grows_of_none {t u : Tree} {l : Location} {e : Entry} (h : t.Places l e u)
    (hn : t.at? l = none) : t.Grows u := by
  have hne {l' : Location} {e' : Entry} (he : t.at? l' = some e') : l' ≠ l := by
    rintro rfl
    rw [hn] at he
    contradiction
  constructor
  · intro l' hd
    rwa [isDir, h.other (hne (isDir_iff.1 hd))]
  · rintro l' ⟨data, hf⟩
    exact ⟨data, (h.other (hne hf)).trans hf⟩

/-! ## Directories are added -/

/-- Directories may be new, each of them named by one of some paths. All else is as it was. -/
def Extends (ps : List Path) (t u : Tree) : Prop :=
  ∀ l, u.at? l = t.at? l ∨
    t.at? l = none ∧ u.at? l = some .dir ∧ ∃ p ∈ ps, u.resolve p = .ok l

namespace Extends

variable {ps qs : List Path} {t u v : Tree}

theorem refl (ps : List Path) (t : Tree) : t.Extends ps t := fun _ => .inl rfl

theorem at?_eq (h : t.Extends ps u) {l : Location} (hl : (t.at? l).isSome) :
    u.at? l = t.at? l := by
  rcases h l with h | ⟨hn, -⟩
  · exact h
  · rw [hn] at hl
    contradiction

theorem grows (h : t.Extends ps u) : t.Grows u := by
  constructor
  · intro l hd
    rw [isDir_iff] at hd ⊢
    rw [h.at?_eq (by rw [hd]; rfl), hd]
  · rintro l ⟨data, hf⟩
    exact ⟨data, by rw [h.at?_eq (by rw [hf]; rfl), hf]⟩

/-- No file comes or goes, and none is other than it was. -/
theorem file_iff (h : t.Extends ps u) {l : Location} {data : Bytes} :
    u.at? l = some (.file data) ↔ t.at? l = some (.file data) := by
  rcases h l with h | ⟨hn, hd, -⟩
  · rw [h]
  · simp [hn, hd]

theorem mono (h : t.Extends ps u) (hs : ps ⊆ qs) : t.Extends qs u := fun l =>
  (h l).imp_right fun ⟨hn, hd, p, hp, hr⟩ => ⟨hn, hd, p, hs hp, hr⟩

theorem trans (h : t.Extends ps u) (h' : u.Extends ps v) : t.Extends ps v := by
  intro l
  rcases h' l with hv | ⟨hn, hd, hp⟩
  · rcases h l with hu | ⟨hn, hd, p, hp, hr⟩
    · exact .inl (hv.trans hu)
    · exact .inr ⟨hn, hv.trans hd, p, hp, h'.grows.resolve hr⟩
  · rcases h l with hu | ⟨-, hu, -⟩
    · exact .inr ⟨hu ▸ hn, hd, hp⟩
    · rw [hu] at hn
      contradiction

end Extends

theorem Places.extends {t u : Tree} {l : Location} (h : t.Places l .dir u) (hn : t.at? l = none)
    {p : Path} (hp : u.resolve p = .ok l) : t.Extends [p] u := by
  intro l'
  by_cases hl : l' = l
  · subst hl
    exact .inr ⟨hn, h.self, p, List.mem_singleton_self p, hp⟩
  · exact .inl (h.other hl)

end Tree

end SettingsOverlay
