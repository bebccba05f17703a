import SettingsOverlay.Proofs.Disk.Growth

/-!
# What the operations do to a tree

One statement for each operation that changes a tree. It says where the path leads afterwards, what
stands there, and that nothing else changed.

* `Tree.EndsIn`, `Tree.vacancy_eq_ok_iff`: the place where a path would create something;
* `Tree.EndsIn.resolve`: the path leads there once something stands there;
* `Tree.write_eq_ok_iff`, `Tree.places_of_write`: a file is written, and `Tree.write_again` a
  second time;
* `Tree.makeDir_of_endsIn`, `Tree.places_of_makeDir`: a directory is created.
-/

namespace SettingsOverlay

open Disk

/-! ## Slashes at the end -/

theorem Path.exists_dropBack (pieces : List String) :
    ∃ n, pieces = dropBack (· == "") pieces ++ List.replicate n "" := by
  refine ⟨(pieces.reverse.takeWhile (· == "")).length, ?_⟩
  have hr : pieces.reverse.takeWhile (· == "") = List.replicate _ "" :=
    List.eq_replicate_iff.2 ⟨rfl, fun x hx => by
      simpa using List.all_eq_true.1 List.all_takeWhile x hx⟩
  rw [dropBack, ← List.reverse_replicate, ← hr, ← List.reverse_append,
    List.takeWhile_append_dropWhile, List.reverse_reverse]

theorem Path.dropBack_append {name : String} (hn : name ≠ "") (pieces : List String) (n : Nat) :
    dropBack (· == "") (pieces ++ name :: List.replicate n "") = pieces ++ [name] := by
  rw [dropBack, List.reverse_append, List.reverse_cons, List.reverse_replicate, List.append_assoc,
    List.dropWhile_append_of_pos (by simp), List.singleton_append,
    List.dropWhile_cons_of_neg (by simpa using hn), List.reverse_cons, List.reverse_reverse]

theorem Path.getLast_dropBack {pieces init : List String} {name : String}
    (h : dropBack (· == "") pieces = init ++ [name]) : name ≠ "" := by
  rw [dropBack, List.reverse_eq_iff, List.reverse_concat] at h
  have hn := List.head_dropWhile_not (· == "") (l := pieces.reverse) (by simp [h])
  simp only [h, List.head_cons] at hn
  simpa using hn

namespace Tree

/-- A path ends in a name, in front of which its pieces lead to a directory, and in some slashes. -/
structure EndsIn (t : Tree) (p : Path) (l : Location) (name : String) (slashes : Nat) : Prop where
  check : p.check = .ok ()
  dir : t.isDir l = true
  loud : Path.isSilent name = false
  down : name ≠ ".."
  pieces : ∃ pieces, p.pieces = pieces ++ name :: List.replicate slashes "" ∧
    t.walk [] pieces = .ok l

theorem endsIn_of_vacancy {t : Tree} {p : Path} {l : Location} {name : String} {slash : Bool}
    (h : t.vacancy p = .ok ⟨l, some name, slash⟩) :
    ∃ n, t.EndsIn p l name n ∧ slash = decide (0 < n) := by
  rw [vacancy, bind_eq_ok_iff] at h
  obtain ⟨u, hc, h⟩ := h
  rw [bind_eq_ok_iff] at h
  obtain ⟨l', hw, h⟩ := h
  split at h
  · contradiction
  rename_i hd
  split at h
  · simp [pure, Except.pure] at h
  rename_i last hl
  obtain ⟨init, hi⟩ := List.getLast?_eq_some_iff.1 hl
  obtain ⟨n, hp⟩ := Path.exists_dropBack p.pieces
  rw [hi, List.dropLast_concat] at hw
  rw [hi] at hp
  obtain ⟨rfl, hname, rfl⟩ := Vacancy.mk.inj (pure_eq_ok_iff.1 h)
  split at hname
  · contradiction
  rename_i hdots
  obtain rfl := Option.some.inj hname
  rw [not_or] at hdots
  have hs : Path.isSilent last = false := by
    simp [Path.isSilent, Path.getLast_dropBack hi, hdots.1]
  refine ⟨n, ⟨hc, by simpa using hd, hs, hdots.2, init, ?_, hw⟩, ?_⟩
  · rw [hp, List.append_assoc, List.singleton_append]
  · have hlen : p.pieces.length = (init ++ [last]).length + n := by
      rw [hp, List.length_append, List.length_replicate]
    rw [hi, hlen]
    exact decide_eq_decide.2 Nat.lt_add_right_iff_pos

theorem vacancy_eq {t : Tree} {p : Path} (hc : p.check = .ok ()) {front : List String}
    {last : String} (hp : Path.dropBack (· == "") p.pieces = front ++ [last]) :
    t.vacancy p = do
      let l ← t.walk [] front
      if !t.isDir l then .error .notDirectory
      else return ⟨l, if last = "." ∨ last = ".." then none else some last,
        decide ((front ++ [last]).length < p.pieces.length)⟩ := by
  rw [vacancy, hc, ok_bind]
  simp only [hp, List.dropLast_concat, List.getLast?_concat]

theorem EndsIn.vacancy {t : Tree} {p : Path} {l : Location} {name : String} {n : Nat}
    (h : t.EndsIn p l name n) : t.vacancy p = .ok ⟨l, some name, decide (0 < n)⟩ := by
  obtain ⟨hc, hd, hs, hdots, pieces, hp, hw⟩ := h
  simp only [Path.isSilent, Bool.or_eq_false_iff, beq_eq_false_iff_ne] at hs
  have hb : Path.dropBack (· == "") p.pieces = pieces ++ [name] := by
    rw [hp, Path.dropBack_append hs.1]
  rw [vacancy_eq hc hb, hw, ok_bind]
  simp [hd, hs.2, hdots, hp, pure, Except.pure]

theorem EndsIn.mono {t u : Tree} {p : Path} {l : Location} {name : String} {n : Nat}
    (h : t.EndsIn p l name n) (hg : ∀ l, t.isDir l = true → u.isDir l = true) :
    u.EndsIn p l name n := by
  obtain ⟨pieces, hp, hw⟩ := h.pieces
  exact ⟨h.check, hg l h.dir, h.loud, h.down, pieces, hp, walk_of_dirs hg hw h.dir⟩

/-- A path has a place of its own in a directory exactly when it ends in a name there. -/
theorem vacancy_eq_ok_iff {t : Tree} {p : Path} {l : Location} {name : String} {slash : Bool} :
    t.vacancy p = .ok ⟨l, some name, slash⟩ ↔ ∃ n, t.EndsIn p l name n ∧ slash = decide (0 < n) :=
  ⟨endsIn_of_vacancy, fun ⟨_, h, hs⟩ => hs ▸ h.vacancy⟩

theorem walk_replicate {t : Tree} {l : Location} {n : Nat} (h : 0 < n → t.isDir l = true) :
    t.walk l (List.replicate n "") = .ok l := by
  induction n with
  | zero => rfl
  | succ n ih =>
    have hd := h (Nat.succ_pos n)
    exact walk_cons_eq_ok_iff.2 ⟨hd, .inl ⟨rfl, ih fun _ => hd⟩⟩

/-- A path leads to the place where it ends as soon as something stands there: a directory, if
there are slashes at its end. -/
theorem EndsIn.resolve {t u : Tree} {p : Path} {l : Location} {name : String} {n : Nat}
    (h : t.EndsIn p l name n) (hg : t.Grows u) (hl : isLong name = false)
    (ha : (u.at? (l ++ [name])).isSome) (hs : 0 < n → u.isDir (l ++ [name]) = true) :
    u.resolve p = .ok (l ++ [name]) := by
  obtain ⟨pieces, hp, hw⟩ := h.pieces
  refine resolve_eq_ok_iff.2 ⟨h.check, ?_⟩
  rw [hp, walk_append]
  refine ⟨l, hg.walk hw, ?_⟩
  rw [walk_cons_eq_ok_iff]
  exact ⟨hg.dir h.dir, .inr (.inr ⟨h.loud, h.down, hl, ha, walk_replicate hs⟩)⟩

/-! ## The operations -/

theorem read_of_resolve {t : Tree} {p : Path} {l : Location} {data : Bytes}
    (hr : t.resolve p = .ok l) (hf : t.at? l = some (.file data)) : t.read p = .ok data := by
  rw [read, hr, ok_bind, hf]

/-- A file is written where a path ends, without slashes, and no directory stands. -/
theorem write_eq_ok_iff {t u : Tree} {p : Path} {data : Bytes} :
    t.write p data = .ok u ↔ ∃ l name, t.EndsIn p l name 0 ∧ isLong name = false ∧
      t.isDir (l ++ [name]) = false ∧ u = t.put (.file data) (l ++ [name]) := by
  constructor
  · intro h
    rw [write, bind_eq_ok_iff] at h
    obtain ⟨⟨l, name?, slash⟩, hv, h⟩ := h
    dsimp only at h
    split at h
    · contradiction
    rename_i name
    split at h
    · contradiction
    rename_i hs
    split at h
    · contradiction
    rename_i hl
    split at h
    · contradiction
    rename_i hd
    obtain ⟨n, he, rfl⟩ := vacancy_eq_ok_iff.1 hv
    obtain rfl : n = 0 := by simpa using hs
    exact ⟨l, name, he, by simpa using hl, by simpa using hd, (Except.ok.inj h).symm⟩
  · rintro ⟨l, name, he, hl, hd, rfl⟩
    rw [write, he.vacancy, ok_bind]
    simp [hl, hd]

theorem put_put (node : Node) (t : Tree) (l : Location) :
    (t.put node l).put node l = t.put node l := by
  induction l generalizing t with
  | nil => rfl
  | cons name l ih =>
    match l with
    | [] => exact Keyed.insert_insert ..
    | next :: below =>
      match h : t.lookup name with
      | some (.dir entries) =>
        rw [put_cons_of_dir node h (List.cons_ne_nil next below),
          put_cons_of_dir node (Keyed.lookup_insert_self ..) (List.cons_ne_nil next below), ih,
          Keyed.insert_insert]
      | some (.file _) | none => simp [put, h]

/-- What was written can be written again, and nothing changes. -/
theorem write_again {t u : Tree} {p : Path} {data : Bytes} (h : t.write p data = .ok u) :
    u.write p data = .ok u := by
  obtain ⟨l, name, he, hl, hd, rfl⟩ := write_eq_ok_iff.1 h
  have hp := places_put (.file data) trivial he.dir hd
  refine write_eq_ok_iff.2 ⟨l, name, he.mono fun _ => (hp.grows hd).dir, hl, ?_, (put_put ..).symm⟩
  rw [isDir, hp.self]
  rfl

/-- Writing puts a file where no directory stood, and the path names it. -/
theorem places_of_write {t u : Tree} {p : Path} {data : Bytes} (h : t.write p data = .ok u) :
    ∃ l, t.Places l (.file data) u ∧ t.isDir l = false ∧ u.resolve p = .ok l := by
  obtain ⟨l, name, he, hl, hd, rfl⟩ := write_eq_ok_iff.1 h
  have hp := places_put (.file data) trivial he.dir hd
  refine ⟨l ++ [name], hp, hd, ?_⟩
  exact he.resolve (hp.grows hd) hl (by rw [hp.self]; rfl) fun hn => absurd hn (Nat.lt_irrefl 0)

/-- A directory is created where nothing stands. -/
theorem makeDir_of_endsIn {t : Tree} {p : Path} {l : Location} {name : String} {n : Nat}
    (h : t.EndsIn p l name n) (hl : isLong name = false) :
    t.makeDir p = if (t.at? (l ++ [name])).isSome then .error .alreadyExists
      else .ok (t.put (.dir []) (l ++ [name])) := by
  rw [makeDir, h.vacancy, ok_bind]
  simp [hl]

/-- Creating a directory puts an empty one where nothing stood, and the path names it. -/
theorem places_of_makeDir {t u : Tree} {p : Path} (h : t.makeDir p = .ok u) :
    ∃ l, t.Places l .dir u ∧ t.at? l = none ∧ u.resolve p = .ok l := by
  rw [makeDir, bind_eq_ok_iff] at h
  obtain ⟨⟨dir, name?, slash⟩, hv, h⟩ := h
  dsimp only at h
  split at h
  · contradiction
  rename_i name
  split at h
  · contradiction
  rename_i hl
  split at h
  · contradiction
  rename_i hn
  rw [Bool.not_eq_true] at hl
  rw [Bool.not_eq_true, Option.isSome_eq_false_iff, Option.isNone_iff_eq_none] at hn
  obtain ⟨n, he, rfl⟩ := vacancy_eq_ok_iff.1 hv
  have hp := places_put (.dir []) rfl he.dir (by rw [isDir, hn]; rfl)
  rw [Except.ok.inj h] at hp
  refine ⟨dir ++ [name], hp, hn, ?_⟩
  exact he.resolve (hp.grows_of_none hn) hl (by rw [hp.self]; rfl) fun _ => isDir_iff.2 hp.self

/-- A directory that is there cannot be created. -/
theorem makeDir_of_namesDir {t : Tree} {p : Path} (h : t.namesDir p = true) :
    t.makeDir p = .error .alreadyExists := by
  obtain ⟨l, hr, -⟩ := namesDir_iff.1 h
  obtain ⟨hc, hw⟩ := resolve_eq_ok_iff.1 hr
  obtain ⟨n, hp⟩ := Path.exists_dropBack p.pieces
  rcases List.eq_nil_or_concat (Path.dropBack (· == "") p.pieces) with hnil | ⟨front, last, hcat⟩
  · rw [makeDir, vacancy, hc, ok_bind, hnil]
    rfl
  rw [List.concat_eq_append] at hcat
  rw [hp, hcat, List.append_assoc, List.singleton_append, walk_append] at hw
  obtain ⟨dir, hfront, hlast⟩ := hw
  obtain ⟨hd, hcases⟩ := walk_cons_eq_ok_iff.1 hlast
  by_cases hdots : last = "." ∨ last = ".."
  · rw [makeDir, vacancy_eq hc hcat, hfront, ok_bind]
    simp [hd, hdots, pure, Except.pure]
  · rw [not_or] at hdots
    have hs : Path.isSilent last = false := by
      simp [Path.isSilent, Path.getLast_dropBack hcat, hdots.1]
    rcases hcases with ⟨hs', -⟩ | ⟨hup, -⟩ | ⟨-, -, hl, ha, -⟩
    · rw [hs] at hs'
      contradiction
    · exact absurd hup hdots.2
    · have he : t.EndsIn p dir last n := by
        refine ⟨hc, hd, hs, hdots.2, front, ?_, hfront⟩
        rw [hp, hcat, List.append_assoc, List.singleton_append]
      rw [makeDir_of_endsIn he hl, if_pos ha]

end Tree

end SettingsOverlay
