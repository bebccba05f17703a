import SettingsOverlay.Disk.Resolution

/-!
# Parents of paths

What `Path.parent?` leaves of a path. A path has a `location`, which is its names from the top down
without the pieces that stay where they are; it is where the path leads in every tree, if the path
has no `..`.

* `Path.parent?_eq_some`: which pieces the parent has;
* `Path.pieces_of_parent?`: which of the path they are;
* `Path.location_of_parent?`: the location of the parent is the one above;
* `Path.Downward`: the paths that only go down and have nothing wrong with their text, of which
  `Path.Downward.parent?` says that their parent is one too.
-/

namespace SettingsOverlay

namespace Path

/-! ## Parents -/

/-- The names of a path, from the top down. -/
def location (p : Path) : Location := p.pieces.filter (!isSilent ·)

theorem exists_append_dropBack (f : String → Bool) (pieces : List String) :
    ∃ back, pieces = dropBack f pieces ++ back ∧ ∀ piece ∈ back, f piece = true := by
  refine ⟨(pieces.reverse.takeWhile f).reverse, ?_, fun piece h => ?_⟩
  · rw [dropBack, ← List.reverse_append, List.takeWhile_append_dropWhile, List.reverse_reverse]
  · exact List.all_eq_true.1 List.all_takeWhile piece (List.mem_reverse.1 h)

theorem filter_dropBack (pieces : List String) :
    (dropBack isSilent pieces).filter (!isSilent ·) = pieces.filter (!isSilent ·) := by
  obtain ⟨back, hb, hs⟩ := exists_append_dropBack isSilent pieces
  have hn : back.filter (!isSilent ·) = [] :=
    List.filter_eq_nil_iff.2 fun piece h => by simp [hs piece h]
  conv => rhs; rw [hb, List.filter_append, hn, List.append_nil]

/-- A path ends in a name if neither dots nor slashes follow it. -/
def EndsInName (p : Path) : Prop :=
  ∃ front name, p.pieces = front ++ [name] ∧ isSilent name = false

/-- A path that has a parent ends in a name, whatever silent pieces follow it. The parent is the
root, or it keeps the pieces before that name up to the silent ones in front of it. -/
theorem parent?_eq_some {p q : Path} (h : p.parent? = some q) (hq : q.isEmpty = false) :
    ∃ front name, dropBack isSilent p.rest = front ++ [name] ∧ isSilent name = false ∧
      (p.first = "" ∧ dropBack isSilent front = [] ∧ q = root ∨
        q = ⟨p.first, dropBack isSilent front⟩) := by
  simp only [parent?] at h
  split at h
  · split at h
    · contradiction
    · obtain rfl := Option.some.inj h
      contradiction
  rename_i piece rest hl
  have hne : dropBack isSilent p.rest ≠ [] := by simp [hl]
  have hlast := List.dropLast_concat_getLast hne
  refine ⟨_, _, hlast.symm, isSilent_getLast_dropBack p.rest hne, ?_⟩
  rw [← hl] at h
  split at h
  · rename_i hfirst hfront
    exact .inl ⟨hfirst, hfront, (Option.some.inj h).symm⟩
  · exact .inr (Option.some.inj h).symm

/-- The location of the parent is the one above. -/
theorem location_of_parent? {p q : Path} (h : p.parent? = some q) (hq : q.isEmpty = false) :
    ∃ name, p.location = q.location ++ [name] := by
  obtain ⟨front, name, hl, hname, hcases⟩ := parent?_eq_some h hq
  have hrest : p.rest.filter (!isSilent ·) = front.filter (!isSilent ·) ++ [name] := by
    rw [← filter_dropBack, hl, List.filter_append]
    simp [hname]
  have hloc : p.location = (p.first :: front).filter (!isSilent ·) ++ [name] := by
    rw [location, pieces, List.filter_cons, List.filter_cons, hrest]
    split <;> rfl
  refine ⟨name, ?_⟩
  rcases hcases with ⟨hfirst, hfront, rfl⟩ | rfl
  · rw [hloc, hfirst, List.filter_cons, ← filter_dropBack front, hfront]
    rfl
  · rw [hloc, location, pieces, List.filter_cons, List.filter_cons, filter_dropBack]

/-- The parent of a path leaves out at least a name. -/
theorem pieces_of_parent? {p q : Path} (h : p.parent? = some q) (hq : q.isEmpty = false) :
    q = root ∨ ∃ back, p.pieces = q.pieces ++ back ∧ ∃ name ∈ back, isSilent name = false := by
  obtain ⟨front, name, hl, hname, hcases⟩ := parent?_eq_some h hq
  rcases hcases with ⟨-, -, rfl⟩ | rfl
  · exact .inl rfl
  · obtain ⟨silent, hp, -⟩ := exists_append_dropBack isSilent p.rest
    obtain ⟨silent', hfront, -⟩ := exists_append_dropBack isSilent front
    refine .inr ⟨silent' ++ name :: silent, ?_, name, by simp, hname⟩
    have hrest : p.rest = dropBack isSilent front ++ (silent' ++ name :: silent) := by
      rw [← List.append_assoc, ← hfront, List.append_cons, ← hl, ← hp]
    exact congrArg (p.first :: ·) hrest

theorem prefix_of_parent? {p q : Path} (h : p.parent? = some q) (hq : q.isEmpty = false) :
    q = root ∨ q.pieces <+: p.pieces :=
  (pieces_of_parent? h hq).imp_right fun ⟨back, hb, _⟩ => ⟨back, hb.symm⟩

/-- A parent at the top of a tree may be written in dots. Any other ends in its name. -/
theorem endsInName_of_parent? {p q : Path} (h : p.parent? = some q) (hq : q.isEmpty = false) :
    q.location = [] ∨ q.EndsInName := by
  obtain ⟨front, -, -, -, ⟨-, -, rfl⟩ | rfl⟩ := parent?_eq_some h hq
  · exact .inl rfl
  · by_cases hd : dropBack isSilent front = []
    · rw [hd]
      cases hs : isSilent p.first with
      | true => exact .inl (by simp [location, pieces, hs])
      | false => exact .inr ⟨[], p.first, rfl, hs⟩
    · refine .inr ⟨p.first :: (dropBack isSilent front).dropLast, _, ?_,
        isSilent_getLast_dropBack front hd⟩
      rw [pieces, List.cons_append, List.dropLast_concat_getLast]

/-- A path whose names stand deeper than the top has a parent. -/
theorem exists_parent? {p : Path} (h : p.location.dropLast ≠ []) :
    ∃ q, p.parent? = some q ∧ q.isEmpty = false := by
  have hne : dropBack isSilent p.rest ≠ [] := by
    intro hn
    have hrest := filter_dropBack p.rest
    rw [hn] at hrest
    apply h
    rw [location, pieces, List.filter_cons, ← hrest]
    split <;> rfl
  simp only [parent?]
  split
  · rename_i hn
    exact absurd hn hne
  rename_i piece pieces hl
  split
  · exact ⟨root, rfl, rfl⟩
  rename_i hroot
  refine ⟨_, rfl, ?_⟩
  rw [isEmpty, Bool.and_eq_false_iff]
  by_cases hf : p.first = ""
  · refine .inr ?_
    rw [List.isEmpty_eq_false_iff]
    exact fun hd => hroot hf hd
  · exact .inl (by simpa using hf)

/-- A location on the way to that of a path is the location of a front of it that ends in a name. -/
theorem exists_front {p : Path} {l : Location} (hl : l <+: p.location) (hne : l ≠ []) :
    ∃ front : Path, front.pieces <+: p.pieces ∧ front.location = l ∧ front.EndsInName := by
  obtain ⟨back, hback⟩ := hl
  obtain ⟨pieces, rest, hp, hloc, -⟩ := List.filter_eq_append_iff.1 hback.symm
  obtain ⟨silent, hsilent, -⟩ := exists_append_dropBack isSilent pieces
  have hkept := filter_dropBack pieces
  rw [hloc] at hkept
  have hfront : dropBack isSilent pieces ≠ [] := fun hnil => hne (by rw [← hkept, hnil]; rfl)
  have hlast := isSilent_getLast_dropBack pieces hfront
  match hd : dropBack isSilent pieces with
  | [] => contradiction
  | first :: after =>
    refine ⟨⟨first, after⟩, ⟨silent ++ rest, ?_⟩, ?_, _, _,
      (List.dropLast_concat_getLast (List.cons_ne_nil first after)).symm, ?_⟩
    · rw [hp, hsilent, hd, List.append_assoc]
      rfl
    · rw [← hkept, hd]
      rfl
    · simpa only [hd] using hlast

theorem ancestors_of_parent? {p q : Path} (h : p.parent? = some q) (hq : q.isEmpty = false) :
    p.ancestors = q :: q.ancestors := by
  rw [ancestors]
  split
  · simp_all
  · rename_i r hr
    obtain rfl := Option.some.inj (h.symm.trans hr)
    simp [hq]

theorem ancestors_eq_cons {p q : Path} {above : List Path} (h : p.ancestors = q :: above) :
    p.parent? = some q ∧ q.isEmpty = false ∧ above = q.ancestors := by
  rw [ancestors] at h
  split at h
  · contradiction
  · rename_i r hr
    split at h
    · contradiction
    · rename_i hne
      obtain ⟨rfl, rfl⟩ := List.cons.inj h
      exact ⟨hr, by simpa using hne, rfl⟩

/-! ## Paths whose text is right -/

/-- A path that only goes down, with nothing wrong in its text but that it may be empty. -/
structure Downward (p : Path) : Prop where
  down : ".." ∉ p.pieces
  nul : '\x00' ∉ p.text.toList
  size : p.text.utf8ByteSize < pathLimit
  short : ∀ name ∈ p.pieces, isLong name = false

theorem check_eq_ok_iff {p : Path} :
    p.check = .ok () ↔
      '\x00' ∉ p.text.toList ∧ p.isEmpty = false ∧ p.text.utf8ByteSize < pathLimit := by
  rw [check, textFault?, ← Nat.not_le]
  by_cases hn : '\x00' ∈ p.text.toList
  · simp [hn]
  · cases p.isEmpty with
    | true => simp [hn]
    | false => by_cases hs : pathLimit ≤ p.text.utf8ByteSize <;> simp [hn, hs]

theorem Downward.check {p : Path} (h : p.Downward) (hp : p.isEmpty = false) :
    p.check = .ok () :=
  check_eq_ok_iff.2 ⟨h.nul, hp, h.size⟩

theorem isPrefix_intercalate (sep : List Char) (front back : List (List Char)) :
    sep.intercalate front <+: sep.intercalate (front ++ back) := by
  induction front with
  | nil => exact List.nil_prefix
  | cons a front ih =>
    match front, back with
    | [], [] => exact List.prefix_refl _
    | [], b :: back =>
      rw [List.singleton_append, List.intercalate_singleton, List.intercalate_cons_cons,
        List.append_assoc]
      exact List.prefix_append ..
    | a' :: front, back =>
      rw [List.cons_append, List.cons_append, List.intercalate_cons_cons,
        List.intercalate_cons_cons]
      exact (List.prefix_append_right_inj _).2 ih

theorem isPrefix_text {p q : Path} (h : q.pieces <+: p.pieces) :
    q.text.toList <+: p.text.toList := by
  obtain ⟨back, hb⟩ := h
  rw [text, text, String.toList_ofList, String.toList_ofList, ← hb, List.map_append]
  exact isPrefix_intercalate ..

theorem utf8ByteSize_le {s t : String} (h : s.toList <+: t.toList) :
    s.utf8ByteSize ≤ t.utf8ByteSize := by
  obtain ⟨back, hb⟩ := h
  have ht : t = s ++ String.ofList back := by
    rw [← String.toList_inj, String.toList_append, String.toList_ofList, hb]
  rw [ht, String.utf8ByteSize_append]
  exact Nat.le_add_right ..

/-- A path that begins another one has nothing wrong in its text if the other has not. -/
theorem check_of_isPrefix {p q : Path} (h : p.check = .ok ()) (hq : q.isEmpty = false)
    (hp : q.pieces <+: p.pieces) : q.check = .ok () := by
  obtain ⟨hn, -, hs⟩ := check_eq_ok_iff.1 h
  have htext := isPrefix_text hp
  exact check_eq_ok_iff.2 ⟨fun hm => hn (htext.subset hm), hq,
    Nat.lt_of_le_of_lt (utf8ByteSize_le htext) hs⟩

theorem downward_root : root.Downward := by
  constructor <;> decide

theorem Downward.of_isPrefix {p q : Path} (h : p.Downward) (hq : q.pieces <+: p.pieces) :
    q.Downward := by
  have htext := isPrefix_text hq
  constructor
  · exact fun hm => h.down (hq.subset hm)
  · exact fun hm => h.nul (htext.subset hm)
  · exact Nat.lt_of_le_of_lt (utf8ByteSize_le htext) h.size
  · exact fun name hm => h.short name (hq.subset hm)

theorem Downward.parent? {p q : Path} (h : p.Downward) (hq : p.parent? = some q)
    (hne : q.isEmpty = false) : q.Downward := by
  rcases prefix_of_parent? hq hne with rfl | hpre
  · exact downward_root
  · exact h.of_isPrefix hpre

end Path

end SettingsOverlay
