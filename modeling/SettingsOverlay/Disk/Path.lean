/-!
# Paths

A path is its text, cut at the slashes. Cutting gives no meaning to any piece: `a//b/` has the
pieces `a`, ``, `b` and ``, and an empty first piece before another one is the root.

* `Path.ofText` and `Path.text`: `text_ofText` says that nothing is lost;
* `Path.parent?`: the path without its last proper piece, found in the text alone;
* `Path.ancestors`: the parent, its parent, and so on.
-/

namespace SettingsOverlay

/-- A path: the piece before its first slash, and the pieces after it. -/
structure Path where
  first : String
  rest : List String
  deriving DecidableEq, Repr

namespace Path

/-- The pieces of a text between its slashes. -/
def cut : List Char → List Char × List (List Char)
  | [] => ([], [])
  | c :: cs =>
    let (piece, pieces) := cut cs
    if c = '/' then ([], piece :: pieces) else (c :: piece, pieces)

/-- The path of a text. -/
def ofText (s : String) : Path :=
  let (piece, pieces) := cut s.toList
  ⟨String.ofList piece, pieces.map String.ofList⟩

/-- All the pieces of a path. -/
def pieces (p : Path) : List String := p.first :: p.rest

/-- The text of a path. -/
def text (p : Path) : String :=
  String.ofList (['/'].intercalate (p.pieces.map String.toList))

theorem intercalate_cut (cs : List Char) :
    ['/'].intercalate ((cut cs).1 :: (cut cs).2) = cs := by
  induction cs with
  | nil => simp [cut]
  | cons c cs ih =>
    by_cases h : c = '/'
    · simp [cut, h, ih]
    · match hc : (cut cs).2 with
      | [] => simp_all [cut]
      | piece :: pieces => simp_all [cut]

/-- A path has the text that it was made of. -/
@[simp] theorem text_ofText (s : String) : (ofText s).text = s := by
  have h := intercalate_cut s.toList
  simp only [text, ofText, pieces, List.map_cons, List.map_map, String.toList_ofList]
  rw [show String.toList ∘ String.ofList = id from funext fun _ => String.toList_ofList,
    List.map_id, h, String.ofList_toList]

/-- Whether a path has no text. -/
def isEmpty (p : Path) : Bool := p.first == "" && p.rest.isEmpty

/-- The root. -/
def root : Path := ⟨"", [""]⟩

/-- Whether a piece stays where it is: it is empty or a single dot. -/
def isSilent (piece : String) : Bool := piece == "" || piece == "."

/-- The pieces without those at the end that have a property. -/
def dropBack (f : String → Bool) (pieces : List String) : List String :=
  (pieces.reverse.dropWhile f).reverse

/-- The path without its last piece that is not silent, and without the silent ones around it. A
first piece counts even if it is a dot. The root has no parent, nor has the empty path; the parent
of a single piece is the empty path. -/
def parent? (p : Path) : Option Path :=
  match dropBack isSilent p.rest with
  | [] => if p.first = "" then none else some ⟨"", []⟩
  | piece :: pieces =>
    match p.first, dropBack isSilent (piece :: pieces).dropLast with
    | "", [] => some root
    | first, rest => some ⟨first, rest⟩

/-- How many pieces of a path count. -/
def depth (p : Path) : Nat := p.rest.countP (!isSilent ·) + if p.first = "" then 0 else 1

theorem countP_dropBack (pieces : List String) :
    (dropBack isSilent pieces).countP (!isSilent ·) = pieces.countP (!isSilent ·) := by
  have h : (pieces.reverse.takeWhile isSilent).countP (!isSilent ·) = 0 :=
    List.countP_eq_zero.2 fun piece h => by simp [List.all_eq_true.1 List.all_takeWhile piece h]
  rw [dropBack, List.countP_reverse, ← List.countP_reverse (l := pieces)]
  conv => rhs; rw [← List.takeWhile_append_dropWhile (p := isSilent) (l := pieces.reverse)]
  rw [List.countP_append, h, Nat.zero_add]

theorem isSilent_getLast_dropBack (pieces : List String) (h : dropBack isSilent pieces ≠ []) :
    isSilent ((dropBack isSilent pieces).getLast h) = false := by
  simp only [dropBack, List.getLast_reverse]
  exact List.head_dropWhile_not isSilent _

theorem depth_lt_of_parent? {p q : Path} (h : p.parent? = some q) : q.depth < p.depth := by
  have hc := countP_dropBack p.rest
  simp only [parent?] at h
  split at h
  · split at h
    · simp at h
    · rename_i hf
      simp only [Option.some.injEq] at h
      simp [← h, depth, hf]
  · rename_i piece pieces hl
    have hne : dropBack isSilent p.rest ≠ [] := by simp [hl]
    have hlast := isSilent_getLast_dropBack p.rest hne
    have hk := countP_dropBack (piece :: pieces).dropLast
    rw [← List.dropLast_concat_getLast hne, List.countP_append, List.countP_singleton,
      hlast] at hc
    simp only [Bool.not_false, if_true, hl] at hc
    split at h
    · simp only [Option.some.injEq] at h
      have hr : root.depth = 0 := by simp [root, depth, isSilent]
      rw [← h, hr, depth, ← hc]
      omega
    · simp only [Option.some.injEq] at h
      simp only [← h, depth, hk]
      omega

/-- The parent of a path, its parent, and so on; the empty path is left out. -/
def ancestors (p : Path) : List Path :=
  match _h : p.parent? with
  | none => []
  | some q => if q.isEmpty then [] else q :: ancestors q
termination_by p.depth
decreasing_by exact depth_lt_of_parent? _h

end Path

end SettingsOverlay
