import SettingsOverlay.Keyed
import SettingsOverlay.Text.Utf8

/-!
# Directory trees

A tree is the content of a directory: names, each with a file or a directory. A `Location` names a
place in it from the top down, one name a step, and has neither dots nor slashes to interpret.

* `Tree.at?`: what stands at a location, the view through which everything else is stated;
* `Tree.put`: puts something at a location whose directory is there;
* `Tree.remove`: takes away what stands at a location;
* `at?_put_self` and `at?_put_of_ne`: a file or an empty directory that is put where no
  directory stood changes what stands there, and nothing else;
* `at?_remove_self` and `at?_remove_of_ne`: a file that is taken away is gone, and nothing else.
-/

namespace SettingsOverlay

/-- A file with its content, or a directory with its entries. -/
inductive Node where
  | file (data : Bytes)
  | dir (entries : List (String × Node))

/-- The entries of a directory. -/
abbrev Tree := List (String × Node)

/-- Names from the top of a tree down to a place in it. -/
abbrev Location := List String

/-- What a place holds by itself: a directory is one whatever is in it. -/
inductive Entry where
  | file (data : Bytes)
  | dir
  deriving DecidableEq, Repr

namespace Node

/-- What a node is by itself. -/
def entry : Node → Entry
  | file data => .file data
  | dir _ => .dir

/-- Whether a node holds no other nodes. -/
def IsLeaf : Node → Prop
  | file _ => True
  | dir entries => entries = []

end Node

namespace Tree

/-- What stands at a location. -/
def at? (t : Tree) : Location → Option Entry
  | [] => some .dir
  | [name] => (t.lookup name).map Node.entry
  | name :: names =>
    match t.lookup name with
    | some (.dir entries) => at? entries names
    | _ => none

/-- Whether a directory stands at a location. -/
def isDir (t : Tree) (l : Location) : Bool := t.at? l == some .dir

/-- The tree with a node at a location in one of its directories, in place of what stands there.
Where there is no such directory the tree stays as it is. -/
def put (node : Node) (t : Tree) : Location → Tree
  | [] => t
  | [name] => Keyed.insert name node t
  | name :: names =>
    match t.lookup name with
    | some (.dir entries) => Keyed.insert name (.dir (put node entries names)) t
    | _ => t

/-- The tree without what stands at a location. -/
def remove (t : Tree) : Location → Tree
  | [] => t
  | [name] => t.filter (·.1 != name)
  | name :: names =>
    match t.lookup name with
    | some (.dir entries) => Keyed.insert name (.dir (remove entries names)) t
    | _ => t

theorem at?_cons_of_dir {t entries : Tree} {name : String}
    (h : t.lookup name = some (.dir entries)) (l : Location) :
    t.at? (name :: l) = at? entries l := by
  cases l <;> simp [at?, h, Node.entry]

theorem put_cons_of_dir (node : Node) {t entries : Tree} {name : String}
    (h : t.lookup name = some (.dir entries)) {l : Location} (hl : l ≠ []) :
    t.put node (name :: l) = Keyed.insert name (.dir (put node entries l)) t := by
  cases l with
  | nil => exact absurd rfl hl
  | cons => simp [put, h]

theorem remove_cons_of_dir {t entries : Tree} {name : String}
    (h : t.lookup name = some (.dir entries)) {l : Location} (hl : l ≠ []) :
    t.remove (name :: l) = Keyed.insert name (.dir (remove entries l)) t := by
  cases l with
  | nil => exact absurd rfl hl
  | cons => simp [remove, h]

theorem isDir_cons_iff {t : Tree} {name : String} {l : Location} :
    t.isDir (name :: l) = true ↔
      ∃ entries, t.lookup name = some (.dir entries) ∧ isDir entries l = true := by
  constructor
  · intro h
    match hn : t.lookup name with
    | some (.dir entries) =>
      exact ⟨entries, rfl, by rwa [isDir, at?_cons_of_dir hn] at h⟩
    | some (.file _) => cases l <;> simp [isDir, at?, hn, Node.entry] at h
    | none => cases l <;> simp [isDir, at?, hn] at h
  · rintro ⟨entries, hn, h⟩
    rwa [isDir, at?_cons_of_dir hn]

theorem at?_put_self (node : Node) {t : Tree} {l : Location} {name : String}
    (h : t.isDir l = true) : (t.put node (l ++ [name])).at? (l ++ [name]) = some node.entry := by
  induction l generalizing t with
  | nil => simp [put, at?]
  | cons first rest ih =>
    obtain ⟨entries, hf, h⟩ := isDir_cons_iff.1 h
    rw [List.cons_append, put_cons_of_dir node hf (by simp),
      at?_cons_of_dir (Keyed.lookup_insert_self ..), ih h]

/-- Below a leaf there is nothing. -/
theorem at?_cons_of_leaf {t : Tree} {name : String} {node : Node} (hn : node.IsLeaf)
    (h : t.lookup name = some node) (next : String) (l : Location) :
    t.at? (name :: next :: l) = none := by
  cases node with
  | file => simp [at?, h]
  | dir entries =>
    obtain rfl : entries = [] := hn
    rw [at?_cons_of_dir h]
    cases l <;> simp [at?]

theorem at?_cons_of_lookup_eq {t u : Tree} {name : String} (h : t.lookup name = u.lookup name)
    (l : Location) : t.at? (name :: l) = u.at? (name :: l) := by
  cases l <;> simp [at?, h]

theorem at?_put_of_ne {node : Node} (hn : node.IsLeaf) {t : Tree} {l l' : Location}
    (hd : t.isDir l = false) (hl : l' ≠ l) : (t.put node l).at? l' = t.at? l' := by
  induction l generalizing t l' with
  | nil => simp [put]
  | cons name rest ih =>
    match l' with
    | [] => simp [at?]
    | other :: rest' =>
      by_cases ho : other = name
      · subst ho
        match rest, rest' with
        | [], [] => exact absurd rfl hl
        | [], next :: below =>
          rw [put, at?_cons_of_leaf hn (Keyed.lookup_insert_self ..)]
          match ht : t.lookup other with
          | some (.dir entries) => simp [isDir, at?, ht, Node.entry] at hd
          | some (.file _) | none => simp [at?, ht]
        | next :: below, rest' =>
          match ht : t.lookup other with
          | some (.dir entries) =>
            rw [put_cons_of_dir node ht (by simp), at?_cons_of_dir (Keyed.lookup_insert_self ..),
              at?_cons_of_dir ht]
            refine ih ?_ fun h => hl (by rw [h])
            rwa [isDir, at?_cons_of_dir ht] at hd
          | some (.file _) | none => simp [put, ht]
      · match rest with
        | [] => exact at?_cons_of_lookup_eq (Keyed.lookup_insert_of_ne ho ..) _
        | next :: below =>
          simp only [put]
          split
          · exact at?_cons_of_lookup_eq (Keyed.lookup_insert_of_ne ho ..) _
          · rfl

theorem at?_remove_self (t : Tree) {l : Location} (hl : l ≠ []) : (t.remove l).at? l = none := by
  induction l generalizing t with
  | nil => contradiction
  | cons name rest ih =>
    match rest with
    | [] =>
      rw [remove, at?, Keyed.lookup_filter_self]
      rfl
    | next :: below =>
      match ht : t.lookup name with
      | some (.dir entries) =>
        rw [remove_cons_of_dir ht (List.cons_ne_nil next below),
          at?_cons_of_dir (Keyed.lookup_insert_self ..), ih entries (List.cons_ne_nil next below)]
      | some (.file _) | none => simp [remove, at?, ht]

theorem at?_remove_of_ne {t : Tree} {l l' : Location} (hd : t.isDir l = false) (hl : l' ≠ l) :
    (t.remove l).at? l' = t.at? l' := by
  induction l generalizing t l' with
  | nil => simp [remove]
  | cons name rest ih =>
    match l' with
    | [] => simp [at?]
    | other :: rest' =>
      by_cases ho : other = name
      · subst ho
        match rest, rest' with
        | [], [] => exact absurd rfl hl
        | [], next :: below =>
          match ht : t.lookup other with
          | some (.dir entries) => simp [isDir, at?, ht, Node.entry] at hd
          | some (.file _) | none => simp [remove, at?, Keyed.lookup_filter_self, ht]
        | next :: below, rest' =>
          match ht : t.lookup other with
          | some (.dir entries) =>
            rw [remove_cons_of_dir ht (List.cons_ne_nil next below),
              at?_cons_of_dir (Keyed.lookup_insert_self ..), at?_cons_of_dir ht]
            refine ih ?_ fun h => hl (by rw [h])
            rwa [isDir, at?_cons_of_dir ht] at hd
          | some (.file _) | none => simp [remove, ht]
      · match rest with
        | [] => exact at?_cons_of_lookup_eq (Keyed.lookup_filter_of_ne ho t) _
        | next :: below =>
          simp only [remove]
          split
          · exact at?_cons_of_lookup_eq (Keyed.lookup_insert_of_ne ho ..) _
          · rfl

end Tree

end SettingsOverlay
