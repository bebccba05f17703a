/-!
# Lists with keys

A list of pairs in which a key stands for its first value. Order matters: a key keeps the place
where it first came in.

* `insert`: gives a key a value;
* `lookup_insert_self`, `lookup_insert_of_ne`: what that does to the values;
* `keys_insert`: and to the keys;
* `insert_insert`, `insert_of_lookup`: a value that is there already makes no difference;
* `insert_comm`: a key that is there already can be given its value before or after another;
* `lookup_filter_self`, `lookup_filter_of_ne`: a key is taken away.
-/

namespace SettingsOverlay.Keyed

variable {α : Type}

/-- The list with a value given to a key. A key that is there keeps its place, a new one goes to
the end. -/
def insert (key : String) (value : α) : List (String × α) → List (String × α)
  | [] => [(key, value)]
  | (k, v) :: l => if k = key then (k, value) :: l else (k, v) :: insert key value l

@[simp] theorem lookup_insert_self (key : String) (value : α) (l : List (String × α)) :
    (insert key value l).lookup key = some value := by
  induction l with
  | nil => simp [insert]
  | cons m l ih =>
    obtain ⟨k, v⟩ := m
    by_cases h : k = key
    · simp [insert, h]
    · simp [insert, h, List.lookup_cons, ih, beq_eq_false_iff_ne.2 (Ne.symm h)]

theorem lookup_insert_of_ne {key other : String} (h : other ≠ key) (value : α)
    (l : List (String × α)) : (insert key value l).lookup other = l.lookup other := by
  induction l with
  | nil => simp [insert, h]
  | cons m l ih =>
    obtain ⟨k, v⟩ := m
    by_cases hk : k = key
    · subst hk
      simp [insert, List.lookup_cons, beq_eq_false_iff_ne.2 h]
    · simp [insert, hk, List.lookup_cons, ih]

theorem keys_insert (key : String) (value : α) (l : List (String × α)) :
    (insert key value l).map Prod.fst =
      if key ∈ l.map Prod.fst then l.map Prod.fst else l.map Prod.fst ++ [key] := by
  induction l with
  | nil => simp [insert]
  | cons m l ih =>
    by_cases h : m.1 = key
    · simp [insert, h]
    · simp only [insert, h, if_false, List.map_cons, ih, List.mem_cons, Ne.symm h, false_or]
      split <;> simp

theorem insert_insert (key : String) (value other : α) (l : List (String × α)) :
    insert key value (insert key other l) = insert key value l := by
  induction l with
  | nil => simp [insert]
  | cons m l ih =>
    obtain ⟨k, v⟩ := m
    by_cases h : k = key
    · simp [insert, h]
    · simp [insert, h, ih]

theorem insert_of_lookup {key : String} {value : α} {l : List (String × α)}
    (h : l.lookup key = some value) : insert key value l = l := by
  induction l with
  | nil => contradiction
  | cons m l ih =>
    obtain ⟨k, v⟩ := m
    by_cases hk : k = key
    · subst hk
      rw [List.lookup_cons_self, Option.some.injEq] at h
      simp [insert, h]
    · rw [List.lookup_cons, beq_eq_false_iff_ne.2 (Ne.symm hk)] at h
      rw [insert, if_neg hk, ih h]

theorem insert_comm {key other : String} (h : key ≠ other) {l : List (String × α)}
    (hk : key ∈ l.map Prod.fst) (value value' : α) :
    insert key value (insert other value' l) = insert other value' (insert key value l) := by
  induction l with
  | nil => contradiction
  | cons m l ih =>
    obtain ⟨k, v⟩ := m
    by_cases hkey : k = key
    · subst hkey
      simp [insert, h]
    · have hl : key ∈ l.map Prod.fst := by simpa [Ne.symm hkey] using hk
      by_cases hother : k = other
      · subst hother
        simp [insert, hkey]
      · simp [insert, hkey, hother, ih hl]

theorem lookup_filter_self (key : String) (l : List (String × α)) :
    (l.filter (·.1 != key)).lookup key = none := by
  rw [List.lookup_eq_none_iff]
  intro m hm
  have hne : m.1 ≠ key := by simpa using (List.mem_filter.1 hm).2
  exact bne_iff_ne.2 hne.symm

theorem lookup_filter_of_ne {key other : String} (h : other ≠ key) (l : List (String × α)) :
    (l.filter (·.1 != key)).lookup other = l.lookup other := by
  induction l with
  | nil => rfl
  | cons m l ih =>
    by_cases hk : m.1 = key
    · rw [List.filter_cons_of_neg (by simp [hk]), ih, List.lookup_cons, hk,
        beq_eq_false_iff_ne.2 h]
    · rw [List.filter_cons_of_pos (by simp [hk]), List.lookup_cons, List.lookup_cons, ih]

end SettingsOverlay.Keyed
