import SettingsOverlay.Proofs.Json.Objects
import SettingsOverlay.Proofs.Json.Writing

/-!
# Values inside a value

A value inside another one has an address: the keys and the indices on the way to it. Another value
can be put there, and in the text of the whole only the text of that value changes.

* `Value.at?`, `Value.put`: the value at an address, and another value put there;
* `Value.at?_put`, `Value.put_of_at?`: what is put is there, and what is there can be put there;
* `Value.chars_put`: what is written of a value in which something is put.
-/

namespace SettingsOverlay

theorem Keyed.exists_append_of_lookup {α : Type} {l : List (String × α)} {key : String} {a : α}
    (h : l.lookup key = some a) :
    ∃ pre post, l = pre ++ (key, a) :: post ∧ key ∉ pre.map Prod.fst ∧
      ∀ b, insert key b l = pre ++ (key, b) :: post := by
  induction l with
  | nil => contradiction
  | cons m l ih =>
    obtain ⟨k, b⟩ := m
    by_cases hk : k = key
    · subst hk
      rw [List.lookup_cons_self] at h
      obtain rfl := Option.some.inj h
      exact ⟨[], l, rfl, List.not_mem_nil, fun c => by rw [insert, if_pos rfl, List.nil_append]⟩
    · rw [List.lookup_cons, beq_eq_false_iff_ne.2 (Ne.symm hk)] at h
      obtain ⟨pre, post, hl, hpre, hinsert⟩ := ih h
      refine ⟨(k, b) :: pre, post, by rw [hl, List.cons_append], ?_, fun c => ?_⟩
      · rw [List.map_cons, List.mem_cons, not_or]
        exact ⟨Ne.symm hk, hpre⟩
      · rw [insert, if_neg hk, hinsert, List.cons_append]

theorem exists_append_of_getElem? {α : Type} {l : List α} {i : Nat} {a : α} (h : l[i]? = some a) :
    ∃ pre post, l = pre ++ a :: post ∧ ∀ b, l.set i b = pre ++ b :: post := by
  obtain ⟨hi, rfl⟩ := List.getElem?_eq_some_iff.1 h
  have hset (b : α) : l.set i b = l.take i ++ b :: l.drop (i + 1) :=
    List.set_eq_take_append_cons_drop.trans (if_pos hi)
  exact ⟨l.take i, l.drop (i + 1), (List.set_getElem_self hi).symm.trans (hset _), hset⟩

namespace Json

/-- A step into a value: to the value of a key, or to an element. -/
inductive Step where
  | key (k : String)
  | index (i : Nat)
  deriving DecidableEq, Repr

namespace Value

/-- The value that a step leads to. -/
def child? : Value → Step → Option Value
  | array vs, .index i => vs[i]?
  | object o, .key k => Object.get? o k
  | _, _ => none

/-- The value with another one where a step leads to. -/
def setChild (w : Value) : Value → Step → Value
  | array vs, .index i => array (vs.set i w)
  | object o, .key k => object (Object.insert k w o)
  | v, _ => v

/-- The value at an address, which is the steps that lead to it. -/
def at? (v : Value) : List Step → Option Value
  | [] => some v
  | s :: p => (v.child? s).bind fun c => c.at? p

/-- The value with another one put at an address. -/
def put (v : Value) (p : List Step) (u : Value) : Value :=
  match p with
  | [] => u
  | s :: p =>
    match v.child? s with
    | some c => (c.put p u).setChild v s
    | none => v

theorem at?_cons_eq_some_iff {v w : Value} {s : Step} {p : List Step} :
    v.at? (s :: p) = some w ↔ ∃ c, v.child? s = some c ∧ c.at? p = some w :=
  Option.bind_eq_some_iff

theorem put_cons {v c : Value} {s : Step} (h : v.child? s = some c) (p : List Step) (u : Value) :
    v.put (s :: p) u = (c.put p u).setChild v s := by
  rw [put, h]

theorem setChild_of_child? {v c : Value} {s : Step} (h : v.child? s = some c) :
    c.setChild v s = v := by
  cases v with
  | array vs =>
    cases s with
    | index i =>
      obtain ⟨hi, rfl⟩ := List.getElem?_eq_some_iff.1 h
      exact congrArg array (List.set_getElem_self hi)
    | key => contradiction
  | object o =>
    cases s with
    | key k =>
      have h : o.lookup k = some c := h
      exact congrArg object (Keyed.insert_of_lookup h)
    | index => contradiction
  | _ => contradiction

theorem child?_setChild {v c : Value} {s : Step} (h : v.child? s = some c) (w : Value) :
    (w.setChild v s).child? s = some w := by
  cases v with
  | array vs =>
    cases s with
    | index i =>
      obtain ⟨hi, -⟩ := List.getElem?_eq_some_iff.1 h
      exact List.getElem?_set_self hi
    | key => contradiction
  | object o =>
    cases s with
    | key k => exact Keyed.lookup_insert_self k w o
    | index => contradiction
  | _ => contradiction

/-- What is put at an address is there. -/
theorem at?_put {v w : Value} {p : List Step} (h : v.at? p = some w) (u : Value) :
    (v.put p u).at? p = some u := by
  induction p generalizing v with
  | nil => rfl
  | cons s p ih =>
    obtain ⟨c, hc, hp⟩ := at?_cons_eq_some_iff.1 h
    rw [put_cons hc]
    exact at?_cons_eq_some_iff.2 ⟨_, child?_setChild hc _, ih hp⟩

/-- What is put where it is already changes nothing. -/
theorem put_of_at? {v w : Value} {p : List Step} (h : v.at? p = some w) : v.put p w = v := by
  induction p generalizing v with
  | nil => exact (Option.some.inj h).symm
  | cons s p ih =>
    obtain ⟨c, hc, hp⟩ := at?_cons_eq_some_iff.1 h
    rw [put_cons hc, ih hp, setChild_of_child? hc]

end Value

/-! ## What is written of it -/

theorem elementChars_append (depth : Nat) (vs ws : List Value) :
    elementChars depth (vs ++ ws) = elementChars depth vs ++ elementChars depth ws := by
  induction vs with
  | nil => rfl
  | cons v vs ih => rw [List.cons_append, elementChars, elementChars, ih, List.cons_append]

theorem memberChars_append (depth : Nat) (ms ns : List (String × Value)) :
    memberChars depth (ms ++ ns) = memberChars depth ms ++ memberChars depth ns := by
  induction ms with
  | nil => rfl
  | cons m ms ih =>
    obtain ⟨k, v⟩ := m
    rw [List.cons_append, memberChars, memberChars, ih, List.cons_append]

/-- The text of one of some items can be exchanged where it stands. -/
theorem exists_bracketed (opening closing : Char) (depth : Nat) (pre post : List (List Char)) :
    ∃ front back, ∀ x,
      bracketed opening closing depth (pre ++ x :: post) = front ++ x ++ back := by
  let line (y : List Char) : List Char := [',', '\n'] ++ (indent (depth + 1) ++ y)
  have hcons (y : List Char) (ys : List (List Char)) :
      bracketed opening closing depth (y :: ys) = opening :: '\n' :: indent (depth + 1) ++ y ++
        (ys.flatMap line ++ '\n' :: (indent depth ++ [closing])) := by
    show opening :: '\n' :: _ = _
    rw [List.map_cons, intercalate_cons, List.flatMap_map]
    simp only [List.append_assoc, List.cons_append]
    rfl
  cases pre with
  | nil => exact ⟨_, _, fun x => hcons x post⟩
  | cons y pre =>
    refine ⟨opening :: '\n' :: indent (depth + 1) ++ y ++ pre.flatMap line ++
      ([',', '\n'] ++ indent (depth + 1)), post.flatMap line ++ '\n' :: (indent depth ++ [closing]),
      fun x => ?_⟩
    rw [List.cons_append, hcons, List.flatMap_append, List.flatMap_cons]
    simp only [line, List.append_assoc, List.cons_append]

namespace Value

theorem chars_setChild {v c : Value} {s : Step} (h : v.child? s = some c) (depth : Nat) :
    ∃ front back, ∀ u : Value,
      (u.setChild v s).chars depth = front ++ u.chars (depth + 1) ++ back := by
  cases v with
  | array vs =>
    cases s with
    | index i =>
      obtain ⟨pre, post, -, hset⟩ := exists_append_of_getElem? h
      obtain ⟨front, back, hchars⟩ := exists_bracketed '[' ']' depth
        (elementChars (depth + 1) pre) (elementChars (depth + 1) post)
      refine ⟨front, back, fun u => ?_⟩
      rw [setChild, hset, chars, elementChars_append, elementChars, hchars]
    | key => contradiction
  | object o =>
    cases s with
    | key k =>
      have h : o.lookup k = some c := h
      obtain ⟨pre, post, -, -, hinsert⟩ := Keyed.exists_append_of_lookup h
      obtain ⟨front, back, hchars⟩ := exists_bracketed '{' '}' depth
        (memberChars (depth + 1) pre) (memberChars (depth + 1) post)
      refine ⟨front ++ (Quoted.chars k ++ [':', ' ']), back, fun u => ?_⟩
      rw [setChild, Object.insert, hinsert, chars, memberChars_append, memberChars, hchars]
      simp only [List.append_assoc, List.cons_append, List.nil_append]
    | index => contradiction
  | _ => contradiction

/-- Whatever is put at an address, its text stands at the same place of the whole. -/
theorem chars_put {v w : Value} {p : List Step} (h : v.at? p = some w) (depth : Nat) :
    ∃ front back, ∀ u : Value,
      (v.put p u).chars depth = front ++ u.chars (depth + p.length) ++ back := by
  induction p generalizing v depth with
  | nil => exact ⟨[], [], fun u => (List.append_nil _).symm⟩
  | cons s p ih =>
    obtain ⟨c, hc, hp⟩ := at?_cons_eq_some_iff.1 h
    obtain ⟨front, back, houter⟩ := chars_setChild hc depth
    obtain ⟨front', back', hinner⟩ := ih hp (depth + 1)
    refine ⟨front ++ front', back' ++ back, fun u => ?_⟩
    have hdepth : depth + 1 + p.length = depth + (p.length + 1) := by omega
    rw [put_cons hc, houter, hinner, hdepth, List.length_cons]
    simp only [List.append_assoc]

end Value

end Json

end SettingsOverlay
