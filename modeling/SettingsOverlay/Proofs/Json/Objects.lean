import SettingsOverlay.Proofs.Json.Grammar

/-!
# Members inserted one after the other

What `Object.overlay` does to keys, look-up and members, by induction on the supplement.

* `get?_overlay`: the value of a key is the last one the supplement gives it, else the target's;
* `get?_overlay_of_not_mem`: a key that the supplement lacks keeps its value;
* `overlay_overlay_self`: a supplement that is laid over once makes no difference after that;
* `overlay_assoc`: supplements that follow one another are as good as one;
* `nodup_keys_overlay`: keys stay unique;
* `keys_overlay`: the target's keys come first, then the ones that only the supplement has;
* `overlay_of_nodup`: members whose keys are new are added as they are;
* `head?_keys_overlay`: the first key is the target's, or the supplement's if the target is empty;
* `mem_of_mem_overlay`: no member comes from elsewhere;
* `overlay_laws`: order, values and laws of objects that are laid over each other.
-/

namespace SettingsOverlay.Json.Object

theorem keys_insert (key : String) (value : Value) (o : Object) :
    (o.insert key value).keys = if key ∈ o.keys then o.keys else o.keys ++ [key] :=
  Keyed.keys_insert key value o

theorem mem_keys_insert_self (key : String) (value : Value) (o : Object) :
    key ∈ (o.insert key value).keys := by
  rw [keys_insert]
  split
  · assumption
  · exact List.mem_append_right _ (List.mem_singleton_self key)

theorem mem_keys_insert_of_mem {o : Object} {other : String} (h : other ∈ o.keys) (key : String)
    (value : Value) : other ∈ (o.insert key value).keys := by
  rw [keys_insert]
  split
  · exact h
  · exact List.mem_append_left _ h

theorem get?_eq_none_iff {o : Object} {key : String} : o.get? key = none ↔ key ∉ o.keys := by
  rw [get?, List.lookup_eq_none_iff, keys, List.mem_map]
  constructor
  · rintro h ⟨m, hm, rfl⟩
    simpa using h m hm
  · intro h m hm
    rw [bne_iff_ne]
    exact fun he => h ⟨m, hm, he.symm⟩

theorem nodup_keys_insert {o : Object} (h : o.keys.Nodup) (key : String) (value : Value) :
    (o.insert key value).keys.Nodup := by
  rw [keys_insert]
  split
  · exact h
  · rename_i hk
    exact List.nodup_append.2 ⟨h, by simp, fun a ha b hb => by
      rw [List.mem_singleton.1 hb]
      exact fun e => hk (e ▸ ha)⟩

theorem mem_of_mem_insert {key : String} {value : Value} {o : Object} {m : String × Value}
    (h : m ∈ o.insert key value) : m = (key, value) ∨ m ∈ o := by
  induction o with
  | nil => exact .inl (List.mem_singleton.1 h)
  | cons n o ih =>
    simp only [insert, Keyed.insert] at h
    split at h
    · rcases List.mem_cons.1 h with rfl | h
      · rename_i hk
        exact .inl (by rw [hk])
      · exact .inr (List.mem_cons_of_mem n h)
    · rcases List.mem_cons.1 h with rfl | h
      · exact .inr List.mem_cons_self
      · exact (ih h).imp_right (List.mem_cons_of_mem n)

theorem insert_of_not_mem {key : String} {o : Object} (h : key ∉ o.keys) (value : Value) :
    o.insert key value = o ++ [(key, value)] := by
  induction o with
  | nil => rfl
  | cons n o ih =>
    simp only [keys, List.map_cons, List.mem_cons, not_or] at h
    rw [insert, Keyed.insert, if_neg (Ne.symm h.1)]
    exact congrArg (n :: ·) (ih h.2)

theorem overlay_cons (t : Object) (m : String × Value) (s : Object) :
    t.overlay (m :: s) = (t.insert m.1 m.2).overlay s := rfl

theorem get?_overlay_of_not_mem {s : Object} {key : String} (h : key ∉ s.keys) (t : Object) :
    (t.overlay s).get? key = t.get? key := by
  induction s generalizing t with
  | nil => rfl
  | cons m s ih =>
    simp only [keys, List.map_cons, List.mem_cons, not_or] at h
    rw [overlay_cons, ih h.2]
    exact Keyed.lookup_insert_of_ne h.1 m.2 t

/-- The last value that the supplement has for a key wins over the target's. -/
theorem get?_overlay (t s : Object) (key : String) :
    (t.overlay s).get? key = (s.reverse.lookup key).or (t.get? key) := by
  induction s generalizing t with
  | nil => rfl
  | cons m s ih =>
    obtain ⟨k, v⟩ := m
    rw [overlay_cons, ih, List.reverse_cons, List.lookup_append, Option.or_assoc]
    by_cases h : key = k
    · subst h
      simp [get?, insert]
    · rw [get?, insert, Keyed.lookup_insert_of_ne h]
      simp [get?, List.lookup_cons, beq_eq_false_iff_ne.2 h]

theorem lookup_of_mem {s : Object} (h : s.keys.Nodup) {m : String × Value} (hm : m ∈ s) :
    s.lookup m.1 = some m.2 := by
  induction s with
  | nil => contradiction
  | cons n s ih =>
    rw [keys, List.map_cons, List.nodup_cons] at h
    rcases List.mem_cons.1 hm with rfl | hm
    · exact List.lookup_cons_self
    · have hne : m.1 ≠ n.1 := fun he => h.1 (he ▸ List.mem_map_of_mem hm)
      rw [List.lookup_cons, beq_eq_false_iff_ne.2 hne]
      exact ih h.2 hm

theorem get?_overlay_of_mem {s : Object} (h : s.keys.Nodup) {m : String × Value} (hm : m ∈ s)
    (t : Object) : (t.overlay s).get? m.1 = some m.2 := by
  have hr : (keys s.reverse).Nodup := by
    rw [keys, List.map_reverse]
    exact (List.reverse_perm _).nodup_iff.2 h
  rw [get?_overlay, lookup_of_mem hr (List.mem_reverse.2 hm)]
  rfl

/-- What a supplement has for its keys, the result has. -/
theorem get?_overlay_of_mem_keys {s : Object} (h : s.keys.Nodup) {key : String}
    (hk : key ∈ s.keys) (t : Object) : (t.overlay s).get? key = s.get? key := by
  obtain ⟨m, hm, rfl⟩ := List.mem_map.1 hk
  rw [get?_overlay_of_mem h hm]
  exact (lookup_of_mem h hm).symm

/-- Members that an object has already make no difference to it. -/
theorem overlay_of_forall_mem {t s : Object} (h : ∀ m ∈ s, t.get? m.1 = some m.2) :
    t.overlay s = t := by
  induction s with
  | nil => rfl
  | cons m s ih =>
    rw [List.forall_mem_cons] at h
    rw [overlay_cons, insert, Keyed.insert_of_lookup h.1]
    exact ih h.2

theorem overlay_overlay_self (t : Object) {s : Object} (h : s.keys.Nodup) :
    (t.overlay s).overlay s = t.overlay s :=
  overlay_of_forall_mem fun _ hm => get?_overlay_of_mem h hm t

/-- A key that the target has can be given its value before the other keys of a supplement. -/
theorem insert_overlay {t s : Object} {key : String} (ht : key ∈ t.keys) (hs : key ∉ s.keys)
    (value : Value) : (t.overlay s).insert key value = (t.insert key value).overlay s := by
  induction s generalizing t with
  | nil => rfl
  | cons m s ih =>
    simp only [keys, List.map_cons, List.mem_cons, not_or] at hs
    rw [overlay_cons, overlay_cons, ih (mem_keys_insert_of_mem ht m.1 m.2) hs.2]
    exact congrArg (fun o : Object => o.overlay s) (Keyed.insert_comm hs.1 ht value m.2)

theorem overlay_insert (t : Object) {s : Object} (h : s.keys.Nodup) (key : String)
    (value : Value) : t.overlay (s.insert key value) = (t.overlay s).insert key value := by
  induction s generalizing t with
  | nil => rfl
  | cons m s ih =>
    obtain ⟨k, v⟩ := m
    rw [keys, List.map_cons, List.nodup_cons] at h
    rw [overlay_cons, insert, Keyed.insert]
    split
    · rename_i hk
      subst hk
      rw [overlay_cons, insert_overlay (mem_keys_insert_self k v t) h.1]
      exact congrArg (fun o : Object => o.overlay s) (Keyed.insert_insert k value v t).symm
    · rw [overlay_cons]
      exact ih _ h.2

/-- Supplements can be laid over each other before they are laid over a target. -/
theorem overlay_assoc (t : Object) {a : Object} (h : a.keys.Nodup) (b : Object) :
    t.overlay (a.overlay b) = (t.overlay a).overlay b := by
  induction b generalizing a with
  | nil => rfl
  | cons m b ih =>
    rw [overlay_cons, overlay_cons, ih (nodup_keys_insert h m.1 m.2), overlay_insert t h]

theorem nodup_keys_overlay {t : Object} (h : t.keys.Nodup) (s : Object) :
    (t.overlay s).keys.Nodup := by
  induction s generalizing t with
  | nil => exact h
  | cons m s ih => exact ih (nodup_keys_insert h m.1 m.2)

/-- The target's keys keep their order. Behind them come the keys that only the supplement has, in
its own order. -/
theorem keys_overlay (t : Object) {s : Object} (h : s.keys.Nodup) :
    (t.overlay s).keys = t.keys ++ s.keys.filter (· ∉ t.keys) := by
  induction s generalizing t with
  | nil => exact (List.append_nil t.keys).symm
  | cons m s ih =>
    have hkeys : keys (m :: s) = m.1 :: keys s := rfl
    rw [hkeys, List.nodup_cons] at h
    rw [overlay_cons, ih (t.insert m.1 m.2) h.2, keys_insert, hkeys]
    by_cases hm : m.1 ∈ t.keys
    · rw [if_pos hm, List.filter_cons_of_neg (by simpa using hm)]
    · -- The key is new to the target, and the rest of the supplement does not have it.
      have hrest : (keys s).filter (· ∉ t.keys ++ [m.1]) = (keys s).filter (· ∉ t.keys) := by
        refine List.filter_congr fun key hkey => ?_
        have hne : key ≠ m.1 := fun he => h.1 (he ▸ hkey)
        simp [hne]
      rw [if_neg hm, List.filter_cons_of_pos (by simpa using hm), hrest, List.append_assoc]
      rfl

/-- Keys that are new and unique go to the end as they are. -/
theorem overlay_of_nodup {t s : Object} (h : (t.keys ++ s.keys).Nodup) : t.overlay s = t ++ s := by
  induction s generalizing t with
  | nil => exact (List.append_nil t).symm
  | cons m s ih =>
    have hm : m.1 ∉ t.keys := fun hm =>
      (List.nodup_append.1 h).2.2 m.1 hm m.1 (List.mem_cons_self ..) rfl
    rw [overlay_cons, insert_of_not_mem hm, ih, List.append_assoc]
    · rfl
    · simpa [keys] using h

theorem ofMembers_of_nodup {o : Object} (h : o.keys.Nodup) : ofMembers o = o :=
  overlay_of_nodup h

theorem head?_keys_overlay (t s : Object) :
    (t.overlay s).keys.head? = t.keys.head?.or s.keys.head? := by
  induction s generalizing t with
  | nil => simp [overlay, keys]
  | cons m s ih =>
    rw [overlay_cons, ih, keys_insert]
    split
    · rename_i hm
      match hk : t.keys with
      | [] => simp [hk] at hm
      | k :: ks => rfl
    · match t.keys with
      | [] => rfl
      | k :: ks => rfl

theorem mem_of_mem_overlay {t s : Object} {m : String × Value} (h : m ∈ t.overlay s) :
    m ∈ t ∨ m ∈ s := by
  induction s generalizing t with
  | nil => exact .inl h
  | cons n s ih =>
    rcases ih h with h | h
    · rcases mem_of_mem_insert h with rfl | h
      · exact .inr List.mem_cons_self
      · exact .inl h
    · exact .inr (List.mem_cons_of_mem n h)

/-- Of two objects whose keys are unique, the one laid over the other adds its new keys behind the
other's and gives all its keys their whole values; no key repeats, and every other key keeps its
value. Objects that are laid over each other one after the other can be put together first, an empty
one makes no difference on either side, and one that was laid over already makes none either. -/
theorem overlay_laws {t a : Object} (ht : t.keys.Nodup) (ha : a.keys.Nodup) (b : Object) :
    (t.overlay a).keys = t.keys ++ a.keys.filter (· ∉ t.keys) ∧
      (t.overlay a).keys.Nodup ∧
      (∀ key, (t.overlay a).get? key = if key ∈ a.keys then a.get? key else t.get? key) ∧
      (t.overlay a).overlay b = t.overlay (a.overlay b) ∧
      overlay [] t = t ∧ t.overlay [] = t ∧
      (t.overlay a).overlay a = t.overlay a := by
  refine ⟨keys_overlay t ha, nodup_keys_overlay ht a, fun key => ?_, (overlay_assoc t ha b).symm,
    ofMembers_of_nodup ht, rfl, overlay_overlay_self t ha⟩
  split
  · rename_i hkey
    exact get?_overlay_of_mem_keys ha hkey t
  · rename_i hkey
    exact get?_overlay_of_not_mem hkey t

/-- Three objects, of which each two have a key in common. -/
theorem overlay_laws_threeObjects :
    ∃ t a b : Object, t = [("z", .null), ("a", .bool true)] ∧
      a = [("m", .null), ("z", .bool false)] ∧ b = [("a", .null), ("m", .bool true)] ∧
      (t.overlay a).keys = ["z", "a", "m"] ∧ (t.overlay a).get? "z" = some (.bool false) ∧
      (t.overlay a).get? "a" = some (.bool true) ∧
      t.overlay (a.overlay b) = [("z", .bool false), ("a", .null), ("m", .bool true)] ∧
      (t.overlay a).overlay a = [("z", .bool false), ("a", .bool true), ("m", .null)] := by
  obtain ⟨hkeys, -, hget, hassoc, -, -, hself⟩ :=
    overlay_laws (t := [("z", .null), ("a", .bool true)])
      (a := [("m", .null), ("z", .bool false)]) (by decide) (by decide)
      [("a", .null), ("m", .bool true)]
  exact ⟨_, _, _, rfl, rfl, rfl, hkeys.trans (by decide), hget "z", hget "a", hassoc.symm, hself⟩

end SettingsOverlay.Json.Object
