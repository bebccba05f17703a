import Mathlib.Data.List.Perm.Subperm
import SettingsOverlay.Json.Equality
import SettingsOverlay.Proofs.Json.Addresses
import SettingsOverlay.Proofs.Json.Canonical

/-!
# Members in another order

`Value.same` counts members and looks keys up in one direction. Where every object has its keys
once, this finds out exactly whether the members of objects can be exchanged, at any depth, until
the two values are the same.

* `Value.Rearranged`: a value with members of its objects exchanged;
* `Value.same_iff_rearranged`: what `Value.same` decides;
* `Value.at?_of_same`: values that are the same, address by address;
* `Object.same_iff`: two objects are the same if each key has the same value in both;
* `Object.same_overlay`: objects that are the same are laid over each other with the same result.
-/

namespace SettingsOverlay.Json

/-! ## Rearranging -/

/-- One value turned into another by exchanging members of objects, at any depth. Elements of arrays
keep their places. -/
inductive Value.Rearranged : Value → Value → Prop where
  | refl (v : Value) : Rearranged v v
  | trans {u v w : Value} : Rearranged u v → Rearranged v w → Rearranged u w
  | members {o p : Object} : o.Perm p → Rearranged (.object o) (.object p)
  | element {v w : Value} (before after : List Value) : Rearranged v w →
      Rearranged (.array (before ++ v :: after)) (.array (before ++ w :: after))
  | member {v w : Value} (before : Object) (key : String) (after : Object) : Rearranged v w →
      Rearranged (.object (before ++ (key, v) :: after)) (.object (before ++ (key, w) :: after))

/-- Every object has its keys once. -/
def Value.Distinct (v : Value) : Prop := v.Everywhere fun o => o.keys.Nodup

theorem Value.Everywhere.imp {P Q : Object → Prop} (h : ∀ o, P o → Q o) {v : Value}
    (hv : v.Everywhere P) : v.Everywhere Q := by
  induction hv with
  | null => exact .null
  | bool => exact .bool
  | number => exact .number
  | string => exact .string
  | array _ ih => exact .array ih
  | object hp _ ih => exact .object (h _ hp) ih

theorem Value.Canonical.distinct {v : Value} (h : v.Canonical) : v.Distinct :=
  Everywhere.imp (fun _ ho => ho.1) h

namespace Value.Rearranged

theorem symm {v w : Value} (h : v.Rearranged w) : w.Rearranged v := by
  induction h with
  | refl v => exact .refl v
  | trans _ _ ih ih' => exact ih'.trans ih
  | members hp => exact .members hp.symm
  | element before after _ ih => exact .element before after ih
  | member before key after _ ih => exact .member before key after ih

theorem distinct {v w : Value} (h : v.Rearranged w) (hv : v.Distinct) : w.Distinct := by
  induction h with
  | refl => exact hv
  | trans _ _ ih ih' => exact ih' (ih hv)
  | @members o p hp =>
    obtain ⟨hk, hm⟩ := everywhere_object_iff.1 hv
    exact .object ((hp.map Prod.fst).nodup_iff.1 hk) fun m hm' => hm m (hp.mem_iff.2 hm')
  | element before after _ ih =>
    have hall := everywhere_array_iff.1 hv
    rw [List.forall_mem_append, List.forall_mem_cons] at hall
    exact .array (List.forall_mem_append.2
      ⟨hall.1, List.forall_mem_cons.2 ⟨ih hall.2.1, hall.2.2⟩⟩)
  | member before key after _ ih =>
    obtain ⟨hk, hall⟩ := everywhere_object_iff.1 hv
    rw [List.forall_mem_append, List.forall_mem_cons] at hall
    refine .object ?_ (List.forall_mem_append.2
      ⟨hall.1, List.forall_mem_cons.2 ⟨ih hall.2.1, hall.2.2⟩⟩)
    simpa [Object.keys] using hk

end Value.Rearranged

/-! ## What is compared -/

theorem sameElements_iff {vs ws : List Value} :
    sameElements vs ws = true ↔ List.Forall₂ (fun v w => v.same w = true) vs ws := by
  induction vs generalizing ws with
  | nil => cases ws <;> simp [sameElements]
  | cons v vs ih => cases ws <;> simp [sameElements, ih]

theorem sameMembers_iff {o p : Object} :
    sameMembers o p = true ↔ ∀ m ∈ o, ∃ w, p.get? m.1 = some w ∧ m.2.same w = true := by
  induction o with
  | nil => simp [sameMembers]
  | cons m o ih =>
    obtain ⟨k, v⟩ := m
    rw [sameMembers, Bool.and_eq_true, ih, List.forall_mem_cons]
    cases p.get? k <;> simp

/-- A value that holds no others is the same as itself only. -/
theorem Value.eq_of_same {v w : Value} (ha : v.kind ≠ .array) (ho : v.kind ≠ .object)
    (h : v.same w = true) : v = w := by
  cases v <;> cases w <;> simp_all [Value.same, Value.kind]

theorem Value.same_number_iff {n : Number} {w : Value} :
    (Value.number n).same w = true ↔ w = .number n := by
  cases w with
  | number m =>
    rw [Value.same, beq_iff_eq, Value.number.injEq]
    exact eq_comm
  | _ => simp [Value.same]

theorem Value.same_array_iff {vs : List Value} {w : Value} :
    (Value.array vs).same w = true ↔ ∃ ws, w = .array ws ∧ sameElements vs ws = true := by
  cases w <;> simp [Value.same]

theorem Value.same_object_iff {o : Object} {w : Value} :
    (Value.object o).same w = true ↔
      ∃ p, w = .object p ∧ o.length = p.length ∧ sameMembers o p = true := by
  cases w <;> simp [Value.same]

mutual

theorem Value.Distinct.same_self {v : Value} (h : v.Distinct) : v.same v = true := by
  match v with
  | .null => rfl
  | .bool _ | .number _ | .string _ => simp [Value.same]
  | .array vs =>
    exact Value.same_array_iff.2 ⟨vs, rfl, sameElements_self (Value.everywhere_array_iff.1 h)⟩
  | .object o =>
    obtain ⟨hk, hm⟩ := Value.everywhere_object_iff.1 h
    exact Value.same_object_iff.2
      ⟨o, rfl, rfl, sameMembers_of_get? hm fun _ hm => Object.lookup_of_mem hk hm⟩

theorem sameElements_self {vs : List Value} (h : ∀ v ∈ vs, v.Distinct) :
    sameElements vs vs = true := by
  match vs with
  | [] => rfl
  | v :: vs =>
    rw [List.forall_mem_cons] at h
    rw [sameElements, Bool.and_eq_true]
    exact ⟨h.1.same_self, sameElements_self h.2⟩

theorem sameMembers_of_get? {o p : Object} (h : ∀ m ∈ o, m.2.Distinct)
    (hp : ∀ m ∈ o, p.get? m.1 = some m.2) : sameMembers o p = true := by
  match o with
  | [] => rfl
  | (k, v) :: o =>
    rw [List.forall_mem_cons] at h hp
    rw [sameMembers, Bool.and_eq_true, hp.1]
    exact ⟨Value.Distinct.same_self h.1, sameMembers_of_get? h.2 hp.2⟩

end

mutual

theorem Value.same_trans {u v w : Value} (h : u.same v = true) (h' : v.same w = true) :
    u.same w = true := by
  match u with
  | .null | .bool _ | .number _ | .string _ =>
    obtain rfl := Value.eq_of_same (by simp [Value.kind]) (by simp [Value.kind]) h
    exact h'
  | .array us =>
    obtain ⟨vs, rfl, h⟩ := Value.same_array_iff.1 h
    obtain ⟨ws, rfl, h'⟩ := Value.same_array_iff.1 h'
    exact Value.same_array_iff.2 ⟨ws, rfl, sameElements_trans h h'⟩
  | .object o =>
    obtain ⟨p, rfl, hop, h⟩ := Value.same_object_iff.1 h
    obtain ⟨q, rfl, hpq, h'⟩ := Value.same_object_iff.1 h'
    exact Value.same_object_iff.2 ⟨q, rfl, hop.trans hpq, sameMembers_trans h h'⟩

theorem sameElements_trans {us vs ws : List Value} (h : sameElements us vs = true)
    (h' : sameElements vs ws = true) : sameElements us ws = true := by
  match us, vs, ws with
  | [], [], _ => exact h'
  | u :: us, v :: vs, w :: ws =>
    simp only [sameElements, Bool.and_eq_true] at h h' ⊢
    exact ⟨Value.same_trans h.1 h'.1, sameElements_trans h.2 h'.2⟩

theorem sameMembers_trans {o p q : Object} (h : sameMembers o p = true)
    (h' : sameMembers p q = true) : sameMembers o q = true := by
  match o with
  | [] => rfl
  | (k, u) :: o =>
    rw [sameMembers, Bool.and_eq_true] at h ⊢
    refine ⟨?_, sameMembers_trans h.2 h'⟩
    obtain ⟨h, -⟩ := h
    split at h
    · rename_i v hv
      obtain ⟨before, after, rfl, -⟩ := Keyed.exists_append_of_lookup hv
      obtain ⟨w, hw, hvw⟩ := sameMembers_iff.1 h' (k, v) (by simp)
      rw [hw]
      exact Value.same_trans h hvw
    · cases h

end

/-! ## What the comparison finds out -/

theorem Object.get?_append_cons_of_ne {key other : String} (h : other ≠ key) (before : Object)
    (v : Value) (after : Object) :
    Object.get? (before ++ (key, v) :: after) other = Object.get? (before ++ after) other := by
  rw [Object.get?, Object.get?, List.lookup_append, List.lookup_append, List.lookup_cons,
    beq_eq_false_iff_ne.2 h]

mutual

/-- A value that is the same can be reached: each object in it is brought into order member by
member, from the left. -/
theorem Value.Distinct.rearranged {v w : Value} (hv : v.Distinct) (h : v.same w = true) :
    v.Rearranged w := by
  match v with
  | .null | .bool _ | .number _ | .string _ =>
    obtain rfl := Value.eq_of_same (by simp [Value.kind]) (by simp [Value.kind]) h
    exact .refl _
  | .array vs =>
    obtain ⟨ws, rfl, h⟩ := Value.same_array_iff.1 h
    exact rearranged_elements (Value.everywhere_array_iff.1 hv) h []
  | .object o =>
    obtain ⟨p, rfl, hlength, h⟩ := Value.same_object_iff.1 h
    obtain ⟨hk, hm⟩ := Value.everywhere_object_iff.1 hv
    exact rearranged_members hk hm hlength h []

theorem rearranged_elements {vs ws : List Value} (hv : ∀ v ∈ vs, v.Distinct)
    (h : sameElements vs ws = true) (before : List Value) :
    (Value.array (before ++ vs)).Rearranged (.array (before ++ ws)) := by
  match vs, ws with
  | [], [] => exact .refl _
  | v :: vs, w :: ws =>
    rw [List.forall_mem_cons] at hv
    rw [sameElements, Bool.and_eq_true] at h
    have hrest := rearranged_elements hv.2 h.2 (before ++ [w])
    rw [← List.append_cons, ← List.append_cons] at hrest
    exact .trans (.element before vs (hv.1.rearranged h.1)) hrest

theorem rearranged_members {o p : Object} (hk : o.keys.Nodup) (ho : ∀ m ∈ o, m.2.Distinct)
    (hlength : o.length = p.length) (h : sameMembers o p = true) (before : Object) :
    (Value.object (before ++ o)).Rearranged (.object (before ++ p)) := by
  match o with
  | [] =>
    rw [List.length_eq_zero_iff.1 hlength.symm]
    exact .refl _
  | (k, v) :: o =>
    rw [Object.keys, List.map_cons, List.nodup_cons] at hk
    rw [List.forall_mem_cons] at ho
    obtain ⟨⟨w, hw, hvw⟩, hrest⟩ := List.forall_mem_cons.1 (sameMembers_iff.1 h)
    obtain ⟨front, back, rfl, -⟩ := Keyed.exists_append_of_lookup hw
    -- The member that was found is left out; the others are looked up as before.
    have hothers : sameMembers o (front ++ back) = true := by
      refine sameMembers_iff.2 fun m hm => ?_
      have hne : m.1 ≠ k := fun he => hk.1 (List.mem_map.2 ⟨m, hm, he⟩)
      rw [← Object.get?_append_cons_of_ne hne front w back]
      exact hrest m hm
    have hlength' : o.length = (front ++ back).length := by
      simp only [List.length_append, List.length_cons] at hlength ⊢
      omega
    have hmore := rearranged_members hk.2 ho.2 hlength' hothers (before ++ [(k, w)])
    rw [← List.append_cons, ← List.append_cons] at hmore
    have hv : Value.Distinct v := ho.1
    exact .trans (.member before k o (hv.rearranged hvw))
      (hmore.trans (.members (List.perm_middle.symm.append_left before)))

end

theorem Value.Rearranged.same {v w : Value} (h : v.Rearranged w) (hv : v.Distinct) :
    v.same w = true := by
  induction h with
  | refl => exact hv.same_self
  | trans h _ ih ih' => exact Value.same_trans (ih hv) (ih' (h.distinct hv))
  | @members o p hp =>
    obtain ⟨hk, hm⟩ := everywhere_object_iff.1 hv
    have hk' : p.keys.Nodup := (hp.map Prod.fst).nodup_iff.1 hk
    exact same_object_iff.2 ⟨p, rfl, hp.length_eq,
      sameMembers_of_get? hm fun m hm' => Object.lookup_of_mem hk' (hp.mem_iff.1 hm')⟩
  | @element v w before after _ ih =>
    have hall := everywhere_array_iff.1 hv
    rw [List.forall_mem_append, List.forall_mem_cons] at hall
    refine same_array_iff.2 ⟨_, rfl, sameElements_iff.2 (List.rel_append ?_ (.cons ?_ ?_))⟩
    · exact sameElements_iff.1 (sameElements_self hall.1)
    · exact ih hall.2.1
    · exact sameElements_iff.1 (sameElements_self hall.2.2)
  | @member v w before key after _ ih =>
    obtain ⟨hk, hall⟩ := everywhere_object_iff.1 hv
    have hk' : (Object.keys (before ++ (key, w) :: after)).Nodup := by
      simpa [Object.keys] using hk
    have hself (m : String × Value) (hm : m ∈ before ++ (key, v) :: after)
        (hm' : m ∈ before ++ (key, w) :: after) :
        ∃ u, Object.get? (before ++ (key, w) :: after) m.1 = some u ∧ m.2.same u = true :=
      ⟨m.2, Object.lookup_of_mem hk' hm', Distinct.same_self (hall m hm)⟩
    refine same_object_iff.2 ⟨_, rfl, by simp, sameMembers_iff.2 fun m hm => ?_⟩
    rcases List.mem_append.1 hm with hb | hb
    · exact hself m hm (List.mem_append_left _ hb)
    rcases List.mem_cons.1 hb with rfl | ha
    · exact ⟨w, Object.lookup_of_mem hk' (m := (key, w)) (by simp), ih (hall _ hm)⟩
    · exact hself m hm (List.mem_append_right _ (List.mem_cons_of_mem _ ha))

/-- The comparison finds out whether one value is the other with members exchanged. -/
theorem Value.same_iff_rearranged {v w : Value} (hv : v.Distinct) :
    v.same w = true ↔ v.Rearranged w :=
  ⟨hv.rearranged, fun h => h.same hv⟩

/-! ## Values at the same address -/

theorem Value.child?_of_same {v w c : Value} {s : Step} (h : v.same w = true)
    (hc : v.child? s = some c) : ∃ d, w.child? s = some d ∧ c.same d = true := by
  cases v with
  | array vs =>
    obtain ⟨ws, rfl, h⟩ := same_array_iff.1 h
    cases s with
    | index i =>
      obtain ⟨hi, rfl⟩ := List.getElem?_eq_some_iff.1 hc
      have hall := sameElements_iff.1 h
      have hi' : i < ws.length := hall.length_eq ▸ hi
      exact ⟨ws[i], List.getElem?_eq_getElem hi', hall.get hi hi'⟩
    | key => contradiction
  | object o =>
    obtain ⟨p, rfl, -, h⟩ := same_object_iff.1 h
    cases s with
    | key k =>
      obtain ⟨before, after, rfl, -⟩ := Keyed.exists_append_of_lookup hc
      exact sameMembers_iff.1 h (k, c) (by simp)
    | index => contradiction
  | _ => contradiction

/-- Values that are the same have values that are the same at the same addresses. -/
theorem Value.at?_of_same {v w c : Value} {p : List Step} (h : v.same w = true)
    (hc : v.at? p = some c) : ∃ d, w.at? p = some d ∧ c.same d = true := by
  induction p generalizing v w with
  | nil => exact ⟨w, rfl, Option.some.inj hc ▸ h⟩
  | cons s p ih =>
    obtain ⟨c', hc', hc⟩ := at?_cons_eq_some_iff.1 hc
    obtain ⟨d', hd', hsame⟩ := child?_of_same h hc'
    obtain ⟨d, hd, hsame⟩ := ih hsame hc
    exact ⟨d, at?_cons_eq_some_iff.2 ⟨d', hd', hd⟩, hsame⟩

/-! ## Objects key by key -/

namespace Object

theorem mem_of_get? {o : Object} {key : String} {v : Value} (h : o.get? key = some v) :
    (key, v) ∈ o := by
  obtain ⟨before, after, rfl, -⟩ := Keyed.exists_append_of_lookup h
  simp

theorem mem_keys_of_get? {o : Object} {key : String} {v : Value} (h : o.get? key = some v) :
    key ∈ o.keys :=
  List.mem_map.2 ⟨(key, v), mem_of_get? h, rfl⟩

theorem mem_keys_iff_of_rel {R : Value → Value → Prop} {o p : Object} {key : String}
    (h : Option.Rel R (o.get? key) (p.get? key)) : key ∈ o.keys ↔ key ∈ p.keys := by
  rw [← not_iff_not, ← get?_eq_none_iff, ← get?_eq_none_iff]
  generalize o.get? key = v at h
  generalize p.get? key = w at h
  cases h <;> simp

/-- Two objects with unique keys are the same if each key has the same value in both, or none. The
keys of the one are found in the other; as there are as many of them, no others are there. -/
theorem same_iff {o p : Object} (ho : o.keys.Nodup) (hp : p.keys.Nodup) :
    o.same p = true ↔ ∀ key, Option.Rel (fun v w => v.same w = true) (o.get? key) (p.get? key) := by
  rw [Object.same, Value.same, Bool.and_eq_true, beq_iff_eq, sameMembers_iff]
  constructor
  · rintro ⟨hlength, h⟩ key
    have hsub : o.keys ⊆ p.keys := by
      intro k hk
      obtain ⟨m, hm, rfl⟩ := List.mem_map.1 hk
      obtain ⟨w, hw, -⟩ := h m hm
      exact mem_keys_of_get? hw
    have hperm : o.keys.Perm p.keys :=
      (List.subperm_of_subset ho hsub).perm_of_length_le (by simp [keys, hlength])
    cases hv : o.get? key with
    | none =>
      rw [get?_eq_none_iff.2 fun hk => get?_eq_none_iff.1 hv (hperm.mem_iff.2 hk)]
      exact .none
    | some v =>
      obtain ⟨w, hw, hvw⟩ := h (key, v) (mem_of_get? hv)
      rw [show p.get? key = some w from hw]
      exact .some hvw
  · intro h
    have hkeys (key : String) := mem_keys_iff_of_rel (h key)
    have hlength := ((List.perm_ext_iff_of_nodup ho hp).2 hkeys).length_eq
    refine ⟨by simpa [keys] using hlength, fun m hm => ?_⟩
    have hrel := h m.1
    rw [show o.get? m.1 = some m.2 from lookup_of_mem ho hm] at hrel
    generalize hb : p.get? m.1 = b at hrel
    cases hrel with
    | some hvw => exact ⟨_, rfl, hvw⟩

/-- Objects that are the same are laid over each other with the same result, in whatever order they
have their members. -/
theorem same_overlay {t t' s s' : Object} (ht : t.keys.Nodup) (ht' : t'.keys.Nodup)
    (hs : s.keys.Nodup) (hs' : s'.keys.Nodup) (h : t.same t' = true) (h' : s.same s' = true) :
    (t.overlay s).same (t'.overlay s') = true := by
  rw [same_iff (nodup_keys_overlay ht s) (nodup_keys_overlay ht' s')]
  intro key
  have hrel := (same_iff hs hs').1 h' key
  have hkeys := mem_keys_iff_of_rel hrel
  by_cases hk : key ∈ s.keys
  · rwa [get?_overlay_of_mem_keys hs hk, get?_overlay_of_mem_keys hs' (hkeys.1 hk)]
  · rw [get?_overlay_of_not_mem hk, get?_overlay_of_not_mem fun hk' => hk (hkeys.2 hk')]
    exact (same_iff ht ht').1 h key

end Object

end SettingsOverlay.Json
