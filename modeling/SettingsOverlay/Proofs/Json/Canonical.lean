import SettingsOverlay.Proofs.Json.Completeness
import SettingsOverlay.Proofs.Json.Objects

/-!
# Canonical values

The invariant of every value that a reader hands out: each object has its keys once, and none of
them stands for a number. Such a value is the reading of its own tree, so that a text of it is read
back as it is.

* `Value.reading?_spec`: what is read is canonical, and nests no deeper than the text;
* `Value.Canonical.reading?_self`: a canonical value is read as itself;
* `Value.Canonical.overlay`, `depth_overlay_le`: overlaying keeps the invariant and the depth;
* `Value.exists_of_reading?_object` and its like: what a value of some kind is read from;
* `Value.Unmarked.reading?_eq_denoted`: without `numberKey` a tree is read as what it denotes;
* `Value.Text.unmarked`: a text without dollar signs and backslashes has such a tree.
-/

namespace SettingsOverlay.Json

/-! ## All the objects of a value -/

theorem Value.everywhere_array_iff {P : Object → Prop} {vs : List Value} :
    (Value.array vs).Everywhere P ↔ ∀ v ∈ vs, v.Everywhere P :=
  ⟨fun | .array h => h, .array⟩

theorem Value.everywhere_object_iff {P : Object → Prop} {ms : List (String × Value)} :
    (Value.object ms).Everywhere P ↔ P ms ∧ ∀ m ∈ ms, m.2.Everywhere P :=
  ⟨fun | .object h hs => ⟨h, hs⟩, fun h => .object h.1 h.2⟩

mutual

/-- A property of all the objects in a value is decided object by object. -/
def Value.decidableEverywhere (P : Object → Prop) [DecidablePred P] :
    (v : Value) → Decidable (v.Everywhere P)
  | .null => .isTrue .null
  | .bool _ => .isTrue .bool
  | .number _ => .isTrue .number
  | .string _ => .isTrue .string
  | .array vs =>
    have := decidableElements P vs
    decidable_of_iff _ Value.everywhere_array_iff.symm
  | .object ms =>
    have := decidableMembers P ms
    decidable_of_iff (P ms ∧ ∀ m ∈ ms, m.2.Everywhere P) Value.everywhere_object_iff.symm

def decidableElements (P : Object → Prop) [DecidablePred P] :
    (vs : List Value) → Decidable (∀ v ∈ vs, v.Everywhere P)
  | [] => .isTrue nofun
  | v :: vs =>
    have := v.decidableEverywhere P
    have := decidableElements P vs
    decidable_of_iff (v.Everywhere P ∧ ∀ w ∈ vs, w.Everywhere P) List.forall_mem_cons.symm

def decidableMembers (P : Object → Prop) [DecidablePred P] :
    (ms : List (String × Value)) → Decidable (∀ m ∈ ms, m.2.Everywhere P)
  | [] => .isTrue nofun
  | (k, v) :: ms =>
    have := v.decidableEverywhere P
    have := decidableMembers P ms
    decidable_of_iff (v.Everywhere P ∧ ∀ m ∈ ms, m.2.Everywhere P)
      (List.forall_mem_cons (a := (k, v)) (p := fun m => m.2.Everywhere P)).symm

end

instance (P : Object → Prop) [DecidablePred P] (v : Value) : Decidable (v.Everywhere P) :=
  v.decidableEverywhere P

theorem membersDepth_le_iff {ms : List (String × Value)} {n : Nat} :
    membersDepth ms ≤ n ↔ ∀ m ∈ ms, m.2.depth ≤ n := by
  induction ms with
  | nil => simp [membersDepth]
  | cons m ms ih =>
    obtain ⟨k, v⟩ := m
    rw [membersDepth, Nat.max_le, ih, List.forall_mem_cons]

/-! ## The invariant -/

/-- Keys are unique in every object, and no object begins with the key of a number. -/
def Value.Canonical (v : Value) : Prop :=
  v.Everywhere fun o => o.keys.Nodup ∧ ¬ StartsWithNumberKey o

instance (v : Value) : Decidable v.Canonical := inferInstanceAs (Decidable (v.Everywhere _))

theorem startsWithNumberKey_ofMembers {ms : List (String × Value)} :
    StartsWithNumberKey (Object.ofMembers ms) ↔ StartsWithNumberKey ms := by
  rw [StartsWithNumberKey, Object.ofMembers, Object.head?_keys_overlay]
  rfl

theorem Value.Canonical.ofMembers {ms : List (String × Value)} (hn : ¬ StartsWithNumberKey ms)
    (h : ∀ m ∈ ms, m.2.Canonical) : (Value.object (Object.ofMembers ms)).Canonical := by
  refine .object ⟨?_, fun hs => hn (startsWithNumberKey_ofMembers.1 hs)⟩ fun m hm => ?_
  · exact Object.nodup_keys_overlay (by simp [Object.keys]) ms
  · exact h m ((Object.mem_of_mem_overlay hm).resolve_left List.not_mem_nil)

theorem depth_ofMembers_le {ms : List (String × Value)} {n : Nat} (h : membersDepth ms ≤ n) :
    membersDepth (Object.ofMembers ms) ≤ n := by
  rw [membersDepth_le_iff] at h ⊢
  exact fun m hm => h m ((Object.mem_of_mem_overlay hm).resolve_left List.not_mem_nil)

theorem keys_of_readingMembers? {ms ns : List (String × Value)} (h : readingMembers? ms = some ns) :
    Object.keys ns = Object.keys ms := by
  induction ms generalizing ns with
  | nil => rw [← Option.some.inj h]
  | cons m ms ih =>
    obtain ⟨w, ns, -, hns, rfl⟩ := readingMembers?_cons.1 h
    exact congrArg (m.1 :: ·) (ih hns)

mutual

/-- What a tree is read as is canonical and no deeper than the tree. -/
theorem Value.reading?_spec {v w : Value} (h : v.reading? = some w) :
    w.Canonical ∧ w.depth ≤ v.depth := by
  match v with
  | .null =>
    obtain rfl := Option.some.inj h
    exact ⟨.null, Nat.le_refl _⟩
  | .bool b =>
    obtain rfl := Option.some.inj h
    exact ⟨.bool, Nat.le_refl _⟩
  | .number n =>
    obtain rfl := Option.some.inj h
    exact ⟨.number, Nat.le_refl _⟩
  | .string s =>
    obtain rfl := Option.some.inj h
    exact ⟨.string, Nat.le_refl _⟩
  | .array vs =>
    obtain ⟨ws, hws, rfl⟩ := Option.map_eq_some_iff.1 h
    obtain ⟨hc, hd⟩ := readingElements?_spec hws
    exact ⟨.array hc, Nat.succ_le_succ hd⟩
  | .object ms =>
    rw [Value.reading?] at h
    split at h
    · obtain ⟨n, -, rfl⟩ := Option.map_eq_some_iff.1 h
      exact ⟨.number, Nat.zero_le _⟩
    · rename_i hn
      obtain ⟨ns, hns, rfl⟩ := Option.map_eq_some_iff.1 h
      obtain ⟨hc, hd⟩ := readingMembers?_spec hns
      have hn' : ¬ StartsWithNumberKey ns := by
        rwa [StartsWithNumberKey, keys_of_readingMembers? hns]
      exact ⟨.ofMembers hn' hc, Nat.succ_le_succ (depth_ofMembers_le hd)⟩

theorem readingElements?_spec {vs ws : List Value} (h : readingElements? vs = some ws) :
    (∀ w ∈ ws, w.Canonical) ∧ elementsDepth ws ≤ elementsDepth vs := by
  match vs with
  | [] =>
    obtain rfl := Option.some.inj h
    exact ⟨nofun, Nat.le_refl _⟩
  | v :: vs =>
    obtain ⟨w, ws, hv, hvs, rfl⟩ := readingElements?_cons.1 h
    obtain ⟨hc, hd⟩ := Value.reading?_spec hv
    obtain ⟨hcs, hds⟩ := readingElements?_spec hvs
    exact ⟨List.forall_mem_cons.2 ⟨hc, hcs⟩, by simp only [elementsDepth]; omega⟩

theorem readingMembers?_spec {ms ns : List (String × Value)} (h : readingMembers? ms = some ns) :
    (∀ m ∈ ns, m.2.Canonical) ∧ membersDepth ns ≤ membersDepth ms := by
  match ms with
  | [] =>
    obtain rfl := Option.some.inj h
    exact ⟨nofun, Nat.le_refl _⟩
  | (k, v) :: ms =>
    obtain ⟨w, ns, hv, hms, rfl⟩ := readingMembers?_cons.1 h
    obtain ⟨hc, hd⟩ := Value.reading?_spec hv
    obtain ⟨hcs, hds⟩ := readingMembers?_spec hms
    exact ⟨List.forall_mem_cons.2 ⟨hc, hcs⟩, by simp only [membersDepth]; omega⟩

end

mutual

/-- A canonical value is read as itself. -/
theorem Value.Canonical.reading?_self {v : Value} (h : v.Canonical) : v.reading? = some v := by
  match v with
  | .null | .bool _ | .number _ | .string _ => rfl
  | .array vs =>
    rw [Value.reading?, readingElements?_self (Value.everywhere_array_iff.1 h)]
    rfl
  | .object ms =>
    obtain ⟨⟨hk, hn⟩, hms⟩ := Value.everywhere_object_iff.1 h
    rw [Value.reading?, if_neg hn, readingMembers?_self hms, Option.map_some,
      Object.ofMembers_of_nodup hk]

theorem readingElements?_self {vs : List Value} (h : ∀ v ∈ vs, v.Canonical) :
    readingElements? vs = some vs := by
  match vs with
  | [] => rfl
  | v :: vs =>
    rw [List.forall_mem_cons] at h
    exact readingElements?_cons.2 ⟨v, vs, h.1.reading?_self, readingElements?_self h.2, rfl⟩

theorem readingMembers?_self {ms : List (String × Value)} (h : ∀ m ∈ ms, m.2.Canonical) :
    readingMembers? ms = some ms := by
  match ms with
  | [] => rfl
  | (k, v) :: ms =>
    rw [List.forall_mem_cons] at h
    have hv : v.Canonical := h.1
    exact readingMembers?_cons.2 ⟨v, ms, hv.reading?_self, readingMembers?_self h.2, rfl⟩

end

/-- One canonical object laid over another is canonical: its first key is the first of one of
the two. -/
theorem Value.Canonical.overlay {t s : Object} (ht : (Value.object t).Canonical)
    (hs : (Value.object s).Canonical) : (Value.object (t.overlay s)).Canonical := by
  obtain ⟨⟨hkt, hnt⟩, hmt⟩ := Value.everywhere_object_iff.1 ht
  obtain ⟨⟨-, hns⟩, hms⟩ := Value.everywhere_object_iff.1 hs
  refine .object ⟨Object.nodup_keys_overlay hkt s, ?_⟩ fun m hm => ?_
  · rw [StartsWithNumberKey, Object.head?_keys_overlay, Option.or_eq_some_iff]
    rintro (h | ⟨-, h⟩)
    · exact hnt h
    · exact hns h
  · exact (Object.mem_of_mem_overlay hm).elim (hmt m) (hms m)

theorem Value.depth_overlay_le {t s : Object} {n : Nat} (ht : (Value.object t).depth ≤ n)
    (hs : (Value.object s).depth ≤ n) : (Value.object (t.overlay s)).depth ≤ n := by
  match n with
  | n + 1 =>
    rw [Value.depth, Nat.add_le_add_iff_right, membersDepth_le_iff] at ht hs ⊢
    exact fun m hm => (Object.mem_of_mem_overlay hm).elim (ht m) (hs m)

/-! ## What a value is read from -/

theorem Value.exists_of_reading?_array {v : Value} {ws : List Value}
    (h : v.reading? = some (.array ws)) : ∃ vs, v = .array vs ∧ readingElements? vs = some ws := by
  cases v with
  | array vs =>
    obtain ⟨ws', hvs, hw⟩ := Option.map_eq_some_iff.1 h
    exact ⟨vs, rfl, Value.array.inj hw ▸ hvs⟩
  | object ms =>
    rw [Value.reading?] at h
    split at h
    · obtain ⟨n, -, hw⟩ := Option.map_eq_some_iff.1 h
      cases hw
    · obtain ⟨ns, -, hw⟩ := Option.map_eq_some_iff.1 h
      cases hw
  | _ => cases Option.some.inj h

theorem Value.exists_of_reading?_object {v : Value} {o : Object}
    (h : v.reading? = some (.object o)) :
    ∃ ms ns, v = .object ms ∧ ¬ StartsWithNumberKey ms ∧ readingMembers? ms = some ns ∧
      o = Object.ofMembers ns := by
  cases v with
  | array vs =>
    obtain ⟨ws, -, hw⟩ := Option.map_eq_some_iff.1 h
    cases hw
  | object ms =>
    rw [Value.reading?] at h
    split at h
    · obtain ⟨n, -, hw⟩ := Option.map_eq_some_iff.1 h
      cases hw
    · rename_i hkey
      obtain ⟨ns, hns, hw⟩ := Option.map_eq_some_iff.1 h
      exact ⟨ms, ns, rfl, hkey, hns, (Value.object.inj hw).symm⟩
  | _ => cases Option.some.inj h

/-- A number is read from a number, or from an object that stands for it: that has one member, and
the value of this is a string. -/
theorem Value.eq_or_of_reading?_number {v : Value} {n : Number}
    (h : v.reading? = some (.number n)) :
    v = .number n ∨ ∃ s, v = .object [(numberKey, .string s)] ∧ Number.ofString s = .ok n := by
  cases v with
  | number n' => exact .inl (Option.some.inj h)
  | array vs =>
    obtain ⟨ws, -, hw⟩ := Option.map_eq_some_iff.1 h
    cases hw
  | object ms =>
    rw [Value.reading?] at h
    split at h
    · rename_i hkey
      obtain ⟨n', hn', hw⟩ := Option.map_eq_some_iff.1 h
      obtain rfl := Value.number.inj hw
      have hwrapped := hn'
      rw [wrappedNumber?.eq_def] at hn'
      split at hn'
      · rename_i k s
        obtain rfl := startsWithNumberKey_cons.1 hkey
        exact .inr ⟨s, rfl, wrappedNumber?_string.1 hwrapped⟩
      · cases hn'
    · obtain ⟨ns, -, hw⟩ := Option.map_eq_some_iff.1 h
      cases hw
  | _ => cases Option.some.inj h

/-! ## Trees without the key of a number -/

mutual

theorem Value.Unmarked.reading?_eq_denoted {v : Value} (h : v.Unmarked) :
    v.reading? = some v.denoted := by
  match v with
  | .null | .bool _ | .number _ | .string _ => rfl
  | .array vs =>
    rw [Value.reading?, readingElements?_eq_denoted (Value.everywhere_array_iff.1 h)]
    rfl
  | .object ms =>
    obtain ⟨hn, hms⟩ := Value.everywhere_object_iff.1 h
    rw [Value.reading?, if_neg hn, readingMembers?_eq_denoted hms]
    rfl

theorem readingElements?_eq_denoted {vs : List Value} (h : ∀ v ∈ vs, v.Unmarked) :
    readingElements? vs = some (denotedElements vs) := by
  match vs with
  | [] => rfl
  | v :: vs =>
    rw [List.forall_mem_cons] at h
    exact readingElements?_cons.2
      ⟨v.denoted, _, h.1.reading?_eq_denoted, readingElements?_eq_denoted h.2, rfl⟩

theorem readingMembers?_eq_denoted {ms : List (String × Value)} (h : ∀ m ∈ ms, m.2.Unmarked) :
    readingMembers? ms = some (denotedMembers ms) := by
  match ms with
  | [] => rfl
  | (k, v) :: ms =>
    rw [List.forall_mem_cons] at h
    have hv : v.Unmarked := h.1
    exact readingMembers?_cons.2
      ⟨v.denoted, _, hv.reading?_eq_denoted, readingMembers?_eq_denoted h.2, rfl⟩

end

/-- Bytes without dollar signs and backslashes, one of which `numberKey` takes to spell. -/
def Keyless (bs : Bytes) : Prop := ∀ b ∈ bs, b ≠ '$'.toUInt8 ∧ b ≠ '\\'.toUInt8

instance (bs : Bytes) : Decidable (Keyless bs) :=
  List.decidableBAll (fun b => b ≠ '$'.toUInt8 ∧ b ≠ '\\'.toUInt8) bs

theorem Keyless.append {bs bs' : Bytes} (h : Keyless (bs ++ bs')) : Keyless bs ∧ Keyless bs' :=
  List.forall_mem_append.1 h

theorem Keyless.of_cons {b : UInt8} {bs : Bytes} (h : Keyless (b :: bs)) : Keyless bs :=
  (List.forall_mem_cons.1 h).2

theorem Keyless.not_mem_items {cs : List Char} {bs : Bytes} (h : Keyless bs)
    (hi : Quoted.Items cs bs) : '$' ∉ cs := by
  induction hi with
  | nil => exact List.not_mem_nil
  | cons hc _ ih =>
    rw [List.mem_cons, not_or]
    refine ⟨?_, ih h.append.2⟩
    rintro rfl
    cases hc with
    | plain => exact (h _ (List.mem_append_left _ (by decide))).1 rfl
    | escape => exact (h _ List.mem_cons_self).2 rfl

theorem Keyless.key_ne {k : String} {ks : Bytes} (h : Keyless ks) (hk : Quoted.Spelling k ks) :
    k ≠ numberKey := by
  obtain ⟨hi⟩ := hk
  rintro rfl
  exact h.of_cons.append.1.not_mem_items hi (by decide)

mutual

theorem Value.Spelling.unmarked {v : Value} {bs : Bytes} (h : v.Spelling bs) (hk : Keyless bs) :
    v.Unmarked := by
  match h with
  | .nullWord => exact .null
  | .trueWord | .falseWord => exact .bool
  | .number _ => exact .number
  | .string _ => exact .string
  | .emptyArray _ => exact .array nofun
  | .array hv ht =>
    obtain ⟨hk, -⟩ := hk.of_cons.append
    obtain ⟨hk, hk'⟩ := hk.append
    exact .array (List.forall_mem_cons.2 ⟨hv.unmarked hk, ht.unmarked hk'⟩)
  | .emptyObject _ => exact .object nofun nofun
  | .object hm ht =>
    obtain ⟨hk, -⟩ := hk.of_cons.append
    obtain ⟨hk, hk'⟩ := hk.append
    obtain ⟨hn, hv⟩ := hm.unmarked hk
    exact .object (fun hs => hn (startsWithNumberKey_cons.1 hs))
      (List.forall_mem_cons.2 ⟨hv, ht.unmarked hk'⟩)

/-- A text in which the key cannot be spelled has a tree without it. -/
theorem Value.Text.unmarked {v : Value} {bs : Bytes} (h : v.Text bs) (hk : Keyless bs) :
    v.Unmarked := by
  match h with
  | .mk _ hv _ => exact hv.unmarked hk.append.1.append.2

theorem ElementsTail.unmarked {vs : List Value} {bs : Bytes} (h : ElementsTail vs bs)
    (hk : Keyless bs) : ∀ v ∈ vs, v.Unmarked := by
  match h with
  | .nil => exact nofun
  | .cons hv ht =>
    obtain ⟨hk, hk'⟩ := hk.of_cons.append
    exact List.forall_mem_cons.2 ⟨hv.unmarked hk, ht.unmarked hk'⟩

theorem MemberText.unmarked {k : String} {v : Value} {bs : Bytes} (h : MemberText k v bs)
    (hk : Keyless bs) : k ≠ numberKey ∧ v.Unmarked := by
  match h with
  | .mk _ hks _ hv =>
    obtain ⟨hk, hk'⟩ := hk.append
    exact ⟨hk.append.1.append.2.key_ne hks, hv.unmarked hk'.of_cons⟩

theorem MembersTail.unmarked {ms : List (String × Value)} {bs : Bytes} (h : MembersTail ms bs)
    (hk : Keyless bs) : ∀ m ∈ ms, m.2.Unmarked := by
  match h with
  | .nil => exact nofun
  | .cons hm ht =>
    obtain ⟨hk, hk'⟩ := hk.of_cons.append
    exact List.forall_mem_cons.2 ⟨(hm.unmarked hk).2, ht.unmarked hk'⟩

end

end SettingsOverlay.Json
