import SettingsOverlay.Proofs.Document
import SettingsOverlay.Proofs.Json.Uniqueness

/-!
# Texts joined at a comma

Two objects can be merged in their texts: the members of the second are written behind those of the
first. What is read of a member does not depend on where in the text it stands, and members that are
inserted one by one come to the same as two objects of which one is laid over the other.

* `MembersText`: the members between the braces of an object;
* `Value.Text.membersText`: what stands between the braces of a text;
* `Object.ofMembers_append`: the object of members behind each other;
* `Loaded.ofBytes_join`: the object of two texts that are joined.
-/

namespace SettingsOverlay

namespace Json

/-! ## Between the braces -/

/-- Bytes between braces. -/
def braced (bs : Bytes) : Bytes := '{'.toUInt8 :: (bs ++ ['}'.toUInt8])

/-- The members of an object: a first one, and the others behind a comma each. -/
inductive MembersText : List (String × Value) → Bytes → Prop where
  | mk {k : String} {v : Value} {ms : List (String × Value)} {bs bs' : Bytes} :
      MemberText k v bs → MembersTail ms bs' → MembersText ((k, v) :: ms) (bs ++ bs')

theorem MembersText.text {ms : List (String × Value)} {bs : Bytes} (h : MembersText ms bs) :
    (Value.object ms).Text (braced bs) := by
  obtain ⟨hm, ht⟩ := h
  have htext := Value.Text.mk space_nil (Value.Spelling.object hm ht) space_nil
  rwa [List.nil_append, List.append_nil] at htext

theorem MembersTail.append {ms ns : List (String × Value)} {bs cs : Bytes}
    (h : MembersTail ms bs) (h' : MembersTail ns cs) : MembersTail (ms ++ ns) (bs ++ cs) := by
  induction ms generalizing bs with
  | nil =>
    cases h
    exact h'
  | cons m ms ih =>
    cases h with
    | cons hm ht =>
      rw [List.cons_append, List.cons_append, List.append_assoc]
      exact .cons hm (ih ht)

/-- Members can be written behind other ones, with a comma between them. -/
theorem MembersText.append {ms ns : List (String × Value)} {bs cs : Bytes}
    (h : MembersText ms bs) (h' : MembersText ns cs) :
    MembersText (ms ++ ns) (bs ++ ','.toUInt8 :: cs) := by
  obtain ⟨hm, ht⟩ := h
  obtain ⟨hm', ht'⟩ := h'
  rw [List.append_assoc]
  exact .mk hm (ht.append (.cons hm' ht'))

/-- A byte that is no white space and opens a text belongs to its value. -/
theorem Space.eq_nil_of_append {b : UInt8} {gap bs rest : Bytes} (hg : Space gap)
    (hb : isBlank b = false) (h : b :: rest = gap ++ bs) : gap = [] := by
  cases gap with
  | nil => rfl
  | cons c gap =>
    obtain ⟨rfl, -⟩ := List.cons.inj h
    rw [isBlank_iff.2 (hg b List.mem_cons_self)] at hb
    contradiction

/-- A text between braces is that of an object, and has its members between them. -/
theorem Value.Text.membersText {v : Value} {bs : Bytes} (h : v.Text (braced bs)) :
    v = .object [] ∨ ∃ ms, v = .object ms ∧ MembersText ms bs := by
  generalize ht : braced bs = text at h
  obtain ⟨hbefore, hv, hafter⟩ := h
  rename_i before core after
  rw [braced, List.append_assoc] at ht
  obtain rfl : before = [] := hbefore.eq_nil_of_append (by decide) ht
  rw [List.nil_append] at ht
  -- The closing brace is the last byte, so no white space follows the value.
  have hclose : '}'.toUInt8 :: ('{'.toUInt8 :: bs).reverse = after.reverse ++ core.reverse := by
    have hrev := congrArg List.reverse ht
    simpa using hrev
  have hspace : Space after.reverse := fun b hb => hafter b (List.mem_reverse.1 hb)
  obtain rfl : after = [] := List.reverse_eq_nil_iff.1 (hspace.eq_nil_of_append (by decide) hclose)
  rw [List.append_nil] at ht
  subst ht
  have hkind : Kind.object = v.kind := by
    obtain ⟨b, rest, hb, hk⟩ := hv.exists_kind
    obtain ⟨rfl, -⟩ := List.cons.inj hb
    exact hk
  generalize ht : '{'.toUInt8 :: (bs ++ ['}'.toUInt8]) = text at hv
  cases hv with
  | emptyObject => exact .inl rfl
  | object hm htail =>
    have hbs := List.append_cancel_right (List.cons.inj ht).2
    exact .inr ⟨_, rfl, hbs ▸ .mk hm htail⟩
  | _ => cases hkind

/-! ## What joined members are read as -/

theorem readingMembers?_append {ms ns ms' ns' : List (String × Value)}
    (h : readingMembers? ms = some ns) (h' : readingMembers? ms' = some ns') :
    readingMembers? (ms ++ ms') = some (ns ++ ns') := by
  induction ms generalizing ns with
  | nil =>
    obtain rfl := Option.some.inj h
    exact h'
  | cons m ms ih =>
    obtain ⟨w, ns, hv, hms, rfl⟩ := readingMembers?_cons.1 h
    exact readingMembers?_cons.2 ⟨w, ns ++ ns', hv, ih hms, rfl⟩

theorem depth_append_le {ms ns : List (String × Value)} {n : Nat}
    (h : (Value.object ms).depth ≤ n) (h' : (Value.object ns).depth ≤ n) :
    (Value.object (ms ++ ns)).depth ≤ n := by
  match n with
  | n + 1 =>
    rw [Value.depth, Nat.add_le_add_iff_right, membersDepth_le_iff] at h h' ⊢
    exact fun m hm => (List.mem_append.1 hm).elim (h m) (h' m)

/-- Members behind each other make one object, which is that of the second ones laid over that of
the first. -/
theorem Object.ofMembers_append (ms ns : List (String × Value)) :
    ofMembers (ms ++ ns) = (ofMembers ms).overlay (ofMembers ns) := by
  have hnil : keys [] = [] := rfl
  have hassoc := overlay_assoc (ofMembers ms) (a := []) (by rw [hnil]; exact List.nodup_nil) ns
  calc ofMembers (ms ++ ns) = (ofMembers ms).overlay ns := List.foldl_append
    _ = (ofMembers ms).overlay (ofMembers ns) := hassoc.symm

end Json

open Json

namespace Loaded

theorem ofBytes_eq_found_iff {bs : Bytes} {o : Object} :
    ofBytes bs = found o ↔ Value.ofText bs = .ok (.object o) := by
  constructor
  · intro h
    rw [ofBytes] at h
    split at h
    · rename_i hv
      rw [hv, found.inj h]
    · contradiction
    · contradiction
  · exact ofBytes_of_ofText

/-- Members between braces that are read as an object make up that object. -/
theorem exists_membersText {bs : Bytes} {o : Object} (h : ofBytes (braced bs) = found o)
    (hne : o ≠ []) :
    ∃ ms ns, MembersText ms bs ∧ (Value.object ms).depth ≤ maxDepth ∧ ¬ StartsWithNumberKey ms ∧
      readingMembers? ms = some ns ∧ o = Object.ofMembers ns := by
  obtain ⟨v, ht, hd, hw⟩ := Value.ofText_eq_ok_iff.1 (ofBytes_eq_found_iff.1 h)
  obtain ⟨ms, ns, rfl, hkey, hns, ho⟩ := Value.exists_of_reading?_object hw
  rcases ht.membersText with hms | ⟨ms', hms, htext⟩
  · obtain rfl := Value.object.inj hms
    obtain rfl := Option.some.inj hns
    exact absurd ho hne
  · obtain rfl := Value.object.inj hms
    exact ⟨ms, ns, htext, hd, hkey, hns, ho⟩

/-- Two texts of objects that are not empty can be joined at a comma, and are then read as the
second object laid over the first. -/
theorem ofBytes_join {x y : Bytes} {a b : Object} (ha : ofBytes (braced x) = found a)
    (hb : ofBytes (braced y) = found b) (hane : a ≠ []) (hbne : b ≠ []) :
    ofBytes (braced (x ++ ','.toUInt8 :: y)) = found (a.overlay b) := by
  obtain ⟨ms, ns, hms, hd, hkey, hns, rfl⟩ := exists_membersText ha hane
  obtain ⟨ms', ns', hms', hd', -, hns', rfl⟩ := exists_membersText hb hbne
  have hfirst : ¬ StartsWithNumberKey (ms ++ ms') := by
    obtain ⟨-, -⟩ := hms
    exact fun h => hkey (startsWithNumberKey_cons.2 (startsWithNumberKey_cons.1 h))
  rw [ofBytes_eq_found_iff, Value.ofText_eq_ok_iff]
  refine ⟨_, (hms.append hms').text, depth_append_le hd hd', ?_⟩
  rw [Value.reading?, if_neg hfirst, readingMembers?_append hns hns', Option.map_some,
    Object.ofMembers_append]

/-- Of a key that both texts have, the first one gives the place and the second one the value. -/
theorem ofBytes_join_repeated :
    ∃ x y, ofBytes (braced x) = found [("z", .null), ("a", .bool true)] ∧
      ofBytes (braced y) = found [("m", .null), ("z", .bool false)] ∧
      ofBytes (braced (x ++ ','.toUInt8 :: y)) =
        found [("z", .bool false), ("a", .bool true), ("m", .null)] := by
  have read (o : Object) (ho : o.Storable) (bs : Bytes)
      (hbs : Utf8.encode ((Value.object o).chars 0) = braced bs) :
      ofBytes (braced bs) = found o := by
    have ht := Value.Text.mk space_nil ((Value.object o).spelling_chars 0) space_nil
    rw [List.nil_append, List.append_nil, hbs] at ht
    exact ofBytes_of_ofText (ht.ofText ho.2 ho.1.reading?_self)
  have ha := read [("z", .null), ("a", .bool true)]
    ⟨.object (by decide) (List.forall_mem_cons.2 ⟨.null, List.forall_mem_singleton.2 .bool⟩),
      by decide⟩
    (Utf8.encode "\n    \"z\": null,\n    \"a\": true\n".toList) (by decide)
  have hb := read [("m", .null), ("z", .bool false)]
    ⟨.object (by decide) (List.forall_mem_cons.2 ⟨.null, List.forall_mem_singleton.2 .bool⟩),
      by decide⟩
    (Utf8.encode "\n    \"m\": null,\n    \"z\": false\n".toList) (by decide)
  exact ⟨_, _, ha, hb, ofBytes_join ha hb (List.cons_ne_nil _ _) (List.cons_ne_nil _ _)⟩

end Loaded

end SettingsOverlay
