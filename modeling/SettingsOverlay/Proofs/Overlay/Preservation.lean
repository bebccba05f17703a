import SettingsOverlay.Proofs.Json.Uniqueness
import SettingsOverlay.Proofs.Overlay

/-!
# What a run keeps of the text of its target

The text of an object may repeat a key, and an object in it may stand for a number; or it only
seems to, and then no part of the text is read. What a run keeps is stated of the text itself, as
the grammar has it.

* `Json.last?`: the value of the last member with a key;
* `Json.ReadAsObject`: the members of a text that is read as an object;
* `Loaded.object_of_text`, `Loaded.object_of_text_unread`: the object that a text is taken for;
* `Loaded.keepsLast_overlay_iff`: what it keeps under a supplement;
* `Overlay.run_keeps_text_iff`: when a run keeps the last values of the text it replaces.
-/

namespace SettingsOverlay

namespace Json

/-! ## Members of a text -/

/-- The value of the last member with a key. -/
def last? (ms : List (String × Value)) (key : String) : Option Value := ms.reverse.lookup key

theorem last?_cons (m : String × Value) (ms : List (String × Value)) (key : String) :
    last? (m :: ms) key = (last? ms key).or (if key = m.1 then some m.2 else none) := by
  rw [last?, List.reverse_cons, List.lookup_append, List.lookup_cons, List.lookup_nil]
  by_cases h : key = m.1
  · rw [beq_iff_eq.2 h, if_pos h]
    rfl
  · rw [beq_eq_false_iff_ne.2 h, if_neg h]
    rfl

theorem exists_last? {ms : List (String × Value)} {key : String} (h : key ∈ Object.keys ms) :
    ∃ v, last? ms key = some v := by
  apply Option.ne_none_iff_exists'.1
  intro hnone
  apply Object.get?_eq_none_iff.1 hnone
  rw [Object.keys, List.map_reverse, List.mem_reverse]
  exact h

theorem exists_mem_of_last? {ms : List (String × Value)} {key : String} {v : Value}
    (h : last? ms key = some v) : ∃ m ∈ ms, m.2 = v := by
  induction ms with
  | nil => contradiction
  | cons m ms ih =>
    rw [last?_cons, Option.or_eq_some_iff] at h
    rcases h with h | ⟨-, h⟩
    · obtain ⟨n, hn, hv⟩ := ih h
      exact ⟨n, List.mem_cons_of_mem m hn, hv⟩
    · split at h
      · exact ⟨m, List.mem_cons_self, Option.some.inj h⟩
      · contradiction

theorem Object.get?_ofMembers (ms : List (String × Value)) (key : String) :
    (Object.ofMembers ms).get? key = last? ms key := by
  rw [ofMembers, get?_overlay, last?]
  exact Option.or_none

theorem isSome_readingMembers?_iff {ms : List (String × Value)} :
    (readingMembers? ms).isSome ↔ ∀ m ∈ ms, m.2.reading?.isSome := by
  simp only [Option.isSome_iff_exists]
  induction ms with
  | nil => exact ⟨fun _ => List.forall_mem_nil _, fun _ => ⟨[], rfl⟩⟩
  | cons m ms ih =>
    obtain ⟨k, v⟩ := m
    rw [List.forall_mem_cons, ← ih]
    constructor
    · rintro ⟨ns, h⟩
      obtain ⟨w, ns', hv, hms, -⟩ := readingMembers?_cons.1 h
      exact ⟨⟨w, hv⟩, ns', hms⟩
    · rintro ⟨⟨w, hv⟩, ns, hms⟩
      exact ⟨(k, w) :: ns, readingMembers?_cons.2 ⟨w, ns, hv, hms, rfl⟩⟩

/-- Members are read one by one, so the last one of a key stays the last. -/
theorem last?_of_readingMembers? {ms ns : List (String × Value)} (h : readingMembers? ms = some ns)
    (key : String) : last? ns key = (last? ms key).bind Value.reading? := by
  induction ms generalizing ns with
  | nil =>
    obtain rfl := Option.some.inj h
    rfl
  | cons m ms ih =>
    obtain ⟨k, v⟩ := m
    obtain ⟨w, ns, hv, hms, rfl⟩ := readingMembers?_cons.1 h
    rw [last?_cons, last?_cons, ih hms]
    cases hlast : last? ms key with
    | none =>
      by_cases hk : key = k
      · simp [hk, hv]
      · simp [hk]
    | some u =>
      obtain ⟨n, hn, rfl⟩ := exists_mem_of_last? hlast
      have hsome := isSome_readingMembers?_iff.1 (Option.isSome_of_eq_some hms) n hn
      obtain ⟨x, hx⟩ := Option.isSome_iff_exists.1 hsome
      simp [hx]

/-- Members whose object is read as one: it does not stand for a number, and each value of theirs
is read. -/
def ReadAsObject (ms : List (String × Value)) : Prop :=
  ¬ StartsWithNumberKey ms ∧ ∀ m ∈ ms, m.2.reading?.isSome

theorem readAsObject_of_unmarked {ms : List (String × Value)} (h : (Value.object ms).Unmarked) :
    ReadAsObject ms := by
  obtain ⟨hfirst, hvalues⟩ := Value.everywhere_object_iff.1 h
  refine ⟨hfirst, fun m hm => ?_⟩
  exact Option.isSome_of_eq_some (Value.Unmarked.reading?_eq_denoted (hvalues m hm))

theorem reading?_last?_of_unmarked {ms : List (String × Value)} (h : (Value.object ms).Unmarked)
    (key : String) : (last? ms key).bind Value.reading? = (last? ms key).map Value.denoted := by
  obtain ⟨-, hvalues⟩ := Value.everywhere_object_iff.1 h
  cases hlast : last? ms key with
  | none => rfl
  | some v =>
    obtain ⟨m, hm, rfl⟩ := exists_mem_of_last? hlast
    exact Value.Unmarked.reading?_eq_denoted (hvalues m hm)

/-- The last values of some members are in an object, but for the keys of another one. -/
def KeepsLast (o : Object) (ms : List (String × Value)) (except : Object) : Prop :=
  ∀ key ∈ Object.keys ms, key ∉ except.keys → o.get? key = (last? ms key).map Value.denoted

end Json

open Json

/-! ## The object that a text is taken for -/

namespace Loaded

variable {ms : List (String × Value)} {bs : Bytes}

theorem object_of_text (ht : (Value.object ms).Text bs) (hd : (Value.object ms).depth ≤ 127)
    (hr : ReadAsObject ms) (key : String) :
    (ofBytes bs).object.get? key = (last? ms key).bind Value.reading? := by
  obtain ⟨ns, hns⟩ := Option.isSome_iff_exists.1 (isSome_readingMembers?_iff.2 hr.2)
  have hv : (Value.object ms).reading? = some (.object (Object.ofMembers ns)) := by
    rw [Value.reading?, if_neg hr.1, hns]
    rfl
  rw [ofBytes_of_ofText (ht.ofText_eq_ok_iff.2 ⟨hd, hv⟩), ← last?_of_readingMembers? hns key]
  exact Object.get?_ofMembers ns key

theorem object_of_text_unread (ht : (Value.object ms).Text bs) (hr : ¬ ReadAsObject ms) :
    (ofBytes bs).object = [] := by
  cases hv : Value.ofText bs with
  | error fault =>
    rw [ofBytes, hv]
    rfl
  | ok w =>
    obtain ⟨-, hw⟩ := ht.ofText_eq_ok_iff.1 hv
    rw [ofBytes_of_ofText hv]
    rw [Value.reading?] at hw
    split at hw
    · -- The text is that of a number, so it is of no object.
      obtain ⟨n, -, rfl⟩ := Option.map_eq_some_iff.1 hw
      rfl
    · rename_i hn
      obtain ⟨ns, hns, -⟩ := Option.map_eq_some_iff.1 hw
      exact absurd ⟨hn, isSome_readingMembers?_iff.1 (Option.isSome_of_eq_some hns)⟩ hr

/-- A supplement that is laid over a text leaves it the last values of its other keys, if there are
none, or if the text is read as an object and those values are read for what they denote. -/
theorem keepsLast_overlay_iff (ht : (Value.object ms).Text bs)
    (hd : (Value.object ms).depth ≤ 127) (s : Object) :
    KeepsLast ((ofBytes bs).object.overlay s) ms s ↔
      (∀ key ∈ Object.keys ms, key ∈ s.keys) ∨
      ReadAsObject ms ∧ ∀ key ∈ Object.keys ms, key ∉ s.keys →
        (last? ms key).bind Value.reading? = (last? ms key).map Value.denoted := by
  by_cases hread : ReadAsObject ms
  · have hget := object_of_text ht hd hread
    constructor
    · intro hk
      refine .inr ⟨hread, fun key hkey hn => ?_⟩
      rw [← hget, ← hk key hkey hn, Object.get?_overlay_of_not_mem hn]
    · rintro (hall | ⟨-, hv⟩) key hkey hn
      · exact absurd (hall key hkey) hn
      · rw [Object.get?_overlay_of_not_mem hn, hget, hv key hkey hn]
  · -- Nothing of the text is left, so it keeps a key only if the supplement has it.
    have hnil := object_of_text_unread ht hread
    constructor
    · intro hk
      refine .inl fun key hkey => Decidable.byContradiction fun hn => ?_
      have hnone := hk key hkey hn
      rw [Object.get?_overlay_of_not_mem hn, hnil] at hnone
      obtain ⟨v, hv⟩ := exists_last? hkey
      rw [hv] at hnone
      contradiction
    · rintro (hall | ⟨hr, -⟩) key hkey hn
      · exact absurd (hall key hkey) hn
      · exact absurd hr hread

end Loaded

/-! ## The text that is replaced -/

namespace Overlay

/-- When the target names a file whose content is the text of an object, a run keeps the last value
of every key that the text has and the supplement lacks, in exactly two cases: there is no such
key, or the text is read as an object and those values are read for what they denote. If no object
of the text begins with `numberKey`, the second is the case. -/
theorem run_keeps_text_iff {o : Overlay} {w w' : Workspace} {m : Object} {l : Location}
    {bs : Bytes} {ms : List (String × Value)} (h : w.perform o.run = (.ok m, w'))
    (hl : w.tree.resolve o.target = .ok l) (hf : w.tree.at? l = some (.file bs))
    (ht : (Value.object ms).Text bs) (hd : (Value.object ms).depth ≤ 127) :
    ∃ s, (w.perform (Document.load o.supplement)).1 = .ok s ∧
      w'.tree.resolve o.target = .ok l ∧ w'.tree.at? l = some (.file m.toBytes) ∧
      Loaded.ofBytes m.toBytes = .found m ∧
      (KeepsLast m ms s.object ↔
        (∀ key ∈ Object.keys ms, key ∈ s.object.keys) ∨
        ReadAsObject ms ∧ ∀ key ∈ Object.keys ms, key ∉ s.object.keys →
          (last? ms key).bind Value.reading? = (last? ms key).map Value.denoted) ∧
      ((Value.object ms).Unmarked → KeepsLast m ms s.object) := by
  obtain ⟨s, d, u, l', hs, hdoc, rfl, hu, hp, hl', hr⟩ := Tree.overlay_eq_ok (overlay_of_run h)
  have hg : w.tree.Grows w'.tree := hu.grows.trans (hp.grows hl')
  obtain rfl : l = l' := Except.ok.inj ((hg.resolve hl).symm.trans hr)
  obtain rfl : Loaded.ofBytes bs = d := by
    rw [Tree.document_of_resolve hl hf] at hdoc
    exact Except.ok.inj hdoc
  have hm := (Loaded.storable_object bs).overlay (Tree.storable_document hs)
  have hkeeps := Loaded.keepsLast_overlay_iff ht hd s.object
  refine ⟨s, ?_, hr, hp.self, Loaded.ofBytes_toBytes hm, hkeeps, fun hmark => hkeeps.2 (.inr ?_)⟩
  · rw [Workspace.perform_load, hs]
  · exact ⟨readAsObject_of_unmarked hmark, fun key _ _ => reading?_last?_of_unmarked hmark key⟩

theorem run_keeps_text_iff_twoFiles :
    ∃ w' s, (Workspace.mk twoFiles []).perform
        (run ⟨.ofText "s.json", .ofText "settings.json"⟩) =
          (.ok [("a", .bool true), ("b", .null)], w') ∧
      ((Workspace.mk twoFiles []).perform (Document.load (.ofText "s.json"))).1 = .ok s ∧
      KeepsLast [("a", .bool true), ("b", .null)] [("a", .bool true)] s.object := by
  obtain ⟨w', h, -⟩ := twoFiles_run
  have ht := Object.text_toBytes [("a", .bool true)]
  obtain ⟨s, hs, -, -, -, -, hk⟩ :=
    run_keeps_text_iff (l := ["settings.json"]) h rfl rfl ht (by decide)
  exact ⟨w', s, h, hs, hk (.object (by decide) (List.forall_mem_singleton.2 .bool))⟩

/-- The members of a text in which an object begins with `numberKey` and is no number. -/
def markedMembers : List (String × Value) :=
  [("a", .bool true), ("n", .object [(numberKey, .null)])]

/-- Two files, of which the second has that text. -/
def markedTarget : Tree :=
  [("s.json", .file (Object.toBytes [("b", .null)])),
    ("settings.json", .file (Object.toBytes markedMembers))]

/-- One value of the target begins with `numberKey`. The target is not read, and its other key is
gone after the run. -/
theorem run_loses_text :
    ∃ w', (Workspace.mk markedTarget []).perform
        (run ⟨.ofText "s.json", .ofText "settings.json"⟩) = (.ok [("b", .null)], w') ∧
      markedTarget.resolve (.ofText "settings.json") = .ok ["settings.json"] ∧
      markedTarget.at? ["settings.json"] = some (.file (Object.toBytes markedMembers)) ∧
      (Value.object markedMembers).Text (Object.toBytes markedMembers) ∧
      (Value.object markedMembers).depth ≤ 127 ∧
      markedTarget.resolve (.ofText "s.json") = .ok ["s.json"] ∧
      ((Workspace.mk markedTarget []).perform (Document.load (.ofText "s.json"))).1 =
        .ok (.found [("b", .null)]) ∧
      w'.tree.resolve (.ofText "settings.json") = .ok ["settings.json"] ∧
      w'.tree.at? ["settings.json"] = some (.file (Object.toBytes [("b", .null)])) ∧
      ¬ KeepsLast [("b", .null)] markedMembers [("b", .null)] := by
  have ha : (Path.ofText "settings.json").ancestors = [] := by cbv
  have hs : markedTarget.document (.ofText "s.json") = .ok (.found [("b", .null)]) := by
    have hr : markedTarget.resolve (.ofText "s.json") = .ok ["s.json"] := rfl
    rw [Tree.document_of_resolve hr rfl, twoFiles_read.1]
  have hd : markedTarget.document (.ofText "settings.json") =
      .ok (Loaded.ofBytes (Object.toBytes markedMembers)) := by
    have hr : markedTarget.resolve (.ofText "settings.json") = .ok ["settings.json"] := rfl
    exact Tree.document_of_resolve hr rfl
  have hnil : (Loaded.ofBytes (Object.toBytes markedMembers)).object = [] := by
    apply Loaded.object_of_text_unread (Object.text_toBytes markedMembers)
    intro hr
    have hsome := hr.2 ("n", .object [(numberKey, .null)]) (by simp [markedMembers])
    exact absurd hsome (by decide)
  have hu : markedTarget.makeParent (.ofText "settings.json") = (.ok (), markedTarget) := by
    rw [Tree.makeParent, ha]
  have hw : markedTarget.write (.ofText "settings.json")
      ((Loaded.ofBytes (Object.toBytes markedMembers)).object.overlay [("b", .null)]).toBytes =
        .ok (markedTarget.put (.file (Object.toBytes [("b", .null)])) ["settings.json"]) := by
    rw [hnil]
    rfl
  have hparts := Tree.overlay_of_parts (o := ⟨.ofText "s.json", .ofText "settings.json"⟩)
    hs hd hu hw
  rw [hnil] at hparts
  obtain ⟨w', hr, ht⟩ := run_of_overlay (w := ⟨markedTarget, []⟩) hparts
  refine ⟨w', hr, rfl, rfl, Object.text_toBytes markedMembers, by decide, rfl, ?_, ht ▸ rfl,
    ht ▸ rfl, fun hk => ?_⟩
  · rw [Workspace.perform_load, hs]
  · have hlost := hk "a" (by decide) (by decide)
    contradiction

end Overlay

end SettingsOverlay
