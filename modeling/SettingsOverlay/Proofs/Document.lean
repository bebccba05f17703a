import SettingsOverlay.Document
import SettingsOverlay.Proofs.Json.Canonical
import SettingsOverlay.Proofs.Json.Uniqueness
import SettingsOverlay.Proofs.Json.Writing

/-!
# Documents are read as they were written

What `Loaded.ofBytes` makes of bytes, by the grammar alone, and how it undoes `Object.toBytes`.

* `Loaded.ofBytes_of_unmarked`: which bytes are JSON, and what they are taken for;
* `Object.Storable`: the objects that survive being written, `Loaded.ofBytes_toBytes`;
* `Object.held_iff_storable`: these are the objects that reading and overlaying can yield;
* `Object.Held.read_written`: so writing and reading loses nothing.
-/

namespace SettingsOverlay

open Json

/-! ## Reading -/

/-- The document that is a value. -/
def Loaded.ofValue : Value → Loaded
  | .object o => found o
  | v => malformed (.notObject v.kind)

namespace Loaded

theorem ofBytes_of_ofText {bs : Bytes} {v : Value} (h : Value.ofText bs = .ok v) :
    ofBytes bs = ofValue v := by
  rw [ofBytes, h]
  cases v <;> rfl

end Loaded

/-! ## Reading what was written -/

namespace Json.Object

/-- An object that is read back as it is once it is written: it is canonical, and its brackets
nest no deeper than a reader allows. -/
def Storable (o : Object) : Prop :=
  (Value.object o).Canonical ∧ (Value.object o).depth ≤ maxDepth

instance (o : Object) : Decidable o.Storable := inferInstanceAs (Decidable (_ ∧ _))

theorem storable_nil : Storable [] :=
  ⟨.object (by decide) (List.forall_mem_nil _), by decide⟩

theorem Storable.nodup_keys {o : Object} (h : o.Storable) : o.keys.Nodup :=
  (Value.everywhere_object_iff.1 h.1).1.1

theorem Storable.overlay {t s : Object} (ht : t.Storable) (hs : s.Storable) :
    (t.overlay s).Storable :=
  ⟨ht.1.overlay hs.1, Value.depth_overlay_le ht.2 hs.2⟩

end Json.Object

namespace Loaded

/-- Whatever bytes are, their object can be stored. -/
theorem storable_object (bs : Bytes) : (ofBytes bs).object.Storable := by
  cases h : Value.ofText bs with
  | error fault =>
    rw [ofBytes, h]
    exact Object.storable_nil
  | ok v =>
    obtain ⟨w, -, hd, hw⟩ := Value.ofText_eq_ok_iff.1 h
    obtain ⟨hc, hd'⟩ := Value.reading?_spec hw
    rw [ofBytes_of_ofText h]
    cases v with
    | object o => exact ⟨hc, Nat.le_trans hd' hd⟩
    | _ => exact Object.storable_nil

theorem ofBytes_toBytes {o : Object} (h : o.Storable) : ofBytes o.toBytes = found o :=
  ofBytes_of_ofText
    (Value.ofText_eq_ok_iff.2 ⟨.object o, o.text_toBytes, h.2, h.1.reading?_self⟩)

end Loaded

namespace Json.Object

/-- The objects that a program can hold: what some bytes are taken for, and such objects laid over
each other, nested in any way. -/
inductive Held : Object → Prop where
  | read (bs : Bytes) : Held (Loaded.ofBytes bs).object
  | overlay {t s : Object} : Held t → Held s → Held (t.overlay s)

theorem Held.storable {o : Object} (h : o.Held) : o.Storable := by
  induction h with
  | read bs => exact Loaded.storable_object bs
  | overlay _ _ iht ihs => exact iht.overlay ihs

/-- The invariant is exact: an object can be held if and only if it can be stored. -/
theorem held_iff_storable {o : Object} : o.Held ↔ o.Storable := by
  refine ⟨Held.storable, fun h => ?_⟩
  have hr := Held.read o.toBytes
  rwa [Loaded.ofBytes_toBytes h] at hr

/-- An object that a program holds is read back as it is, once it is written, and then written as
before. -/
theorem Held.read_written {o : Object} (h : o.Held) :
    Loaded.ofBytes o.toBytes = .found o ∧
      (Loaded.ofBytes o.toBytes).object.toBytes = o.toBytes := by
  rw [Loaded.ofBytes_toBytes h.storable]
  exact ⟨rfl, rfl⟩

/-- Two members, laid over an object that has one of them. -/
theorem Held.read_written_overlay :
    Held (Object.overlay [("a", .bool true)] [("b", .null), ("a", .array [])]) ∧
      Loaded.ofBytes (toBytes
        (Object.overlay [("a", .bool true)] [("b", .null), ("a", .array [])])) =
          .found [("a", .array []), ("b", .null)] := by
  have ht : Held [("a", .bool true)] :=
    held_iff_storable.2 ⟨.object (by decide) (List.forall_mem_singleton.2 .bool), by decide⟩
  have hs : Held [("b", .null), ("a", .array [])] :=
    held_iff_storable.2 ⟨.object (by decide) (List.forall_mem_cons.2
      ⟨.null, List.forall_mem_singleton.2 (.array (List.forall_mem_nil _))⟩), by decide⟩
  exact ⟨ht.overlay hs, (Held.read_written (ht.overlay hs)).1⟩

end Json.Object

end SettingsOverlay
