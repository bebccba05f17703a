import SettingsOverlay.Proofs.Document
import SettingsOverlay.Proofs.Json.Equality

/-!
# Documents with members in another order

Equality of the documents that a program can hold. It does not see in which order the objects of a
document have their members, and sees everything else; nor does that order matter for overlaying.

* `Loaded.same_iff`: which documents are equal;
* `Loaded.same_laws`: equality is an equivalence relation that overlaying respects.
-/

namespace SettingsOverlay.Loaded

open Json

/-- A document that a program can hold: its object, if it has one, is such an object. -/
def Held : Loaded → Prop
  | found o => o.Held
  | missing | malformed _ => True

theorem found_same_iff {o p : Object} (h : o.Held) :
    (found o).same (found p) = true ↔ (Value.object o).Rearranged (.object p) :=
  Value.same_iff_rearranged h.storable.1.distinct

theorem same_iff_eq {d e : Loaded} (h : d.isObject = false) : d.same e = true ↔ d = e := by
  cases d with
  | found => cases h
  | missing => cases e <;> simp [same]
  | malformed => cases e <;> simp [same]

theorem same_iff {d e : Loaded} (h : d.Held) :
    d.same e = true ↔
      d = e ∨ ∃ o p, d = found o ∧ e = found p ∧ (Value.object o).Rearranged (.object p) := by
  cases d with
  | found o =>
    cases e with
    | found p =>
      rw [found_same_iff h]
      constructor
      · exact fun hr => .inr ⟨o, p, rfl, rfl, hr⟩
      · rintro (he | ⟨o', p', ho, hp, hr⟩)
        · exact found.inj he ▸ .refl _
        · exact found.inj ho ▸ found.inj hp ▸ hr
    | _ => simp [same]
  | _ => rw [same_iff_eq rfl]; simp

/-- Equality of documents is an equivalence relation. Two objects are equal if and only if the one
is the other with members of objects exchanged, at any depth, and other documents are equal to
themselves only. Objects that are equal to others can be laid over each other in their place. -/
theorem same_laws :
    Equivalence (fun d e : { d : Loaded // d.Held } => d.1.same e.1 = true) ∧
      (∀ o p : Object, o.Held → p.Held →
        ((found o).same (found p) = true ↔ (Value.object o).Rearranged (.object p))) ∧
      (∀ d e : Loaded, d.isObject = false → (d.same e = true ↔ d = e)) ∧
      ∀ t t' s s' : Object, t.Held → t'.Held → s.Held → s'.Held →
        (found t).same (found t') = true → (found s).same (found s') = true →
          (found (t.overlay s)).same (found (t'.overlay s')) = true := by
  refine ⟨⟨?refl, ?symm, ?trans⟩, fun o p ho _ => found_same_iff ho, fun d e => same_iff_eq,
    ?overlay⟩
  case refl => exact fun ⟨d, hd⟩ => (same_iff hd).2 (.inl rfl)
  case symm =>
    rintro ⟨d, hd⟩ ⟨e, he⟩ h
    rcases (same_iff hd).1 h with rfl | ⟨o, p, rfl, rfl, hr⟩
    · exact h
    · exact (found_same_iff he).2 hr.symm
  case trans =>
    rintro ⟨d, hd⟩ ⟨e, he⟩ ⟨f, hf⟩ h h'
    rcases (same_iff hd).1 h with rfl | ⟨o, p, rfl, rfl, hr⟩
    · exact h'
    rcases (same_iff he).1 h' with rfl | ⟨p', q, hp, rfl, hr'⟩
    · exact h
    · obtain rfl := found.inj hp
      exact (found_same_iff hd).2 (hr.trans hr')
  case overlay =>
    intro t t' s s' ht ht' hs hs' h h'
    exact Object.same_overlay ht.storable.nodup_keys ht'.storable.nodup_keys
      hs.storable.nodup_keys hs'.storable.nodup_keys h h'

/-- Members that are exchanged at two depths make no difference, elements that are exchanged do. -/
theorem same_laws_exchanged :
    ∃ o p q : Object, o = [("a", .object [("x", .null), ("y", .array [.null, .bool true])]),
        ("b", .null)] ∧
      p = [("b", .null), ("a", .object [("y", .array [.null, .bool true]), ("x", .null)])] ∧
      q = [("b", .null), ("a", .object [("y", .array [.bool true, .null]), ("x", .null)])] ∧
      o.Held ∧ p.Held ∧ q.Held ∧ (found o).same (found p) = true ∧
      ¬ (Value.object o).Rearranged (.object q) ∧
      (found (o.overlay p)).same (found (p.overlay o)) = true := by
  have ho : Object.Held [("a", .object [("x", .null), ("y", .array [.null, .bool true])]),
      ("b", .null)] := Object.held_iff_storable.2 (by decide)
  have hp : Object.Held [("b", .null),
      ("a", .object [("y", .array [.null, .bool true]), ("x", .null)])] :=
    Object.held_iff_storable.2 (by decide)
  have hq : Object.Held [("b", .null),
      ("a", .object [("y", .array [.bool true, .null]), ("x", .null)])] :=
    Object.held_iff_storable.2 (by decide)
  obtain ⟨⟨-, hsymm, -⟩, hiff, -, hoverlay⟩ := same_laws
  have hop := (hiff _ _ ho hp).2
    (.trans (.member [] "a" [("b", .null)] (.members (.swap _ _ [])))
      (.members (.swap _ _ [])))
  have hpo := hsymm (x := ⟨found _, ho⟩) (y := ⟨found _, hp⟩) hop
  exact ⟨_, _, _, rfl, rfl, rfl, ho, hp, hq, hop, fun hr => absurd ((hiff _ _ ho hq).2 hr)
    (by decide), hoverlay _ _ _ _ ho hp hp ho hop hpo⟩

end SettingsOverlay.Loaded
