import SettingsOverlay.Proofs.Document.Numbers
import SettingsOverlay.Proofs.Json.Decimals
import SettingsOverlay.Proofs.Json.Equality

/-!
# The values of the numbers in a document

Numbers are never computed with: a document keeps the text of each, and two are equal if their texts
are. What that text denotes is what the literal denotes that it was read from. So reading, writing
and comparing documents respect the values of numbers, whatever their size.

* `Loaded.literal_keeps_value`: literals, what is kept of them, and what is equal.
-/

namespace SettingsOverlay.Loaded

open Json

/-- Numbers at the same address of equal documents are the same number. -/
theorem number_of_same {o o' : Object} {p : List Step} {n : Number}
    (h : (found o).same (found o') = true) (hn : (Value.object o).at? p = some (.number n)) :
    (Value.object o').at? p = some (.number n) := by
  obtain ⟨w, hw, hsame⟩ := Value.at?_of_same h hn
  rw [hw, Value.same_number_iff.1 hsame]

/-- A literal is read as a number that keeps its value, wherever it stands, unless what follows goes
on with it. So does each number in an object that was read, at any depth: it has a literal that it
was read from; its text, which is written for it, denotes what the literal denotes, and is read as
this number again. Numbers that compare equal were spelled by literals of the same value, and equal
documents have literals of the same value at the same addresses. -/
theorem literal_keeps_value :
    (∀ (n : Number) lit, n.Spelling lit → n.Keeps lit ∧ ∀ depth rest, Number.Stops rest →
      (Value.reader depth).run (lit ++ rest) = .ok (.number n, rest)) ∧
    (∀ bs o p n, ofBytes bs = found o → (Value.object o).at? p = some (.number n) →
      (∃ lit, LiteralAt bs o p lit) ∧ (∀ lit, LiteralAt bs o p lit → n.Keeps lit) ∧
      o.WrittenAt p (Utf8.encode n.chars) ∧ ofBytes o.toBytes = found o) ∧
    (∀ (m n : Number) lit lit', m.Spelling lit → n.Spelling lit' →
      (Value.number m).same (.number n) = true → Decimal.value lit = Decimal.value lit') ∧
    ∀ bs bs' o o' p lit, ofBytes bs = found o → ofBytes bs' = found o' →
      (found o).same (found o') = true → LiteralAt bs o p lit →
      (∃ lit', LiteralAt bs' o' p lit') ∧
        ∀ lit', LiteralAt bs' o' p lit' → Decimal.value lit = Decimal.value lit' := by
  have hequal (m n : Number) (lit lit' : Bytes) (hm : m.Spelling lit) (hn : n.Spelling lit')
      (h : (Value.number m).same (.number n) = true) : Decimal.value lit = Decimal.value lit' := by
    obtain rfl := Value.number.inj (Value.same_number_iff.1 h)
    exact (Number.value_of_spelling hm).trans (Number.value_of_spelling hn).symm
  refine ⟨fun n lit hn => ?_, fun bs o p n ho hn => ?_, hequal,
    fun bs bs' o o' p lit ho ho' h hlit => ?_⟩
  · exact ⟨Number.keeps_of_spelling hn, fun depth _ => Number.run_spelling hn depth⟩
  · refine ⟨exists_literalAt ho hn, fun lit hlit => Number.keeps_of_spelling (hlit.spelling hn),
      (Object.writtenAt_iff hn).2 rfl, ofBytes_toBytes ?_⟩
    have hstorable := storable_object bs
    rwa [ho] at hstorable
  · obtain ⟨n, -, hn, -⟩ := id hlit
    have hn' := number_of_same h hn
    exact ⟨exists_literalAt ho' hn', fun lit' hlit' =>
      hequal n n lit lit' (hlit.spelling hn) (hlit'.spelling hn') (Value.same_number_iff.2 rfl)⟩

/-- Two documents whose literals differ in the exponent: the same number is kept of both. -/
theorem literal_keeps_value_exponent :
    ∃ o n, ofBytes (Utf8.encode "\x7b\"a\":-2.50E3\x7d".toList) = found o ∧
      ofBytes (Utf8.encode "\x7b\"a\":-2.50e+3\x7d".toList) = found o ∧
      (Value.object o).at? [.key "a"] = some (.number n) ∧
      n.Keeps (Utf8.encode "-2.50E3".toList) ∧
      Decimal.value (Utf8.encode "-2.50E3".toList) =
        Decimal.value (Utf8.encode "-2.50e+3".toList) ∧
      Decimal.value (Utf8.encode "-2.50E3".toList) = -2500 := by
  let n : Number := ⟨true, .positive 1 [], some ⟨5, [0]⟩, some ⟨false, ⟨3, []⟩⟩⟩
  have hn : n.Spelling (Utf8.encode "-2.50E3".toList) := .mk (n := n) (.unsigned (.inr rfl) rfl)
  have hn' : n.Spelling (Utf8.encode "-2.50e+3".toList) := .mk (n := n) (.plus (.inl rfl) rfl)
  have hread := ofBytes_number hn
  have hread' := ofBytes_number hn'
  have hlit {lit : Bytes} (h : n.Spelling lit) :
      LiteralAt (Utf8.encode "\x7b\"a\":".toList ++ lit ++ Utf8.encode "\x7d".toList)
        [("a", .number n)] [.key "a"] lit :=
    ⟨n, _, rfl, ⟨_, _, rfl, fun _ _ hm => ofBytes_number hm⟩, .literal h⟩
  obtain ⟨-, hkept, -, hequal⟩ := literal_keeps_value
  obtain ⟨-, hkeeps, -⟩ := hkept _ _ [.key "a"] n hread rfl
  obtain ⟨-, hvalue⟩ := hequal _ _ _ _ _ _ hread hread' (by decide) (hlit hn)
  exact ⟨_, n, hread, hread', rfl, hkeeps _ (hlit hn), hvalue _ (hlit hn'), by decide +kernel⟩

end SettingsOverlay.Loaded
